import EntityCore.Entity
import EntityCore.HexText

/-! The display form of a hash, parsed. The digest is cut out of the text by byte offsets,
two bytes at a time, and each cut goes to the reader of numbers: a cut through a character
panics, and a sign and a digit count as a byte. -/
namespace EntityCore
namespace Hash

open HexText Outcome Strings

def formatCodeForString (s : Str) : Option UInt8 :=
  if s = "ecfv1-sha256".toList then some hashAlgorithmSha256
  else if s = "ecfv1-sha384".toList then some hashAlgorithmSha384
  else none

/-! Cutting a text by byte offsets. -/

/-- What follows the first `n` bytes, if a character starts there. -/
def dropText : ℕ → Str → Option Str
  | 0, t => some t
  | _+1, [] => none
  | n+1, c::t => if c.utf8Size ≤ n+1 then dropText (n+1-c.utf8Size) t else none

/-- The first `n` bytes, if a character ends there. -/
def takeText : ℕ → Str → Option Str
  | 0, _ => some []
  | _+1, [] => none
  | n+1, c::t => if c.utf8Size ≤ n+1 then (takeText (n+1-c.utf8Size) t).map (c::·) else none

def sliceText (t : Str) (start stop : ℕ) : Option Str :=
  if start ≤ stop then (dropText start t).bind (takeText (stop-start)) else none

/-! Parsing. -/

inductive DisplayError where
  | panicked (text : String)
  | failed (error : HashError)

/-- The bytes from the i-th on. -/
def digestFromHex (hex : Str) : (n i : ℕ) → Except DisplayError {d : Bytes // d.length = n}
  | 0, _ => .ok ⟨[],rfl⟩
  | n+1, i => do
    let group ← okOr (sliceText hex (i*2) (i*2+2)) (.panicked "not a char boundary")
    let byte ← okOr (hexU8 group)
      (.failed (.invalidFormat ("invalid hex at position "++toString (i*2))))
    let rest ← digestFromHex hex n (i+1)
    return ⟨byte::rest.val,by rw [List.length_cons,rest.property]⟩

/-- `quoted` is the debug form of a text. -/
def fromDisplay (quoted : Str → String) (s : Str) : Except DisplayError Hash := do
  let (tag,hex) ← okOr (splitOnce ':' s)
    (.failed (.invalidFormat ("expected '<format>:<hex>', got "++quoted s)))
  let algorithm ← okOr (formatCodeForString tag)
    (.failed (.invalidFormat ("unknown format tag "++quoted tag)))
  match hl : digestLenForFormat algorithm with
  | none => .error (.failed (.unsupportedAlgorithm algorithm))
  | some expected =>
    if byteLength hex ≠ expected*2 then
      .error (.failed (.invalidFormat ("expected "++toString (expected*2)++ " hex chars for "++
        String.ofList tag++ ", got "++toString (byteLength hex))))
    else do
      let digest ← digestFromHex hex expected 0
      return ⟨algorithm,digest.val,by rw [hl,digest.property]⟩

/-- A known tag, a colon and the digits of the digest. -/
def IsDisplay (s : Str) (h : Hash) : Prop :=
  ∃ tag hex, s = tag++ ':'::hex ∧ formatCodeForString tag = some h.algorithm ∧ Spells hex h.digest

def Panics {α : Type} (result : Except DisplayError α) : Prop :=
  ∃ text, result = .error (.panicked text)

/-! The inputs that are not parsed as displays. -/

/-- Two bytes from here on end inside a character. -/
def Torn (c : Char) (rest : Str) : Prop :=
  3 ≤ c.utf8Size ∨ (c.utf8Size = 1 ∧ ∃ d more, rest = d::more ∧ 2 ≤ d.utf8Size)

/-- The cuts go well until one of them ends inside a character. -/
def TornHex (hex : Str) : Prop :=
  ∃ good bytes c rest, hex = good++c::rest ∧ ReadsHex good bytes ∧ Torn c rest

/-- Every cut is read as a byte, but some of them have a sign. -/
def SignedHex (hex : Str) : Prop := '+' ∈ hex ∧ ∃ bytes, ReadsHex hex bytes

/-- Behind a known tag stands a text as long as the digest that is torn or signed. -/
def Misread (s : Str) : Prop :=
  ∃ tag hex code n, s = tag++ ':'::hex ∧ formatCodeForString tag = some code ∧
    digestLenForFormat code = some n ∧ byteLength hex = n*2 ∧ (TornHex hex ∨ SignedHex hex)

/-! One cut. -/

theorem utf8Size_pos (c : Char) : 1 ≤ c.utf8Size := Char.utf8Size_pos c

theorem dropText_add {m n : ℕ} {t rest : Str} (h : dropText m t = some rest) :
    dropText (m+n) t = dropText n rest := by
  induction t generalizing m with
  | nil =>
    cases m with
    | zero => obtain rfl := Option.some.inj h; rw [Nat.zero_add]
    | succ m => cases h
  | cons c t ih =>
    cases m with
    | zero => obtain rfl := Option.some.inj h; rw [Nat.zero_add]
    | succ m =>
      simp only [dropText] at h
      split_ifs at h with hc
      rw [show m+1+n = m+n+1 by omega,dropText,if_pos (by omega),← ih h]
      congr 1
      omega

/-- A cut of two bytes succeeds on two characters of one byte and on one of two. -/
theorem takeText_two (t : Str) : takeText 2 t = match t with
    | [] => none
    | c::rest =>
      if c.utf8Size = 1 then match rest with
        | [] => none
        | d::_ => if d.utf8Size = 1 then some [c,d] else none
      else if c.utf8Size = 2 then some [c] else none := by
  cases t with
  | nil => rfl
  | cons c rest =>
    have hc := utf8Size_pos c
    rw [takeText]
    by_cases h1 : c.utf8Size = 1
    · simp only [h1,if_true]
      cases rest with
      | nil => rfl
      | cons d more =>
        have hd := utf8Size_pos d
        rw [if_pos (by omega)]
        show (takeText 1 (d::more)).map _ = _
        rw [takeText]
        by_cases hd1 : d.utf8Size = 1
        · simp [hd1,takeText]
        · rw [if_neg (by omega)]
          simp [hd1]
    · by_cases h2 : c.utf8Size = 2
      · simp [h2,takeText]
      · rw [if_neg (by omega)]
        simp [h1,h2]

section Cut

variable {hex rest : Str} {i : ℕ} (h : dropText (i*2) hex = some rest)
include h

theorem sliceText_here : sliceText hex (i*2) (i*2+2) = takeText 2 rest := by
  rw [sliceText,if_pos (by omega),h,Option.bind_some]
  congr 1
  omega

/-- The digits are read from the rest of the text alone. -/
theorem digestFromHex_succ (n : ℕ) : digestFromHex hex (n+1) i = (do
    let group ← okOr (takeText 2 rest) (.panicked "not a char boundary")
    let byte ← okOr (hexU8 group)
      (.failed (.invalidFormat ("invalid hex at position "++toString (i*2))))
    let more ← digestFromHex hex n (i+1)
    return ⟨byte::more.val,by rw [List.length_cons,more.property]⟩) := by
  rw [digestFromHex,sliceText_here h]

end Cut

theorem dropText_pair {hex more : Str} {i : ℕ} {a b : Char}
    (h : dropText (i*2) hex = some (a::b::more)) (ha : a.utf8Size = 1) (hb : b.utf8Size = 1) :
    dropText ((i+1)*2) hex = some more := by
  rw [show (i+1)*2 = i*2+2 by ring,dropText_add h]
  simp [dropText,ha,hb]

/-- A group that starts at a two-byte character is no number. -/
theorem hexU8_wide {c : Char} (hc : c.utf8Size = 2) : hexU8 [c] = none := by
  have hp : c ≠ '+' := by rintro rfl; revert hc; decide
  have hd : hexDigitValue c = none := by
    cases hx : hexDigitValue c with
    | none => rfl
    | some x =>
      rw [hexDigitValue_ascii hx] at hc
      cases hc
  unfold hexU8
  split
  · rename_i more heq
    exact absurd (List.cons.inj heq).1 hp
  · simp [hd]

/-! All of them. -/

/-- From any offset on, the bytes read are those that the rest of the text reads as. -/
theorem digestFromHex_ok {hex rest : Str} {n i : ℕ} (h : dropText (i*2) hex = some rest)
    (hl : byteLength rest = n*2) (d : {d : Bytes // d.length = n}) :
    digestFromHex hex n i = .ok d ↔ ReadsHex rest d.val := by
  induction n generalizing i rest with
  | zero =>
    have hrest : rest = [] := by
      cases rest with
      | nil => rfl
      | cons c t =>
        have hc := utf8Size_pos c
        rw [byteLength_cons] at hl
        omega
    subst hrest
    obtain ⟨d,hd⟩ := d
    obtain rfl := List.length_eq_zero_iff.mp hd
    exact ⟨fun _ => .nil,fun _ => rfl⟩
  | succ n ih =>
    rw [digestFromHex_succ h]
    obtain ⟨d,hd⟩ := d
    simp only [bind_ok,okOr_ok,pure_ok,Subtype.mk.injEq]
    constructor
    · rintro ⟨group,hg,byte,hb,more,hm,rfl⟩
      rw [takeText_two] at hg
      split at hg
      · cases hg
      · rename_i c t
        split_ifs at hg with h1 h2
        · split at hg
          · cases hg
          · rename_i d' t'
            split_ifs at hg with hd1
            obtain rfl := Option.some.inj hg
            rw [byteLength_cons,byteLength_cons,h1,hd1] at hl
            exact .cons hb ((ih (dropText_pair h h1 hd1) (by omega) more).mp hm)
        · obtain rfl := Option.some.inj hg
          rw [hexU8_wide h2] at hb
          cases hb
    · intro hr
      cases hr with
      | nil => cases hd
      | cons hab hrest =>
        rename_i a b byte text bytes
        obtain ⟨ha,hb⟩ := ascii_of_hexU8 hab
        have hn : bytes.length = n := by simpa using hd
        rw [byteLength_cons,byteLength_cons,ha,hb] at hl
        refine ⟨[a,b],by simp [takeText_two,ha,hb],byte,hab,⟨bytes,hn⟩,?_,rfl⟩
        exact (ih (dropText_pair h ha hb) (by omega) ⟨bytes,hn⟩).mpr hrest

theorem panics_bind {α β : Type} (x : Except DisplayError α) (f : α → Except DisplayError β) :
    Panics (x >>= f) ↔ Panics x ∨ ∃ a, x = .ok a ∧ Panics (f a) := by
  cases x with
  | error e => exact ⟨fun ⟨t,h⟩ => .inl ⟨t,by cases h; rfl⟩,
      fun h => h.elim (fun ⟨t,h⟩ => ⟨t,by cases h; rfl⟩) fun ⟨_,h,_⟩ => by cases h⟩
  | ok a =>
    constructor
    · exact fun h => .inr ⟨a,rfl,h⟩
    · rintro (⟨t,h⟩ | ⟨b,h,hp⟩)
      · cases h
      · cases h
        exact hp

theorem not_panics_ok {α : Type} (a : α) : ¬ Panics (.ok a) := by
  rintro ⟨t,h⟩
  cases h

theorem panics_okOr {α : Type} (o : Option α) (text : String) :
    Panics (okOr o (.panicked text)) ↔ o = none := by
  cases o with
  | none => exact ⟨fun _ => rfl,fun _ => ⟨text,rfl⟩⟩
  | some a => exact ⟨fun h => (not_panics_ok a h).elim,nofun⟩

theorem not_panics_failed {α : Type} (o : Option α) (e : HashError) :
    ¬ Panics (okOr o (.failed e)) := by
  rintro ⟨t,h⟩
  cases o <;> cases h

/-! Where a text is torn. -/

theorem tornHex_of_torn {c : Char} {t : Str} (h : Torn c t) : TornHex (c::t) :=
  ⟨[],[],c,t,rfl,.nil,h⟩

/-- A text that is not torn at once is torn behind a first group that is read. -/
theorem tornHex_cons {c : Char} {t : Str} (h : ¬ Torn c t) : TornHex (c::t) ↔
    ∃ d more byte, t = d::more ∧ hexU8 [c,d] = some byte ∧ TornHex more := by
  constructor
  · rintro ⟨good,bytes,c',t',heq,hr,htorn⟩
    cases hr with
    | nil =>
      rw [List.nil_append,List.cons.injEq] at heq
      rw [← heq.1,← heq.2] at htorn
      exact (h htorn).elim
    | cons hab hr =>
      rw [List.cons_append,List.cons_append,List.cons.injEq] at heq
      obtain ⟨rfl,rfl⟩ := heq
      exact ⟨_,_,_,rfl,hab,_,_,c',t',rfl,hr,htorn⟩
  · rintro ⟨d,more,byte,rfl,hab,good,bytes,c',t',rfl,hr,htorn⟩
    exact ⟨c::d::good,byte::bytes,c',t',rfl,.cons hab hr,htorn⟩

/-- A cut fails exactly inside a character, where enough bytes are left. -/
theorem takeText_two_eq_none {c : Char} {t : Str} (hl : 2 ≤ byteLength (c::t)) :
    takeText 2 (c::t) = none ↔ Torn c t := by
  have hc := utf8Size_pos c
  rw [takeText_two,Torn]
  by_cases h1 : c.utf8Size = 1
  · cases t with
    | nil => simp [h1] at hl
    | cons d more =>
      have hd := utf8Size_pos d
      by_cases hd1 : d.utf8Size = 1
      · simp [h1,hd1]
      · simp [h1,hd1]
        omega
  · by_cases h2 : c.utf8Size = 2
    · simp [h2]
    · simp only [h1,h2,if_false,false_and,or_false,true_iff]
      omega

/-- The digits panic exactly where the rest of the text is torn. -/
theorem digestFromHex_panics {hex rest : Str} {n i : ℕ} (h : dropText (i*2) hex = some rest)
    (hl : byteLength rest = n*2) : Panics (digestFromHex hex n i) ↔ TornHex rest := by
  induction n generalizing i rest with
  | zero =>
    refine ⟨fun hp => (not_panics_ok _ hp).elim,?_⟩
    rintro ⟨good,bytes,c,t,rfl,-,-⟩
    have hc := utf8Size_pos c
    simp only [byteLength,List.map_append,List.sum_append,List.map_cons,List.sum_cons] at hl
    omega
  | succ n ih =>
    cases rest with
    | nil => simp at hl
    | cons c t =>
      rw [digestFromHex_succ h,panics_bind,panics_okOr,takeText_two_eq_none (by omega)]
      by_cases htorn : Torn c t
      · exact ⟨fun _ => tornHex_of_torn htorn,fun _ => .inl htorn⟩
      · rw [tornHex_cons htorn,or_iff_right htorn]
        simp only [panics_bind,not_panics_failed,false_or,okOr_ok]
        constructor
        · rintro ⟨group,hg,byte,hb,hp⟩
          rw [takeText_two] at hg
          simp only at hg
          split_ifs at hg with h1 h2
          · split at hg
            · cases hg
            · rename_i d more
              split_ifs at hg with hd1
              obtain rfl := Option.some.inj hg
              rw [byteLength_cons,byteLength_cons,h1,hd1] at hl
              refine ⟨d,more,byte,rfl,hb,?_⟩
              rcases hp with hp | ⟨a,-,hp⟩
              · exact (ih (dropText_pair h h1 hd1) (by omega)).mp hp
              · exact (not_panics_ok _ hp).elim
          · obtain rfl := Option.some.inj hg
            rw [hexU8_wide h2] at hb
            cases hb
        · rintro ⟨d,more,byte,rfl,hab,hmore⟩
          have ⟨hc,hd⟩ := ascii_of_hexU8 hab
          rw [byteLength_cons,byteLength_cons,hc,hd] at hl
          exact ⟨[c,d],by simp [takeText_two,hc,hd],byte,hab,
            .inl ((ih (dropText_pair h hc hd) (by omega)).mpr hmore)⟩

/-! The whole display. -/

theorem colon_notMem_tag {tag : Str} {code : UInt8} (h : formatCodeForString tag = some code) :
    ':' ∉ tag := by
  unfold formatCodeForString at h
  split_ifs at h with h1 h2
  · subst h1; decide
  · subst h2; decide

section Display

variable (quoted : Str → String)

/-- Behind a known tag and with the right length, everything is up to the digits. -/
theorem fromDisplay_tagged {tag hex : Str} {code : UInt8} {n : ℕ}
    (htag : formatCodeForString tag = some code) (hcode : digestLenForFormat code = some n)
    (hl : byteLength hex = n*2) : (Panics (fromDisplay quoted (tag++ ':'::hex)) ↔ TornHex hex) ∧
      ∀ h : Hash, fromDisplay quoted (tag++ ':'::hex) = .ok h ↔
        h.algorithm = code ∧ ReadsHex hex h.digest := by
  have hsplit : splitOnce ':' (tag++ ':'::hex) = some (tag,hex) :=
    (splitOnce_eq_some _ _ _ _).mpr ⟨rfl,colon_notMem_tag htag⟩
  have hdrop : dropText (0*2) hex = some hex := by rw [Nat.zero_mul,dropText]
  have hrun : fromDisplay quoted (tag++ ':'::hex) = (digestFromHex hex n 0 >>= fun digest =>
      .ok ⟨code,digest.val,by rw [hcode,digest.property]⟩) := by
    rw [fromDisplay,hsplit]
    show (okOr (formatCodeForString tag) _ >>= _) = _
    rw [htag]
    show (match hl : digestLenForFormat code with | none => _ | some expected => _) = _
    split
    · rename_i hnone
      rw [hcode] at hnone
      cases hnone
    · rename_i expected hexpected
      rw [hcode] at hexpected
      obtain rfl := Option.some.inj hexpected
      rw [if_neg (not_not.mpr hl)]
      rfl
  rw [hrun]
  constructor
  · rw [panics_bind,digestFromHex_panics hdrop hl,or_iff_left]
    rintro ⟨a,-,hp⟩
    exact not_panics_ok _ hp
  · intro h
    simp only [bind_ok,digestFromHex_ok hdrop hl,Except.ok.injEq]
    constructor
    · rintro ⟨digest,hr,rfl⟩
      exact ⟨rfl,hr⟩
    · rintro ⟨rfl,hr⟩
      have hlen := h.digest_length
      rw [hcode] at hlen
      exact ⟨⟨h.digest,(Option.some.inj hlen).symm⟩,hr,rfl⟩

theorem fromDisplay_untagged {s : Str} (hs : ¬ ∃ tag hex code n, s = tag++ ':'::hex ∧
      formatCodeForString tag = some code ∧ digestLenForFormat code = some n ∧
      byteLength hex = n*2) : ∃ e, fromDisplay quoted s = .error (.failed e) := by
  unfold fromDisplay
  cases hsplit : splitOnce ':' s with
  | none => exact ⟨_,rfl⟩
  | some p =>
    obtain ⟨tag,hex⟩ := p
    have hsplit := (splitOnce_eq_some _ _ _ _).mp hsplit
    show ∃ e, (okOr (formatCodeForString tag) _ >>= _) = Except.error (DisplayError.failed e)
    cases htag : formatCodeForString tag with
    | none => exact ⟨_,rfl⟩
    | some code =>
      show ∃ e, (match hl : digestLenForFormat code with | none => _ | some expected => _) =
        Except.error (DisplayError.failed e)
      split
      · exact ⟨_,rfl⟩
      · rename_i expected hexpected
        by_cases hl : byteLength hex = expected*2
        · exact (hs ⟨tag,hex,code,expected,hsplit.1,htag,hexpected,hl⟩).elim
        · rw [if_pos hl]
          exact ⟨_,rfl⟩

theorem IsDisplay.tagged {s : Str} {h : Hash} (hs : IsDisplay s h) :
    ∃ tag hex code n, s = tag++ ':'::hex ∧ formatCodeForString tag = some code ∧
      digestLenForFormat code = some n ∧ byteLength hex = n*2 := by
  obtain ⟨tag,hex,rfl,htag,hspells⟩ := hs
  refine ⟨tag,hex,h.algorithm,h.digest.length,rfl,htag,h.digest_length,?_⟩
  rw [(spells_iff.mp hspells).1.byteLength,Nat.mul_comm]

theorem hexDigit_value : ∀ n : Fin 16, hexDigitValue (hexDigit n) = some n.val := by
  decide

/-- The written digits spell the bytes they were written from. -/
theorem spells_hexStr (bytes : Bytes) : Spells (hexStr bytes) bytes := by
  induction bytes with
  | nil => exact .nil
  | cons b bytes ih =>
    have hb := b.toNat_lt
    have hhi := hexDigit_value ⟨b.toNat/16,by omega⟩
    have hlo := hexDigit_value ⟨b.toNat%16,by omega⟩
    have hbyte : UInt8.ofNat (16*(b.toNat/16)+b.toNat%16) = b := by
      rw [Nat.div_add_mod,UInt8.ofNat_toNat]
    have hs := Spells.cons hhi hlo ih
    rw [hbyte] at hs
    exact hs

theorem isDisplay_displayHash (h : Hash) : IsDisplay (HashError.displayHash h).toList h := by
  have hspells := spells_hexStr h.digest
  rcases h.algorithm_cases with ⟨ha,-⟩ | ⟨ha,-⟩
  · refine ⟨"ecfv1-sha256".toList,hexStr h.digest,?_,by rw [ha]; decide,hspells⟩
    simp [HashError.displayHash,ha,hashAlgorithmSha256]
  · refine ⟨"ecfv1-sha384".toList,hexStr h.digest,?_,by rw [ha]; decide,hspells⟩
    simp [HashError.displayHash,ha,hashAlgorithmSha256,hashAlgorithmSha384]

/-- What `from_display` has to do with a text. -/
def ParsedRightly (s : Str) : Prop :=
  ¬ Panics (fromDisplay quoted s) ∧ ∀ h, fromDisplay quoted s = .ok h ↔ IsDisplay s h

/-- Parsing accepts exactly the displays on every text but the torn and the signed ones. -/
theorem display_parsed_iff : (∀ s, ParsedRightly quoted s ↔ ¬ Misread s) ∧
      ∀ h : Hash, fromDisplay quoted (HashError.displayHash h).toList = .ok h := by
  have hmain : ∀ s, ParsedRightly quoted s ↔ ¬ Misread s := by
    intro s
    by_cases hs : ∃ tag hex code n, s = tag++ ':'::hex ∧ formatCodeForString tag = some code ∧
        digestLenForFormat code = some n ∧ byteLength hex = n*2
    · obtain ⟨tag,hex,code,n,rfl,htag,hcode,hl⟩ := hs
      obtain ⟨hpanics,hok⟩ := fromDisplay_tagged quoted htag hcode hl
      -- the tag and the digits can be told apart in one way
      have hinj : ∀ tag' hex', tag++ ':'::hex = tag'++ ':'::hex' → ':' ∉ tag' →
          tag = tag' ∧ hex = hex' := by
        intro tag' hex' heq hc
        have h1 := (splitOnce_eq_some ':' (tag++ ':'::hex) tag hex).mpr ⟨rfl,colon_notMem_tag htag⟩
        have h2 := (splitOnce_eq_some ':' (tag++ ':'::hex) tag' hex').mpr ⟨heq,hc⟩
        rw [h1] at h2
        exact Prod.mk.inj (Option.some.inj h2)
      have hdisplay : ∀ h : Hash, IsDisplay (tag++ ':'::hex) h ↔
          h.algorithm = code ∧ Spells hex h.digest := by
        intro h
        constructor
        · rintro ⟨tag',hex',heq,htag',hspells⟩
          obtain ⟨rfl,rfl⟩ := hinj tag' hex' heq (colon_notMem_tag htag')
          rw [htag] at htag'
          exact ⟨(Option.some.inj htag').symm,hspells⟩
        · rintro ⟨rfl,hspells⟩
          exact ⟨tag,hex,rfl,htag,hspells⟩
      have hmis : Misread (tag++ ':'::hex) ↔ TornHex hex ∨ SignedHex hex := by
        constructor
        · rintro ⟨tag',hex',code',n',heq,htag',-,-,hbad⟩
          obtain ⟨rfl,rfl⟩ := hinj tag' hex' heq (colon_notMem_tag htag')
          exact hbad
        · exact fun hbad => ⟨tag,hex,code,n,rfl,htag,hcode,hl,hbad⟩
      rw [ParsedRightly,hpanics,hmis,not_or]
      apply and_congr_right
      intro _
      simp only [hok,hdisplay,spells_iff]
      constructor
      · rintro h ⟨hplus,bytes,hr⟩
        have hlen : digestLenForFormat code = some bytes.length := by
          have hb := hr.byteLength
          rw [hcode]
          congr 1
          omega
        exact ((h ⟨code,bytes,hlen⟩).mp ⟨rfl,hr⟩).2.2 hplus
      · intro h hash
        refine ⟨fun ⟨ha,hr⟩ => ⟨ha,hr,fun hplus => h ⟨hplus,_,hr⟩⟩,fun ⟨ha,hr,_⟩ => ⟨ha,hr⟩⟩
    · obtain ⟨e,he⟩ := fromDisplay_untagged quoted hs
      have hmis : ¬ Misread s := by
        rintro ⟨tag,hex,code,n,heq,htag,hcode,hl,-⟩
        exact hs ⟨tag,hex,code,n,heq,htag,hcode,hl⟩
      refine iff_of_true ⟨?_,fun h => ⟨fun hok => ?_,fun hd => (hs hd.tagged).elim⟩⟩ hmis
      · rintro ⟨t,ht⟩
        rw [he] at ht
        cases ht
      · rw [he] at hok
        cases hok
  refine ⟨hmain,fun h => ?_⟩
  obtain ⟨tag,hex,heq,htag,hspells⟩ := isDisplay_displayHash h
  have hr := (spells_iff.mp hspells).1
  rw [heq]
  exact ((fromDisplay_tagged quoted htag h.digest_length (by rw [hr.byteLength,Nat.mul_comm])).2 h).mpr
    ⟨rfl,hr⟩

end Display

/-- Thirty-two signed zeros are parsed as the zero hash, and a cut through a letter of two
bytes panics. -/
theorem signed_display_parsed :
    (¬ ParsedRightly (fun _ => "")
      ("ecfv1-sha256:".toList++(List.replicate 32 "+0".toList).flatten)) ∧
    ¬ ParsedRightly (fun _ => "") ("ecfv1-sha256:aé".toList++List.replicate 61 '0') := by
  constructor
  · rintro ⟨-,hs⟩
    obtain ⟨tag,hex,heq,htag,hspells⟩ := (hs zero).mp rfl
    have hsplit := (splitOnce_eq_some ':' _ tag hex).mpr ⟨heq,colon_notMem_tag htag⟩
    have hknown : splitOnce ':' ("ecfv1-sha256:".toList++(List.replicate 32 "+0".toList).flatten) =
        some ("ecfv1-sha256".toList,(List.replicate 32 "+0".toList).flatten) := by decide
    rw [hknown] at hsplit
    obtain ⟨-,rfl⟩ := Prod.mk.inj (Option.some.inj hsplit)
    exact (spells_iff.mp hspells).2 (by decide)
  · exact fun h => h.1 ⟨_,rfl⟩

end Hash
end EntityCore
