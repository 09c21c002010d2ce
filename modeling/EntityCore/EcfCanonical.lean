import EntityCore.Ecf

/-! The canonical encoding identifies values: it splits uniquely off any byte
stream, and two values share it exactly when they differ only in the order of
map entries and in the payload of NaNs. -/
namespace EntityCore

open List
namespace Ecf

open ByteCode

/-- One float up to the choice of NaN; the two zeros stay apart. -/
def FloatSame (f g : UInt64) : Prop := f = g ∨ (isNan f ∧ isNan g)

theorem FloatSame.symm {f g : UInt64} : FloatSame f g → FloatSame g f
  | .inl h => .inl h.symm
  | .inr h => .inr h.symm

theorem FloatSame.trans {f g h : UInt64} (h₁ : FloatSame f g) (h₂ : FloatSame g h) :
    FloatSame f h := by
  rcases h₁ with rfl | h₁
  · exact h₂
  · rcases h₂ with rfl | h₂
    · exact .inr h₁
    · exact .inr ⟨h₁.1,h₂.2⟩

/-- Equality up to the order of map entries at every level and the choice of NaN. -/
inductive Same : Value → Value → Prop
  | null : Same .null .null
  | bool (b) : Same (.bool b) (.bool b)
  | integer (i) : Same (.integer i) (.integer i)
  | float {f g} (h : FloatSame f g) : Same (.float f) (.float g)
  | bytes (b) : Same (.bytes b) (.bytes b)
  | text (s) : Same (.text s) (.text s)
  | array {vs ws} (h : List.Forall₂ Same vs ws) : Same (.array vs) (.array ws)
  | map {m m' n} (hp : m.Perm m') (hk : List.Forall₂ Same (m'.map Prod.fst) (n.map Prod.fst))
      (hv : List.Forall₂ Same (m'.map Prod.snd) (n.map Prod.snd)) : Same (.map m) (.map n)

/-- Tag-free values in which no map has two keys with one encoding; no vector is
longer than the machine can address. -/
inductive WellFormed : Value → Prop
  | null : WellFormed .null
  | bool (b) : WellFormed (.bool b)
  | integer (i) : WellFormed (.integer i)
  | float (f) : WellFormed (.float f)
  | bytes {b} (hl : b.length < 2^63) : WellFormed (.bytes b)
  | text {s} (hl : (utf8 s).length < 2^63) : WellFormed (.text s)
  | array {vs} (hl : vs.length < 2^63) (h : ∀ v ∈ vs, WellFormed v) : WellFormed (.array vs)
  | map {m} (hl : m.length < 2^63) (hd : (m.map fun e => toEcf e.1).Nodup)
      (hk : ∀ e ∈ m, WellFormed e.1) (hv : ∀ e ∈ m, WellFormed e.2) : WellFormed (.map m)

/-! Heads. -/

/-- The five argument bits of a head's first byte. -/
def headInfo (value : ℕ) : ℕ :=
  if value < 24 then value else if value ≤ 0xFF then 24 else if value ≤ 0xFFFF then 25
  else if value ≤ 0xFFFFFFFF then 26 else 27

/-- How many bytes follow the first. -/
def infoWidth (info : ℕ) : ℕ := if info < 24 then 0 else 2^(info-24)

theorem encodeHead_eq (major : UInt8) (value : ℕ) : encodeHead major value =
    (major ||| UInt8.ofNat (headInfo value))::beBytes (infoWidth (headInfo value)) value := by
  unfold encodeHead headInfo
  split
  · rename_i h; simp [infoWidth,h,beBytes]
  · split
    · rfl
    · split
      · rfl
      · split <;> rfl

theorem headInfo_lt (value : ℕ) : headInfo value < 28 := by
  unfold headInfo; split_ifs <;> omega

theorem firstByte_toNat : ∀ k : Fin 8, ∀ i : Fin 32,
    (UInt8.ofNat (32*k) ||| UInt8.ofNat i).toNat = 32*k+i := by decide +kernel

/-- A major type is three bits above an empty argument. -/
def IsMajor (major : UInt8) (k : ℕ) : Prop := k < 8 ∧ major = UInt8.ofNat (32*k)

theorem IsMajor.firstByte {major : UInt8} {k i : ℕ} (h : IsMajor major k) (hi : i < 32) :
    (major ||| UInt8.ofNat i).toNat = 32*k+i := by
  rw [h.2]
  exact firstByte_toNat ⟨k,h.1⟩ ⟨i,hi⟩

theorem IsMajor.unsigned : IsMajor majorUnsigned 0 := ⟨by decide,by decide⟩
theorem IsMajor.negative : IsMajor majorNegative 1 := ⟨by decide,by decide⟩
theorem IsMajor.bytes : IsMajor majorBytes 2 := ⟨by decide,by decide⟩
theorem IsMajor.text : IsMajor majorText 3 := ⟨by decide,by decide⟩
theorem IsMajor.array : IsMajor majorArray 4 := ⟨by decide,by decide⟩
theorem IsMajor.map : IsMajor majorMap 5 := ⟨by decide,by decide⟩

/-- A head is read back from any stream it starts: minimality makes the argument
bits decide the width, and the width the value. -/
theorem encodeHead_split {major : UInt8} {k a b : ℕ} {r s : Bytes} (hm : IsMajor major k)
    (ha : a < 2^64) (hb : b < 2^64) (h : encodeHead major a++r = encodeHead major b++s) :
    a = b ∧ r = s := by
  simp only [encodeHead_eq,cons_append,cons.injEq] at h
  obtain ⟨hbyte,hrest⟩ := h
  have hi : headInfo a = headInfo b := by
    have hh := congrArg UInt8.toNat hbyte
    have la := headInfo_lt a
    have lb := headInfo_lt b
    rw [hm.firstByte (by omega),hm.firstByte (by omega)] at hh
    omega
  rw [hi] at hrest
  obtain ⟨hbytes,hrest⟩ := append_split (by simp) hrest
  refine ⟨?_,hrest⟩
  by_cases hs : headInfo b < 24
  · unfold headInfo at hi hs
    split_ifs at hi hs <;> omega
  · have bound : ∀ n : ℕ, n < 2^64 → headInfo n = headInfo b →
        n < 256^infoWidth (headInfo b) := by
      intro n hn he
      rw [← he] at hs ⊢
      unfold headInfo at hs ⊢
      split_ifs at hs ⊢ <;> simp [infoWidth] <;> omega
    exact beBytes_inj (bound a ha hi) (bound b hb rfl) hbytes

theorem encodeInteger_eq (i : Integer) : encodeInteger i =
    if 0 ≤ i.val then encodeHead majorUnsigned i.val.toNat
    else encodeHead majorNegative (-1-i.val).toNat := by
  have hi := i.inRange
  unfold encodeInteger
  split_ifs with h₁ h₂ h₃ h₄
  all_goals first
    | rfl
    | omega
    | rw [Nat.mod_eq_of_lt (by omega)]

/-! Floats. -/

theorem fields_toNat (f : UInt64) : f.toNat =
    (signBit f).toNat*2^63+(expBits f).toNat*2^52+(fracBits f).toNat := by
  have hs : (signBit f).toNat = f.toNat/2^63 := by
    simp [signBit,UInt64.toNat_shiftRight,Nat.shiftRight_eq_div_pow]
  have he : (expBits f).toNat = f.toNat/2^52%2^11 := by
    have hh := Nat.and_two_pow_sub_one_eq_mod (f.toNat/2^52) 11
    simpa [expBits,UInt64.toNat_and,UInt64.toNat_shiftRight,Nat.shiftRight_eq_div_pow] using hh
  have hf : (fracBits f).toNat = f.toNat%2^52 := by
    have hh := Nat.and_two_pow_sub_one_eq_mod f.toNat 52
    simpa [fracBits,UInt64.toNat_and] using hh
  have hlt := f.toNat_lt
  omega

theorem signBit_toNat_lt (f : UInt64) : (signBit f).toNat < 2 := by
  have hlt := f.toNat_lt
  have hf := fields_toNat f
  omega

/-- An infinity is one of two bit patterns. -/
theorem infinite_cases {f : UInt64} (h : isInfinite f) :
    (signBit f = 0 ∧ f = 0x7FF0000000000000) ∨ (signBit f ≠ 0 ∧ f = 0xFFF0000000000000) := by
  simp only [isInfinite,Bool.and_eq_true,decide_eq_true_eq] at h
  have hf := fields_toNat f
  have hs := signBit_toNat_lt f
  rw [h.1,h.2] at hf
  by_cases h0 : signBit f = 0
  · refine .inl ⟨h0,UInt64.toNat_inj.mp ?_⟩
    rw [h0] at hf
    exact hf
  · refine .inr ⟨h0,UInt64.toNat_inj.mp ?_⟩
    have h1 : (signBit f).toNat = 1 := by
      have hne : (signBit f).toNat ≠ 0 := fun hz => h0 (UInt64.toNat_inj.mp hz)
      omega
    rw [h1] at hf
    exact hf

theorem isZero_of_isNan {f : UInt64} (h : isNan f) : isZero f = false := by
  by_contra hz
  simp only [isZero,Bool.or_eq_false_iff,decide_eq_false_iff_not,not_and_or,not_not] at hz
  rcases hz with rfl | rfl <;> exact absurd h (by decide)

/-- Equal floats that are no zero have one bit pattern. -/
theorem eq_of_floatEq {f g : UInt64} (h : floatEq f g) (hz : isZero g = false) : f = g := by
  simp only [floatEq,hz,Bool.and_false,Bool.or_false,Bool.and_eq_true,decide_eq_true_eq] at h
  exact h.2

theorem tryEncodeHalf_some {f : UInt64} {h : UInt16} (hh : tryEncodeHalf f = some h) :
    FloatSame (f16ToF64 h) f := by
  unfold tryEncodeHalf at hh
  split at hh
  · rename_i hz
    simp only [isZero,Bool.or_eq_true,decide_eq_true_eq] at hz
    obtain rfl := Option.some.inj hh
    rcases hz with rfl | rfl <;> exact .inl (by decide)
  · rename_i hz
    split at hh
    · rename_i hn
      obtain rfl := Option.some.inj hh
      exact .inr ⟨by decide,hn⟩
    · split at hh
      · rename_i hi
        obtain rfl := Option.some.inj hh
        left
        rcases infinite_cases hi with ⟨hs,rfl⟩ | ⟨hs,rfl⟩ <;> decide
      · simp only [Option.ite_none_right_eq_some,Option.some.injEq] at hh
        rw [← hh.2]
        exact .inl (eq_of_floatEq hh.1 (by simpa using hz))

theorem tryEncodeHalf_none {f : UInt64} (h : tryEncodeHalf f = none) : isZero f = false := by
  unfold tryEncodeHalf at h
  by_contra hz
  rw [if_pos (by simpa using hz)] at h
  cases h

/-- Whatever width is chosen, the bytes give the float back. -/
theorem encodeFloat_cases (f : UInt64) :
    (∃ h : UInt16, encodeFloat f = floatHalf::beBytes 2 h.toNat ∧ FloatSame (f16ToF64 h) f) ∨
    (∃ s : UInt32, encodeFloat f = floatSingle::beBytes 4 s.toNat ∧ f32ToF64 s = f) ∨
    encodeFloat f = floatDouble::beBytes 8 f.toNat := by
  unfold encodeFloat
  split
  · rename_i h hh
    exact .inl ⟨h,rfl,tryEncodeHalf_some hh⟩
  · rename_i hh
    dsimp only
    split
    · rename_i hs
      exact .inr (.inl ⟨_,rfl,eq_of_floatEq hs (tryEncodeHalf_none hh)⟩)
    · exact .inr (.inr rfl)

/-- Fixed-width numbers behind one first byte are read back from any stream. -/
theorem beBytes_split {w m n : ℕ} {x y : UInt8} {r s : Bytes} (hm : m < 256^w) (hn : n < 256^w)
    (h : x::beBytes w m++r = y::beBytes w n++s) : m = n ∧ r = s := by
  simp only [cons_append,cons.injEq] at h
  obtain ⟨hb,hr⟩ := append_split (by simp) h.2
  exact ⟨beBytes_inj hm hn hb,hr⟩

theorem encodeFloat_split {f g : UInt64} {r s : Bytes}
    (h : encodeFloat f++r = encodeFloat g++s) : FloatSame f g ∧ r = s := by
  have clash : ∀ {x y : UInt8} {t u : Bytes}, x ≠ y → x::t ≠ y::u := fun hne he =>
    hne (cons.inj he).1
  rcases encodeFloat_cases f with ⟨a,hf,ha⟩ | ⟨a,hf,ha⟩ | hf <;>
    rcases encodeFloat_cases g with ⟨b,hg,hb⟩ | ⟨b,hg,hb⟩ | hg <;> rw [hf,hg] at h
  · obtain ⟨hn,hr⟩ := beBytes_split a.toNat_lt b.toNat_lt h
    obtain rfl := UInt16.toNat_inj.mp hn
    exact ⟨ha.symm.trans hb,hr⟩
  · exact (clash (by decide) h).elim
  · exact (clash (by decide) h).elim
  · exact (clash (by decide) h).elim
  · obtain ⟨hn,hr⟩ := beBytes_split a.toNat_lt b.toNat_lt h
    obtain rfl := UInt32.toNat_inj.mp hn
    exact ⟨.inl (ha.symm.trans hb),hr⟩
  · exact (clash (by decide) h).elim
  · exact (clash (by decide) h).elim
  · exact (clash (by decide) h).elim
  · obtain ⟨hn,hr⟩ := beBytes_split f.toNat_lt g.toNat_lt h
    exact ⟨.inl (UInt64.toNat_inj.mp hn),hr⟩

theorem encodeFloat_same {f g : UInt64} (h : FloatSame f g) : encodeFloat f = encodeFloat g := by
  rcases h with rfl | ⟨hf,hg⟩
  · rfl
  · have nan : ∀ {x : UInt64}, isNan x → tryEncodeHalf x = some 0x7E00 := by
      intro x hx
      simp [tryEncodeHalf,isZero_of_isNan hx,hx]
    simp only [encodeFloat,nan hf,nan hg]

/-! Kinds of value, told apart by the first byte. -/

def kind : Value → ℕ
  | .integer i => if 0 ≤ i.val then 0 else 1
  | .bytes _ => 2
  | .text _ => 3
  | .array _ => 4
  | .map _ => 5
  | .bool _ => 7
  | .null => 8
  | .float _ => 9
  | .tag _ _ => 10

def kindOfByte (b : UInt8) : ℕ :=
  if b.toNat/32 < 7 then b.toNat/32 else if b.toNat < 246 then 7 else if b.toNat = 246 then 8 else 9

theorem encodeHead_kind {major : UInt8} {k : ℕ} (hm : IsMajor major k) (hk : k < 7) (value : ℕ)
    (r : Bytes) : ∃ b t, encodeHead major value++r = b::t ∧ kindOfByte b = k := by
  refine ⟨_,_,by rw [encodeHead_eq]; rfl,?_⟩
  have hi := headInfo_lt value
  rw [kindOfByte,hm.firstByte (by omega),if_pos (by omega)]
  omega

theorem encodeFloat_kind (f : UInt64) : ∃ b t, encodeFloat f = b::t ∧ kindOfByte b = 9 := by
  rcases encodeFloat_cases f with ⟨_,h,_⟩ | ⟨_,h,_⟩ | h
  all_goals exact ⟨_,_,h,by decide⟩

theorem encodeValue_kind {v : Value} (hv : WellFormed v) :
    ∃ b t, encodeValue v = b::t ∧ kindOfByte b = kind v := by
  cases hv with
  | null => exact ⟨_,_,rfl,by decide⟩
  | bool b => exact ⟨_,_,rfl,by cases b <;> decide⟩
  | integer i =>
    simp only [encodeValue,encodeInteger_eq,kind]
    split
    · simpa using encodeHead_kind IsMajor.unsigned (by omega) i.val.toNat []
    · simpa using encodeHead_kind IsMajor.negative (by omega) (-1-i.val).toNat []
  | float f => exact encodeFloat_kind f
  | bytes hl => exact encodeHead_kind IsMajor.bytes (by omega) _ _
  | text hl => exact encodeHead_kind IsMajor.text (by omega) _ _
  | array hl h => exact encodeHead_kind IsMajor.array (by omega) _ _
  | map hl hd hk hv => exact encodeHead_kind IsMajor.map (by omega) _ _

/-- Two values written with one constructor, and integers of one sign. -/
inductive Alike : Value → Value → Prop
  | null : Alike .null .null
  | bool (b c) : Alike (.bool b) (.bool c)
  | integer (i j : Integer) (h : 0 ≤ i.val ↔ 0 ≤ j.val) : Alike (.integer i) (.integer j)
  | float (f g) : Alike (.float f) (.float g)
  | bytes (b c) : Alike (.bytes b) (.bytes c)
  | text (s t) : Alike (.text s) (.text t)
  | array (vs ws) : Alike (.array vs) (.array ws)
  | map (m n) : Alike (.map m) (.map n)

theorem alike_of_kind {v w : Value} (hv : WellFormed v) (hw : WellFormed w)
    (h : kind v = kind w) : Alike v w := by
  cases hv <;> cases hw <;> first
    | constructor; done
    | simp [kind] at h; done
    | simp only [kind] at h; split at h <;> omega
    | refine .integer _ _ ?_
      simp only [kind] at h
      split_ifs at h <;> omega

theorem alike_of_encoding {v w : Value} {r s : Bytes} (hv : WellFormed v) (hw : WellFormed w)
    (h : encodeValue v++r = encodeValue w++s) : Alike v w := by
  obtain ⟨b,t,hb,hkb⟩ := encodeValue_kind hv
  obtain ⟨c,u,hc,hkc⟩ := encodeValue_kind hw
  rw [hb,hc,cons_append,cons_append] at h
  apply alike_of_kind hv hw
  rw [← hkb,← hkc,(cons.inj h).1]

/-! Containers. -/

/-- A value whose encoding splits uniquely off every stream. -/
def Splits (v : Value) : Prop := ∀ w r s, WellFormed v → WellFormed w →
  encodeValue v++r = encodeValue w++s → Same v w ∧ r = s

theorem items_split {vs ws : List Value} {r s : Bytes} (ih : ∀ v ∈ vs, Splits v)
    (hv : ∀ v ∈ vs, WellFormed v) (hw : ∀ w ∈ ws, WellFormed w) (hl : vs.length = ws.length)
    (h : vs.flatMap encodeValue++r = ws.flatMap encodeValue++s) :
    List.Forall₂ Same vs ws ∧ r = s := by
  induction vs generalizing ws with
  | nil =>
    obtain rfl := length_eq_zero_iff.mp hl.symm
    exact ⟨.nil,by simpa using h⟩
  | cons v vs ihv =>
    cases ws with
    | nil => simp at hl
    | cons w ws =>
      simp only [flatMap_cons,append_assoc] at h
      obtain ⟨hsame,hrest⟩ := ih v (by simp) w _ _ (hv v (by simp)) (hw w (by simp)) h
      obtain ⟨hall,hr⟩ := ihv (fun x hx => ih x (by simp [hx])) (fun x hx => hv x (by simp [hx]))
        (fun x hx => hw x (by simp [hx])) (by simpa using hl) hrest
      exact ⟨.cons hsame hall,hr⟩

/-- Keys and values of an entry list, in the order they are written. -/
def flatten (m : List (Value × Value)) : List Value := m.flatMap fun e => [e.1,e.2]

theorem mem_flatten {m : List (Value × Value)} {v : Value} (h : v ∈ flatten m) :
    ∃ e ∈ m, v = e.1 ∨ v = e.2 := by
  simpa [flatten] using h

theorem flatten_length (m : List (Value × Value)) : (flatten m).length = 2*m.length := by
  induction m with
  | nil => rfl
  | cons e m ih => simp [flatten] at ih ⊢; omega

theorem flatten_forall₂ {R : Value → Value → Prop} {m n : List (Value × Value)}
    (hl : m.length = n.length) (h : List.Forall₂ R (flatten m) (flatten n)) :
    List.Forall₂ (fun a b => R a.1 b.1 ∧ R a.2 b.2) m n := by
  induction m generalizing n with
  | nil =>
    obtain rfl := length_eq_zero_iff.mp hl.symm
    exact .nil
  | cons e m ih =>
    cases n with
    | nil => simp at hl
    | cons d n =>
      simp only [flatten,flatMap_cons,cons_append,nil_append, forall₂_cons] at h
      exact .cons ⟨h.1,h.2.1⟩ (ih (by simpa using hl) h.2.2)

def encodedLe (a b : Value × Value) : Prop := keyLe (encodeValue a.1) (encodeValue b.1)

instance : DecidableRel encodedLe := fun a b =>
  inferInstanceAs (Decidable (keyLe (encodeValue a.1) (encodeValue b.1)))

/-- Sorting the encodings is encoding the sorted entries. -/
theorem encodeMap_eq (m : List (Value × Value)) : encodeMap (encodeEntries m) =
    encodeHead majorMap m.length++(flatten (m.insertionSort encodedLe)).flatMap encodeValue := by
  have hs : (encodeEntries m).insertionSort entryLe =
      (m.insertionSort encodedLe).map fun e => (encodeValue e.1,encodeValue e.2) := by
    rw [encodeEntries_eq]
    exact (map_insertionSort encodedLe entryLe _ m fun a _ b _ => Iff.rfl).symm
  rw [encodeMap,hs,encodeEntries_eq,length_map]
  congr 1
  generalize m.insertionSort encodedLe = l
  induction l with
  | nil => rfl
  | cons e l ih => simpa [flatten] using ih

theorem map_split {m n : List (Value × Value)} {r s : Bytes}
    (ih : ∀ e ∈ m, Splits e.1 ∧ Splits e.2) (hm : WellFormed (.map m)) (hn : WellFormed (.map n))
    (h : encodeValue (.map m)++r = encodeValue (.map n)++s) : Same (.map m) (.map n) ∧ r = s := by
  cases hm with | map hlm hdm hkm hvm =>
  cases hn with | map hln hdn hkn hvn =>
  have pm := perm_insertionSort encodedLe m
  have pn := perm_insertionSort encodedLe n
  simp only [encodeValue,encodeMap_eq,append_assoc] at h
  obtain ⟨hl,hbody⟩ := encodeHead_split IsMajor.map (by omega) (by omega) h
  have hls : (m.insertionSort encodedLe).length = (n.insertionSort encodedLe).length := by
    rw [pm.length_eq,pn.length_eq,hl]
  obtain ⟨hall,hr⟩ : List.Forall₂ Same (flatten (m.insertionSort encodedLe))
      (flatten (n.insertionSort encodedLe)) ∧ r = s := by
    refine items_split ?_ ?_ ?_ ?_ hbody
    · intro v hv
      obtain ⟨e,he,hve⟩ := mem_flatten hv
      have hh := ih e (pm.mem_iff.mp he)
      rcases hve with rfl | rfl
      exacts [hh.1,hh.2]
    · intro v hv
      obtain ⟨e,he,hve⟩ := mem_flatten hv
      rcases hve with rfl | rfl
      exacts [hkm e (pm.mem_iff.mp he),hvm e (pm.mem_iff.mp he)]
    · intro v hv
      obtain ⟨e,he,hve⟩ := mem_flatten hv
      rcases hve with rfl | rfl
      exacts [hkn e (pn.mem_iff.mp he),hvn e (pn.mem_iff.mp he)]
    · rw [flatten_length,flatten_length,hls]
  -- both sides are sorted here; undo the sort on the right to meet `n` itself
  have hsorted : Relation.Comp (List.Forall₂ fun a b => Same a.1 b.1 ∧ Same a.2 b.2) List.Perm
      (m.insertionSort encodedLe) n := ⟨_,flatten_forall₂ hls hall,pn⟩
  rw [forall₂_comp_perm_eq_perm_comp_forall₂] at hsorted
  obtain ⟨m',hm',hmn⟩ := hsorted
  refine ⟨.map (pm.symm.trans hm') ?_ ?_,hr⟩
  · rw [forall₂_map_left_iff,forall₂_map_right_iff]
    exact hmn.imp fun _ _ hab => hab.1
  · rw [forall₂_map_left_iff,forall₂_map_right_iff]
    exact hmn.imp fun _ _ hab => hab.2

/-- Unique decodability, by induction on the first value. -/
theorem encodeValue_split (v : Value) : Splits v := by
  induction v using Value.members_induction with
  | null =>
    intro w r s hv hw h
    cases alike_of_encoding hv hw h
    exact ⟨.null,by simpa using h⟩
  | bool b =>
    intro w r s hv hw h
    cases alike_of_encoding hv hw h with | bool _ c =>
    simp only [encodeValue,cons_append,nil_append,cons.injEq] at h
    have hbc : b = c := by
      have hh := h.1
      revert hh
      cases b <;> cases c <;> decide
    exact ⟨hbc ▸ .bool b,h.2⟩
  | integer i =>
    intro w r s hv hw h
    cases alike_of_encoding hv hw h with | integer _ j hsign =>
    have hi := i.inRange
    have hj := j.inRange
    simp only [encodeValue,encodeInteger_eq,← hsign] at h
    have hval : i.val = j.val ∧ r = s := by
      split at h
      · rename_i h0
        obtain ⟨hn,hr⟩ := encodeHead_split IsMajor.unsigned (by omega) (by omega) h
        exact ⟨by omega,hr⟩
      · rename_i h0
        obtain ⟨hn,hr⟩ := encodeHead_split IsMajor.negative (by omega) (by omega) h
        exact ⟨by omega,hr⟩
    have hij : i = j := by cases i; cases j; simpa using hval.1
    exact ⟨hij ▸ .integer i,hval.2⟩
  | float f =>
    intro w r s hv hw h
    cases alike_of_encoding hv hw h
    obtain ⟨hfg,hr⟩ := encodeFloat_split h
    exact ⟨.float hfg,hr⟩
  | bytes b =>
    intro w r s hv hw h
    cases alike_of_encoding hv hw h
    cases hv with | bytes hl =>
    cases hw with | bytes hl' =>
    simp only [encodeValue,encodeCborBstr,append_assoc] at h
    obtain ⟨hlen,hbody⟩ := encodeHead_split IsMajor.bytes (by omega) (by omega) h
    obtain ⟨rfl,hr⟩ := append_split hlen hbody
    exact ⟨.bytes b,hr⟩
  | text t =>
    intro w r s hv hw h
    cases alike_of_encoding hv hw h
    cases hv with | text hl =>
    cases hw with | text hl' =>
    simp only [encodeValue,encodeCborText,append_assoc] at h
    obtain ⟨hlen,hbody⟩ := encodeHead_split IsMajor.text (by omega) (by omega) h
    obtain ⟨hutf,hr⟩ := append_split hlen hbody
    obtain rfl := utf8_inj hutf
    exact ⟨.text t,hr⟩
  | array vs ih =>
    intro w r s hv hw h
    cases alike_of_encoding hv hw h
    cases hv with | array hl hvs =>
    cases hw with | array hl' hws =>
    simp only [encodeValue,encodeItems_eq,append_assoc] at h
    obtain ⟨hlen,hbody⟩ := encodeHead_split IsMajor.array (by omega) (by omega) h
    obtain ⟨hall,hr⟩ := items_split ih hvs hws hlen hbody
    exact ⟨.array hall,hr⟩
  | map m ih =>
    intro w r s hv hw h
    cases alike_of_encoding hv hw h
    exact map_split ih hv hw h
  | tag t v ih => intro w r s hv; cases hv

/-! The other direction: the encoding does not see what `Same` forgets. -/

theorem keyLe_antisymm {a b : Bytes} (hab : keyLe a b) (hba : keyLe b a) : a = b := by
  rcases hab with h | ⟨hl,h⟩ <;> rcases hba with h' | ⟨hl',h'⟩
  · omega
  · omega
  · omega
  · exact le_antisymm h h'

theorem keyLe_total (a b : Bytes) : keyLe a b ∨ keyLe b a := by
  rcases Nat.lt_trichotomy a.length b.length with h | h | h
  · exact .inl (.inl h)
  · exact (le_total a b).imp (fun hab => .inr ⟨h,hab⟩) fun hba => .inr ⟨h.symm,hba⟩
  · exact .inr (.inl h)

theorem keyLe_trans {a b c : Bytes} (hab : keyLe a b) (hbc : keyLe b c) : keyLe a c := by
  rcases hab with h | ⟨hl,h⟩ <;> rcases hbc with h' | ⟨hl',h'⟩
  · exact .inl (h.trans h')
  · exact .inl (hl' ▸ h)
  · exact .inl (hl ▸ h')
  · exact .inr ⟨hl.trans hl',h.trans h'⟩

instance : Std.Total entryLe := ⟨fun a b => keyLe_total a.1 b.1⟩
instance : IsTrans (Bytes × Bytes) entryLe := ⟨fun _ _ _ => keyLe_trans⟩

/-- With distinct keys the written order does not depend on the given one. -/
theorem encodeMap_perm {l l' : List (Bytes × Bytes)} (hp : l.Perm l')
    (hd : (l.map Prod.fst).Nodup) : encodeMap l = encodeMap l' := by
  have hs : l.insertionSort entryLe = l'.insertionSort entryLe := by
    have pl := perm_insertionSort entryLe l
    have pl' := perm_insertionSort entryLe l'
    refine (pl.trans (hp.trans pl'.symm)).eq_of_pairwise ?_
      (pairwise_insertionSort entryLe l) (pairwise_insertionSort entryLe l')
    intro a b ha hb hab hba
    have hb' : b ∈ l := hp.mem_iff.mpr (pl'.mem_iff.mp hb)
    exact inj_on_of_nodup_map hd (pl.mem_iff.mp ha) hb' (keyLe_antisymm hab hba)
  rw [encodeMap,encodeMap,hs,hp.length_eq]

theorem encodeValue_same {v : Value} : ∀ {w : Value}, WellFormed v → Same v w →
    encodeValue v = encodeValue w := by
  induction v using Value.members_induction with
  | float f => rintro _ - (_ | _ | _ | h); exact encodeFloat_same h
  | array vs ih =>
    intro w hv hs
    cases hv with | array _ hvs =>
    cases hs with | array h =>
    have hitems : ∀ {xs ys : List Value}, (∀ x ∈ xs, x ∈ vs) → List.Forall₂ Same xs ys →
        xs.flatMap encodeValue = ys.flatMap encodeValue := by
      intro xs ys hx hxy
      induction hxy with
      | nil => rfl
      | cons hab _ ihs =>
        simp only [forall_mem_cons] at hx
        simp only [flatMap_cons,ih _ hx.1 (hvs _ hx.1) hab,ihs hx.2]
    simp only [encodeValue,encodeItems_eq,hitems (fun _ hx => hx) h,h.length_eq]
  | map m ih =>
    intro w hv hs
    cases hv with | map _ hd hkm hvm =>
    cases hs with | map hp hk hv =>
    rename_i m' n
    rw [forall₂_map_left_iff,forall₂_map_right_iff] at hk hv
    have hentries : ∀ {xs ys : List (Value × Value)}, (∀ x ∈ xs, x ∈ m) →
        List.Forall₂ (fun a b => Same a.1 b.1) xs ys →
        List.Forall₂ (fun a b => Same a.2 b.2) xs ys → encodeEntries xs = encodeEntries ys := by
      intro xs ys hx hxk hxv
      induction hxk with
      | nil => rfl
      | @cons a b _ _ hab _ ihs =>
        simp only [forall_mem_cons] at hx
        cases hxv with | cons hab' hrest =>
        simp only [encodeEntries,ihs hx.2 hrest,(ih a hx.1).1 (hkm a hx.1) hab,
          (ih a hx.1).2 (hvm a hx.1) hab']
    simp only [encodeValue]
    rw [← hentries (fun x hx => hp.mem_iff.mpr hx) hk hv]
    apply encodeMap_perm
    · simp only [encodeEntries_eq]; exact hp.map _
    · rw [encodeEntries_eq,map_map]; exact hd
  | tag t v ih => intro w hv; cases hv
  | _ => rintro _ - ⟨⟩; rfl

theorem toEcf_identifies (v w : Value) (hv : WellFormed v) (hw : WellFormed w) :
    (toEcf v = toEcf w ↔ Same v w) ∧ (toEcf v <+: toEcf w → toEcf v = toEcf w) := by
  refine ⟨⟨fun h => ?_,encodeValue_same hv⟩,?_⟩
  · exact (encodeValue_split v w [] [] hv hw (by simpa [toEcf] using h)).1
  · rintro ⟨t,ht⟩
    have hh := encodeValue_split v w t [] hv hw (by simpa [toEcf] using ht)
    exact encodeValue_same hv hh.1

/-! Sizes. A document bounds the parts it is made of, and parts of known shape are
read off it. -/

theorem encodeHead_ne_nil (major : UInt8) (n : ℕ) : encodeHead major n ≠ [] := by
  unfold encodeHead
  split_ifs <;> simp

theorem length_le_encodeItems {vs : List Value} {v : Value} (h : v ∈ vs) :
    (encodeValue v).length ≤ (encodeItems vs).length := by
  rw [encodeItems_eq,length_flatMap]
  exact single_le_sum (by simp) _ (mem_map_of_mem h)

theorem length_le_encodeItems_of_ne_nil {vs : List Value} (h : ∀ v ∈ vs, encodeValue v ≠ []) :
    vs.length ≤ (encodeItems vs).length := by
  induction vs with
  | nil => exact Nat.zero_le _
  | cons v vs ih =>
    obtain ⟨hv,hvs⟩ := forall_mem_cons.mp h
    have hpos := length_pos_iff.mpr hv
    have hrest := ih hvs
    rw [encodeItems,length_append,length_cons]
    omega

theorem wellFormed_array {vs : List Value} (hne : ∀ v ∈ vs, encodeValue v ≠ [])
    (hvs : ∀ v ∈ vs, (encodeValue v).length < 2^63 → WellFormed v)
    (h : (encodeValue (.array vs)).length < 2^63) : WellFormed (.array vs) := by
  rw [encodeValue,length_append] at h
  have hitems := length_le_encodeItems_of_ne_nil hne
  refine .array (by omega) fun v hv => hvs v hv ?_
  have hone := length_le_encodeItems hv
  omega

theorem encodeValue_array_ne_nil (vs : List Value) : encodeValue (.array vs) ≠ [] := by
  rw [encodeValue]
  exact append_ne_nil_of_left_ne_nil (encodeHead_ne_nil _ _) _

theorem encodeValue_bytes_ne_nil (b : Bytes) : encodeValue (.bytes b) ≠ [] := by
  rw [encodeValue,encodeCborBstr]
  exact append_ne_nil_of_left_ne_nil (encodeHead_ne_nil _ _) _

theorem length_key_add_le_encodeMap {m : List (Value × Value)} {e : Value × Value} (h : e ∈ m) :
    (encodeValue e.1).length+(encodeValue e.2).length ≤ (encodeValue (.map m)).length := by
  have hmem : (encodeValue e.1,encodeValue e.2) ∈ (encodeEntries m).insertionSort entryLe := by
    rw [mem_insertionSort,encodeEntries_eq]
    exact mem_map_of_mem (f := fun e => (encodeValue e.1,encodeValue e.2)) h
  have hone := single_le_sum (l := ((encodeEntries m).insertionSort entryLe).map
    fun e => (e.1++e.2).length) (by simp) _ (mem_map_of_mem hmem)
  have hsum : (encodeValue (.map m)).length = (encodeHead majorMap (encodeEntries m).length).length+
      (((encodeEntries m).insertionSort entryLe).map fun e => (e.1++e.2).length).sum := by
    rw [encodeValue]
    unfold encodeMap
    rw [length_append,length_flatMap]
  simp only [length_append] at hone hsum
  omega

theorem length_le_encodeMap {m : List (Value × Value)} {e : Value × Value} (h : e ∈ m) :
    (encodeValue e.2).length ≤ (encodeValue (.map m)).length := by
  have hboth := length_key_add_le_encodeMap h
  omega

theorem eq_of_forall₂_same {α : Type} {f : α → Value} (hf : ∀ a b, Same (f a) (f b) → a = b)
    {as bs : List α} (h : List.Forall₂ Same (as.map f) (bs.map f)) : as = bs := by
  rw [forall₂_map_left_iff,forall₂_map_right_iff] at h
  exact forall₂_eq_eq_eq ▸ h.imp fun a b => hf a b

theorem eq_of_same_bytes {a b : Bytes} (h : Same (.bytes a) (.bytes b)) : a = b := by
  cases h
  rfl

theorem eq_of_same_text {a b : Str} (h : Same (.text a) (.text b)) : a = b := by
  cases h
  rfl

/-- A map listed in two orders, each with its own NaN. -/
def nanMap : Value := .map [(.text "b".toList,.float 0x7FF8000000000000),
  (.text "a".toList,.array [.null])]
def nanMapSwapped : Value := .map [(.text "a".toList,.array [.null]),
  (.text "b".toList,.float 0xFFF0000000000001)]

theorem nanMap_wellFormed : WellFormed nanMap :=
  .map (by decide) (by decide)
    (by simp only [forall_mem_cons]; exact ⟨.text (by decide),.text (by decide),by simp⟩)
    (by simp only [forall_mem_cons]
        exact ⟨.float _,.array (by decide) (by simpa using .null),by simp⟩)

theorem nanMapSwapped_wellFormed : WellFormed nanMapSwapped :=
  .map (by decide) (by decide)
    (by simp only [forall_mem_cons]; exact ⟨.text (by decide),.text (by decide),by simp⟩)
    (by simp only [forall_mem_cons]
        exact ⟨.array (by decide) (by simpa using .null),.float _,by simp⟩)

theorem toEcf_identifies_nanMap : toEcf nanMap = toEcf nanMapSwapped ∧ Same nanMap nanMapSwapped :=
  have he : toEcf nanMap = toEcf nanMapSwapped := by decide
  ⟨he,(toEcf_identifies nanMap nanMapSwapped nanMap_wellFormed nanMapSwapped_wellFormed).1.mp he⟩

end Ecf
end EntityCore
