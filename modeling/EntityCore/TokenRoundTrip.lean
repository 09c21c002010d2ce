import EntityCore.CapturedScopes
import EntityCore.TokenRestrictions

/-! Tokens encoded and decoded again. Some integers go through a signed machine word, and
there the decoder finds what it passes over. -/
namespace EntityCore

open Ecf Outcome Compute Option

/-! Integers within a signed machine word. -/

variable {v : Value} {name : String} {kv : Value × Value} {α β δ : Type} {R : α → β → Prop}
  {l : List (String × Option Value)}

namespace Ecf

/-- Every integer in the value fits a signed machine word. -/
inductive Signed : Value → Prop
  | null : Signed .null
  | bool (b) : Signed (.bool b)
  | integer {i} (h : -2^63 ≤ i.val ∧ i.val < 2^63) : Signed (.integer i)
  | float (f) : Signed (.float f)
  | bytes (b) : Signed (.bytes b)
  | text (s) : Signed (.text s)
  | array {vs} (h : ∀ v ∈ vs, Signed v) : Signed (.array vs)
  | map {m} (hk : ∀ e ∈ m, Signed e.1) (hv : ∀ e ∈ m, Signed e.2) : Signed (.map m)

theorem ciboriumItems_eq (vs : List Value) : ciboriumItems vs = vs.map ciboriumToEcf := by
  induction vs with
  | nil => rfl
  | cons v vs ih => rw [ciboriumItems,ih,List.map_cons]

theorem ciboriumEntries_eq (m : List (Value × Value)) :
    ciboriumEntries m = m.map fun e => (ciboriumToEcf e.1,ciboriumToEcf e.2) := by
  induction m with
  | nil => rfl
  | cons e m ih => rw [ciboriumEntries,ih,List.map_cons]

theorem integerI64_signed (n : ℤ) : Signed (integerI64 n) := by
  have hlow := Int.le_bmod (x := n) (m := 2^64) (by norm_num)
  have hhigh := Int.bmod_lt (x := n) (m := 2^64) (by norm_num)
  norm_num at hlow hhigh
  exact .integer ⟨hlow,hhigh⟩

theorem ciboriumToEcf_signed (v : Value) : Signed (ciboriumToEcf v) := by
  induction v using Value.members_induction with
  | null => exact .null
  | bool b => exact .bool b
  | integer i => exact integerI64_signed i.val
  | float f => exact .float f
  | bytes b => exact .bytes b
  | text s => exact .text s
  | array vs ih =>
    rw [ciboriumToEcf,ciboriumItems_eq]
    apply Signed.array
    intro w hw
    obtain ⟨v,hv,rfl⟩ := List.mem_map.mp hw
    exact ih v hv
  | map m ih =>
    rw [ciboriumToEcf,ciboriumEntries_eq]
    apply Signed.map
    · intro e he
      obtain ⟨e,hmem,rfl⟩ := List.mem_map.mp he
      exact (ih e hmem).1
    · intro e he
      obtain ⟨e,hmem,rfl⟩ := List.mem_map.mp he
      exact (ih e hmem).2
  | tag t v ih => exact .null

/-- The encoding changes nothing else than tags and integers that do not fit. -/
theorem ciboriumToEcf_self (htags : Tagless v) (h : Signed v) : ciboriumToEcf v = v := by
  induction v using Value.members_induction with
  | integer i =>
    cases h with
    | integer hi =>
      have hmod : i.val.bmod (2^64) = i.val := by
        apply Int.bmod_eq_of_le <;> norm_num <;> omega
      rw [ciboriumToEcf,integerI64]
      simp only [hmod]
  | array vs ih =>
    cases htags with | array htags =>
    cases h with | array h =>
    have hitems : vs.map ciboriumToEcf = vs.map id :=
      List.map_congr_left fun v hv => ih v hv (htags v hv) (h v hv)
    rw [ciboriumToEcf,ciboriumItems_eq,hitems,List.map_id]
  | map m ih =>
    cases htags with | map hktags hvtags =>
    cases h with | map hk hv =>
    have hentries : (m.map fun e => (ciboriumToEcf e.1,ciboriumToEcf e.2)) = m.map id := by
      apply List.map_congr_left
      intro e he
      rw [(ih e he).1 (hktags e he) (hk e he),(ih e he).2 (hvtags e he) (hv e he),id]
    rw [ciboriumToEcf,ciboriumEntries_eq,hentries,List.map_id]
  | tag t v ih => cases htags
  | _ => rfl

theorem forall_mem_of_forall₂ {P : α → Prop} {Q : β → Prop}
    {as : List α} {bs : List β} (h : List.Forall₂ R as bs)
    (hR : ∀ a ∈ as, ∀ b, R a b → (P a ↔ Q b)) : (∀ a ∈ as, P a) ↔ ∀ b ∈ bs, Q b := by
  induction h with
  | nil => simp
  | cons hab _ ih =>
    rw [List.forall_mem_cons,List.forall_mem_cons,hR _ List.mem_cons_self _ hab,
      ih fun a ha => hR a (List.mem_cons_of_mem _ ha)]

/-- Values that are the same have the same integers. -/
theorem signed_same (v : Value) : ∀ {w : Value}, Same v w → (Signed v ↔ Signed w) := by
  induction v using Value.members_induction with
  | float f =>
    intro w h
    cases h with | float _ =>
    exact iff_of_true (.float _) (.float _)
  | array vs ih =>
    intro w h
    cases h with | array hitems =>
    have hall := forall_mem_of_forall₂ hitems fun v hv w => ih v hv
    constructor
    · intro hv
      cases hv with | array hv =>
      exact .array (hall.mp hv)
    · intro hw
      cases hw with | array hw =>
      exact .array (hall.mpr hw)
  | map m ih =>
    intro w h
    cases h with | @map _ m' n hp hk hv =>
    have hkeys := forall_mem_of_forall₂ hk (P := Signed) (Q := Signed) fun k hmem w hkw => by
      obtain ⟨e,he,rfl⟩ := List.mem_map.mp hmem
      exact (ih e (hp.mem_iff.mpr he)).1 hkw
    have hvalues := forall_mem_of_forall₂ hv (P := Signed) (Q := Signed) fun v hmem w hvw => by
      obtain ⟨e,he,rfl⟩ := List.mem_map.mp hmem
      exact (ih e (hp.mem_iff.mpr he)).2 hvw
    simp only [List.forall_mem_map] at hkeys hvalues
    constructor
    · intro hm
      cases hm with | map hk hv =>
      exact .map (hkeys.mp fun e he => hk e (hp.mem_iff.mpr he))
        (hvalues.mp fun e he => hv e (hp.mem_iff.mpr he))
    · intro hm
      cases hm with | map hk hv =>
      exact .map (fun e he => hkeys.mpr hk e (hp.mem_iff.mp he))
        fun e he => hvalues.mpr hv e (hp.mem_iff.mp he)
  | tag t v ih =>
    intro w h
    cases h
  | _ =>
    intro w h
    cases h
    exact Iff.rfl

/-- What is read back of an encoded value is the same as the value, if and only if the value's
integers fit. -/
theorem same_ciboriumToEcf_iff {w : Value} (htags : Tagless v) (h : Same w (ciboriumToEcf v)) :
    Same w v ↔ Signed v := by
  constructor
  · intro hsame
    have hw : Signed w := (signed_same w h).mpr (ciboriumToEcf_signed v)
    exact (signed_same w hsame).mp hw
  · intro hv
    rwa [ciboriumToEcf_self htags hv] at h

end Ecf

/-! Documents read back. -/

theorem texts_perm {m n : List (Value × Value)} (h : Same (.map m) (.map n)) :
    (m.map fun kv => kv.1.asText).Perm (n.map fun kv => kv.1.asText) := by
  cases h with | @map _ m' _ hp hk hv =>
  have htexts : (m'.map fun kv => kv.1.asText) = n.map fun kv => kv.1.asText := by
    have heq : List.Forall₂ (fun a b : Value => a.asText = b.asText) (m'.map Prod.fst)
        (n.map Prod.fst) := hk.imp fun _ _ hab => hab.asText_eq
    rw [← List.forall₂_eq_eq_eq,List.forall₂_map_left_iff,List.forall₂_map_right_iff]
    rwa [List.forall₂_map_left_iff,List.forall₂_map_right_iff] at heq
  rw [← htexts]
  exact hp.map _

theorem last_iff_getField {m : List (Value × Value)} (hn : (m.map fun kv => kv.1.asText).Nodup)
    (name : String) (v : Value) : Last m name.toList v ↔ getField m name = some v := by
  rw [getField_eq_some hn]
  constructor
  · rintro ⟨k,hk⟩
    have hmem := mem_of_lastWhere _ hk
    exact ⟨(k,v),hmem.1,of_decide_eq_true hmem.2,rfl⟩
  · rintro ⟨⟨k,_⟩,hmem,hk,rfl⟩
    exact Occurs.last hn ⟨k,hmem,hk⟩

theorem read_field {m n : List (Value × Value)} (h : Same (.map m) (.map n))
    (hn : (n.map fun kv => kv.1.asText).Nodup) (name : String)
    (hv : getField n name = some v) : ∃ w, getField m name = some w ∧ Same w v := by
  have hrel := getField_rel h hn name
  rw [hv] at hrel
  generalize getField m name = o at hrel
  cases hrel with | some hsame =>
  exact ⟨_,rfl,hsame⟩

section Scan

variable {β γ ε : Type} {f : β → Value × Value → Except ε β} {m : List (Value × Value)} {b : β}

theorem foldE_total (h : ∀ b, ∀ kv ∈ m, ∃ b', f b kv = .ok b') : ∃ b', foldE f b m = .ok b' := by
  induction m generalizing b with
  | nil => exact ⟨b,rfl⟩
  | cons kv m ih =>
    obtain ⟨b₁,hb⟩ := h b kv List.mem_cons_self
    obtain ⟨b',hb'⟩ := ih (b := b₁) fun b kv hkv => h b kv (List.mem_cons_of_mem _ hkv)
    refine ⟨b',?_⟩
    rw [foldE,hb]
    exact hb'

variable (hn : (m.map fun kv => kv.1.asText).Nodup)
include hn

theorem scan_field (field : β → Option γ) (name : String) (dec : Value → Option γ)
    (hstep : ∀ b, ∀ kv ∈ m, ∀ b', f b kv = .ok b' →
      field b' = if kv.1.asText = key name then dec kv.2 else field b)
    (hb : field b = none) {b' : β} (h : foldE f b m = .ok b') :
    field b' = (getField m name).bind dec := by
  apply ext
  intro c
  rw [last_of_scan field name.toList dec hstep hb h c,bind_eq_some_iff]
  simp only [last_iff_getField hn]

theorem fold_field {f : β → Value × Value → β} (field : β → Option γ) (name : String)
    (dec : Value → Option γ)
    (hstep : ∀ b kv, field (f b kv) = if kv.1.asText = key name then dec kv.2 else field b)
    (hb : field b = none) : field (m.foldl f b) = (getField m name).bind dec := by
  apply ext
  intro c
  rw [last_of_fold field name.toList dec hstep hb c,bind_eq_some_iff]
  simp only [last_iff_getField hn]

theorem getField_of_mem (hkv : kv ∈ m)
    (hname : kv.1.asText = key name) : getField m name = some kv.2 :=
  (getField_eq_some hn name kv.2).mpr ⟨kv,hkv,hname,rfl⟩

end Scan

/-! Scopes. -/

theorem getField_none {m : List (Value × Value)}
    (hn : ((kv::m).map fun kv => kv.1.asText).Nodup) (hname : kv.1.asText = key name) :
    getField m name = none := by
  rw [List.map_cons,List.nodup_cons] at hn
  cases hget : getField m name with
  | none => rfl
  | some v =>
    obtain ⟨e,he,htext,-⟩ := (getField_eq_some hn.2 name v).mp hget
    exact absurd (List.mem_map.mpr ⟨e,he,htext.trans hname.symm⟩) hn.1

/-- The texts a scope's map has under a name. -/
def scopeTexts (m : List (Value × Value)) (name : String) : List Str :=
  ((getField m name).map textItems).getD []

theorem scanned_lists {m : List (Value × Value)} (hn : (m.map fun kv => kv.1.asText).Nodup)
    (acc : List Str × List Str) : m.foldl scanScopeField acc =
      (acc.1++scopeTexts m "include",acc.2++scopeTexts m "exclude") := by
  induction m generalizing acc with
  | nil =>
    show acc = (acc.1++[],acc.2++[])
    rw [List.append_nil,List.append_nil]
  | cons kv m ih =>
    rw [List.foldl_cons,ih (List.nodup_cons.mp hn).2]
    unfold scopeTexts scanScopeField
    rw [getField_cons,getField_cons]
    by_cases hinclude : kv.1.asText = key "include"
    · have hother : kv.1.asText ≠ some "exclude".toList := by
        rw [hinclude]
        decide
      rw [if_pos hinclude,if_pos (show kv.1.asText = some "include".toList from hinclude),
        if_neg hother,getField_none hn hinclude]
      simp
    · rw [if_neg hinclude,if_neg (show kv.1.asText ≠ some "include".toList from hinclude)]
      by_cases hexclude : kv.1.asText = key "exclude"
      · rw [if_pos hexclude,if_pos (show kv.1.asText = some "exclude".toList from hexclude),
          getField_none hn hexclude]
        simp
      · rw [if_neg hexclude,if_neg (show kv.1.asText ≠ some "exclude".toList from hexclude)]

theorem textItems_same {texts : List Str} (h : Same v (.array (texts.map textVal))) :
    textItems v = texts := by
  cases h with | @array vs _ hitems =>
  show vs.filterMap Value.asText = texts
  induction texts generalizing vs with
  | nil =>
    cases hitems
    rfl
  | cons t texts ih =>
    cases hitems with | cons htext hrest =>
    have hone : Value.asText _ = some t := htext.asText_eq
    rw [List.filterMap_cons_some hone,ih hrest]

theorem scopeTexts_same {m : List (Value × Value)} {texts : List Str}
    (h : Option.Rel Same (getField m name) (some (.array (texts.map textVal)))) :
    scopeTexts m name = texts := by
  unfold scopeTexts
  generalize getField m name = o at h
  cases h with | some hv =>
  exact textItems_same hv

theorem scopeTexts_none {m : List (Value × Value)}
    (h : Option.Rel Same (getField m name) none) : scopeTexts m name = [] := by
  unfold scopeTexts
  generalize getField m name = o at h
  cases h
  rfl

theorem decodeScopeLists_same {includes excludes : List Str}
    (h : Same v (scopeToValue includes excludes)) :
    decodeScopeLists v = .ok (includes,excludes) := by
  cases v with
  | map m =>
    unfold scopeToValue at h
    have hn : (((if excludes = [] then [] else [field "exclude" (.array (excludes.map textVal))])++
        [field "include" (.array (includes.map textVal))]).map fun kv => kv.1.asText).Nodup := by
      split_ifs <;> simp [field,Value.asText]
    have hm := (texts_perm h).nodup_iff.mpr hn
    have hinclude := getField_rel h hn "include"
    have hexclude := getField_rel h hn "exclude"
    show Except.ok (m.foldl scanScopeField ([],[])) = _
    rw [scanned_lists hm,List.nil_append,List.nil_append]
    by_cases hx : excludes = []
    · subst hx
      have hnone : getField [field "include" (.array (includes.map textVal))] "exclude" = none := by
        simp [getField,field,Value.asText]
      have hsome : getField [field "include" (.array (includes.map textVal))] "include" =
          some (.array (includes.map textVal)) := by simp [getField,field,Value.asText]
      rw [if_pos rfl,List.nil_append,hnone] at hexclude
      rw [if_pos rfl,List.nil_append,hsome] at hinclude
      rw [scopeTexts_same hinclude,scopeTexts_none hexclude]
    · have hfirst : getField ([field "exclude" (.array (excludes.map textVal))]++
          [field "include" (.array (includes.map textVal))]) "exclude" =
            some (.array (excludes.map textVal)) := by simp [getField_cons,field,Value.asText]
      have hsecond : getField ([field "exclude" (.array (excludes.map textVal))]++
          [field "include" (.array (includes.map textVal))]) "include" =
            some (.array (includes.map textVal)) := by simp [getField_cons,field,Value.asText]
      rw [if_neg hx,hfirst] at hexclude
      rw [if_neg hx,hsecond] at hinclude
      rw [scopeTexts_same hinclude,scopeTexts_same hexclude]
  | _ => cases h

/-! Granters. -/

theorem asU64_integer (i : Integer) : (Value.integer i).asU64 =
    if 0 ≤ i.val ∧ i.val < 2^64 then some i.val.toNat else none := by
  simp only [Value.asU64,Value.asInteger,bind_some]

theorem bmod_word {n : ℕ} (hn : n < 2^64) :
    (n : ℤ).bmod (2^64) = if n < 2^63 then (n : ℤ) else n-2^64 := by
  have hself : (n : ℤ)%((2^64 : ℕ) : ℤ) = n := Int.emod_eq_of_lt (by omega) (by exact_mod_cast hn)
  rw [Int.bmod_def,hself]
  split_ifs <;> omega

/-- A count above the signed range is read as negative, which is no count. -/
theorem asU64_integerI64 {n : ℕ} (hn : n < 2^64) :
    (integerI64 n).asU64 = if n < 2^63 then some n else none := by
  simp only [integerI64,asU64_integer,bmod_word hn]
  by_cases hsmall : n < 2^63
  · simp only [if_pos hsmall]
    rw [if_pos ⟨by omega,by omega⟩,Int.toNat_natCast]
  · simp only [if_neg hsmall]
    rw [if_neg (by omega)]

theorem same_integerI64 {n : ℤ} (h : Same v (integerI64 n)) : v = integerI64 n := by
  cases h
  rfl

theorem same_uinteger {n : ℕ} (h : Same v (uinteger n)) : v = uinteger n := by
  cases h
  rfl

theorem same_hashVal {hash : Hash} (h : Same v (hashVal hash)) : v = hashVal hash := by
  cases h
  rfl

theorem hashOrInvalid_toBytes (hash : Hash) : hashOrInvalid hash.toBytes = .ok hash := by
  rw [hashOrInvalid,Hash.fromBytes_toBytes]
  rfl

theorem decodeSigners_same {vs : List Value} {signers : List Hash}
    (h : List.Forall₂ Same vs (signers.map hashVal)) : vs.mapM decodeSigner = .ok signers := by
  induction signers generalizing vs with
  | nil =>
    cases h
    rfl
  | cons hash signers ih =>
    cases h with | cons hone hrest =>
    obtain rfl := same_hashVal hone
    have hsigner : decodeSigner (hashVal hash) = .ok hash := hashOrInvalid_toBytes hash
    rw [List.mapM_cons,hsigner]
    show (do return hash::(← List.mapM decodeSigner _)) = _
    rw [ih hrest]
    rfl

theorem scanMultiField_fields {acc acc' : MultiFields}
    (h : scanMultiField acc kv = .ok acc') :
    (acc'.signers = if kv.1.asText = key "signers" then
        kv.2.asArray.bind fun arr => (arr.mapM decodeSigner).toOption else acc.signers) ∧
      acc'.threshold = if kv.1.asText = key "threshold" then kv.2.asU64 else acc.threshold := by
  unfold scanMultiField at h
  split_ifs at h with hs ht
  · simp only [bind_ok,pure_ok,okOr_ok] at h
    obtain ⟨arr,harr,signers,hsigners,rfl⟩ := h
    simp [hs,key_inj,harr,hsigners,Except.toOption]
  · rw [← Except.ok.inj h]
    simp [ht,key_inj]
  · rw [← Except.ok.inj h]
    simp [hs,ht]

/-- A threshold that fits the signed word it goes through. -/
def Granter.Fits : Granter → Prop
  | .single _ => True
  | .multi m => m.threshold < 2^63

instance : DecidablePred Granter.Fits
  | .single _ => isTrue trivial
  | .multi m => inferInstanceAs (Decidable (m.threshold < 2^63))

theorem decodeGranter_same {granter : Granter} (h : Same v (encodeGranter granter))
    (hword : ∀ m, granter = .multi m → m.threshold < 2^64) :
    decodeGranter v = if granter.Fits then .ok granter
      else .error (.invalid "multi-granter missing threshold") := by
  cases granter with
  | single hash =>
    obtain rfl := same_hashVal h
    have hread : decodeGranter (hashVal hash) = .ok (.single hash) := by
      show (do return Granter.single (← hashOrInvalid hash.toBytes)) = _
      rw [hashOrInvalid_toBytes]
      rfl
    rw [hread,if_pos (show (Granter.single hash).Fits from trivial)]
  | multi g =>
    cases v with
    | map m =>
      have hn : ([field "signers" (.array (g.signers.map hashVal)),
          field "threshold" (integerI64 g.threshold)].map fun kv => kv.1.asText).Nodup := by
        simp [field,Value.asText]
      have hm := (texts_perm h).nodup_iff.mpr hn
      obtain ⟨w,hw,hsigners⟩ := read_field h hn "signers"
        (v := .array (g.signers.map hashVal)) (by simp [getField_cons,field,Value.asText])
      obtain ⟨_,ht,hthreshold⟩ := read_field h hn "threshold"
        (v := integerI64 g.threshold) (by simp [getField_cons,field,Value.asText])
      obtain rfl := same_integerI64 hthreshold
      cases hsigners with | @array vs _ hsigners =>
      have hdecode := decodeSigners_same hsigners
      obtain ⟨acc,hacc⟩ : ∃ acc, foldE scanMultiField ⟨none,none⟩ m = .ok acc := by
        apply foldE_total
        intro acc kv hkv
        unfold scanMultiField
        by_cases hs : kv.1.asText = key "signers"
        · have hsame : kv.2 = .array vs :=
            some.inj ((getField_of_mem hm hkv hs).symm.trans hw)
          rw [if_pos hs,hsame]
          simp [Value.asArray,okOr,hdecode,bind,Except.bind,pure,Except.pure]
        · rw [if_neg hs]
          split_ifs <;> exact ⟨_,rfl⟩
      have hs := scan_field hm MultiFields.signers "signers"
        (fun v => v.asArray.bind fun arr => (arr.mapM decodeSigner).toOption)
        (fun b kv _ b' hf => (scanMultiField_fields hf).1) rfl hacc
      have ht' := scan_field hm MultiFields.threshold "threshold" Value.asU64
        (fun b kv _ b' hf => (scanMultiField_fields hf).2) rfl hacc
      rw [hw] at hs
      rw [ht] at ht'
      have hsigners : acc.signers = some g.signers := by
        rw [hs]
        simp [Value.asArray,hdecode,Except.toOption]
      have hthreshold : acc.threshold = if g.threshold < 2^63 then some g.threshold else none := by
        rw [ht',bind_some,asU64_integerI64 (hword g rfl)]
      show (do
        let acc ← foldE scanMultiField ⟨none,none⟩ m
        let signers ← okOr acc.signers (.invalid "multi-granter missing signers")
        let threshold ← okOr acc.threshold (.invalid "multi-granter missing threshold")
        return Granter.multi ⟨signers,threshold⟩) = _
      by_cases hfits : g.threshold < 2^63
      · rw [if_pos (show (Granter.multi g).Fits from hfits)]
        rw [if_pos hfits] at hthreshold
        simp [hacc,hsigners,hthreshold,okOr,bind,Except.bind,pure,Except.pure]
      · rw [if_neg (show ¬ (Granter.multi g).Fits from hfits)]
        rw [if_neg hfits] at hthreshold
        simp [hacc,hsigners,hthreshold,okOr,bind,Except.bind]
    | _ => cases h

/-! Caveats. -/

/-- A field of a document that is read back, among those present. -/
theorem read_present {m : List (Value × Value)}
    (h : Same (.map m) (.map (presentFields l))) (hn : (l.map Prod.fst).Nodup)
    {o : Option Value} (hk : (name,o) ∈ l) : Option.Rel Same (getField m name) o := by
  have hrel := getField_rel h (presentFields_nodup hn) name
  rwa [getField_presentFields hn hk] at hrel

theorem read_bind {γ : Type} {x : Option Value} {o : Option δ} (enc : δ → Value)
    {dec : Value → Option γ} {f : δ → Option γ} (h : Option.Rel Same x (o.map enc))
    (hdec : ∀ a w, o = some a → Same w (enc a) → dec w = f a) : x.bind dec = o.bind f := by
  cases o with
  | none =>
    cases h
    rfl
  | some a =>
    cases h with | some hw =>
    exact hdec a _ rfl hw

/-- What the encoder leaves of the caveats. -/
def DelegationCaveats.wrapped (dc : DelegationCaveats) : DelegationCaveats :=
  ⟨dc.noDelegation,dc.maxDelegationDepth.bind fun n => if n < 2^63 then some n else none,
    dc.maxDelegationTtl.bind fun n => if n < 2^63 then some n else none⟩

theorem DelegationCaveats.toValue_eq (dc : DelegationCaveats) : dc.toValue = .map (presentFields [
      ("max_delegation_depth",dc.maxDelegationDepth.map fun d : ℕ => integerI64 d),
      ("max_delegation_ttl",dc.maxDelegationTtl.map fun t : ℕ => integerI64 t),
      ("no_delegation",dc.noDelegation.map .bool)]) := by
  obtain ⟨noDelegation,depth,ttl⟩ := dc
  cases noDelegation <;> cases depth <;> cases ttl <;> rfl

theorem decodeDelegationCaveats_same {dc : DelegationCaveats} (h : Same v dc.toValue)
    (hdepth : ∀ n, dc.maxDelegationDepth = some n → n < 2^64)
    (httl : ∀ n, dc.maxDelegationTtl = some n → n < 2^64) :
    decodeDelegationCaveats v = .ok dc.wrapped := by
  rw [DelegationCaveats.toValue_eq] at h
  cases v with
  | map m =>
    have hn : ([("max_delegation_depth",dc.maxDelegationDepth.map fun d : ℕ => integerI64 d),
        ("max_delegation_ttl",dc.maxDelegationTtl.map fun t : ℕ => integerI64 t),
        ("no_delegation",dc.noDelegation.map .bool)].map Prod.fst).Nodup := by simp
    have hm := (texts_perm h).nodup_iff.mpr (presentFields_nodup hn)
    have hno := fold_field hm DelegationCaveats.noDelegation "no_delegation" Value.asBool
      (fun acc kv => (scanCaveatField_fields acc kv).1) (b := ⟨none,none,none⟩) rfl
    have hd := fold_field hm DelegationCaveats.maxDelegationDepth "max_delegation_depth" Value.asU64
      (fun acc kv => (scanCaveatField_fields acc kv).2.1) (b := ⟨none,none,none⟩) rfl
    have ht := fold_field hm DelegationCaveats.maxDelegationTtl "max_delegation_ttl" Value.asU64
      (fun acc kv => (scanCaveatField_fields acc kv).2.2) (b := ⟨none,none,none⟩) rfl
    have hword : ∀ (n : ℕ) (w : Value), n < 2^64 → Same w (integerI64 n) →
        w.asU64 = if n < 2^63 then some n else none := by
      intro n w hn hw
      rw [same_integerI64 hw,asU64_integerI64 hn]
    rw [read_bind (fun n : ℕ => integerI64 n) (read_present h hn (by simp))
      fun n w ho hw => hword n w (hdepth n ho) hw] at hd
    rw [read_bind (fun n : ℕ => integerI64 n) (read_present h hn (by simp))
      fun n w ho hw => hword n w (httl n ho) hw] at ht
    have hflag : ∀ (b : Bool) (w : Value), Same w (.bool b) → w.asBool = some b := by
      rintro b _ ⟨⟩
      rfl
    rw [read_bind (o := dc.noDelegation) .bool (f := some) (read_present h hn (by simp))
      fun b w _ hw => hflag b w hw] at hno
    rw [bind_fun_some] at hno
    show Except.ok (m.foldl scanCaveatField ⟨none,none,none⟩) = _
    congr 1
    rw [DelegationCaveats.wrapped,← hno,← hd,← ht]
  | _ => cases h

/-! Maps of constraints and allowances. -/

/-- The same names, and values that are related. -/
def MapsAlike (R : Value → Value → Prop) (c' c : OrderedMap Str Value) : Prop :=
  ∀ name, Option.Rel R (c'.get name) (c.get name)

def Encoded : Value → Value → Prop := fun w v => Same w (ciboriumToEcf v)

theorem decodeStringKeyedMap_same {c : OrderedMap Str Value}
    (h : Same v (stringMapToEcf c)) : MapsAlike Encoded (decodeStringKeyedMap v) c := by
  cases v with
  | map m =>
    intro name
    have hn : ((c.entries.map fun kv => (textVal kv.1,ciboriumToEcf kv.2)).map fun kv =>
        kv.1.asText).Nodup := by
      have hkeys : ((c.entries.map fun kv => (textVal kv.1,ciboriumToEcf kv.2)).map fun kv =>
          kv.1.asText) = (c.entries.map Prod.fst).map some := by
        rw [List.map_map,List.map_map]
        rfl
      rw [hkeys]
      exact c.keys_nodup.map (some_injective _)
    have hm := (texts_perm h).nodup_iff.mpr hn
    have hget : (decodeStringKeyedMap (.map m)).get name = getField m (String.ofList name) := by
      apply ext
      intro w
      rw [get_decodeStringKeyedMap,← last_iff_getField hm,String.toList_ofList]
      simp
    have hfield : getField (c.entries.map fun kv => (textVal kv.1,ciboriumToEcf kv.2))
        (String.ofList name) = (c.get name).map ciboriumToEcf := by
      apply ext
      intro w
      rw [getField_eq_some hn,String.toList_ofList,map_eq_some_iff]
      simp only [← OrderedMap.mem_entries]
      constructor
      · rintro ⟨_,hmem,hname,rfl⟩
        obtain ⟨⟨k,v⟩,hkv,rfl⟩ := List.mem_map.mp hmem
        obtain rfl := some.inj hname
        exact ⟨v,hkv,rfl⟩
      · rintro ⟨v,hv,rfl⟩
        exact ⟨_,List.mem_map_of_mem hv,rfl,rfl⟩
    have hrel := getField_rel h hn (String.ofList name)
    rw [hfield] at hrel
    rw [hget]
    cases hc : c.get name with
    | none =>
      rw [hc] at hrel
      generalize getField m (String.ofList name) = o at hrel
      cases hrel
      exact .none
    | some v =>
      rw [hc] at hrel
      generalize getField m (String.ofList name) = o at hrel
      cases hrel with | some hv =>
      exact .some hv
  | _ => cases h

/-! Grants. -/

/-- The same scopes, and constraints and allowances with related values. -/
structure GrantEntry.Alike (R : Value → Value → Prop) (g' g : GrantEntry) : Prop where
  handlers : g'.handlers = g.handlers
  resources : g'.resources = g.resources
  operations : g'.operations = g.operations
  peers : g'.peers = g.peers
  constraints : Option.Rel (MapsAlike R) g'.constraints g.constraints
  allowances : Option.Rel (MapsAlike R) g'.allowances g.allowances

def pathScopeValue (scope : PathScope) : Value := scopeToValue scope.includes scope.excludes
def idScopeValue (scope : IdScope) : Value := scopeToValue scope.includes scope.excludes

def grantFields (g : GrantEntry) : List (String × Option Value) :=
  [("allowances",g.allowances.map stringMapToEcf),("constraints",g.constraints.map stringMapToEcf),
    ("handlers",some (pathScopeValue g.handlers)),("operations",some (idScopeValue g.operations)),
    ("peers",g.peers.map idScopeValue),("resources",some (pathScopeValue g.resources))]

theorem encodeGrantEntry_eq (g : GrantEntry) :
    encodeGrantEntry g = .map (presentFields (grantFields g)) := by
  obtain ⟨handlers,resources,operations,peers,constraints,allowances⟩ := g
  cases peers <;> cases constraints <;> cases allowances <;> rfl

theorem decodePathScope_same {scope : PathScope} (h : Same v (pathScopeValue scope)) :
    decodePathScope v = .ok scope := by
  rw [decodePathScope,decodeScopeLists_same h]
  rfl

theorem decodeIdScope_same {scope : IdScope} (h : Same v (idScopeValue scope)) :
    decodeIdScope v = .ok scope := by
  rw [decodeIdScope,decodeScopeLists_same h]
  rfl

/-- An entry with a name is the field of that name, and related to what was written. -/
theorem mem_present {m : List (Value × Value)}
    (h : Same (.map m) (.map (presentFields l))) (hn : (l.map Prod.fst).Nodup)
    (hkv : kv ∈ m) (hname : kv.1.asText = key name)
    {o : Option δ} (enc : δ → Value) (hk : (name,o.map enc) ∈ l) :
    ∃ a, o = some a ∧ Same kv.2 (enc a) := by
  have hm := (texts_perm h).nodup_iff.mpr (presentFields_nodup hn)
  have hrel := read_present h hn hk
  rw [getField_of_mem hm hkv hname] at hrel
  cases o with
  | none => cases hrel
  | some a =>
    cases hrel with | some hsame =>
    exact ⟨a,rfl,hsame⟩

theorem rel_of_read {γ : Type} {R : γ → δ → Prop} {x : Option Value} {o : Option δ}
    (enc : δ → Value) (dec : Value → γ) (h : Option.Rel Same x (o.map enc))
    (hdec : ∀ a w, Same w (enc a) → R (dec w) a) :
    Option.Rel R (x.bind fun w => some (dec w)) o := by
  cases o with
  | none =>
    cases h
    exact .none
  | some a =>
    cases h with | some hw =>
    exact .some (hdec a _ hw)

section Read

variable {β γ δ ε : Type} {f : β → Value × Value → Except ε β} {m : List (Value × Value)}
variable {l : List (String × Option Value)}

/-- A field of a document as its scan leaves it. -/
theorem scan_read (h : Same (.map m) (.map (presentFields l))) (hn : (l.map Prod.fst).Nodup)
    (field : β → Option γ) (name : String) (dec : Value → Option γ) {o : Option δ}
    (enc : δ → Value) (hk : (name,o.map enc) ∈ l) {g : δ → Option γ}
    (hdec : ∀ a w, o = some a → Same w (enc a) → dec w = g a)
    (hstep : ∀ b, ∀ kv ∈ m, ∀ b', f b kv = .ok b' →
      field b' = if kv.1.asText = key name then dec kv.2 else field b)
    {b b' : β} (hb : field b = none) (hscan : foldE f b m = .ok b') : field b' = o.bind g := by
  have hm := (texts_perm h).nodup_iff.mpr (presentFields_nodup hn)
  rw [scan_field hm field name dec hstep hb hscan]
  exact read_bind enc (read_present h hn hk) hdec

end Read

theorem decodeGrantEntry_same {g : GrantEntry} (h : Same v (encodeGrantEntry g)) :
    ∃ g', decodeGrantEntry v = .ok g' ∧ g'.Alike Encoded g := by
  rw [encodeGrantEntry_eq] at h
  cases v with
  | map m =>
    have hn : ((grantFields g).map Prod.fst).Nodup := by simp [grantFields]
    have hm := (texts_perm h).nodup_iff.mpr (presentFields_nodup hn)
    have hpath : ∀ (a : PathScope) (w : Value), Same w (pathScopeValue a) →
        (decodePathScope w).toOption = some a := by
      intro a w hw
      rw [decodePathScope_same hw]
      rfl
    have hid : ∀ (a : IdScope) (w : Value), Same w (idScopeValue a) →
        (decodeIdScope w).toOption = some a := by
      intro a w hw
      rw [decodeIdScope_same hw]
      rfl
    obtain ⟨acc,hacc⟩ : ∃ acc,
        foldE scanGrantField ⟨none,none,none,none,none,none⟩ m = .ok acc := by
      apply foldE_total
      intro acc kv hkv
      unfold scanGrantField
      split_ifs with hh hr ho hp
      · obtain ⟨_,-,hw⟩ := mem_present (o := some g.handlers) h hn hkv hh pathScopeValue
          (by simp [grantFields])
        rw [decodePathScope_same hw]
        exact ⟨_,rfl⟩
      · obtain ⟨_,-,hw⟩ := mem_present (o := some g.resources) h hn hkv hr pathScopeValue
          (by simp [grantFields])
        rw [decodePathScope_same hw]
        exact ⟨_,rfl⟩
      · obtain ⟨_,-,hw⟩ := mem_present (o := some g.operations) h hn hkv ho idScopeValue
          (by simp [grantFields])
        rw [decodeIdScope_same hw]
        exact ⟨_,rfl⟩
      · obtain ⟨_,-,hw⟩ := mem_present (o := g.peers) h hn hkv hp idScopeValue
          (by simp [grantFields])
        rw [decodeIdScope_same hw]
        exact ⟨_,rfl⟩
      all_goals exact ⟨_,rfl⟩
    have hhandlers := scan_read h hn GrantFields.handlers "handlers"
      (fun v => (decodePathScope v).toOption) (o := some g.handlers) pathScopeValue
      (by simp [grantFields]) (fun a w _ hw => hpath a w hw)
      (fun b kv _ b' hf => (scanGrantField_step hf).handlers) rfl hacc
    have hresources := scan_read h hn GrantFields.resources "resources"
      (fun v => (decodePathScope v).toOption) (o := some g.resources) pathScopeValue
      (by simp [grantFields]) (fun a w _ hw => hpath a w hw)
      (fun b kv _ b' hf => (scanGrantField_step hf).resources) rfl hacc
    have hoperations := scan_read h hn GrantFields.operations "operations"
      (fun v => (decodeIdScope v).toOption) (o := some g.operations) idScopeValue
      (by simp [grantFields]) (fun a w _ hw => hid a w hw)
      (fun b kv _ b' hf => (scanGrantField_step hf).operations) rfl hacc
    have hpeers := scan_read h hn GrantFields.peers "peers"
      (fun v => (decodeIdScope v).toOption) (o := g.peers) idScopeValue
      (by simp [grantFields]) (fun a w _ hw => hid a w hw)
      (fun b kv _ b' hf => (scanGrantField_step hf).peers) rfl hacc
    have hconstraints := scan_field hm GrantFields.constraints "constraints"
      (fun v => some (decodeStringKeyedMap v))
      (fun b kv _ b' hf => (scanGrantField_step hf).constraints) rfl hacc
    have hallowances := scan_field hm GrantFields.allowances "allowances"
      (fun v => some (decodeStringKeyedMap v))
      (fun b kv _ b' hf => (scanGrantField_step hf).allowances) rfl hacc
    rw [bind_fun_some] at hpeers
    refine ⟨⟨g.handlers,g.resources,g.operations,acc.peers,acc.constraints,acc.allowances⟩,?_,?_⟩
    · show (do
        let acc ← foldE scanGrantField ⟨none,none,none,none,none,none⟩ m
        let handlers ← okOr acc.handlers (.invalid "missing handlers in grant")
        let resources ← okOr acc.resources (.invalid "missing resources in grant")
        let operations ← okOr acc.operations (.invalid "missing operations in grant")
        return GrantEntry.mk handlers resources operations acc.peers acc.constraints
          acc.allowances) = _
      simp [hacc,hhandlers,hresources,hoperations,okOr,bind,Except.bind,pure,Except.pure]
    · constructor
      · rfl
      · rfl
      · rfl
      · exact hpeers
      · show Option.Rel (MapsAlike Encoded) acc.constraints g.constraints
        rw [hconstraints]
        exact rel_of_read stringMapToEcf decodeStringKeyedMap
          (read_present h hn (by simp [grantFields])) fun a w hw => decodeStringKeyedMap_same hw
      · show Option.Rel (MapsAlike Encoded) acc.allowances g.allowances
        rw [hallowances]
        exact rel_of_read stringMapToEcf decodeStringKeyedMap
          (read_present h hn (by simp [grantFields])) fun a w hw => decodeStringKeyedMap_same hw
  | _ => cases h

theorem decodeGrants_same {vs : List Value} {gs : List GrantEntry}
    (h : List.Forall₂ Same vs (gs.map encodeGrantEntry)) :
    ∃ gs', vs.mapM decodeGrantEntry = .ok gs' ∧ List.Forall₂ (GrantEntry.Alike Encoded) gs' gs := by
  induction gs generalizing vs with
  | nil =>
    cases h
    exact ⟨[],rfl,.nil⟩
  | cons g gs ih =>
    cases h with | cons hone hrest =>
    obtain ⟨g',hg,halike⟩ := decodeGrantEntry_same hone
    obtain ⟨gs',hgs,hall⟩ := ih hrest
    refine ⟨g'::gs',?_,.cons halike hall⟩
    rw [List.mapM_cons,hg]
    show (do return g'::(← List.mapM decodeGrantEntry _)) = _
    rw [hgs]
    rfl

/-! Tokens. -/

/-- Its counts and times are machine words. -/
structure CapabilityToken.Words (t : CapabilityToken) : Prop where
  threshold : ∀ m, t.granter = .multi m → m.threshold < 2^64
  createdAt : t.createdAt < 2^64
  expiresAt : ∀ n, t.expiresAt = some n → n < 2^64
  notBefore : ∀ n, t.notBefore = some n → n < 2^64
  depth : ∀ dc n, t.delegationCaveats = some dc → dc.maxDelegationDepth = some n → n < 2^64
  ttl : ∀ dc n, t.delegationCaveats = some dc → dc.maxDelegationTtl = some n → n < 2^64

structure CapabilityToken.Alike (R : Value → Value → Prop) (u t : CapabilityToken) : Prop where
  grants : List.Forall₂ (GrantEntry.Alike R) u.grants t.grants
  granter : u.granter = t.granter
  grantee : u.grantee = t.grantee
  parent : u.parent = t.parent
  createdAt : u.createdAt = t.createdAt
  expiresAt : u.expiresAt = t.expiresAt
  notBefore : u.notBefore = t.notBefore
  delegationCaveats : u.delegationCaveats = t.delegationCaveats

def tokenFields (t : CapabilityToken) : List (String × Option Value) :=
  [("created_at",some (uinteger t.createdAt)),
    ("delegation_caveats",t.delegationCaveats.map DelegationCaveats.toValue),
    ("expires_at",t.expiresAt.map uinteger),("grantee",some (hashVal t.grantee)),
    ("granter",some (encodeGranter t.granter)),
    ("grants",some (.array (t.grants.map encodeGrantEntry))),
    ("not_before",t.notBefore.map uinteger),("parent",t.parent.map hashVal)]

/-- What a token is encoded as. -/
def CapabilityToken.document (t : CapabilityToken) : Value := .map (presentFields (tokenFields t))

theorem toEcf_document (t : CapabilityToken) : t.toEcf = Ecf.toEcf t.document := by
  obtain ⟨grants,granter,grantee,parent,createdAt,expiresAt,notBefore,delegationCaveats⟩ := t
  cases parent <;> cases expiresAt <;> cases notBefore <;> cases delegationCaveats <;> rfl

theorem decodeTemporalField_uinteger {n : ℕ} (hn : n < 2^64) (name : String) :
    decodeTemporalField (uinteger n) name = .ok (some n) := by
  have hmod : n%2^64 = n := Nat.mod_eq_of_lt hn
  simp only [uinteger,decodeTemporalField,hmod]
  rw [if_pos ⟨by omega,by omega⟩,Int.toNat_natCast]

theorem tokenHashField_hashVal (hash : Hash) (old : Option Hash) :
    tokenHashField (hashVal hash) old = .ok (some hash) := by
  show (do return some (← hashOrInvalid hash.toBytes)) = _
  rw [hashOrInvalid_toBytes]
  rfl

section Token

variable {X : Platform} {e : Entity} {t : CapabilityToken} {m : List (Value × Value)}

theorem tokenFields_nodup (t : CapabilityToken) : ((tokenFields t).map Prod.fst).Nodup := by
  simp [tokenFields]

/-- No entry of a token is refused if its threshold fits. -/
theorem scanTokenField_total (h : Same (.map m) t.document) (hwords : t.Words)
    (hfits : t.granter.Fits) (acc : TokenFields) (hkv : kv ∈ m) :
    ∃ acc', scanTokenField acc kv = .ok acc' := by
  have hn := tokenFields_nodup t
  unfold scanTokenField
  split_ifs with hgrants hgranter hgrantee hparent hcreated hexpires hbefore hcaveats
  · obtain ⟨_,ha,hw⟩ := mem_present (o := some t.grants) h hn hkv hgrants
      (fun gs => .array (gs.map encodeGrantEntry)) (by simp [tokenFields])
    obtain rfl := some.inj ha
    generalize kv.2 = w at hw
    cases hw with | array hitems =>
    obtain ⟨gs,hgs,-⟩ := decodeGrants_same hitems
    simp [Value.asArray,okOr,hgs,bind,Except.bind,pure,Except.pure]
  · obtain ⟨_,ha,hw⟩ := mem_present (o := some t.granter) h hn hkv hgranter encodeGranter
      (by simp [tokenFields])
    obtain rfl := some.inj ha
    rw [decodeGranter_same hw hwords.threshold,if_pos hfits]
    exact ⟨_,rfl⟩
  · obtain ⟨hash,-,hw⟩ := mem_present (o := some t.grantee) h hn hkv hgrantee hashVal
      (by simp [tokenFields])
    rw [same_hashVal hw,tokenHashField_hashVal]
    exact ⟨_,rfl⟩
  · obtain ⟨hash,-,hw⟩ := mem_present (o := t.parent) h hn hkv hparent hashVal
      (by simp [tokenFields])
    rw [same_hashVal hw,tokenHashField_hashVal]
    exact ⟨_,rfl⟩
  · obtain ⟨_,ha,hw⟩ := mem_present (o := some t.createdAt) h hn hkv hcreated uinteger
      (by simp [tokenFields])
    obtain rfl := some.inj ha
    rw [same_uinteger hw,decodeTemporalField_uinteger hwords.createdAt]
    exact ⟨_,rfl⟩
  · obtain ⟨n,ha,hw⟩ := mem_present (o := t.expiresAt) h hn hkv hexpires uinteger
      (by simp [tokenFields])
    rw [same_uinteger hw,decodeTemporalField_uinteger (hwords.expiresAt n ha)]
    exact ⟨_,rfl⟩
  · obtain ⟨n,ha,hw⟩ := mem_present (o := t.notBefore) h hn hkv hbefore uinteger
      (by simp [tokenFields])
    rw [same_uinteger hw,decodeTemporalField_uinteger (hwords.notBefore n ha)]
    exact ⟨_,rfl⟩
  · obtain ⟨dc,ha,hw⟩ := mem_present (o := t.delegationCaveats) h hn hkv hcaveats
      DelegationCaveats.toValue (by simp [tokenFields])
    rw [decodeDelegationCaveats_same hw (fun n => hwords.depth dc n ha)
      fun n => hwords.ttl dc n ha]
    exact ⟨_,rfl⟩
  · exact ⟨_,rfl⟩

/-- What a scan of a token leaves. -/
structure Scanned (t : CapabilityToken) (acc : TokenFields) : Prop where
  grants : ∃ gs, acc.grants = some gs ∧ List.Forall₂ (GrantEntry.Alike Encoded) gs t.grants
  granter : acc.granter = if t.granter.Fits then some t.granter else none
  grantee : acc.grantee = some t.grantee
  parent : acc.parent = t.parent
  createdAt : acc.createdAt = some t.createdAt
  expiresAt : acc.expiresAt = t.expiresAt
  notBefore : acc.notBefore = t.notBefore
  delegationCaveats : acc.delegationCaveats = t.delegationCaveats.map DelegationCaveats.wrapped

theorem temporal_step {p : Prop} [Decidable p] {x old : Option ℕ}
    (h : .ok x = if p then decodeTemporalField v name else .ok old) :
    x = if p then v.asU64 else old := by
  split_ifs at h ⊢
  · exact (asU64_of_temporal h.symm).symm
  · exact Except.ok.inj h

theorem hash_step {p : Prop} [Decidable p] {x old : Option Hash}
    (hv : p → ∃ hash, v = hashVal hash) (h : .ok x = if p then tokenHashField v old else .ok old) :
    x = if p then hashField v else old := by
  split_ifs at h ⊢ with hp
  · obtain ⟨hash,rfl⟩ := hv hp
    rw [tokenHashField_hashVal] at h
    rw [Except.ok.inj h]
    exact (hashField_toBytes hash).symm
  · exact Except.ok.inj h

theorem scanned_token (h : Same (.map m) t.document) (hwords : t.Words) {acc : TokenFields}
    (hscan : foldE scanTokenField ⟨none,none,none,none,none,none,none,none⟩ m = .ok acc) :
    Scanned t acc := by
  have hn := tokenFields_nodup t
  have hword : ∀ n w, n < 2^64 → Same w (uinteger n) → w.asU64 = some n := by
    intro n w hlt hw
    rw [same_uinteger hw,asU64_uinteger,Nat.mod_eq_of_lt hlt]
  have hhash : ∀ hash w, Same w (hashVal hash) → hashField w = some hash := by
    intro hash w hw
    rw [same_hashVal hw]
    exact hashField_toBytes hash
  constructor
  · obtain ⟨w,hget,hw⟩ := read_field h (presentFields_nodup hn) "grants"
      (getField_presentFields hn (o := some (.array (t.grants.map encodeGrantEntry)))
        (by simp [tokenFields]))
    cases hw with | array hitems =>
    obtain ⟨gs,hgs,hall⟩ := decodeGrants_same hitems
    have hm := (texts_perm h).nodup_iff.mpr (presentFields_nodup hn)
    have hgrants := scan_field hm TokenFields.grants "grants"
      (fun v => v.asArray.bind fun arr => (arr.mapM decodeGrantEntry).toOption)
      (fun b kv _ b' hf => (scanTokenField_step hf).grants) rfl hscan
    refine ⟨gs,?_,hall⟩
    rw [hgrants,hget]
    simp [Value.asArray,hgs,Except.toOption]
  · rw [scan_read h hn TokenFields.granter "granter" (fun v => (decodeGranter v).toOption)
      (o := some t.granter) encodeGranter (by simp [tokenFields])
      (g := fun granter => if granter.Fits then some granter else none)
      (fun granter w ha hw => by
        obtain rfl := some.inj ha
        rw [decodeGranter_same hw hwords.threshold]
        split_ifs <;> rfl)
      (fun b kv _ b' hf => (scanTokenField_step hf).granter) rfl hscan]
    rfl
  · rw [scan_read h hn TokenFields.grantee "grantee" hashField (o := some t.grantee) hashVal
      (by simp [tokenFields]) (fun hash w _ hw => hhash hash w hw)
      (fun b kv hkv b' hf => hash_step (fun hname => by
        obtain ⟨hash,-,hw⟩ := mem_present (o := some t.grantee) h hn hkv hname hashVal
          (by simp [tokenFields])
        exact ⟨hash,same_hashVal hw⟩) (scanTokenField_step hf).grantee) rfl hscan]
    rfl
  · rw [scan_read h hn TokenFields.parent "parent" hashField (o := t.parent) hashVal
      (by simp [tokenFields]) (fun hash w _ hw => hhash hash w hw)
      (fun b kv hkv b' hf => hash_step (fun hname => by
        obtain ⟨hash,-,hw⟩ := mem_present (o := t.parent) h hn hkv hname hashVal
          (by simp [tokenFields])
        exact ⟨hash,same_hashVal hw⟩) (scanTokenField_step hf).parent) rfl hscan,
      bind_fun_some]
  · rw [scan_read h hn TokenFields.createdAt "created_at" Value.asU64 (o := some t.createdAt)
      uinteger (by simp [tokenFields]) (fun n w ha hw => hword n w (by
        obtain rfl := some.inj ha
        exact hwords.createdAt) hw)
      (fun b kv _ b' hf => temporal_step (scanTokenField_step hf).createdAt) rfl hscan]
    rfl
  · rw [scan_read h hn TokenFields.expiresAt "expires_at" Value.asU64 (o := t.expiresAt) uinteger
      (by simp [tokenFields]) (fun n w ha hw => hword n w (hwords.expiresAt n ha) hw)
      (fun b kv _ b' hf => temporal_step (scanTokenField_step hf).expiresAt) rfl hscan,
      bind_fun_some]
  · rw [scan_read h hn TokenFields.notBefore "not_before" Value.asU64 (o := t.notBefore) uinteger
      (by simp [tokenFields]) (fun n w ha hw => hword n w (hwords.notBefore n ha) hw)
      (fun b kv _ b' hf => temporal_step (scanTokenField_step hf).notBefore) rfl hscan,
      bind_fun_some]
  · rw [scan_read h hn TokenFields.delegationCaveats "delegation_caveats"
      (fun v => (decodeDelegationCaveats v).toOption) (o := t.delegationCaveats)
      DelegationCaveats.toValue (by simp [tokenFields]) (g := fun dc => some dc.wrapped)
      (fun dc w ha hw => by
        rw [decodeDelegationCaveats_same hw (fun n => hwords.depth dc n ha)
          fun n => hwords.ttl dc n ha]
        rfl)
      (fun b kv _ b' hf => (scanTokenField_step hf).delegationCaveats) rfl hscan]
    cases t.delegationCaveats <;> rfl

/-- A token as it is read, up to what the encoder makes of its values. -/
theorem fromEntity_read (hread : X.fromReader e.data = .ok (.map m))
    (h : Same (.map m) t.document) (hwords : t.Words) {u : CapabilityToken}
    (hu : CapabilityToken.fromEntity X e = .ok u) : t.granter.Fits ∧ u.Alike Encoded
        { t with delegationCaveats := t.delegationCaveats.map DelegationCaveats.wrapped } := by
  simp only [CapabilityToken.fromEntity,bind_ok,mapErr_ok,okOr_ok,pure_ok] at hu
  obtain ⟨_,_,value,hv,m',hm,acc,hacc,grants,hgrants,granter,hgranter,grantee,hgrantee,createdAt,
    hcreated,rfl⟩ := hu
  obtain rfl := Except.ok.inj (hread.symm.trans hv)
  obtain rfl := some.inj hm
  have hs := scanned_token h hwords hacc
  obtain ⟨gs,hgs,hall⟩ := hs.grants
  rw [hs.granter] at hgranter
  rw [hs.grantee] at hgrantee
  rw [hs.createdAt] at hcreated
  rw [hgs] at hgrants
  obtain rfl := some.inj hgrants
  obtain rfl := some.inj hgrantee
  obtain rfl := some.inj hcreated
  by_cases hfits : t.granter.Fits
  · rw [if_pos hfits] at hgranter
    obtain rfl := some.inj hgranter
    exact ⟨hfits,hall,rfl,rfl,hs.parent,rfl,hs.expiresAt,hs.notBefore,hs.delegationCaveats⟩
  · rw [if_neg hfits] at hgranter
    cases hgranter

theorem fromEntity_total (htype : e.entityType = typeCapToken)
    (hread : X.fromReader e.data = .ok (.map m)) (h : Same (.map m) t.document) (hwords : t.Words)
    (hfits : t.granter.Fits) : ∃ u, CapabilityToken.fromEntity X e = .ok u := by
  obtain ⟨acc,hacc⟩ : ∃ acc,
      foldE scanTokenField ⟨none,none,none,none,none,none,none,none⟩ m = .ok acc :=
    foldE_total fun acc kv hkv => scanTokenField_total h hwords hfits acc hkv
  have hs := scanned_token h hwords hacc
  obtain ⟨gs,hgs,-⟩ := hs.grants
  have hgranter := hs.granter
  rw [if_pos hfits] at hgranter
  have hensure : ensure (decide (e.entityType = typeCapToken)) (CapabilityError.invalid
      ("expected system/capability/token, got "++String.ofList e.entityType)) = .ok () := by
    simp [ensure,htype]
  refine ⟨⟨gs,t.granter,t.grantee,acc.parent,t.createdAt,acc.expiresAt,acc.notBefore,
    acc.delegationCaveats⟩,?_⟩
  simp only [CapabilityToken.fromEntity,bind_ok,mapErr_ok,okOr_ok,pure_ok]
  exact ⟨(),hensure,_,hread,m,rfl,acc,hacc,gs,hgs,_,hgranter,_,hs.grantee,_,hs.createdAt,rfl⟩

end Token

/-! No tag is written. -/

theorem tagless_present
    (h : ∀ e ∈ l, ∀ v, e.2 = some v → Tagless v) : Tagless (.map (presentFields l)) := by
  apply tagless_entries
  intro kv hkv
  obtain ⟨e,he,hfield⟩ := List.mem_filterMap.mp hkv
  obtain ⟨v,hv,rfl⟩ := map_eq_some_iff.mp hfield
  exact ⟨.text _,h e he v hv⟩

theorem tagless_ciboriumToEcf (v : Value) : Tagless (ciboriumToEcf v) := by
  induction v using Value.members_induction with
  | array vs ih =>
    rw [ciboriumToEcf,ciboriumItems_eq]
    apply Tagless.array
    intro w hw
    obtain ⟨v,hv,rfl⟩ := List.mem_map.mp hw
    exact ih v hv
  | map m ih =>
    rw [ciboriumToEcf,ciboriumEntries_eq]
    apply tagless_entries
    intro e he
    obtain ⟨e,hmem,rfl⟩ := List.mem_map.mp he
    exact ih e hmem
  | _ => constructor

theorem tagless_texts (l : List Str) : Tagless (.array (l.map textVal)) := by
  apply Tagless.array
  intro v hv
  obtain ⟨s,-,rfl⟩ := List.mem_map.mp hv
  exact .text s

theorem tagless_scopeToValue (includes excludes : List Str) :
    Tagless (scopeToValue includes excludes) := by
  apply tagless_entries
  intro e he
  rw [List.mem_append,List.mem_singleton] at he
  rcases he with he | rfl
  · split_ifs at he
    · cases he
    · rw [List.mem_singleton] at he
      rw [he]
      exact ⟨.text _,tagless_texts excludes⟩
  · exact ⟨.text _,tagless_texts includes⟩

theorem tagless_stringMapToEcf (c : OrderedMap Str Value) : Tagless (stringMapToEcf c) := by
  apply tagless_entries
  intro e he
  obtain ⟨kv,-,rfl⟩ := List.mem_map.mp he
  exact ⟨.text _,tagless_ciboriumToEcf kv.2⟩

theorem tagless_encodeGrantEntry (g : GrantEntry) : Tagless (encodeGrantEntry g) := by
  rw [encodeGrantEntry_eq]
  apply tagless_present
  intro e he v hv
  simp only [grantFields,List.mem_cons,List.not_mem_nil,or_false] at he
  rcases he with rfl | rfl | rfl | rfl | rfl | rfl
  · obtain ⟨c,-,rfl⟩ := map_eq_some_iff.mp hv
    exact tagless_stringMapToEcf c
  · obtain ⟨c,-,rfl⟩ := map_eq_some_iff.mp hv
    exact tagless_stringMapToEcf c
  · obtain rfl := some.inj hv
    exact tagless_scopeToValue _ _
  · obtain rfl := some.inj hv
    exact tagless_scopeToValue _ _
  · obtain ⟨scope,-,rfl⟩ := map_eq_some_iff.mp hv
    exact tagless_scopeToValue _ _
  · obtain rfl := some.inj hv
    exact tagless_scopeToValue _ _

theorem tagless_encodeGranter (granter : Granter) : Tagless (encodeGranter granter) := by
  cases granter with
  | single hash => exact .bytes _
  | multi g =>
    apply tagless_entries
    have hsigners : Tagless (.array (g.signers.map hashVal)) := by
      apply Tagless.array
      intro v hv
      obtain ⟨hash,-,rfl⟩ := List.mem_map.mp hv
      exact .bytes _
    simp [field,hsigners,integerI64,Tagless.text,Tagless.integer]

theorem tagless_caveats (dc : DelegationCaveats) : Tagless dc.toValue := by
  rw [DelegationCaveats.toValue_eq]
  apply tagless_present
  intro e he v hv
  simp only [List.mem_cons,List.not_mem_nil,or_false] at he
  rcases he with rfl | rfl | rfl
  · obtain ⟨n,-,rfl⟩ := map_eq_some_iff.mp hv
    exact .integer _
  · obtain ⟨n,-,rfl⟩ := map_eq_some_iff.mp hv
    exact .integer _
  · obtain ⟨b,-,rfl⟩ := map_eq_some_iff.mp hv
    exact .bool b

theorem tagless_document (t : CapabilityToken) : Tagless t.document := by
  apply tagless_present
  intro e he v hv
  simp only [tokenFields,List.mem_cons,List.not_mem_nil,or_false] at he
  rcases he with rfl | rfl | rfl | rfl | rfl | rfl | rfl | rfl
  · obtain rfl := some.inj hv
    exact .integer _
  · obtain ⟨dc,-,rfl⟩ := map_eq_some_iff.mp hv
    exact tagless_caveats dc
  · obtain ⟨n,-,rfl⟩ := map_eq_some_iff.mp hv
    exact .integer _
  · obtain rfl := some.inj hv
    exact .bytes _
  · obtain rfl := some.inj hv
    exact tagless_encodeGranter t.granter
  · obtain rfl := some.inj hv
    apply Tagless.array
    intro w hw
    obtain ⟨g,-,rfl⟩ := List.mem_map.mp hw
    exact tagless_encodeGrantEntry g
  · obtain ⟨n,-,rfl⟩ := map_eq_some_iff.mp hv
    exact .integer _
  · obtain ⟨hash,-,rfl⟩ := map_eq_some_iff.mp hv
    exact .bytes _

/-! What reads back as it was. -/

/-- The value is that of a constraint or an allowance. -/
def GrantEntry.Holds (g : GrantEntry) (v : Value) : Prop :=
  ∃ c, (g.constraints = some c ∨ g.allowances = some c) ∧ ∃ name, c.get name = some v

/-- What goes through a signed word on the way fits it. -/
structure CapabilityToken.FitsSigned (t : CapabilityToken) : Prop where
  threshold : t.granter.Fits
  depth : ∀ dc n, t.delegationCaveats = some dc → dc.maxDelegationDepth = some n → n < 2^63
  ttl : ∀ dc n, t.delegationCaveats = some dc → dc.maxDelegationTtl = some n → n < 2^63
  values : ∀ g ∈ t.grants, ∀ v, g.Holds v → Signed v

/-- A token written and read again, up to the order of entries in its values. -/
def CapabilityToken.RoundTrips (X : Platform) (t : CapabilityToken) : Prop :=
  ∃ e u, t.toEntity X = .ok e ∧ CapabilityToken.fromEntity X e = .ok u ∧ u.Alike Same t

theorem rel_iff {S : α → β → Prop} {Q : β → Prop} {x : Option α} {o : Option β}
    (h : Option.Rel R x o) (hiff : ∀ a b, o = some b → R a b → (S a b ↔ Q b)) :
    Option.Rel S x o ↔ ∀ b, o = some b → Q b := by
  cases h with
  | none => exact iff_of_true .none nofun
  | @some a b hab =>
    constructor
    · intro hs c hc
      obtain rfl := some.inj hc
      cases hs with | some hs =>
      exact (hiff a b rfl hab).mp hs
    · intro hq
      exact .some ((hiff a b rfl hab).mpr (hq b rfl))

theorem forall₂_iff {S : α → β → Prop} {Q : β → Prop} {as : List α} {bs : List β}
    (h : List.Forall₂ R as bs) (hiff : ∀ a, ∀ b ∈ bs, R a b → (S a b ↔ Q b)) :
    List.Forall₂ S as bs ↔ ∀ b ∈ bs, Q b := by
  induction h with
  | nil => simp
  | cons hab _ ih =>
    rw [List.forall₂_cons,List.forall_mem_cons,hiff _ _ List.mem_cons_self hab,
      ih fun a b hb => hiff a b (List.mem_cons_of_mem _ hb)]

theorem mapsAlike_iff {c' c : OrderedMap Str Value} (h : MapsAlike Encoded c' c)
    (htags : ∀ name v, c.get name = some v → Tagless v) :
    MapsAlike Same c' c ↔ ∀ name v, c.get name = some v → Signed v :=
  forall_congr' fun name => rel_iff (h name) fun _ v hv hw =>
    same_ciboriumToEcf_iff (htags name v hv) hw

theorem GrantEntry.alike_iff {g' g : GrantEntry} (h : g'.Alike Encoded g)
    (htags : ∀ v, g.Holds v → Tagless v) : g'.Alike Same g ↔ ∀ v, g.Holds v → Signed v := by
  have hmaps : ∀ {x o : Option (OrderedMap Str Value)}, Option.Rel (MapsAlike Encoded) x o →
      (∀ c, o = some c → g.constraints = some c ∨ g.allowances = some c) →
      (Option.Rel (MapsAlike Same) x o ↔
        ∀ c, o = some c → ∀ name v, c.get name = some v → Signed v) := by
    intro x o hx ho
    apply rel_iff hx
    intro c' c hc hcc
    exact mapsAlike_iff hcc fun name v hv => htags v ⟨c,ho c hc,name,hv⟩
  have hconstraints := hmaps h.constraints fun _ hc => .inl hc
  have hallowances := hmaps h.allowances fun _ hc => .inr hc
  constructor
  · rintro hsame v ⟨c,hc | hc,name,hv⟩
    · exact hconstraints.mp hsame.constraints c hc name v hv
    · exact hallowances.mp hsame.allowances c hc name v hv
  · intro hsigned
    exact ⟨h.handlers,h.resources,h.operations,h.peers,
      hconstraints.mpr fun c hc name v hv => hsigned v ⟨c,.inl hc,name,hv⟩,
      hallowances.mpr fun c hc name v hv => hsigned v ⟨c,.inr hc,name,hv⟩⟩

theorem wrapped_iff (o : Option DelegationCaveats) : o.map DelegationCaveats.wrapped = o ↔
      (∀ dc n, o = some dc → dc.maxDelegationDepth = some n → n < 2^63) ∧
      ∀ dc n, o = some dc → dc.maxDelegationTtl = some n → n < 2^63 := by
  have hcount : ∀ x : Option ℕ, (x.bind fun n => if n < 2^63 then some n else none) = x ↔
      ∀ n, x = some n → n < 2^63 := by
    intro x
    cases x with
    | none => simp
    | some n => simp
  cases o with
  | none => simp
  | some dc =>
    have hparts : dc.wrapped = dc ↔
        (dc.maxDelegationDepth.bind fun n => if n < 2^63 then some n else none) =
          dc.maxDelegationDepth ∧
        (dc.maxDelegationTtl.bind fun n => if n < 2^63 then some n else none) =
          dc.maxDelegationTtl := by
      obtain ⟨noDelegation,depth,ttl⟩ := dc
      simp only [DelegationCaveats.wrapped,DelegationCaveats.mk.injEq,true_and]
    rw [map_some,some.injEq,hparts,hcount,hcount]
    constructor
    · rintro ⟨hdepth,httl⟩
      constructor
      · rintro _ n ⟨⟩
        exact hdepth n
      · rintro _ n ⟨⟩
        exact httl n
    · rintro ⟨hdepth,httl⟩
      exact ⟨fun n => hdepth dc n rfl,fun n => httl dc n rfl⟩

/-- A token reads back as it was, if and only if its threshold, its limits on delegation and
the integers of its constraints and allowances fit a signed machine word. -/
theorem token_round_trip_iff (X : Platform) (hX : X.FormatAllocated) (t : CapabilityToken)
    (hwords : t.Words) (htags : ∀ g ∈ t.grants, ∀ v, g.Holds v → Tagless v)
    (hread : ReadsBack X t.document) : t.RoundTrips X ↔ t.FitsSigned := by
  obtain ⟨e,he,htype,hdata⟩ : ∃ e, t.toEntity X = .ok e ∧ e.entityType = typeCapToken ∧
      e.data = Ecf.toEcf t.document := by
    have htype : typeCapToken ≠ [] := by decide
    have hpeer : typeCapToken ≠ typePeer := by decide
    obtain ⟨e,he⟩ := Entity.new_ok hX htype hpeer
      (toEcf_map_ne_nil (presentFields (tokenFields t)))
    have hfields := Entity.newWithFormat_ok X he
    refine ⟨e,?_,hfields.1,hfields.2.1⟩
    rw [CapabilityToken.toEntity,toEcf_document]
    show mapErr _ (Entity.new X typeCapToken (Ecf.toEcf (.map (presentFields (tokenFields t))))) = _
    rw [he]
    rfl
  obtain ⟨w,hw,hsame⟩ := hread
  rw [← hdata] at hw
  have hgrants : ∀ {gs : List GrantEntry}, List.Forall₂ (GrantEntry.Alike Encoded) gs t.grants →
      (List.Forall₂ (GrantEntry.Alike Same) gs t.grants ↔
        ∀ g ∈ t.grants, ∀ v, g.Holds v → Signed v) := by
    intro gs hgs
    exact forall₂_iff hgs fun g' g hg hgg => GrantEntry.alike_iff hgg (htags g hg)
  cases w with
  | map m =>
    constructor
    · rintro ⟨e',u,he',hu,halike⟩
      obtain rfl := Except.ok.inj (he.symm.trans he')
      obtain ⟨hfits,hencoded⟩ := fromEntity_read hw hsame hwords hu
      have hcaveats := hencoded.delegationCaveats.symm.trans halike.delegationCaveats
      have hbounds := (wrapped_iff t.delegationCaveats).mp hcaveats
      exact ⟨hfits,hbounds.1,hbounds.2,(hgrants hencoded.grants).mp halike.grants⟩
    · intro hfits
      obtain ⟨u,hu⟩ := fromEntity_total htype hw hsame hwords hfits.threshold
      obtain ⟨-,hencoded⟩ := fromEntity_read hw hsame hwords hu
      have hvalues := (hgrants hencoded.grants).mpr hfits.values
      have hcaveats := (wrapped_iff t.delegationCaveats).mpr ⟨hfits.depth,hfits.ttl⟩
      refine ⟨e,u,he,hu,hvalues,hencoded.granter,hencoded.grantee,hencoded.parent,
        hencoded.createdAt,hencoded.expiresAt,hencoded.notBefore,?_⟩
      exact hencoded.delegationCaveats.trans hcaveats
  | _ => cases hsame

/-! Alice lets Bob do everything, five times, and lets him delegate to a depth. -/
namespace Sample

def fiveTimes : GrantEntry :=
  ⟨⟨["*".toList],[]⟩,⟨["*".toList],[]⟩,⟨["*".toList],[]⟩,none,
    some (OrderedMap.ofList [("times".toList,uint 5)]),none⟩

def deep (depth : ℕ) : CapabilityToken :=
  ⟨[fiveTimes],.single alice.contentHash,bob.contentHash,none,1,none,none,
    some ⟨none,some depth,none⟩⟩

def deepCrates (depth : ℕ) : Platform := platform [(deep depth).document] [] []

theorem platform_reads (v : Value) : (platform [v] [] []).fromReader (Ecf.toEcf v) = .ok v := by
  have hn : ([v].map Ecf.toEcf).Nodup := List.nodup_singleton _
  exact reads_document hn (List.mem_singleton_self v)

theorem deep_reads (depth : ℕ) : ReadsBack (deepCrates depth) (deep depth).document :=
  ⟨(deep depth).document,platform_reads _,same_self (tagless_document _)⟩

theorem deep_allocated (depth : ℕ) : (deepCrates depth).FormatAllocated := by
  show Hash.digestLenForFormat 0 ≠ none
  decide

theorem deep_words {depth : ℕ} (h : depth < 2^64) : (deep depth).Words := by
  constructor
  · nofun
  · show 1 < 2^64
    norm_num
  · nofun
  · nofun
  · rintro dc n ⟨⟩ ⟨⟩
    exact h
  · rintro dc n ⟨⟩ ⟨⟩

theorem deep_holds {depth : ℕ} : ∀ g ∈ (deep depth).grants, ∀ v, g.Holds v → v = uint 5 := by
  rintro g hg v ⟨c,hc | hc,name,hv⟩
  · obtain rfl := List.mem_singleton.mp hg
    obtain rfl := some.inj hc
    have hentry := (OrderedMap.mem_entries _ name v).mpr hv
    exact (Prod.mk.inj (List.mem_singleton.mp hentry)).2
  · obtain rfl := List.mem_singleton.mp hg
    cases hc

end Sample

open Sample

/-- A limit of `2^63` is written as a negative number and read as no limit. -/
theorem limit_read_as_none : ¬ ∀ (X : Platform), X.FormatAllocated → ∀ t : CapabilityToken,
    t.Words → (∀ g ∈ t.grants, ∀ v, g.Holds v → Tagless v) → ReadsBack X t.document →
    t.RoundTrips X := by
  intro h
  obtain ⟨e,u,he,hu,halike⟩ := h (deepCrates (2^63)) (deep_allocated _) (deep (2^63))
    (deep_words (by norm_num)) (fun g hg v hv => deep_holds g hg v hv ▸ .integer _) (deep_reads _)
  have hdata : e.data = Ecf.toEcf (deep (2^63)).document := by
    rw [CapabilityToken.toEntity,toEcf_document] at he
    simp only [mapErr_ok] at he
    exact (Entity.newWithFormat_ok _ he).2.1
  have hread := platform_reads (deep (2^63)).document
  rw [← hdata] at hread
  have hwrapped := (fromEntity_read hread (same_self (tagless_document _))
    (deep_words (by norm_num)) hu).2.delegationCaveats
  rw [halike.delegationCaveats] at hwrapped
  simp [deep,DelegationCaveats.wrapped] at hwrapped

theorem token_round_trip_iff_sample : (deep 3).RoundTrips (deepCrates 3) := by
  refine (token_round_trip_iff (deepCrates 3) (deep_allocated 3) (deep 3) (deep_words (by norm_num))
    (fun g hg v hv => deep_holds g hg v hv ▸ .integer _) (deep_reads _)).mpr ⟨trivial,?_,?_,?_⟩
  · rintro dc n ⟨⟩ ⟨⟩
    norm_num
  · rintro dc n ⟨⟩ ⟨⟩
  · intro g hg v hv
    rw [deep_holds g hg v hv]
    exact .integer (by decide)

end EntityCore
