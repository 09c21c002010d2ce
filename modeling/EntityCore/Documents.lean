import EntityCore.AttestationIndex

/-! Documents: tag-free values whose maps are keyed by distinct texts. One that fits in
memory is well formed, so its encoding identifies it, and what a decoder reads back has
the same fields. -/
namespace EntityCore

open ByteCode Ecf Outcome Strings List

variable {v : Value} {n : List (Value × Value)} {l : List (String × Option Value)}

namespace Ecf

/-- Tag-free values in which the keys of every map are distinct texts. -/
inductive Regular : Value → Prop
  | null : Regular .null
  | bool (b) : Regular (.bool b)
  | integer (i) : Regular (.integer i)
  | float (f) : Regular (.float f)
  | bytes (b) : Regular (.bytes b)
  | text (s) : Regular (.text s)
  | array {vs} (h : ∀ v ∈ vs, Regular v) : Regular (.array vs)
  | map {m} {keys : List Str} (hk : m.map Prod.fst = keys.map Value.text) (hd : keys.Nodup)
      (hv : ∀ e ∈ m, Regular e.2) : Regular (.map m)

theorem Regular.encodeValue_ne_nil (h : Regular v) : encodeValue v ≠ [] := by
  cases h with
  | null => exact cons_ne_nil _ _
  | bool b => exact cons_ne_nil _ _
  | integer i =>
    rw [encodeValue,encodeInteger_eq]
    split_ifs <;> exact encodeHead_ne_nil _ _
  | float f =>
    obtain ⟨b,t,h,-⟩ := encodeFloat_kind f
    rw [encodeValue,h]
    exact cons_ne_nil _ _
  | bytes b => exact encodeValue_bytes_ne_nil b
  | text s =>
    rw [encodeValue,encodeCborText]
    exact append_ne_nil_of_left_ne_nil (encodeHead_ne_nil _ _) _
  | array h => exact encodeValue_array_ne_nil _
  | map hk hd hv =>
    rw [encodeValue]
    exact append_ne_nil_of_left_ne_nil (encodeHead_ne_nil _ _) _

theorem length_le_encodeMap_of_ne_nil {m : List (Value × Value)}
    (h : ∀ e ∈ m, encodeValue e.1 ≠ []) : m.length ≤ (encodeValue (.map m)).length := by
  have hsum : ∀ l : List (Bytes × Bytes), (∀ e ∈ l, e.1 ≠ []) →
      l.length ≤ (l.flatMap fun e => e.1++e.2).length := by
    intro l
    induction l with
    | nil => exact fun _ => Nat.zero_le _
    | cons e l ih =>
      intro hl
      have hpos := length_pos_iff.mpr (hl e mem_cons_self)
      have hrest := ih fun e he => hl e (mem_cons_of_mem _ he)
      simp only [flatMap_cons,length_append,length_cons]
      omega
  have hlen : ((encodeEntries m).insertionSort entryLe).length = m.length := by
    rw [length_insertionSort,encodeEntries_eq,length_map]
  rw [← hlen,encodeValue,encodeMap,length_append]
  refine (hsum _ ?_).trans (Nat.le_add_left _ _)
  intro e he
  rw [mem_insertionSort,encodeEntries_eq] at he
  obtain ⟨x,hx,rfl⟩ := mem_map.mp he
  exact h x hx

theorem utf8_length_le_encodeValue (s : Str) :
    (utf8 s).length ≤ (encodeValue (.text s)).length := by
  rw [encodeValue,encodeCborText,length_append]
  omega

theorem text_of_encodeValue {a b : Str} (ha : (utf8 a).length < 2^63) (hb : (utf8 b).length < 2^63)
    (h : encodeValue (.text a) = encodeValue (.text b)) : a = b := by
  cases ((toEcf_identifies _ _ (.text ha) (.text hb)).1).mp h
  rfl

/-- A regular document that fits in memory is well formed. -/
theorem Regular.wellFormed (h : Regular v) (hl : (toEcf v).length < 2^63) : WellFormed v := by
  induction h with
  | null => exact .null
  | bool b => exact .bool b
  | integer i => exact .integer i
  | float f => exact .float f
  | bytes b =>
    refine .bytes ?_
    rw [toEcf,encodeValue,encodeCborBstr,length_append] at hl
    omega
  | text s => exact .text (lt_of_le_of_lt (utf8_length_le_encodeValue s) hl)
  | array h ih => exact wellFormed_array (fun v hv => (h v hv).encodeValue_ne_nil) ih hl
  | @map m keys hk hd hv ih =>
    have hentry : ∀ e ∈ m, (encodeValue e.1).length+(encodeValue e.2).length < 2^63 := fun e he =>
      lt_of_le_of_lt (length_key_add_le_encodeMap he) hl
    have htext : ∀ e ∈ m, ∃ s, e.1 = .text s := by
      intro e he
      have hmem : e.1 ∈ keys.map Value.text := hk ▸ mem_map_of_mem he
      obtain ⟨s,-,hs⟩ := mem_map.mp hmem
      exact ⟨s,hs.symm⟩
    have hkeys : ∀ e ∈ m, WellFormed e.1 := by
      intro e he
      obtain ⟨s,hs⟩ := htext e he
      have hle := utf8_length_le_encodeValue s
      have hlt := hentry e he
      rw [hs] at hlt ⊢
      exact .text (by omega)
    have hlen : m.length < 2^63 := by
      refine lt_of_le_of_lt (length_le_encodeMap_of_ne_nil ?_) hl
      intro e he
      obtain ⟨s,hs⟩ := htext e he
      rw [hs]
      exact (Regular.text s).encodeValue_ne_nil
    refine .map hlen ?_ hkeys fun e he => ih e he ?_
    · have hmap : (m.map fun e => toEcf e.1) = keys.map fun s => toEcf (.text s) := by
        rw [show (m.map fun e => toEcf e.1) = (m.map Prod.fst).map toEcf by rw [map_map]; rfl,
          hk,map_map]
        rfl
      rw [hmap]
      refine List.Nodup.map_on ?_ hd
      intro a ha b hb hab
      have hsize : ∀ s ∈ keys, (utf8 s).length < 2^63 := by
        intro s hs
        have hmem : Value.text s ∈ m.map Prod.fst := hk ▸ mem_map_of_mem hs
        obtain ⟨e,he,hes⟩ := mem_map.mp hmem
        have hle := utf8_length_le_encodeValue s
        have hlt := hentry e he
        rw [hes] at hlt
        omega
      exact text_of_encodeValue (hsize a ha) (hsize b hb) hab
    · have hlt := hentry e he
      show (encodeValue e.2).length < 2^63
      omega

end Ecf

/-! Fields. -/

/-- The fields that are present, in the order they are listed. -/
def presentFields (l : List (String × Option Value)) : List (Value × Value) :=
  l.filterMap fun e => e.2.map (field e.1)

theorem getField_cons (kv : Value × Value) (m : List (Value × Value)) (k : String) :
    getField (kv::m) k = if kv.1.asText = some k.toList then some kv.2 else getField m k := by
  unfold getField
  rw [findSome?_cons]
  split_ifs <;> rfl

theorem getField_eq_some {m : List (Value × Value)}
    (hn : (m.map fun kv => kv.1.asText).Nodup) (k : String) (v : Value) :
    getField m k = some v ↔ ∃ kv ∈ m, kv.1.asText = some k.toList ∧ kv.2 = v := by
  induction m with
  | nil => simp [getField]
  | cons kv m ih =>
    obtain ⟨hkv,hm⟩ := nodup_cons.mp hn
    rw [getField_cons]
    by_cases hk : kv.1.asText = some k.toList
    · rw [if_pos hk]
      constructor
      · intro h
        exact ⟨kv,mem_cons_self,hk,Option.some.inj h⟩
      · rintro ⟨e,he,hek,rfl⟩
        rcases mem_cons.mp he with rfl | he
        · rfl
        · exact absurd (mem_map.mpr ⟨e,he,hek.trans hk.symm⟩) hkv
    · rw [if_neg hk,ih hm]
      simp [hk]

theorem getField_perm {m : List (Value × Value)} (h : m.Perm n)
    (hn : (n.map fun kv => kv.1.asText).Nodup) (k : String) : getField m k = getField n k := by
  have hm : (m.map fun kv => kv.1.asText).Nodup := ((h.map _).nodup_iff).mpr hn
  apply Option.ext
  intro v
  rw [getField_eq_some hm,getField_eq_some hn]
  simp only [h.mem_iff]

theorem Ecf.Same.asText_eq {w : Value} (h : Same v w) : v.asText = w.asText := by
  cases h <;> rfl

theorem Ecf.Same.hashField_eq {w : Value} (h : Same v w) : hashField v = hashField w := by
  cases h <;> rfl

/-- Maps that are the same have the same fields. -/
theorem getField_rel {m : List (Value × Value)} (h : Same (.map m) (.map n))
    (hn : (n.map fun kv => kv.1.asText).Nodup) (k : String) :
    Option.Rel Same (getField m k) (getField n k) := by
  cases h with
  | @map _ m' _ hp hk hv =>
    have hzip : ∀ (m n : List (Value × Value)), List.Forall₂ Same (m.map Prod.fst) (n.map Prod.fst) →
        List.Forall₂ Same (m.map Prod.snd) (n.map Prod.snd) →
        (m.map fun kv => kv.1.asText) = (n.map fun kv => kv.1.asText) ∧
          Option.Rel Same (getField m k) (getField n k) := by
      intro m
      induction m with
      | nil =>
        intro n hk _
        cases n with
        | nil => exact ⟨rfl,.none⟩
        | cons b n => cases hk
      | cons a m ih =>
        intro n hk hv
        cases n with
        | nil => cases hk
        | cons b n =>
          simp only [map_cons,forall₂_cons] at hk hv
          obtain ⟨htexts,hfields⟩ := ih n hk.2 hv.2
          have htext : a.1.asText = b.1.asText := hk.1.asText_eq
          refine ⟨by simp only [map_cons,htext,htexts],?_⟩
          rw [getField_cons,getField_cons,htext]
          split_ifs
          · exact .some hv.1
          · exact hfields
    obtain ⟨htexts,hfields⟩ := hzip m' n hk hv
    rw [getField_perm hp (htexts ▸ hn)]
    exact hfields

theorem getField_same {m : List (Value × Value)} (h : Same (.map m) (.map n))
    (hn : (n.map fun kv => kv.1.asText).Nodup) (k : String) :
    (getField m k).bind hashField = (getField n k).bind hashField := by
  have hrel := getField_rel h hn k
  generalize getField m k = a at hrel ⊢
  generalize getField n k = b at hrel ⊢
  cases hrel with
  | none => rfl
  | some hvw => exact hvw.hashField_eq

theorem presentFields_nodup (hn : (l.map Prod.fst).Nodup) :
    ((presentFields l).map fun kv => kv.1.asText).Nodup := by
  have hsub : ∀ l : List (String × Option Value),
      ((presentFields l).map fun kv => kv.1.asText).Sublist
        (l.map fun e => some e.1.toList) := by
    intro l
    induction l with
    | nil => exact List.Sublist.slnil
    | cons e l ih =>
      obtain ⟨name,o⟩ := e
      cases o with
      | none => exact ih.cons _
      | some v => exact ih.cons_cons _
  have hinj : (l.map fun e => some e.1.toList).Nodup := by
    have hmap : (l.map fun e => some e.1.toList) = (l.map Prod.fst).map fun name => some name.toList := by
      rw [map_map]
      rfl
    rw [hmap]
    apply hn.map
    intro a b hab
    exact String.toList_injective (Option.some.inj hab)
  exact (hsub l).nodup hinj

theorem getField_presentFields (hn : (l.map Prod.fst).Nodup)
    {k : String} {o : Option Value} (hk : (k,o) ∈ l) : getField (presentFields l) k = o := by
  induction l with
  | nil => cases hk
  | cons e l ih =>
    obtain ⟨name,v⟩ := e
    obtain ⟨hname,hl⟩ := nodup_cons.mp hn
    rcases mem_cons.mp hk with he | hmem
    · obtain ⟨rfl,rfl⟩ := Prod.mk.inj he
      cases o with
      | some v =>
        show getField (field k v::presentFields l) k = some v
        have htext : (field k v).1.asText = some k.toList := rfl
        rw [getField_cons,if_pos htext]
        rfl
      | none =>
        show getField (presentFields l) k = none
        by_contra hsome
        obtain ⟨v,hv⟩ := Option.ne_none_iff_exists'.mp hsome
        obtain ⟨kv,hkv,htext,-⟩ := (getField_eq_some (presentFields_nodup hl) k v).mp hv
        obtain ⟨e,he,hfield⟩ := mem_filterMap.mp hkv
        obtain ⟨w,-,rfl⟩ := Option.map_eq_some_iff.mp hfield
        have hek : e.1 = k := String.toList_injective (Option.some.inj htext)
        exact hname (mem_map.mpr ⟨e,he,hek⟩)
    · have hne : name ≠ k := by
        rintro rfl
        exact hname (mem_map.mpr ⟨_,hmem,rfl⟩)
      cases v with
      | none => exact ih hl hmem
      | some v =>
        show getField (field name v::presentFields l) k = o
        rw [getField_cons,if_neg]
        · exact ih hl hmem
        · intro htext
          exact hne (String.toList_injective (Option.some.inj htext))

theorem presentFields_regular (hn : (l.map Prod.fst).Nodup)
    (hv : ∀ e ∈ l, ∀ v, e.2 = some v → Regular v) : Regular (.map (presentFields l)) := by
  have hkeys : ∃ keys : List Str, (presentFields l).map Prod.fst = keys.map Value.text ∧
      keys.Sublist (l.map fun e => e.1.toList) := by
    clear hn hv
    induction l with
    | nil => exact ⟨[],rfl,List.Sublist.slnil⟩
    | cons e l ih =>
      obtain ⟨keys,hk,hsub⟩ := ih
      obtain ⟨name,o⟩ := e
      cases o with
      | none => exact ⟨keys,hk,hsub.cons _⟩
      | some v =>
        refine ⟨name.toList::keys,?_,hsub.cons_cons _⟩
        rw [map_cons,← hk]
        rfl
  obtain ⟨keys,hk,hsub⟩ := hkeys
  have hnames : (l.map fun e => e.1.toList).Nodup := by
    have hmap : (l.map fun e => e.1.toList) = (l.map Prod.fst).map String.toList := by
      rw [map_map]
      rfl
    rw [hmap]
    exact hn.map fun _ _ h => String.toList_injective h
  refine .map hk (hsub.nodup hnames) ?_
  intro kv hkv
  obtain ⟨e,he,hfield⟩ := mem_filterMap.mp hkv
  obtain ⟨v,hev,rfl⟩ := Option.map_eq_some_iff.mp hfield
  exact hv e he v hev

/-- `as u64`. -/
def Ecf.Integer.lowWord (i : Integer) : ℕ := (i.val%2^64).toNat

theorem asU64_uinteger (n : ℕ) : (uinteger n).asU64 = some (n%2^64) := by
  generalize hk : n%2^64 = k
  have hword : (0 : ℤ) ≤ k ∧ (k : ℤ) < 2^64 := by omega
  have hval : (uinteger n).asInteger.map (·.val) = some (k : ℤ) := by
    rw [← hk]
    rfl
  obtain ⟨i,hi,hik⟩ := Option.map_eq_some_iff.mp hval
  rw [Value.asU64,hi,Option.bind_some,hik,if_pos hword,Int.toNat_natCast]

/-! The store. -/

/-- The store returns what was put, its entities fit in memory, and the decoder reads back
what the encoder wrote. -/
structure ContentStore.Readable (X : Platform) (s : ContentStore) : Prop where
  returns : ∀ e ∈ s.puts, s.get e.contentHash = some e
  sized : ∀ e ∈ s.puts, e.data.length < 2^63
  decodes : ∀ e ∈ s.puts, ∀ v, WellFormed v → e.data = toEcf v →
    ∃ w, X.fromReader e.data = .ok w ∧ Same w v

theorem ContentStore.Readable.read {X : Platform} {s : ContentStore} (h : s.Readable X) {e : Entity}
    (he : e ∈ s.puts) (hv : Regular v) (hdata : e.data = toEcf v) :
    ∃ w, X.fromReader e.data = .ok w ∧ Same w v := by
  have hsize := h.sized e he
  rw [hdata] at hsize
  exact h.decodes e he v (hv.wellFormed hsize) hdata

theorem ContentStore.get_grows {s s' t : ContentStore}
    (ht : ∀ e ∈ t.puts, t.get e.contentHash = some e) (hst : s ≤ s') (hle : s' ≤ t) {h : Hash}
    {e : Entity} (hg : s.get h = some e) : s'.get h = some e := by
  have hh : e.contentHash = h := by simpa using find?_some hg
  have hmem : e ∈ s'.puts := List.IsSuffix.mem (mem_of_find?_eq_some hg) hst
  have hfound : ∀ x, s'.get h = some x → x = e := by
    intro x hx
    have hxh : x.contentHash = h := by simpa using find?_some hx
    have hxt := ht x (List.IsSuffix.mem (mem_of_find?_eq_some hx) hle)
    have het := ht e (List.IsSuffix.mem hmem hle)
    rw [hxh] at hxt
    rw [hh,hxt] at het
    exact Option.some.inj het
  cases hx : s'.get h with
  | some x => rw [hfound x hx]
  | none =>
    have hn := find?_eq_none.mp hx e hmem
    simp [hh] at hn

namespace Sample

/-- Crates that know every document of a store read it. -/
theorem readable_of_documents {documents : List Value} {digests : List (Bytes × ℕ)}
    {signatures : List (Bytes × Bytes × Bytes)} {s : ContentStore}
    (hret : ∀ e ∈ s.puts, s.get e.contentHash = some e) (hsize : ∀ e ∈ s.puts, e.data.length < 2^63)
    (hdoc : ∀ e ∈ s.puts, ∃ v ∈ documents, toEcf v = e.data)
    (hreg : ∀ v ∈ documents, Regular v) : s.Readable (platform documents digests signatures) := by
  refine ⟨hret,hsize,?_⟩
  intro e he v hv hdata
  obtain ⟨x,hx,hxe⟩ := hdoc e he
  have hfound : ∃ w ∈ documents, documents.find? (fun w => toEcf w = e.data) = some w := by
    cases hf : documents.find? (fun w => toEcf w = e.data) with
    | some w => exact ⟨w,mem_of_find?_eq_some hf,rfl⟩
    | none =>
      have hnone := find?_eq_none.mp hf x hx
      simp [hxe] at hnone
  obtain ⟨w,hw,hf⟩ := hfound
  have hwe : toEcf w = e.data := by simpa using find?_some hf
  have hwf : WellFormed w := (hreg w hw).wellFormed (hwe ▸ hsize e he)
  refine ⟨w,?_,((toEcf_identifies w v hwf hv).1).mp (hwe.trans hdata)⟩
  show okOr (documents.find? fun w => toEcf w = e.data) "unknown document" = .ok w
  rw [hf]
  rfl

/-- Crates that know a document, and none other with its encoding, read it back. -/
theorem reads_document {documents : List Value} {digests : List (Bytes × ℕ)}
    {signatures : List (Bytes × Bytes × Bytes)} (hn : (documents.map toEcf).Nodup)
    (hv : v ∈ documents) : (platform documents digests signatures).fromReader (toEcf v) = .ok v := by
  show okOr (documents.find? fun w => toEcf w = toEcf v) "unknown document" = .ok v
  cases hf : documents.find? (fun w => toEcf w = toEcf v) with
  | none =>
    have hnone := find?_eq_none.mp hf v hv
    simp at hnone
  | some w =>
    have hw := mem_of_find?_eq_some hf
    have hsame : toEcf w = toEcf v := by simpa using find?_some hf
    rw [inj_on_of_nodup_map hn hw hv hsame]
    rfl

end Sample

end EntityCore
