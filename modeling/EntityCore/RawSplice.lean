import EntityCore.WireRoundTrip

/-! Splicing a field into an encoded map. The walk over the written map meets its entries
in canonical order; what is copied and what is spliced in is sorted as the encoder sorts
them, so the outcome is what the encoder writes for the changed map. -/
namespace EntityCore

open List
namespace Wire

open Ecf ByteCode Outcome

/-- A map with distinct text keys. -/
abbrev TextMap := AList fun _ : Str => Value

def encodedField (e : Sigma fun _ : Str => Value) : Bytes × Bytes :=
  (encodeCborText e.1,encodeValue e.2)

def fieldBytes (e : Sigma fun _ : Str => Value) : Bytes := encodeCborText e.1++encodeValue e.2

def fieldLe (a b : Sigma fun _ : Str => Value) : Prop :=
  keyLe (encodeCborText a.1) (encodeCborText b.1)

instance : DecidableRel fieldLe := fun a b =>
  inferInstanceAs (Decidable (keyLe (encodeCborText a.1) (encodeCborText b.1)))

namespace TextMap

variable (m : TextMap)

def value : Value := .map (m.entries.map fun e => (.text e.1,e.2))

/-- The entries as they are written. -/
def written : List (Sigma fun _ : Str => Value) := m.entries.insertionSort fieldLe

theorem written_perm : m.written.Perm m.entries := perm_insertionSort _ _

theorem written_nodupKeys : m.written.NodupKeys :=
  (perm_nodupKeys m.written_perm).mpr m.nodupKeys

theorem dlookup_written (key : Str) : m.written.dlookup key = m.lookup key :=
  perm_dlookup key m.written_nodupKeys m.written_perm

theorem toEcf_value : toEcf m.value = encodeMap (m.entries.map encodedField) := by
  rw [toEcf,value,encodeValue,encodeEntries_eq,map_map]
  rfl

theorem toEcf_value_written :
    toEcf m.value = encodeHead majorMap m.written.length++m.written.flatMap fieldBytes := by
  have hsort : (m.entries.map encodedField).insertionSort entryLe = m.written.map encodedField :=
    (map_insertionSort fieldLe entryLe _ _ fun a _ b _ => Iff.rfl).symm
  rw [toEcf_value,encodeMap,hsort,length_map,m.written_perm.length_eq,flatMap_map]
  rfl

end TextMap

/-! The walk. -/

section Walk

variable {data : Bytes} (hd : data.length < 2^64)
include hd

theorem field_at {c : ℕ} {e : Sigma fun _ : Str => Value} (h : At data c (fieldBytes e)) :
    decodeCborText data c = .ok (e.1,c+(encodeCborText e.1).length) ∧
      cborItemEnd data (c+(encodeCborText e.1).length) = .ok (c+(fieldBytes e).length) ∧
      slice data c (c+(encodeCborText e.1).length) = encodeCborText e.1 ∧
      slice data (c+(encodeCborText e.1).length) (c+(fieldBytes e).length) = encodeValue e.2 := by
  have hlen : c+(fieldBytes e).length =
      c+(encodeCborText e.1).length+(encodeValue e.2).length := by
    rw [fieldBytes,length_append,Nat.add_assoc]
  rw [hlen]
  exact ⟨decodeCborText_at hd h.left,cborItemEnd_at hd h.right,h.left.slice,h.right.slice⟩

theorem findField_at (key : Str) (l : List (Sigma fun _ : Str => Value)) (c : ℕ)
    (h : At data c (l.flatMap fieldBytes)) :
    findField data key l.length c = .ok ((l.dlookup key).map encodeValue) := by
  induction l generalizing c with
  | nil => rfl
  | cons e l ih =>
    rw [flatMap_cons] at h
    have ⟨hkey,hend,_,hvalue⟩ := field_at hd h.left
    have hrest := ih _ h.right
    simp only [length_cons,findField,hkey,hend,hvalue,hrest,bind,Except.bind,pure,Except.pure]
    by_cases he : e.1 = key
    · obtain ⟨k,v⟩ := e
      cases he
      simp
    · rw [if_neg he,dlookup_cons_ne _ _ (Ne.symm he)]

theorem otherEntries_at (key : Str) (l : List (Sigma fun _ : Str => Value)) (c : ℕ)
    (h : At data c (l.flatMap fieldBytes)) : otherEntries data key l.length c =
      .ok ((l.filter fun e => e.1 ≠ key).map encodedField) := by
  induction l generalizing c with
  | nil => rfl
  | cons e l ih =>
    rw [flatMap_cons] at h
    have ⟨hkey,hend,hname,hvalue⟩ := field_at hd h.left
    have hrest := ih _ h.right
    simp only [length_cons,otherEntries,hkey,hend,hname,hvalue,hrest,bind,Except.bind,pure,
      Except.pure]
    by_cases he : e.1 = key
    · simp [he]
    · simp [he,encodedField]

end Walk

/-! The keys. -/

theorem encodeCborText_inj {s t : Str} (hs : (encodeCborText s).length < 2^64)
    (h : encodeCborText s = encodeCborText t) : s = t := by
  have hread := decodeCborText_at hs (at_zero rfl)
  have hread' := decodeCborText_at hs (at_zero h)
  rw [hread] at hread'
  exact (Prod.mk.inj (Except.ok.inj hread')).1

theorem length_le_flatMap_fieldBytes {l : List (Sigma fun _ : Str => Value)}
    {e : Sigma fun _ : Str => Value} (h : e ∈ l) :
    (encodeCborText e.1).length ≤ (l.flatMap fieldBytes).length := by
  have hpart := single_le_sum (l := l.map fun e => (fieldBytes e).length) (by simp) _
    (mem_map_of_mem h)
  rw [length_flatMap]
  rw [fieldBytes,length_append] at hpart
  exact (Nat.le_add_right _ _).trans hpart

/-- Different keys are written differently. -/
theorem encodedField_nodup {l : List (Sigma fun _ : Str => Value)} (hd : l.NodupKeys)
    (hlen : (l.flatMap fieldBytes).length < 2^64) : ((l.map encodedField).map Prod.fst).Nodup := by
  rw [map_map]
  have hkeys : (l.map Sigma.fst).Nodup := hd
  refine List.Nodup.map_on ?_ (hkeys.of_map _)
  intro a ha b hb hab
  have ha' := (length_le_flatMap_fieldBytes ha).trans_lt hlen
  exact hd.eq_of_fst_eq ha hb (encodeCborText_inj ha' hab)

theorem kerase_eq_filter {l : List (Sigma fun _ : Str => Value)} (hd : l.NodupKeys) (key : Str) :
    l.kerase key = l.filter fun e => e.1 ≠ key := by
  induction l with
  | nil => rfl
  | cons e l ih =>
    have ⟨hnew,hrest⟩ := nodupKeys_cons.mp hd
    by_cases he : key = e.1
    · have hall : (l.filter fun e => e.1 ≠ key) = l := by
        refine filter_eq_self.mpr fun a ha => ?_
        have hne : a.1 ≠ key := fun h => hnew (he ▸ h ▸ mem_keys_of_mem ha)
        simpa using hne
      rw [kerase_cons_eq he,filter_cons_of_neg (by simp [he]),hall]
    · rw [kerase_cons_ne he,ih hrest,filter_cons_of_pos (by simpa using Ne.symm he)]

/-! The operations. -/

theorem mapHead_value (m : TextMap) (expected : String) (hd : (toEcf m.value).length < 2^64) :
    ∃ headSize, mapHead (toEcf m.value) 0 expected = .ok (m.written.length,headSize) ∧
      At (toEcf m.value) headSize (m.written.flatMap fieldBytes) := by
  have hall := at_zero m.toEcf_value_written
  have hbound := hall.right.bound
  have hcount : m.written.length ≤ (m.written.flatMap fieldBytes).length := by
    generalize m.written = l
    induction l with
    | nil => exact le_rfl
    | cons e l ih =>
      have hone := length_pos_iff.mpr (encodeValue_ne_nil e.2)
      rw [flatMap_cons,length_append,length_cons,fieldBytes,length_append]
      omega
  refine ⟨_,mapHead_at expected (by omega) hall.left,?_⟩
  simpa using hall.right

theorem cborMapFieldRaw_value (m : TextMap) (key : Str) (hd : (toEcf m.value).length < 2^64) :
    cborMapFieldRaw (toEcf m.value) key = (m.lookup key).map toEcf := by
  obtain ⟨headSize,hhead,hat⟩ := mapHead_value m "expected CBOR map" hd
  rw [cborMapFieldRaw,hhead]
  simp only [findField_at hd key _ _ hat,m.dlookup_written]
  rfl

theorem cborMapSetRaw_value (m : TextMap) (key : Str) (x : Value)
    (hd : (toEcf m.value).length < 2^64)
    (hd' : (toEcf (TextMap.value (m.insert key x))).length < 2^64) :
    cborMapSetRaw (toEcf m.value) key (toEcf x) = .ok (toEcf (TextMap.value (m.insert key x))) := by
  obtain ⟨headSize,hhead,hat⟩ := mapHead_value m "cbor_map_set_raw: expected CBOR map" hd
  have hperm : ((m.insert key x).entries.map encodedField).Perm
      ((m.written.filter fun e => e.1 ≠ key).map encodedField++
        [(encodeCborText key,toEcf x)]) := by
    rw [AList.entries_insert,kerase_eq_filter m.nodupKeys,map_cons]
    refine ((m.written_perm.filter _).symm.map encodedField).cons _ |>.trans ?_
    exact (perm_append_singleton _ _).symm
  have hnodup : (((m.insert key x).entries.map encodedField).map Prod.fst).Nodup := by
    have hw := TextMap.toEcf_value_written (m.insert key x)
    rw [hw,length_append] at hd'
    have hn := encodedField_nodup (TextMap.written_nodupKeys (m.insert key x)) (by omega)
    exact (((TextMap.written_perm (m.insert key x)).map encodedField).map Prod.fst).nodup_iff.mp hn
  rw [TextMap.toEcf_value (m.insert key x),encodeMap_perm hperm hnodup,cborMapSetRaw,hhead]
  simp only [bind,Except.bind,otherEntries_at hd key _ _ hat,length_insertionSort]
  rfl

/-- Splicing is encoding the changed map, and every field can be read back. -/
theorem raw_splice_canonical (m : TextMap) (k : Str) (x : Value)
    (hd : (toEcf m.value).length < 2^64)
    (hd' : (toEcf (TextMap.value (m.insert k x))).length < 2^64) :
    cborMapSetRaw (toEcf m.value) k (toEcf x) = .ok (toEcf (TextMap.value (m.insert k x))) ∧
    cborMapFieldRaw (toEcf (TextMap.value (m.insert k x))) k = some (toEcf x) ∧
    ∀ key ≠ k, cborMapFieldRaw (toEcf (TextMap.value (m.insert k x))) key =
        cborMapFieldRaw (toEcf m.value) key ∧
      ∀ v, m.lookup key = some v → cborMapFieldRaw (toEcf m.value) key = some (toEcf v) := by
  refine ⟨cborMapSetRaw_value m k x hd hd',?_,?_⟩
  · rw [cborMapFieldRaw_value _ _ hd',AList.lookup_insert]
    rfl
  · intro key hkey
    rw [cborMapFieldRaw_value _ _ hd',cborMapFieldRaw_value _ _ hd,AList.lookup_insert_ne hkey]
    refine ⟨rfl,fun v hv => ?_⟩
    rw [hv]
    rfl

/-- A longer key, a shorter one and a value that is replaced. -/
def spliceSample : TextMap := ⟨[⟨"zz".toList,.integer ⟨1,by decide⟩⟩,⟨"a".toList,.null⟩],by
  simp [List.nodupKeys_cons]⟩

theorem raw_splice_canonical_sample :
    cborMapSetRaw (toEcf spliceSample.value) "b".toList (toEcf (.bool true)) =
      .ok [0xA3,0x61,0x61,0xF6,0x61,0x62,0xF5,0x62,0x7A,0x7A,0x01] :=
  (raw_splice_canonical spliceSample "b".toList (.bool true) (by decide)
    (by decide)).1.trans (by decide)

end Wire
end EntityCore
