import EntityCore.EcfCanonical
import EntityCore.Trie

/-! The canonical form of a trie. The node a set of bindings ought to have is a function
of the bindings; puts and removes lead from one such node to the next, so the root
after any history is the root of the final bindings. -/
namespace EntityCore

open Ecf Outcome ByteCode SparseArray Action List

variable {level left p fuel : ℕ} {m : OrderedMap Str Hash} {keys : Set Str} {s t : ContentStore}
  {n : SnapshotNodeData} {f : ℕ → Option Entry} {sub : OrderedMap Str Hash → Hash}

/-! A node is read back from its document. -/

theorem mapM_map_some {α β : Type} {f : α → β} {g : β → Option α} (h : ∀ a, g (f a) = some a)
    (l : List α) : (l.map f).mapM g = some l := by
  induction l with
  | nil => rfl
  | cons a l ih => simp [h,ih]

theorem hashField_toBytes (h : Hash) : hashField (.bytes h.toBytes) = some h := by
  simp [hashField,Value.asBytes,Hash.fromBytes_toBytes,Except.toOption]

theorem Entry.fromValue_toValue (e : Entry) : fromValue e.toValue = some e := by
  cases e with
  | bucket tuples =>
    have ht : ∀ t, tupleFromValue (tupleToValue t) = some t := by
      intro t
      simp [tupleFromValue,tupleToValue,Value.asArray,Value.asText,hashField_toBytes]
    simp [fromValue,toValue,Value.asArray,mapM_map_some ht]
  | link h => simp [fromValue,toValue,Value.asArray,hashField_toBytes]

theorem fromCbor_of_fromReader {X : Platform} {b : Bytes}
    (h : X.fromReader b = .ok n.toValue) : SnapshotNodeData.fromCbor X b = some n := by
  have hmap : BitVec.ofNat 32 (beNumber (beBytes bitmapBytes n.map.toNat)) = n.map := by
    rw [beNumber_beBytes,Nat.mod_eq_of_lt (by simpa [bitmapBytes] using n.map.isLt)]
    simp
  simp [SnapshotNodeData.fromCbor,h,Except.toOption,SnapshotNodeData.toValue,Value.asMap,
    SnapshotNodeData.scanField,Value.asText,Value.asBytes,Value.asArray,
    mapM_map_some Entry.fromValue_toValue,hmap]

/-! A node is determined by its document. -/

theorem wellFormed_hash (h : Hash) : WellFormed (.bytes h.toBytes) := by
  apply WellFormed.bytes
  rw [Hash.toBytes_eq]
  rcases h.algorithm_cases with ⟨-,hl⟩ | ⟨-,hl⟩ <;> simp [hl]

theorem wellFormed_tuple {t : Str × Hash} (h : (encodeValue (Entry.tupleToValue t)).length < 2^63) :
    WellFormed (Entry.tupleToValue t) := by
  refine .array (by simp) ?_
  simp only [forall_mem_cons]
  refine ⟨.text ?_,wellFormed_hash t.2,by simp⟩
  have hone : (encodeValue (.text t.1)).length ≤
      (encodeItems [.text t.1,.bytes t.2.toBytes]).length := length_le_encodeItems mem_cons_self
  rw [encodeValue,encodeCborText,length_append] at hone
  rw [Entry.tupleToValue,encodeValue,length_append] at h
  omega

theorem wellFormed_entry {e : Entry} (h : (encodeValue e.toValue).length < 2^63) :
    WellFormed e.toValue := by
  cases e with
  | bucket tuples =>
    refine wellFormed_array ?_ ?_ h
    · intro v hv
      obtain ⟨t,-,rfl⟩ := mem_map.mp hv
      exact encodeValue_array_ne_nil _
    · intro v hv hl
      obtain ⟨t,-,rfl⟩ := mem_map.mp hv
      exact wellFormed_tuple hl
  | link hash => exact wellFormed_hash hash

theorem wellFormed_node (h : n.toEcfBytes.length < 2^63) : WellFormed n.toValue := by
  have hdata : (encodeValue (.array (n.data.map Entry.toValue))).length ≤ n.toEcfBytes.length :=
    length_le_encodeMap (e := (.text "data".toList,.array (n.data.map Entry.toValue)))
      (mem_cons_of_mem _ mem_cons_self)
  have hkeys : [toEcf (.text "map".toList),toEcf (.text "data".toList)].Nodup := by decide
  refine .map (by simp) hkeys ?_ ?_
  · simp only [forall_mem_cons]
    exact ⟨.text (by decide),.text (by decide),by simp⟩
  · simp only [forall_mem_cons]
    refine ⟨.bytes (by simp [bitmapBytes]),wellFormed_array ?_ ?_ (by omega),by simp⟩
    · intro v hv
      obtain ⟨e,-,rfl⟩ := mem_map.mp hv
      cases e with
      | bucket tuples => exact encodeValue_array_ne_nil _
      | link hash => exact encodeValue_bytes_ne_nil _
    · intro v hv hl
      obtain ⟨e,-,rfl⟩ := mem_map.mp hv
      exact wellFormed_entry hl

theorem same_tuple (t t' : Str × Hash) (h : Same (Entry.tupleToValue t) (Entry.tupleToValue t')) :
    t = t' := by
  cases h with | array h =>
  simp only [forall₂_cons] at h
  obtain ⟨hk,hh,-⟩ := h
  exact Prod.ext (eq_of_same_text hk) (Hash.toBytes_inj (eq_of_same_bytes hh))

theorem same_entry (e e' : Entry) (h : Same e.toValue e'.toValue) : e = e' := by
  cases e with
  | bucket tuples => cases e' with
    | bucket tuples' =>
      cases h with | array h =>
      rw [eq_of_forall₂_same same_tuple h]
    | link hash => cases h
  | link hash => cases e' with
    | bucket tuples => cases h
    | link hash' => rw [Hash.toBytes_inj (eq_of_same_bytes h)]

theorem same_fields {a b : Str} (hne : a ≠ b) {v w v' w' : Value}
    (h : Same (.map [(.text a,v),(.text b,w)]) (.map [(.text a,v'),(.text b,w')])) :
    Same v v' ∧ Same w w' := by
  generalize hm : Value.map [(.text a,v),(.text b,w)] = x at h
  generalize hm' : Value.map [(.text a,v'),(.text b,w')] = y at h
  cases h with
  | map hp hk hv =>
    obtain rfl := Value.map.inj hm
    obtain rfl := Value.map.inj hm'
    rename_i m
    match m, hk, hv, hp with
    | [(k₁,v₁),(k₂,v₂)], hk, hv, hp =>
      simp only [map_cons,map_nil,forall₂_cons] at hk hv
      obtain ⟨hk₁,hk₂,-⟩ := hk
      obtain ⟨hv₁,hv₂,-⟩ := hv
      cases hk₁
      cases hk₂
      have h₁ := hp.mem_iff.mp mem_cons_self
      have h₂ := hp.mem_iff.mp (mem_cons_of_mem _ mem_cons_self)
      simp only [mem_cons,Prod.mk.injEq,Value.text.injEq,true_and,hne,Ne.symm hne,false_and,
        not_mem_nil,or_false,false_or] at h₁ h₂
      subst h₁
      subst h₂
      exact ⟨hv₁,hv₂⟩
  | _ => cases hm

theorem same_node {n' : SnapshotNodeData} (h : Same n.toValue n'.toValue) : n = n' := by
  obtain ⟨hmap,hdata⟩ := same_fields (a := "map".toList) (b := "data".toList) (by decide) h
  have hbits := beBytes_inj (w := bitmapBytes) n.map.isLt n'.map.isLt (eq_of_same_bytes hmap)
  cases hdata with | array hdata =>
  have hd := eq_of_forall₂_same same_entry hdata
  cases n
  cases n'
  simp only [SnapshotNodeData.mk.injEq]
  exact ⟨BitVec.eq_of_toNat_eq hbits,hd⟩

theorem entryAt_found {i : ℕ} {e : Entry} (h : n.data[i]? = some e) (s : ContentStore) :
    (lift (entryAt n i) : Action ContentStore TrieFailure Entry) s = (.ok e,s) := by
  rw [entryAt,h]
  rfl

theorem toEcfBytes_inj {n' : SnapshotNodeData} (hl : n.toEcfBytes.length < 2^63)
    (h : n.toEcfBytes = n'.toEcfBytes) : n = n' :=
  same_node (((toEcf_identifies _ _ (wellFormed_node hl) (wellFormed_node (h ▸ hl))).1).mp h)

/-! The store. -/

variable {X : Platform}

/-- The store returns what was put, and the decoder reads back what the encoder wrote. -/
structure ContentStore.Faithful (X : Platform) (s : ContentStore) : Prop where
  returns : ∀ e ∈ s.puts, s.get e.contentHash = some e
  decodes : ∀ e ∈ s.puts, ∀ n : SnapshotNodeData, e.data = n.toEcfBytes →
    X.fromReader e.data = .ok n.toValue

/-- The process authors under an allocated hash format. -/
def Platform.FormatAllocated (X : Platform) : Prop :=
  Hash.digestLenForFormat X.defaultHashFormat ≠ none

instance : Decidable X.FormatAllocated := inferInstanceAs (Decidable (_ ≠ none))

def SnapshotNodeData.StoredIn (X : Platform) (n : SnapshotNodeData) (s : ContentStore) : Prop :=
  ∃ e ∈ s.puts, n.toEntity X = .ok e

def nodeHash (X : Platform) (n : SnapshotNodeData) : Hash :=
  match n.toEntity X with
  | .ok e => e.contentHash
  | .error _ => Hash.zero

theorem ContentStore.get_of_mem (ht : t.Faithful X) (hst : s ≤ t) {e : Entity}
    (he : e ∈ s.puts) : s.get e.contentHash = some e := by
  have hmem : ∀ x ∈ s.puts, x ∈ t.puts := fun x hx => List.IsSuffix.mem hx hst
  cases hg : s.get e.contentHash with
  | none =>
    have hn := find?_eq_none.mp hg e he
    simp at hn
  | some x =>
    have hx : x.contentHash = e.contentHash := by simpa using find?_some hg
    have hxe := ht.returns x (hmem x (mem_of_find?_eq_some hg))
    rw [hx,ht.returns e (hmem e he)] at hxe
    exact hxe.symm

theorem load_of_storedIn (ht : t.Faithful X) (hst : s ≤ t)
    (h : n.StoredIn X s) : loadTrieNode X s (nodeHash X n) = some n := by
  obtain ⟨e,he,hn⟩ := h
  have hnew : Entity.newWithFormat X typeTreeSnapshotNode n.toEcfBytes X.defaultHashFormat =
      .ok e := hn
  have hdata := (Entity.newWithFormat_ok X hnew).2.1
  have hread := ht.decodes e (List.IsSuffix.mem he hst) n hdata
  have hhash : nodeHash X n = e.contentHash := by simp [nodeHash,hn]
  rw [loadTrieNode,hhash,ContentStore.get_of_mem ht hst he]
  exact fromCbor_of_fromReader hread

theorem SnapshotNodeData.StoredIn.of_subset
    (h : n.StoredIn X s) (hst : s.puts ⊆ t.puts) : n.StoredIn X t := by
  obtain ⟨e,he,hn⟩ := h
  exact ⟨e,hst he,hn⟩

theorem SnapshotNodeData.StoredIn.mono
    (h : n.StoredIn X s) (hst : s ≤ t) : n.StoredIn X t := h.of_subset (List.IsSuffix.subset hst)

theorem Entity.new_ok (hX : X.FormatAllocated) {entityType : Str} {data : Bytes}
    (htype : entityType ≠ []) (hpeer : entityType ≠ typePeer) (hdata : data ≠ []) :
    ∃ e, Entity.new X entityType data = .ok e := by
  have hhash : ∃ h, Hash.computeFormat X entityType data X.defaultHashFormat = .ok h := by
    unfold Platform.FormatAllocated Hash.digestLenForFormat at hX
    unfold Hash.computeFormat
    split_ifs at hX ⊢ <;> simp_all
  obtain ⟨h,hh⟩ := hhash
  refine ⟨⟨entityType,data,h⟩,?_⟩
  simp [Entity.new,Entity.newWithFormat,hdata,htype,hpeer,hh]

theorem toEcf_map_ne_nil (entries : List (Value × Value)) : toEcf (.map entries) ≠ [] := by
  intro h
  have hh := append_eq_nil_iff.mp h
  exact encodeHead_ne_nil _ _ hh.1

theorem toEntity_ok (hX : X.FormatAllocated) (n : SnapshotNodeData) : ∃ e, n.toEntity X = .ok e :=
  Entity.new_ok hX (by decide) (by decide) (toEcf_map_ne_nil _)

theorem storeTrieNode_spec (hX : X.FormatAllocated) (n : SnapshotNodeData) (s : ContentStore) :
    ∃ s', storeTrieNode X n s = (.ok (nodeHash X n),s') ∧ s ≤ s' ∧ n.StoredIn X s' := by
  obtain ⟨e,he⟩ := toEntity_ok hX n
  refine ⟨s.put e,?_,suffix_cons e s.puts,⟨e,mem_cons_self,he⟩⟩
  simp [storeTrieNode,nodeHash,he]

/-! Positions. -/

def ofSlots (f : ℕ → Option Entry) : SnapshotNodeData := ⟨bitmap 32 f,dense 32 f⟩

theorem holds_ofSlots (f : ℕ → Option Entry) : Holds (ofSlots f).map (ofSlots f).data f :=
  holds_bitmap f

theorem eq_ofSlots {m : BitVec 32} {d : List Entry} (h : Holds m d f) :
    (⟨m,d⟩ : SnapshotNodeData) = ofSlots f := by
  obtain ⟨hm,hd⟩ := h.unique (holds_ofSlots f)
  rw [hm,hd]

theorem mask_bits : ∀ p : Fin 32, ∀ i : Fin 32,
    (if p.val = 0 then 0#32 else (1#32 <<< p.val)-1#32).getLsbD i = decide (i < p) := by
  decide +kernel

theorem bit_test (m : BitVec 32) (p : ℕ) : decide ((m >>> p) &&& 1#32 = 1#32) = m.getLsbD p := by
  have hone : ((m >>> p) &&& 1#32 = 1#32) ↔ m.getLsbD p = true := by
    constructor
    · intro h
      have hb := congrArg (fun x => BitVec.getLsbD x 0) h
      simpa using hb
    · intro h
      apply BitVec.eq_of_getLsbD_eq
      intro i hi
      by_cases hi0 : i = 0
      · subst hi0
        simpa using h
      · simp [hi0]
  cases hb : m.getLsbD p <;> simp [hone,hb]

theorem position_ofSlots (f : ℕ → Option Entry) (hp : p < 32) :
    position (ofSlots f).map p = ((f p).isSome,((range p).filterMap f).length) := by
  have hbit := (holds_ofSlots f).bits p hp
  have hrank := countOnes_below (holds_ofSlots f) hp fun i hi => mask_bits ⟨p,hp⟩ ⟨i,hi⟩
  unfold position
  simp only [bit_test,hbit]
  rw [← hrank]

/-! The canonical node of a set of bindings. -/

/-- The position a key takes at a level. -/
def slot (X : Platform) (level : ℕ) (key : Str) : ℕ :=
  ((bitSliceAt (keyHash X key) level).toOption).getD 0

theorem bitSliceAt_ok (h : level < levels) (key : Str) :
    bitSliceAt (keyHash X key) level = .ok (slot X level key) ∧ slot X level key < 32 := by
  have hlen : (keyHash X key).length = 32 := X.sha256_length _
  have hbyte : level*bitWidth/8 < (keyHash X key).length := by
    rw [hlen]
    unfold bitWidth
    unfold levels at h
    omega
  have hok : ∃ p, bitSliceAt (keyHash X key) level = .ok p ∧ p < 32 := by
    unfold bitSliceAt
    dsimp only
    rw [getElem?_eq_getElem hbyte]
    exact ⟨_,rfl,Nat.and_lt_two_pow (n := 5) _ (by decide)⟩
  obtain ⟨p,hp,hlt⟩ := hok
  have hs : slot X level key = p := by simp [slot,hp,Except.toOption]
  rw [hs]
  exact ⟨hp,hlt⟩

/-- The bindings that share a position. -/
def part (X : Platform) (level : ℕ) (m : OrderedMap Str Hash) (p : ℕ) : OrderedMap Str Hash :=
  m.filterKeys fun k => slot X level k = p

def canonEntry (sub : OrderedMap Str Hash → Hash) (m : OrderedMap Str Hash) : Option Entry :=
  if m.entries.length = 0 then none
  else if m.entries.length ≤ bucketSize then some (.bucket m.entries)
  else some (.link (sub m))

def canon (X : Platform) : ℕ → ℕ → OrderedMap Str Hash → SnapshotNodeData
  | 0, _, _ => .empty
  | left+1, level, m => ofSlots fun p =>
    canonEntry (fun sub => nodeHash X (canon X left (level+1) sub)) (part X level m p)

/-- Every node the canonical node links to is in the store. -/
def SubsStored (X : Platform) (s : ContentStore) : ℕ → ℕ → OrderedMap Str Hash → Prop
  | 0, _, _ => True
  | left+1, level, m => ∀ p, bucketSize < (part X level m p).entries.length →
    (canon X left (level+1) (part X level m p)).StoredIn X s ∧
      SubsStored X s left (level+1) (part X level m p)

theorem SubsStored.of_subset (hst : s.puts ⊆ t.puts)
    (h : SubsStored X s left level m) : SubsStored X t left level m := by
  induction left generalizing level m with
  | zero => trivial
  | succ left ih =>
    intro p hp
    obtain ⟨hnode,hsubs⟩ := h p hp
    exact ⟨hnode.of_subset hst,ih hsubs⟩

theorem SubsStored.mono (hst : s ≤ t)
    (h : SubsStored X s left level m) : SubsStored X t left level m :=
  h.of_subset (List.IsSuffix.subset hst)

/-- No four of the keys agree on their first 51 slices. -/
def Spread (X : Platform) (keys : Set Str) : Prop :=
  ∀ ks : List Str, ks.Nodup → ks.length = 4 → (∀ k ∈ ks, k ∈ keys) →
    ∃ j < 51, ∃ a ∈ ks, ∃ b ∈ ks, slot X j a ≠ slot X j b

theorem Spread.subset {keys' : Set Str} (h : Spread X keys) (hsub : ∀ k ∈ keys', k ∈ keys) :
    Spread X keys' := fun ks hnodup hlen hmem => h ks hnodup hlen fun k hk => hsub k (hmem k hk)

/-- Keys that agree on the slices above a level. -/
structure Kin (X : Platform) (level : ℕ) (keys : Set Str) : Prop where
  spread : Spread X keys
  agree : ∀ a ∈ keys, ∀ b ∈ keys, ∀ j < level, slot X j a = slot X j b

def Within (m : OrderedMap Str Hash) (keys : Set Str) : Prop := ∀ t ∈ m.entries, t.1 ∈ keys

theorem Kin.part (h : Kin X level keys) (p : ℕ) :
    Kin X (level+1) {k ∈ keys | slot X level k = p} := by
  constructor
  · intro ks hnodup hlen hmem
    exact h.spread ks hnodup hlen fun k hk => (hmem k hk).1
  · intro a ha b hb j hj
    rcases Nat.lt_succ_iff_lt_or_eq.mp hj with hj | rfl
    · exact h.agree a ha.1 b hb.1 j hj
    · exact ha.2.trans hb.2.symm

/-- Four of the keys part at a slice from a level on. -/
def Apart (X : Platform) (level : ℕ) (keys : Set Str) : Prop :=
  ∀ ks : List Str, ks.Nodup → ks.length = 4 → (∀ k ∈ ks, k ∈ keys) →
    ∃ j, level ≤ j ∧ j < levels ∧ ∃ a ∈ ks, ∃ b ∈ ks, slot X j a ≠ slot X j b

theorem Kin.apart (h : Kin X level keys) : Apart X level keys := by
  intro ks hnodup hlen hmem
  obtain ⟨j,hj,a,ha,b,hb,hne⟩ := h.spread ks hnodup hlen hmem
  refine ⟨j,?_,by unfold levels; omega,a,ha,b,hb,hne⟩
  by_contra hlt
  exact hne (h.agree a (hmem a ha) b (hmem b hb) j (not_le.mp hlt))

theorem Apart.part (h : Apart X level keys) (p : ℕ) :
    Apart X (level+1) {k ∈ keys | slot X level k = p} := by
  intro ks hnodup hlen hmem
  obtain ⟨j,hj,hlt,a,ha,b,hb,hne⟩ := h ks hnodup hlen fun k hk => (hmem k hk).1
  refine ⟨j,?_,hlt,a,ha,b,hb,hne⟩
  by_contra hle
  obtain rfl : j = level := by omega
  exact hne ((hmem a ha).2.trans (hmem b hb).2.symm)

theorem four_keys (hl : bucketSize < m.entries.length) :
    ((m.entries.map Prod.fst).take 4).Nodup ∧ ((m.entries.map Prod.fst).take 4).length = 4 := by
  refine ⟨m.keys_nodup.sublist (take_sublist _ _),?_⟩
  unfold bucketSize at hl
  simp
  omega

/-- Four bindings do not get to the last level. -/
theorem Kin.level_lt (h : Kin X level keys)
    (hm : Within m keys) (hl : bucketSize < m.entries.length) : level < 51 := by
  by_contra hge
  obtain ⟨hnodup,hlen⟩ := four_keys hl
  have hmem : ∀ k ∈ (m.entries.map Prod.fst).take 4, k ∈ keys := by
    intro k hk
    obtain ⟨t,ht,rfl⟩ := mem_map.mp (mem_of_mem_take hk)
    exact hm t ht
  obtain ⟨j,hj,a,ha,b,hb,hne⟩ := h.spread _ hnodup hlen hmem
  exact hne (h.agree a (hmem a ha) b (hmem b hb) j (by omega))

/-- Four bindings do not get past the last level. -/
theorem Apart.level_lt (h : Apart X level keys)
    (hm : Within m keys) (hl : bucketSize < m.entries.length) : level < levels := by
  obtain ⟨hnodup,hlen⟩ := four_keys hl
  obtain ⟨j,hj,hlt,-⟩ := h _ hnodup hlen fun k hk => by
    obtain ⟨t,ht,rfl⟩ := mem_map.mp (mem_of_mem_take hk)
    exact hm t ht
  omega

theorem Within.part (h : Within m keys) (level p : ℕ) :
    Within (part X level m p) {k ∈ keys | slot X level k = p} := by
  intro t ht
  obtain ⟨hm,hp⟩ := mem_filter.mp ht
  exact ⟨h t hm,by simpa using hp⟩

theorem Within.insert (h : Within m keys) {k : Str}
    (hk : k ∈ keys) (v : Hash) : Within (m.insert k v) keys := by
  intro t ht
  rcases OrderedMap.mem_insertEntry ht with rfl | ht
  · exact hk
  · exact h t ht

theorem Within.erase (h : Within m keys) (k : Str) : Within (m.erase k) keys :=
  fun t ht => h t (mem_filter.mp ht).1

theorem part_insert (level : ℕ) (m : OrderedMap Str Hash) (k : Str) (v : Hash) (p : ℕ) :
    part X level (m.insert k v) p =
      if slot X level k = p then (part X level m p).insert k v else part X level m p := by
  apply OrderedMap.ext_get
  intro j
  by_cases hj : j = k
  · subst hj
    by_cases hp : slot X level j = p
    · simp [part,hp]
    · simp [part,hp]
  · by_cases hp : slot X level k = p
    · simp [part,hp,hj]
    · simp [part,hp,hj]

theorem part_erase (level : ℕ) (m : OrderedMap Str Hash) (k : Str) (p : ℕ) :
    part X level (m.erase k) p =
      if slot X level k = p then (part X level m p).erase k else part X level m p := by
  apply OrderedMap.ext_get
  intro j
  by_cases hj : j = k
  · subst hj
    by_cases hp : slot X level j = p
    · simp [part,hp]
    · simp [part,hp]
  · by_cases hp : slot X level k = p
    · simp [part,hp,hj]
    · simp [part,hp,hj]

/-! The store only grows. -/

theorem grows_storeTrieNode (n : SnapshotNodeData) : Action.Grows (storeTrieNode X n) := by
  intro s
  unfold storeTrieNode
  cases n.toEntity X with
  | ok e => exact suffix_cons e s.puts
  | error e => exact le_rfl

theorem grows_putEntry {down : SnapshotNodeData → Bytes → Str → Hash →
    Action ContentStore TrieFailure SnapshotNodeData}
    (hdown : ∀ n b k v, Action.Grows (down n b k v)) (hashBytes : Bytes) (key : Str) (v : Hash)
    (e : Entry) : Action.Grows (putEntry X down hashBytes key v e) := by
  have hstore : ∀ sub : SnapshotNodeData, Action.Grows (do
      let subHash ← storeTrieNode X sub
      pure (Entry.link subHash) : Action ContentStore TrieFailure Entry) :=
    fun sub => (grows_storeTrieNode sub).bind fun _ => grows_pure _
  cases e with
  | bucket tuples =>
    unfold putEntry
    dsimp only
    cases tuples.findIdx? fun t => t.1 = key with
    | some pos => exact grows_pure _
    | none =>
      dsimp only
      split_ifs
      · exact grows_pure _
      · exact (Action.Grows.foldlM (fun b c => hdown b _ c.1 c.2) tuples _).bind fun sub =>
          (hdown sub _ _ _).bind hstore
  | link h =>
    exact (grows_reading _).bind fun sub => (hdown sub _ _ _).bind hstore

theorem grows_putAtNode (left : ℕ) (n : SnapshotNodeData) (b : Bytes) (level : ℕ) (k : Str)
    (v : Hash) : Action.Grows (putAtNode X left n b level k v) := by
  induction left generalizing n b level k v with
  | zero => exact grows_lift _
  | succ left ih =>
    refine (grows_lift _).bind fun p => ?_
    dsimp only
    split_ifs
    · exact (grows_lift _).bind fun _ => grows_pure _
    · exact (grows_lift _).bind fun e =>
        (grows_putEntry (fun n b k v => ih n b (level+1) k v) b k v e).bind fun _ =>
          grows_pure _

/-! Puts. -/

theorem canon_empty (left level : ℕ) : canon X left level .empty = .empty := by
  cases left with
  | zero => rfl
  | succ left =>
    have hnone : (fun p => canonEntry (fun sub => nodeHash X (canon X left (level+1) sub))
        (part X level .empty p)) = fun _ => none := by
      funext p
      rfl
    rw [canon,hnone]
    decide +kernel

theorem subsStored_empty (s : ContentStore) (left level : ℕ) :
    SubsStored X s left level .empty := by
  cases left with
  | zero => trivial
  | succ left =>
    intro p hp
    exact absurd hp (by simp [part,OrderedMap.filterKeys,OrderedMap.empty])

/-- A put into the canonical node of some bindings gives that of the bindings with the
new one, and leaves its nodes in the store. -/
def PutSpec (X : Platform) (t : ContentStore) (keys : Set Str) (left level : ℕ) : Prop :=
  ∀ m k v s, Within m keys → k ∈ keys → SubsStored X s left level m →
    (putAtNode X left (canon X left level m) (keyHash X k) level k v s).2 ≤ t →
    ∃ s', putAtNode X left (canon X left level m) (keyHash X k) level k v s =
      (.ok (canon X left level (m.insert k v)),s') ∧ SubsStored X s' left level (m.insert k v)

theorem PutSpec.foldlM
    (h : PutSpec X t keys left level) (l : List (Str × Hash)) (hl : ∀ e ∈ l, e.1 ∈ keys)
    (m : OrderedMap Str Hash) (s : ContentStore) (hm : Within m keys)
    (hs : SubsStored X s left level m)
    (ht : (l.foldlM (fun n e => putAtNode X left n (keyHash X e.1) level e.1 e.2)
      (canon X left level m) s).2 ≤ t) :
    ∃ s', l.foldlM (fun n e => putAtNode X left n (keyHash X e.1) level e.1 e.2)
        (canon X left level m) s =
      (.ok (canon X left level (l.foldl (fun m e => m.insert e.1 e.2) m)),s') ∧
      SubsStored X s' left level (l.foldl (fun m e => m.insert e.1 e.2) m) := by
  induction l generalizing m s with
  | nil => exact ⟨s,rfl,hs⟩
  | cons e l ih =>
    obtain ⟨he,hl⟩ := forall_mem_cons.mp hl
    rw [foldlM_cons] at ht ⊢
    have hrest : ∀ n, Action.Grows (l.foldlM (fun n e =>
        putAtNode X left n (keyHash X e.1) level e.1 e.2) n) :=
      fun n => Action.Grows.foldlM (fun n e => grows_putAtNode left n _ level e.1 e.2) l n
    obtain ⟨s₁,hput,hs₁⟩ := h m e.1 e.2 s hm he hs ((Action.Grows.le_bind hrest s).trans ht)
    rw [bind_of_ok hput] at ht ⊢
    exact ih hl (m.insert e.1 e.2) s₁ (hm.insert he e.2) hs₁ ht

theorem canonEntry_bucket (hne : m.entries.length ≠ 0) (h : m.entries.length ≤ bucketSize) :
    canonEntry sub m = some (.bucket m.entries) := by
  rw [canonEntry,if_neg hne,if_pos h]

theorem canonEntry_link
    (h : bucketSize < m.entries.length) : canonEntry sub m = some (.link (sub m)) := by
  rw [canonEntry,if_neg (by omega),if_neg (by omega)]

theorem canonEntry_eq_none : canonEntry sub m = none ↔ m.entries.length = 0 := by
  unfold canonEntry
  split_ifs with h h'
  · simp [h]
  · simp [h]
  · simp [h]

/-- A map too large for a bucket has its node in the store. -/
def NodeStored (X : Platform) (s : ContentStore) (left level : ℕ) (m : OrderedMap Str Hash) : Prop :=
  bucketSize < m.entries.length → (canon X left level m).StoredIn X s ∧ SubsStored X s left level m

theorem NodeStored.mono (hst : s ≤ t)
    (h : NodeStored X s left level m) : NodeStored X t left level m :=
  fun hl => ⟨(h hl).1.mono hst,(h hl).2.mono hst⟩

section Put

variable {t : ContentStore} {keys : Set Str} {left level : ℕ} {m : OrderedMap Str Hash}
  {k : Str} {v : Hash} {s : ContentStore}

/-- The put one level down and the link to what it returns. -/
theorem putDown_canon (hX : X.FormatAllocated) (hdown : PutSpec X t keys left level)
    (hm : Within m keys) (hk : k ∈ keys) (hs : SubsStored X s left level m)
    (hle : (putAtNode X left (canon X left level m) (keyHash X k) level k v s).2 ≤ t) :
    ∃ s', (do
        let newSub ← putAtNode X left (canon X left level m) (keyHash X k) level k v
        let h ← storeTrieNode X newSub
        pure (Entry.link h) : Action ContentStore TrieFailure Entry) s =
      (.ok (.link (nodeHash X (canon X left level (m.insert k v)))),s') ∧
      NodeStored X s' left level (m.insert k v) := by
  obtain ⟨s₁,hput,hs₁⟩ := hdown m k v s hm hk hs hle
  obtain ⟨s₂,hstore,hle₂,hnode⟩ := storeTrieNode_spec hX (canon X left level (m.insert k v)) s₁
  refine ⟨s₂,?_,fun _ => ⟨hnode,hs₁.mono hle₂⟩⟩
  rw [bind_of_ok hput,bind_of_ok hstore]
  rfl

theorem putEntry_canon (hX : X.FormatAllocated) (ht : t.Faithful X)
    (hdown : bucketSize < (m.insert k v).entries.length → PutSpec X t keys left level)
    (hm : Within m keys) (hk : k ∈ keys) (hs : NodeStored X s left level m) {e : Entry}
    (he : canonEntry (fun sub => nodeHash X (canon X left level sub)) m = some e)
    (hle : (putEntry X (fun n b k v => putAtNode X left n b level k v) (keyHash X k) k v e s).2 ≤ t) :
    ∃ e' s', putEntry X (fun n b k v => putAtNode X left n b level k v) (keyHash X k) k v e s =
        (.ok e',s') ∧
      canonEntry (fun sub => nodeHash X (canon X left level sub)) (m.insert k v) = some e' ∧
      NodeStored X s' left level (m.insert k v) := by
  have hst : s ≤ t :=
    (grows_putEntry (fun n b k v => grows_putAtNode left n b level k v) _ k v e s).trans hle
  have hlink : ∀ sub : SnapshotNodeData, Action.Grows (do
      let h ← storeTrieNode X sub
      pure (Entry.link h) : Action ContentStore TrieFailure Entry) :=
    fun sub => (grows_storeTrieNode sub).bind fun _ => grows_pure _
  by_cases hbig : bucketSize < m.entries.length
  · have hbig' := hbig.trans_le (m.length_le_insert k v)
    obtain ⟨hnode,hsubs⟩ := hs hbig
    rw [canonEntry_link hbig] at he
    obtain rfl := Option.some.inj he
    have hload : loadSub X (nodeHash X (canon X left level m)) s = (.ok (canon X left level m),s) := by
      simp [loadSub,load_of_storedIn ht hst hnode,okOr]
    unfold putEntry at hle ⊢
    dsimp only at hle ⊢
    rw [bind_of_ok hload] at hle ⊢
    obtain ⟨s',hrun,hs'⟩ := putDown_canon hX (hdown hbig') hm hk hsubs
      ((Action.Grows.le_bind hlink s).trans hle)
    exact ⟨_,s',hrun,canonEntry_link hbig',hs'⟩
  · have hne : m.entries.length ≠ 0 := by
      intro h0
      rw [canonEntry_eq_none.mpr h0] at he
      cases he
    rw [canonEntry_bucket hne (not_lt.mp hbig)] at he
    obtain rfl := Option.some.inj he
    unfold putEntry at hle ⊢
    dsimp only at hle ⊢
    cases hfind : m.entries.findIdx? fun e => e.1 = k with
    | some pos =>
      have hentries := OrderedMap.modify_entries (fun _ => decide_eq_true_iff) v hfind
      have hlen : (m.insert k v).entries.length = m.entries.length := by
        rw [← hentries,length_modify]
      refine ⟨_,s,rfl,?_,fun h => absurd h (by omega)⟩
      rw [canonEntry_bucket (by omega) (by omega),hentries]
    | none =>
      have hget := OrderedMap.get_eq_none_of_findIdx (fun _ => decide_eq_true_iff) hfind
      have hlen := OrderedMap.length_insert_of_none v hget
      rw [hfind] at hle
      dsimp only at hle ⊢
      by_cases hroom : m.entries.length < bucketSize
      · rw [if_pos hroom]
        refine ⟨_,s,rfl,?_,fun h => absurd h (by omega)⟩
        rw [canonEntry_bucket (by omega) (by omega),sortTuples,
          OrderedMap.insertionSort_entries (OrderedMap.insert_perm v hget)]
      · rw [if_neg hroom] at hle ⊢
        have hbig' : bucketSize < (m.insert k v).entries.length := by omega
        -- the bucket is put again one level down, in key order
        have hfold := (hdown hbig').foldlM m.entries (fun e he => hm e he) .empty s
          (fun e he => by cases he) (subsStored_empty s left level)
        rw [canon_empty] at hfold
        have hgrow : ∀ sub : SnapshotNodeData, Action.Grows (do
            let sub ← putAtNode X left sub (keyHash X k) level k v
            let h ← storeTrieNode X sub
            pure (Entry.link h) : Action ContentStore TrieFailure Entry) :=
          fun sub => (grows_putAtNode left sub _ level k v).bind hlink
        obtain ⟨s₁,hrun,hs₁⟩ := hfold ((Action.Grows.le_bind hgrow s).trans hle)
        rw [show m.entries.foldl (fun m e => m.insert e.1 e.2) .empty = m from m.ofList_entries]
          at hrun hs₁
        rw [bind_of_ok hrun] at hle ⊢
        obtain ⟨s',hrun',hs'⟩ := putDown_canon hX (hdown hbig') hm hk hs₁
          ((Action.Grows.le_bind hlink s₁).trans hle)
        exact ⟨_,s',hrun',canonEntry_link hbig',hs'⟩

end Put

/-- What the canonical node holds at each position. -/
def canonSlots (X : Platform) (left level : ℕ) (m : OrderedMap Str Hash) (p : ℕ) : Option Entry :=
  canonEntry (fun sub => nodeHash X (canon X left (level+1) sub)) (part X level m p)

theorem canon_succ (left level : ℕ) (m : OrderedMap Str Hash) :
    canon X (left+1) level m = ofSlots (canonSlots X left level m) := rfl

/-- Two sets of bindings that differ at one position. -/
theorem update_canonSlots {m' : OrderedMap Str Hash}
    (hrest : ∀ q, q ≠ p → part X level m' q = part X level m q) :
    Function.update (canonSlots X left level m) p (canonSlots X left level m' p) =
      canonSlots X left level m' := by
  funext q
  by_cases hq : q = p
  · subst hq
    rw [Function.update_self]
  · rw [Function.update_of_ne hq,canonSlots,canonSlots,hrest q hq]

theorem subsStored_update {s' : ContentStore} (hss : s ≤ s')
    {m' : OrderedMap Str Hash} (hrest : ∀ q, q ≠ p → part X level m' q = part X level m q)
    (hs : SubsStored X s (left+1) level m)
    (hp : NodeStored X s' left (level+1) (part X level m' p)) :
    SubsStored X s' (left+1) level m' := by
  intro q
  by_cases hq : q = p
  · subst hq
    exact hp
  · rw [hrest q hq]
    exact NodeStored.mono hss (hs q)

theorem index_le_length (hp : p < 32) :
    ((range p).filterMap f).length ≤ (ofSlots f).data.length := by
  rw [(holds_ofSlots f).split hp,length_append]
  exact Nat.le_add_right _ _

theorem putAtNode_canon (hX : X.FormatAllocated) (ht : t.Faithful X)
    (hleft : level+left = levels) (hlevel : level < levels)
    (hapart : Apart X level keys) : PutSpec X t keys left level := by
  induction left generalizing level keys with
  | zero => omega
  | succ left ih =>
    intro m k v s hm hk hs hle
    obtain ⟨hslice,hp⟩ := bitSliceAt_ok (X := X) hlevel k
    have hhere : part X level (m.insert k v) (slot X level k) =
        (part X level m (slot X level k)).insert k v := by rw [part_insert,if_pos rfl]
    have hrest : ∀ q, q ≠ slot X level k → part X level (m.insert k v) q = part X level m q :=
      fun q hq => by rw [part_insert,if_neg (Ne.symm hq)]
    have hlift : (lift (bitSliceAt (keyHash X k) level) :
        Action ContentStore TrieFailure ℕ) s = (.ok (slot X level k),s) := by
      rw [hslice]
      rfl
    rw [canon_succ] at hle ⊢
    unfold putAtNode at hle ⊢
    rw [bind_of_ok hlift,position_ofSlots _ hp] at hle ⊢
    cases hslot : canonSlots X left level m (slot X level k) with
    | none =>
      have hempty : part X level m (slot X level k) = .empty := by
        apply OrderedMap.ext_get
        intro j
        have h0 := eq_nil_of_length_eq_zero (canonEntry_eq_none.mp hslot)
        rw [OrderedMap.get,h0]
        rfl
      have hnew : canonSlots X left level (m.insert k v) (slot X level k) =
          some (.bucket [(k,v)]) := by
        rw [canonSlots,hhere,hempty]
        rfl
      have hnode := eq_ofSlots ((holds_ofSlots _).insert hp hslot (.bucket [(k,v)]))
      rw [← hnew,update_canonSlots hrest] at hnode
      have hins : (lift (insertAt (ofSlots (canonSlots X left level m))
          ((range (slot X level k)).filterMap (canonSlots X left level m)).length
          (.bucket [(k,v)])) : Action ContentStore TrieFailure (List Entry)) s =
          (.ok ((ofSlots (canonSlots X left level m)).data.insertIdx
          ((range (slot X level k)).filterMap (canonSlots X left level m)).length
          (.bucket [(k,v)])),s) := by
        rw [insertAt,if_pos (index_le_length hp)]
        rfl
      simp only [Option.isSome_none,Bool.not_false,if_true]
      rw [bind_of_ok hins]
      refine ⟨s,?_,subsStored_update le_rfl hrest hs ?_⟩
      · rw [hnode]
        rfl
      · intro hbig
        rw [hhere,hempty] at hbig
        exact absurd hbig (by simp [OrderedMap.insert,OrderedMap.empty,OrderedMap.insertEntry,
          bucketSize])
    | some e =>
      have hentry := entryAt_found ((holds_ofSlots (canonSlots X left level m)).get hp hslot) s
      rw [hslot] at hle
      simp only [Option.isSome_some,Bool.not_true,Bool.false_eq_true,if_false] at hle ⊢
      rw [bind_of_ok hentry] at hle ⊢
      have hdown : bucketSize < ((part X level m (slot X level k)).insert k v).entries.length →
          PutSpec X t {j ∈ keys | slot X level j = slot X level k} left (level+1) := by
        intro hbig
        have hlt := (hapart.part _).level_lt ((hm.part level _).insert ⟨hk,rfl⟩ v) hbig
        exact ih (by omega) hlt (hapart.part _)
      have hfin : ∀ e', Action.Grows (pure (⟨(ofSlots (canonSlots X left level m)).map,
          (ofSlots (canonSlots X left level m)).data.set
          ((range (slot X level k)).filterMap (canonSlots X left level m)).length e'⟩ :
          SnapshotNodeData) : Action ContentStore TrieFailure SnapshotNodeData) :=
        fun e' => grows_pure _
      have hle' := (Action.Grows.le_bind hfin s).trans hle
      obtain ⟨e',s',hput,hcanon,hs'⟩ := putEntry_canon hX ht hdown (hm.part level _) ⟨hk,rfl⟩
        (fun hl => hs _ hl) hslot hle'
      have hss : s ≤ s' := by
        have hg := grows_putEntry (X := X)
          (fun n b k v => grows_putAtNode (X := X) left n b (level+1) k v) (keyHash X k) k v e s
        rwa [hput] at hg
      have hnew : canonSlots X left level (m.insert k v) (slot X level k) = some e' := by
        rw [canonSlots,hhere]
        exact hcanon
      have hnode := eq_ofSlots ((holds_ofSlots _).set hp hslot e')
      rw [← hnew,update_canonSlots hrest] at hnode
      rw [← hhere] at hs'
      refine ⟨s',?_,subsStored_update hss hrest hs hs'⟩
      rw [bind_of_ok hput,hnode]
      rfl

/-! Walks. -/

def insertAll (out : OrderedMap Str Hash) (l : List (Str × Hash)) : OrderedMap Str Hash :=
  l.foldl (fun m e => m.insert e.1 e.2) out

/-- The three walks over a node meet these bindings, in this order. -/
structure Walks (X : Platform) (s : ContentStore) (fuel : ℕ) (node : SnapshotNodeData)
    (l : List (Str × Hash)) : Prop where
  flatten : ∀ out, flattenEntriesInto X s fuel node out = .ok (out++l)
  count : countEntries X s fuel node = .ok l.length
  collect : ∀ out, collectBindingsInto X s fuel node out = .ok (insertAll out l)

structure EntryWalks (X : Platform) (s : ContentStore) (fuel : ℕ) (e : Entry)
    (l : List (Str × Hash)) : Prop where
  flatten : ∀ out, flattenStep X s (flattenEntriesInto X s fuel) out e = .ok (out++l)
  count : ∀ n, countStep X s (countEntries X s fuel) n e = .ok (n+l.length)
  collect : ∀ out, collectStep X s (collectBindingsInto X s fuel) out e = .ok (insertAll out l)

theorem entryWalks_bucket (s : ContentStore) (fuel : ℕ) (b : List (Str × Hash)) :
    EntryWalks X s fuel (.bucket b) b := ⟨fun _ => rfl,fun _ => rfl,fun _ => rfl⟩

theorem entryWalks_link {h : Hash} {sub : SnapshotNodeData}
    {l : List (Str × Hash)} (hload : loadTrieNode X s h = some sub) (hw : Walks X s fuel sub l) :
    EntryWalks X s fuel (.link h) l := by
  constructor
  · intro out
    simp only [flattenStep,hload,okOr]
    exact hw.flatten out
  · intro n
    simp only [countStep,hload,okOr]
    show (countEntries X s fuel sub >>= fun c => pure (n+c)) = _
    rw [hw.count]
    rfl
  · intro out
    simp only [collectStep,hload]
    exact hw.collect out

/-- A walk over a node goes through its positions in order; `act` is what the walk does
with the bindings it meets. -/
theorem foldlM_positions {β : Type} {step : β → Entry → Except TrieFailure β}
    (act : β → List (Str × Hash) → β) (hnil : ∀ b, act b [] = b)
    (happend : ∀ b l l', act b (l++l') = act (act b l) l')
    {g : ℕ → List (Str × Hash)} (hnone : ∀ p, f p = none → g p = [])
    (hsome : ∀ p e, f p = some e → ∀ b, step b e = .ok (act b (g p))) (ps : List ℕ) (b : β) :
    (ps.filterMap f).foldlM step b = .ok (act b (ps.flatMap g)) := by
  induction ps generalizing b with
  | nil =>
    rw [flatMap_nil,hnil]
    rfl
  | cons p ps ih =>
    cases hf : f p with
    | none =>
      rw [filterMap_cons_none hf,flatMap_cons,hnone p hf]
      exact ih b
    | some e =>
      rw [filterMap_cons_some hf,foldlM_cons,hsome p e hf,flatMap_cons,happend]
      exact ih _

theorem walks_ofSlots {g : ℕ → List (Str × Hash)} (hnone : ∀ p, f p = none → g p = [])
    (hsome : ∀ p e, f p = some e → EntryWalks X s fuel e (g p)) :
    Walks X s (fuel+1) (ofSlots f) ((range 32).flatMap g) := by
  constructor
  · intro out
    exact foldlM_positions (·++·) append_nil (fun b l l' => (append_assoc b l l').symm) hnone
      (fun p e hf b => (hsome p e hf).flatten b) _ out
  · have h0 := foldlM_positions (fun n l => n+l.length) (fun _ => rfl)
      (fun b l l' => by simp [Nat.add_assoc]) hnone (fun p e hf b => (hsome p e hf).count b)
      (range 32) 0
    rw [Nat.zero_add] at h0
    exact h0
  · intro out
    exact foldlM_positions insertAll (fun _ => rfl) (fun b l l' => foldl_append) hnone
      (fun p e hf b => (hsome p e hf).collect b) _ out

theorem walks_canon (ht : t.Faithful X) (hst : s ≤ t)
    (hleft : level+left = levels) (hlevel : level < levels)
    (hkin : Kin X level keys) (hm : Within m keys)
    (hs : SubsStored X s left level m) (hfuel : left ≤ fuel) :
    ∃ l, l.Perm m.entries ∧ Walks X s fuel (canon X left level m) l := by
  induction left generalizing level keys m fuel with
  | zero => omega
  | succ left ih =>
    obtain ⟨fuel,rfl⟩ : ∃ f, fuel = f+1 := ⟨fuel-1,by omega⟩
    have hpart : ∀ p, ∃ l : List (Str × Hash), l.Perm (part X level m p).entries ∧
        (canonSlots X left level m p = none → l = []) ∧
        ∀ e, canonSlots X left level m p = some e → EntryWalks X s fuel e l := by
      intro p
      by_cases hbig : bucketSize < (part X level m p).entries.length
      · have hlt := (hkin.part p).level_lt (hm.part level p) hbig
        obtain ⟨hnode,hsubs⟩ := hs p hbig
        have hbelow : left ≤ fuel := by omega
        obtain ⟨l,hl,hw⟩ := ih (by omega) (by unfold levels; omega) (hkin.part p) (hm.part level p)
          hsubs hbelow
        have hslot : canonSlots X left level m p = some (.link (nodeHash X
            (canon X left (level+1) (part X level m p)))) := canonEntry_link hbig
        refine ⟨l,hl,fun hn => ?_,fun e he => ?_⟩
        · rw [hslot] at hn
          cases hn
        · rw [hslot] at he
          obtain rfl := Option.some.inj he
          exact entryWalks_link (load_of_storedIn ht hst hnode) hw
      · by_cases h0 : (part X level m p).entries.length = 0
        · refine ⟨_,List.Perm.refl _,fun _ => eq_nil_of_length_eq_zero h0,fun e he => ?_⟩
          rw [canonSlots,canonEntry_eq_none.mpr h0] at he
          cases he
        · have hslot : canonSlots X left level m p = some (.bucket (part X level m p).entries) :=
            canonEntry_bucket h0 (not_lt.mp hbig)
          refine ⟨_,List.Perm.refl _,fun hn => ?_,fun e he => ?_⟩
          · rw [hslot] at hn
            cases hn
          · rw [hslot] at he
            obtain rfl := Option.some.inj he
            exact entryWalks_bucket s fuel _
    choose g hperm hnone hsome using hpart
    refine ⟨(range 32).flatMap g,?_,walks_ofSlots hnone hsome⟩
    have hslots : ∀ e ∈ m.entries, slot X level e.1 < 32 := fun e _ => (bitSliceAt_ok hlevel e.1).2
    exact (List.Perm.flatMap_left _ fun p _ => hperm p).trans
      (m.flatMap_filterKeys_perm (slot X level) 32 hslots)

/-! Removals. -/

theorem grows_relink (o : RemoveOutcome) : Action.Grows (relink X o) := by
  cases o with
  | unchanged => exact grows_pure _
  | modified n => exact (grows_storeTrieNode n).bind fun _ => grows_pure _
  | inlined l => exact grows_pure _

theorem grows_removeEntry {down : SnapshotNodeData → Action ContentStore TrieFailure RemoveOutcome}
    (hdown : ∀ n, Action.Grows (down n)) (key : Str) (e : Entry) :
    Action.Grows (removeEntry X down key e) := by
  cases e with
  | bucket tuples =>
    unfold removeEntry
    dsimp only
    cases tuples.findIdx? fun t => t.1 = key with
    | none => exact grows_pure _
    | some pos => exact grows_pure _
  | link h => exact (grows_reading _).bind fun sub => (hdown sub).bind grows_relink

theorem grows_applyStep (fuel : ℕ) (isRoot : Bool) (n : SnapshotNodeData) (p idx : ℕ)
    (st : RemoveStep) : Action.Grows (applyStep X fuel isRoot n p idx st) := by
  have hbound : ∀ r, Action.Grows (enforceBound X fuel isRoot r) := by
    intro r
    unfold enforceBound
    split_ifs
    · exact grows_pure _
    · exact grows_reading _
  cases st with
  | keep => exact grows_pure _
  | drop => exact hbound _
  | replace e => exact hbound _

theorem grows_removeAtNode (fuel left : ℕ) (n : SnapshotNodeData) (b : Bytes) (level : ℕ) (k : Str)
    (isRoot : Bool) : Action.Grows (removeAtNode X fuel left n b level k isRoot) := by
  induction left generalizing n b level k isRoot with
  | zero => exact grows_lift _
  | succ left ih =>
    refine (grows_lift _).bind fun p => ?_
    dsimp only
    split_ifs
    · exact grows_pure _
    · exact (grows_lift _).bind fun e =>
        (grows_removeEntry (fun n => ih n b (level+1) k false) k e).bind fun st =>
          grows_applyStep fuel isRoot n p _ st

/-- How a removal reports the bindings it leaves. -/
def Settled (X : Platform) (left level : ℕ) (m : OrderedMap Str Hash) (isRoot : Bool)
    (o : RemoveOutcome) : Prop :=
  if isRoot = true ∨ bucketSize < m.entries.length then o = .modified (canon X left level m)
  else ∃ l, l.Perm m.entries ∧ o = .inlined l

/-- A removal of an absent key changes nothing; otherwise it leads to the canonical
node of the remaining bindings, or to the bindings themselves if they fit a bucket. -/
def RemoveSpec (X : Platform) (fuel : ℕ) (t : ContentStore) (keys : Set Str) (left level : ℕ) :
    Prop :=
  ∀ m k isRoot s, Within m keys → SubsStored X s left level m →
    (removeAtNode X fuel left (canon X left level m) (keyHash X k) level k isRoot s).2 ≤ t →
    (m.get k = none → removeAtNode X fuel left (canon X left level m) (keyHash X k) level k isRoot s =
      (.ok .unchanged,s)) ∧
    (∀ v, m.get k = some v → ∃ o s',
      removeAtNode X fuel left (canon X left level m) (keyHash X k) level k isRoot s = (.ok o,s') ∧
      Settled X left level (m.erase k) isRoot o ∧ SubsStored X s' left level (m.erase k))

/-- The step that leads from the entry of some bindings to that of others. -/
def StepTo (new : Option Entry) (st : RemoveStep) : Prop :=
  match new with
  | none => st = .drop
  | some e => st = .replace e

section Remove

variable {t : ContentStore} {keys : Set Str} {fuel left level : ℕ} {m : OrderedMap Str Hash}
  {k : Str} {s : ContentStore}

theorem relink_settled (hX : X.FormatAllocated) {o : RemoveOutcome}
    (hne : m.entries.length ≠ 0) (ho : Settled X left level m false o)
    (hs : SubsStored X s left level m) :
    ∃ st s', relink X o s = (.ok st,s') ∧
      StepTo (canonEntry (fun sub => nodeHash X (canon X left level sub)) m) st ∧
      NodeStored X s' left level m := by
  unfold Settled at ho
  by_cases hbig : bucketSize < m.entries.length
  · rw [if_pos (.inr hbig)] at ho
    subst ho
    obtain ⟨s',hstore,hle,hnode⟩ := storeTrieNode_spec hX (canon X left level m) s
    refine ⟨.replace (.link (nodeHash X (canon X left level m))),s',?_,?_,
      fun _ => ⟨hnode,hs.mono hle⟩⟩
    · unfold relink
      dsimp only
      rw [bind_of_ok hstore]
      rfl
    · rw [canonEntry_link hbig]
      rfl
  · rw [if_neg (by simpa using hbig)] at ho
    obtain ⟨l,hl,rfl⟩ := ho
    have hempty : l.isEmpty = false := by
      cases l with
      | nil => exact absurd hl.length_eq.symm hne
      | cons x r => rfl
    refine ⟨.replace (.bucket m.entries),s,?_,?_,fun h => absurd h hbig⟩
    · unfold relink
      dsimp only
      rw [hempty,if_neg (by decide),sortTuples,OrderedMap.insertionSort_entries hl]
      rfl
    · rw [canonEntry_bucket hne (not_lt.mp hbig)]
      rfl

theorem removeEntry_canon (hX : X.FormatAllocated) (ht : t.Faithful X)
    (hdown : bucketSize < m.entries.length → RemoveSpec X fuel t keys left level)
    (hm : Within m keys) (hs : NodeStored X s left level m) {e : Entry}
    (he : canonEntry (fun sub => nodeHash X (canon X left level sub)) m = some e)
    (hle : (removeEntry X (fun n => removeAtNode X fuel left n (keyHash X k) level k false) k e s).2
      ≤ t) :
    (m.get k = none →
      removeEntry X (fun n => removeAtNode X fuel left n (keyHash X k) level k false) k e s =
        (.ok .keep,s)) ∧
    (∀ v, m.get k = some v → ∃ st s',
      removeEntry X (fun n => removeAtNode X fuel left n (keyHash X k) level k false) k e s =
        (.ok st,s') ∧
      StepTo (canonEntry (fun sub => nodeHash X (canon X left level sub)) (m.erase k)) st ∧
      NodeStored X s' left level (m.erase k)) := by
  have hst : s ≤ t := (grows_removeEntry
    (fun n => grows_removeAtNode fuel left n _ level k false) k e s).trans hle
  by_cases hbig : bucketSize < m.entries.length
  · obtain ⟨hnode,hsubs⟩ := hs hbig
    rw [canonEntry_link hbig] at he
    obtain rfl := Option.some.inj he
    have hload : loadSub X (nodeHash X (canon X left level m)) s = (.ok (canon X left level m),s) := by
      simp [loadSub,load_of_storedIn ht hst hnode,okOr]
    unfold removeEntry at hle ⊢
    dsimp only at hle ⊢
    rw [bind_of_ok hload] at hle ⊢
    obtain ⟨habsent,hpresent⟩ := hdown hbig m k false s hm hsubs
      ((Action.Grows.le_bind grows_relink s).trans hle)
    constructor
    · intro hget
      rw [bind_of_ok (habsent hget)]
      rfl
    · intro v hget
      obtain ⟨o,s₁,hrun,hsettled,hs₁⟩ := hpresent v hget
      have hlen := OrderedMap.length_erase_add_one hget
      obtain ⟨st,s',hrelink,hstep,hs'⟩ := relink_settled hX (by unfold bucketSize at hbig; omega)
        hsettled hs₁
      refine ⟨st,s',?_,hstep,hs'⟩
      rw [bind_of_ok hrun,hrelink]
  · have hne : m.entries.length ≠ 0 := by
      intro h0
      rw [canonEntry_eq_none.mpr h0] at he
      cases he
    rw [canonEntry_bucket hne (not_lt.mp hbig)] at he
    obtain rfl := Option.some.inj he
    unfold removeEntry
    dsimp only
    cases hfind : m.entries.findIdx? fun e => e.1 = k with
    | none =>
      have hget := OrderedMap.get_eq_none_of_findIdx (fun _ => decide_eq_true_iff) hfind
      refine ⟨fun _ => rfl,fun v hv => ?_⟩
      rw [hget] at hv
      cases hv
    | some pos =>
      obtain ⟨w,hw⟩ := OrderedMap.get_of_findIdx (fun _ => decide_eq_true_iff) hfind
      have hlen := OrderedMap.length_erase_add_one hw
      refine ⟨fun hn => ?_,fun v hv => ⟨_,s,rfl,?_,fun h => absurd h (by omega)⟩⟩
      · rw [hw] at hn
        cases hn
      · by_cases hone : m.entries.length = 1
        · rw [if_pos hone,canonEntry_eq_none.mpr (by omega)]
          rfl
        · rw [if_neg hone,canonEntry_bucket (by omega) (by omega),
            OrderedMap.eraseIdx_entries (fun _ => decide_eq_true_iff) hfind]
          rfl

theorem enforceBound_canon (ht : t.Faithful X) (hst : s ≤ t) (hleft : level+left = levels)
    (hlevel : level < levels) (hkin : Kin X level keys) (hm : Within m keys)
    (hs : SubsStored X s left level m) (hfuel : left ≤ fuel) (isRoot : Bool) :
    ∃ o, enforceBound X fuel isRoot (canon X left level m) s = (.ok o,s) ∧
      Settled X left level m isRoot o := by
  unfold enforceBound Settled
  cases isRoot with
  | true => exact ⟨_,rfl,by simp⟩
  | false =>
    obtain ⟨l,hl,hw⟩ := walks_canon ht hst hleft hlevel hkin hm hs hfuel
    have hlen := hl.length_eq
    simp only [Bool.false_eq_true,if_false,reading_apply,hw.count,false_or]
    by_cases hbig : bucketSize < m.entries.length
    · refine ⟨.modified (canon X left level m),?_,by rw [if_pos hbig]⟩
      show ((if l.length < bucketSize+1 then _ else _),s) = _
      rw [if_neg (by omega)]
      rfl
    · refine ⟨.inlined l,?_,by rw [if_neg hbig]; exact ⟨l,hl,rfl⟩⟩
      show ((if l.length < bucketSize+1 then _ else _),s) = _
      rw [if_pos (by omega),flattenEntries,hw.flatten]
      rfl

end Remove

theorem removeAtNode_canon (hX : X.FormatAllocated) (ht : t.Faithful X)
    (hleft : level+left = levels) (hlevel : level < levels)
    (hfuel : left ≤ fuel) (hkin : Kin X level keys) : RemoveSpec X fuel t keys left level := by
  induction left generalizing level keys with
  | zero => omega
  | succ left ih =>
    intro m k isRoot s hm hs hle
    obtain ⟨hslice,hp⟩ := bitSliceAt_ok (X := X) hlevel k
    have hhere : part X level (m.erase k) (slot X level k) =
        (part X level m (slot X level k)).erase k := by rw [part_erase,if_pos rfl]
    have hrest : ∀ q, q ≠ slot X level k → part X level (m.erase k) q = part X level m q :=
      fun q hq => by rw [part_erase,if_neg (Ne.symm hq)]
    have hgetpart : (part X level m (slot X level k)).get k = m.get k := by simp [part]
    have hlift : (lift (bitSliceAt (keyHash X k) level) :
        Action ContentStore TrieFailure ℕ) s = (.ok (slot X level k),s) := by
      rw [hslice]
      rfl
    rw [canon_succ] at hle ⊢
    unfold removeAtNode at hle ⊢
    rw [bind_of_ok hlift,position_ofSlots _ hp] at hle ⊢
    cases hslot : canonSlots X left level m (slot X level k) with
    | none =>
      have hget : m.get k = none := by
        have h0 := eq_nil_of_length_eq_zero (canonEntry_eq_none.mp hslot)
        rw [← hgetpart,OrderedMap.get,h0]
        rfl
      refine ⟨fun _ => rfl,fun v hv => ?_⟩
      rw [hget] at hv
      cases hv
    | some e =>
      have hentry := entryAt_found ((holds_ofSlots (canonSlots X left level m)).get hp hslot) s
      rw [hslot] at hle
      simp only [Option.isSome_some,Bool.not_true,Bool.false_eq_true,if_false] at hle ⊢
      rw [bind_of_ok hentry] at hle ⊢
      have hdown : bucketSize < (part X level m (slot X level k)).entries.length →
          RemoveSpec X fuel t {j ∈ keys | slot X level j = slot X level k} left (level+1) := by
        intro hbig
        have hlt := (hkin.part _).level_lt (hm.part level _) hbig
        exact ih (by omega) (by unfold levels; omega) (by omega) (hkin.part _)
      have hgrow := fun st => grows_applyStep (X := X) fuel isRoot
        (ofSlots (canonSlots X left level m)) (slot X level k)
        ((range (slot X level k)).filterMap (canonSlots X left level m)).length st
      obtain ⟨habsent,hpresent⟩ := removeEntry_canon hX ht hdown (hm.part level _)
        (fun hl => hs _ hl) hslot ((Action.Grows.le_bind hgrow s).trans hle)
      rw [hgetpart] at habsent hpresent
      constructor
      · intro hget
        rw [bind_of_ok (habsent hget)]
        rfl
      · intro v hv
        obtain ⟨st,s',hrun,hstep,hs'⟩ := hpresent v hv
        rw [bind_of_ok hrun] at hle ⊢
        have hss : s ≤ s' := by
          have hg := grows_removeEntry (X := X)
            (fun n => grows_removeAtNode (X := X) fuel left n (keyHash X k) (level+1) k false) k e s
          rwa [hrun] at hg
        rw [← hhere] at hstep hs'
        have hsubs := subsStored_update hss hrest hs hs'
        have hbound := enforceBound_canon ht ((hgrow st s').trans hle) hleft hlevel hkin
          (hm.erase k) hsubs hfuel isRoot
        obtain ⟨o,ho,hsettled⟩ := hbound
        refine ⟨o,s',?_,hsettled,hsubs⟩
        have hnew : canonSlots X left level (m.erase k) (slot X level k) =
          canonEntry (fun sub => nodeHash X (canon X left (level+1) sub))
            (part X level (m.erase k) (slot X level k)) := rfl
        rw [← hnew] at hstep
        cases hc : canonSlots X left level (m.erase k) (slot X level k) with
        | none =>
          rw [hc] at hstep
          obtain rfl : st = .drop := hstep
          have hnode := eq_ofSlots ((holds_ofSlots _).erase hp hslot)
          rw [← hc,update_canonSlots hrest] at hnode
          rw [applyStep,hnode]
          exact ho
        | some e' =>
          rw [hc] at hstep
          obtain rfl : st = .replace e' := hstep
          have hnode := eq_ofSlots ((holds_ofSlots _).set hp hslot e')
          rw [← hc,update_canonSlots hrest] at hnode
          rw [applyStep,hnode]
          exact ho

end EntityCore
