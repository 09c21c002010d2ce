import EntityCore.Revision

/-! Attestations and the in-memory index over them. Every secondary table of the index
lists, in hash order, exactly the attestations that carry its key. -/
namespace EntityCore

open Ecf Outcome Strings

def typeAttestation : Str := "system/attestation".toList
def kindRevocation : Str := "revocation".toList

inductive AttestationError where
  | decode (message : String)
  | encode (message : String)
  | invalid (message : String)

def AttestationError.display : AttestationError → String
  | .decode m => "attestation entity decode failed: "++m
  | .encode m => "attestation entity encode failed: "++m
  | .invalid m => "invalid attestation: "++m

/-- A decoded `system/attestation` entity; `properties` is the consumer's map as it came. -/
structure AttestationData where
  attesting : Hash
  attested : Hash
  properties : List (Value × Value)
  supersedes : Option Hash
  notBefore : Option ℕ
  expiresAt : Option ℕ

/-! Fields of a decoded map: the first entry of a key counts. -/

def getField (map : List (Value × Value)) (key : String) : Option Value :=
  map.findSome? fun kv => if kv.1.asText = some key.toList then some kv.2 else none

def decodeMap (X : Platform) (data : Bytes) : Except AttestationError (List (Value × Value)) := do
  let value ← mapErr AttestationError.decode (X.fromReader data)
  okOr value.asMap (.decode "expected CBOR map")

def hashOf (key : String) (v : Value) : Except AttestationError Hash := do
  let bytes ← okOr v.asBytes (.decode (key++ " must be byte string"))
  mapErr (fun e => AttestationError.decode e.display) (Hash.fromBytes bytes)

def fieldHash (map : List (Value × Value)) (key : String) : Except AttestationError Hash := do
  let v ← okOr (getField map key) (.decode ("missing "++key++ " field"))
  hashOf key v

/-- Absent and null are the same. -/
def presentField (map : List (Value × Value)) (key : String) : Option Value :=
  match getField map key with
  | some .null => none
  | v => v

def fieldHashOpt (map : List (Value × Value)) (key : String) :
    Except AttestationError (Option Hash) :=
  match presentField map key with
  | none => .ok none
  | some v => (hashOf key v).map some

def fieldU64Opt (map : List (Value × Value)) (key : String) :
    Except AttestationError (Option ℕ) :=
  match presentField map key with
  | none => .ok none
  | some v => do
    let i ← okOr v.asInteger (.decode (key++ " must be integer"))
    if i.val < 0 then .error (.decode (key++ " must be non-negative"))
    else .ok (some i.val.toNat)

/-- The `properties` map of a decoded map; what stands for an absent one is the caller's. -/
def fieldProperties (map : List (Value × Value)) (absent : List (Value × Value)) :
    Except AttestationError (List (Value × Value)) :=
  match presentField map "properties" with
  | none => .ok absent
  | some v => okOr v.asMap (.decode "properties must be CBOR map")

namespace AttestationData

variable (X : Platform)

def fromEntity (entity : Entity) : Except AttestationError AttestationData := do
  ensure (entity.entityType = typeAttestation) (.decode ("expected system/attestation, got "++
    String.ofList entity.entityType))
  let map ← decodeMap X entity.data
  let attesting ← fieldHash map "attesting"
  let attested ← fieldHash map "attested"
  let properties ← fieldProperties map []
  let supersedes ← fieldHashOpt map "supersedes"
  let notBefore ← fieldU64Opt map "not_before"
  let expiresAt ← fieldU64Opt map "expires_at"
  return ⟨attesting,attested,properties,supersedes,notBefore,expiresAt⟩

/-- An unsigned word read as a signed one. -/
def asI64 (v : ℕ) : Integer :=
  if h : v%2^64 < 2^63 then ⟨(v%2^64 : ℕ),by omega,by omega⟩
  else ⟨(v%2^64 : ℕ)-2^64,by omega,by omega⟩

def toFields (att : AttestationData) : List (Value × Value) :=
  [(Value.text "attested".toList,Value.bytes att.attested.toBytes),
    (Value.text "attesting".toList,Value.bytes att.attesting.toBytes)]++
  (att.expiresAt.map fun v => (Value.text "expires_at".toList,Value.integer (asI64 v))).toList++
  (att.notBefore.map fun v => (Value.text "not_before".toList,Value.integer (asI64 v))).toList++
  (if att.properties.isEmpty then [] else [(Value.text "properties".toList,Value.map att.properties)])++
  (att.supersedes.map fun h => (Value.text "supersedes".toList,Value.bytes h.toBytes)).toList

def toEntity (att : AttestationData) : Except AttestationError Entity :=
  mapErr (fun e => AttestationError.encode e.display)
    (Entity.new X typeAttestation (toEcf (.map att.toFields)))

def kind (att : AttestationData) : Option Str :=
  (getField att.properties "kind").bind Value.asText

end AttestationData

/-! The index. -/

abbrev HashSet : Type := OrderedMap Hash Unit

namespace HashSet

def toList (s : HashSet) : List Hash := s.entries.map Prod.fst

theorem mem_toList (s : HashSet) (h : Hash) : h ∈ s.toList ↔ s.get h = some () := by
  unfold toList
  rw [List.mem_map]
  constructor
  · rintro ⟨⟨k,u⟩,he,rfl⟩
    exact (s.mem_entries k u).mp he
  · intro hg
    exact ⟨(h,()),(s.mem_entries h ()).mpr hg,rfl⟩

theorem toList_sorted (s : HashSet) : s.toList.Pairwise (· < ·) := by
  unfold toList
  rw [List.pairwise_map]
  exact s.sorted

end HashSet

/-- A secondary table of the index. -/
abbrev HashTable (κ : Type) [LinearOrder κ] : Type := OrderedMap κ HashSet

namespace HashTable

variable {κ : Type} [LinearOrder κ]

def add (t : HashTable κ) (key : κ) (hash : Hash) : HashTable κ :=
  t.insert key (((t.get key).getD .empty).insert hash ())

/-- A set that becomes empty goes with its key. -/
def drop (t : HashTable κ) (key : κ) (hash : Hash) : HashTable κ :=
  match t.get key with
  | none => t
  | some s =>
    let s' := s.erase hash
    if s'.entries.isEmpty then t.erase key else t.insert key s'

def lookup (t : HashTable κ) (key : κ) : List Hash := ((t.get key).map HashSet.toList).getD []

theorem lookup_sorted (t : HashTable κ) (key : κ) : (t.lookup key).Pairwise (· < ·) := by
  unfold lookup
  cases t.get key with
  | none => exact List.Pairwise.nil
  | some s => exact s.toList_sorted

theorem mem_lookup (t : HashTable κ) (k : κ) (h : Hash) :
    h ∈ t.lookup k ↔ ∃ s, t.get k = some s ∧ s.get h = some () := by
  unfold lookup
  cases t.get k with
  | none => simp
  | some s => simp [HashSet.mem_toList]

theorem mem_lookup_add (t : HashTable κ) (key : κ) (hash : Hash) (k : κ) (h : Hash) :
    h ∈ (t.add key hash).lookup k ↔ (k = key ∧ h = hash) ∨ h ∈ t.lookup k := by
  rw [mem_lookup,mem_lookup,add,OrderedMap.get_insert]
  by_cases hk : k = key
  · subst hk
    cases t.get k <;> by_cases hh : h = hash <;> simp [hh]
  · simp [hk]

theorem mem_lookup_drop (t : HashTable κ) (key : κ) (hash : Hash) (k : κ) (h : Hash) :
    h ∈ (t.drop key hash).lookup k ↔ h ∈ t.lookup k ∧ ¬(k = key ∧ h = hash) := by
  rw [mem_lookup,mem_lookup,drop]
  by_cases hk : k = key
  · subst hk
    cases hg : t.get k with
    | none => simp [hg]
    | some s =>
      dsimp only
      split_ifs with hempty
      · -- nothing else was listed under the key
        have hnil : (s.erase hash).entries = [] := by simpa using hempty
        have hnone : (s.erase hash).get h = none := by
          rw [OrderedMap.get,hnil]
          rfl
        rw [OrderedMap.get_erase] at hnone
        by_cases hh : h = hash
        · simp [hh]
        · rw [if_neg hh] at hnone
          simp [hnone]
      · by_cases hh : h = hash <;> simp [hh]
  · cases t.get key with
    | none => simp [hk]
    | some s =>
      dsimp only
      split_ifs <;> simp [hk]

end HashTable

/-- A table lists under each key the attestations that have it. -/
def Tabulates {κ : Type} [LinearOrder κ] (byHash : OrderedMap Hash AttestationData)
    (field : AttestationData → Option κ) (t : HashTable κ) : Prop :=
  ∀ k h, h ∈ t.lookup k ↔ ∃ att, byHash.get h = some att ∧ field att = some k

structure AttestationIndex where
  byHash : OrderedMap Hash AttestationData
  byAttesting : HashTable Hash
  byAttested : HashTable Hash
  byKind : HashTable Str
  bySupersedes : HashTable Hash
  attesting_listed : Tabulates byHash (fun a => some a.attesting) byAttesting
  attested_listed : Tabulates byHash (fun a => some a.attested) byAttested
  kind_listed : Tabulates byHash AttestationData.kind byKind
  supersedes_listed : Tabulates byHash AttestationData.supersedes bySupersedes

/-- Under the key of an attestation, if it has one. -/
def HashTable.addFor {κ : Type} [LinearOrder κ] (t : HashTable κ) (key : Option κ) (hash : Hash) :
    HashTable κ :=
  match key with
  | none => t
  | some k => t.add k hash

def HashTable.dropFor {κ : Type} [LinearOrder κ] (t : HashTable κ) (key : Option κ) (hash : Hash) :
    HashTable κ :=
  match key with
  | none => t
  | some k => t.drop k hash

section Tables

variable {κ : Type} [LinearOrder κ] {byHash : OrderedMap Hash AttestationData}
  {field : AttestationData → Option κ} {t : HashTable κ}

theorem Tabulates.insert (h : Tabulates byHash field t) {hash : Hash}
    (hnew : byHash.get hash = none) (att : AttestationData) :
    Tabulates (byHash.insert hash att) field (t.addFor (field att) hash) := by
  intro k g
  have hadd : g ∈ (t.addFor (field att) hash).lookup k ↔
      (field att = some k ∧ g = hash) ∨ g ∈ t.lookup k := by
    unfold HashTable.addFor
    cases field att with
    | none => simp
    | some key =>
      rw [HashTable.mem_lookup_add]
      simp only [Option.some.injEq,eq_comm]
  rw [hadd,h,OrderedMap.get_insert]
  by_cases hg : g = hash
  · subst hg
    simp [hnew]
  · simp [hg]

theorem Tabulates.erase (h : Tabulates byHash field t) {hash : Hash} {att : AttestationData}
    (hold : byHash.get hash = some att) :
    Tabulates (byHash.erase hash) field (t.dropFor (field att) hash) := by
  intro k g
  have hdrop : g ∈ (t.dropFor (field att) hash).lookup k ↔
      g ∈ t.lookup k ∧ ¬(field att = some k ∧ g = hash) := by
    unfold HashTable.dropFor
    cases field att with
    | none => simp
    | some key =>
      rw [HashTable.mem_lookup_drop]
      simp only [Option.some.injEq,eq_comm]
  rw [hdrop,h,OrderedMap.get_erase]
  by_cases hg : g = hash
  · subst hg
    simp only [if_true,hold,Option.some.injEq,exists_eq_left',and_true]
    simp
  · simp [hg]

/-- Two tables of one map answer alike: both answers are sorted and have the same hashes. -/
theorem Tabulates.lookup_eq {byHash' : OrderedMap Hash AttestationData} {t' : HashTable κ}
    (h : Tabulates byHash field t) (h' : Tabulates byHash' field t')
    (hsame : ∀ g, byHash.get g = byHash'.get g) (k : κ) : t.lookup k = t'.lookup k := by
  have hperm : (t.lookup k).Perm (t'.lookup k) := by
    apply (List.perm_ext_iff_of_nodup ((t.lookup_sorted k).imp ne_of_lt)
      ((t'.lookup_sorted k).imp ne_of_lt)).mpr
    intro g
    rw [h,h',hsame]
  exact hperm.eq_of_pairwise (fun a b _ _ hab hba => absurd (hab.trans hba) (lt_irrefl a))
    (t.lookup_sorted k) (t'.lookup_sorted k)

end Tables

namespace AttestationIndex

theorem tabulates_empty {κ : Type} [LinearOrder κ] (field : AttestationData → Option κ) :
    Tabulates .empty field .empty := by
  intro k h
  simp [HashTable.lookup]

def new : AttestationIndex where
  byHash := .empty
  byAttesting := .empty
  byAttested := .empty
  byKind := .empty
  bySupersedes := .empty
  attesting_listed := tabulates_empty _
  attested_listed := tabulates_empty _
  kind_listed := tabulates_empty _
  supersedes_listed := tabulates_empty _

/-- A hash that is known stays with what it was inserted with. -/
def insert (index : AttestationIndex) (hash : Hash) (att : AttestationData) : AttestationIndex :=
  match hg : index.byHash.get hash with
  | some _ => index
  | none => {
      byHash := index.byHash.insert hash att
      byAttesting := index.byAttesting.addFor (some att.attesting) hash
      byAttested := index.byAttested.addFor (some att.attested) hash
      byKind := index.byKind.addFor att.kind hash
      bySupersedes := index.bySupersedes.addFor att.supersedes hash
      attesting_listed := index.attesting_listed.insert hg att
      attested_listed := index.attested_listed.insert hg att
      kind_listed := index.kind_listed.insert hg att
      supersedes_listed := index.supersedes_listed.insert hg att }

def remove (index : AttestationIndex) (hash : Hash) : AttestationIndex :=
  match hg : index.byHash.get hash with
  | none => index
  | some att => {
      byHash := index.byHash.erase hash
      byAttesting := index.byAttesting.dropFor (some att.attesting) hash
      byAttested := index.byAttested.dropFor (some att.attested) hash
      byKind := index.byKind.dropFor att.kind hash
      bySupersedes := index.bySupersedes.dropFor att.supersedes hash
      attesting_listed := index.attesting_listed.erase hg
      attested_listed := index.attested_listed.erase hg
      kind_listed := index.kind_listed.erase hg
      supersedes_listed := index.supersedes_listed.erase hg }

def get (index : AttestationIndex) (hash : Hash) : Option AttestationData := index.byHash.get hash

def lookupByAttesting (index : AttestationIndex) (hash : Hash) : List Hash :=
  index.byAttesting.lookup hash
def lookupByAttested (index : AttestationIndex) (hash : Hash) : List Hash :=
  index.byAttested.lookup hash
def lookupByKind (index : AttestationIndex) (kind : Str) : List Hash := index.byKind.lookup kind
def lookupBySupersedes (index : AttestationIndex) (hash : Hash) : List Hash :=
  index.bySupersedes.lookup hash

theorem get_insert (index : AttestationIndex) (hash : Hash) (att : AttestationData) (h : Hash) :
    (index.insert hash att).get h =
      if h = hash then some ((index.get hash).getD att) else index.get h := by
  have hinsert : (index.insert hash att).get h =
      match index.get hash with
      | some _ => index.get h
      | none => (index.byHash.insert hash att).get h := by
    unfold insert get
    split
    · rename_i a ha
      rw [ha]
    · rename_i ha
      simp only [ha]
  rw [hinsert]
  cases hg : index.get hash with
  | some a =>
    dsimp only
    split_ifs with hh
    · rw [hh,hg]
      rfl
    · rfl
  | none =>
    dsimp only
    rw [OrderedMap.get_insert]
    split_ifs with hh
    · rfl
    · rfl

/-- The whole of what an index answers is decided by what it holds under each hash. -/
theorem same_answers {i j : AttestationIndex} (h : ∀ g, i.get g = j.get g) :
    (∀ g, i.lookupByAttesting g = j.lookupByAttesting g) ∧
    (∀ g, i.lookupByAttested g = j.lookupByAttested g) ∧
    (∀ k, i.lookupByKind k = j.lookupByKind k) ∧
    (∀ g, i.lookupBySupersedes g = j.lookupBySupersedes g) :=
  ⟨fun g => i.attesting_listed.lookup_eq j.attesting_listed h g,
    fun g => i.attested_listed.lookup_eq j.attested_listed h g,
    fun k => i.kind_listed.lookup_eq j.kind_listed h k,
    fun g => i.supersedes_listed.lookup_eq j.supersedes_listed h g⟩

end AttestationIndex
end EntityCore
