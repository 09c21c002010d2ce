import EntityCore.Postings
import EntityCore.Store
import EntityCore.Trie

/-! The query indexes: by type, by referenced hash and by linked path. Each is kept with a
cache of what every path has put into it, so that a path's entries can be found again. -/
namespace EntityCore

open Ecf Strings Postings OrderedMap Function

/-! Extraction of references. -/

mutual
/-- Every byte string that reads as a hash, under the name of the top-level field. -/
def collectHashes (fieldName : Str) : Value → List (Hash × Str)
  | .bytes b => match Hash.fromBytes b with
    | .ok hash => [(hash,fieldName)]
    | .error _ => []
  | .array items => collectHashItems fieldName items
  | .map entries => collectHashValues fieldName entries
  | _ => []

def collectHashItems (fieldName : Str) : List Value → List (Hash × Str)
  | [] => []
  | item::items => collectHashes fieldName item++collectHashItems fieldName items

def collectHashValues (fieldName : Str) : List (Value × Value) → List (Hash × Str)
  | [] => []
  | (_,v)::entries => collectHashes fieldName v++collectHashValues fieldName entries
end

def extractHashRefs (X : Platform) (data : Bytes) : List (Hash × Str) :=
  match X.fromReader data with
  | .ok (.map entries) => entries.flatMap fun e => collectHashes (e.1.asText.getD []) e.2
  | _ => []

inductive FieldSpec where
  | mk (typeRef : Option Str) (arrayOf mapOf : Option FieldSpec)

def FieldSpec.typeRef : FieldSpec → Option Str | .mk t _ _ => t
def FieldSpec.arrayOf : FieldSpec → Option FieldSpec | .mk _ a _ => a
def FieldSpec.mapOf : FieldSpec → Option FieldSpec | .mk _ _ m => m

/-- The fields of a registered type. -/
abbrev TypeRegistry : Type := Str → Option (OrderedMap Str FieldSpec)

def typeTreePath : Str := "system/tree/path".toList

section Walker

variable (typeRegistry : TypeRegistry) (fieldName : Str)

mutual
def collectPaths (spec : FieldSpec) : Value → List (Str × Str)
  | .text path => if spec.typeRef = some typeTreePath then [(path,fieldName)] else []
  | .array items =>
    if spec.typeRef = some typeTreePath then []
    else match spec.arrayOf with
      | some elem => collectPathItems elem items
      | none => []
  | .map entries =>
    if spec.typeRef = some typeTreePath then []
    else
      (match spec.typeRef.bind typeRegistry with
        | some fields => collectPathFields fields entries
        | none => [])++
      (match spec.mapOf with
        | some val => collectPathValues val entries
        | none => [])
  | _ => []

def collectPathItems (spec : FieldSpec) : List Value → List (Str × Str)
  | [] => []
  | item::items => collectPaths spec item++collectPathItems spec items

def collectPathFields (fields : OrderedMap Str FieldSpec) : List (Value × Value) → List (Str × Str)
  | [] => []
  | (k,v)::entries =>
    (match k.asText.bind fields.get with
      | some spec => collectPaths spec v
      | none => [])++collectPathFields fields entries

def collectPathValues (spec : FieldSpec) : List (Value × Value) → List (Str × Str)
  | [] => []
  | (_,v)::entries => collectPaths spec v++collectPathValues spec entries
end

end Walker

def extractPathRefs (X : Platform) (typeRegistry : TypeRegistry) (data : Bytes)
    (entityType : Str) : List (Str × Str) :=
  match typeRegistry entityType,X.fromReader data with
  | some fields,.ok (.map entries) => entries.flatMap fun e =>
    match e.1.asText with
    | some fieldName => match fields.get fieldName with
      | some spec => collectPaths typeRegistry fieldName spec e.2
      | none => []
    | none => []
  | _,_ => []

/-! The indexes. -/

structure TypeIndexEntry where
  path : Str
  hash : Hash
  deriving DecidableEq

structure RefEntry where
  sourcePath : Str
  sourceType : Str
  fieldName : Str
  deriving DecidableEq

/-- An index of references, by what is referred to. -/
structure RefIndex (κ : Type) [LinearOrder κ] where
  index : Postings κ RefEntry
  cache : OrderedMap Str (List (κ × Str))

namespace RefIndex

variable {κ : Type} [LinearOrder κ]

def empty : RefIndex κ := ⟨.empty,.empty⟩

def add (r : RefIndex κ) (path entityType : Str) (refs : List (κ × Str)) : RefIndex κ where
  index := postAll r.index (refs.map fun ref => (ref.1,⟨path,entityType,ref.2⟩))
  cache := r.cache.insert path refs

def remove (r : RefIndex κ) (path : Str) : RefIndex κ :=
  match r.cache.get path with
  | none => r
  | some refs => ⟨retainAll (fun e => e.sourcePath ≠ path) r.index (refs.map Prod.fst),
      r.cache.erase path⟩

end RefIndex

structure QueryIndexes where
  typeIndex : Postings Str TypeIndexEntry
  pathTypeCache : OrderedMap Str Str
  reverseHashIndex : RefIndex Hash
  pathLinkIndex : RefIndex Str

namespace QueryIndexes

variable (X : Platform) (typeRegistry : TypeRegistry)

def new : QueryIndexes := ⟨.empty,.empty,.empty,.empty⟩

def addEntriesForEntity (ix : QueryIndexes) (path : Str) (entity : Entity) : QueryIndexes where
  typeIndex := post ix.typeIndex (entity.entityType,⟨path,entity.contentHash⟩)
  pathTypeCache := ix.pathTypeCache.insert path entity.entityType
  reverseHashIndex :=
    ix.reverseHashIndex.add path entity.entityType (extractHashRefs X entity.data)
  pathLinkIndex := ix.pathLinkIndex.add path entity.entityType
    (extractPathRefs X typeRegistry entity.data entity.entityType)

def removeEntriesForPath (ix : QueryIndexes) (path : Str) : QueryIndexes where
  typeIndex := match ix.pathTypeCache.get path with
    | some entityType => retain (fun e => e.path ≠ path) ix.typeIndex entityType
    | none => ix.typeIndex
  pathTypeCache := ix.pathTypeCache.erase path
  reverseHashIndex := ix.reverseHashIndex.remove path
  pathLinkIndex := ix.pathLinkIndex.remove path

def queryTypeIndex (ix : QueryIndexes) (typeFilter : Str) : Finset TypeIndexEntry :=
  if typeFilter = ['*'] then gather ix.typeIndex.entries
  else match stripSuffix typeFilter "/*".toList with
    | some start =>
      let withSlash := start++['/']
      gather ((ix.typeIndex.entries.dropWhile fun e => e.1 < withSlash).takeWhile
        fun e => startsWith e.1 withSlash)
    | none => under ix.typeIndex typeFilter

def queryReverseIndex (ix : QueryIndexes) (hash : Hash) : Finset RefEntry :=
  under ix.reverseHashIndex.index hash

def queryPathLinkIndex (ix : QueryIndexes) (path : Str) : Finset RefEntry :=
  under ix.pathLinkIndex.index path

/-- A scan of the tree, where `held` says what is at hand for a binding. -/
def rebuildWith (locationIndex : MemoryLocationIndex) (held : Str × Hash → Option Entity) :
    QueryIndexes :=
  (locationIndex.list []).foldl (fun ix entry => match held entry with
    | some entity => ix.addEntriesForEntity X typeRegistry entry.1 entity
    | none => ix) new

def rebuild (locationIndex : MemoryLocationIndex) (contentStore : ContentStore) : QueryIndexes :=
  rebuildWith X typeRegistry locationIndex fun entry => contentStore.get entry.2

end QueryIndexes

/-! What the indexes say, given which entity each path has posted. -/

namespace RefIndex

variable {κ : Type} [LinearOrder κ]

/-- The index holds the references of the posted entities and no others. -/
structure Reflects (refs : Entity → List (κ × Str)) (r : RefIndex κ)
    (posted : Str → Option Entity) : Prop where
  cached : ∀ p, r.cache.get p = (posted p).map refs
  indexed : ∀ k e, e ∈ under r.index k ↔ ∃ entity, posted e.sourcePath = some entity ∧
    e.sourceType = entity.entityType ∧ (k,e.fieldName) ∈ refs entity

variable {refs : Entity → List (κ × Str)} {r : RefIndex κ} {posted : Str → Option Entity}

theorem reflects_empty (refs : Entity → List (κ × Str)) : empty.Reflects refs fun _ => none :=
  ⟨fun _ => rfl,fun k e => by simp [empty]⟩

theorem Reflects.add (h : r.Reflects refs posted) {path : Str} (hp : posted path = none)
    (entity : Entity) : (r.add path entity.entityType (refs entity)).Reflects refs
      (update posted path (some entity)) := by
  constructor
  · intro p
    show (r.cache.insert path (refs entity)).get p = _
    rw [get_insert,h.cached]
    by_cases hpath : p = path
    · subst hpath
      simp
    · simp [hpath]
  · intro k e
    show e ∈ under (postAll r.index _) k ↔ _
    rw [mem_under_postAll,h.indexed,List.mem_map]
    by_cases hpath : e.sourcePath = path
    · subst hpath
      simp only [hp,update_self,Option.some.injEq]
      constructor
      · rintro (⟨ref,href,heq⟩ | ⟨x,hx,_⟩)
        · obtain ⟨rfl,he⟩ := Prod.mk.inj heq
          rw [← he]
          exact ⟨entity,rfl,rfl,href⟩
        · cases hx
      · rintro ⟨x,rfl,htype,href⟩
        exact .inl ⟨_,href,by rw [← htype]⟩
    · rw [update_of_ne hpath]
      constructor
      · rintro (⟨ref,_,heq⟩ | hold)
        · exact absurd (congrArg (·.2.sourcePath) heq).symm hpath
        · exact hold
      · exact .inr

theorem Reflects.remove (h : r.Reflects refs posted) (path : Str) :
    (r.remove path).Reflects refs (update posted path none) := by
  unfold RefIndex.remove
  cases hc : r.cache.get path with
  | none =>
    have hnone : posted path = none := by simpa [hc] using (h.cached path).symm
    rw [← hnone,update_eq_self]
    exact h
  | some old =>
    obtain ⟨entity,hentity,rfl⟩ : ∃ entity, posted path = some entity ∧ refs entity = old := by
      have hget := h.cached path
      rw [hc] at hget
      exact Option.map_eq_some_iff.mp hget.symm
    constructor
    · intro p
      show (r.cache.erase path).get p = _
      rw [get_erase,h.cached]
      by_cases hpath : p = path
      · subst hpath
        simp
      · simp [hpath]
    · intro k e
      show e ∈ under (retainAll _ r.index _) k ↔ _
      rw [mem_under_retainAll,h.indexed]
      by_cases hpath : e.sourcePath = path
      · subst hpath
        simp only [hentity,Option.some.injEq,exists_eq_left',update_self,
          decide_not,decide_true,Bool.not_true,Bool.false_eq_true,imp_false]
        simp only [reduceCtorEq,false_and,exists_false,iff_false,not_and,not_not]
        intro hmem
        exact List.mem_map_of_mem (f := Prod.fst) hmem.2
      · rw [update_of_ne hpath]
        simp [hpath]

end RefIndex

namespace QueryIndexes

variable {X : Platform} {typeRegistry : TypeRegistry}

structure Reflects (X : Platform) (typeRegistry : TypeRegistry) (ix : QueryIndexes)
    (posted : Str → Option Entity) : Prop where
  types : ∀ k e, e ∈ under ix.typeIndex k ↔ ∃ entity, posted e.path = some entity ∧
    k = entity.entityType ∧ e.hash = entity.contentHash
  typeCache : ∀ p, ix.pathTypeCache.get p = (posted p).map (·.entityType)
  hashes : ix.reverseHashIndex.Reflects (fun entity => extractHashRefs X entity.data) posted
  links : ix.pathLinkIndex.Reflects
    (fun entity => extractPathRefs X typeRegistry entity.data entity.entityType) posted

variable {ix : QueryIndexes} {posted : Str → Option Entity}

theorem reflects_new : new.Reflects X typeRegistry fun _ => none where
  types k e := by simp [new]
  typeCache _ := rfl
  hashes := RefIndex.reflects_empty _
  links := RefIndex.reflects_empty _

theorem Reflects.add (h : ix.Reflects X typeRegistry posted) {path : Str}
    (hp : posted path = none) (entity : Entity) :
    (ix.addEntriesForEntity X typeRegistry path entity).Reflects X typeRegistry
      (update posted path (some entity)) where
  types k e := by
    show e ∈ under (post ix.typeIndex _) k ↔ _
    rw [mem_under_post,h.types]
    by_cases hpath : e.path = path
    · subst hpath
      simp only [hp,update_self,Option.some.injEq,exists_eq_left',reduceCtorEq,false_and,
        exists_false,or_false]
      constructor
      · intro heq
        obtain ⟨htype,he⟩ := Prod.mk.inj heq
        exact ⟨htype,congrArg (·.hash) he⟩
      · rintro ⟨rfl,hhash⟩
        rw [← hhash]
    · rw [update_of_ne hpath]
      constructor
      · rintro (heq | hold)
        · exact absurd (congrArg (·.2.path) heq) hpath
        · exact hold
      · exact .inr
  typeCache p := by
    show (ix.pathTypeCache.insert path entity.entityType).get p = _
    rw [get_insert,h.typeCache]
    by_cases hpath : p = path
    · subst hpath
      simp
    · simp [hpath]
  hashes := h.hashes.add hp entity
  links := h.links.add hp entity

theorem Reflects.remove (h : ix.Reflects X typeRegistry posted) (path : Str) :
    (ix.removeEntriesForPath path).Reflects X typeRegistry (update posted path none) where
  types k e := by
    unfold removeEntriesForPath
    rw [h.typeCache]
    by_cases hpath : e.path = path
    · subst hpath
      cases hp : posted e.path with
      | none => simp [h.types,hp]
      | some entity =>
        simp only [Option.map_some,mem_under_retain,h.types,hp,Option.some.injEq,exists_eq_left',
          update_self]
        simp
        tauto
    · rw [update_of_ne hpath]
      cases hp : posted path with
      | none => simp [h.types]
      | some entity => simp [mem_under_retain,h.types,hpath]
  typeCache p := by
    show (ix.pathTypeCache.erase path).get p = _
    rw [get_erase,h.typeCache]
    by_cases hpath : p = path
    · subst hpath
      simp
    · simp [hpath]
  hashes := h.hashes.remove path
  links := h.links.remove path

/-- Which types a filter of the type index asks for. -/
def typeMatches (typeFilter t : Str) : Bool :=
  if typeFilter = ['*'] then true
  else match stripSuffix typeFilter "/*".toList with
    | some start => startsWith t (start++['/'])
    | none => t = typeFilter

theorem mem_queryTypeIndex (ix : QueryIndexes) (typeFilter : Str) (e : TypeIndexEntry) :
    e ∈ ix.queryTypeIndex typeFilter ↔
      ∃ t, typeMatches typeFilter t ∧ e ∈ under ix.typeIndex t := by
  unfold queryTypeIndex typeMatches
  by_cases hall : typeFilter = ['*']
  · simp only [if_pos hall,true_and]
    have hmem := mem_gather_filter ix.typeIndex (fun _ => true) e
    simpa using hmem
  · simp only [if_neg hall]
    cases hs : stripSuffix typeFilter "/*".toList with
    | none => simp
    | some start =>
      have hrange := MemoryLocationIndex.range_eq_filter (start++['/']) ix.typeIndex.entries
        ix.typeIndex.sorted
      simp only [hrange]
      exact mem_gather_filter ix.typeIndex _ e

/-- The three queries give the same answers, whatever is asked. -/
structure Agree (a b : QueryIndexes) : Prop where
  types : ∀ typeFilter, a.queryTypeIndex typeFilter = b.queryTypeIndex typeFilter
  reverse : ∀ hash, a.queryReverseIndex hash = b.queryReverseIndex hash
  links : ∀ path, a.queryPathLinkIndex path = b.queryPathLinkIndex path

/-- What the paths have posted decides every answer. -/
theorem Reflects.agree {a b : QueryIndexes} (ha : a.Reflects X typeRegistry posted)
    (hb : b.Reflects X typeRegistry posted) : Agree a b where
  types typeFilter := by
    ext e
    simp only [mem_queryTypeIndex,ha.types,hb.types]
  reverse hash := by
    ext e
    simp only [queryReverseIndex,ha.hashes.indexed,hb.hashes.indexed]
  links path := by
    ext e
    simp only [queryPathLinkIndex,ha.links.indexed,hb.links.indexed]

theorem reflects_foldl (held : Str × Hash → Option Entity) (l : List (Str × Hash))
    (hl : (l.map Prod.fst).Nodup) (h : ix.Reflects X typeRegistry posted)
    (hfree : ∀ e ∈ l, posted e.1 = none) :
    (l.foldl (fun ix entry => match held entry with
      | some entity => ix.addEntriesForEntity X typeRegistry entry.1 entity
      | none => ix) ix).Reflects X typeRegistry fun p =>
        match lookup p l with
        | some hash => held (p,hash)
        | none => posted p := by
  induction l generalizing ix posted with
  | nil => exact h
  | cons entry l ih =>
    obtain ⟨hnot,hl⟩ := List.nodup_cons.mp hl
    have hnone := hfree entry List.mem_cons_self
    have hrest : ∀ e ∈ l, e.1 ≠ entry.1 := fun e he heq =>
      hnot (by rw [← heq]; exact List.mem_map_of_mem he)
    have hlookup : lookup entry.1 l = none := lookup_eq_none hnot
    rw [List.foldl_cons]
    cases hheld : held entry with
    | none =>
      have hgo := ih hl h fun e he => hfree e (List.mem_cons_of_mem _ he)
      convert hgo using 2 with p
      by_cases hp : entry.1 = p
      · subst hp
        simp [lookup,hlookup,hheld,hnone]
      · simp [lookup,hp]
    | some entity =>
      have hgo := ih hl (h.add hnone entity) fun e he => by
        rw [update_of_ne (hrest e he)]
        exact hfree e (List.mem_cons_of_mem _ he)
      convert hgo using 2 with p
      by_cases hp : entry.1 = p
      · subst hp
        simp [lookup,hlookup,hheld]
      · simp [lookup,hp,Ne.symm hp]

/-- A rebuild posts what is at hand for every binding. -/
theorem reflects_rebuildWith (locationIndex : MemoryLocationIndex)
    (held : Str × Hash → Option Entity) :
    (rebuildWith X typeRegistry locationIndex held).Reflects X typeRegistry fun p =>
      (locationIndex.get p).bind fun hash => held (p,hash) := by
  have hlist : locationIndex.list [] = locationIndex.paths.entries := by
    rw [MemoryLocationIndex.list_eq]
    exact List.filter_eq_self.mpr fun e _ => by simp [startsWith]
  unfold rebuildWith
  rw [hlist]
  have hnew : new.Reflects X typeRegistry fun _ => none := reflects_new
  have hgo := reflects_foldl held locationIndex.paths.entries locationIndex.paths.keys_nodup hnew
    fun _ _ => rfl
  convert hgo using 2 with p
  show (lookup p locationIndex.paths.entries).bind _ = _
  cases lookup p locationIndex.paths.entries with
  | none => rfl
  | some hash => rfl

end QueryIndexes

end EntityCore
