import EntityCore.RootTracker

/-! Revisions of a prefix: version entries in the content store, the head binding that
names the current one, the config that says what is versioned, and the two ways a
version is made, by commit and by auto-version on a write. -/
namespace EntityCore

open Ecf Outcome ByteCode Strings

def typeRevisionEntry : Str := "system/revision/entry".toList
def typeDeletionMarker : Str := "system/deletion-marker".toList

/-- The hash at the SHA-256 floor, whatever format the process authors under. -/
def Hash.compute (X : Platform) (entityType : Str) (data : Bytes) : Hash :=
  ⟨hashAlgorithmSha256,X.sha256 (ecfForHash entityType data),by rw [X.sha256_length]; rfl⟩

/-! Version entries. -/

structure RevisionEntryData where
  root : Hash
  parents : List Hash
  deriving DecidableEq

structure EntryFields where
  root : Option Hash
  parents : Option (List Hash)

def scanEntryField (acc : EntryFields) (kv : Value × Value) : Option EntryFields := do
  let name ← kv.1.asText
  if name = "root".toList then
    match kv.2.asBytes with
    | some b => some { acc with root := (Hash.fromBytes b).toOption }
    | none => some acc
  else if name = "parents".toList then
    match kv.2.asArray with
    | some items => some { acc with parents := some (items.filterMap hashField) }
    | none => some acc
  else some acc

def decodeRevisionEntry (X : Platform) (entity : Entity) : Option RevisionEntryData := do
  let value ← (X.fromReader entity.data).toOption
  let fields ← (← value.asMap).foldlM scanEntryField ⟨none,none⟩
  return ⟨← fields.root,← fields.parents⟩

/-- Shorter keys first, equal lengths by the text. -/
def ecfKeyLe (a b : Value × Value) : Bool :=
  let text v := (Value.asText v).getD []
  (utf8 (text a.1)).length < (utf8 (text b.1)).length ||
    ((utf8 (text a.1)).length = (utf8 (text b.1)).length && text a.1 ≤ text b.1)

def sortFields (fields : List (Value × Value)) : List (Value × Value) :=
  fields.insertionSort fun a b => ecfKeyLe a b

def RevisionEntryData.toValue (d : RevisionEntryData) : Value :=
  .map (sortFields [(.text "parents".toList,.array (d.parents.map fun h => .bytes h.toBytes)),
    (.text "root".toList,.bytes d.root.toBytes)])

def RevisionEntryData.toEcfBytes (d : RevisionEntryData) : Bytes := toEcf d.toValue

def buildRevisionEntry (X : Platform) (d : RevisionEntryData) : Except String Entity :=
  mapErr EntityError.display (Entity.new X typeRevisionEntry d.toEcfBytes)

def sortedParents (parents : List Hash) : List Hash := parents.insertionSort (· ≤ ·)

def versionAt (X : Platform) (s : ContentStore) (h : Hash) : Option RevisionEntryData :=
  (s.get h).bind (decodeRevisionEntry X)

/-- The canonical marker of a deletion: an empty map under its own type. -/
def canonicalDeletionMarkerEntity (X : Platform) : Except EntityError Entity :=
  Entity.new X typeDeletionMarker [0xa0]

def canonicalDeletionMarkerHash (X : Platform) : Hash :=
  match canonicalDeletionMarkerEntity X with
  | .ok e => e.contentHash
  | .error _ => Hash.zero

/-! Paths. -/

def resolvePrefix (barePrefix localPeerId : Str) : Str :=
  if startsWith barePrefix ['/'] then barePrefix else '/'::localPeerId++ '/'::barePrefix

/-- The subtree key of a prefix. -/
def prefixHash (X : Platform) (absolutePrefix : Str) : Str :=
  (Hash.compute X "system/tree/path".toList (toEcf (.text absolutePrefix))).toHex

def revisionPath (pid ph : Str) (rest : String) : Str :=
  '/'::pid++ "/system/revision/".toList++ph++rest.toList

def revHeadPath (pid ph : Str) : Str := revisionPath pid ph "/head"
def revActiveBranchPath (pid ph : Str) : Str := revisionPath pid ph "/active-branch"
def revBranchPath (pid ph name : Str) : Str := revisionPath pid ph "/branches/"++name
def revConflictPath (pid ph path : Str) : Str := revisionPath pid ph "/conflicts/"++path
def revConfigPath (pid ph : Str) : Str := revisionPath pid ph "/config"

/-- Leading and trailing slashes stripped; `/` and the empty prefix become empty. -/
def canonicalizePrefix (barePrefix : Str) : Str := trimMatches '/' barePrefix

/-- The prefix the tracking config of a canonical prefix names. -/
def trackingPrefixField (canonical : Str) : Str :=
  if canonical.isEmpty then ['/'] else canonical++['/']

def qualifyTreePrefix (barePrefix localPeerId : Str) : Str :=
  if startsWith barePrefix ('/'::localPeerId++['/']) then barePrefix
  else '/'::localPeerId++ '/'::barePrefix

/-- What the live tree binds below a prefix, without the revision subtree. -/
def snapshotBindingsFromTree (index : MemoryLocationIndex) (barePrefix localPeerId : Str) :
    OrderedMap Str Hash :=
  let treePrefix := qualifyTreePrefix barePrefix localPeerId
  let revisionPrefix := '/'::localPeerId++ "/system/revision/".toList
  (index.list treePrefix).foldl (fun bindings e =>
    if startsWith e.1 revisionPrefix then bindings
    else
      let relative := (stripPrefix e.1 treePrefix).getD e.1
      if relative.isEmpty then bindings else bindings.insert relative e.2) .empty

/-! Configs. -/

/-- Match all, a subtree `lit/*`, a trailing literal `*lit`, or the exact text. -/
def globMatch (pattern subject : Str) : Bool :=
  if pattern = ['*'] then true
  else if endsWith pattern ['/','*'] then startsWith subject (pattern.take (pattern.length-1))
  else match stripPrefix pattern ['*'] with
    | some lit => endsWith subject lit
    | none => subject = pattern

def defaultMergeOrder : Str := "deterministic".toList
def defaultCheckoutPolicy : Str := "warn".toList

structure RevisionConfig where
  barePrefix : Str
  autoVersion : Bool
  mergeOrder : Str
  oscillationDepth : Option ℕ
  exclude : List Str
  excludeTypes : List Str
  checkoutUnderAutoVersion : Str
  deriving DecidableEq

structure RevisionConfigFields where
  barePrefix : Option Str
  autoVersion : Bool
  mergeOrder : Option Str
  oscillationDepth : Option ℕ
  exclude : List Str
  excludeTypes : List Str
  checkoutPolicy : Option Str

def scanRevisionConfigField (acc : RevisionConfigFields) (kv : Value × Value) :
    Option RevisionConfigFields := do
  let name ← kv.1.asText
  if name = "prefix".toList then some { acc with barePrefix := kv.2.asText }
  else if name = "auto_version".toList then
    some { acc with autoVersion := kv.2.asBool.getD false }
  else if name = "merge_order".toList then some { acc with mergeOrder := kv.2.asText }
  else if name = "oscillation_depth".toList then
    some { acc with oscillationDepth := kv.2.asInteger.map fun i => (i.val%2^64).toNat }
  else if name = "exclude".toList then some { acc with exclude := acc.exclude++textItems kv.2 }
  else if name = "exclude_types".toList then
    some { acc with excludeTypes := acc.excludeTypes++textItems kv.2 }
  else if name = "checkout_under_auto_version".toList then
    some { acc with checkoutPolicy := kv.2.asText }
  else some acc

def decodeRevisionConfig (X : Platform) (data : Bytes) : Option RevisionConfig := do
  let value ← (X.fromReader data).toOption
  let f ← (← value.asMap).foldlM scanRevisionConfigField ⟨none,false,none,none,[],[],none⟩
  return ⟨← f.barePrefix,f.autoVersion,f.mergeOrder.getD defaultMergeOrder,f.oscillationDepth,
    f.exclude,f.excludeTypes,f.checkoutPolicy.getD defaultCheckoutPolicy⟩

namespace RevisionConfig

/-- Whether a binding is kept out of versions, by its path or by its entity's type. An
entity the store lacks has no type to match. -/
def excludes (cfg : RevisionConfig) (s : ContentStore) (path : Str) (hash : Hash) : Bool :=
  cfg.exclude.any (globMatch · path) ||
    (s.get hash).any fun e => cfg.excludeTypes.any (globMatch · e.entityType)

def filterBindings (cfg : RevisionConfig) (s : ContentStore) (m : OrderedMap Str Hash) :
    OrderedMap Str Hash :=
  m.entries.foldl (fun filtered e =>
    if cfg.excludes s e.1 e.2 then filtered else filtered.insert e.1 e.2) .empty

end RevisionConfig

/-! Auto-version. -/

def maxHeadCasRetries : ℕ := 64

section Engine

variable (X : Platform) (fuel : ℕ)

/-- The tracked root with what the config excludes taken out. -/
def filteredRoot (cfg : RevisionConfig) (trackedRoot : Hash) :
    Action ContentStore TrieFailure Hash :=
  if cfg.exclude.isEmpty && cfg.excludeTypes.isEmpty then pure trackedRoot
  else do
    let filtered ← Action.reading fun s =>
      (collectAllBindings X s fuel trackedRoot).map (cfg.filterBindings s)
    buildTrie X filtered

/-- Whether the head already records a root. -/
def headRecords (s : ContentStore) (head : Option Hash) (root : Hash) : Bool :=
  (head.bind (versionAt X s)).any fun entry => entry.root = root

/-- What one attempt of the emit comes to before its compare-and-swap: nothing to do, or
a new entry in the store. -/
def emitEntry (cfg : RevisionConfig) (head : Option Hash) (trackedRoot : Hash) :
    Action ContentStore String (Option Hash) := fun s =>
  match filteredRoot X fuel cfg trackedRoot s with
  | (.error e,s') => (.error (RootTrackerEngine.failureText e),s')
  | (.ok versionRoot,s') =>
    if headRecords X s' head versionRoot then (.ok none,s')
    else match buildRevisionEntry X ⟨versionRoot,sortedParents head.toList⟩ with
      | .error m => (.error m,s')
      | .ok entry => (.ok (some entry.contentHash),s'.put entry)

/-! Commit. -/

/-- Every path the parent version binds and the target lacks becomes a deletion marker. -/
def augmentBindingsWithMarkers (target addedRelativeTo : OrderedMap Str Hash) (s : ContentStore) :
    OrderedMap Str Hash × ContentStore :=
  if addedRelativeTo.entries.any fun e => (target.get e.1).isNone then
    let s' := match canonicalDeletionMarkerEntity X with
      | .ok marker => s.put marker
      | .error _ => s
    (addedRelativeTo.entries.foldl (fun augmented e =>
      if (augmented.get e.1).isNone then augmented.insert e.1 (canonicalDeletionMarkerHash X)
      else augmented) target,s')
  else (target,s)

def configFor (s : ContentStore) (index : MemoryLocationIndex) (localPeerId ph : Str) :
    Option RevisionConfig := do
  let hash ← index.get (revConfigPath localPeerId ph)
  let entity ← s.get hash
  decodeRevisionConfig X entity.data

/-- The bindings a commit records: the live tree filtered, with markers for what the
parent version had. -/
def commitBindings (index : MemoryLocationIndex) (barePrefix localPeerId : Str) :
    Action ContentStore TrieFailure (OrderedMap Str Hash) := fun s =>
  let ph := prefixHash X (resolvePrefix barePrefix localPeerId)
  let raw := snapshotBindingsFromTree index barePrefix localPeerId
  let bindings := match configFor X s index localPeerId ph with
    | some cfg => cfg.filterBindings s raw
    | none => raw
  match (index.get (revHeadPath localPeerId ph)).bind (versionAt X s) with
  | none => (.ok bindings,s)
  | some parent => match collectAllBindings X s fuel parent.root with
    | .error e => (.error e,s)
    | .ok parentBindings =>
      let r := augmentBindingsWithMarkers X bindings parentBindings s
      (.ok r.1,r.2)

def commitRoot (index : MemoryLocationIndex) (barePrefix localPeerId : Str) :
    Action ContentStore TrieFailure Hash := do
  let bindings ← commitBindings X fuel index barePrefix localPeerId
  buildTrie X bindings

def activeBranchFields (s : ContentStore) (index : MemoryLocationIndex) (localPeerId ph : Str) :
    Option (List (Value × Value)) := do
  let hash ← index.get (revActiveBranchPath localPeerId ph)
  let entity ← s.get hash
  let value ← (X.fromReader entity.data).toOption
  value.asMap

/-- The texts under every `name` key of the active-branch entity. -/
def activeBranchNames (s : ContentStore) (index : MemoryLocationIndex) (localPeerId ph : Str) :
    List Str :=
  ((activeBranchFields X s index localPeerId ph).getD []).filterMap fun kv =>
    if kv.1.asText = key "name" then kv.2.asText else none

/-- The text under the first. -/
def readActiveBranch (s : ContentStore) (index : MemoryLocationIndex) (localPeerId ph : Str) :
    Option Str := do
  let map ← activeBranchFields X s index localPeerId ph
  let field ← map.find? fun kv => kv.1.asText = key "name"
  field.2.asText

structure CommitOutcome where
  versionHash : Hash
  rootHash : Hash
  parent : Option Hash

/-- Store the entry of a root over the head, or find that the head already has it. -/
def commitEntry (head : Option Hash) (rootHash : Hash) : Action ContentStore String (Option Hash) :=
  fun s =>
    if headRecords X s head rootHash then (.ok none,s)
    else match buildRevisionEntry X ⟨rootHash,sortedParents head.toList⟩ with
      | .error m => (.error m,s)
      | .ok entry => (.ok (some entry.contentHash),s.put entry)

def performCommit (index : MemoryLocationIndex) (barePrefix localPeerId : Str) (s : ContentStore) :
    Except String CommitOutcome × ContentStore × MemoryLocationIndex :=
  let ph := prefixHash X (resolvePrefix barePrefix localPeerId)
  let headPath := revHeadPath localPeerId ph
  let head := index.get headPath
  match commitRoot X fuel index barePrefix localPeerId s with
  | (.error e,s') => (.error (RootTrackerEngine.failureText e),s',index)
  | (.ok rootHash,s') => match commitEntry X head rootHash s' with
    | (.error m,s'') => (.error m,s'',index)
    | (.ok none,s'') =>
      let parent := (head.bind (versionAt X s'')).bind (·.parents.head?)
      (.ok ⟨head.getD Hash.zero,rootHash,parent⟩,s'',index)
    | (.ok (some versionHash),s'') =>
      let advanced := index.set headPath versionHash
      let branched := (activeBranchNames X s'' advanced localPeerId ph).foldl (fun index name =>
        index.set (revBranchPath localPeerId ph name) versionHash) advanced
      (.ok ⟨versionHash,rootHash,head⟩,s'',branched)

end Engine

/-! What is read back from the store. -/

variable {d : RevisionEntryData} {s t : ContentStore} {m : OrderedMap Str Hash}

section Facts

variable {X : Platform}

/-- The store returns trie nodes and version entries as they were put. -/
structure ContentStore.KeepsVersions (X : Platform) (s : ContentStore) : Prop where
  faithful : s.Faithful X
  entries : ∀ e ∈ s.puts, ∀ d : RevisionEntryData, e.data = d.toEcfBytes →
    X.fromReader e.data = .ok d.toValue

theorem RevisionEntryData.toValue_eq (d : RevisionEntryData) : d.toValue =
    .map [(.text "root".toList,.bytes d.root.toBytes),
      (.text "parents".toList,.array (d.parents.map fun h => .bytes h.toBytes))] := rfl

theorem hashField_bytes (h : Hash) : hashField (.bytes h.toBytes) = some h := by
  simp [hashField,Value.asBytes,Hash.fromBytes_toBytes,Except.toOption]

theorem scanEntryField_root {acc : EntryFields} {name : Str} (h : name = "root".toList) (b : Bytes) :
    scanEntryField acc (.text name,.bytes b) =
      some { acc with root := (Hash.fromBytes b).toOption } := by
  unfold scanEntryField
  show (if name = "root".toList then _ else _) = _
  rw [if_pos h]

theorem scanEntryField_parents {acc : EntryFields} {name : Str} (hne : name ≠ "root".toList)
    (h : name = "parents".toList) (items : List Value) :
    scanEntryField acc (.text name,.array items) =
      some { acc with parents := some (items.filterMap hashField) } := by
  unfold scanEntryField
  show (if name = "root".toList then _ else _) = _
  rw [if_neg hne,if_pos h]
  rfl

theorem decode_of_read {e : Entity}
    (h : X.fromReader e.data = .ok d.toValue) : decodeRevisionEntry X e = some d := by
  have hparents : (d.parents.map fun h => Value.bytes h.toBytes).filterMap hashField = d.parents := by
    rw [List.filterMap_map]
    have hsome : hashField ∘ (fun h : Hash => Value.bytes h.toBytes) = some :=
      funext fun h => hashField_bytes h
    rw [hsome,List.filterMap_some]
  have hne : "parents".toList ≠ "root".toList := by decide
  unfold decodeRevisionEntry
  rw [h,RevisionEntryData.toValue_eq]
  show (some _ >>= _) = _
  simp only [Option.bind_eq_bind,Option.bind_some,Value.asMap,List.foldlM_cons,List.foldlM_nil,
    scanEntryField_root rfl,scanEntryField_parents hne rfl,hparents,Hash.fromBytes_toBytes,
    Option.pure_def,Except.toOption]

theorem buildRevisionEntry_ok (hX : X.FormatAllocated) (d : RevisionEntryData) :
    ∃ e, buildRevisionEntry X d = .ok e := by
  have hnew : ∃ e, Entity.new X typeRevisionEntry d.toEcfBytes = .ok e :=
    Entity.new_ok hX (by decide) (by decide) (toEcf_map_ne_nil (sortFields _))
  obtain ⟨e,he⟩ := hnew
  refine ⟨e,?_⟩
  rw [buildRevisionEntry,mapErr_ok]
  exact he

theorem versionAt_put (ht : t.KeepsVersions X) (hst : s ≤ t) {e : Entity}
    (hbuild : buildRevisionEntry X d = .ok e) (he : e ∈ s.puts) :
    versionAt X s e.contentHash = some d := by
  have hnew : Entity.newWithFormat X typeRevisionEntry d.toEcfBytes X.defaultHashFormat = .ok e := by
    rw [buildRevisionEntry,mapErr_ok] at hbuild
    exact hbuild
  have hdata := (Entity.newWithFormat_ok X hnew).2.1
  have hread := ht.entries e (List.IsSuffix.mem he hst) d hdata
  rw [versionAt,ContentStore.get_of_mem ht.faithful hst he]
  exact decode_of_read hread

/-- What an earlier store of a run returns, a later one returns too. -/
theorem ContentStore.get_mono {s' : ContentStore} (ht : t.Faithful X) (hst : s ≤ s')
    (hle : s' ≤ t) {h : Hash} {e : Entity} (hg : s.get h = some e) : s'.get h = some e := by
  have hh : e.contentHash = h := by simpa using List.find?_some hg
  have hmem : e ∈ s.puts := List.mem_of_find?_eq_some hg
  rw [← hh]
  exact ContentStore.get_of_mem ht hle (List.IsSuffix.mem hmem hst)

theorem versionAt_mono {s' : ContentStore} (ht : t.Faithful X) (hst : s ≤ s') (hle : s' ≤ t)
    {h : Hash} (hv : versionAt X s h = some d) : versionAt X s' h = some d := by
  obtain ⟨e,he,hd⟩ := Option.bind_eq_some_iff.mp hv
  rw [versionAt,ContentStore.get_mono ht hst hle he]
  exact hd

/-! The listing. -/

/-- A binding of the snapshot is a binding of the index, read below the qualified prefix. -/
theorem get_snapshotBindingsFromTree (index : MemoryLocationIndex) (barePrefix localPeerId : Str)
    (rel : Str) : (snapshotBindingsFromTree index barePrefix localPeerId).get rel =
      if startsWith (qualifyTreePrefix barePrefix localPeerId++rel)
          ('/'::localPeerId++ "/system/revision/".toList) || rel.isEmpty then none
      else index.get (qualifyTreePrefix barePrefix localPeerId++rel) := by
  let q := qualifyTreePrefix barePrefix localPeerId
  let revisionPrefix := '/'::localPeerId++ "/system/revision/".toList
  let skip : Str → Bool := fun p => startsWith p revisionPrefix || (p.drop q.length).isEmpty
  have hlisted := RootTrackerEngine.get_listed index q skip rel
  have hfold : snapshotBindingsFromTree index barePrefix localPeerId =
      (index.list q).foldl (fun (bindings : OrderedMap Str Hash) e =>
        if skip e.1 then bindings else bindings.insert (e.1.drop q.length) e.2) .empty := by
    apply List.foldl_ext
    intro m e he
    obtain ⟨t,ht⟩ := ((index.mem_list q e.1 e.2).mp he).2
    have hstrip : (stripPrefix e.1 q).getD e.1 = e.1.drop q.length := by
      rw [← ht,(stripPrefix_eq_some _ _ t).mpr rfl,List.drop_left]
      rfl
    show (if startsWith e.1 revisionPrefix then m
      else if ((stripPrefix e.1 q).getD e.1).isEmpty then m
      else m.insert ((stripPrefix e.1 q).getD e.1) e.2) = _
    rw [hstrip]
    cases hrev : startsWith e.1 revisionPrefix <;>
      cases hempty : (e.1.drop q.length).isEmpty <;> simp [skip,hrev,hempty]
  rw [hfold,hlisted]
  simp only [skip,List.drop_left]
  rfl

/-! The filter. -/

theorem get_filterBindings (cfg : RevisionConfig) (s : ContentStore) (m : OrderedMap Str Hash)
    (k : Str) : (cfg.filterBindings s m).get k = (m.get k).filter fun h => !cfg.excludes s k h := by
  have hfold : cfg.filterBindings s m = (m.entries.filter fun e => !cfg.excludes s e.1 e.2).foldl
        (fun m e => m.insert e.1 e.2) .empty := by
    have hskip := RootTrackerEngine.foldl_skip (fun e : Str × Hash => cfg.excludes s e.1 e.2)
      Prod.fst Prod.snd m.entries .empty
    rw [List.map_id'] at hskip
    exact hskip
  have hnodup : ((m.entries.filter fun e => !cfg.excludes s e.1 e.2).map Prod.fst).Nodup :=
    m.keys_nodup.sublist (List.Sublist.map _ List.filter_sublist)
  rw [hfold,OrderedMap.get_foldl_insert _ hnodup,OrderedMap.get_empty,Option.or_none,
    OrderedMap.lookup_filter m.keys_nodup]
  rfl

theorem filterBindings_within (cfg : RevisionConfig) (s : ContentStore)
    {keys : Set Str} (h : Within m keys) : Within (cfg.filterBindings s m) keys := by
  intro e he
  have hget := (OrderedMap.mem_entries _ e.1 e.2).mp he
  rw [get_filterBindings] at hget
  obtain ⟨hm,-⟩ := Option.filter_eq_some_iff.mp hget
  exact h e ((OrderedMap.mem_entries m e.1 e.2).mpr hm)

theorem filterBindings_congr (cfg : RevisionConfig)
    (h : ∀ k v, m.get k = some v → s.get v = t.get v) :
    cfg.filterBindings s m = cfg.filterBindings t m := by
  apply OrderedMap.ext_get
  intro k
  rw [get_filterBindings,get_filterBindings]
  cases hk : m.get k with
  | none => rfl
  | some v =>
    have hsame : cfg.excludes s k v = cfg.excludes t k v := by
      unfold RevisionConfig.excludes
      rw [h k v hk]
    simp [Option.filter,hsame]

theorem filterBindings_of_plain {cfg : RevisionConfig} (h : cfg.exclude = [])
    (h' : cfg.excludeTypes = []) (s : ContentStore) (m : OrderedMap Str Hash) :
    cfg.filterBindings s m = m := by
  apply OrderedMap.ext_get
  intro k
  have hnone : ∀ v, cfg.excludes s k v = false := by
    intro v
    cases hs : s.get v <;> simp [RevisionConfig.excludes,h,h',hs]
  rw [get_filterBindings]
  cases m.get k <;> simp [Option.filter,hnone]

/-! Markers. -/

theorem get_addMarkers (marker : Hash) (l : List (Str × Hash)) (m : OrderedMap Str Hash) (k : Str) :
    (l.foldl (fun augmented e => if (augmented.get e.1).isNone then augmented.insert e.1 marker
      else augmented) m).get k =
      (m.get k).or (if k ∈ l.map Prod.fst then some marker else none) := by
  induction l generalizing m with
  | nil => simp
  | cons e l ih =>
    have hmem : k ≠ e.1 → (k ∈ (e::l).map Prod.fst ↔ k ∈ l.map Prod.fst) := by
      intro hk
      rw [List.map_cons,List.mem_cons]
      exact or_iff_right hk
    rw [List.foldl_cons,ih]
    cases he : m.get e.1 with
    | some h =>
      rw [if_neg (by simp)]
      by_cases hk : k = e.1
      · rw [hk,he]
        rfl
      · simp only [hmem hk]
    | none =>
      rw [if_pos (by simp),OrderedMap.get_insert]
      by_cases hk : k = e.1
      · rw [hk,he]
        simp
      · simp only [hmem hk,if_neg hk]

/-- An augmented map is the target, with the marker where only the other map has a binding. -/
theorem get_augment (target added : OrderedMap Str Hash) (s : ContentStore) (k : Str) :
    (augmentBindingsWithMarkers X target added s).1.get k = (target.get k).or
      (if (added.get k).isSome then some (canonicalDeletionMarkerHash X) else none) := by
  have hkeys : k ∈ added.entries.map Prod.fst ↔ (added.get k).isSome := by
    rw [List.mem_map,Option.isSome_iff_exists]
    constructor
    · rintro ⟨e,he,rfl⟩
      exact ⟨e.2,(added.mem_entries e.1 e.2).mp he⟩
    · rintro ⟨h,hh⟩
      exact ⟨(k,h),(added.mem_entries k h).mpr hh,rfl⟩
  unfold augmentBindingsWithMarkers
  split_ifs with hany hk
  · rw [get_addMarkers,if_pos (hkeys.mpr hk)]
  · rw [get_addMarkers,if_neg (fun hmem => hk (hkeys.mp hmem))]
  · -- nothing is missing, so the target has a binding here
    obtain ⟨h,hh⟩ := Option.isSome_iff_exists.mp ‹_›
    cases ht : target.get k with
    | none =>
      refine absurd (List.any_eq_true.mpr ⟨(k,h),(added.mem_entries k h).mpr hh,?_⟩) hany
      simp [ht]
    | some v => rfl
  · simp

theorem le_augment (target added : OrderedMap Str Hash) (s : ContentStore) :
    s ≤ (augmentBindingsWithMarkers X target added s).2 := by
  unfold augmentBindingsWithMarkers
  split_ifs
  · dsimp only
    cases canonicalDeletionMarkerEntity X with
    | ok marker => exact List.suffix_cons _ _
    | error e => exact le_rfl
  · exact le_rfl

theorem grows_buildTrie (m : OrderedMap Str Hash) : Action.Grows (buildTrie X m) := by
  unfold buildTrie
  refine Action.Grows.bind ?_ grows_storeTrieNode
  apply Action.Grows.foldlM
  intro n e
  exact grows_putAtNode levels n _ 0 e.1 e.2

theorem grows_filteredRoot (fuel : ℕ) (cfg : RevisionConfig) (root : Hash) :
    Action.Grows (filteredRoot X fuel cfg root) := by
  unfold filteredRoot
  split_ifs
  · exact Action.grows_pure root
  · exact (Action.grows_reading _).bind grows_buildTrie

/-- The filtered root of the trie of some bindings is the root of what the filter leaves. -/
theorem filteredRoot_spec (hX : X.FormatAllocated) (ht : t.Faithful X)
    {keys : Set Str} (hkeys : Spread X keys) {fuel : ℕ} (hfuel : levels ≤ fuel)
    (hm : Within m keys) (h : TrieStored X s m) (cfg : RevisionConfig)
    (hle : (filteredRoot X fuel cfg (rootHashOf X m) s).2 ≤ t) :
    ∃ s', filteredRoot X fuel cfg (rootHashOf X m) s =
        (.ok (rootHashOf X (cfg.filterBindings s m)),s') ∧
      TrieStored X s' (cfg.filterBindings s m) := by
  have hst : s ≤ t := (grows_filteredRoot fuel cfg _ s).trans hle
  unfold filteredRoot at hle ⊢
  by_cases hplain : (cfg.exclude.isEmpty && cfg.excludeTypes.isEmpty) = true
  · rw [if_pos hplain]
    simp only [Bool.and_eq_true,List.isEmpty_iff] at hplain
    rw [filterBindings_of_plain hplain.1 hplain.2]
    exact ⟨s,rfl,h⟩
  · rw [if_neg hplain] at hle ⊢
    have hread : (Action.reading fun s => (collectAllBindings X s fuel (rootHashOf X m)).map
        (cfg.filterBindings s) : Action ContentStore TrieFailure (OrderedMap Str Hash)) s =
        (.ok (cfg.filterBindings s m),s) := by
      rw [Action.reading_apply,collectAllBindings_spec ht hkeys hfuel hst hm h]
      rfl
    rw [Action.bind_of_ok hread] at hle ⊢
    exact buildTrie_spec hX ht hkeys (filterBindings_within cfg s hm) hle

end Facts

/-! Documents the samples read back. -/
namespace RevisionSample

open Sample

theorem wellFormed_version (h : d.toEcfBytes.length < 2^63) : WellFormed d.toValue := by
  have hparents : (encodeValue (.array (d.parents.map fun h => .bytes h.toBytes))).length ≤
      d.toEcfBytes.length :=
    length_le_encodeMap (e := (.text "parents".toList,.array (d.parents.map fun h => .bytes h.toBytes)))
      (List.mem_cons_of_mem _ List.mem_cons_self)
  have hkeys : [toEcf (.text "root".toList),toEcf (.text "parents".toList)].Nodup := by
    decide
  rw [RevisionEntryData.toValue_eq]
  refine .map (by simp) hkeys ?_ ?_
  · simp only [List.forall_mem_cons]
    exact ⟨.text (by decide),.text (by decide),by simp⟩
  · simp only [List.forall_mem_cons]
    refine ⟨wellFormed_hash d.root,wellFormed_array ?_ ?_ (by omega),by simp⟩
    · intro v hv
      obtain ⟨e,-,rfl⟩ := List.mem_map.mp hv
      exact encodeValue_bytes_ne_nil _
    · intro v hv hl
      obtain ⟨e,-,rfl⟩ := List.mem_map.mp hv
      exact wellFormed_hash e

theorem same_version {d' : RevisionEntryData} (h : Same d.toValue d'.toValue) : d = d' := by
  rw [RevisionEntryData.toValue_eq,RevisionEntryData.toValue_eq] at h
  obtain ⟨hroot,hparents⟩ :=
    same_fields (a := "root".toList) (b := "parents".toList) (by decide) h
  have hr := Hash.toBytes_inj (eq_of_same_bytes hroot)
  cases hparents with | array hdata =>
  have hp := eq_of_forall₂_same (fun a b hab => Hash.toBytes_inj (eq_of_same_bytes hab)) hdata
  cases d
  cases d'
  simp only [RevisionEntryData.mk.injEq]
  exact ⟨hr,hp⟩

theorem version_inj {d' : RevisionEntryData} (hl : d.toEcfBytes.length < 2^63)
    (h : d.toEcfBytes = d'.toEcfBytes) : d = d' :=
  same_version (((toEcf_identifies _ _ (wellFormed_version hl)
    (wellFormed_version (h ▸ hl))).1).mp h)

theorem toEcf_pair {a b : Str} (h : keyLe (toEcf (.text a)) (toEcf (.text b))) (x y : Value) :
    toEcf (.map [(.text a,x),(.text b,y)]) =
      encodeHead majorMap 2++(toEcf (.text a)++toEcf x++(toEcf (.text b)++toEcf y)) := by
  have hsort : [(toEcf (.text a),toEcf x),(toEcf (.text b),toEcf y)].insertionSort entryLe =
      [(toEcf (.text a),toEcf x),(toEcf (.text b),toEcf y)] := by
    have hle : entryLe (toEcf (.text a),toEcf x) (toEcf (.text b),toEcf y) := h
    rw [List.insertionSort_cons,List.insertionSort_cons,List.insertionSort_nil,
      List.orderedInsert_nil,List.orderedInsert_cons_of_le _ _ hle]
  show encodeHead majorMap 2++(List.insertionSort entryLe _).flatMap _ = _
  rw [show encodeEntries [(.text a,x),(.text b,y)] =
    [(toEcf (.text a),toEcf x),(toEcf (.text b),toEcf y)] by rfl,hsort]
  simp

/-- The first bytes tell nodes and version entries apart: their first keys differ. -/
theorem node_start (n : SnapshotNodeData) : n.toEcfBytes.take 2 = [0xa2,0x63] := by
  have hkeys : keyLe (toEcf (.text "map".toList)) (toEcf (.text "data".toList)) := by decide
  show (toEcf (.map [_,_])).take 2 = _
  rw [toEcf_pair hkeys]
  rfl

theorem version_start (d : RevisionEntryData) : d.toEcfBytes.take 2 = [0xa2,0x64] := by
  have hkeys : keyLe (toEcf (.text "root".toList)) (toEcf (.text "parents".toList)) := by
    decide
  show (toEcf d.toValue).take 2 = _
  rw [d.toValue_eq,toEcf_pair hkeys]
  rfl

theorem read_of_unique {documents : List Value} {digests : List (Bytes × ℕ)} {v : Value} {b : Bytes}
    (hv : v ∈ documents) (hb : toEcf v = b) (huniq : ∀ w ∈ documents, toEcf w = b → w = v) :
    (platform documents digests []).fromReader b = .ok v := by
  have hfind : ∃ w, documents.find? (fun w => toEcf w = b) = some w := by
    rw [← Option.isSome_iff_exists,List.find?_isSome]
    exact ⟨v,hv,decide_eq_true hb⟩
  obtain ⟨w,hw⟩ := hfind
  have hsame : w = v := by
    apply huniq w (List.mem_of_find?_eq_some hw)
    have hfound := List.find?_some hw
    exact of_decide_eq_true hfound
  show okOr _ _ = _
  rw [hw,hsame]
  rfl

def documentsOf (nodes : List SnapshotNodeData) (entries : List RevisionEntryData)
    (others : List Value) : List Value :=
  nodes.map SnapshotNodeData.toValue++entries.map RevisionEntryData.toValue++others

theorem mem_documentsOf {nodes : List SnapshotNodeData} {entries : List RevisionEntryData}
    {others : List Value} {v : Value} : v ∈ documentsOf nodes entries others ↔
      (∃ n ∈ nodes, n.toValue = v) ∨ (∃ d ∈ entries, d.toValue = v) ∨ v ∈ others := by
  simp only [documentsOf,List.mem_append,List.mem_map,or_assoc]

/-- The documents of a sample with the digests of their hash inputs. -/
structure World where
  nodes : List (SnapshotNodeData × ℕ)
  entries : List (RevisionEntryData × ℕ)
  others : List Value
  digests : List (Bytes × ℕ)

def World.crates (w : World) : Platform :=
  platform (documentsOf (w.nodes.map Prod.fst) (w.entries.map Prod.fst) w.others)
    (w.digests++(w.nodes.map fun n => (ecfForHash typeTreeSnapshotNode n.1.toEcfBytes,n.2))++
      w.entries.map fun d => (ecfForHash typeRevisionEntry d.1.toEcfBytes,d.2)) []

/-- The nodes and the version entries of a store are documents of the sample, and no other document
begins as they do. -/
def World.Knows (w : World) (s : ContentStore) : Prop :=
  (∀ n ∈ w.nodes, n.1.toEcfBytes.length < 2^63) ∧ (∀ d ∈ w.entries, d.1.toEcfBytes.length < 2^63) ∧
  (∀ v ∈ w.others, (toEcf v).take 2 ≠ [0xa2,0x63] ∧ (toEcf v).take 2 ≠ [0xa2,0x64]) ∧
  ∀ e ∈ s.puts, s.get e.contentHash = some e ∧
    (e.data.take 2 = [0xa2,0x63] → ∃ n ∈ w.nodes, n.1.toEcfBytes = e.data) ∧
    (e.data.take 2 = [0xa2,0x64] → ∃ d ∈ w.entries, d.1.toEcfBytes = e.data)

instance (w : World) (s : ContentStore) : Decidable (w.Knows s) :=
  inferInstanceAs (Decidable (_ ∧ _))

/-- The crates of the sample read each of them back. -/
theorem World.Knows.keepsVersions {w : World} (h : w.Knows s) : s.KeepsVersions w.crates := by
  have hne : ([0xa2,0x63] : Bytes) ≠ [0xa2,0x64] := by decide
  obtain ⟨hnodes,hentries,hothers,hret⟩ := h
  refine ⟨⟨fun e he => (hret e he).1,?_⟩,?_⟩
  · intro e he n hn
    have hstart : e.data.take 2 = [0xa2,0x63] := hn ▸ node_start n
    obtain ⟨x,hx,hdoc⟩ := (hret e he).2.1 hstart
    have hxn : x.1 = n := toEcfBytes_inj (hnodes x hx) (hdoc.trans hn)
    subst hxn
    refine read_of_unique (mem_documentsOf.mpr (.inl ⟨x.1,List.mem_map_of_mem hx,rfl⟩)) hdoc ?_
    intro v hv hb
    rcases mem_documentsOf.mp hv with ⟨y,hy,rfl⟩ | ⟨d,-,rfl⟩ | hother
    · obtain ⟨n,hn,rfl⟩ := List.mem_map.mp hy
      rw [toEcfBytes_inj (hnodes n hn) (hb.trans hdoc.symm)]
    · rw [← hb] at hstart
      exact absurd (hstart.symm.trans (version_start d)) hne
    · rw [← hb] at hstart
      exact absurd hstart (hothers v hother).1
  · intro e he d hd
    have hstart : e.data.take 2 = [0xa2,0x64] := hd ▸ version_start d
    obtain ⟨x,hx,hdoc⟩ := (hret e he).2.2 hstart
    have hxd : x.1 = d := version_inj (hentries x hx) (hdoc.trans hd)
    subst hxd
    refine read_of_unique (mem_documentsOf.mpr (.inr (.inl ⟨x.1,List.mem_map_of_mem hx,rfl⟩))) hdoc ?_
    intro v hv hb
    rcases mem_documentsOf.mp hv with ⟨n,-,rfl⟩ | ⟨y,hy,rfl⟩ | hother
    · rw [← hb] at hstart
      exact absurd ((node_start n).symm.trans hstart) hne
    · obtain ⟨d,hd,rfl⟩ := List.mem_map.mp hy
      rw [version_inj (hentries d hd) (hb.trans hdoc.symm)]
    · rw [← hb] at hstart
      exact absurd hstart (hothers v hother).2

def nodeEntity (n : SnapshotNodeData) (digest : ℕ) : Entity :=
  ⟨typeTreeSnapshotNode,n.toEcfBytes,sha256Hash digest⟩

def versionEntity (d : RevisionEntryData) (digest : ℕ) : Entity :=
  ⟨typeRevisionEntry,d.toEcfBytes,sha256Hash digest⟩

end RevisionSample

end EntityCore
