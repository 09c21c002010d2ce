import EntityCore.RevisionMerge

/-! The operations of the revision handler that bring a version into the live tree:
checkout, merge, cherry-pick and revert. They run over the content store and a location
index without hooks, so no write is halted. -/
namespace EntityCore

open Ecf Outcome ByteCode Strings

structure RevisionWorld where
  store : ContentStore
  index : MemoryLocationIndex

inductive HandlerError where
  | internal (message : String)
  | invalidParams (message : String)
  deriving DecidableEq

abbrev Handling (α : Type) : Type := Action RevisionWorld HandlerError α

structure CheckoutParams where
  barePrefix : Str
  branch : Option Str
  version : Option Hash

structure MergeParams where
  barePrefix : Str
  remoteVersion : Hash
  strategy : Option Str
  dryRun : Bool
  mergeOrder : Option Str

/-- For cherry-pick and revert. -/
structure VersionOpParams where
  barePrefix : Str
  version : Hash
  parent : Option Hash

inductive RevisionReply where
  | refused (status : ℕ) (code message : String)
  | merge (status : String) (version : Option Hash) (conflicts : List Str)
      (mergedCount deletedCount : ℕ)
  | cherryPick (status : String) (source version : Hash) (conflicts : ℕ)
  | revert (status : String) (reverted version : Hash) (conflicts : ℕ)
  | checkout (head targetVersion : Hash) (branch : Option Str) (noted uncommitted : Bool)
  deriving DecidableEq

def statusBadRequest : ℕ := 400

def Hash.display (h : Hash) : String :=
  String.ofList ((if h.algorithm = hashAlgorithmSha256 then "ecfv1-sha256".toList
    else if h.algorithm = hashAlgorithmSha384 then "ecfv1-sha384".toList
    else "ecfv1-unknown".toList)++ ':'::hexStr h.digest)

section Handlers

variable (X : Platform) (fuel : ℕ) (localPeerId : Str)

def searched {α : Type} (f : ContentStore → Except TrieFailure α) : Handling α :=
  .reading fun w => mapErr (fun e => .internal (RootTrackerEngine.failureText e)) (f w.store)

def onContent {α : Type} (m : Action ContentStore TrieFailure α) : Handling α :=
  .onPart RevisionWorld.store (fun w s => { w with store := s })
    (fun e => .internal (RootTrackerEngine.failureText e)) m

def getVersionBindings (version : Hash) : Handling (OrderedMap Str Hash) := .reading fun w =>
  match w.store.get version with
  | none => .error (.internal ("version entity not found: "++version.display))
  | some entity => match decodeRevisionEntry X entity with
    | none => .error (.internal "failed to decode revision entry")
    | some entry => mapErr (fun e => .internal (RootTrackerEngine.failureText e))
        (collectAllBindings X w.store fuel entry.root)

def setPath (path : Str) (hash : Hash) : Handling Unit :=
  .modify fun w => { w with index := w.index.set path hash }

def removePath (path : Str) : Handling Unit :=
  .modify fun w => { w with index := (w.index.remove path).2 }

/-- The head moves on, and the active branch with it. -/
def advanceHead (ph : Str) (version : Hash) : Handling Unit := do
  setPath (revHeadPath localPeerId ph) version
  let branch ← .reading fun w => .ok (readActiveBranch X w.store w.index localPeerId ph)
  match branch with
  | some name => setPath (revBranchPath localPeerId ph name) version
  | none => pure ()

def setActiveBranch (ph name : Str) : Handling Unit := .modify fun w =>
  match Entity.new X "system/revision/active-branch".toList
      (toEcf (.map [(.text "name".toList,.text name)])) with
  | .ok entity =>
    ⟨w.store.put entity,w.index.set (revActiveBranchPath localPeerId ph) entity.contentHash⟩
  | .error _ => w

/-- Whether the diff takes a path out of the tree. -/
def unbinds (target : OrderedMap Str Hash) (relPath : Str) : Bool :=
  (target.get relPath).isNone || target.get relPath = some (canonicalDeletionMarkerHash X)

/-- Take out what the target has not or has as a deletion, and bind the rest of it. -/
def applySnapshotDiff (barePrefix : Str) (current target : OrderedMap Str Hash) :
    Handling Unit := .modify fun w =>
  let treePrefix := qualifyTreePrefix barePrefix localPeerId
  let removed := (keysOf current).foldl (fun (index : MemoryLocationIndex) relPath =>
    if unbinds X target relPath then (index.remove (treePrefix++relPath)).2 else index) w.index
  { w with index := target.entries.foldl (fun (index : MemoryLocationIndex) e =>
      if e.2 = canonicalDeletionMarkerHash X then index
      else index.set (treePrefix++e.1) e.2) removed }

def applyDeletions (barePrefix : Str) (deletions : List Str) : Handling Unit := .modify fun w =>
  { w with index := deletions.foldl (fun (index : MemoryLocationIndex) path =>
      (index.remove (qualifyTreePrefix barePrefix localPeerId++path)).2) w.index }

def optionalHash (name : String) (hash : Option Hash) : List (Value × Value) :=
  (hash.map fun h => (Value.text name.toList,Value.bytes h.toBytes)).toList

/-- A conflict is recorded under the path it is about, over the record it supersedes. -/
def storeConflict (ph : Str) (localVersion remoteVersion : Hash) (info : ConflictInfo) :
    Handling Unit := fun w =>
  let conflictPath := revConflictPath localPeerId ph info.path
  let fields := optionalHash "base" info.base++optionalHash "local" info.localHash++
    [(.text "path".toList,.text info.path)]++optionalHash "remote" info.remoteHash++
    [(.text "strategy".toList,.text info.strategy)]++
    optionalHash "supersedes" (w.index.get conflictPath)++
    optionalHash "version_local" (some localVersion)++
    optionalHash "version_remote" (some remoteVersion)
  match Entity.new X "system/revision/conflict".toList (toEcf (.map (sortFields fields))) with
  | .error e => (.error (.internal e.display),w)
  | .ok entity =>
    (.ok (),⟨w.store.put entity,w.index.set conflictPath entity.contentHash⟩)

/-- The version of some bindings over some parents, in the store. -/
def createVersion (root : Hash) (parents : List Hash) : Handling Hash := fun w =>
  match buildRevisionEntry X ⟨root,sortedParents parents⟩ with
  | .error m => (.error (.internal m),w)
  | .ok entity => (.ok entity.contentHash,{ w with store := w.store.put entity })

def computeSnapshotBindings (barePrefix : Str) : Handling (OrderedMap Str Hash) :=
  .reading fun w => .ok (snapshotBindingsFromTree w.index barePrefix localPeerId)

/-- Bring a merge result into the tree: the difference between the live tree and the
merged bindings, then the deletions and the conflicts. -/
def applyMergeResult (barePrefix ph : Str) (result : MergeResult)
    (localVersion remoteVersion : Hash) : Handling Unit := do
  let current ← computeSnapshotBindings localPeerId barePrefix
  applySnapshotDiff X localPeerId barePrefix current result.bindings
  applyDeletions localPeerId barePrefix result.deletions
  result.conflicts.forM (storeConflict X localPeerId ph localVersion remoteVersion)

def readHead (ph : Str) : Handling (Option Hash) :=
  .reading fun w => .ok (w.index.get (revHeadPath localPeerId ph))

def loadPrefixConfig (ph : Str) : Handling (Option RevisionConfig) :=
  .reading fun w => .ok (configFor X w.store w.index localPeerId ph)

/-! Checkout. -/

def checkoutTarget (params : CheckoutParams) (ph : Str) : Handling (Hash × Option Str) :=
  .reading fun w => match params.branch, params.version with
    | some name, _ => match w.index.get (revBranchPath localPeerId ph name) with
      | some version => .ok (version,some name)
      | none => .error (.invalidParams ("branch '"++String.ofList name++ "' not found"))
    | none, some version => .ok (version,none)
    | none, none => .error (.invalidParams "must specify branch or version")

/-- The bindings of the committed head, none if it cannot be read. -/
def committedHeadBindings (ph : Str) : Handling (OrderedMap Str Hash) := .reading fun w =>
  match w.index.get (revHeadPath localPeerId ph) with
  | none => .ok .empty
  | some head => .ok (((getVersionBindings X fuel head w).1.toOption).getD .empty)

def handleCheckout (params : CheckoutParams) : Handling RevisionReply := do
  let ph := prefixHash X (resolvePrefix params.barePrefix localPeerId)
  let (targetVersion,targetBranch) ← checkoutTarget localPeerId params ph
  let config ← loadPrefixConfig X localPeerId ph
  let autoVersionOn := config.any (·.autoVersion)
  let policy := (config.map (·.checkoutUnderAutoVersion)).getD defaultCheckoutPolicy
  if autoVersionOn && policy = "deny".toList then
    return .refused statusBadRequest "checkout_denied_under_auto_version"
      ("checkout is denied while auto_version is enabled for this prefix "++
        "(checkout_under_auto_version=\"deny\"); use revision/diff, "++
        "revision/log, or revision/fetch for read-only inspection")
  let target ← getVersionBindings X fuel targetVersion
  let live ← computeSnapshotBindings localPeerId params.barePrefix
  let committed ← committedHeadBindings X fuel localPeerId ph
  setPath (revHeadPath localPeerId ph) targetVersion
  match targetBranch with
  | some name => setActiveBranch X localPeerId ph name
  | none => removePath (revActiveBranchPath localPeerId ph)
  applySnapshotDiff X localPeerId params.barePrefix committed target
  let finalHead := (← readHead localPeerId ph).getD targetVersion
  return .checkout finalHead targetVersion targetBranch
    (autoVersionOn && policy = "warn".toList && finalHead ≠ targetVersion) (committed ≠ live)

/-! Merge. -/

def fastForward (barePrefix ph : Str) (localHead remoteVersion : Hash) : Handling RevisionReply := do
  let localBindings ← getVersionBindings X fuel localHead
  advanceHead X localPeerId ph remoteVersion
  let remoteBindings ← getVersionBindings X fuel remoteVersion
  applySnapshotDiff X localPeerId barePrefix localBindings remoteBindings
  return .merge "fast_forward" (some remoteVersion) [] 0 0

def sameRoot (a b : Hash) : Handling Bool := .reading fun w =>
  match versionAt X w.store a, versionAt X w.store b with
  | some ea, some eb => .ok (ea.root = eb.root)
  | _, _ => .ok false

/-- The merge of two diverged versions over the ancestor the search finds. -/
def mergeVersions (mergeOrder : Str) (strategyOverride : Option Str) (localHead remoteVersion : Hash) :
    Handling MergeResult := do
  let ancestorHash ← searched fun s => findCommonAncestor X s fuel localHead remoteVersion
  let localBindings ← getVersionBindings X fuel localHead
  let remoteBindings ← getVersionBindings X fuel remoteVersion
  let ancestor ← match ancestorHash with
    | some a => some <$> getVersionBindings X fuel a
    | none => pure none
  let sides := normalizeMergeSides localBindings remoteBindings localHead remoteVersion mergeOrder
  .reading fun w => .ok (mergeSnapshots X w.store w.index localPeerId strategyOverride ancestor
    sides.1 sides.2)

def oscillationDepth (config : Option RevisionConfig) : ℕ :=
  ((config.bind (·.oscillationDepth)).map (max 2)).getD 8

/-- The merge version, unless it is one the head has been through. -/
def createMergeVersion (config : Option RevisionConfig) (result : MergeResult)
    (localHead remoteVersion : Hash) : Handling (Option Hash) := do
  let root ← onContent (buildTrie X result.bindings)
  let oscillates ← searched fun s => detectOscillation X s fuel root
    (sortedParents [localHead,remoteVersion]) localHead (oscillationDepth config)
  if oscillates then return none
  some <$> createVersion X root [localHead,remoteVersion]

def mergeDiverged (params : MergeParams) (ph : Str) (config : Option RevisionConfig)
    (localHead : Hash) : Handling RevisionReply := do
  let mergeOrder := (params.mergeOrder.or (config.map (·.mergeOrder))).getD defaultMergeOrder
  let result ← mergeVersions X fuel localPeerId mergeOrder params.strategy localHead
    params.remoteVersion
  let conflictPaths := result.conflicts.map (·.path)
  if params.dryRun then
    return .merge (if result.conflicts.isEmpty then "would_merge" else "would_conflict") none
      conflictPaths result.bindings.entries.length result.deletions.length
  match ← createMergeVersion X fuel config result localHead params.remoteVersion with
  | none => return .merge "oscillation_detected" none [] 0 0
  | some version =>
    advanceHead X localPeerId ph version
    applyMergeResult X localPeerId params.barePrefix ph result localHead params.remoteVersion
    return .merge (if conflictPaths.isEmpty then "merged" else "merged_with_conflicts")
      (some version) conflictPaths result.bindings.entries.length result.deletions.length

def handleMerge (params : MergeParams) : Handling RevisionReply := do
  let ph := prefixHash X (resolvePrefix params.barePrefix localPeerId)
  let config ← loadPrefixConfig X localPeerId ph
  match ← readHead localPeerId ph with
  | none => return .refused statusBadRequest "no_head" "no versions exist for this prefix"
  | some localHead =>
    match ← searched fun s => checkRelationship X s fuel localHead params.remoteVersion with
    | .inSync => return .merge "already_in_sync" none [] 0 0
    | .ahead => return .merge "already_ahead" none [] 0 0
    | .behind =>
      if params.dryRun then return .merge "would_merge" (some params.remoteVersion) [] 0 0
      else fastForward X fuel localPeerId params.barePrefix ph localHead params.remoteVersion
    | .diverged =>
      if ← sameRoot X localHead params.remoteVersion then
        return .merge "converged_identical" none [] 0 0
      else mergeDiverged X fuel localPeerId params ph config localHead

/-! Cherry-pick and revert. -/

/-- The parent a version is compared with: the one asked for, or its only one. -/
def selectParent (entry : RevisionEntryData) (specified : Option Hash) (initial : String) :
    Except RevisionReply Hash :=
  match entry.parents, specified with
  | [], _ => .error (.refused statusBadRequest "no_parent" initial)
  | parents, some p =>
    if p ∈ parents then .ok p
    else .error (.refused statusBadRequest "invalid_parent"
      "specified parent is not in version's parent list")
  | [p], none => .ok p
  | _, none => .error (.refused statusBadRequest "ambiguous_parent"
      "merge version has multiple parents — specify which parent to diff against")

def loadVersion (version : Hash) : Handling RevisionEntryData := .reading fun w =>
  match w.store.get version with
  | none => .error (.invalidParams "version not found")
  | some entity => okOr (decodeRevisionEntry X entity) (.invalidParams "invalid revision entry")

def requireHead (ph : Str) : Handling Hash := .reading fun w =>
  okOr (w.index.get (revHeadPath localPeerId ph)) (.invalidParams "no head for this prefix")

/-- The version of a merge result over the head, brought into the tree. -/
def adoptMergeResult (barePrefix ph : Str) (result : MergeResult) (localHead version : Hash) :
    Handling Hash := do
  let root ← onContent (buildTrie X result.bindings)
  let newVersion ← createVersion X root [localHead]
  advanceHead X localPeerId ph newVersion
  applyMergeResult X localPeerId barePrefix ph result localHead version
  return newVersion

def handleCherryPick (params : VersionOpParams) : Handling RevisionReply := do
  let ph := prefixHash X (resolvePrefix params.barePrefix localPeerId)
  let entry ← loadVersion X params.version
  match selectParent entry params.parent "cannot cherry-pick initial version (no parents)" with
  | .error refusal => return refusal
  | .ok parent =>
    let localHead ← requireHead localPeerId ph
    let ancestor ← getVersionBindings X fuel parent
    let localBindings ← getVersionBindings X fuel localHead
    let versionBindings ← getVersionBindings X fuel params.version
    let result ← .reading fun w => .ok (mergeSnapshots X w.store w.index localPeerId none
      (some ancestor) localBindings versionBindings)
    let newVersion ← adoptMergeResult X localPeerId params.barePrefix ph result localHead
      params.version
    return .cherryPick (if result.conflicts.isEmpty then "cherry_picked"
      else "cherry_picked_with_conflicts") params.version newVersion result.conflicts.length

/-- The parent's bindings with a marker where the version being undone added a path. -/
def withMarkers (target addedRelativeTo : OrderedMap Str Hash) : Handling (OrderedMap Str Hash) :=
  fun w =>
    let r := augmentBindingsWithMarkers X target addedRelativeTo w.store
    (.ok r.1,{ w with store := r.2 })

def handleRevert (params : VersionOpParams) : Handling RevisionReply := do
  let ph := prefixHash X (resolvePrefix params.barePrefix localPeerId)
  let entry ← loadVersion X params.version
  match selectParent entry params.parent "cannot revert initial version (no parents)" with
  | .error refusal => return refusal
  | .ok parent =>
    let localHead ← requireHead localPeerId ph
    let ancestor ← getVersionBindings X fuel params.version
    let localBindings ← getVersionBindings X fuel localHead
    let parentBindings ← getVersionBindings X fuel parent
    let restored ← withMarkers X parentBindings ancestor
    let result ← .reading fun w => .ok (mergeSnapshots X w.store w.index localPeerId none
      (some ancestor) localBindings restored)
    let newVersion ← adoptMergeResult X localPeerId params.barePrefix ph result localHead
      params.version
    return .revert (if result.conflicts.isEmpty then "reverted"
      else "reverted_with_conflicts") params.version newVersion result.conflicts.length

end Handlers

end EntityCore
