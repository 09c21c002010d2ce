import EntityCore.Revision

/-! The version graph and the three-way merge: ancestor searches over parent links, the
merge of two sets of bindings path by path, and the configs that say how a path is
merged. -/
namespace EntityCore

open Ecf Outcome ByteCode Strings

/-! The version graph. The searches take one version a round from a queue; `fuel`
bounds the rounds. -/

section Dag

variable (X : Platform) (s : ContentStore)

def parentsOf (version : Hash) : List Hash :=
  ((versionAt X s version).map (·.parents)).getD []

/-- Breadth first from the head, at most `limit` versions, stopping before `stopAt`. -/
def walkHistoryLoop (limit : ℕ) (stopAt : Option Hash) :
    ℕ → List Hash → Finset Hash → List Hash → Except TrieFailure (List Hash)
  | 0, _, _, _ => .error .outOfFuel
  | _+1, [], _, result => .ok result
  | fuel+1, current::queue, visited, result =>
    if limit ≤ result.length then .ok result
    else if current ∈ visited then walkHistoryLoop limit stopAt fuel queue visited result
    else if stopAt = some current then .ok result
    else match versionAt X s current with
      | none => walkHistoryLoop limit stopAt fuel queue (insert current visited) result
      | some entry => walkHistoryLoop limit stopAt fuel
          (queue++entry.parents.filter fun p => p ∉ insert current visited)
          (insert current visited) (result++[current])

def walkHistory (fuel : ℕ) (head : Hash) (limit : ℕ) (stopAt : Option Hash) :
    Except TrieFailure (List Hash) := walkHistoryLoop X s limit stopAt fuel [head] ∅ []

/-- One side of the search takes its next version: found on the other side, or noted
with its parents queued. -/
def expandSide (queue : List Hash) (own other : Finset Hash) :
    Hash ⊕ (List Hash × Finset Hash) :=
  match queue with
  | [] => .inr ([],own)
  | current::rest =>
    if current ∈ other then .inl current
    else if current ∈ own then .inr (rest,own)
    else .inr (rest++parentsOf X s current,insert current own)

def findCommonAncestorLoop :
    ℕ → List Hash → List Hash → Finset Hash → Finset Hash → Except TrieFailure (Option Hash)
  | 0, _, _, _, _ => .error .outOfFuel
  | fuel+1, queueA, queueB, ancestorsA, ancestorsB =>
    if queueA.isEmpty && queueB.isEmpty then .ok none
    else match expandSide X s queueA ancestorsA ancestorsB with
      | .inl found => .ok (some found)
      | .inr (queueA',ancestorsA') => match expandSide X s queueB ancestorsB ancestorsA' with
        | .inl found => .ok (some found)
        | .inr (queueB',ancestorsB') =>
          findCommonAncestorLoop fuel queueA' queueB' ancestorsA' ancestorsB'

/-- A common ancestor by breadth-first search from both sides in turn. -/
def findCommonAncestor (fuel : ℕ) (a b : Hash) : Except TrieFailure (Option Hash) :=
  findCommonAncestorLoop X s fuel [a] [b] ∅ ∅

def isAncestorLoop (potentialAncestor : Hash) :
    ℕ → List Hash → Finset Hash → Except TrieFailure Bool
  | 0, _, _ => .error .outOfFuel
  | _+1, [], _ => .ok false
  | fuel+1, current::queue, visited =>
    if current = potentialAncestor then .ok true
    else if current ∈ visited then isAncestorLoop potentialAncestor fuel queue visited
    else isAncestorLoop potentialAncestor fuel (queue++parentsOf X s current)
      (insert current visited)

def isAncestor (fuel : ℕ) (potentialAncestor descendant : Hash) : Except TrieFailure Bool :=
  isAncestorLoop X s potentialAncestor fuel [descendant] ∅

inductive Relationship where
  | inSync
  | behind
  | ahead
  | diverged
  deriving DecidableEq

def checkRelationship (fuel : ℕ) (localHead remote : Hash) : Except TrieFailure Relationship := do
  if localHead = remote then return .inSync
  if ← isAncestor X s fuel localHead remote then return .behind
  if ← isAncestor X s fuel remote localHead then return .ahead
  return .diverged

/-- Whether a version of the proposed root and parents is among the recent ancestors. -/
def detectOscillation (fuel : ℕ) (proposedRoot : Hash) (proposedParents : List Hash) (head : Hash)
    (depthLimit : ℕ) : Except TrieFailure Bool := do
  let versions ← walkHistory X s fuel head depthLimit none
  return versions.any fun v => (versionAt X s v).any fun entry =>
    entry.root = proposedRoot && sortedParents entry.parents = sortedParents proposedParents

end Dag

/-! How a path is merged. -/

inductive DeletionResolution where
  | preserveOnConflict
  | deletionWins
  | threeWayFallthrough
  | deterministic
  deriving DecidableEq

def DeletionResolution.parse (text : Str) : Option DeletionResolution :=
  if text = "preserve-on-conflict".toList then some .preserveOnConflict
  else if text = "deletion-wins".toList then some .deletionWins
  else if text = "three-way-fallthrough".toList then some .threeWayFallthrough
  else if text = "deterministic".toList then some .deterministic
  else none

inductive MergeStrategy where
  | threeWay
  | sourceWins
  | targetWins
  | manual
  | keepBoth
  | handler (path : Str)
  | unresolvable (name : Str)
  deriving DecidableEq

def strategyHandlerSentinel : Str := "handler".toList

/-- Unicode white space, as trimming knows it. -/
def isWhitespace (c : Char) : Bool :=
  let n := c.toNat
  (0x9 ≤ n && n ≤ 0xd) || n = 0x20 || n = 0x85 || n = 0xa0 || n = 0x1680 ||
    (0x2000 ≤ n && n ≤ 0x200a) || n = 0x2028 || n = 0x2029 || n = 0x202f || n = 0x205f || n = 0x3000

namespace MergeStrategy

/-- A strategy's name with its companion handler path. Names outside the table are as
good as no config. -/
def parse (strategy : Str) (handler : Option Str) : Option MergeStrategy :=
  if strategy = "three-way".toList then some .threeWay
  else if strategy = "source-wins".toList then some .sourceWins
  else if strategy = "target-wins".toList then some .targetWins
  else if strategy = "manual".toList then some .manual
  else if strategy = "keep-both".toList then some .keepBoth
  else if strategy = "lww".toList then some (.unresolvable "lww".toList)
  else if strategy = strategyHandlerSentinel then
    match handler with
    | some p => if p.all isWhitespace then some (.unresolvable strategyHandlerSentinel)
        else some (.handler p)
    | none => some (.unresolvable strategyHandlerSentinel)
  else none

def asStr : MergeStrategy → Str
  | .threeWay => "three-way".toList
  | .sourceWins => "source-wins".toList
  | .targetWins => "target-wins".toList
  | .manual => "manual".toList
  | .keepBoth => "keep-both".toList
  | .handler _ => strategyHandlerSentinel
  | .unresolvable name => name

end MergeStrategy

/-- How specific a pattern is: its form first, then the length of its literal. -/
def patternSpecificity (pattern : Str) : ℕ × ℕ :=
  if pattern = ['*'] then (0,0)
  else match stripSuffix pattern ['/','*'] with
    | some lit => (2,(utf8 lit).length+1)
    | none => match stripPrefix pattern ['*'] with
      | some lit => (1,(utf8 lit).length)
      | none => (3,(utf8 pattern).length)

/-- A config that matches a path, with what ranks it. -/
structure Candidate (α : Type) where
  pattern : Str
  name : Str
  value : α

namespace Candidate

variable {α : Type}

/-- The more specific pattern, then the lower pattern, then the lower name. -/
def moreSpecific (cand best : Candidate α) : Bool :=
  let c := patternSpecificity cand.pattern
  let b := patternSpecificity best.pattern
  if b.1 < c.1 ∨ (b.1 = c.1 ∧ b.2 < c.2) then true
  else if c = b then
    if cand.pattern < best.pattern then true
    else if best.pattern < cand.pattern then false
    else cand.name < best.name
  else false

def better (best : Option (Candidate α)) (cand : Candidate α) : Option (Candidate α) :=
  match best with
  | none => some cand
  | some b => if cand.moreSpecific b then some cand else some b

end Candidate

/-- The last segment of a config's path. -/
def configNameOf (path : Str) : Str := ((segments '/' path).getLast?).getD []

structure MergeConfigFields where
  pattern : Option Str
  strategyName : Option Str
  handler : Option Str
  deletion : Option DeletionResolution

/-- The fields of a merge config; a key that is not text is passed over. -/
def scanMergeConfigField (acc : MergeConfigFields) (kv : Value × Value) : MergeConfigFields :=
  if kv.1.asText = key "pattern" then { acc with pattern := kv.2.asText }
  else if kv.1.asText = key "strategy" then { acc with strategyName := kv.2.asText }
  else if kv.1.asText = key "handler" then { acc with handler := kv.2.asText }
  else if kv.1.asText = key "deletion_resolution" then
    { acc with deletion := kv.2.asText.bind DeletionResolution.parse }
  else acc

section Configs

variable (X : Platform)

def mergeConfigFields (data : Bytes) : MergeConfigFields :=
  match (X.fromReader data).toOption.bind Value.asMap with
  | some map => map.foldl scanMergeConfigField ⟨none,none,none,none⟩
  | none => ⟨none,none,none,none⟩

def mergeStrategyOf (data : Bytes) : Option MergeStrategy :=
  let f := mergeConfigFields X data
  f.strategyName.bind fun name => MergeStrategy.parse name f.handler

def mergeConfigPath (localPeerId : Str) (rest : String) : Str :=
  '/'::localPeerId++ "/system/revision/config/merge/".toList++rest.toList

variable (s : ContentStore) (index : MemoryLocationIndex) (localPeerId : Str)

/-- The best of the path configs that match and carry a value. -/
def bestPathConfig {α : Type} (valueOf : Bytes → Option α) (path : Str) : Option α :=
  ((index.list (mergeConfigPath localPeerId "path/")).foldl (fun best e =>
    match s.get e.2 with
    | none => best
    | some config => match (mergeConfigFields X config.data).pattern, valueOf config.data with
      | some pattern, some value =>
        if globMatch pattern path then Candidate.better best ⟨pattern,configNameOf e.1,value⟩
        else best
      | _, _ => best) none).map (·.value)

def findDeletionResolution (path : Str) : DeletionResolution :=
  (bestPathConfig X s index localPeerId (fun data => (mergeConfigFields X data).deletion)
    path).getD .preserveOnConflict

def typeStrategy (typeName : Str) : Option MergeStrategy := do
  let hash ← index.get (mergeConfigPath localPeerId "type/"++typeName)
  let config ← s.get hash
  mergeStrategyOf X config.data

/-- The override, then the configs of the two types, then the path configs. -/
def findMergeStrategy (path : Str) (overrideStrategy : Option Str) (localHash remoteHash : Hash) :
    MergeStrategy :=
  match overrideStrategy.bind fun o => MergeStrategy.parse o none with
  | some strategy => strategy
  | none =>
    let types := ([localHash,remoteHash].filterMap s.get).map (·.entityType)
    match types.findSome? (typeStrategy X s index localPeerId) with
    | some strategy => strategy
    | none => (bestPathConfig X s index localPeerId (mergeStrategyOf X) path).getD .threeWay

end Configs

/-! The merge of one path and of all of them. -/

structure ConflictInfo where
  path : Str
  base : Option Hash
  localHash : Option Hash
  remoteHash : Option Hash
  strategy : Str
  deriving DecidableEq

/-- What a merge makes of one path. -/
structure PathMerge where
  binding : Option Hash
  deleted : Bool
  conflict : Option ConflictInfo
  additional : Option (Str × Hash)
  deriving DecidableEq

namespace PathMerge

def keep (h : Hash) : PathMerge := ⟨some h,false,none,none⟩

end PathMerge

structure MergeResult where
  mergedBindings : OrderedMap Str Hash
  deletions : List Str
  conflicts : List ConflictInfo
  additionalBindings : List (Str × Hash)

/-- The path a kept remote entity is given beside the local one. -/
def keepBothPath (path : Str) (remote : Hash) : Str :=
  path++ ".keep-both-".toList++Hash.hexStr (remote.digest.take 4)

section Merge

variable (X : Platform) (s : ContentStore) (index : MemoryLocationIndex) (localPeerId : Str)
  (strategyOverride : Option Str)

/-- One side is the deletion marker and the other an entity. -/
def mergeMarker (path : Str) (base : Option Hash) (l r : Hash) : PathMerge :=
  let marker := canonicalDeletionMarkerHash X
  if base = some l then ⟨some r,decide (r = marker),none,none⟩
  else if base = some r then ⟨some l,decide (l = marker),none,none⟩
  else match findDeletionResolution X s index localPeerId path with
    | .preserveOnConflict => .keep (if l = marker then r else l)
    | .deletionWins => ⟨some marker,true,none,none⟩
    | .threeWayFallthrough => ⟨some l,false,
        some ⟨path,base,some l,some r,"three-way-fallthrough".toList⟩,none⟩
    | .deterministic =>
      let winner := if l < r then l else r
      ⟨some winner,decide (winner = marker),none,none⟩

/-- Both sides have an entity, and not the same one. -/
def mergeEdits (path : Str) (base : Option Hash) (l r : Hash) : PathMerge :=
  let strategy := findMergeStrategy X s index localPeerId path strategyOverride l r
  match strategy with
  | .sourceWins => .keep r
  | .targetWins => .keep l
  | .threeWay =>
    if base = some l then .keep r
    else if base = some r then .keep l
    else ⟨some l,false,some ⟨path,base,some l,some r,"three-way".toList⟩,none⟩
  | .keepBoth => ⟨some l,false,none,some (keepBothPath path r,r)⟩
  | .manual => ⟨some l,false,some ⟨path,base,some l,some r,strategy.asStr⟩,none⟩
  | .handler _ => ⟨some l,false,some ⟨path,base,some l,some r,strategy.asStr⟩,none⟩
  | .unresolvable _ => ⟨some l,false,some ⟨path,base,some l,some r,strategy.asStr⟩,none⟩

/-- A side without a binding has no opinion; only the marker deletes. -/
def mergePath (path : Str) (base localHash remoteHash : Option Hash) : PathMerge :=
  match localHash, remoteHash with
  | none, none => ⟨none,false,none,none⟩
  | some l, none => .keep l
  | none, some r => .keep r
  | some l, some r =>
    if l = r then .keep l
    else if xor (l = canonicalDeletionMarkerHash X) (r = canonicalDeletionMarkerHash X) then
      mergeMarker X s index localPeerId path base l r
    else mergeEdits X s index localPeerId strategyOverride path base l r

def MergeResult.add (result : MergeResult) (path : Str) (m : PathMerge) : MergeResult :=
  ⟨match m.binding with
    | some h => result.mergedBindings.insert path h
    | none => result.mergedBindings,
    if m.deleted then result.deletions++[path] else result.deletions,
    result.conflicts++m.conflict.toList,result.additionalBindings++m.additional.toList⟩

def keysOf (m : OrderedMap Str Hash) : List Str := m.entries.map Prod.fst

/-- Every path of the three, in order. -/
def allPaths (base localBindings remoteBindings : OrderedMap Str Hash) : List Str :=
  (keysOf base++keysOf localBindings++keysOf remoteBindings).dedup.insertionSort (· ≤ ·)

def mergeSnapshots (ancestor : Option (OrderedMap Str Hash))
    (localBindings remoteBindings : OrderedMap Str Hash) : MergeResult :=
  let base := ancestor.getD .empty
  (allPaths base localBindings remoteBindings).foldl (fun result path =>
    result.add path (mergePath X s index localPeerId strategyOverride path (base.get path)
      (localBindings.get path) (remoteBindings.get path))) ⟨.empty,[],[],[]⟩

/-- The merged bindings with the additional ones folded in. -/
def MergeResult.bindings (result : MergeResult) : OrderedMap Str Hash :=
  result.additionalBindings.foldl (fun m e => m.insert e.1 e.2) result.mergedBindings

end Merge

/-- With a deterministic order the lower version is the local side. -/
def normalizeMergeSides {α : Type} (localSide remoteSide : α) (localVersion remoteVersion : Hash)
    (mergeOrder : Str) : α × α :=
  if mergeOrder = "deterministic".toList ∧ remoteVersion < localVersion then (remoteSide,localSide)
  else (localSide,remoteSide)

end EntityCore
