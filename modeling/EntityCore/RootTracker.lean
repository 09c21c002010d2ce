import EntityCore.Store
import EntityCore.TrieHistory

/-! The incremental root tracker: a synchronous tree hook that keeps, for every enabled
tracking config, the root of the trie of the bindings under the config's prefix. -/
namespace EntityCore

open Ecf Outcome ByteCode Strings

structure TrackingConfig where
  barePrefix : Str
  enabled : Bool
  deriving DecidableEq

def typeTrackingConfig : Str := "system/tree/tracking-config".toList

def publishedRootHandlerPattern : Str := "system/peer/published-root".toList

def maxRootCasRetries : ℕ := 64

/-- Consumers whose writes describe the tree; the tracker passes over them. -/
def isFeedbackLoopHandler (pattern : Str) : Bool :=
  pattern = publishedRootHandlerPattern || pattern = "system/history".toList

/-- Leading and trailing slashes stripped. -/
def canonicalPrefix (barePrefix : Str) : Str :=
  (barePrefix.dropWhile (· = '/')).rdropWhile (· = '/')

structure ConfigFields where
  barePrefix : Option Str
  enabled : Option Bool

def scanConfigField (acc : ConfigFields) (kv : Value × Value) : Option ConfigFields := do
  let name ← kv.1.asText
  if name = "prefix".toList then some { acc with barePrefix := kv.2.asText }
  else if name = "enabled".toList then some { acc with enabled := kv.2.asBool }
  else some acc

def decodeTrackingConfig (X : Platform) (entity : Entity) : Option TrackingConfig :=
  if entity.entityType ≠ typeTrackingConfig then none
  else do
    let value ← (X.fromReader entity.data).toOption
    let fields ← (← value.asMap).foldlM scanConfigField ⟨none,none⟩
    let barePrefix ← fields.barePrefix
    if !endsWith barePrefix ['/'] then none
    else some ⟨barePrefix,fields.enabled.getD false⟩

/-- What the engine keeps beside the index: the content store and the decoded configs. -/
structure TrackerWorld where
  store : ContentStore
  cachedConfigs : List TrackingConfig

abbrev TrackedIndex := NotifyingLocationIndex TrackerWorld

namespace NotifyingLocationIndex

def withStore (s : TrackedIndex) (store : ContentStore) : TrackedIndex :=
  { s with world := { s.world with store := store } }

def withConfigs (s : TrackedIndex) (configs : List TrackingConfig) : TrackedIndex :=
  { s with world := { s.world with cachedConfigs := configs } }

/-- Run a computation over the content store. -/
def onStore {α : Type} (m : Action ContentStore TrieFailure α) (s : TrackedIndex) :
    Except TrieFailure α × TrackedIndex :=
  let r := m s.world.store
  (r.1,s.withStore r.2)

end NotifyingLocationIndex

structure RootTrackerEngine where
  localPeerId : Str

namespace RootTrackerEngine

variable (X : Platform) (fuel : ℕ) (E : RootTrackerEngine)

def rootPathExact : Str := '/'::E.localPeerId++ "/system/tree/root".toList

def rootPathPrefix : Str := E.rootPathExact++['/']

def configPathPrefix : Str := '/'::E.localPeerId++ "/system/tree/tracking-config/".toList

def qualifiedRootPath (barePrefix : Str) : Str :=
  let p := canonicalPrefix barePrefix
  if p.isEmpty then E.rootPathExact else E.rootPathPrefix++p

def qualifiedBarePrefix (barePrefix : Str) : Str :=
  let p := canonicalPrefix barePrefix
  if p.isEmpty then '/'::E.localPeerId++['/'] else '/'::E.localPeerId++ '/'::p++['/']

/-- One of the tracker's own output bindings. -/
def isSelfPath (path : Str) : Bool := path = E.rootPathExact || startsWith path E.rootPathPrefix

def loadAllConfigs (s : TrackedIndex) : List TrackingConfig :=
  (s.inner.list E.configPathPrefix).filterMap fun e =>
    (s.world.store.get e.2).bind (decodeTrackingConfig X)

def refreshCache (s : TrackedIndex) : TrackedIndex := s.withConfigs (E.loadAllConfigs X s)

/-- The bindings a rebuild collects: everything under the prefix but the tracker's own
output, keyed by the path below the prefix. -/
def bindingsUnder (index : MemoryLocationIndex) (barePrefix : Str) : OrderedMap Str Hash :=
  let qualified := E.qualifiedBarePrefix barePrefix
  (index.list qualified).foldl (fun bindings e =>
    if E.isSelfPath e.1 then bindings
    else bindings.insert (e.1.drop qualified.length) e.2) .empty

def rebuildPrefix (c : Consumers TrackerWorld) (barePrefix : Str) (s : TrackedIndex) :
    TrackedIndex :=
  let (result,s') := s.onStore (buildTrie X (E.bindingsUnder s.inner barePrefix))
  match result with
  | .ok root => (NotifyingLocationIndex.setImpl c (E.qualifiedRootPath barePrefix) root none s').state
  | .error _ => s'

def removeTrackedRoot (c : Consumers TrackerWorld) (barePrefix : Str)
    (ctx : Option ExecutionContext) (s : TrackedIndex) : TrackedIndex :=
  (NotifyingLocationIndex.removeImpl c (E.qualifiedRootPath barePrefix) ctx s).state

/-- What an event asks of a trie. -/
def updateOp (rel : Str) : Option Hash → TrieOp
  | some new => .put rel new
  | none => .remove rel

def trieUpdate (root : Option Hash) (rel : Str) (newHash : Option Hash) :
    Action ContentStore TrieFailure Hash := (updateOp rel newHash).run X fuel root

def failureText : TrieFailure → String
  | .message text => text
  | .panicked text => text
  | .outOfFuel => "out of fuel"

def racesLost (path : Str) : String :=
  "tracked root at "++String.ofList path++ " lost "++toString maxRootCasRetries++
    " CAS races — this event is not reflected in the root"

/-- The compare-and-swap that moves the tracked root on, or creates it. -/
def swapRoot (c : Consumers TrackerWorld) (path : Str) (currentRoot : Option Hash) (newRoot : Hash)
    (ctx : ExecutionContext) (s : TrackedIndex) : Except CasError Unit × TrackedIndex :=
  match currentRoot with
  | some expected =>
    let r := NotifyingLocationIndex.casSwapImpl c path expected newRoot (some ctx) s
    (r.reply.map fun _ => (),r.state)
  | none =>
    let r := NotifyingLocationIndex.casCreateImpl c path newRoot (some ctx) s
    (r.reply.map fun _ => (),r.state)

/-- Read, recompute, compare and swap, for as many attempts as are left. -/
def retryLoop (c : Consumers TrackerWorld) (path rel : Str) (newHash : Option Hash)
    (ctx : ExecutionContext) : ℕ → TrackedIndex → Except String Unit × TrackedIndex
  | 0, s => (.error (racesLost path),s)
  | attempts+1, s =>
    let currentRoot := s.inner.get path
    let (result,s') := s.onStore (trieUpdate X fuel currentRoot rel newHash)
    match result with
    | .error e => (.error (failureText e),s')
    | .ok newRoot =>
      if currentRoot = some newRoot then (.ok (),s')
      else
        let (outcome,s'') := swapRoot c path currentRoot newRoot ctx s'
        match outcome with
        | .ok () => (.ok (),s'')
        | .error _ => retryLoop c path rel newHash ctx attempts s''

def applyEvent (c : Consumers TrackerWorld) (barePrefix : Str) (event : TreeChangeEvent)
    (ctx : ExecutionContext) (s : TrackedIndex) : Except String Unit × TrackedIndex :=
  let qualified := E.qualifiedBarePrefix barePrefix
  if !startsWith event.path qualified then (.ok (),s)
  else retryLoop X fuel c (E.qualifiedRootPath barePrefix) (event.path.drop qualified.length)
    event.newHash ctx maxRootCasRetries s

def configAt (s : TrackedIndex) (hash : Option Hash) : Option TrackingConfig :=
  (hash.bind s.world.store.get).bind (decodeTrackingConfig X)

def handleConfigChange (c : Consumers TrackerWorld) (event : TreeChangeEvent)
    (ctx : ExecutionContext) (s : TrackedIndex) : TrackedIndex :=
  match configAt X s event.previousHash, configAt X s event.newHash with
  | none, some cfg => if cfg.enabled then E.rebuildPrefix X c cfg.barePrefix s else s
  | some prev, some cfg =>
    if prev.barePrefix ≠ cfg.barePrefix then
      let cleared := E.removeTrackedRoot c prev.barePrefix (some ctx) s
      if cfg.enabled then E.rebuildPrefix X c cfg.barePrefix cleared else cleared
    else if prev.enabled && !cfg.enabled then E.removeTrackedRoot c cfg.barePrefix (some ctx) s
    else if !prev.enabled && cfg.enabled then E.rebuildPrefix X c cfg.barePrefix s
    else s
  | some prev, none => E.removeTrackedRoot c prev.barePrefix (some ctx) s
  | none, none => s

def trackerName : Str := "tree/root-tracker".toList

def updateFailed (message : String) : CascadeHalt :=
  ⟨trackerName,500,"tracked-root update failed: "++message,false⟩

/-- The event goes to every enabled config in turn, until one fails. -/
def applyAll (c : Consumers TrackerWorld) (event : TreeChangeEvent) (ctx : ExecutionContext) :
    List TrackingConfig → TrackedIndex → Except CascadeHalt Unit × TrackedIndex
  | [], s => (.ok (),s)
  | cfg::rest, s =>
    if !cfg.enabled then applyAll c event ctx rest s
    else
      let (result,s') := E.applyEvent X fuel c cfg.barePrefix event ctx s
      match result with
      | .ok () => applyAll c event ctx rest s'
      | .error e => (.error (updateFailed e),s')

def onTreeChange (c : Consumers TrackerWorld) (event : TreeChangeEvent) (ctx : ExecutionContext)
    (s : TrackedIndex) : Except CascadeHalt Unit × ExecutionContext × TrackedIndex :=
  if E.isSelfPath event.path then (.ok (),ctx,s)
  else if (event.context.bind (·.handlerPattern)).any isFeedbackLoopHandler then (.ok (),ctx,s)
  else if startsWith event.path E.configPathPrefix then
    (.ok (),ctx,E.refreshCache X (E.handleConfigChange X c event ctx s))
  else
    let (result,s') := E.applyAll X fuel c event ctx s.world.cachedConfigs s
    (result,ctx,s')

/-- The dispatcher with the engine registered. A hook's own writes go through the same
dispatcher one level deeper, and no write passes the depth limit. -/
def consumers : ℕ → Consumers TrackerWorld
  | 0 => ⟨[],fun _ s => s⟩
  | n+1 => ⟨[⟨trackerName,"system/tree".toList,E.onTreeChange X fuel (consumers n)⟩],fun _ s => s⟩

/-- Startup: build the trie of every enabled config found. -/
def bootstrap (s : TrackedIndex) : TrackedIndex :=
  let configs := E.loadAllConfigs X s
  (configs.foldl (fun s cfg => if cfg.enabled
    then E.rebuildPrefix X (E.consumers X fuel cascadeDepthLimit) cfg.barePrefix s else s)
    s).withConfigs configs

/-! What the bindings under a prefix are. -/

variable {E}

theorem qualifiedRootPath_self (barePrefix : Str) :
    E.isSelfPath (E.qualifiedRootPath barePrefix) = true := by
  unfold qualifiedRootPath isSelfPath
  dsimp only
  split_ifs
  · simp
  · simp

theorem foldl_skip {α β γ : Type} [LinearOrder β] (skip : α → Bool) (k : α → β) (v : α → γ)
    (l : List α) (m : OrderedMap β γ) :
    l.foldl (fun m e => if skip e then m else m.insert (k e) (v e)) m =
      ((l.filter fun e => !skip e).map fun e => (k e,v e)).foldl (fun m e => m.insert e.1 e.2) m := by
  induction l generalizing m with
  | nil => rfl
  | cons e l ih =>
    cases hs : skip e with
    | true =>
      rw [List.foldl_cons,hs,if_pos rfl,List.filter_cons_of_neg (by simp [hs]),ih]
    | false =>
      rw [List.foldl_cons,hs,if_neg (by simp),List.filter_cons_of_pos (by simp [hs]),List.map_cons,
        List.foldl_cons,ih]

/-- What a listing collects below a prefix: the bindings of the index it does not pass over. -/
theorem get_listed (index : MemoryLocationIndex) (q : Str) (skip : Str → Bool) (rel : Str) :
    ((index.list q).foldl (fun (bindings : OrderedMap Str Hash) e =>
        if skip e.1 then bindings else bindings.insert (e.1.drop q.length) e.2) .empty).get rel =
      if skip (q++rel) then none else index.get (q++rel) := by
  let kept := (index.list q).filter fun e => !skip e.1
  have hdrop : ∀ e ∈ kept, q++e.1.drop q.length = e.1 := by
    intro e he
    obtain ⟨t,ht⟩ := ((index.mem_list q e.1 e.2).mp (List.mem_filter.mp he).1).2
    rw [← ht,List.drop_left]
  have hnodup : ((kept.map fun e => (e.1.drop q.length,e.2)).map Prod.fst).Nodup := by
    rw [List.map_map]
    have hkeys : (kept.map Prod.fst).Nodup := by
      have hall := (index.paths.filterKeys (startsWith · q)).keys_nodup
      rw [← MemoryLocationIndex.list_eq] at hall
      exact hall.sublist (List.Sublist.map _ List.filter_sublist)
    refine List.Nodup.map_on ?_ hkeys.of_map
    intro a ha b hb hab
    have hpath : a.1 = b.1 := by
      rw [← hdrop a ha,← hdrop b hb]
      exact congrArg (q++·) hab
    exact List.inj_on_of_nodup_map hkeys ha hb hpath
  rw [foldl_skip (fun e : Str × Hash => skip e.1) (fun e => e.1.drop q.length) Prod.snd,
    OrderedMap.get_foldl_insert _ hnodup,OrderedMap.get_empty,Option.or_none]
  apply Option.ext
  intro h
  have hlook : OrderedMap.lookup rel (kept.map fun e => (e.1.drop q.length,e.2)) = some h ↔
      (q++rel,h) ∈ kept := by
    constructor
    · intro hl
      obtain ⟨e,he,heq⟩ := List.mem_map.mp (OrderedMap.mem_of_lookup hl)
      obtain ⟨rfl,rfl⟩ := Prod.mk.inj heq
      rw [hdrop e he]
      exact he
    · intro hm
      apply OrderedMap.lookup_of_mem hnodup
      refine List.mem_map.mpr ⟨(q++rel,h),hm,?_⟩
      rw [List.drop_left]
  rw [hlook,List.mem_filter,index.mem_list]
  by_cases hskip : skip (q++rel) = true
  · rw [if_pos hskip]
    simp [hskip]
  · rw [if_neg hskip]
    simp only [hskip,Bool.not_false,and_true]
    exact ⟨fun hh => hh.1,fun hh => ⟨hh,rel,rfl⟩⟩

/-- A binding under the prefix is a binding of the index, read below the prefix. -/
theorem get_bindingsUnder (index : MemoryLocationIndex) (barePrefix rel : Str) :
    (E.bindingsUnder index barePrefix).get rel =
      if E.isSelfPath (E.qualifiedBarePrefix barePrefix++rel) then none
      else index.get (E.qualifiedBarePrefix barePrefix++rel) :=
  get_listed index (E.qualifiedBarePrefix barePrefix) E.isSelfPath rel

end RootTrackerEngine
end EntityCore
