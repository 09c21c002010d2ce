import EntityCore.Clock

/-! Path history. A write to a path that an enabled config tracks is recorded as a
transition entity that names the transition before it; a head pointer per path names the
newest. The recording is a hook of the write and interleaves with those of other writers. -/
namespace EntityCore

open ByteCode Ecf Outcome Strings EntityUri

def typeHistoryTransition : Str := "system/history/transition".toList
def typeHistoryConfig : Str := "system/history/config".toList

/-! Configs. -/

structure HistoryConfig where
  name : Str
  pattern : Str
  enabled : Bool
  events : List Str
  maxDepth : Option ℕ
  deriving DecidableEq

def allHistoryEvents : List Str := ["created".toList,"updated".toList,"deleted".toList]

def History.configNameOf (path : Str) : Str := ((segments '/' path).getLast?).getD []

def decodeHistoryConfig (X : Platform) (entity : Entity) (name : Str) : Option HistoryConfig :=
  if entity.entityType ≠ typeHistoryConfig then none
  else do
    let map ← (← (X.fromReader entity.data).toOption).asMap
    return {
      name := name
      pattern := ((getField map "pattern").bind (·.asText)).getD []
      enabled := ((getField map "enabled").bind (·.asBool)).getD false
      events := (((getField map "events").bind (·.asArray)).map
        (·.filterMap (·.asText))).getD allHistoryEvents
      maxDepth := (getField map "max_depth").bind (·.asU64) }

def historyConfigPrefix (localPeerId : Str) : Str :=
  '/'::localPeerId++ "/system/history/config/".toList

def loadAllConfigs (X : Platform) (s : ContentStore) (index : MemoryLocationIndex)
    (localPeerId : Str) : List HistoryConfig :=
  (index.list (historyConfigPrefix localPeerId)).filterMap fun e =>
    (s.get e.2).bind fun entity => decodeHistoryConfig X entity (History.configNameOf e.1)

/-- A pattern under a peer wildcard stays as it is. -/
def canonicalizeHistoryPattern (pattern localPeerId : Str) : Str :=
  if startsWith pattern ['/'] then pattern
  else if (segments '/' pattern).head? = some ['*'] then pattern
  else '/'::localPeerId++ '/'::pattern

def isLocalHistoryPath (path localPeerId : Str) : Bool :=
  match stripPrefix path ('/'::localPeerId++['/']) with
  | some suffix => startsWith suffix "system/history/head".toList
  | none => false

/-- Literal segments, then all segments. -/
def History.patternSpecificity (pattern : Str) : ℕ × ℕ :=
  let segs := (segments '/' pattern).filter (!·.isEmpty)
  (segs.countP (· ≠ ['*']),segs.length)

/-- More literal segments, then more segments, then the lesser pattern, then the lesser
name. -/
def moreSpecific (cand best : (ℕ × ℕ) × Str × Str) : Bool :=
  if cand.1 = best.1 then
    cand.2.1 < best.2.1 || (cand.2.1 = best.2.1 && cand.2.2 < best.2.2)
  else best.1.1 < cand.1.1 || (best.1.1 = cand.1.1 && best.1.2 < cand.1.2)

/-- `prefix/*` as the history matcher reads it below some peer: the prefix itself too. -/
def matchesBelowPeer (afterPeer rest : Str) : Bool :=
  match stripSuffix rest ['/','*'] with
  | some start => startsWith afterPeer start &&
      (afterPeer.length = start.length || (afterPeer.drop start.length).head? = some '/')
  | none => afterPeer = rest || startsWith afterPeer (rest++['/'])

def matchesHistoryPattern (path pattern : Str) : Bool :=
  if pattern = ['*'] then true
  else match stripPrefix pattern ['*','/'] with
    | some rest => match (stripPrefix path ['/']).bind (splitOnce '/') with
      | some (_,afterPeer) => matchesBelowPeer afterPeer rest
      | none => false
    | none => match stripSuffix pattern ['/','*'] with
      | some start => startsWith path start && start.length < path.length &&
          (path.drop start.length).head? = some '/'
      | none => path = pattern

/-- The most specific of the configs that match. -/
def selectMatchingConfig (configs : List HistoryConfig) (path localPeerId : Str) :
    Option HistoryConfig :=
  (configs.foldl (fun best cfg =>
    let canonical := canonicalizeHistoryPattern cfg.pattern localPeerId
    if matchesHistoryPattern path canonical then
      let key := (History.patternSpecificity canonical,canonical,cfg.name)
      match best with
      | none => some (cfg,key)
      | some (_,bestKey) => if moreSpecific key bestKey then some (cfg,key) else best
    else best) none).map Prod.fst

/-! Transitions. -/

structure TransitionFields where
  path : Str
  event : Str
  hash : Option Hash
  previousHash : Option Hash
  author : Option Hash
  capability : Option Hash
  callerCapability : Option Hash
  handler : Option Str
  operation : Option Str
  chainId : Option Str
  parentChainId : Option Str
  clock : Option ClockState
  previous : Option Hash

def ClockState.toFields (clock : ClockState) : List (String × Option Value) := [
  ("mode",some (.text clock.mode)),
  ("timestamp",clock.timestamp.map fun ts : ℕ => .map [field "ms" (integerI64 ts)]),
  ("logical",clock.logical.map fun l => counterValue l.counter),
  ("vector",clock.vector.map vectorValue),
  ("hlc",clock.hlc.map ClockHlc.toValue)]

def TransitionFields.toFields (f : TransitionFields) (nowMs : ℕ) : List (String × Option Value) := [
  ("path",some (.text f.path)),
  ("event",some (.text f.event)),
  ("hash",f.hash.map hashVal),
  ("previous_hash",f.previousHash.map hashVal),
  ("author",some (hashVal (f.author.getD Hash.zero))),
  ("capability",some (hashVal (f.capability.getD Hash.zero))),
  ("caller_capability",f.callerCapability.map hashVal),
  ("handler",some (.text (f.handler.getD []))),
  ("operation",some (.text (f.operation.getD []))),
  ("timestamp",some (integerI64 nowMs)),
  ("chain_id",f.chainId.map .text),
  ("parent_chain_id",f.parentChainId.map .text),
  ("clock",f.clock.map fun clock => .map (presentFields clock.toFields)),
  ("previous",f.previous.map hashVal)]

def TransitionFields.toValue (f : TransitionFields) (nowMs : ℕ) : Value :=
  .map (presentFields (f.toFields nowMs))

def buildTransitionEntity (X : Platform) (f : TransitionFields) (nowMs : ℕ) :
    Except EntityError Entity :=
  Entity.new X typeHistoryTransition (toEcf (f.toValue nowMs))

structure TransitionData where
  event : Str
  hash : Option Hash
  previousHash : Option Hash
  timestamp : ℕ
  previous : Option Hash
  deriving DecidableEq

def decodeTransition (X : Platform) (entity : Entity) : Option TransitionData := do
  let map ← (← (X.fromReader entity.data).toOption).asMap
  return {
    event := ((getField map "event").bind (·.asText)).getD []
    hash := (getField map "hash").bind hashField
    previousHash := (getField map "previous_hash").bind hashField
    timestamp := ((getField map "timestamp").bind (·.asU64)).getD 0
    previous := (getField map "previous").bind hashField }

def transitionAt (X : Platform) (s : ContentStore) (h : Hash) : Option TransitionData :=
  (s.get h).bind (decodeTransition X)

def headPointerPath (localPeerId path : Str) : Str :=
  '/'::localPeerId++ "/system/history/head".toList++path

/-- The walk from the head through the previous links, for as many steps as there is
fuel. -/
def History.walkHistory (X : Platform) (s : ContentStore) (target : Hash) : ℕ → Option Hash → Option Bool
  | _, none => some false
  | 0, some _ => none
  | n+1, some h => match transitionAt X s h with
    | none => some false
    | some d =>
      if d.hash = some target ∨ d.previousHash = some target then some true
      else History.walkHistory X s target n d.previous

/-- `is_in_history`, if the chain is no longer than the fuel. -/
def isInHistory (X : Platform) (fuel : ℕ) (localPeerId : Str) (path : Str) (target : Hash)
    (tree : NotifyingLocationIndex ContentStore) : Option Bool :=
  History.walkHistory X tree.world target fuel (tree.inner.get (headPointerPath localPeerId path))

/-! The engine's hook, step by step. -/

structure HistoryEngine where
  localPeerId : Str
  localIdentityHash : Hash

/-- A write to the path, with the clock its hooks have settled on and the time at which
its transition is made. -/
structure HistoryWrite where
  write : NotifyingLocationIndex.Write
  context : ExecutionContext
  clock : Option ClockState
  nowMs : ℕ

inductive HistoryPhase where
  | waiting
  | hooked (event : TreeChangeEvent)
  | recording (event : TreeChangeEvent) (name : Str) (previous : Option Hash)
  | linking (event : TreeChangeEvent) (previous : Option Hash) (transition : Hash)
  | returning (event : TreeChangeEvent) (transition : Option Hash)
  | finished (event : Option TreeChangeEvent) (transition : Option Hash)
  | panicked (event : TreeChangeEvent)

structure HistoryRun (ι : Type) where
  tree : NotifyingLocationIndex ContentStore
  phase : ι → HistoryPhase

def ChangeType.historyName : ChangeType → Str
  | .created => "created".toList
  | .modified => "updated".toList
  | .deleted => "deleted".toList

/-- The fields of the transition of an event. Cascade fields come from the event's own
context, the clock from the live one. -/
def transitionFields (E : HistoryEngine) (event : TreeChangeEvent) (name : Str)
    (clock : Option ClockState) (previous : Option Hash) : TransitionFields :=
  let capability := event.context.bind (·.capability)
  let callerCapability := event.context.bind (·.callerCapability)
  { path := event.path
    event := name
    hash := event.newHash
    previousHash := event.previousHash
    author := (event.context.bind (·.author)).or (some E.localIdentityHash)
    capability := capability
    callerCapability := match capability, callerCapability with
      | some c, some cc => if c ≠ cc then some cc else none
      | _, _ => none
    handler := event.context.bind (·.handlerPattern)
    operation := event.context.bind (·.operation)
    chainId := event.context.bind (·.chainId)
    parentChainId := event.context.bind (·.parentChainId)
    clock := clock
    previous := previous }

/-- The context as the dispatcher hands it to this hook. -/
def historyHookContext (ctx : ExecutionContext) : ExecutionContext :=
  { ctx with
    capability := none
    handlerGrant := none
    handlerPattern := some "system/history".toList
    operation := some "history/transition-recorder".toList }

/-- The config that tracks an event, and the name it records the event under. -/
def recordedAs (configs : List HistoryConfig) (E : HistoryEngine) (event : TreeChangeEvent) :
    Option Str :=
  if isLocalHistoryPath event.path E.localPeerId then none
  else match selectMatchingConfig configs event.path E.localPeerId with
    | none => none
    | some cfg =>
      if cfg.enabled && cfg.events.contains event.changeType.historyName then
        some event.changeType.historyName
      else none

section Run

variable {ι : Type} [DecidableEq ι] (X : Platform) (E : HistoryEngine)
  (configs : List HistoryConfig) (path : Str) (writes : ι → HistoryWrite)

def HistoryRun.moveTo (s : HistoryRun ι) (i : ι) (p : HistoryPhase) : HistoryRun ι :=
  { s with phase := Function.update s.phase i p }

/-- The next step of one writer. -/
def historyStep (i : ι) (s : HistoryRun ι) : HistoryRun ι :=
  let w := writes i
  let headPath := headPointerPath E.localPeerId path
  match s.phase i with
  | .waiting =>
    let r := w.write.enter path w.context s.tree
    HistoryRun.moveTo { s with tree := r.2 } i (match r.1 with
      | some event => .hooked event
      | none => .finished none none)
  | .hooked event => s.moveTo i (match recordedAs configs E event with
      | some name => .recording event name (s.tree.inner.get headPath)
      | none => .returning event none)
  | .recording event name previous =>
    match buildTransitionEntity X (transitionFields E event name w.clock previous) w.nowMs with
    | .error _ => s.moveTo i (.panicked event)
    | .ok transition =>
      HistoryRun.moveTo { s with tree := { s.tree with world := s.tree.world.put transition } } i
        (.linking event previous transition.contentHash)
  | .linking event _ transition =>
    let ctx := historyHookContext (event.context.getD {})
    HistoryRun.moveTo { s with tree := s.tree.quietSet headPath transition ctx } i
      (.returning event (some transition))
  | .returning event transition =>
    HistoryRun.moveTo { s with tree := s.tree.shallower } i (.finished (some event) transition)
  | .finished _ _ => s
  | .panicked _ => s

def runHistory (schedule : List ι) (s : HistoryRun ι) : HistoryRun ι :=
  Schedule.run (historyStep X E configs path writes) schedule s

end Run

namespace HistoryPhase

def event : HistoryPhase → Option TreeChangeEvent
  | .waiting => none
  | .hooked event => some event
  | .recording event _ _ => some event
  | .linking event _ _ => some event
  | .returning event _ => some event
  | .finished event _ => event
  | .panicked event => some event

/-- The transition the writer has set the head pointer to. -/
def linked : HistoryPhase → Option Hash
  | .returning _ transition => transition
  | .finished _ transition => transition
  | _ => none

end HistoryPhase

section Safety

variable {ι : Type} [DecidableEq ι] (X : Platform) (E : HistoryEngine)
  (configs : List HistoryConfig) (path : Str) (writes : ι → HistoryWrite)

/-- A write is not cut off by the depth of its chain, and the head pointer is set while
it still is what the writer has read and the cascade depth admits the write. -/
structure SafeLink (i : ι) (s : HistoryRun ι) : Prop where
  delivered : ∀ _ : s.phase i = .waiting,
    ¬ NotifyingLocationIndex.OverLimit s.tree (writes i).context
  current : ∀ event previous transition, s.phase i = .linking event previous transition →
    s.tree.inner.get (headPointerPath E.localPeerId path) = previous ∧
      s.tree.cascadeDepth < cascadeDepthLimit

def SafeLinks (schedule : List ι) (s : HistoryRun ι) : Prop :=
  Schedule.Admissible (historyStep X E configs path writes) (SafeLink E path writes) schedule s

/-- The path can be bound, and an enabled config records its changes; they are not
changes of a config. -/
structure TracksPath (cfg : HistoryConfig) : Prop where
  valid : EntityUri.validateAbsolutePath path = .ok ()
  storable : pathIsStorable path = true
  outside : isLocalHistoryPath path E.localPeerId = false
  stable : startsWith path (historyConfigPrefix E.localPeerId) = false
  selected : selectMatchingConfig configs path E.localPeerId = some cfg
  enabled : cfg.enabled = true

/-- One transition names another as the one before it. -/
def PreviousTransition (s : ContentStore) (a b : Hash) : Prop :=
  ∃ d, transitionAt X s b = some d ∧ d.previous = some a

/-- The transition is on the chain that starts at the head pointer. -/
def OnChain (tree : NotifyingLocationIndex ContentStore) (transition : Hash) : Prop :=
  ∃ head, tree.inner.get (headPointerPath E.localPeerId path) = some head ∧
    Relation.ReflTransGen (PreviousTransition X tree.world) transition head

/-- The history accepts the hash, given fuel for the chain. -/
def Accepted (tree : NotifyingLocationIndex ContentStore) (h : Hash) : Prop :=
  ∃ n, ∀ fuel, n ≤ fuel → isInHistory X fuel E.localPeerId path h tree = some true

end Safety

/-! Reading a transition back. -/

section Reading

variable {X : Platform}

theorem vectorValue_regular (entries : OrderedMap Str ℕ) : Regular (vectorValue entries) := by
  have hkeys : (entries.entries.map fun e => ((.text e.1 : Value),integerI64 e.2)).map Prod.fst =
      (entries.entries.map Prod.fst).map Value.text := by
    rw [List.map_map,List.map_map]
    rfl
  have hinner : Regular (.map (entries.entries.map fun e => (.text e.1,integerI64 e.2))) := by
    refine .map hkeys entries.keys_nodup ?_
    intro kv hkv
    obtain ⟨e,-,rfl⟩ := List.mem_map.mp hkv
    exact .integer _
  have hfield : [field "entries" (.map (entries.entries.map fun e => (.text e.1,integerI64 e.2)))].map
      Prod.fst = ["entries".toList].map Value.text := rfl
  refine .map hfield (List.nodup_singleton _) ?_
  intro kv hkv
  obtain rfl := List.mem_singleton.mp hkv
  exact hinner

theorem counterValue_regular (n : ℕ) : Regular (counterValue n) := by
  have hfield : [field "counter" (integerI64 n)].map Prod.fst = ["counter".toList].map Value.text :=
    rfl
  refine .map hfield (List.nodup_singleton _) ?_
  intro kv hkv
  obtain rfl := List.mem_singleton.mp hkv
  exact .integer _

theorem ClockHlc.toValue_regular (hlc : ClockHlc) : Regular hlc.toValue := by
  have hfield : [field "logical" (integerI64 hlc.logical),field "peer" (hashVal hlc.peer),
      field "physical" (integerI64 hlc.physical)].map Prod.fst =
      ["logical".toList,"peer".toList,"physical".toList].map Value.text := rfl
  refine .map hfield (by decide) ?_
  simp only [List.forall_mem_cons]
  exact ⟨.integer _,.bytes _,.integer _,by simp⟩

theorem ClockState.toFields_regular (clock : ClockState) :
    Regular (.map (presentFields clock.toFields)) := by
  have hnames : (clock.toFields.map Prod.fst).Nodup := by
    show ["mode","timestamp","logical","vector","hlc"].Nodup
    decide
  apply presentFields_regular hnames
  have hms : ∀ ts : ℕ, Regular (.map [field "ms" (integerI64 ts)]) := by
    intro ts
    have hfield : [field "ms" (integerI64 ts)].map Prod.fst = ["ms".toList].map Value.text := rfl
    refine .map hfield (List.nodup_singleton _) ?_
    intro kv hkv
    obtain rfl := List.mem_singleton.mp hkv
    exact .integer _
  simp only [ClockState.toFields,List.forall_mem_cons,Option.map_eq_some_iff,Option.some.injEq]
  refine ⟨?_,?_,?_,?_,?_,by simp⟩
  · rintro v rfl
    exact .text _
  · rintro v ⟨ts,-,rfl⟩
    exact hms ts
  · rintro v ⟨l,-,rfl⟩
    exact counterValue_regular l.counter
  · rintro v ⟨entries,-,rfl⟩
    exact vectorValue_regular entries
  · rintro v ⟨hlc,-,rfl⟩
    exact hlc.toValue_regular

namespace TransitionFields

theorem toFields_nodup (f : TransitionFields) (nowMs : ℕ) :
    ((f.toFields nowMs).map Prod.fst).Nodup := by
  show ["path","event","hash","previous_hash","author","capability","caller_capability","handler",
    "operation","timestamp","chain_id","parent_chain_id","clock","previous"].Nodup
  decide

theorem toValue_regular (f : TransitionFields) (nowMs : ℕ) : Regular (f.toValue nowMs) := by
  apply presentFields_regular (f.toFields_nodup nowMs)
  have hhash : ∀ (o : Option Hash) v, (∃ h, o = some h ∧ hashVal h = v) → Regular v := by
    rintro o v ⟨h,-,rfl⟩
    exact .bytes _
  have htext : ∀ (o : Option Str) v, (∃ s, o = some s ∧ Value.text s = v) → Regular v := by
    rintro o v ⟨s,-,rfl⟩
    exact .text _
  simp only [toFields,List.forall_mem_cons,Option.map_eq_some_iff,Option.some.injEq]
  refine ⟨?_,?_,hhash _,hhash _,?_,?_,hhash _,?_,?_,?_,htext _,htext _,?_,hhash _,by simp⟩
  · rintro v rfl
    exact .text _
  · rintro v rfl
    exact .text _
  · rintro v rfl
    exact .bytes _
  · rintro v rfl
    exact .bytes _
  · rintro v rfl
    exact .text _
  · rintro v rfl
    exact .text _
  · rintro v rfl
    exact .integer _
  · rintro v ⟨clock,-,rfl⟩
    exact clock.toFields_regular

end TransitionFields

variable {X : Platform}

/-- What is read back of a transition that was built. -/
theorem decodeTransition_of_same {e : Entity} {f : TransitionFields} {nowMs : ℕ} {v : Value}
    (hread : X.fromReader e.data = .ok v) (hsame : Same v (f.toValue nowMs)) :
    ∃ d, decodeTransition X e = some d ∧ d.hash = f.hash ∧ d.previousHash = f.previousHash ∧
      d.previous = f.previous := by
  have hnames := f.toFields_nodup nowMs
  have hmap : ∃ m, v = .map m := by
    generalize hw : f.toValue nowMs = w at hsame
    cases hsame with
    | @map m _ _ _ _ _ => exact ⟨m,rfl⟩
    | _ => cases hw
  obtain ⟨m,rfl⟩ := hmap
  have hhash : ∀ k (o : Option Hash), (k,o.map hashVal) ∈ f.toFields nowMs →
      (getField m k).bind hashField = o := by
    intro k o hmem
    rw [getField_same hsame (presentFields_nodup hnames),getField_presentFields hnames hmem]
    cases o with
    | none => rfl
    | some h => exact hashField_bytes h
  unfold decodeTransition
  rw [hread]
  refine ⟨_,rfl,?_,?_,?_⟩
  · exact hhash "hash" f.hash (by simp [TransitionFields.toFields])
  · exact hhash "previous_hash" f.previousHash (by simp [TransitionFields.toFields])
  · exact hhash "previous" f.previous (by simp [TransitionFields.toFields])

end Reading

/-! The head pointer's path. -/

section Paths

variable {localPeerId path : Str}

theorem isLocalHistoryPath_head (localPeerId path : Str) :
    isLocalHistoryPath (headPointerPath localPeerId path) localPeerId = true := by
  have hstrip : stripPrefix (headPointerPath localPeerId path) ('/'::localPeerId++['/']) =
      some ("system/history/head".toList++path) := by
    rw [stripPrefix_eq_some]
    simp [headPointerPath]
  rw [isLocalHistoryPath,hstrip]
  show startsWith ("system/history/head".toList++path) _ = true
  rw [startsWith_iff]
  exact List.prefix_append _ _

theorem headPointerPath_ne (h : isLocalHistoryPath path localPeerId = false) :
    headPointerPath localPeerId path ≠ path := by
  intro he
  have hhead := isLocalHistoryPath_head localPeerId path
  rw [he,h] at hhead
  cases hhead

/-- The head pointer of a path that can be bound can be bound. -/
theorem headPointerPath_storable (hl : isPeerId localPeerId = true)
    (hvalid : validateAbsolutePath path = .ok ()) (hs : pathIsStorable path = true) :
    pathIsStorable (headPointerPath localPeerId path) = true := by
  have hok : (validateAbsolutePath path).isOk = true := by rw [hvalid]; rfl
  obtain ⟨⟨t,rfl,-⟩,hslash⟩ := (validateAbsolutePath_ok _).mp hok
  have hfixed : pathIsStorable ('/'::localPeerId++ "/system/history/head".toList) = true := by
    have hnone : ¬ "//".toList <:+: "/system/history/head".toList := by decide
    have hplain : "/system/history/head".toList.all (fun c => !isControl c && c ≠ '.') = true := by
      decide
    simp only [List.all_eq_true,Bool.and_eq_true,Bool.not_eq_true',decide_eq_true_eq] at hplain
    exact storable_of_peer hl hnone hplain
  have hnever : headPointerPath localPeerId ('/'::t) ≠ neverMatch := by
    intro h
    have hlen := congrArg List.length h
    have hpeer := ((isPeerId_iff _).mp hl).1
    have hn : neverMatch.length = 12 := by decide
    rw [hn,headPointerPath,List.length_append,List.length_append,List.length_cons] at hlen
    omega
  unfold pathIsStorable at hfixed hs ⊢
  split_ifs at hfixed hs with h1 h2 h3 h4
  simp only [Bool.or_eq_true,not_or,containsText_iff,List.any_eq_true,not_exists] at h2 h4
  have hdouble : ¬ "//".toList <:+: headPointerPath localPeerId ('/'::t) := by
    have hslashes : "//".toList = ['/','/'] := rfl
    have hlast : ("/system/history/head".toList).getLast? = some 'd' := by decide
    rw [hslashes] at h2 h4 ⊢
    rw [headPointerPath,double_append]
    rintro (h | h | ⟨h,-⟩)
    · exact h2.1 h
    · exact h4.1 h
    · rw [List.getLast?_append,hlast] at h
      have hd : 'd' = '/' := Option.some.inj h
      revert hd
      decide
  rw [if_neg,if_neg]
  · have hsegs : segments '/' (headPointerPath localPeerId ('/'::t)) =
        segments '/' ('/'::localPeerId++ "/system/history/head".toList)++segments '/' t :=
      segments_append '/' _ t
    have htail : segments '/' ('/'::t) = []::segments '/' t := by simp [segments]
    rw [htail] at hs
    rw [hsegs]
    simp only [List.any_cons,List.any_append,Bool.not_eq_true',Bool.or_eq_false_iff] at hfixed hs ⊢
    exact ⟨hfixed,hs.2⟩
  · simp only [Bool.or_eq_true,containsText_iff,List.any_eq_true,not_or,not_exists]
    refine ⟨hdouble,?_⟩
    rintro c ⟨hc,hcontrol⟩
    rcases List.mem_append.mp hc with hc | hc
    · exact h2.2 c ⟨hc,hcontrol⟩
    · exact h4.2 c ⟨hc,hcontrol⟩
  · simp only [Bool.or_eq_true,decide_eq_true_eq,not_or]
    exact ⟨by simp [headPointerPath],hnever⟩

end Paths

/-! The invariant: every linked transition is on the chain and says what its event says,
and a writer that has recorded nothing had nothing to record. -/

variable {t s : ContentStore} {tree tree' : NotifyingLocationIndex ContentStore}

section Invariant

variable {X : Platform} {E : HistoryEngine} {configs : List HistoryConfig} {path : Str}

/-- The transition in the store is that of the event. -/
def Records (X : Platform) (s : ContentStore) (event : TreeChangeEvent) (transition : Hash) : Prop :=
  ∃ d, transitionAt X s transition = some d ∧ d.hash = event.newHash ∧
    d.previousHash = event.previousHash

variable (X E configs path) in
/-- What a writer holds in a phase. -/
def HistoryPhase.Sound (tree : NotifyingLocationIndex ContentStore) : HistoryPhase → Prop
  | .linking event previous transition =>
    ∃ d, transitionAt X tree.world transition = some d ∧ d.hash = event.newHash ∧
      d.previousHash = event.previousHash ∧ d.previous = previous
  | .returning event none => recordedAs configs E event = none
  | .returning event (some transition) =>
    Records X tree.world event transition ∧ OnChain X E path tree transition
  | .finished (some event) none => recordedAs configs E event = none
  | .finished (some event) (some transition) =>
    Records X tree.world event transition ∧ OnChain X E path tree transition
  | _ => True

theorem buildTransitionEntity_ok (hX : X.FormatAllocated) (f : TransitionFields) (nowMs : ℕ) :
    ∃ e, buildTransitionEntity X f nowMs = .ok e ∧ e.data = toEcf (f.toValue nowMs) := by
  obtain ⟨e,he⟩ := Entity.new_ok hX (by decide : typeHistoryTransition ≠ [])
    (by decide) (toEcf_map_ne_nil (presentFields (f.toFields nowMs)))
  exact ⟨e,he,(Entity.newWithFormat_ok X he).2.1⟩

theorem transitionAt_grows {s' : ContentStore}
    (ht : ∀ e ∈ t.puts, t.get e.contentHash = some e) (hst : s ≤ s') (hle : s' ≤ t) {h : Hash}
    {d : TransitionData} (hd : transitionAt X s h = some d) : transitionAt X s' h = some d := by
  obtain ⟨e,he,hdec⟩ := Option.bind_eq_some_iff.mp hd
  rw [transitionAt,ContentStore.get_grows ht hst hle he]
  exact hdec

theorem chain_grows {s' : ContentStore} (ht : ∀ e ∈ t.puts, t.get e.contentHash = some e)
    (hst : s ≤ s') (hle : s' ≤ t) {a b : Hash}
    (h : Relation.ReflTransGen (PreviousTransition X s) a b) :
    Relation.ReflTransGen (PreviousTransition X s') a b := by
  have hstep : ∀ x y, PreviousTransition X s x y → PreviousTransition X s' x y := by
    rintro x y ⟨d,hd,hp⟩
    exact ⟨d,transitionAt_grows ht hst hle hd,hp⟩
  exact Relation.ReflTransGen.mono hstep a b h

theorem HistoryPhase.Sound.mono (ht : ∀ e ∈ t.puts, t.get e.contentHash = some e)
    (hst : tree.world ≤ tree'.world) (hle : tree'.world ≤ t)
    (hchain : ∀ transition, OnChain X E path tree transition → OnChain X E path tree' transition)
    {p : HistoryPhase} (h : p.Sound X E configs path tree) : p.Sound X E configs path tree' := by
  have hrecords : ∀ event transition, Records X tree.world event transition →
      Records X tree'.world event transition := by
    rintro event transition ⟨d,hd,hrest⟩
    exact ⟨d,transitionAt_grows ht hst hle hd,hrest⟩
  match p, h with
  | .linking event previous transition, ⟨d,hd,hrest⟩ =>
    exact ⟨d,transitionAt_grows ht hst hle hd,hrest⟩
  | .returning event none, h => exact h
  | .returning event (some transition), ⟨hr,hc⟩ => exact ⟨hrecords _ _ hr,hchain _ hc⟩
  | .finished (some event) none, h => exact h
  | .finished (some event) (some transition), ⟨hr,hc⟩ => exact ⟨hrecords _ _ hr,hchain _ hc⟩
  | .finished none _, _ => trivial
  | .waiting, _ => trivial
  | .hooked event, _ => trivial
  | .recording event name previous, _ => trivial
  | .panicked event, _ => trivial

/-- Nothing leaves the chain while the head pointer stays. -/
theorem OnChain.of_head
    (ht : ∀ e ∈ t.puts, t.get e.contentHash = some e) (hst : tree.world ≤ tree'.world)
    (hle : tree'.world ≤ t) (hhead : tree'.inner.get (headPointerPath E.localPeerId path) =
      tree.inner.get (headPointerPath E.localPeerId path)) {transition : Hash}
    (h : OnChain X E path tree transition) : OnChain X E path tree' transition := by
  obtain ⟨head,hh,hc⟩ := h
  exact ⟨head,hhead.trans hh,chain_grows ht hst hle hc⟩

/-- A new head whose transition names the old one keeps the chain. -/
theorem OnChain.of_link
    (ht : ∀ e ∈ t.puts, t.get e.contentHash = some e) (hst : tree.world ≤ tree'.world)
    (hle : tree'.world ≤ t) {head : Hash} {d : TransitionData}
    (hhead : tree'.inner.get (headPointerPath E.localPeerId path) = some head)
    (hd : transitionAt X tree'.world head = some d)
    (hprev : d.previous = tree.inner.get (headPointerPath E.localPeerId path)) {transition : Hash}
    (h : OnChain X E path tree transition) : OnChain X E path tree' transition := by
  obtain ⟨old,hold,hc⟩ := h
  have hlink : PreviousTransition X tree'.world old head := ⟨d,hd,hprev.trans hold⟩
  exact ⟨head,hhead,(chain_grows ht hst hle hc).tail hlink⟩

variable {ι : Type} [DecidableEq ι] {writes : ι → HistoryWrite} {s : HistoryRun ι} {i : ι}

variable (X E configs path) in
structure HistoryInv (s : HistoryRun ι) : Prop where
  sound : ∀ j, (s.phase j).Sound X E configs path s.tree
  here : ∀ j event, (s.phase j).event = some event → event.path = path

theorem le_historyStep (i : ι) (s : HistoryRun ι) :
    s.tree.world ≤ (historyStep X E configs path writes i s).tree.world := by
  unfold historyStep
  cases s.phase i with
  | waiting => exact (NotifyingLocationIndex.enter_world path _ _ _).ge
  | recording event name previous =>
    dsimp only
    split
    · exact le_rfl
    · exact List.suffix_cons _ _
  | linking event previous transition => exact (NotifyingLocationIndex.quietSet_world _ _ _ _).ge
  | _ => exact le_rfl

/-- A step that leaves the head pointer where it is. -/
theorem HistoryInv.move (h : HistoryInv X E configs path s) {s' : HistoryRun ι}
    (ht : ∀ e ∈ t.puts, t.get e.contentHash = some e) (hst : s.tree.world ≤ s'.tree.world)
    (hle : s'.tree.world ≤ t) (hchain : ∀ transition, OnChain X E path s.tree transition →
      OnChain X E path s'.tree transition) {p : HistoryPhase}
    (hphase : s'.phase = Function.update s.phase i p) (hp : p.Sound X E configs path s'.tree)
    (hevent : ∀ event, p.event = some event → event.path = path) :
    HistoryInv X E configs path s' := by
  constructor
  · intro j
    rw [hphase]
    exact Schedule.update_forall (P := fun _ (p : HistoryPhase) => p.Sound X E configs path s'.tree)
      hp (fun j _ => (h.sound j).mono ht hst hle hchain) j
  · intro j
    rw [hphase]
    exact Schedule.update_forall (P := fun _ (p : HistoryPhase) => ∀ event, p.event = some event →
      event.path = path) hevent (fun j _ => h.here j) j

/-- Recording puts a transition in the store that says what the event says. -/
theorem HistoryInv.record (hX : X.FormatAllocated) (h : HistoryInv X E configs path s)
    (ht : t.Readable X) {event : TreeChangeEvent} {name : Str}
    {previous : Option Hash} (hi : s.phase i = .recording event name previous)
    (hle : (historyStep X E configs path writes i s).tree.world ≤ t) :
    HistoryInv X E configs path (historyStep X E configs path writes i s) := by
  let f := transitionFields E event name (writes i).clock previous
  obtain ⟨e,he,hdata⟩ := buildTransitionEntity_ok hX f (writes i).nowMs
  let tree' : NotifyingLocationIndex ContentStore := { s.tree with world := s.tree.world.put e }
  have hgrow : s.tree.world ≤ tree'.world := List.suffix_cons e s.tree.world.puts
  have hstep : historyStep X E configs path writes i s =
      HistoryRun.moveTo { s with tree := tree' } i (.linking event previous e.contentHash) := by
    simp only [historyStep,hi]
    rw [show buildTransitionEntity X (transitionFields E event name (writes i).clock previous)
      (writes i).nowMs = .ok e from he]
  rw [hstep] at hle ⊢
  have hmem : e ∈ t.puts := List.IsSuffix.mem List.mem_cons_self hle
  obtain ⟨v,hread,hsame⟩ := ht.read hmem (f.toValue_regular _) hdata
  obtain ⟨d,hd,hhash,hprevHash,hprev⟩ := decodeTransition_of_same hread hsame
  have hat : transitionAt X (s.tree.world.put e) e.contentHash = some d := by
    simp [transitionAt,ContentStore.put,ContentStore.get,hd]
  have hchain : ∀ transition, OnChain X E path s.tree transition →
      OnChain X E path tree' transition :=
    fun _ hc => hc.of_head ht.returns hgrow hle rfl
  refine h.move ht.returns hgrow hle hchain rfl ⟨d,hat,hhash,hprevHash,hprev⟩ ?_
  intro event' he'
  exact h.here i event' (by rw [hi]; exact he')

/-- Setting the head pointer puts the transition on the chain above all that was there. -/
theorem HistoryInv.link (hl : isPeerId E.localPeerId = true)
    (hvalid : validateAbsolutePath path = .ok ()) (hs : pathIsStorable path = true)
    (h : HistoryInv X E configs path s) (ht : t.Readable X)
    {event : TreeChangeEvent} {previous : Option Hash} {transition : Hash}
    (hi : s.phase i = .linking event previous transition) (hsafe : SafeLink E path writes i s)
    (hle : (historyStep X E configs path writes i s).tree.world ≤ t) :
    HistoryInv X E configs path (historyStep X E configs path writes i s) := by
  obtain ⟨hcur,hdepth⟩ := hsafe.current event previous transition hi
  obtain ⟨d,hd,hhash,hprevHash,hprev⟩ : ∃ d, transitionAt X s.tree.world transition = some d ∧
      d.hash = event.newHash ∧ d.previousHash = event.previousHash ∧ d.previous = previous := by
    have hsound := h.sound i
    rw [hi] at hsound
    exact hsound
  have hstorable := headPointerPath_storable hl hvalid hs
  have hform : headPointerPath E.localPeerId path =
      '/'::E.localPeerId++ '/'::("system/history/head".toList++path) := by
    simp [headPointerPath]
  have hadmits : s.tree.admits (headPointerPath E.localPeerId path) = true := by
    rw [hform] at hstorable ⊢
    exact NotifyingLocationIndex.admits_of_storable hl hstorable hdepth
  let ctx := historyHookContext (event.context.getD {})
  let tree' := s.tree.quietSet (headPointerPath E.localPeerId path) transition ctx
  have hworld : tree'.world = s.tree.world := NotifyingLocationIndex.quietSet_world _ _ _ _
  have hhead : tree'.inner.get (headPointerPath E.localPeerId path) = some transition := by
    show (s.tree.quietSet _ _ _).inner.get _ = _
    rw [NotifyingLocationIndex.quietSet_inner,if_pos hadmits,MemoryLocationIndex.get_set]
    simp [hstorable]
  have hstep : historyStep X E configs path writes i s =
      HistoryRun.moveTo { s with tree := tree' } i (.returning event (some transition)) := by
    simp only [historyStep,hi]
    rfl
  rw [hstep] at hle ⊢
  have hgrow : s.tree.world ≤ tree'.world := hworld.ge
  have hd' : transitionAt X tree'.world transition = some d := hworld ▸ hd
  refine h.move ht.returns hgrow hle ?_ rfl ⟨⟨d,hd',hhash,hprevHash⟩,?_⟩ ?_
  · intro older hc
    exact hc.of_link ht.returns hgrow hle hhead hd' (hprev.trans hcur.symm)
  · exact ⟨transition,hhead,Relation.ReflTransGen.refl⟩
  · intro event' he'
    exact h.here i event' (by rw [hi]; exact he')

theorem historyStep_inv (hX : X.FormatAllocated) (hl : isPeerId E.localPeerId = true)
    {cfg : HistoryConfig} (htracks : TracksPath E configs path cfg)
    (h : HistoryInv X E configs path s) (ht : t.Readable X) (hsafe : SafeLink E path writes i s)
    (hle : (historyStep X E configs path writes i s).tree.world ≤ t) :
    HistoryInv X E configs path (historyStep X E configs path writes i s) := by
  have hne := headPointerPath_ne htracks.outside
  cases hi : s.phase i with
  | waiting =>
    have hworld := NotifyingLocationIndex.enter_world path (writes i).context (writes i).write s.tree
    have hhead := NotifyingLocationIndex.enter_get_ne hne (writes i).context (writes i).write s.tree
    have hspec := NotifyingLocationIndex.enter_spec htracks.storable (writes i).write
      (hsafe.delivered hi)
    simp only [historyStep,hi] at hle ⊢
    refine h.move ht.returns hworld.ge hle (fun _ hc => hc.of_head ht.returns hworld.ge hle hhead)
      rfl ?_ ?_
    · split <;> trivial
    · intro event he
      split at he
      · rename_i event' hevent
        rw [hevent] at hspec
        obtain rfl := Option.some.inj he
        exact hspec.1
      · cases he
  | hooked event =>
    simp only [historyStep,hi] at hle ⊢
    refine h.move ht.returns le_rfl hle (fun _ hc => hc.of_head ht.returns le_rfl hle rfl) rfl ?_ ?_
    · split
      · trivial
      · rename_i hnone
        exact hnone
    · intro event' he
      apply h.here i event'
      rw [hi]
      split at he <;> exact he
  | recording event name previous => exact h.record hX ht hi hle
  | linking event previous transition =>
    exact h.link hl htracks.valid htracks.storable ht hi hsafe hle
  | returning event transition =>
    have hsound := h.sound i
    simp only [historyStep,hi] at hle hsound ⊢
    have hchain : ∀ transition, OnChain X E path s.tree transition →
        OnChain X E path s.tree.shallower transition :=
      fun _ hc => hc.of_head ht.returns le_rfl hle rfl
    refine h.move ht.returns le_rfl hle hchain rfl ?_ ?_
    · cases transition with
      | none => exact hsound
      | some transition => exact ⟨hsound.1,hchain _ hsound.2⟩
    · intro event' he
      exact h.here i event' (by rw [hi]; exact he)
  | finished event transition =>
    simp only [historyStep,hi]
    exact h
  | panicked event =>
    simp only [historyStep,hi]
    exact h

/-! What the walk accepts. -/

theorem walkHistory_chain {s : ContentStore} {target transition head : Hash} {d : TransitionData}
    (hd : transitionAt X s transition = some d)
    (htarget : d.hash = some target ∨ d.previousHash = some target)
    (h : Relation.ReflTransGen (PreviousTransition X s) transition head) :
    ∃ n, ∀ fuel, n ≤ fuel → History.walkHistory X s target fuel (some head) = some true := by
  induction h with
  | refl =>
    refine ⟨1,fun fuel hf => ?_⟩
    obtain ⟨k,rfl⟩ := Nat.exists_eq_add_of_le' hf
    simp [History.walkHistory,hd,htarget]
  | tail _ hlink ih =>
    obtain ⟨n,hn⟩ := ih
    obtain ⟨d',hd',hprev⟩ := hlink
    refine ⟨n+1,fun fuel hf => ?_⟩
    obtain ⟨k,rfl⟩ := Nat.exists_eq_add_of_le' hf
    rw [← Nat.add_assoc,History.walkHistory,hd']
    dsimp only
    split_ifs
    · rfl
    · rw [hprev]
      exact hn (k+n) (by omega)

theorem OnChain.accepted {event : TreeChangeEvent}
    {transition h : Hash} (hc : OnChain X E path tree transition)
    (hr : Records X tree.world event transition)
    (hh : event.newHash = some h ∨ event.previousHash = some h) : Accepted X E path tree h := by
  obtain ⟨head,hhead,hchain⟩ := hc
  obtain ⟨d,hd,hnew,hold⟩ := hr
  obtain ⟨n,hn⟩ := walkHistory_chain hd (by rw [hnew,hold]; exact hh) hchain
  refine ⟨n,fun fuel hf => ?_⟩
  rw [isInHistory,hhead]
  exact hn fuel hf

/-! The events of a run and the bindings they report. -/

def Occurred (s : HistoryRun ι) (event : TreeChangeEvent) : Prop :=
  ∃ j, (s.phase j).event = some event

/-- Nothing has happened, or the events account for the starting and the current binding. -/
def Accounted (path : Str) (start : Option Hash) (s : HistoryRun ι) : Prop :=
  ((∀ event, ¬ Occurred s event) ∧ s.tree.inner.get path = start) ∨
    (∃ event, Occurred s event ∧ event.newHash = s.tree.inner.get path) ∧
      ∃ event, Occurred s event ∧ event.previousHash = start

theorem historyStep_event (hi : s.phase i ≠ .waiting) (j : ι) :
    ((historyStep X E configs path writes i s).phase j).event = (s.phase j).event := by
  have hupdate : ∀ p : HistoryPhase, p.event = (s.phase i).event →
      (Function.update s.phase i p j).event = (s.phase j).event := fun p hp =>
    Schedule.update_forall (P := fun j (p : HistoryPhase) => p.event = (s.phase j).event) hp
      (fun _ _ => rfl) j
  unfold historyStep
  cases hp : s.phase i with
  | waiting => exact absurd hp hi
  | hooked event =>
    apply hupdate
    rw [hp]
    split <;> rfl
  | recording event name previous =>
    dsimp only
    split
    · exact hupdate _ (by rw [hp]; rfl)
    · exact hupdate _ (by rw [hp]; rfl)
  | linking event previous transition => exact hupdate _ (by rw [hp]; rfl)
  | returning event transition => exact hupdate _ (by rw [hp]; rfl)
  | finished event transition => rfl
  | panicked event => rfl

theorem historyStep_get (hne : headPointerPath E.localPeerId path ≠ path)
    (hi : s.phase i ≠ .waiting) :
    (historyStep X E configs path writes i s).tree.inner.get path = s.tree.inner.get path := by
  unfold historyStep
  cases hp : s.phase i with
  | waiting => exact absurd hp hi
  | recording event name previous =>
    dsimp only
    split <;> rfl
  | linking event previous transition =>
    show (s.tree.quietSet _ _ _).inner.get path = _
    rw [NotifyingLocationIndex.quietSet_inner]
    split_ifs
    · rw [MemoryLocationIndex.get_set,if_neg fun h => hne h.1.symm]
    · rfl
  | _ => rfl

/-- What a writer's own write adds to the account. -/
theorem Accounted.write {start : Option Hash} (h : Accounted path start s)
    (hs : pathIsStorable path = true) (hi : s.phase i = .waiting)
    (hchain : ¬ NotifyingLocationIndex.OverLimit s.tree (writes i).context) :
    Accounted path start (historyStep X E configs path writes i s) := by
  have hspec := NotifyingLocationIndex.enter_spec hs (writes i).write hchain
  have hother : ∀ p event, Occurred s event →
      ∃ j, (Function.update s.phase i p j).event = some event := by
    rintro p event ⟨j,hj⟩
    have hji : j ≠ i := by
      rintro rfl
      rw [hi] at hj
      cases hj
    exact ⟨j,by rw [Function.update_of_ne hji]; exact hj⟩
  simp only [historyStep,hi]
  cases he : ((writes i).write.enter path (writes i).context s.tree).1 with
  | none =>
    rw [he] at hspec
    dsimp only at hspec ⊢
    rcases h with ⟨hnone,hget⟩ | ⟨⟨new,hnew,hnewHash⟩,⟨old,hold,holdHash⟩⟩
    · refine .inl ⟨?_,hspec.trans hget⟩
      rintro event ⟨j,hj⟩
      by_cases hji : j = i
      · rw [hji] at hj
        simp [HistoryRun.moveTo,HistoryPhase.event] at hj
      · simp only [HistoryRun.moveTo,Function.update_of_ne hji] at hj
        exact hnone event ⟨j,hj⟩
    · exact .inr ⟨⟨new,hother _ new hnew,hnewHash.trans hspec.symm⟩,⟨old,hother _ old hold,holdHash⟩⟩
  | some event =>
    rw [he] at hspec
    dsimp only at hspec ⊢
    obtain ⟨-,hprev,hnew⟩ := hspec
    have hself : Occurred (HistoryRun.moveTo
        { s with tree := ((writes i).write.enter path (writes i).context s.tree).2 } i
        (.hooked event)) event := ⟨i,by simp [HistoryRun.moveTo,HistoryPhase.event]⟩
    refine .inr ⟨⟨event,hself,hnew⟩,?_⟩
    rcases h with ⟨-,hget⟩ | ⟨-,⟨old,hold,holdHash⟩⟩
    · exact ⟨event,hself,hprev.trans hget⟩
    · exact ⟨old,hother _ old hold,holdHash⟩

theorem historyStep_accounted {start : Option Hash}
    (hne : headPointerPath E.localPeerId path ≠ path) (hs : pathIsStorable path = true)
    (h : Accounted path start s) (hsafe : SafeLink E path writes i s) :
    Accounted path start (historyStep X E configs path writes i s) := by
  by_cases hi : s.phase i = .waiting
  · exact h.write hs hi (hsafe.delivered hi)
  · have hoccurred : ∀ event, Occurred (historyStep X E configs path writes i s) event ↔
        Occurred s event := by
      intro event
      simp only [Occurred,historyStep_event hi]
    simpa only [Accounted,hoccurred,historyStep_get hne hi] using h

theorem Occurred.run {schedule : List ι} {event : TreeChangeEvent} (h : Occurred s event) :
    Occurred (runHistory X E configs path writes schedule s) event := by
  have hsafe : Schedule.Admissible (historyStep X E configs path writes) (fun _ _ => True)
      schedule s := Schedule.Admissible.of_forall (fun _ _ => trivial) schedule s
  refine @Schedule.run_invariant _ _ _ _ (fun s => Occurred s event) ?_ _ _ h hsafe
  rintro i s ⟨j,hj⟩ -
  by_cases hi : s.phase i = .waiting
  · have hji : j ≠ i := by
      rintro rfl
      rw [hi] at hj
      cases hj
    refine ⟨j,?_⟩
    simp only [historyStep,hi,HistoryRun.moveTo]
    rw [Function.update_of_ne hji]
    exact hj
  · exact ⟨j,(historyStep_event hi j).trans hj⟩

end Invariant

theorem recordedAs_of_tracks {E : HistoryEngine} {configs : List HistoryConfig} {path : Str}
    {cfg : HistoryConfig} (h : TracksPath E configs path cfg) {event : TreeChangeEvent}
    (hpath : event.path = path) (hc : event.changeType.historyName ∈ cfg.events) :
    recordedAs configs E event = some event.changeType.historyName := by
  simp [recordedAs,hpath,h.outside,h.selected,h.enabled,hc]

theorem historyName_mem (t : ChangeType) : t.historyName ∈ allHistoryEvents := by
  cases t <;> decide

/-- In a run whose head pointer is never set over a newer one, the transition of every
recorded event is on the chain, and a config that records all changes makes the history
accept every hash the path was bound to. -/
theorem history_keeps_transitions {ι : Type} [DecidableEq ι] (X : Platform)
    (hX : X.FormatAllocated) (E : HistoryEngine) (hl : EntityUri.isPeerId E.localPeerId = true)
    (configs : List HistoryConfig) (path : Str) (cfg : HistoryConfig)
    (htracks : TracksPath E configs path cfg) (writes : ι → HistoryWrite) (schedule : List ι)
    (s : HistoryRun ι) (hstart : ∀ i, s.phase i = .waiting)
    (hstore : (runHistory X E configs path writes schedule s).tree.world.Readable X)
    (hsafe : SafeLinks X E configs path writes schedule s) (hdone : ∀ i, ∃ event transition,
      (runHistory X E configs path writes schedule s).phase i = .finished event transition) :
    (∀ i event, ((runHistory X E configs path writes schedule s).phase i).event = some event →
      event.changeType.historyName ∈ cfg.events →
      ∃ transition, ((runHistory X E configs path writes schedule s).phase i).linked =
          some transition ∧
        Records X (runHistory X E configs path writes schedule s).tree.world event transition ∧
        OnChain X E path (runHistory X E configs path writes schedule s).tree transition ∧
        ∀ h, event.newHash = some h ∨ event.previousHash = some h →
          Accepted X E path (runHistory X E configs path writes schedule s).tree h) ∧
    (allHistoryEvents ⊆ cfg.events →
      (∃ event, Occurred (runHistory X E configs path writes schedule s) event) →
      ∀ first rest, schedule = first++rest → ∀ h,
        (runHistory X E configs path writes first s).tree.inner.get path = some h →
        Accepted X E path (runHistory X E configs path writes schedule s).tree h) := by
  have hinit : HistoryInv X E configs path s := by
    constructor
    · intro j
      rw [hstart j]
      trivial
    · intro j event hj
      rw [hstart j] at hj
      cases hj
  have hinv : HistoryInv X E configs path (runHistory X E configs path writes schedule s) :=
    Schedule.run_invariant_below (f := fun s : HistoryRun ι => s.tree.world) le_historyStep
      (fun i s h hi hle => historyStep_inv hX hl htracks h hstore hi hle) hinit hsafe le_rfl
  have hrecorded : ∀ i event,
      ((runHistory X E configs path writes schedule s).phase i).event = some event →
      event.changeType.historyName ∈ cfg.events →
      ∃ transition, ((runHistory X E configs path writes schedule s).phase i).linked =
          some transition ∧
        Records X (runHistory X E configs path writes schedule s).tree.world event transition ∧
        OnChain X E path (runHistory X E configs path writes schedule s).tree transition := by
    intro i event hevent hname
    have hrec := recordedAs_of_tracks htracks (hinv.here i event hevent) hname
    have hsound := hinv.sound i
    obtain ⟨e,t,hi⟩ := hdone i
    rw [hi] at hevent hsound ⊢
    obtain rfl : e = some event := hevent
    cases t with
    | none =>
      have hnone : recordedAs configs E event = none := hsound
      rw [hrec] at hnone
      cases hnone
    | some transition => exact ⟨transition,rfl,hsound.1,hsound.2⟩
  refine ⟨?_,?_⟩
  · intro i event hevent hname
    obtain ⟨t,ht,hr,hc⟩ := hrecorded i event hevent hname
    exact ⟨t,ht,hr,hc,fun h hh => hc.accepted hr hh⟩
  · intro hall hsome first rest hsplit h hbound
    have hne := headPointerPath_ne htracks.outside
    have haccount : Accounted path (s.tree.inner.get path) s := by
      refine .inl ⟨?_,rfl⟩
      rintro event ⟨j,hj⟩
      rw [hstart j] at hj
      cases hj
    have hrun : ∀ schedule, SafeLinks X E configs path writes schedule s →
        Accounted path (s.tree.inner.get path) (runHistory X E configs path writes schedule s) :=
      fun schedule hsafe => Schedule.run_invariant
        (fun i s h hi => historyStep_accounted hne htracks.storable h hi) haccount hsafe
    have haccepted : ∀ event, Occurred (runHistory X E configs path writes schedule s) event →
        event.newHash = some h ∨ event.previousHash = some h →
        Accepted X E path (runHistory X E configs path writes schedule s).tree h := by
      rintro event ⟨j,hj⟩ hh
      obtain ⟨t,-,hr,hc⟩ := hrecorded j event hj (hall (historyName_mem _))
      exact hc.accepted hr hh
    have hfirst : SafeLinks X E configs path writes first s := by
      rw [hsplit] at hsafe
      exact ((Schedule.admissible_append first rest s).mp hsafe).1
    rcases hrun first hfirst with ⟨-,hget⟩ | ⟨⟨event,hoccurred,hnew⟩,-⟩
    · -- nothing had happened yet, so the first event reports this binding as the old one
      rcases hrun schedule hsafe with ⟨hnone,-⟩ | ⟨-,⟨old,hold,hprev⟩⟩
      · obtain ⟨event,hevent⟩ := hsome
        exact absurd hevent (hnone event)
      · exact haccepted old hold (.inr (hprev.trans (hget.symm.trans hbound)))
    · have hlater : Occurred (runHistory X E configs path writes schedule s) event := by
        rw [hsplit,runHistory,Schedule.run_append]
        exact hoccurred.run
      exact haccepted event hlater (.inl (hnew.trans hbound))

local instance instNeZeroLinks : NeZero 2 := ⟨by decide⟩

namespace HistorySample

open Sample

def engine : HistoryEngine := ⟨aliceId,alice.contentHash⟩
def notes : Str := '/'::aliceId++ "/app/notes".toList

def one : Hash := sha256Hash 0xa98b78e5059e329654170d2592cabd73feb6428b81e31a423f0b781b3e4a76f3
def two : Hash := sha256Hash 0xbd80b2f7c4de929a1078df89d78a7fdd0b30c0acb24c28c2dee2f898e2626be9

def transition (event : String) (hash : Hash) (previousHash previous : Option Hash) : Value :=
  TransitionFields.toValue ⟨notes,event.toList,some hash,previousHash,some alice.contentHash,none,
    none,none,none,none,none,none,previous⟩ 0

def created := transition "created" one none none
def createdHash : Hash :=
  sha256Hash 0xc181f1a71f8d768df40e50146656761e6b65408a0cdab59afdcd60f3b72062af
def updated := transition "updated" two (some one) (some createdHash)
def unlinked := transition "updated" two (some one) none

def crates : Platform := platform [created,updated,unlinked] [
  (ecfForHash typeHistoryTransition (toEcf created),
    0xc181f1a71f8d768df40e50146656761e6b65408a0cdab59afdcd60f3b72062af),
  (ecfForHash typeHistoryTransition (toEcf updated),
    0xe33802d47b6312448df1f226a3bc2b427d641f3f6c0bb2be0de7fb313b14bbd9),
  (ecfForHash typeHistoryTransition (toEcf unlinked),
    0x037d65312d861d619dcd5ae634fde36cd826a9468a4e86f5728c6592c32044ea)] []

def everything : HistoryConfig := ⟨"all".toList,"app/*".toList,true,allHistoryEvents,none⟩

def writes : Fin 2 → HistoryWrite :=
  ![⟨.set one,{},none,0⟩,⟨.set two,{},none,0⟩]

def idle : HistoryRun (Fin 2) := ⟨⟨⟨.empty⟩,0,.empty,⟨[]⟩⟩,fun _ => .waiting⟩

def inTurn : List (Fin 2) := [0,0,0,0,0,1,1,1,1,1]

/-- Both hooks read the head pointer before either sets it; the first write sets it last. -/
def crossed : List (Fin 2) := [0,1,0,1,0,1,1,0,0,1]

def after (schedule : List (Fin 2)) : HistoryRun (Fin 2) :=
  runHistory crates engine [everything] notes writes schedule idle

theorem safeLink_iff (s : HistoryRun (Fin 2)) (i : Fin 2) : SafeLink engine notes writes i s ↔
    match s.phase i with
    | .waiting => ¬ s.tree.deeper.chainExceeded
        ((writes i).context.atDepth s.tree.deeper.cascadeDepth) = true
    | .linking _ previous _ =>
      s.tree.inner.get (headPointerPath engine.localPeerId notes) = previous ∧
        s.tree.cascadeDepth < cascadeDepthLimit
    | _ => True := by
  have hlimit := (NotifyingLocationIndex.chainExceeded_iff s.tree (writes i).context).not
  cases hp : s.phase i with
  | waiting =>
    refine ⟨fun h => hlimit.mpr (h.delivered hp),fun h => ⟨fun _ => hlimit.mp h,?_⟩⟩
    intro event previous transition hl
    rw [hp] at hl
    cases hl
  | linking event previous transition =>
    refine ⟨fun h => h.current _ _ _ hp,fun h => ⟨fun hw => ?_,?_⟩⟩
    · rw [hp] at hw
      cases hw
    · intro event' previous' transition' hl
      rw [hp] at hl
      cases hl
      exact h
  | _ =>
    refine ⟨fun _ => trivial,fun _ => ⟨fun hw => ?_,?_⟩⟩
    · rw [hp] at hw
      cases hw
    · intro event' previous' transition' hl
      rw [hp] at hl
      cases hl

instance decidableSafeLink (s : HistoryRun (Fin 2)) (i : Fin 2) :
    Decidable (SafeLink engine notes writes i s) :=
  haveI : ∀ p : HistoryPhase, Decidable (match p with
    | .waiting => ¬ s.tree.deeper.chainExceeded
        ((writes i).context.atDepth s.tree.deeper.cascadeDepth) = true
    | .linking _ previous _ =>
      s.tree.inner.get (headPointerPath engine.localPeerId notes) = previous ∧
        s.tree.cascadeDepth < cascadeDepthLimit
    | _ => True) := fun p => by cases p <;> infer_instance
  decidable_of_iff _ (safeLink_iff s i).symm

instance decidableSafeLinks : ∀ (schedule : List (Fin 2)) (s : HistoryRun (Fin 2)),
    Decidable (SafeLinks crates engine [everything] notes writes schedule s)
  | [], _ => .isTrue trivial
  | i::rest, s =>
    haveI := decidableSafeLinks rest (historyStep crates engine [everything] notes writes i s)
    inferInstanceAs (Decidable (SafeLink engine notes writes i s ∧
      SafeLinks crates engine [everything] notes writes rest
        (historyStep crates engine [everything] notes writes i s)))

/-- The writer's event and transition once it has finished. -/
def outcome : HistoryPhase → Option (Option Hash)
  | .finished _ transition => some transition
  | _ => none

theorem finished_of_outcome {p : HistoryPhase} (h : (outcome p).isSome) :
    ∃ event transition, p = .finished event transition := by
  cases p with
  | finished event transition => exact ⟨event,transition,rfl⟩
  | _ => cases h

/-- What the two runs come to, evaluated together. -/
theorem runs_end : (crates.FormatAllocated ∧
      SafeLinks crates engine [everything] notes writes inTurn idle ∧
      (∀ i, (outcome ((after inTurn).phase i)).isSome) ∧
      (((after inTurn).phase 0).event).isSome ∧
      (after [0,0,0,0,0]).tree.inner.get notes = some one ∧
      (after inTurn).tree.inner.get notes = some two) ∧
    ((∀ e ∈ (after inTurn).tree.world.puts, (after inTurn).tree.world.get e.contentHash = some e) ∧
      (∀ e ∈ (after inTurn).tree.world.puts, e.data.length < 2^63) ∧
      (∀ e ∈ (after inTurn).tree.world.puts, ∃ v ∈ [created,updated,unlinked], toEcf v = e.data)) ∧
    (notes = '/'::aliceId++ '/'::"app/notes".toList ∧
      pathIsStorable ('/'::aliceId++ '/'::"app/notes".toList) = true ∧
      pathIsStorable notes = true ∧ isLocalHistoryPath notes engine.localPeerId = false ∧
      startsWith notes (historyConfigPrefix engine.localPeerId) = false ∧
      selectMatchingConfig [everything] notes engine.localPeerId = some everything) ∧
    (∀ i, (outcome ((after crossed).phase i)).isSome) ∧
    (after crossed).tree.inner.get notes = some two ∧
    (((after crossed).phase 1).event).map (·.newHash) = some (some two) ∧
    (after crossed).tree.inner.get (headPointerPath aliceId notes) = some createdHash ∧
    (transitionAt crates (after crossed).tree.world createdHash).map
      (fun d => (d.hash,d.previousHash,d.previous)) = some (some one,none,none) ∧
    ¬ one = two := by decide +kernel

theorem tracks_notes : TracksPath engine [everything] notes everything := by
  obtain ⟨-,-,⟨hnotes,hrest,hstorable,houtside,hstable,hselected⟩,-⟩ := runs_end
  have hvalid : validateAbsolutePath notes = .ok () := by
    rw [hnotes]
    exact valid_of_storable aliceId_isPeerId hrest
  exact ⟨hvalid,hstorable,houtside,hstable,hselected,rfl⟩

theorem inTurn_readable : (after inTurn).tree.world.Readable crates := by
  have ⟨hret,hsize,hdoc⟩ := runs_end.2.1
  refine readable_of_documents hret hsize hdoc ?_
  simp only [List.forall_mem_cons]
  exact ⟨TransitionFields.toValue_regular _ _,TransitionFields.toValue_regular _ _,
    TransitionFields.toValue_regular _ _,by simp⟩

end HistorySample

open HistorySample Sample

theorem history_keeps_transitions_sample :
    SafeLinks crates engine [everything] notes writes inTurn idle ∧
    (after inTurn).tree.inner.get notes = some two ∧
    Accepted crates engine notes (after inTurn).tree one ∧
    Accepted crates engine notes (after inTurn).tree two := by
  have ⟨hX,hsafe,hall,hevent,hone,htwo⟩ := runs_end.1
  have hread := inTurn_readable
  rw [after] at hall hevent hone htwo hread ⊢
  have hkept := (history_keeps_transitions crates hX engine aliceId_isPeerId [everything] notes everything
    tracks_notes writes inTurn idle (fun _ => rfl) hread hsafe
    (fun i => finished_of_outcome (hall i))).2 (List.Subset.refl _)
  obtain ⟨event,he⟩ := Option.isSome_iff_exists.mp hevent
  exact ⟨hsafe,htwo,hkept ⟨event,0,he⟩ [0,0,0,0,0] [1,1,1,1,1] rfl one hone,
    hkept ⟨event,0,he⟩ inTurn [] rfl two htwo⟩

/-- Both writers have finished and the path is bound to the second hash, whose transition
is in the store and not on the chain. -/
theorem history_loses_transition : (∀ i, (outcome ((after crossed).phase i)).isSome) ∧
    (after crossed).tree.inner.get notes = some two ∧
    (∃ event, Occurred (after crossed) event ∧ event.newHash = some two) ∧
    ¬Accepted crates engine notes (after crossed).tree two := by
  have ⟨hall,hbound,hevent,hhead,hread,hne⟩ := runs_end.2.2.2
  refine ⟨hall,hbound,?_,?_⟩
  · obtain ⟨event,he,hnew⟩ := Option.map_eq_some_iff.mp hevent
    exact ⟨event,⟨1,he⟩,hnew⟩
  · rintro ⟨n,hn⟩
    have haccept := hn (n+1) (Nat.le_succ n)
    obtain ⟨d,hd,hfields⟩ := Option.map_eq_some_iff.mp hread
    have hfalse : isInHistory crates (n+1) aliceId notes two (after crossed).tree = some false := by
      simp only [Prod.mk.injEq] at hfields
      rw [isInHistory,hhead,History.walkHistory,hd]
      simp [hfields,hne,History.walkHistory]
    rw [show isInHistory crates (n+1) engine.localPeerId notes two (after crossed).tree =
      some false from hfalse] at haccept
    cases haccept

end EntityCore
