import EntityCore.Documents
import EntityCore.EmitSteps
import EntityCore.Schedule

/-! The clock hook. Every tree event outside the clock's own subtree advances the
logical counter, and in vector and HLC mode the vector or the hybrid clock with it; the
clock's state is then read back into the context of the event. The hooks of concurrent
events interleave step by step. -/
namespace EntityCore

open ByteCode Ecf Outcome Strings

structure ClockLogical where
  counter : ℕ
  deriving DecidableEq

structure ClockHlc where
  physical : ℕ
  logical : ℕ
  peer : Hash
  deriving DecidableEq

structure ClockState where
  mode : Str
  timestamp : Option ℕ
  logical : Option ClockLogical
  vector : Option (OrderedMap Str ℕ)
  hlc : Option ClockHlc
  deriving DecidableEq

structure ClockConfig where
  mode : Str
  wallClock : Bool

def maxVectorEntries : ℕ := 1024

/-- In these modes the hook keeps a logical counter. -/
def ClockConfig.counts (cfg : ClockConfig) : Bool :=
  cfg.mode = "logical".toList || cfg.mode = "vector".toList || cfg.mode = "hlc".toList

section Decoding

variable (X : Platform)

def decodeClockMap (data : Bytes) : Option (List (Value × Value)) := do
  (← (X.fromReader data).toOption).asMap

def decodeCounter (data : Bytes) : Option ℕ := do
  let v ← getField (← decodeClockMap X data) "counter"
  v.asInteger.map (·.lowWord)

def wordOrZero (v : Value) : ℕ := (v.asInteger.map (·.lowWord)).getD 0

def decodeVectorEntries (data : Bytes) : Option (OrderedMap Str ℕ) := do
  let entries ← (← getField (← decodeClockMap X data) "entries").asMap
  return entries.foldl (fun result e => match e.1.asText with
    | some name => result.insert name (wordOrZero e.2)
    | none => result) .empty

/-- The last field of a name counts. -/
def scanHlcField (hlc : ClockHlc) (kv : Value × Value) : ClockHlc :=
  if kv.1.asText = key "physical" then { hlc with physical := wordOrZero kv.2 }
  else if kv.1.asText = key "logical" then { hlc with logical := wordOrZero kv.2 }
  else if kv.1.asText = key "peer" then match kv.2.asBytes with
    | some b => { hlc with peer := (Hash.fromBytes b).toOption.getD Hash.zero }
    | none => hlc
  else hlc

def decodeHlc (data : Bytes) : Option ClockHlc :=
  (decodeClockMap X data).map fun map => map.foldl scanHlcField ⟨0,0,Hash.zero⟩

end Decoding

def counterValue (counter : ℕ) : Value := .map [field "counter" (integerI64 counter)]

def vectorValue (entries : OrderedMap Str ℕ) : Value :=
  .map [field "entries" (.map (entries.entries.map fun e => (.text e.1,integerI64 e.2)))]

def ClockHlc.toValue (hlc : ClockHlc) : Value :=
  .map [field "logical" (integerI64 hlc.logical),field "peer" (hashVal hlc.peer),
    field "physical" (integerI64 hlc.physical)]

/-! The vector clock and the hybrid clock. -/

/-- The first entry with the least counter. -/
def oldestEntry (entries : List (Str × ℕ)) : Option Str :=
  (entries.argmin (·.2)).map (·.1)

/-- Oldest entries go until the limit is met. -/
def evictOldest : ℕ → OrderedMap Str ℕ → OrderedMap Str ℕ
  | 0, entries => entries
  | n+1, entries => match oldestEntry entries.entries with
    | some k => evictOldest n (entries.erase k)
    | none => entries

def advanceVector (peerKey : Str) (newCounter : ℕ) (entries : OrderedMap Str ℕ) :
    OrderedMap Str ℕ :=
  let ticked := entries.insert peerKey newCounter
  evictOldest (ticked.entries.length-maxVectorEntries) ticked

def hlcLocalEvent (wall : ℕ) (current : ClockHlc) (localPeerId : Hash) : ClockHlc :=
  let newPhysical := max wall current.physical
  ⟨newPhysical,if newPhysical = current.physical then (current.logical+1)%2^64 else 0,localPeerId⟩

/-! The engine. -/

structure ClockEngine where
  localPeerId : Hash
  localPeerIdStr : Str

namespace ClockEngine

variable (E : ClockEngine)

def clockPathPrefix : Str := '/'::E.localPeerIdStr++ "/system/clock/".toList
def logicalPath : Str := '/'::E.localPeerIdStr++ "/system/clock/logical".toList
def vectorPath : Str := '/'::E.localPeerIdStr++ "/system/clock/vector".toList
def hlcPath : Str := '/'::E.localPeerIdStr++ "/system/clock/hlc".toList
def peerKey : Str := (HashError.displayHash E.localPeerId).toList

variable (X : Platform)

/-- The data of the entity bound at a path. -/
def boundData (tree : NotifyingLocationIndex ContentStore) (path : Str) : Option Bytes :=
  ((tree.inner.get path).bind tree.world.get).map (·.data)

def readLogicalCounter (tree : NotifyingLocationIndex ContentStore) : ℕ :=
  ((boundData tree E.logicalPath).bind (decodeCounter X)).getD 0

def readVectorEntries (tree : NotifyingLocationIndex ContentStore) : OrderedMap Str ℕ :=
  ((boundData tree E.vectorPath).bind (decodeVectorEntries X)).getD .empty

def readHlc (tree : NotifyingLocationIndex ContentStore) : ClockHlc :=
  ((boundData tree E.hlcPath).bind (decodeHlc X)).getD ⟨0,0,E.localPeerId⟩

/-- A clock value is an entity typed by its own path. An entity that cannot be made is
not stored. -/
def storeClock (path : Str) (v : Value) (activeCtx : Option ExecutionContext)
    (tree : NotifyingLocationIndex ContentStore) : NotifyingLocationIndex ContentStore :=
  match Entity.new X path (toEcf v) with
  | .error _ => tree
  | .ok e => .quietSet path e.contentHash (activeCtx.getD {}) { tree with world := tree.world.put e }

end ClockEngine

/-! Events in flight. -/

/-- An event the clock hook is called for, with the two readings of the wall clock its
hook takes. -/
structure ClockEvent where
  path : Str
  context : ExecutionContext
  config : ClockConfig
  wallAtAdvance : ℕ
  wallAtState : ℕ

inductive ClockPhase where
  | waiting
  | activating
  | readingCounter
  | storingCounter (counter : ℕ)
  | readingVector (newCounter : ℕ)
  | storingVector (entries : OrderedMap Str ℕ)
  | readingHlc
  | storingHlc (hlc : ClockHlc)
  | deactivating
  | building
  | buildingVector (clock : ClockState)
  | buildingHlc (clock : ClockState)
  | leaving (clock : ClockState)
  | finished (clock : Option ClockState)
  deriving DecidableEq

structure ClockRun (ι : Type) where
  tree : NotifyingLocationIndex ContentStore
  activeCtx : Option ExecutionContext
  phase : ι → ClockPhase

section Run

variable {ι : Type} [DecidableEq ι] (X : Platform) (E : ClockEngine) (events : ι → ClockEvent)

def ClockRun.moveTo (s : ClockRun ι) (i : ι) (p : ClockPhase) : ClockRun ι :=
  { s with phase := Function.update s.phase i p }

/-- `store_*`: the value goes to its path under the context that is active. -/
def ClockRun.store (s : ClockRun ι) (path : Str) (v : Value) : ClockRun ι :=
  { s with tree := ClockEngine.storeClock X path v s.activeCtx s.tree }

/-- Where the hook goes once the counter is stored. -/
def ClockConfig.afterCounter (cfg : ClockConfig) (newCounter : ℕ) : ClockPhase :=
  if cfg.mode = "vector".toList then .readingVector newCounter
  else if cfg.mode = "hlc".toList then .readingHlc
  else .deactivating

def ClockEvent.clockWith (e : ClockEvent) (counter : ℕ) : ClockState where
  mode := e.config.mode
  timestamp := if e.config.mode = "wall".toList || e.config.wallClock then some e.wallAtState
    else none
  logical := if e.config.counts then some ⟨counter⟩ else none
  vector := none
  hlc := none

/-- Where the hook goes once the counter is read back. -/
def ClockConfig.afterLogical (cfg : ClockConfig) (clock : ClockState) : ClockPhase :=
  if cfg.mode = "vector".toList then .buildingVector clock
  else if cfg.mode = "hlc".toList then .buildingHlc clock
  else .leaving clock

/-- The next step of the hook of one event. -/
def clockStep (i : ι) (s : ClockRun ι) : ClockRun ι :=
  let e := events i
  match s.phase i with
  | .waiting =>
    if startsWith e.path E.clockPathPrefix then s.moveTo i (.finished none)
    else { s with tree := s.tree.deeper }.moveTo i .activating
  | .activating => { s with activeCtx := some e.context }.moveTo i
      (if e.config.mode = "wall".toList then .deactivating else .readingCounter)
  | .readingCounter => s.moveTo i (.storingCounter (E.readLogicalCounter X s.tree))
  | .storingCounter counter =>
    let newCounter := (counter+1)%2^64
    (s.store X E.logicalPath (counterValue newCounter)).moveTo i (e.config.afterCounter newCounter)
  | .readingVector newCounter =>
    s.moveTo i (.storingVector (advanceVector E.peerKey newCounter (E.readVectorEntries X s.tree)))
  | .storingVector entries =>
    (s.store X E.vectorPath (vectorValue entries)).moveTo i .deactivating
  | .readingHlc =>
    s.moveTo i (.storingHlc (hlcLocalEvent e.wallAtAdvance (E.readHlc X s.tree) E.localPeerId))
  | .storingHlc hlc => (s.store X E.hlcPath hlc.toValue).moveTo i .deactivating
  | .deactivating => { s with activeCtx := none }.moveTo i .building
  | .building => s.moveTo i
      (e.config.afterLogical (e.clockWith (E.readLogicalCounter X s.tree)))
  | .buildingVector clock =>
    s.moveTo i (.leaving { clock with vector := some (E.readVectorEntries X s.tree) })
  | .buildingHlc clock => s.moveTo i (.leaving { clock with hlc := some (E.readHlc X s.tree) })
  | .leaving clock => { s with tree := s.tree.shallower }.moveTo i (.finished (some clock))
  | .finished _ => s

def runClock (schedule : List ι) (s : ClockRun ι) : ClockRun ι :=
  Schedule.run (clockStep X E events) schedule s

end Run

namespace ClockPhase

/-- The clock state an event has been given so far. -/
def clock : ClockPhase → Option ClockState
  | .buildingVector clock => some clock
  | .buildingHlc clock => some clock
  | .leaving clock => some clock
  | .finished clock => clock
  | _ => none

/-- The logical time put into the event's context. -/
def tick (p : ClockPhase) : Option ℕ := (p.clock.bind (·.logical)).map (·.counter)

/-- The counter has been stored and is not yet read back. -/
def unread : ClockPhase → Bool
  | .readingVector _ => true
  | .storingVector _ => true
  | .readingHlc => true
  | .storingHlc _ => true
  | .deactivating => true
  | .building => true
  | _ => false

/-- The event has advanced the counter. -/
def ticked (p : ClockPhase) : Bool := p.unread || p.clock.isSome

end ClockPhase

section Safety

variable {ι : Type} [DecidableEq ι] (X : Platform) (E : ClockEngine) (events : ι → ClockEvent)

/-- The counter is stored over the value that was read, below the top of the word, where
the cascade depth admits the write, and while no other event has a stored counter to
read back. -/
def SafeTick (i : ι) (s : ClockRun ι) : Prop :=
  ∀ counter, s.phase i = .storingCounter counter →
    E.readLogicalCounter X s.tree = counter ∧ counter+1 < 2^64 ∧
      s.tree.cascadeDepth < cascadeDepthLimit ∧ ∀ j, j ≠ i → (s.phase j).unread = false

def SafeTicks (schedule : List ι) (s : ClockRun ι) : Prop :=
  Schedule.Admissible (clockStep X E events) (SafeTick X E) schedule s

/-- The store returns what was put, and the decoder reads back a counter. -/
structure ContentStore.KeepsCounters (s : ContentStore) : Prop where
  returns : ∀ e ∈ s.puts, s.get e.contentHash = some e
  decodes : ∀ e ∈ s.puts, ∀ n < 2^64, e.data = toEcf (counterValue n) →
    X.fromReader e.data = .ok (counterValue n)

/-- No hook has begun; a counter that is bound is stored. -/
structure ClockStart (s : ClockRun ι) : Prop where
  waiting : ∀ i, s.phase i = .waiting
  bound : ∀ h, s.tree.inner.get E.logicalPath = some h → (s.tree.world.get h).isSome

end Safety

/-! What a store is good for while it grows. -/

variable {t : ContentStore} {p : ClockPhase}

section Facts

variable {X : Platform}

theorem integerI64_lowWord {n : ℕ} (hn : n < 2^64) :
    (integerI64 n).asInteger.map (·.lowWord) = some n := by
  have hmod : (n : ℤ).bmod (2^64)%(2^64 : ℤ) = n := by
    rw [show (2^64 : ℤ) = ((2^64 : ℕ) : ℤ) by norm_cast,Int.bmod_emod]
    exact Int.emod_eq_of_lt (by omega) (by omega)
  simp only [integerI64,Value.asInteger,Option.map_some,Integer.lowWord,hmod,Int.toNat_natCast]

theorem counterValue_inj {m n : ℕ} (hm : m < 2^64) (hn : n < 2^64)
    (h : toEcf (counterValue m) = toEcf (counterValue n)) : m = n := by
  have hwf : ∀ k, WellFormed (counterValue k) := by
    intro k
    have hkey : ∀ e ∈ [field "counter" (integerI64 k)], WellFormed e.1 := by
      simp only [List.forall_mem_cons]
      exact ⟨.text (by decide),by simp⟩
    have hval : ∀ e ∈ [field "counter" (integerI64 k)], WellFormed e.2 := by
      simp only [List.forall_mem_cons]
      exact ⟨.integer _,by simp⟩
    exact .map (by simp) (List.nodup_singleton _) hkey hval
  have hsame := ((toEcf_identifies _ _ (hwf m) (hwf n)).1).mp h
  have hval : integerI64 m = integerI64 n := by
    generalize hv : counterValue m = v at hsame
    generalize hw : counterValue n = w at hsame
    cases hsame with
    | map hp hk hvals =>
      obtain rfl := Value.map.inj hv
      obtain rfl := Value.map.inj hw
      obtain rfl := List.singleton_perm.mp hp
      simp only [List.map_cons,List.map_nil,field,List.forall₂_cons] at hvals
      obtain ⟨hi,-⟩ := hvals
      have hform : ∀ k, ∃ i, integerI64 k = .integer i := fun k => ⟨_,rfl⟩
      obtain ⟨i,hm'⟩ := hform m
      obtain ⟨j,hn'⟩ := hform n
      rw [hm',hn'] at hi ⊢
      cases hi
      rfl
    | _ => cases hv
  have hword := congrArg (fun v : Value => v.asInteger.map (·.lowWord)) hval
  simp only [integerI64_lowWord hm,integerI64_lowWord hn] at hword
  exact Option.some.inj hword

theorem decodeCounter_of_read {data : Bytes} {n : ℕ} (hn : n < 2^64)
    (h : X.fromReader data = .ok (counterValue n)) : decodeCounter X data = some n := by
  simp only [decodeCounter,decodeClockMap,h,counterValue,field,getField]
  show ((integerI64 n).asInteger.map (·.lowWord)) = some n
  exact integerI64_lowWord hn

namespace ClockEngine

variable {E : ClockEngine} (path : Str) (v : Value) (ctx : Option ExecutionContext)
  (tree : NotifyingLocationIndex ContentStore)

theorem le_storeClock : tree.world ≤ (storeClock X path v ctx tree).world := by
  unfold storeClock
  cases Entity.new X path (toEcf v) with
  | error err => exact le_rfl
  | ok e =>
    rw [NotifyingLocationIndex.quietSet_world]
    exact List.suffix_cons e tree.world.puts

theorem storeClock_get_ne {p : Str} (hp : p ≠ path) :
    (storeClock X path v ctx tree).inner.get p = tree.inner.get p := by
  unfold storeClock
  cases Entity.new X path (toEcf v) with
  | error err => rfl
  | ok e =>
    rw [NotifyingLocationIndex.quietSet_inner]
    split_ifs
    · rw [MemoryLocationIndex.get_set,if_neg fun h => hp h.1]
    · rfl

/-- An admitted value is bound to its path with its entity in the store. -/
theorem storeClock_bound (hX : X.FormatAllocated) (hne : path ≠ []) (hpeer : path ≠ typePeer)
    (hv : toEcf v ≠ []) (hs : pathIsStorable path = true) (ha : tree.admits path = true) :
    ∃ e, (storeClock X path v ctx tree).inner.get path = some e.contentHash ∧
      (storeClock X path v ctx tree).world = tree.world.put e ∧ e.data = toEcf v := by
  obtain ⟨e,he⟩ := Entity.new_ok hX hne hpeer hv
  have hdata : e.data = toEcf v := (Entity.newWithFormat_ok X he).2.1
  have hadmits : NotifyingLocationIndex.admits path
      { tree with world := tree.world.put e } = true := ha
  refine ⟨e,?_,?_,hdata⟩
  · simp only [storeClock,he]
    rw [NotifyingLocationIndex.quietSet_inner,if_pos hadmits,MemoryLocationIndex.get_set]
    simp [hs]
  · simp only [storeClock,he]
    rw [NotifyingLocationIndex.quietSet_world]

variable {path v ctx tree}

theorem boundData_eq {tree' : NotifyingLocationIndex ContentStore}
    (ht : ∀ e ∈ t.puts, t.get e.contentHash = some e) (hle : tree'.world ≤ t)
    (hst : tree.world ≤ tree'.world)
    (hb : ∀ h, tree.inner.get path = some h → (tree.world.get h).isSome)
    (hg : tree'.inner.get path = tree.inner.get path) :
    boundData tree' path = boundData tree path := by
  unfold boundData
  rw [hg]
  cases hp : tree.inner.get path with
  | none => rfl
  | some h =>
    obtain ⟨e,he⟩ := Option.isSome_iff_exists.mp (hb h hp)
    have he' : tree'.world.get h = some e := ContentStore.get_grows ht hst hle he
    simp [he,he']

end ClockEngine

end Facts

/-! The invariant: the counter is the starting value and one for every event that has
advanced it, and the ticks given so far lie below it while another is to be read. -/

section Invariant

variable {ι : Type} [DecidableEq ι] [Fintype ι] (X : Platform) (E : ClockEngine)

structure ClockInv (start : ℕ) (s : ClockRun ι) : Prop where
  bound : ∀ h, s.tree.inner.get E.logicalPath = some h → (s.tree.world.get h).isSome
  count : E.readLogicalCounter X s.tree =
    start+(Finset.univ.filter fun j => (s.phase j).ticked = true).card
  tick_le : ∀ j n, (s.phase j).tick = some n → n ≤ E.readLogicalCounter X s.tree
  tick_lt : ∀ j n, (s.phase j).tick = some n → ∀ k, (s.phase k).unread = true →
    n < E.readLogicalCounter X s.tree
  single : ∀ j k, (s.phase j).unread = true → (s.phase k).unread = true → j = k
  distinct : ∀ j k, j ≠ k → ∀ n, (s.phase j).tick = some n → (s.phase k).tick ≠ some n
  given : ∀ j clock, (s.phase j).clock = some clock → (s.phase j).tick.isSome

variable {X E} {events : ι → ClockEvent} {start : ℕ} {s : ClockRun ι}

/-- A step that neither stores nor reads back the counter. -/
theorem ClockInv.frame (h : ClockInv X E start s) {s' : ClockRun ι} {i : ι}
    (hphase : s'.phase = Function.update s.phase i p)
    (hbound : ∀ h, s'.tree.inner.get E.logicalPath = some h → (s'.tree.world.get h).isSome)
    (hread : E.readLogicalCounter X s'.tree = E.readLogicalCounter X s.tree)
    (hunread : p.unread = (s.phase i).unread) (htick : p.tick = (s.phase i).tick)
    (hclock : p.clock.isSome = (s.phase i).clock.isSome) : ClockInv X E start s' := by
  have hu : ∀ j, (s'.phase j).unread = (s.phase j).unread := by
    rw [hphase]
    exact Schedule.update_forall (P := fun j (p : ClockPhase) => p.unread = (s.phase j).unread) hunread
      fun j _ => rfl
  have ht : ∀ j, (s'.phase j).tick = (s.phase j).tick := by
    rw [hphase]
    exact Schedule.update_forall (P := fun j (p : ClockPhase) => p.tick = (s.phase j).tick) htick fun j _ => rfl
  have hc : ∀ j, (s'.phase j).clock.isSome = (s.phase j).clock.isSome := by
    rw [hphase]
    exact Schedule.update_forall (P := fun j (p : ClockPhase) => p.clock.isSome = (s.phase j).clock.isSome)
      hclock fun j _ => rfl
  refine ⟨hbound,?_,?_,?_,?_,?_,?_⟩
  · have hticked : ∀ j, (s'.phase j).ticked = (s.phase j).ticked := fun j => by
      rw [ClockPhase.ticked,ClockPhase.ticked,hu,hc]
    rw [hread,h.count]
    simp only [hticked]
  · intro j n hj
    rw [hread]
    exact h.tick_le j n (ht j ▸ hj)
  · intro j n hj k hk
    rw [hread]
    exact h.tick_lt j n (ht j ▸ hj) k (hu k ▸ hk)
  · intro j k hj hk
    exact h.single j k (hu j ▸ hj) (hu k ▸ hk)
  · intro j k hjk n hj
    rw [ht k]
    exact h.distinct j k hjk n (ht j ▸ hj)
  · intro j clock hj
    have hsome : (s.phase j).clock.isSome = true := by rw [← hc j,hj]; rfl
    obtain ⟨c,hc'⟩ := Option.isSome_iff_exists.mp hsome
    rw [ht j]
    exact h.given j c hc'

/-- Storing the next counter while none is to be read back. -/
theorem ClockInv.store (h : ClockInv X E start s) {s' : ClockRun ι} {i : ι}
    (hphase : s'.phase = Function.update s.phase i p)
    (hbound : ∀ h, s'.tree.inner.get E.logicalPath = some h → (s'.tree.world.get h).isSome)
    (hread : E.readLogicalCounter X s'.tree = E.readLogicalCounter X s.tree+1)
    (hi : (s.phase i).ticked = false) (hp : p.unread = true) (hpc : p.clock = none)
    (hothers : ∀ j, j ≠ i → (s.phase j).unread = false) : ClockInv X E start s' := by
  have hself : s'.phase i = p := by rw [hphase,Function.update_self]
  have hother : ∀ j, j ≠ i → s'.phase j = s.phase j := fun j hj => by
    rw [hphase,Function.update_of_ne hj]
  have hptick : p.tick = none := by rw [ClockPhase.tick,hpc]; rfl
  have hpt : p.ticked = true := by rw [ClockPhase.ticked,hp]; rfl
  have hold : ∀ j n, (s'.phase j).tick = some n → j ≠ i ∧ (s.phase j).tick = some n := by
    intro j n hj
    have hji : j ≠ i := by
      rintro rfl
      rw [hself,hptick] at hj
      cases hj
    exact ⟨hji,hother j hji ▸ hj⟩
  have honly : ∀ j, (s'.phase j).unread = true → j = i := by
    intro j hj
    by_contra hji
    rw [hother j hji,hothers j hji] at hj
    cases hj
  refine ⟨hbound,?_,?_,?_,?_,?_,?_⟩
  · rw [hread,h.count,hphase,Schedule.card_update_enter hi hpt,Nat.add_assoc]
  · intro j n hj
    have hle := h.tick_le j n (hold j n hj).2
    omega
  · intro j n hj k _
    have hle := h.tick_le j n (hold j n hj).2
    omega
  · intro j k hj hk
    rw [honly j hj,honly k hk]
  · intro j k hjk n hj hk
    exact h.distinct j k hjk n (hold j n hj).2 (hold k n hk).2
  · intro j clock hj
    have hji : j ≠ i := by
      rintro rfl
      rw [hself,hpc] at hj
      cases hj
    rw [hother j hji] at hj ⊢
    exact h.given j clock hj

theorem ClockInv.readBack (h : ClockInv X E start s) {s' : ClockRun ι} {i : ι}
    (hphase : s'.phase = Function.update s.phase i p) (htree : s'.tree = s.tree)
    (hi : (s.phase i).unread = true) (hp : p.unread = false)
    (hpc : p.clock.isSome = true) (htick : p.tick = some (E.readLogicalCounter X s.tree)) :
    ClockInv X E start s' := by
  have hself : s'.phase i = p := by rw [hphase,Function.update_self]
  have hother : ∀ j, j ≠ i → s'.phase j = s.phase j := fun j hj => by
    rw [hphase,Function.update_of_ne hj]
  have hnone : ∀ j, (s'.phase j).unread = false := by
    intro j
    by_cases hj : j = i
    · rw [hj,hself,hp]
    · rw [hother j hj]
      by_contra hu
      exact hj (h.single j i (by simpa using hu) hi)
  have hbelow : ∀ j n, j ≠ i → (s'.phase j).tick = some n →
      n < E.readLogicalCounter X s.tree := by
    intro j n hj hn
    exact h.tick_lt j n (hother j hj ▸ hn) i hi
  refine ⟨by rw [htree]; exact h.bound,?_,?_,?_,?_,?_,?_⟩
  · have hticked : p.ticked = (s.phase i).ticked := by
      simp [ClockPhase.ticked,hpc,hi]
    rw [htree,h.count,hphase,Schedule.card_update_stay hticked]
  · intro j n hj
    rw [htree]
    by_cases hji : j = i
    · rw [hji,hself,htick] at hj
      exact (Option.some.inj hj).ge
    · exact (hbelow j n hji hj).le
  · intro j n _ k hk
    rw [hnone k] at hk
    cases hk
  · intro j k hj
    rw [hnone j] at hj
    cases hj
  · intro j k hjk n hj hk
    by_cases hji : j = i
    · rw [hji,hself,htick] at hj
      have hlt := hbelow k n (hji ▸ hjk.symm) hk
      exact hlt.ne (Option.some.inj hj).symm
    · by_cases hki : k = i
      · rw [hki,hself,htick] at hk
        exact (hbelow j n hji hj).ne (Option.some.inj hk).symm
      · exact h.distinct j k hjk n (hother j hji ▸ hj) (hother k hki ▸ hk)
  · intro j clock hj
    by_cases hji : j = i
    · rw [hji,hself,htick]
      rfl
    · rw [hother j hji] at hj ⊢
      exact h.given j clock hj

/-! Paths. -/

theorem ClockEngine.logicalPath_storable (hl : EntityUri.isPeerId E.localPeerIdStr = true) :
    pathIsStorable E.logicalPath = true := by
  have hslash : ¬ "//".toList <:+: "/system/clock/logical".toList := by decide
  have hplain : "/system/clock/logical".toList.all (fun c => !isControl c && c ≠ '.') = true := by
    decide
  simp only [List.all_eq_true,Bool.and_eq_true,Bool.not_eq_true',decide_eq_true_eq] at hplain
  exact storable_of_peer hl hslash hplain

theorem ClockEngine.logicalPath_ne (E : ClockEngine) :
    E.logicalPath ≠ E.vectorPath ∧ E.logicalPath ≠ E.hlcPath := by
  constructor
  · intro h
    have hh : "/system/clock/logical".toList = "/system/clock/vector".toList :=
      List.append_cancel_left h
    revert hh
    decide
  · intro h
    have hh : "/system/clock/logical".toList = "/system/clock/hlc".toList :=
      List.append_cancel_left h
    revert hh
    decide

theorem ClockEngine.logicalPath_type (E : ClockEngine) :
    E.logicalPath ≠ [] ∧ E.logicalPath ≠ typePeer := by
  constructor
  · exact List.cons_ne_nil _ _
  · intro h
    have hpeer : typePeer.head? = some 's' := by decide
    have hhead : E.logicalPath.head? = some '/' := rfl
    rw [h,hpeer] at hhead
    revert hhead
    decide

/-! Steps. -/

omit [Fintype ι] in
theorem le_clockStep (i : ι) (s : ClockRun ι) :
    s.tree.world ≤ (clockStep X E events i s).tree.world := by
  unfold clockStep
  cases s.phase i with
  | waiting => dsimp only; split_ifs <;> exact le_rfl
  | storingCounter counter => exact ClockEngine.le_storeClock _ _ _ _
  | storingVector entries => exact ClockEngine.le_storeClock _ _ _ _
  | storingHlc hlc => exact ClockEngine.le_storeClock _ _ _ _
  | _ => exact le_rfl

/-- A clock value stored elsewhere leaves the counter alone. -/
theorem ClockInv.storeElsewhere (h : ClockInv X E start s)
    (ht : ∀ e ∈ t.puts, t.get e.contentHash = some e) {path : Str} (hp : E.logicalPath ≠ path)
    {v : Value} {i : ι} (hle : (s.store X path v).tree.world ≤ t)
    (hunread : p.unread = (s.phase i).unread) (htick : p.tick = (s.phase i).tick)
    (hclock : p.clock.isSome = (s.phase i).clock.isSome) :
    ClockInv X E start ((s.store X path v).moveTo i p) := by
  have hget := ClockEngine.storeClock_get_ne (X := X) path v s.activeCtx s.tree hp
  have hgrow := ClockEngine.le_storeClock (X := X) path v s.activeCtx s.tree
  refine h.frame rfl ?_ ?_ hunread htick hclock
  · intro hash hh
    have hold : s.tree.inner.get E.logicalPath = some hash := hget.symm.trans hh
    obtain ⟨e,he⟩ := Option.isSome_iff_exists.mp (h.bound hash hold)
    exact Option.isSome_of_eq_some (ContentStore.get_grows ht hgrow hle he)
  · have hdata : ClockEngine.boundData (s.store X path v).tree E.logicalPath =
        ClockEngine.boundData s.tree E.logicalPath :=
      ClockEngine.boundData_eq ht hle hgrow h.bound hget
    show E.readLogicalCounter X (s.store X path v).tree = _
    rw [ClockEngine.readLogicalCounter,hdata,ClockEngine.readLogicalCounter]

theorem ClockInv.storeCounter (hX : X.FormatAllocated)
    (hl : EntityUri.isPeerId E.localPeerIdStr = true) (h : ClockInv X E start s)
    (ht : t.KeepsCounters X) {i : ι} {counter : ℕ}
    (hi : s.phase i = .storingCounter counter) (hsafe : SafeTick X E i s)
    (hle : (clockStep X E events i s).tree.world ≤ t) :
    ClockInv X E start (clockStep X E events i s) := by
  obtain ⟨hcur,htop,hdepth,hothers⟩ := hsafe counter hi
  have hadmits : s.tree.admits E.logicalPath = true :=
    NotifyingLocationIndex.admits_of_storable hl (ClockEngine.logicalPath_storable hl) hdepth
  have hmod : (counter+1)%2^64 = counter+1 := Nat.mod_eq_of_lt htop
  obtain ⟨e,hbound,hworld,hdata⟩ := ClockEngine.storeClock_bound E.logicalPath
    (counterValue (counter+1)) s.activeCtx s.tree hX E.logicalPath_type.1 E.logicalPath_type.2
    (toEcf_map_ne_nil _) (ClockEngine.logicalPath_storable hl) hadmits
  have hstep : clockStep X E events i s =
      (s.store X E.logicalPath (counterValue (counter+1))).moveTo i
        ((events i).config.afterCounter (counter+1)) := by
    simp only [clockStep,hi,hmod]
  rw [hstep] at hle ⊢
  have hmem : e ∈ t.puts := by
    have hput : e ∈ (s.tree.world.put e).puts := List.mem_cons_self
    exact List.IsSuffix.mem hput (hworld ▸ hle)
  have hget : (ClockEngine.storeClock X E.logicalPath (counterValue (counter+1)) s.activeCtx
      s.tree).world.get e.contentHash = some e := by
    rw [hworld]
    simp [ContentStore.put,ContentStore.get]
  have hdecode : decodeCounter X e.data = some (counter+1) :=
    decodeCounter_of_read htop (ht.decodes e hmem _ htop hdata)
  refine h.store rfl ?_ ?_ (by rw [hi]; rfl) ?_ ?_ hothers
  · intro hash hh
    have hhash : e.contentHash = hash := Option.some.inj (hbound.symm.trans hh)
    rw [← hhash]
    exact Option.isSome_of_eq_some hget
  · show E.readLogicalCounter X (ClockEngine.storeClock X E.logicalPath
      (counterValue (counter+1)) s.activeCtx s.tree) = _
    rw [hcur,ClockEngine.readLogicalCounter,ClockEngine.boundData,hbound]
    simp [hget,hdecode]
  · unfold ClockConfig.afterCounter
    split_ifs <;> rfl
  · unfold ClockConfig.afterCounter
    split_ifs <;> rfl

theorem ClockConfig.afterLogical_clock (cfg : ClockConfig) (clock : ClockState) :
    (cfg.afterLogical clock).clock = some clock ∧ (cfg.afterLogical clock).unread = false := by
  unfold ClockConfig.afterLogical
  split_ifs <;> exact ⟨rfl,rfl⟩

theorem clockStep_inv (hX : X.FormatAllocated) (hl : EntityUri.isPeerId E.localPeerIdStr = true)
    (hcounts : ∀ i, (events i).config.counts = true)
    (houtside : ∀ i, startsWith (events i).path E.clockPathPrefix = false)
    (ht : t.KeepsCounters X) (h : ClockInv X E start s) {i : ι} (hsafe : SafeTick X E i s)
    (hle : (clockStep X E events i s).tree.world ≤ t) :
    ClockInv X E start (clockStep X E events i s) := by
  have hwall : (events i).config.mode ≠ "wall".toList := by
    intro hm
    have hc := hcounts i
    rw [ClockConfig.counts,hm] at hc
    revert hc
    decide
  cases hi : s.phase i with
  | storingCounter counter => exact h.storeCounter hX hl ht hi hsafe hle
  | storingVector entries =>
    simp only [clockStep,hi] at hle ⊢
    exact h.storeElsewhere ht.returns E.logicalPath_ne.1 hle (by rw [hi]; rfl) (by rw [hi]; rfl)
      (by rw [hi]; rfl)
  | storingHlc hlc =>
    simp only [clockStep,hi] at hle ⊢
    exact h.storeElsewhere ht.returns E.logicalPath_ne.2 hle (by rw [hi]; rfl) (by rw [hi]; rfl)
      (by rw [hi]; rfl)
  | building =>
    simp only [clockStep,hi]
    have hclock := ClockConfig.afterLogical_clock (events i).config
      ((events i).clockWith (E.readLogicalCounter X s.tree))
    refine h.readBack rfl rfl (by rw [hi]; rfl) hclock.2 (by rw [hclock.1]; rfl) ?_
    rw [ClockPhase.tick,hclock.1]
    simp [ClockEvent.clockWith,hcounts i]
  | waiting =>
    simp only [clockStep,hi,houtside i]
    exact h.frame rfl h.bound rfl (by rw [hi]; rfl) (by rw [hi]; rfl) (by rw [hi]; rfl)
  | activating =>
    simp only [clockStep,hi,if_neg hwall]
    exact h.frame rfl h.bound rfl (by rw [hi]; rfl) (by rw [hi]; rfl) (by rw [hi]; rfl)
  | finished clock =>
    simp only [clockStep,hi]
    exact h
  | _ =>
    simp only [clockStep,hi]
    exact h.frame rfl h.bound rfl (by rw [hi]; rfl) (by rw [hi]; rfl) (by rw [hi]; rfl)

omit [DecidableEq ι] in
theorem ClockStart.inv (h : ClockStart E s) : ClockInv X E (E.readLogicalCounter X s.tree) s := by
  have hclock : ∀ j, (s.phase j).clock = none := fun j => by rw [h.waiting j]; rfl
  have htick : ∀ j, (s.phase j).tick = none := fun j => by rw [h.waiting j]; rfl
  have hunread : ∀ j, (s.phase j).unread = false := fun j => by rw [h.waiting j]; rfl
  refine ⟨h.bound,?_,?_,?_,?_,?_,?_⟩
  · simp [ClockPhase.ticked,hclock,hunread]
  · intro j n hj
    rw [htick j] at hj
    cases hj
  · intro j n hj
    rw [htick j] at hj
    cases hj
  · intro j k hj
    rw [hunread j] at hj
    cases hj
  · intro j k _ n hj
    rw [htick j] at hj
    cases hj
  · intro j clock hj
    rw [hclock j] at hj
    cases hj

end Invariant

/-- In a run whose stores are safe, the events' logical times differ and the counter has
advanced once for each. -/
theorem clock_ticks_distinct {ι : Type} [DecidableEq ι] [Fintype ι] (X : Platform)
    (hX : X.FormatAllocated) (E : ClockEngine)
    (hl : EntityUri.isPeerId E.localPeerIdStr = true) (events : ι → ClockEvent)
    (hcounts : ∀ i, (events i).config.counts = true)
    (houtside : ∀ i, startsWith (events i).path E.clockPathPrefix = false)
    (schedule : List ι) (s : ClockRun ι) (hstart : ClockStart E s)
    (hstore : (runClock X E events schedule s).tree.world.KeepsCounters X)
    (hsafe : SafeTicks X E events schedule s)
    (hdone : ∀ i, ∃ clock, (runClock X E events schedule s).phase i = .finished (some clock)) :
    (∀ i, ((runClock X E events schedule s).phase i).tick.isSome) ∧
    (∀ i j, i ≠ j → ((runClock X E events schedule s).phase i).tick ≠
      ((runClock X E events schedule s).phase j).tick) ∧
    E.readLogicalCounter X (runClock X E events schedule s).tree =
      E.readLogicalCounter X s.tree+Fintype.card ι := by
  have hinv : ClockInv X E (E.readLogicalCounter X s.tree) (runClock X E events schedule s) :=
    Schedule.run_invariant_below (f := fun s : ClockRun ι => s.tree.world) le_clockStep
      (fun i s h hi hle => clockStep_inv hX hl hcounts houtside hstore h hi hle) hstart.inv hsafe
      le_rfl
  have hgiven : ∀ i, ((runClock X E events schedule s).phase i).tick.isSome := by
    intro i
    obtain ⟨clock,hi⟩ := hdone i
    exact hinv.given i clock (by rw [hi]; rfl)
  refine ⟨hgiven,?_,?_⟩
  · intro i j hij h
    obtain ⟨n,hn⟩ := Option.isSome_iff_exists.mp (hgiven i)
    exact hinv.distinct i j hij n hn (h ▸ hn)
  · have hall : ∀ j, ((runClock X E events schedule s).phase j).ticked = true := by
      intro j
      obtain ⟨clock,hj⟩ := hdone j
      rw [hj]
      rfl
    rw [hinv.count]
    simp [hall]

namespace ClockSample

open Sample

def engine : ClockEngine := ⟨alice.contentHash,aliceId⟩

def crates : Platform := platform [counterValue 1,counterValue 2] [
  (ecfForHash engine.logicalPath (toEcf (counterValue 1)),
    0xaf100fc5c575e34d47bccec1ab7e947a07a16bacf069d719eecc00b18ec19592),
  (ecfForHash engine.logicalPath (toEcf (counterValue 2)),
    0x3a527d5df0284bd17305abd9769f3f3364b3a5b39b2520ff04b39f7adb2121ea)] []

def events (_ : Fin 2) : ClockEvent :=
  ⟨"/app/notes".toList,{},⟨"logical".toList,false⟩,0,0⟩

def idle : ClockRun (Fin 2) := ⟨⟨⟨.empty⟩,0,.empty,⟨[]⟩⟩,none,fun _ => .waiting⟩

/-- One hook after the other. -/
local instance instNeZeroTicks : NeZero 2 := ⟨by decide⟩

def inTurn : List (Fin 2) := [0,0,0,0,0,0,0,1,1,1,1,1,1,1]

/-- Both hooks read the counter before either stores it. -/
def together : List (Fin 2) := [0,0,0,1,1,1,0,1,0,0,0,1,1,1]

instance decidableSafeTick (s : ClockRun (Fin 2)) (i : Fin 2) : Decidable (SafeTick crates engine i s) :=
  match hp : s.phase i with
  | .storingCounter counter => decidable_of_iff (engine.readLogicalCounter crates s.tree = counter ∧
      counter+1 < 2^64 ∧ s.tree.cascadeDepth < cascadeDepthLimit ∧
        ∀ j, j ≠ i → (s.phase j).unread = false)
      ⟨fun h c hc => by rw [hp] at hc; cases hc; exact h,fun h => h counter hp⟩
  | .waiting | .activating | .readingCounter | .readingVector _ | .storingVector _ | .readingHlc
  | .storingHlc _ | .deactivating | .building | .buildingVector _ | .buildingHlc _ | .leaving _
  | .finished _ => .isTrue fun c hc => by rw [hp] at hc; cases hc

instance decidableSafeTicks : ∀ (schedule : List (Fin 2)) (s : ClockRun (Fin 2)),
    Decidable (SafeTicks crates engine events schedule s)
  | [], _ => .isTrue trivial
  | i::rest, s =>
    haveI := decidableSafeTicks rest (clockStep crates engine events i s)
    inferInstanceAs (Decidable (SafeTick crates engine i s ∧
      SafeTicks crates engine events rest (clockStep crates engine events i s)))

theorem idle_start : ClockStart engine idle :=
  ⟨fun _ => rfl,fun h hh => by cases hh⟩

/-- What the hooks come to one after the other, and what they come to together. -/
theorem evaluated_ticks :
    ((∀ i, (events i).config.counts = true) ∧
      ∀ i, startsWith (events i).path engine.clockPathPrefix = false) ∧
    (∀ e ∈ (runClock crates engine events inTurn idle).tree.world.puts,
      (runClock crates engine events inTurn idle).tree.world.get e.contentHash = some e ∧
      (e.data = toEcf (counterValue 1) ∨ e.data = toEcf (counterValue 2))) ∧
    (SafeTicks crates engine events inTurn idle ∧
      ∀ i, (runClock crates engine events inTurn idle).phase i =
        .finished (some ⟨"logical".toList,none,some ⟨i.val+1⟩,none,none⟩)) ∧
    (∀ i, (runClock crates engine events together idle).phase i =
      .finished (some ⟨"logical".toList,none,some ⟨1⟩,none,none⟩)) ∧
    engine.readLogicalCounter crates idle.tree = 0 ∧
    engine.readLogicalCounter crates (runClock crates engine events together idle).tree = 1 := by
  decide +kernel

theorem inTurn_keeps : (runClock crates engine events inTurn idle).tree.world.KeepsCounters
    crates := by
  obtain ⟨-,hputs,-⟩ := evaluated_ticks
  refine ⟨fun e he => (hputs e he).1,?_⟩
  intro e he n hn hdata
  have hcase : n = 1 ∨ n = 2 := by
    rcases (hputs e he).2 with h | h
    · exact .inl (counterValue_inj hn (by norm_num) (hdata.symm.trans h))
    · exact .inr (counterValue_inj hn (by norm_num) (hdata.symm.trans h))
  rw [hdata]
  rcases hcase with rfl | rfl <;> rfl

end ClockSample

open ClockSample

theorem clock_ticks_distinct_sample : SafeTicks crates engine events inTurn idle ∧
    (∀ i, ((runClock crates engine events inTurn idle).phase i).tick.isSome) ∧
    (∀ i j, i ≠ j → ((runClock crates engine events inTurn idle).phase i).tick ≠
      ((runClock crates engine events inTurn idle).phase j).tick) ∧
    engine.readLogicalCounter crates (runClock crates engine events inTurn idle).tree =
      engine.readLogicalCounter crates idle.tree+2 := by
  have hX : crates.FormatAllocated := by decide
  obtain ⟨⟨hcounts,houtside⟩,-,⟨hsafe,hclock⟩,-⟩ := evaluated_ticks
  have hticks := clock_ticks_distinct crates hX engine Sample.aliceId_isPeerId events hcounts
    houtside inTurn idle idle_start inTurn_keeps hsafe fun i => ⟨_,hclock i⟩
  exact ⟨hsafe,hticks.1,hticks.2.1,hticks.2.2⟩

/-- Two events are given the same time, and the counter has advanced once. -/
theorem clock_ticks_collide : (∀ i, (runClock crates engine events together idle).phase i =
      .finished (some ⟨"logical".toList,none,some ⟨1⟩,none,none⟩)) ∧
    engine.readLogicalCounter crates idle.tree = 0 ∧
    engine.readLogicalCounter crates (runClock crates engine events together idle).tree = 1 ∧
    ¬((∀ i j : Fin 2, i ≠ j → ((runClock crates engine events together idle).phase i).tick ≠
        ((runClock crates engine events together idle).phase j).tick) ∧
      engine.readLogicalCounter crates (runClock crates engine events together idle).tree =
        engine.readLogicalCounter crates idle.tree+Fintype.card (Fin 2)) := by
  obtain ⟨-,-,-,hphase,hidle,hread⟩ := evaluated_ticks
  refine ⟨hphase,hidle,hread,?_⟩
  rintro ⟨hne,-⟩
  apply hne 0 1 (by decide)
  rw [hphase 0,hphase 1]

end EntityCore
