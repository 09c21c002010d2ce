import EntityCore.Entity

/-! The location index and the emit dispatcher in front of it. A tree write goes to
the inner index first; the dispatcher then runs the synchronous hooks in
registration order and, if none halts, the broadcast. -/
namespace EntityCore

open ByteCode Strings List

/-! Execution contexts and cascade results. -/

/-- Context of a tree mutation; engine writes use the default. -/
structure ExecutionContext where
  chainId : Option Str := none
  author : Option Hash := none
  callerCapability : Option Hash := none
  requestId : Option Str := none
  cascadeDepth : ℕ := 0
  capability : Option Hash := none
  handlerGrant : Option Hash := none
  handlerPattern : Option Str := none
  operation : Option Str := none
  parentChainId : Option Str := none

def ExecutionContext.atDepth (ctx : ExecutionContext) (depth : ℕ) : ExecutionContext :=
  { ctx with cascadeDepth := depth }

inductive ChangeType where
  | created
  | modified
  | deleted
  deriving DecidableEq

structure TreeChangeEvent where
  path : Str
  hash : Hash
  previousHash : Option Hash
  newHash : Option Hash
  changeType : ChangeType
  context : Option ExecutionContext

structure CascadeHalt where
  consumerName : Str
  errorCode : ℕ
  errorMessage : String
  isError : Bool

structure CascadeResult where
  bindingCommitted : Bool
  consumersCompleted : List Str
  consumersHalted : List CascadeHalt
  consumersErrored : List CascadeHalt
  consumersSkipped : List Str
  cascadeDepth : ℕ

namespace CascadeResult

def emptySuccess : CascadeResult := ⟨true,[],[],[],[],0⟩

def success (consumers : List Str) (depth : ℕ) : CascadeResult := ⟨true,consumers,[],[],[],depth⟩

def rejected (halt : CascadeHalt) (depth : ℕ) : CascadeResult := ⟨false,[],[halt],[],[],depth⟩

end CascadeResult

inductive CasError where
  | mismatch (current : Hash)
  | notFound

def cascadeDepthLimit : ℕ := 32

/-! The in-memory index. -/

/-- The Unicode control characters, general category Cc. -/
def isControl (c : Char) : Bool := c.toNat < 32 || (127 ≤ c.toNat && c.toNat < 160)

def pathIsStorable (path : Str) : Bool :=
  if path.isEmpty || path = neverMatch then false
  else if containsText path "//".toList || path.any isControl then false
  else !(segments '/' path).any fun segment => segment = ".".toList || segment = "..".toList

/-- Enough for a path to be a storage key. -/
theorem storable_of_plain {p : Str} (hslash : ¬ "//".toList <:+: p)
    (hchar : ∀ c ∈ p, isControl c = false ∧ c ≠ '.') (hne : p ≠ []) (hnever : p ≠ neverMatch) :
    pathIsStorable p = true := by
  have hc : p.any isControl = false := by
    simpa using fun c hc => (hchar c hc).1
  have hs : containsText p "//".toList = false := (containsText_false _ _).mpr hslash
  have hseg : ∀ seg ∈ segments '/' p, seg ≠ ".".toList ∧ seg ≠ "..".toList := by
    intro seg hseg
    constructor
    · rintro rfl
      exact (hchar '.' (mem_of_mem_segments hseg (by simp))).2 rfl
    · rintro rfl
      exact (hchar '.' (mem_of_mem_segments hseg (by simp))).2 rfl
  unfold pathIsStorable
  rw [if_neg (by simp [hne,hnever]),if_neg (by rw [hs,hc]; simp)]
  simp only [Bool.not_eq_true',any_eq_false,Bool.or_eq_true,decide_eq_true_eq,not_or]
  exact hseg

/-- Every plain path below a peer is storable. -/
theorem storable_of_peer {l rest : Str} (hl : EntityUri.isPeerId l = true)
    (hslash : ¬ "//".toList <:+: rest) (hchar : ∀ c ∈ rest, isControl c = false ∧ c ≠ '.') :
    pathIsStorable ('/'::l++rest) = true := by
  obtain ⟨hlen,hb⟩ := (EntityUri.isPeerId_iff l).mp hl
  have hslashes : "//".toList = ['/','/'] := rfl
  have hns := EntityUri.slash_notMem_of_base58 hb
  have hplain : base58Alphabet.all (fun c => !isControl c && c ≠ '.') = true := by decide +kernel
  simp only [all_eq_true,Bool.and_eq_true,Bool.not_eq_true',decide_eq_true_eq] at hplain
  apply storable_of_plain
  · rw [hslashes] at hslash ⊢
    have hmem : ∀ c, ('/'::l).getLast? = some c → c ∈ l := by
      intro c hc
      have hne : l ≠ [] := by rintro rfl; simp at hlen
      rw [getLast?_cons_of_ne_nil hne] at hc
      exact mem_of_getLast? hc
    rw [double_append]
    rintro (h | h | ⟨h,_⟩)
    · rcases infix_cons_iff.mp h with h | h
      · obtain ⟨t,ht⟩ := h
        have hl : l = '/'::t := (cons.inj ht).2.symm
        exact hns (by rw [hl]; exact mem_cons_self)
      · exact hns (h.subset (by simp))
    · exact hslash h
    · exact hns (hmem '/' h)
  · intro c hc
    simp only [cons_append,mem_cons,mem_append] at hc
    rcases hc with rfl | hc | hc
    · decide +kernel
    · exact hplain c (hb c hc)
    · exact hchar c hc
  · simp
  · intro h
    have hh := congrArg length h
    have hn : neverMatch.length = 12 := by decide +kernel
    rw [hn,length_append,length_cons] at hh
    omega

structure MemoryLocationIndex where
  paths : OrderedMap Str Hash

namespace MemoryLocationIndex

/-- A write at a malformed path is dropped without a report. -/
def set (m : MemoryLocationIndex) (path : Str) (hash : Hash) : MemoryLocationIndex :=
  if !pathIsStorable path then m else ⟨m.paths.insert path hash⟩

def get (m : MemoryLocationIndex) (path : Str) : Option Hash := m.paths.get path

def remove (m : MemoryLocationIndex) (path : Str) : Option Hash × MemoryLocationIndex :=
  (m.paths.get path,⟨m.paths.erase path⟩)

/-- The range from `start` on, for as long as it carries the prefix. -/
def list (m : MemoryLocationIndex) (start : Str) : List (Str × Hash) :=
  (m.paths.entries.dropWhile fun e => e.1 < start).takeWhile fun e => startsWith e.1 start

def compareAndSwap (m : MemoryLocationIndex) (path : Str) (expected newHash : Hash) :
    Except CasError MemoryLocationIndex :=
  match m.paths.get path with
  | some current =>
    if current = expected then .ok ⟨m.paths.insert path newHash⟩ else .error (.mismatch current)
  | none => .error .notFound

def compareAndRemove (m : MemoryLocationIndex) (path : Str) (expected : Hash) :
    Except CasError (Hash × MemoryLocationIndex) :=
  match m.paths.get path with
  | some current =>
    if current = expected then .ok (current,⟨m.paths.erase path⟩) else .error (.mismatch current)
  | none => .error .notFound

def compareAndCreate (m : MemoryLocationIndex) (path : Str) (newHash : Hash) :
    Except CasError MemoryLocationIndex :=
  match m.paths.get path with
  | some current => .error (.mismatch current)
  | none => .ok ⟨m.paths.insert path newHash⟩

@[simp] theorem get_mk (paths : OrderedMap Str Hash) (p : Str) : get ⟨paths⟩ p = paths.get p := rfl

theorem ext_get {m n : MemoryLocationIndex} (h : ∀ p, m.get p = n.get p) : m = n := by
  cases m
  cases n
  exact congrArg _ (OrderedMap.ext_get h)

theorem get_set (m : MemoryLocationIndex) (path : Str) (hash : Hash) (p : Str) :
    (m.set path hash).get p = if p = path ∧ pathIsStorable path then some hash else m.get p := by
  unfold set
  by_cases hs : pathIsStorable path
  · simp [hs,get]
  · simp [hs]

theorem set_of_not_storable {path : Str} (hs : pathIsStorable path = false)
    (m : MemoryLocationIndex) (hash : Hash) : m.set path hash = m := by
  simp [set,hs]

/-- Paths that carry a prefix stand together in key order. -/
theorem isPrefix_between {p a b : Str} (ha : ¬ a < p) (hab : a < b) (hb : p <+: b) : p <+: a := by
  induction p generalizing a b with
  | nil => exact nil_prefix
  | cons x p ih =>
    obtain ⟨b',rfl⟩ := hb
    cases a with
    | nil => exact absurd (nil_lt_cons x p) ha
    | cons y a =>
      simp only [cons_append,cons_lt_cons_iff] at ha hab
      have hxy : x = y := by
        rcases hab with hlt | ⟨he,_⟩
        · exact absurd (Or.inl hlt) ha
        · exact he.symm
      subst hxy
      have hab' : a < p++b' := by simpa using hab
      have ha' : ¬ a < p := fun h => ha (Or.inr ⟨rfl,h⟩)
      exact cons_prefix_cons.mpr ⟨rfl,ih ha' hab' ⟨b',rfl⟩⟩

theorem not_lt_of_isPrefix {p a : Str} (h : p <+: a) : ¬ a < p := by
  obtain ⟨t,rfl⟩ := h
  induction p with
  | nil => exact not_lt_nil _
  | cons x p ih => simpa [cons_lt_cons_iff] using ih

theorem range_eq_filter {β : Type} (start : Str) (l : List (Str × β))
    (hs : l.Pairwise fun x y => x.1 < y.1) :
    (l.dropWhile fun e => e.1 < start).takeWhile (fun e => startsWith e.1 start) =
      l.filter fun e => startsWith e.1 start := by
  induction l with
  | nil => rfl
  | cons x r ih =>
    obtain ⟨hx,hr⟩ := pairwise_cons.mp hs
    have ih := ih hr
    by_cases hlt : x.1 < start
    · have hn : startsWith x.1 start = false :=
        Bool.eq_false_iff.mpr fun h => not_lt_of_isPrefix ((startsWith_iff _ _).mp h) hlt
      simpa [dropWhile_cons,hlt,filter_cons,hn] using ih
    · have hge : ∀ e ∈ r, ¬ e.1 < start := fun e he h => hlt ((hx e he).trans h)
      have hd : r.dropWhile (fun e => e.1 < start) = r := by
        cases r with
        | nil => rfl
        | cons y r => simp [hge y (by simp)]
      rw [hd] at ih
      by_cases hp : startsWith x.1 start
      · simpa [dropWhile_cons,hlt,hp] using ih
      · -- past the last path with the prefix nothing carries it again
        have hnone : ∀ e ∈ r, ¬ startsWith e.1 start := by
          intro e he h
          exact hp ((startsWith_iff _ _).mpr
            (isPrefix_between hlt (hx e he) ((startsWith_iff _ _).mp h)))
        simpa [dropWhile_cons,hlt,hp] using hnone

theorem list_eq (m : MemoryLocationIndex) (start : Str) :
    m.list start = (m.paths.filterKeys (startsWith · start)).entries :=
  range_eq_filter start m.paths.entries m.paths.sorted

theorem mem_list (m : MemoryLocationIndex) (start p : Str) (h : Hash) :
    (p,h) ∈ m.list start ↔ m.get p = some h ∧ start <+: p := by
  rw [list_eq,OrderedMap.mem_entries,OrderedMap.get_filterKeys,get]
  by_cases hp : start <+: p
  · simp [hp]
  · simp [hp]

/-- A scan for a hash returns a path under the prefix that is bound to it. -/
theorem find_list {m : MemoryLocationIndex} {start p : Str} {h : Hash}
    (hf : ((m.list start).find? fun e => e.2 = h).map Prod.fst = some p) :
    m.get p = some h ∧ start <+: p := by
  obtain ⟨e,he,rfl⟩ := Option.map_eq_some_iff.mp hf
  have hh : e.2 = h := by simpa using find?_some he
  have hm := (m.mem_list start e.1 e.2).mp (mem_of_find?_eq_some he)
  rw [hh] at hm
  exact hm

end MemoryLocationIndex

/-! The dispatcher. -/

/-- The state a write can touch: the inner index, the cascade counters, and
whatever the registered consumers keep for themselves. -/
structure NotifyingLocationIndex (σ : Type) where
  inner : MemoryLocationIndex
  cascadeDepth : ℕ
  chainCascadeDepths : OrderedMap Str ℕ
  world : σ

/-- A synchronous consumer. It gets the live context and may write the tree. -/
structure SyncTreeHook (σ : Type) where
  name : Str
  handlerPattern : Str
  onTreeChange : TreeChangeEvent → ExecutionContext → NotifyingLocationIndex σ →
    Except CascadeHalt Unit × ExecutionContext × NotifyingLocationIndex σ

structure Consumers (σ : Type) where
  syncHooks : List (SyncTreeHook σ)
  onChangeBroadcast : TreeChangeEvent → NotifyingLocationIndex σ → NotifyingLocationIndex σ

/-- A consumer the dispatcher called, with the index it found. -/
inductive Emission where
  | hook (name : Str) (found : MemoryLocationIndex)
  | broadcast (found : MemoryLocationIndex)

def Emission.found : Emission → MemoryLocationIndex
  | .hook _ m => m
  | .broadcast m => m

/-- A finished call: its reply, the state it leaves, the consumers it called. -/
structure Ran (σ ρ : Type) where
  reply : ρ
  state : NotifyingLocationIndex σ
  emissions : List Emission

structure HookRun (σ : Type) where
  completed : List Str
  halted : Option (CascadeHalt × List Str)
  ctx : ExecutionContext
  state : NotifyingLocationIndex σ
  emissions : List Emission

namespace NotifyingLocationIndex

variable {σ : Type}

/-- Per-write fields as one consumer sees them. -/
def enterHook (hook : SyncTreeHook σ) (ctx : ExecutionContext) : ExecutionContext :=
  { ctx with
    capability := none
    handlerGrant := none
    handlerPattern := some hook.handlerPattern
    operation := some hook.name }

/-- Per-write fields put back to the original writer's. -/
def leaveHook (saved left : ExecutionContext) : ExecutionContext :=
  { left with
    capability := saved.capability
    handlerGrant := saved.handlerGrant
    handlerPattern := saved.handlerPattern
    operation := saved.operation }

def runHooks (event : TreeChangeEvent) : List (SyncTreeHook σ) → List Str → ExecutionContext →
    NotifyingLocationIndex σ → HookRun σ
  | [], completed, ctx, s => ⟨completed,none,ctx,s,[]⟩
  | hook::rest, completed, ctx, s =>
    let (result,left,s') := hook.onTreeChange event (enterHook hook ctx) s
    match result with
    | .ok () =>
      let r := runHooks event rest (completed++[hook.name]) (leaveHook ctx left) s'
      { r with emissions := .hook hook.name s.inner::r.emissions }
    | .error halt =>
      ⟨completed,some (halt,rest.map (·.name)),leaveHook ctx left,s',[.hook hook.name s.inner]⟩

/-- Depth a chain has accumulated so far. -/
def accumulated (s : NotifyingLocationIndex σ) (chain : Str) : ℕ :=
  (s.chainCascadeDepths.get chain).getD 0

/-- Would a dispatch at this depth push its chain over the limit? -/
def chainExceeded (s : NotifyingLocationIndex σ) (ctx : ExecutionContext) : Bool :=
  ctx.chainId.any fun chain => s.accumulated chain+ctx.cascadeDepth > cascadeDepthLimit

/-- The chain's accumulator after a dispatch at this depth was admitted or refused. -/
def noteChain (s : NotifyingLocationIndex σ) (ctx : ExecutionContext) : NotifyingLocationIndex σ :=
  match ctx.chainId with
  | none => s
  | some chain =>
    let total := if s.chainExceeded ctx then s.accumulated chain
      else s.accumulated chain+ctx.cascadeDepth
    { s with chainCascadeDepths := s.chainCascadeDepths.insert chain total }

def deeper (s : NotifyingLocationIndex σ) : NotifyingLocationIndex σ :=
  { s with cascadeDepth := s.cascadeDepth+1 }

/-- What the cascade guard does when a dispatch returns. -/
def shallower (s : NotifyingLocationIndex σ) : NotifyingLocationIndex σ :=
  { s with cascadeDepth := s.cascadeDepth-1 }

def systemHalt (code : ℕ) (message : String) : CascadeHalt :=
  ⟨"system".toList,code,message,false⟩

def haltedResult (r : HookRun σ) (halt : CascadeHalt) (skipped : List Str) : CascadeResult where
  bindingCommitted := true
  consumersCompleted := r.completed
  consumersHalted := if halt.isError then [] else [halt]
  consumersErrored := if halt.isError then [halt] else []
  consumersSkipped := skipped
  cascadeDepth := r.ctx.cascadeDepth

/-- Both phases: the hooks, then, if none halted, the broadcast with the settled context. -/
def deliver (c : Consumers σ) (event : TreeChangeEvent) (ctx : ExecutionContext)
    (s : NotifyingLocationIndex σ) : Ran σ CascadeResult :=
  let r := runHooks event c.syncHooks [] ctx s
  match r.halted with
  | some (halt,skipped) => ⟨haltedResult r halt skipped,r.state,r.emissions⟩
  | none =>
    let settled := { event with context := some r.ctx }
    ⟨.success r.completed r.ctx.cascadeDepth,c.onChangeBroadcast settled r.state,
      r.emissions++[.broadcast r.state.inner]⟩

/-- Called after the index write: count the depth, check the chain, deliver the event. -/
def dispatchEvent (c : Consumers σ) (path : Str) (hash : Hash) (previousHash newHash : Option Hash)
    (changeType : ChangeType) (context : Option ExecutionContext) (s : NotifyingLocationIndex σ) :
    Ran σ CascadeResult :=
  let s := s.deeper
  let ctx := (context.getD {}).atDepth s.cascadeDepth
  if s.chainExceeded ctx then
    ⟨.rejected (systemHalt 500 "cross_peer_cascade_depth_exceeded") ctx.cascadeDepth,
      (s.noteChain ctx).shallower,[]⟩
  else
    let r := deliver c ⟨path,hash,previousHash,newHash,changeType,some ctx⟩ ctx (s.noteChain ctx)
    { r with state := r.state.shallower }

def depthHalt : CascadeHalt := systemHalt 500 "cascade_depth_exceeded"

def setImpl (c : Consumers σ) (path : Str) (hash : Hash) (context : Option ExecutionContext)
    (s : NotifyingLocationIndex σ) : Ran σ CascadeResult :=
  match EntityUri.validateAbsolutePath path with
  | .error e => ⟨.rejected (systemHalt 400 ("invalid path: "++e)) 0,s,[]⟩
  | .ok () =>
    if s.cascadeDepth ≥ cascadeDepthLimit then ⟨.rejected depthHalt s.cascadeDepth,s,[]⟩
    else
      let written := { s with inner := s.inner.set path hash }
      match s.inner.get path with
      | some prev =>
        if prev = hash then ⟨.emptySuccess,written,[]⟩
        else dispatchEvent c path hash (some prev) (some hash) .modified context written
      | none => dispatchEvent c path hash none (some hash) .created context written

def casSwapImpl (c : Consumers σ) (path : Str) (expected newHash : Hash)
    (context : Option ExecutionContext) (s : NotifyingLocationIndex σ) :
    Ran σ (Except CasError CascadeResult) :=
  match EntityUri.validateAbsolutePath path with
  | .error _ => ⟨.error (.mismatch expected),s,[]⟩
  | .ok () =>
    if s.cascadeDepth ≥ cascadeDepthLimit then ⟨.error (.mismatch expected),s,[]⟩
    else match s.inner.compareAndSwap path expected newHash with
      | .error e => ⟨.error e,s,[]⟩
      | .ok inner =>
        if expected = newHash then ⟨.ok .emptySuccess,{ s with inner := inner },[]⟩
        else
          let r := dispatchEvent c path newHash (some expected) (some newHash) .modified context
            { s with inner := inner }
          ⟨.ok r.reply,r.state,r.emissions⟩

def casRemoveImpl (c : Consumers σ) (path : Str) (expected : Hash)
    (context : Option ExecutionContext) (s : NotifyingLocationIndex σ) :
    Ran σ (Except CasError (Hash × CascadeResult)) :=
  match EntityUri.validateAbsolutePath path with
  | .error _ => ⟨.error (.mismatch expected),s,[]⟩
  | .ok () =>
    if s.cascadeDepth ≥ cascadeDepthLimit then ⟨.error (.mismatch expected),s,[]⟩
    else match s.inner.compareAndRemove path expected with
      | .error e => ⟨.error e,s,[]⟩
      | .ok (removed,inner) =>
        let r := dispatchEvent c path removed (some removed) none .deleted context
          { s with inner := inner }
        ⟨.ok (removed,r.reply),r.state,r.emissions⟩

def casCreateImpl (c : Consumers σ) (path : Str) (newHash : Hash)
    (context : Option ExecutionContext) (s : NotifyingLocationIndex σ) :
    Ran σ (Except CasError CascadeResult) :=
  match EntityUri.validateAbsolutePath path with
  | .error _ => ⟨.error (.mismatch Hash.zero),s,[]⟩
  | .ok () =>
    if s.cascadeDepth ≥ cascadeDepthLimit then ⟨.error (.mismatch Hash.zero),s,[]⟩
    else match s.inner.compareAndCreate path newHash with
      | .error e => ⟨.error e,s,[]⟩
      | .ok inner =>
        let r := dispatchEvent c path newHash none (some newHash) .created context
          { s with inner := inner }
        ⟨.ok r.reply,r.state,r.emissions⟩

def removeImpl (c : Consumers σ) (path : Str) (context : Option ExecutionContext)
    (s : NotifyingLocationIndex σ) : Ran σ (Option Hash × CascadeResult) :=
  match EntityUri.validateAbsolutePath path with
  | .error e => ⟨(none,.rejected (systemHalt 400 ("invalid path: "++e)) 0),s,[]⟩
  | .ok () =>
    if s.cascadeDepth ≥ cascadeDepthLimit then ⟨(none,.rejected depthHalt s.cascadeDepth),s,[]⟩
    else
      let (removed,inner) := s.inner.remove path
      let s := { s with inner := inner }
      match removed with
      | some prev =>
        let r := dispatchEvent c path prev (some prev) none .deleted context s
        ⟨(some prev,r.reply),r.state,r.emissions⟩
      | none => ⟨(none,.emptySuccess),s,[]⟩

end NotifyingLocationIndex
end EntityCore
