import EntityCore.Pattern
import EntityCore.WriteOutcome

/-! A write of the dispatcher taken apart into the steps another thread can come
between: the change of the index, the dispatch up to its consumers, and the return. -/
namespace EntityCore

open Strings EntityUri

/-- Below a peer, what the index can store the dispatcher admits. -/
theorem valid_of_storable {pid : Str} (hl : isPeerId pid = true) {rest : Str}
    (hs : pathIsStorable ('/'::pid++ '/'::rest) = true) :
    validateAbsolutePath ('/'::pid++ '/'::rest) = .ok () := by
  have hvalid : (validateAbsolutePath ('/'::pid++ '/'::rest)).isOk = true := by
    rw [validateAbsolutePath_ok]
    refine ⟨⟨pid++ '/'::rest,rfl,?_⟩,?_⟩
    · have hns := slash_notMem_of_base58 ((isPeerId_iff pid).mp hl).2
      have hsplit : splitOnce '/' (pid++ '/'::rest) = some (pid,rest) :=
        (splitOnce_eq_some _ _ _ _).mpr ⟨rfl,hns⟩
      rw [firstSegment,hsplit]
      exact hl
    · unfold pathIsStorable at hs
      split_ifs at hs with h1 h2
      simp only [Bool.or_eq_true,not_or] at h2
      exact fun hslash => h2.1 ((containsText_iff _ _).mpr hslash)
  cases hv : validateAbsolutePath ('/'::pid++ '/'::rest) with
  | ok u => rfl
  | error e =>
    rw [hv] at hvalid
    cases hvalid

namespace NotifyingLocationIndex

variable {σ : Type}

/-- Neither the path nor the depth keeps a write out. -/
def admits (path : Str) (s : NotifyingLocationIndex σ) : Bool :=
  (EntityUri.validateAbsolutePath path).isOk && s.cascadeDepth < cascadeDepthLimit

theorem admits_iff {path : Str} {s : NotifyingLocationIndex σ} :
    s.admits path = true ↔ ¬ Refused path s := by
  rw [admits,Bool.and_eq_true,decide_eq_true_iff,not_refused_iff,not_le]
  cases validateAbsolutePath path <;> simp [Except.isOk,Except.toBool]

theorem admits_of_storable {pid : Str} (hl : isPeerId pid = true) {rest : Str}
    (hs : pathIsStorable ('/'::pid++ '/'::rest) = true) {s : NotifyingLocationIndex σ}
    (hd : s.cascadeDepth < cascadeDepthLimit) : s.admits ('/'::pid++ '/'::rest) = true := by
  have hv : (validateAbsolutePath ('/'::pid++ '/'::rest)).isOk = true := by
    rw [valid_of_storable hl hs]
    rfl
  rw [admits,hv]
  simpa using hd

/-- A dispatch up to its first consumer; a chain over its limit gets no event. -/
def enterDispatch (path : Str) (change : Change) (context : ExecutionContext)
    (s : NotifyingLocationIndex σ) : Option TreeChangeEvent × NotifyingLocationIndex σ :=
  let s := s.deeper
  let ctx := context.atDepth s.cascadeDepth
  if s.chainExceeded ctx then (none,(s.noteChain ctx).shallower)
  else (some ⟨path,change.hash,change.previousHash,change.newHash,change.changeType,some ctx⟩,
    s.noteChain ctx)

/-- The first step of a write: what the consumers are to be told, and the state they find. -/
def Write.enter (path : Str) (context : ExecutionContext) (w : Write)
    (s : NotifyingLocationIndex σ) : Option TreeChangeEvent × NotifyingLocationIndex σ :=
  if s.admits path then
    let changed := { s with inner := (w.change path s.inner).1 }
    match (w.change path s.inner).2 with
    | none => (none,changed)
    | some change => enterDispatch path change context changed
  else (none,s)

/-- The steps are those of the call: what is left is delivering the event and returning. -/
theorem run_enter (c : Consumers σ) (path : Str) (ctx : ExecutionContext) (w : Write)
    (s : NotifyingLocationIndex σ) : (w.run c path ctx s).state =
      match w.enter path ctx s with
      | (none,entered) => entered
      | (some event,entered) =>
        (deliver c event (event.context.getD {}) entered).state.shallower := by
  have hdispatch : ∀ (change : Change) (s : NotifyingLocationIndex σ),
      (dispatchEvent c path change.hash change.previousHash change.newHash change.changeType
        (some ctx) s).state = match enterDispatch path change ctx s with
      | (none,entered) => entered
      | (some event,entered) =>
        (deliver c event (event.context.getD {}) entered).state.shallower := by
    intro change s
    simp only [dispatchEvent,enterDispatch,Option.getD_some]
    split_ifs <;> rfl
  by_cases h : s.admits path = true
  · rw [Write.enter,if_pos h,run_change (admits_iff.mp h)]
    cases (w.change path s.inner).2 with
    | none => rfl
    | some change => exact hdispatch change _
  · rw [Write.enter,if_neg h]
    exact (run_refused (not_not.mp (admits_iff.not.mp h)) c ctx w).1

/-! What entering leaves alone. -/

@[simp] theorem noteChain_world (s : NotifyingLocationIndex σ) (ctx : ExecutionContext) :
    (s.noteChain ctx).world = s.world := by
  unfold noteChain
  split <;> rfl

@[simp] theorem noteChain_cascadeDepth (s : NotifyingLocationIndex σ) (ctx : ExecutionContext) :
    (s.noteChain ctx).cascadeDepth = s.cascadeDepth := by
  unfold noteChain
  split <;> rfl

@[simp] theorem enterDispatch_inner (path : Str) (change : Change) (ctx : ExecutionContext)
    (s : NotifyingLocationIndex σ) : (enterDispatch path change ctx s).2.inner = s.inner := by
  simp only [enterDispatch]
  split_ifs <;> simp [shallower,deeper]

@[simp] theorem enterDispatch_world (path : Str) (change : Change) (ctx : ExecutionContext)
    (s : NotifyingLocationIndex σ) : (enterDispatch path change ctx s).2.world = s.world := by
  simp only [enterDispatch]
  split_ifs <;> simp [shallower,deeper]

@[simp] theorem enter_world (path : Str) (ctx : ExecutionContext) (w : Write)
    (s : NotifyingLocationIndex σ) : (w.enter path ctx s).2.world = s.world := by
  unfold Write.enter
  split_ifs
  · dsimp only
    split <;> simp
  · rfl

theorem enter_inner (path : Str) (ctx : ExecutionContext) (w : Write)
    (s : NotifyingLocationIndex σ) : (w.enter path ctx s).2.inner =
      if s.admits path then (w.change path s.inner).1 else s.inner := by
  unfold Write.enter
  split_ifs
  · dsimp only
    split <;> simp
  · rfl

theorem change_get_ne {path p : Str} (hp : p ≠ path) (w : Write) (inner : MemoryLocationIndex) :
    (w.change path inner).1.get p = inner.get p := by
  cases w with
  | set hash =>
    show (inner.set path hash).get p = _
    rw [MemoryLocationIndex.get_set,if_neg fun h => hp h.1]
  | remove => simp [Write.change,MemoryLocationIndex.remove,MemoryLocationIndex.get,hp]
  | compareAndSwap expected newHash =>
    simp only [Write.change,MemoryLocationIndex.compareAndSwap]
    cases inner.paths.get path with
    | none => rfl
    | some current =>
      dsimp only
      by_cases hc : current = expected
      · simp [hc,MemoryLocationIndex.get,hp]
      · simp [hc]
  | compareAndRemove expected =>
    simp only [Write.change,MemoryLocationIndex.compareAndRemove]
    cases inner.paths.get path with
    | none => rfl
    | some current =>
      dsimp only
      by_cases hc : current = expected
      · simp [hc,MemoryLocationIndex.get,hp]
      · simp [hc]
  | compareAndCreate newHash =>
    simp only [Write.change,MemoryLocationIndex.compareAndCreate]
    cases inner.paths.get path with
    | none => simp [MemoryLocationIndex.get,hp]
    | some current => rfl

/-- The reported change is the one made; without a report the path is as it was. -/
theorem change_spec {path : Str} (hs : pathIsStorable path = true) (w : Write)
    (inner : MemoryLocationIndex) :
    match (w.change path inner).2 with
    | none => (w.change path inner).1.get path = inner.get path
    | some change => change.previousHash = inner.get path ∧
        change.newHash = (w.change path inner).1.get path := by
  by_cases h : Idle (inner.get path) w
  · obtain ⟨hnone,hsettled⟩ := idle_settled h
    rw [hnone]
    cases hreply : w.settled path inner with
    | error e =>
      rw [hreply] at hsettled
      exact congrArg (·.get path) hsettled.1
    | ok result =>
      rw [hreply] at hsettled
      exact hsettled.2.2.trans hsettled.2.1.symm
  · obtain ⟨⟨change,hchange,hprevious,hnew⟩,-,hlands,-⟩ := busy_changes h
    have hland : Lands path w := by
      cases w with
      | set hash => exact hs
      | _ => trivial
    rw [hchange]
    exact ⟨hprevious,hnew.trans (hlands hland).symm⟩

theorem enter_get_ne {path p : Str} (hp : p ≠ path) (ctx : ExecutionContext) (w : Write)
    (s : NotifyingLocationIndex σ) : (w.enter path ctx s).2.inner.get p = s.inner.get p := by
  rw [enter_inner]
  split_ifs
  · exact change_get_ne hp w s.inner
  · rfl

/-- A write whose chain is within its limit reports exactly what it did to the path. -/
theorem enter_spec {path : Str} (hs : pathIsStorable path = true) {ctx : ExecutionContext}
    (w : Write) {s : NotifyingLocationIndex σ} (hchain : ¬ OverLimit s ctx) :
    match (w.enter path ctx s).1 with
    | none => (w.enter path ctx s).2.inner.get path = s.inner.get path
    | some event => event.path = path ∧ event.previousHash = s.inner.get path ∧
        event.newHash = (w.enter path ctx s).2.inner.get path := by
  have hspec := change_spec hs w s.inner
  unfold Write.enter
  split_ifs
  · dsimp only
    cases hc : (w.change path s.inner).2 with
    | none =>
      rw [hc] at hspec
      exact hspec
    | some change =>
      rw [hc] at hspec
      have hinner := enterDispatch_inner path change ctx
        { s with inner := (w.change path s.inner).1 }
      have hnot : ¬ OverLimit { s with inner := (w.change path s.inner).1 } ctx := hchain
      have hexceeded := (chainExceeded_iff { s with inner := (w.change path s.inner).1 } ctx).not.mpr
        hnot
      simp only [enterDispatch] at hinner ⊢
      rw [if_neg hexceeded] at hinner ⊢
      dsimp only at hinner ⊢
      rw [hinner]
      exact ⟨rfl,hspec.1,hspec.2⟩
  · rfl

/-- A write whose event nobody consumes. -/
def quiet : Consumers σ := ⟨[],fun _ s => s⟩

def quietSet (path : Str) (hash : Hash) (ctx : ExecutionContext) (s : NotifyingLocationIndex σ) :
    NotifyingLocationIndex σ := (setImpl quiet path hash (some ctx) s).state

theorem quietSet_eq (path : Str) (hash : Hash) (ctx : ExecutionContext)
    (s : NotifyingLocationIndex σ) : quietSet path hash ctx s =
      match Write.enter path ctx (.set hash) s with
      | (none,entered) => entered
      | (some _,entered) => entered.shallower := by
  have h := run_enter quiet path ctx (.set hash) s
  simp only [Write.run,mapReply] at h
  rw [quietSet,h]
  split <;> rfl

@[simp] theorem quietSet_world (path : Str) (hash : Hash) (ctx : ExecutionContext)
    (s : NotifyingLocationIndex σ) : (quietSet path hash ctx s).world = s.world := by
  rw [quietSet_eq]
  have h := enter_world path ctx (.set hash) s
  split <;> rename_i he <;> rw [he] at h <;> exact h

theorem quietSet_inner (path : Str) (hash : Hash) (ctx : ExecutionContext)
    (s : NotifyingLocationIndex σ) : (quietSet path hash ctx s).inner =
      if s.admits path then s.inner.set path hash else s.inner := by
  rw [quietSet_eq]
  have h := enter_inner path ctx (.set hash) s
  split <;> rename_i he <;> rw [he] at h <;> exact h

end NotifyingLocationIndex
end EntityCore
