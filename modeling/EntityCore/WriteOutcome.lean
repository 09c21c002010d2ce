import EntityCore.Store

/-! What the dispatcher reports about a write, against what the write did to the
inner index. The report is exact except where the chain limit refuses a write
that is already in the index, or the index drops a write that is then reported. -/
namespace EntityCore

open MemoryLocationIndex
namespace NotifyingLocationIndex

variable {σ : Type}

/-- The context-carrying writes of the index. -/
inductive Write where
  | set (hash : Hash)
  | remove
  | compareAndSwap (expected newHash : Hash)
  | compareAndRemove (expected : Hash)
  | compareAndCreate (newHash : Hash)

/-- What the path should hold once the write is committed. -/
def Write.requested : Write → Option Hash
  | .set hash => some hash
  | .remove => none
  | .compareAndSwap _ newHash => some newHash
  | .compareAndRemove _ => none
  | .compareAndCreate newHash => some newHash

def mapReply {ρ τ : Type} (f : ρ → τ) (r : Ran σ ρ) : Ran σ τ := ⟨f r.reply,r.state,r.emissions⟩

/-- One `_with_context` call, its reply cut down to the cascade result. -/
def Write.run (c : Consumers σ) (path : Str) (ctx : ExecutionContext)
    (s : NotifyingLocationIndex σ) : Write → Ran σ (Except CasError CascadeResult)
  | .set hash => mapReply .ok (setImpl c path hash (some ctx) s)
  | .remove => mapReply (fun r => .ok r.2) (removeImpl c path (some ctx) s)
  | .compareAndSwap expected newHash => casSwapImpl c path expected newHash (some ctx) s
  | .compareAndRemove expected =>
    mapReply (Except.map Prod.snd) (casRemoveImpl c path expected (some ctx) s)
  | .compareAndCreate newHash => casCreateImpl c path newHash (some ctx) s

/-- What a write did to its path, as the event reports it. -/
structure Change where
  hash : Hash
  previousHash : Option Hash
  newHash : Option Hash
  changeType : ChangeType

/-- The index after the write, and the change to report if there is one. -/
def Write.change (path : Str) (inner : MemoryLocationIndex) :
    Write → MemoryLocationIndex × Option Change
  | .set hash => (inner.set path hash,match inner.get path with
    | some prev => if prev = hash then none else some ⟨hash,some prev,some hash,.modified⟩
    | none => some ⟨hash,none,some hash,.created⟩)
  | .remove => ((inner.remove path).2,(inner.remove path).1.map fun prev =>
      ⟨prev,some prev,none,.deleted⟩)
  | .compareAndSwap expected newHash => match inner.compareAndSwap path expected newHash with
    | .error _ => (inner,none)
    | .ok swapped => (swapped,if expected = newHash then none
        else some ⟨newHash,some expected,some newHash,.modified⟩)
  | .compareAndRemove expected => match inner.compareAndRemove path expected with
    | .error _ => (inner,none)
    | .ok (removed,left) => (left,some ⟨removed,some removed,none,.deleted⟩)
  | .compareAndCreate newHash => match inner.compareAndCreate path newHash with
    | .error _ => (inner,none)
    | .ok created => (created,some ⟨newHash,none,some newHash,.created⟩)

/-- The reply to a write that has no change to report. -/
def Write.settled (path : Str) (inner : MemoryLocationIndex) : Write → Except CasError CascadeResult
  | .compareAndSwap expected newHash =>
    (inner.compareAndSwap path expected newHash).map fun _ => .emptySuccess
  | .compareAndRemove expected => (inner.compareAndRemove path expected).map fun _ => .emptySuccess
  | .compareAndCreate newHash => (inner.compareAndCreate path newHash).map fun _ => .emptySuccess
  | _ => .ok .emptySuccess

/-- The hash the caller compares with. -/
def Write.expected : Write → Option Hash
  | .compareAndSwap expected _ | .compareAndRemove expected => some expected
  | _ => none

def Write.compares : Write → Bool
  | .set _ | .remove => false
  | _ => true

def SaysWhatItSaw (held expected : Option Hash) : CasError → Prop
  | .notFound => held = none
  | .mismatch current => held = some current ∧ expected ≠ some current

/-- The index as the first consumer finds it; the one the call leaves if it calls none. -/
def firstSeen {ρ : Type} (r : Ran σ ρ) : MemoryLocationIndex :=
  match r.emissions with
  | e::_ => e.found
  | [] => r.state.inner

/-- Nothing was written and nobody was called. -/
def Untouched {ρ : Type} (s : NotifyingLocationIndex σ) (r : Ran σ ρ) : Prop :=
  r.state.inner = s.inner ∧ r.emissions = []

/-- The reply says what happened to the index. -/
def Truthful (path : Str) (w : Write) (s : NotifyingLocationIndex σ)
    (r : Ran σ (Except CasError CascadeResult)) : Prop :=
  match r.reply with
  | .error _ => Untouched s r
  | .ok result => if result.bindingCommitted then (firstSeen r).get path = w.requested
    else Untouched s r

/-- The chain of this write is already too deep for one more dispatch. -/
def OverLimit (s : NotifyingLocationIndex σ) (ctx : ExecutionContext) : Prop :=
  ∃ chain, ctx.chainId = some chain ∧ cascadeDepthLimit < s.accumulated chain+(s.cascadeDepth+1)

/-- The write is refused before it reaches the index. -/
def Refused (path : Str) (s : NotifyingLocationIndex σ) : Prop :=
  (∃ e, EntityUri.validateAbsolutePath path = .error e) ∨ cascadeDepthLimit ≤ s.cascadeDepth

/-- Given what the path holds, the write changes nothing. -/
def Idle (held : Option Hash) : Write → Prop
  | .set hash => held = some hash
  | .remove => held = none
  | .compareAndSwap expected newHash => held ≠ some expected ∨ expected = newHash
  | .compareAndRemove expected => held ≠ some expected
  | .compareAndCreate _ => held ≠ none

/-- Only a plain set goes through the index's own path rule. -/
def Lands (path : Str) : Write → Prop
  | .set _ => pathIsStorable path = true
  | _ => True

/-- Once dispatch is reached, a committed report and a landed write go together. -/
def ReportsHonestly (path : Str) (ctx : ExecutionContext) (s : NotifyingLocationIndex σ)
    (w : Write) : Prop :=
  Refused path s ∨ Idle (s.inner.get path) w ∨ (Lands path w ↔ ¬ OverLimit s ctx)

/-! The dispatcher itself. -/

@[simp] theorem noteChain_inner (s : NotifyingLocationIndex σ) (ctx : ExecutionContext) :
    (s.noteChain ctx).inner = s.inner := by
  unfold noteChain
  split <;> rfl

theorem chainExceeded_iff (s : NotifyingLocationIndex σ) (ctx : ExecutionContext) :
    s.deeper.chainExceeded (ctx.atDepth s.deeper.cascadeDepth) = true ↔ OverLimit s ctx := by
  simp only [chainExceeded,OverLimit,deeper,accumulated,ExecutionContext.atDepth]
  cases ctx.chainId with
  | none => simp
  | some chain => simp

/-- Hooks see the index in the state the write left it: the first of them finds it
as the cascade found it, and without hooks nothing has moved. -/
theorem runHooks_first (event : TreeChangeEvent) (hooks : List (SyncTreeHook σ))
    (completed : List Str) (ctx : ExecutionContext) (s : NotifyingLocationIndex σ) :
    let r := runHooks event hooks completed ctx s
    (hooks = [] ∧ r.halted = none ∧ r.state = s ∧ r.emissions = []) ∨
      ∃ name rest, r.emissions = .hook name s.inner::rest := by
  cases hooks with
  | nil => exact Or.inl ⟨rfl,rfl,rfl,rfl⟩
  | cons hook rest =>
    refine Or.inr ?_
    simp only [runHooks]
    split
    · exact ⟨_,_,rfl⟩
    · exact ⟨_,_,rfl⟩

theorem deliver_first (c : Consumers σ) (event : TreeChangeEvent) (ctx : ExecutionContext)
    (s : NotifyingLocationIndex σ) : (deliver c event ctx s).reply.bindingCommitted = true ∧
      ∃ e rest, (deliver c event ctx s).emissions = e::rest ∧ e.found = s.inner := by
  simp only [deliver]
  have hf := runHooks_first event c.syncHooks [] ctx s
  simp only at hf
  rcases hf with ⟨_,hh,hs,hem⟩ | ⟨name,rest,hem⟩
  · rw [hh]
    exact ⟨rfl,_,_,by rw [hem]; rfl,by rw [hs]; rfl⟩
  · split
    · exact ⟨rfl,_,_,hem,rfl⟩
    · exact ⟨rfl,_,_,by rw [hem]; rfl,rfl⟩

theorem dispatchEvent_over {s : NotifyingLocationIndex σ} {x : ExecutionContext}
    (h : OverLimit s x) (c : Consumers σ) (path : Str) (hash : Hash)
    (previousHash newHash : Option Hash) (changeType : ChangeType) :
    let r := dispatchEvent c path hash previousHash newHash changeType (some x) s
    r.reply.bindingCommitted = false ∧ r.state.inner = s.inner ∧ r.emissions = [] := by
  have he := (chainExceeded_iff s x).mpr h
  simp only [dispatchEvent,Option.getD_some]
  rw [if_pos he]
  exact ⟨rfl,by simp [shallower,deeper],rfl⟩

theorem dispatchEvent_within {s : NotifyingLocationIndex σ} {x : ExecutionContext}
    (h : ¬ OverLimit s x) (c : Consumers σ) (path : Str) (hash : Hash)
    (previousHash newHash : Option Hash) (changeType : ChangeType) :
    let r := dispatchEvent c path hash previousHash newHash changeType (some x) s
    r.reply.bindingCommitted = true ∧ firstSeen r = s.inner := by
  have he := fun h' => h ((chainExceeded_iff s x).mp h')
  simp only [dispatchEvent,Option.getD_some]
  rw [if_neg he]
  obtain ⟨hc,e,rest,hem,hfound⟩ := deliver_first c ⟨path,hash,previousHash,newHash,changeType,
    some (x.atDepth s.deeper.cascadeDepth)⟩ (x.atDepth s.deeper.cascadeDepth)
    (s.deeper.noteChain (x.atDepth s.deeper.cascadeDepth))
  refine ⟨hc,?_⟩
  simp only [firstSeen,hem]
  rw [hfound,noteChain_inner]
  rfl

/-- Dispatch after a write that left the index `m`: the report is right exactly when
being in the index and being under the limit agree. -/
theorem truthful_dispatch {s : NotifyingLocationIndex σ} {m : MemoryLocationIndex} {p : Str}
    {w : Write} (hsame : m = s.inner ↔ ¬ Lands p w)
    (hheld : m.get p = w.requested ↔ Lands p w) (ctx : ExecutionContext) (c : Consumers σ)
    (hash : Hash) (previousHash newHash : Option Hash) (changeType : ChangeType) :
    Truthful p w s (mapReply .ok (dispatchEvent c p hash previousHash newHash changeType
      (some ctx) { s with inner := m })) ↔ (Lands p w ↔ ¬ OverLimit s ctx) := by
  by_cases h : OverLimit s ctx
  · have hd := dispatchEvent_over (s := { s with inner := m }) (x := ctx) h c p hash
      previousHash newHash changeType
    simp only at hd
    have hu : Truthful p w s (mapReply .ok (dispatchEvent c p hash previousHash newHash
        changeType (some ctx) { s with inner := m })) ↔ m = s.inner := by
      simp [Truthful,mapReply,Untouched,hd]
    rw [hu,hsame]
    simp [h]
  · have hd := dispatchEvent_within (s := { s with inner := m }) (x := ctx) h c p hash
      previousHash newHash changeType
    simp only at hd
    have hu : Truthful p w s (mapReply .ok (dispatchEvent c p hash previousHash newHash
        changeType (some ctx) { s with inner := m })) ↔ m.get p = w.requested := by
      have hf : firstSeen (mapReply (Except.ok (ε := CasError)) (dispatchEvent c p hash
          previousHash newHash changeType (some ctx) { s with inner := m })) = m := hd.2
      simp only [Truthful]
      rw [hf]
      simp [mapReply,hd.1]
    rw [hu,hheld]
    simp [h]

/-! A write that is refused, and one that is not: its change of the index, then the dispatch. -/

section Call

variable {path : Str} {s : NotifyingLocationIndex σ}

theorem not_refused_iff : ¬ Refused path s ↔
    EntityUri.validateAbsolutePath path = .ok () ∧ ¬ s.cascadeDepth ≥ cascadeDepthLimit := by
  cases hv : EntityUri.validateAbsolutePath path <;> simp [Refused,hv]

/-- A refused comparison names the expectation itself as the binding. -/
theorem run_refused (h : Refused path s) (c : Consumers σ) (ctx : ExecutionContext) (w : Write) :
    (w.run c path ctx s).state = s ∧ (w.run c path ctx s).emissions = [] ∧
      match (w.run c path ctx s).reply with
      | .error e => w.compares = true ∧ e = .mismatch (w.expected.getD Hash.zero)
      | .ok result => w.compares = false ∧ result.bindingCommitted = false := by
  cases hv : EntityUri.validateAbsolutePath path with
  | error e =>
    cases w <;> simp [Write.run,setImpl,removeImpl,casSwapImpl,casRemoveImpl,casCreateImpl,hv,
      mapReply,Write.compares,Write.expected,CascadeResult.rejected,Except.map]
  | ok u =>
    have hd : s.cascadeDepth ≥ cascadeDepthLimit := by simpa [Refused,hv] using h
    cases w <;> simp [Write.run,setImpl,removeImpl,casSwapImpl,casRemoveImpl,casCreateImpl,hv,
      hd,mapReply,Write.compares,Write.expected,CascadeResult.rejected,Except.map]

theorem run_change (h : ¬ Refused path s) (c : Consumers σ) (ctx : ExecutionContext) (w : Write) :
    w.run c path ctx s =
      match (w.change path s.inner).2 with
      | none => ⟨w.settled path s.inner,{ s with inner := (w.change path s.inner).1 },[]⟩
      | some change => mapReply .ok (dispatchEvent c path change.hash change.previousHash
          change.newHash change.changeType (some ctx)
          { s with inner := (w.change path s.inner).1 }) := by
  obtain ⟨hv,hd⟩ := not_refused_iff.mp h
  cases w with
  | set hash =>
    simp only [Write.run,setImpl,hv,if_neg hd,Write.change]
    cases s.inner.get path with
    | none => rfl
    | some prev =>
      dsimp only
      split_ifs <;> rfl
  | remove =>
    simp only [Write.run,removeImpl,hv,if_neg hd,Write.change]
    cases (s.inner.remove path).1 <;> rfl
  | compareAndSwap expected newHash =>
    simp only [Write.run,casSwapImpl,hv,if_neg hd,Write.change,Write.settled]
    cases s.inner.compareAndSwap path expected newHash with
    | error e => rfl
    | ok swapped =>
      dsimp only
      split_ifs <;> rfl
  | compareAndRemove expected =>
    simp only [Write.run,casRemoveImpl,hv,if_neg hd,Write.change,Write.settled]
    cases s.inner.compareAndRemove path expected <;> rfl
  | compareAndCreate newHash =>
    simp only [Write.run,casCreateImpl,hv,if_neg hd,Write.change,Write.settled]
    cases s.inner.compareAndCreate path newHash <;> rfl

end Call

section Change

variable {path : Str} {m : MemoryLocationIndex} {w : Write}

/-- An idle write fails with what it saw and leaves the index, or what it asks for is there. -/
theorem idle_settled (h : Idle (m.get path) w) : (w.change path m).2 = none ∧
    match w.settled path m with
    | .error e => (w.change path m).1 = m ∧ SaysWhatItSaw (m.get path) w.expected e ∧
        w.expected ≠ m.get path
    | .ok result => result.bindingCommitted = true ∧ m.get path = w.requested ∧
        (w.change path m).1.get path = w.requested := by
  cases w with
  | set hash =>
    have hget : (m.set path hash).get path = some hash := by
      rw [m.get_set]
      split_ifs
      · rfl
      · exact h
    exact ⟨by simp [Write.change,show m.get path = some hash from h],rfl,h,hget⟩
  | remove =>
    have hnone : m.paths.get path = none := h
    simp [Write.change,Write.settled,remove,MemoryLocationIndex.get,hnone,
      CascadeResult.emptySuccess,Write.requested]
  | compareAndSwap expected newHash =>
    simp only [Write.change,Write.settled,compareAndSwap]
    cases hp : m.paths.get path with
    | none => exact ⟨rfl,rfl,hp,by simp [Write.expected,MemoryLocationIndex.get,hp]⟩
    | some current =>
      by_cases hc : current = expected
      · have he : expected = newHash := h.resolve_left (by simp [MemoryLocationIndex.get,hp,hc])
        simp [hp,hc,he,Except.map,CascadeResult.emptySuccess,Write.requested,
          MemoryLocationIndex.get]
      · simp [hp,hc,Ne.symm hc,Except.map,SaysWhatItSaw,Write.expected,MemoryLocationIndex.get]
  | compareAndRemove expected =>
    simp only [Write.change,Write.settled,compareAndRemove]
    cases hp : m.paths.get path with
    | none => exact ⟨rfl,rfl,hp,by simp [Write.expected,MemoryLocationIndex.get,hp]⟩
    | some current =>
      have hc : current ≠ expected := fun hc => h (by rw [MemoryLocationIndex.get,hp,hc])
      simp [hp,hc,hc.symm,Except.map,SaysWhatItSaw,Write.expected,MemoryLocationIndex.get]
  | compareAndCreate newHash =>
    simp only [Write.change,Write.settled,compareAndCreate]
    cases hp : m.paths.get path with
    | none => exact absurd hp h
    | some current =>
      simp [hp,Except.map,SaysWhatItSaw,Write.expected,MemoryLocationIndex.get]

/-- A write that is not idle has a change to report, and makes it unless the index drops it. -/
theorem busy_changes (h : ¬ Idle (m.get path) w) : (∃ change, (w.change path m).2 = some change ∧
      change.previousHash = m.get path ∧ change.newHash = w.requested) ∧
    m.get path ≠ w.requested ∧ (Lands path w → (w.change path m).1.get path = w.requested) ∧
    (¬ Lands path w → (w.change path m).1 = m) := by
  cases w with
  | set hash =>
    refine ⟨?_,h,fun hs => ?_,fun hs => m.set_of_not_storable (Bool.eq_false_iff.mpr hs) hash⟩
    · cases hp : m.get path with
      | none => simp [Write.change,hp,Write.requested]
      | some prev =>
        have hne : prev ≠ hash := fun he => h (by rw [← he]; exact hp)
        simp [Write.change,hp,hne,Write.requested]
    · exact (m.get_set path hash path).trans (if_pos ⟨rfl,hs⟩)
  | remove =>
    obtain ⟨prev,hp⟩ := Option.ne_none_iff_exists'.mp h
    rw [MemoryLocationIndex.get] at hp
    simp [Write.change,remove,MemoryLocationIndex.get,hp,Write.requested,Lands]
  | compareAndSwap expected newHash =>
    obtain ⟨hp,he⟩ : m.get path = some expected ∧ expected ≠ newHash := by simpa [Idle] using h
    rw [MemoryLocationIndex.get] at hp
    simp [Write.change,compareAndSwap,MemoryLocationIndex.get,hp,he, Write.requested,Lands]
  | compareAndRemove expected =>
    have hp : m.paths.get path = some expected := not_not.mp h
    simp [Write.change,compareAndRemove,MemoryLocationIndex.get,hp, Write.requested,Lands]
  | compareAndCreate newHash =>
    have hp : m.paths.get path = none := not_not.mp h
    simp [Write.change,compareAndCreate,MemoryLocationIndex.get,hp, Write.requested,Lands]

end Change

theorem truthful_of_refused {path : Str} {s : NotifyingLocationIndex σ} (h : Refused path s)
    (c : Consumers σ) (ctx : ExecutionContext) (w : Write) :
    Truthful path w s (w.run c path ctx s) := by
  obtain ⟨hstate,hnobody,hreply⟩ := run_refused h c ctx w
  have huntouched : Untouched s (w.run c path ctx s) := ⟨congrArg inner hstate,hnobody⟩
  unfold Truthful
  cases hr : (w.run c path ctx s).reply with
  | error e => exact huntouched
  | ok result =>
    rw [hr] at hreply
    simpa [hreply.2] using huntouched

/-- For every write, consumer list, context and state: the report is the truth about
the index exactly when the write is refused up front, changes nothing, or lands in
the index if and only if its chain is under the limit. -/
theorem write_truthful_iff (c : Consumers σ) (path : Str) (ctx : ExecutionContext)
    (s : NotifyingLocationIndex σ) (w : Write) :
    Truthful path w s (w.run c path ctx s) ↔ ReportsHonestly path ctx s w := by
  by_cases hr : Refused path s
  · exact iff_of_true (truthful_of_refused hr c ctx w) (Or.inl hr)
  · simp only [ReportsHonestly,hr,false_or]
    rw [run_change hr]
    by_cases hidle : Idle (s.inner.get path) w
    · obtain ⟨hnone,hsettled⟩ := idle_settled hidle
      refine iff_of_true ?_ (Or.inl hidle)
      rw [hnone]
      dsimp only
      unfold Truthful
      cases hreply : w.settled path s.inner with
      | error e =>
        rw [hreply] at hsettled
        exact ⟨hsettled.1,rfl⟩
      | ok result =>
        rw [hreply] at hsettled
        dsimp only
        rw [if_pos hsettled.1]
        exact hsettled.2.2
    · obtain ⟨⟨change,hchange,-⟩,hne,hlands,hdrops⟩ := busy_changes hidle
      rw [hchange,or_iff_right hidle]
      refine truthful_dispatch ⟨fun hsame hl => ?_,hdrops⟩ ⟨fun hheld => ?_,hlands⟩ ctx c _ _ _ _
      · rw [← hlands hl,hsame] at hne
        exact hne rfl
      · by_contra hl
        rw [hdrops hl] at hheld
        exact hne hheld

/-! Two reports that are not the truth. -/

namespace WriteSample

def quiet : Consumers Unit := ⟨[],fun _ s => s⟩

def treePath (rest : String) : Str := '/'::List.replicate 46 '2'++ '/'::rest.toList

def chained : ExecutionContext := { chainId := some "chain".toList }

def spent : NotifyingLocationIndex Unit :=
  ⟨⟨.empty⟩,0,OrderedMap.empty.insert "chain".toList 32,()⟩

end WriteSample

open WriteSample in
/-- A parent segment passes the tree-path check and is dropped by the index, yet the set
reports a commit; and a chain that is out of depth gets "not committed" for a binding
that is in the index. -/
theorem write_misreports :
    (¬ Truthful (treePath "a/../b") (.set Hash.zero) ⟨⟨.empty⟩,0,.empty,()⟩
      (Write.run quiet (treePath "a/../b") {} ⟨⟨.empty⟩,0,.empty,()⟩ (.set Hash.zero))) ∧
    ¬ Truthful (treePath "a") (.set Hash.zero) spent
      (Write.run quiet (treePath "a") chained spent (.set Hash.zero)) := by
  constructor
  · have hr : ∃ r, (Write.run quiet (treePath "a/../b") {} ⟨⟨.empty⟩,0,.empty,()⟩
        (.set Hash.zero)).reply = .ok r ∧ r.bindingCommitted = true := ⟨_,rfl,by decide +kernel⟩
    obtain ⟨r,hr,hc⟩ := hr
    intro h
    simp only [Truthful,hr,hc,if_true] at h
    revert h
    decide +kernel
  · have hr : ∃ r, (Write.run quiet (treePath "a") chained spent
        (.set Hash.zero)).reply = .ok r ∧ r.bindingCommitted = false := ⟨_,rfl,by decide +kernel⟩
    obtain ⟨r,hr,hc⟩ := hr
    intro h
    simp only [Truthful,hr,hc,Untouched] at h
    have hget := congrArg (·.get (treePath "a")) h.1
    revert hget
    decide +kernel

end NotifyingLocationIndex
end EntityCore
