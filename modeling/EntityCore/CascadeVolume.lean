import EntityCore.WriteOutcome

/-! How much one chain may write. The counter of nested dispatches goes down when a dispatch
returns; the sum that is kept for each chain does not, so writes of one chain that are never
nested add up until the chain is refused. -/
namespace EntityCore
namespace NotifyingLocationIndex

variable {σ : Type}

/-- Two states that no write told apart: only what consumers keep may differ. -/
structure SameTree (s t : NotifyingLocationIndex σ) : Prop where
  inner : t.inner = s.inner
  depth : t.cascadeDepth = s.cascadeDepth
  chains : t.chainCascadeDepths = s.chainCascadeDepths

@[simp] theorem SameTree.refl (s : NotifyingLocationIndex σ) : SameTree s s := ⟨rfl,rfl,rfl⟩

theorem SameTree.trans {s t u : NotifyingLocationIndex σ} (h : SameTree s t) (h' : SameTree t u) :
    SameTree s u := ⟨h'.inner.trans h.inner,h'.depth.trans h.depth,h'.chains.trans h.chains⟩

/-- No consumer writes the tree. -/
structure Quiet (c : Consumers σ) : Prop where
  hooks : ∀ hook ∈ c.syncHooks, ∀ event ctx s, SameTree s (hook.onTreeChange event ctx s).2.2
  broadcast : ∀ event s, SameTree s (c.onChangeBroadcast event s)

/-- One write that is not made by a consumer. -/
structure TopWrite where
  path : Str
  ctx : ExecutionContext
  write : Write

/-- The writes in turn, each with its reply. -/
def runWrites (c : Consumers σ) : List TopWrite → NotifyingLocationIndex σ →
    List (Except CasError CascadeResult) × NotifyingLocationIndex σ
  | [], s => ([],s)
  | op::ops, s =>
    let r := op.write.run c op.path op.ctx s
    let rest := runWrites c ops r.state
    (r.reply::rest.1,rest.2)

def depthMessages : List String := ["cascade_depth_exceeded","cross_peer_cascade_depth_exceeded"]

/-- The reply turns the write down for its depth. -/
def RefusedForDepth (reply : Except CasError CascadeResult) : Prop :=
  ∃ result halt, reply = .ok result ∧ result.bindingCommitted = false ∧
    halt ∈ result.consumersHalted ∧ halt.errorMessage ∈ depthMessages

/-- The index after a write of it alone. -/
def Write.apply (w : Write) (path : Str) (m : MemoryLocationIndex) : MemoryLocationIndex :=
  match w with
  | .set hash => m.set path hash
  | .remove => (m.remove path).2
  | .compareAndSwap expected newHash => (m.compareAndSwap path expected newHash).toOption.getD m
  | .compareAndRemove expected => ((m.compareAndRemove path expected).toOption.map Prod.snd).getD m
  | .compareAndCreate newHash => (m.compareAndCreate path newHash).toOption.getD m

instance (held : Option Hash) : (w : Write) → Decidable (Idle held w)
  | .set hash => inferInstanceAs (Decidable (held = some hash))
  | .remove => inferInstanceAs (Decidable (held = none))
  | .compareAndSwap expected newHash =>
    inferInstanceAs (Decidable (held ≠ some expected ∨ expected = newHash))
  | .compareAndRemove expected => inferInstanceAs (Decidable (held ≠ some expected))
  | .compareAndCreate _ => inferInstanceAs (Decidable (held ≠ none))

/-- How many writes of the chain change the index. -/
def changesOf (chain : Str) : List TopWrite → MemoryLocationIndex → ℕ
  | [], _ => 0
  | op::ops, m =>
    (if op.ctx.chainId = some chain ∧ ¬ Idle (m.get op.path) op.write then 1 else 0)+
      changesOf chain ops (op.write.apply op.path m)

theorem apply_eq (w : Write) (path : Str) (m : MemoryLocationIndex) :
    w.apply path m = (w.change path m).1 := by
  cases w with
  | set hash => rfl
  | remove => rfl
  | compareAndSwap expected newHash =>
    simp only [Write.apply,Write.change]
    cases m.compareAndSwap path expected newHash <;> rfl
  | compareAndRemove expected =>
    simp only [Write.apply,Write.change]
    cases m.compareAndRemove path expected <;> rfl
  | compareAndCreate newHash =>
    simp only [Write.apply,Write.change]
    cases m.compareAndCreate path newHash <;> rfl

/-! One dispatch. -/

section Quiet

variable {c : Consumers σ} (hq : Quiet c)
include hq

theorem runHooks_quiet (event : TreeChangeEvent) (hooks : List (SyncTreeHook σ))
    (hsub : ∀ hook ∈ hooks, hook ∈ c.syncHooks) (completed : List Str) (ctx : ExecutionContext)
    (s : NotifyingLocationIndex σ) : SameTree s (runHooks event hooks completed ctx s).state := by
  induction hooks generalizing completed ctx s with
  | nil => exact .refl s
  | cons hook rest ih =>
    have hone := hq.hooks hook (hsub hook (by simp)) event (enterHook hook ctx) s
    simp only [runHooks]
    split
    · exact hone.trans (ih (fun h hh => hsub h (by simp [hh])) _ _ _)
    · exact hone

theorem deliver_quiet (event : TreeChangeEvent) (ctx : ExecutionContext)
    (s : NotifyingLocationIndex σ) : SameTree s (deliver c event ctx s).state := by
  have hhooks := runHooks_quiet hq event c.syncHooks (fun _ h => h) [] ctx s
  simp only [deliver]
  split
  · exact hhooks
  · exact hhooks.trans (hq.broadcast _ _)

theorem dispatchEvent_quiet (path : Str) (hash : Hash) (previousHash newHash : Option Hash)
    (changeType : ChangeType) (x : ExecutionContext) (s : NotifyingLocationIndex σ) :
    let r := dispatchEvent c path hash previousHash newHash changeType (some x) s
    r.state.inner = s.inner ∧ r.state.cascadeDepth = s.cascadeDepth ∧ r.state.chainCascadeDepths =
        (s.deeper.noteChain (x.atDepth (s.cascadeDepth+1))).chainCascadeDepths ∧
      (RefusedForDepth (.ok r.reply) ↔ OverLimit s x) := by
  have hdepth : ∀ y, (s.deeper.noteChain y).cascadeDepth = s.cascadeDepth+1 := by
    intro y
    unfold noteChain
    split <;> rfl
  by_cases h : OverLimit s x
  · have he := (chainExceeded_iff s x).mpr h
    simp only [dispatchEvent,Option.getD_some]
    rw [if_pos he]
    refine ⟨noteChain_inner _ _,?_,rfl,iff_of_true ?_ h⟩
    · simp [shallower,hdepth]
    · exact ⟨_,_,rfl,rfl,List.mem_singleton_self _,
        List.mem_cons_of_mem _ (List.mem_singleton_self _)⟩
  · have he : ¬ s.deeper.chainExceeded (x.atDepth s.deeper.cascadeDepth) = true :=
      fun h' => h ((chainExceeded_iff s x).mp h')
    simp only [dispatchEvent,Option.getD_some]
    rw [if_neg he]
    have hsame := deliver_quiet hq ⟨path,hash,previousHash,newHash,changeType,
      some (x.atDepth s.deeper.cascadeDepth)⟩ (x.atDepth s.deeper.cascadeDepth)
      (s.deeper.noteChain (x.atDepth s.deeper.cascadeDepth))
    have hcommitted := (deliver_first c ⟨path,hash,previousHash,newHash,changeType,
      some (x.atDepth s.deeper.cascadeDepth)⟩ (x.atDepth s.deeper.cascadeDepth)
      (s.deeper.noteChain (x.atDepth s.deeper.cascadeDepth))).1
    refine ⟨hsame.inner.trans (noteChain_inner _ _),?_,hsame.chains,iff_of_false ?_ h⟩
    · simp [shallower,hsame.depth,hdepth]
    · rintro ⟨result,halt,hreply,hfalse,-⟩
      rw [← Except.ok.inj hreply,hcommitted] at hfalse
      cases hfalse

/-- What one write of the tree leaves, if no dispatch runs around it. -/
structure TopStep (op : TopWrite) (s : NotifyingLocationIndex σ)
    (r : Ran σ (Except CasError CascadeResult)) : Prop where
  inner : r.state.inner = op.write.apply op.path s.inner
  depth : r.state.cascadeDepth = 0
  idle : Idle (s.inner.get op.path) op.write →
    ¬ RefusedForDepth r.reply ∧ ∀ chain, r.state.accumulated chain = s.accumulated chain
  refused : ¬ Idle (s.inner.get op.path) op.write → (RefusedForDepth r.reply ↔
    ∃ chain, op.ctx.chainId = some chain ∧ cascadeDepthLimit ≤ s.accumulated chain)
  counted : ¬ Idle (s.inner.get op.path) op.write → ∀ chain, r.state.accumulated chain =
    s.accumulated chain+
      if op.ctx.chainId = some chain ∧ s.accumulated chain < cascadeDepthLimit then 1 else 0

omit hq in
/-- At the top a chain is refused when it has used up the limit. -/
theorem overLimit_top {s : NotifyingLocationIndex σ} (hd : s.cascadeDepth = 0)
    (x : ExecutionContext) : OverLimit s x ↔
      ∃ chain, x.chainId = some chain ∧ cascadeDepthLimit ≤ s.accumulated chain := by
  simp only [OverLimit,hd]
  refine exists_congr fun chain => and_congr_right fun _ => ?_
  omega

omit hq in
/-- At the top a dispatch adds one to its chain, unless it is refused. -/
theorem accumulated_noteChain {s : NotifyingLocationIndex σ} (hd : s.cascadeDepth = 0)
    (x : ExecutionContext) (chain : Str) :
    (s.deeper.noteChain (x.atDepth 1)).accumulated chain = s.accumulated chain+
      if x.chainId = some chain ∧ s.accumulated chain < cascadeDepthLimit then 1 else 0 := by
  cases hc : x.chainId with
  | none => simp [noteChain,ExecutionContext.atDepth,hc,deeper,accumulated]
  | some own =>
    have hover : s.deeper.chainExceeded (x.atDepth 1) = true ↔
        cascadeDepthLimit ≤ s.accumulated own := by
      rw [show (1 : ℕ) = s.deeper.cascadeDepth from (congrArg (·+1) hd).symm,chainExceeded_iff,
        overLimit_top hd,hc]
      simp
    have hsum : (s.deeper.noteChain (x.atDepth 1)).accumulated chain = if chain = own then
        (if s.deeper.chainExceeded (x.atDepth 1) then s.accumulated own else s.accumulated own+1)
        else s.accumulated chain := by
      have hown : (x.atDepth 1).chainId = some own := hc
      unfold noteChain
      simp only [hown]
      by_cases h : chain = own
      · subst h
        simp [accumulated,deeper,ExecutionContext.atDepth]
      · simp [accumulated,deeper,h]
    rw [hsum]
    by_cases h : chain = own
    · subst h
      simp only [if_true,hover,true_and]
      split_ifs <;> omega
    · have hne : ¬ own = chain := fun h' => h h'.symm
      simp [h,hne]

theorem topStep_dispatch {op : TopWrite} {s : NotifyingLocationIndex σ} (hd : s.cascadeDepth = 0)
    (hbusy : ¬ Idle (s.inner.get op.path) op.write) {m : MemoryLocationIndex}
    (hm : m = op.write.apply op.path s.inner) (hash : Hash) (previousHash newHash : Option Hash)
    (changeType : ChangeType) : TopStep op s (mapReply .ok (dispatchEvent c op.path hash previousHash
      newHash changeType (some op.ctx) { s with inner := m })) := by
  obtain ⟨hinner,hdepth,hchains,hrefused⟩ := dispatchEvent_quiet hq op.path hash previousHash newHash
    changeType op.ctx { s with inner := m }
  refine ⟨hinner.trans hm,hdepth.trans hd,fun h => absurd h hbusy,
    fun _ => hrefused.trans (overLimit_top hd op.ctx),fun _ chain => ?_⟩
  rw [← accumulated_noteChain hd]
  show (OrderedMap.get _ chain).getD 0 = (OrderedMap.get _ chain).getD 0
  rw [show (mapReply Except.ok _).state.chainCascadeDepths = _ from hchains]
  unfold noteChain
  rw [show (NotifyingLocationIndex.mk m _ _ _).cascadeDepth = 0 from hd]
  cases hc : op.ctx.chainId <;> simp [ExecutionContext.atDepth,hc,deeper,chainExceeded,accumulated]

theorem topStep_run {op : TopWrite} (hv : EntityUri.validateAbsolutePath op.path = .ok ()) {s : NotifyingLocationIndex σ} (hd : s.cascadeDepth = 0) :
    TopStep op s (op.write.run c op.path op.ctx s) := by
  have hlow : ¬ s.cascadeDepth ≥ cascadeDepthLimit := by
    rw [hd]
    decide
  rw [run_change (not_refused_iff.mpr ⟨hv,hlow⟩)]
  by_cases hidle : Idle (s.inner.get op.path) op.write
  · -- a write that changes nothing is answered without a dispatch
    obtain ⟨hnone,hsettled⟩ := idle_settled hidle
    rw [hnone]
    refine ⟨(apply_eq ..).symm,hd,fun _ => ⟨?_,fun _ => rfl⟩,fun h => absurd hidle h,
      fun h => absurd hidle h⟩
    rintro ⟨result,halt,hreply,hfalse,-⟩
    rw [show op.write.settled op.path s.inner = .ok result from hreply] at hsettled
    rw [hsettled.1] at hfalse
    cases hfalse
  · obtain ⟨⟨change,hchange,-⟩,-⟩ := busy_changes hidle
    rw [hchange]
    exact topStep_dispatch hq hd hidle (apply_eq ..).symm _ _ _ _

end Quiet

/-! Runs. -/

/-- A chain is refused somewhere exactly if it changes the index more often than the limit lets
it; the nesting counter is back at zero whatever happens. -/
theorem volume_limited_iff {c : Consumers σ} (hq : Quiet c) (ops : List TopWrite)
    (hv : ∀ op ∈ ops, EntityUri.validateAbsolutePath op.path = .ok ())
    (s : NotifyingLocationIndex σ) (hd : s.cascadeDepth = 0) :
    (runWrites c ops s).2.cascadeDepth = 0 ∧
      ((∀ reply ∈ (runWrites c ops s).1, ¬ RefusedForDepth reply) ↔
        ∀ chain, changesOf chain ops s.inner = 0 ∨
          s.accumulated chain+changesOf chain ops s.inner ≤ cascadeDepthLimit) := by
  induction ops generalizing s with
  | nil => simp [runWrites,changesOf,hd]
  | cons op ops ih =>
    have hstep := topStep_run hq (hv op (by simp)) (s := s) hd
    obtain ⟨hdepth,hrest⟩ := ih (fun o ho => hv o (by simp [ho])) _ hstep.depth
    refine ⟨hdepth,?_⟩
    rw [hstep.inner] at hrest
    simp only [runWrites,List.mem_cons,forall_eq_or_imp,hrest,changesOf]
    by_cases hidle : Idle (s.inner.get op.path) op.write
    · have hsame := hstep.idle hidle
      simp only [hidle,not_true,and_false,if_false,zero_add,hsame.1,not_false_eq_true,true_and,
        hsame.2]
    · simp only [hidle,not_false_eq_true,and_true,hstep.refused hidle,hstep.counted hidle]
      constructor
      · rintro ⟨hfree,hchains⟩ chain
        by_cases hc : op.ctx.chainId = some chain
        · have hlow : s.accumulated chain < cascadeDepthLimit :=
            not_le.mp fun hle => hfree ⟨chain,hc,hle⟩
          have := hchains chain
          simp only [hc,hlow,and_self,if_true] at this ⊢
          omega
        · have := hchains chain
          simp only [hc,false_and,if_false,zero_add,add_zero] at this ⊢
          exact this
      · intro hchains
        have hfree : ¬ ∃ chain, op.ctx.chainId = some chain ∧
            cascadeDepthLimit ≤ s.accumulated chain := by
          rintro ⟨chain,hc,hle⟩
          have := hchains chain
          simp only [hc,if_true] at this
          omega
        refine ⟨hfree,fun chain => ?_⟩
        have := hchains chain
        by_cases hc : op.ctx.chainId = some chain
        · have hlow : s.accumulated chain < cascadeDepthLimit :=
            not_le.mp fun hle => hfree ⟨chain,hc,hle⟩
          simp only [hc,hlow,and_self,if_true] at this ⊢
          omega
        · simp only [hc,false_and,if_false,zero_add,add_zero] at this ⊢
          exact this

/-! One path, bound and unbound again by one chain. -/

namespace WriteSample

theorem quiet_writes_nothing : Quiet quiet := ⟨by simp [quiet],fun _ s => .refl s⟩

def fresh : NotifyingLocationIndex Unit := ⟨⟨.empty⟩,0,.empty,()⟩

def rounds (n : ℕ) : List TopWrite := (List.replicate n
  [⟨treePath "a",chained,.set Hash.zero⟩,⟨treePath "a",chained,.remove⟩]).flatten

theorem rounds_valid (n : ℕ) : ∀ op ∈ rounds n,
    EntityUri.validateAbsolutePath op.path = .ok () ∧ pathIsStorable op.path = true := by
  have hpath : EntityUri.validateAbsolutePath (treePath "a") = .ok () ∧
      pathIsStorable (treePath "a") = true := by decide +kernel
  intro op hop
  obtain ⟨l,hl,hop⟩ := List.mem_flatten.mp hop
  rw [List.eq_of_mem_replicate hl] at hop
  rcases List.mem_cons.mp hop with rfl | hop
  · exact hpath
  · rw [List.mem_singleton.mp hop]
    exact hpath

/-- Is this a reply that turns a write down for its depth? -/
def refusal : Except CasError CascadeResult → Bool
  | .ok result => !result.bindingCommitted &&
      result.consumersHalted.any fun halt => halt.errorMessage ∈ depthMessages
  | .error _ => false

theorem refused_of_refusal {reply : Except CasError CascadeResult} (h : refusal reply = true) :
    RefusedForDepth reply := by
  cases reply with
  | error e => cases h
  | ok result =>
    simp only [refusal,Bool.and_eq_true,Bool.not_eq_true',List.any_eq_true,decide_eq_true_eq] at h
    obtain ⟨hfalse,halt,hmem,hmessage⟩ := h
    exact ⟨result,halt,rfl,hfalse,hmem,hmessage⟩

end WriteSample

open WriteSample

theorem volume_limited_iff_sample : (runWrites quiet (rounds 2) fresh).2.cascadeDepth = 0 ∧
    ((∀ reply ∈ (runWrites quiet (rounds 2) fresh).1, ¬ RefusedForDepth reply) ↔
      ∀ chain, changesOf chain (rounds 2) fresh.inner = 0 ∨
        fresh.accumulated chain+changesOf chain (rounds 2) fresh.inner ≤ cascadeDepthLimit) :=
  volume_limited_iff quiet_writes_nothing (rounds 2) (fun op hop => (rounds_valid 2 op hop).1) fresh rfl

/-- Thirty-four writes of one chain at the top of a fresh index: the last two are refused. -/
theorem volume_refused : ¬ ∀ (c : Consumers Unit) (ops : List TopWrite), Quiet c →
    (∀ op ∈ ops, EntityUri.validateAbsolutePath op.path = .ok () ∧ pathIsStorable op.path = true) →
    (∀ reply ∈ (runWrites c ops fresh).1, ¬ RefusedForDepth reply) ∧
      (runWrites c ops fresh).2.cascadeDepth = 0 := by
  intro h
  have hfree := (h quiet (rounds 17) quiet_writes_nothing (rounds_valid 17)).1
  have hany : (runWrites quiet (rounds 17) fresh).1.any refusal = true := by decide +kernel
  obtain ⟨reply,hmem,href⟩ := List.any_eq_true.mp hany
  exact hfree reply hmem (refused_of_refusal href)

end NotifyingLocationIndex
end EntityCore
