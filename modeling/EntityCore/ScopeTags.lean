import EntityCore.ComputeBudget

/-! Cast tags and scopes. Every form strips the tag of what it binds but `fold`, which binds its
accumulator as it is; a tag enters a scope there and nowhere else. -/
namespace EntityCore
namespace Compute

open Ecf Program

/-- No binding carries the cast tag. -/
def Untagged (scope : Scope) : Prop := ∀ name v, scope.get name = some v → v.isUintTagged = false

theorem untagged_insert {scope : Scope} (name : Str) (v : ComputeValue)
    (hscope : ∀ other w, other ≠ name → scope.get other = some w → w.isUintTagged = false)
    (hv : v.isUintTagged = false) : Untagged (scope.insert name v) := by
  intro other w hget
  rw [OrderedMap.get_insert] at hget
  by_cases hother : other = name
  · rw [if_pos hother] at hget
    cases hget
    exact hv
  · rw [if_neg hother] at hget
    exact hscope other w hother hget

theorem bindsUntagged : BindsUntagged Untagged where
  empty name v hget := by cases hget
  insert scope name v hscope hv := untagged_insert name v (fun other w _ => hscope other w) hv

/-- What is captured of such a scope carries no tag. -/
theorem Untagged.captured {scope : Scope} (h : Untagged scope) :
    ∀ b ∈ canonicalSortedPairs scope.entries, b.2.isUintTagged = false := by
  intro b hb
  have hmem : b ∈ scope.entries := (List.perm_insertionSort _ _).mem_iff.mp hb
  exact h b.1 b.2 ((OrderedMap.mem_entries scope b.1 b.2).mp hmem)

/-! The callbacks of a fold. -/

section Fold

variable {σ : Type} (X : Platform) (h : (c : Command) → σ → Option (Answer c) × σ)

/-- Whether a callback finds the body of its closure. -/
def entersBody (closure : ClosureValue) (s : σ) : Bool :=
  match ((do
    let _ ← loadScope X closure.env
    resolve closure.body : Eval (Option Entity)).run h s).1 with
  | .done found => found.isSome
  | _ => false

/-- An item of the same name takes the place of the accumulator. -/
def bindsAccumulator (closure : ClosureValue) : Bool :=
  match closure.params with
  | p::q::_ => p ≠ q
  | _ => false

/-- The accumulators that the callbacks of a fold are evaluated with. -/
def foldAccumulators (closure : ClosureValue) : ComputeValue → List Value → σ → List ComputeValue
  | _, [], _ => []
  | acc, item::items, s =>
    (if bindsAccumulator closure && entersBody X h closure s then [acc] else [])++
      match (foldStep X closure acc item).run h s with
      | (.done v,s') => foldAccumulators closure v items s'
      | _ => []

variable {X h} {closure : ClosureValue}

/-- A body that is not found is not evaluated. -/
theorem applyClosureBody_issues {bindings : List (Str × ComputeValue)} {s : σ}
    (henters : entersBody X h closure s = false) :
    (applyClosureBody X closure bindings).Issues h (EvaluatesIn Untagged) s := by
  have hload : (loadScope X closure.env).Conforms (EvaluatesIn Untagged) True Untagged :=
    loadScope_conforms bindsUntagged closure.env
  refine (hload.issues s).bind fun scope s' hrun => ⟨trivial,fun found hfound => ?_⟩
  cases found with
  | none => trivial
  | some body =>
    have hbody : ((do
        let _ ← loadScope X closure.env
        resolve closure.body : Eval (Option Entity)).run h s).1 = .done (some body) := by
      rw [run_andThen,hrun]
      show ((Program.step (Command.resolve closure.body) .done).run h s').1 = _
      rw [run_step,hfound]
      rfl
    unfold entersBody at henters
    rw [hbody] at henters
    cases henters

theorem foldStep_issues {acc : ComputeValue} (item : Value) {s : σ}
    (hacc : bindsAccumulator closure = true → entersBody X h closure s = true →
      acc.isUintTagged = false) :
    (foldStep X closure acc item).Issues h (EvaluatesIn Untagged) s := by
  refine Issues.bind ?_ fun v s' _ => ?_
  · unfold applyClosureToTwoValues
    split
    · rename_i p q rest hparams
      apply Issues.answer
      cases henters : entersBody X h closure s with
      | false => exact applyClosureBody_issues henters
      | true =>
        have hconforms : (applyClosureBody X closure [(p,acc),(q,.primitive item)]).Conforms
            (EvaluatesIn Untagged) True fun _ => True := by
          refine applyClosureBody_conforms bindsUntagged closure fun scope hscope => ?_
          refine untagged_insert q _ (fun other w hother hget => ?_) rfl
          rw [OrderedMap.get_insert] at hget
          by_cases hp : other = p
          · have hbinds : bindsAccumulator closure = true := by
              unfold bindsAccumulator
              rw [hparams]
              simpa [← hp] using hother
            rw [if_pos hp] at hget
            cases hget
            exact hacc hbinds henters
          · rw [if_neg hp] at hget
            exact hscope other w hget
        exact hconforms.issues s
    · trivial
  · split
    · trivial
    · trivial

/-- A fold whose accumulators are untagged evaluates in untagged scopes. -/
theorem foldEach_issues (items : List Value) (acc : ComputeValue) (s : σ)
    (haccs : ∀ v ∈ foldAccumulators X h closure acc items s, v.isUintTagged = false) :
    (foldEach (foldStep X closure) acc items).Issues h (EvaluatesIn Untagged) s := by
  induction items generalizing acc s with
  | nil => trivial
  | cons item items ih =>
    refine (foldStep_issues item fun hbinds henters => ?_).bind fun v s' hrun => ih v s' fun w hw => ?_
    · apply haccs
      simp [foldAccumulators,hbinds,henters]
    · apply haccs
      rw [foldAccumulators,hrun]
      exact List.mem_append_right _ hw

end Fold

/-- What folds in place is a fold. -/
theorem evaluateInner_fold {X : Platform} {F : Runtime} {env : EvalEnv} {e : Entity} {data : Value}
    (scope : Scope) (h : foldCall X e = some data) :
    evaluateInner X F env e scope = .value <$> dispatchFold X data scope := by
  unfold foldCall at h
  obtain ⟨fields,hdata,h⟩ := Option.bind_eq_some_iff.mp h
  split at h
  · rename_i hform
    simp only [Bool.and_eq_true,decide_eq_true_eq] at hform
    unfold foldArgs at h
    obtain ⟨path,hpath,h⟩ := Option.bind_eq_some_iff.mp h
    obtain ⟨operation,hoperation,h⟩ := Option.bind_eq_some_iff.mp h
    split at h
    · rename_i hcall
      simp only [Bool.and_eq_true,decide_eq_true_eq] at hcall
      obtain ⟨⟨⟨⟨hbuiltin,hcapability⟩,hresource⟩,heval⟩,hfold⟩ := hcall
      obtain ⟨params,hparams,hargs⟩ := Option.bind_eq_some_iff.mp h
      have hnew : Entity.new X Builtin.fold.inputType
          (toEcf (.map (argsFields ((dataHashMap fields "args").getD [])))) = .ok params := by
        cases hbuilt : Entity.new X Builtin.fold.inputType
            (toEcf (.map (argsFields ((dataHashMap fields "args").getD [])))) with
        | error err =>
          rw [hbuilt] at hparams
          cases hparams
        | ok built =>
          rw [hbuilt] at hparams
          cases hparams
          rfl
      have hhaspath : (fields.get "path".toList).isSome = true := by
        unfold dataStr at hpath
        cases hget : fields.get "path".toList with
        | none =>
          rw [hget] at hpath
          cases hpath
        | some v => rfl
      have hdispatch : dispatchBuiltinAlias X F env path operation
          ((dataHashMap fields "args").getD []) scope = some (dispatchFold X data scope) := by
        unfold dispatchBuiltinAlias
        rw [if_neg (by simp [heval]),hfold]
        show some (dispatchCollection X .fold (dispatchFold X) _ scope) = _
        unfold dispatchCollection
        rw [hnew]
        show some (orEarly (decodeData X params) _ >>= _) = _
        rw [hargs]
        rfl
      have happly : evalApplyHandler X F env fields scope = dispatchFold X data scope := by
        unfold evalApplyHandler
        rw [hpath,hoperation]
        show (if isBuiltinPath path = true then _ else _ : Eval ComputeValue) = _
        rw [if_pos hbuiltin,if_neg (by simp [Option.isNone_iff_eq_none.mp hcapability,
          Option.isNone_iff_eq_none.mp hresource]),hdispatch]
      unfold evaluateInner
      rw [hdata,hform.1]
      show evalApply X F env fields scope = _
      unfold evalApply
      rw [hhaspath,Option.isNone_iff_eq_none.mp hform.2]
      show (EvalResult.value <$> evalApplyHandler X F env fields scope) = _
      rw [happly]
    · cases h
  · cases h

/-! Runs. -/

section Runs

variable {W : Type} (X : Platform) (F : Runtime) (host : Host W) (env : EvalEnv)

/-- The accumulators that a pass evaluates callbacks with. -/
def Round.accumulators (r : Round W) : List ComputeValue :=
  match foldCall X r.entity with
  | none => []
  | some data =>
    if r.state.operations-1 = 0 then []
    else match (foldStart X data r.scope).run (performCommand host env (evaluate X F host env))
        {r.state with operations := r.state.operations-1} with
      | (.done start,s) => foldAccumulators X (performCommand host env (evaluate X F host env))
          start.closure start.initial start.items s
      | _ => []

/-- No fold hands a tagged accumulator to a callback. -/
def Traced.FoldsUntagged (t : Traced W) : Prop :=
  ∀ r ∈ t.rounds, ∀ acc ∈ r.accumulators X F host env, acc.isUintTagged = false

/-- Every scope so far that something was evaluated in. -/
structure Traced.AllUntagged (t : Traced W) : Prop where
  calls : ∀ call ∈ t.calls, Untagged call.2
  rounds : ∀ r ∈ t.rounds, Untagged r.scope

variable {X F host env} {fuel frames : ℕ}

theorem Traced.FoldsUntagged.of_within {t t' : Traced W} (h : t'.FoldsUntagged X F host env)
    (hwithin : Within fuel frames t t') : t.FoldsUntagged X F host env :=
  fun r hr => h r (hwithin.rounds_suffix.subset hr)

/-- A pass evaluates in untagged scopes and goes on in one. -/
theorem evaluateInner_issues {e : Entity} {scope : Scope} {t : Traced W} (hscope : Untagged scope)
    (hspent : t.state.operations-1 ≠ 0) (hleft : t.state.operations-1 < fuel)
    (hfolds : (t.pass e scope frames).FoldsUntagged X F host env) :
    (evaluateInner X F env e scope).Issues (passCommand X F host env fuel frames)
      (EvaluatesIn Untagged) (t.pass e scope frames) := by
  cases hcall : foldCall X e with
  | none =>
    have hconforms : (evaluateInner X F env e scope).Conforms (EvaluatesIn Untagged) True
        (EvalResult.ContinuesIn Untagged) := evaluateInner_conforms hscope (Or.inr trivial)
      bindsUntagged e (Or.inr hcall) fun _ => trivial
    exact hconforms.issues _
  | some data =>
    have hbehind : Behind (t.state.operations-1) (t.pass e scope frames)
        {t.state with operations := t.state.operations-1} := ⟨rfl,le_rfl⟩
    refine Issues.congr (passCommand_erases hleft) hbehind ?_
    have hstart : (foldStart X data scope).Conforms (EvaluatesIn Untagged) True fun _ => True :=
      foldStart_conforms hscope data
    rw [evaluateInner_fold scope hcall,dispatchFold_eq]
    refine Issues.bind ((hstart.issues _).bind fun start s' hrun => ?_) fun v s' _ => trivial
    refine foldEach_issues start.items start.initial s' fun acc hacc => ?_
    apply hfolds ⟨e,scope,t.state,frames⟩ List.mem_cons_self
    unfold Round.accumulators
    dsimp only
    rw [hcall]
    dsimp only
    rw [if_neg hspent,hrun]
    exact hacc

theorem evaluateInner_continues {e : Entity} {scope : Scope} {t : Traced W} (hscope : Untagged scope)
    {result : EvalResult} (hend : ((evaluateInner X F env e scope).run
      (passCommand X F host env fuel frames) t).1 = .done result) : result.ContinuesIn Untagged := by
  cases hcall : foldCall X e with
  | none =>
    have hconforms : (evaluateInner X F env e scope).Conforms (EvaluatesIn Untagged) True
        (EvalResult.ContinuesIn Untagged) := evaluateInner_conforms hscope (Or.inr trivial)
      bindsUntagged e (Or.inr hcall) fun _ => trivial
    exact run_post hconforms hend
  | some data =>
    -- a fold ends with a value
    have hvalue : (evaluateInner X F env e scope).Conforms (fun _ => True) True
        (EvalResult.ContinuesIn Untagged) := by
      rw [evaluateInner_fold scope hcall]
      exact (Conforms.any _).map fun _ _ => trivial
    exact run_post hvalue hend

/-- What holds of the record and how many operations are left. -/
def TagFree (n : ℕ) (t : Traced W) : Prop := t.AllUntagged ∧ t.state.operations < n

theorem tracedCommand_clean {eval : Entity → Scope → Traced W → Option ComputeValue × Traced W}
    (hwithin : ∀ e scope t, Within fuel frames t (eval e scope t).2)
    (heval : ∀ e scope t, t.state.operations < fuel → Untagged scope →
      (eval e scope t).2.FoldsUntagged X F host env → t.AllUntagged → (eval e scope t).2.AllUntagged)
    (c : Command) (t : Traced W) (hc : EvaluatesIn Untagged c) (ht : TagFree fuel t)
    (hfolds : (tracedCommand host env eval c t).2.FoldsUntagged X F host env) :
    TagFree fuel (tracedCommand host env eval c t).2 := by
  have hleft := (@tracedCommand_within W host env _ _ _ hwithin c t).operations
  refine ⟨?_,lt_of_le_of_lt hleft ht.2⟩
  by_cases hevaluate : ∃ e scope, c = .evaluate e scope
  · obtain ⟨e,scope,rfl⟩ := hevaluate
    exact heval e scope t ht.2 hc hfolds ht.1
  · obtain ⟨-,-,hcalls,hrounds,-⟩ := @tracedCommand_state W host env eval
      (fun _ _ s => (none,s)) _ (fun e scope h => hevaluate ⟨e,scope,h⟩) t
    constructor
    · rw [hcalls]
      exact ht.1.calls
    · rw [hrounds]
      exact ht.1.rounds

theorem tracedEnter_clean
    {loop : Bool → Entity → Scope → Traced W → Option ComputeValue × Traced W} {n : ℕ}
    (hloop : ∀ strip e scope t, t.state.operations < n → Untagged scope →
      (loop strip e scope t).2.FoldsUntagged X F host env → t.AllUntagged →
        (loop strip e scope t).2.AllUntagged) (e : Entity) (scope : Scope) (t : Traced W)
    (hops : t.state.operations < n) (hscope : Untagged scope)
    (hfolds : (tracedEnter loop e scope t).2.FoldsUntagged X F host env) (ht : t.AllUntagged) :
    (tracedEnter loop e scope t).2.AllUntagged := by
  have hcalls : ∀ call ∈ (e,scope)::t.calls, Untagged call.2 :=
    List.forall_mem_cons.mpr ⟨hscope,ht.calls⟩
  by_cases hexpr : isComputeExpression e = true
  · by_cases hzero : t.state.depth = 0
    · simp only [tracedEnter,hexpr,hzero,Bool.not_true,Bool.false_eq_true,if_false,if_true]
      exact ⟨hcalls,ht.rounds⟩
    · simp only [tracedEnter,hexpr,Bool.not_true,Bool.false_eq_true,if_false,if_neg hzero] at hfolds ⊢
      have hinner := hloop false e scope {t with
        calls := (e,scope)::t.calls
        state := {t.state with depth := t.state.depth-1}} hops hscope hfolds ⟨hcalls,ht.rounds⟩
      exact ⟨hinner.calls,hinner.rounds⟩
  · simp only [tracedEnter,hexpr]
    exact ⟨hcalls,ht.rounds⟩

theorem tracedTrampoline_clean (fuel : ℕ) : ∀ frames strip e scope (t : Traced W),
    t.state.operations < fuel → Untagged scope →
    (tracedTrampoline X F host env fuel frames strip e scope t).2.FoldsUntagged X F host env →
    t.AllUntagged → (tracedTrampoline X F host env fuel frames strip e scope t).2.AllUntagged := by
  induction fuel with
  | zero => exact fun _ _ _ _ t hops => absurd hops (Nat.not_lt_zero _)
  | succ fuel ih =>
    intro frames strip e scope t hops hscope hfolds ht
    have hpass : (t.pass e scope frames).AllUntagged :=
      ⟨ht.calls,List.forall_mem_cons.mpr ⟨hscope,ht.rounds⟩⟩
    by_cases hspent : t.state.operations-1 = 0
    · rw [tracedTrampoline_spent _ _ _ _ _ hspent]
      exact ⟨hpass.calls,hpass.rounds⟩
    · have hleft : t.state.operations-1 < fuel := by omega
      have hrun : ((evaluateInner X F env e scope).run (passCommand X F host env fuel frames)
            (t.pass e scope frames)).2.FoldsUntagged X F host env →
          TagFree fuel ((evaluateInner X F env e scope).run (passCommand X F host env fuel frames)
            (t.pass e scope frames)).2 := by
        intro hend
        have hbefore := hend.of_within (runPass_within fuel frames (evaluateInner X F env e scope)
          (t.pass e scope frames))
        exact run_keeps_of_issues (G := fun t' => t'.FoldsUntagged X F host env)
          (fun c t' h => h.of_within (passCommand_within fuel frames c t'))
          (fun c t' hc ht' h => tracedCommand_clean (tracedEnter_trampoline_within fuel frames)
            (tracedEnter_clean (ih (frames+1))) c t' hc ht' h)
          (evaluateInner X F env e scope) (evaluateInner_issues hscope hspent hleft hbefore)
          ⟨hpass,hleft⟩ hend
      have hnext : ∀ result, ((evaluateInner X F env e scope).run
          (passCommand X F host env fuel frames) (t.pass e scope frames)).1 = .done result →
          result.ContinuesIn Untagged := fun result => evaluateInner_continues hscope
      rw [tracedTrampoline_succ _ _ _ _ _ hspent] at hfolds ⊢
      generalize (evaluateInner X F env e scope).run (passCommand X F host env fuel frames)
        (t.pass e scope frames) = ended at hrun hnext hfolds ⊢
      obtain ⟨ending,t'⟩ := ended
      cases ending with
      | early v => exact (hrun hfolds).1
      | fault => exact (hrun hfolds).1
      | done result =>
        cases result with
        | value v => exact (hrun hfolds).1
        | tailCall next nextScope tail =>
          dsimp only at hfolds ⊢
          by_cases hexpr : isComputeExpression next = true
          · rw [if_pos hexpr] at hfolds ⊢
            have hmiddle := hrun (hfolds.of_within
              (tracedTrampoline_within fuel frames (strip || tail) next nextScope t'))
            exact ih frames (strip || tail) next nextScope t' hmiddle.2 (hnext _ rfl) hfolds hmiddle.1
          · rw [if_neg hexpr] at hfolds ⊢
            exact (hrun hfolds).1

end Runs

/-- In an evaluation whose folds never hand a tagged accumulator to a callback, nothing is
evaluated in a scope with a cast tag, and no scope with one is captured. -/
theorem scopes_untagged {W : Type} (X : Platform) (F : Runtime) (host : Host W) (env : EvalEnv)
    (entity : Entity) (scope : Scope) (s : EvalState W) (fuel : ℕ) (hfuel : s.operations < fuel)
    (hscope : Untagged scope)
    (hfolds : (tracedEvaluate X F host env fuel entity scope s).2.FoldsUntagged X F host env) :
    (∀ call ∈ (tracedEvaluate X F host env fuel entity scope s).2.calls, Untagged call.2) ∧
    (∀ r ∈ (tracedEvaluate X F host env fuel entity scope s).2.rounds, Untagged r.scope ∧
      ∀ b ∈ canonicalSortedPairs r.scope.entries, b.2.isUintTagged = false) := by
  have hclean : (tracedEvaluate X F host env fuel entity scope s).2.AllUntagged :=
    tracedEnter_clean (tracedTrampoline_clean fuel 1) entity scope ⟨s,[],[],0,false⟩ hfuel hscope hfolds
      ⟨fun _ h => absurd h List.not_mem_nil,fun _ h => absurd h List.not_mem_nil⟩
  exact ⟨hclean.calls,fun r hr => ⟨hclean.rounds r hr,(hclean.rounds r hr).captured⟩⟩

namespace ComputeSample

open Sample

def items : Doc := literal (.array [integer 1])
  0x79f70c1358221ca35bac587566c64b11a4fcf61c46562789ae340fc81ffc3d7f

/-- A callback that makes nothing of its arguments. -/
def callback : Doc := ⟨"compute/lambda",.map [(txt "body",yes.ref),
  (txt "params",.array [txt "acc",txt "item"])],
  0xfa43c98563f1490574c2f13308e6f4f6bc44114067068516e85f232f62e2ddc4⟩

def foldArgsFrom (initial : Doc) : Value :=
  .map [(txt "fn",callback.ref),(txt "initial",initial.ref),(txt "collection",items.ref)]

def foldFrom (initial : Doc) (digest : ℕ) : Doc := ⟨"compute/apply",.map [
  (txt "args",foldArgsFrom initial),(txt "path",txt "system/compute/builtins/fold"),
  (txt "operation",txt "eval")],digest⟩

/-- A fold from `true`, and one from the word of ones as an unsigned. -/
def plainFold : Doc := foldFrom yes
  0xcbe59098d6dd1841ec26395ba1781d195e9a6569269ee79d7f496ab95178dcc9
def taggedFold : Doc := foldFrom cast
  0x74c7491b86dbd304e02c8755ff7b605367e7b5fea2fb95079a4d023a49868e18

def plainArgs : Doc := ⟨"system/compute/fold-args",foldArgsFrom yes,
  0x773fac6c16e84c25fe5a143b3f7ed27c56794636715bf24045184e5ee14e5573⟩
def taggedArgs : Doc := ⟨"system/compute/fold-args",foldArgsFrom cast,
  0x43507e61384af49d3f11402b62822d55d1290f5ad55234cf624c72fd306e186c⟩

def foldDocs : List Doc :=
  [yes,minusOne,cast,items,callback,plainFold,taggedFold,plainArgs,taggedArgs]

/-- The fold from `true` binds no tag, the fold from an unsigned one. -/
theorem evaluated_folds :
    ((tracedEvaluate (crates foldDocs) words (Host.memory none) (environment none) 101
        plainFold.entity .empty (start foldDocs)).2.calls.length = 5 ∧
      ∀ r ∈ (tracedEvaluate (crates foldDocs) words (Host.memory none) (environment none) 101
          plainFold.entity .empty (start foldDocs)).2.rounds,
        ∀ acc ∈ r.accumulators (crates foldDocs) words (Host.memory none) (environment none),
          acc.isUintTagged = false) ∧
    ∃ call ∈ (tracedEvaluate (crates foldDocs) words (Host.memory none)
        (environment none) 101 taggedFold.entity .empty (start foldDocs)).2.calls,
      ((call.2.get "acc".toList).any ComputeValue.isUintTagged) = true := by
  decide +kernel

end ComputeSample

open ComputeSample

theorem scopes_untagged_sample :
    ((tracedEvaluate (crates foldDocs) words (Host.memory none) (environment none) 101
        plainFold.entity .empty (start foldDocs)).2.calls.length = 5) ∧
    (∀ call ∈ (tracedEvaluate (crates foldDocs) words (Host.memory none) (environment none) 101
        plainFold.entity .empty (start foldDocs)).2.calls, Untagged call.2) ∧
    (∀ r ∈ (tracedEvaluate (crates foldDocs) words (Host.memory none) (environment none) 101
        plainFold.entity .empty (start foldDocs)).2.rounds, Untagged r.scope ∧
      ∀ b ∈ canonicalSortedPairs r.scope.entries, b.2.isUintTagged = false) :=
  ⟨evaluated_folds.1.1,scopes_untagged _ words (Host.memory none) (environment none)
    plainFold.entity .empty (start foldDocs) 101 (by decide) (fun _ _ h => by cases h)
    evaluated_folds.1.2⟩

/-- A fold from an unsigned binds the tag. -/
theorem fold_binds_tag :
    ¬ ∀ (X : Platform) (F : Runtime) (host : Host (ContentStore × MemoryLocationIndex))
      (env : EvalEnv) (entity : Entity) (scope : Scope)
      (s : EvalState (ContentStore × MemoryLocationIndex)) (fuel : ℕ), s.operations < fuel →
      Untagged scope →
        ∀ call ∈ (tracedEvaluate X F host env fuel entity scope s).2.calls, Untagged call.2 := by
  intro h
  have hcalls := h (crates foldDocs) words (Host.memory none) (environment none) taggedFold.entity
    .empty (start foldDocs) 101 (by decide) (fun _ _ hget => by cases hget)
  obtain ⟨-,call,hmem,hany⟩ := evaluated_folds
  cases hv : call.2.get "acc".toList with
  | none =>
    rw [hv] at hany
    cases hany
  | some v =>
    rw [hv] at hany
    have htag : v.isUintTagged = true := hany
    rw [hcalls call hmem _ v hv] at htag
    cases htag

end Compute
end EntityCore
