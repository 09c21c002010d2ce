import EntityCore.ComputeTrace

/-! Budgets that suffice. Evaluations whose contexts differ in nothing but the operations and
levels they have left agree, where neither runs out of them. -/
namespace EntityCore
namespace Compute

open Program

section Slack

variable {W : Type} {X : Platform} {F : Runtime} {host : Host W} {env : EvalEnv}

/-- Equal but for the budget. -/
def SameButBudget (s t : EvalState W) : Prop :=
  ∃ operations depth, t = {s with operations := operations, depth := depth}

namespace SameButBudget

variable {s t u : EvalState W}

theorem symm (h : SameButBudget s t) : SameButBudget t s := by
  obtain ⟨operations,depth,rfl⟩ := h
  exact ⟨s.operations,s.depth,rfl⟩

theorem trans (h : SameButBudget s t) (h' : SameButBudget t u) : SameButBudget s u := by
  obtain ⟨operations,depth,rfl⟩ := h
  obtain ⟨operations',depth',rfl⟩ := h'
  exact ⟨operations',depth',rfl⟩

end SameButBudget

/-- The budget has not run out. -/
def EvalState.Permitted (s : EvalState W) : Prop := .exhausted ∉ s.log ∧ .tooDeep ∉ s.log

theorem EvalState.Permitted.of_log {s t : EvalState W} (h : t.Permitted) (hlog : s.log <:+ t.log) :
    s.Permitted := ⟨fun hmem => h.1 (hlog.subset hmem),fun hmem => h.2 (hlog.subset hmem)⟩

theorem not_permitted_spend (s : EvalState W) : ¬ s.spend.Permitted :=
  fun h => h.1 List.mem_cons_self

theorem command_slack
    {eval eval' : Entity → Scope → EvalState W → Option ComputeValue × EvalState W}
    (heval : ∀ e scope s t, SameButBudget s t → (eval e scope s).2.Permitted →
      (eval' e scope t).2.Permitted → (eval e scope s).1 = (eval' e scope t).1 ∧
        SameButBudget (eval e scope s).2 (eval' e scope t).2)
    (c : Command) (s t : EvalState W) (hst : SameButBudget s t)
    (hs : (performCommand host env eval c s).2.Permitted)
    (ht : (performCommand host env eval' c t).2.Permitted) :
    (performCommand host env eval c s).1 = (performCommand host env eval' c t).1 ∧
      SameButBudget (performCommand host env eval c s).2 (performCommand host env eval' c t).2 := by
  obtain ⟨operations,depth,rfl⟩ := hst
  rcases c.budget_cases with ⟨e,scope,rfl⟩ | ⟨n,rfl⟩ | ⟨hevaluate,hcharge⟩
  · exact heval e scope s _ ⟨operations,depth,rfl⟩ hs ht
  · -- a charge that fails is noted
    dsimp only [performCommand] at hs ht ⊢
    split at hs
    · exact absurd List.mem_cons_self hs.1
    · rename_i hn
      split at ht
      · exact absurd List.mem_cons_self ht.1
      · rename_i hn'
        rw [if_neg hn,if_neg hn']
        exact ⟨rfl,_,_,rfl⟩
  · rw [performCommand_budget host env eval eval' hevaluate hcharge s operations depth]
    exact ⟨rfl,operations,depth,rfl⟩

theorem run_slack {eval eval' : Entity → Scope → EvalState W → Option ComputeValue × EvalState W}
    (hlog : ∀ e scope s, s.log <:+ (eval e scope s).2.log)
    (hlog' : ∀ e scope s, s.log <:+ (eval' e scope s).2.log)
    (heval : ∀ e scope s t, SameButBudget s t → (eval e scope s).2.Permitted →
      (eval' e scope t).2.Permitted → (eval e scope s).1 = (eval' e scope t).1 ∧
        SameButBudget (eval e scope s).2 (eval' e scope t).2)
    {α : Type} (p : Eval α) {s t : EvalState W} (hst : SameButBudget s t)
    (hs : (p.run (performCommand host env eval) s).2.Permitted)
    (ht : (p.run (performCommand host env eval') t).2.Permitted) :
    (p.run (performCommand host env eval) s).1 = (p.run (performCommand host env eval') t).1 ∧
      SameButBudget (p.run (performCommand host env eval) s).2
        (p.run (performCommand host env eval') t).2 :=
  run_alike (fun c s h => h.of_log (command_log hlog c s))
    (fun c s h => h.of_log (command_log hlog' c s))
    (fun c s t hst => command_slack heval c s t hst) p hst hs ht

/-- Two loops, where their budgets suffice, yield the same. -/
def LoopsSlack
    (loop loop' : Bool → Entity → Scope → EvalState W → Option ComputeValue × EvalState W) : Prop :=
  ∀ strip e scope (s t : EvalState W), SameButBudget s t → (loop strip e scope s).2.Permitted →
    (loop' strip e scope t).2.Permitted →
    (loop strip e scope s).1 = (loop' strip e scope t).1 ∧
      SameButBudget (loop strip e scope s).2 (loop' strip e scope t).2

theorem enter_slack
    {loop loop' : Bool → Entity → Scope → EvalState W → Option ComputeValue × EvalState W}
    (hloop : LoopsSlack loop loop') (e : Entity) (scope : Scope) (s t : EvalState W)
    (hst : SameButBudget s t) (hs : (enter loop e scope s).2.Permitted)
    (ht : (enter loop' e scope t).2.Permitted) :
    (enter loop e scope s).1 = (enter loop' e scope t).1 ∧
      SameButBudget (enter loop e scope s).2 (enter loop' e scope t).2 := by
  by_cases hexpr : isComputeExpression e = true
  · by_cases hzero : s.depth = 0
    · refine absurd hs.2 ?_
      simp [enter,hexpr,hzero,EvalState.note]
    · by_cases hzero' : t.depth = 0
      · refine absurd ht.2 ?_
        simp [enter,hexpr,hzero',EvalState.note]
      · simp only [enter,hexpr,Bool.not_true,Bool.false_eq_true,if_false,if_neg hzero,
          if_neg hzero'] at hs ht ⊢
        obtain ⟨operations,depth,rfl⟩ := hst
        obtain ⟨hvalue,operations',depth',hstate⟩ := hloop false e scope {s with depth := s.depth-1}
          {s with operations := operations, depth := depth-1} ⟨operations,depth-1,rfl⟩ hs ht
        refine ⟨hvalue,operations',depth'+1,?_⟩
        rw [hstate]
  · simp only [enter,hexpr]
    exact ⟨rfl,hst⟩

/-- What the loop makes of the end of a round. -/
def afterRound (X : Platform) (F : Runtime) (host : Host W) (env : EvalEnv) (rounds : ℕ)
    (strip : Bool) : Ending ComputeValue EvalResult × EvalState W → Option ComputeValue × EvalState W
  | (.done (.value v),s') => (some (stripIf strip v),s')
  | (.done (.tailCall next nextScope tail),s') =>
    if isComputeExpression next = true then
      trampoline X F host env rounds (strip || tail) next nextScope s'
    else (some (stripIf (strip || tail) (.entity next)),s')
  | (.early v,s') => (some (stripIf strip v),s')
  | (.fault,s') => (none,s')

theorem trampoline_afterRound {rounds : ℕ} (strip : Bool) (e : Entity) (scope : Scope)
    (s : EvalState W) (hops : s.operations-1 ≠ 0) :
    trampoline X F host env (rounds+1) strip e scope s = afterRound X F host env rounds strip
      ((evaluateInner X F env e scope).run (performCommand host env
        (enter (trampoline X F host env rounds))) {s with operations := s.operations-1}) := by
  rw [trampoline_succ _ _ _ _ hops]
  generalize (evaluateInner X F env e scope).run (performCommand host env
    (enter (trampoline X F host env rounds))) {s with operations := s.operations-1} = ended
  obtain ⟨ending,s'⟩ := ended
  cases ending with
  | done result =>
    cases result with
    | value v => rfl
    | tailCall next nextScope tail => rfl
  | early v => rfl
  | fault => rfl

theorem afterRound_log (rounds : ℕ) (strip : Bool)
    (ended : Ending ComputeValue EvalResult × EvalState W) :
    ended.2.log <:+ (afterRound X F host env rounds strip ended).2.log := by
  obtain ⟨ending,s'⟩ := ended
  cases ending with
  | done result =>
    cases result with
    | value v => exact List.suffix_refl _
    | tailCall next nextScope tail =>
      unfold afterRound
      dsimp only
      split
      · exact trampoline_log _ _ _ _ _
      · exact List.suffix_refl _
  | early v => exact List.suffix_refl _
  | fault => exact List.suffix_refl _

theorem trampoline_slack (rounds : ℕ) : ∀ rounds',
    LoopsSlack (trampoline X F host env rounds) (trampoline X F host env rounds') := by
  induction rounds with
  | zero => exact fun _ _ _ _ _ _ _ hs _ => absurd hs (not_permitted_spend _)
  | succ rounds ih =>
    intro rounds' strip e scope s t hst hs ht
    cases rounds' with
    | zero => exact absurd ht (not_permitted_spend _)
    | succ rounds' =>
      by_cases hops : s.operations-1 = 0
      · simp only [trampoline,hops,if_true] at hs
        exact absurd hs (not_permitted_spend _)
      by_cases hops' : t.operations-1 = 0
      · simp only [trampoline,hops',if_true] at ht
        exact absurd ht (not_permitted_spend _)
      have hcharged : SameButBudget {s with operations := s.operations-1}
          {t with operations := t.operations-1} := by
        obtain ⟨operations,depth,rfl⟩ := hst
        exact ⟨operations-1,depth,rfl⟩
      rw [trampoline_afterRound _ _ _ _ hops] at hs ⊢
      rw [trampoline_afterRound _ _ _ _ hops'] at ht ⊢
      have halike := @run_slack W host env _ _ (enter_log rounds) (enter_log rounds')
        (enter_slack (ih rounds')) _ (evaluateInner X F env e scope) _ _ hcharged
        (hs.of_log (afterRound_log _ _ _)) (ht.of_log (afterRound_log _ _ _))
      generalize (evaluateInner X F env e scope).run (performCommand host env (enter
        (trampoline X F host env rounds))) {s with operations := s.operations-1} = left
          at halike hs ⊢
      generalize (evaluateInner X F env e scope).run (performCommand host env (enter
        (trampoline X F host env rounds'))) {t with operations := t.operations-1} = right
          at halike ht ⊢
      obtain ⟨ending,s'⟩ := left
      obtain ⟨ending',t'⟩ := right
      obtain ⟨hending,hstate⟩ := halike
      dsimp only at hending hstate
      subst hending
      cases ending with
      | early v => exact ⟨rfl,hstate⟩
      | fault => exact ⟨rfl,hstate⟩
      | done result =>
        cases result with
        | value v => exact ⟨rfl,hstate⟩
        | tailCall next nextScope tail =>
          unfold afterRound at hs ht ⊢
          dsimp only at hs ht ⊢
          by_cases hnext : isComputeExpression next = true
          · rw [if_pos hnext] at hs ht ⊢
            rw [if_pos hnext]
            exact ih rounds' (strip || tail) next nextScope s' t' hstate hs ht
          · rw [if_neg hnext,if_neg hnext]
            exact ⟨rfl,hstate⟩

theorem evaluate_slack (e : Entity) (scope : Scope) (s t : EvalState W) (hst : SameButBudget s t)
    (hs : (evaluate X F host env e scope s).2.Permitted)
    (ht : (evaluate X F host env e scope t).2.Permitted) :
    (evaluate X F host env e scope s).1 = (evaluate X F host env e scope t).1 ∧
      SameButBudget (evaluate X F host env e scope s).2 (evaluate X F host env e scope t).2 :=
  enter_slack (trampoline_slack s.operations t.operations) e scope s t hst hs ht

theorem evaluate_log (e : Entity) (scope : Scope) (s : EvalState W) :
    s.log <:+ (evaluate X F host env e scope s).2.log := enter_log s.operations e scope s

/-- How the value of a piece of the evaluator counts. -/
def outcome (ending : Ending ComputeValue ComputeValue) : Option ComputeValue :=
  match ending with
  | .done v => some v
  | .early v => some v
  | .fault => none

/-- With as many rounds as operations, or more, the trampoline is the evaluation. -/
theorem enter_evaluates {rounds : ℕ} (e : Entity) (scope : Scope) (s : EvalState W)
    (hrounds : s.operations ≤ rounds) :
    enter (trampoline X F host env rounds) e scope s = evaluate X F host env e scope s := by
  have herased : ∀ k, s.operations ≤ k → Erases s.operations
      (tracedEnter (tracedTrampoline X F host env (s.operations+1) 1))
      (enter (trampoline X F host env k)) := fun k hk => tracedEnter_erases fun strip =>
    tracedTrampoline_erases (s.operations+1) k 1 strip s.operations (Nat.lt_succ_self _) hk
  have hleft := herased rounds hrounds e scope ⟨s,[],[],0,false⟩ le_rfl
  have hright := herased s.operations le_rfl e scope ⟨s,[],[],0,false⟩ le_rfl
  exact Prod.ext (hleft.1.symm.trans hright.1) (hleft.2.symm.trans hright.2)

theorem evaluate_operations (e : Entity) (scope : Scope) (s : EvalState W) :
    (evaluate X F host env e scope s).2.operations ≤ s.operations := by
  have herased := @tracedEvaluate_erases W X F host env _ e scope s
    (Nat.lt_succ_self s.operations)
  have hwithin : Within (s.operations+1) 0 ⟨s,[],[],0,false⟩
      (tracedEvaluate X F host env (s.operations+1) e scope s).2 :=
    tracedEnter_trampoline_within _ 0 e scope _
  rw [← herased.2]
  exact hwithin.operations

theorem performCommand_operations (c : Command) (s : EvalState W) :
    (performCommand host env (evaluate X F host env) c s).2.operations ≤ s.operations := by
  by_cases hevaluate : ∃ e scope, c = .evaluate e scope
  · obtain ⟨e,scope,rfl⟩ := hevaluate
    exact evaluate_operations e scope s
  · by_cases hcharge : ∃ n, c = .charge n
    · obtain ⟨n,rfl⟩ := hcharge
      dsimp only [performCommand]
      split
      · exact le_rfl
      · exact Nat.sub_le _ _
    · exact (command_operations (fun e scope h => hevaluate ⟨e,scope,h⟩)
        (fun n h => hcharge ⟨n,h⟩) s).le

theorem run_evaluates {rounds : ℕ} {α : Type} (p : Eval α) {s : EvalState W}
    (hrounds : s.operations ≤ rounds) :
    p.run (performCommand host env (enter (trampoline X F host env rounds))) s =
      p.run (performCommand host env (evaluate X F host env)) s := by
  have halike := run_alike (S := fun t t' : EvalState W => t = t' ∧ t'.operations ≤ rounds)
    (G := fun _ => True) (J := fun _ => True)
    (h := performCommand host env (enter (trampoline X F host env rounds)))
    (g := performCommand host env (evaluate X F host env)) (fun _ _ _ => trivial)
    (fun _ _ _ => trivial) (fun c t t' htt _ _ => by
      obtain ⟨rfl,hops⟩ := htt
      have hsame : performCommand host env (enter (trampoline X F host env rounds)) c t =
          performCommand host env (evaluate X F host env) c t := by
        cases c with
        | evaluate e scope => exact enter_evaluates e scope t hops
        | _ => rfl
      rw [hsame]
      exact ⟨rfl,rfl,(performCommand_operations c t).trans hops⟩)
    p ⟨rfl,hrounds⟩ trivial trivial
  exact Prod.ext halike.1 halike.2.1

/-- Once the evaluation of an expression has taken an operation and a level. -/
def EvalState.entered (s : EvalState W) : EvalState W :=
  {s with operations := s.operations-1, depth := s.depth-1}

theorem same_entered (s : EvalState W) : SameButBudget s s.entered := ⟨_,_,rfl⟩

theorem afterRound_value (rounds : ℕ) (p : Eval ComputeValue)
    (h : (c : Command) → EvalState W → Option (Answer c) × EvalState W) (u : EvalState W) :
    afterRound X F host env rounds false ((EvalResult.value <$> p).run h u) =
      (outcome (p.run h u).1,(p.run h u).2) := by
  show afterRound X F host env rounds false ((p >>= fun v => .done (EvalResult.value v)).run h u) = _
  rw [run_andThen]
  generalize p.run h u = ended
  obtain ⟨ending,u'⟩ := ended
  cases ending with
  | done v => rfl
  | early v => rfl
  | fault => rfl

/-- A form that ends with a value is run as it stands. -/
theorem evaluate_inside {e : Entity} {scope : Scope} {p : Eval ComputeValue}
    (hexpr : isComputeExpression e = true)
    (hform : evaluateInner X F env e scope = .value <$> p) {s : EvalState W}
    (hs : (evaluate X F host env e scope s).2.Permitted) : (evaluate X F host env e scope s).1 =
        outcome (p.run (performCommand host env (evaluate X F host env)) s.entered).1 ∧
      SameButBudget (p.run (performCommand host env (evaluate X F host env)) s.entered).2
        (evaluate X F host env e scope s).2 := by
  by_cases hzero : s.depth = 0
  · refine absurd hs.2 ?_
    simp [evaluate,enter,hexpr,hzero,EvalState.note]
  simp only [evaluate,enter,hexpr,Bool.not_true,Bool.false_eq_true,if_false,if_neg hzero] at hs ⊢
  cases hrounds : s.operations with
  | zero =>
    rw [hrounds] at hs
    exact absurd hs (not_permitted_spend _)
  | succ rounds =>
    rw [hrounds] at hs
    by_cases hops : rounds+1-1 = 0
    · simp only [trampoline,hops,if_true] at hs
      exact absurd hs (not_permitted_spend _)
    rw [trampoline_afterRound _ _ _ _ hops,hform]
    have hentered : ({s with operations := rounds+1-1, depth := s.depth-1} : EvalState W) =
        s.entered := by
      unfold EvalState.entered
      rw [hrounds]
    have hrun := @run_evaluates W X F host env rounds _ (EvalResult.value <$> p)
      s.entered (by show s.operations-1 ≤ rounds; omega)
    rw [hentered,hrun,afterRound_value]
    exact ⟨rfl,((p.run (performCommand host env (evaluate X F host env)) s.entered).2).operations,
      _,rfl⟩

theorem run_log {α : Type} (p : Eval α) (s : EvalState W) :
    s.log <:+ (p.run (performCommand host env (evaluate X F host env)) s).2.log :=
  run_keeps (I := fun t : EvalState W => s.log <:+ t.log)
    (fun c t _ ht => ht.trans (command_log evaluate_log c t)) p (all_true p) (List.suffix_refl _)

theorem SameButBudget.permitted {s t : EvalState W} (h : SameButBudget s t) (hs : s.Permitted) :
    t.Permitted := by
  obtain ⟨operations,depth,rfl⟩ := h
  exact hs

theorem run_agrees {α : Type} (p : Eval α) {s t : EvalState W} (hst : SameButBudget s t)
    (hs : (p.run (performCommand host env (evaluate X F host env)) s).2.Permitted)
    (ht : (p.run (performCommand host env (evaluate X F host env)) t).2.Permitted) :
    (p.run (performCommand host env (evaluate X F host env)) s).1 =
        (p.run (performCommand host env (evaluate X F host env)) t).1 ∧
      SameButBudget (p.run (performCommand host env (evaluate X F host env)) s).2
        (p.run (performCommand host env (evaluate X F host env)) t).2 :=
  @run_slack W host env _ _ evaluate_log evaluate_log
    (fun e scope s t hst => evaluate_slack e scope s t hst) _ p _ _ hst hs ht

end Slack

end Compute
end EntityCore
