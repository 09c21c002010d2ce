import EntityCore.Trampoline
import EntityCore.Conformance

/-! The trampoline with a record of what it did. The loop goes round as often as the source
lets it: a bound on the rounds, where one is reached, is recorded and is not an answer. -/
namespace EntityCore
namespace Compute

open Program

/-- A pass of the loop: what it evaluates, the context it finds, and the frames open by then. -/
structure Round (W : Type) where
  entity : Entity
  scope : Scope
  state : EvalState W
  frames : ℕ

/-- The calls of the evaluator and the passes of its loop, the latest first, and what the
forms took from the budget by themselves. -/
structure Traced (W : Type) where
  state : EvalState W
  calls : List (Entity × Scope)
  rounds : List (Round W)
  charged : ℕ
  unfinished : Bool

section Trace

variable {W : Type} (X : Platform) (F : Runtime) (host : Host W) (env : EvalEnv)

/-- The answer to a charge; what it took is recorded. -/
def Traced.charge (t : Traced W) (n : ℕ) (result : Option Bool × EvalState W) :
    Option Bool × Traced W :=
  (result.1,{t with
    state := result.2
    charged := if result.1 = some true then t.charged+n else t.charged})

/-- Commands as before; sub-expressions are evaluated with a record. -/
def tracedCommand (eval : Entity → Scope → Traced W → Option ComputeValue × Traced W) :
    (c : Command) → Traced W → Option (Answer c) × Traced W
  | .evaluate entity scope, t => eval entity scope t
  | .charge n, t => t.charge n (performCommand host env (fun _ _ s => (none,s)) (.charge n) t.state)
  | c, t =>
    let result := performCommand host env (fun _ _ s => (none,s)) c t.state
    (result.1,{t with state := result.2})

def tracedEnter (loop : Bool → Entity → Scope → Traced W → Option ComputeValue × Traced W)
    (entity : Entity) (scope : Scope) (t : Traced W) : Option ComputeValue × Traced W :=
  let t := {t with calls := (entity,scope)::t.calls}
  if !isComputeExpression entity then (some (.entity entity),t)
  else if t.state.depth = 0 then
    (some (.error .depthExceeded),{t with state := t.state.note .tooDeep})
  else
    let (v,t') := loop false entity scope {t with state := {t.state with depth := t.state.depth-1}}
    (v,{t' with state := {t'.state with depth := t'.state.depth+1}})

/-- The head of a pass. -/
def Traced.pass (t : Traced W) (entity : Entity) (scope : Scope) (frames : ℕ) : Traced W :=
  {t with
    state := {t.state with operations := t.state.operations-1}
    rounds := ⟨entity,scope,t.state,frames⟩::t.rounds}

def tracedTrampoline : ℕ → ℕ → Bool → Entity → Scope → Traced W → Option ComputeValue × Traced W
  | 0, _, _, _, _, t => (none,{t with unfinished := true})
  | fuel+1, frames, stripPending, current, scope, t =>
    let t := t.pass current scope frames
    if t.state.operations = 0 then (some (.error .budgetExhausted),{t with state := t.state.spend})
    else match (evaluateInner X F env current scope).run
        (tracedCommand host env (tracedEnter (tracedTrampoline fuel (frames+1)))) t with
      | (.done (.tailCall next nextScope strip),t') =>
        if !isComputeExpression next then
          (some (stripIf (stripPending || strip) (.entity next)),t')
        else tracedTrampoline fuel frames (stripPending || strip) next nextScope t'
      | (.done (.value v),t') => (some (stripIf stripPending v),t')
      | (.early v,t') => (some (stripIf stripPending v),t')
      | (.fault,t') => (none,t')

/-- How a pass has its commands performed. -/
abbrev passCommand (fuel frames : ℕ) : (c : Command) → Traced W → Option (Answer c) × Traced W :=
  tracedCommand host env (tracedEnter (tracedTrampoline X F host env fuel (frames+1)))

/-- An evaluation with nothing recorded yet and no frame open. -/
def tracedEvaluate (fuel : ℕ) (entity : Entity) (scope : Scope) (s : EvalState W) :
    Option ComputeValue × Traced W :=
  tracedEnter (tracedTrampoline X F host env fuel 1) entity scope ⟨s,[],[],0,false⟩

end Trace

/-! What an evaluation takes from its budget. -/

section Budget

variable {W : Type} {X : Platform} {F : Runtime} {host : Host W} {env : EvalEnv}

/-- Between the two the depth was given back, every pass found its frames on the levels taken,
and the operations gone are those of the passes that found one and those that were charged.
With fewer operations than `fuel` no pass was cut off. -/
structure Within (fuel frames : ℕ) (t t' : Traced W) : Prop where
  depth : t'.state.depth = t.state.depth
  unfinished : t.state.operations < fuel → t'.unfinished = t.unfinished
  charged : t.charged ≤ t'.charged
  calls : t.calls <:+ t'.calls
  rounds : ∃ new, t'.rounds = new++t.rounds ∧
    (∀ r ∈ new, r.frames+r.state.depth = frames+t.state.depth) ∧
    new.countP (fun r => 0 < r.state.operations)+t'.charged+t'.state.operations =
      t.charged+t.state.operations

namespace Within

variable {fuel frames : ℕ} {t t' t'' : Traced W}

theorem of_same (hdepth : t'.state.depth = t.state.depth) (hunfinished : t'.unfinished = t.unfinished)
    (hcalls : t.calls <:+ t'.calls) (hrounds : t'.rounds = t.rounds) (hcharged : t.charged ≤ t'.charged)
    (hspent : t'.charged+t'.state.operations = t.charged+t.state.operations) :
    Within fuel frames t t' :=
  ⟨hdepth,fun _ => hunfinished,hcharged,hcalls,[],hrounds,fun _ hr => absurd hr List.not_mem_nil,
    by simpa using hspent⟩

theorem refl (t : Traced W) : Within fuel frames t t :=
  of_same rfl rfl (List.suffix_refl _) rfl le_rfl rfl

theorem operations (h : Within fuel frames t t') : t'.state.operations ≤ t.state.operations := by
  obtain ⟨new,-,-,hspent⟩ := h.rounds
  have hcharged := h.charged
  omega

theorem trans (h : Within fuel frames t t') (h' : Within fuel frames t' t'') :
    Within fuel frames t t'' := by
  obtain ⟨new,hnew,hframes,hspent⟩ := h.rounds
  obtain ⟨new',hnew',hframes',hspent'⟩ := h'.rounds
  refine ⟨h'.depth.trans h.depth,fun hops => ?_,h.charged.trans h'.charged,h.calls.trans h'.calls,
    new'++new,?_,?_,?_⟩
  · exact (h'.unfinished (lt_of_le_of_lt h.operations hops)).trans (h.unfinished hops)
  · rw [hnew',hnew,List.append_assoc]
  · intro r hr
    rcases List.mem_append.mp hr with hr | hr
    · rw [← h.depth]
      exact hframes' r hr
    · exact hframes r hr
  · rw [List.countP_append]
    omega

theorem rounds_suffix (h : Within fuel frames t t') : t.rounds <:+ t'.rounds := by
  obtain ⟨new,hnew,-⟩ := h.rounds
  exact ⟨new,hnew.symm⟩

end Within

/-- A command but for an evaluation is performed on the context and leaves the record. -/
theorem tracedCommand_state {eval : Entity → Scope → Traced W → Option ComputeValue × Traced W}
    (eval' : Entity → Scope → EvalState W → Option ComputeValue × EvalState W) {c : Command}
    (hc : ∀ e scope, c ≠ .evaluate e scope) (t : Traced W) :
    (tracedCommand host env eval c t).1 = (performCommand host env eval' c t.state).1 ∧
      (tracedCommand host env eval c t).2.state = (performCommand host env eval' c t.state).2 ∧
      (tracedCommand host env eval c t).2.calls = t.calls ∧
      (tracedCommand host env eval c t).2.rounds = t.rounds ∧
      (tracedCommand host env eval c t).2.unfinished = t.unfinished := by
  cases c with
  | evaluate e scope => exact absurd rfl (hc e scope)
  | _ => exact ⟨rfl,rfl,rfl,rfl,rfl⟩

theorem tracedCommand_charge
    {eval : Entity → Scope → Traced W → Option ComputeValue × Traced W} (n : ℕ) (t : Traced W) :
    (tracedCommand host env eval (.charge n) t).2.charged+
        (tracedCommand host env eval (.charge n) t).2.state.operations =
      t.charged+t.state.operations ∧
    t.charged ≤ (tracedCommand host env eval (.charge n) t).2.charged := by
  have hcommand : tracedCommand host env eval (.charge n) t =
      t.charge n (if n > t.state.operations then (some false,t.state.note .exhausted)
        else (some true,{t.state with operations := t.state.operations-n})) := rfl
  rw [hcommand]
  by_cases hn : n > t.state.operations
  · rw [if_pos hn]
    exact ⟨rfl,le_rfl⟩
  · rw [if_neg hn]
    constructor
    · show t.charged+n+(t.state.operations-n) = t.charged+t.state.operations
      omega
    · exact Nat.le_add_right _ _

section Within

variable {fuel frames : ℕ} {eval : Entity → Scope → Traced W → Option ComputeValue × Traced W}

theorem tracedCommand_within (heval : ∀ e scope t, Within fuel frames t (eval e scope t).2)
    (c : Command) (t : Traced W) : Within fuel frames t (tracedCommand host env eval c t).2 := by
  by_cases hevaluate : ∃ e scope, c = .evaluate e scope
  · obtain ⟨e,scope,rfl⟩ := hevaluate
    exact heval e scope t
  · have hc : ∀ e scope, c ≠ .evaluate e scope := fun e scope h => hevaluate ⟨e,scope,h⟩
    obtain ⟨-,hstate,hcalls,hrounds,hunfinished⟩ :=
      @tracedCommand_state W host env eval (fun _ _ s => (none,s)) _ hc t
    have hdepth : (tracedCommand host env eval c t).2.state.depth = t.state.depth := by
      rw [hstate]
      exact command_depth (fun _ _ _ => rfl) c t.state
    have hgrows : t.calls <:+ (tracedCommand host env eval c t).2.calls := by
      rw [hcalls]
    by_cases hcharge : ∃ k, c = .charge k
    · obtain ⟨k,rfl⟩ := hcharge
      obtain ⟨hspent,hcharged⟩ := @tracedCommand_charge W host env eval k t
      exact .of_same hdepth hunfinished hgrows hrounds hcharged hspent
    · have hsame : (tracedCommand host env eval c t).2.charged = t.charged := by
        cases c with
        | evaluate e scope => exact absurd rfl (hc e scope)
        | charge k => exact absurd ⟨k,rfl⟩ hcharge
        | _ => rfl
      refine .of_same hdepth hunfinished hgrows hrounds hsame.ge ?_
      rw [hsame,hstate,command_operations hc (fun k h => hcharge ⟨k,h⟩)]

theorem run_within (heval : ∀ e scope t, Within fuel frames t (eval e scope t).2) {α : Type}
    (p : Eval α) (t : Traced W) : Within fuel frames t (p.run (tracedCommand host env eval) t).2 :=
  run_keeps (I := fun t' => Within fuel frames t t')
    (fun c t' _ ht' => ht'.trans (tracedCommand_within heval c t')) p (all_true p) (.refl t)

theorem tracedEnter_within
    {loop : Bool → Entity → Scope → Traced W → Option ComputeValue × Traced W}
    (hloop : ∀ strip e scope t, Within fuel (frames+1) t (loop strip e scope t).2)
    (e : Entity) (scope : Scope) (t : Traced W) :
    Within fuel frames t (tracedEnter loop e scope t).2 := by
  have hcalled : t.calls <:+ (e,scope)::t.calls := List.suffix_cons _ _
  by_cases hexpr : isComputeExpression e = true
  · by_cases hzero : t.state.depth = 0
    · simp only [tracedEnter,hexpr,hzero,Bool.not_true,Bool.false_eq_true,if_false,if_true]
      exact .of_same rfl rfl hcalled rfl le_rfl rfl
    · simp only [tracedEnter,hexpr,Bool.not_true,Bool.false_eq_true,if_false,if_neg hzero]
      generalize hentered : ({t with
        calls := (e,scope)::t.calls
        state := {t.state with depth := t.state.depth-1}} : Traced W) = entered
      have hinner := hloop false e scope entered
      generalize (loop false e scope entered).2 = left at hinner ⊢
      subst hentered
      obtain ⟨new,hnew,hframes,hspent⟩ := hinner.rounds
      refine ⟨?_,hinner.unfinished,hinner.charged,hcalled.trans hinner.calls,new,hnew,
        fun r hr => ?_,hspent⟩
      · have hback : left.state.depth = t.state.depth-1 := hinner.depth
        show left.state.depth+1 = t.state.depth
        omega
      · have hround : r.frames+r.state.depth = frames+1+(t.state.depth-1) := hframes r hr
        omega
  · simp only [tracedEnter,hexpr]
    exact .of_same rfl rfl hcalled rfl le_rfl rfl

theorem pass_within (t : Traced W) (entity : Entity) (scope : Scope) (frames : ℕ) :
    Within fuel frames t (t.pass entity scope frames) := by
  refine ⟨rfl,fun _ => rfl,le_rfl,List.suffix_refl _,[⟨entity,scope,t.state,frames⟩],rfl,
    fun r hr => ?_,?_⟩
  · rw [List.mem_singleton.mp hr]
  · show List.countP _ [_]+t.charged+(t.state.operations-1) = t.charged+t.state.operations
    by_cases hops : 0 < t.state.operations
    · rw [List.countP_singleton,if_pos (by simpa using hops)]
      omega
    · rw [List.countP_singleton,if_neg (by simpa using hops)]
      omega

/-- A pass takes an operation, so what follows may do with one pass less. -/
theorem Within.after_pass {t t' : Traced W} {entity : Entity} {scope : Scope}
    (hops : t.state.operations-1 ≠ 0) (h : Within fuel frames (t.pass entity scope frames) t') :
    Within (fuel+1) frames t t' := by
  have hrest := (pass_within t entity scope frames).trans h
  refine ⟨hrest.depth,fun hfuel => ?_,hrest.charged,hrest.calls,hrest.rounds⟩
  apply h.unfinished
  show t.state.operations-1 < fuel
  omega

end Within

theorem tracedTrampoline_succ {fuel : ℕ} (frames : ℕ) (strip : Bool) (e : Entity) (scope : Scope)
    (t : Traced W) (hops : t.state.operations-1 ≠ 0) :
    tracedTrampoline X F host env (fuel+1) frames strip e scope t =
      match (evaluateInner X F env e scope).run (passCommand X F host env fuel frames)
          (t.pass e scope frames) with
      | (.done (.value v),t') => (some (stripIf strip v),t')
      | (.done (.tailCall next nextScope tail),t') =>
        if isComputeExpression next = true then
          tracedTrampoline X F host env fuel frames (strip || tail) next nextScope t'
        else (some (stripIf (strip || tail) (.entity next)),t')
      | (.early v,t') => (some (stripIf strip v),t')
      | (.fault,t') => (none,t') := by
  have hpass : (t.pass e scope frames).state.operations ≠ 0 := hops
  rw [tracedTrampoline,if_neg hpass]
  cases (evaluateInner X F env e scope).run (passCommand X F host env fuel frames)
      (t.pass e scope frames) with
  | mk ending t' =>
    cases ending with
    | early v => rfl
    | fault => rfl
    | done result =>
      cases result with
      | value v => rfl
      | tailCall next nextScope tail =>
        dsimp only
        by_cases hnext : isComputeExpression next = true
        · simp [hnext]
        · simp [hnext]

theorem tracedTrampoline_spent {fuel : ℕ} (frames : ℕ) (strip : Bool) (e : Entity) (scope : Scope)
    (t : Traced W) (hops : t.state.operations-1 = 0) :
    tracedTrampoline X F host env (fuel+1) frames strip e scope t = (some (.error .budgetExhausted),
        {t.pass e scope frames with state := (t.pass e scope frames).state.spend}) := by
  have hpass : (t.pass e scope frames).state.operations = 0 := hops
  rw [tracedTrampoline,if_pos hpass]

theorem tracedTrampoline_within (fuel : ℕ) : ∀ frames strip e scope (t : Traced W),
    Within fuel frames t (tracedTrampoline X F host env fuel frames strip e scope t).2 := by
  induction fuel with
  | zero =>
    intro frames strip e scope t
    exact ⟨rfl,fun hops => absurd hops (Nat.not_lt_zero _),le_rfl,List.suffix_refl _,[],rfl,
      fun _ hr => absurd hr List.not_mem_nil,by simp [tracedTrampoline]⟩
  | succ fuel ih =>
    intro frames strip e scope t
    by_cases hspent : t.state.operations-1 = 0
    · rw [tracedTrampoline_spent _ _ _ _ _ hspent]
      refine (pass_within t e scope frames).trans (.of_same rfl rfl (List.suffix_refl _) rfl le_rfl ?_)
      show t.charged+0 = t.charged+(t.state.operations-1)
      rw [hspent]
    · have hrun := @run_within W host env _ _ _ (tracedEnter_within (ih (frames+1)))
        _ (evaluateInner X F env e scope) (t.pass e scope frames)
      rw [tracedTrampoline_succ _ _ _ _ _ hspent]
      split
      all_goals rename_i hended; rw [hended] at hrun
      · exact hrun.after_pass hspent
      · split
        · exact (hrun.trans (ih frames _ _ _ _)).after_pass hspent
        · exact hrun.after_pass hspent
      · exact hrun.after_pass hspent
      · exact hrun.after_pass hspent

theorem passCommand_within (fuel frames : ℕ) (c : Command) (t : Traced W) :
    Within fuel frames t (passCommand X F host env fuel frames c t).2 :=
  tracedCommand_within (tracedEnter_within (tracedTrampoline_within fuel (frames+1))) c t

theorem runPass_within (fuel frames : ℕ) {α : Type} (p : Eval α) (t : Traced W) :
    Within fuel frames t (p.run (passCommand X F host env fuel frames) t).2 :=
  run_within (tracedEnter_within (tracedTrampoline_within fuel (frames+1))) p t

theorem tracedEnter_trampoline_within (fuel frames : ℕ) (e : Entity) (scope : Scope) (t : Traced W) :
    Within fuel frames t (tracedEnter (tracedTrampoline X F host env fuel (frames+1)) e scope t).2 :=
  tracedEnter_within (tracedTrampoline_within fuel (frames+1)) e scope t

/-! The record changes nothing. -/

section Erasure

/-- On the operations there are, the recorded evaluation answers as the other does. -/
def Erases (n : ℕ) (eval : Entity → Scope → Traced W → Option ComputeValue × Traced W)
    (eval' : Entity → Scope → EvalState W → Option ComputeValue × EvalState W) : Prop :=
  ∀ e scope (t : Traced W), t.state.operations ≤ n → (eval e scope t).1 = (eval' e scope t.state).1 ∧
    (eval e scope t).2.state = (eval' e scope t.state).2

/-- The context behind the record, with at most so many operations. -/
def Behind (n : ℕ) (t : Traced W) (s : EvalState W) : Prop := t.state = s ∧ s.operations ≤ n

variable {n fuel frames : ℕ} {eval : Entity → Scope → Traced W → Option ComputeValue × Traced W}
  {eval' : Entity → Scope → EvalState W → Option ComputeValue × EvalState W}

theorem tracedCommand_erases (hwithin : ∀ e scope t, Within fuel frames t (eval e scope t).2)
    (heval : Erases n eval eval') (c : Command) (t : Traced W) (s : EvalState W)
    (hts : Behind n t s) :
    (tracedCommand host env eval c t).1 = (performCommand host env eval' c s).1 ∧
      Behind n (tracedCommand host env eval c t).2 (performCommand host env eval' c s).2 := by
  obtain ⟨rfl,hops⟩ := hts
  have hleft := (@tracedCommand_within W host env _ _ _ hwithin c t).operations
  by_cases hevaluate : ∃ e scope, c = .evaluate e scope
  · obtain ⟨e,scope,rfl⟩ := hevaluate
    obtain ⟨hanswer,hstate⟩ := heval e scope t hops
    exact ⟨hanswer,hstate,hstate ▸ hleft.trans hops⟩
  · obtain ⟨hanswer,hstate,-⟩ := @tracedCommand_state W host env eval eval' _
      (fun e scope h => hevaluate ⟨e,scope,h⟩) t
    exact ⟨hanswer,hstate,hstate ▸ hleft.trans hops⟩

theorem run_erases (hwithin : ∀ e scope t, Within fuel frames t (eval e scope t).2)
    (heval : Erases n eval eval') {α : Type} (p : Eval α) {t : Traced W} {s : EvalState W}
    (hts : Behind n t s) :
    (p.run (tracedCommand host env eval) t).1 = (p.run (performCommand host env eval') s).1 ∧
      Behind n (p.run (tracedCommand host env eval) t).2 (p.run (performCommand host env eval') s).2 :=
  run_alike (G := fun _ => True) (J := fun _ => True) (fun _ _ _ => trivial) (fun _ _ _ => trivial)
    (fun c t s hts _ _ => tracedCommand_erases hwithin heval c t s hts) p hts trivial trivial

theorem tracedEnter_erases
    {loop : Bool → Entity → Scope → Traced W → Option ComputeValue × Traced W}
    {loop' : Bool → Entity → Scope → EvalState W → Option ComputeValue × EvalState W}
    (hloop : ∀ strip, Erases n (loop strip) (loop' strip)) :
    Erases n (tracedEnter loop) (enter loop') := by
  intro e scope t hops
  by_cases hexpr : isComputeExpression e = true
  · by_cases hzero : t.state.depth = 0
    · simp [tracedEnter,enter,hexpr,hzero]
    · simp only [tracedEnter,enter,hexpr,Bool.not_true,Bool.false_eq_true,if_false,if_neg hzero]
      obtain ⟨hanswer,hstate⟩ := hloop false e scope {t with
        calls := (e,scope)::t.calls
        state := {t.state with depth := t.state.depth-1}} hops
      exact ⟨hanswer,by rw [hstate]⟩
  · simp [tracedEnter,enter,hexpr]

theorem tracedTrampoline_erases (fuel : ℕ) : ∀ rounds frames strip (n : ℕ), n < fuel → n ≤ rounds →
    Erases n (tracedTrampoline X F host env fuel frames strip)
      (trampoline X F host env rounds strip) := by
  induction fuel with
  | zero => exact fun _ _ _ n hfuel => absurd hfuel (Nat.not_lt_zero _)
  | succ fuel ih =>
    intro rounds frames strip n hfuel hrounds e scope t hops
    by_cases hspent : t.state.operations-1 = 0
    · rw [tracedTrampoline_spent _ _ _ _ _ hspent]
      cases rounds with
      | zero => exact ⟨rfl,rfl⟩
      | succ rounds =>
        simp only [trampoline,hspent]
        exact ⟨rfl,rfl⟩
    · obtain ⟨rounds,rfl⟩ : ∃ k, rounds = k+1 := ⟨rounds-1,by omega⟩
      have hbehind : Behind (n-1) (t.pass e scope frames)
          {t.state with operations := t.state.operations-1} :=
        ⟨rfl,by show t.state.operations-1 ≤ n-1; omega⟩
      have hrun := @run_erases W host env _ _ _ _ _
        (@tracedEnter_trampoline_within W X F host env fuel frames)
        (tracedEnter_erases fun strip => ih rounds (frames+1) strip (n-1) (by omega) (by omega))
        _ (evaluateInner X F env e scope) _ _ hbehind
      rw [tracedTrampoline_succ _ _ _ _ _ hspent,trampoline_succ _ _ _ _ hspent]
      generalize (evaluateInner X F env e scope).run (passCommand X F host env fuel frames)
        (t.pass e scope frames) = left at hrun
      generalize (evaluateInner X F env e scope).run (performCommand host env (enter
        (trampoline X F host env rounds))) {t.state with operations := t.state.operations-1} = right
          at hrun
      obtain ⟨ending,t'⟩ := left
      obtain ⟨ending',s'⟩ := right
      obtain ⟨hending,hstate,hleft⟩ := hrun
      dsimp only at hending hstate hleft
      subst hending hstate
      cases ending with
      | early v => exact ⟨rfl,rfl⟩
      | fault => exact ⟨rfl,rfl⟩
      | done result =>
        cases result with
        | value v => exact ⟨rfl,rfl⟩
        | tailCall next nextScope tail =>
          dsimp only
          by_cases hnext : isComputeExpression next = true
          · rw [if_pos hnext,if_pos hnext]
            exact ih rounds frames (strip || tail) (n-1) (by omega) (by omega) next nextScope t' hleft
          · rw [if_neg hnext,if_neg hnext]
            exact ⟨rfl,rfl⟩

/-- Inside a pass, sub-expressions are evaluated as by themselves. -/
theorem tracedEnter_evaluates (hfuel : n < fuel) :
    Erases n (tracedEnter (tracedTrampoline X F host env fuel frames)) (evaluate X F host env) := by
  intro e scope t hops
  have h : Erases t.state.operations (tracedEnter (tracedTrampoline X F host env fuel frames))
      (enter (trampoline X F host env t.state.operations)) :=
    tracedEnter_erases fun strip => tracedTrampoline_erases fuel t.state.operations frames strip
      t.state.operations (by omega) le_rfl
  exact h e scope t le_rfl

theorem passCommand_erases (hfuel : n < fuel) (c : Command) (t : Traced W) (s : EvalState W)
    (hts : Behind n t s) : (passCommand X F host env fuel frames c t).1 =
        (performCommand host env (evaluate X F host env) c s).1 ∧
      Behind n (passCommand X F host env fuel frames c t).2
        (performCommand host env (evaluate X F host env) c s).2 :=
  tracedCommand_erases (tracedEnter_trampoline_within fuel frames) (tracedEnter_evaluates hfuel) c t s
    hts

end Erasure

theorem tracedEvaluate_erases {fuel : ℕ} (e : Entity) (scope : Scope) (s : EvalState W)
    (hfuel : s.operations < fuel) :
    (tracedEvaluate X F host env fuel e scope s).1 = (evaluate X F host env e scope s).1 ∧
      (tracedEvaluate X F host env fuel e scope s).2.state = (evaluate X F host env e scope s).2 :=
  tracedEnter_evaluates hfuel e scope ⟨s,[],[],0,false⟩ le_rfl

end Budget

end Compute
end EntityCore
