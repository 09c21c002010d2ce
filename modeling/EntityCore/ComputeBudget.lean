import EntityCore.ComputeIntegers
import EntityCore.ComputeTrace
import EntityCore.ComputeConformance

/-! The budget of an evaluation: every pass that goes on takes an operation, every frame a
level. What can keep an evaluation from returning is a division that overflows. -/
namespace EntityCore
namespace Compute

open Ecf Program

/-! The division that panics. -/

theorem applyDivInteger_eq_none (F : Runtime) (left right : ComputeValue) :
    applyDivInteger F left right = none ↔ unsignedOperands left right = false ∧
      left.pattern false = i64Min ∧ right.pattern false = -1 := by
  have hl : asI64 left.word = left.pattern false := by simp [ComputeValue.pattern]
  have hr : asI64 right.word = right.pattern false := by simp [ComputeValue.pattern]
  unfold applyDivInteger
  rw [hl,hr]
  generalize left.pattern false = l
  generalize right.pattern false = r
  cases unsignedOperands left right with
  | true =>
    simp only [if_true]
    constructor
    · intro h
      split_ifs at h
    · exact fun h => absurd h.1 (by decide)
  | false =>
    simp only [Bool.false_eq_true,if_false]
    constructor
    · intro h
      split_ifs at h with hzero hover
      · exact ⟨trivial,hover⟩
    · rintro ⟨-,hover⟩
      rw [if_neg (by rw [hover.2]; decide),if_pos hover]

theorem ComputeValue.isInteger_of_word {v : ComputeValue} (h : v.word ≠ 0) : v.IsInteger := by
  unfold IsInteger
  unfold word at h
  cases hv : v.asI128 with
  | none => exact absurd (by simp [hv]) h
  | some n => rfl

/-- Arithmetic yields nothing exactly where a division overflows. -/
theorem applyArithmetic_eq_none (F : Runtime) (op : Str) (left right : ComputeValue) :
    applyArithmetic F op left right = none ↔ DivisionOverflows op left right := by
  constructor
  · intro h
    unfold applyArithmetic at h
    simp only at h
    split_ifs at h with hnumeric hmod hfloat hadd hsub hmul hdiv
    exact ⟨hdiv,(applyDivInteger_eq_none F left right).mp h⟩
  · intro h
    have hword : ∀ {v : ComputeValue} {n : ℤ}, v.pattern false = n → n ≠ 0 → v.IsInteger := by
      intro v n hv hn
      apply ComputeValue.isInteger_of_word
      intro hzero
      rw [ComputeValue.pattern,hzero] at hv
      exact hn (hv ▸ by decide)
    have hl : left.IsInteger := hword h.2.2.1 (by decide)
    have hr : right.IsInteger := hword h.2.2.2 (by decide)
    rw [applyArithmetic_integer F op hl hr]
    obtain ⟨rfl,hover⟩ := h
    rw [if_neg (by decide),if_neg (by decide),if_neg (by decide),if_pos rfl]
    exact (applyDivInteger_eq_none F left right).mpr hover

theorem command_answers {W : Type} {host : Host W} {env : EvalEnv}
    {eval : Entity → Scope → EvalState W → Option ComputeValue × EvalState W} {c : Command}
    (hc : ∀ e scope, c ≠ .evaluate e scope) (s : EvalState W) :
    (performCommand host env eval c s).1.isSome := by
  cases c with
  | evaluate e scope => exact absurd rfl (hc e scope)
  | charge n =>
    dsimp only [performCommand]
    split <;> rfl
  | resolveScopeEntity hash =>
    dsimp only [performCommand]
    split <;> rfl
  | meet hash =>
    dsimp only [performCommand]
    split <;> rfl
  | execute path operation resource params capability =>
    dsimp only [performCommand]
    split <;> rfl
  | _ => rfl

section Budget

variable {W : Type} (X : Platform) (F : Runtime) (host : Host W) (env : EvalEnv)

/-- A pass that finds its budget spent gives up; any other evaluates an expression. This one
divides the least word by minus one. -/
def Round.Overflows (r : Round W) : Prop :=
  Form.ofType r.entity.entityType = some .arithmetic ∧ r.state.operations-1 ≠ 0 ∧
    ∃ data op left right, decodeData X r.entity = some data ∧
      ((arithmeticOperands data r.scope).run (performCommand host env (evaluate X F host env))
        {r.state with operations := r.state.operations-1}).1 = .done (op,left,right) ∧
      DivisionOverflows op left right

/-- An evaluation that keeps to a budget of `o` operations and `d` levels. A pass of the loop
that finds no operation evaluates nothing and is not counted. -/
structure RespectsBudget (o d : ℕ) (result : Option ComputeValue × Traced W) : Prop where
  terminates : result.2.unfinished = false
  returns : result.1.isSome
  iterations : (result.2.rounds.countP fun r => 0 < r.state.operations) ≤ o
  frames : ∀ r ∈ result.2.rounds, r.frames ≤ d
  depth : result.2.state.depth = d
  operations : result.2.state.operations ≤ o
  /-- No subtraction from the operations was cut off at zero. -/
  spent : (result.2.rounds.countP fun r => 0 < r.state.operations)+result.2.charged+
    result.2.state.operations = o
  /-- Nor one from the levels. -/
  levels : ∀ r ∈ result.2.rounds, r.frames+r.state.depth = d

variable {X F host env}

/-- Some pass overflowed. -/
def Traced.Overflowed (X : Platform) (F : Runtime) (host : Host W) (env : EvalEnv) (t : Traced W) :
    Prop := ∃ r ∈ t.rounds, r.Overflows X F host env

theorem evaluateInner_arithmetic {e : Entity} {data : Value} (scope : Scope)
    (hform : Form.ofType e.entityType = some .arithmetic) (hdata : decodeData X e = some data) :
    evaluateInner X F env e scope = (do
      let operands ← arithmeticOperands data scope
      .value <$> expect (applyArithmetic F operands.1 operands.2.1 operands.2.2)) := by
  unfold evaluateInner
  rw [hdata,hform]
  show (EvalResult.value <$> evalArithmetic F data scope) = _
  rw [evalArithmetic_eq,map_bind]

/-- An arithmetic pass breaks off in its operands or because it overflows. -/
theorem run_arithmetic {σ : Type} {h : (c : Command) → σ → Option (Answer c) × σ} {e : Entity}
    {data : Value} (scope : Scope) (s : σ) (hform : Form.ofType e.entityType = some .arithmetic)
    (hdata : decodeData X e = some data) : ((evaluateInner X F env e scope).run h s).1 = .fault ↔
      ((arithmeticOperands data scope).run h s).1 = .fault ∨ ∃ op left right,
        ((arithmeticOperands data scope).run h s).1 = .done (op,left,right) ∧
          DivisionOverflows op left right := by
  rw [evaluateInner_arithmetic scope hform hdata,run_andThen]
  generalize (arithmeticOperands data scope).run h s = ended
  obtain ⟨ending,s'⟩ := ended
  cases ending with
  | early v => simp
  | fault => simp
  | done operands =>
    obtain ⟨op,left,right⟩ := operands
    dsimp only
    cases hv : applyArithmetic F op left right with
    | none =>
      have hover := (applyArithmetic_eq_none F op left right).mp hv
      exact iff_of_true rfl (Or.inr ⟨op,left,right,rfl,hover⟩)
    | some v =>
      refine iff_of_false (fun hend => ?_) ?_
      · cases hend
      · rintro (hend | ⟨_,_,_,hend,hover⟩)
        · cases hend
        · cases hend
          rw [(applyArithmetic_eq_none F _ _ _).mpr hover] at hv
          cases hv

section Runs

variable {fuel frames : ℕ}

theorem run_operands (data : Value) (e : Entity) (scope : Scope) {t : Traced W}
    (hleft : t.state.operations-1 < fuel) :
    ((arithmeticOperands data scope).run (passCommand X F host env fuel frames)
      (t.pass e scope frames)).1 =
    ((arithmeticOperands data scope).run (performCommand host env (evaluate X F host env))
      {t.state with operations := t.state.operations-1}).1 :=
  (run_erases (tracedEnter_trampoline_within fuel frames)
    (tracedEnter_evaluates (n := t.state.operations-1) hleft) (arithmeticOperands data scope)
    ⟨rfl,le_rfl⟩).1

/-- An evaluation from `t` that answers nothing has recorded a pass that overflowed, and one that
answers has recorded none. -/
structure Tells (X : Platform) (F : Runtime) (host : Host W) (env : EvalEnv) {α : Type}
    (t : Traced W) (result : Option α × Traced W) : Prop where
  none : result.1 = none → result.2.Overflowed X F host env
  some : result.1.isSome → result.2.Overflowed X F host env → t.Overflowed X F host env

theorem Tells.of_some {α : Type} {t : Traced W} {result : Option α × Traced W}
    (hsome : result.1.isSome) (h : result.2.Overflowed X F host env → t.Overflowed X F host env) :
    Tells X F host env t result := ⟨fun hnone => by simp [hnone] at hsome,fun _ => h⟩

theorem Tells.of_rounds {α : Type} {t : Traced W} {result : Option α × Traced W}
    (hsome : result.1.isSome) (hrounds : result.2.rounds = t.rounds) :
    Tells X F host env t result := by
  refine .of_some hsome fun h => ?_
  unfold Traced.Overflowed at h
  rwa [hrounds] at h

theorem tracedCommand_tells {eval : Entity → Scope → Traced W → Option ComputeValue × Traced W}
    {n : ℕ} (heval : ∀ e scope t, t.state.operations < n → Tells X F host env t (eval e scope t))
    (c : Command) (t : Traced W) (hops : t.state.operations < n) :
    Tells X F host env t (tracedCommand host env eval c t) := by
  by_cases hevaluate : ∃ e scope, c = .evaluate e scope
  · obtain ⟨e,scope,rfl⟩ := hevaluate
    exact heval e scope t hops
  · have hc : ∀ e scope, c ≠ .evaluate e scope := fun e scope h => hevaluate ⟨e,scope,h⟩
    obtain ⟨hanswer,-,-,hrounds,-⟩ :=
      @tracedCommand_state W host env eval (fun _ _ s => (none,s)) _ hc t
    refine .of_rounds ?_ hrounds
    rw [hanswer]
    exact command_answers hc t.state

theorem tracedEnter_tells {loop : Bool → Entity → Scope → Traced W → Option ComputeValue × Traced W}
    {n : ℕ} (hloop : ∀ strip e scope t, t.state.operations < n →
      Tells X F host env t (loop strip e scope t)) (e : Entity) (scope : Scope) (t : Traced W)
    (hops : t.state.operations < n) : Tells X F host env t (tracedEnter loop e scope t) := by
  by_cases hexpr : isComputeExpression e = true
  · by_cases hzero : t.state.depth = 0
    · exact .of_rounds (by simp [tracedEnter,hexpr,hzero]) (by simp [tracedEnter,hexpr,hzero])
    · simp only [tracedEnter,hexpr,Bool.not_true,Bool.false_eq_true,if_false,if_neg hzero]
      obtain ⟨hnone,hsome⟩ := hloop false e scope {t with
        calls := (e,scope)::t.calls
        state := {t.state with depth := t.state.depth-1}} hops
      exact ⟨hnone,hsome⟩
  · exact .of_rounds (by simp [tracedEnter,hexpr]) (by simp [tracedEnter,hexpr])

section Pass

variable (hX : X.FormatAllocated) (hcommand : ∀ c (t : Traced W), t.state.operations < fuel →
  Tells X F host env t (passCommand X F host env fuel frames c t)) {t : Traced W}
  (hspent : t.state.operations-1 ≠ 0) (hleft : t.state.operations-1 < fuel)
include hX hcommand hspent hleft

/-- A pass that breaks off has overflowed, or one below it has. -/
theorem run_overflowed (e : Entity) (scope : Scope)
    (hend : ((evaluateInner X F env e scope).run (passCommand X F host env fuel frames)
      (t.pass e scope frames)).1 = .fault) :
    ((evaluateInner X F env e scope).run (passCommand X F host env fuel frames)
      (t.pass e scope frames)).2.Overflowed X F host env := by
  have hkeep : ∀ c (t' : Traced W), t'.state.operations < fuel →
      (passCommand X F host env fuel frames c t').2.state.operations < fuel :=
    fun c t' ht' => lt_of_le_of_lt (passCommand_within fuel frames c t').operations ht'
  have hbreaks : ∀ {α : Type} (p : Eval α) (post : α → Prop),
      p.Conforms (EvaluatesIn fun _ => True) False post →
      (p.run (passCommand X F host env fuel frames) (t.pass e scope frames)).1 = .fault →
      (p.run (passCommand X F host env fuel frames) (t.pass e scope frames)).2.Overflowed
        X F host env := fun p post hp hfault =>
    run_fault (I := fun t' => t'.state.operations < fuel) hkeep
      (fun c t' ht' => (hcommand c t' ht').none) p hp hleft hfault
  by_cases hform : Form.ofType e.entityType = some .arithmetic
  · cases hdata : decodeData X e with
    | none =>
      unfold evaluateInner at hend
      rw [hdata] at hend
      cases hend
    | some data =>
      rcases (run_arithmetic scope _ hform hdata).mp hend with hoperands | ⟨op,left,right,hrun,hover⟩
      · have hbelow := hbreaks (arithmeticOperands data scope) _
          (arithmeticOperands_conforms trivial data) hoperands
        rw [evaluateInner_arithmetic scope hform hdata,run_bind_of_fault _ hoperands]
        exact hbelow
      · have hwithin : Within fuel frames (t.pass e scope frames) ((evaluateInner X F env e scope).run
            (passCommand X F host env fuel frames) (t.pass e scope frames)).2 :=
          runPass_within fuel frames _ _
        rw [run_operands data e scope hleft] at hrun
        exact ⟨⟨e,scope,t.state,frames⟩,hwithin.rounds_suffix.subset List.mem_cons_self,
          hform,hspent,data,op,left,right,hdata,hrun,hover⟩
  · have hconforms : (evaluateInner X F env e scope).Conforms (EvaluatesIn fun _ => True) False
        (EvalResult.ContinuesIn fun _ => True) :=
      evaluateInner_conforms trivial (Or.inl hX) ⟨trivial,fun _ _ _ _ _ => trivial⟩ e
        (Or.inl fun _ _ _ _ => trivial) hform
    exact hbreaks _ _ hconforms hend

omit hX hspent in
/-- A pass that does not break off has not overflowed, and none below it has. -/
theorem run_not_overflowed (e : Entity) (scope : Scope)
    (hend : ((evaluateInner X F env e scope).run (passCommand X F host env fuel frames)
      (t.pass e scope frames)).1 ≠ .fault)
    (h : ((evaluateInner X F env e scope).run (passCommand X F host env fuel frames)
      (t.pass e scope frames)).2.Overflowed X F host env) : t.Overflowed X F host env := by
  have hkeep : ∀ c (t' : Traced W), t'.state.operations < fuel →
      (passCommand X F host env fuel frames c t').2.state.operations < fuel :=
    fun c t' ht' => lt_of_le_of_lt (passCommand_within fuel frames c t').operations ht'
  have hpass : (t.pass e scope frames).Overflowed X F host env :=
    run_avoids (I := fun t' => t'.state.operations < fuel) hkeep
      (fun c t' ht' => (hcommand c t' ht').some) (evaluateInner X F env e scope) hleft hend h
  obtain ⟨r,hr,hover⟩ := hpass
  rcases List.mem_cons.mp hr with rfl | hr
  · obtain ⟨hform,-,data,op,left,right,hdata,hrun,hdivides⟩ := hover
    rw [← @run_operands W X F host env fuel frames data e scope _ hleft] at hrun
    exact absurd ((run_arithmetic scope _ hform hdata).mpr (Or.inr ⟨op,left,right,hrun,hdivides⟩)) hend
  · exact ⟨r,hr,hover⟩

end Pass

theorem tracedTrampoline_tells (hX : X.FormatAllocated) (fuel : ℕ) :
    ∀ frames strip e scope (t : Traced W), t.state.operations < fuel →
      Tells X F host env t (tracedTrampoline X F host env fuel frames strip e scope t) := by
  induction fuel with
  | zero => exact fun _ _ _ _ t hops => absurd hops (Nat.not_lt_zero _)
  | succ fuel ih =>
    intro frames strip e scope t hops
    by_cases hspent : t.state.operations-1 = 0
    · rw [tracedTrampoline_spent _ _ _ _ _ hspent]
      refine .of_some rfl fun h => ?_
      obtain ⟨r,hr,hover⟩ := h
      rcases List.mem_cons.mp hr with rfl | hr
      · exact absurd hspent hover.2.1
      · exact ⟨r,hr,hover⟩
    · have hleft : t.state.operations-1 < fuel := by omega
      have hcommand := tracedCommand_tells (tracedEnter_tells (ih (frames+1)))
      have hfault := run_overflowed hX hcommand hspent hleft e scope
      have hclear := run_not_overflowed hcommand hleft e scope
      have hwithin : Within fuel frames (t.pass e scope frames) ((evaluateInner X F env e scope).run
          (passCommand X F host env fuel frames) (t.pass e scope frames)).2 :=
        runPass_within fuel frames _ _
      rw [tracedTrampoline_succ _ _ _ _ _ hspent]
      generalize (evaluateInner X F env e scope).run (passCommand X F host env fuel frames)
        (t.pass e scope frames) = ended at hfault hclear hwithin ⊢
      obtain ⟨ending,t'⟩ := ended
      have hops' : t'.state.operations < fuel := lt_of_le_of_lt hwithin.operations hleft
      cases ending with
      | early v => exact .of_some rfl (hclear (by simp))
      | fault => exact ⟨fun _ => hfault rfl,fun h => by cases h⟩
      | done result =>
        cases result with
        | value v => exact .of_some rfl (hclear (by simp))
        | tailCall next nextScope tail =>
          dsimp only
          by_cases hnext : isComputeExpression next = true
          · rw [if_pos hnext]
            have hrest := ih frames (strip || tail) next nextScope t' hops'
            exact ⟨hrest.none,fun hsome h => hclear (by simp) (hrest.some hsome h)⟩
          · rw [if_neg hnext]
            exact .of_some rfl (hclear (by simp))

/-- An evaluation answers exactly where none of its passes overflows. -/
theorem tracedEvaluate_isSome (hX : X.FormatAllocated) (e : Entity) (scope : Scope)
    (s : EvalState W) (hfuel : s.operations < fuel) :
    (tracedEvaluate X F host env fuel e scope s).1.isSome ↔
      ¬ (tracedEvaluate X F host env fuel e scope s).2.Overflowed X F host env := by
  have htells := tracedEnter_tells (fun strip e scope t ht =>
    @tracedTrampoline_tells W X F host env hX fuel 1 strip e scope t ht)
      e scope ⟨s,[],[],0,false⟩ hfuel
  constructor
  · intro hsome h
    obtain ⟨r,hr,-⟩ := htells.some hsome h
    exact List.not_mem_nil hr
  · intro h
    by_contra hno
    exact h (htells.none (Option.not_isSome_iff_eq_none.mp hno))

end Runs

end Budget

namespace ComputeSample

open Sample

def least : Doc := literal (integer (-2^63))
  0xa030c2f402c6b604846715b34d1567ea06d0f738a9ff6d1e58b3f8e03f2174d6

/-- The least word by minus one. -/
def overflow : Doc := ⟨"compute/arithmetic",.map [(txt "left",least.ref),(txt "op",txt "div"),
  (txt "right",minusOne.ref)],0x46d18d5f01087918791eb146680985c9d982c5892ee1cef8619f4833a45f76ef⟩

theorem crates_allocated (docs : List Doc) : (crates docs).FormatAllocated := by
  have hformat : (crates docs).defaultHashFormat = 0 := rfl
  unfold Platform.FormatAllocated
  rw [hformat]
  decide

end ComputeSample

open ComputeSample

end Compute
end EntityCore
