import EntityCore.ComputeEval
import EntityCore.Delegation

/-! The trampoline and the direct evaluator. The direct evaluator has no loop and no limit
of depth: a form evaluates what it goes on with as an ordinary sub-expression. Both are
given as many rounds as there are operations, which every evaluation of an expression
takes one of. -/
namespace EntityCore
namespace Compute

open Program

section Direct

variable {W : Type} (X : Platform) (F : Runtime) (host : Host W) (env : EvalEnv)

/-- The value of a continuation is the value of the form; only a branch of `compute/if`
asks for the cast tag to be stripped. -/
def continueWith : EvalResult → Eval ComputeValue
  | .value v => pure v
  | .tailCall next nextScope strip => do return stripIf strip (← evaluateSub next nextScope)

def directForm (entity : Entity) (scope : Scope) : Eval ComputeValue := do
  continueWith (← evaluateInner X F env entity scope)

def direct : ℕ → Entity → Scope → EvalState W → Option ComputeValue × EvalState W
  | 0, entity, _, s =>
    if !isComputeExpression entity then (some (.entity entity),s)
    else (some (.error .budgetExhausted),s.spend)
  | rounds+1, entity, scope, s =>
    if !isComputeExpression entity then (some (.entity entity),s)
    else
      let s := {s with operations := s.operations-1}
      if s.operations = 0 then (some (.error .budgetExhausted),s.spend)
      else match (directForm X F env entity scope).run (performCommand host env (direct rounds)) s with
        | (.done v,s') => (some v,s')
        | (.early v,s') => (some v,s')
        | (.fault,s') => (none,s')

def directEvaluate (entity : Entity) (scope : Scope) (s : EvalState W) :
    Option ComputeValue × EvalState W :=
  direct X F host env s.operations entity scope s

end Direct

/-! Logs and depths. -/

section Runs

variable {W : Type} {X : Platform} {F : Runtime} {host : Host W} {env : EvalEnv}

theorem log_grows (l : List Event) :
    CommandsKeep host env (fun _ => True) fun s : EvalState W => l <:+ s.log := by
  have hadd : ∀ (event : Event) (log : List Event), l <:+ log → l <:+ event::log :=
    fun event log h => h.trans (List.suffix_cons event log)
  exact .of_log (fun c event log _ _ => hadd event log) (hadd _) (hadd _)

theorem trampoline_log (rounds : ℕ) (strip : Bool) (e : Entity) (scope : Scope) (s : EvalState W) :
    s.log <:+ (trampoline X F host env rounds strip e scope s).2.log :=
  trampoline_keeps (log_grows s.log) (fun _ _ => all_true _) rounds strip e scope s
    (List.suffix_refl _)

theorem enter_log (rounds : ℕ) (e : Entity) (scope : Scope) (s : EvalState W) :
    s.log <:+ (enter (trampoline X F host env rounds) e scope s).2.log := by
  have hkeeps : CommandsKeep host env _ fun t : EvalState W => s.log <:+ t.log := log_grows s.log
  exact enter_keeps hkeeps (trampoline_keeps hkeeps (fun _ _ => all_true _) rounds) e scope s
    (List.suffix_refl _)

theorem command_log {eval : Entity → Scope → EvalState W → Option ComputeValue × EvalState W}
    (heval : ∀ e scope s, s.log <:+ (eval e scope s).2.log) (c : Command) (s : EvalState W) :
    s.log <:+ (performCommand host env eval c s).2.log :=
  (log_grows s.log).command eval (fun e scope t ht => ht.trans (heval e scope t)) c s trivial
    (List.suffix_refl _)

/-- What a command adds to the log stays out of a run that does not log it. -/
theorem command_back {eval : Entity → Scope → EvalState W → Option ComputeValue × EvalState W}
    (heval : ∀ e scope s, s.log <:+ (eval e scope s).2.log) {event : Event} (c : Command)
    (s : EvalState W) (h : event ∉ (performCommand host env eval c s).2.log) : event ∉ s.log :=
  fun hmem => h ((command_log heval c s).subset hmem)

/-- Equal but for the level of depth. -/
def SameButDepth (s t : EvalState W) : Prop := ∃ depth, t = {s with depth := depth}

theorem command_alike {eval eval' : Entity → Scope → EvalState W → Option ComputeValue × EvalState W}
    (G : EvalState W → Prop) (heval : ∀ e scope s t, SameButDepth s t → G (eval e scope s).2 →
      (eval e scope s).1 = (eval' e scope t).1 ∧ SameButDepth (eval e scope s).2 (eval' e scope t).2)
    (c : Command) (s t : EvalState W) (hst : SameButDepth s t)
    (hgood : G (performCommand host env eval c s).2) :
    (performCommand host env eval c s).1 = (performCommand host env eval' c t).1 ∧
      SameButDepth (performCommand host env eval c s).2 (performCommand host env eval' c t).2 := by
  obtain ⟨depth,rfl⟩ := hst
  rcases c.budget_cases with ⟨e,scope,rfl⟩ | ⟨n,rfl⟩ | ⟨hevaluate,hcharge⟩
  · exact heval e scope s _ ⟨depth,rfl⟩ hgood
  · dsimp only [performCommand]
    split
    · exact ⟨rfl,depth,rfl⟩
    · exact ⟨rfl,depth,rfl⟩
  · have hsame := performCommand_budget host env eval eval' hevaluate hcharge s s.operations depth
    refine ⟨(congrArg Prod.fst hsame).symm,depth,(congrArg Prod.snd hsame).trans ?_⟩
    rw [← command_operations hevaluate hcharge s]

/-! The equivalence. -/

theorem stripIf_or (a b : Bool) (v : ComputeValue) :
    stripIf (a || b) v = stripIf a (stripIf b v) := by
  cases a <;> cases b <;> simp [stripIf]

@[simp] theorem stripIf_error (strip : Bool) (e : ComputeError) :
    stripIf strip (.error e) = .error e := by
  cases strip <;> rfl

theorem run_tailCall {eval : Entity → Scope → EvalState W → Option ComputeValue × EvalState W}
    (next : Entity) (nextScope : Scope) (strip : Bool) (t : EvalState W) :
    (continueWith (.tailCall next nextScope strip)).run (performCommand host env eval) t =
      match (eval next nextScope t).1 with
      | some v => (.done (stripIf strip v),(eval next nextScope t).2)
      | none => (.fault,(eval next nextScope t).2) := by
  have hstep := run_step (h := performCommand host env eval) (ε := ComputeValue)
    (Command.evaluate next nextScope) (fun v => (.done (stripIf strip v) : Eval ComputeValue)) t
  have hcommand : performCommand host env eval (Command.evaluate next nextScope) t =
      eval next nextScope t := rfl
  rw [hcommand] at hstep
  refine Eq.trans hstep ?_
  cases (eval next nextScope t).1 <;> rfl

theorem direct_succ {rounds : ℕ} {e : Entity} (he : isComputeExpression e = true) (scope : Scope)
    (t : EvalState W) (hops : t.operations-1 ≠ 0) :
    direct X F host env (rounds+1) e scope t =
      match (evaluateInner X F env e scope).run
          (performCommand host env (direct X F host env rounds))
          {t with operations := t.operations-1} with
      | (.done (.value v),t') => (some v,t')
      | (.done (.tailCall next nextScope strip),t') =>
        ((direct X F host env rounds next nextScope t').1.map (stripIf strip),
          (direct X F host env rounds next nextScope t').2)
      | (.early v,t') => (some v,t')
      | (.fault,t') => (none,t') := by
  rw [direct]
  simp only [he,Bool.not_true,Bool.false_eq_true,if_false,if_neg hops]
  rw [directForm,run_andThen]
  cases hrun : (evaluateInner X F env e scope).run
      (performCommand host env (direct X F host env rounds))
      {t with operations := t.operations-1} with
  | mk ending t' =>
    cases ending with
    | early v => rfl
    | fault => rfl
    | done result =>
      cases result with
      | value v => rfl
      | tailCall next nextScope strip =>
        dsimp only
        rw [run_tailCall]
        cases (direct X F host env rounds next nextScope t').1 with
        | none => rfl
        | some v => rfl

theorem direct_of_not_expression {e : Entity} (he : isComputeExpression e = false) (rounds : ℕ)
    (scope : Scope) (t : EvalState W) :
    direct X F host env rounds e scope t = (some (.entity e),t) := by
  cases rounds with
  | zero => simp [direct,he]
  | succ rounds => simp [direct,he]

theorem trampoline_succ {rounds : ℕ} (strip : Bool) (e : Entity) (scope : Scope) (s : EvalState W)
    (hops : s.operations-1 ≠ 0) : trampoline X F host env (rounds+1) strip e scope s =
      match (evaluateInner X F env e scope).run
          (performCommand host env (enter (trampoline X F host env rounds)))
          {s with operations := s.operations-1} with
      | (.done (.value v),s') => (some (stripIf strip v),s')
      | (.done (.tailCall next nextScope tail),s') =>
        if isComputeExpression next = true then
          trampoline X F host env rounds (strip || tail) next nextScope s'
        else (some (stripIf (strip || tail) (.entity next)),s')
      | (.early v,s') => (some (stripIf strip v),s')
      | (.fault,s') => (none,s') := by
  rw [trampoline]
  dsimp only
  rw [if_neg hops]
  cases (evaluateInner X F env e scope).run
      (performCommand host env (enter (trampoline X F host env rounds)))
      {s with operations := s.operations-1} with
  | mk ending s' =>
    cases ending with
    | early v => rfl
    | fault => rfl
    | done result =>
      cases result with
      | value v => rfl
      | tailCall next nextScope tail =>
        dsimp only
        by_cases hnext : isComputeExpression next = true
        · simp [hnext]
        · simp [hnext]

/-- An evaluation inside a round enters the trampoline anew. -/
theorem enter_direct {rounds : ℕ}
    (hloop : ∀ strip e scope (s t : EvalState W), isComputeExpression e = true → SameButDepth s t →
      Event.tooDeep ∉ (trampoline X F host env rounds strip e scope s).2.log →
      (trampoline X F host env rounds strip e scope s).1 =
          (direct X F host env rounds e scope t).1.map (stripIf strip) ∧
        SameButDepth (trampoline X F host env rounds strip e scope s).2
          (direct X F host env rounds e scope t).2)
    (e : Entity) (scope : Scope) (s t : EvalState W) (hst : SameButDepth s t)
    (hdeep : Event.tooDeep ∉ (enter (trampoline X F host env rounds) e scope s).2.log) :
    (enter (trampoline X F host env rounds) e scope s).1 = (direct X F host env rounds e scope t).1 ∧
      SameButDepth (enter (trampoline X F host env rounds) e scope s).2
        (direct X F host env rounds e scope t).2 := by
  obtain ⟨depth,rfl⟩ := hst
  by_cases hexpr : isComputeExpression e = true
  · by_cases hzero : s.depth = 0
    · refine absurd ?_ hdeep
      simp [enter,hexpr,hzero,EvalState.note]
    · simp only [enter,hexpr,Bool.not_true,Bool.false_eq_true,if_false,if_neg hzero] at hdeep ⊢
      obtain ⟨hvalue,d,hstate⟩ := hloop false e scope {s with depth := s.depth-1}
        {s with depth := depth} hexpr ⟨depth,rfl⟩ hdeep
      have hid : stripIf false = id := rfl
      rw [hvalue,hstate,hid,Option.map_id]
      exact ⟨rfl,d,rfl⟩
  · rw [Bool.not_eq_true] at hexpr
    rw [direct_of_not_expression hexpr]
    simp only [enter,hexpr]
    exact ⟨rfl,depth,rfl⟩

/-- The trampoline strips at the end what the direct evaluator strips at every branch. -/
theorem trampoline_direct (rounds : ℕ) : ∀ strip e scope (s t : EvalState W),
    isComputeExpression e = true → SameButDepth s t →
    Event.tooDeep ∉ (trampoline X F host env rounds strip e scope s).2.log →
    (trampoline X F host env rounds strip e scope s).1 =
        (direct X F host env rounds e scope t).1.map (stripIf strip) ∧
      SameButDepth (trampoline X F host env rounds strip e scope s).2
        (direct X F host env rounds e scope t).2 := by
  induction rounds with
  | zero =>
    rintro strip e scope s t he ⟨depth,rfl⟩ -
    simp only [trampoline,direct,he]
    exact ⟨by simp,depth,rfl⟩
  | succ rounds ih =>
    rintro strip e scope s t he ⟨depth,rfl⟩ hdeep
    have henter := enter_direct ih
    by_cases hops : s.operations-1 = 0
    · simp only [trampoline,direct,he,hops]
      exact ⟨by simp,depth,rfl⟩
    · rw [direct_succ he scope {s with depth := depth} hops]
      rw [trampoline_succ _ _ _ _ hops] at hdeep ⊢
      have hlog : ∀ e scope (s : EvalState W),
          s.log <:+ (enter (trampoline X F host env rounds) e scope s).2.log := enter_log rounds
      have halike := run_alike (S := SameButDepth) (G := fun s : EvalState W => Event.tooDeep ∉ s.log)
        (J := fun _ => True)
        (h := performCommand host env (enter (trampoline X F host env rounds)))
        (g := performCommand host env (direct X F host env rounds))
        (fun c s => command_back hlog c s) (fun _ _ _ => trivial)
        (fun c s t hst hs _ => command_alike (fun s => Event.tooDeep ∉ s.log) henter c s t hst hs)
        (evaluateInner X F env e scope) (s := {s with operations := s.operations-1})
        (t := {s with operations := s.operations-1, depth := depth}) ⟨depth,rfl⟩
      cases hrun : (evaluateInner X F env e scope).run
          (performCommand host env (enter (trampoline X F host env rounds)))
          {s with operations := s.operations-1} with
      | mk ending s' =>
        rw [hrun] at hdeep halike
        have hdirect : Event.tooDeep ∉ s'.log → ∃ d, (evaluateInner X F env e scope).run
            (performCommand host env (direct X F host env rounds))
            {s with operations := s.operations-1, depth := depth} =
              (ending,{s' with depth := d}) := by
          intro hmiddle
          obtain ⟨hending,d,hstate⟩ := halike hmiddle trivial
          exact ⟨d,Prod.ext hending.symm hstate⟩
        cases ending with
        | early v =>
          obtain ⟨d,hd⟩ := hdirect hdeep
          rw [hd]
          exact ⟨rfl,d,rfl⟩
        | fault =>
          obtain ⟨d,hd⟩ := hdirect hdeep
          rw [hd]
          exact ⟨rfl,d,rfl⟩
        | done result =>
          cases result with
          | value v =>
            obtain ⟨d,hd⟩ := hdirect hdeep
            rw [hd]
            exact ⟨rfl,d,rfl⟩
          | tailCall next nextScope tail =>
            dsimp only at hdeep ⊢
            by_cases hnext : isComputeExpression next = true
            · rw [if_pos hnext] at hdeep ⊢
              have hgrows : s'.log ⊆ (trampoline X F host env rounds (strip || tail) next nextScope
                  s').2.log := (trampoline_log rounds (strip || tail) next nextScope s').subset
              obtain ⟨d,hd⟩ := hdirect fun hmem => hdeep (hgrows hmem)
              rw [hd]
              obtain ⟨hvalue,hstate⟩ := ih (strip || tail) next nextScope s' {s' with depth := d}
                hnext ⟨d,rfl⟩ hdeep
              refine ⟨?_,hstate⟩
              have hcomp : stripIf (strip || tail) = stripIf strip ∘ stripIf tail :=
                funext (stripIf_or strip tail)
              rw [hvalue,hcomp,Option.map_map]
            · rw [if_neg hnext] at hdeep ⊢
              obtain ⟨d,hd⟩ := hdirect hdeep
              rw [hd]
              dsimp only
              rw [direct_of_not_expression (Bool.not_eq_true _ ▸ hnext),stripIf_or]
              exact ⟨rfl,d,rfl⟩

/-! Depth is given back. -/

theorem command_depth {eval : Entity → Scope → EvalState W → Option ComputeValue × EvalState W}
    (heval : ∀ e scope s, (eval e scope s).2.depth = s.depth) (c : Command) (s : EvalState W) :
    (performCommand host env eval c s).2.depth = s.depth := by
  rcases c.budget_cases with ⟨e,scope,rfl⟩ | ⟨n,rfl⟩ | ⟨hevaluate,hcharge⟩
  · exact heval e scope s
  · dsimp only [performCommand]
    split <;> rfl
  · have hsame := performCommand_budget host env eval eval hevaluate hcharge s s.operations s.depth
    exact congrArg (fun r => r.2.depth) hsame

theorem run_depth {eval : Entity → Scope → EvalState W → Option ComputeValue × EvalState W}
    (heval : ∀ e scope s, (eval e scope s).2.depth = s.depth) {α : Type} (p : Eval α)
    (s : EvalState W) : (p.run (performCommand host env eval) s).2.depth = s.depth :=
  run_keeps (I := fun t => t.depth = s.depth)
    (fun c t _ ht => (command_depth heval c t).trans ht) p (all_true p) rfl

theorem enter_depth {rounds : ℕ} (hloop : ∀ strip e scope (s : EvalState W),
      (trampoline X F host env rounds strip e scope s).2.depth = s.depth)
    (e : Entity) (scope : Scope) (s : EvalState W) :
    (enter (trampoline X F host env rounds) e scope s).2.depth = s.depth := by
  unfold enter
  split
  · rfl
  · split
    · rfl
    · have hinner := hloop false e scope {s with depth := s.depth-1}
      dsimp only at hinner ⊢
      omega

theorem trampoline_depth (rounds : ℕ) : ∀ strip e scope (s : EvalState W),
    (trampoline X F host env rounds strip e scope s).2.depth = s.depth := by
  induction rounds with
  | zero => exact fun _ _ _ _ => rfl
  | succ rounds ih =>
    intro strip e scope s
    by_cases hops : s.operations-1 = 0
    · simp only [trampoline,hops]
      rfl
    · have hrun : ((evaluateInner X F env e scope).run
          (performCommand host env (enter (trampoline X F host env rounds)))
          {s with operations := s.operations-1}).2.depth = s.depth :=
        run_depth (enter_depth ih) (evaluateInner X F env e scope)
          {s with operations := s.operations-1}
      rw [trampoline_succ _ _ _ _ hops]
      split
      all_goals rename_i hended; rw [hended] at hrun
      · exact hrun
      · split
        · exact (ih _ _ _ _).trans hrun
        · exact hrun
      · exact hrun
      · exact hrun

theorem direct_depth (rounds : ℕ) : ∀ e scope (s : EvalState W),
    (direct X F host env rounds e scope s).2.depth = s.depth := by
  induction rounds with
  | zero =>
    intro e scope s
    unfold direct
    split <;> rfl
  | succ rounds ih =>
    intro e scope s
    have hrun : ((directForm X F env e scope).run
        (performCommand host env (direct X F host env rounds))
        {s with operations := s.operations-1}).2.depth = s.depth :=
      run_depth ih (directForm X F env e scope) {s with operations := s.operations-1}
    unfold direct
    split
    · rfl
    · dsimp only
      split
      · rfl
      · split
        all_goals rename_i hended; rw [hended] at hrun; exact hrun

end Runs

/-- Where the depth suffices, the trampoline computes what the direct evaluator computes:
value, context and operations. -/
theorem evaluate_eq_direct {W : Type} (X : Platform) (F : Runtime) (host : Host W) (env : EvalEnv)
    (entity : Entity) (scope : Scope) (s : EvalState W)
    (hdepth : Event.tooDeep ∉ (evaluate X F host env entity scope s).2.log) :
    evaluate X F host env entity scope s = directEvaluate X F host env entity scope s := by
  obtain ⟨hvalue,d,hstate⟩ := enter_direct (trampoline_direct s.operations) entity scope s s
    ⟨s.depth,rfl⟩ hdepth
  have hback : (evaluate X F host env entity scope s).2.depth = s.depth :=
    enter_depth (trampoline_depth s.operations) entity scope s
  have hd : d = s.depth := by
    have hdirect : (direct X F host env s.operations entity scope s).2.depth = s.depth :=
      direct_depth s.operations entity scope s
    rw [hstate] at hdirect
    exact hdirect
  refine Prod.ext hvalue ?_
  show (evaluate X F host env entity scope s).2 = (direct X F host env s.operations entity scope s).2
  rw [hstate,hd,← hback]
  rfl

namespace ComputeSample

open Ecf Sample

/-- An expression or another entity of the samples. -/
structure Doc where
  type : String
  value : Value
  digest : ℕ

def Doc.entity (d : Doc) : Entity := Sample.entity d.type d.value d.digest
def Doc.ref (d : Doc) : Value := hashRef d.entity.contentHash

def literal (v : Value) (digest : ℕ) : Doc := ⟨"compute/literal",.map [(txt "value",v)],digest⟩

def yes : Doc := literal (.bool true)
  0x79f80e404eb0eea64140480ad031f516900f140d38759523fd8e292aaedae03c
def minusOne : Doc := literal (integer (-1))
  0x73361448fff83dedf08248199fcca9e522c52638400c8d174fbdb575c8edab0c

/-- The word of ones, cast to unsigned. -/
def cast : Doc := ⟨"compute/numeric-cast",.map [(txt "to_type",txt "primitive/uint"),
  (txt "value",minusOne.ref)],0xc3f0bd999f4b2627417d3d1fa95db7d5fe00e7267a14ad9edde3d1f52fe5bdbb⟩

def choice : Doc := ⟨"compute/if",.map [(txt "condition",yes.ref),(txt "then",cast.ref)],
  0xfb4a51a29bc339e52b4a46d465f91c1a77d7854e9c76f044bfbe0f0b04e248f7⟩

/-- Crates that read the data and hash the entities of some documents. -/
def crates (docs : List Doc) : Platform :=
  platform (docs.map Doc.value) (docs.map fun d => (ecfForHash d.type.toList (toEcf d.value),d.digest)) []

/-- The samples compute with integers only. -/
def words : Runtime where
  add _ _ := 0
  sub _ _ := 0
  mul _ _ := 0
  div _ _ := 0
  rem _ _ := 0
  lt _ _ := false
  le _ _ := false
  ofInt _ := 0
  trunc _ := 0
  toInt _ := 0
  display _ := ""
  debug s := String.ofList s

def environment (capability : Option CapabilityToken) : EvalEnv where
  included := .empty
  localPeerId := aliceId
  capability := capability
  authorizedDataHashes := []
  subgraphRoot := none

/-- A fresh context over a store. -/
def start (docs : List Doc) : EvalState (ContentStore × MemoryLocationIndex) where
  operations := 100
  depth := 10
  encountered := .empty
  constructedInFlight := .empty
  dependencyPaths := none
  world := (⟨docs.map Doc.entity⟩,⟨.empty⟩)
  log := []

end ComputeSample

open ComputeSample in
theorem evaluate_eq_direct_sample :
    ((evaluate (crates [yes,minusOne,cast,choice]) words (Host.memory none) (environment none)
      choice.entity .empty (start [yes,minusOne,cast,choice])).1.bind ComputeValue.asI128 =
        some (2^64-1)) ∧
    evaluate (crates [yes,minusOne,cast,choice]) words (Host.memory none) (environment none)
        choice.entity .empty (start [yes,minusOne,cast,choice]) =
      directEvaluate (crates [yes,minusOne,cast,choice]) words (Host.memory none) (environment none)
        choice.entity .empty (start [yes,minusOne,cast,choice]) :=
  ⟨by decide +kernel,evaluate_eq_direct _ _ _ _ _ _ _ (by decide +kernel)⟩

end Compute

end EntityCore
