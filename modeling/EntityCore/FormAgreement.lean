import EntityCore.BuiltinForms
import EntityCore.ComputeSlack
import EntityCore.Transparency
import EntityCore.Documents

/-! When the inline form of an operation, its alias and its handler form agree. -/
namespace EntityCore
variable {key : String} {hash left right : Hash} {fields : List (Str × Hash)}

namespace Compute

open Ecf Strings Program

/-! What a value is to a caller: errors count by their code, entities by their hash. -/

inductive Outward where
  | primitive (v : Value)
  | entity (hash : Hash)
  | closure (c : ClosureValue)
  | uint (u : UInt64)
  | failed (code : Option Str)

def ComputeValue.outward (X : Platform) : ComputeValue → Outward
  | .primitive v => .primitive v
  | .entity e => if e.entityType = typeError then .failed ((ComputeValue.entity e).errorCode X)
    else .entity e.contentHash
  | .closure c => .closure c
  | .error e => .failed (some e.code.toList)
  | .uint u => .uint u

/-- Evaluations that end alike for a caller. -/
def Agree (X : Platform) (v w : Option ComputeValue) : Prop :=
  v.map (ComputeValue.outward X) = w.map (ComputeValue.outward X)

section Agreement

variable {W : Type} (X : Platform) (F : Runtime) (host : Host W) (env : EvalEnv)

/-- The run of a piece of the evaluator. -/
def runEval {α : Type} (p : Eval α) (s : EvalState W) : Ending ComputeValue α × EvalState W :=
  p.run (performCommand host env (evaluate X F host env)) s

/-- The handler form at a path; nothing where the path is no builtin's. -/
def handled (path : Str) (params : Entity) (scope : Scope) (s : EvalState W) :
    Option ComputeValue × EvalState W :=
  match dispatchBuiltin X F env path params scope with
  | some p => (outcome (runEval X F host env p s).1,(runEval X F host env p s).2)
  | none => (none,s)

/-- An operand. -/
def argument (hash : Hash) (label : String) (scope : Scope) : Eval ComputeValue := do
  let target ← resolveOrError hash label
  consumed (← evaluateSub target scope)

/-- The typed value of a field of an entity under construction, also behind its bare hash. -/
def EvalState.typedField (s : EvalState W) (name : Str) : ComputeValue → Option ComputeValue
  | .entity e => (s.constructedInFlight.get e.contentHash).bind fun fields => fields.get name
  | .primitive (.bytes b) => match Hash.fromBytes b with
    | .ok h => (s.constructedInFlight.get h).bind fun fields => fields.get name
    | .error _ => none
  | _ => none

/-- When the three forms of an operation agree. A typed value that is in flight for a field
must be the one that the target's own data has; without an entity type, the fields must not
fail otherwise than as an invalid expression. -/
def Operation.FormsMeet (scope : Scope) (s : EvalState W) : Operation → Prop
  | .field name entity => ∀ target s' typed,
      runEval X F host env (argument entity "field target" scope) s = (.done target,s') →
      s'.typedField name target = some typed →
      typed.outward X = (bareField X name target).outward X
  | .construct entityType fields => entityType = [] →
      match (runEval X F host env (mapEach (constructField X scope)
        (canonicalSortedPairs fields)) s.entered).1 with
      | .done _ => True
      | .early v => v.outward X = .failed (some "invalid_expression".toList)
      | .fault => False
  | _ => True

end Agreement

/-! Runs of the forms. -/

section Runs

variable {W : Type} {X : Platform} {F : Runtime} {host : Host W} {env : EvalEnv} {op : Operation}
  (f : op.Forms X) {scope : Scope} {s t : EvalState W}

theorem resolve_found {e : Entity} (h : s.resolve host env hash = some e) :
    performCommand host env (evaluate X F host env) (.resolve hash) s = (some (some e),s) := by
  have hreach : s.inReach host env hash = some e := (Option.filter_eq_some_iff.mp h).1
  dsimp only [performCommand,EvalState.answer]
  rw [h,hreach]
  rfl

theorem runEval_evaluate {α : Type} (e : Entity) (k : ComputeValue → Eval α) (s : EvalState W) :
    runEval X F host env (evaluateSub e scope >>= k) s =
      match (evaluate X F host env e scope s).1 with
      | some v => runEval X F host env (k v) (evaluate X F host env e scope s).2
      | none => (.fault,(evaluate X F host env e scope s).2) := by
  have hperform : performCommand host env (evaluate X F host env) (.evaluate e scope) s =
    evaluate X F host env e scope s := rfl
  have hstep := run_step (h := performCommand host env (evaluate X F host env))
    (Command.evaluate e scope) (fun r : Answer (.evaluate e scope) => k r) s
  rw [hperform] at hstep
  refine Eq.trans ?_ (hstep.trans ?_)
  · rfl
  · cases (evaluate X F host env e scope s).1 <;> rfl

theorem runEval_evaluateSub (e : Entity) (s : EvalState W) :
    outcome (runEval X F host env (evaluateSub e scope) s).1 = (evaluate X F host env e scope s).1 ∧
      (runEval X F host env (evaluateSub e scope) s).2 = (evaluate X F host env e scope s).2 := by
  have hrun := @runEval_evaluate W X F host env scope _ e
    (pure : ComputeValue → Eval ComputeValue) s
  rw [bind_pure] at hrun
  rw [hrun]
  cases hvalue : (evaluate X F host env e scope s).1 with
  | some v => exact ⟨rfl,rfl⟩
  | none => exact ⟨rfl,rfl⟩

theorem SameButBudget.resolve (h : SameButBudget s t) (hash : Hash) :
    t.resolve host env hash = s.resolve host env hash := by
  obtain ⟨operations,depth,rfl⟩ := h
  rfl

/-- A literal text for an argument takes nothing but budget. -/
theorem resolveStringArg_run {args : Args} {α : Type} (rest : Str → Eval α)
    (hargs : argsHash args key = some f.steering)
    (hliteral : t.resolve host env f.steering = some f.literal)
    (hend : (runEval X F host env (resolveStringArg args key scope >>= rest) t).2.Permitted) :
    ∃ t', SameButBudget t t' ∧ runEval X F host env (resolveStringArg args key scope >>= rest) t =
      runEval X F host env (rest op.steer) t' := by
  have hstart : runEval X F host env (resolveStringArg args key scope >>= rest) t =
      runEval X F host env (evaluateSub f.literal scope >>= fun v =>
        (consumed v >>= fun v => pure (v.asStrVal.getD [])) >>= rest) t := by
    unfold resolveStringArg
    rw [hargs]
    show (Program.step (Command.resolve f.steering) _).run _ t = _
    rw [run_step,resolve_found hliteral]
    rfl
  rw [hstart] at hend ⊢
  rw [runEval_evaluate] at hend ⊢
  have hpermitted : (evaluate X F host env f.literal scope t).2.Permitted := by
    cases hvalue : (evaluate X F host env f.literal scope t).1 with
    | some v =>
      rw [hvalue] at hend
      exact hend.of_log (run_log _ _)
    | none =>
      rw [hvalue] at hend
      exact hend
  obtain ⟨hvalue,hstate⟩ := evaluate_inside (isExpression_of_type f.literal_type)
    (f.inner_literal scope) hpermitted
  rw [hvalue]
  exact ⟨_,(same_entered t).trans hstate,rfl⟩

theorem inline_run (hs : (evaluate X F host env f.expression scope s).2.Permitted) :
    (evaluate X F host env f.expression scope s).1 =
        outcome (runEval X F host env (op.inlineForm X F scope) s.entered).1 ∧
      SameButBudget (runEval X F host env (op.inlineForm X F scope) s.entered).2
        (evaluate X F host env f.expression scope s).2 :=
  evaluate_inside (isExpression_of_type f.expression_type) (f.inner_expression scope) hs

/-- An alias evaluates the inline expression, unless it is a construction without a type. -/
theorem applied_run (hliteral : s.resolve host env f.steering = some f.literal)
    (hs : (evaluate X F host env f.applied scope s).2.Permitted) :
    if op.NoType = true then (evaluate X F host env f.applied scope s).1 =
        some (invalid "construct alias: missing or empty 'entity_type'")
      else ∃ t, SameButBudget s t ∧ (evaluate X F host env f.expression scope t).2.Permitted ∧
        (evaluate X F host env f.applied scope s).1 =
          (evaluate X F host env f.expression scope t).1 := by
  obtain ⟨hvalue,hstate⟩ := evaluate_inside (isExpression_of_type f.applied_type)
    (f.inner_applied scope) hs
  have hend := hstate.symm.permitted hs
  obtain ⟨rest,hdispatch,hrest⟩ := @Operation.Forms.dispatch_resolves X F env op f scope
  rw [hdispatch] at hvalue hend
  obtain ⟨t,hst,hrun⟩ := resolveStringArg_run f rest (f.args_hash List.mem_cons_self)
    ((same_entered s).resolve f.steering ▸ hliteral) hend
  unfold runEval at hrun
  rw [hrun,hrest] at hvalue
  rw [hrun,hrest] at hend
  by_cases htype : op.NoType = true
  · rw [if_pos htype] at hvalue ⊢
    exact hvalue
  · rw [if_neg htype] at hvalue hend ⊢
    obtain ⟨hsub,hlast⟩ := @runEval_evaluateSub W X F host env scope f.expression t
    exact ⟨t,(same_entered s).trans hst,hlast ▸ hend,hvalue.trans hsub⟩

/-- Two programs that begin alike go on from one value, or have both ended alike. -/
theorem run_bind_agrees {α : Type} (p : Eval α) (q r : α → Eval ComputeValue)
    (hst : SameButBudget s t) (hs : (runEval X F host env (p >>= q) s).2.Permitted)
    (ht : (runEval X F host env (p >>= r) t).2.Permitted) :
    (∃ a s' t', runEval X F host env p t = (.done a,t') ∧ SameButBudget s' t' ∧
        runEval X F host env (p >>= q) s = runEval X F host env (q a) s' ∧
        runEval X F host env (p >>= r) t = runEval X F host env (r a) t') ∨
      ((∀ a t', runEval X F host env p t ≠ (.done a,t')) ∧
        outcome (runEval X F host env (p >>= q) s).1 =
          outcome (runEval X F host env (p >>= r) t).1) := by
  have hback : ∀ (k : α → Eval ComputeValue) (u : EvalState W),
      (runEval X F host env (p >>= k) u).2.Permitted → (runEval X F host env p u).2.Permitted := by
    intro k u hu
    unfold runEval at hu ⊢
    rw [run_andThen] at hu
    split at hu
    · rename_i hp
      rw [hp]
      exact hu.of_log (run_log _ _)
    · rename_i hp
      rw [hp]
      exact hu
    · rename_i hp
      rw [hp]
      exact hu
  obtain ⟨hending,hstate⟩ := @run_agrees W X F host env _ p _ _ hst
    (hback q s hs) (hback r t ht)
  unfold runEval at *
  rw [run_andThen,run_andThen]
  cases hp : p.run (performCommand host env (evaluate X F host env)) s with
  | mk ending s' =>
  cases hp' : p.run (performCommand host env (evaluate X F host env)) t with
  | mk ending' t' =>
  rw [hp,hp'] at hending hstate
  dsimp only at hending hstate
  subst hending
  cases ending with
  | done a => exact Or.inl ⟨a,s',t',rfl,hstate,rfl,rfl⟩
  | early v => exact Or.inr ⟨by simp,rfl⟩
  | fault => exact Or.inr ⟨by simp,rfl⟩

end Runs

/-! The inline form against the handler form. -/

theorem operand_eq {data : Value} (h : dataHash data key = some hash)
    (label : String) (scope : Scope) : operand data key label scope = argument hash label scope := by
  unfold operand evalHashRef argument
  rw [h]
  simp only [orEarly_some,pure_bind,bind_assoc]

theorem consumedArg_eq {data : Value}
    (h : dataHash data key = some hash) (label : String) (scope : Scope) :
    consumedArg data key label scope = argument hash label scope := by
  unfold consumedArg evalRef argument
  rw [h]
  simp only [orEarly_some,pure_bind,bind_assoc]

theorem operand_none {data : Value} (h : dataHash data key = none) (label : String)
    (scope : Scope) : operand data key label scope =
      .early (invalid ("Missing or invalid hash field '"++key++ "'")) := by
  unfold operand evalHashRef
  rw [h]
  rfl

theorem consumedArg_none {data : Value} (h : dataHash data key = none)
    (label : String) (scope : Scope) : consumedArg data key label scope =
      .early (invalid ("Missing hash field '"++key++ "'")) := by
  unfold consumedArg evalRef
  rw [h]
  rfl

theorem canonicalSortedPairs_idem {α : Type} (pairs : List (Str × α)) :
    canonicalSortedPairs (canonicalSortedPairs pairs) = canonicalSortedPairs pairs :=
  (List.pairwise_insertionSort nameLe pairs).insertionSort_eq

namespace Operation

theorem data_hash (op : Operation) (hform : op.form ≠ .construct)
    (hmem : (key.toList,hash) ∈ op.operands) (hne : op.steerKey.toList ≠ key.toList)
    (hd : (op.operands.map Prod.fst).Nodup) : dataHash op.data key = some hash := by
  have hdata : op.data = .map (entry op.steerKey (.text op.steer)::
      op.operands.map fun kv => (.text kv.1,hashRef kv.2)) := by
    cases op with
    | construct entityType fields => exact absurd rfl hform
    | _ => rfl
  have hfound : ∀ args : Args, (args.map Prod.fst).Nodup → (key.toList,hash) ∈ args →
      (Value.map (args.map fun kv => (.text kv.1,hashRef kv.2))).get key.toList =
        some (hashRef hash) := by
    intro args
    induction args with
    | nil => intro _ hmem; cases hmem
    | cons kv args ih =>
      intro hd hmem
      obtain ⟨hnew,hrest⟩ := List.nodup_cons.mp hd
      rcases List.mem_cons.mp hmem with rfl | hmem
      · simp [Value.get,Value.asText]
      · have hother : kv.1 ≠ key.toList := fun heq =>
          hnew (heq ▸ List.mem_map.mpr ⟨_,hmem,rfl⟩)
        simpa [Value.get,Value.asText,hother] using ih hrest hmem
  unfold dataHash
  rw [hdata,get_entry_of_ne hne,hfound _ hd hmem]
  exact hashField_toBytes hash

theorem data_fields (entityType : Str) (fields : List (Str × Hash)) :
    dataHashMap (Operation.construct entityType fields).data "fields" =
      some (canonicalSortedPairs fields) := by
  unfold dataHashMap data
  rw [get_entry_self]
  exact congrArg some (argsFields_filterMap _)

namespace Forms

variable {X : Platform} {F : Runtime} {env : EvalEnv} {op : Operation} (f : op.Forms X)
  (scope : Scope)

theorem data_operand (f : op.Forms X) (hform : op.form ≠ .construct)
    (hmem : (key.toList,hash) ∈ op.operands) : dataHash op.data key = some hash := by
  obtain ⟨hnew,hd⟩ := List.nodup_cons.mp f.distinct
  exact op.data_hash hform hmem (fun heq => hnew (heq ▸ List.mem_map.mpr ⟨_,hmem,rfl⟩)) hd

theorem data_pair (f : op.Forms X) (hform : op.form ≠ .construct)
    (hpair : op.operands = [("left".toList,left),("right".toList,right)]) :
    dataHash op.data "left" = some left ∧ dataHash op.data "right" = some right :=
  ⟨f.data_operand hform (by simp [hpair]),f.data_operand hform (by simp [hpair])⟩

theorem dispatchBuiltin_eq : dispatchBuiltin X F env f.path f.expression scope =
    some (op.builtin.handle X F env op.data scope) := by
  unfold dispatchBuiltin
  rw [f.path_builtin,f.expression_data]
  simp only [Option.bind_some,Builtin.ofName_name,Option.map_some]

end Forms

section Same

variable {X : Platform} {F : Runtime} {env : EvalEnv} (scope : Scope)

theorem arithmetic_same {op : Str} (f : (Operation.arithmetic op left right).Forms X) :
    evalArithmetic F (Operation.arithmetic op left right).data scope =
      dispatchArithmetic F (Operation.arithmetic op left right).data scope := by
  obtain ⟨hleft,hright⟩ := f.data_pair (by simp [form]) rfl
  have hlabel : "arithmetic"++" left" = "arithmetic left" := by decide
  have hlabel' : "arithmetic"++" right" = "arithmetic right" := by decide
  have hop : dataStr (Operation.arithmetic op left right).data "op" = some op := data_steer _
  unfold evalArithmetic dispatchArithmetic dispatchBinary
  rw [hop,hlabel,hlabel',operand_eq hleft,operand_eq hright,consumedArg_eq hleft,
    consumedArg_eq hright]
  rfl

theorem compare_same {op : Str} (f : (Operation.compare op left right).Forms X) :
    evalCompare F (Operation.compare op left right).data scope =
      dispatchCompare F (Operation.compare op left right).data scope := by
  obtain ⟨hleft,hright⟩ := f.data_pair (by simp [form]) rfl
  have hlabel : "compare"++" left" = "compare left" := by decide
  have hlabel' : "compare"++" right" = "compare right" := by decide
  have hop : dataStr (Operation.compare op left right).data "op" = some op := data_steer _
  unfold evalCompare dispatchCompare dispatchBinary
  rw [hop,hlabel,hlabel',operand_eq hleft,operand_eq hright,consumedArg_eq hleft,
    consumedArg_eq hright]
  rfl

theorem logic_same {op : Str} (f : (Operation.logic op left (some right)).Forms X) :
    evalLogic (Operation.logic op left (some right)).data scope =
      dispatchLogic (Operation.logic op left (some right)).data scope := by
  obtain ⟨hleft,hright⟩ := f.data_pair (by simp [form]) rfl
  have hop : dataStr (Operation.logic op left (some right)).data "op" = some op := data_steer _
  unfold evalLogic dispatchLogic
  rw [hop,operand_eq hleft,operand_eq hright,consumedArg_eq hleft,consumedArg_eq hright]
  rfl

theorem construct_same {entityType : Str} (f : (Operation.construct entityType fields).Forms X) :
    dispatchConstruct X (Operation.construct entityType fields).data scope =
      evaluateSub f.expression scope := by
  have htype : dataStr (Operation.construct entityType fields).data "entity_type" =
    some entityType := data_steer _
  have hfields := data_fields entityType fields
  have hbytes : toEcf (.map [entry "entity_type" (.text entityType),
      entry "fields" (.map (argsFields (canonicalSortedPairs fields)))]) =
        toEcf (Operation.construct entityType fields).data := by
    have hargs : argsFields (canonicalSortedPairs fields) = argsFields fields := by
      unfold argsFields
      rw [canonicalSortedPairs_idem]
    rw [hargs]
    exact toEcf_construct entityType _
  have hnew := f.expression_new
  unfold dispatchConstruct
  rw [htype,hfields]
  simp only [orEarly_some,pure_bind,hbytes]
  simp only [form] at hnew
  rw [hnew]
  rfl

end Same

end Operation

/-! Agreement. -/

section Meet

variable {W : Type} {X : Platform} {F : Runtime} {host : Host W} {env : EvalEnv} {scope : Scope}
  {s t : EvalState W}

theorem SameButBudget.typedField (h : SameButBudget s t) (name : Str) (target : ComputeValue) :
    t.typedField name target = s.typedField name target := by
  obtain ⟨operations,depth,rfl⟩ := h
  cases target <;> rfl

theorem inFlightField_run (hash : Hash) (name : Str) {α : Type}
    (k : Option ComputeValue → Eval α) (s : EvalState W) :
    ∃ s', runEval X F host env (inFlightField hash name >>= k) s = runEval X F host env
      (k ((s.constructedInFlight.get hash).bind fun fields => fields.get name)) s' :=
  ⟨_,rfl⟩

/-- The typed value of a field where there is one, else the bare one. -/
theorem extractField_run (name : Str) (target : ComputeValue) (s : EvalState W) :
    outcome (runEval X F host env (extractField X name target) s).1 =
      some ((s.typedField name target).getD (bareField X name target)) := by
  have hend : ∀ (typed : Option ComputeValue) (s' : EvalState W),
      outcome (runEval X F host env (match typed with
        | some v => pure v
        | none => pure (bareField X name target) : Eval ComputeValue) s').1 =
          some (typed.getD (bareField X name target)) := by
    intro typed s'
    cases typed <;> rfl
  have hread : ∀ hash, outcome (runEval X F host env (inFlightField hash name >>= fun typed =>
      (match typed with
        | some v => pure v
        | none => pure (bareField X name target) : Eval ComputeValue)) s).1 =
          some (((s.constructedInFlight.get hash).bind fun fields => fields.get name).getD
            (bareField X name target)) := by
    intro hash
    obtain ⟨s',hrun⟩ := @inFlightField_run W X F host env hash name _
      (fun typed => (match typed with
        | some v => pure v
        | none => pure (bareField X name target) : Eval ComputeValue)) s
    rw [hrun]
    exact hend _ _
  cases target with
  | entity e => exact hread e.contentHash
  | primitive v =>
    cases v with
    | bytes b =>
      unfold extractField EvalState.typedField
      dsimp only
      cases hhash : Hash.fromBytes b with
      | ok hash => exact hread hash
      | error err => rfl
    | _ => rfl
  | _ => rfl

/-- The handler form words its errors otherwise. -/
theorem handlerField_outward (name : Str) (target : ComputeValue) :
    (handlerField X name target).outward X = (bareField X name target).outward X := by
  cases target with
  | entity e =>
    unfold handlerField bareField
    dsimp only
    cases decodeData X e with
    | some data => rfl
    | none => rfl
  | primitive v =>
    cases v with
    | map entries => rfl
    | _ => rfl
  | _ => rfl

theorem Agree.of_eq {v w : Option ComputeValue} (h : v = w) : Agree X v w :=
  congrArg (Option.map (ComputeValue.outward X)) h

section Forms

variable {op : Operation} (f : op.Forms X)

theorem handled_eq : handled X F host env f.path f.expression scope s =
    (outcome (runEval X F host env (op.builtin.handle X F env op.data scope) s).1,
      (runEval X F host env (op.builtin.handle X F env op.data scope) s).2) := by
  unfold handled
  rw [f.dispatchBuiltin_eq]

theorem applied_eq (htype : op.NoType = false)
    (hliteral : s.resolve host env f.steering = some f.literal)
    (hinline : (evaluate X F host env f.expression scope s).2.Permitted)
    (happlied : (evaluate X F host env f.applied scope s).2.Permitted) :
    (evaluate X F host env f.expression scope s).1 = (evaluate X F host env f.applied scope s).1 := by
  have hrun := applied_run f hliteral happlied
  rw [if_neg (by simp [htype])] at hrun
  obtain ⟨t,hst,ht,hvalue⟩ := hrun
  rw [hvalue]
  exact (evaluate_slack f.expression scope s t hst hinline ht).1

theorem handled_of_same (hsame : op.inlineForm X F scope = op.builtin.handle X F env op.data scope)
    (hinline : (evaluate X F host env f.expression scope s).2.Permitted)
    (hhandled : (handled X F host env f.path f.expression scope s).2.Permitted) :
    (evaluate X F host env f.expression scope s).1 =
      (handled X F host env f.path f.expression scope s).1 := by
  obtain ⟨hvalue,hstate⟩ := inline_run f hinline
  rw [handled_eq f] at hhandled ⊢
  rw [hvalue,hsame]
  rw [hsame] at hstate
  have hrun := @run_agrees W X F host env _
    (op.builtin.handle X F env op.data scope) _ _ (same_entered s).symm
    (hstate.symm.permitted hinline) hhandled
  exact congrArg outcome hrun.1

end Forms

/-- What the logic operators do with their left operand, where the right one is missing. -/
def unaryRest (op : Str) (missing : ComputeValue) (left : ComputeValue) : Eval ComputeValue :=
  if op = "not".toList then pure (.primitive (.bool (!left.isTruthy)))
  else if op = "and".toList then .early missing
  else if op = "or".toList then .early missing
  else pure (invalid ("Unknown logic op: "++String.ofList op))

/-- It issues no command, and any message counts for the same. -/
theorem unaryRest_agree (op : Str) (message message' : String) (left : ComputeValue)
    (s t : EvalState W) :
    Agree X (outcome (runEval X F host env (unaryRest op (invalid message) left) s).1)
      (outcome (runEval X F host env (unaryRest op (invalid message') left) t).1) := by
  unfold unaryRest
  by_cases hnot : op = "not".toList
  · rw [if_pos hnot,if_pos hnot]
    rfl
  rw [if_neg hnot,if_neg hnot]
  by_cases hand : op = "and".toList
  · rw [if_pos hand,if_pos hand]
    rfl
  rw [if_neg hand,if_neg hand]
  by_cases hor : op = "or".toList
  · rw [if_pos hor,if_pos hor]
    rfl
  rw [if_neg hor,if_neg hor]
  rfl

theorem logic_unary {op : Str} (f : (Operation.logic op left none).Forms X)
    (hinline : (evaluate X F host env f.expression scope s).2.Permitted)
    (hhandled : (handled X F host env f.path f.expression scope s).2.Permitted) :
    Agree X (evaluate X F host env f.expression scope s).1
      (handled X F host env f.path f.expression scope s).1 := by
  have hleft : dataHash (Operation.logic op left none).data "left" = some left :=
    f.data_operand (by simp [Operation.form]) List.mem_cons_self
  have hright : dataHash (Operation.logic op left none).data "right" = none := by
    unfold dataHash Operation.data
    simp [Value.get,entry,Value.asText,Operation.operands,Operation.steerKey]
  have hop : dataStr (Operation.logic op left none).data "op" = some op :=
    Operation.data_steer _
  have hform : (Operation.logic op left none).inlineForm X F scope =
      argument left "logic left" scope >>=
        unaryRest op (invalid ("Missing or invalid hash field '"++"right"++ "'")) := by
    show evalLogic _ scope = _
    unfold evalLogic
    rw [hop,operand_eq hleft,operand_none hright]
    rfl
  have hhandle : (Operation.logic op left none).builtin.handle X F env
      (Operation.logic op left none).data scope = argument left "logic left" scope >>=
        unaryRest op (invalid ("Missing hash field '"++"right"++ "'")) := by
    show dispatchLogic _ scope = _
    unfold dispatchLogic
    rw [hop,consumedArg_eq hleft,consumedArg_none hright]
    rfl
  obtain ⟨hvalue,hstate⟩ := inline_run f hinline
  have hend := hstate.symm.permitted hinline
  rw [handled_eq f] at hhandled ⊢
  rw [hvalue]
  rw [hform] at hend ⊢
  rw [hhandle] at hhandled ⊢
  obtain ⟨v,u,u',-,-,hrun,hrun'⟩ | ⟨-,hsame⟩ := run_bind_agrees
    (argument left "logic left" scope) _ _ (same_entered s).symm hend hhandled
  · rw [hrun,hrun']
    exact unaryRest_agree op _ _ v u u'
  · exact Agree.of_eq hsame

/-- The handler form of a field is the inline one but for what is in flight. -/
theorem field_meets {name : Str} {entity : Hash} (f : (Operation.field name entity).Forms X)
    (hinline : (evaluate X F host env f.expression scope s).2.Permitted)
    (hhandled : (handled X F host env f.path f.expression scope s).2.Permitted) :
    Agree X (evaluate X F host env f.expression scope s).1
        (handled X F host env f.path f.expression scope s).1 ↔
      (Operation.field name entity).FormsMeet X F host env scope s := by
  have hentity : dataHash (Operation.field name entity).data "entity" = some entity :=
    f.data_operand (by simp [Operation.form]) List.mem_cons_self
  have hname : dataStr (Operation.field name entity).data "name" = some name :=
    Operation.data_steer _
  have hform : (Operation.field name entity).inlineForm X F scope =
      argument entity "field target" scope >>= extractField X name := by
    show evalField X _ scope = _
    unfold evalField
    rw [hname,operand_eq hentity]
    rfl
  have hhandle : (Operation.field name entity).builtin.handle X F env
      (Operation.field name entity).data scope = argument entity "field target" scope >>=
        fun target => pure (handlerField X name target) := by
    show dispatchField X _ scope = _
    unfold dispatchField
    rw [hname,consumedArg_eq hentity]
    rfl
  obtain ⟨hvalue,hstate⟩ := inline_run f hinline
  have hend := hstate.symm.permitted hinline
  rw [handled_eq f] at hhandled ⊢
  rw [hvalue]
  rw [hform] at hend ⊢
  rw [hhandle] at hhandled ⊢
  obtain ⟨target,u,u',htarget,hu,hrun,hrun'⟩ | ⟨hnever,hsame⟩ := run_bind_agrees
    (argument entity "field target" scope) _ _ (same_entered s).symm hend hhandled
  · have houtcome : Agree X (outcome (runEval X F host env (extractField X name target) u).1)
          (outcome (runEval X F host env (pure (handlerField X name target)) u').1) ↔
        ((u.typedField name target).getD (bareField X name target)).outward X =
          (bareField X name target).outward X := by
      rw [extractField_run]
      show some _ = some _ ↔ _
      rw [Option.some_inj,handlerField_outward]
    rw [hrun,hrun',houtcome]
    constructor
    · intro hmeet target' u'' typed hargument htyped
      rw [htarget] at hargument
      obtain ⟨hsame,rfl⟩ := Prod.mk.inj hargument
      obtain rfl := Ending.done.inj hsame
      rw [hu.typedField] at htyped
      rw [htyped] at hmeet
      exact hmeet
    · intro hmeet
      cases htyped : u.typedField name target with
      | none => rfl
      | some typed => exact hmeet target u' typed htarget (by rw [hu.typedField,htyped])
  · exact ⟨fun _ target u typed hargument => absurd hargument (hnever target u),
      fun _ => Agree.of_eq hsame⟩

theorem construct_handled {entityType : Str} (f : (Operation.construct entityType fields).Forms X) :
    (handled X F host env f.path f.expression scope s).1 =
      (evaluate X F host env f.expression scope s).1 := by
  have hhandle : (Operation.construct entityType fields).builtin.handle X F env
      (Operation.construct entityType fields).data scope = evaluateSub f.expression scope :=
    Operation.construct_same scope f
  rw [handled_eq f,hhandle]
  exact (runEval_evaluateSub f.expression s).1

/-- Without a type, the alias fails before its fields are evaluated, the inline form after. -/
theorem untyped_meets (f : (Operation.construct [] fields).Forms X)
    (hliteral : s.resolve host env f.steering = some f.literal)
    (hinline : (evaluate X F host env f.expression scope s).2.Permitted)
    (happlied : (evaluate X F host env f.applied scope s).2.Permitted) :
    Agree X (evaluate X F host env f.expression scope s).1
        (evaluate X F host env f.applied scope s).1 ↔
      (Operation.construct [] fields).FormsMeet X F host env scope s := by
  have happly := applied_run f hliteral happlied
  rw [if_pos (show (Operation.construct [] fields).NoType = true from rfl)] at happly
  have htype : dataStr (Operation.construct [] fields).data "entity_type" = some [] :=
    Operation.data_steer _
  have hfields : dataHashMap (Operation.construct [] fields).data "fields" =
    some (canonicalSortedPairs fields) := Operation.data_fields [] fields
  have hform : ∃ err : EntityError, (Operation.construct [] fields).inlineForm X F scope =
      mapEach (constructField X scope) (canonicalSortedPairs fields) >>= fun _ =>
        .early (invalid ("Failed to create entity: "++err.display)) := by
    refine ⟨.invalidType "entity type cannot be empty",?_⟩
    show evalConstruct X _ scope = _
    unfold evalConstruct
    rw [htype,hfields]
    simp only [orEarly_some,pure_bind,canonicalSortedPairs_idem]
    rfl
  obtain ⟨err,hform⟩ := hform
  obtain ⟨hvalue,-⟩ := inline_run f hinline
  rw [hvalue,happly,hform,Operation.FormsMeet]
  unfold runEval
  rw [run_andThen]
  generalize (mapEach (constructField X scope) (canonicalSortedPairs fields)).run
    (performCommand host env (evaluate X F host env)) s.entered = ended
  obtain ⟨ending,s'⟩ := ended
  cases ending with
  | done built => exact ⟨fun _ _ => trivial,fun _ => rfl⟩
  | early v => exact ⟨fun hmeet _ => Option.some_inj.mp hmeet,fun hmeet => congrArg some (hmeet rfl)⟩
  | fault => exact ⟨fun hmeet => (by cases hmeet),fun hmeet => (hmeet rfl).elim⟩

end Meet

/-- The inline form of an operation, its alias and its handler form end alike, budget
permitting, exactly when the forms meet. -/
theorem forms_agree_iff {W : Type} (X : Platform) (F : Runtime) (host : Host W) (env : EvalEnv)
    (op : Operation) (f : op.Forms X) (scope : Scope) (s : EvalState W)
    (hliteral : s.resolve host env f.steering = some f.literal)
    (hinline : (evaluate X F host env f.expression scope s).2.Permitted)
    (happlied : (evaluate X F host env f.applied scope s).2.Permitted)
    (hhandled : (handled X F host env f.path f.expression scope s).2.Permitted) :
    Agree X (evaluate X F host env f.expression scope s).1
          (evaluate X F host env f.applied scope s).1 ∧
        Agree X (evaluate X F host env f.expression scope s).1
          (handled X F host env f.path f.expression scope s).1 ↔
      op.FormsMeet X F host env scope s := by
  by_cases htype : op.NoType = true
  · cases op with
    | construct entityType fields =>
      obtain rfl : entityType = [] := List.isEmpty_iff.mp htype
      have hsame : Agree X (evaluate X F host env f.expression scope s).1
          (handled X F host env f.path f.expression scope s).1 :=
        Agree.of_eq (construct_handled f).symm
      rw [and_iff_left hsame]
      exact untyped_meets f hliteral hinline happlied
    | _ => cases htype
  · have happly : Agree X (evaluate X F host env f.expression scope s).1
        (evaluate X F host env f.applied scope s).1 :=
      Agree.of_eq (applied_eq f (by simpa using htype) hliteral hinline happlied)
    rw [and_iff_right happly]
    cases op with
    | arithmetic op left right =>
      have hsame := handled_of_same f (Operation.arithmetic_same scope f) hinline hhandled
      exact ⟨fun _ => trivial,fun _ => Agree.of_eq hsame⟩
    | compare op left right =>
      have hsame := handled_of_same f (Operation.compare_same scope f) hinline hhandled
      exact ⟨fun _ => trivial,fun _ => Agree.of_eq hsame⟩
    | logic op left right =>
      cases right with
      | some right =>
        have hsame := handled_of_same f (Operation.logic_same scope f) hinline hhandled
        exact ⟨fun _ => trivial,fun _ => Agree.of_eq hsame⟩
      | none => exact ⟨fun _ => trivial,fun _ => logic_unary f hinline hhandled⟩
    | field name entity => exact field_meets f hinline hhandled
    | construct entityType fields =>
      refine ⟨fun _ hempty => ?_,fun _ => Agree.of_eq (construct_handled f).symm⟩
      rw [hempty] at htype
      exact absurd rfl htype

namespace ComputeSample

open Ecf Sample

theorem decodeData_doc {docs : List Doc} (hn : ((docs.map Doc.value).map toEcf).Nodup) {d : Doc}
    (hd : d ∈ docs) : decodeData (crates docs) d.entity = some d.value := by
  have hread : (crates docs).fromReader (toEcf d.value) = .ok d.value :=
    reads_document hn (List.mem_map_of_mem hd)
  show ((crates docs).fromReader (toEcf d.value)).toOption = _
  rw [hread]
  rfl

def hashOf (d : Doc) : Hash := d.entity.contentHash

def twice : Operation := .arithmetic "add".toList (hashOf one) (hashOf one)

def addName : Doc := literal (txt "add")
  0x648e13bcbc0f26065ceaf582525e8a4476ba547b044763a81cc048ce24dbea9a
def sum : Doc := ⟨"compute/arithmetic",twice.data,
  0x93948206588c9ff6d4e59367f7bc896ae687fc9fe920ab8536e172d79055154c⟩
def applySum : Doc := ⟨"compute/apply",
  twice.application "system/compute/builtins/arithmetic".toList (hashOf addName),
  0xe534ba90ad23b87402efafa70d7c6d48a85293092ea75cf3d5a41a01e99ccc2b⟩

def sumDocs : List Doc := [one,addName,sum,applySum]

instance decidablePermitted {W : Type} (s : EvalState W) : Decidable s.Permitted :=
  inferInstanceAs (Decidable (_ ∧ _))

/-- Over `docs`, the forms of an operation are what the model makes them, and none of them is
refused. -/
def Comparable (docs : List Doc) (op : Operation) (path : Str) (inline applied literal : Doc) :
    Prop :=
  (((docs.map Doc.value).map toEcf).Nodup ∧
    Entity.new (crates docs) op.form.typeName.toList (toEcf op.data) = .ok inline.entity ∧
    extractBareBuiltin path = some op.builtin.name.toList ∧
    ((op.args (hashOf literal)).map Prod.fst).Nodup) ∧
  (start docs).resolve (Host.memory none) (environment none) (hashOf literal) = some literal.entity ∧
  (evaluate (crates docs) words (Host.memory none) (environment none) inline.entity .empty
    (start docs)).2.Permitted ∧
  (evaluate (crates docs) words (Host.memory none) (environment none) applied.entity .empty
    (start docs)).2.Permitted ∧
  (handled (crates docs) words (Host.memory none) (environment none) path inline.entity .empty
    (start docs)).2.Permitted

theorem evaluated_sum :
    Comparable sumDocs twice "system/compute/builtins/arithmetic".toList sum applySum addName ∧
    (evaluate (crates sumDocs) words (Host.memory none) (environment none) sum.entity .empty
      (start sumDocs)).1.bind ComputeValue.asI128 = some 2 := by
  unfold Comparable
  decide +kernel

def sumForms : twice.Forms (crates sumDocs) where
  expression := sum.entity
  expression_new := evaluated_sum.1.1.2.1
  expression_data := decodeData_doc evaluated_sum.1.1.1 (by simp [sumDocs])
  path := "system/compute/builtins/arithmetic".toList
  path_builtin := evaluated_sum.1.1.2.2.1
  steering := hashOf addName
  distinct := evaluated_sum.1.1.2.2.2
  applied := applySum.entity
  applied_type := rfl
  applied_data := decodeData_doc evaluated_sum.1.1.1 (by simp [sumDocs])
  literal := addName.entity
  literal_type := rfl
  literal_data := decodeData_doc evaluated_sum.1.1.1 (by simp [sumDocs])

end ComputeSample

open ComputeSample

theorem forms_agree_iff_sample :
    (evaluate (crates sumDocs) words (Host.memory none) (environment none) sum.entity .empty
        (start sumDocs)).1.bind ComputeValue.asI128 = some 2 ∧ (Agree (crates sumDocs)
          (evaluate (crates sumDocs) words (Host.memory none) (environment none) sum.entity .empty
            (start sumDocs)).1
          (evaluate (crates sumDocs) words (Host.memory none) (environment none) applySum.entity
            .empty (start sumDocs)).1 ∧ Agree (crates sumDocs)
          (evaluate (crates sumDocs) words (Host.memory none) (environment none) sum.entity .empty
            (start sumDocs)).1 (handled (crates sumDocs) words (Host.memory none) (environment none)
            "system/compute/builtins/arithmetic".toList sum.entity .empty (start sumDocs)).1) := by
  obtain ⟨⟨-,hliteral,hinline,happlied,hhandled⟩,hsum⟩ := evaluated_sum
  exact ⟨hsum,(forms_agree_iff (crates sumDocs) words (Host.memory none) (environment none)
    twice sumForms .empty (start sumDocs) hliteral hinline happlied hhandled).mpr trivial⟩

def Outward.isEntity : Outward → Bool
  | .entity _ => true
  | _ => false

namespace ComputeSample

open Ecf Sample

def pair : Doc := ⟨"app/pair",.map [(txt "inner",note.ref)],
  0x91dc61035a65fa2b78a0816dd74331279de29f6b0379a383d6192361b12abbb3⟩

def makePair : Doc := ⟨"compute/construct",.map [(txt "entity_type",txt "app/pair"),
    (txt "fields",.map [(txt "inner",makeNote.ref)])],
  0x488ceca7f61552a7870439658defd2f4fb840c55b5e57612a23635426392ad18⟩

def innerOfPair : Operation := .field "inner".toList (hashOf makePair)

def innerName : Doc := literal (txt "inner")
  0x828402c3ae284e91f03b474f41275b503603988d12eb1eed58b5df7b172681d2
def readInner : Doc := ⟨"compute/field",innerOfPair.data,
  0xc3db5eef843b7c22b75b906ca504cf22fc0243cf0440ba782d5aa93dc3a0a9bd⟩
def applyInner : Doc := ⟨"compute/apply",
  innerOfPair.application "system/compute/builtins/field".toList (hashOf innerName),
  0xa43ddf49823f99a848fc5f354d79d75b22f3ea4e0a2607a01b865260934c2b8e⟩

def innerDocs : List Doc := [one,note,makeNote,pair,makePair,innerName,readInner,applyInner]

/-- The three forms of the field, and what two of them come to. -/
theorem evaluated_inner :
    Comparable innerDocs innerOfPair "system/compute/builtins/field".toList readInner applyInner
      innerName ∧
    ((evaluate (crates innerDocs) words (Host.memory none) (environment none)
        readInner.entity .empty (start innerDocs)).1.map
          (ComputeValue.outward (crates innerDocs))).map Outward.isEntity ≠
      ((handled (crates innerDocs) words (Host.memory none) (environment none)
        "system/compute/builtins/field".toList readInner.entity .empty (start innerDocs)).1.map
          (ComputeValue.outward (crates innerDocs))).map Outward.isEntity := by
  unfold Comparable
  decide +kernel

def innerForms : innerOfPair.Forms (crates innerDocs) where
  expression := readInner.entity
  expression_new := evaluated_inner.1.1.2.1
  expression_data := decodeData_doc evaluated_inner.1.1.1 (by simp [innerDocs])
  path := "system/compute/builtins/field".toList
  path_builtin := evaluated_inner.1.1.2.2.1
  steering := hashOf innerName
  distinct := evaluated_inner.1.1.2.2.2
  applied := applyInner.entity
  applied_type := rfl
  applied_data := decodeData_doc evaluated_inner.1.1.1 (by simp [innerDocs])
  literal := innerName.entity
  literal_type := rfl
  literal_data := decodeData_doc evaluated_inner.1.1.1 (by simp [innerDocs])

end ComputeSample

/-- The inline form yields the entity in the field, the handler form the bytes of its hash. -/
theorem handler_field_bare :
    (start innerDocs).resolve (Host.memory none) (environment none) innerForms.steering =
        some innerForms.literal ∧
      (evaluate (crates innerDocs) words (Host.memory none) (environment none)
        innerForms.expression .empty (start innerDocs)).2.Permitted ∧
      (evaluate (crates innerDocs) words (Host.memory none) (environment none)
        innerForms.applied .empty (start innerDocs)).2.Permitted ∧
      (handled (crates innerDocs) words (Host.memory none) (environment none) innerForms.path
        innerForms.expression .empty (start innerDocs)).2.Permitted ∧ ¬ Agree (crates innerDocs)
        (evaluate (crates innerDocs) words (Host.memory none) (environment none)
          innerForms.expression .empty (start innerDocs)).1
        (handled (crates innerDocs) words (Host.memory none) (environment none) innerForms.path
          innerForms.expression .empty (start innerDocs)).1 := by
  obtain ⟨⟨-,hliteral,hinline,happlied,hhandled⟩,hkind⟩ := evaluated_inner
  exact ⟨hliteral,hinline,happlied,hhandled,fun hagree =>
    hkind (congrArg (Option.map Outward.isEntity) hagree)⟩

end Compute
end EntityCore
