import EntityCore.ComputeEval
import EntityCore.Conformance
import EntityCore.TrieCanonical

/-! What the forms keep to. In a scope of a kind that binding untagged values stays in, a form
evaluates its sub-expressions and goes on in scopes of that kind; `fold` alone binds a value
as it finds it. A form breaks off at a division only. -/
namespace EntityCore
namespace Compute

open Ecf Program

/-- The scopes that sub-expressions are evaluated in. -/
def EvaluatesIn (sc : Scope → Prop) : Command → Prop
  | .evaluate _ scope => sc scope
  | _ => True

def EvalResult.ContinuesIn (sc : Scope → Prop) : EvalResult → Prop
  | .tailCall _ scope _ => sc scope
  | .value _ => True

/-- A kind of scope that holds the empty one and what untagged values are bound in. -/
structure BindsUntagged (sc : Scope → Prop) : Prop where
  empty : sc .empty
  insert : ∀ scope name v, sc scope → v.isUintTagged = false → sc (scope.insert name v)

/-- A kind of scope that any value may be bound in. -/
def BindsAny (sc : Scope → Prop) : Prop := ∀ scope name v, sc scope → sc (scope.insert name v)

theorem stripCastTag_untagged (v : ComputeValue) : (stripCastTag v).isUintTagged = false := by
  cases v <;> rfl

/-! The entities that are built and unwrapped. -/

section Built

variable {X : Platform} {faults : Prop} (hX : X.FormatAllocated ∨ faults)
include hX

theorem new_faults {entityType : Str} (htype : entityType ≠ []) (hpeer : entityType ≠ typePeer)
    (entries : List (Value × Value))
    (hnone : (Entity.new X entityType (toEcf (.map entries))).toOption = none) : faults := by
  rcases hX with hX | hfaults
  · obtain ⟨e,he⟩ := Entity.new_ok hX htype hpeer (toEcf_map_ne_nil entries)
    rw [he] at hnone
    cases hnone
  · exact hfaults

theorem errorEntity_faults (code : Str) (hnone : errorEntity X code = none) : faults :=
  new_faults hX (by decide) (by decide) _ hnone

theorem errorToEntity_faults (e : ComputeError) (hnone : e.toEntity X = none) : faults :=
  errorEntity_faults hX _ hnone

theorem closureToEntity_faults (c : ClosureValue) (hnone : c.toEntity X = none) : faults :=
  new_faults hX (by decide) (by decide) _ hnone

theorem materializeErrorValue_faults (e : Entity) (hnone : materializeErrorValue X e = none) :
    faults := errorEntity_faults hX _ hnone

end Built

section Forms

variable {X : Platform} {F : Runtime} {env : EvalEnv} {sc : Scope → Prop} {faults : Prop}

/-- A piece of the evaluator that is bound to the kind of scope. -/
abbrev Keeps {α : Type} (sc : Scope → Prop) (faults : Prop) (p : Eval α) : Prop :=
  p.Conforms (EvaluatesIn sc) faults fun _ => True

/-! Helpers. -/

theorem evaluateSub_conforms {scope : Scope} (hscope : sc scope) (e : Entity) :
    Keeps sc faults (evaluateSub e scope) := .perform hscope

theorem resolve_conforms (hash : Hash) : Keeps sc faults (resolve hash) := .perform trivial
theorem resolveScopeEntity_conforms (hash : Hash) : Keeps sc faults (resolveScopeEntity hash) :=
  .perform trivial
theorem keep_conforms (e : Entity) : Keeps sc faults (keep e) := .perform trivial
theorem referent_conforms (hash : Hash) : Keeps sc faults (referent hash) := .perform trivial
theorem contentGet_conforms (hash : Hash) : Keeps sc faults (contentGet hash) := .perform trivial
theorem contentPut_conforms (e : Entity) : Keeps sc faults (contentPut e) := .perform trivial
theorem manifestGet_conforms (key : Str) : Keeps sc faults (manifestGet key) := .perform trivial

theorem resolveOrError_conforms (hash : Hash) (label : String) :
    Keeps sc faults (resolveOrError hash label) :=
  (resolve_conforms hash).andAny fun _ => .orEarlyAny _ _

theorem consumed_conforms (v : ComputeValue) : Keeps sc faults (consumed v) := by
  unfold consumed
  split
  · trivial
  · trivial

theorem storeRef_conforms (e : Entity) : Keeps sc faults (storeRef e) :=
  (keep_conforms e).andAny fun _ => trivial

theorem bindResident_conforms (e : Entity) : Keeps sc faults (bindResident e) :=
  (contentPut_conforms e).andAny fun _ => trivial

section Built

variable (hX : X.FormatAllocated ∨ faults)
include hX

theorem storeError_conforms (e : ComputeError) :
    Keeps sc faults (expect (e.toEntity X) >>= storeRef) :=
  (Conforms.expect (errorToEntity_faults hX e) fun _ _ => trivial).andAny storeRef_conforms

theorem storeClosure_conforms (c : ClosureValue) :
    Keeps sc faults (expect (c.toEntity X) >>= storeRef) :=
  (Conforms.expect (closureToEntity_faults hX c) fun _ _ => trivial).andAny storeRef_conforms

theorem computeValueToCbor_conforms (v : ComputeValue) :
    Keeps sc faults (computeValueToCbor X v) := by
  cases v with
  | closure c =>
    exact (Conforms.expect (closureToEntity_faults hX c) fun _ _ => trivial).andAny fun _ => trivial
  | error e =>
    exact (Conforms.expect (errorToEntity_faults hX e) fun _ _ => trivial).andAny fun _ => trivial
  | _ => trivial

/-! Scopes. -/

theorem encodeScopeBinding_conforms (v : ComputeValue) :
    Keeps sc faults (encodeScopeBinding X v) := by
  cases v with
  | entity e => exact bindResident_conforms e
  | closure c =>
    exact (Conforms.expect (closureToEntity_faults hX c) fun _ _ => trivial).andAny
      bindResident_conforms
  | error e =>
    exact (Conforms.expect (errorToEntity_faults hX e) fun _ _ => trivial).andAny
      bindResident_conforms
  | _ => trivial

theorem captureScope_conforms (scope : Scope) : Keeps sc faults (captureScope X scope) := by
  unfold captureScope
  split
  · trivial
  · have hentry : ∀ b : Str × ComputeValue, Keeps sc faults (do
        return (Value.text b.1,← encodeScopeBinding X b.2)) :=
      fun b => (encodeScopeBinding_conforms hX b.2).andAny fun _ => trivial
    refine (Conforms.mapEach hentry _).weaken.andAny fun entries => ?_
    have hnew := new_faults hX (show typeScope ≠ [] by decide) (by decide)
      [entry "bindings" (.map entries)]
    exact (Conforms.expect hnew fun _ _ => trivial).andAny fun e =>
      (keep_conforms e).andAny fun _ => trivial

end Built

/-- A binding that is read back carries no tag. -/
theorem decodeScopeBinding_conforms (binding : Value) :
    (decodeScopeBinding X binding).Conforms (EvaluatesIn sc) faults
      fun v => v.isUintTagged = false := by
  refine (Conforms.orEarlyAny _ _).andAny fun kind => ?_
  split
  · refine (Conforms.orEarlyAny _ _).andAny fun bytes => (Conforms.orEarlyAny _ _).andAny fun hash =>
      (resolveScopeEntity_conforms hash).andAny fun found =>
        (Conforms.orEarlyAny _ _).andAny fun e => ?_
    split
    · rfl
    · rfl
  · split
    · exact (Conforms.orEarlyAny _ _).andAny fun _ => rfl
    · trivial

theorem loadScope_conforms (hsc : BindsUntagged sc) (envHash : Option Hash) :
    (loadScope X envHash).Conforms (EvaluatesIn sc) faults sc := by
  cases envHash with
  | none => exact hsc.empty
  | some hash =>
    refine (resolveScopeEntity_conforms hash).andAny fun found => ?_
    cases found with
    | none => exact hsc.empty
    | some e =>
      dsimp only
      split
      · refine .foldEach (fun scope kv hscope => ?_) _ _ hsc.empty
        unfold loadBinding
        split
        · exact hscope
        · exact (decodeScopeBinding_conforms kv.2).bind fun v hv => hsc.insert _ _ v hscope hv
      · exact hsc.empty

theorem inFlightField_conforms (hash : Hash) (name : Str) :
    Keeps sc faults (inFlightField hash name) := by
  have hcommand : Keeps sc faults (inFlight hash) := .perform trivial
  exact hcommand.andAny fun _ => trivial

theorem extractField_conforms (name : Str) (target : ComputeValue) :
    Keeps sc faults (extractField X name target) := by
  unfold extractField
  dsimp only
  split
  · exact (inFlightField_conforms _ _).andAny fun typed => by cases typed <;> trivial
  · split
    · exact (inFlightField_conforms _ _).andAny fun typed => by cases typed <;> trivial
    · trivial
  · trivial

/-! The inline forms. -/

theorem evalLambda_conforms (hX : X.FormatAllocated ∨ faults) (data : Value)
    (scope : Scope) : Keeps sc faults (evalLambda X data scope) :=
  (Conforms.orEarlyAny _ _).andAny fun _ => (Conforms.orEarlyAny _ _).andAny fun _ =>
    (captureScope_conforms hX scope).andAny fun _ => trivial

/-- The operands of an arithmetic expression, in the order they are evaluated. -/
def arithmeticOperands (data : Value) (scope : Scope) : Eval (Str × ComputeValue × ComputeValue) := do
  let op ← orEarly (dataStr data "op") (invalid "compute/arithmetic missing 'op'")
  let left ← operand data "left" "arithmetic left" scope
  let right ← operand data "right" "arithmetic right" scope
  return (op,left,right)

theorem evalArithmetic_eq (data : Value) (scope : Scope) : evalArithmetic F data scope = (do
    let operands ← arithmeticOperands data scope
    expect (applyArithmetic F operands.1 operands.2.1 operands.2.2)) := by
  unfold evalArithmetic arithmeticOperands
  simp only [bind_assoc,pure_bind]

section Scoped

variable {scope : Scope} (hscope : sc scope)
include hscope

theorem evalHashRef_conforms (data : Value) (key label : String) :
    Keeps sc faults (evalHashRef data key label scope) :=
  (Conforms.orEarlyAny _ _).andAny fun hash => (resolveOrError_conforms hash label).andAny
    fun target => evaluateSub_conforms hscope target

theorem operand_conforms (data : Value) (key label : String) :
    Keeps sc faults (operand data key label scope) :=
  (evalHashRef_conforms hscope data key label).andAny consumed_conforms

theorem evalIf_conforms (data : Value) :
    (evalIf data scope).Conforms (EvaluatesIn sc) faults (EvalResult.ContinuesIn sc) := by
  refine (Conforms.orEarlyAny _ _).andAny fun condHash => (resolveOrError_conforms condHash _).andAny
    fun target => (evaluateSub_conforms hscope target).andAny fun v => (consumed_conforms v).andAny
      fun condition => ?_
  split
  · exact (Conforms.orEarlyAny _ _).andAny fun hash => (resolveOrError_conforms hash _).andAny
      fun _ => hscope
  · split
    · exact (resolveOrError_conforms _ _).andAny fun _ => hscope
    · trivial

theorem evalLet_conforms (hsc : BindsUntagged sc) (data : Value) :
    (evalLet data scope).Conforms (EvaluatesIn sc) faults (EvalResult.ContinuesIn sc) := by
  refine (Conforms.orEarlyAny _ _).andAny fun bindings => (Conforms.orEarlyAny _ _).andAny
    fun bodyHash => (Conforms.foldEach (fun inner binding hinner => ?_) bindings scope hscope).bind
      fun newScope hnew => (resolveOrError_conforms bodyHash _).andAny fun _ => hnew
  exact (Conforms.orEarlyAny _ _).andAny fun name => (Conforms.orEarlyAny _ _).andAny fun bytes =>
    (Conforms.orEarlyAny _ _).andAny fun hash => (resolveOrError_conforms hash _).andAny fun target =>
      (evaluateSub_conforms hinner target).andAny fun v => (consumed_conforms v).andAny fun value =>
        hsc.insert _ _ _ hinner (stripCastTag_untagged value)

theorem evalLookupHash_conforms (data : Value) :
    (evalLookupHash data scope).Conforms (EvaluatesIn sc) faults (EvalResult.ContinuesIn sc) :=
  (Conforms.orEarlyAny _ _).andAny fun hash => (resolveOrError_conforms hash _).andAny fun _ => hscope

theorem evalLookupTree_conforms (data : Value) :
    (evalLookupTree env data scope).Conforms (EvaluatesIn sc) faults (EvalResult.ContinuesIn sc) := by
  refine (Conforms.orEarlyAny _ _).andAny fun path => ?_
  dsimp only
  generalize (if dataBool data "relative" = some true then
    resolveRelativePath env.subgraphRoot path else path) = resolvedPath
  cases env.capability with
  | none => trivial
  | some cap =>
    dsimp only
    split
    · trivial
    · have hdepend : Keeps sc faults (depend resolvedPath) := .perform trivial
      have hread : ∀ key, Keeps sc faults (treeGet resolvedPath key) := fun _ => .perform trivial
      have hmeet : ∀ hash, Keeps sc faults (meet hash) := fun _ => .perform trivial
      exact hdepend.andAny fun _ => (hread _).andAny fun _ => (Conforms.orEarlyAny _ _).andAny
        fun hash => (hmeet hash).andAny fun _ => (Conforms.orEarlyAny _ _).andAny fun _ => hscope

theorem arithmeticOperands_conforms (data : Value) :
    Keeps sc faults (arithmeticOperands data scope) :=
  (Conforms.orEarlyAny _ _).andAny fun _ => (operand_conforms hscope data _ _).andAny fun _ =>
    (operand_conforms hscope data _ _).andAny fun _ => trivial

theorem evalArithmetic_conforms (hfaults : faults) (data : Value) :
    Keeps sc faults (evalArithmetic F data scope) := by
  rw [evalArithmetic_eq]
  exact (arithmeticOperands_conforms hscope data).andAny fun _ =>
    .expect (fun _ => hfaults) fun _ _ => trivial

theorem evalCompare_conforms (data : Value) : Keeps sc faults (evalCompare F data scope) :=
  (Conforms.orEarlyAny _ _).andAny fun _ => (operand_conforms hscope data _ _).andAny fun _ =>
    (operand_conforms hscope data _ _).andAny fun _ => trivial

theorem evalLogic_conforms (data : Value) : Keeps sc faults (evalLogic data scope) := by
  refine (Conforms.orEarlyAny _ _).andAny fun op => (operand_conforms hscope data _ _).andAny
    fun left => ?_
  split
  · trivial
  · split
    · exact (operand_conforms hscope data _ _).andAny fun _ => trivial
    · split
      · exact (operand_conforms hscope data _ _).andAny fun _ => trivial
      · trivial

theorem evalNumericCast_conforms (data : Value) : Keeps sc faults (evalNumericCast F data scope) :=
  (Conforms.orEarlyAny _ _).andAny fun _ => (operand_conforms hscope data _ _).andAny fun _ => trivial

theorem evalField_conforms (data : Value) : Keeps sc faults (evalField X data scope) :=
  (Conforms.orEarlyAny _ _).andAny fun name => (operand_conforms hscope data _ _).andAny
    fun target => extractField_conforms name target

theorem evalIndex_conforms (data : Value) : Keeps sc faults (evalIndex data scope) := by
  refine (operand_conforms hscope data _ _).andAny fun _ => (operand_conforms hscope data _ _).andAny
    fun _ => (Conforms.orEarlyAny _ _).andAny fun items => (Conforms.orEarlyAny _ _).andAny fun idx => ?_
  split
  · trivial
  · exact (Conforms.orEarlyAny _ _).andAny fun _ => trivial

theorem evalLength_conforms (data : Value) : Keeps sc faults (evalLength data scope) :=
  (operand_conforms hscope data _ _).andAny fun _ => (Conforms.orEarlyAny _ _).andAny fun _ => trivial

theorem constructField_conforms (hX : X.FormatAllocated ∨ faults) (f : Str × Hash) :
    Keeps sc faults (constructField X scope f) := by
  have hbare : ∀ v, Keeps sc faults (encodeConstructFieldBare X v) := by
    intro v
    cases v with
    | entity e => exact storeRef_conforms e
    | closure c => exact storeClosure_conforms hX c
    | error e => exact storeError_conforms hX e
    | _ => trivial
  exact (resolveOrError_conforms f.2 _).andAny fun target => (evaluateSub_conforms hscope target).andAny
    fun v => (consumed_conforms v).andAny fun value => (hbare value).andAny fun _ => trivial

theorem evalConstruct_conforms (hX : X.FormatAllocated ∨ faults) (data : Value) :
    Keeps sc faults (evalConstruct X data scope) := by
  refine (Conforms.orEarlyAny _ _).andAny fun entityType => (Conforms.orEarlyAny _ _).andAny
    fun fields => (Conforms.mapEach (constructField_conforms hscope hX) _).weaken.andAny
      fun built => ?_
  split
  · trivial
  · have hrecord : ∀ hash fields, Keeps sc faults (recordConstructed hash fields) :=
      fun _ _ => .perform trivial
    exact (keep_conforms _).andAny fun _ => (hrecord _ _).andAny fun _ => trivial

/-! The builtins. -/

theorem resolveStringArg_conforms (args : Args) (key : String) :
    Keeps sc faults (resolveStringArg args key scope) := by
  unfold resolveStringArg
  split
  · trivial
  · refine (resolve_conforms _).andAny fun found => ?_
    cases found with
    | none => trivial
    | some target => exact (evaluateSub_conforms hscope target).andAny fun v =>
        (consumed_conforms v).andAny fun _ => trivial

theorem evalRef_conforms (data : Value) (key label : String) :
    Keeps sc faults (evalRef data key label scope) :=
  (Conforms.orEarlyAny _ _).andAny fun hash => (resolveOrError_conforms hash label).andAny
    fun target => evaluateSub_conforms hscope target

theorem consumedArg_conforms (data : Value) (key label : String) :
    Keeps sc faults (consumedArg data key label scope) :=
  (evalRef_conforms hscope data key label).andAny consumed_conforms

theorem consumedCollection_conforms (data : Value) (key label op : String) :
    Keeps sc faults (consumedCollection data key label op scope) :=
  (consumedArg_conforms hscope data key label).andAny fun _ => .orEarlyAny _ _

theorem evaluateAlias_conforms (form : Form) (label : String) (data : Value) :
    Keeps sc faults (evaluateAlias X form label data scope) :=
  (Conforms.orEarlyAny _ _).andAny fun e => evaluateSub_conforms hscope e

theorem aliasBinary_conforms (form : Form) (label : String) (args : Args) :
    Keeps sc faults (aliasBinary X form label args scope) :=
  (resolveStringArg_conforms hscope args _).andAny fun _ => (Conforms.orEarlyAny _ _).andAny fun _ =>
    (Conforms.orEarlyAny _ _).andAny fun _ => evaluateAlias_conforms hscope form label _

theorem aliasLogic_conforms (args : Args) : Keeps sc faults (aliasLogic X args scope) :=
  (resolveStringArg_conforms hscope args _).andAny fun _ => (Conforms.orEarlyAny _ _).andAny fun _ =>
    evaluateAlias_conforms hscope _ _ _

theorem aliasField_conforms (args : Args) : Keeps sc faults (aliasField X args scope) :=
  (resolveStringArg_conforms hscope args _).andAny fun _ => (Conforms.orEarlyAny _ _).andAny fun _ =>
    evaluateAlias_conforms hscope _ _ _

theorem aliasConstruct_conforms (args : Args) : Keeps sc faults (aliasConstruct X args scope) := by
  refine (resolveStringArg_conforms hscope args _).andAny fun entityType => ?_
  split
  · trivial
  · exact evaluateAlias_conforms hscope _ _ _

end Scoped

/-! Closures on values. -/

/-- The body of a closure is evaluated in the scope it was made in with its arguments bound. -/
theorem applyClosureBody_conforms (hsc : BindsUntagged sc) (closure : ClosureValue)
    {bindings : List (Str × ComputeValue)}
    (hbind : ∀ scope, sc scope → sc (bindings.foldl (fun m b => m.insert b.1 b.2) scope)) :
    Keeps sc faults (applyClosureBody X closure bindings) :=
  (loadScope_conforms hsc closure.env).bind fun scope hscope => (resolve_conforms _).andAny fun _ =>
    (Conforms.orEarlyAny _ _).andAny fun body => evaluateSub_conforms (hbind scope hscope) body

theorem applyClosureToValue_conforms (hsc : BindsUntagged sc) (closure : ClosureValue)
    (item : Value) : Keeps sc faults (applyClosureToValue X closure item) := by
  unfold applyClosureToValue
  split
  · refine (applyClosureBody_conforms hsc closure fun scope hscope => ?_).answer
    exact hsc.insert _ _ _ hscope rfl
  · trivial

/-- The first of two values is bound as it is. -/
theorem applyClosureToTwoValues_conforms (hsc : BindsUntagged sc) (closure : ClosureValue)
    {first : ComputeValue} (hfirst : BindsAny sc ∨ first.isUintTagged = false) (item : Value) :
    Keeps sc faults (applyClosureToTwoValues X closure first (.primitive item)) := by
  unfold applyClosureToTwoValues
  split
  · refine (applyClosureBody_conforms hsc closure fun scope hscope => ?_).answer
    refine hsc.insert _ _ _ ?_ rfl
    rcases hfirst with hany | huntagged
    · exact hany _ _ _ hscope
    · exact hsc.insert _ _ _ hscope huntagged
  · trivial

section Built

variable (hX : X.FormatAllocated ∨ faults)
include hX

theorem containedElement_conforms (v : ComputeValue) : Keeps sc faults (containedElement X v) := by
  cases v with
  | error e => exact storeError_conforms hX e
  | entity e =>
    show Keeps sc faults (if e.entityType = typeError then _ else _ : Eval Value)
    split
    · exact (Conforms.expect (materializeErrorValue_faults hX e) fun _ _ => trivial).andAny
        storeRef_conforms
    · exact storeRef_conforms e
  | closure c => exact storeClosure_conforms hX c
  | _ => trivial

theorem storedForm_conforms (v : ComputeValue) : Keeps sc faults (storedForm X v) := by
  cases v with
  | error e => exact .expect (errorToEntity_faults hX e) fun _ _ => trivial
  | entity e =>
    show Keeps sc faults (if e.entityType = typeError then _ else _ : Eval Entity)
    split
    · exact .expect (materializeErrorValue_faults hX e) fun _ _ => trivial
    · trivial
  | closure c => exact .expect (closureToEntity_faults hX c) fun _ _ => trivial
  | primitive v => exact .orEarlyAny _ _
  | uint u =>
    simp only [storedForm]
    generalize (Entity.new X "primitive/any".toList (toEcf (unsignedInteger u))).toOption = built
    exact .orEarlyAny _ _

end Built

theorem elementReferent_conforms (v : Value) : Keeps sc faults (elementReferent v) := by
  unfold elementReferent
  split
  · exact referent_conforms _
  · trivial

theorem elementTypeTag_conforms (v : Value) : Keeps sc faults (elementTypeTag v) := by
  cases v with
  | bytes b =>
    refine (elementReferent_conforms _).andAny fun found => ?_
    split
    · trivial
    · trivial
  | _ => trivial

theorem concatCollection_conforms (v : Value) : Keeps sc faults (concatCollection v) := by
  unfold concatCollection
  split
  · trivial
  · refine (elementReferent_conforms _).andAny fun found => ?_
    split
    · trivial
    · exact (elementTypeTag_conforms _).andAny fun _ => trivial

theorem concatElement_conforms (acc : Option Str × List Value) (element : Value) :
    Keeps sc faults (concatElement F acc element) := by
  have hisError : Keeps sc faults (elementIsError element) :=
    (elementReferent_conforms element).andAny fun _ => trivial
  refine hisError.andAny fun isError => ?_
  split
  · trivial
  · refine (elementTypeTag_conforms element).andAny fun tag => ?_
    split
    · trivial
    · trivial

/-! The collection builtins. -/

/-- Where a fold begins. -/
structure FoldStart where
  initial : ComputeValue
  items : List Value
  closure : ClosureValue

/-- What a fold does before its first callback. -/
def foldStart (X : Platform) (data : Value) (scope : Scope) : Eval FoldStart := do
  let (collection,fn) ← collectionAndClosure data "fold" scope
  let initial ← (evalRef data "initial" "fold initial" scope).answer
  if initial.isSharedResourceError X then .early initial
  else do
    let items ← arrayOf "fold" collection
    let closure ← closureOf X "fold" fn
    if closure.params.length ≠ 2 then
      .early (invalid "fold: fn must take 2 parameters (acc, item)")
    else return ⟨initial,items,closure⟩

/-- A callback of a fold. -/
def foldStep (X : Platform) (closure : ClosureValue) (acc : ComputeValue) (item : Value) :
    Eval ComputeValue := do
  let v ← applyClosureToTwoValues X closure acc (.primitive item)
  if v.isSharedResourceError X then .early v else return v

theorem dispatchFold_eq (data : Value) (scope : Scope) : dispatchFold X data scope = (do
    let start ← foldStart X data scope
    foldEach (foldStep X start.closure) start.initial start.items) := by
  unfold dispatchFold foldStart
  simp only [bind_assoc]
  refine bind_congr fun found => bind_congr fun initial => ?_
  by_cases hshared : initial.isSharedResourceError X = true
  · rw [if_pos hshared,if_pos hshared]
    rfl
  · rw [if_neg hshared,if_neg hshared]
    simp only [bind_assoc]
    refine bind_congr fun items => bind_congr fun closure => ?_
    by_cases hparams : closure.params.length ≠ 2
    · rw [if_pos hparams,if_pos hparams]
      rfl
    · rw [if_neg hparams,if_neg hparams,pure_bind]
      rfl

/-- Only the data that the arguments are read back as is dispatched. -/
theorem dispatchCollection_conforms (b : Builtin) {dispatch : Value → Scope → Eval ComputeValue}
    (args : Args) {scope : Scope} (hdispatch : ∀ data, (Entity.new X b.inputType
      (toEcf (.map (argsFields args)))).toOption.bind (decodeData X) = some data →
        Keeps sc faults (dispatch data scope)) :
    Keeps sc faults (dispatchCollection X b dispatch args scope) := by
  unfold dispatchCollection
  split
  · trivial
  · rename_i params hparams
    refine (@Conforms.orEarly _ _ _ _ _ _ (fun data => decodeData X params = some data) _ _
      fun _ h => h).bind fun data hdata => hdispatch data ?_
    rw [hparams]
    exact hdata

theorem resolveHandlerEntityInTree_conforms (prefixes : List Str) :
    Keeps sc faults (resolveHandlerEntityInTree prefixes) := by
  induction prefixes with
  | nil => trivial
  | cons pre shorter ih =>
    refine (manifestGet_conforms pre).andAny fun found => ?_
    cases found with
    | none => trivial
    | some hash =>
      refine (contentGet_conforms hash).andAny fun e => ?_
      split
      · trivial
      · exact ih

theorem resolveOperationInputType_conforms (path operation : Str) :
    Keeps sc faults (resolveOperationInputType X env path operation) := by
  refine (resolveHandlerEntityInTree_conforms _).andAny fun found => ?_
  cases found with
  | none => trivial
  | some handlerEntity =>
    dsimp only
    split
    · trivial
    · refine (manifestGet_conforms _).andAny fun found => ?_
      cases found with
      | none => trivial
      | some ifaceHash => exact (contentGet_conforms ifaceHash).andAny fun _ => trivial

/-- The arguments that an application of `fold` reads back. -/
def foldArgs (X : Platform) (data : Value) : Option Value := do
  let path ← dataStr data "path"
  let operation ← dataStr data "operation"
  if isBuiltinPath path && (dataHash data "capability").isNone && (dataHash data "resource").isNone &&
      operation = "eval".toList && (extractBareBuiltin path).bind Builtin.ofName = some .fold then
    (Entity.new X Builtin.fold.inputType
      (toEcf (.map (argsFields ((dataHashMap data "args").getD []))))).toOption.bind (decodeData X)
  else none

/-- The arguments of an expression that folds in place. -/
def foldCall (X : Platform) (e : Entity) : Option Value := do
  let data ← decodeData X e
  if Form.ofType e.entityType = some .apply && (data.get "fn".toList).isNone then foldArgs X data
  else none

section Collections

variable {scope : Scope} (hscope : sc scope)
include hscope

theorem collectionAndClosure_conforms (data : Value) (op : String) :
    Keeps sc faults (collectionAndClosure data op scope) :=
  (consumedArg_conforms hscope data _ _).andAny fun _ =>
    (consumedArg_conforms hscope data _ _).andAny fun _ => trivial

theorem dispatchMap_conforms (hX : X.FormatAllocated ∨ faults) (hsc : BindsUntagged sc)
    (data : Value) : Keeps sc faults (dispatchMap X data scope) := by
  refine (collectionAndClosure_conforms hscope data _).andAny fun found => (Conforms.orEarlyAny _ _).andAny
    fun items => (Conforms.orEarlyAny _ _).andAny fun closure =>
      (@Conforms.mapEach _ _ _ _ _ _ _ (fun _ => True) _ (fun item => ?_) _).weaken.andAny fun _ => trivial
  refine (applyClosureToValue_conforms hsc closure item).andAny fun v => ?_
  split
  · trivial
  · exact containedElement_conforms hX v

theorem dispatchFilter_conforms (hsc : BindsUntagged sc) (data : Value) :
    Keeps sc faults (dispatchFilter X data scope) := by
  refine (collectionAndClosure_conforms hscope data _).andAny fun found => (Conforms.orEarlyAny _ _).andAny
    fun items => (Conforms.orEarlyAny _ _).andAny fun closure =>
      (@Conforms.mapEach _ _ _ _ _ _ _ (fun _ => True) _ (fun item => ?_) _).weaken.andAny fun _ => trivial
  exact (applyClosureToValue_conforms hsc closure item).andAny fun v =>
    (consumed_conforms v).andAny fun _ => trivial

theorem dispatchRange_conforms (data : Value) : Keeps sc faults (dispatchRange data scope) := by
  refine (consumedArg_conforms hscope data _ _).andAny fun nVal => (Conforms.orEarlyAny _ _).andAny
    fun n => ?_
  split
  · trivial
  · have hcharge : Keeps sc faults (charge n.toNat) := .perform trivial
    refine hcharge.andAny fun paid => ?_
    split
    · trivial
    · trivial

theorem dispatchGroupBy_conforms (hX : X.FormatAllocated ∨ faults) (hsc : BindsUntagged sc)
    (data : Value) : Keeps sc faults (dispatchGroupBy X data scope) := by
  refine (consumedCollection_conforms hscope data _ _ _).andAny fun items =>
    (consumedArg_conforms hscope data _ _).andAny fun fn => (Conforms.orEarlyAny _ _).andAny
      fun closure => (@Conforms.foldEach _ _ _ _ _ _ _ (fun _ => True) _ (fun groups item _ => ?_) _ _
        trivial).andAny fun groups => (@Conforms.mapEach _ _ _ _ _ _ _ (fun _ => True) _ (fun g => ?_)
          _).weaken.andAny fun _ => trivial
  · exact (applyClosureToValue_conforms hsc closure item).andAny fun v => (consumed_conforms v).andAny
      fun key => (containedElement_conforms hX key).andAny fun _ => trivial
  · split
    · exact storeRef_conforms _
    · trivial

theorem dispatchConcat_conforms (data : Value) : Keeps sc faults (dispatchConcat F data scope) := by
  unfold dispatchConcat
  split
  · trivial
  · exact (consumedArg_conforms hscope data _ _).andAny fun _ => (Conforms.orEarlyAny _ _).andAny
      fun _ => (Conforms.mapEach concatCollection_conforms _).weaken.andAny fun _ =>
        (Conforms.foldEach (fun acc e _ => concatElement_conforms acc e) _ _ trivial).andAny
          fun _ => trivial

theorem dispatchAssoc_conforms (hX : X.FormatAllocated ∨ faults) (data : Value) :
    Keeps sc faults (dispatchAssoc X data scope) := by
  refine (consumedCollection_conforms hscope data _ _ _).andAny fun items =>
    (consumedArg_conforms hscope data _ _).andAny fun indexVal => (Conforms.orEarlyAny _ _).andAny
      fun idx => ?_
  split
  · trivial
  · exact (evalRef_conforms hscope data _ _).answer.andAny fun v =>
      (containedElement_conforms hX v).andAny fun _ => trivial

/-- `fold` stands before its first callback: the initial value, the closure and the items. -/
theorem foldStart_conforms (data : Value) : Keeps sc faults (foldStart X data scope) := by
  refine (collectionAndClosure_conforms hscope data _).andAny fun found =>
    (evalRef_conforms hscope data _ _).answer.andAny fun initial => ?_
  split
  · trivial
  · refine (Conforms.orEarlyAny _ _).andAny fun items => (Conforms.orEarlyAny _ _).andAny
      fun closure => ?_
    split
    · trivial
    · trivial

/-- `fold` binds its accumulators as they are. -/
theorem dispatchFold_conforms (hsc : BindsUntagged sc) (hany : BindsAny sc) (data : Value) :
    Keeps sc faults (dispatchFold X data scope) := by
  rw [dispatchFold_eq]
  refine (foldStart_conforms hscope data).andAny fun start =>
    .foldEach (fun acc item _ => ?_) _ _ trivial
  refine (applyClosureToTwoValues_conforms hsc start.closure (Or.inl hany) item).andAny fun v => ?_
  split
  · trivial
  · trivial

/-! The store builtin. -/

theorem dispatchStore_conforms (hX : X.FormatAllocated ∨ faults) (data : Value) :
    Keeps sc faults (dispatchStore X env data scope) := by
  refine (Conforms.orEarlyAny _ _).andAny fun path => ?_
  split
  · trivial
  · have hwrite : ∀ key hash, Keeps sc faults (treeSet path key hash) := fun _ _ => .perform trivial
    exact (Conforms.orEarlyAny _ _).andAny fun valueHash => (resolveOrError_conforms valueHash _).andAny
      fun e => (evaluateSub_conforms hscope e).andAny fun v => (storedForm_conforms hX v).andAny
        fun toStore => (contentPut_conforms toStore).andAny fun _ => (Conforms.orEarlyAny _ _).andAny
          fun hash => (hwrite _ hash).andAny fun _ => trivial

theorem aliasStore_conforms (hX : X.FormatAllocated ∨ faults) (args : Args) :
    Keeps sc faults (aliasStore X env args scope) := by
  refine (resolveStringArg_conforms hscope args _).andAny fun path => ?_
  split
  · trivial
  · exact (Conforms.orEarlyAny _ _).andAny fun _ => (Conforms.orEarlyAny _ _).andAny fun _ =>
      (Conforms.orEarlyAny _ _).andAny fun data => dispatchStore_conforms hscope hX data

/-! Dispatch. -/

theorem dispatch_conforms (hX : X.FormatAllocated ∨ faults) (hsc : BindsUntagged sc) (b : Builtin)
    (args : Args) (hfold : b = .fold → BindsAny sc ∨ (Entity.new X Builtin.fold.inputType
      (toEcf (.map (argsFields args)))).toOption.bind (decodeData X) = none) :
    Keeps sc faults (b.dispatch X F env args scope) := by
  cases b with
  | arithmetic => exact aliasBinary_conforms hscope .arithmetic "arithmetic" args
  | compare => exact aliasBinary_conforms hscope .compare "compare" args
  | logic => exact aliasLogic_conforms hscope args
  | field => exact aliasField_conforms hscope args
  | construct => exact aliasConstruct_conforms hscope args
  | store => exact aliasStore_conforms hscope hX args
  | map => exact dispatchCollection_conforms .map args fun data _ =>
      dispatchMap_conforms hscope hX hsc data
  | filter => exact dispatchCollection_conforms .filter args fun data _ =>
      dispatchFilter_conforms hscope hsc data
  | fold =>
    refine dispatchCollection_conforms .fold args fun data hdata => ?_
    rcases hfold rfl with hany | hnone
    · exact dispatchFold_conforms hscope hsc hany data
    · rw [hdata] at hnone
      cases hnone
  | range => exact dispatchCollection_conforms .range args fun data _ =>
      dispatchRange_conforms hscope data
  | groupBy => exact dispatchCollection_conforms .groupBy args fun data _ =>
      dispatchGroupBy_conforms hscope hX hsc data
  | concat => exact dispatchCollection_conforms .concat args fun data _ =>
      dispatchConcat_conforms hscope data
  | assoc => exact dispatchCollection_conforms .assoc args fun data _ =>
      dispatchAssoc_conforms hscope hX data

/-! Application. -/

theorem evalApplyClosure_conforms (hsc : BindsUntagged sc) (data : Value) :
    (evalApplyClosure X data scope).Conforms (EvaluatesIn sc) faults
      (EvalResult.ContinuesIn sc) := by
  have hclosure : ∀ v, Keeps sc faults (applicableClosure X v) := by
    intro v
    unfold applicableClosure
    split
    · trivial
    · split
      · exact .orEarlyAny _ _
      · trivial
    · trivial
  refine (Conforms.orEarlyAny _ _).andAny fun fnHash => (resolveOrError_conforms fnHash _).andAny
    fun target => (evaluateSub_conforms hscope target).andAny fun v => (consumed_conforms v).andAny
      fun fnValue => (hclosure fnValue).andAny fun closure =>
        (loadScope_conforms hsc closure.env).bind fun captured hcaptured =>
          (Conforms.foldEach (fun newScope param hnew => ?_) _ _ hcaptured).bind fun newScope hnew =>
            (resolveOrError_conforms closure.body _).andAny fun _ => hnew
  exact (Conforms.orEarlyAny _ _).andAny fun argHash => (resolveOrError_conforms argHash _).andAny
    fun target => (evaluateSub_conforms hscope target).andAny fun v => (consumed_conforms v).andAny
      fun value => hsc.insert _ _ _ hnew (stripCastTag_untagged value)

theorem resolveApplyCapability_conforms (capHash : Hash) (path operation : Str)
    (resource : Option ResourceTarget) :
    Keeps sc faults (resolveApplyCapability env capHash path operation resource scope) := by
  refine (resolveOrError_conforms capHash _).andAny fun capRef =>
    (evaluateSub_conforms hscope capRef).andAny fun v => ?_
  cases v with
  | entity e =>
    dsimp only
    cases env.capability with
    | none => trivial
    | some ctxCap =>
      dsimp only
      split
      · trivial
      · trivial
  | _ => trivial

theorem applyCapability_conforms (data : Value) (path operation : Str)
    (resource : Option ResourceTarget) :
    Keeps sc faults (applyCapability env data path operation resource scope) := by
  unfold applyCapability
  split
  · trivial
  · split
    · trivial
    · exact (resolveApplyCapability_conforms hscope _ path operation resource).andAny fun _ => trivial

theorem applyResource_conforms (data : Value) : Keeps sc faults (applyResource X data scope) := by
  have hresource : ∀ v, Keeps sc faults (resourceOfValue X v) := by
    intro v
    cases v with
    | primitive v => exact .orEarlyAny _ _
    | entity e =>
      unfold resourceOfValue
      dsimp only
      split
      · trivial
      · exact (Conforms.orEarlyAny _ _).andAny fun _ => .orEarlyAny _ _
    | _ => trivial
  unfold applyResource
  split
  · exact ((resolveOrError_conforms _ _).andAny fun e => (evaluateSub_conforms hscope e).andAny
      hresource).andAny fun _ => trivial
  · trivial

theorem dispatchHandler_conforms (hX : X.FormatAllocated ∨ faults) (data : Value)
    (path operation : Str) (args : Args) :
    Keeps sc faults (dispatchHandler X env data path operation args scope) := by
  have harg : ∀ arg, Keeps sc faults (resolveArg X scope arg) := fun arg =>
    (resolveOrError_conforms arg.2 _).andAny fun target => (evaluateSub_conforms hscope target).andAny
      fun v => (consumed_conforms v).andAny fun v => (computeValueToCbor_conforms hX v).andAny
        fun _ => trivial
  have hexecute : ∀ resource params capability,
      Keeps sc faults (execute path operation resource params capability) :=
    fun _ _ _ => .perform trivial
  exact (Conforms.mapEach harg _).weaken.andAny fun resolved => (applyResource_conforms hscope data).andAny
    fun resource => (applyCapability_conforms hscope data path operation resource).andAny
      fun capability => (resolveOperationInputType_conforms path operation).andAny fun declared =>
        (Conforms.orEarlyAny _ _).andAny fun params =>
          (hexecute resource params capability).andAny fun _ => .orEarlyAny _ _

/-- A handler is applied to arguments of its own, or a builtin is evaluated in place. -/
theorem evalApplyHandler_conforms (hX : X.FormatAllocated ∨ faults) (hsc : BindsUntagged sc)
    (data : Value) (hfold : BindsAny sc ∨ foldArgs X data = none) :
    Keeps sc faults (evalApplyHandler X F env data scope) := by
  refine (@Conforms.orEarly _ _ _ _ _ _ (fun path => dataStr data "path" = some path) _ _ fun _ h => h).bind
    fun path hpath => (@Conforms.orEarly _ _ _ _ _ _ (fun operation =>
      dataStr data "operation" = some operation) _ _ fun _ h => h).bind fun operation hoperation => ?_
  dsimp only
  split
  · rename_i hbuiltinPath
    split
    · trivial
    · rename_i hnone
      unfold dispatchBuiltinAlias
      split
      · rename_i builtin hbuiltin
        split at hbuiltin
        · cases hbuiltin
          trivial
        · rename_i hoperationEval
          obtain ⟨b,hb,rfl⟩ := Option.map_eq_some_iff.mp hbuiltin
          refine dispatch_conforms hscope hX hsc b _ fun hisFold => hfold.imp_right fun hargs => ?_
          subst hisFold
          simp only [Bool.or_eq_true,Option.isSome_iff_ne_none,not_or,not_not] at hnone
          simp only [ne_eq,not_not] at hoperationEval
          simpa [foldArgs,hpath,hoperation,hbuiltinPath,hnone.1,hnone.2,hoperationEval,hb] using hargs
      · exact dispatchHandler_conforms hscope hX data path operation _
  · exact dispatchHandler_conforms hscope hX data path operation _

theorem evalApply_conforms (hX : X.FormatAllocated ∨ faults) (hsc : BindsUntagged sc) (data : Value)
    (hfold : BindsAny sc ∨ (data.get "fn".toList).isSome ∨ foldArgs X data = none) :
    (evalApply X F env data scope).Conforms (EvaluatesIn sc) faults (EvalResult.ContinuesIn sc) := by
  unfold evalApply
  split
  · trivial
  · trivial
  · exact evalApplyClosure_conforms hscope hsc data
  · rename_i hfn
    have hargs : BindsAny sc ∨ foldArgs X data = none := by
      rw [hfn] at hfold
      simpa using hfold
    exact (evalApplyHandler_conforms hscope hX hsc data hargs).andAny fun _ => trivial

/-- Every form but a fold keeps to a kind of scope that untagged values are bound in, and every
form but arithmetic ends by itself. -/
theorem evaluateInner_conforms (hX : X.FormatAllocated ∨ faults) (hsc : BindsUntagged sc)
    (e : Entity) (hfold : BindsAny sc ∨ foldCall X e = none)
    (harithmetic : Form.ofType e.entityType = some .arithmetic → faults) :
    (evaluateInner X F env e scope).Conforms (EvaluatesIn sc) faults (EvalResult.ContinuesIn sc) := by
  refine (@Conforms.orEarly _ _ _ _ _ _ (fun data => decodeData X e = some data) _ _ fun _ h => h).bind
    fun data hdata => ?_
  split
  · rename_i form hform
    cases form with
    | literal => trivial
    | lookupScope => trivial
    | lookupTree => exact evalLookupTree_conforms hscope data
    | lookupHash => exact evalLookupHash_conforms hscope data
    | apply =>
      refine evalApply_conforms hscope hX hsc data (hfold.imp_right fun hcall => ?_)
      simpa [foldCall,hdata,hform,or_iff_not_imp_left] using hcall
    | «if» => exact evalIf_conforms hscope data
    | «let» => exact evalLet_conforms hscope hsc data
    | lambda => exact (evalLambda_conforms hX data scope).andAny fun _ => trivial
    | arithmetic => exact (evalArithmetic_conforms hscope (harithmetic hform) data).andAny fun _ => trivial
    | compare => exact (evalCompare_conforms hscope data).andAny fun _ => trivial
    | logic => exact (evalLogic_conforms hscope data).andAny fun _ => trivial
    | field => exact (evalField_conforms hscope data).andAny fun _ => trivial
    | construct => exact (evalConstruct_conforms hscope hX data).andAny fun _ => trivial
    | index => exact (evalIndex_conforms hscope data).andAny fun _ => trivial
    | length => exact (evalLength_conforms hscope data).andAny fun _ => trivial
    | numericCast => exact (evalNumericCast_conforms hscope data).andAny fun _ => trivial
  · trivial

end Collections

end Forms

end Compute
end EntityCore
