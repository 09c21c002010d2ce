import EntityCore.ComputeEval

/-! What the forms may ask of the context. Reads and writes of the tree and the dispatch to
handlers are asked for at three places only; every other form is covered by the rules of
composition. -/
namespace EntityCore
namespace Compute

open Ecf Program

/-- The checks that stand before a command. The write of `store` is checked where there is
a capability, a dispatch where the application names one. -/
def Guarded (env : EvalEnv) : Command → Prop
  | .treeGet path key => key = qualifyPath path env.localPeerId ∧
      ∃ cap, env.capability = some cap ∧ treePermission "get" path cap env.localPeerId
  | .treeSet path key _ => key = qualifyPath path env.localPeerId ∧
      ∀ cap, env.capability = some cap → treePermission "put" path cap env.localPeerId
  | .execute path operation resource _ capability => capability.isSome →
      ∃ cap, env.capability = some cap ∧ coversTarget env cap path operation resource
  | _ => True

section Forms

variable {X : Platform} {F : Runtime} {env : EvalEnv}

/-! Helpers. -/

theorem evaluateSub_guarded (e : Entity) (scope : Scope) :
    (evaluateSub e scope).All (Guarded env) := ⟨trivial,fun _ => trivial⟩

theorem resolve_guarded (hash : Hash) : (resolve hash).All (Guarded env) :=
  ⟨trivial,fun _ => trivial⟩

theorem resolveScopeEntity_guarded (hash : Hash) : (resolveScopeEntity hash).All (Guarded env) :=
  ⟨trivial,fun _ => trivial⟩

theorem meet_guarded (hash : Hash) : (meet hash).All (Guarded env) :=
  ⟨trivial,fun _ => trivial⟩

theorem referent_guarded (hash : Hash) : (referent hash).All (Guarded env) :=
  ⟨trivial,fun _ => trivial⟩

theorem contentGet_guarded (hash : Hash) : (contentGet hash).All (Guarded env) :=
  ⟨trivial,fun _ => trivial⟩

theorem contentPut_guarded (e : Entity) : (contentPut e).All (Guarded env) :=
  ⟨trivial,fun _ => trivial⟩

theorem manifestGet_guarded (path : Str) : (manifestGet path).All (Guarded env) :=
  ⟨trivial,fun _ => trivial⟩

theorem resolveOrError_guarded (hash : Hash) (label : String) :
    (resolveOrError hash label).All (Guarded env) :=
  (resolve_guarded hash).bind fun _ => all_orEarly _ _

theorem consumed_guarded (v : ComputeValue) : (consumed v).All (Guarded env) := by
  unfold consumed
  split <;> trivial

theorem evalHashRef_guarded (data : Value) (key label : String) (scope : Scope) :
    (evalHashRef data key label scope).All (Guarded env) :=
  (all_orEarly _ _).bind fun hash => (resolveOrError_guarded hash label).bind fun target =>
    evaluateSub_guarded target scope

theorem operand_guarded (data : Value) (key label : String) (scope : Scope) :
    (operand data key label scope).All (Guarded env) :=
  (evalHashRef_guarded data key label scope).bind consumed_guarded

theorem computeValueToCbor_guarded (v : ComputeValue) :
    (computeValueToCbor X v).All (Guarded env) := by
  cases v with
  | closure c => exact (all_expect _).bind fun _ => trivial
  | error e => exact (all_expect _).bind fun _ => trivial
  | _ => trivial

theorem keep_guarded (e : Entity) : (keep e).All (Guarded env) := ⟨trivial,fun _ => trivial⟩

theorem storeRef_guarded (e : Entity) : (storeRef e).All (Guarded env) :=
  (keep_guarded e).bind fun _ => trivial

/-! Scopes. -/

theorem bindResident_guarded (e : Entity) : (bindResident e).All (Guarded env) :=
  (contentPut_guarded e).bind fun _ => trivial

theorem encodeScopeBinding_guarded (v : ComputeValue) :
    (encodeScopeBinding X v).All (Guarded env) := by
  cases v with
  | entity e => exact bindResident_guarded e
  | closure c => exact (all_expect _).bind bindResident_guarded
  | error e => exact (all_expect _).bind bindResident_guarded
  | _ => trivial

theorem captureScope_guarded (scope : Scope) : (captureScope X scope).All (Guarded env) := by
  unfold captureScope
  split
  · trivial
  · refine .bind (.mapEach fun b => ?_) fun _ => (all_expect _).bind fun e =>
      (keep_guarded e).bind fun _ => trivial
    exact (encodeScopeBinding_guarded b.2).bind fun _ => trivial

theorem decodeScopeBinding_guarded (binding : Value) :
    (decodeScopeBinding X binding).All (Guarded env) := by
  refine (all_orEarly _ _).bind fun kind => ?_
  split
  · refine (all_orEarly _ _).bind fun bytes => (all_orEarly _ _).bind fun hash =>
      (resolveScopeEntity_guarded hash).bind fun found => (all_orEarly _ _).bind fun e => ?_
    split <;> trivial
  · split
    · exact (all_orEarly _ _).bind fun _ => trivial
    · trivial

theorem loadScope_guarded (envHash : Option Hash) : (loadScope X envHash).All (Guarded env) := by
  cases envHash with
  | none => trivial
  | some hash =>
    refine (resolveScopeEntity_guarded hash).bind fun found => ?_
    cases found with
    | none => trivial
    | some e =>
      dsimp only
      split
      · refine .foldEach (fun scope kv => ?_) _ _
        unfold loadBinding
        split
        · trivial
        · exact (decodeScopeBinding_guarded kv.2).bind fun _ => trivial
      · trivial

/-! The inline forms. -/

theorem evalIf_guarded (data : Value) (scope : Scope) : (evalIf data scope).All (Guarded env) := by
  refine (all_orEarly _ _).bind fun condHash => (resolveOrError_guarded condHash _).bind fun target =>
    (evaluateSub_guarded target scope).bind fun v => (consumed_guarded v).bind fun condition => ?_
  split
  · exact (all_orEarly _ _).bind fun hash => (resolveOrError_guarded hash _).bind fun _ => trivial
  · split
    · exact (resolveOrError_guarded _ _).bind fun _ => trivial
    · trivial

theorem evalLet_guarded (data : Value) (scope : Scope) :
    (evalLet data scope).All (Guarded env) := by
  refine (all_orEarly _ _).bind fun bindings => (all_orEarly _ _).bind fun bodyHash =>
    .bind (.foldEach (fun scope binding => ?_) _ _) fun newScope =>
      (resolveOrError_guarded bodyHash _).bind fun _ => trivial
  exact (all_orEarly _ _).bind fun name => (all_orEarly _ _).bind fun bytes =>
    (all_orEarly _ _).bind fun hash => (resolveOrError_guarded hash _).bind fun target =>
      (evaluateSub_guarded target scope).bind fun v => (consumed_guarded v).bind fun _ => trivial

theorem evalLambda_guarded (data : Value) (scope : Scope) :
    (evalLambda X data scope).All (Guarded env) :=
  (all_orEarly _ _).bind fun _ => (all_orEarly _ _).bind fun _ =>
    (captureScope_guarded scope).bind fun _ => trivial

theorem evalLookupHash_guarded (data : Value) (scope : Scope) :
    (evalLookupHash data scope).All (Guarded env) :=
  (all_orEarly _ _).bind fun hash => (resolveOrError_guarded hash _).bind fun _ => trivial

theorem evalArithmetic_guarded (data : Value) (scope : Scope) :
    (evalArithmetic F data scope).All (Guarded env) :=
  (all_orEarly _ _).bind fun _ => (operand_guarded data _ _ scope).bind fun _ =>
    (operand_guarded data _ _ scope).bind fun _ => all_expect _

theorem evalCompare_guarded (data : Value) (scope : Scope) :
    (evalCompare F data scope).All (Guarded env) :=
  (all_orEarly _ _).bind fun _ => (operand_guarded data _ _ scope).bind fun _ =>
    (operand_guarded data _ _ scope).bind fun _ => trivial

theorem evalLogic_guarded (data : Value) (scope : Scope) :
    (evalLogic data scope).All (Guarded env) := by
  refine (all_orEarly _ _).bind fun op => (operand_guarded data _ _ scope).bind fun left => ?_
  split
  · trivial
  · split
    · exact (operand_guarded data _ _ scope).bind fun _ => trivial
    · split
      · exact (operand_guarded data _ _ scope).bind fun _ => trivial
      · trivial

theorem evalNumericCast_guarded (data : Value) (scope : Scope) :
    (evalNumericCast F data scope).All (Guarded env) :=
  (all_orEarly _ _).bind fun _ => (operand_guarded data _ _ scope).bind fun _ => trivial

theorem inFlightField_guarded (hash : Hash) (name : Str) :
    (inFlightField hash name).All (Guarded env) := by
  have hcommand : (inFlight hash).All (Guarded env) := ⟨trivial,fun _ => trivial⟩
  exact hcommand.bind fun _ => trivial

theorem extractField_guarded (name : Str) (target : ComputeValue) :
    (extractField X name target).All (Guarded env) := by
  unfold extractField
  dsimp only
  split
  · exact (inFlightField_guarded _ _).bind fun typed => by cases typed <;> trivial
  · split
    · exact (inFlightField_guarded _ _).bind fun typed => by cases typed <;> trivial
    · trivial
  · trivial

theorem evalField_guarded (data : Value) (scope : Scope) :
    (evalField X data scope).All (Guarded env) :=
  (all_orEarly _ _).bind fun name => (operand_guarded data _ _ scope).bind fun target =>
    extractField_guarded name target

theorem evalIndex_guarded (data : Value) (scope : Scope) :
    (evalIndex data scope).All (Guarded env) := by
  refine (operand_guarded data _ _ scope).bind fun _ => (operand_guarded data _ _ scope).bind fun _ =>
    (all_orEarly _ _).bind fun items => (all_orEarly _ _).bind fun idx => ?_
  split
  · trivial
  · exact (all_orEarly _ _).bind fun _ => trivial

theorem evalLength_guarded (data : Value) (scope : Scope) :
    (evalLength data scope).All (Guarded env) :=
  (operand_guarded data _ _ scope).bind fun _ => (all_orEarly _ _).bind fun _ => trivial

theorem constructField_guarded (scope : Scope) (f : Str × Hash) :
    (constructField X scope f).All (Guarded env) := by
  refine (resolveOrError_guarded f.2 _).bind fun target => (evaluateSub_guarded target scope).bind
    fun v => (consumed_guarded v).bind fun value => .bind ?_ fun _ => trivial
  cases value with
  | entity e => exact storeRef_guarded e
  | closure c => exact (all_expect _).bind storeRef_guarded
  | error e => exact (all_expect _).bind storeRef_guarded
  | _ => trivial

theorem evalConstruct_guarded (data : Value) (scope : Scope) :
    (evalConstruct X data scope).All (Guarded env) := by
  refine (all_orEarly _ _).bind fun entityType => (all_orEarly _ _).bind fun fields =>
    .bind (.mapEach (constructField_guarded scope)) fun built => ?_
  split
  · trivial
  · have hrecord : ∀ hash fields, (recordConstructed hash fields).All (Guarded env) :=
      fun _ _ => ⟨trivial,fun _ => trivial⟩
    exact (keep_guarded _).bind fun _ => (hrecord _ _).bind fun _ => trivial

/-- The read of a tree lookup follows the check of its path. -/
theorem evalLookupTree_guarded (data : Value) (scope : Scope) :
    (evalLookupTree env data scope).All (Guarded env) := by
  refine (all_orEarly _ _).bind fun path => ?_
  dsimp only
  generalize (if dataBool data "relative" = some true then
    resolveRelativePath env.subgraphRoot path else path) = resolvedPath
  cases hcap : env.capability with
  | none => trivial
  | some cap =>
    dsimp only
    split
    · trivial
    · rename_i hdenied
      have hread : (treeGet resolvedPath (qualifyPath resolvedPath env.localPeerId)).All
          (Guarded env) := ⟨⟨rfl,cap,hcap,by simpa using hdenied⟩,fun _ => trivial⟩
      have hdepend : (depend resolvedPath).All (Guarded env) := ⟨trivial,fun _ => trivial⟩
      exact hdepend.bind fun _ => hread.bind fun _ => (all_orEarly _ _).bind fun hash =>
        (meet_guarded hash).bind fun _ => (all_orEarly _ _).bind fun _ => trivial

/-! The builtins. -/

theorem resolveStringArg_guarded (args : Args) (key : String) (scope : Scope) :
    (resolveStringArg args key scope).All (Guarded env) := by
  unfold resolveStringArg
  split
  · trivial
  · refine (resolve_guarded _).bind fun found => ?_
    cases found with
    | none => trivial
    | some target => exact (evaluateSub_guarded target scope).bind fun v =>
        (consumed_guarded v).bind fun _ => trivial

theorem evalRef_guarded (data : Value) (key label : String) (scope : Scope) :
    (evalRef data key label scope).All (Guarded env) :=
  (all_orEarly _ _).bind fun hash => (resolveOrError_guarded hash label).bind fun target =>
    evaluateSub_guarded target scope

theorem consumedArg_guarded (data : Value) (key label : String) (scope : Scope) :
    (consumedArg data key label scope).All (Guarded env) :=
  (evalRef_guarded data key label scope).bind consumed_guarded

theorem consumedCollection_guarded (data : Value) (key label op : String) (scope : Scope) :
    (consumedCollection data key label op scope).All (Guarded env) :=
  (consumedArg_guarded data key label scope).bind fun _ => all_orEarly _ _

theorem evaluateAlias_guarded (form : Form) (label : String) (data : Value) (scope : Scope) :
    (evaluateAlias X form label data scope).All (Guarded env) :=
  (all_orEarly _ _).bind fun e => evaluateSub_guarded e scope

theorem aliasBinary_guarded (form : Form) (label : String) (args : Args) (scope : Scope) :
    (aliasBinary X form label args scope).All (Guarded env) :=
  (resolveStringArg_guarded args _ scope).bind fun _ => (all_orEarly _ _).bind fun _ =>
    (all_orEarly _ _).bind fun _ => evaluateAlias_guarded form label _ scope

theorem aliasLogic_guarded (args : Args) (scope : Scope) :
    (aliasLogic X args scope).All (Guarded env) :=
  (resolveStringArg_guarded args _ scope).bind fun _ => (all_orEarly _ _).bind fun _ =>
    evaluateAlias_guarded _ _ _ scope

theorem aliasField_guarded (args : Args) (scope : Scope) :
    (aliasField X args scope).All (Guarded env) :=
  (resolveStringArg_guarded args _ scope).bind fun _ => (all_orEarly _ _).bind fun _ =>
    evaluateAlias_guarded _ _ _ scope

theorem aliasConstruct_guarded (args : Args) (scope : Scope) :
    (aliasConstruct X args scope).All (Guarded env) := by
  refine (resolveStringArg_guarded args _ scope).bind fun entityType => ?_
  split
  · trivial
  · exact evaluateAlias_guarded _ _ _ scope

theorem applyClosureBody_guarded (closure : ClosureValue) (bindings : List (Str × ComputeValue)) :
    (applyClosureBody X closure bindings).All (Guarded env) :=
  (loadScope_guarded closure.env).bind fun _ => (resolve_guarded _).bind fun _ =>
    (all_orEarly _ _).bind fun body => evaluateSub_guarded body _

theorem applyClosureToValue_guarded (closure : ClosureValue) (item : Value) :
    (applyClosureToValue X closure item).All (Guarded env) := by
  unfold applyClosureToValue
  split
  · exact (applyClosureBody_guarded closure _).answer
  · trivial

theorem applyClosureToTwoValues_guarded (closure : ClosureValue) (first second : ComputeValue) :
    (applyClosureToTwoValues X closure first second).All (Guarded env) := by
  unfold applyClosureToTwoValues
  split
  · exact (applyClosureBody_guarded closure _).answer
  · trivial

theorem containedElement_guarded (v : ComputeValue) : (containedElement X v).All (Guarded env) := by
  cases v with
  | error e => exact (all_expect _).bind storeRef_guarded
  | entity e =>
    show (if e.entityType = typeError then _ else _ : Eval Value).All (Guarded env)
    split
    · exact (all_expect _).bind storeRef_guarded
    · exact storeRef_guarded e
  | closure c => exact (all_expect _).bind storeRef_guarded
  | _ => trivial

theorem elementReferent_guarded (v : Value) : (elementReferent v).All (Guarded env) := by
  unfold elementReferent
  split
  · exact referent_guarded _
  · trivial

theorem elementTypeTag_guarded (v : Value) : (elementTypeTag v).All (Guarded env) := by
  cases v with
  | bytes b =>
    refine (elementReferent_guarded (.bytes b)).bind fun found => ?_
    cases found <;> trivial
  | _ => trivial

theorem collectionAndClosure_guarded (data : Value) (op : String) (scope : Scope) :
    (collectionAndClosure data op scope).All (Guarded env) :=
  (consumedArg_guarded data _ _ scope).bind fun _ =>
    (consumedArg_guarded data _ _ scope).bind fun _ => trivial

theorem dispatchMap_guarded (data : Value) (scope : Scope) :
    (dispatchMap X data scope).All (Guarded env) := by
  refine (collectionAndClosure_guarded data _ scope).bind fun found => (all_orEarly _ _).bind
    fun items => (all_orEarly _ _).bind fun closure => .bind (.mapEach fun item => ?_) fun _ => trivial
  refine (applyClosureToValue_guarded closure item).bind fun v => ?_
  split
  · trivial
  · exact containedElement_guarded v

theorem dispatchFilter_guarded (data : Value) (scope : Scope) :
    (dispatchFilter X data scope).All (Guarded env) := by
  refine (collectionAndClosure_guarded data _ scope).bind fun found => (all_orEarly _ _).bind
    fun items => (all_orEarly _ _).bind fun closure => .bind (.mapEach fun item => ?_) fun _ => trivial
  exact (applyClosureToValue_guarded closure item).bind fun v =>
    (consumed_guarded v).bind fun _ => trivial

theorem dispatchFold_guarded (data : Value) (scope : Scope) :
    (dispatchFold X data scope).All (Guarded env) := by
  refine (collectionAndClosure_guarded data _ scope).bind fun found =>
    (evalRef_guarded data _ _ scope).answer.bind fun initial => ?_
  split
  · trivial
  · refine (all_orEarly _ _).bind fun items => (all_orEarly _ _).bind fun closure => ?_
    split
    · trivial
    · refine .foldEach (fun acc item => ?_) _ _
      refine (applyClosureToTwoValues_guarded closure acc _).bind fun v => ?_
      split <;> trivial

theorem dispatchRange_guarded (data : Value) (scope : Scope) :
    (dispatchRange data scope).All (Guarded env) := by
  refine (consumedArg_guarded data _ _ scope).bind fun nVal => (all_orEarly _ _).bind fun n => ?_
  split
  · trivial
  · have hcharge : (charge n.toNat).All (Guarded env) := ⟨trivial,fun _ => trivial⟩
    refine hcharge.bind fun paid => ?_
    split <;> trivial

theorem dispatchGroupBy_guarded (data : Value) (scope : Scope) :
    (dispatchGroupBy X data scope).All (Guarded env) := by
  refine (consumedCollection_guarded data _ _ _ scope).bind fun items =>
    (consumedArg_guarded data _ _ scope).bind fun fn => (all_orEarly _ _).bind fun closure =>
      .bind (.foldEach (fun groups item => ?_) _ _) fun groups =>
        .bind (.mapEach fun g => ?_) fun _ => trivial
  · exact (applyClosureToValue_guarded closure item).bind fun v => (consumed_guarded v).bind
      fun key => (containedElement_guarded key).bind fun _ => trivial
  · split
    · exact storeRef_guarded _
    · trivial

theorem concatCollection_guarded (v : Value) : (concatCollection v).All (Guarded env) := by
  unfold concatCollection
  split
  · trivial
  · refine (elementReferent_guarded _).bind fun found => ?_
    split
    · trivial
    · exact (elementTypeTag_guarded _).bind fun _ => trivial

theorem concatElement_guarded (acc : Option Str × List Value) (element : Value) :
    (concatElement F acc element).All (Guarded env) := by
  have hisError : (elementIsError element).All (Guarded env) :=
    (elementReferent_guarded element).bind fun _ => trivial
  refine hisError.bind fun isError => ?_
  split
  · trivial
  · refine (elementTypeTag_guarded element).bind fun tag => ?_
    split <;> trivial

theorem dispatchConcat_guarded (data : Value) (scope : Scope) :
    (dispatchConcat F data scope).All (Guarded env) := by
  unfold dispatchConcat
  split
  · trivial
  · exact (consumedArg_guarded data _ _ scope).bind fun _ => (all_orEarly _ _).bind fun _ =>
      .bind (.mapEach concatCollection_guarded) fun _ =>
        .bind (.foldEach concatElement_guarded _ _) fun _ => trivial

theorem dispatchAssoc_guarded (data : Value) (scope : Scope) :
    (dispatchAssoc X data scope).All (Guarded env) := by
  refine (consumedCollection_guarded data _ _ _ scope).bind fun items =>
    (consumedArg_guarded data _ _ scope).bind fun indexVal => (all_orEarly _ _).bind fun idx => ?_
  split
  · trivial
  · exact (evalRef_guarded data _ _ scope).answer.bind fun v =>
      (containedElement_guarded v).bind fun _ => trivial

theorem storedForm_guarded (v : ComputeValue) : (storedForm X v).All (Guarded env) := by
  cases v with
  | error e => exact all_expect _
  | entity e =>
    show (if e.entityType = typeError then _ else _ : Eval Entity).All (Guarded env)
    split
    · exact all_expect _
    · trivial
  | closure c => exact all_expect _
  | primitive v => simp [storedForm]
  | uint u => simp [storedForm]

/-- The write of `store` follows the check of its path, where there is a capability. -/
theorem dispatchStore_guarded (data : Value) (scope : Scope) :
    (dispatchStore X env data scope).All (Guarded env) := by
  refine (all_orEarly _ _).bind fun path => ?_
  split
  · trivial
  · rename_i hdenied
    have hwrite : ∀ hash, (treeSet path (qualifyPath path env.localPeerId) hash).All
        (Guarded env) := by
      intro hash
      refine ⟨⟨rfl,fun cap hcap => ?_⟩,fun _ => trivial⟩
      by_contra hno
      exact hdenied (by simp [hcap,hno])
    exact (all_orEarly _ _).bind fun valueHash => (resolveOrError_guarded valueHash _).bind
      fun e => (evaluateSub_guarded e scope).bind fun v => (storedForm_guarded v).bind
        fun toStore => (contentPut_guarded toStore).bind fun _ => (all_orEarly _ _).bind
          fun hash => (hwrite hash).bind fun _ => trivial

theorem aliasStore_guarded (args : Args) (scope : Scope) :
    (aliasStore X env args scope).All (Guarded env) := by
  refine (resolveStringArg_guarded args _ scope).bind fun path => ?_
  split
  · trivial
  · exact (all_orEarly _ _).bind fun _ => (all_orEarly _ _).bind fun _ =>
      (all_orEarly _ _).bind fun data => dispatchStore_guarded data scope

theorem dispatchCollection_guarded (b : Builtin) {dispatch : Value → Scope → Eval ComputeValue}
    (hdispatch : ∀ data scope, (dispatch data scope).All (Guarded env)) (args : Args)
    (scope : Scope) : (dispatchCollection X b dispatch args scope).All (Guarded env) := by
  unfold dispatchCollection
  split
  · trivial
  · exact (all_orEarly _ _).bind fun data => hdispatch data scope

theorem dispatch_guarded (b : Builtin) (args : Args) (scope : Scope) :
    (b.dispatch X F env args scope).All (Guarded env) := by
  cases b with
  | arithmetic => exact aliasBinary_guarded .arithmetic "arithmetic" args scope
  | compare => exact aliasBinary_guarded .compare "compare" args scope
  | logic => exact aliasLogic_guarded args scope
  | field => exact aliasField_guarded args scope
  | construct => exact aliasConstruct_guarded args scope
  | store => exact aliasStore_guarded args scope
  | map => exact dispatchCollection_guarded .map dispatchMap_guarded args scope
  | filter => exact dispatchCollection_guarded .filter dispatchFilter_guarded args scope
  | fold => exact dispatchCollection_guarded .fold dispatchFold_guarded args scope
  | range => exact dispatchCollection_guarded .range dispatchRange_guarded args scope
  | groupBy => exact dispatchCollection_guarded .groupBy dispatchGroupBy_guarded args scope
  | concat => exact dispatchCollection_guarded .concat dispatchConcat_guarded args scope
  | assoc => exact dispatchCollection_guarded .assoc dispatchAssoc_guarded args scope

/-! Application. -/

theorem evalApplyClosure_guarded (data : Value) (scope : Scope) :
    (evalApplyClosure X data scope).All (Guarded env) := by
  have hclosure : ∀ v, (applicableClosure X v).All (Guarded env) := by
    intro v
    unfold applicableClosure
    split
    · trivial
    · split
      · exact all_orEarly _ _
      · trivial
    · trivial
  refine (all_orEarly _ _).bind fun fnHash => (resolveOrError_guarded fnHash _).bind fun target =>
    (evaluateSub_guarded target scope).bind fun v => (consumed_guarded v).bind fun fnValue =>
      (hclosure fnValue).bind fun closure => (loadScope_guarded closure.env).bind fun captured =>
        .bind (.foldEach (fun newScope param => ?_) _ _) fun newScope =>
          (resolveOrError_guarded closure.body _).bind fun _ => trivial
  exact (all_orEarly _ _).bind fun argHash => (resolveOrError_guarded argHash _).bind fun target =>
    (evaluateSub_guarded target scope).bind fun v => (consumed_guarded v).bind fun _ => trivial

theorem resolveHandlerEntityInTree_guarded (prefixes : List Str) :
    (resolveHandlerEntityInTree prefixes).All (Guarded env) := by
  induction prefixes with
  | nil => trivial
  | cons pre shorter ih =>
    refine (manifestGet_guarded pre).bind fun found => ?_
    cases found with
    | none => trivial
    | some hash =>
      refine (contentGet_guarded hash).bind fun e => ?_
      split
      · trivial
      · exact ih

theorem resolveOperationInputType_guarded (path operation : Str) :
    (resolveOperationInputType X env path operation).All (Guarded env) := by
  refine (resolveHandlerEntityInTree_guarded _).bind fun found => ?_
  cases found with
  | none => trivial
  | some handlerEntity =>
    dsimp only
    split
    · trivial
    · refine (manifestGet_guarded _).bind fun found => ?_
      cases found with
      | none => trivial
      | some ifaceHash => exact (contentGet_guarded ifaceHash).bind fun _ => trivial

theorem resourceOfValue_guarded (v : ComputeValue) : (resourceOfValue X v).All (Guarded env) := by
  cases v with
  | primitive v => exact all_orEarly _ _
  | entity e =>
    unfold resourceOfValue
    dsimp only
    split
    · trivial
    · exact (all_orEarly _ _).bind fun _ => all_orEarly _ _
  | _ => trivial

theorem resolveApplyCapability_guarded (capHash : Hash) (path operation : Str)
    (resource : Option ResourceTarget) (scope : Scope) :
    (resolveApplyCapability env capHash path operation resource scope).All (Guarded env) := by
  refine (resolveOrError_guarded capHash _).bind fun capRef =>
    (evaluateSub_guarded capRef scope).bind fun v => ?_
  cases v with
  | entity e =>
    dsimp only
    cases env.capability with
    | none => trivial
    | some ctxCap =>
      dsimp only
      split <;> trivial
  | _ => trivial

/-- The capability of an application is taken only where the evaluation's own covers the
target. -/
theorem resolveApplyCapability_ends (capHash : Hash) (path operation : Str)
    (resource : Option ResourceTarget) (scope : Scope) :
    (resolveApplyCapability env capHash path operation resource scope).Ends fun _ =>
      ∃ cap, env.capability = some cap ∧ coversTarget env cap path operation resource := by
  refine .bind _ fun capRef => .bind _ fun v => ?_
  cases v with
  | entity e =>
    dsimp only
    cases hcap : env.capability with
    | none => trivial
    | some cap =>
      dsimp only
      split
      · trivial
      · rename_i hcovers
        exact ⟨cap,rfl,by simpa using hcovers⟩
  | _ => trivial

theorem applyCapability_guarded (data : Value) (path operation : Str)
    (resource : Option ResourceTarget) (scope : Scope) :
    (applyCapability env data path operation resource scope).All (Guarded env) := by
  unfold applyCapability
  split
  · trivial
  · split
    · trivial
    · exact (resolveApplyCapability_guarded _ path operation resource scope).bind fun _ => trivial

theorem applyCapability_ends (data : Value) (path operation : Str)
    (resource : Option ResourceTarget) (scope : Scope) :
    (applyCapability env data path operation resource scope).Ends fun capability =>
      capability.isSome →
        ∃ cap, env.capability = some cap ∧ coversTarget env cap path operation resource := by
  unfold applyCapability
  split
  · exact fun h => absurd h (by simp)
  · split
    · trivial
    · exact (resolveApplyCapability_ends _ path operation resource scope).map fun h _ => h

theorem dispatchHandler_guarded (data : Value) (path operation : Str) (args : Args) (scope : Scope) :
    (dispatchHandler X env data path operation args scope).All (Guarded env) := by
  have harg : ∀ arg, (resolveArg X scope arg).All (Guarded env) := fun arg =>
    (resolveOrError_guarded arg.2 _).bind fun target => (evaluateSub_guarded target scope).bind
      fun v => (consumed_guarded v).bind fun v => (computeValueToCbor_guarded v).bind fun _ => trivial
  have hresource : (applyResource X data scope).All (Guarded env) := by
    unfold applyResource
    split
    · exact ((resolveOrError_guarded _ _).bind fun e => (evaluateSub_guarded e scope).bind
        resourceOfValue_guarded).bind fun _ => trivial
    · trivial
  have hexecute : ∀ resource params (capability : Option Entity), (capability.isSome →
      ∃ cap, env.capability = some cap ∧ coversTarget env cap path operation resource) →
      (execute path operation resource params capability).All (Guarded env) :=
    fun _ _ _ hcapability => ⟨hcapability,fun _ => trivial⟩
  exact .bind (.mapEach harg) fun resolved => hresource.bind fun resource =>
    (applyCapability_guarded data path operation resource scope).bind_of_ends
      (applyCapability_ends data path operation resource scope) fun capability hcapability =>
        (resolveOperationInputType_guarded path operation).bind fun declared =>
          (all_orEarly _ _).bind fun params =>
            (hexecute resource params capability hcapability).bind fun _ => all_orEarly _ _

theorem evalApplyHandler_guarded (data : Value) (scope : Scope) :
    (evalApplyHandler X F env data scope).All (Guarded env) := by
  refine (all_orEarly _ _).bind fun path => (all_orEarly _ _).bind fun operation => ?_
  dsimp only
  split
  · split
    · trivial
    · unfold dispatchBuiltinAlias
      split
      · rename_i builtin hbuiltin
        split at hbuiltin
        · cases hbuiltin
          trivial
        · obtain ⟨b,-,rfl⟩ := Option.map_eq_some_iff.mp hbuiltin
          exact dispatch_guarded b _ scope
      · exact dispatchHandler_guarded data path operation _ scope
  · exact dispatchHandler_guarded data path operation _ scope

theorem evalApply_guarded (data : Value) (scope : Scope) :
    (evalApply X F env data scope).All (Guarded env) := by
  unfold evalApply
  split
  · trivial
  · trivial
  · exact evalApplyClosure_guarded data scope
  · exact (evalApplyHandler_guarded data scope).bind fun _ => trivial

theorem evaluateInner_guarded (e : Entity) (scope : Scope) :
    (evaluateInner X F env e scope).All (Guarded env) := by
  refine (all_orEarly _ _).bind fun data => ?_
  split
  · rename_i form hform
    cases form with
    | literal => trivial
    | lookupScope => trivial
    | lookupTree => exact evalLookupTree_guarded data scope
    | lookupHash => exact evalLookupHash_guarded data scope
    | apply => exact evalApply_guarded data scope
    | «if» => exact evalIf_guarded data scope
    | «let» => exact evalLet_guarded data scope
    | lambda => exact (evalLambda_guarded data scope).bind fun _ => trivial
    | arithmetic => exact (evalArithmetic_guarded data scope).bind fun _ => trivial
    | compare => exact (evalCompare_guarded data scope).bind fun _ => trivial
    | logic => exact (evalLogic_guarded data scope).bind fun _ => trivial
    | field => exact (evalField_guarded data scope).bind fun _ => trivial
    | construct => exact (evalConstruct_guarded data scope).bind fun _ => trivial
    | index => exact (evalIndex_guarded data scope).bind fun _ => trivial
    | length => exact (evalLength_guarded data scope).bind fun _ => trivial
    | numericCast => exact (evalNumericCast_guarded data scope).bind fun _ => trivial
  · trivial

end Forms

/-! The log of a guarded evaluation. -/

/-- The check that stood before what an evaluation did. -/
def Checked (env : EvalEnv) : Event → Prop
  | .read path key => key = qualifyPath path env.localPeerId ∧
      ∃ cap, env.capability = some cap ∧ treePermission "get" path cap env.localPeerId
  | .wrote path key => key = qualifyPath path env.localPeerId ∧
      ∀ cap, env.capability = some cap → treePermission "put" path cap env.localPeerId
  | .executed path operation resource _ capability => capability.isSome →
      ∃ cap, env.capability = some cap ∧ coversTarget env cap path operation resource
  | _ => True

section Log

variable {W : Type} {host : Host W} {env : EvalEnv}

theorem commands_checked :
    CommandsKeep host env (Guarded env) fun s => ∀ e ∈ s.log, Checked env e := by
  have hadd : ∀ (event : Event) (log : List Event), Checked env event →
      (∀ e ∈ log, Checked env e) → ∀ e ∈ event::log, Checked env e :=
    fun event log hevent hlog => List.forall_mem_cons.mpr ⟨hevent,hlog⟩
  refine .of_log (fun c event log hgood hevent => hadd event log ?_) (fun log => hadd _ log trivial)
    (fun log => hadd _ log trivial)
  cases c with
  | evaluate e scope => cases hevent
  | recordConstructed hash fields => cases hevent
  | depend path => cases hevent
  | treeGet path key =>
    cases hevent
    exact hgood
  | treeSet path key hash =>
    cases hevent
    exact hgood
  | execute path operation resource params capability =>
    cases hevent
    exact hgood
  | _ =>
    cases hevent
    trivial

theorem evaluate_checked {X : Platform} {F : Runtime} (entity : Entity) (scope : Scope)
    (s : EvalState W) (hs : ∀ e ∈ s.log, Checked env e) :
    ∀ e ∈ (evaluate X F host env entity scope s).2.log, Checked env e :=
  evaluate_keeps commands_checked evaluateInner_guarded entity scope s hs

end Log

end Compute

end EntityCore
