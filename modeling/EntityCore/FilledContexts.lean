import EntityCore.ErrorProvenance

/-! Contexts with a hole, which is an entity that the expressions refer to, and their
evaluation with the hole filled. -/
namespace EntityCore
namespace Compute

open Ecf Strings Program

section Filled

variable {W : Type} (X : Platform) (F : Runtime) (host : Host W) (env : EvalEnv)

/-! The evaluator, but for the hole. -/

section Evaluator

variable (hole : Entity) (fill : EvalState W → ComputeValue × EvalState W)

/-- Wherever the hole is to be evaluated, what it is filled with gives its value and does
its part to the context. -/
def enterFilled (loop : Bool → Entity → Scope → EvalState W → Option ComputeValue × EvalState W)
    (entity : Entity) (scope : Scope) (s : EvalState W) : Option ComputeValue × EvalState W :=
  if entity = hole then (some (fill s).1,(fill s).2) else enter loop entity scope s

def trampolineFilled : ℕ → Bool → Entity → Scope → EvalState W → Option ComputeValue × EvalState W
  | 0, _, _, _, s => (some (.error .budgetExhausted),s.spend)
  | rounds+1, stripPending, current, scope, s =>
    let s := {s with operations := s.operations-1}
    if s.operations = 0 then (some (.error .budgetExhausted),s.spend)
    else match (evaluateInner X F env current scope).run
        (performCommand host env (enterFilled hole fill (trampolineFilled rounds))) s with
      | (.done (.tailCall next nextScope strip),s') =>
        if next = hole then (some (stripIf (stripPending || strip) (fill s').1),(fill s').2)
        else if !isComputeExpression next then
          (some (stripIf (stripPending || strip) (.entity next)),s')
        else trampolineFilled rounds (stripPending || strip) next nextScope s'
      | (.done (.value v),s') => (some (stripIf stripPending v),s')
      | (.early v,s') => (some (stripIf stripPending v),s')
      | (.fault,s') => (none,s')

def evaluateFilled (entity : Entity) (scope : Scope) (s : EvalState W) :
    Option ComputeValue × EvalState W :=
  enterFilled hole fill (trampolineFilled X F host env hole fill s.operations) entity scope s

end Evaluator

/-! The two positions that tell the forms of an error apart. -/

section Clear

variable (hole : Entity) (fill : EvalState W → ComputeValue × EvalState W)
  (commands : (c : Command) → EvalState W → Option (Answer c) × EvalState W)

def NoErrorEntity (v : Option ComputeValue) : Prop :=
  ∀ e, v = some (.entity e) → e.entityType ≠ typeError

/-- What a hash refers to is not evaluated to the entity of an error. -/
def ReferenceClear (hash : Hash) (label : String) (scope : Scope) (s : EvalState W) : Prop :=
  ∀ e s', (resolveOrError hash label).run commands s = (.done e,s') →
    NoErrorEntity (commands (.evaluate e scope) s').1

def resolvedArgs (data : Value) (scope : Scope) : Eval (List (Value × Value)) :=
  mapEach (resolveArg X scope) (canonicalSortedPairs ((dataHashMap data "args").getD []))

/-- An application to a handler, once its arguments are there. -/
structure HandlerClear (data : Value) (scope : Scope) (s : EvalState W) : Prop where
  resource : ∀ args s', (resolvedArgs X data scope).run commands s = (.done args,s') →
    ∀ hash, dataHash data "resource" = some hash →
      ReferenceClear commands hash "apply resource" scope s'
  capability : ∀ args s' resource s'', (resolvedArgs X data scope).run commands s = (.done args,s') →
    (applyResource X data scope).run commands s' = (.done resource,s'') →
    ∀ hash, dataHash data "capability" = some hash → (dataHash data "resource").isSome →
      ReferenceClear commands hash "apply capability" scope s''

/-- Builtins take neither a resource nor a capability. -/
def ExpressionClear (entity : Entity) (scope : Scope) (s : EvalState W) : Prop :=
  ∀ data path, Form.ofType entity.entityType = some .apply → decodeData X entity = some data →
    dataStr data "path" = some path → isBuiltinPath path = false →
      HandlerClear X commands data scope s

def ClearEnter (loop : Entity → Scope → EvalState W → Prop) (entity : Entity) (scope : Scope)
    (s : EvalState W) : Prop :=
  entity ≠ hole → isComputeExpression entity = true → s.depth ≠ 0 →
    loop entity scope {s with depth := s.depth-1}

def ClearLoop : ℕ → Entity → Scope → EvalState W → Prop
  | 0, _, _, _ => True
  | rounds+1, current, scope, s =>
    let s := {s with operations := s.operations-1}
    let commands := performCommand host env
      (enterFilled hole fill (trampolineFilled X F host env hole fill rounds))
    s.operations ≠ 0 → ExpressionClear X commands current scope s ∧
      (∀ x ∈ (evaluateInner X F env current scope).trail commands s, ∀ e subScope,
        x.1 = .evaluate e subScope → ClearEnter hole (ClearLoop rounds) e subScope x.2) ∧
      ∀ next nextScope strip s', (evaluateInner X F env current scope).run commands s =
        (.done (.tailCall next nextScope strip),s') → next ≠ hole →
          isComputeExpression next = true → ClearLoop rounds next nextScope s'

/-- In an evaluation no expression that stands as the resource or the capability of an
application to a handler comes to the entity of an error. -/
def ClearEvaluation (entity : Entity) (scope : Scope) (s : EvalState W) : Prop :=
  ClearEnter hole (ClearLoop X F host env hole fill s.operations) entity scope s

end Clear

end Filled

/-! Runs in the two contexts. -/

section Related

variable {W : Type} {X : Platform} {F : Runtime} {host : Host W} {env : EvalEnv} (T : TwoForms X)

/-- The runs end alike, in the same state. -/
def RunsAlike {α β : Type} (done : α → β → Prop) (left : Ending ComputeValue α × EvalState W)
    (right : Ending ComputeValue β × EvalState W) : Prop :=
  Ending.Related T.Alike done left.1 right.1 ∧ left.2 = right.2

section Handlers

variable {T} {left right : (c : Command) → EvalState W → Option (Answer c) × EvalState W}
  {good : Command → EvalState W → Prop}

variable (hcommands : ∀ c d answers s, T.Matched c d answers → good d s →
  Option.Rel answers (left c s).1 (right d s).1 ∧ (left c s).2 = (right d s).2)
include hcommands

theorem TwoForms.Matches.runs {α β : Type} {done : α → β → Prop} {p : Eval α} {q : Eval β}
    (h : T.Matches done p q) {s : EvalState W} (hgood : ∀ x ∈ q.trail right s, good x.1 x.2) :
    RunsAlike T done (p.run left s) (q.run right s) := by
  refine Corresponds.run (S := Eq) ?_ h rfl hgood
  intro c d answers s t hmatched hd hst
  subst hst
  exact hcommands c d answers s hmatched hd

/-- What stands as a resource or a capability has one value, if it is not the error. -/
theorem reference_runs (hash : Hash) (label : String) {scope scope' : Scope}
    (hscopes : T.ScopesAlike scope scope') {s : EvalState W}
    (hclear : ReferenceClear right hash label scope' s)
    (hgood : ∀ x ∈ (resolveOrError hash label >>= fun e => evaluateSub e scope').trail right s,
      good x.1 x.2) :
    RunsAlike T Eq ((resolveOrError hash label >>= fun e => evaluateSub e scope).run left s)
      ((resolveOrError hash label >>= fun e => evaluateSub e scope').run right s) := by
  have hfound : RunsAlike T Eq ((resolveOrError hash label).run left s)
      ((resolveOrError hash label).run right s) :=
    (TwoForms.resolveOrError_matches hash label).runs hcommands
      fun x hx => hgood x (mem_trail_left _ hx)
  refine run_bind_related hfound fun e e' s₁ s₂ hleft hright he hs => ?_
  subst he hs
  have hsub := (TwoForms.evaluateSub_matches (T := T) e hscopes).runs hcommands
    fun x hx => hgood x (mem_trail_right _ hright hx)
  have hone := hclear e s₁ hright
  refine ⟨?_,hsub.2⟩
  have hrun : ((evaluateSub e scope').run right s₁).1 = match (right (.evaluate e scope') s₁).1 with
      | some v => .done v
      | none => .fault := by
    have hstep := run_step (h := right) (ε := ComputeValue) (Command.evaluate e scope') .done s₁
    refine (congrArg Prod.fst hstep).trans ?_
    cases (right (.evaluate e scope') s₁).1 <;> rfl
  have hends := hsub.1
  rw [hrun] at hends ⊢
  generalize ((evaluateSub e scope).run left s₁).1 = ended at hends ⊢
  cases hvalue : (right (.evaluate e scope') s₁).1 with
  | none =>
    rw [hvalue] at hends
    cases hends
    exact .fault
  | some w =>
    rw [hvalue] at hends hone
    cases hends with
    | done hvw =>
      cases hvw with
      | refl v => exact .done rfl
      | error => exact absurd T.stored_type (hone T.stored rfl)

omit hcommands in
theorem resourceOfValue_matches (v : ComputeValue) :
    T.Matches Eq (resourceOfValue X v) (resourceOfValue X v) := by
  unfold resourceOfValue
  split
  · exact TwoForms.orEarly_matches _ _
  · split
    · exact TwoForms.early_matches _
    · exact (TwoForms.orEarly_matches _ _).bind_eq fun _ => TwoForms.orEarly_matches _ _
  · exact TwoForms.early_matches _
  · exact TwoForms.early_matches _
  · exact TwoForms.early_matches _

theorem applyResource_runs {data : Value} {scope scope' : Scope} (hscopes : T.ScopesAlike scope scope')
    {s : EvalState W} (hclear : ∀ hash, dataHash data "resource" = some hash →
      ReferenceClear right hash "apply resource" scope' s)
    (hgood : ∀ x ∈ (applyResource X data scope').trail right s, good x.1 x.2) :
    RunsAlike T Eq ((applyResource X data scope).run left s)
      ((applyResource X data scope').run right s) := by
  cases hhash : dataHash data "resource" with
  | none =>
    have hnone : ∀ scope, applyResource X data scope = pure none := by
      intro scope
      rw [applyResource,hhash]
    rw [hnone,hnone]
    exact ⟨.done rfl,rfl⟩
  | some hash =>
    have hparts : ∀ scope, applyResource X data scope =
        (resolveOrError hash "apply resource" >>= fun e => evaluateSub e scope) >>= fun v =>
          resourceOfValue X v >>= fun resource => pure (some resource) := by
      intro scope
      rw [applyResource,hhash,bind_assoc]
      show some <$> resolveApplyResource X hash scope = _
      rw [map_eq_pure_bind,resolveApplyResource,bind_assoc]
      simp only [bind_assoc]
    rw [hparts] at hgood ⊢
    rw [hparts]
    refine run_bind_related (reference_runs hcommands hash _ hscopes (hclear hash hhash)
      fun x hx => hgood x (mem_trail_left _ hx)) fun v v' s₁ s₂ hleft hright hv hs => ?_
    subst hv hs
    have hrest : T.Matches Eq (resourceOfValue X v >>= fun resource => pure (some resource))
        (resourceOfValue X v >>= fun resource => pure (some resource)) :=
      (resourceOfValue_matches v).bind_eq fun _ => .done rfl
    exact hrest.runs hcommands fun x hx => hgood x (mem_trail_right _ hright hx)

/-- What is made of the value of a capability. -/
def capabilityOfValue (env : EvalEnv) (path operation : Str) (resource : Option ResourceTarget)
    (v : ComputeValue) : Eval Entity := do
  let capEntity ← match v with
    | .entity e => pure e
    | .error err => .early (.error err)
    | _ => .early (.error (.typeMismatch "compute/apply 'capability' must resolve to an entity"))
  match env.capability with
  | none => .early (.error (.permissionDenied
      ("compute/apply 'capability' field requires ctx.capability for dual-check ("++
        String.ofList path++ ":"++String.ofList operation++ ")")))
  | some ctxCap =>
    if !coversTarget env ctxCap path operation resource then
      .early (.error (.permissionDenied ("Handler grant does not cover target: "++
        String.ofList path++ "."++String.ofList operation)))
    else return capEntity

omit hcommands in
theorem capabilityOfValue_matches (path operation : Str) (resource : Option ResourceTarget)
    (v : ComputeValue) : T.Matches Eq (capabilityOfValue env path operation resource v)
      (capabilityOfValue env path operation resource v) := by
  cases v with
  | entity e =>
    unfold capabilityOfValue
    dsimp only
    split
    · exact TwoForms.early_matches _
    · split
      · exact TwoForms.early_matches _
      · exact .done rfl
  | _ => exact TwoForms.early_matches _

theorem applyCapability_runs {data : Value} {path operation : Str} {resource : Option ResourceTarget}
    {scope scope' : Scope} (hscopes : T.ScopesAlike scope scope') {s : EvalState W}
    (hclear : ∀ hash, dataHash data "capability" = some hash → (dataHash data "resource").isSome →
      ReferenceClear right hash "apply capability" scope' s)
    (hgood : ∀ x ∈ (applyCapability env data path operation resource scope').trail right s,
      good x.1 x.2) :
    RunsAlike T Eq ((applyCapability env data path operation resource scope).run left s)
      ((applyCapability env data path operation resource scope').run right s) := by
  cases hhash : dataHash data "capability" with
  | none =>
    have hnone : ∀ scope, applyCapability env data path operation resource scope = pure none := by
      intro scope
      rw [applyCapability,hhash]
    rw [hnone,hnone]
    exact ⟨.done rfl,rfl⟩
  | some hash =>
    by_cases hresource : (dataHash data "resource").isNone = true
    · have hearly : ∀ scope, applyCapability env data path operation resource scope = .early
          (invalid "compute/apply with capability field MUST also have resource field") := by
        intro scope
        rw [applyCapability,hhash]
        exact if_pos hresource
      rw [hearly,hearly]
      exact ⟨.early (.refl _),rfl⟩
    · have hparts : ∀ scope, applyCapability env data path operation resource scope =
          (resolveOrError hash "apply capability" >>= fun e => evaluateSub e scope) >>= fun v =>
            capabilityOfValue env path operation resource v >>= fun e => pure (some e) := by
        intro scope
        rw [applyCapability,hhash]
        refine (if_neg hresource).trans ?_
        rw [map_eq_pure_bind,resolveApplyCapability]
        simp only [bind_assoc]
        rfl
      rw [hparts] at hgood ⊢
      rw [hparts]
      have hsome : (dataHash data "resource").isSome = true := by
        simpa [Option.isSome_iff_ne_none] using hresource
      refine run_bind_related (reference_runs hcommands hash _ hscopes (hclear hash hhash hsome)
        fun x hx => hgood x (mem_trail_left _ hx)) fun v v' s₁ s₂ hleft hright hv hs => ?_
      subst hv hs
      have hrest : T.Matches Eq
          (capabilityOfValue env path operation resource v >>= fun e => pure (some e))
          (capabilityOfValue env path operation resource v >>= fun e => pure (some e)) :=
        (capabilityOfValue_matches path operation resource v).bind_eq fun _ => .done rfl
      exact hrest.runs hcommands fun x hx => hgood x (mem_trail_right _ hright hx)

theorem dispatchHandler_runs {data : Value} {path operation : Str} {scope scope' : Scope}
    (hscopes : T.ScopesAlike scope scope') {s : EvalState W}
    (hclear : HandlerClear X right data scope' s)
    (hgood : ∀ x ∈ (dispatchHandler X env data path operation ((dataHashMap data "args").getD [])
      scope').trail right s, good x.1 x.2) :
    RunsAlike T T.Alike
      ((dispatchHandler X env data path operation ((dataHashMap data "args").getD []) scope).run left s)
      ((dispatchHandler X env data path operation ((dataHashMap data "args").getD []) scope').run
        right s) := by
  have hargs : T.Matches Eq (resolvedArgs X data scope) (resolvedArgs X data scope') :=
    .mapEach (fun arg => TwoForms.resolveArg_matches arg hscopes) _
  refine run_bind_related (hargs.runs hcommands fun x hx => hgood x (mem_trail_left _ hx))
    fun args args' s₁ s₁' _ hright ha hs => ?_
  subst ha hs
  have hgood := fun x hx => hgood x (mem_trail_right _ hright hx)
  refine run_bind_related (applyResource_runs hcommands hscopes (hclear.resource args s₁ hright)
    fun x hx => hgood x (mem_trail_left _ hx)) fun resource resource' s₂ s₂' _ hright₂ hr hs => ?_
  subst hr hs
  have hgood := fun x hx => hgood x (mem_trail_right _ hright₂ hx)
  refine run_bind_related (applyCapability_runs hcommands hscopes
    (hclear.capability args s₁ resource s₂ hright hright₂)
    fun x hx => hgood x (mem_trail_left _ hx)) fun cap cap' s₃ s₃' _ hright₃ hc hs => ?_
  subst hc hs
  refine TwoForms.Matches.runs hcommands ?_ fun x hx => hgood x (mem_trail_right _ hright₃ hx)
  refine (TwoForms.resolveOperationInputType_matches path operation).bind_eq fun declared =>
    (TwoForms.orEarly_matches _ _).bind_eq fun params =>
      (TwoForms.perform_matches (.execute path operation resource params cap) (by nofun)).bind_eq
        fun answer => (TwoForms.orEarly_matches _ _).mono fun v w hvw => ?_
  exact hvw ▸ .refl v

omit hcommands in
theorem evalApplyHandler_dispatch {data : Value} {path operation : Str}
    (hpath : dataStr data "path" = some path) (hoperation : dataStr data "operation" = some operation)
    (scope : Scope) : evalApplyHandler X F env data scope =
      if isBuiltinPath path then
        if (dataHash data "capability").isSome || (dataHash data "resource").isSome then
          .early (invalid "compute/apply on a builtin path MUST NOT carry capability or resource")
        else match dispatchBuiltinAlias X F env path operation
            ((dataHashMap data "args").getD []) scope with
          | some builtin => builtin
          | none => dispatchHandler X env data path operation
              ((dataHashMap data "args").getD []) scope
      else dispatchHandler X env data path operation ((dataHashMap data "args").getD []) scope := by
  rw [evalApplyHandler,hpath,hoperation]
  rfl

/-- Only an application to a handler takes a resource or a capability. -/
theorem evalApplyHandler_runs {data : Value} {scope scope' : Scope}
    (hscopes : T.ScopesAlike scope scope') {s : EvalState W}
    (hclear : ∀ path, dataStr data "path" = some path → isBuiltinPath path = false →
      HandlerClear X right data scope' s)
    (hgood : ∀ x ∈ (evalApplyHandler X F env data scope').trail right s, good x.1 x.2) :
    RunsAlike T T.Alike ((evalApplyHandler X F env data scope).run left s)
      ((evalApplyHandler X F env data scope').run right s) := by
  cases hpath : dataStr data "path" with
  | none =>
    have hearly : ∀ scope, evalApplyHandler X F env data scope =
        .early (invalid "compute/apply handler mode missing 'path'") := by
      intro scope
      rw [evalApplyHandler,hpath]
      rfl
    rw [hearly,hearly]
    exact ⟨.early (.refl _),rfl⟩
  | some path =>
    cases hoperation : dataStr data "operation" with
    | none =>
      have hearly : ∀ scope, evalApplyHandler X F env data scope =
          .early (invalid "compute/apply handler mode requires 'operation'") := by
        intro scope
        rw [evalApplyHandler,hpath,hoperation]
        rfl
      rw [hearly,hearly]
      exact ⟨.early (.refl _),rfl⟩
    | some operation =>
      rw [evalApplyHandler_dispatch hpath hoperation] at hgood ⊢
      rw [evalApplyHandler_dispatch hpath hoperation]
      by_cases hbuiltin : isBuiltinPath path = true
      · rw [if_pos hbuiltin] at hgood ⊢
        rw [if_pos hbuiltin]
        by_cases hcarries : ((dataHash data "capability").isSome ||
            (dataHash data "resource").isSome) = true
        · rw [if_pos hcarries,if_pos hcarries]
          exact ⟨.early (.refl _),rfl⟩
        · rw [if_neg hcarries] at hgood ⊢
          rw [if_neg hcarries]
          by_cases heval : operation ≠ "eval".toList
          · have hearly : ∀ scope, dispatchBuiltinAlias X F env path operation
                ((dataHashMap data "args").getD []) scope = some (.early (invalid ("builtin "++
                  String.ofList path++ " requires operation 'eval', got '"++
                    String.ofList operation++ "'"))) := by
              intro scope
              rw [dispatchBuiltinAlias,if_pos heval]
            rw [hearly,hearly]
            exact ⟨.early (.refl _),rfl⟩
          · have halias : ∀ scope, dispatchBuiltinAlias X F env path operation
                ((dataHashMap data "args").getD []) scope =
                  ((extractBareBuiltin path).bind Builtin.ofName).map fun b =>
                    b.dispatch X F env ((dataHashMap data "args").getD []) scope := by
              intro scope
              rw [dispatchBuiltinAlias,if_neg heval]
            rw [halias] at hgood ⊢
            rw [halias]
            cases hb : (extractBareBuiltin path).bind Builtin.ofName with
            | some b =>
              rw [hb] at hgood
              exact (TwoForms.dispatch_matches b _ hscopes).runs hcommands hgood
            | none =>
              rw [hb] at hgood
              have hnone := not_or.mp (fun h => hcarries (Bool.or_eq_true_iff.mpr h))
              refine dispatchHandler_runs hcommands hscopes ⟨?_,?_⟩ hgood
              · intro args s' _ hash hhash
                exact absurd (by rw [hhash]; rfl) hnone.2
              · intro args s' resource s'' _ _ hash hhash _
                exact absurd (by rw [hhash]; rfl) hnone.1
      · rw [if_neg hbuiltin] at hgood ⊢
        rw [if_neg hbuiltin]
        exact dispatchHandler_runs hcommands hscopes
          (hclear path hpath (by simpa using hbuiltin)) hgood

omit hcommands in
theorem value_matches {p q : Eval ComputeValue} (h : T.Matches T.Alike p q) :
    T.Matches T.ResultsAlike (EvalResult.value <$> p) (EvalResult.value <$> q) := by
  rw [map_eq_pure_bind,map_eq_pure_bind]
  exact h.bind fun _ _ hvw => .done (.value hvw)

omit hcommands in
theorem equal_value_matches {p q : Eval ComputeValue} (h : T.Matches Eq p q) :
    T.Matches T.ResultsAlike (EvalResult.value <$> p) (EvalResult.value <$> q) :=
  value_matches (h.mono fun v _ hvw => hvw ▸ .refl v)

omit hcommands in
theorem evaluateForm_matches {form : Form} (hform : form ≠ .apply) (data : Value)
    {scope scope' : Scope} (h : T.ScopesAlike scope scope') :
    T.Matches T.ResultsAlike (evaluateForm X F env form data scope)
      (evaluateForm X F env form data scope') := by
  cases form with
  | literal => exact .done (.value (.refl _))
  | lookupScope => exact .done (.value (TwoForms.evalLookupScope_alike data h))
  | lookupTree => exact TwoForms.evalLookupTree_matches data h
  | lookupHash => exact TwoForms.evalLookupHash_matches data h
  | apply => exact absurd rfl hform
  | «if» => exact TwoForms.evalIf_matches data h
  | «let» => exact TwoForms.evalLet_matches data h
  | lambda => exact value_matches (TwoForms.evalLambda_matches data h)
  | arithmetic => exact equal_value_matches (TwoForms.evalArithmetic_matches data h)
  | compare => exact equal_value_matches (TwoForms.evalCompare_matches data h)
  | logic => exact equal_value_matches (TwoForms.evalLogic_matches data h)
  | field => exact equal_value_matches (TwoForms.evalField_matches data h)
  | construct => exact equal_value_matches (TwoForms.evalConstruct_matches data h)
  | index => exact equal_value_matches (TwoForms.evalIndex_matches data h)
  | length => exact equal_value_matches (TwoForms.evalLength_matches data h)
  | numericCast => exact equal_value_matches (TwoForms.evalNumericCast_matches data h)

theorem evalApply_runs {data : Value} {scope scope' : Scope} (hscopes : T.ScopesAlike scope scope')
    {s : EvalState W} (hclear : ∀ path, dataStr data "path" = some path →
      isBuiltinPath path = false → HandlerClear X right data scope' s)
    (hgood : ∀ x ∈ (evalApply X F env data scope').trail right s, good x.1 x.2) :
    RunsAlike T T.ResultsAlike ((evalApply X F env data scope).run left s)
      ((evalApply X F env data scope').run right s) := by
  unfold evalApply at hgood ⊢
  cases hpath : (data.get "path".toList).isSome <;> cases hfn : (data.get "fn".toList).isSome
  · exact ⟨.early (.refl _),rfl⟩
  · simp only [hpath,hfn] at hgood
    exact (TwoForms.evalApplyClosure_matches data hscopes).runs hcommands hgood
  · simp only [hpath,hfn] at hgood
    rw [map_eq_pure_bind] at hgood ⊢
    rw [map_eq_pure_bind]
    refine run_bind_related (evalApplyHandler_runs hcommands hscopes hclear
      fun x hx => hgood x (mem_trail_left _ hx)) fun v w s₁ s₂ _ _ hvw hs => ?_
    exact ⟨.done (.value hvw),hs⟩
  · exact ⟨.early (.refl _),rfl⟩

omit hcommands in
theorem evaluateInner_decoded {e : Entity} {data : Value} (hdata : decodeData X e = some data)
    (scope : Scope) : evaluateInner X F env e scope = match Form.ofType e.entityType with
      | some form => evaluateForm X F env form data scope
      | none => .early (.error (.unknownType
          ("Unknown compute type: "++String.ofList e.entityType))) := by
  rw [evaluateInner,hdata]
  rfl

theorem evaluateInner_runs (e : Entity) {scope scope' : Scope} (hscopes : T.ScopesAlike scope scope')
    {s : EvalState W} (hclear : ExpressionClear X right e scope' s)
    (hgood : ∀ x ∈ (evaluateInner X F env e scope').trail right s, good x.1 x.2) :
    RunsAlike T T.ResultsAlike ((evaluateInner X F env e scope).run left s)
      ((evaluateInner X F env e scope').run right s) := by
  cases hdata : decodeData X e with
  | none =>
    have hearly : ∀ scope, evaluateInner X F env e scope =
        .early (invalid "cannot decode entity data") := by
      intro scope
      rw [evaluateInner,hdata]
      rfl
    rw [hearly,hearly]
    exact ⟨.early (.refl _),rfl⟩
  | some data =>
    rw [evaluateInner_decoded hdata] at hgood ⊢
    rw [evaluateInner_decoded hdata]
    cases hform : Form.ofType e.entityType with
    | none => exact ⟨.early (.refl _),rfl⟩
    | some form =>
      rw [hform] at hgood
      by_cases happly : form = .apply
      · subst happly
        exact evalApply_runs hcommands hscopes (fun path hpath hbuiltin =>
          hclear data path hform hdata hpath hbuiltin) hgood
      · exact (evaluateForm_matches happly data hscopes).runs hcommands hgood

end Handlers

/-! The evaluator. -/

variable {T} {effect : EvalState W → EvalState W} {hole : Entity}

theorem performCommand_alike
    {left right : Entity → Scope → EvalState W → Option ComputeValue × EvalState W}
    {clear : Entity → Scope → EvalState W → Prop}
    (heval : ∀ e scope scope' s, T.ScopesAlike scope scope' → clear e scope' s →
      Option.Rel T.Alike (left e scope s).1 (right e scope' s).1 ∧
        (left e scope s).2 = (right e scope' s).2)
    (c d : Command) (answers : Answer c → Answer d → Prop) (s : EvalState W)
    (h : T.Matched c d answers) (hgood : ∀ e scope, d = .evaluate e scope → clear e scope s) :
    Option.Rel answers (performCommand host env left c s).1 (performCommand host env right d s).1 ∧
      (performCommand host env left c s).2 = (performCommand host env right d s).2 := by
  cases h with
  | evaluate e hscopes => exact heval e _ _ s hscopes (hgood e _ rfl)
  | other c hother =>
    have hsame : performCommand host env left c s = performCommand host env right c s := by
      cases c with
      | evaluate e scope => exact absurd rfl (hother e scope)
      | _ => rfl
    rw [hsame]
    refine ⟨?_,rfl⟩
    cases (performCommand host env right c s).1 with
    | none => exact .none
    | some r => exact .some rfl

theorem enterFilled_alike
    {left right : Bool → Entity → Scope → EvalState W → Option ComputeValue × EvalState W}
    {clear : Entity → Scope → EvalState W → Prop}
    (hloop : ∀ e scope scope' s, T.ScopesAlike scope scope' → clear e scope' s →
      Option.Rel T.Alike (left false e scope s).1 (right false e scope' s).1 ∧
        (left false e scope s).2 = (right false e scope' s).2)
    (e : Entity) (scope scope' : Scope) (s : EvalState W) (hscopes : T.ScopesAlike scope scope')
    (hclear : ClearEnter hole clear e scope' s) :
    Option.Rel T.Alike
        (enterFilled hole (fun s => (.error T.minted,effect s)) left e scope s).1
        (enterFilled hole (fun s => (.entity T.stored,effect s)) right e scope' s).1 ∧
      (enterFilled hole (fun s => (.error T.minted,effect s)) left e scope s).2 =
        (enterFilled hole (fun s => (.entity T.stored,effect s)) right e scope' s).2 := by
  unfold enterFilled
  by_cases hhole : e = hole
  · rw [if_pos hhole,if_pos hhole]
    exact ⟨.some .error,rfl⟩
  · rw [if_neg hhole,if_neg hhole]
    unfold enter
    by_cases hexpression : isComputeExpression e = true
    · simp only [hexpression,Bool.not_true,Bool.false_eq_true,if_false]
      by_cases hdepth : s.depth = 0
      · rw [if_pos hdepth,if_pos hdepth]
        exact ⟨.some (.refl _),rfl⟩
      · rw [if_neg hdepth,if_neg hdepth]
        have ⟨hvalue,hstate⟩ := hloop e scope scope' {s with depth := s.depth-1} hscopes
          (hclear hhole hexpression hdepth)
        exact ⟨hvalue,by rw [hstate]⟩
    · rw [if_pos (by simpa using hexpression),if_pos (by simpa using hexpression)]
      exact ⟨.some (.refl _),rfl⟩

theorem trampolineFilled_alike (rounds : ℕ) : ∀ (strip : Bool) (e : Entity) (scope scope' : Scope)
    (s : EvalState W), T.ScopesAlike scope scope' →
    ClearLoop X F host env hole (fun s => (.entity T.stored,effect s)) rounds e scope' s →
    Option.Rel T.Alike
        (trampolineFilled X F host env hole (fun s => (.error T.minted,effect s)) rounds strip e
          scope s).1
        (trampolineFilled X F host env hole (fun s => (.entity T.stored,effect s)) rounds strip e
          scope' s).1 ∧
      (trampolineFilled X F host env hole (fun s => (.error T.minted,effect s)) rounds strip e
          scope s).2 =
        (trampolineFilled X F host env hole (fun s => (.entity T.stored,effect s)) rounds strip e
          scope' s).2 := by
  induction rounds with
  | zero =>
    intro strip e scope scope' s _ _
    exact ⟨.some (.refl _),rfl⟩
  | succ rounds ih =>
    intro strip e scope scope' s hscopes hclear
    unfold trampolineFilled
    dsimp only
    by_cases hspent : s.operations-1 = 0
    · rw [if_pos hspent,if_pos hspent]
      exact ⟨.some (.refl _),rfl⟩
    · rw [if_neg hspent,if_neg hspent]
      have ⟨hexpression,htrail,htail⟩ := hclear hspent
      have henter := @enterFilled_alike _ X T effect hole _ _ _ (ih false)
      have hruns := @evaluateInner_runs _ X F env T _ _ _ (performCommand_alike henter) e _ _
        hscopes _ hexpression (fun x hx => htrail x hx)
      generalize hleft : (evaluateInner X F env e scope).run _ _ = l at hruns ⊢
      generalize hright : (evaluateInner X F env e scope').run _ _ = r at hruns ⊢
      rcases l with ⟨ended,s₁⟩
      rcases r with ⟨ended',s₂⟩
      have ⟨hends,hstates⟩ := hruns
      dsimp only at hends hstates
      subst hstates
      cases hends with
      | done hresult =>
        cases hresult with
        | value hvw => exact ⟨.some (hvw.stripIf _),rfl⟩
        | tailCall next strip' hnext =>
          dsimp only
          by_cases hhole : next = hole
          · rw [if_pos hhole,if_pos hhole]
            exact ⟨.some (TwoForms.Alike.error.stripIf _),rfl⟩
          · rw [if_neg hhole,if_neg hhole]
            by_cases hnextForm : isComputeExpression next = true
            · rw [if_neg (by simp [hnextForm]),if_neg (by simp [hnextForm])]
              exact ih _ next _ _ s₁ hnext (htail next _ strip' s₁ hright hhole hnextForm)
            · rw [if_pos (by simpa using hnextForm),if_pos (by simpa using hnextForm)]
              exact ⟨.some (.refl _),rfl⟩
      | early hvw => exact ⟨.some (hvw.stripIf _),rfl⟩
      | fault => exact ⟨.none,rfl⟩

end Related

/-! Contexts. -/

/-- Errors of one code, or one value that is none. -/
def SameOutcome (X : Platform) (v w : ComputeValue) : Prop :=
  v.isError = w.isError ∧ if v.isError then v.errorCode X = w.errorCode X else v = w

theorem TwoForms.Alike.sameOutcome {X : Platform} {T : TwoForms X} {v w : ComputeValue}
    (h : T.Alike v w) : SameOutcome X v w := by
  refine ⟨h.isError,?_⟩
  by_cases herror : v.isError = true
  · rw [if_pos herror]
    exact h.errorCode
  · rw [if_neg herror]
    exact h.eq (by simpa using herror)

/-- The dispatches of a log, the last first. -/
def executed (log : List Event) : List Event := log.filter fun event => match event with
  | .executed _ _ _ _ _ => true
  | _ => false

/-- Filled with a minted error and with the entity of its code a context gives results of
one outcome and dispatches alike, if no resource or capability is the entity of an error. -/
theorem filled_contexts_agree {W : Type} (X : Platform) (F : Runtime) (host : Host W) (env : EvalEnv)
    (minted : ComputeError) (stored : Entity) (hbuilt : minted.toEntity X = some stored)
    (hreads : ReadsBack X (errorDocument minted)) (hole : Entity) (effect : EvalState W → EvalState W)
    (entity : Entity) (scope : Scope) (s : EvalState W)
    (hclear : ClearEvaluation X F host env hole (fun s => (.entity stored,effect s)) entity scope s) :
    Option.Rel (SameOutcome X)
      (evaluateFilled X F host env hole (fun s => (.error minted,effect s)) entity scope s).1
      (evaluateFilled X F host env hole (fun s => (.entity stored,effect s)) entity scope s).1 ∧
    executed (evaluateFilled X F host env hole (fun s => (.error minted,effect s)) entity scope
      s).2.log =
    executed (evaluateFilled X F host env hole (fun s => (.entity stored,effect s)) entity scope
      s).2.log := by
  let T : TwoForms X := ⟨minted,stored,hbuilt,hreads⟩
  have hloop := @trampolineFilled_alike W X F host env T effect hole s.operations false
  have ⟨hvalue,hstate⟩ := @enterFilled_alike W X T effect hole _ _ _ hloop entity scope scope s
    (.refl scope) hclear
  have houtcome : ∀ {o p : Option ComputeValue}, Option.Rel T.Alike o p →
      Option.Rel (SameOutcome X) o p := by
    intro o p h
    cases h with
    | none => exact .none
    | some h => exact .some h.sameOutcome
  exact ⟨houtcome hvalue,congrArg (fun s => executed s.log) hstate⟩

/-- An expression that is no application, that evaluates nothing but the hole, and whose
value is its own. -/
theorem ClearLoop.of_hole {W : Type} {X : Platform} {F : Runtime} {host : Host W} {env : EvalEnv}
    {hole : Entity} {fill : EvalState W → ComputeValue × EvalState W} {rounds : ℕ} {e : Entity}
    {scope : Scope} {s : EvalState W} (hform : Form.ofType e.entityType ≠ some .apply)
    (htrail : ((evaluateInner X F env e scope).trail (performCommand host env
      (enterFilled hole fill (trampolineFilled X F host env hole fill rounds)))
        {s with operations := s.operations-1}).all (fun x => match x.1 with
          | .evaluate sub _ => sub = hole
          | _ => true) = true)
    (hends : (match ((evaluateInner X F env e scope).run (performCommand host env
      (enterFilled hole fill (trampolineFilled X F host env hole fill rounds)))
        {s with operations := s.operations-1}).1 with
          | .done (.tailCall _ _ _) => false
          | _ => true) = true) :
    ClearLoop X F host env hole fill (rounds+1) e scope s := by
  intro _
  refine ⟨fun _ _ happly => absurd happly hform,?_,?_⟩
  · intro x hx sub subScope hsub hne
    have hchecked := List.all_eq_true.mp htrail x hx
    rw [hsub] at hchecked
    exact absurd (of_decide_eq_true hchecked) hne
  · intro next nextScope strip s' hrun
    rw [hrun] at hends
    cases hends

/-! The length of a hole, and a hole as the resource of an application. -/
namespace ComputeSample

open Sample

def zero : Doc := literal (integer 0)
  0xaafa5290111ec29ef17d4e2d502f7878d3905df4e4745bc08bc85c3c6fcf7182

def division : Doc := ⟨"compute/arithmetic",.map [(txt "left",one.ref),(txt "op",txt "div"),
  (txt "right",zero.ref)],0x0ca139dd59085dd3b041261b1004ab0e17e1df3a08c0e97bf609364b3a543813⟩

def lengthOf : Doc := ⟨"compute/length",.map [(txt "array",divisionDoc.ref)],
  0x728b91ce77a46c633b69a17d643a5e57f5c3defd99966477fc3560bc62810cde⟩

def readNotes (resource : Doc) (digest : ℕ) : Doc := ⟨"compute/apply",.map [
  (txt "operation",txt "get"),(txt "path",txt "app/notes"),(txt "resource",resource.ref)],digest⟩

def withMinted : Doc := readNotes division
  0x3c453143292d93bbf45e70305f6d2397ec895944deae9ce814ede32ade2e1933
def withEntity : Doc := readNotes divisionDoc
  0x55fb72b673a9d99e4bbc6108ed33f37bc743e5e36b7b1f38957612677d0d2085

def provenanceDocs : List Doc := [one,zero,division,divisionDoc,lengthOf,withMinted,withEntity]

/-- An expression in the store of these documents, in a scope of no names. -/
def evaluateDoc (d : Doc) : Option ComputeValue :=
  (evaluate (crates provenanceDocs) words (Host.memory none) (environment none) d.entity .empty
    (start provenanceDocs)).1

/-- The code of the quotient in the length, and the codes of the two as resources. -/
theorem evaluated_quotients :
    (((provenanceDocs.map Doc.value).map toEcf).Nodup ∧
      ComputeError.divisionByZero.toEntity (crates provenanceDocs) = some divisionDoc.entity) ∧
    (evaluateFilled (crates provenanceDocs) words (Host.memory none) (environment none)
      divisionDoc.entity (fun s => (.error .divisionByZero,s)) lengthOf.entity .empty
        (start provenanceDocs)).1.bind (ComputeValue.errorCode (crates provenanceDocs)) =
          some "division_by_zero".toList ∧
    (evaluateDoc withMinted).bind (ComputeValue.errorCode (crates provenanceDocs)) ≠
      (evaluateDoc withEntity).bind (ComputeValue.errorCode (crates provenanceDocs)) ∧
    (evaluateDoc withMinted).map ComputeValue.isError = some true := by
  decide +kernel

end ComputeSample

open ComputeSample Sample in
theorem filled_contexts_agree_sample :
    ((evaluateFilled (crates provenanceDocs) words (Host.memory none) (environment none)
      divisionDoc.entity (fun s => (.error .divisionByZero,s)) lengthOf.entity .empty
        (start provenanceDocs)).1.bind (ComputeValue.errorCode (crates provenanceDocs))) =
          some "division_by_zero".toList ∧
    Option.Rel (SameOutcome (crates provenanceDocs))
      (evaluateFilled (crates provenanceDocs) words (Host.memory none) (environment none)
        divisionDoc.entity (fun s => (.error .divisionByZero,s)) lengthOf.entity .empty
          (start provenanceDocs)).1
      (evaluateFilled (crates provenanceDocs) words (Host.memory none) (environment none)
        divisionDoc.entity (fun s => (.entity divisionDoc.entity,s)) lengthOf.entity .empty
          (start provenanceDocs)).1 := by
  obtain ⟨⟨hnodup,hbuilt⟩,hcode,-⟩ := evaluated_quotients
  have hreads : ReadsBack (crates provenanceDocs) (errorDocument .divisionByZero) := by
    have hmem : divisionDoc.value ∈ provenanceDocs.map Doc.value := by simp [provenanceDocs]
    exact ⟨_,reads_document hnodup hmem,same_self (tagless_errorDocument _)⟩
  refine ⟨hcode,(filled_contexts_agree (crates provenanceDocs) words (Host.memory none)
    (environment none) .divisionByZero divisionDoc.entity hbuilt hreads
      divisionDoc.entity (fun s => s) lengthOf.entity .empty (start provenanceDocs) ?_).1⟩
  intro _ _ _
  exact ClearLoop.of_hole (by decide +kernel) (by decide +kernel) (by decide +kernel)

open ComputeSample in
/-- As a resource the quotient fails with its own code, the entity of that code with another. -/
theorem resource_error_by_provenance : evaluateDoc division = some (.error .divisionByZero) ∧
    evaluateDoc divisionDoc = some (.entity divisionDoc.entity) ∧
    ¬ Option.Rel (SameOutcome (crates provenanceDocs)) (evaluateDoc withMinted)
      (evaluateDoc withEntity) := by
  refine ⟨rfl,rfl,fun h => ?_⟩
  obtain ⟨-,-,hdiffer,herror⟩ := evaluated_quotients
  generalize evaluateDoc withMinted = left at h hdiffer herror
  generalize evaluateDoc withEntity = right at h hdiffer
  cases h with
  | none => cases herror
  | some h =>
    have hone := h.2
    rw [if_pos (Option.some.inj herror)] at hone
    exact hdiffer hone

end Compute
end EntityCore
