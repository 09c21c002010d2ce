import EntityCore.ComputeBuiltins
import EntityCore.Store
import EntityCore.Trie

/-! The evaluator: application of closures and handlers, the choice of the form, the
context that the commands act on, and the trampoline. -/
namespace EntityCore
namespace Compute

open Ecf Strings Program

section Apply

variable (X : Platform) (F : Runtime) (env : EvalEnv)

/-! Application of a closure. -/

def applicableClosure (fnValue : ComputeValue) : Eval ClosureValue :=
  match fnValue with
  | .closure c => pure c
  | .entity e => if e.entityType = typeClosure then
      orEarly (parseClosureEntity X e) (invalid "Failed to parse closure entity")
    else .early (.error (.typeMismatch "Apply target is not a closure"))
  | _ => .early (.error (.typeMismatch "Apply target is not a closure"))

/-- An argument is evaluated in the scope of the application. -/
def bindArgument (args : Args) (scope newScope : Scope) (param : Str) : Eval Scope := do
  let argHash ← orEarly ((args.find? fun kv => kv.1 = param).map Prod.snd)
    (.error (.missingArgument ("Missing argument: "++String.ofList param)))
  let argTarget ← resolveOrError argHash ("closure arg "++String.ofList param)
  let arg ← consumed (← evaluateSub argTarget scope)
  return newScope.insert param (stripCastTag arg)

def evalApplyClosure (data : Value) (scope : Scope) : Eval EvalResult := do
  let fnHash ← orEarly (dataHash data "fn") (invalid "compute/apply 'fn' is not a valid hash")
  let fnTarget ← resolveOrError fnHash "closure fn"
  let fnValue ← consumed (← evaluateSub fnTarget scope)
  let closure ← applicableClosure X fnValue
  let captured ← loadScope X closure.env
  let args := (dataHashMap data "args").getD []
  let newScope ← foldEach (bindArgument args scope) captured closure.params
  let bodyTarget ← resolveOrError closure.body "closure body"
  return .tailCall bodyTarget newScope false

/-! Application of a handler. -/

/-- The handler at the longest path; the search ends at the first path that is not bound. -/
def resolveHandlerEntityInTree : List Str → Eval (Option Entity)
  | [] => pure none
  | pre::shorter => do
    match ← manifestGet pre with
    | none => return none
    | some hash => do
      match (← contentGet hash).filter fun e => e.entityType = "system/handler".toList with
      | some e => return some e
      | none => resolveHandlerEntityInTree shorter

def handlerPrefixes (qualified : Str) : List Str :=
  let segs := (segments '/' qualified).filter fun s => !s.isEmpty
  (List.range segs.length).reverse.map fun i => '/'::List.intercalate ['/'] (segs.take (i+1))

def declaredInputType (ifaceEntity : Entity) (operation : Str) : Option Str := do
  let data ← decodeData X ifaceEntity
  let operations ← data.get "operations".toList
  let opSpec ← operations.get operation
  (← opSpec.get "input_type".toList).asText

def resolveOperationInputType (path operation : Str) : Eval (Option Str) := do
  match ← resolveHandlerEntityInTree (handlerPrefixes (qualifyPath path env.localPeerId)) with
  | none => return none
  | some handlerEntity =>
    match (decodeData X handlerEntity).bind fun data => dataStr data "interface" with
    | none => return none
    | some interfacePath => do
      match ← manifestGet (qualifyPath interfacePath env.localPeerId) with
      | none => return none
      | some ifaceHash => return (← contentGet ifaceHash).bind fun e => declaredInputType X e operation

/-- The later of two fields of one name counts. -/
def decodeResourceTarget (v : Value) : Option ResourceTarget :=
  v.asMap.map fun entries => entries.foldl (fun rt kv =>
    match kv.1.asText,kv.2.asArray with
    | some key,some items =>
      let strings := items.filterMap Value.asText
      if key = "targets".toList then {rt with targets := strings}
      else if key = "exclude".toList then {rt with excludes := strings}
      else rt
    | _,_ => rt) ⟨[],[]⟩

def resourceMismatch (message : String) : ComputeValue :=
  .error (.typeMismatch ("compute/apply 'resource' must evaluate to a "++message))

def resourceOfValue (v : ComputeValue) : Eval ResourceTarget :=
  match v with
  | .primitive v => orEarly (decodeResourceTarget v)
      (resourceMismatch "\x7btargets, exclude\x7d map")
  | .entity e =>
    if e.entityType ≠ "system/protocol/resource-target".toList then
      .early (resourceMismatch ("system/protocol/resource-target (got "++
        String.ofList e.entityType++ ")"))
    else do
      let data ← orEarly (decodeData X e) (invalid "Failed to decode resource-target entity data")
      orEarly (decodeResourceTarget data) (invalid
        "Invalid resource-target entity shape (expected \x7btargets, exclude\x7d)")
  | .error err => .early (.error err)
  | .closure _ => .early (resourceMismatch "resource-target, not a closure")
  | .uint _ => .early (resourceMismatch "resource-target, not an integer")

def resolveApplyResource (resourceHash : Hash) (scope : Scope) : Eval ResourceTarget := do
  let resourceRef ← resolveOrError resourceHash "apply resource"
  resourceOfValue X (← evaluateSub resourceRef scope)

def applyResource (data : Value) (scope : Scope) : Eval (Option ResourceTarget) :=
  match dataHash data "resource" with
  | some resourceHash => some <$> resolveApplyResource X resourceHash scope
  | none => pure none

/-- Whether a capability covers the target of an application. -/
def coversTarget (capability : CapabilityToken) (path operation : Str)
    (resource : Option ResourceTarget) : Bool :=
  let qualified := qualifyPath path env.localPeerId
  checkPermission operation qualified (EntityUri.extractPeer qualified env.localPeerId) resource
    capability env.localPeerId

/-- A capability of the expression is taken only within the evaluation's own authority. -/
def resolveApplyCapability (capHash : Hash) (path operation : Str)
    (resource : Option ResourceTarget) (scope : Scope) : Eval Entity := do
  let capRef ← resolveOrError capHash "apply capability"
  let capEntity ← match ← evaluateSub capRef scope with
    | .entity e => pure e
    | .error err => .early (.error err)
    | _ => .early (.error (.typeMismatch "compute/apply 'capability' must resolve to an entity"))
  match env.capability with
  | none => .early (.error (.permissionDenied
      ("compute/apply 'capability' field requires ctx.capability for dual-check ("++
        String.ofList path++ ":"++String.ofList operation++ ")")))
  | some ctxCap =>
    if !coversTarget env ctxCap path operation resource then
      .early (.error (.permissionDenied ("Handler grant does not cover target: "++
        String.ofList path++ "."++String.ofList operation)))
    else return capEntity

def resolveArg (scope : Scope) (arg : Str × Hash) : Eval (Value × Value) := do
  let target ← resolveOrError arg.2 ("arg "++String.ofList arg.1)
  let v ← consumed (← evaluateSub target scope)
  return (.text arg.1,← computeValueToCbor X v)

/-- The capability field of an application, which requires a resource. -/
def applyCapability (data : Value) (path operation : Str) (resource : Option ResourceTarget)
    (scope : Scope) : Eval (Option Entity) :=
  match dataHash data "capability" with
  | none => pure none
  | some capHash =>
    if (dataHash data "resource").isNone then
      .early (invalid "compute/apply with capability field MUST also have resource field")
    else some <$> resolveApplyCapability env capHash path operation resource scope

def dispatchHandler (data : Value) (path operation : Str) (args : Args) (scope : Scope) :
    Eval ComputeValue := do
  let resolved ← mapEach (resolveArg X scope) (canonicalSortedPairs args)
  let resource ← applyResource X data scope
  let capOverride ← applyCapability env data path operation resource scope
  let declared ← resolveOperationInputType X env path operation
  let paramsType := (declared <|> builtinInputType path operation).getD "primitive/map".toList
  let params ← orEarly (Entity.new X paramsType (toEcf (.map resolved))).toOption
    (invalid "Failed to build params entity")
  orEarly (← execute path operation resource params capOverride)
    (invalid "Handler dispatch not available in this evaluation context")

/-- Builtins are evaluated in place; they have no use for a capability or a resource. -/
def evalApplyHandler (data : Value) (scope : Scope) : Eval ComputeValue := do
  let path ← orEarly (dataStr data "path") (invalid "compute/apply handler mode missing 'path'")
  let operation ← orEarly (dataStr data "operation")
    (invalid "compute/apply handler mode requires 'operation'")
  let args := (dataHashMap data "args").getD []
  if isBuiltinPath path then
    if (dataHash data "capability").isSome || (dataHash data "resource").isSome then
      .early (invalid "compute/apply on a builtin path MUST NOT carry capability or resource")
    else match dispatchBuiltinAlias X F env path operation args scope with
      | some builtin => builtin
      | none => dispatchHandler X env data path operation args scope
  else dispatchHandler X env data path operation args scope

def evalApply (data : Value) (scope : Scope) : Eval EvalResult :=
  match (data.get "path".toList).isSome,(data.get "fn".toList).isSome with
  | true,true => .early (invalid "compute/apply has both 'path' and 'fn'")
  | false,false => .early (invalid "compute/apply requires path or fn")
  | false,true => evalApplyClosure X data scope
  | true,false => .value <$> evalApplyHandler X F env data scope

/-! The choice of the form. -/

def evaluateForm (form : Form) (data : Value) (scope : Scope) : Eval EvalResult :=
  match form with
  | .literal => return .value (evalLiteral data)
  | .lookupScope => return .value (evalLookupScope data scope)
  | .lookupTree => evalLookupTree env data scope
  | .lookupHash => evalLookupHash data scope
  | .apply => evalApply X F env data scope
  | .if => evalIf data scope
  | .let => evalLet data scope
  | .lambda => .value <$> evalLambda X data scope
  | .arithmetic => .value <$> evalArithmetic F data scope
  | .compare => .value <$> evalCompare F data scope
  | .logic => .value <$> evalLogic data scope
  | .field => .value <$> evalField X data scope
  | .construct => .value <$> evalConstruct X data scope
  | .index => .value <$> evalIndex data scope
  | .length => .value <$> evalLength data scope
  | .numericCast => .value <$> evalNumericCast F data scope

def evaluateInner (entity : Entity) (scope : Scope) : Eval EvalResult := do
  let data ← orEarly (decodeData X entity) (invalid "cannot decode entity data")
  match Form.ofType entity.entityType with
  | some form => evaluateForm X F env form data scope
  | none => .early (.error (.unknownType
      ("Unknown compute type: "++String.ofList entity.entityType)))

end Apply

/-! The context of an evaluation. -/

/-- The stores behind the context and the dispatch to handlers, which may change them. -/
structure Host (W : Type) where
  contentGet : W → Hash → Option Entity
  contentPut : W → Entity → Option Hash × W
  indexGet : W → Str → Option Hash
  indexSet : W → Str → Hash → W
  dispatchExecute : Option (W → Str → Str → Option ResourceTarget → Entity → Option Entity →
    ComputeValue × W)

/-- The in-memory stores. -/
def Host.memory (dispatchExecute : Option (ContentStore × MemoryLocationIndex → Str → Str →
    Option ResourceTarget → Entity → Option Entity →
      ComputeValue × (ContentStore × MemoryLocationIndex))) :
    Host (ContentStore × MemoryLocationIndex) where
  contentGet w hash := w.1.get hash
  contentPut w entity := (some entity.contentHash,(w.1.put entity,w.2))
  indexGet w key := w.2.get key
  indexSet w key hash := (w.1,w.2.set key hash)
  dispatchExecute := dispatchExecute

/-- What an evaluation did, for the statements about it. -/
inductive Event where
  | read (path key : Str)
  | wrote (path key : Str)
  | manifest (key : Str)
  | executed (path operation : Str) (resource : Option ResourceTarget) (params : Entity)
      (capability : Option Entity)
  /-- Nothing in flight under a hash. -/
  | missedField (hash : Hash)
  /-- Nothing met under a hash. -/
  | missedReferent (hash : Hash)
  /-- Nothing in reach under a hash. -/
  | missedEntity (hash : Hash)
  /-- Another entity was stored under a hash. -/
  | replaced (hash : Hash)
  | exhausted
  | tooDeep
  deriving DecidableEq

structure EvalState (W : Type) where
  operations : ℕ
  depth : ℕ
  encountered : OrderedMap Hash Entity
  constructedInFlight : OrderedMap Hash (OrderedMap Str ComputeValue)
  dependencyPaths : Option (List Str)
  world : W
  log : List Event

section State

variable {W : Type} (host : Host W) (env : EvalEnv)

def EvalState.note (s : EvalState W) (e : Event) : EvalState W := {s with log := e::s.log}

/-- What is handed over, met or stored under a hash. -/
def EvalState.inReach (s : EvalState W) (hash : Hash) : Option Entity :=
  env.included.get hash <|> s.encountered.get hash <|> host.contentGet s.world hash

/-- An expression reaches entities of a compute type, and others that are authorized by name. -/
def EvalState.resolve (s : EvalState W) (hash : Hash) : Option Entity :=
  (s.inReach host env hash).filter
    fun e => isComputeType e || env.authorizedDataHashes.contains hash

/-- The answer to a lookup, with its failure noted. -/
def EvalState.answer {α β : Type} (s : EvalState W) (found : Option α) (missed : Event) (b : β) :
    Option β × EvalState W :=
  (some b,if found.isNone then s.note missed else s)

def EvalState.put (s : EvalState W) (entity : Entity) : Option Hash × EvalState W :=
  let (stored,world) := host.contentPut s.world entity
  (stored,if (host.contentGet s.world entity.contentHash).all fun e => e = entity then
    {s with world := world} else {s with world := world, log := .replaced entity.contentHash::s.log})

/-- What a command does to the context, given how sub-expressions are evaluated. -/
def performCommand (eval : Entity → Scope → EvalState W → Option ComputeValue × EvalState W) :
    (c : Command) → EvalState W → Option (Answer c) × EvalState W
  | .evaluate entity scope, s => eval entity scope s
  | .charge n, s =>
    if n > s.operations then (some false,s.note .exhausted)
    else (some true,{s with operations := s.operations-n})
  | .resolve hash, s =>
    s.answer (s.inReach host env hash) (.missedEntity hash) (s.resolve host env hash)
  | .resolveScopeEntity hash, s =>
    match env.included.get hash <|> host.contentGet s.world hash with
    | some e => (some (some e),{s with encountered := s.encountered.insert hash e})
    | none => (some none,s.note (.missedEntity hash))
  | .meet hash, s =>
    match host.contentGet s.world hash with
    | some e => (some (some e),{s with encountered := s.encountered.insert e.contentHash e})
    | none => (some none,s.note (.missedEntity hash))
  | .keep entity, s => let s' := (s.put host entity).2
    (some (),{s' with encountered := s'.encountered.insert entity.contentHash entity})
  | .referent hash, s => s.answer (s.encountered.get hash) (.missedReferent hash)
      (s.encountered.get hash <|> env.included.get hash)
  | .inFlight hash, s => s.answer (s.constructedInFlight.get hash) (.missedField hash)
      (s.constructedInFlight.get hash)
  | .recordConstructed hash fields, s =>
    (some (),{s with constructedInFlight := s.constructedInFlight.insert hash fields})
  | .contentGet hash, s => s.answer (host.contentGet s.world hash) (.missedEntity hash)
      (host.contentGet s.world hash)
  | .contentPut entity, s => let (stored,s') := s.put host entity; (some stored,s')
  | .depend path, s => (some (),{s with dependencyPaths := s.dependencyPaths.map (·++[path])})
  | .treeGet path key, s => (some (host.indexGet s.world key),s.note (.read path key))
  | .treeSet path key hash, s =>
    (some (),({s with world := host.indexSet s.world key hash} : EvalState W).note (.wrote path key))
  | .manifestGet key, s => (some (host.indexGet s.world key),s.note (.manifest key))
  | .execute path operation resource params capability, s => match host.dispatchExecute with
    | none => (some none,s)
    | some dispatch =>
      let (v,world) := dispatch s.world path operation resource params capability
      (some (some v),({s with world := world} : EvalState W).note
        (.executed path operation resource params capability))

/-- What a command may leave in the log. -/
def Command.event : Command → Option Event
  | .charge _ => some .exhausted
  | .resolve hash => some (.missedEntity hash)
  | .resolveScopeEntity hash => some (.missedEntity hash)
  | .meet hash => some (.missedEntity hash)
  | .contentGet hash => some (.missedEntity hash)
  | .referent hash => some (.missedReferent hash)
  | .inFlight hash => some (.missedField hash)
  | .keep entity => some (.replaced entity.contentHash)
  | .contentPut entity => some (.replaced entity.contentHash)
  | .treeGet path key => some (.read path key)
  | .treeSet path key _ => some (.wrote path key)
  | .manifestGet key => some (.manifest key)
  | .execute path operation resource params capability =>
    some (.executed path operation resource params capability)
  | _ => none

variable {host env}

theorem answer_log {α β : Type} (s : EvalState W) (found : Option α) (missed : Event) (b : β) :
    (s.answer found missed b).2.log = s.log ∨ (s.answer found missed b).2.log = missed::s.log := by
  unfold EvalState.answer
  by_cases h : found.isNone
  · simp [h,EvalState.note]
  · simp [h]

theorem put_log (s : EvalState W) (entity : Entity) : (s.put host entity).2.log = s.log ∨
    (s.put host entity).2.log = .replaced entity.contentHash::s.log := by
  dsimp only [EvalState.put]
  split
  · exact Or.inl rfl
  · exact Or.inr rfl

theorem performCommand_log
    {eval : Entity → Scope → EvalState W → Option ComputeValue × EvalState W} (c : Command)
    (s : EvalState W) : (∃ e scope, c = .evaluate e scope) ∨
      (performCommand host env eval c s).2.log = s.log ∨
      ∃ event, c.event = some event ∧ (performCommand host env eval c s).2.log = event::s.log := by
  cases c with
  | evaluate e scope => exact Or.inl ⟨e,scope,rfl⟩
  | charge n =>
    right
    dsimp only [performCommand]
    split
    · exact Or.inr ⟨_,rfl,rfl⟩
    · exact Or.inl rfl
  | resolve hash => exact Or.inr ((answer_log _ _ _ _).imp_right fun h => ⟨_,rfl,h⟩)
  | resolveScopeEntity hash =>
    right
    dsimp only [performCommand]
    split
    · exact Or.inl rfl
    · exact Or.inr ⟨_,rfl,rfl⟩
  | meet hash =>
    right
    dsimp only [performCommand]
    split
    · exact Or.inl rfl
    · exact Or.inr ⟨_,rfl,rfl⟩
  | keep entity => exact Or.inr ((put_log s entity).imp_right fun h => ⟨_,rfl,h⟩)
  | referent hash => exact Or.inr ((answer_log _ _ _ _).imp_right fun h => ⟨_,rfl,h⟩)
  | inFlight hash => exact Or.inr ((answer_log _ _ _ _).imp_right fun h => ⟨_,rfl,h⟩)
  | contentGet hash => exact Or.inr ((answer_log _ _ _ _).imp_right fun h => ⟨_,rfl,h⟩)
  | contentPut entity => exact Or.inr ((put_log s entity).imp_right fun h => ⟨_,rfl,h⟩)
  | treeGet path key => exact Or.inr (Or.inr ⟨_,rfl,rfl⟩)
  | treeSet path key hash => exact Or.inr (Or.inr ⟨_,rfl,rfl⟩)
  | manifestGet key => exact Or.inr (Or.inr ⟨_,rfl,rfl⟩)
  | execute path operation resource params capability =>
    right
    dsimp only [performCommand]
    split
    · exact Or.inl rfl
    · exact Or.inr ⟨_,rfl,rfl⟩
  | _ => exact Or.inr (Or.inl rfl)

/-- A command evaluates, charges or does neither. -/
theorem Command.budget_cases (c : Command) : (∃ e scope, c = .evaluate e scope) ∨
    (∃ n, c = .charge n) ∨ (∀ e scope, c ≠ .evaluate e scope) ∧ ∀ n, c ≠ .charge n := by
  by_cases hevaluate : ∃ e scope, c = .evaluate e scope
  · exact .inl hevaluate
  by_cases hcharge : ∃ n, c = .charge n
  · exact .inr (.inl hcharge)
  · exact .inr (.inr ⟨fun e scope h => hevaluate ⟨e,scope,h⟩,fun n h => hcharge ⟨n,h⟩⟩)

theorem answer_budget {α β : Type} (s : EvalState W) (operations depth : ℕ) (found : Option α)
    (missed : Event) (b : β) :
    ({s with operations := operations, depth := depth} : EvalState W).answer found missed b =
      ((s.answer found missed b).1,
        {(s.answer found missed b).2 with operations := operations, depth := depth}) := by
  dsimp only [EvalState.answer]
  split <;> rfl

theorem put_budget (s : EvalState W) (operations depth : ℕ) (entity : Entity) :
    ({s with operations := operations, depth := depth} : EvalState W).put host entity =
      ((s.put host entity).1,
        {(s.put host entity).2 with operations := operations, depth := depth}) := by
  dsimp only [EvalState.put]
  split <;> rfl

variable (host env) in
/-- Only evaluations and charges look at the budget, and no other command changes it. -/
theorem performCommand_budget
    (eval eval' : Entity → Scope → EvalState W → Option ComputeValue × EvalState W) {c : Command}
    (hevaluate : ∀ e scope, c ≠ .evaluate e scope) (hcharge : ∀ n, c ≠ .charge n)
    (s : EvalState W) (operations depth : ℕ) :
    performCommand host env eval' c {s with operations := operations, depth := depth} =
      ((performCommand host env eval c s).1,
        {(performCommand host env eval c s).2 with operations := operations, depth := depth}) := by
  cases c with
  | evaluate e scope => exact absurd rfl (hevaluate e scope)
  | charge n => exact absurd rfl (hcharge n)
  | resolveScopeEntity hash =>
    dsimp only [performCommand]
    split <;> rfl
  | meet hash =>
    dsimp only [performCommand]
    split <;> rfl
  | keep entity =>
    dsimp only [performCommand]
    rw [put_budget]
  | contentPut entity =>
    dsimp only [performCommand]
    rw [put_budget]
  | execute path operation resource params capability =>
    dsimp only [performCommand]
    split <;> rfl
  | resolve hash => exact answer_budget _ _ _ _ _ _
  | referent hash => exact answer_budget _ _ _ _ _ _
  | inFlight hash => exact answer_budget _ _ _ _ _ _
  | contentGet hash => exact answer_budget _ _ _ _ _ _
  | _ => rfl

/-- Only evaluations and charges touch the operations. -/
theorem command_operations
    {eval : Entity → Scope → EvalState W → Option ComputeValue × EvalState W} {c : Command}
    (hevaluate : ∀ e scope, c ≠ .evaluate e scope) (hcharge : ∀ n, c ≠ .charge n)
    (s : EvalState W) : (performCommand host env eval c s).2.operations = s.operations :=
  congrArg (fun r => r.2.operations)
    (performCommand_budget host env eval eval hevaluate hcharge s s.operations s.depth)

end State

/-! The trampoline. -/

section Trampoline

variable {W : Type} (X : Platform) (F : Runtime) (host : Host W) (env : EvalEnv)

/-- The end of an evaluation that has spent its operations. -/
def EvalState.spend (s : EvalState W) : EvalState W := {s with operations := 0, log := .exhausted::s.log}

/-- Entering an evaluation takes one level of depth until it returns. -/
def enter (loop : Bool → Entity → Scope → EvalState W → Option ComputeValue × EvalState W)
    (entity : Entity) (scope : Scope) (s : EvalState W) : Option ComputeValue × EvalState W :=
  if !isComputeExpression entity then (some (.entity entity),s)
  else if s.depth = 0 then (some (.error .depthExceeded),s.note .tooDeep)
  else
    let (v,s') := loop false entity scope {s with depth := s.depth-1}
    (v,{s' with depth := s'.depth+1})

def stripIf (strip : Bool) (v : ComputeValue) : ComputeValue := if strip then stripCastTag v else v

/-- The loop: every round takes an operation, so that as many rounds and levels as there are
operations suffice. -/
def trampoline : ℕ → Bool → Entity → Scope → EvalState W → Option ComputeValue × EvalState W
  | 0, _, _, _, s => (some (.error .budgetExhausted),s.spend)
  | rounds+1, stripPending, current, scope, s =>
    let s := {s with operations := s.operations-1}
    if s.operations = 0 then (some (.error .budgetExhausted),s.spend)
    else match (evaluateInner X F env current scope).run
        (performCommand host env (enter (trampoline rounds))) s with
      | (.done (.tailCall next nextScope strip),s') =>
        if !isComputeExpression next then
          (some (stripIf (stripPending || strip) (.entity next)),s')
        else trampoline rounds (stripPending || strip) next nextScope s'
      | (.done (.value v),s') => (some (stripIf stripPending v),s')
      | (.early v,s') => (some (stripIf stripPending v),s')
      | (.fault,s') => (none,s')

def evaluate (entity : Entity) (scope : Scope) (s : EvalState W) :
    Option ComputeValue × EvalState W :=
  enter (trampoline X F host env s.operations) entity scope s

end Trampoline

/-! What the commands keep, an evaluation keeps. -/

section Keeps

variable {W : Type} {X : Platform} {F : Runtime} {host : Host W} {env : EvalEnv}
  {good : Command → Prop} {I : EvalState W → Prop}

/-- An invariant of single commands that does not speak of the budget; `good` is what the
forms may issue. -/
structure CommandsKeep (host : Host W) (env : EvalEnv) (good : Command → Prop)
    (I : EvalState W → Prop) : Prop where
  command : ∀ eval, (∀ e scope s, I s → I (eval e scope s).2) →
    ∀ c s, good c → I s → I (performCommand host env eval c s).2
  budget : ∀ s operations depth, I s → I {s with operations := operations, depth := depth}
  spent : ∀ s, I s → I s.spend
  tooDeep : ∀ s, I s → I (s.note .tooDeep)

/-- An invariant of the log that holds of what single commands report. -/
theorem CommandsKeep.of_log {J : List Event → Prop}
    (hreport : ∀ c event log, good c → c.event = some event → J log → J (event::log))
    (hspent : ∀ log, J log → J (.exhausted::log)) (htooDeep : ∀ log, J log → J (.tooDeep::log)) :
    CommandsKeep host env good fun s => J s.log where
  command eval heval c s hgood hs := by
    obtain ⟨e,scope,rfl⟩ | hsame | ⟨event,hevent,hlog⟩ := performCommand_log c s
    · exact heval e scope s hs
    · exact hsame ▸ hs
    · exact hlog ▸ hreport c event s.log hgood hevent hs
  budget s _ _ hs := hs
  spent s hs := hspent s.log hs
  tooDeep s hs := htooDeep s.log hs

theorem enter_keeps (h : CommandsKeep host env good I)
    {loop : Bool → Entity → Scope → EvalState W → Option ComputeValue × EvalState W}
    (hloop : ∀ strip e scope s, I s → I (loop strip e scope s).2) (e : Entity) (scope : Scope)
    (s : EvalState W) (hs : I s) : I (enter loop e scope s).2 := by
  unfold enter
  split
  · exact hs
  · split
    · exact h.tooDeep s hs
    · have hinner := hloop false e scope _ (h.budget s s.operations (s.depth-1) hs)
      exact h.budget _ _ _ hinner

theorem trampoline_keeps (h : CommandsKeep host env good I)
    (hforms : ∀ e scope, (evaluateInner X F env e scope).All good) (rounds : ℕ) :
    ∀ strip e scope s, I s → I (trampoline X F host env rounds strip e scope s).2 := by
  induction rounds with
  | zero =>
    intro strip e scope s hs
    exact h.spent s hs
  | succ rounds ih =>
    intro strip e scope s hs
    have hcharged := h.budget s (s.operations-1) s.depth hs
    have hrun := run_keeps (h := performCommand host env (enter (trampoline X F host env rounds)))
      (fun c s => h.command _ (enter_keeps h ih) c s) (evaluateInner X F env e scope)
      (hforms e scope) hcharged
    unfold trampoline
    dsimp only
    split
    · exact h.spent _ hcharged
    · split
      · rename_i hended
        rw [hended] at hrun
        split
        · exact hrun
        · exact ih _ _ _ _ hrun
      · rename_i hended
        rw [hended] at hrun
        exact hrun
      · rename_i hended
        rw [hended] at hrun
        exact hrun
      · rename_i hended
        rw [hended] at hrun
        exact hrun

theorem evaluate_keeps (h : CommandsKeep host env good I)
    (hforms : ∀ e scope, (evaluateInner X F env e scope).All good) (e : Entity) (scope : Scope)
    (s : EvalState W) (hs : I s) : I (evaluate X F host env e scope s).2 :=
  enter_keeps h (trampoline_keeps h hforms s.operations) e scope s hs

end Keeps

end Compute

end EntityCore
