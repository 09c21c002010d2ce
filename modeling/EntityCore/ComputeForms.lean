import EntityCore.ComputeOps
import EntityCore.Program

/-! The expression forms, as programs over what an evaluation does to its context. A
sub-expression is evaluated by a command, so that the forms do not depend on how the
evaluator recurs. -/
namespace EntityCore
namespace Compute

open Ecf Strings Program

inductive Command where
  | evaluate (entity : Entity) (scope : Scope)
  /-- Charge the budget with `n` operations, if it has them. -/
  | charge (n : ℕ)
  | resolve (hash : Hash)
  /-- What is handed over or stored under a hash; it counts as met from then on. -/
  | resolveScopeEntity (hash : Hash)
  /-- What is stored under a hash; it counts as met from then on. -/
  | meet (hash : Hash)
  /-- Make an entity resident and met. -/
  | keep (entity : Entity)
  /-- What this evaluation has met or was handed under a hash. -/
  | referent (hash : Hash)
  | inFlight (hash : Hash)
  | recordConstructed (hash : Hash) (fields : OrderedMap Str ComputeValue)
  | contentGet (hash : Hash)
  | contentPut (entity : Entity)
  | depend (path : Str)
  /-- The read of a tree lookup, of the path it was written with and at the key it takes. -/
  | treeGet (path key : Str)
  | treeSet (path key : Str) (hash : Hash)
  /-- A read that looks for the declaration of a handler. -/
  | manifestGet (key : Str)
  | execute (path operation : Str) (resource : Option ResourceTarget) (params : Entity)
      (capability : Option Entity)

def Answer : Command → Type
  | .evaluate _ _ => ComputeValue
  | .charge _ => Bool
  | .resolve _ => Option Entity
  | .resolveScopeEntity _ => Option Entity
  | .meet _ => Option Entity
  | .keep _ => Unit
  | .referent _ => Option Entity
  | .inFlight _ => Option (OrderedMap Str ComputeValue)
  | .recordConstructed _ _ => Unit
  | .contentGet _ => Option Entity
  | .contentPut _ => Option Hash
  | .depend _ => Unit
  | .treeGet _ _ => Option Hash
  | .treeSet _ _ _ => Unit
  | .manifestGet _ => Option Hash
  | .execute _ _ _ _ _ => Option ComputeValue

/-- A piece of the evaluator; it may return a value early. -/
abbrev Eval (α : Type) : Type := Program Answer ComputeValue α

/-- A final value, or what to go on with in its place. -/
inductive EvalResult where
  | value (v : ComputeValue)
  | tailCall (entity : Entity) (scope : Scope) (stripResult : Bool)

/-- What an evaluation reads and never changes. -/
structure EvalEnv where
  included : OrderedMap Hash Entity
  localPeerId : Str
  capability : Option CapabilityToken
  authorizedDataHashes : List Hash
  subgraphRoot : Option Str

def invalid (message : String) : ComputeValue := .error (.invalidExpression message)

/-! The commands as programs. -/

def evaluateSub (entity : Entity) (scope : Scope) : Eval ComputeValue :=
  perform (Command.evaluate entity scope)
def charge (n : ℕ) : Eval Bool := perform (Command.charge n)
def resolve (hash : Hash) : Eval (Option Entity) := perform (Command.resolve hash)
def resolveScopeEntity (hash : Hash) : Eval (Option Entity) :=
  perform (Command.resolveScopeEntity hash)
def meet (hash : Hash) : Eval (Option Entity) := perform (Command.meet hash)
def keep (entity : Entity) : Eval Unit := perform (Command.keep entity)
def referent (hash : Hash) : Eval (Option Entity) := perform (Command.referent hash)
def inFlight (hash : Hash) : Eval (Option (OrderedMap Str ComputeValue)) :=
  perform (Command.inFlight hash)
def recordConstructed (hash : Hash) (fields : OrderedMap Str ComputeValue) : Eval Unit :=
  perform (Command.recordConstructed hash fields)
def contentGet (hash : Hash) : Eval (Option Entity) := perform (Command.contentGet hash)
def contentPut (entity : Entity) : Eval (Option Hash) := perform (Command.contentPut entity)
def depend (path : Str) : Eval Unit := perform (Command.depend path)
def treeGet (path key : Str) : Eval (Option Hash) := perform (Command.treeGet path key)
def treeSet (path key : Str) (hash : Hash) : Eval Unit := perform (Command.treeSet path key hash)
def manifestGet (key : Str) : Eval (Option Hash) := perform (Command.manifestGet key)
def execute (path operation : Str) (resource : Option ResourceTarget) (params : Entity)
    (capability : Option Entity) : Eval (Option ComputeValue) :=
  perform (Command.execute path operation resource params capability)

/-! Helpers. -/

def resolveOrError (hash : Hash) (label : String) : Eval Entity := do
  orEarly (← resolve hash)
    (.error (.notFound ("Cannot resolve hash for "++label++ ": "++HashError.displayHash hash)))

/-- An error in a consumed position is the result. -/
def consumed (v : ComputeValue) : Eval ComputeValue := if v.isError then .early v else .done v

def evalHashRef (data : Value) (key label : String) (scope : Scope) : Eval ComputeValue := do
  let hash ← orEarly (dataHash data key) (invalid ("Missing or invalid hash field '"++key++ "'"))
  let target ← resolveOrError hash label
  evaluateSub target scope

def operand (data : Value) (key label : String) (scope : Scope) : Eval ComputeValue := do
  consumed (← evalHashRef data key label scope)

/-- The sort that gives canonical map order: by encoded length, then by bytes. -/
def canonicalSortedPairs {α : Type} (pairs : List (Str × α)) : List (Str × α) :=
  pairs.insertionSort fun a b => keyLe (toEcf (.text a.1)) (toEcf (.text b.1))

def computeValueToCbor (X : Platform) : ComputeValue → Eval Value
  | .primitive v => pure v
  | .entity e => pure (hashRef e.contentHash)
  | .closure c => do return hashRef (← expect (c.toEntity X)).contentHash
  | .error e => do return hashRef (← expect (e.toEntity X)).contentHash
  | .uint u => pure (unsignedInteger u)

def resolveRelativePath (root : Option Str) (path : Str) : Str :=
  match root with
  | some r => (r.reverse.dropWhile (· = '/')).reverse++ '/'::path.dropWhile (· = '/')
  | none => path

def qualifyPath (path localPeerId : Str) : Str :=
  if startsWith path ['/'] then path else '/'::localPeerId++ '/'::path

def checkPermission (operation handlerPattern targetPeer : Str) (resource : Option ResourceTarget)
    (capability : CapabilityToken) (localPeerId : Str) : Bool :=
  capability.grants.any
    (grantAuthorizes operation handlerPattern targetPeer resource localPeerId localPeerId)

/-- May the capability `operation` a single tree path? -/
def treePermission (operation : String) (path : Str) (capability : CapabilityToken)
    (localPeerId : Str) : Bool :=
  checkPermission operation.toList ('/'::localPeerId++ "/system/tree".toList) localPeerId
    (some ⟨[path],[]⟩) capability localPeerId

/-! Literals and lookups. -/

def evalLiteral (data : Value) : ComputeValue :=
  match data.get "value".toList with
  | some v => .primitive v
  | none => invalid "compute/literal missing 'value' field"

def evalLookupScope (data : Value) (scope : Scope) : ComputeValue :=
  match dataStr data "name" with
  | none => invalid "compute/lookup/scope missing 'name' field"
  | some name => (scope.get name).getD
      (.error (.notFound ("No scope binding: "++String.ofList name)))

def evalLookupTree (env : EvalEnv) (data : Value) (scope : Scope) : Eval EvalResult := do
  let path ← orEarly (dataStr data "path") (invalid "compute/lookup/tree missing 'path' field")
  let resolvedPath := if dataBool data "relative" = some true then
    resolveRelativePath env.subgraphRoot path else path
  match env.capability with
  | none => .early (.error (.permissionDenied
      ("No capability available for tree read: "++String.ofList resolvedPath)))
  | some cap =>
    if !treePermission "get" resolvedPath cap env.localPeerId then
      .early (.error (.permissionDenied
        ("Capability does not cover tree read: "++String.ofList resolvedPath)))
    else do
      let missing := ComputeValue.error (.notFound ("No entity at path: "++String.ofList resolvedPath))
      depend resolvedPath
      let hash ← orEarly (← treeGet resolvedPath (qualifyPath resolvedPath env.localPeerId))
        missing
      let treeEntity ← orEarly (← meet hash) missing
      return .tailCall treeEntity scope false

def evalLookupHash (data : Value) (scope : Scope) : Eval EvalResult := do
  let hash ← orEarly (dataHash data "hash") (invalid "compute/lookup/hash missing 'hash' field")
  let target ← resolveOrError hash "hash lookup"
  return .tailCall target scope false

/-! Scopes as entities. -/

def kindEntityBinding (hash : Hash) : Value :=
  .map [entry "kind" (.text "entity".toList),entry "entity_hash" (hashRef hash)]

def kindValueBinding (v : Value) : Value := .map [entry "kind" (.text "value".toList),entry "value" v]

/-- Make an entity resident and bind its hash. -/
def bindResident (entity : Entity) : Eval Value := do
  let _ ← contentPut entity
  return kindEntityBinding entity.contentHash

def encodeScopeBinding (X : Platform) : ComputeValue → Eval Value
  | .entity e => bindResident e
  | .closure c => do bindResident (← expect (c.toEntity X))
  | .error err => do bindResident (← expect (err.toEntity X))
  | .primitive v => pure (kindValueBinding v)
  | .uint u => pure (kindValueBinding (integer u.toNat))

def captureScope (X : Platform) (scope : Scope) : Eval (Option Hash) := do
  if scope.entries.isEmpty then return none
  else do
    let entries ← mapEach (fun b : Str × ComputeValue => do
      return (Value.text b.1,← encodeScopeBinding X b.2)) (canonicalSortedPairs scope.entries)
    let entity ← expect (Entity.new X typeScope
      (toEcf (.map [entry "bindings" (.map entries)]))).toOption
    keep entity
    return some entity.contentHash

def parseClosureEntity (X : Platform) (entity : Entity) : Option ClosureValue := do
  let data ← decodeData X entity
  return ⟨← dataStrArray data "params",← dataHash data "body",dataHash data "env"⟩

def unreachableBinding (message : String) : ComputeValue := .error (.scopeUnreachable message)

def decodeScopeBinding (X : Platform) (binding : Value) : Eval ComputeValue := do
  let kind ← orEarly (dataStr binding "kind")
    (unreachableBinding "scope binding missing 'kind' discriminator")
  if kind = "entity".toList then do
    let bytes ← orEarly ((binding.get "entity_hash".toList).bind Value.asBytes)
      (unreachableBinding "kind:\"entity\" binding missing 'entity_hash'")
    let hash ← orEarly (Hash.fromBytes bytes).toOption
      (unreachableBinding "kind:\"entity\" binding has malformed entity_hash")
    let resolved ← orEarly (← resolveScopeEntity hash) (unreachableBinding
      ("scope binding entity not resolvable: "++HashError.displayHash hash))
    match if resolved.entityType = typeClosure then parseClosureEntity X resolved else none with
    | some closure => return .closure closure
    | none => return .entity resolved
  else if kind = "value".toList then do
    let v ← orEarly (binding.get "value".toList)
      (unreachableBinding "kind:\"value\" binding missing 'value'")
    return .primitive v
  else .early (unreachableBinding ("scope binding has unknown kind: "++String.ofList kind))

def loadBinding (X : Platform) (scope : Scope) (kv : Value × Value) : Eval Scope :=
  match kv.1.asText with
  | none => pure scope
  | some name => do return scope.insert name (← decodeScopeBinding X kv.2)

/-- The scope a closure was made in; one that is gone counts as empty. -/
def loadScope (X : Platform) (envHash : Option Hash) : Eval Scope :=
  match envHash with
  | none => pure .empty
  | some hash => do
    match ← resolveScopeEntity hash with
    | none => return .empty
    | some entity =>
      match ((decodeData X entity).bind fun data => data.get "bindings".toList).bind Value.asMap with
      | some entries => foldEach (loadBinding X) .empty entries
      | none => return .empty

/-! Control. -/

def evalIf (data : Value) (scope : Scope) : Eval EvalResult := do
  let condHash ← orEarly (dataHash data "condition") (invalid "compute/if missing 'condition'")
  let condTarget ← resolveOrError condHash "if condition"
  let condition ← consumed (← evaluateSub condTarget scope)
  if condition.isTruthy then do
    let thenHash ← orEarly (dataHash data "then") (invalid "compute/if missing 'then'")
    let thenTarget ← resolveOrError thenHash "if then"
    return .tailCall thenTarget scope true
  else match dataHash data "else" with
    | some elseHash => do
      let elseTarget ← resolveOrError elseHash "if else"
      return .tailCall elseTarget scope true
    | none => return .value (.primitive .null)

/-- Each binding is evaluated in the scope of the ones before; the cast tag stays outside. -/
def bindLet (scope : Scope) (binding : Value) : Eval Scope := do
  let name ← orEarly (dataStr binding "name") (invalid "let binding missing 'name'")
  let bytes ← orEarly ((binding.get "value".toList).bind Value.asBytes)
    (invalid "let binding missing 'value'")
  let valueHash ← orEarly (Hash.fromBytes bytes).toOption
    (invalid "let binding 'value' is not a valid hash")
  let valueTarget ← resolveOrError valueHash ("let binding "++String.ofList name)
  let value ← consumed (← evaluateSub valueTarget scope)
  return scope.insert name (stripCastTag value)

def evalLet (data : Value) (scope : Scope) : Eval EvalResult := do
  let bindings ← orEarly ((data.get "bindings".toList).bind Value.asArray)
    (invalid "compute/let missing 'bindings' array")
  let bodyHash ← orEarly (dataHash data "body") (invalid "compute/let missing 'body'")
  let newScope ← foldEach bindLet scope bindings
  let bodyTarget ← resolveOrError bodyHash "let body"
  return .tailCall bodyTarget newScope false

def evalLambda (X : Platform) (data : Value) (scope : Scope) : Eval ComputeValue := do
  let params ← orEarly (dataStrArray data "params") (invalid "compute/lambda missing 'params'")
  let body ← orEarly (dataHash data "body") (invalid "compute/lambda missing 'body'")
  return .closure ⟨params,body,← captureScope X scope⟩

/-! Operators. -/

section Operators

variable (F : Runtime)

def evalArithmetic (data : Value) (scope : Scope) : Eval ComputeValue := do
  let op ← orEarly (dataStr data "op") (invalid "compute/arithmetic missing 'op'")
  let left ← operand data "left" "arithmetic left" scope
  let right ← operand data "right" "arithmetic right" scope
  expect (applyArithmetic F op left right)

def evalCompare (data : Value) (scope : Scope) : Eval ComputeValue := do
  let op ← orEarly (dataStr data "op") (invalid "compute/compare missing 'op'")
  let left ← operand data "left" "compare left" scope
  let right ← operand data "right" "compare right" scope
  return applyCompare F op left right

def evalLogic (data : Value) (scope : Scope) : Eval ComputeValue := do
  let op ← orEarly (dataStr data "op") (invalid "compute/logic missing 'op'")
  let left ← operand data "left" "logic left" scope
  if op = "not".toList then return .primitive (.bool (!left.isTruthy))
  else if op = "and".toList then do
    let right ← operand data "right" "logic right" scope
    return .primitive (.bool (left.isTruthy && right.isTruthy))
  else if op = "or".toList then do
    let right ← operand data "right" "logic right" scope
    return .primitive (.bool (left.isTruthy || right.isTruthy))
  else return invalid ("Unknown logic op: "++String.ofList op)

def evalNumericCast (data : Value) (scope : Scope) : Eval ComputeValue := do
  let toType ← orEarly (dataStr data "to_type") (invalid "compute/numeric-cast missing 'to_type'")
  let value ← operand data "value" "numeric-cast value" scope
  return numericCast F toType value

end Operators

/-! Fields, arrays and construction. -/

/-- A field as this evaluation constructed it. -/
def inFlightField (hash : Hash) (name : Str) : Eval (Option ComputeValue) := do
  return (← inFlight hash).bind fun fields => fields.get name

def bareField (X : Platform) (name : Str) (target : ComputeValue) : ComputeValue :=
  let found (data : Value) := match data.get name with
    | some v => .primitive v
    | none => .error (.notFound ("Field not found: "++String.ofList name))
  match target with
  | .entity e => match decodeData X e with
    | some data => found data
    | none => .error (.typeMismatch "Field access requires an entity with decodable data")
  | .primitive (.map entries) => found (.map entries)
  | _ => .error (.typeMismatch "Field access requires an entity with data, got non-entity value")

/-- The typed value of an entity under construction, also behind its bare hash; else the
bare data. -/
def extractField (X : Platform) (name : Str) (target : ComputeValue) : Eval ComputeValue := do
  let typed ← match target with
    | .entity e => inFlightField e.contentHash name
    | .primitive (.bytes b) => match Hash.fromBytes b with
      | .ok h => inFlightField h name
      | .error _ => pure none
    | _ => pure none
  match typed with
  | some v => return v
  | none => return bareField X name target

def evalField (X : Platform) (data : Value) (scope : Scope) : Eval ComputeValue := do
  let name ← orEarly (dataStr data "name") (invalid "compute/field missing 'name'")
  let target ← operand data "entity" "field target" scope
  extractField X name target

def evalIndex (data : Value) (scope : Scope) : Eval ComputeValue := do
  let arrayVal ← operand data "array" "index array" scope
  let indexVal ← operand data "index" "index index" scope
  let items ← orEarly arrayVal.asArray
    (.error (.typeMismatch "compute/index requires array operand"))
  let idx ← orEarly indexVal.asI128 (.error (.typeMismatch "compute/index requires integer index"))
  if idx < 0 then .early (.error (.indexOutOfRange
    ("negative index "++toString idx++ " (no from-end indexing)")))
  else .primitive <$> orEarly items[idx.toNat]? (.error (.indexOutOfRange
    ("index "++toString idx++ " >= length "++toString items.length)))

def evalLength (data : Value) (scope : Scope) : Eval ComputeValue := do
  let arrayVal ← operand data "array" "length array" scope
  let items ← orEarly arrayVal.asArray
    (.error (.typeMismatch "compute/length requires array operand"))
  return .primitive (integer items.length)

/-- Make an entity resident and met, and refer to it by its hash. -/
def storeRef (entity : Entity) : Eval Value := do
  keep entity
  return hashRef entity.contentHash

def encodeConstructFieldBare (X : Platform) : ComputeValue → Eval Value
  | .entity e => storeRef e
  | .closure c => do storeRef (← expect (c.toEntity X))
  | .error err => do storeRef (← expect (err.toEntity X))
  | .primitive v => pure v
  | .uint u => pure (unsignedInteger u)

/-- A field of the new entity: its typed value and its encoded one. -/
def constructField (X : Platform) (scope : Scope) (f : Str × Hash) :
    Eval (Str × ComputeValue × Value) := do
  let target ← resolveOrError f.2 ("construct field "++String.ofList f.1)
  let value ← consumed (← evaluateSub target scope)
  return (f.1,stripCastTag value,← encodeConstructFieldBare X value)

def evalConstruct (X : Platform) (data : Value) (scope : Scope) : Eval ComputeValue := do
  let entityType ← orEarly (dataStr data "entity_type")
    (invalid "compute/construct missing 'entity_type'")
  let fields ← orEarly (dataHashMap data "fields") (invalid "compute/construct missing 'fields'")
  let built ← mapEach (constructField X scope) (canonicalSortedPairs fields)
  match Entity.new X entityType (toEcf (.map (built.map fun f => (.text f.1,f.2.2)))) with
  | .error err => .early (invalid ("Failed to create entity: "++err.display))
  | .ok materialized => do
    keep materialized
    recordConstructed materialized.contentHash
      (built.foldl (fun m f => m.insert f.1 f.2.1) .empty)
    return .entity materialized

end Compute

end EntityCore
