import EntityCore.ComputeForms

/-! The builtins that `compute/apply` evaluates in place: the aliases of the inline forms,
the collection primitives and `store`. -/
namespace EntityCore
namespace Compute

open Ecf Strings Program

/-! Names. -/

def builtinPrefix : Str := "system/compute/builtins/".toList

inductive Builtin where
  | arithmetic
  | compare
  | logic
  | field
  | construct
  | map
  | filter
  | fold
  | store
  | range
  | groupBy
  | concat
  | assoc
  deriving DecidableEq

namespace Builtin

def name : Builtin → String
  | .arithmetic => "arithmetic"
  | .compare => "compare"
  | .logic => "logic"
  | .field => "field"
  | .construct => "construct"
  | .map => "map"
  | .filter => "filter"
  | .fold => "fold"
  | .store => "store"
  | .range => "range"
  | .groupBy => "group-by"
  | .concat => "concat"
  | .assoc => "assoc"

def all : List Builtin := [.arithmetic,.compare,.logic,.field,.construct,.map,.filter,.fold,.store,
  .range,.groupBy,.concat,.assoc]

def ofName (bare : Str) : Option Builtin := all.find? fun b => b.name.toList = bare

def inputType : Builtin → Str
  | .arithmetic => Form.arithmetic.typeName.toList
  | .compare => Form.compare.typeName.toList
  | .logic => Form.logic.typeName.toList
  | .field => Form.field.typeName.toList
  | .construct => Form.construct.typeName.toList
  | .map => "system/compute/map-args".toList
  | .filter => "system/compute/filter-args".toList
  | .fold => "system/compute/fold-args".toList
  | .store => "system/compute/store-args".toList
  | .range => "system/compute/range-args".toList
  | .groupBy => "system/compute/group-by-args".toList
  | .concat => "system/compute/concat-args".toList
  | .assoc => "system/compute/assoc-args".toList

end Builtin

def isBuiltinPath (path : Str) : Bool :=
  startsWith path builtinPrefix || containsText path ('/'::builtinPrefix)

/-- What follows the prefix, or its first occurrence inside. -/
def extractBareBuiltin (path : Str) : Option Str :=
  match stripPrefix path builtinPrefix with
  | some rest => some rest
  | none => path.tails.findSome? fun t => stripPrefix t ('/'::builtinPrefix)

def builtinInputType (path operation : Str) : Option Str :=
  if operation ≠ "eval".toList then none
  else ((extractBareBuiltin path).bind Builtin.ofName).map Builtin.inputType

/-! Arguments. -/

abbrev Args : Type := List (Str × Hash)

def argsHash (args : Args) (key : String) : Option Hash :=
  (args.find? fun kv => kv.1 = key.toList).map Prod.snd

/-- A text argument; what is missing or no text is empty. -/
def resolveStringArg (args : Args) (key : String) (scope : Scope) : Eval Str :=
  match argsHash args key with
  | none => pure []
  | some hash => do
    match ← resolve hash with
    | none => return []
    | some target => do
      let v ← consumed (← evaluateSub target scope)
      return v.asStrVal.getD []

def argsFields (args : Args) : List (Value × Value) :=
  (canonicalSortedPairs args).map fun kv => (.text kv.1,hashRef kv.2)

def evalRef (data : Value) (key label : String) (scope : Scope) : Eval ComputeValue := do
  let hash ← orEarly (dataHash data key) (invalid ("Missing hash field '"++key++ "'"))
  let target ← resolveOrError hash label
  evaluateSub target scope

def consumedArg (data : Value) (key label : String) (scope : Scope) : Eval ComputeValue := do
  consumed (← evalRef data key label scope)

def consumedCollection (data : Value) (key label op : String) (scope : Scope) :
    Eval (List Value) := do
  let value ← consumedArg data key label scope
  orEarly value.asArray (.error (.typeMismatch
    (op++ ": "++key++ " must be an array, got "++value.valueKind)))

section Builtins

variable (X : Platform) (F : Runtime) (env : EvalEnv)

/-! The aliases of the inline forms. -/

/-- Evaluate the inline expression that an alias stands for. -/
def evaluateAlias (form : Form) (label : String) (data : Value) (scope : Scope) :
    Eval ComputeValue := do
  let expression ← orEarly (Entity.new X form.typeName.toList (toEcf data)).toOption
    (invalid (label++ " alias build"))
  evaluateSub expression scope

def missingAliasArg (label key : String) : ComputeValue :=
  invalid (label++ " alias: missing '"++key++ "'")

def aliasBinary (form : Form) (label : String) (args : Args) (scope : Scope) :
    Eval ComputeValue := do
  let op ← resolveStringArg args "op" scope
  let left ← orEarly (argsHash args "left") (missingAliasArg label "left")
  let right ← orEarly (argsHash args "right") (missingAliasArg label "right")
  evaluateAlias X form label (.map [entry "left" (hashRef left),entry "op" (.text op),
    entry "right" (hashRef right)]) scope

def aliasArithmetic : Args → Scope → Eval ComputeValue := aliasBinary X .arithmetic "arithmetic"

def aliasCompare : Args → Scope → Eval ComputeValue := aliasBinary X .compare "compare"

/-- Negation has one operand. -/
def aliasLogic (args : Args) (scope : Scope) : Eval ComputeValue := do
  let op ← resolveStringArg args "op" scope
  let left ← orEarly (argsHash args "left") (missingAliasArg "logic" "left")
  evaluateAlias X .logic "logic" (.map ([entry "left" (hashRef left),entry "op" (.text op)]++
    (argsHash args "right").toList.map fun right => entry "right" (hashRef right))) scope

def aliasField (args : Args) (scope : Scope) : Eval ComputeValue := do
  let name ← resolveStringArg args "name" scope
  let entity ← orEarly (argsHash args "entity") (missingAliasArg "field" "entity")
  evaluateAlias X .field "field" (.map [entry "name" (.text name),entry "entity" (hashRef entity)])
    scope

/-- Every argument but the type is a field of the new entity. -/
def aliasConstruct (args : Args) (scope : Scope) : Eval ComputeValue := do
  let entityType ← resolveStringArg args "entity_type" scope
  if entityType.isEmpty then
    .early (invalid "construct alias: missing or empty 'entity_type'")
  else
    evaluateAlias X .construct "construct" (.map [entry "entity_type" (.text entityType),
      entry "fields" (.map (argsFields (args.filter fun kv => kv.1 ≠ "entity_type".toList)))]) scope

/-! Closures on values. -/

def extractClosure (v : ComputeValue) : Option ClosureValue :=
  match v with
  | .closure c => some c
  | .entity e => if e.entityType = typeClosure then parseClosureEntity X e else none
  | _ => none

/-- Evaluate the body of a closure in its own scope, with the first parameters bound. -/
def applyClosureBody (closure : ClosureValue) (bindings : List (Str × ComputeValue)) :
    Eval ComputeValue := do
  let scope ← loadScope X closure.env
  let body ← orEarly (← resolve closure.body) (.error (.notFound "Cannot resolve closure body"))
  evaluateSub body (bindings.foldl (fun m b => m.insert b.1 b.2) scope)

def applyClosureToValue (closure : ClosureValue) (item : Value) : Eval ComputeValue :=
  match closure.params with
  | p::_ => (applyClosureBody X closure [(p,.primitive item)]).answer
  | [] => pure (invalid "Closure must have at least one parameter")

def applyClosureToTwoValues (closure : ClosureValue) (first second : ComputeValue) :
    Eval ComputeValue :=
  match closure.params with
  | p::q::_ => (applyClosureBody X closure [(p,first),(q,second)]).answer
  | _ => pure (invalid "Closure must have at least two parameters")

/-! Elements of arrays. -/

/-- A value placed into an array: bare, an error as its code alone. -/
def containedElement (v : ComputeValue) : Eval Value :=
  match v with
  | .error err => do storeRef (← expect (err.toEntity X))
  | .entity e =>
    if e.entityType = typeError then do storeRef (← expect (materializeErrorValue X e))
    else storeRef e
  | .closure c => do storeRef (← expect (c.toEntity X))
  | .primitive v => pure v
  | .uint u => pure (unsignedInteger u)

/-- The entity a bare element refers to, where this evaluation has met it. -/
def elementReferent (v : Value) : Eval (Option Entity) :=
  match hashField v with
  | some h => referent h
  | none => pure none

def elementIsError (v : Value) : Eval Bool := do
  return (← elementReferent v).any fun e => e.entityType = typeError

def elementTypeTag (v : Value) : Eval Str := do
  match v with
  | .null => return "null".toList
  | .bool _ => return "bool".toList
  | .integer _ => return "integer".toList
  | .float _ => return "float".toList
  | .text _ => return "string".toList
  | .array _ => return "array".toList
  | .map _ => return "record".toList
  | .bytes _ => match ← elementReferent v with
    | some e => return "entity:".toList++e.entityType
    | none => return "bytes".toList
  | .tag _ _ => return "unknown".toList

/-! The collection builtins. -/

def collectionAndClosure (data : Value) (op : String) (scope : Scope) :
    Eval (ComputeValue × ComputeValue) := do
  let collection ← consumedArg data "collection" (op++ " collection") scope
  let fn ← consumedArg data "fn" (op++ " fn") scope
  return (collection,fn)

def arrayOf (op : String) (collection : ComputeValue) : Eval (List Value) :=
  orEarly collection.asArray (.error (.typeMismatch (op++ ": collection must be an array")))

def closureOf (op : String) (fn : ComputeValue) : Eval ClosureValue :=
  orEarly (extractClosure X fn) (.error (.typeMismatch (op++ ": fn must be a closure")))

/-- A result is placed as it is, unless the evaluation as a whole has failed. -/
def dispatchMap (data : Value) (scope : Scope) : Eval ComputeValue := do
  let (collection,fn) ← collectionAndClosure data "map" scope
  let items ← arrayOf "map" collection
  let closure ← closureOf X "map" fn
  let results ← mapEach (fun item => do
    let v ← applyClosureToValue X closure item
    if v.isSharedResourceError X then .early v else containedElement X v) items
  return .primitive (.array results)

/-- A result is read, so an error of one element is the result. -/
def dispatchFilter (data : Value) (scope : Scope) : Eval ComputeValue := do
  let (collection,fn) ← collectionAndClosure data "filter" scope
  let items ← arrayOf "filter" collection
  let closure ← closureOf X "filter" fn
  let kept ← mapEach (fun item => do
    let v ← consumed (← applyClosureToValue X closure item)
    return if v.isTruthy then some item else none) items
  return .primitive (.array (kept.filterMap id))

/-- The accumulator is bound, never read: an error in it reaches the closure. -/
def dispatchFold (data : Value) (scope : Scope) : Eval ComputeValue := do
  let (collection,fn) ← collectionAndClosure data "fold" scope
  let initial ← (evalRef data "initial" "fold initial" scope).answer
  if initial.isSharedResourceError X then .early initial
  else do
    let items ← arrayOf "fold" collection
    let closure ← closureOf X "fold" fn
    if closure.params.length ≠ 2 then
      .early (invalid "fold: fn must take 2 parameters (acc, item)")
    else foldEach (fun acc item => do
      let v ← applyClosureToTwoValues X closure acc (.primitive item)
      if v.isSharedResourceError X then .early v else return v) initial items

/-- Every produced element is charged. -/
def dispatchRange (data : Value) (scope : Scope) : Eval ComputeValue := do
  let nVal ← consumedArg data "n" "range n" scope
  let n ← orEarly nVal.asI128 (.error (.typeMismatch
    ("range: n must be an integer, got "++nVal.valueKind)))
  if n < 0 ∨ 2^63 ≤ n then .early (.error (.countOutOfRange
    ("range: n must be non-negative and representable, got "++toString n)))
  else do
    if ← charge n.toNat then
      return .primitive (.array ((List.range n.toNat).map fun i : ℕ => integer i))
    else .early (.error .budgetExhausted)

/-- Put an item into the group of its key; a new group goes last. -/
def addToGroup (key item : Value) : List (Value × List Value) → List (Value × List Value)
  | [] => [(key,[item])]
  | g::gs => if toEcf g.1 = toEcf key then (g.1,g.2++[item])::gs else g::addToGroup key item gs

def dispatchGroupBy (data : Value) (scope : Scope) : Eval ComputeValue := do
  let items ← consumedCollection data "collection" "group-by collection" "group-by" scope
  let fn ← consumedArg data "fn" "group-by fn" scope
  let closure ← closureOf X "group-by" fn
  let groups ← foldEach (fun groups item => do
    let key ← consumed (← applyClosureToValue X closure item)
    return addToGroup (← containedElement X key) item groups) [] items
  let out ← mapEach (fun g : Value × List Value =>
    match Entity.new X typeGroup (toEcf (.map [entry "key" g.1,entry "members" (.array g.2)])) with
    | .ok group => storeRef group
    | .error err => .early (invalid ("group-by: build group: "++err.display))) groups
  return .primitive (.array out)

/-- A sub-collection is read, so an error in its place is the result. -/
def concatCollection (v : Value) : Eval (List Value) :=
  match v with
  | .array items => pure items
  | other => do
    match (← elementReferent other).filter fun e => e.entityType = typeError with
    | some e => .early (.entity e)
    | none => do
      let tag ← elementTypeTag other
      .early (.error (.typeMismatch
        ("concat: each collection must be an array, got "++String.ofList tag)))

/-- The type tag of the elements so far and the elements; an error has any type. -/
def concatElement (acc : Option Str × List Value) (element : Value) :
    Eval (Option Str × List Value) := do
  if ← elementIsError element then return (acc.1,acc.2++[element])
  else do
    let tag ← elementTypeTag element
    if acc.1.all fun t => t = tag then return (some tag,acc.2++[element])
    else .early (.error (.typeMismatch ("concat: element type "++F.debug tag++ " does not match "++
      F.debug (acc.1.getD []))))

def dispatchConcat (data : Value) (scope : Scope) : Eval ComputeValue := do
  if (data.get "collections".toList).isNone then
    .early (.error (.missingArgument "concat: missing 'collections'"))
  else do
    let value ← consumedArg data "collections" "concat collections" scope
    let outer ← orEarly value.asArray (.error (.typeMismatch
      ("concat: collections must be an array of arrays, got "++value.valueKind)))
    let collections ← mapEach concatCollection outer
    let (_,out) ← foldEach (concatElement F) (none,[]) collections.flatten
    return .primitive (.array out)

/-- The index is read, the value placed. -/
def dispatchAssoc (data : Value) (scope : Scope) : Eval ComputeValue := do
  let items ← consumedCollection data "collection" "assoc collection" "assoc" scope
  let indexVal ← consumedArg data "index" "assoc index" scope
  let idx ← orEarly indexVal.asI128 (.error (.typeMismatch
    ("assoc: index must be an integer, got "++indexVal.valueKind)))
  if idx < 0 ∨ (items.length : ℤ) ≤ idx then .early (.error (.indexOutOfRange
    ("assoc: index "++toString idx++ " out of range for array of length "++toString items.length)))
  else do
    let value ← (evalRef data "value" "assoc value" scope).answer
    let element ← containedElement X value
    return .primitive (.array (items.set idx.toNat element))

/-! The store builtin. -/

/-- The entity that is written for a value. -/
def storedForm (v : ComputeValue) : Eval Entity :=
  let wrapped (data : Value) (failure : String) : Eval Entity :=
    orEarly (Entity.new X "primitive/any".toList (toEcf data)).toOption (invalid failure)
  match v with
  | .error err => expect (err.toEntity X)
  | .entity e => if e.entityType = typeError then expect (materializeErrorValue X e) else pure e
  | .closure c => expect (c.toEntity X)
  | .primitive v => wrapped v "store: failed to wrap primitive result"
  | .uint u => wrapped (unsignedInteger u) "store: failed to wrap uint result"

/-- The capability is asked where there is one. -/
def dispatchStore (data : Value) (scope : Scope) : Eval ComputeValue := do
  let path ← orEarly (dataStr data "path") (invalid "store: missing 'path'")
  if env.capability.any fun cap => !treePermission "put" path cap env.localPeerId then
    .early (.error (.permissionDenied ("Capability does not cover write: "++String.ofList path)))
  else do
    let valueHash ← orEarly (dataHash data "value") (invalid "store: missing 'value'")
    let valueExpr ← resolveOrError valueHash "store value"
    let evaluated ← evaluateSub valueExpr scope
    let toStore ← storedForm X evaluated
    let hash ← orEarly (← contentPut toStore) (invalid "store: failed to store entity")
    treeSet path (qualifyPath path env.localPeerId) hash
    return .primitive (.bool true)

def aliasStore (args : Args) (scope : Scope) : Eval ComputeValue := do
  let path ← resolveStringArg args "path" scope
  if path.isEmpty then .early (invalid "store alias: missing or non-string 'path'")
  else do
    let value ← orEarly (argsHash args "value") (missingAliasArg "store" "value")
    let storeArgs ← orEarly (Entity.new X Builtin.store.inputType
      (toEcf (.map [entry "path" (.text path),entry "value" (hashRef value)]))).toOption
      (invalid "store alias: build args entity")
    let data ← orEarly (decodeData X storeArgs) (invalid "Cannot decode builtin params")
    dispatchStore X env data scope

/-! Dispatch. -/

/-- A collection builtin reads its arguments back from the entity they are put in. -/
def dispatchCollection (b : Builtin) (dispatch : Value → Scope → Eval ComputeValue) (args : Args)
    (scope : Scope) : Eval ComputeValue := do
  match Entity.new X b.inputType (toEcf (.map (argsFields args))) with
  | .error e => .early (invalid ("build "++String.ofList b.inputType++ " args entity: "++e.display))
  | .ok params => do
    let data ← orEarly (decodeData X params) (invalid "Cannot decode builtin params")
    dispatch data scope

def Builtin.dispatch (b : Builtin) : Args → Scope → Eval ComputeValue :=
  match b with
  | .arithmetic => aliasArithmetic X
  | .compare => aliasCompare X
  | .logic => aliasLogic X
  | .field => aliasField X
  | .construct => aliasConstruct X
  | .store => aliasStore X env
  | .map => dispatchCollection X .map (dispatchMap X)
  | .filter => dispatchCollection X .filter (dispatchFilter X)
  | .fold => dispatchCollection X .fold (dispatchFold X)
  | .range => dispatchCollection X .range dispatchRange
  | .groupBy => dispatchCollection X .groupBy (dispatchGroupBy X)
  | .concat => dispatchCollection X .concat (dispatchConcat F)
  | .assoc => dispatchCollection X .assoc (dispatchAssoc X)

/-- A name that is no builtin's goes to the external dispatch. -/
def dispatchBuiltinAlias (path operation : Str) (args : Args) (scope : Scope) :
    Option (Eval ComputeValue) :=
  if operation ≠ "eval".toList then
    some (.early (invalid ("builtin "++String.ofList path++ " requires operation 'eval', got '"++
      String.ofList operation++ "'")))
  else ((extractBareBuiltin path).bind Builtin.ofName).map fun b => b.dispatch X F env args scope

end Builtins

end Compute

end EntityCore
