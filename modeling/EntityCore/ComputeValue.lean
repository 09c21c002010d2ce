import EntityCore.TokenCodec

/-! Values of the compute extension: the expression types, the values an evaluation
yields, its errors and the entities they are stored as. -/
namespace EntityCore

open Ecf

/-- The first entry of a text key. -/
def Ecf.Value.get (data : Value) (key : Str) : Option Value :=
  match data with
  | .map entries => entries.findSome? fun kv => if kv.1.asText = some key then some kv.2 else none
  | _ => none

namespace Compute

inductive Form where
  | literal
  | lookupScope
  | lookupTree
  | lookupHash
  | apply
  | «if»
  | «let»
  | lambda
  | arithmetic
  | compare
  | logic
  | field
  | construct
  | index
  | length
  | numericCast
  deriving DecidableEq

namespace Form

def typeName : Form → String
  | .literal => "compute/literal"
  | .lookupScope => "compute/lookup/scope"
  | .lookupTree => "compute/lookup/tree"
  | .lookupHash => "compute/lookup/hash"
  | .apply => "compute/apply"
  | .if => "compute/if"
  | .let => "compute/let"
  | .lambda => "compute/lambda"
  | .arithmetic => "compute/arithmetic"
  | .compare => "compute/compare"
  | .logic => "compute/logic"
  | .field => "compute/field"
  | .construct => "compute/construct"
  | .index => "compute/index"
  | .length => "compute/length"
  | .numericCast => "compute/numeric-cast"

def all : List Form := [.literal,.lookupScope,.lookupTree,.lookupHash,.apply,.if,.let,.lambda,
  .arithmetic,.compare,.logic,.field,.construct,.index,.length,.numericCast]

def ofType (entityType : Str) : Option Form := all.find? fun f => f.typeName.toList = entityType

theorem ofType_typeName (f : Form) : ofType f.typeName.toList = some f := by
  cases f <;> decide +kernel

end Form

def typeClosure : Str := "compute/closure".toList
def typeScope : Str := "compute/scope".toList
def typeResult : Str := "compute/result".toList
def typeError : Str := "compute/error".toList
def typeSubgraph : Str := "system/compute/subgraph".toList
def typeGroup : Str := "system/compute/group".toList

def isComputeExpression (entity : Entity) : Bool := (Form.ofType entity.entityType).isSome

/-- What a hash in an expression may lead to. -/
def isComputeType (entity : Entity) : Bool :=
  isComputeExpression entity || entity.entityType ∈ [typeClosure,typeScope,typeResult,typeError,
    typeSubgraph,"system/compute/install-request".toList,"system/compute/install-result".toList]

/-! Fields of entity data. -/

def decodeData (X : Platform) (entity : Entity) : Option Value := (X.fromReader entity.data).toOption

def dataStr (data : Value) (key : String) : Option Str := (data.get key.toList).bind Value.asText

def dataHash (data : Value) (key : String) : Option Hash := (data.get key.toList).bind hashField

def dataBool (data : Value) (key : String) : Option Bool := (data.get key.toList).bind Value.asBool

def dataStrArray (data : Value) (key : String) : Option (List Str) := do
  (← (data.get key.toList).bind Value.asArray).mapM Value.asText

/-- The entries of a map field whose values are hashes. -/
def dataHashMap (data : Value) (key : String) : Option (List (Str × Hash)) := do
  let entries ← (data.get key.toList).bind Value.asMap
  return entries.filterMap fun kv => do return (← kv.1.asText,← hashField kv.2)

/-- An entry of a map under construction. -/
def entry (key : String) (v : Value) : Value × Value := (.text key.toList,v)

def hashRef (h : Hash) : Value := .bytes h.toBytes

/-- An `i64` as a CBOR integer. -/
def integer (n : ℤ) : Value := .integer ⟨n.bmod (2^64),signedWord_bounds n⟩

/-- A `u64` as a CBOR integer. -/
def unsignedInteger (u : UInt64) : Value := .integer ⟨u.toNat,by
  have hlt := u.toNat_lt
  constructor <;> omega⟩

/-! Errors. -/

inductive ComputeError where
  | budgetExhausted
  | depthExceeded
  | typeMismatch (message : String)
  | divisionByZero
  | notFound (message : String)
  | unknownType (message : String)
  | missingArgument (message : String)
  | invalidExpression (message : String)
  | cascadeLimit
  | permissionDenied (message : String)
  | installationGrantInvalid (message : String)
  | indexOutOfRange (message : String)
  | castOutOfRange (message : String)
  | countOutOfRange (message : String)
  | scopeUnreachable (message : String)
  deriving DecidableEq

namespace ComputeError

def code : ComputeError → String
  | .budgetExhausted => "budget_exhausted"
  | .depthExceeded => "depth_exceeded"
  | .typeMismatch _ => "type_mismatch"
  | .divisionByZero => "division_by_zero"
  | .notFound _ => "not_found"
  | .unknownType _ => "unknown_type"
  | .missingArgument _ => "missing_argument"
  | .invalidExpression _ => "invalid_expression"
  | .cascadeLimit => "cascade_limit"
  | .permissionDenied _ => "permission_denied"
  | .installationGrantInvalid _ => "installation_grant_invalid"
  | .indexOutOfRange _ => "index_out_of_range"
  | .castOutOfRange _ => "cast_out_of_range"
  | .countOutOfRange _ => "count_out_of_range"
  | .scopeUnreachable _ => "scope_unreachable"

end ComputeError

/-- An error as it is stored: its code alone. Building the entity is unwrapped. -/
def errorEntity (X : Platform) (code : Str) : Option Entity :=
  (Entity.new X typeError (toEcf (.map [entry "code" (.text code)]))).toOption

def ComputeError.toEntity (X : Platform) (e : ComputeError) : Option Entity :=
  errorEntity X e.code.toList

/-- The stored form of an error entity that was met as a value. -/
def materializeErrorValue (X : Platform) (entity : Entity) : Option Entity :=
  errorEntity X (((decodeData X entity).bind fun data => dataStr data "code").getD
    (ComputeError.invalidExpression "").code.toList)

/-! Values. -/

structure ClosureValue where
  params : List Str
  body : Hash
  env : Option Hash
  deriving DecidableEq

def ClosureValue.toEntity (X : Platform) (c : ClosureValue) : Option Entity :=
  (Entity.new X typeClosure (toEcf (.map ([entry "body" (hashRef c.body),
    entry "params" (.array (c.params.map .text))]++
    c.env.toList.map fun env => entry "env" (hashRef env))))).toOption

/-- The result of an evaluation. `uint` tags what a cast to unsigned produced. -/
inductive ComputeValue where
  | primitive (v : Value)
  | entity (e : Entity)
  | closure (c : ClosureValue)
  | error (e : ComputeError)
  | uint (u : UInt64)

def stripCastTag : ComputeValue → ComputeValue
  | .uint u => .primitive (unsignedInteger u)
  | other => other

@[simp] theorem stripCastTag_idem (v : ComputeValue) :
    stripCastTag (stripCastTag v) = stripCastTag v := by
  cases v <;> rfl

def valueIsTruthy : Value → Bool
  | .null => false
  | .bool b => b
  | .integer i => i.val ≠ 0
  | .text s => !s.isEmpty
  | .array items => !items.isEmpty
  | _ => true

namespace ComputeValue

def isError : ComputeValue → Bool
  | .error _ => true
  | .entity e => e.entityType = typeError
  | _ => false

def errorCode (X : Platform) : ComputeValue → Option Str
  | .error e => some e.code.toList
  | .entity e => if e.entityType = typeError then
      (decodeData X e).bind fun data => dataStr data "code" else none
  | _ => none

/-- Of the evaluation as a whole, not of the element that met it. -/
def isSharedResourceError (X : Platform) (v : ComputeValue) : Bool :=
  v.errorCode X = some "budget_exhausted".toList || v.errorCode X = some "cascade_limit".toList

def isTruthy : ComputeValue → Bool
  | .primitive v => valueIsTruthy v
  | .entity _ => true
  | .closure _ => true
  | .error _ => false
  | .uint u => u ≠ 0

def asI128 : ComputeValue → Option ℤ
  | .primitive (.integer i) => some i.val
  | .uint u => some u.toNat
  | _ => none

def isNumeric : ComputeValue → Bool
  | .primitive (.integer _) => true
  | .primitive (.float _) => true
  | .uint _ => true
  | _ => false

def isFloat : ComputeValue → Bool
  | .primitive (.float _) => true
  | _ => false

def isUintTagged : ComputeValue → Bool
  | .uint _ => true
  | _ => false

def asStrVal : ComputeValue → Option Str
  | .primitive (.text s) => some s
  | _ => none

def asArray : ComputeValue → Option (List Value)
  | .primitive (.array items) => some items
  | _ => none

/-- What a value is called in the texts, by the operators and by the collection builtins. -/
def describeKind : ComputeValue → String
  | .primitive (.integer _) => "int"
  | .primitive (.float _) => "float"
  | .primitive (.text _) => "string"
  | .primitive (.bool _) => "bool"
  | .primitive .null => "null"
  | .primitive (.bytes _) => "bytes"
  | .primitive (.array _) => "array"
  | .primitive (.map _) => "map"
  | .primitive (.tag _ _) => "primitive"
  | .uint _ => "uint"
  | .entity _ => "entity"
  | .closure _ => "closure"
  | .error _ => "error"

def valueKind : ComputeValue → String
  | .primitive .null => "null"
  | .primitive (.bool _) => "bool"
  | .primitive (.integer _) => "integer"
  | .primitive (.float _) => "float"
  | .primitive (.text _) => "string"
  | .primitive (.bytes _) => "bytes"
  | .primitive (.array _) => "array"
  | .primitive (.map _) => "record"
  | .primitive (.tag _ _) => "value"
  | .entity _ => "entity"
  | .closure _ => "closure"
  | .error _ => "error"
  | .uint _ => "integer"

end ComputeValue

abbrev Scope : Type := OrderedMap Str ComputeValue

end Compute

end EntityCore
