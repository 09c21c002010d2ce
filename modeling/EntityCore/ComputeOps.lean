import EntityCore.ComputeValue

/-! The operators on evaluated operands: arithmetic on 64-bit words and floats, casts and
comparison. An operation that yields nothing has panicked. -/
namespace EntityCore
namespace Compute

open Ecf ByteCode

/-- The machine's operations on IEEE 754 bit patterns and the texts of the standard library. -/
structure Runtime where
  add : UInt64 → UInt64 → UInt64
  sub : UInt64 → UInt64 → UInt64
  mul : UInt64 → UInt64 → UInt64
  div : UInt64 → UInt64 → UInt64
  rem : UInt64 → UInt64 → UInt64
  lt : UInt64 → UInt64 → Bool
  le : UInt64 → UInt64 → Bool
  ofInt : ℤ → UInt64
  trunc : UInt64 → UInt64
  /-- The value of a finite float without a fraction. -/
  toInt : UInt64 → ℤ
  display : UInt64 → String
  /-- A quoted text. -/
  debug : Str → String

def asI64 (n : ℤ) : ℤ := n.bmod (2^64)
def asU64 (n : ℤ) : UInt64 := UInt64.ofNat (n.emod (2^64)).toNat

def i64Min : ℤ := -2^63

variable (F : Runtime)

def ComputeValue.toF64 : ComputeValue → UInt64
  | .primitive (.float f) => f
  | .primitive (.integer i) => F.ofInt i.val
  | .uint u => F.ofInt u.toNat
  | _ => 0

/-- The integer behind an integer operand. -/
def ComputeValue.word (v : ComputeValue) : ℤ := v.asI128.getD 0

def unsignedOperands (left right : ComputeValue) : Bool := left.isUintTagged || right.isUintTagged

def applyArithmeticFloat (op : Str) (left right : ComputeValue) : ComputeValue :=
  let l := left.toF64 F
  let r := right.toF64 F
  if op = "add".toList then .primitive (.float (F.add l r))
  else if op = "sub".toList then .primitive (.float (F.sub l r))
  else if op = "mul".toList then .primitive (.float (F.mul l r))
  else if op = "div".toList then .primitive (.float (F.div l r))
  else if op = "mod".toList then
    if floatEq r 0 then .error .divisionByZero else .primitive (.float (F.rem l r))
  else .error (.invalidExpression ("Unknown arithmetic op: "++String.ofList op))

/-- An inexact quotient becomes a float. The remainder of the least word by -1 panics. -/
def applyDivInteger (left right : ComputeValue) : Option ComputeValue :=
  if unsignedOperands left right then
    let l := asU64 left.word
    let r := asU64 right.word
    if r = 0 then some (.error .divisionByZero)
    else if l % r = 0 then some (.uint (l/r))
    else some (.primitive (.float (F.div (F.ofInt l.toNat) (F.ofInt r.toNat))))
  else
    let l := asI64 left.word
    let r := asI64 right.word
    if r = 0 then some (.error .divisionByZero)
    else if l = i64Min ∧ r = -1 then none
    else if l.tmod r = 0 then some (.primitive (integer (l.tdiv r)))
    else some (.primitive (.float (F.div (F.ofInt l) (F.ofInt r))))

def applyModInteger (left right : ComputeValue) : ComputeValue :=
  if unsignedOperands left right then
    let l := asU64 left.word
    let r := asU64 right.word
    if r = 0 then .error .divisionByZero else .uint (l%r)
  else
    let l := asI64 left.word
    let r := asI64 right.word
    if r = 0 then .error .divisionByZero else .primitive (integer (l.tmod r))

def applyArithmetic (op : Str) (left right : ComputeValue) : Option ComputeValue :=
  if !left.isNumeric || !right.isNumeric then
    some (.error (.typeMismatch "Arithmetic requires numeric operands"))
  else if op = "mod".toList && (left.isFloat || right.isFloat) then
    some (.error (.typeMismatch "mod is integer-only; float operand not allowed (§2.2 rule 4)"))
  else if left.isFloat || right.isFloat then some (applyArithmeticFloat F op left right)
  else
    let l := asI64 left.word
    let r := asI64 right.word
    if op = "add".toList then some (.primitive (integer (l+r)))
    else if op = "sub".toList then some (.primitive (integer (l-r)))
    else if op = "mul".toList then some (.primitive (integer (l*r)))
    else if op = "div".toList then applyDivInteger F left right
    else if op = "mod".toList then some (applyModInteger left right)
    else some (.error (.invalidExpression ("Unknown arithmetic op: "++String.ofList op)))

/-! Casts. -/

def isFinite (f : UInt64) : Bool := !isNan f && !isInfinite f

def castToInt (value : ComputeValue) : ComputeValue :=
  match value with
  | .primitive (.float f) =>
    let t := F.toInt (F.trunc f)
    if !isFinite f then
      .error (.castOutOfRange ("float→int: non-finite value ("++F.display f++ ")"))
    else if t < i64Min ∨ 2^63 ≤ t then
      .error (.castOutOfRange ("float→int: out of range ("++F.display f++ " → "++
        F.display (F.trunc f)++ ")"))
    else .primitive (integer t)
  | _ => .primitive (integer (asI64 value.word))

def castToUint (value : ComputeValue) : ComputeValue :=
  match value with
  | .primitive (.float f) =>
    let t := F.toInt (F.trunc f)
    if !isFinite f then
      .error (.castOutOfRange ("float→uint: non-finite value ("++F.display f++ ")"))
    else if t < 0 ∨ 2^64 ≤ t then
      .error (.castOutOfRange ("float→uint: out of range ("++F.display f++ " → "++
        F.display (F.trunc f)++ ")"))
    else .uint (asU64 t)
  | _ => .uint (asU64 value.word)

def castToFloat (value : ComputeValue) : ComputeValue :=
  if value.isFloat then value else .primitive (.float (value.toF64 F))

def numericCast (toType : Str) (value : ComputeValue) : ComputeValue :=
  if !value.isNumeric then
    .error (.typeMismatch ("compute/numeric-cast 'value' must be numeric, got \""++
      value.describeKind++ "\""))
  else if toType = "primitive/int".toList then castToInt F value
  else if toType = "primitive/uint".toList then castToUint F value
  else if toType = "primitive/float".toList then castToFloat F value
  else .error (.typeMismatch
    ("compute/numeric-cast 'to_type' must be one of primitive/\x7bint,uint,float\x7d, got "++
      String.ofList toType))

/-! Comparison. -/

/-- Numbers compare across their types, anything else only within its kind. -/
def computeValuesEqual (a b : ComputeValue) : Bool :=
  if a.isNumeric && b.isNumeric then
    if a.isFloat || b.isFloat then floatEq (a.toF64 F) (b.toF64 F) else a.asI128 = b.asI128
  else match a,b with
    | .primitive va,.primitive vb => toEcf va = toEcf vb
    | .entity ea,.entity eb => ea.contentHash = eb.contentHash
    | .closure ca,.closure cb => ca.body = cb.body && ca.params = cb.params && ca.env = cb.env
    | _,_ => false

/-- The four orderings from `<` and `≤` of a type. -/
def ordering {α : Type} (lt le : α → α → Bool) (op : Str) (l r : α) : Bool :=
  if op = "lt".toList then lt l r
  else if op = "gt".toList then lt r l
  else if op = "lte".toList then le l r
  else le r l

def applyCompare (op : Str) (left right : ComputeValue) : ComputeValue :=
  if op = "eq".toList then .primitive (.bool (computeValuesEqual F left right))
  else if op = "neq".toList then .primitive (.bool (!computeValuesEqual F left right))
  else if op ∈ ["lt".toList,"gt".toList,"lte".toList,"gte".toList] then
    if left.isNumeric && right.isNumeric then
      if left.isFloat || right.isFloat then
        .primitive (.bool (ordering F.lt F.le op (left.toF64 F) (right.toF64 F)))
      else if unsignedOperands left right then
        .primitive (.bool (ordering (· < ·) (· ≤ ·) op (asU64 left.word) (asU64 right.word)))
      else
        .primitive (.bool (ordering (· < ·) (· ≤ ·) op (asI64 left.word) (asI64 right.word)))
    else match left.asStrVal,right.asStrVal with
      | some l,some r => .primitive (.bool (ordering (· < ·) (· ≤ ·) op (utf8 l) (utf8 r)))
      | _,_ => .error (.typeMismatch "Ordering comparison requires numeric or string operands")
  else .error (.invalidExpression ("Unknown compare op: "++String.ofList op))

end Compute

end EntityCore
