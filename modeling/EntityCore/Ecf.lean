import EntityCore.ByteCode

/-! The canonical encoder: CBOR values to bytes with minimal heads, sorted map
keys and shortest floats. Floats are their IEEE 754 bit patterns. -/
namespace EntityCore
namespace Ecf

open ByteCode

/-- The CBOR integers, one sign bit wider than either 64-bit machine type. -/
structure Integer where
  val : ℤ
  inRange : -2^64 ≤ val ∧ val < 2^64
  deriving DecidableEq

inductive Value where
  | null
  | bool (b : Bool)
  | integer (i : Integer)
  | float (bits : UInt64)
  | bytes (b : Bytes)
  | text (s : Str)
  | array (items : List Value)
  | map (entries : List (Value × Value))
  | tag (t : UInt64) (inner : Value)

/-- Induction with one hypothesis for every member of an array or map. -/
@[elab_as_elim] theorem Value.members_induction {P : Value → Prop}
    (null : P .null) (bool : ∀ b, P (.bool b)) (integer : ∀ i, P (.integer i))
    (float : ∀ f, P (.float f)) (bytes : ∀ b, P (.bytes b)) (text : ∀ s, P (.text s))
    (array : ∀ items, (∀ v ∈ items, P v) → P (.array items))
    (map : ∀ entries, (∀ e ∈ entries, P e.1 ∧ P e.2) → P (.map entries))
    (tag : ∀ t v, P v → P (.tag t v)) (v : Value) : P v := by
  refine @Value.rec P (fun items => ∀ v ∈ items, P v)
    (fun entries => ∀ e ∈ entries, P e.1 ∧ P e.2) (fun e => P e.1 ∧ P e.2)
    null bool integer float bytes text array map tag ?_ ?_ ?_ ?_ ?_ v
  · simp
  · intro v vs hv hvs; exact List.forall_mem_cons.mpr ⟨hv,hvs⟩
  · simp
  · intro e es he hes; exact List.forall_mem_cons.mpr ⟨he,hes⟩
  · intro k v hk hv; exact ⟨hk,hv⟩

def majorUnsigned : UInt8 := (0 : UInt8) <<< 5
def majorNegative : UInt8 := (1 : UInt8) <<< 5
def majorBytes : UInt8 := (2 : UInt8) <<< 5
def majorText : UInt8 := (3 : UInt8) <<< 5
def majorArray : UInt8 := (4 : UInt8) <<< 5
def majorMap : UInt8 := (5 : UInt8) <<< 5
def majorSimple : UInt8 := (7 : UInt8) <<< 5

def simpleFalse : UInt8 := majorSimple ||| 20
def simpleTrue : UInt8 := majorSimple ||| 21
def simpleNull : UInt8 := majorSimple ||| 22

def floatHalf : UInt8 := majorSimple ||| 25
def floatSingle : UInt8 := majorSimple ||| 26
def floatDouble : UInt8 := majorSimple ||| 27

/-- A head: major type and argument in the fewest bytes. -/
def encodeHead (major : UInt8) (value : ℕ) : Bytes :=
  if value < 24 then [major ||| UInt8.ofNat value]
  else if value ≤ 0xFF then (major ||| 24)::beBytes 1 value
  else if value ≤ 0xFFFF then (major ||| 25)::beBytes 2 value
  else if value ≤ 0xFFFFFFFF then (major ||| 26)::beBytes 4 value
  else (major ||| 27)::beBytes 8 value

def encodeInteger (i : Integer) : Bytes :=
  if 0 ≤ i.val ∧ i.val < 2^64 then encodeHead majorUnsigned i.val.toNat
  else if -2^63 ≤ i.val ∧ i.val < 2^63 then
    if 0 ≤ i.val then encodeHead majorUnsigned i.val.toNat
    else encodeHead majorNegative (-1-i.val).toNat
  -- outside both machine ranges; `as u64` keeps the low 64 bits
  else if 0 ≤ i.val then encodeHead majorUnsigned (i.val.toNat%2^64)
  else encodeHead majorNegative ((-1-i.val).toNat%2^64)

/-! Floats. -/

def signBit (f : UInt64) : UInt64 := f >>> 63
def expBits (f : UInt64) : UInt64 := (f >>> 52) &&& 0x7FF
def fracBits (f : UInt64) : UInt64 := f &&& 0xFFFFFFFFFFFFF

def isNan (f : UInt64) : Bool := expBits f = 0x7FF && fracBits f ≠ 0
def isInfinite (f : UInt64) : Bool := expBits f = 0x7FF && fracBits f = 0
def isZero (f : UInt64) : Bool := f = 0 || f = 0x8000000000000000

/-- The `==` of floats: not reflexive on NaN, and the two zeros are equal. -/
def floatEq (f g : UInt64) : Bool :=
  !isNan f && !isNan g && (f = g || (isZero f && isZero g))

/-- The exact double `m * 2^(e-1023)`, for `0 < m < 2^53`. -/
def scaled (m e : ℕ) : UInt64 :=
  UInt64.ofNat ((m.log2+e)*2^52+(m-2^m.log2)*2^(52-m.log2))

def f64ToF16 (f : UInt64) : UInt16 :=
  let sign : UInt16 := ((f >>> 63) &&& 1).toUInt16
  let exp : ℤ := (expBits f).toNat
  let frac := fracBits f
  if exp = 0x7FF then
    if frac = 0 then (sign <<< 15) ||| 0x7C00 else (sign <<< 15) ||| 0x7E00
  else
    let newExp := exp-1023+15
    if newExp ≥ 31 then (sign <<< 15) ||| 0x7C00
    else if newExp ≤ 0 then
      if newExp < -10 then sign <<< 15
      else
        let subnormalFrac :=
          ((frac ||| 0x10000000000000) >>> UInt64.ofNat (1-newExp+42).toNat).toUInt16
        (sign <<< 15) ||| subnormalFrac
    else
      let halfFrac := (frac >>> 42).toUInt16
      (sign <<< 15) ||| (UInt16.ofNat newExp.toNat <<< 10) ||| halfFrac

def f16ToF64 (bits : UInt16) : UInt64 :=
  let sign := (bits >>> 15) &&& 1
  let exp := (bits >>> 10) &&& 0x1F
  let frac := bits &&& 0x3FF
  if exp = 0 then
    if frac = 0 then (if sign = 1 then 0x8000000000000000 else 0)
    else
      -- `frac * 2^(-24)` has no rounding
      let value := scaled frac.toNat (1023-24)
      if sign = 1 then value ||| 0x8000000000000000 else value
  else if exp = 31 then
    if frac = 0 then (if sign = 1 then 0xFFF0000000000000 else 0x7FF0000000000000)
    else 0x7FF8000000000000
  else
    let exp64 : ℤ := exp.toNat-15+1023
    let frac64 := frac.toUInt64 <<< 42
    (sign.toUInt64 <<< 63) ||| (UInt64.ofNat exp64.toNat <<< 52) ||| frac64

def tryEncodeHalf (f : UInt64) : Option UInt16 :=
  if isZero f then some (if signBit f = 1 then 0x8000 else 0x0000)
  else if isNan f then some 0x7E00
  else if isInfinite f then some (if signBit f = 0 then 0x7C00 else 0xFC00)
  else
    let half := f64ToF16 f
    let recovered := f16ToF64 half
    if floatEq recovered f then some half else none

/-- `n / 2^s` rounded to nearest, ties to even. -/
def shiftRoundEven (n s : ℕ) : ℕ :=
  let q := n/2^s
  let r := n%2^s
  if 2*r < 2^s ∨ (2*r = 2^s ∧ q%2 = 0) then q else q+1

/-- `f as f32`. -/
def f64ToF32 (f : UInt64) : UInt32 :=
  let sign := signBit f
  let exp := (expBits f).toNat
  let frac := (fracBits f).toNat
  let magnitude :=
    if exp = 0x7FF then (if frac = 0 then 0x7F800000 else 0x7FC00000)
    -- a subnormal double lies below half the least single
    else if exp = 0 then 0
    else if exp > 896 then
      min 0x7F800000 ((exp-897)*2^23+shiftRoundEven (2^52+frac) 29)
    else shiftRoundEven (2^52+frac) (29+(897-exp))
  UInt32.ofNat (sign.toNat*2^31+magnitude)

/-- `s as f64`. -/
def f32ToF64 (s : UInt32) : UInt64 :=
  let sign := s.toNat/2^31
  let exp := s.toNat/2^23%2^8
  let frac := s.toNat%2^23
  let magnitude : UInt64 :=
    if exp = 255 then (if frac = 0 then 0x7FF0000000000000 else 0x7FF8000000000000)
    else if exp = 0 then (if frac = 0 then 0 else scaled frac (1023-149))
    else UInt64.ofNat ((exp+896)*2^52+frac*2^29)
  UInt64.ofNat (sign*2^63) ||| magnitude

def encodeFloat (f : UInt64) : Bytes :=
  match tryEncodeHalf f with
  | some halfBits => floatHalf::beBytes 2 halfBits.toNat
  | none =>
    let single := f64ToF32 f
    if floatEq (f32ToF64 single) f then floatSingle::beBytes 4 single.toNat
    else floatDouble::beBytes 8 f.toNat

/-! Strings and containers. -/

def encodeCborText (s : Str) : Bytes := encodeHead majorText (utf8 s).length++utf8 s

def encodeCborBstr (b : Bytes) : Bytes := encodeHead majorBytes b.length++b

/-- Shorter keys first, then byte order. -/
def keyLe (a b : Bytes) : Prop := a.length < b.length ∨ (a.length = b.length ∧ a ≤ b)

instance : DecidableRel keyLe := fun a b =>
  inferInstanceAs (Decidable (a.length < b.length ∨ (a.length = b.length ∧ a ≤ b)))

def entryLe (a b : Bytes × Bytes) : Prop := keyLe a.1 b.1

instance : DecidableRel entryLe := fun a b => inferInstanceAs (Decidable (keyLe a.1 b.1))

/-- A map from its entries' encodings, in whatever order they were listed. -/
def encodeMap (entries : List (Bytes × Bytes)) : Bytes :=
  encodeHead majorMap entries.length++(entries.insertionSort entryLe).flatMap fun e => e.1++e.2

mutual
def encodeValue : Value → Bytes
  | .null => [simpleNull]
  | .bool b => [if b then simpleTrue else simpleFalse]
  | .integer i => encodeInteger i
  | .float f => encodeFloat f
  | .bytes b => encodeCborBstr b
  | .text s => encodeCborText s
  | .array items => encodeHead majorArray items.length++encodeItems items
  | .map entries => encodeMap (encodeEntries entries)
  | .tag _ inner => encodeValue inner

def encodeItems : List Value → Bytes
  | [] => []
  | v::vs => encodeValue v++encodeItems vs

def encodeEntries : List (Value × Value) → List (Bytes × Bytes)
  | [] => []
  | (k,v)::r => (encodeValue k,encodeValue v)::encodeEntries r
end

def toEcf (value : Value) : Bytes := encodeValue value

/-- The hash input `{data, type}`, the data bytes embedded as they are. -/
def ecfForHash (entityType : Str) (data : Bytes) : Bytes :=
  (majorMap ||| 2)::encodeCborText "data".toList++data++
    encodeCborText "type".toList++encodeCborText entityType

theorem encodeItems_eq (vs : List Value) : encodeItems vs = vs.flatMap encodeValue := by
  induction vs with
  | nil => rfl
  | cons v vs ih => simp [encodeItems,ih]

theorem encodeEntries_eq (es : List (Value × Value)) :
    encodeEntries es = es.map fun e => (encodeValue e.1,encodeValue e.2) := by
  induction es with
  | nil => rfl
  | cons e es ih => obtain ⟨k,v⟩ := e; simp [encodeEntries,ih]

end Ecf
end EntityCore
