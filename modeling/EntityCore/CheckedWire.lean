import EntityCore.Aborting
import EntityCore.Wire

/-! The wire decoders with everything that the runtime checks in them: each slice, each
sum of sizes, each capacity asked for and the depth of the recursion. -/
namespace EntityCore
namespace Wire
namespace Checked

open Ecf ByteCode Outcome Aborting

/-- The argument that follows the first byte of a head. -/
def headArgument (data : Bytes) (offset : ℕ) (major : UInt8) (width : ℕ) (name : String) :
    Aborting WireError (UInt8 × ℕ × ℕ) := do
  let stop ← add offset (1+width)
  if stop > data.length then fail (.cborDecode ("EOF reading CBOR "++name++ " argument"))
  else do
    let start ← add offset 1
    let b ← Aborting.slice data start stop
    return (major,beNumber b,1+width)

def parseCborHead (data : Bytes) (offset : ℕ) : Aborting WireError (UInt8 × ℕ × ℕ) :=
  if offset ≥ data.length then fail (.cborDecode "unexpected EOF parsing CBOR head")
  else do
    let first ← index data offset
    let major := first >>> 5
    let ai := first &&& 0x1F
    if ai ≤ 23 then return (major,ai.toNat,1)
    else if ai = 24 then headArgument data offset major 1 "u8"
    else if ai = 25 then headArgument data offset major 2 "u16"
    else if ai = 26 then headArgument data offset major 4 "u32"
    else if ai = 27 then headArgument data offset major 8 "u64"
    else fail (.cborDecode ("CBOR additional-info "++toString ai++
      " (indefinite-length / reserved); ECF requires definite-length encoding per "++
      "ENTITY-CBOR-ENCODING §4.2"))

/-- The sum is a `checked_add`. -/
def payloadEnd (data : Bytes) (what : String) (start len : ℕ) : Aborting WireError ℕ :=
  lift (Wire.payloadEnd data what start len)

def repeatEnd (itemEnd : ℕ → Aborting WireError ℕ) : ℕ → ℕ → Aborting WireError ℕ
  | 0, cursor => return cursor
  | n+1, cursor => do repeatEnd itemEnd n (← itemEnd cursor)

/-- A recursion deeper than `depth` is cut off. -/
def itemEnd (data : Bytes) : ℕ → ℕ → Aborting WireError ℕ
  | 0, _ => abort .recursion
  | depth+1, offset => do
    let (major,value,headSize) ← parseCborHead data offset
    let afterHead ← add offset headSize
    if major ≤ 1 then return afterHead
    else if major ≤ 3 then payloadEnd data "string/bytes" afterHead value
    else if major = 4 then repeatEnd (itemEnd data depth) value afterHead
    else if major = 5 then
      repeatEnd (fun cursor => do itemEnd data depth (← itemEnd data depth cursor)) value afterHead
    else if major = 6 then fail (.cborTag offset)
    else return afterHead

def cborItemEnd (data : Bytes) (offset : ℕ) : Aborting WireError ℕ :=
  itemEnd data (data.length+1) offset

def decodeCborText (data : Bytes) (offset : ℕ) : Aborting WireError (Str × ℕ) := do
  let (major,len,headSize) ← parseCborHead data offset
  if major ≠ 3 then fail (.cborDecode ("expected CBOR text, got major="++toString major))
  else do
    let start ← add offset headSize
    let stop ← payloadEnd data "text" start len
    let b ← Aborting.slice data start stop
    let s ← lift (okOr (fromUtf8 b) (.cborDecode "CBOR text invalid utf-8"))
    return (s,stop)

def decodeCborBytes (data : Bytes) (offset : ℕ) : Aborting WireError (Bytes × ℕ) := do
  let (major,len,headSize) ← parseCborHead data offset
  if major ≠ 2 then fail (.cborDecode ("expected CBOR bytes, got major="++toString major))
  else do
    let start ← add offset headSize
    let stop ← payloadEnd data "bytes" start len
    let b ← Aborting.slice data start stop
    return (b,stop)

/-! Hashes. -/

def readVarintLoop (value shift consumed : ℕ) : Bytes → Aborting HashError (ℕ × ℕ)
  | [] => fail (.invalidFormat "truncated varint")
  | b::bs => do
    let consumed ← add consumed 1
    if shift ≥ 28 ∧ b &&& 0x80 ≠ 0 then fail (.invalidFormat "varint exceeds u32")
    else do
      let group ← shiftLeft (b &&& 0x7F).toNat shift
      let value := value ||| group
      if b &&& 0x80 = 0 then return (value,consumed)
      else if consumed ≥ 5 then fail (.invalidFormat "varint exceeds 5 bytes")
      else readVarintLoop value (shift+7) consumed bs

/-- No hash has a digest of another length than its format says. -/
def hashNew (algorithm : UInt8) (digest : Bytes) : Aborting HashError Hash :=
  if h : Hash.digestLenForFormat algorithm = some digest.length then return ⟨algorithm,digest,h⟩
  else abort .outOfBounds

def hashFromBytes (bytes : Bytes) : Aborting HashError Hash := do
  let (formatValue,consumed) ← readVarintLoop 0 0 0 bytes
  if formatValue = Hash.hashAlgorithmReservedFf.toNat then
    fail (.reservedFormat Hash.hashAlgorithmReservedFf)
  else if formatValue ≥ 2^8 then fail (.unsupportedAlgorithm 0xFE)
  else
    let algorithm := UInt8.ofNat formatValue
    match Hash.digestLenForFormat algorithm with
    | none => fail (.unsupportedAlgorithm algorithm)
    | some expected => do
      let total ← add consumed expected
      if bytes.length ≠ total then fail (.invalidLength total bytes.length)
      else do
        let digest ← Aborting.slice bytes consumed total
        hashNew algorithm digest

def wireHash (bytes : Bytes) : Aborting WireError Hash :=
  (hashFromBytes bytes).mapError fun e => .cborDecode e.display

/-! The decoders. -/

def mapHead (data : Bytes) (offset : ℕ) (expected : String) : Aborting WireError (ℕ × ℕ) := do
  let (major,count,headSize) ← parseCborHead data offset
  if major ≠ 5 then fail (.cborDecode (expected++ ", got major="++toString major))
  else return (count,headSize)

def walkFields {σ : Type} (data : Bytes) (onField : σ → Str → ℕ → ℕ → Aborting WireError σ) :
    ℕ → ℕ → σ → Aborting WireError σ
  | 0, _, fields => return fields
  | n+1, cursor, fields => do
    let (key,valueStart) ← decodeCborText data cursor
    let valueEnd ← cborItemEnd data valueStart
    let fields ← onField fields key valueStart valueEnd
    walkFields data onField n valueEnd fields

/-- A text of its own. -/
def textAt (data : Bytes) (offset : ℕ) : Aborting WireError Str := do
  let (s,_) ← decodeCborText data offset
  let _ ← toVec (utf8 s)
  return s

def copyRange (data : Bytes) (start stop : ℕ) : Aborting WireError Bytes := do
  toVec (← Aborting.slice data start stop)

def entityField (data : Bytes) (fields : EntityFields) (key : Str) (valueStart valueEnd : ℕ) :
    Aborting WireError EntityFields :=
  if key = "type".toList then do
    let s ← textAt data valueStart
    return {fields with entityType := some s}
  else if key = "data".toList then do
    let b ← copyRange data valueStart valueEnd
    return {fields with data := some b}
  else if key = "content_hash".toList then do
    let (bytes,_) ← decodeCborBytes data valueStart
    let hash ← wireHash bytes
    return {fields with contentHash := some hash}
  else return fields

def decodeEntity (data : Bytes) : Aborting WireError Entity := do
  let (count,headSize) ← mapHead data 0 "expected CBOR map for entity"
  let fields ← walkFields data (entityField data) count headSize ⟨none,none,none⟩
  let entityType ← lift (okOr fields.entityType (missing "type"))
  let entityData ← lift (okOr fields.data (missing "data"))
  let contentHash ← lift (okOr fields.contentHash (missing "content_hash"))
  return ⟨entityType,entityData,contentHash⟩

def partsField (data : Bytes) (fields : Option Str × Option Bytes) (key : Str)
    (valueStart valueEnd : ℕ) : Aborting WireError (Option Str × Option Bytes) :=
  if key = "type".toList then do
    let s ← textAt data valueStart
    return (some s,fields.2)
  else if key = "data".toList then do
    let b ← copyRange data valueStart valueEnd
    return (fields.1,some b)
  else return fields

def decodeEntityParts (data : Bytes) : Aborting WireError (Str × Bytes) := do
  let (count,headSize) ← mapHead data 0 "expected CBOR map for entity"
  let fields ← walkFields data (partsField data) count headSize (none,none)
  let entityType ← lift (okOr fields.1 (missing "type"))
  let entityData ← lift (okOr fields.2 (missing "data"))
  return (entityType,entityData)

def entityIn (data : Bytes) (start stop : ℕ) : Aborting WireError Entity := do
  decodeEntity (← Aborting.slice data start stop)

def decodeIncluded (data : Bytes) : ℕ → ℕ → OrderedMap Hash Entity →
    Aborting WireError (OrderedMap Hash Entity)
  | 0, _, included => return included
  | n+1, cursor, included => do
    let (hashBytes,entityStart) ← decodeCborBytes data cursor
    let hash ← wireHash hashBytes
    let entityEnd ← cborItemEnd data entityStart
    let entity ← entityIn data entityStart entityEnd
    if hash ≠ entity.contentHash then fail (.includedKeyMismatch (HashError.displayHash hash)
      (HashError.displayHash entity.contentHash))
    else decodeIncluded data n entityEnd (included.insert hash entity)

def envelopeField (data : Bytes) (fields : Option Entity × OrderedMap Hash Entity) (key : Str)
    (valueStart valueEnd : ℕ) : Aborting WireError (Option Entity × OrderedMap Hash Entity) :=
  if key = "root".toList then do
    let root ← entityIn data valueStart valueEnd
    return (some root,fields.2)
  else if key = "included".toList then do
    let (count,headSize) ← mapHead data valueStart "envelope.included must be a CBOR map"
    let start ← add valueStart headSize
    let included ← decodeIncluded data count start fields.2
    return (fields.1,included)
  else return fields

def decodeEnvelope (data : Bytes) : Aborting WireError Envelope := do
  let (count,headSize) ← mapHead data 0 "expected CBOR map for envelope"
  let fields ← walkFields data (envelopeField data) count headSize (none,.empty)
  let root ← lift (okOr fields.1 (missing "root"))
  return ⟨root,fields.2⟩

def findField (data : Bytes) (key : Str) : ℕ → ℕ → Aborting WireError (Option Bytes)
  | 0, _ => return none
  | n+1, cursor => do
    let (k,valueStart) ← decodeCborText data cursor
    let valueEnd ← cborItemEnd data valueStart
    if k = key then do
      let b ← Aborting.slice data valueStart valueEnd
      return some b
    else findField data key n valueEnd

def decodeEnvelopeRoot (data : Bytes) : Aborting WireError Entity := do
  let (count,headSize) ← mapHead data 0 "expected CBOR map for envelope"
  let found ← findField data "root".toList count headSize
  let root ← lift (okOr found (missing "root"))
  decodeEntity root

/-! Raw fields; `none` is the failure of those that return an option. -/

def cborMapFieldRaw (data : Bytes) (key : Str) : Aborting Unit Bytes := do
  let (count,headSize) ← (mapHead data 0 "expected CBOR map").mapError fun _ => ()
  let found ← (findField data key count headSize).mapError fun _ => ()
  lift (okOr found ())

def elementsRaw (data : Bytes) : ℕ → ℕ → Aborting WireError (List Bytes)
  | 0, _ => return []
  | n+1, cursor => do
    let stop ← cborItemEnd data cursor
    let b ← Aborting.slice data cursor stop
    let rest ← elementsRaw data n stop
    return b::rest

/-- The bytes that a slice and an entry of two vectors take. -/
def sliceSize : ℕ := 16
def entrySize : ℕ := 48

def cborArrayElementsRaw (data : Bytes) : Aborting Unit (List Bytes) := do
  let (major,count,headSize) ← (parseCborHead data 0).mapError fun _ => ()
  if major ≠ 4 then fail ()
  else do
    withCapacity sliceSize count
    (elementsRaw data count headSize).mapError fun _ => ()

def otherEntries (mapBytes : Bytes) (key : Str) : ℕ → ℕ → Aborting WireError (List (Bytes × Bytes))
  | 0, _ => return []
  | n+1, cursor => do
    let (k,afterKey) ← decodeCborText mapBytes cursor
    let valueEnd ← cborItemEnd mapBytes afterKey
    if k ≠ key then do
      let encodedKey ← copyRange mapBytes cursor afterKey
      let value ← copyRange mapBytes afterKey valueEnd
      let rest ← otherEntries mapBytes key n valueEnd
      return (encodedKey,value)::rest
    else otherEntries mapBytes key n valueEnd

def cborMapSetRaw (mapBytes : Bytes) (key : Str) (value : Bytes) : Aborting WireError Bytes := do
  let (count,headSize) ← mapHead mapBytes 0 "cbor_map_set_raw: expected CBOR map"
  let room ← add count 1
  withCapacity entrySize room
  let entries ← otherEntries mapBytes key count headSize
  let value ← toVec value
  let entries := (entries++[(encodeCborText key,value)]).insertionSort entryLe
  return encodeHead majorMap entries.length++entries.flatMap fun e => e.1++e.2

end Checked
end Wire
end EntityCore
