import EntityCore.EcfCanonical
import EntityCore.Entity

/-! The wire form of entities and envelopes. The decoder finds every item by its byte
range and decodes the wrappers only; what an entity holds is passed on as it came. -/
namespace EntityCore
namespace Wire

open Ecf ByteCode Outcome

inductive WireError where
  | cborDecode (message : String)
  | cborTag (offset : ℕ)
  | includedKeyMismatch (key actual : String)
  deriving DecidableEq

/-! The encoder. -/

/-- The data is embedded as it is. -/
def encodeEntity (e : Entity) : Bytes :=
  0xA3::(encodeCborText "data".toList++e.data)++
    (encodeCborText "type".toList++encodeCborText e.entityType)++
    (encodeCborText "content_hash".toList++encodeCborBstr e.contentHash.toBytes)

/-- An empty `included` is left out. -/
def encodeEnvelope (env : Envelope) : Bytes :=
  if env.included.entries = [] then 0xA1::(encodeCborText "root".toList++encodeEntity env.root)
  else 0xA2::(encodeCborText "root".toList++encodeEntity env.root)++
    (encodeCborText "included".toList++(encodeHead majorMap env.included.entries.length++
      env.included.entries.flatMap fun kv => encodeCborBstr kv.1.toBytes++encodeEntity kv.2))

/-! The byte-range walker. -/

def slice (data : Bytes) (start stop : ℕ) : Bytes := (data.drop start).take (stop-start)

/-- The text that some bytes are the UTF-8 of. -/
def fromUtf8 (b : Bytes) : Option Str := b.toByteArray.utf8Decode?.map Array.toList

/-- Major type, argument and size of a head. -/
def parseCborHead (data : Bytes) (offset : ℕ) : Except WireError (UInt8 × ℕ × ℕ) :=
  match data[offset]? with
  | none => .error (.cborDecode "unexpected EOF parsing CBOR head")
  | some first =>
    let major := first >>> 5
    let ai := first &&& 0x1F
    let argument (width : ℕ) (name : String) : Except WireError (UInt8 × ℕ × ℕ) :=
      if offset+1+width > data.length then
        .error (.cborDecode ("EOF reading CBOR "++name++ " argument"))
      else .ok (major,beNumber (slice data (offset+1) (offset+1+width)),1+width)
    if ai ≤ 23 then .ok (major,ai.toNat,1)
    else if ai = 24 then argument 1 "u8"
    else if ai = 25 then argument 2 "u16"
    else if ai = 26 then argument 4 "u32"
    else if ai = 27 then argument 8 "u64"
    else .error (.cborDecode ("CBOR additional-info "++toString ai++
      " (indefinite-length / reserved); ECF requires definite-length encoding per "++
      "ENTITY-CBOR-ENCODING §4.2"))

/-- The end of a payload of `len` bytes. -/
def payloadEnd (data : Bytes) (what : String) (start len : ℕ) : Except WireError ℕ :=
  if start+len ≥ 2^64 then .error (.cborDecode ("CBOR "++what++ " length overflow"))
  else if start+len > data.length then .error (.cborDecode ("CBOR "++what++ " runs past end"))
  else .ok (start+len)

def repeatEnd (itemEnd : ℕ → Except WireError ℕ) : ℕ → ℕ → Except WireError ℕ
  | 0, cursor => .ok cursor
  | n+1, cursor => do repeatEnd itemEnd n (← itemEnd cursor)

/-- The end of the item at an offset; `depth` bounds the nesting. -/
def itemEnd (data : Bytes) : ℕ → ℕ → Except WireError ℕ
  | 0, _ => .error (.cborDecode "CBOR nesting")
  | depth+1, offset => do
    let (major,value,headSize) ← parseCborHead data offset
    let afterHead := offset+headSize
    if major ≤ 1 then .ok afterHead
    else if major ≤ 3 then payloadEnd data "string/bytes" afterHead value
    else if major = 4 then repeatEnd (itemEnd data depth) value afterHead
    else if major = 5 then
      repeatEnd (fun cursor => do itemEnd data depth (← itemEnd data depth cursor)) value afterHead
    else if major = 6 then .error (.cborTag offset)
    else .ok afterHead

/-- Every level of nesting takes a byte. -/
def cborItemEnd (data : Bytes) (offset : ℕ) : Except WireError ℕ :=
  itemEnd data (data.length+1) offset

def decodeCborText (data : Bytes) (offset : ℕ) : Except WireError (Str × ℕ) := do
  let (major,len,headSize) ← parseCborHead data offset
  if major ≠ 3 then .error (.cborDecode ("expected CBOR text, got major="++toString major))
  else do
    let start := offset+headSize
    let stop ← payloadEnd data "text" start len
    let s ← okOr (fromUtf8 (slice data start stop)) (.cborDecode "CBOR text invalid utf-8")
    return (s,stop)

def decodeCborBytes (data : Bytes) (offset : ℕ) : Except WireError (Bytes × ℕ) := do
  let (major,len,headSize) ← parseCborHead data offset
  if major ≠ 2 then .error (.cborDecode ("expected CBOR bytes, got major="++toString major))
  else do
    let start := offset+headSize
    let stop ← payloadEnd data "bytes" start len
    return (slice data start stop,stop)

/-! The decoder. -/

/-- The size and the head of a map. -/
def mapHead (data : Bytes) (offset : ℕ) (expected : String) : Except WireError (ℕ × ℕ) := do
  let (major,count,headSize) ← parseCborHead data offset
  if major ≠ 5 then .error (.cborDecode (expected++ ", got major="++toString major))
  else return (count,headSize)

/-- The fields of a map with text keys; `onField` takes a key and the range of its value. -/
def walkFields {σ : Type} (data : Bytes) (onField : σ → Str → ℕ → ℕ → Except WireError σ) :
    ℕ → ℕ → σ → Except WireError σ
  | 0, _, fields => .ok fields
  | n+1, cursor, fields => do
    let (key,valueStart) ← decodeCborText data cursor
    let valueEnd ← cborItemEnd data valueStart
    let fields ← onField fields key valueStart valueEnd
    walkFields data onField n valueEnd fields

structure EntityFields where
  entityType : Option Str
  data : Option Bytes
  contentHash : Option Hash

/-- Unknown keys are tolerated. -/
def entityField (data : Bytes) (fields : EntityFields) (key : Str) (valueStart valueEnd : ℕ) :
    Except WireError EntityFields :=
  if key = "type".toList then do
    let (s,_) ← decodeCborText data valueStart
    return {fields with entityType := some s}
  else if key = "data".toList then
    return {fields with data := some (slice data valueStart valueEnd)}
  else if key = "content_hash".toList then do
    let (bytes,_) ← decodeCborBytes data valueStart
    let hash ← mapErr (fun e => WireError.cborDecode e.display) (Hash.fromBytes bytes)
    return {fields with contentHash := some hash}
  else return fields

def missing (field : String) : WireError := .cborDecode ("missing '"++field++ "' field")

def decodeEntity (data : Bytes) : Except WireError Entity := do
  let (count,headSize) ← mapHead data 0 "expected CBOR map for entity"
  let fields ← walkFields data (entityField data) count headSize ⟨none,none,none⟩
  let entityType ← okOr fields.entityType (missing "type")
  let entityData ← okOr fields.data (missing "data")
  let contentHash ← okOr fields.contentHash (missing "content_hash")
  return ⟨entityType,entityData,contentHash⟩

/-- A content hash on the wire is not even read. -/
def partsField (data : Bytes) (fields : Option Str × Option Bytes) (key : Str)
    (valueStart valueEnd : ℕ) : Except WireError (Option Str × Option Bytes) :=
  if key = "type".toList then do
    let (s,_) ← decodeCborText data valueStart
    return (some s,fields.2)
  else if key = "data".toList then return (fields.1,some (slice data valueStart valueEnd))
  else return fields

def decodeEntityParts (data : Bytes) : Except WireError (Str × Bytes) := do
  let (count,headSize) ← mapHead data 0 "expected CBOR map for entity"
  let fields ← walkFields data (partsField data) count headSize (none,none)
  let entityType ← okOr fields.1 (missing "type")
  let entityData ← okOr fields.2 (missing "data")
  return (entityType,entityData)

/-- Every entry is filed under the hash that its entity carries. -/
def decodeIncluded (data : Bytes) : ℕ → ℕ → OrderedMap Hash Entity →
    Except WireError (OrderedMap Hash Entity)
  | 0, _, included => .ok included
  | n+1, cursor, included => do
    let (hashBytes,entityStart) ← decodeCborBytes data cursor
    let hash ← mapErr (fun e => WireError.cborDecode e.display) (Hash.fromBytes hashBytes)
    let entityEnd ← cborItemEnd data entityStart
    let entity ← decodeEntity (slice data entityStart entityEnd)
    if hash ≠ entity.contentHash then .error (.includedKeyMismatch (HashError.displayHash hash)
      (HashError.displayHash entity.contentHash))
    else decodeIncluded data n entityEnd (included.insert hash entity)

def envelopeField (data : Bytes) (fields : Option Entity × OrderedMap Hash Entity) (key : Str)
    (valueStart valueEnd : ℕ) : Except WireError (Option Entity × OrderedMap Hash Entity) :=
  if key = "root".toList then do
    return (some (← decodeEntity (slice data valueStart valueEnd)),fields.2)
  else if key = "included".toList then do
    let (count,headSize) ← mapHead data valueStart "envelope.included must be a CBOR map"
    return (fields.1,← decodeIncluded data count (valueStart+headSize) fields.2)
  else return fields

def decodeEnvelope (data : Bytes) : Except WireError Envelope := do
  let (count,headSize) ← mapHead data 0 "expected CBOR map for envelope"
  let fields ← walkFields data (envelopeField data) count headSize (none,.empty)
  let root ← okOr fields.1 (missing "root")
  return ⟨root,fields.2⟩

/-! Raw fields. -/

/-- The range of a key's first value. -/
def findField (data : Bytes) (key : Str) : ℕ → ℕ → Except WireError (Option Bytes)
  | 0, _ => .ok none
  | n+1, cursor => do
    let (k,valueStart) ← decodeCborText data cursor
    let valueEnd ← cborItemEnd data valueStart
    if k = key then return some (slice data valueStart valueEnd)
    else findField data key n valueEnd

/-- Nothing else of the envelope is read. -/
def decodeEnvelopeRoot (data : Bytes) : Except WireError Entity := do
  let (count,headSize) ← mapHead data 0 "expected CBOR map for envelope"
  let root ← okOr (← findField data "root".toList count headSize) (missing "root")
  decodeEntity root

def cborMapFieldRaw (data : Bytes) (key : Str) : Option Bytes :=
  match mapHead data 0 "expected CBOR map" with
  | .error _ => none
  | .ok (count,headSize) =>
    match findField data key count headSize with
    | .error _ => none
    | .ok found => found

def elementsRaw (data : Bytes) : ℕ → ℕ → Except WireError (List Bytes)
  | 0, _ => .ok []
  | n+1, cursor => do
    let stop ← cborItemEnd data cursor
    return slice data cursor stop::(← elementsRaw data n stop)

def cborArrayElementsRaw (data : Bytes) : Option (List Bytes) :=
  match parseCborHead data 0 with
  | .error _ => none
  | .ok (major,count,headSize) =>
    if major ≠ 4 then none
    else match elementsRaw data count headSize with
      | .error _ => none
      | .ok elements => some elements

/-- The entries under other keys, each key still encoded. -/
def otherEntries (mapBytes : Bytes) (key : Str) : ℕ → ℕ → Except WireError (List (Bytes × Bytes))
  | 0, _ => .ok []
  | n+1, cursor => do
    let (k,afterKey) ← decodeCborText mapBytes cursor
    let valueEnd ← cborItemEnd mapBytes afterKey
    let rest ← otherEntries mapBytes key n valueEnd
    if k ≠ key then
      return (slice mapBytes cursor afterKey,slice mapBytes afterKey valueEnd)::rest
    else return rest

def cborMapSetRaw (mapBytes : Bytes) (key : Str) (value : Bytes) : Except WireError Bytes := do
  let (count,headSize) ← mapHead mapBytes 0 "cbor_map_set_raw: expected CBOR map"
  let entries ← otherEntries mapBytes key count headSize
  let entries := (entries++[(encodeCborText key,value)]).insertionSort entryLe
  return encodeHead majorMap entries.length++entries.flatMap fun e => e.1++e.2

end Wire

end EntityCore
