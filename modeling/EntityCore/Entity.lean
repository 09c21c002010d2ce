import EntityCore.Hash
import EntityCore.OrderedMap
import EntityCore.Strings

/-! Entities, envelopes and entity paths: content addressing, the scans that find
a signature among included entities, and the path checks of the protocol boundary. -/
namespace EntityCore

open Ecf Outcome Strings

namespace HashError

def hexCode (code : UInt8) : String := "0x"++String.ofList (Hash.hexStr [code])

def displayHash (h : Hash) : String :=
  (if h.algorithm = Hash.hashAlgorithmSha256 then "ecfv1-sha256:"
    else if h.algorithm = Hash.hashAlgorithmSha384 then "ecfv1-sha384:" else "ecfv1-unknown:")++
    String.ofList (Hash.hexStr h.digest)

def display : HashError → String
  | .hashMismatch e a => "hash mismatch: expected "++displayHash e++ ", got "++displayHash a
  | .invalidLength e a => "invalid hash length: expected "++toString e++ ", got "++toString a
  | .unsupportedAlgorithm c => "unsupported hash algorithm: "++hexCode c
  | .reservedFormat c => "content_hash_format "++hexCode c++ " is reserved (v7.67 §5.3)"
  | .invalidFormat m => "invalid hash format: "++m

end HashError

/-! The accessors of a decoded value. -/
namespace Ecf.Value

def asMap : Value → Option (List (Value × Value))
  | .map m => some m
  | _ => none

def asText : Value → Option Str
  | .text s => some s
  | _ => none

def asBytes : Value → Option Bytes
  | .bytes b => some b
  | _ => none

def asArray : Value → Option (List Value)
  | .array vs => some vs
  | _ => none

def asBool : Value → Option Bool
  | .bool b => some b
  | _ => none

def asInteger : Value → Option Integer
  | .integer i => some i
  | _ => none

/-- An integer that fits an unsigned machine word. -/
def asU64 (v : Value) : Option ℕ :=
  v.asInteger.bind fun i => if 0 ≤ i.val ∧ i.val < 2^64 then some i.val.toNat else none

end Ecf.Value

def typePeer : Str := "system/peer".toList
def typeSignature : Str := "system/signature".toList
def uriScheme : Str := "entity://".toList
/-- The canonical value no pattern matches and no path can be. -/
def neverMatch : Str := "/never-match".toList

inductive EntityError where
  | invalidType (message : String)
  | hashMismatch (expected actual : Hash)
  | missingField (field : String)
  | invalidUri (message : String)
  deriving DecidableEq

structure Entity where
  entityType : Str
  data : Bytes
  contentHash : Hash
  deriving DecidableEq

namespace Entity

variable (X : Platform)

def newWithFormat (entityType : Str) (data : Bytes) (formatCode : UInt8) :
    Except EntityError Entity :=
  if entityType = [] then .error (.invalidType "entity type cannot be empty")
  else if data = [] then .error (.missingField "data")
  -- identity entities exist at the SHA-256 floor only
  else if entityType = typePeer ∧ formatCode ≠ Hash.hashAlgorithmSha256 then
    .error (.invalidType ("system/peer is pinned to the ECFv1-SHA-256 floor (V7 §4.5a item 1a); "++
      "refusing to author it under content_hash_format "++HashError.hexCode formatCode))
  else
    match Hash.computeFormat X entityType data formatCode with
    | .ok contentHash => .ok ⟨entityType,data,contentHash⟩
    | .error e => .error (.invalidType e.display)

def new (entityType : Str) (data : Bytes) : Except EntityError Entity :=
  newWithFormat X entityType data X.defaultHashFormat

def validate (e : Entity) : Except EntityError Unit :=
  match Hash.validate X e.entityType e.data e.contentHash with
  | .ok _ => .ok ()
  | .error (.hashMismatch expected actual) => .error (.hashMismatch expected actual)
  | .error other => .error (.invalidType other.display)

theorem newWithFormat_ok {t : Str} {d : Bytes} {f : UInt8} {e : Entity}
    (h : newWithFormat X t d f = .ok e) : e.entityType = t ∧ e.data = d ∧
      Hash.computeFormat X t d f = .ok e.contentHash := by
  unfold newWithFormat at h
  split_ifs at h
  split at h
  · rename_i c hc
    obtain rfl := Except.ok.inj h
    exact ⟨rfl,rfl,hc⟩
  · cases h

end Entity

structure Envelope where
  root : Entity
  included : OrderedMap Hash Entity

namespace Envelope

variable (X : Platform)

def findIncluded (env : Envelope) (hash : Hash) : Option Entity := env.included.get hash

def validateAll (env : Envelope) : Except EntityError Unit := do
  env.root.validate X
  forEach (fun e => e.validate X) env.included.values

end Envelope

/-- Every key is the content hash its entity carries. -/
def ContentAddressed (m : OrderedMap Hash Entity) : Prop :=
  ∀ k e, m.get k = some e → e.contentHash = k

/-! Signatures among included entities. -/

structure SigScan where
  target : Option Hash
  signer : Option Hash

def hashField (v : Value) : Option Hash := v.asBytes.bind fun b => (Hash.fromBytes b).toOption

def scanSigField (acc : SigScan) (kv : Value × Value) : SigScan :=
  if kv.1.asText = some "target".toList then { acc with target := hashField kv.2 }
  else if kv.1.asText = some "signer".toList then { acc with signer := hashField kv.2 }
  else acc

/-- Target and signer of a signature entity's data, if both decode. -/
def decodeSigTargetSigner (X : Platform) (data : Bytes) : Option (Hash × Hash) := do
  let value ← (X.fromReader data).toOption
  let entries ← value.asMap
  let acc := entries.foldl scanSigField ⟨none,none⟩
  return (← acc.target,← acc.signer)

def isSignatureFor (X : Platform) (target : Hash) (e : Entity) : Bool :=
  e.entityType = typeSignature && (decodeSigTargetSigner X e.data).any fun ts => ts.1 = target

def isSignatureBy (X : Platform) (target signer : Hash) (e : Entity) : Bool :=
  e.entityType = typeSignature &&
    (decodeSigTargetSigner X e.data).any fun ts => ts.1 = target && ts.2 = signer

/-- The first signature over `target`, in iteration order. -/
def findSignatureForTarget (X : Platform) (entities : List Entity) (target : Hash) :
    Option Entity := entities.find? (isSignatureFor X target)

def findSignatureBySigner (X : Platform) (entities : List Entity) (target signer : Hash) :
    Option Entity := entities.find? (isSignatureBy X target signer)

/-! Entity paths. -/

structure EntityUri where
  peerId : Str
  path : Str

namespace EntityUri

open ByteCode

def isPeerId (segment : Str) : Bool :=
  segment.length = 46 && segment.all fun c => c ∈ base58Alphabet

def parse (s : Str) : Except EntityError EntityUri :=
  match stripPrefix s uriScheme with
  | none => .error (.invalidUri "expected 'entity://' prefix")
  | some rest => match splitOnce '/' rest with
    | some (peerId,path) => .ok ⟨peerId,path⟩
    | none => .ok ⟨rest,[]⟩

/-- Everything before the first `/`. -/
def firstSegment (s : Str) : Str :=
  match splitOnce '/' s with
  | some (a,_) => a
  | none => s

/-- The path portion of a URI. -/
def normalizePath (uri : Str) : Str :=
  match stripPrefix uri uriScheme with
  | some rest => match splitOnce '/' rest with
    | some (_,path) => path
    | none => []
  | none => uri

def extractPeer (uri localPeerId : Str) : Str :=
  let rest := match stripPrefix uri uriScheme with
    | some rest => rest
    | none => (stripPrefix uri ['/']).getD uri
  let first := firstSegment rest
  if isPeerId first then first else localPeerId

def collapseSlashes (prevSlash : Bool) : Str → Str
  | [] => []
  | c::cs =>
    if c = '/' then (if prevSlash then collapseSlashes true cs else '/'::collapseSlashes true cs)
    else c::collapseSlashes false cs

/-- Collapse runs of `/`, leaving the scheme alone. The call on the part after a
scheme may meet a second scheme, which is why this is a recursion. -/
def cleanPath (input : Str) : Str := go input.length input
where
  go : ℕ → Str → Str
    | 0, s => collapseSlashes false s
    | n+1, s => match stripPrefix s uriScheme with
      | some rest => uriScheme++go n rest
      | none => collapseSlashes false s

def qualifyPath (path localPeerId : Str) : Str :=
  match stripPrefix path uriScheme with
  | some rest => cleanPath ('/'::rest)
  | none =>
    if startsWith path "./".toList || startsWith path "../".toList then neverMatch
    else if startsWith path "*/".toList then neverMatch
    else if startsWith path ['/'] then cleanPath path
    else if path = ['*'] then '/'::localPeerId++ "/*".toList
    else match splitOnce '/' path with
      | some (first,_) => if isPeerId first then '/'::path else '/'::localPeerId++ '/'::path
      | none => if isPeerId path then '/'::path else '/'::localPeerId++ '/'::path

def stripPeerPrefix (path : Str) : Str :=
  let p := (stripPrefix path ['/']).getD path
  match splitOnce '/' p with
  | some (first,rest) =>
    if isPeerId first then rest else if isPeerId p then [] else path
  | none => if isPeerId p then [] else path

/-- A tree path: absolute, no empty segment, rooted at a peer. -/
def validateAbsolutePath (path : Str) : Except String Unit :=
  if !startsWith path ['/'] then
    .error ("path is not absolute (no leading /): "++String.ofList path)
  else if containsText path "//".toList then
    .error ("path contains empty segment (//): "++String.ofList path)
  else
    let firstSegment := firstSegment (path.drop 1)
    if !isPeerId firstSegment then
      .error ("first segment is not a valid peer_id: '"++String.ofList firstSegment++
        "' (expected Base58, 46 chars)")
    else .ok ()

theorem isPeerId_iff (s : Str) :
    isPeerId s = true ↔ s.length = 46 ∧ ∀ c ∈ s, c ∈ base58Alphabet := by
  simp [isPeerId]

theorem slash_notMem_of_base58 {s : Str} (h : ∀ c ∈ s, c ∈ base58Alphabet) : '/' ∉ s :=
  fun hc => absurd (h _ hc) (by decide +kernel)

theorem star_notMem_of_base58 {s : Str} (h : ∀ c ∈ s, c ∈ base58Alphabet) : '*' ∉ s :=
  fun hc => absurd (h _ hc) (by decide +kernel)

end EntityUri
end EntityCore
