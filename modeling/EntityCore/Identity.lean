import EntityCore.Entity

/-! Identities and signatures: the two entity payloads the verifier reads, the
peer id an identity determines, and signature checking by key type. -/
namespace EntityCore

open Ecf Outcome ByteCode

inductive TypesError where
  | wrongType (expected actual : Str)
  | decodeError (message : String)
  deriving DecidableEq

structure PeerData where
  publicKey : Bytes
  keyType : Str
  deriving DecidableEq

namespace PeerData

variable (X : Platform)

structure Fields where
  publicKey : Option Bytes
  keyType : Option Str

def scanField (acc : Fields) (kv : Value × Value) : Fields :=
  if kv.1.asText = some "public_key".toList then { acc with publicKey := kv.2.asBytes }
  else if kv.1.asText = some "key_type".toList then { acc with keyType := kv.2.asText }
  else acc

def fromEntity (entity : Entity) : Except TypesError PeerData := do
  ensure (entity.entityType = typePeer) (.wrongType typePeer entity.entityType)
  let value ← mapErr TypesError.decodeError (X.fromReader entity.data)
  let map ← okOr value.asMap (.decodeError "expected CBOR map")
  let acc := map.foldl scanField ⟨none,none⟩
  let publicKey ← okOr acc.publicKey (.decodeError "missing public_key")
  let keyType ← okOr acc.keyType (.decodeError "missing key_type")
  return ⟨publicKey,keyType⟩

/-- The one wire id of a key: Ed25519 keys stand in it, Ed448 keys as a digest. -/
def canonicalPeerId (p : PeerData) : Option Str :=
  if p.keyType = "ed25519".toList then
    if p.publicKey.length ≠ 32 then none else some (base58Encode (0x01::0x00::p.publicKey))
  else if p.keyType = "ed448".toList then
    if p.publicKey.length ≠ 57 then none
    else some (base58Encode (0x02::0x01::X.sha256 p.publicKey))
  else none

end PeerData

structure SignatureData where
  target : Hash
  signer : Hash
  algorithm : Str
  signature : Bytes
  deriving DecidableEq

namespace SignatureData

variable (X : Platform)

structure Fields where
  target : Option Hash
  signer : Option Hash
  algorithm : Option Str
  signature : Option Bytes

/-- A hash field is an error when it holds bytes that are no hash, and is skipped
when it holds anything else. -/
def hashOr (v : Value) (old : Option Hash) : Except TypesError (Option Hash) :=
  match v.asBytes with
  | some b => match Hash.fromBytes b with
    | .ok h => .ok (some h)
    | .error e => .error (.decodeError e.display)
  | none => .ok old

def scanField (acc : Fields) (kv : Value × Value) : Except TypesError Fields :=
  if kv.1.asText = some "target".toList then do
    return { acc with target := ← hashOr kv.2 acc.target }
  else if kv.1.asText = some "signer".toList then do
    return { acc with signer := ← hashOr kv.2 acc.signer }
  else if kv.1.asText = some "algorithm".toList then .ok { acc with algorithm := kv.2.asText }
  else if kv.1.asText = some "signature".toList then .ok { acc with signature := kv.2.asBytes }
  else .ok acc

def fromEntity (entity : Entity) : Except TypesError SignatureData := do
  ensure (entity.entityType = typeSignature) (.wrongType typeSignature entity.entityType)
  let value ← mapErr TypesError.decodeError (X.fromReader entity.data)
  let map ← okOr value.asMap (.decodeError "expected CBOR map")
  let acc ← foldE scanField ⟨none,none,none,none⟩ map
  let target ← okOr acc.target (.decodeError "missing target")
  let signer ← okOr acc.signer (.decodeError "missing signer")
  let algorithm ← okOr acc.algorithm (.decodeError "missing algorithm")
  let signature ← okOr acc.signature (.decodeError "missing signature")
  return ⟨target,signer,algorithm,signature⟩

end SignatureData

inductive KeyType where
  | ed25519 | ed448 | experimentalTest
  deriving DecidableEq

inductive CryptoError where
  | unsupportedKeyType (code : UInt8)
  | invalidPeerId (message : String)
  | invalidPublicKey
  | invalidSignature
  deriving DecidableEq

namespace KeyType

def fromLabel (s : Str) : Except CryptoError KeyType :=
  if s = "ed25519".toList then .ok .ed25519
  else if s = "ed448".toList then .ok .ed448
  else if s = "experimental-test".toList then .ok .experimentalTest
  else .error (.invalidPeerId ("unknown key_type label: \""++String.ofList s++ "\""))

end KeyType

def verifyForKeyType (X : Platform) (keyType : KeyType) (publicKey message signature : Bytes) :
    Except CryptoError Unit :=
  match keyType with
  | .ed25519 =>
    if publicKey.length ≠ 32 then .error .invalidPublicKey
    else ensure (X.ed25519Verify publicKey message signature) .invalidSignature
  | .ed448 =>
    if publicKey.length ≠ 57 then .error .invalidPublicKey
    else ensure (X.ed448Verify publicKey message signature) .invalidSignature
  | .experimentalTest => .error (.unsupportedKeyType 0xFE)

theorem canonicalPeerId_of_verify {X : Platform} {p : PeerData} {k : KeyType} {m s : Bytes}
    (hk : KeyType.fromLabel p.keyType = .ok k) (hv : verifyForKeyType X k p.publicKey m s = .ok ()) :
    ∃ id, p.canonicalPeerId X = some id := by
  unfold KeyType.fromLabel at hk
  split_ifs at hk with h25519 h448 htest <;> obtain rfl := Except.ok.inj hk <;>
    simp only [verifyForKeyType] at hv
  · split at hv
    · cases hv
    · rename_i hl; exact ⟨_,by rw [PeerData.canonicalPeerId,if_pos h25519,if_neg hl]⟩
  · split at hv
    · cases hv
    · rename_i hl; exact ⟨_,by rw [PeerData.canonicalPeerId,if_neg h25519,if_pos h448,if_neg hl]⟩
  · cases hv

end EntityCore
