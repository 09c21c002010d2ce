import EntityCore.Chain

/-! Verification of a request: entity hashes, the execute signature, the capability
and its chain, and the revocation check that may follow. -/
namespace EntityCore

open Ecf Outcome

variable (X : Platform)

structure ExecuteFields where
  requestId : Str
  uri : Str
  operation : Str
  author : Option Hash
  capability : Option Hash

structure ExecuteScan where
  requestId : Option Str
  uri : Option Str
  operation : Option Str
  author : Option Hash
  capability : Option Hash

def scanExecuteField (acc : ExecuteScan) (kv : Value × Value) : ExecuteScan :=
  if kv.1.asText = key "request_id" then { acc with requestId := kv.2.asText }
  else if kv.1.asText = key "uri" then { acc with uri := kv.2.asText }
  else if kv.1.asText = key "operation" then { acc with operation := kv.2.asText }
  else if kv.1.asText = key "author" then { acc with author := chainHashField kv.2 acc.author }
  else if kv.1.asText = key "capability" then
    { acc with capability := chainHashField kv.2 acc.capability }
  else acc

def decodeExecuteFields (data : Bytes) : Except ProtocolError ExecuteFields := do
  let value ← mapErr ProtocolError.invalid (X.fromReader data)
  let map ← okOr value.asMap (.invalid "execute data must be a map")
  let acc := map.foldl scanExecuteField ⟨none,none,none,none,none⟩
  let requestId ← okOr acc.requestId (.missingField "request_id")
  let uri ← okOr acc.uri (.missingField "uri")
  let operation ← okOr acc.operation (.missingField "operation")
  return ⟨requestId,uri,operation,acc.author,acc.capability⟩

structure VerifiedRequest where
  authorHash : Hash
  capabilityHash : Hash
  capability : CapabilityToken
  requestId : Str
  uri : Str
  operation : Str

/-- Formats come before recomputed hashes, hashes before anything that reads by hash. -/
def verifyEntities (env : Envelope) : Except ProtocolError Unit := do
  ensure (Hash.digestLenForFormat env.root.contentHash.algorithm).isSome
    (.unsupportedContentHashFormat env.root.contentHash.algorithm)
  forEach (fun e => ensure (Hash.digestLenForFormat e.contentHash.algorithm).isSome
    (.unsupportedContentHashFormat e.contentHash.algorithm)) env.included.values
  mapErr (fun _ => ProtocolError.hashMismatch) (env.root.validate X)
  forEach (fun e => mapErr (fun _ => ProtocolError.hashMismatch) (e.validate X))
    env.included.values
  verifyIncludedKeyBinding env.included

/-- The first signature found over the request must be its author's. -/
def verifyAuthor (env : Envelope) (authorHash : Hash) : Except ProtocolError Unit := do
  let sigEntity ← okOr (findSignatureForTarget X env.included.values env.root.contentHash)
    (.authenticationFailed "missing execute signature")
  let sigData ←
    mapErr (fun e => ProtocolError.invalid e.display) (SignatureData.fromEntity X sigEntity)
  ensure (sigData.signer = authorHash)
    (.authenticationFailed "execute signer does not match author")
  let authorEntity ← okOr (env.findIncluded authorHash)
    (.authenticationFailed "author identity not in included")
  ensure (authorEntity.entityType = typePeer) (.invalid "author is not system/peer")
  let authorIdentity ←
    mapErr (fun e => ProtocolError.invalid e.display) (PeerData.fromEntity X authorEntity)
  mapErr (fun e => match e with
    | .invalidSignature => ProtocolError.authenticationFailed "invalid execute signature"
    | other => other)
    (verifyPeerDataSig X authorIdentity env.root.contentHash.toBytes sigData.signature)

/-- The capability the request names: decodable, granted to the author, in force. -/
def verifyCapability (env : Envelope) (authorHash capabilityHash : Hash) (nowMs : ℕ) :
    Except ProtocolError CapabilityToken := do
  let capEntity ← okOr (env.findIncluded capabilityHash) .missingCapabilityEntity
  ensure (capEntity.entityType = typeCapToken) (.invalid "capability is not system/capability/token")
  let capToken ← mapErr (fun e => ProtocolError.invalid ("capability decode: "++ e.display))
    (CapabilityToken.fromEntity X capEntity)
  ensure ((env.findIncluded capToken.grantee).any fun g => g.entityType = typePeer)
    .unresolvableGrantee
  ensure (capToken.grantee = authorHash) .granteeMismatch
  ensure (capToken.expiresAt.all fun expiresAt => nowMs < expiresAt) .capabilityExpired
  ensure (capToken.notBefore.all fun notBefore => notBefore ≤ nowMs) .capabilityNotYetValid
  return capToken

/-- The clock is read once for the leaf and once more for the chain. -/
def verifyRequest (env : Envelope) (localPeerId : Str) (nowMs chainNowMs : ℕ) :
    Except ProtocolError VerifiedRequest := do
  verifyEntities X env
  let executeData ← decodeExecuteFields X env.root.data
  let authorHash ← okOr executeData.author (.authenticationFailed "missing author")
  let capabilityHash ← okOr executeData.capability .missingCapability
  verifyAuthor X env authorHash
  let capToken ← verifyCapability X env authorHash capabilityHash nowMs
  verifyCapabilityChain X capabilityHash env.included localPeerId chainNowMs
  return ⟨authorHash,capabilityHash,capToken,executeData.requestId,executeData.uri,
    executeData.operation⟩

/-! Revocation. -/

def revocationMarkerPath (localPeerId : Str) (hash : Hash) : Str :=
  '/'::localPeerId++ "/system/capability/revocations/".toList++hash.toHex

/-- Only the root of the chain is looked up, by storage path and by marker. -/
def isRevoked (leafHash : Hash) (localPeerId : Str) (resolve : Hash → Option Entity)
    (locate : Str → Option Hash) (capabilityPathFor : Hash → Option Str) : Bool :=
  match collectAuthorityChain X leafHash resolve with
  | .error _ => true
  | .ok chain => match chain.getLast? with
    -- a collected chain is never empty
    | none => true
    | some root =>
      let rootHash := root.entity.contentHash
      (match capabilityPathFor rootHash with
        | none => false
        | some rootPath => locate rootPath ≠ some rootHash) ||
      (locate (revocationMarkerPath localPeerId rootHash)).isSome

/-- The first path under the grants prefix that holds the capability. -/
def capabilityPathForScan (capHash : Hash) (localPeerId : Str)
    (listByPrefix : Str → List (Str × Hash)) : Option Str :=
  let pre := '/'::localPeerId++ "/system/capability/grants/".toList
  ((listByPrefix pre).find? fun ph => ph.2 = capHash).map Prod.fst

structure VerifyContext where
  localPeerId : Str
  supportsRevocation : Bool

def verifyRequestWithCtx (env : Envelope) (ctx : VerifyContext) (nowMs chainNowMs : ℕ)
    (resolve : Hash → Option Entity) (locate : Str → Option Hash)
    (capabilityPathFor : Hash → Option Str) : Except ProtocolError VerifiedRequest := do
  let verified ← verifyRequest X env ctx.localPeerId nowMs chainNowMs
  if ctx.supportsRevocation &&
      isRevoked X verified.capabilityHash ctx.localPeerId resolve locate capabilityPathFor then
    .error .capabilityRevoked
  else return verified

end EntityCore
