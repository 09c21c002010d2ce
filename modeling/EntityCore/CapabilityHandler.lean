import EntityCore.TokenCodec
import EntityCore.Store

/-! The handler of `system/capability`: `request` mints a root token attenuated from
what the caller holds and from the policy table, `revoke` writes a revocation marker. -/
namespace EntityCore

open Ecf Outcome

def typeCapGrant : Str := "system/capability/grant".toList
def typeCapPolicyEntry : Str := "system/capability/policy-entry".toList
def typeCapRevocation : Str := "system/capability/revocation".toList
def policyFallbackSegment : Str := "default".toList

/-- What a handler's write can touch. -/
structure PeerState where
  contentStore : OrderedMap Hash Entity
  locationIndex : MemoryLocationIndex

namespace PeerState

def put (s : PeerState) (e : Entity) : PeerState :=
  { s with contentStore := s.contentStore.insert e.contentHash e }

def set (s : PeerState) (path : Str) (hash : Hash) : PeerState :=
  { s with locationIndex := s.locationIndex.set path hash }

def remove (s : PeerState) (path : Str) : PeerState :=
  { s with locationIndex := (s.locationIndex.remove path).2 }

end PeerState

structure HandlerContext where
  callerCapability : Option CapabilityToken
  author : Option Hash
  params : Entity

/-- The status and the body of an error reply. -/
structure Failure where
  status : ℕ
  code : String
  message : String

inductive HandlerResult where
  | ok (result : Entity) (included : OrderedMap Hash Entity)
  | error (failure : Failure)

def HandlerResult.isOk : HandlerResult → Bool
  | .ok _ _ => true
  | .error _ => false

/-- The peer whose identity mints and signs. -/
structure CapabilityHandler where
  localPeerId : Str
  identityHash : Hash
  identityEntity : Entity
  keyTypeLabel : Str
  sign : Bytes → Bytes

/-! Request parameters. -/

structure CapabilityRequest where
  grants : List GrantEntry
  ttlMs : Option ℕ

structure CapabilityRevocation where
  token : Hash
  reason : Option Str

def decodeTtlMs (v : Value) : Option ℕ := v.asU64

def scanRequestField (acc : CapabilityRequest) (kv : Value × Value) :
    Except String CapabilityRequest :=
  if kv.1.asText = key "grants" then do
    let arr ← okOr kv.2.asArray "grants must be an array"
    let more ← arr.mapM fun entry =>
      mapErr (fun e => "decode grant entry: "++e.display) (decodeGrantEntry entry)
    return { acc with grants := acc.grants++more }
  else if kv.1.asText = key "ttl_ms" then .ok { acc with ttlMs := decodeTtlMs kv.2 }
  else .ok acc

def decodeCapabilityRequest (X : Platform) (params : Entity) : Except String CapabilityRequest := do
  let val ← mapErr ("decode capability-request: "++ ·) (X.fromReader params.data)
  let map ← okOr val.asMap "capability-request data must be a map"
  foldE scanRequestField ⟨[],none⟩ map

def scanRevocationField (acc : CapabilityRevocation) (kv : Value × Value) :
    Except String CapabilityRevocation :=
  if kv.1.asText = key "token" then
    match kv.2 with
    | .bytes b => do
      let token ← mapErr (fun e => "decode token hash: "++e.display) (Hash.fromBytes b)
      return { acc with token := token }
    | _ => .ok acc
  else if kv.1.asText = key "reason" then .ok { acc with reason := kv.2.asText }
  else .ok acc

def decodeCapabilityRevocation (X : Platform) (params : Entity) :
    Except String CapabilityRevocation := do
  let val ← mapErr ("decode capability-revocation: "++ ·) (X.fromReader params.data)
  let map ← okOr val.asMap "capability-revocation data must be a map"
  foldE scanRevocationField ⟨Hash.zero,none⟩ map

def buildRevocationEntity (X : Platform) (rv : CapabilityRevocation) (revokedAt : ℕ) :
    Except String Entity :=
  mapErr EntityError.display (Entity.new X typeCapRevocation (Ecf.toEcf (.map
    ([field "token" (hashVal rv.token)]++
      (rv.reason.toList.map fun r => field "reason" (textVal r))++
      [field "revoked_at" (uinteger revokedAt)]))))

namespace CapabilityHandler

def hexChar (n : UInt8) : Char :=
  if n ≤ 9 then Char.ofNat (48+n.toNat) else if n ≤ 15 then Char.ofNat (97+n.toNat-10) else '0'

def hexOf (h : Hash) : Str :=
  h.toBytes.flatMap fun b : UInt8 => [hexChar (b >>> 4),hexChar (b &&& 0x0f)]

theorem hexChar_digit : ∀ b : UInt8, hexChar (b >>> 4) = Hash.hexDigit (b.toNat/16) ∧
    hexChar (b &&& 0x0f) = Hash.hexDigit (b.toNat%16) := by
  have hall : ∀ n : Fin 256, hexChar (UInt8.ofFin n >>> 4) = Hash.hexDigit (n/16) ∧
      hexChar (UInt8.ofFin n &&& 0x0f) = Hash.hexDigit (n%16) := by decide +kernel
  intro b
  exact hall b.toFin

/-- The two hexadecimal writers of the repository agree. -/
theorem hexOf_eq_toHex (h : Hash) : hexOf h = h.toHex := by
  have hb := funext fun b : UInt8 => show [hexChar (b >>> 4),hexChar (b &&& 0x0f)] =
    [Hash.hexDigit (b.toNat/16),Hash.hexDigit (b.toNat%16)] by
      rw [(hexChar_digit b).1,(hexChar_digit b).2]
  unfold hexOf Hash.toHex Hash.hexStr
  rw [hb]

variable (X : Platform) (H : CapabilityHandler)

/-! Revoking. -/

def grantsPrefix : Str := '/'::H.localPeerId++ "/system/capability/grants/".toList

/-- The first path under the grants prefix bound to the capability. -/
def capabilityPathFor (s : PeerState) (capHash : Hash) : Option Str :=
  ((s.locationIndex.list H.grantsPrefix).find? fun e => e.2 = capHash).map Prod.fst

def revocationPath (token : Hash) : Str :=
  '/'::H.localPeerId++ "/system/capability/revocations/".toList++hexOf token

def unbindGrant (s : PeerState) (token : Hash) : PeerState :=
  match H.capabilityPathFor s token with
  | some path => s.remove path
  | none => s

/-- Any non-zero token: unbind its grant path if it has one, then write the marker. -/
def handleRevoke (ctx : HandlerContext) (nowMs : ℕ) (s : PeerState) : HandlerResult × PeerState :=
  match decodeCapabilityRevocation X ctx.params with
  | .error msg => (.error ⟨400,"invalid_params",msg⟩,s)
  | .ok rv =>
    if rv.token.isZero then
      (.error ⟨400,"invalid_params","revoke-request must specify a non-zero token hash"⟩,s)
    else
      let s := H.unbindGrant s rv.token
      match buildRevocationEntity X rv nowMs with
      | .error msg => (.error ⟨500,"internal_error",msg⟩,s)
      | .ok revEntity =>
        (.ok revEntity .empty,
          (s.put revEntity).set (H.revocationPath rv.token) revEntity.contentHash)

/-! The policy table. -/

inductive PolicyMatchForm where
  | hex
  | base58
  | fallback

structure PolicyEntry where
  grants : List GrantEntry
  ttlMs : Option ℕ

structure PolicyFields where
  grants : Option (List GrantEntry)
  ttlMs : Option ℕ

def scanPolicyField (acc : PolicyFields) (kv : Value × Value) : Option PolicyFields :=
  if kv.1.asText = key "grants" then do
    let arr ← kv.2.asArray
    return { acc with grants := some (← arr.mapM fun entry => (decodeGrantEntry entry).toOption) }
  else if kv.1.asText = key "ttl_ms" then some { acc with ttlMs := decodeTtlMs kv.2 }
  else some acc

def policyPath (segment : Str) : Str :=
  '/'::H.localPeerId++ "/system/capability/policy/".toList++segment

def readPolicyEntry (s : PeerState) (path : Str) : Option PolicyEntry := do
  let h ← s.locationIndex.get path
  let entity ← s.contentStore.get h
  if entity.entityType ≠ typeCapPolicyEntry then none
  else
    let val ← (X.fromReader entity.data).toOption
    let map ← val.asMap
    let acc ← map.foldlM scanPolicyField ⟨none,none⟩
    return ⟨← acc.grants,acc.ttlMs⟩

def lookupPeerCanonicalBase58 (s : PeerState) (identityHash : Hash) : Option Str := do
  let entity ← s.contentStore.get identityHash
  if entity.entityType ≠ typePeer then none
  else
    let data ← (PeerData.fromEntity X entity).toOption
    data.canonicalPeerId X

/-- Move a policy binding from its Base58 path to its hex path. -/
def canonicalizePolicyEntry (b58Path hexPath : Str) (s : PeerState) : PeerState :=
  match s.locationIndex.get b58Path with
  | none => s
  | some h => (s.set hexPath h).remove b58Path

/-- Hex form, then Base58 form, then the fallback; the first that reads wins. -/
def lookupPolicyEntry (author : Hash) (s : PeerState) :
    Option (PolicyEntry × PolicyMatchForm) × PeerState :=
  let byHex := H.policyPath (hexOf author)
  match readPolicyEntry X s byHex with
  | some entry => (some (entry,.hex),s)
  | none =>
    let byB58 := do
      let authorB58 ← lookupPeerCanonicalBase58 X s author
      let entry ← readPolicyEntry X s (H.policyPath authorB58)
      return (entry,H.policyPath authorB58)
    match byB58 with
    | some (entry,path) => (some (entry,.base58),canonicalizePolicyEntry path byHex s)
    | none =>
      ((readPolicyEntry X s (H.policyPath policyFallbackSegment)).map fun e => (e,.fallback),s)

/-! Minting. -/

/-- The least of the defined ceilings; one that overflows is no ceiling. -/
def clampMintExpiry (createdAt : ℕ) (callerExp policyTtlMs reqTtlMs : Option ℕ) : Option ℕ :=
  let fromTtl := fun ttl => if createdAt+ttl < 2^64 then some (createdAt+ttl) else none
  ([callerExp,policyTtlMs.bind fromTtl,reqTtlMs.bind fromTtl].filterMap id).min?

/-- A root token of the local peer. -/
def rootToken (grants : List GrantEntry) (grantee : Hash) (createdAt : ℕ)
    (expiresAt : Option ℕ) : CapabilityToken :=
  ⟨grants,.single H.identityHash,grantee,none,createdAt,expiresAt,none,none⟩

def invariantSignaturePath (signerPeerId : Str) (target : Hash) : Str :=
  '/'::signerPeerId++ "/system/signature/".toList++target.toHex

def signatureData (capHash : Hash) : Bytes :=
  Ecf.toEcf (.map [field "algorithm" (textVal H.keyTypeLabel),
    field "signature" (.bytes (H.sign capHash.toBytes)),
    field "signer" (hashVal H.identityHash),field "target" (hashVal capHash)])

/-- Store a root token with its signature and hand both out. A root has no parent
chain to bundle. -/
def mintAndReturn (grants : List GrantEntry) (grantee : Hash) (createdAt : ℕ)
    (expiresAt : Option ℕ) (s : PeerState) : HandlerResult × PeerState :=
  match (H.rootToken grants grantee createdAt expiresAt).toEntity X with
  | .error e => (.error ⟨500,"internal_error","failed to build token entity: "++e.display⟩,s)
  | .ok capEntity => match Entity.new X typeSignature (H.signatureData capEntity.contentHash) with
    | .error e => (.error ⟨500,"internal_error","failed to build signature entity: "++e.display⟩,s)
    | .ok sigEntity =>
      let s := ((s.put H.identityEntity).put capEntity).put sigEntity
      let s := s.set (invariantSignaturePath H.localPeerId capEntity.contentHash)
        sigEntity.contentHash
      match Entity.new X typeCapGrant
          (Ecf.toEcf (.map [field "token" (hashVal capEntity.contentHash)])) with
      | .error e => (.error ⟨500,"internal_error","failed to build grant entity: "++e.display⟩,s)
      | .ok grantEntity => (.ok grantEntity (((OrderedMap.empty.insert capEntity.contentHash
          capEntity).insert sigEntity.contentHash sigEntity).insert H.identityHash
          H.identityEntity),s)

/-- Everything `request` checks before it looks anything up. -/
def admitRequest (ctx : HandlerContext) :
    Except Failure (CapabilityToken × Hash × CapabilityRequest) := do
  let callerCap ← okOr ctx.callerCapability
    ⟨401,"unauthenticated","request requires an authenticated caller capability"⟩
  let author ← okOr ctx.author
    ⟨401,"unauthenticated","request requires an EXECUTE author identity"⟩
  let req ← mapErr (fun msg => Failure.mk 400 "invalid_params" msg)
    (decodeCapabilityRequest X ctx.params)
  ensure (req.grants ≠ [])
    ⟨400,"invalid_params","capability-request must specify at least one grant entry"⟩
  match unmatchableScopePattern req.grants with
  | some bad => .error ⟨400,"invalid_path",
      "scope pattern matches nothing and would silently widen the grant: "++
      (String.ofList bad).quote++ " (a peer-wildcard is `/*/…`, not `*/…`)"⟩
  | none => return (callerCap,author,req)

/-- A policy entry as the parent of an attenuation check. -/
def policyToken (entry : PolicyEntry) : CapabilityToken :=
  H.rootToken entry.grants H.identityHash 0 none

/-- The token to mint: what was asked for, if it attenuates the caller's capability and
the policy entry. Both checks read every resource pattern in the local frame. -/
def approveRequest (ctx : HandlerContext) (nowMs : ℕ) (s : PeerState) :
    Except Failure CapabilityToken × PeerState :=
  match admitRequest X ctx with
  | .error failure => (.error failure,s)
  | .ok (callerCap,author,req) =>
    let (policy,s) := H.lookupPolicyEntry X author s
    let expiresAt := clampMintExpiry nowMs callerCap.expiresAt (policy.bind (·.1.ttlMs)) req.ttlMs
    let child := H.rootToken req.grants author nowMs expiresAt
    if !isAttenuated X child callerCap H.localPeerId then
      (.error ⟨403,"scope_exceeds_authority",
        "requested scope is not an attenuation of the caller's authenticated capability"⟩,s)
    else if policy.any fun e => !isAttenuated X child (H.policyToken e.1) H.localPeerId then
      (.error ⟨403,"scope_exceeds_authority",
        "requested scope exceeds the matched policy entry's grants"⟩,s)
    else (.ok child,s)

def handleRequest (ctx : HandlerContext) (nowMs : ℕ) (s : PeerState) : HandlerResult × PeerState :=
  match H.approveRequest X ctx nowMs s with
  | (.error failure,s) => (.error failure,s)
  | (.ok child,s) => H.mintAndReturn X child.grants child.grantee child.createdAt child.expiresAt s

end CapabilityHandler
end EntityCore
