import EntityCore.AttestationHandler
import EntityCore.HexText
import EntityCore.RoleExclusion

/-! The handler of `system/role` where it mints. `assign` and `re-derive` turn the grants
of a role definition into root tokens of the local peer, bounded by the grants and the
expiry of the caller's capability. -/
namespace EntityCore

open Ecf Outcome Strings

/-! Hex segments and role paths, read back. -/

/-- The length that must be even is counted in bytes. -/
def hashFromPeerSegment (segment : Str) : Option Hash :=
  if (segment.map Char.utf8Size).sum%2 ≠ 0 then none
  else ((pairs segment).mapM hexU8).bind fun bytes => (Hash.fromBytes bytes).toOption

def joinSegments (segments : List Str) : Str := ['/'].intercalate segments

/-- The path below its peer, when what follows the first segment is a role's. -/
def stripPeerQualifier (path : Str) : Str :=
  let trimmed := path.dropWhile (· = '/')
  match splitOnce '/' trimmed with
  | some (_,rest) =>
    if startsWith rest rolePrefix || startsWith rest roleDerivedPrefix then rest else trimmed
  | none => trimmed

structure ParsedAssignmentPath where
  context : Str
  peerId : Str
  roleName : Option Str
  deriving DecidableEq

structure ParsedRoleDefPath where
  context : Str
  roleName : Str
  deriving DecidableEq

def parseAssignmentPath (path : Str) : Option ParsedAssignmentPath := do
  let rest ← stripPrefix (stripPeerQualifier path) rolePrefix
  let segs := segments '/' rest
  let idx ← segs.findIdx? (· = "assignment".toList)
  if idx = 0 then none
  else
    let peerId ← segs[idx+1]?
    if peerId = [] then none
    else
      let tail := joinSegments (segs.drop (idx+2))
      return ⟨joinSegments (segs.take idx),peerId,if tail = [] then none else some tail⟩

def reservedRoleNames : List Str := ["assignment".toList,"excluded".toList]

def parseRoleDefinitionPath (path : Str) : Option ParsedRoleDefPath := do
  let rest ← stripPrefix (stripPeerQualifier path) rolePrefix
  let segs := segments '/' rest
  if segs.length < 2 then none
  else
    let roleName ← segs.getLast?
    if roleName = [] then none
    else if roleName ∈ reservedRoleNames then none
    else
      let context := joinSegments segs.dropLast
      if context = [] then none else some ⟨context,roleName⟩

def pathRoleDefinition (context role : Str) : Str := rolePrefix++context++ '/'::role

def prefixRoleAssignment (context : Str) : Str := rolePrefix++context++ "/assignment/".toList

/-! Templates. -/

/-- Every occurrence of a text, from the left and without overlaps; `skip` counts what is
left of the last one. -/
def replaceText (pattern by_ : Str) : ℕ → Str → Str
  | _, [] => []
  | skip+1, _::rest => replaceText pattern by_ skip rest
  | 0, c::rest =>
    if startsWith (c::rest) pattern then by_++replaceText pattern by_ (pattern.length-1) rest
    else c::replaceText pattern by_ 0 rest

def resolveTemplateStr (input context peerId : Str) : Str :=
  replaceText "\x7bpeer_id\x7d".toList peerId 0
    (replaceText "\x7bcontext\x7d".toList context 0 input)

def resolvePathScope (scope : PathScope) (context peerId : Str) : PathScope :=
  ⟨scope.includes.map (resolveTemplateStr · context peerId),
    scope.excludes.map (resolveTemplateStr · context peerId)⟩

def resolveIdScope (scope : IdScope) (context peerId : Str) : IdScope :=
  ⟨scope.includes.map (resolveTemplateStr · context peerId),
    scope.excludes.map (resolveTemplateStr · context peerId)⟩

def resolveGrantTemplates (grant : GrantEntry) (context peerId : Str) : GrantEntry :=
  ⟨resolvePathScope grant.handlers context peerId,resolvePathScope grant.resources context peerId,
    resolveIdScope grant.operations context peerId,
    grant.peers.map (resolveIdScope · context peerId),grant.constraints,grant.allowances⟩

/-! Documents. -/

namespace Role

def typeAssignment : Str := "system/role/assignment".toList
def typeDerivedTokenLink : Str := "system/role/derived-token-link".toList

def decodeError (m : String) : String := "decode error: "++m
def encodeError (m : String) : String := "encode error: "++m

section Decode

variable (X : Platform)

def decodeMap (data : Bytes) : Except String (List (Value × Value)) := do
  let value ← mapErr decodeError (X.fromReader data)
  okOr value.asMap (decodeError "expected CBOR map")

def fieldText (map : List (Value × Value)) (key : String) : Except String Str :=
  okOr ((getField map key).bind Value.asText) (decodeError ("missing or non-text field "++key))

def decodeGrantArray (map : List (Value × Value)) (key : String) :
    Except String (List GrantEntry) := do
  let v ← okOr (getField map key) (decodeError ("missing "++key++ " field"))
  let arr ← okOr v.asArray (decodeError (key++ " must be array"))
  arr.mapM fun item => mapErr (fun e => decodeError e.display) (decodeGrantEntry item)

end Decode

end Role

structure RoleData where
  name : Str
  grants : List GrantEntry
  metadata : Option (List (Value × Value))

def RoleData.fromEntity (X : Platform) (entity : Entity) : Except String RoleData := do
  ensure (entity.entityType = typeRole)
    (Role.decodeError ("expected system/role, got "++String.ofList entity.entityType))
  let map ← Role.decodeMap X entity.data
  let name ← Role.fieldText map "name"
  let grants ← Role.decodeGrantArray map "grants"
  match presentField map "metadata" with
  | none => return ⟨name,grants,none⟩
  | some v =>
    let metadata ← okOr v.asMap (Role.decodeError "metadata must be CBOR map")
    return ⟨name,grants,some metadata⟩

def assignmentEntity (X : Platform) (role : Str) (assignedBy : Hash) (assignedAt : ℕ) :
    Except String Entity :=
  mapErr (fun e => Role.encodeError e.display) (Entity.new X Role.typeAssignment (toEcf (.map
    [field "assigned_at" (integerI64 assignedAt),field "assigned_by" (hashVal assignedBy),
      field "role" (textVal role)])))

def derivedTokenLinkEntity (X : Platform) (token : Hash) (issuedAt : ℕ) : Except String Entity :=
  mapErr (fun e => Role.encodeError e.display) (Entity.new X Role.typeDerivedTokenLink (toEcf (.map
    [field "issued_at" (integerI64 issuedAt),field "token_hash" (hashVal token)])))

/-! Expiry. -/

/-- The first `ttl` that is a non-negative integer. -/
def roleMetadataTtl (metadata : Option (List (Value × Value))) : Option ℕ :=
  (metadata.getD []).findSome? fun kv =>
    if kv.1.asText = some "ttl".toList then
      kv.2.asInteger.bind fun i => if 0 ≤ i.val then some i.val.toNat else none
    else none

def minDefined (values : List (Option ℕ)) : Option ℕ := (values.filterMap id).min?

/-- The end of the handler's grant, of the role's time to live and of the caller's capability. -/
def expiryCeilings (parentExpires roleTtlMs callerExpires : Option ℕ) (nowMs : ℕ) :
    List (Option ℕ) :=
  [parentExpires,roleTtlMs.map fun ttl => min (nowMs+ttl) (2^64-1),callerExpires]

def effectiveExpiresAt (parentExpires roleTtlMs callerExpires : Option ℕ) (nowMs : ℕ) : Option ℕ :=
  minDefined (expiryCeilings parentExpires roleTtlMs callerExpires nowMs)

/-- The token that stands for the one to be issued in the check against the caller's
capability. -/
def buildHypotheticalToken (grants : List GrantEntry) (callerCap : CapabilityToken)
    (expiresAt : Option ℕ) : CapabilityToken :=
  ⟨grants,callerCap.granter,callerCap.grantee,none,callerCap.createdAt,expiresAt,none,none⟩

/-! Requests. -/

structure RoleContext where
  operation : String
  callerCapability : Option CapabilityToken
  handlerGrant : Option CapabilityToken
  author : Option Hash
  resourceTarget : Option ResourceTarget
  params : Entity

structure RoleHandler where
  localPeerId : Str
  identityHash : Hash
  keyTypeLabel : Str
  sign : Bytes → Bytes

/-- What has been decided for one assignee. -/
structure RoleIssue where
  context : Str
  assignee : Str
  role : Str
  grantee : Hash
  grants : List GrantEntry
  expiresAt : Option ℕ

structure ReDeriveSummary where
  reDerivedCount : ℕ
  skippedExcluded : ℕ
  revokedTokenHashes : List Hash
  newTokenHashes : List Hash
  skippedGrantees : List Hash

/-- How a handler answers. -/
inductive RoleReply where
  | error (failure : Failure)
  | assigned (path : Str) (token : Hash)
  | reDerived (summary : ReDeriveSummary)

def forbidden (code message : String) : Failure := ⟨403,code,message⟩

namespace RoleHandler

variable (X : Platform) (R : RoleHandler)

def qualify (bare : Str) : Str := '/'::R.localPeerId++ '/'::bare

def qualifiedPattern : Str := '/'::R.localPeerId++ "/system/role".toList

/-- Where the grant of the handler itself is bound. -/
def handlerGrantPath : Str := replaceText "/system/role".toList
  "/system/capability/grants/system/role".toList 0 R.qualifiedPattern

def isExcluded (s : PeerState) (context peerId : Str) : Bool :=
  (s.locationIndex.get (R.qualify (pathRoleExclusion context peerId))).isSome

/-- A root token of the local peer; nothing bounds when it starts or how it is delegated. -/
def derivedToken (issue : RoleIssue) (issuedAt : ℕ) : CapabilityToken :=
  ⟨issue.grants,.single R.identityHash,issue.grantee,none,issuedAt,issue.expiresAt,none,none⟩

def signatureData (capHash : Hash) : Bytes :=
  toEcf (.map [field "algorithm" (textVal R.keyTypeLabel),
    field "signature" (.bytes (R.sign capHash.toBytes)),
    field "signer" (hashVal R.identityHash),field "target" (hashVal capHash)])

def tokenPath (issue : RoleIssue) (token : Hash) : Str :=
  R.qualify (pathRoleDerivedToken issue.context issue.assignee token.toHex)

def signaturePath (token : Hash) : Str :=
  CapabilityHandler.invariantSignaturePath R.localPeerId token

def linkPath (issue : RoleIssue) : Str :=
  R.qualify (pathRoleDerivedLink issue.context issue.assignee issue.role)

/-- Store and bind a token, its signature and its linkage. -/
def deriveAndPersistToken (issue : RoleIssue) (issuedAt : ℕ) (s : PeerState) :
    Except String Hash × PeerState :=
  match (R.derivedToken issue issuedAt).toEntity X with
  | .error e => (.error e.display,s)
  | .ok capEntity =>
    let s := s.put capEntity
    match Entity.new X typeSignature (R.signatureData capEntity.contentHash) with
    | .error e => (.error e.display,s)
    | .ok sigEntity =>
      let s := (s.put sigEntity).set (R.tokenPath issue capEntity.contentHash) capEntity.contentHash
      let s := s.set (R.signaturePath capEntity.contentHash) sigEntity.contentHash
      match derivedTokenLinkEntity X capEntity.contentHash issuedAt with
      | .error e => (.error e,s)
      | .ok linkEntity =>
        (.ok capEntity.contentHash,
          (s.put linkEntity).set (R.linkPath issue) linkEntity.contentHash)

def rollbackRoleDerivedCap (issue : RoleIssue) (token : Hash) (s : PeerState) : PeerState :=
  ((s.remove (R.tokenPath issue token)).remove (R.signaturePath token)).remove (R.linkPath issue)

/-! Assigning. -/

def readRole (s : PeerState) (context role : Str) : Except Failure RoleData := do
  let path := R.qualify (pathRoleDefinition context role)
  let hash ← okOr (s.locationIndex.get path)
    ⟨404,"role_not_found","no role definition at "++String.ofList path⟩
  let entity ← okOr (s.contentStore.get hash)
    ⟨404,"role_not_found","role definition path bound but entity missing in content store"⟩
  mapErr (badRequest "role_decode_failed") (RoleData.fromEntity X entity)

/-- Everything `assign` checks before it writes. -/
def approveAssign (ctx : RoleContext) (nowMs : ℕ) (s : PeerState) : Except Failure RoleIssue := do
  let path ← requireSingleResourcePath ctx.resourceTarget R.localPeerId
    (ctx.operation++ " (the assignment path)")
  let malformed := badRequest "malformed_resource"
    "expected system/role/\x7bcontext\x7d/assignment/\x7bassignee\x7d/\x7brole_name\x7d"
  let parsed ← okOr (parseAssignmentPath path) malformed
  let pathRole ← okOr parsed.roleName malformed
  let map ← mapErr (badRequest "invalid_params") (Role.decodeMap X ctx.params.data)
  let role ← mapErr (fun _ => badRequest "invalid_assign_request" "role is required")
    (Role.fieldText map "role")
  ensure (role = pathRole) (badRequest "role_path_mismatch"
    "params.role must equal the role segment of the resource path")
  let roleDef ← R.readRole X s parsed.context role
  let grants := roleDef.grants.map (resolveGrantTemplates · parsed.context parsed.peerId)
  ensure (!R.isExcluded s parsed.context parsed.peerId) (forbidden "assignee_excluded"
    "Cannot assign role to a peer in the context's exclusion subtree")
  let callerCap ← okOr ctx.callerCapability (forbidden "missing_caller_capability"
    "RL2: caller_capability required to attenuate role-derived grants")
  let expiresAt := effectiveExpiresAt (ctx.handlerGrant.bind CapabilityToken.expiresAt)
    (roleMetadataTtl roleDef.metadata) callerCap.expiresAt nowMs
  ensure (isAttenuated X (buildHypotheticalToken grants callerCap expiresAt) callerCap
    R.localPeerId) (forbidden "assigner_authority_insufficient"
      ("RL2: caller capability does not cover role-derived grants for "++String.ofList role))
  let grantee ← okOr (hashFromPeerSegment parsed.peerId) (badRequest "malformed_resource"
    "assignee path segment must be lowercase hex of identity-entity hash (SI-1)")
  ensure (!grantee.isZero) (badRequest "invalid_assign_request"
    "assignee peer_id_hex MUST NOT be a zero hash (SEC-18)")
  return ⟨parsed.context,parsed.peerId,role,grantee,grants,expiresAt⟩

/-- The clock is read once for the checks and once more for the token. -/
def handleAssign (ctx : RoleContext) (nowMs issuedAt : ℕ) (s : PeerState) :
    RoleReply × PeerState :=
  match R.approveAssign X ctx nowMs s with
  | .error failure => (.error failure,s)
  | .ok issue => match assignmentEntity X issue.role (ctx.author.getD Hash.zero) nowMs with
    | .error e => (.error (badRequest "encode_failed" e),s)
    | .ok assignment =>
      let path := R.qualify (pathRoleAssignment issue.context issue.assignee issue.role)
      let s := (s.put assignment).set path assignment.contentHash
      match R.deriveAndPersistToken X issue issuedAt s with
      | (.error e,s) => (.error (badRequest "token_derivation_failed" e),s)
      | (.ok token,s) =>
        if R.isExcluded s issue.context issue.assignee then
          (.error (forbidden "assignee_excluded"
            "exclusion landed during :assign — rolled back per §6.6 atomicity"),
            (R.rollbackRoleDerivedCap issue token s).remove path)
        else (.assigned path token,s)

/-! Re-deriving. -/

/-- What happens to one listed assignment. -/
inductive ReDeriveDecision where
  | pass
  | excluded
  | uncovered (grantee : Hash)
  | issue (issue : RoleIssue)

/-- Each assignee is checked against the caller's capability; one that fails is passed over. -/
def decideReDerive (callerCap : Option CapabilityToken) (context role : Str) (roleDef : RoleData)
    (parentExpires : Option ℕ) (nowMs : ℕ) (path : Str) (s : PeerState) : ReDeriveDecision :=
  match parseAssignmentPath path with
  | none => .pass
  | some parsed =>
    if parsed.roleName ≠ some role then .pass
    else if R.isExcluded s context parsed.peerId then .excluded
    else match hashFromPeerSegment parsed.peerId with
      | none => .pass
      | some grantee =>
        if grantee.isZero then .pass
        else
          let grants := roleDef.grants.map (resolveGrantTemplates · context parsed.peerId)
          let expiresAt := effectiveExpiresAt parentExpires (roleMetadataTtl roleDef.metadata)
            (callerCap.bind CapabilityToken.expiresAt) nowMs
          if callerCap.all fun cap => isAttenuated X
              (buildHypotheticalToken grants cap expiresAt) cap R.localPeerId then
            .issue ⟨context,parsed.peerId,role,grantee,grants,expiresAt⟩
          else .uncovered grantee

/-- Unbind every listed path but the new token's, and the signature of each capability. -/
def sweepPrior (newPath : Str) (summary : ReDeriveSummary) (s : PeerState) :
    List (Str × Hash) → ReDeriveSummary × PeerState
  | [] => (summary,s)
  | (path,hash)::rest =>
    if path = newPath then sweepPrior newPath summary s rest
    else
      let isCap := (s.contentStore.get hash).any fun e => e.entityType = typeCapToken
      match (s.locationIndex.remove path).1 with
      | some h =>
        if isCap then sweepPrior newPath
          { summary with revokedTokenHashes := summary.revokedTokenHashes++[h] }
          ((s.remove path).remove (R.signaturePath h)) rest
        else sweepPrior newPath summary (s.remove path) rest
      | none => sweepPrior newPath summary (s.remove path) rest

/-- Issue the new token first, then sweep what was there. -/
def reIssue (issue : RoleIssue) (issuedAt : ℕ) (summary : ReDeriveSummary) (s : PeerState) :
    ReDeriveSummary × PeerState :=
  match R.deriveAndPersistToken X issue issuedAt s with
  | (.error _,s) => (summary,s)
  | (.ok token,s) =>
    if R.isExcluded s issue.context issue.assignee then
      ({ summary with skippedGrantees := summary.skippedGrantees++[issue.grantee] },
        R.rollbackRoleDerivedCap issue token s)
    else
      let summary := { summary with newTokenHashes := summary.newTokenHashes++[token] }
      let swept := R.sweepPrior (R.tokenPath issue token) summary s
        (s.locationIndex.list (R.qualify (prefixRoleDerivedPeer issue.context issue.assignee)))
      ({ swept.1 with reDerivedCount := swept.1.reDerivedCount+1 },swept.2)

/-- The assignments in turn; `clock` is the reading taken for the token of the n-th. -/
def reDeriveFrom (callerCap : Option CapabilityToken) (context role : Str) (roleDef : RoleData)
    (parentExpires : Option ℕ) (nowMs : ℕ) (clock : ℕ → ℕ) :
    ℕ → List (Str × Hash) → ReDeriveSummary × PeerState → ReDeriveSummary × PeerState
  | _, [], acc => acc
  | n, (path,_)::rest, (summary,s) =>
    reDeriveFrom callerCap context role roleDef parentExpires nowMs clock (n+1) rest
      (match R.decideReDerive X callerCap context role roleDef parentExpires nowMs path s with
      | .pass => (summary,s)
      | .excluded => ({ summary with skippedExcluded := summary.skippedExcluded+1 },s)
      | .uncovered grantee =>
        ({ summary with skippedGrantees := summary.skippedGrantees++[grantee] },s)
      | .issue issue => R.reIssue X issue (clock n) summary s)

/-- The end of the handler's own grant, as the tree has it. -/
def handlerGrantExpiry (s : PeerState) : Option ℕ := do
  let hash ← s.locationIndex.get R.handlerGrantPath
  let entity ← s.contentStore.get hash
  let token ← (CapabilityToken.fromEntity X entity).toOption
  token.expiresAt

def reDeriveRoleAssignees (context role : Str) (callerCap : Option CapabilityToken) (nowMs : ℕ)
    (clock : ℕ → ℕ) (s : PeerState) : ReDeriveSummary × PeerState :=
  match R.readRole X s context role with
  | .error _ => (⟨0,0,[],[],[]⟩,s)
  | .ok roleDef => R.reDeriveFrom X callerCap context role roleDef (R.handlerGrantExpiry X s) nowMs
      clock 0 (s.locationIndex.list (R.qualify (prefixRoleAssignment context))) (⟨0,0,[],[],[]⟩,s)

/-- Everything `re-derive` checks before it walks the assignments. -/
def approveReDerive (ctx : RoleContext) (s : PeerState) : Except Failure ParsedRoleDefPath := do
  let path ← requireSingleResourcePath ctx.resourceTarget R.localPeerId
    (ctx.operation++ " (the role-definition path)")
  let parsed ← okOr (parseRoleDefinitionPath path) (badRequest "malformed_resource"
    "expected system/role/\x7bcontext\x7d/\x7brole_name\x7d")
  let asked := do
    let map ← (Role.decodeMap X ctx.params.data).toOption
    (Role.fieldText map "role").toOption
  ensure (asked.all fun role => role = parsed.roleName) (badRequest "role_path_mismatch"
    "params.role must match the resource path's role segment")
  ensure (s.locationIndex.get (R.qualify (pathRoleDefinition parsed.context parsed.roleName))).isSome
    ⟨404,"role_not_found","no role definition at the given resource path"⟩
  ensure ctx.callerCapability.isSome (forbidden "missing_caller_capability"
    "RL2: caller_capability required for re-derive")
  return parsed

def handleReDerive (ctx : RoleContext) (nowMs : ℕ) (clock : ℕ → ℕ) (s : PeerState) :
    RoleReply × PeerState :=
  match R.approveReDerive X ctx s with
  | .error failure => (.error failure,s)
  | .ok parsed =>
    let (summary,s) := R.reDeriveRoleAssignees X parsed.context parsed.roleName
      ctx.callerCapability nowMs clock s
    (.reDerived summary,s)

end RoleHandler
end EntityCore
