import EntityCore.RolePaths

/-! The other operations of `system/role`: what takes a role away, what excludes a peer and
lets it back in, what defines a role, and what passes a role's token on. -/
namespace EntityCore

open Ecf Outcome Strings

/-! Paths and segments. -/

def peerSegmentFromHash (h : Hash) : Str := Hash.hexStr h.toBytes

def prefixRoleAssignmentPeer (context peerHex : Str) : Str :=
  rolePrefix++context++ "/assignment/".toList++peerHex++['/']

def prefixRoleDerivedLinksPeer (context peerHex : Str) : Str :=
  rolePrefix++context++ "/derived-tokens/".toList++peerHex++['/']

/-! Documents. -/

namespace Role

def typeExclusion : Str := "system/role/exclusion".toList

def fieldHash (map : List (Value × Value)) (key : String) : Except String Hash := do
  let v ← okOr (getField map key) (decodeError ("missing "++key++ " field"))
  let bytes ← okOr v.asBytes (decodeError (key++ " must be byte string"))
  mapErr (fun e => decodeError e.display) (Hash.fromBytes bytes)

def nonNegative (key : String) (v : Value) : Except String ℕ := do
  let i ← okOr v.asInteger (decodeError (key++ " must be integer"))
  if i.val < 0 then .error (decodeError (key++ " must be non-negative")) else return i.val.toNat

def fieldU64 (map : List (Value × Value)) (key : String) : Except String ℕ := do
  let v ← okOr (getField map key) (decodeError ("missing "++key++ " field"))
  nonNegative key v

def fieldU64Opt (map : List (Value × Value)) (key : String) : Except String (Option ℕ) :=
  match presentField map key with
  | none => .ok none
  | some v => do
    let n ← nonNegative key v
    return some n

def decodeGrantArrayValue (value : Value) : Except String (List GrantEntry) := do
  let arr ← okOr value.asArray (decodeError "grants must be array")
  arr.mapM fun item => mapErr (fun e => decodeError e.display) (decodeGrantEntry item)

end Role

def RoleData.toEntity (X : Platform) (role : RoleData) : Except String Entity :=
  mapErr (fun e => Role.encodeError e.display) (Entity.new X typeRole (toEcf (.map
    ([field "grants" (.array (role.grants.map encodeGrantEntry))]++
      (role.metadata.toList.map fun m => field "metadata" (.map m))++
      [field "name" (textVal role.name)]))))

def exclusionEntity (X : Platform) (excludedBy : Hash) (excludedAt : ℕ) (reason : Option Str) :
    Except String Entity :=
  mapErr (fun e => Role.encodeError e.display) (Entity.new X Role.typeExclusion (toEcf (.map
    ([field "excluded_at" (integerI64 excludedAt),field "excluded_by" (hashVal excludedBy)]++
      reason.toList.map fun r => field "reason" (textVal r)))))

structure RoleDerivedTokenLink where
  tokenHash : Hash
  issuedAt : ℕ
  deriving DecidableEq

def RoleDerivedTokenLink.fromEntity (X : Platform) (entity : Entity) :
    Except String RoleDerivedTokenLink := do
  ensure (entity.entityType = Role.typeDerivedTokenLink) (Role.decodeError
    ("expected system/role/derived-token-link, got "++String.ofList entity.entityType))
  let map ← Role.decodeMap X entity.data
  let tokenHash ← Role.fieldHash map "token_hash"
  let issuedAt ← Role.fieldU64 map "issued_at"
  return ⟨tokenHash,issuedAt⟩

/-- A template variable in any text of a scope. -/
def containsTemplate (s : Str) : Bool :=
  containsText s "\x7bcontext\x7d".toList || containsText s "\x7bpeer_id\x7d".toList

def scopeContainsTemplate (scope : List GrantEntry) : Bool :=
  scope.any fun g => (g.handlers.includes++g.handlers.excludes++g.resources.includes++
    g.resources.excludes++g.operations.includes++g.operations.excludes++
    (g.peers.toList.flatMap fun p => p.includes++p.excludes)).any containsTemplate

namespace RoleHandler

variable (X : Platform) (R : RoleHandler)

def linkPathOf (context peerId role : Str) : Str := R.qualify (pathRoleDerivedLink context peerId role)

def tokenPathOf (context peerId : Str) (token : Hash) : Str :=
  R.qualify (pathRoleDerivedToken context peerId token.toHex)

/-! Unassigning. -/

/-- Unbind the token that the linkage names, its signature and the linkage. A linkage that
cannot be read is only unbound itself. -/
def revokeViaLinkage (context peerId role : Str) (s : PeerState) : Option Hash × PeerState :=
  let linkPath := R.linkPathOf context peerId role
  match s.locationIndex.get linkPath with
  | none => (none,s)
  | some linkHash => match s.contentStore.get linkHash with
    | none => (none,s.remove linkPath)
    | some entity => match RoleDerivedTokenLink.fromEntity X entity with
      | .error _ => (none,s.remove linkPath)
      | .ok link =>
        let tokenPath := R.tokenPathOf context peerId link.tokenHash
        (s.locationIndex.get tokenPath,
          ((s.remove tokenPath).remove (R.signaturePath link.tokenHash)).remove linkPath)

def revokeListed (context peerId : Str) : List (Str × Hash) → List Hash × PeerState →
    List Hash × PeerState
  | [], acc => acc
  | (path,_)::rest, (revoked,s) =>
    -- the role is taken for the last segment, also where it has several
    let role := ((segments '/' path).getLast?).getD []
    let (h,s) := R.revokeViaLinkage X context peerId role s
    revokeListed context peerId rest (revoked++h.toList,s)

def removeListed (entries : List (Str × Hash)) (s : PeerState) : PeerState :=
  entries.foldl (fun s entry => s.remove entry.1) s

/-- Everything `unassign` checks before it writes. -/
def approveUnassign (ctx : RoleContext) : Except Failure (Str × ParsedAssignmentPath) := do
  let path ← requireSingleResourcePath ctx.resourceTarget R.localPeerId
    (ctx.operation++ " (the assignment path)")
  let parsed ← okOr (parseAssignmentPath path) (badRequest "malformed_resource"
    "expected system/role/\x7bcontext\x7d/assignment/\x7bpeer_id\x7d[/\x7brole_name\x7d]")
  return (path,parsed)

def unassignRole (context peerId role : Str) (s : PeerState) : List Hash × PeerState :=
  let s := s.remove (R.qualify (pathRoleAssignment context peerId role))
  let (h,s) := R.revokeViaLinkage X context peerId role s
  (h.toList,s)

/-- Without a role, every linkage of the peer and then every assignment. -/
def unassignAll (context peerId : Str) (s : PeerState) : List Hash × PeerState :=
  let (revoked,s) := R.revokeListed X context peerId
    (s.locationIndex.list (R.qualify (prefixRoleDerivedLinksPeer context peerId))) ([],s)
  (revoked,removeListed
    (s.locationIndex.list (R.qualify (prefixRoleAssignmentPeer context peerId))) s)

def handleUnassign (ctx : RoleContext) (s : PeerState) :
    Except Failure (Str × List Hash) × PeerState :=
  match R.approveUnassign ctx with
  | .error failure => (.error failure,s)
  | .ok (path,⟨context,peerId,some role⟩) =>
    let (revoked,s) := R.unassignRole X context peerId role s
    (.ok (path,revoked),s)
  | .ok (path,⟨context,peerId,none⟩) =>
    let (revoked,s) := R.unassignAll X context peerId s
    (.ok (path,revoked),s)

/-! Excluding. -/

/-- Unbind every listed path, and the signature of each capability. -/
def sweepListed : List (Str × Hash) → List Hash × PeerState → List Hash × PeerState
  | [], acc => acc
  | (path,hash)::rest, (revoked,s) =>
    let isCap := (s.contentStore.get hash).any fun e => e.entityType = typeCapToken
    match (s.locationIndex.remove path).1 with
    | some h =>
      if isCap then sweepListed rest (revoked++[h],(s.remove path).remove (R.signaturePath h))
      else sweepListed rest (revoked,s.remove path)
    | none => sweepListed rest (revoked,s.remove path)

def sweepRoleDerived (context peerId : Str) (s : PeerState) : List Hash × PeerState :=
  R.sweepListed (s.locationIndex.list (R.qualify (prefixRoleDerivedPeer context peerId))) ([],s)

def approveExclusionPath (ctx : RoleContext) : Except Failure (Str × ParsedExclusionPath) := do
  let path ← requireSingleResourcePath ctx.resourceTarget R.localPeerId
    (ctx.operation++ " (the exclusion path)")
  let parsed ← okOr (parseExclusionPath path) (badRequest "malformed_resource"
    "expected system/role/\x7bcontext\x7d/excluded/\x7bpeer_id\x7d")
  return (path,parsed)

/-- An absolute path is left as it is, under whichever peer it stands. -/
def exclusionTarget (path : Str) : Str :=
  if startsWith path (R.qualify []) || startsWith path ['/'] then path else R.qualify path

def handleExclude (ctx : RoleContext) (nowMs : ℕ) (s : PeerState) :
    Except Failure (Str × List Hash) × PeerState :=
  match R.approveExclusionPath ctx with
  | .error failure => (.error failure,s)
  | .ok (path,parsed) =>
    let reason := do
      let map ← (Role.decodeMap X ctx.params.data).toOption
      (getField map "reason").bind Value.asText
    match exclusionEntity X (ctx.author.getD Hash.zero) nowMs reason with
    | .error e => (.error (badRequest "encode_failed" e),s)
    | .ok entity =>
      let target := R.exclusionTarget path
      let s := (s.put entity).set target entity.contentHash
      let (revoked,s) := R.sweepRoleDerived parsed.context parsed.peerId s
      (.ok (target,revoked),s)

/-- The tokens do not come back. -/
def handleUnexclude (ctx : RoleContext) (s : PeerState) : Except Failure Str × PeerState :=
  match R.approveExclusionPath ctx with
  | .error failure => (.error failure,s)
  | .ok (path,_) => (.ok path,s.remove path)

/-! Defining. -/

/-- Everything `define` checks before it writes. -/
def approveDefine (ctx : RoleContext) : Except Failure (ParsedRoleDefPath × RoleData) := do
  let path ← requireSingleResourcePath ctx.resourceTarget R.localPeerId
    (ctx.operation++ " (the role-definition path)")
  let parsed ← okOr (parseRoleDefinitionPath path) (badRequest "malformed_resource"
    "expected system/role/\x7bcontext\x7d/\x7brole_name\x7d (reserved names rejected per R10)")
  let map ← mapErr (badRequest "invalid_params") (Role.decodeMap X ctx.params.data)
  let grantsValue ← okOr (getField map "grants") (badRequest "invalid_params"
    "grants array is required")
  let grants ← mapErr (badRequest "invalid_params") (Role.decodeGrantArrayValue grantsValue)
  let metadata ← match presentField map "metadata" with
    | none => .ok none
    | some (.map m) => .ok (some m)
    | some _ => .error (badRequest "invalid_params" "metadata must be a CBOR map")
  let resolved := grants.map
    (resolveGrantTemplates · parsed.context "\x7bpeer_id\x7d".toList)
  let callerCap ← okOr ctx.callerCapability (forbidden "missing_caller_capability"
    "RL2: caller_capability required for define")
  ensure (isAttenuated X (buildHypotheticalToken resolved callerCap callerCap.expiresAt) callerCap
    R.localPeerId) (forbidden "assigner_authority_insufficient"
      ("RL2: caller capability does not cover the proposed grant set for "++
        String.ofList parsed.roleName))
  return (parsed,⟨parsed.roleName,grants,metadata⟩)

/-- Write the definition, then re-derive for its assignees. -/
def handleDefine (ctx : RoleContext) (nowMs : ℕ) (clock : ℕ → ℕ) (s : PeerState) :
    Except Failure (Str × ReDeriveSummary) × PeerState :=
  match R.approveDefine X ctx with
  | .error failure => (.error failure,s)
  | .ok (parsed,role) => match role.toEntity X with
    | .error e => (.error (badRequest "encode_failed" e),s)
    | .ok entity =>
      let path := R.qualify (pathRoleDefinition parsed.context parsed.roleName)
      let (summary,s) := R.reDeriveRoleAssignees X parsed.context parsed.roleName
        ctx.callerCapability nowMs clock ((s.put entity).set path entity.contentHash)
      (.ok (path,summary),s)

/-! Delegating. -/

/-- What has been decided about a delegation. -/
structure RoleDelegation where
  context : Str
  delegate : Hash
  parentHash : Hash
  parent : CapabilityToken
  scope : List GrantEntry
  expiresAt : Option ℕ

/-- Everything `delegate` checks before it writes. The parent is whatever token the linkage
of the delegator names. -/
def approveDelegate (ctx : RoleContext) (nowMs : ℕ) (s : PeerState) :
    Except Failure RoleDelegation := do
  let map ← mapErr (badRequest "invalid_params") (Role.decodeMap X ctx.params.data)
  let delegator ← okOr ctx.author (badRequest "delegator_must_be_local_peer"
    "missing envelope author (SI-19: delegate is local-only)")
  ensure (delegator = R.identityHash) (badRequest "delegator_must_be_local_peer"
    "SI-19: :delegate MUST be invoked on the delegator's own runtime peer")
  let delegate ← mapErr (badRequest "invalid_params") (Role.fieldHash map "delegate")
  ensure (!delegate.isZero) (badRequest "invalid_delegate_request"
    "delegate hash MUST NOT be a zero hash (SEC-18)")
  let context ← mapErr (badRequest "invalid_params") (Role.fieldText map "context")
  let role ← mapErr (badRequest "invalid_params") (Role.fieldText map "role")
  let scopeValue ← okOr (getField map "scope") (badRequest "invalid_params" "scope is required")
  let scope ← mapErr (badRequest "invalid_params") (Role.decodeGrantArrayValue scopeValue)
  let asked ← mapErr (badRequest "invalid_params") (Role.fieldU64Opt map "expires_at")
  ensure (!scopeContainsTemplate scope) (badRequest "scope_must_be_literal"
    "SI-20: delegation scope must be literal — no template variables")
  ensure (!R.isExcluded s context (peerSegmentFromHash delegate)) (forbidden "delegate_excluded"
    "Cannot delegate role-authority to a peer in the context's exclusion subtree")
  let delegatorSegment := peerSegmentFromHash delegator
  ensure (s.locationIndex.get
    (R.qualify (pathRoleAssignment context delegatorSegment role))).isSome
    (forbidden "delegator_does_not_hold_role"
      "delegator must hold the named role in this context (§5.6 step 2)")
  let linkHash ← okOr (s.locationIndex.get (R.linkPathOf context delegatorSegment role))
    (forbidden "no_parent_cap" "no derived-token linkage entity for delegator's role assignment")
  let linkEntity ← okOr (s.contentStore.get linkHash) (forbidden "no_parent_cap"
    "linkage entity bound but missing in content store")
  let link ← mapErr (badRequest "linkage_decode_failed") (RoleDerivedTokenLink.fromEntity X linkEntity)
  let parentEntity ← okOr (s.contentStore.get link.tokenHash) (forbidden "no_parent_cap"
    "linkage references token hash that is missing from content store")
  let parent ← mapErr (fun e => badRequest "parent_decode_failed" e.display)
    (CapabilityToken.fromEntity X parentEntity)
  let expiresAt := effectiveExpiresAt parent.expiresAt none asked nowMs
  ensure (isAttenuated X (buildHypotheticalToken scope parent expiresAt) parent R.localPeerId)
    (forbidden "scope_exceeds_delegator_authority"
      "delegated scope is not an attenuation of the delegator's role-derived cap")
  return ⟨context,delegate,link.tokenHash,parent,scope,expiresAt⟩

def delegationToken (d : RoleDelegation) (nowMs : ℕ) : CapabilityToken :=
  ⟨d.scope,.single R.identityHash,d.delegate,some d.parentHash,nowMs,d.expiresAt,none,none⟩

def handleDelegate (ctx : RoleContext) (nowMs : ℕ) (s : PeerState) :
    Except Failure Hash × PeerState :=
  match R.approveDelegate X ctx nowMs s with
  | .error failure => (.error failure,s)
  | .ok d => match (R.delegationToken d nowMs).toEntity X with
    | .error e => (.error (badRequest "encode_failed" e.display),s)
    | .ok capEntity =>
      let s := s.put capEntity
      match Entity.new X typeSignature (R.signatureData capEntity.contentHash) with
      | .error e => (.error (badRequest "sig_encode_failed" e.display),s)
      | .ok sigEntity =>
        let segment := peerSegmentFromHash d.delegate
        let tokenPath := R.tokenPathOf d.context segment capEntity.contentHash
        let s := ((s.put sigEntity).set tokenPath capEntity.contentHash).set
          (R.signaturePath capEntity.contentHash) sigEntity.contentHash
        if R.isExcluded s d.context segment then
          (.error (forbidden "delegate_excluded"
            "exclusion landed during :delegate — rolled back per §6.6 atomicity"),
            (s.remove tokenPath).remove (R.signaturePath capEntity.contentHash))
        else (.ok capEntity.contentHash,s)

end RoleHandler
end EntityCore
