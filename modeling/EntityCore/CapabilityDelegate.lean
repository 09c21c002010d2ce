import EntityCore.CapabilityHandler

/-! `delegate` of `system/capability`: the local peer mints a child of a token it holds, and
hands out what is stored of the chain above it. -/
namespace EntityCore

open Ecf Outcome

/-! Request parameters. -/

structure DelegateRequest where
  parent : Hash
  grants : List GrantEntry
  ttlMs : Option ℕ

structure DelegateScan extends CapabilityRequest where
  parent : Option Hash

def scanDelegateField (acc : DelegateScan) (kv : Value × Value) : Except String DelegateScan :=
  if kv.1.asText = key "parent" then
    match kv.2 with
    | .bytes b => do
      let parent ← mapErr (fun e => "decode parent hash: "++e.display) (Hash.fromBytes b)
      return { acc with parent := some parent }
    | _ => .ok acc
  else do
    let request ← scanRequestField acc.toCapabilityRequest kv
    return ⟨request,acc.parent⟩

def decodeDelegateRequest (X : Platform) (params : Entity) : Except String DelegateRequest := do
  let val ← mapErr ("decode delegate-request: "++ ·) (X.fromReader params.data)
  let map ← okOr val.asMap "delegate-request data must be a map"
  let acc ← foldE scanDelegateField ⟨⟨[],none⟩,none⟩ map
  let parent ← okOr acc.parent "delegate-request missing `parent`"
  return ⟨parent,acc.grants,acc.ttlMs⟩

def granterSigners : Granter → List Hash
  | .single h => [h]
  | .multi m => m.signers

namespace CapabilityHandler

variable (X : Platform) (H : CapabilityHandler)

/-! The chain that is handed out. -/

/-- One granter of a token: its identity, and its signature where that is bound. Whatever
does not resolve is left out. -/
def bundleSigner (s : PeerState) (current : Hash) (bundle : OrderedMap Hash Entity)
    (signer : Hash) : OrderedMap Hash Entity :=
  match s.contentStore.get signer with
  | none => bundle
  | some idEntity =>
    if idEntity.entityType ≠ typePeer then bundle
    else match (PeerData.fromEntity X idEntity).toOption.bind (PeerData.canonicalPeerId X) with
      | none => bundle
      | some peerId =>
        let bundle := bundle.insert idEntity.contentHash idEntity
        match (s.locationIndex.get (invariantSignaturePath peerId current)).bind
            s.contentStore.get with
        | none => bundle
        | some sigEntity =>
          if sigEntity.entityType = typeSignature then
            bundle.insert sigEntity.contentHash sigEntity
          else bundle

theorem unvisited_lt {α β : Type} [DecidableEq α] {entries : List (α × β)} {visited : List α} {k : α}
    {v : β} (hnew : k ∉ visited) (hmem : (k,v) ∈ entries) :
    (entries.filter fun e => e.1 ∉ k::visited).length <
      (entries.filter fun e => e.1 ∉ visited).length := by
  have hsplit : entries.filter (fun e => decide (e.1 ∉ k::visited)) =
      (entries.filter fun e => decide (e.1 ∉ visited)).filter fun e => decide (e.1 ≠ k) := by
    rw [List.filter_filter]
    congr 1
    funext e
    simp [not_or]
  rw [hsplit,List.length_filter_lt_length_iff_exists]
  exact ⟨(k,v),List.mem_filter.mpr ⟨hmem,by simpa using hnew⟩,by simp⟩

/-- Parents from the store, up to a root, a gap or a token seen before. -/
def bundleParentChain (s : PeerState) (current : Hash) (visited : List Hash)
    (bundle : OrderedMap Hash Entity) : OrderedMap Hash Entity :=
  if hseen : current ∈ visited then bundle
  else match hget : s.contentStore.get current with
    | none => bundle
    | some capEntity =>
      if capEntity.entityType ≠ typeCapToken then bundle
      else match CapabilityToken.fromEntity X capEntity with
        | .error _ => bundle
        | .ok token =>
          let bundle := (granterSigners token.granter).foldl (bundleSigner X s current)
            (bundle.insert current capEntity)
          match token.parent with
          | none => bundle
          | some next => bundleParentChain s next (current::visited) bundle
termination_by (s.contentStore.entries.filter fun e => e.1 ∉ visited).length
decreasing_by
  exact unvisited_lt hseen ((OrderedMap.mem_entries _ _ _).mpr hget)

/-! Minting. -/

/-- What has been decided about a delegation. -/
structure CapabilityDelegation where
  parentHash : Hash
  parent : CapabilityToken
  grants : List GrantEntry
  ttlMs : Option ℕ

/-- A child of a token, granted by the local peer. -/
def childToken (grants : List GrantEntry) (grantee parent : Hash) (createdAt : ℕ)
    (expiresAt : Option ℕ) : CapabilityToken :=
  ⟨grants,.single H.identityHash,grantee,some parent,createdAt,expiresAt,none,none⟩

/-- The end that was asked for, unless it overflows, and never after the parent's. -/
def delegateExpiry (createdAt : ℕ) (ttlMs parentExpires : Option ℕ) : Option ℕ :=
  let asked := ttlMs.bind fun ttl => if createdAt+ttl < 2^64 then some (createdAt+ttl) else none
  match parentExpires with
  | none => asked
  | some parentExp => some (match asked with
    | some e => min e parentExp
    | none => parentExp)

def requireMatchable (grants : List GrantEntry) : Except Failure Unit :=
  match unmatchableScopePattern grants with
  | some bad => .error ⟨400,"invalid_path",
      "scope pattern matches nothing and would silently widen the grant: "++
      (String.ofList bad).quote++ " (a peer-wildcard is `/*/…`, not `*/…`)"⟩
  | none => .ok ()

/-- Everything `delegate` checks before it mints. The token that is compared with the parent
has the parent's end and is read in the local frame. -/
def approveDelegate (ctx : HandlerContext) (s : PeerState) : Except Failure CapabilityDelegation := do
  let author ← okOr ctx.author
    ⟨401,"unauthenticated","delegate requires an EXECUTE author identity"⟩
  ensure (author = H.identityHash) ⟨501,"unsupported_operation",
    "delegate is same-peer-only in v1: cross-peer self-attenuation is performed client-side "++
    "(construct + sign the child cap locally from the parent)"⟩
  let req ← mapErr (fun msg => Failure.mk 400 "invalid_params" msg)
    (decodeDelegateRequest X ctx.params)
  ensure (req.grants ≠ [])
    ⟨400,"invalid_params","delegate-request must specify at least one grant entry"⟩
  requireMatchable req.grants
  let parentEntity ← okOr (s.contentStore.get req.parent) ⟨404,"parent_not_found",
    "delegate parent token not in store: "++String.ofList (hexOf req.parent)⟩
  ensure (parentEntity.entityType = typeCapToken) ⟨400,"invalid_parent",
    "delegate parent must be system/capability/token, got: "++
    String.ofList parentEntity.entityType⟩
  let parent ← mapErr (fun e => Failure.mk 500 "internal_error"
    ("failed to decode parent token: "++e.display)) (CapabilityToken.fromEntity X parentEntity)
  ensure (parent.grantee = author) ⟨403,"scope_exceeds_authority",
    "delegate requires caller to directly hold the parent (parent.grantee == caller); "++
    "chain-walked indirection is not in v1"⟩
  ensure (isAttenuated X (H.childToken req.grants author req.parent 0 parent.expiresAt) parent
    H.localPeerId) ⟨403,"scope_exceeds_authority",
    "delegated scope is not an attenuation of the parent capability"⟩
  return ⟨req.parent,parent,req.grants,req.ttlMs⟩

/-- The token that is minted: granted by the local peer to itself. -/
def delegatedToken (d : CapabilityDelegation) (nowMs : ℕ) : CapabilityToken :=
  H.childToken d.grants H.identityHash d.parentHash nowMs
    (delegateExpiry nowMs d.ttlMs d.parent.expiresAt)

/-- Store a child with its signature and hand both out with the chain above. -/
def mintChildAndReturn (child : CapabilityToken) (parent : Hash) (s : PeerState) :
    HandlerResult × PeerState :=
  match child.toEntity X with
  | .error e => (.error ⟨500,"internal_error","failed to build token entity: "++e.display⟩,s)
  | .ok capEntity => match Entity.new X typeSignature (H.signatureData capEntity.contentHash) with
    | .error e => (.error ⟨500,"internal_error","failed to build signature entity: "++e.display⟩,s)
    | .ok sigEntity =>
      let s := (((s.put H.identityEntity).put capEntity).put sigEntity).set
        (invariantSignaturePath H.localPeerId capEntity.contentHash) sigEntity.contentHash
      match Entity.new X typeCapGrant
          (Ecf.toEcf (.map [field "token" (hashVal capEntity.contentHash)])) with
      | .error e => (.error ⟨500,"internal_error","failed to build grant entity: "++e.display⟩,s)
      | .ok grantEntity => (.ok grantEntity (bundleParentChain X s parent []
          (((OrderedMap.empty.insert capEntity.contentHash capEntity).insert sigEntity.contentHash
            sigEntity).insert H.identityHash H.identityEntity)),s)

def handleDelegate (ctx : HandlerContext) (nowMs : ℕ) (s : PeerState) : HandlerResult × PeerState :=
  match H.approveDelegate X ctx s with
  | .error failure => (.error failure,s)
  | .ok d => H.mintChildAndReturn X (H.delegatedToken d nowMs) d.parentHash s

end CapabilityHandler
end EntityCore
