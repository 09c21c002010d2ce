import EntityCore.Quorum
import EntityCore.CapabilityHandler
import EntityCore.WriteOutcome

/-! What writes attestations: the operations of `system/attestation` and `system/quorum`
that store one, and the tree itself, whose hook indexes whatever arrives. -/
namespace EntityCore

open Ecf Outcome Strings

/-! The one concrete path a request is about. -/

inductive ResourceSubject where
  | absent | selfExcluded
  | one (path : Str)

def badRequest (code message : String) : Failure := ⟨400,code,message⟩

section Subject

variable (resourceTarget : Option ResourceTarget) (localPeerId : Str) (what : String)

def singleEffectiveTarget : Except Failure ResourceSubject :=
  let named := resourceTarget.any fun rt => !rt.targets.isEmpty
  match effectiveTargets resourceTarget localPeerId with
  | [] => .ok (if named then .selfExcluded else .absent)
  | [target] => .ok (.one (canonicalize target localPeerId))
  | targets => .error (badRequest "ambiguous_resource" (what++
      " requires exactly one resource target, got "++toString targets.length))

def selfExcludedRefusal : Failure := badRequest "path_required" (what++
  ": every resource target this request named is covered by its own exclude — the effective set is empty")

def optionalSingleResourcePath : Except Failure (Option Str) := do
  match ← singleEffectiveTarget resourceTarget localPeerId what with
  | .absent => .ok none
  | .selfExcluded => .error (selfExcludedRefusal what)
  | .one path =>
    if path.contains '*' then .error (badRequest "malformed_resource" (what++
      " requires a concrete resource path, not the pattern "++String.ofList path))
    else .ok (some path)

def requireSingleResourcePath : Except Failure Str := do
  let found ← optionalSingleResourcePath resourceTarget localPeerId what
  okOr found (badRequest "path_required" (what++ " requires a resource target"))

end Subject

/-! The state: the tree, and beside it the content store, the index and the cached sets. -/

structure AttestationWorld where
  store : ContentStore
  index : AttestationIndex
  signerSetCache : OrderedMap Hash SignerSet

abbrev AttestationTree : Type := NotifyingLocationIndex AttestationWorld

/-- The attestation under a hash, if it is one. -/
def attestationAt (X : Platform) (store : ContentStore) (hash : Hash) : Option AttestationData :=
  (store.get hash).bind fun entity => (AttestationData.fromEntity X entity).toOption

/-- A peer that starts reads its index off the tree. -/
def AttestationIndex.load (X : Platform) (localPeerId : Str) (store : ContentStore)
    (locationIndex : MemoryLocationIndex) : AttestationIndex :=
  (locationIndex.list ('/'::localPeerId++ "/system/attestation/".toList)).foldl (fun index entry =>
    match attestationAt X store entry.2 with
    | some att => index.insert entry.2 att
    | none => index) .new

section Hook

variable (X : Platform) (localPeerId : Str)

/-- Whatever is written is indexed, if it is an attestation; removals change nothing. -/
def indexArrival (newHash : Hash) (w : AttestationWorld) : AttestationWorld :=
  match attestationAt X w.store newHash with
  | some att => { w with index := w.index.insert newHash att }
  | none => w

def attestationIndexHook : SyncTreeHook AttestationWorld where
  name := "attestation/index-maintainer".toList
  handlerPattern := '/'::localPeerId++ "/system/attestation".toList
  onTreeChange event ctx s := match event.newHash with
    | none => (.ok (),ctx,s)
    | some newHash => (.ok (),ctx,{ s with world := indexArrival X newHash s.world })

def indexed : Consumers AttestationWorld := ⟨[attestationIndexHook X localPeerId],fun _ s => s⟩

end Hook

/-! Requests. -/

/-- Kinds that go over the wire carry a domain, but for the one of this extension. -/
def validateKind (kind : Str) : Except AttestationError Unit :=
  if kind = kindRevocation then .ok ()
  else if ((splitOnce '-' kind).any fun p => !p.1.isEmpty) then .ok ()
  else .error (.invalid ("kind_must_be_namespaced: '"++String.ofList kind++
    "' lacks domain prefix (use '<domain>-<kind>'); only `revocation` may be unnamespaced"))

/-- What a request asks to store: where, and the attestation with its entity. -/
structure AttestationRequest where
  path : Str
  att : AttestationData
  entity : Entity

section Requests

variable (X : Platform) (localPeerId : Str) (index : AttestationIndex)
  (resourceTarget : Option ResourceTarget) (params : Bytes)

def invalidParams {α : Type} (r : Except AttestationError α) : Except Failure α :=
  mapErr (fun e => badRequest "invalid_params" e.display) r

/-- Of the two errors a `properties` field can have only the text is reported. -/
def paramProperties (map absent : List (Value × Value)) :
    Except Failure (List (Value × Value)) :=
  match presentField map "properties" with
  | none => .ok absent
  | some v => okOr v.asMap (badRequest "invalid_params" "properties must be CBOR map")

def encoded (path : Str) (att : AttestationData) : Except Failure AttestationRequest := do
  let entity ← mapErr (fun e => badRequest "encode_failed" e.display) (att.toEntity X)
  return ⟨path,att,entity⟩

def createRequest : Except Failure AttestationRequest := do
  let path ← requireSingleResourcePath resourceTarget localPeerId
    "resource.targets[0] required (storage path for new attestation)"
  let map ← invalidParams (decodeMap X params)
  let attesting ← invalidParams (fieldHash map "attesting")
  let attested ← invalidParams (fieldHash map "attested")
  let properties ← paramProperties map []
  let supersedes ← invalidParams (fieldHashOpt map "supersedes")
  let notBefore ← invalidParams (fieldU64Opt map "not_before")
  let expiresAt ← invalidParams (fieldU64Opt map "expires_at")
  let att : AttestationData := ⟨attesting,attested,properties,supersedes,notBefore,expiresAt⟩
  match att.kind with
  | none => encoded X path att
  | some kind => do
    mapErr (fun e => badRequest "invalid_kind" e.display) (validateKind kind)
    encoded X path att

/-- What the request leaves open is taken from the predecessor. -/
def supersedeRequest : Except Failure AttestationRequest := do
  let path ← requireSingleResourcePath resourceTarget localPeerId "resource.targets[0] required"
  let map ← invalidParams (decodeMap X params)
  let previousHash ← invalidParams (fieldHash map "previous_hash")
  let previous ← okOr (index.get previousHash)
    ⟨404,"previous_not_found","previous_hash not in attestation index"⟩
  let properties ← paramProperties map previous.properties
  let notBefore ← invalidParams (fieldU64Opt map "not_before")
  let expiresAt ← invalidParams (fieldU64Opt map "expires_at")
  encoded X path ⟨previous.attesting,previous.attested,properties,some previousHash,
    notBefore.or previous.notBefore,expiresAt.or previous.expiresAt⟩

def revokeRequest : Except Failure AttestationRequest := do
  let path ← requireSingleResourcePath resourceTarget localPeerId "resource.targets[0] required"
  let map ← invalidParams (decodeMap X params)
  let targetHash ← invalidParams (fieldHash map "target_hash")
  let attesting ← invalidParams (fieldHash map "attesting")
  let reason := (getField map "reason").bind Value.asText
  encoded X path ⟨attesting,targetHash,[(.text "kind".toList,.text kindRevocation)]++
    (reason.map fun r => (Value.text "reason".toList,Value.text r)).toList,none,none,none⟩

def invalidQuorumParams {α : Type} (r : Except QuorumError α) : Except Failure α :=
  mapErr (fun e => badRequest "invalid_params" e.display) r

def hashArray (hashes : List Hash) : Value := .array (hashes.map fun h => .bytes h.toBytes)

/-- Stable, by the text of the key. -/
def sortProperties (props : List (Value × Value)) : List (Value × Value) :=
  props.insertionSort fun a b => a.1.asText.getD [] ≤ b.1.asText.getD []

/-- The path comes last, after the attestation has been encoded. -/
def quorumRequest (att : AttestationData) (what : String) : Except Failure AttestationRequest := do
  let entity ← mapErr (fun e => badRequest "encode_failed" e.display) (att.toEntity X)
  let path ← requireSingleResourcePath resourceTarget localPeerId what
  return ⟨path,att,entity⟩

def quorumUpdateRequest : Except Failure AttestationRequest := do
  let map ← invalidQuorumParams (QuorumError.decodeMap X params)
  let quorumId ← invalidQuorumParams (QuorumError.fieldHash map "quorum_id")
  let newSigners ← invalidQuorumParams (QuorumError.fieldHashArray map "new_signers")
  let newThreshold ← invalidQuorumParams (QuorumError.fieldU64 map "new_threshold")
  ensure (newThreshold ≠ 0 ∧ newThreshold ≤ newSigners.length) (badRequest "invalid_threshold"
    "new_threshold must satisfy 1 ≤ K ≤ |new_signers|")
  let supersedes ← invalidQuorumParams (QuorumError.fieldHashOpt map "supersedes")
  quorumRequest X localPeerId resourceTarget ⟨quorumId,quorumId,
    sortProperties [(.text "kind".toList,.text kindQuorumUpdate),
      (.text "new_signers".toList,hashArray newSigners),
      (.text "new_threshold".toList,.integer (AttestationData.asI64 newThreshold))],
    supersedes,none,none⟩ "system/quorum:update requires resource.targets[0]"

def publishKeys : List Str :=
  ["kind".toList,"signers".toList,"threshold".toList,"published_handle".toList]

/-- The caller's own properties with a text key that is not one of the standard ones. -/
def extraProperties (map : List (Value × Value)) : List (Value × Value) :=
  ((((getField map "properties").bind Value.asMap).getD []).filterMap fun kv =>
    kv.1.asText.bind fun k => if k ∈ publishKeys then none else some (.text k,kv.2))

def quorumPublishRequest : Except Failure AttestationRequest := do
  let map ← invalidQuorumParams (QuorumError.decodeMap X params)
  let quorumId ← invalidQuorumParams (QuorumError.fieldHash map "quorum_id")
  let signers ← invalidQuorumParams (QuorumError.fieldHashArray map "signers")
  let threshold ← invalidQuorumParams (QuorumError.fieldU64 map "threshold")
  let publishedHandle ← invalidQuorumParams (QuorumError.fieldHashOpt map "published_handle")
  let supersedes ← invalidQuorumParams (QuorumError.fieldHashOpt map "supersedes")
  quorumRequest X localPeerId resourceTarget ⟨quorumId,quorumId,
    sortProperties ([(.text "kind".toList,.text kindQuorumPublish),
      (.text "signers".toList,hashArray signers),
      (.text "threshold".toList,.integer (AttestationData.asI64 threshold))]++
      (publishedHandle.map fun h =>
        (Value.text "published_handle".toList,Value.bytes h.toBytes)).toList++
      extraProperties map),
    supersedes,none,none⟩ "system/quorum:publish requires resource.targets[0]"

end Requests

/-! Storing. -/

section Storing

variable (X : Platform) (localPeerId : Str)

def putAttestation (s : AttestationTree) (entity : Entity) : AttestationTree :=
  { s with world := { s.world with store := s.world.store.put entity } }

def insertAttestation (s : AttestationTree) (hash : Hash) (att : AttestationData) :
    AttestationTree :=
  { s with world := { s.world with index := s.world.index.insert hash att } }

/-- Into the store, then onto the tree, where the hook sees it, then into the index. -/
def persistAttestation (r : AttestationRequest) (s : AttestationTree) : AttestationTree :=
  insertAttestation (NotifyingLocationIndex.setImpl (indexed X localPeerId) r.path
    r.entity.contentHash none (putAttestation s r.entity)).state r.entity.contentHash r.att

def invalidateSet (s : AttestationTree) (quorumId : Hash) : AttestationTree :=
  { s with world := { s.world with signerSetCache := s.world.signerSetCache.erase quorumId } }

inductive AttestationReply where
  | stored (field : String) (hash : Hash)
  | refused (failure : Failure)

/-- A request that is refused changes nothing. -/
def answer (field : String) (request : Except Failure AttestationRequest)
    (store : AttestationRequest → AttestationTree → AttestationTree) (s : AttestationTree) :
    AttestationReply × AttestationTree :=
  match request with
  | .error failure => (.refused failure,s)
  | .ok r => (.stored field r.entity.contentHash,store r s)

def handleCreate (resourceTarget : Option ResourceTarget) (params : Bytes) (s : AttestationTree) :
    AttestationReply × AttestationTree :=
  answer "attestation_hash" (createRequest X localPeerId resourceTarget params)
    (persistAttestation X localPeerId) s

def handleSupersede (resourceTarget : Option ResourceTarget) (params : Bytes)
    (s : AttestationTree) : AttestationReply × AttestationTree :=
  answer "attestation_hash" (supersedeRequest X localPeerId s.world.index resourceTarget params)
    (persistAttestation X localPeerId) s

def handleAttestationRevoke (resourceTarget : Option ResourceTarget) (params : Bytes)
    (s : AttestationTree) : AttestationReply × AttestationTree :=
  answer "attestation_hash" (revokeRequest X localPeerId resourceTarget params)
    (persistAttestation X localPeerId) s

/-- A quorum's own attestations also end what is cached about it. -/
def persistQuorumEvent (r : AttestationRequest) (s : AttestationTree) : AttestationTree :=
  invalidateSet (persistAttestation X localPeerId r s) r.att.attesting

def handleQuorumUpdate (resourceTarget : Option ResourceTarget) (params : Bytes)
    (s : AttestationTree) : AttestationReply × AttestationTree :=
  answer "update_hash" (quorumUpdateRequest X localPeerId resourceTarget params)
    (persistQuorumEvent X localPeerId) s

def handleQuorumPublish (resourceTarget : Option ResourceTarget) (params : Bytes)
    (s : AttestationTree) : AttestationReply × AttestationTree :=
  answer "publish_hash" (quorumPublishRequest X localPeerId resourceTarget params)
    (persistQuorumEvent X localPeerId) s

/-! Runs. -/

inductive AttestationStep where
  | create (resourceTarget : Option ResourceTarget) (params : Bytes)
  | supersede (resourceTarget : Option ResourceTarget) (params : Bytes)
  | revoke (resourceTarget : Option ResourceTarget) (params : Bytes)
  | quorumUpdate (resourceTarget : Option ResourceTarget) (params : Bytes)
  | quorumPublish (resourceTarget : Option ResourceTarget) (params : Bytes)
  | write (path : Str) (entity : Entity) (ctx : Option ExecutionContext)

/-- A synced write puts the entity and binds it. -/
def AttestationStep.run (step : AttestationStep) (s : AttestationTree) : AttestationTree :=
  match step with
  | .create rt params => (handleCreate X localPeerId rt params s).2
  | .supersede rt params => (handleSupersede X localPeerId rt params s).2
  | .revoke rt params => (handleAttestationRevoke X localPeerId rt params s).2
  | .quorumUpdate rt params => (handleQuorumUpdate X localPeerId rt params s).2
  | .quorumPublish rt params => (handleQuorumPublish X localPeerId rt params s).2
  | .write path entity ctx => (NotifyingLocationIndex.setImpl (indexed X localPeerId) path
      entity.contentHash ctx (putAttestation s entity)).state

def runAttestations (steps : List AttestationStep) (s : AttestationTree) : AttestationTree :=
  steps.foldl (fun s step => step.run X localPeerId s) s

end Storing
end EntityCore
