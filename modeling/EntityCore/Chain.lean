import EntityCore.TokenCodec

/-! The delegation chain: walking from a capability to its root, and the checks
that make the verifier accept it. -/
namespace EntityCore

open Ecf Outcome

inductive ProtocolError where
  | hashMismatch
  | missingSignature
  | invalidSignature
  | signerMismatch
  | granteeMismatch
  | chainTooDeep
  | notLocalPeer
  | missingCapability
  | missingCapabilityEntity
  | capabilityExpired
  | capabilityNotYetValid
  | missingField (name : String)
  | missingEntity (name : String)
  | attenuationViolation
  | invalid (message : String)
  | capabilityInvalid (message : String)
  | unresolvableGrantee
  | capabilityRevoked
  | unsupportedContentHashFormat (code : UInt8)
  | capabilityFormatCodeMismatch (baseline actual : UInt8)
  | authenticationFailed (message : String)
  deriving DecidableEq

def maxChainDepth : ℕ := 64

def TypesError.display : TypesError → String
  | .wrongType e a => "wrong entity type: expected "++String.ofList e++ ", got "++String.ofList a
  | .decodeError m => "CBOR decode error: "++m

def CryptoError.display : CryptoError → String
  | .unsupportedKeyType c => "unsupported key_type: "++HashError.hexCode c
  | .invalidPeerId m => "invalid peer ID: "++m
  | .invalidPublicKey => "invalid public key"
  | .invalidSignature => "invalid signature"

variable (X : Platform)

def peerDataSigOk (id : PeerData) (message signature : Bytes) : Bool :=
  match KeyType.fromLabel id.keyType with
  | .ok kt => (verifyForKeyType X kt id.publicKey message signature).isOk
  | .error _ => false

def verifyPeerDataSig (id : PeerData) (message signature : Bytes) : Except ProtocolError Unit := do
  let kt ← mapErr (fun e => ProtocolError.invalid e.display) (KeyType.fromLabel id.keyType)
  mapErr (fun _ => ProtocolError.invalidSignature)
    (verifyForKeyType X kt id.publicKey message signature)

/-- The fields of a capability the walk needs, without its grants. -/
structure CapabilityChainFields where
  granter : Granter
  grantee : Hash
  parent : Option Hash
  notBefore : Option ℕ
  expiresAt : Option ℕ
  deriving DecidableEq

structure ChainFieldScan where
  granter : Option Granter
  grantee : Option Hash
  parent : Option Hash
  notBefore : Option ℕ
  expiresAt : Option ℕ

/-- Bytes that are no hash clear the field, other values leave it. -/
def chainHashField (v : Value) (old : Option Hash) : Option Hash :=
  match v.asBytes with
  | some b => (Hash.fromBytes b).toOption
  | none => old

def scanChainField (acc : ChainFieldScan) (kv : Value × Value) :
    Except ProtocolError ChainFieldScan :=
  if kv.1.asText = key "granter" then do
    let g ← mapErr (fun e => ProtocolError.invalid e.display) (decodeGranter kv.2)
    return { acc with granter := some g }
  else if kv.1.asText = key "grantee" then
    .ok { acc with grantee := chainHashField kv.2 acc.grantee }
  else if kv.1.asText = key "parent" then
    .ok { acc with parent := chainHashField kv.2 acc.parent }
  else if kv.1.asText = key "not_before" then .ok { acc with notBefore := kv.2.asU64 }
  else if kv.1.asText = key "expires_at" then .ok { acc with expiresAt := kv.2.asU64 }
  else .ok acc

def decodeCapabilityChainFields (data : Bytes) : Except ProtocolError CapabilityChainFields := do
  let value ← mapErr ProtocolError.invalid (X.fromReader data)
  let map ← okOr value.asMap (.invalid "capability data must be a map")
  let acc ← foldE scanChainField ⟨none,none,none,none,none⟩ map
  let granter ← okOr acc.granter (.missingField "granter")
  let grantee ← okOr acc.grantee (.missingField "grantee")
  return ⟨granter,grantee,acc.parent,acc.notBefore,acc.expiresAt⟩

structure Link where
  entity : Entity
  fields : CapabilityChainFields
  deriving DecidableEq

inductive ChainWalkError where
  | unreachable | tooDeep
  deriving DecidableEq

/-- `fuel` counts the links that may still be visited. -/
def collectFrom (resolve : Hash → Option Entity) : ℕ → Hash → Except ChainWalkError (List Link)
  | 0, _ => .error .tooDeep
  | fuel+1, currentHash =>
    match resolve currentHash with
    | none => .error .unreachable
    | some entity => match decodeCapabilityChainFields X entity.data with
      | .error _ => .error .unreachable
      | .ok fields => match fields.parent with
        | none => .ok [⟨entity,fields⟩]
        | some p => do return ⟨entity,fields⟩::(← collectFrom resolve fuel p)

/-- From leaf to root; the depth may reach `MAX_CHAIN_DEPTH`. -/
def collectAuthorityChain (leafHash : Hash) (resolve : Hash → Option Entity) :
    Except ChainWalkError (List Link) := collectFrom X resolve (maxChainDepth+1) leafHash

/-! The passes over a collected chain. -/

abbrev Included := OrderedMap Hash Entity

/-- The key an entity is filed under is the hash it carries. -/
def verifyIncludedKeyBinding (included : Included) : Except ProtocolError Unit :=
  forEach (fun ke => ensure (ke.1 = ke.2.contentHash) .hashMismatch) included.entries

def checkFormats (chain : List Link) : Except ProtocolError Unit :=
  match chain with
  | [] => .ok ()
  | first::rest =>
    let baseline := first.entity.contentHash.algorithm
    forEach (fun link =>
      let alg := link.entity.contentHash.algorithm
      ensure (alg = baseline) (.capabilityFormatCodeMismatch baseline alg)) rest

def checkGrantee (included : Included) (link : Link) : Except ProtocolError Unit := do
  let granteeEntity ← okOr (included.get link.fields.grantee) .unresolvableGrantee
  ensure (granteeEntity.entityType = typePeer) .unresolvableGrantee

def checkTemporal (nowMs : ℕ) (link : Link) : Except ProtocolError Unit := do
  ensure (link.fields.expiresAt.all fun expiresAt => nowMs < expiresAt) .capabilityExpired
  ensure (link.fields.notBefore.all fun notBefore => notBefore ≤ nowMs) .capabilityNotYetValid

/-- A link that does not decode is passed over here. -/
def checkScopePatterns (link : Link) : Except ProtocolError Unit :=
  match CapabilityToken.fromEntity X link.entity with
  | .error _ => .ok ()
  | .ok token => match unmatchableScopePattern token.grants with
    | none => .ok ()
    | some bad => .error (.capabilityInvalid
        ("scope pattern matches nothing and would silently widen the grant: \""++
          String.ofList bad++ "\" (a peer-wildcard is `/*/…`, not `*/…`) — §5.4, 0.8.2.21"))

/-- Several signers only at the root. -/
def checkMultiPosition (link : Link) (rest : List Link) : Except ProtocolError Unit :=
  match link.fields.granter with
  | .single _ => .ok ()
  | .multi multi => do
    ensure link.fields.parent.isNone
      (.capabilityInvalid "multi-sig capability must have parent: null (M3)")
    ensure rest.isEmpty
      (.capabilityInvalid "multi-sig capability appeared at non-root chain position (M3)")
    mapErr (fun e => ProtocolError.capabilityInvalid e.display) multi.validate

def checkMultiPositions : List Link → Except ProtocolError Unit
  | [] => .ok ()
  | link::rest => do
    checkMultiPosition link rest
    checkMultiPositions rest

/-- The granter's signature over a link: the first one found must be theirs. -/
def verifySingle (included : Included) (currentHash granterId : Hash) :
    Except ProtocolError PeerData := do
  let sig ← okOr (findSignatureForTarget X included.values currentHash) .missingSignature
  let sigData ← mapErr (fun e => ProtocolError.invalid e.display) (SignatureData.fromEntity X sig)
  ensure (sigData.signer = granterId) .signerMismatch
  let granterEntity ← okOr (included.get granterId) (.missingEntity "granter identity")
  let granterIdentity ←
    mapErr (fun e => ProtocolError.invalid e.display) (PeerData.fromEntity X granterEntity)
  verifyPeerDataSig X granterIdentity currentHash.toBytes sigData.signature
  return granterIdentity

/-- The namespace of a parent's resource patterns. -/
def parentFrame (included : Included) (localPeerId : Str) : Granter → Except ProtocolError Str
  | .single parentGranterId => do
    let pe ← okOr (included.get parentGranterId) (.missingEntity "parent granter identity")
    let peer ← mapErr (fun e => ProtocolError.invalid e.display) (PeerData.fromEntity X pe)
    return (peer.canonicalPeerId X).getD localPeerId
  | .multi _ => .ok localPeerId

def verifyDelegation (included : Included) (localPeerId : Str) (i : ℕ) (link parent : Link)
    (granterId : Hash) (granterIdentity : PeerData) : Except ProtocolError Unit := do
  ensure (parent.fields.grantee = granterId) .granteeMismatch
  let childToken ← mapErr (fun e => ProtocolError.invalid ("child cap decode: "++e.display))
    (CapabilityToken.fromEntity X link.entity)
  let parentToken ← mapErr (fun e => ProtocolError.invalid ("parent cap decode: "++e.display))
    (CapabilityToken.fromEntity X parent.entity)
  let childGranterPeerId := (granterIdentity.canonicalPeerId X).getD localPeerId
  let parentGranterPeerId ← parentFrame X included localPeerId parent.fields.granter
  ensure (isAttenuatedFramed X childToken parentToken childGranterPeerId parentGranterPeerId
    localPeerId) .attenuationViolation
  ensure (checkDelegationCaveats parentToken childToken i)
    (.capabilityInvalid "delegation caveat violated")

/-- The signer's identity, when it is present and its signature verifies. -/
def candidateSigned (included : Included) (currentHash candidate : Hash) : Option PeerData := do
  let identityEntity ← included.get candidate
  let identity ← (PeerData.fromEntity X identityEntity).toOption
  let sig ← findSignatureBySigner X included.values currentHash candidate
  let sigData ← (SignatureData.fromEntity X sig).toOption
  if peerDataSigOk X identity currentHash.toBytes sigData.signature then some identity else none

structure MultiCount where
  seen : List Hash
  valid : ℕ
  localPeerSigned : Bool

def countCandidate (included : Included) (localPeerId : Str) (currentHash : Hash)
    (acc : MultiCount) (candidate : Hash) : MultiCount :=
  if candidate ∈ acc.seen then acc
  else match candidateSigned X included currentHash candidate with
    | none => { acc with seen := acc.seen++[candidate] }
    | some identity => ⟨acc.seen++[candidate],acc.valid+1,
        acc.localPeerSigned || identity.canonicalPeerId X = some localPeerId⟩

def verifyMulti (included : Included) (localPeerId : Str) (currentHash : Hash)
    (multi : MultiGranter) : Except ProtocolError Unit := do
  let acc := multi.signers.foldl (countCandidate X included localPeerId currentHash) ⟨[],0,false⟩
  ensure (multi.threshold ≤ acc.valid) .invalidSignature
  ensure acc.localPeerSigned .notLocalPeer

/-- One level: `parent` is the next link, absent at the root. -/
def verifyLevel (included : Included) (localPeerId : Str) (i : ℕ) (link : Link)
    (parent : Option Link) : Except ProtocolError Unit :=
  match link.fields.granter with
  | .single granterId => do
    let granterIdentity ← verifySingle X included link.entity.contentHash granterId
    match parent with
    | some parent => verifyDelegation X included localPeerId i link parent granterId granterIdentity
    | none => ensure (granterIdentity.canonicalPeerId X = some localPeerId) .notLocalPeer
  | .multi multi => verifyMulti X included localPeerId link.entity.contentHash multi

def verifyLevels (included : Included) (localPeerId : Str) :
    ℕ → List Link → Except ProtocolError Unit
  | _, [] => .ok ()
  | i, link::rest => do
    verifyLevel X included localPeerId i link rest.head?
    verifyLevels included localPeerId (i+1) rest

def walkError : ChainWalkError → ProtocolError
  | .tooDeep => .chainTooDeep
  | .unreachable => .missingEntity "capability in chain"

def verifyCapabilityChain (capabilityHash : Hash) (included : Included) (localPeerId : Str)
    (nowMs : ℕ) : Except ProtocolError Unit := do
  verifyIncludedKeyBinding included
  let chain ← mapErr walkError (collectAuthorityChain X capabilityHash included.get)
  checkFormats chain
  forEach (checkGrantee included) chain
  forEach (checkTemporal nowMs) chain
  forEach (checkScopePatterns X) chain
  checkMultiPositions chain
  verifyLevels X included localPeerId 0 chain

/-! What acceptance says. -/

variable {X}

theorem verifyCapabilityChain_ok {h : Hash} {included : Included} {l : Str} {now : ℕ} :
    verifyCapabilityChain X h included l now = .ok () ↔ verifyIncludedKeyBinding included = .ok () ∧
      ∃ chain, collectAuthorityChain X h included.get = .ok chain ∧ checkFormats chain = .ok () ∧
        (∀ link ∈ chain, checkGrantee included link = .ok ()) ∧
        (∀ link ∈ chain, checkTemporal now link = .ok ()) ∧
        (∀ link ∈ chain, checkScopePatterns X link = .ok ()) ∧
        checkMultiPositions chain = .ok () ∧ verifyLevels X included l 0 chain = .ok () := by
  simp [verifyCapabilityChain,forEach_ok]

theorem keyBinding_ok (included : Included) :
    verifyIncludedKeyBinding included = .ok () ↔ ContentAddressed included := by
  simp only [verifyIncludedKeyBinding,forEach_ok,ensure_ok,decide_eq_true_eq,Prod.forall,
    OrderedMap.mem_entries,ContentAddressed]
  exact ⟨fun h k e he => (h k e he).symm,fun h k e he => (h k e he).symm⟩

/-- A nonempty chain whose fields are what its entities' data decode to. -/
theorem collectFrom_links {resolve : Hash → Option Entity} {fuel : ℕ} {h : Hash}
    {chain : List Link} (hc : collectFrom X resolve fuel h = .ok chain) :
    (∃ link rest, chain = link::rest ∧ resolve h = some link.entity) ∧
      ∀ link ∈ chain, decodeCapabilityChainFields X link.entity.data = .ok link.fields := by
  induction fuel generalizing h chain with
  | zero => simp [collectFrom] at hc
  | succ fuel ih =>
    unfold collectFrom at hc
    split at hc
    · cases hc
    · rename_i entity he
      split at hc
      · cases hc
      · rename_i fields hf
        split at hc
        · obtain rfl := Except.ok.inj hc
          exact ⟨⟨_,_,rfl,he⟩,by simpa using hf⟩
        · rename_i p hp
          simp only [bind_ok,pure_ok] at hc
          obtain ⟨rest,hr,rfl⟩ := hc
          refine ⟨⟨_,_,rfl,he⟩,?_⟩
          intro link hl
          rcases List.mem_cons.mp hl with rfl | hl
          · exact hf
          · exact (ih hr).2 link hl

theorem checkMultiPositions_cons {link : Link} {rest : List Link}
    (h : checkMultiPositions (link::rest) = .ok ()) :
    (∀ m, link.fields.granter = .multi m → rest = []) ∧ checkMultiPositions rest = .ok () := by
  simp only [checkMultiPositions,seq_ok] at h
  refine ⟨?_,h.2⟩
  intro m hm
  have hh := h.1
  simp only [checkMultiPosition,hm,seq_ok,ensure_ok,List.isEmpty_iff] at hh
  exact hh.2.1

theorem verifyLevels_cons {included : Included} {l : Str} {i : ℕ} {link : Link}
    {rest : List Link} : verifyLevels X included l i (link::rest) = .ok () ↔
      verifyLevel X included l i link rest.head? = .ok () ∧
      verifyLevels X included l (i+1) rest = .ok () := by
  simp [verifyLevels]

/-- What a verified single-granter link gives: the identity its granter names, in
whose key's name the signature was made. -/
theorem verifySingle_ok {included : Included} {h g : Hash} {p : PeerData}
    (hv : verifySingle X included h g = .ok p) :
    ∃ e id, included.get g = some e ∧ PeerData.fromEntity X e = .ok p ∧
      p.canonicalPeerId X = some id := by
  simp only [verifySingle,verifyPeerDataSig,bind_ok,okOr_ok,mapErr_ok,pure_ok] at hv
  obtain ⟨sig,_,sd,_,_,_,e,he,p',hp,_,⟨kt,hkt,hsig⟩,rfl⟩ := hv
  obtain ⟨id,hid⟩ := canonicalPeerId_of_verify hkt hsig
  exact ⟨e,id,he,hp,hid⟩

end EntityCore
