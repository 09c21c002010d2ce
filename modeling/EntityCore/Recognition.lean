import EntityCore.IdentityChain

/-! Recognition of a connecting peer. The policy of a peer may ask for a chain of live
certificates from the connecting peer to a trusted quorum; the walk that looks for one
takes the certificates as they are indexed. -/
namespace EntityCore

open Ecf Outcome Strings Worklist

/-! The walk. -/

section Walk

variable (index : AttestationIndex) (now steps : ℕ)

/-- Certificates about a peer with a given function. -/
def certsFor (functionName : Str) (peerHash : Hash) : List Attestation :=
  index.findAttestationsTargeting peerHash fun a =>
    a.kind = some kindIdentityCert && readFunction a = some functionName

/-- Up the controllers of a peer to one that the trusted quorum attests. -/
def walkToTrustedController (trustedQuorum : Hash) : ℕ → Hash → Option Bool
  | 0, _ => some false
  | depth+1, candidatePeerHash =>
    anyOpt (fun ctrl => match isAttestationLive index now steps ctrl with
      | none => none
      | some false => some false
      | some true =>
        if ctrl.2.attesting = trustedQuorum then some true
        else walkToTrustedController trustedQuorum depth ctrl.2.attesting)
      (certsFor index functionController candidatePeerHash)

def recognizeIdentityCert (connectingPeerHash trustedQuorum : Hash) (maxDepth : ℕ) : Option Bool :=
  anyOpt (fun agent => match isAttestationLive index now steps agent with
    | none => none
    | some false => some false
    | some true => walkToTrustedController index now steps trustedQuorum maxDepth agent.2.attesting)
    (certsFor index functionAgent connectingPeerHash)

def defaultMaxChainDepth : ℕ := 32

end Walk

/-! The policy. Decoding errors are dropped where the policy is read. -/

def modeAnonymousDeny : Str := "anonymous-deny".toList
def modeAnonymousAllow : Str := "anonymous-allow".toList
def modeRecognizeOnAttestation : Str := "recognize-on-attestation".toList
def typeRoleInitialGrantPolicy : Str := "system/role/initial-grant-policy".toList
def typeRole : Str := "system/role".toList
def rolePrefix : Str := "system/role/".toList

structure RoleInitialGrantPolicyData where
  unknownPeer : Str
  defaultRole : Option Str
  defaultContext : Option Str
  identityRequired : Bool

/-- Nobody unknown gets anything. -/
def RoleInitialGrantPolicyData.default : RoleInitialGrantPolicyData :=
  ⟨modeAnonymousDeny,none,none,false⟩

def fieldTextOpt (map : List (Value × Value)) (key : String) : Option (Option Str) :=
  match presentField map key with
  | none => some none
  | some v => v.asText.map some

section Policy

variable (X : Platform)

def entityMap (entityType : Str) (entity : Entity) : Option (List (Value × Value)) := do
  if entity.entityType ≠ entityType then none
  else (← (X.fromReader entity.data).toOption).asMap

def RoleInitialGrantPolicyData.fromEntity (entity : Entity) : Option RoleInitialGrantPolicyData := do
  let map ← entityMap X typeRoleInitialGrantPolicy entity
  let unknownPeer ← (getField map "unknown_peer").bind Value.asText
  let defaultRole ← fieldTextOpt map "default_role"
  let defaultContext ← fieldTextOpt map "default_context"
  match presentField map "identity_required" with
  | none => return ⟨unknownPeer,defaultRole,defaultContext,false⟩
  | some (.bool b) => return ⟨unknownPeer,defaultRole,defaultContext,b⟩
  | some _ => none

/-- The grants of a role definition. -/
def roleGrants (entity : Entity) : Option (List GrantEntry) := do
  let map ← entityMap X typeRole entity
  let _ ← (getField map "name").bind Value.asText
  let grants ← (← (getField map "grants").bind Value.asArray).mapM fun item =>
    (decodeGrantEntry item).toOption
  match presentField map "metadata" with
  | none => return grants
  | some v => do
    let _ ← v.asMap
    return grants

variable (ctx : AttestationCtx) (localPeerId : Str)

/-- What is bound below the local peer. -/
def boundEntity (path : Str) : Option Entity :=
  (ctx.locationIndex.get ('/'::localPeerId++ '/'::path)).bind ctx.contentStore.get

def readTrustedQuorum : Option Hash := do
  let entity ← boundEntity ctx localPeerId "system/identity/peer-config".toList
  let map ← (← (X.fromReader entity.data).toOption).asMap
  let bytes ← map.findSome? fun kv =>
    if kv.1.asText = some "trusts_quorum".toList then kv.2.asBytes else none
  (Hash.fromBytes bytes).toOption

def readPolicy : RoleInitialGrantPolicyData :=
  ((boundEntity ctx localPeerId typeRoleInitialGrantPolicy).bind
    (RoleInitialGrantPolicyData.fromEntity X)).getD .default

def readRoleDefGrants (context roleName : Str) : Option (List GrantEntry) :=
  (boundEntity ctx localPeerId (rolePrefix++context++ '/'::roleName)).bind (roleGrants X)

def isExcluded (context peerHex : Str) : Bool :=
  (ctx.locationIndex.get ('/'::localPeerId++ '/'::(rolePrefix++context++ "/excluded/".toList++
    peerHex))).isSome

variable (now steps : ℕ)

/-- Whether the connecting peer is recognized; never without a trusted quorum. -/
def recognized (connectingPeerHash : Hash) : Option Bool :=
  match readTrustedQuorum X ctx localPeerId with
  | none => some false
  | some trustedQuorum => recognizeIdentityCert ctx.index now steps connectingPeerHash trustedQuorum
      defaultMaxChainDepth

/-- The grants a connecting peer starts with; an excluded one gets none in any mode. -/
def resolveGrants (connectingPeerHash : Hash) : Option (Option (List GrantEntry)) :=
  let policy := readPolicy X ctx localPeerId
  let grants := do
    let context ← policy.defaultContext
    let role ← policy.defaultRole
    readRoleDefGrants X ctx localPeerId context role
  if policy.defaultContext.any fun c => isExcluded ctx localPeerId c connectingPeerHash.toHex then
    some none
  else if policy.unknownPeer = modeAnonymousAllow then some grants
  else if policy.unknownPeer = modeRecognizeOnAttestation then
    if policy.defaultContext.isNone ∨ policy.defaultRole.isNone then some none
    else (recognized X ctx localPeerId now steps connectingPeerHash).map fun known : Bool =>
      if known || !policy.identityRequired then grants else none
  else some none

end Policy

/-! Chains of live certificates. -/

section Chains

variable (index : AttestationIndex) (now : ℕ) (trustedQuorum : Hash)

/-- From a peer up its controllers to the trusted quorum. -/
inductive ControllerChain : Hash → List Attestation → Prop
  | top {peer : Hash} {c : Attestation} (about : c ∈ certsFor index functionController peer)
      (live : Live index now c) (root : c.2.attesting = trustedQuorum) : ControllerChain peer [c]
  | next {peer : Hash} {c : Attestation} {rest : List Attestation}
      (about : c ∈ certsFor index functionController peer) (live : Live index now c)
      (below : c.2.attesting ≠ trustedQuorum) (above : ControllerChain c.2.attesting rest) :
      ControllerChain peer (c::rest)

/-- The agent certificate of the connecting peer and the chain of who issued it. -/
def RecognitionChain (peer : Hash) (chain : List Attestation) : Prop :=
  ∃ agent rest, chain = agent::rest ∧ agent ∈ certsFor index functionAgent peer ∧
    Live index now agent ∧ ControllerChain index now trustedQuorum agent.2.attesting rest

/-- The peers whose controller certificates the walk looks at. -/
inductive Visited (peer : Hash) : Hash → Prop
  | issuer {agent : Attestation} (about : agent ∈ certsFor index functionAgent peer)
      (live : Live index now agent) : Visited peer agent.2.attesting
  | above {p : Hash} {c : Attestation} (visited : Visited peer p)
      (about : c ∈ certsFor index functionController p) (live : Live index now c)
      (below : c.2.attesting ≠ trustedQuorum) : Visited peer c.2.attesting

variable {index now trustedQuorum} {steps : ℕ}

theorem walk_finds_chain {depth : ℕ} {peer : Hash}
    (h : walkToTrustedController index now steps trustedQuorum depth peer = some true) :
    ∃ chain, ControllerChain index now trustedQuorum peer chain := by
  induction depth generalizing peer with
  | zero => cases h
  | succ depth ih =>
    unfold walkToTrustedController at h
    obtain ⟨ctrl,habout,hctrl⟩ := anyOpt_true h
    split at hctrl
    · cases hctrl
    · cases hctrl
    · rename_i hlive
      split_ifs at hctrl with hroot
      · exact ⟨[ctrl],.top habout ⟨steps,hlive⟩ hroot⟩
      · obtain ⟨rest,hrest⟩ := ih hctrl
        exact ⟨ctrl::rest,.next habout ⟨steps,hlive⟩ hroot hrest⟩

theorem recognize_finds_chain {depth : ℕ} {peer : Hash}
    (h : recognizeIdentityCert index now steps peer trustedQuorum depth = some true) :
    ∃ chain, RecognitionChain index now trustedQuorum peer chain := by
  unfold recognizeIdentityCert at h
  obtain ⟨agent,habout,hagent⟩ := anyOpt_true h
  split at hagent
  · cases hagent
  · cases hagent
  · rename_i hlive
    obtain ⟨rest,hrest⟩ := walk_finds_chain hagent
    exact ⟨agent::rest,agent,rest,rfl,habout,⟨steps,hlive⟩,hrest⟩

end Chains

/-! Signatures. -/

section Signed

variable (X : Platform) (ctx : QuorumCtx) (now : ℕ) (trustedQuorum : Hash)

/-- Signed by the peer that attests it; the quorum's by enough of its current set. -/
def CertSigned (c : Attestation) : Prop :=
  if c.2.attesting = trustedQuorum then
    ∃ steps set, currentSignerSet X ctx now steps trustedQuorum = some (.ok set) ∧
      set.Signed X ctx c.1
  else verifySpecificSigner X ctx.toAttestationCtx c.1 c.2.attesting = true

/-- Every live certificate in reach of the walk is signed. -/
structure ReachSigned (peer : Hash) : Prop where
  agents : ∀ c ∈ certsFor ctx.index functionAgent peer, Live ctx.index now c →
    CertSigned X ctx now trustedQuorum c
  controllers : ∀ p, Visited ctx.index now trustedQuorum peer p →
    ∀ c ∈ certsFor ctx.index functionController p, Live ctx.index now c →
      CertSigned X ctx now trustedQuorum c

variable {X ctx now trustedQuorum} {peer : Hash}

theorem ReachSigned.controllerChain (h : ReachSigned X ctx now trustedQuorum peer) {p : Hash}
    {chain : List Attestation} (hchain : ControllerChain ctx.index now trustedQuorum p chain)
    (hp : Visited ctx.index now trustedQuorum peer p) :
    ∀ c ∈ chain, CertSigned X ctx now trustedQuorum c := by
  induction hchain with
  | top about live _ => simpa using h.controllers _ hp _ about live
  | next about live below _ ih =>
    exact List.forall_mem_cons.mpr ⟨h.controllers _ hp _ about live,
      ih (.above hp about live below)⟩

theorem ReachSigned.chain (h : ReachSigned X ctx now trustedQuorum peer) {chain : List Attestation}
    (hchain : RecognitionChain ctx.index now trustedQuorum peer chain) :
    ∀ c ∈ chain, CertSigned X ctx now trustedQuorum c := by
  obtain ⟨agent,rest,rfl,habout,hlive,hrest⟩ := hchain
  exact List.forall_mem_cons.mpr ⟨h.agents agent habout hlive,
    h.controllerChain hrest (.issuer habout hlive)⟩

end Signed

/-- The answer that recognition owes: a live chain to the trusted quorum, all of it signed. -/
def SignedChain (X : Platform) (ctx : QuorumCtx) (now : ℕ) (trustedQuorum peer : Hash) : Prop :=
  ∃ chain, RecognitionChain ctx.index now trustedQuorum peer chain ∧
    ∀ c ∈ chain, CertSigned X ctx now trustedQuorum c

/-- Where the certificates in reach are signed, recognition rests on a signed chain, and so
do the grants that a policy gives to recognized peers only. -/
theorem recognition_rests_on_signatures (X : Platform) (ctx : QuorumCtx) (now steps depth : ℕ)
    (trustedQuorum peer : Hash) (hreach : ReachSigned X ctx now trustedQuorum peer) :
    (recognizeIdentityCert ctx.index now steps peer trustedQuorum depth = some true →
      SignedChain X ctx now trustedQuorum peer) ∧
    ∀ localPeerId grants, readTrustedQuorum X ctx.toAttestationCtx localPeerId = some trustedQuorum →
      (readPolicy X ctx.toAttestationCtx localPeerId).unknownPeer = modeRecognizeOnAttestation →
      (readPolicy X ctx.toAttestationCtx localPeerId).identityRequired = true →
      resolveGrants X ctx.toAttestationCtx localPeerId now steps peer = some (some grants) →
      SignedChain X ctx now trustedQuorum peer := by
  have hsigned : ∀ maxDepth,
      recognizeIdentityCert ctx.index now steps peer trustedQuorum maxDepth = some true →
        SignedChain X ctx now trustedQuorum peer := by
    intro maxDepth hrecognized
    obtain ⟨chain,hchain⟩ := recognize_finds_chain hrecognized
    exact ⟨chain,hchain,hreach.chain hchain⟩
  refine ⟨hsigned depth,?_⟩
  intro localPeerId grants hquorum hmode hrequired hgrants
  apply hsigned defaultMaxChainDepth
  unfold resolveGrants recognized at hgrants
  dsimp only at hgrants
  rw [hmode,hquorum,hrequired] at hgrants
  have hother : modeRecognizeOnAttestation ≠ modeAnonymousAllow := by decide +kernel
  rw [if_neg hother,if_pos rfl] at hgrants
  split at hgrants
  · cases hgrants
  · split at hgrants
    · cases hgrants
    · obtain ⟨known,hknown,hgiven⟩ := Option.map_eq_some_iff.mp hgrants
      cases known with
      | true => exact hknown
      | false => simp at hgiven

namespace RecognitionSample

open Sample IdentitySample

/-- Bob is the quorum's controller and carol is bob's agent; nothing is signed. -/
def unsigned : QuorumCtx := {peer [bobController,carolAgent] with included := []}

/-- The same, with the signatures bound at their pointer paths. -/
def signed : QuorumCtx := {unsigned with
  contentStore := ⟨[alice,bob,carol,dave,quorumEntity,bobController.sigEntity,carolAgent.sigEntity]⟩
  locationIndex := ⟨[bobController,carolAgent].foldl (fun tree i => tree.insert
    ("/".toList++aliceId++ "/system/signature/".toList++i.att.1.toHex) i.sigEntity.contentHash)
    unsigned.locationIndex.paths⟩}

theorem certs_single {ctx : QuorumCtx} (hindex : ctx.index = unsigned.index) {function : Str}
    {subject : Hash} {cert : Hash × Hash} (hcerts : (certsFor unsigned.index function subject).map
      (fun c => (c.1,c.2.attesting)) = [cert]) {c : Attestation}
    (h : c ∈ certsFor ctx.index function subject) : (c.1,c.2.attesting) = cert := by
  rw [hindex] at h
  have hc := List.mem_map_of_mem (f := fun c : Attestation => (c.1,c.2.attesting)) h
  rw [hcerts] at hc
  exact List.mem_singleton.mp hc

/-- Both contexts have the same certificates, and what the signatures of the one come to. -/
theorem evaluated_recognition :
    ((certsFor unsigned.index functionAgent carol.contentHash).map (fun c => (c.1,c.2.attesting)) =
        [(carolAgent.att.1,bob.contentHash)] ∧
      (certsFor unsigned.index functionController bob.contentHash).map
        (fun c => (c.1,c.2.attesting)) = [(bobController.att.1,quorumId)]) ∧
    (recognizeIdentityCert unsigned.index 1 9 carol.contentHash quorumId defaultMaxChainDepth =
        some true ∧
      verifySpecificSigner identityCrates unsigned.toAttestationCtx carolAgent.att.1 bob.contentHash =
        false) ∧
    recognizeIdentityCert signed.index 1 9 carol.contentHash quorumId defaultMaxChainDepth =
      some true ∧
    verifySpecificSigner identityCrates signed.toAttestationCtx carolAgent.att.1 bob.contentHash =
      true ∧
    (currentSignerSet identityCrates signed 1 9 quorumId).bind Except.toOption =
      some ⟨[alice.contentHash],1⟩ ∧
    verifyKOfNSignatures identityCrates signed bobController.att.1 [alice.contentHash] 1 = true ∧
    bob.contentHash ≠ quorumId := by decide +kernel

theorem agents_of_carol {ctx : QuorumCtx} (hindex : ctx.index = unsigned.index) {c : Attestation}
    (h : c ∈ certsFor ctx.index functionAgent carol.contentHash) :
    (c.1,c.2.attesting) = (carolAgent.att.1,bob.contentHash) :=
  certs_single hindex evaluated_recognition.1.1 h

theorem controllers_of_bob {ctx : QuorumCtx} (hindex : ctx.index = unsigned.index) {c : Attestation}
    (h : c ∈ certsFor ctx.index functionController bob.contentHash) :
    (c.1,c.2.attesting) = (bobController.att.1,quorumId) :=
  certs_single hindex evaluated_recognition.1.2 h

/-- The walk sees bob only. -/
theorem visits_bob {p : Hash}
    (h : Visited signed.index 1 quorumId carol.contentHash p) : p = bob.contentHash := by
  induction h with
  | issuer about _ => exact (Prod.mk.inj (agents_of_carol rfl about)).2
  | above _ about _ below ih =>
    rw [ih] at about
    exact absurd (Prod.mk.inj (controllers_of_bob rfl about)).2 below

theorem alice_signs : ∃ set, currentSignerSet identityCrates signed 1 9 quorumId = some (.ok set) ∧
    set.Signed identityCrates signed bobController.att.1 := by
  obtain ⟨-,-,-,-,hset,hsigned,-⟩ := evaluated_recognition
  obtain ⟨answer,hanswer,hok⟩ := Option.bind_eq_some_iff.mp hset
  cases answer with
  | error e => cases hok
  | ok set =>
    refine ⟨set,hanswer,?_⟩
    rw [Option.some.inj hok,SignerSet.Signed,← verifyKOfN_iff]
    exact hsigned

end RecognitionSample

open RecognitionSample IdentitySample Sample

/-- Nobody has signed anything, and carol is recognized. -/
theorem unsigned_chain_recognized :
    ¬∀ (X : Platform) (ctx : QuorumCtx) (now steps depth : ℕ) (trustedQuorum peer : Hash),
      recognizeIdentityCert ctx.index now steps peer trustedQuorum depth = some true →
      SignedChain X ctx now trustedQuorum peer := by
  intro h
  obtain ⟨-,⟨hrecognized,hnone⟩,-,-,-,-,hother⟩ := evaluated_recognition
  obtain ⟨chain,⟨agent,rest,rfl,habout,-,-⟩,hall⟩ := h identityCrates unsigned 1 9 defaultMaxChainDepth
    quorumId carol.contentHash hrecognized
  obtain ⟨hhash,hattesting⟩ := Prod.mk.inj (agents_of_carol rfl habout)
  have hsigned := hall agent List.mem_cons_self
  rw [CertSigned,hhash,hattesting,if_neg hother,hnone] at hsigned
  cases hsigned

theorem recognition_rests_on_signatures_sample :
    recognizeIdentityCert signed.index 1 9 carol.contentHash quorumId defaultMaxChainDepth =
      some true ∧ SignedChain identityCrates signed 1 quorumId carol.contentHash := by
  obtain ⟨-,-,hrecognized,hagent,-,-,hother⟩ := evaluated_recognition
  refine ⟨hrecognized,(recognition_rests_on_signatures identityCrates signed 1 9 defaultMaxChainDepth
    quorumId carol.contentHash ⟨?_,?_⟩).1 hrecognized⟩
  · intro c hc _
    obtain ⟨hhash,hattesting⟩ := Prod.mk.inj (agents_of_carol rfl hc)
    rw [CertSigned,hhash,hattesting,if_neg hother]
    exact hagent
  · intro p hp c hc _
    rw [visits_bob hp] at hc
    obtain ⟨hhash,hattesting⟩ := Prod.mk.inj (controllers_of_bob rfl hc)
    rw [CertSigned,hhash,hattesting,if_pos rfl]
    exact ⟨9,alice_signs⟩

end EntityCore
