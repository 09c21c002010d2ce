import EntityCore.Quorum

/-! Identity certificates: which signatures an attestation of the identity extension needs,
who may revoke it, and the verification of a certificate up its chain to a quorum. -/
namespace EntityCore

open Ecf Outcome Strings Worklist

def kindIdentityCert : Str := "identity-cert".toList
def kindIdentityRotationHandoff : Str := "identity-rotation-handoff".toList
def kindIdentityRotationRecovery : Str := "identity-rotation-recovery".toList
def kindIdentityRetirement : Str := "identity-retirement".toList

def identityLifecycleKinds : List Str :=
  [kindIdentityRotationHandoff,kindIdentityRotationRecovery,kindIdentityRetirement]

def functionController : Str := "controller".toList
def functionAgent : Str := "agent".toList
def functionIdentifier : Str := "identifier".toList

inductive CertFunction where
  | controller | agent | identifier
  deriving DecidableEq

/-- Other texts are functions an application defines. -/
def CertFunction.parseOptional (s : Str) : Option CertFunction :=
  if s = functionController then some .controller
  else if s = functionAgent then some .agent
  else if s = functionIdentifier then some .identifier
  else none

/-! Properties. -/

/-- The first `function` that is a text. -/
def readFunction (att : AttestationData) : Option Str :=
  att.properties.findSome? fun kv =>
    if kv.1.asText = some "function".toList then kv.2.asText else none

def lookupTargetCert (index : AttestationIndex) (att : AttestationData) : Option AttestationData := do
  let v ← getField att.properties "target_cert"
  let bytes ← v.asBytes
  let hash ← (Hash.fromBytes bytes).toOption
  index.get hash

/-- Whether an attestation gives its peer a function; a rotation gives that of its target. -/
def identityConfersFunction (index : AttestationIndex) (functionName : Str) :
    ℕ → AttestationData → Option Bool
  | 0, _ => none
  | n+1, att => match att.kind with
    | none => some false
    | some kind =>
      if kind = kindIdentityCert then some (readFunction att = some functionName)
      else if kind = kindIdentityRotationHandoff ∨ kind = kindIdentityRotationRecovery then
        match lookupTargetCert index att with
        | some target => identityConfersFunction index functionName n target
        | none => some false
      else some false

/-! Topology: the signatures an attestation needs. -/

inductive Topology where
  | single (expectedSigner : Hash)
  | dual (signers : List Hash)
  | kOfN (signers : List Hash) (threshold : ℕ)

inductive VerifyCertError where
  | notIdentity
  | invalidFunction
  | invalidSignature
  | notLive
  | authorityRevoked
  | kOfNFailed
  | wrongSigner
  | missingDualSig (signer : Hash)
  | chainToQuorumNotFound
  | chainLinkInvalid (cause : VerifyCertError)
  | topologyDispatchFailed (why : String)

/-- Verification runs in steps and may refuse. -/
abbrev Verifying : Type → Type := ExceptT VerifyCertError Option

section Verification

variable (X : Platform) (ctx : QuorumCtx) (now steps : ℕ)

def identityIsQuorumLink (att : AttestationData) : Bool := isQuorumId ctx att.attesting

/-- K of N of the attesting quorum's set. -/
def quorumTopology (att : AttestationData) : Option (Option Topology) :=
  (currentSignerSet X ctx now steps att.attesting).map fun answer =>
    answer.toOption.map fun set => .kOfN set.signers set.threshold

def identityTopologyFor (att : AttestationData) : Option (Option Topology) :=
  match att.kind with
  | none => some none
  | some kind =>
    if kind = kindIdentityCert then
      match (readFunction att).bind CertFunction.parseOptional with
      | some .controller =>
        if identityIsQuorumLink ctx att then quorumTopology X ctx now steps att
        else some (some (.single att.attesting))
      | _ => some (some (.single att.attesting))
    else if kind = kindIdentityRotationHandoff then
      some (some (.dual [att.attesting,att.attested]))
    else if kind = kindIdentityRotationRecovery ∨ kind = kindIdentityRetirement then
      quorumTopology X ctx now steps att
    else some none

/-- Why no topology was found, in words. -/
def diagnoseTopologyFailure (att : AttestationData) : Option String :=
  let signerSet := (currentSignerSet X ctx now steps att.attesting).map fun answer =>
    match answer with
    | .ok _ => "current_signer_set_ok_but_topology_for_returned_none_unexpected"
    | .error e => "current_signer_set_failed: "++e.display
  match att.kind with
  | none => some "missing_kind"
  | some kind =>
    let function := (readFunction att).bind CertFunction.parseOptional
    if kind = kindIdentityCert ∧ function = some .controller then
      if !identityIsQuorumLink ctx att then
        some "controller_no_quorum_link_but_topology_for_returned_none_unexpected"
      else signerSet
    else if kind = kindIdentityRotationRecovery ∨ kind = kindIdentityRetirement then signerSet
    else
      let shown := match function with
        | none => "None"
        | some .controller => "Some(Controller)"
        | some .agent => "Some(Agent)"
        | some .identifier => "Some(Identifier)"
      some ("unhandled_kind_function: kind="++String.ofList kind++ " function="++shown)

def checkDual (attHash : Hash) : List Hash → Except VerifyCertError Unit
  | [] => .ok ()
  | signer::rest =>
    if verifySpecificSigner X ctx.toAttestationCtx attHash signer then checkDual attHash rest
    else .error (.missingDualSig signer)

def checkTopology (att : Attestation) : Topology → Except VerifyCertError Unit
  | .kOfN signers threshold => ensure (verifyKOfNSignatures X ctx att.1 signers threshold) .kOfNFailed
  | .single expectedSigner => do
    ensure (att.2.attesting = expectedSigner) .wrongSigner
    ensure (verifyAttestationSignature X ctx.toAttestationCtx att) .invalidSignature
  | .dual signers => checkDual X ctx att.1 signers

/-- The signatures an attestation needs are there. -/
def verifySignatures (att : Attestation) : Verifying Unit :=
  ExceptT.mk <| match identityTopologyFor X ctx now steps att.2 with
    | none => none
    | some none => (diagnoseTopologyFailure X ctx now steps att.2).map fun why =>
        .error (.topologyDispatchFailed why)
    | some (some topology) => some (checkTopology X ctx att topology)

def requireLive (att : Attestation) : Verifying Unit :=
  ExceptT.mk <| (isAttestationLive ctx.index now steps att).map fun live =>
    ensure live VerifyCertError.notLive

/-- The attestations from one up to the first that a quorum attests. -/
def chainToQuorum (att : Attestation) : Option (Option (List Attestation)) :=
  walkAttestingChainDefault ctx.index now steps (identityIsQuorumLink ctx) att

/-- The party at the top of a chain. -/
def rootOf (chain : List Attestation) : Option Hash := chain.getLast?.map fun e => e.2.attesting

/-- Only the quorum at the root of the certificate's chain may revoke it. -/
def identityIsAuthorizedRevoker (revoker : Hash) (target : Attestation) : Option Bool :=
  (chainToQuorum ctx now steps target).map fun chain =>
    (chain.bind rootOf).any fun quorumId => revoker = quorumId

/-- A live revocation by whoever may revoke. -/
def authorityRevoked (att : Attestation) : Option Bool :=
  anyOpt (fun r => match isAttestationLive ctx.index now steps r with
    | none => none
    | some false => some false
    | some true => identityIsAuthorizedRevoker ctx now steps r.2.attesting att)
    (ctx.index.findRevocationsFor att.1)

def requireUnrevoked (att : Attestation) : Verifying Unit :=
  ExceptT.mk <| (authorityRevoked ctx now steps att).map fun revoked =>
    ensure (!revoked) VerifyCertError.authorityRevoked

/-- One link, without a walk of its own. -/
def identityVerifyCertNoChain (att : Attestation) : Verifying Unit := do
  requireLive ctx now steps att
  verifySignatures X ctx now steps att

def verifyLinks : List Attestation → Verifying Unit
  | [] => pure ()
  | link::rest => do
    ExceptT.adapt VerifyCertError.chainLinkInvalid (identityVerifyCertNoChain X ctx now steps link)
    verifyLinks rest

/-- A kind of the identity extension, and for a certificate some function. -/
def checkStructure (att : AttestationData) : Except VerifyCertError Unit := do
  let kind ← okOr att.kind .notIdentity
  ensure (kind = kindIdentityCert ∨ kind ∈ identityLifecycleKinds) .notIdentity
  if kind = kindIdentityCert then
    ensure ((readFunction att).any fun f => !f.isEmpty) .invalidFunction
  else .ok ()

def verifyChain (att : Attestation) : Verifying Unit := do
  if identityIsQuorumLink ctx att.2 then pure ()
  else do
    let found ← ExceptT.lift (chainToQuorum ctx now steps att)
    match found with
    | none => throw .chainToQuorumNotFound
    | some chain => verifyLinks X ctx now steps chain.tail

def identityVerifyCert (att : Attestation) : Verifying Unit := do
  ExceptT.mk (some (checkStructure att.2))
  requireLive ctx now steps att
  requireUnrevoked ctx now steps att
  verifySignatures X ctx now steps att
  verifyChain X ctx now steps att

/-- The peer that gets a controller capability when an attestation is processed; nobody
does without grants in the peer's configuration. -/
def controllerCapFor (grantsConfigured : Bool) (attestationHash : Hash) : Option (Option Hash) :=
  match ctx.index.get attestationHash with
  | none => some none
  | some att =>
    if att.kind ≠ some kindIdentityCert then some none
    else (identityVerifyCert X ctx now steps (attestationHash,att)).run.map fun answer =>
      if answer.isOk ∧ readFunction att = some functionController ∧ grantsConfigured then
        some att.attested
      else none

end Verification

/-! What acceptance says. -/

section Acceptance

variable {X : Platform} {ctx : QuorumCtx} {now steps : ℕ}

/-- The verification has ended with yes. -/
def Verifying.Accepts {α : Type} (m : Verifying α) (a : α) : Prop := m.run = some (.ok a)

theorem Verifying.bind_accepts {α β : Type} {m : Verifying α} {f : α → Verifying β} {b : β} :
    (m >>= f).Accepts b ↔ ∃ a, m.Accepts a ∧ (f a).Accepts b := by
  unfold Verifying.Accepts
  rw [ExceptT.run_bind]
  cases hm : m.run with
  | none => simp
  | some r => cases r with
    | error e => simp
    | ok a => simp

theorem Verifying.seq_accepts {β : Type} {m : Verifying Unit} {f : Unit → Verifying β} {b : β} :
    (m >>= f).Accepts b ↔ m.Accepts () ∧ (f ()).Accepts b := by
  rw [Verifying.bind_accepts]
  constructor
  · rintro ⟨u,hm,hf⟩
    exact ⟨hm,hf⟩
  · rintro ⟨hm,hf⟩
    exact ⟨(),hm,hf⟩

theorem requireLive_accepts {att : Attestation} : (requireLive ctx now steps att).Accepts () ↔
      isAttestationLive ctx.index now steps att = some true := by
  unfold Verifying.Accepts requireLive
  cases isAttestationLive ctx.index now steps att with
  | none => simp
  | some live => cases live <;> simp [ensure]

theorem requireUnrevoked_accepts {att : Attestation} :
    (requireUnrevoked ctx now steps att).Accepts () ↔
      authorityRevoked ctx now steps att = some false := by
  unfold Verifying.Accepts requireUnrevoked
  cases authorityRevoked ctx now steps att with
  | none => simp
  | some revoked => cases revoked <;> simp [ensure]

theorem verifySignatures_accepts {att : Attestation} :
    (verifySignatures X ctx now steps att).Accepts () ↔ ∃ topology,
      identityTopologyFor X ctx now steps att.2 = some (some topology) ∧
      checkTopology X ctx att topology = .ok () := by
  unfold Verifying.Accepts verifySignatures
  cases identityTopologyFor X ctx now steps att.2 with
  | none => simp
  | some found => cases found with
    | none => simp
    | some topology => simp

theorem verifyLinks_accepts {links : List Attestation} :
    (verifyLinks X ctx now steps links).Accepts () ↔
      ∀ link ∈ links, (identityVerifyCertNoChain X ctx now steps link).Accepts () := by
  induction links with
  | nil => exact ⟨fun _ => by simp,fun _ => rfl⟩
  | cons link links ih =>
    have hadapt : ∀ m : Verifying Unit,
        Verifying.Accepts (ExceptT.adapt VerifyCertError.chainLinkInvalid m) () ↔ m.Accepts () := by
      intro m
      unfold Verifying.Accepts
      rw [ExceptT.run_adapt]
      cases m.run with
      | none => simp
      | some r => cases r <;> simp [Except.mapError]
    unfold verifyLinks
    rw [Verifying.seq_accepts,hadapt,ih,List.forall_mem_cons]

/-- A certificate that is accepted is live, unrevoked by its root, signed as its kind needs,
and every link of its chain is live and signed. -/
theorem identityVerifyCert_accepts {att : Attestation}
    (h : (identityVerifyCert X ctx now steps att).Accepts ()) :
    isAttestationLive ctx.index now steps att = some true ∧
    authorityRevoked ctx now steps att = some false ∧
    (verifySignatures X ctx now steps att).Accepts () ∧
    ∃ chain, chainToQuorum ctx now steps att = some (some chain) ∧
      ∀ link ∈ chain.tail, (identityVerifyCertNoChain X ctx now steps link).Accepts () := by
  unfold identityVerifyCert at h
  rw [Verifying.seq_accepts,Verifying.seq_accepts,Verifying.seq_accepts,Verifying.seq_accepts,
    requireLive_accepts,requireUnrevoked_accepts] at h
  obtain ⟨-,hlive,hunrevoked,hsigned,hchain⟩ := h
  refine ⟨hlive,hunrevoked,hsigned,?_⟩
  unfold verifyChain at hchain
  by_cases hlink : identityIsQuorumLink ctx att.2 = true
  · have hself : chainToQuorum ctx now steps att = some (some [att]) := by
      unfold chainToQuorum walkAttestingChainDefault
      show walkAttestingChain _ _ _ _ (31+1) att = _
      unfold walkAttestingChain
      rw [if_pos hlink]
    exact ⟨[att],hself,by simp⟩
  · rw [if_neg hlink,Verifying.bind_accepts] at hchain
    obtain ⟨found,hfound,hlinks⟩ := hchain
    have hwalk : chainToQuorum ctx now steps att = some found := by
      unfold Verifying.Accepts at hfound
      rw [ExceptT.run_lift] at hfound
      simpa using hfound
    cases found with
    | none => cases hlinks
    | some chain => exact ⟨chain,hwalk,verifyLinks_accepts.mp hlinks⟩

end Acceptance

/-! Chains. -/

section Chains

variable {index : AttestationIndex} {now steps : ℕ} {terminate : AttestationData → Bool}

/-- A walked chain starts where it should, and its last link is the one that ends it. -/
theorem walkAttestingChain_some {depth : ℕ} {start : Attestation} {chain : List Attestation}
    (h : walkAttestingChain index now steps terminate depth start = some (some chain)) :
    ∃ rest, chain = start::rest ∧ ∃ top ∈ chain.getLast?, terminate top.2 = true := by
  induction depth generalizing start chain with
  | zero => cases h
  | succ depth ih =>
    unfold walkAttestingChain at h
    split_ifs at h with hend
    · obtain rfl : [start] = chain := Option.some.inj (Option.some.inj h)
      exact ⟨[],rfl,start,rfl,hend⟩
    · rw [Option.bind_eq_bind,Option.bind_eq_some_iff] at h
      obtain ⟨parent,-,h⟩ := h
      cases parent with
      | none => cases h
      | some parent =>
        dsimp only at h
        rw [Option.bind_eq_bind,Option.bind_eq_some_iff] at h
        obtain ⟨above,habove,hchain⟩ := h
        cases above with
        | none => cases hchain
        | some above =>
          obtain rfl : start::above = chain := Option.some.inj (Option.some.inj hchain)
          obtain ⟨rest,rfl,top,htop,hterm⟩ := ih habove
          exact ⟨parent::rest,rfl,top,by simpa using htop,hterm⟩

end Chains
end EntityCore
