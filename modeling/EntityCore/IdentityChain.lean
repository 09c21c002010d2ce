import EntityCore.IdentityCert
import EntityCore.SignerSets

/-! The links of an accepted certificate. The certificate itself, the links above it and the
top link are checked in different ways; what the checks leave open are revocations by the
root of links in between, and links that confer no office to issue. -/
namespace EntityCore

open Ecf Outcome Strings Worklist

/-! Revocations by the root. -/

section Revocations

variable {X : Platform} {ctx : QuorumCtx} {now steps : ℕ}

/-- No live revocation of the link is attested by `root`. -/
def Unrevoked (index : AttestationIndex) (now : ℕ) (root : Hash) (link : Attestation) : Prop :=
  ∀ r ∈ index.findRevocationsFor link.1, r.2.attesting = root → ¬Live index now r

/-- The links strictly between a certificate and the top of its chain. -/
def between (chain : List Attestation) : List Attestation := chain.tail.dropLast

/-- The certificate itself: the verifier asks about every revocation of it. -/
theorem leaf_unrevoked {att : Attestation} {chain : List Attestation} {root : Hash}
    (hrevoked : authorityRevoked ctx now steps att = some false)
    (hchain : chainToQuorum ctx now steps att = some (some chain))
    (hroot : rootOf chain = some root) : Unrevoked ctx.index now root att := by
  intro r hr hparty hlive
  have hasked := anyOpt_false hrevoked r hr
  have hrevoker : identityIsAuthorizedRevoker ctx now steps r.2.attesting att = some true := by
    unfold identityIsAuthorizedRevoker
    rw [hchain,Option.map_some,Option.bind_some,hroot]
    simp [hparty]
  cases hanswer : isAttestationLive ctx.index now steps r with
  | none =>
    rw [hanswer] at hasked
    cases hasked
  | some live => cases live with
    | false => exact not_live_of_false hanswer hlive
    | true =>
      rw [hanswer,hrevoker] at hasked
      cases hasked

/-- The top link is attested by the root, so that the root's revocations are its own. -/
theorem top_unrevoked {link : Attestation} {root : Hash} (hparty : link.2.attesting = root)
    (hlive : isAttestationLive ctx.index now steps link = some true) :
    Unrevoked ctx.index now root link := by
  intro r hr hrevoker
  have hlink : Live ctx.index now link := ⟨steps,hlive⟩
  exact hlink.not_self_revoked hr (hrevoker.trans hparty.symm)

end Revocations

/-- Of an accepted certificate, the chain is free of revocations by its root exactly if the
links strictly between the certificate and the top are. -/
theorem accepted_chain_unrevoked_iff (X : Platform) (ctx : QuorumCtx) (now steps : ℕ)
    (att : Attestation) (haccepted : (identityVerifyCert X ctx now steps att).Accepts ()) :
    ∃ chain root, chainToQuorum ctx now steps att = some (some chain) ∧
      rootOf chain = some root ∧ isQuorumId ctx root = true ∧
      ((∀ link ∈ chain, Unrevoked ctx.index now root link) ↔
        ∀ link ∈ between chain, Unrevoked ctx.index now root link) := by
  obtain ⟨-,hrevoked,-,chain,hchain,hlinks⟩ := identityVerifyCert_accepts haccepted
  obtain ⟨rest,hstart,top,htop,hquorum⟩ := walkAttestingChain_some hchain
  have hroot : rootOf chain = some top.2.attesting := by
    unfold rootOf
    rw [Option.mem_def.mp htop]
    rfl
  refine ⟨chain,top.2.attesting,hchain,hroot,hquorum,?_,?_⟩
  · intro hall link hlink
    exact hall link (List.mem_of_mem_tail (List.mem_of_mem_dropLast hlink))
  · intro hbetween link hlink
    rw [hstart] at hlink
    rcases List.mem_cons.mp hlink with rfl | hrest
    · exact leaf_unrevoked hrevoked hchain hroot
    · -- above the certificate: the last is the top, the others are in between
      have hne : rest ≠ [] := List.ne_nil_of_mem hrest
      have hlast : rest.getLast hne = top := by
        have hgot := Option.mem_def.mp htop
        rw [hstart,List.getLast?_cons_of_ne_nil hne,List.getLast?_eq_some_getLast hne] at hgot
        exact Option.some.inj hgot
      have htail : chain.tail = rest := by rw [hstart]; rfl
      have hparts := hrest
      rw [← List.dropLast_concat_getLast hne,List.mem_append,List.mem_singleton] at hparts
      rcases hparts with hmiddle | htopmost
      · exact hbetween link (by unfold between; rw [htail]; exact hmiddle)
      · have hverified := hlinks link (htail.symm ▸ hrest)
        unfold identityVerifyCertNoChain at hverified
        rw [Verifying.seq_accepts,requireLive_accepts] at hverified
        exact top_unrevoked (by rw [htopmost,hlast]) hverified.1

namespace IdentitySample

open Sample

def daveKey := ByteCode.beBytes 32
  0xe3ac9f597121d53ded167ea896c9dbbcab9f24f18021f3aac621dbb8c84eec6c
def dave := entity "system/peer" (peerValue daveKey)
  0xa6b2f453adb5b19d195d477c8e318b850e23f4a8483412cbf69bdec817048633

def quorumValue : Value := .map [(txt "signers",.array [.bytes alice.contentHash.toBytes]),
  (txt "threshold",uint 1)]

def quorumEntity := entity "system/quorum" quorumValue
  0x5acd43f6d5a69cd7122a34787605e1a9530e0c4b5a85f980c2f089b71b7e969b

def quorumId : Hash := quorumEntity.contentHash

/-- An attestation with the signature that was made over it. -/
structure Issued where
  att : Attestation
  signer : Entity
  key : Bytes
  signature : Bytes
  sigDigest : ℕ

def Issued.sigValue (i : Issued) : Value :=
  Sample.sigValue i.att.1 i.signer.contentHash i.signature
def Issued.sigEntity (i : Issued) : Entity := entity "system/signature" i.sigValue i.sigDigest

def certData (attesting attested : Hash) (function : String) : AttestationData :=
  ⟨attesting,attested,[(txt "function",txt function),(txt "kind",txt "identity-cert"),
    (txt "mode",txt "internal")],none,none,none⟩

def bobController : Issued where
  att := (sha256Hash 0x80745ce99ee31515d12c1150b712660f220e6219d588013d2d3252a489f1291f,
    certData quorumId bob.contentHash "controller")
  signer := alice
  key := aliceKey
  signature := ByteCode.beBytes 64
    0x8e91e8572e7cfcf6ad1474d4273e42ca9e25faa32d245b669bf1a765193e7de7a712986c252f22230fef3f342ff624ef56df6d1b02c34e61d8030fe25ca5330e
  sigDigest := 0x7eefe0fe83f7c8df4fd6066ba289a7d977b37d84a9eb269f332d44cf84e4d95e

def carolController : Issued where
  att := (sha256Hash 0x0434ccf18b9eef3211c28975cf29db951b910b7ceb839eef24710047a22f5819,
    certData bob.contentHash carol.contentHash "controller")
  signer := bob
  key := bobKey
  signature := ByteCode.beBytes 64
    0xafc65fbea683845fd82dc93031b087d4e7fc9bd2b5e7950a955f3e5eccb37efdf2c9d45a495d2b6a229e78ce3fbb225a8761b49f9b055f67bb5d6e5a5b33b006
  sigDigest := 0xd68dcf5f6228e9188ae034294d83da5993545375bfff0f836d255263666c5299

def carolAgent : Issued where
  att := (sha256Hash 0x2073b732f35c2c9b64bc92b92efb1f3cc8d338eb0382c39c3272ee40af9db2af,
    certData bob.contentHash carol.contentHash "agent")
  signer := bob
  key := bobKey
  signature := ByteCode.beBytes 64
    0x4702691874909fb25b49fc18eb0d171e3ead9b6b398211e42791533d81a63b0bb6ce525ad66a26ce165d5beec52c31b307030bde7cb02ddba66484f13246be06
  sigDigest := 0x75f1443bb4db417b2309d83b3ac9191d8402a0833c16145f95da0d05fe3001bf

def daveAgent : Issued where
  att := (sha256Hash 0xdd4be1f941fb136b467fd30d9ac5d17ed0925238506d715f42cb3f1f96770fa0,
    certData carol.contentHash dave.contentHash "agent")
  signer := carol
  key := carolKey
  signature := ByteCode.beBytes 64
    0xb19505e1eb34be57f9455e3c3a643ccef73bae116189b2d9c4a6290653e9793a145e14879f308018ef1ee613d15c39c073d941c5ffee1518be344ec7d62ef500
  sigDigest := 0xe3ded16aec3c6246f1c7e2d75ac8842e1661a6141dd61c6a4dbbee4ef791bea1

def daveController : Issued where
  att := (sha256Hash 0xa0a1a41e72eb77d0a3cea97add5693593cc36052dc97afa0f0ddd3050c034691,
    certData carol.contentHash dave.contentHash "controller")
  signer := carol
  key := carolKey
  signature := ByteCode.beBytes 64
    0xf8ecfd45a02128b4abdb13ee52afb2c441e67352d374fe6162fab7144d96e8e49a633e7f0833d156307c26b6fedbbd199685119cb6910870ef8df2a011872102
  sigDigest := 0x2845300d316486b3893c44ff51500db895c72fba9cd6de0df14986e75e7d24d4

/-- The quorum takes back what bob gave carol. -/
def revocation : Issued where
  att := (sha256Hash 0x67b00adf960ed26e9aaa3c827a777fc51670d3584b90c05b793c1dab421e717f,
    ⟨quorumId,carolController.att.1,[(txt "kind",txt "revocation")],none,none,none⟩)
  signer := alice
  key := aliceKey
  signature := ByteCode.beBytes 64
    0xe143081ce46ab080628bdb9896032f3dadd2473f1b9b47d2a86eb86ea099b023887a9340517b6fa6e908ad29bb81d4e45d385eaa491d2e43893e0929b8842d02
  sigDigest := 0xfe8302a98482c1737e7787dd1a9f651ca75f5f86a41e7690847f2025b1bf1ad0

def everything : List Issued :=
  [bobController,carolController,carolAgent,daveAgent,daveController,revocation]

def identityCrates : Platform := platform ([peerValue aliceKey,peerValue bobKey,peerValue carolKey,
  peerValue daveKey,quorumValue]++everything.map Issued.sigValue) []
  (everything.map fun i => (i.key,i.att.1.toBytes,i.signature))

/-- A peer that has indexed some attestations, each with its signature. -/
def peer (issued : List Issued) : QuorumCtx where
  index := issued.foldl (fun index i => index.insert i.att.1 i.att.2) .new
  contentStore := ⟨[alice,bob,carol,dave,quorumEntity]⟩
  locationIndex := ⟨OrderedMap.empty.insert ("/".toList++aliceId++ "/".toList++pathQuorum quorumId)
    quorumId⟩
  included := issued.map Issued.sigEntity
  resolvers := .empty
  signerSetCache := .empty

def accepts (issued : List Issued) (att : Attestation) : Bool :=
  match (identityVerifyCert identityCrates (peer issued) 1 12 att).run with
  | some (.ok ()) => true
  | _ => false

theorem accepted_of_accepts {issued : List Issued} {att : Attestation}
    (h : accepts issued att = true) :
    (identityVerifyCert identityCrates (peer issued) 1 12 att).Accepts () := by
  unfold accepts at h
  split at h
  · rename_i hrun
    exact hrun
  · cases h

/-- Dave's certificate below a link that the quorum has revoked, below two controllers and below
an agent. -/
theorem evaluated_chains :
    (accepts [bobController,carolController,daveAgent,revocation] daveAgent.att = true ∧
      (chainToQuorum (peer [bobController,carolController,daveAgent,revocation]) 1 12
        daveAgent.att).bind (fun found => found.map fun chain => (rootOf chain,chain.map Prod.fst)) =
          some (some quorumId,[daveAgent.att.1,carolController.att.1,bobController.att.1]) ∧
      revocation.att.2.kind = some kindRevocation) ∧
    (accepts [bobController,carolController,daveAgent] daveAgent.att = true ∧
      identityIsQuorumLink (peer [bobController,carolController,daveAgent]) daveAgent.att.2 = false ∧
      (chainToQuorum (peer [bobController,carolController,daveAgent]) 1 12 daveAgent.att).bind
        (fun found => found.map fun chain => (between chain).map Prod.fst) =
          some [carolController.att.1] ∧
      ((peer [bobController,carolController,daveAgent]).index.findRevocationsFor
        carolController.att.1).isEmpty = true ∧
      (chainToQuorum (peer [bobController,carolController,daveAgent]) 1 12 daveAgent.att).bind
        (fun found => found.map fun chain => chain.tail.map fun l => (l.2.kind,readFunction l.2)) =
          some [(some kindIdentityCert,some functionController),
            (some kindIdentityCert,some functionController)]) ∧
    accepts [bobController,carolAgent,daveController] daveController.att = true ∧
    identityIsQuorumLink (peer [bobController,carolAgent,daveController]) daveController.att.2 =
      false ∧
    (chainToQuorum (peer [bobController,carolAgent,daveController]) 1 12 daveController.att).bind
      (fun found => found.map fun chain => chain.tail.map fun l => (l.2.kind,readFunction l.2)) =
        some [(some kindIdentityCert,some functionAgent),
          (some kindIdentityCert,some functionController)] ∧
    controllerCapFor identityCrates (peer [bobController,carolAgent,daveController]) 1 12 true
      daveController.att.1 = some (some dave.contentHash) := by decide +kernel

end IdentitySample

open IdentitySample

/-- The quorum has revoked carol's certificate, and what carol issued is still accepted. -/
theorem revoked_link_accepted :
    ¬∀ (X : Platform) (ctx : QuorumCtx) (now steps : ℕ) (att : Attestation),
      (identityVerifyCert X ctx now steps att).Accepts () →
      ∀ chain root, chainToQuorum ctx now steps att = some (some chain) → rootOf chain = some root →
      ∀ link ∈ chain, Unrevoked ctx.index now root link := by
  intro h
  obtain ⟨⟨haccepts,hwalk,hbound⟩,-⟩ := evaluated_chains
  obtain ⟨found,hfound,hmap⟩ := Option.bind_eq_some_iff.mp hwalk
  obtain ⟨chain,rfl,hparts⟩ := Option.map_eq_some_iff.mp hmap
  obtain ⟨hroot,hhashes⟩ := Prod.mk.inj hparts
  have hmem : carolController.att.1 ∈ chain.map Prod.fst := by
    rw [hhashes]
    simp
  obtain ⟨link,hlink,hhash⟩ := List.mem_map.mp hmem
  have hrevoked : revocation.att ∈ (peer [bobController,carolController,daveAgent,
      revocation]).index.findRevocationsFor link.1 := by
    rw [hhash]
    exact AttestationIndex.mem_revocations.mpr ⟨rfl,rfl,hbound⟩
  exact h _ _ 1 12 _ (accepted_of_accepts haccepts) chain quorumId hfound hroot link hlink _ hrevoked rfl
    ⟨12,by decide⟩

theorem accepted_chain_unrevoked_iff_sample : ∃ chain root,
    chainToQuorum (peer [bobController,carolController,daveAgent]) 1 12 daveAgent.att =
      some (some chain) ∧ rootOf chain = some root ∧
    ∀ link ∈ chain, Unrevoked (peer [bobController,carolController,daveAgent]).index 1 root link := by
  obtain ⟨-,⟨haccepts,-,hwalk,hempty,-⟩,-⟩ := evaluated_chains
  obtain ⟨chain,root,hchain,hroot,-,hiff⟩ := accepted_chain_unrevoked_iff identityCrates
    (peer [bobController,carolController,daveAgent]) 1 12 daveAgent.att
    (accepted_of_accepts haccepts)
  refine ⟨chain,root,hchain,hroot,hiff.mpr ?_⟩
  intro link hlink
  rw [hchain] at hwalk
  have hmiddle : (between chain).map Prod.fst = [carolController.att.1] := Option.some.inj hwalk
  have hhash : link.1 ∈ (between chain).map Prod.fst := List.mem_map_of_mem hlink
  rw [hmiddle,List.mem_singleton] at hhash
  intro r hr
  have hnone : (peer [bobController,carolController,daveAgent]).index.findRevocationsFor
      carolController.att.1 = [] := List.isEmpty_iff.mp hempty
  rw [hhash,hnone] at hr
  cases hr

/-! Office. -/

section Office

variable (index : AttestationIndex)

/-- An attestation gives its peer a function, by itself or through what it rotates. -/
inductive Confers (functionName : Str) : AttestationData → Prop
  | cert {att : AttestationData} (isCert : att.kind = some kindIdentityCert)
      (function : readFunction att = some functionName) : Confers functionName att
  | rotation {att target : AttestationData} (isRotation : att.kind = some kindIdentityRotationHandoff ∨
        att.kind = some kindIdentityRotationRecovery)
      (found : lookupTargetCert index att = some target) (confers : Confers functionName target) :
      Confers functionName att

/-- Controllers and identifiers issue. -/
def HoldsOffice (att : AttestationData) : Prop :=
  Confers index functionController att ∨ Confers index functionIdentifier att

/-- No certificate of another function, no retirement, and no rotation of nothing. -/
structure MayIssue (att : AttestationData) : Prop where
  cert : att.kind = some kindIdentityCert →
    readFunction att = some functionController ∨ readFunction att = some functionIdentifier
  alive : att.kind ≠ some kindIdentityRetirement
  rotation : att.kind = some kindIdentityRotationHandoff ∨
    att.kind = some kindIdentityRotationRecovery →
      ∃ target, lookupTargetCert index att = some target ∧ HoldsOffice index target

variable {index}

theorem HoldsOffice.mayIssue {att : AttestationData} (h : HoldsOffice index att) :
    MayIssue index att := by
  have hcase : (att.kind = some kindIdentityCert ∧ (readFunction att = some functionController ∨
        readFunction att = some functionIdentifier)) ∨
      ((att.kind = some kindIdentityRotationHandoff ∨
          att.kind = some kindIdentityRotationRecovery) ∧
        ∃ target, lookupTargetCert index att = some target ∧ HoldsOffice index target) := by
    rcases h with h | h
    · cases h with
      | cert isCert function => exact .inl ⟨isCert,.inl function⟩
      | rotation isRotation found confers => exact .inr ⟨isRotation,_,found,.inl confers⟩
    · cases h with
      | cert isCert function => exact .inl ⟨isCert,.inr function⟩
      | rotation isRotation found confers => exact .inr ⟨isRotation,_,found,.inr confers⟩
  have hne : kindIdentityCert ≠ kindIdentityRotationHandoff ∧
      kindIdentityCert ≠ kindIdentityRotationRecovery ∧
      kindIdentityCert ≠ kindIdentityRetirement ∧
      kindIdentityRotationHandoff ≠ kindIdentityRetirement ∧
      kindIdentityRotationRecovery ≠ kindIdentityRetirement := by decide +kernel
  obtain ⟨h1,h2,h3,h4,h5⟩ := hne
  rcases hcase with ⟨hkind,hfunction⟩ | ⟨hkind,htarget⟩
  · refine ⟨fun _ => hfunction,?_,?_⟩
    · rw [hkind]
      exact fun he => h3 (Option.some.inj he)
    · rw [hkind]
      rintro (he | he)
      · exact absurd (Option.some.inj he) h1
      · exact absurd (Option.some.inj he) h2
  · refine ⟨?_,?_,fun _ => htarget⟩
    · intro hcert
      rw [hcert] at hkind
      rcases hkind with he | he
      · exact absurd (Option.some.inj he) h1
      · exact absurd (Option.some.inj he) h2
    · intro hretired
      rw [hretired] at hkind
      rcases hkind with he | he
      · exact absurd (Option.some.inj he).symm h4
      · exact absurd (Option.some.inj he).symm h5

/-- Only attestations of the identity extension have a topology. -/
theorem kind_of_topology {X : Platform} {ctx : QuorumCtx} {now steps : ℕ} {att : AttestationData}
    {topology : Topology} (h : identityTopologyFor X ctx now steps att = some (some topology)) :
    att.kind = some kindIdentityCert ∨ att.kind = some kindIdentityRotationHandoff ∨
      att.kind = some kindIdentityRotationRecovery ∨ att.kind = some kindIdentityRetirement := by
  unfold identityTopologyFor at h
  cases hkind : att.kind with
  | none =>
    rw [hkind] at h
    cases h
  | some kind =>
    rw [hkind] at h
    dsimp only at h
    by_cases hcert : kind = kindIdentityCert
    · exact .inl (congrArg some hcert)
    · by_cases hhandoff : kind = kindIdentityRotationHandoff
      · exact .inr (.inl (congrArg some hhandoff))
      · by_cases hquorum : kind = kindIdentityRotationRecovery ∨ kind = kindIdentityRetirement
        · rcases hquorum with hrecovery | hretired
          · exact .inr (.inr (.inl (congrArg some hrecovery)))
          · exact .inr (.inr (.inr (congrArg some hretired)))
        · rw [if_neg hcert,if_neg hhandoff,if_neg hquorum] at h
          cases h

theorem MayIssue.holdsOffice {att : AttestationData} (h : MayIssue index att)
    (hkind : att.kind = some kindIdentityCert ∨ att.kind = some kindIdentityRotationHandoff ∨
      att.kind = some kindIdentityRotationRecovery ∨ att.kind = some kindIdentityRetirement) :
    HoldsOffice index att := by
  have hrotation : att.kind = some kindIdentityRotationHandoff ∨
      att.kind = some kindIdentityRotationRecovery → HoldsOffice index att := by
    intro hrot
    obtain ⟨target,hfound,hoffice⟩ := h.rotation hrot
    rcases hoffice with hoffice | hoffice
    · exact .inl (.rotation hrot hfound hoffice)
    · exact .inr (.rotation hrot hfound hoffice)
  rcases hkind with hcert | hhandoff | hrecovery | hretired
  · rcases h.cert hcert with hf | hf
    · exact .inl (.cert hcert hf)
    · exact .inr (.cert hcert hf)
  · exact hrotation (.inl hhandoff)
  · exact hrotation (.inr hrecovery)
  · exact absurd hretired h.alive

end Office

/-- Above an accepted certificate that no quorum attests, every link holds an office that
issues exactly if none is a certificate of another function, a retirement, or a rotation
that leads to no such certificate. -/
theorem accepted_chain_in_office_iff (X : Platform) (ctx : QuorumCtx) (now steps : ℕ)
    (att : Attestation) (haccepted : (identityVerifyCert X ctx now steps att).Accepts ())
    (hpeer : identityIsQuorumLink ctx att.2 = false) :
    ∃ chain, chainToQuorum ctx now steps att = some (some chain) ∧ chain.tail ≠ [] ∧
      ((∀ link ∈ chain.tail, HoldsOffice ctx.index link.2) ↔
        ∀ link ∈ chain.tail, MayIssue ctx.index link.2) := by
  obtain ⟨-,-,-,chain,hchain,hlinks⟩ := identityVerifyCert_accepts haccepted
  obtain ⟨rest,rfl,top,htop,hquorum⟩ := walkAttestingChain_some hchain
  refine ⟨att::rest,hchain,?_,?_,?_⟩
  · rintro hnil
    obtain rfl : rest = [] := hnil
    obtain rfl : att = top := by simpa using htop
    rw [hpeer] at hquorum
    cases hquorum
  · intro hall link hlink
    exact (hall link hlink).mayIssue
  · intro hall link hlink
    have hverified := hlinks link hlink
    unfold identityVerifyCertNoChain at hverified
    rw [Verifying.seq_accepts,verifySignatures_accepts] at hverified
    obtain ⟨-,topology,htopology,-⟩ := hverified
    exact (hall link hlink).holdsOffice (kind_of_topology htopology)

/-- Carol holds an agent certificate only; the controller she appoints is accepted and gets
a controller capability. -/
theorem agent_appoints_controller :
    (¬∀ (X : Platform) (ctx : QuorumCtx) (now steps : ℕ) (att : Attestation),
      (identityVerifyCert X ctx now steps att).Accepts () →
      identityIsQuorumLink ctx att.2 = false →
      (readFunction att.2).any (fun f => (CertFunction.parseOptional f).isSome) = true →
      ∀ chain, chainToQuorum ctx now steps att = some (some chain) →
      ∀ link ∈ chain.tail, HoldsOffice ctx.index link.2) ∧
    controllerCapFor identityCrates (peer [bobController,carolAgent,daveController]) 1 12 true
      daveController.att.1 = some (some dave.contentHash) := by
  obtain ⟨-,-,haccepts,hpeer,hwalk,hcap⟩ := evaluated_chains
  refine ⟨?_,hcap⟩
  intro h
  obtain ⟨found,hfound,hmap⟩ := Option.bind_eq_some_iff.mp hwalk
  obtain ⟨chain,rfl,hparts⟩ := Option.map_eq_some_iff.mp hmap
  have hmem : (some kindIdentityCert,some functionAgent) ∈
      chain.tail.map fun l => (l.2.kind,readFunction l.2) := by
    rw [hparts]
    simp
  obtain ⟨link,hlink,hagent⟩ := List.mem_map.mp hmem
  obtain ⟨hkind,hfunction⟩ := Prod.mk.inj hagent
  have hoffice := h identityCrates (peer [bobController,carolAgent,daveController]) 1 12
    daveController.att (accepted_of_accepts haccepts) hpeer (by decide) chain hfound link hlink
  have hother := hoffice.mayIssue.cert hkind
  rw [hfunction] at hother
  revert hother
  decide

theorem accepted_chain_in_office_iff_sample : ∃ chain,
    chainToQuorum (peer [bobController,carolController,daveAgent]) 1 12 daveAgent.att =
      some (some chain) ∧ chain.tail ≠ [] ∧
    ∀ link ∈ chain.tail, HoldsOffice (peer [bobController,carolController,daveAgent]).index link.2 := by
  obtain ⟨-,⟨haccepts,hpeer,-,-,hwalk⟩,-⟩ := evaluated_chains
  obtain ⟨chain,hchain,hne,hiff⟩ := accepted_chain_in_office_iff identityCrates
    (peer [bobController,carolController,daveAgent]) 1 12 daveAgent.att
    (accepted_of_accepts haccepts) hpeer
  refine ⟨chain,hchain,hne,hiff.mpr ?_⟩
  intro link hlink
  rw [hchain] at hwalk
  have habove : (chain.tail.map fun l => (l.2.kind,readFunction l.2)) =
      [(some kindIdentityCert,some functionController),
        (some kindIdentityCert,some functionController)] := Option.some.inj hwalk
  have hparts : (link.2.kind,readFunction link.2) ∈
      chain.tail.map fun l => (l.2.kind,readFunction l.2) :=
    List.mem_map.mpr ⟨link,hlink,rfl⟩
  rw [habove] at hparts
  have hboth : (link.2.kind,readFunction link.2) =
      (some kindIdentityCert,some functionController) := by simpa using hparts
  obtain ⟨hkind,hfunction⟩ := Prod.mk.inj hboth
  exact HoldsOffice.mayIssue (.inl (.cert hkind hfunction))

end EntityCore
