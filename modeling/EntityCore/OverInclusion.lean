import EntityCore.Verify
import EntityCore.Delegation

/-! Adding entities to an envelope. Links, identities and parents are looked up by
hash and stay what they were; signatures are found by a scan, so an added one can
stand in front of the signature that verified before. -/
namespace EntityCore

open Ecf Outcome

variable {X : Platform}

/-- The first signature over `h` is made by the identity `g` and verifies. -/
structure FirstSignatureBy (X : Platform) (included : Included) (h g : Hash) (sig : Entity)
    (data : SignatureData) (identity : Entity) (peer : PeerData) : Prop where
  first : findSignatureForTarget X included.values h = some sig
  decoded : SignatureData.fromEntity X sig = .ok data
  signer : data.signer = g
  present : included.get g = some identity
  key : PeerData.fromEntity X identity = .ok peer
  verifies : peerDataSigOk X peer h.toBytes data.signature = true

def SignedFirstBy (X : Platform) (included : Included) (h g : Hash) : Prop :=
  ∃ sig data identity peer, FirstSignatureBy X included h g sig data identity peer

/-- Enough signers of a multi-signature have a first signature that verifies, the
local peer among them. -/
def QuorumSigned (X : Platform) (included : Included) (l : Str) (h : Hash) (m : MultiGranter) :
    Prop :=
  m.threshold ≤ (m.signers.filter fun s => (candidateSigned X included h s).isSome).length ∧
    ∃ s ∈ m.signers, ∃ p, candidateSigned X included h s = some p ∧ p.canonicalPeerId X = some l

def LinkSigned (X : Platform) (included : Included) (l : Str) (link : Link) : Prop :=
  match link.fields.granter with
  | .single g => SignedFirstBy X included link.entity.contentHash g
  | .multi m => QuorumSigned X included l link.entity.contentHash m

theorem verifyPeerDataSig_ok (p : PeerData) (m s : Bytes) :
    verifyPeerDataSig X p m s = .ok () ↔ peerDataSigOk X p m s = true := by
  simp only [verifyPeerDataSig,peerDataSigOk,bind_ok,mapErr_ok]
  cases KeyType.fromLabel p.keyType with
  | error e => simp
  | ok kt =>
    simp only [Except.ok.injEq,exists_eq_left']
    cases verifyForKeyType X kt p.publicKey m s <;> simp [Except.isOk,Except.toBool]

theorem verifySingle_iff {included : Included} {h g : Hash} {p : PeerData} :
    verifySingle X included h g = .ok p ↔
      ∃ sig data identity, FirstSignatureBy X included h g sig data identity p := by
  simp only [verifySingle,bind_ok,okOr_ok,mapErr_ok,pure_ok]
  constructor
  · rintro ⟨sig,hsig,data,hdata,_,hs,e,he,p',hp,_,hv,rfl⟩
    exact ⟨sig,data,e,hsig,hdata,by simpa [ensure] using hs,he,hp,(verifyPeerDataSig_ok _ _ _).mp hv⟩
  · rintro ⟨sig,data,e,hf⟩
    exact ⟨sig,hf.first,data,hf.decoded,(),by simp [ensure,hf.signer],e,hf.present,p,hf.key,(),
      (verifyPeerDataSig_ok _ _ _).mpr hf.verifies,rfl⟩

/-! The quorum as a count. -/

theorem countCandidates (X : Platform) (included : Included) (l : Str) (h : Hash)
    (signers : List Hash) (acc : MultiCount) (hd : (acc.seen++signers).Nodup) :
    let r := signers.foldl (countCandidate X included l h) acc
    r.valid = acc.valid+
        (signers.filter fun s => (candidateSigned X included h s).isSome).length ∧
      (r.localPeerSigned = true ↔ acc.localPeerSigned = true ∨
        ∃ s ∈ signers, ∃ p, candidateSigned X included h s = some p ∧
          p.canonicalPeerId X = some l) := by
  induction signers generalizing acc with
  | nil => simp
  | cons s signers ih =>
    have hs : s ∉ acc.seen := fun hm => List.disjoint_of_nodup_append hd hm (by simp)
    have hd' : ((acc.seen++[s])++signers).Nodup := by simpa using hd
    simp only [List.foldl_cons]
    cases hc : candidateSigned X included h s with
    | none =>
      have hstep : countCandidate X included l h acc s = { acc with seen := acc.seen++[s] } := by
        simp only [countCandidate,if_neg hs,hc]
      have hh := ih { acc with seen := acc.seen++[s] } hd'
      rw [hstep]
      simpa [hc] using hh
    | some p =>
      have hstep : countCandidate X included l h acc s = ⟨acc.seen++[s],acc.valid+1,
          acc.localPeerSigned || p.canonicalPeerId X = some l⟩ := by
        simp only [countCandidate,if_neg hs,hc]
      have hh := ih ⟨acc.seen++[s],acc.valid+1,
        acc.localPeerSigned || p.canonicalPeerId X = some l⟩ hd'
      rw [hstep]
      refine ⟨?_,?_⟩
      · rw [hh.1,List.filter_cons_of_pos (by simp [hc]),List.length_cons]
        dsimp only
        omega
      · rw [hh.2]
        simp only [Bool.or_eq_true,decide_eq_true_eq,List.exists_mem_cons_iff,hc,
          Option.some.injEq,exists_eq_left',or_assoc]

theorem verifyMulti_iff {included : Included} {l : Str} {h : Hash} {m : MultiGranter}
    (hd : m.signers.Nodup) :
    verifyMulti X included l h m = .ok () ↔ QuorumSigned X included l h m := by
  have hh := countCandidates X included l h m.signers ⟨[],0,false⟩ (by simpa using hd)
  simp only [verifyMulti,seq_ok,ensure_ok,decide_eq_true_eq,QuorumSigned]
  rw [hh.1,hh.2]
  simp

/-! What is looked up by hash does not change. -/

variable {chain : List Link} {M M' : Included}

section Grown

variable {M M' : Included} (hsub : M.Sub M')
include hsub

theorem collectFrom_mono {fuel : ℕ} {h : Hash}
    (hc : collectFrom X M.get fuel h = .ok chain) : collectFrom X M'.get fuel h = .ok chain := by
  induction fuel generalizing h chain with
  | zero => simp [collectFrom] at hc
  | succ fuel ih =>
    unfold collectFrom at hc ⊢
    cases he : M.get h with
    | none => simp [he] at hc
    | some e =>
      rw [hsub h e he]
      simp only [he] at hc ⊢
      cases hf : decodeCapabilityChainFields X e.data with
      | error err => simp [hf] at hc
      | ok fields =>
        simp only [hf] at hc ⊢
        cases hp : fields.parent with
        | none => simpa only [hp] using hc
        | some p =>
          simp only [hp,bind_ok,pure_ok] at hc ⊢
          obtain ⟨rest,hr,rfl⟩ := hc
          exact ⟨rest,ih hr,rfl⟩

theorem checkGrantee_mono {link : Link} (h : checkGrantee M link = .ok ()) :
    checkGrantee M' link = .ok () := by
  simp only [checkGrantee,bind_ok,okOr_ok] at h ⊢
  obtain ⟨e,he,ht⟩ := h
  exact ⟨e,hsub _ e he,ht⟩

theorem parentFrame_mono {l f : Str} {g : Granter} (h : parentFrame X M l g = .ok f) :
    parentFrame X M' l g = .ok f := by
  cases g with
  | multi m => exact h
  | single g =>
    simp only [parentFrame,bind_ok,okOr_ok] at h ⊢
    obtain ⟨e,he,hp⟩ := h
    exact ⟨e,hsub g e he,hp⟩

theorem verifyDelegation_mono {l : Str} {i : ℕ} {link parent : Link} {g : Hash} {p : PeerData}
    (h : verifyDelegation X M l i link parent g p = .ok ()) :
    verifyDelegation X M' l i link parent g p = .ok () := by
  simp only [verifyDelegation,bind_ok,mapErr_ok] at h ⊢
  obtain ⟨u,hu,ct,hct,pt,hpt,f,hf,hrest⟩ := h
  exact ⟨u,hu,ct,hct,pt,hpt,f,parentFrame_mono hsub hf,hrest⟩

/-- A verified level stays verified exactly when its signatures are still found. -/
theorem verifyLevel_grown {l : Str} {i : ℕ} {link : Link} {parent : Option Link}
    (hd : ∀ m, link.fields.granter = .multi m → m.signers.Nodup)
    (h : verifyLevel X M l i link parent = .ok ()) :
    verifyLevel X M' l i link parent = .ok () ↔ LinkSigned X M' l link := by
  cases hg : link.fields.granter with
  | multi m => simp only [verifyLevel,LinkSigned,hg,verifyMulti_iff (hd m hg)]
  | single g =>
    simp only [verifyLevel,LinkSigned,SignedFirstBy,hg,bind_ok] at h ⊢
    obtain ⟨p,hp,hrest⟩ := h
    obtain ⟨e,_,he,hpe,_⟩ := verifySingle_ok hp
    constructor
    · rintro ⟨p',hp',_⟩
      obtain ⟨sig,data,identity,hf⟩ := verifySingle_iff.mp hp'
      exact ⟨sig,data,identity,p',hf⟩
    · rintro ⟨sig,data,identity,p',hf⟩
      have hid : identity = e := Option.some.inj (hf.present.symm.trans (hsub g e he))
      have hpp : p' = p := Except.ok.inj (hf.key.symm.trans (by rw [hid]; exact hpe))
      subst hpp
      refine ⟨p',verifySingle_iff.mpr ⟨sig,data,identity,hf⟩,?_⟩
      cases parent with
      | none => exact hrest
      | some parent => exact verifyDelegation_mono hsub hrest

theorem verifyLevels_grown {l : Str} {i : ℕ}
    (hd : ∀ link ∈ chain, ∀ m, link.fields.granter = .multi m → m.signers.Nodup)
    (h : verifyLevels X M l i chain = .ok ()) :
    verifyLevels X M' l i chain = .ok () ↔ ∀ link ∈ chain, LinkSigned X M' l link := by
  induction chain generalizing i with
  | nil => simp [verifyLevels]
  | cons link rest ih =>
    simp only [List.forall_mem_cons] at hd
    rw [verifyLevels_cons] at h ⊢
    rw [verifyLevel_grown hsub hd.1 h.1,ih hd.2 h.2,List.forall_mem_cons]

end Grown

theorem multi_nodup (h : checkMultiPositions chain = .ok ()) :
    ∀ link ∈ chain, ∀ m, link.fields.granter = .multi m → m.signers.Nodup := by
  induction chain with
  | nil => simp
  | cons link rest ih =>
    simp only [checkMultiPositions,seq_ok] at h
    refine List.forall_mem_cons.mpr ⟨?_,ih h.2⟩
    intro m hm
    have hh := h.1
    simp only [checkMultiPosition,hm,seq_ok,mapErr_ok] at hh
    have hv := hh.2.2
    unfold MultiGranter.validate at hv
    by_contra hnd
    simp only [hnd,not_false_eq_true,if_true] at hv
    split_ifs at hv

theorem chain_grown {h : Hash} {l : Str} {now : ℕ} (hsub : M.Sub M') (hca : ContentAddressed M')
    (hwalk : collectAuthorityChain X h M.get = .ok chain)
    (hacc : verifyCapabilityChain X h M l now = .ok ()) :
    verifyCapabilityChain X h M' l now = .ok () ↔ ∀ link ∈ chain, LinkSigned X M' l link := by
  obtain ⟨_,chain',hwalk',hfmt,hgr,ht,hpat,hm,hl⟩ := verifyCapabilityChain_ok.mp hacc
  obtain rfl : chain' = chain := Except.ok.inj (hwalk'.symm.trans hwalk)
  have hlevels := verifyLevels_grown hsub (multi_nodup hm) hl
  have hwalk₂ : collectAuthorityChain X h M'.get = .ok chain' := collectFrom_mono hsub hwalk'
  rw [← hlevels,verifyCapabilityChain_ok]
  constructor
  · rintro ⟨_,chain₂,hw,_,_,_,_,_,hl₂⟩
    obtain rfl : chain₂ = chain' := Except.ok.inj (hw.symm.trans hwalk₂)
    exact hl₂
  · intro hl₂
    exact ⟨(keyBinding_ok M').mpr hca,chain',hwalk₂,hfmt,
      fun link hm => checkGrantee_mono hsub (hgr link hm),ht,hpat,hm,hl₂⟩

/-! The same for a whole request. -/

theorem verifyEntities_ok (env : Envelope) : verifyEntities X env = .ok () ↔
    env.root.validate X = .ok () ∧ (∀ e ∈ env.included.values, e.validate X = .ok ()) ∧
      ContentAddressed env.included := by
  have hsupported : ∀ h : Hash, (Hash.digestLenForFormat h.algorithm).isSome = true := by
    intro h
    rw [h.digest_length]
    rfl
  simp only [verifyEntities,seq_ok,ensure_ok,hsupported,forEach_ok,mapErr_ok,keyBinding_ok,
    true_and,implies_true]

theorem verifyAuthor_iff (env : Envelope) (a : Hash) : verifyAuthor X env a = .ok () ↔
    SignedFirstBy X env.included env.root.contentHash a := by
  simp only [verifyAuthor,bind_ok,okOr_ok,mapErr_ok,SignedFirstBy,Envelope.findIncluded]
  constructor
  · rintro ⟨sig,hsig,data,hdata,_,hs,e,he,_,_,p,hp,hv⟩
    exact ⟨sig,data,e,p,hsig,hdata,by simpa [ensure] using hs,he,hp,
      (verifyPeerDataSig_ok _ _ _).mp hv⟩
  · rintro ⟨sig,data,e,p,hf⟩
    exact ⟨sig,hf.first,data,hf.decoded,(),by simp [ensure,hf.signer],e,hf.present,(),
      by simp [ensure,fromEntity_type hf.key],p,hf.key,(verifyPeerDataSig_ok _ _ _).mpr hf.verifies⟩

theorem verifyCapability_mono {root : Entity} {a c : Hash} {now : ℕ}
    {t : CapabilityToken} (hsub : M.Sub M') (h : verifyCapability X ⟨root,M⟩ a c now = .ok t) :
    verifyCapability X ⟨root,M'⟩ a c now = .ok t := by
  simp only [verifyCapability,bind_ok,okOr_ok,mapErr_ok,Envelope.findIncluded] at h ⊢
  obtain ⟨e,he,_,ht,token,htoken,_,hg,hrest⟩ := h
  refine ⟨e,hsub c e he,(),ht,token,htoken,(),?_,hrest⟩
  rw [ensure_ok] at hg ⊢
  cases hge : M.get token.grantee with
  | none => simp [hge] at hg
  | some g => simpa [hsub _ g hge,hge] using hg

theorem request_grown {root : Entity} {l : Str} {now chainNow : ℕ}
    {r : VerifiedRequest} (hsub : M.Sub M') (hca : ContentAddressed M')
    (hvalid : ∀ k e, M'.get k = some e → e.validate X = .ok ())
    (hacc : verifyRequest X ⟨root,M⟩ l now chainNow = .ok r)
    (hwalk : collectAuthorityChain X r.capabilityHash M.get = .ok chain) :
    verifyRequest X ⟨root,M'⟩ l now chainNow = .ok r ↔
      SignedFirstBy X M' root.contentHash r.authorHash ∧ ∀ link ∈ chain, LinkSigned X M' l link := by
  simp only [verifyRequest,bind_ok,okOr_ok,pure_ok] at hacc ⊢
  obtain ⟨_,hent,fields,hfields,a,ha,c,hc,_,_,t,ht,_,hchain,rfl⟩ := hacc
  have hent' : verifyEntities X ⟨root,M'⟩ = .ok () := by
    refine (verifyEntities_ok _).mpr ⟨((verifyEntities_ok _).mp hent).1,?_,hca⟩
    intro e he
    obtain ⟨k,hk⟩ := (OrderedMap.mem_values M' e).mp he
    exact hvalid k e hk
  have hgrown := chain_grown hsub hca hwalk hchain
  have hauthor := verifyAuthor_iff (X := X) ⟨root,M'⟩ a
  constructor
  · rintro ⟨_,_,fields',hf',a',ha',c',hc',_,hau,t',_,_,hch,hr⟩
    obtain rfl : fields' = fields := Except.ok.inj (hf'.symm.trans hfields)
    obtain rfl : a' = a := Option.some.inj (ha'.symm.trans ha)
    obtain rfl : c' = c := Option.some.inj (hc'.symm.trans hc)
    exact ⟨hauthor.mp hau,hgrown.mp hch⟩
  · rintro ⟨hau,hlinks⟩
    exact ⟨(),hent',fields,hfields,a,ha,c,hc,(),hauthor.mpr hau,t,verifyCapability_mono hsub ht,(),
      hgrown.mpr hlinks,rfl⟩

/-- Acceptance survives added entities exactly when the scans still meet, for every
link and for the request, a first signature of the right signer that verifies. -/
theorem overInclusion_iff (X : Platform) (M M' : Included) (hsub : M.Sub M')
    (hca : ContentAddressed M') : (∀ h l now chain, collectAuthorityChain X h M.get = .ok chain →
      verifyCapabilityChain X h M l now = .ok () →
      (verifyCapabilityChain X h M' l now = .ok () ↔ ∀ link ∈ chain, LinkSigned X M' l link)) ∧
    ∀ root l now chainNow r chain, (∀ k e, M'.get k = some e → e.validate X = .ok ()) →
      collectAuthorityChain X r.capabilityHash M.get = .ok chain →
      verifyRequest X ⟨root,M⟩ l now chainNow = .ok r →
      (verifyRequest X ⟨root,M'⟩ l now chainNow = .ok r ↔
        SignedFirstBy X M' root.contentHash r.authorHash ∧
        ∀ link ∈ chain, LinkSigned X M' l link) :=
  ⟨fun _ _ _ _ hwalk hacc => chain_grown hsub hca hwalk hacc,
    fun _ _ _ _ _ _ hvalid hwalk hacc => request_grown hsub hca hvalid hacc hwalk⟩

namespace Sample

open ByteCode

def carolSig := beBytes 64
  0xb756af57e386725a505d53e93da80b5bae5448b7fb2837824abb51b974d052dd363e688fcd2c5ff5c045275a72e746a26acab092367f69e00692691301a69b04
def carolSigValue := sigValue leaf.contentHash carol.contentHash carolSig
def carolSigEntity := entity "system/signature" carolSigValue
  0x226a6600677788ad12d13a1c11f9df0b900d40d44276397d07aa33c8f2893ff5

def carolCrates := platform (carolSigValue::documents) []
  ((carolKey,leaf.contentHash.toBytes,carolSig)::signatures)

def overIncluded : Included := included.insert carolSigEntity.contentHash carolSigEntity

/-- The chain is accepted as it is, and refused with the signature beside it. -/
theorem evaluated_overIncluded :
    (included.get carolSigEntity.contentHash = none ∧ verifyIncludedKeyBinding included = .ok () ∧
      verifyIncludedKeyBinding overIncluded = .ok ()) ∧
    collectAuthorityChain carolCrates leaf.contentHash included.get =
      .ok [⟨leaf,⟨.single bob.contentHash,carol.contentHash,some root.contentHash,none,none⟩⟩,
        ⟨root,⟨.single alice.contentHash,bob.contentHash,none,none,none⟩⟩] ∧
    verifyCapabilityChain carolCrates leaf.contentHash included aliceId 10 = .ok () ∧
    verifyCapabilityChain carolCrates leaf.contentHash overIncluded aliceId 10 =
      .error .signerMismatch := by decide +kernel

theorem included_sub : included.Sub overIncluded := by
  intro k v hk
  have hne : k ≠ carolSigEntity.contentHash := by
    rintro rfl
    rw [evaluated_overIncluded.1.1] at hk
    cases hk
  rw [overIncluded,OrderedMap.get_insert,if_neg hne,hk]

theorem overIncluded_addressed : ContentAddressed overIncluded :=
  (keyBinding_ok _).mp evaluated_overIncluded.1.2.2

end Sample

open Sample

theorem overInclusion_refuses : ¬ ∀ (X : Platform) (h : Hash) (l : Str) (now : ℕ) (M M' : Included),
    ContentAddressed M → ContentAddressed M' → M.Sub M' →
    verifyCapabilityChain X h M l now = .ok () → verifyCapabilityChain X h M' l now = .ok () := by
  intro h
  obtain ⟨⟨-,hbinding,-⟩,-,haccepted,hbad⟩ := evaluated_overIncluded
  have hgood := h carolCrates leaf.contentHash aliceId 10 included overIncluded
    ((keyBinding_ok included).mp hbinding) overIncluded_addressed included_sub haccepted
  rw [hbad] at hgood
  cases hgood

theorem overInclusion_iff_sample : ¬ LinkSigned carolCrates overIncluded aliceId
    ⟨leaf,⟨.single bob.contentHash,carol.contentHash,some root.contentHash,none,none⟩⟩ ∨
    ¬ LinkSigned carolCrates overIncluded aliceId
    ⟨root,⟨.single alice.contentHash,bob.contentHash,none,none,none⟩⟩ := by
  obtain ⟨-,hwalk,haccepted,hbad⟩ := evaluated_overIncluded
  have hiff := (overInclusion_iff carolCrates included overIncluded included_sub
    overIncluded_addressed).1 leaf.contentHash aliceId 10
    [⟨leaf,⟨.single bob.contentHash,carol.contentHash,some root.contentHash,none,none⟩⟩,
      ⟨root,⟨.single alice.contentHash,bob.contentHash,none,none,none⟩⟩] hwalk haccepted
  rw [hbad] at hiff
  by_contra hc
  rw [not_or,not_not,not_not] at hc
  cases hiff.mpr (by simpa using hc)

end EntityCore
