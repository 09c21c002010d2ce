import EntityCore.SignerSets

/-! How many of a quorum have signed. Each member is looked up in the entities that came
along and then in the tree, and the first signature of its name is the one that is checked:
one that does not verify stands before another that does. -/
namespace EntityCore

open Ecf Outcome Strings

/-! The two readings of a signature entity. -/

section Readings

variable {X : Platform}

theorem hashOr_of_hashField {v : Value} {h : Hash} (hv : hashField v = some h)
    (old : Option Hash) : SignatureData.hashOr v old = .ok (some h) := by
  obtain ⟨b,hb,hh⟩ := Option.bind_eq_some_iff.mp hv
  simp [SignatureData.hashOr,hb,toOption_eq.mp hh]

/-- What the scan of a field finds, the decoder finds as well. -/
theorem scanField_scanSigField {scan : SigScan} {acc acc' : SignatureData.Fields}
    {kv : Value × Value} (h : SignatureData.scanField acc kv = .ok acc')
    (htarget : ∀ t, scan.target = some t → acc.target = some t)
    (hsigner : ∀ t, scan.signer = some t → acc.signer = some t) :
    (∀ t, (scanSigField scan kv).target = some t → acc'.target = some t) ∧
      ∀ t, (scanSigField scan kv).signer = some t → acc'.signer = some t := by
  unfold SignatureData.scanField at h
  unfold scanSigField
  split_ifs at h ⊢ with hkeyT hkeyS
  · obtain ⟨new,hnew,hacc⟩ := (bind_ok _ _ _).mp h
    obtain rfl := Except.ok.inj hacc
    refine ⟨?_,hsigner⟩
    intro t ht
    rw [hashOr_of_hashField ht] at hnew
    exact (Except.ok.inj hnew).symm
  · obtain ⟨new,hnew,hacc⟩ := (bind_ok _ _ _).mp h
    obtain rfl := Except.ok.inj hacc
    refine ⟨htarget,?_⟩
    intro t ht
    rw [hashOr_of_hashField ht] at hnew
    exact (Except.ok.inj hnew).symm
  all_goals
    obtain rfl := Except.ok.inj h
    exact ⟨htarget,hsigner⟩

theorem scan_decoded {map : List (Value × Value)} {scan : SigScan}
    {acc acc' : SignatureData.Fields} (h : foldE SignatureData.scanField acc map = .ok acc')
    (htarget : ∀ t, scan.target = some t → acc.target = some t)
    (hsigner : ∀ t, scan.signer = some t → acc.signer = some t) :
    (∀ t, (map.foldl scanSigField scan).target = some t → acc'.target = some t) ∧
      ∀ t, (map.foldl scanSigField scan).signer = some t → acc'.signer = some t := by
  induction map generalizing scan acc with
  | nil =>
    obtain rfl := Except.ok.inj h
    exact ⟨htarget,hsigner⟩
  | cons kv map ih =>
    simp only [foldE,bind_ok] at h
    obtain ⟨mid,hmid,h⟩ := h
    have hstep := scanField_scanSigField hmid htarget hsigner
    exact ih h hstep.1 hstep.2

/-- An entity that is found as a signature over a target decodes to one over it. -/
theorem decoded_of_isSignatureBy {target signer : Hash} {e : Entity} {sig : SignatureData}
    (h : isSignatureBy X target signer e = true) (hsig : SignatureData.fromEntity X e = .ok sig) :
    sig.target = target ∧ sig.signer = signer := by
  simp only [SignatureData.fromEntity,bind_ok,mapErr_ok,okOr_ok,pure_ok] at hsig
  obtain ⟨_,-,value,hvalue,map,hmap,acc,hacc,t,ht,s,hs,algorithm,-,signature,-,rfl⟩ := hsig
  have hscan := @scan_decoded _ ⟨none,none⟩ _ _ hacc (by simp) (by simp)
  simp only [isSignatureBy,decodeSigTargetSigner,hvalue,Bool.and_eq_true] at h
  have hany := h.2
  simp only [Except.toOption,Option.bind_eq_bind,Option.bind_some,Option.any_eq_true,hmap,
    Option.bind_eq_some_iff,Option.pure_def,Option.some.injEq] at hany
  obtain ⟨⟨t',s'⟩,⟨a,ha,b,hb,heq⟩,hboth⟩ := hany
  have hta := hscan.1 a ha
  have hsb := hscan.2 b hb
  rw [ht] at hta
  rw [hs] at hsb
  cases hta
  cases hsb
  cases heq
  simpa using hboth

end Readings

section Exactness

variable (X : Platform) (ctx : QuorumCtx) (entityHash member : Hash)

/-- The entities bound where signatures over an entity are bound. -/
def boundSignatures : List Entity :=
  (ctx.locationIndex.list ['/']).filterMap fun entry =>
    if endsWith entry.1 ("system/signature/".toList++entityHash.toHex) then
      ctx.contentStore.get entry.2 else none

/-- A signature over an entity by a member. -/
def IsSignature (e : Entity) (sig : SignatureData) : Prop :=
  SignatureData.fromEntity X e = .ok sig ∧ sig.target = entityHash ∧ sig.signer = member

/-- The signature verifies under the key of the member. -/
def VerifiesFor (sig : SignatureData) : Prop :=
  ∃ publicKey, resolvePeer X ctx.contentStore member = some publicKey ∧
    X.ed25519Verify publicKey entityHash.toBytes sig.signature = true

/-- Some signature by the member verifies, wherever it stands. -/
def HasSigned : Prop :=
  ∃ e sig, (e ∈ ctx.included ∨ e ∈ boundSignatures ctx entityHash) ∧
    IsSignature X entityHash member e sig ∧ VerifiesFor X ctx entityHash member sig

/-- The first signature of the member's name among the entities that came along, if it can be
read, else the first in the tree. -/
def firstSignature : Option SignatureData :=
  (((ctx.included.filter (isSignatureBy X entityHash member)).head?).bind fun e =>
      (SignatureData.fromEntity X e).toOption).or
    (((boundSignatures ctx entityHash).filterMap fun e =>
      (SignatureData.fromEntity X e).toOption).filter fun sig =>
        sig.target = entityHash ∧ sig.signer = member).head?

/-- What comes first does not verify. -/
def Masked : Prop :=
  ∀ sig, firstSignature X ctx entityHash member = some sig → ¬VerifiesFor X ctx entityHash member sig

open Classical in
/-- The distinct members that have signed. -/
noncomputable def signedMembers (signerSet : List Hash) : Finset Hash :=
  signerSet.toFinset.filter (HasSigned X ctx entityHash)

open Classical in
/-- Those of them whose verifying signature comes first. -/
noncomputable def unmaskedMembers (signerSet : List Hash) : Finset Hash :=
  (signedMembers X ctx entityHash signerSet).filter fun s => ¬Masked X ctx entityHash s

/-- The same entities and bindings, and possibly more. -/
structure MoreSignatures (ctx ctx' : QuorumCtx) : Prop where
  included : ∀ e ∈ ctx.included, e ∈ ctx'.included
  stored : ∀ h e, ctx.contentStore.get h = some e → ctx'.contentStore.get h = some e
  bound : ∀ entry ∈ ctx.locationIndex.list ['/'], entry ∈ ctx'.locationIndex.list ['/']

variable {X ctx entityHash member}

/-- A scan that skips what does not qualify finds the first that does. -/
theorem treeSignature_eq : treeSignature X ctx.contentStore ctx.locationIndex entityHash member =
    (((boundSignatures ctx entityHash).filterMap fun e =>
      (SignatureData.fromEntity X e).toOption).filter fun sig =>
        sig.target = entityHash ∧ sig.signer = member).head? := by
  unfold treeSignature boundSignatures
  rw [List.filterMap_filterMap,List.filter_filterMap,List.head?_filterMap]
  congr 1
  funext entry
  generalize endsWith entry.1 ("system/signature/".toList++entityHash.toHex) = atPath
  cases atPath with
  | false => rfl
  | true =>
    cases hstored : ctx.contentStore.get entry.2 with
    | none => rfl
    | some e =>
      cases hread : SignatureData.fromEntity X e with
      | error err =>
        by_cases htype : e.entityType = typeSignature
        · simp [hread,htype,Except.toOption]
        · simp [hread,htype,Except.toOption]
      | ok sig =>
        have htype : e.entityType = typeSignature := by
          simp only [SignatureData.fromEntity,bind_ok] at hread
          obtain ⟨_,hensure,-⟩ := hread
          exact of_decide_eq_true ((ensure_ok _ _).mp hensure)
        by_cases hsame : sig.target = entityHash ∧ sig.signer = member
        · simp [hread,htype,hsame,Except.toOption,Option.filter]
        · simp [hread,htype,hsame,Except.toOption,Option.filter]

theorem findSignatureFor_eq : findSignatureFor X ctx.toAttestationCtx entityHash member =
    firstSignature X ctx entityHash member := by
  unfold findSignatureFor firstSignature findSignatureBySigner
  rw [treeSignature_eq,List.head?_filter (p := isSignatureBy X entityHash member)]
  split
  · rename_i sig h
    rw [h]
    rfl
  · rename_i h
    rw [h]
    rfl

theorem firstSignature_some {sig : SignatureData}
    (h : firstSignature X ctx entityHash member = some sig) :
    ∃ e, (e ∈ ctx.included ∨ e ∈ boundSignatures ctx entityHash) ∧
      IsSignature X entityHash member e sig := by
  rcases Option.or_eq_some_iff.mp h with hincluded | ⟨-,hbound⟩
  · obtain ⟨e,he,hread⟩ := Option.bind_eq_some_iff.mp hincluded
    have hmem := List.mem_filter.mp (List.mem_of_head? he)
    have hsig := toOption_eq.mp hread
    exact ⟨e,.inl hmem.1,hsig,decoded_of_isSignatureBy hmem.2 hsig⟩
  · have hmem := List.mem_filter.mp (List.mem_of_head? hbound)
    obtain ⟨e,he,hread⟩ := List.mem_filterMap.mp hmem.1
    exact ⟨e,.inr he,toOption_eq.mp hread,by simpa using hmem.2⟩

/-- A member is counted when it has signed and is not masked. -/
theorem verifySpecificSigner_iff :
    verifySpecificSigner X ctx.toAttestationCtx entityHash member = true ↔
      HasSigned X ctx entityHash member ∧ ¬Masked X ctx entityHash member := by
  unfold verifySpecificSigner
  rw [findSignatureFor_eq]
  constructor
  · intro h
    split at h
    · rename_i sig publicKey hsig hkey
      have hverifies : VerifiesFor X ctx entityHash member sig := ⟨publicKey,hkey,h⟩
      obtain ⟨e,he,his⟩ := firstSignature_some hsig
      exact ⟨⟨e,sig,he,his,hverifies⟩,fun hmasked => hmasked sig hsig hverifies⟩
    · cases h
  · rintro ⟨-,hmasked⟩
    simp only [Masked,not_forall,not_not] at hmasked
    obtain ⟨sig,hsig,publicKey,hkey,hverify⟩ := hmasked
    rw [hsig,hkey]
    exact hverify

theorem signersOf_eq (signerSet : List Hash) :
    signersOf X ctx entityHash signerSet = unmaskedMembers X ctx entityHash signerSet := by
  ext s
  simp only [signersOf,unmaskedMembers,signedMembers,Finset.mem_filter,verifySpecificSigner_iff]
  tauto

theorem unmasked_le {signerSet : List Hash} : (unmaskedMembers X ctx entityHash signerSet).card ≤
    (signedMembers X ctx entityHash signerSet).card := by
  apply Finset.card_le_card
  intro s hs
  simp only [unmaskedMembers,Finset.mem_filter] at hs
  exact hs.1

theorem HasSigned.more {ctx' : QuorumCtx} (hmore : MoreSignatures ctx ctx')
    (h : HasSigned X ctx entityHash member) : HasSigned X ctx' entityHash member := by
  obtain ⟨e,sig,he,hsig,publicKey,hkey,hverify⟩ := h
  refine ⟨e,sig,?_,hsig,publicKey,?_,hverify⟩
  · rcases he with he | he
    · exact .inl (hmore.included e he)
    · obtain ⟨entry,hentry,hget⟩ := List.mem_filterMap.mp he
      refine .inr (List.mem_filterMap.mpr ⟨entry,hmore.bound entry hentry,?_⟩)
      split_ifs at hget ⊢ with hpath
      exact hmore.stored _ _ hget
  · simp only [resolvePeer,Option.bind_eq_bind,Option.bind_eq_some_iff] at hkey ⊢
    obtain ⟨peer,hpeer,hrest⟩ := hkey
    exact ⟨peer,hmore.stored _ _ hpeer,hrest⟩

theorem signedMembers_more {ctx' : QuorumCtx} (hmore : MoreSignatures ctx ctx')
    (signerSet : List Hash) :
    signedMembers X ctx entityHash signerSet ⊆ signedMembers X ctx' entityHash signerSet := by
  intro s hs
  simp only [signedMembers,Finset.mem_filter] at hs ⊢
  exact ⟨hs.1,hs.2.more hmore⟩

end Exactness

/-- The answer is exact, and no further signature takes a yes back, precisely when somebody has
to sign and the masked members do not make the difference. -/
theorem verifyKOfN_exact_iff (X : Platform) (ctx : QuorumCtx) (entityHash : Hash)
    (signerSet : List Hash) (threshold : ℕ) :
    ((verifyKOfNSignatures X ctx entityHash signerSet threshold = true ↔
        1 ≤ threshold ∧ threshold ≤ (signedMembers X ctx entityHash signerSet).card) ∧
      ∀ ctx₀, MoreSignatures ctx₀ ctx →
        verifyKOfNSignatures X ctx₀ entityHash signerSet threshold = true →
        verifyKOfNSignatures X ctx entityHash signerSet threshold = true) ↔
      1 ≤ threshold ∧ ((signedMembers X ctx entityHash signerSet).card < threshold ∨
        threshold ≤ (unmaskedMembers X ctx entityHash signerSet).card) := by
  have hsub : (unmaskedMembers X ctx entityHash signerSet).card ≤
      (signedMembers X ctx entityHash signerSet).card :=
    unmasked_le
  rw [verifyKOfN_iff,signersOf_eq]
  constructor
  · rintro ⟨hexact,-⟩
    omega
  · rintro ⟨hpos,hcase⟩
    have hexact : threshold ≤ (unmaskedMembers X ctx entityHash signerSet).card ↔
        1 ≤ threshold ∧ threshold ≤ (signedMembers X ctx entityHash signerSet).card := by omega
    refine ⟨hexact,?_⟩
    intro ctx₀ hmore hbefore
    rw [verifyKOfN_iff,signersOf_eq] at hbefore
    have hunmasked : (unmaskedMembers X ctx₀ entityHash signerSet).card ≤
        (signedMembers X ctx₀ entityHash signerSet).card := unmasked_le
    have hsigned : (signedMembers X ctx₀ entityHash signerSet).card ≤ _ :=
      Finset.card_le_card (signedMembers_more hmore signerSet)
    exact hexact.mpr ⟨hpos,hbefore.trans (hunmasked.trans hsigned)⟩

namespace QuorumSample

open Sample

/-- Names alice as the signer and holds no signature of hers. -/
def forgedSigValue := sigValue takeover.1 alice.contentHash (ByteCode.beBytes 64 0)
def forgedSigEntity := entity "system/signature" forgedSigValue
  0xcfa5586a191966dbc810e3ad14565a6e3623fbcfb4389314a05c5be488ec83a9

def hostileCrates : Platform := platform [peerValue aliceKey,peerValue bobKey,peerValue carolKey,
  quorumValue,aliceSigValue,bobSigValue,forgedSigValue] []
  [(aliceKey,takeover.1.toBytes,aliceSig),(bobKey,takeover.1.toBytes,bobSig)]

theorem has_signed {signatures : List Entity} {member : Entity} {k : Bytes} {e : Entity}
    {g : SignatureData} (he : e ∈ signatures)
    (hsig : (SignatureData.fromEntity hostileCrates e).toOption = some g)
    (hover : g.target = takeover.1 ∧ g.signer = member.contentHash)
    (hkey : resolvePeer hostileCrates (peer []).contentStore member.contentHash = some k)
    (hverify : hostileCrates.ed25519Verify k takeover.1.toBytes g.signature = true) :
    HasSigned hostileCrates (peer signatures) takeover.1 member.contentHash :=
  ⟨e,g,.inl he,⟨toOption_eq.mp hsig,hover⟩,k,hkey,hverify⟩

end QuorumSample

open QuorumSample Sample in
/-- Both have signed, and a signature in alice's name that anybody could have written turns the
answer into no. -/
theorem forged_signature_masks :
    2 ≤ (signedMembers hostileCrates (peer [forgedSigEntity,aliceSigEntity,bobSigEntity])
      takeover.1 [alice.contentHash,bob.contentHash]).card ∧
    verifyKOfNSignatures hostileCrates (peer [aliceSigEntity,bobSigEntity]) takeover.1
      [alice.contentHash,bob.contentHash] 2 = true ∧
    verifyKOfNSignatures hostileCrates (peer [forgedSigEntity,aliceSigEntity,bobSigEntity])
      takeover.1 [alice.contentHash,bob.contentHash] 2 = false := by
  refine ⟨?_,by decide +kernel,by decide +kernel⟩
  have halice : HasSigned hostileCrates (peer [forgedSigEntity,aliceSigEntity,bobSigEntity])
      takeover.1 alice.contentHash :=
    has_signed (e := aliceSigEntity) (k := aliceKey)
      (g := ⟨takeover.1,alice.contentHash,"ed25519".toList,aliceSig⟩)
      (by simp) (by decide +kernel) ⟨rfl,rfl⟩ (by decide +kernel) (by decide +kernel)
  have hbob : HasSigned hostileCrates (peer [forgedSigEntity,aliceSigEntity,bobSigEntity])
      takeover.1 bob.contentHash :=
    has_signed (e := bobSigEntity) (k := bobKey)
      (g := ⟨takeover.1,bob.contentHash,"ed25519".toList,bobSig⟩)
      (by simp) (by decide +kernel) ⟨rfl,rfl⟩ (by decide +kernel) (by decide +kernel)
  have hpair : ({alice.contentHash,bob.contentHash} : Finset Hash).card = 2 :=
    Finset.card_pair (by decide +kernel)
  rw [← hpair]
  apply Finset.card_le_card
  intro s hs
  simp only [Finset.mem_insert,Finset.mem_singleton] at hs
  simp only [signedMembers,Finset.mem_filter,List.mem_toFinset]
  rcases hs with rfl | rfl
  · exact ⟨by simp,halice⟩
  · exact ⟨by simp,hbob⟩

end EntityCore
