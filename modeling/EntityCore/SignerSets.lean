import EntityCore.Quorum

/-! How a signer set comes about. A quorum's set should move only by decisions of the set
in force; the resolver takes any live update, so this holds as long as the updates that
can be picked were decided that way and nothing stands in for the quorum's own entity. -/
namespace EntityCore

open Ecf Outcome Strings Worklist

section Derivation

variable (X : Platform) (ctx : QuorumCtx) (quorumId : Hash)

/-- At least the threshold of the set has signed. -/
def SignerSet.Signed (set : SignerSet) (hash : Hash) : Prop :=
  set.threshold ≤ (signersOf X ctx hash set.signers).card

/-- What an update says takes the place of what was in force. -/
def SignerSet.updated (set : SignerSet) (att : AttestationData) : SignerSet :=
  ⟨(quorumUpdateSigners att).getD set.signers,(quorumUpdateThreshold att).getD set.threshold⟩

/-- The sets that the quorum's own decisions lead to, from its entity on. -/
inductive Decided : SignerSet → Prop
  | genesis {e : Entity} {q : QuorumData} (stored : ctx.contentStore.get quorumId = some e)
      (decoded : QuorumData.fromEntity X e = .ok q) : Decided ⟨q.signers,q.threshold⟩
  | update {set : SignerSet} {u : Attestation} (before : Decided set)
      (indexed : u ∈ quorumUpdates ctx quorumId) (signed : set.Signed X ctx u.1) :
      Decided (set.updated u.2)

/-- An update that a set in force has decided, complete and with a threshold. -/
structure Authorized (u : Attestation) : Prop where
  indexed : u ∈ quorumUpdates ctx quorumId
  decided : ∃ set, Decided X ctx quorumId set ∧ set.Signed X ctx u.1
  signers : (quorumUpdateSigners u.2).isSome
  threshold : ∃ k, quorumUpdateThreshold u.2 = some k ∧ 1 ≤ k

/-- Every quorum entity bound at a path that ends like the quorum's own is the quorum's,
or stands after one that is. -/
def OwnEntityFirst : Prop :=
  ∀ pre entry post, quorumCandidates ctx quorumId = pre++entry::post →
    (quorumAt ctx entry).isSome → entry.2 = quorumId ∨ ∃ e ∈ pre, e.2 = quorumId ∧
      (quorumAt ctx e).isSome

/-- The signer set is the quorum's own affair: in hash order, what is live after the first
chain head that has anything live is authorized. -/
structure SelfGoverned (now : ℕ) : Prop where
  own : OwnEntityFirst ctx quorumId
  positive : ∀ e q, ctx.contentStore.get quorumId = some e → QuorumData.fromEntity X e = .ok q →
    1 ≤ q.threshold
  updates : ∀ pre u post, chainHeads ctx quorumId = pre++u::post →
    (∀ v ∈ pre, ∀ e, Follows ctx.index v e → ¬Live ctx.index now e) →
    ∀ head, Follows ctx.index u head → Live ctx.index now head → Authorized X ctx quorumId head

variable {X ctx quorumId} {now steps : ℕ}

theorem loadQuorum_own (hown : OwnEntityFirst ctx quorumId) {q : QuorumData}
    (h : loadQuorum X ctx quorumId = .ok q) :
    ∃ e, ctx.contentStore.get quorumId = some e ∧ QuorumData.fromEntity X e = .ok q := by
  unfold loadQuorum at h
  cases hfound : (quorumCandidates ctx quorumId).findSome? (quorumAt ctx) with
  | none =>
    rw [hfound] at h
    cases h
  | some e =>
    rw [hfound] at h
    obtain ⟨pre,entry,post,hsplit,hentry,hpre⟩ := List.findSome?_eq_some_iff.mp hfound
    have hsome : (quorumAt ctx entry).isSome := by rw [hentry]; rfl
    have hid : entry.2 = quorumId := by
      rcases hown pre entry post hsplit hsome with hid | ⟨x,hx,-,hxsome⟩
      · exact hid
      · rw [hpre x hx] at hxsome
        cases hxsome
    obtain ⟨e',hstored,hkind⟩ := Option.bind_eq_some_iff.mp hentry
    rw [hid] at hstored
    split_ifs at hkind
    obtain rfl := Option.some.inj hkind
    exact ⟨e',hstored,h⟩

theorem mem_chainHeads {u : Attestation} (h : u ∈ chainHeads ctx quorumId) :
    ctx.index.get u.1 = some u.2 :=
  (AttestationIndex.mem_targeting.mp (List.mem_of_mem_filter h)).1

/-- The set that is applied is the first one, or that of the first live head. -/
theorem applyUpdates_some {set set' : SignerSet} {heads : List Attestation}
    (hheads : ∀ u ∈ heads, ctx.index.get u.1 = some u.2)
    (h : applyUpdates ctx.index now steps none set heads = some set') :
    set' = set ∨ ∃ pre u post head, heads = pre++u::post ∧
      (∀ v ∈ pre, ∀ e, Follows ctx.index v e → ¬Live ctx.index now e) ∧
      Follows ctx.index u head ∧ Live ctx.index now head ∧ set' = set.updated head.2 := by
  induction heads with
  | nil => exact .inl (Option.some.inj h).symm
  | cons u heads ih =>
    unfold applyUpdates at h
    rw [Option.bind_eq_bind,Option.bind_eq_some_iff] at h
    obtain ⟨found,hfound,h⟩ := h
    obtain ⟨head,hhead,hatt⟩ := Option.map_eq_some_iff.mp hfound
    cases head with
    | none =>
      subst hatt
      have hdead := fun e => findLiveHead_none (e := e) (hheads u List.mem_cons_self) hhead
      rcases ih (fun v hv => hheads v (List.mem_cons_of_mem _ hv)) h with
        hsame | ⟨pre,v,post,head,hsplit,hpre,hrest⟩
      · exact .inl hsame
      · refine .inr ⟨u::pre,v,post,head,by rw [hsplit]; rfl,?_,hrest⟩
        exact List.forall_mem_cons.mpr ⟨hdead,hpre⟩
    | some head =>
      subst hatt
      obtain ⟨hfollows,hlive⟩ := findLiveHead_some hhead
      exact .inr ⟨[],u,heads,head,rfl,by simp,hfollows,hlive,(Option.some.inj h).symm⟩

/-- A complete update leaves nothing of the set before it. -/
theorem Authorized.updated_eq {u : Attestation} (h : Authorized X ctx quorumId u)
    (set set' : SignerSet) : set.updated u.2 = set'.updated u.2 := by
  obtain ⟨signers,hsigners⟩ := Option.isSome_iff_exists.mp h.signers
  obtain ⟨k,hk,-⟩ := h.threshold
  simp [SignerSet.updated,hsigners,hk]

theorem Authorized.result {u : Attestation} (h : Authorized X ctx quorumId u) (set : SignerSet) :
    Decided X ctx quorumId (set.updated u.2) ∧ 1 ≤ (set.updated u.2).threshold := by
  obtain ⟨before,hbefore,hsigned⟩ := h.decided
  constructor
  · rw [h.updated_eq set before]
    exact .update hbefore h.indexed hsigned
  · obtain ⟨k,hk,hpos⟩ := h.threshold
    simpa [SignerSet.updated,hk] using hpos

end Derivation

/-- Under the stated condition the signer set of a quorum is one that the quorum's own
decisions lead to, and somebody has to sign. -/
theorem signer_set_decided_by_quorum (X : Platform) (ctx : QuorumCtx) (now steps : ℕ)
    (quorumId : Hash) (quorum : QuorumData) (set : SignerSet)
    (hcache : ctx.signerSetCache.get quorumId = none)
    (hload : loadQuorum X ctx quorumId = .ok quorum)
    (hconcrete : quorum.resolutionMode = resolutionConcrete)
    (hset : currentSignerSet X ctx now steps quorumId = some (.ok set))
    (hgov : SelfGoverned X ctx quorumId now) : Decided X ctx quorumId set ∧ 1 ≤ set.threshold := by
  have hcompute : (applyUpdates ctx.index now steps none ⟨quorum.signers,quorum.threshold⟩
      (chainHeads ctx quorumId)).map (fun s => resolveSet ctx quorumId quorum.resolutionMode none s) =
        some (.ok set) := by
    unfold currentSignerSet currentSignerSetAsOf computeSignerSet at hset
    simpa [hcache,hload] using hset
  obtain ⟨applied,happlied,hresolved⟩ := Option.map_eq_some_iff.mp hcompute
  have hsame : applied = set := by
    unfold resolveSet at hresolved
    rw [if_pos hconcrete] at hresolved
    exact Except.ok.inj hresolved
  subst hsame
  obtain ⟨e,hstored,hdecoded⟩ := loadQuorum_own hgov.own hload
  rcases applyUpdates_some (fun u => mem_chainHeads) happlied with
    rfl | ⟨pre,u,post,head,hsplit,hpre,hfollows,hlive,rfl⟩
  · exact ⟨.genesis hstored hdecoded,hgov.positive e quorum hstored hdecoded⟩
  · exact (hgov.updates pre u post hsplit hpre head hfollows hlive).result _

namespace QuorumSample

open Sample

def quorumValue : Value := .map [(txt "signers",.array [.bytes alice.contentHash.toBytes,
  .bytes bob.contentHash.toBytes]),(txt "threshold",uint 2)]

def quorumEntity := entity "system/quorum" quorumValue
  0xab6bbb9631829e4d6a6c28570a9b55780b5673b1946af3b0546d92cf316d6b26

def quorumId : Hash := quorumEntity.contentHash

/-- Carol alone from now on. -/
def takeover : Attestation :=
  (sha256Hash 0xfe74351cb345fdee1ab153cab523afe7af4690de3052c1311b85cc75be45f4e8,
    ⟨quorumId,quorumId,[(txt "kind",txt "quorum-update"),
      (txt "new_signers",.array [.bytes carol.contentHash.toBytes]),(txt "new_threshold",uint 1)],
      none,none,none⟩)

def aliceSig := ByteCode.beBytes 64
  0x9a0d6f80b05fc8e0092864855a3fdf4a59572c53b6a723158006d4829937c215d198329067052bac1ae81af93d88d1bf0635ae111897fd8b1629083b5ca95709
def bobSig := ByteCode.beBytes 64
  0xf997c8e3997f10603a9d4669220b22621a3abf8be0a1da6af269392630f202f12e7661a051886d2bcb4cbfc65c1fc9222d0cec558916c642fe7aa286d5baed07

def aliceSigValue := sigValue takeover.1 alice.contentHash aliceSig
def bobSigValue := sigValue takeover.1 bob.contentHash bobSig
def aliceSigEntity := entity "system/signature" aliceSigValue
  0x4ae9d838c445b5f48829c307d5d42cbf8d6095d054cf86a442bb3f8260a82e21
def bobSigEntity := entity "system/signature" bobSigValue
  0xaecc2f9367f55d81382a16265ff68a04648448bfc81d65cc7ed7a89c875ed9ff

def quorumCrates : Platform := platform [peerValue aliceKey,peerValue bobKey,peerValue carolKey,quorumValue,
  aliceSigValue,bobSigValue] []
  [(aliceKey,takeover.1.toBytes,aliceSig),(bobKey,takeover.1.toBytes,bobSig)]

/-- The quorum's entity at its path, the update indexed, and the signatures that came along. -/
def peer (signatures : List Entity) : QuorumCtx where
  index := AttestationIndex.new.insert takeover.1 takeover.2
  contentStore := ⟨[alice,bob,carol,quorumEntity]⟩
  locationIndex := ⟨OrderedMap.empty.insert ("/".toList++aliceId++ "/".toList++pathQuorum quorumId)
    quorumId⟩
  included := signatures
  resolvers := .empty
  signerSetCache := .empty

theorem get_peer (signatures : List Entity) (g : Hash) : (peer signatures).index.get g =
    if g = takeover.1 then some takeover.2 else none := by
  have hget := AttestationIndex.get_insert .new takeover.1 takeover.2 g
  exact hget

theorem takeover_only {signatures : List Entity} {u : Attestation}
    (h : (peer signatures).index.get u.1 = some u.2) : u = takeover := by
  rw [get_peer] at h
  split_ifs at h with hu
  exact Prod.ext hu (Option.some.inj h).symm

/-- The update unsigned, and signed by both. -/
theorem evaluated_takeover :
    ((peer []).contentStore.get quorumId = some quorumEntity ∧
      (QuorumData.fromEntity quorumCrates quorumEntity).toOption.map
        (fun q => (⟨q.signers,q.threshold⟩ : SignerSet)) =
          some ⟨[alice.contentHash,bob.contentHash],2⟩) ∧
    (∀ signatures ∈ [[],[aliceSigEntity,bobSigEntity]],
      ((loadQuorum quorumCrates (peer signatures) quorumId).toOption.any fun q =>
        decide (q.resolutionMode = resolutionConcrete)) = true ∧
      (currentSignerSet quorumCrates (peer signatures) 1 9 quorumId).bind Except.toOption =
        some ⟨[carol.contentHash],1⟩) ∧
    verifyKOfNSignatures quorumCrates (peer []) takeover.1 [alice.contentHash,bob.contentHash] 2 =
      false ∧
    verifyKOfNSignatures quorumCrates (peer [aliceSigEntity,bobSigEntity]) takeover.1
      [alice.contentHash,bob.contentHash] 2 = true ∧
    ((quorumCandidates (peer [aliceSigEntity,bobSigEntity]) quorumId).map Prod.snd = [quorumId] ∧
      ((peer [aliceSigEntity,bobSigEntity]).index.findAttestationsWithSupersedes
        takeover.1).isEmpty = true ∧
      (quorumUpdateSigners takeover.2).isSome ∧ quorumUpdateThreshold takeover.2 = some 1) := by
  decide +kernel

theorem quorum_decodes {signatures : List Entity} {e : Entity} {q : QuorumData}
    (hstored : (peer signatures).contentStore.get quorumId = some e)
    (hdecoded : QuorumData.fromEntity quorumCrates e = .ok q) :
    (⟨q.signers,q.threshold⟩ : SignerSet) = ⟨[alice.contentHash,bob.contentHash],2⟩ := by
  obtain ⟨⟨hentity,hset⟩,-⟩ := evaluated_takeover
  have he : e = quorumEntity := Option.some.inj (hstored.symm.trans hentity)
  rw [← he,hdecoded] at hset
  exact Option.some.inj hset

theorem quorum_reads : ∃ q, QuorumData.fromEntity quorumCrates quorumEntity = .ok q := by
  obtain ⟨⟨-,hset⟩,-⟩ := evaluated_takeover
  cases hread : QuorumData.fromEntity quorumCrates quorumEntity with
  | ok q => exact ⟨q,rfl⟩
  | error e =>
    rw [hread] at hset
    cases hset

theorem set_after_takeover (signatures : List Entity)
    (h : (currentSignerSet quorumCrates (peer signatures) 1 9 quorumId).bind Except.toOption =
      some ⟨[carol.contentHash],1⟩) : currentSignerSet quorumCrates (peer signatures) 1 9 quorumId =
      some (.ok ⟨[carol.contentHash],1⟩) := by
  obtain ⟨answer,hanswer,hok⟩ := Option.bind_eq_some_iff.mp h
  cases answer with
  | error e => cases hok
  | ok set => rw [hanswer,Option.some.inj hok]

theorem concrete_quorum (signatures : List Entity)
    (h : ((loadQuorum quorumCrates (peer signatures) quorumId).toOption.any fun q =>
      decide (q.resolutionMode = resolutionConcrete)) = true) :
    ∃ q, loadQuorum quorumCrates (peer signatures) quorumId = .ok q ∧
      q.resolutionMode = resolutionConcrete := by
  obtain ⟨quorum,hload,hmode⟩ := exists_ok_of_any h
  exact ⟨quorum,hload,by simpa using hmode⟩

end QuorumSample

open QuorumSample Sample

/-- Nobody has signed the update, and carol is the signer set. -/
theorem unsigned_update_taken :
    ¬∀ (X : Platform) (ctx : QuorumCtx) (now steps : ℕ) (quorumId : Hash) (quorum : QuorumData)
      (set : SignerSet), ctx.signerSetCache.get quorumId = none →
      loadQuorum X ctx quorumId = .ok quorum → quorum.resolutionMode = resolutionConcrete →
      currentSignerSet X ctx now steps quorumId = some (.ok set) →
      Decided X ctx quorumId set ∧ 1 ≤ set.threshold := by
  intro h
  obtain ⟨-,hsets,hfalse,-⟩ := evaluated_takeover
  have hunsigned := hsets [] List.mem_cons_self
  obtain ⟨quorum,hload,hmode⟩ := concrete_quorum [] hunsigned.1
  have hcurrent := set_after_takeover [] hunsigned.2
  have hdecided := (h quorumCrates (peer []) 1 9 quorumId quorum _ rfl hload hmode hcurrent).1
  have honly : ∀ set, Decided quorumCrates (peer []) quorumId set →
      set = ⟨[alice.contentHash,bob.contentHash],2⟩ := by
    intro set hd
    induction hd with
    | genesis stored decoded => exact quorum_decodes stored decoded
    | @update set u _ indexed signed ih =>
      have hu : u = takeover := takeover_only (AttestationIndex.mem_targeting.mp indexed).1
      rw [ih,hu,SignerSet.Signed,← verifyKOfN_iff] at signed
      rw [hfalse] at signed
      cases signed
  have hcarol := honly _ hdecided
  revert hcarol
  decide

theorem signer_set_decided_by_quorum_sample :
    Decided quorumCrates (peer [aliceSigEntity,bobSigEntity]) quorumId ⟨[carol.contentHash],1⟩ := by
  obtain ⟨⟨hentity,-⟩,hsets,-,htrue,hcandidates,hnone,hupdate⟩ := evaluated_takeover
  have hboth := hsets [aliceSigEntity,bobSigEntity] (List.mem_cons_of_mem _ List.mem_cons_self)
  obtain ⟨quorum,hload,hmode⟩ := concrete_quorum [aliceSigEntity,bobSigEntity] hboth.1
  have hcurrent := set_after_takeover [aliceSigEntity,bobSigEntity] hboth.2
  have hsuccessors : (peer [aliceSigEntity,bobSigEntity]).index.findAttestationsWithSupersedes
      takeover.1 = [] := List.isEmpty_iff.mp hnone
  refine (signer_set_decided_by_quorum quorumCrates (peer [aliceSigEntity,bobSigEntity]) 1 9 quorumId
    quorum _ rfl hload hmode hcurrent ⟨?_,?_,?_⟩).1
  · intro pre entry post hsplit _
    rw [hsplit] at hcandidates
    have hentry : entry.2 ∈ [quorumId] := by
      rw [← hcandidates]
      simp
    exact .inl (List.mem_singleton.mp hentry)
  · intro e q hstored hdecoded
    have hset := congrArg SignerSet.threshold (quorum_decodes hstored hdecoded)
    have hthreshold : q.threshold = 2 := hset
    omega
  · intro pre u post hsplit _ head hfollows hlive
    have hmem : u ∈ chainHeads (peer [aliceSigEntity,bobSigEntity]) quorumId := by
      rw [hsplit]
      simp
    have hu : u = takeover := takeover_only (mem_chainHeads hmem)
    clear hlive
    have hhead : head = takeover := by
      induction hfollows with
      | start => exact hu
      | next _ supersedes ih =>
        rw [ih,hsuccessors] at supersedes
        cases supersedes
    subst hhead
    obtain ⟨q,hdecoded⟩ := quorum_reads
    refine ⟨?_,⟨_,.genesis hentity hdecoded,?_⟩,hupdate.1,1,hupdate.2,le_rfl⟩
    · refine AttestationIndex.mem_targeting.mpr ⟨?_,rfl,by decide⟩
      rw [get_peer,if_pos rfl]
    · rw [quorum_decodes hentity hdecoded,SignerSet.Signed,← verifyKOfN_iff]
      exact htrue

end EntityCore
