import EntityCore.AttestationGraph

/-! What liveness consults. Two indexes that hold the same attestations along the
revocations and successors of an attestation answer alike about it, whatever else they
hold; a forged or foreign attestation on the way is consulted like any other. -/
namespace EntityCore

open Ecf Outcome Strings Worklist AttestationIndex

/-! The verify operation. -/

inductive VerifyReply where
  | invalidParams (message : String)
  | answer (valid : Bool) (reason : Option String)

section Verify

variable (X : Platform) (ctx : AttestationCtx) (now steps : ℕ)

/-- The answer about one attestation; a request may ask about another time. -/
def verifyAttestation (attestationHash : Hash) (asOf : Option ℕ) : Option VerifyReply :=
  match ctx.index.get attestationHash with
  | none => some (.answer false (some "attestation_not_indexed"))
  | some att =>
    if !verifyAttestationSignature X ctx (attestationHash,att) then
      some (.answer false (some "invalid_signature"))
    else (isAttestationLive ctx.index (asOf.getD now) steps (attestationHash,att)).map fun live =>
      if live then .answer true none else .answer false (some "not_live")

/-- The hash asked about and the time, if another is asked for. -/
def verifyParams (params : Bytes) : Except AttestationError (Hash × Option ℕ) := do
  let map ← decodeMap X params
  let attestationHash ← fieldHash map "attestation_hash"
  let asOf ← fieldU64Opt map "as_of"
  return (attestationHash,asOf)

def handleVerify (params : Bytes) : Option VerifyReply :=
  match verifyParams X params with
  | .error e => some (.invalidParams e.display)
  | .ok (attestationHash,asOf) => verifyAttestation X ctx now steps attestationHash asOf

end Verify

/-! Lists in hash order. -/

theorem eq_of_hash_sorted {l l' : List Attestation} (hl : l.Pairwise fun x y => x.1 < y.1)
    (hl' : l'.Pairwise fun x y => x.1 < y.1) (hmem : ∀ e, e ∈ l ↔ e ∈ l') : l = l' := by
  have hnodup : ∀ {m : List Attestation}, (m.Pairwise fun x y => x.1 < y.1) → m.Nodup := by
    intro m hm
    refine hm.imp ?_
    rintro x y hxy rfl
    exact lt_irrefl _ hxy
  have hperm := (List.perm_ext_iff_of_nodup (hnodup hl) (hnodup hl')).mpr hmem
  exact hperm.eq_of_pairwise (fun a b _ _ hab hba => absurd (hab.trans hba) (lt_irrefl _)) hl hl'

namespace AttestationIndex

variable {index : AttestationIndex}

theorem fetch_sorted {hashes : List Hash} (h : hashes.Pairwise (· < ·)) :
    (index.fetch hashes).Pairwise fun x y => x.1 < y.1 := by
  unfold fetch
  rw [List.pairwise_filterMap]
  refine h.imp ?_
  intro a b hab x hx y hy
  obtain ⟨p,-,rfl⟩ := Option.map_eq_some_iff.mp hx
  obtain ⟨q,-,rfl⟩ := Option.map_eq_some_iff.mp hy
  exact hab

theorem revocations_sorted (h : Hash) :
    (index.findRevocationsFor h).Pairwise fun x y => x.1 < y.1 :=
  (fetch_sorted (index.byAttested.lookup_sorted h)).filter _

theorem successors_sorted (h : Hash) :
    (index.findAttestationsWithSupersedes h).Pairwise fun x y => x.1 < y.1 :=
  fetch_sorted (index.bySupersedes.lookup_sorted h)

end AttestationIndex

/-! What is consulted. -/

/-- Everything the question about an attestation can reach: revocations that name the
party of what they revoke, and successors. -/
inductive Consults (index : AttestationIndex) (att : Attestation) : Attestation → Prop
  | self : Consults index att att
  | revocation {e r : Attestation} (reached : Consults index att e)
      (revokes : r ∈ index.findRevocationsFor e.1) (party : r.2.attesting = e.2.attesting) :
      Consults index att r
  | successor {e d : Attestation} (reached : Consults index att e)
      (supersedes : d ∈ index.findAttestationsWithSupersedes e.1) : Consults index att d

variable {e : Attestation} {live live' : Attestation → Option Bool}

/-- Without a revocation or a successor nothing else is consulted. -/
theorem consults_alone {index : AttestationIndex} {att : Attestation}
    (hrevs : index.findRevocationsFor att.1 = [])
    (hsucc : index.findAttestationsWithSupersedes att.1 = []) (h : Consults index att e) :
    e = att := by
  induction h with
  | self => rfl
  | revocation _ revokes _ ih =>
    rw [ih,hrevs] at revokes
    cases revokes
  | successor _ supersedes ih =>
    rw [ih,hsucc] at supersedes
    cases supersedes

section Agreement

variable {I J : AttestationIndex} {att : Attestation}

/-- The two indexes hold the same under everything consulted in the first. -/
def AgreeAlong (I J : AttestationIndex) (att : Attestation) : Prop :=
  ∀ e, Consults I att e → I.get e.1 = J.get e.1

theorem AgreeAlong.consults (h : AgreeAlong I J att) (he : Consults I att e) :
    Consults J att e := by
  induction he with
  | self => exact .self
  | @revocation e r reached revokes party ih =>
    refine .revocation ih ?_ party
    rw [mem_revocations] at revokes ⊢
    exact ⟨h r (.revocation reached (mem_revocations.mpr revokes) party) ▸ revokes.1, revokes.2⟩
  | @successor e d reached supersedes ih =>
    refine .successor ih ?_
    rw [mem_supersedes] at supersedes ⊢
    exact ⟨h d (.successor reached (mem_supersedes.mpr supersedes)) ▸ supersedes.1, supersedes.2⟩

variable (hI : AgreeAlong I J att) (hJ : AgreeAlong J I att)

include hI hJ

theorem successors_eq (he : Consults I att e) :
    I.findAttestationsWithSupersedes e.1 = J.findAttestationsWithSupersedes e.1 := by
  apply eq_of_hash_sorted (successors_sorted _)
    (successors_sorted _)
  intro d
  constructor
  · intro hd
    have hsame := hI d (.successor he hd)
    rw [mem_supersedes] at hd ⊢
    exact ⟨hsame ▸ hd.1,hd.2⟩
  · intro hd
    have hsame := hJ d (.successor (hI.consults he) hd)
    rw [mem_supersedes] at hd ⊢
    exact ⟨hsame ▸ hd.1,hd.2⟩

theorem partyRevocations_eq (he : Consults I att e) :
    (I.findRevocationsFor e.1).filter (fun r => r.2.attesting = e.2.attesting) =
      (J.findRevocationsFor e.1).filter (fun r => r.2.attesting = e.2.attesting) := by
  apply eq_of_hash_sorted ((revocations_sorted _).filter _)
    ((revocations_sorted _).filter _)
  intro r
  simp only [List.mem_filter,decide_eq_true_eq]
  constructor
  · rintro ⟨hr,hparty⟩
    have hsame := hI r (.revocation he hr hparty)
    rw [mem_revocations] at hr ⊢
    exact ⟨⟨hsame ▸ hr.1,hr.2⟩,hparty⟩
  · rintro ⟨hr,hparty⟩
    have hsame := hJ r (.revocation (hI.consults he) hr hparty)
    rw [mem_revocations] at hr ⊢
    exact ⟨⟨hsame ▸ hr.1,hr.2⟩,hparty⟩

/-- Revocations by other parties are passed over, so only the party's own matter. -/
theorem selfRevoked_eq (hlive : ∀ e, Consults I att e → live e = live' e) (he : Consults I att e) :
    selfRevoked I live e = selfRevoked J live' e := by
  have hother : ∀ (index : AttestationIndex) (answer : Attestation → Option Bool),
      selfRevoked index answer e = anyOpt (fun r => if r.2.attesting = e.2.attesting then answer r
        else some false) ((index.findRevocationsFor e.1).filter fun r =>
          r.2.attesting = e.2.attesting) := by
    intro index answer
    apply anyOpt_filter
    intro r _ hr
    rw [if_neg (by simpa using hr)]
  rw [hother,hother,← partyRevocations_eq hI hJ he]
  apply anyOpt_congr
  intro r hr
  rw [List.mem_filter,decide_eq_true_eq] at hr
  rw [if_pos hr.2,if_pos hr.2]
  exact hlive r (.revocation he hr.1 hr.2)

theorem scanDescendants_eq
    (hlive : ∀ e, Consults I att e → live e = live' e) (now : ℕ) {ds : List Attestation}
    (hds : ∀ d ∈ ds, Consults I att d) (pushed : List Hash) :
    scanDescendants I now live ds pushed = scanDescendants J now live' ds pushed := by
  induction ds generalizing pushed with
  | nil => rfl
  | cons d ds ih =>
    have hrest := fun pushed => ih (fun x hx => hds x (List.mem_cons_of_mem _ hx)) pushed
    have hd := selfRevoked_eq hI hJ hlive (hds d List.mem_cons_self)
    simp only [scanDescendants,hd,hrest]

omit hI hJ in
/-- A walk pushes successors of the node it visits. -/
theorem pushed_of_scan {now : ℕ} {ds : List Attestation} {pushed pushed' : List Hash} {b : Bool}
    (h : scanDescendants I now live ds pushed = some (.more b pushed')) :
    ∀ k ∈ pushed', k ∈ pushed ∨ ∃ d ∈ ds, d.1 = k := by
  induction ds generalizing pushed with
  | nil =>
    cases h
    exact fun k hk => .inl hk
  | cons d ds ih =>
    have hstep : scanDescendants I now live ds (pushed++[d.1]) = some (.more b pushed') →
        ∀ k ∈ pushed', k ∈ pushed ∨ ∃ x ∈ d::ds, x.1 = k := by
      intro hrest k hk
      rcases ih hrest k hk with hk | ⟨x,hx,rfl⟩
      · rcases List.mem_append.mp hk with hk | hk
        · exact .inl hk
        · exact .inr ⟨d,List.mem_cons_self,(List.mem_singleton.mp hk).symm⟩
      · exact .inr ⟨x,List.mem_cons_of_mem _ hx,rfl⟩
    unfold scanDescendants at h
    split_ifs at h
    · split at h
      · cases h
      · cases h
      · exact hstep h
    · exact hstep h

theorem hasValidDescendant_eq (hlive : ∀ e, Consults I att e → live e = live' e) (now steps : ℕ)
    (he : Consults I att e) :
    hasValidDescendant I now live steps e.1 = hasValidDescendant J now live' steps e.1 := by
  -- the walk stays on hashes of consulted attestations
  have hnext : ∀ h, (∃ x, Consults I att x ∧ x.1 = h) →
      ∀ d ∈ I.findAttestationsWithSupersedes h, Consults I att d := by
    rintro h ⟨x,hx,rfl⟩ d hd
    exact .successor hx hd
  refine walk_congr (P := fun h => ∃ x, Consults I att x ∧ x.1 = h) ?_ ?_ steps [] false ?_
  · rintro _ h ⟨x,hx,rfl⟩
    rw [← successors_eq hI hJ hx]
    exact scanDescendants_eq hI hJ hlive now (hnext _ ⟨x,hx,rfl⟩) []
  · intro _ h b pushed hh hscan k hk
    rcases pushed_of_scan hscan k hk with hk | ⟨d,hd,rfl⟩
    · cases hk
    · exact ⟨d,hnext h hh d hd,rfl⟩
  · intro h hh
    rw [List.mem_singleton] at hh
    exact ⟨e,he,hh.symm⟩

/-- Liveness reads nothing but what it consults. -/
theorem isAttestationLive_eq (now : ℕ) : ∀ n e, Consults I att e →
    isAttestationLive I now n e = isAttestationLive J now n e := by
  intro n
  induction n with
  | zero =>
    intro e _
    rfl
  | succ n ih =>
    intro e he
    have hrevoked := selfRevoked_eq hI hJ ih he
    have hdescendant := hasValidDescendant_eq hI hJ ih now n he
    simp only [isAttestationLive,hrevoked,hdescendant]

end Agreement

/-! Forged and foreign attestations. -/

section Forged

variable (X : Platform) (ctx : AttestationCtx) (A : Attestation)

/-- The same stores under another index. -/
def AttestationCtx.withIndex (index : AttestationIndex) : AttestationCtx :=
  { ctx with index := index }

/-- Attested by another party than `A`, or without a valid signature of its own. -/
def Suspect (e : Attestation) : Prop :=
  e.2.attesting ≠ A.2.attesting ∨ verifyAttestationSignature X ctx e = false

/-- Neither index has more than suspects over the other; `A` is in both or in neither. -/
structure DifferOnlyBy (I J : AttestationIndex) : Prop where
  same : I.get A.1 = J.get A.1
  own : ∀ a, I.get A.1 = some a → a = A.2
  left : ∀ h a, I.get h = some a → J.get h ≠ some a → Suspect X ctx A (h,a)
  right : ∀ h a, J.get h = some a → I.get h ≠ some a → Suspect X ctx A (h,a)

/-- The suspects that the question about `A` reaches are in both. -/
def ConsultedAlike (I J : AttestationIndex) : Prop :=
  ∀ e, Consults I A e ∨ Consults J A e → Suspect X ctx A e → I.get e.1 = J.get e.1

/-- Liveness at a time and the verify operation asked about that time answer alike. -/
def SameAnswers (time : ℕ) (I J : AttestationIndex) : Prop :=
  (∀ n, isAttestationLive I time n A = isAttestationLive J time n A) ∧
  ∀ now steps params asOf, verifyParams X params = .ok (A.1,asOf) → asOf.getD now = time →
    handleVerify X (ctx.withIndex I) now steps params =
      handleVerify X (ctx.withIndex J) now steps params

variable {X ctx A} {I J : AttestationIndex} {time : ℕ}

theorem Consults.indexed (h : Consults I A e) : e = A ∨ I.get e.1 = some e.2 := by
  cases h with
  | self => exact .inl rfl
  | revocation _ revokes _ => exact .inr (mem_revocations.mp revokes).1
  | successor _ supersedes => exact .inr (mem_supersedes.mp supersedes).1

theorem DifferOnlyBy.symm (h : DifferOnlyBy X ctx A I J) : DifferOnlyBy X ctx A J I where
  same := h.same.symm
  own a ha := h.own a (h.same.trans ha)
  left := h.right
  right := h.left

theorem ConsultedAlike.symm (h : ConsultedAlike X ctx A I J) : ConsultedAlike X ctx A J I :=
  fun e he hs => (h e he.symm hs).symm

theorem DifferOnlyBy.insert (hown : ∀ a, I.get A.1 = some a → a = A.2)
    (hnew : I.get e.1 = none) (hne : A.1 ≠ e.1) (hsuspect : Suspect X ctx A e) :
    DifferOnlyBy X ctx A I (I.insert e.1 e.2) := by
  have hget : ∀ g, (I.insert e.1 e.2).get g = if g = e.1 then some e.2 else I.get g := by
    intro g
    rw [get_insert,hnew]
    rfl
  refine ⟨?_,hown,?_,?_⟩
  · rw [hget,if_neg hne]
  · intro g a ha hdiff
    rw [hget] at hdiff
    split_ifs at hdiff with hg
    · rw [hg,hnew] at ha
      cases ha
    · exact absurd ha hdiff
  · intro g a ha hdiff
    rw [hget] at ha
    split_ifs at ha with hg
    · subst hg
      obtain rfl := Option.some.inj ha
      exact hsuspect
    · exact absurd ha hdiff

/-- What is not suspect is in both in any case. -/
theorem ConsultedAlike.agree (h : ConsultedAlike X ctx A I J) (hd : DifferOnlyBy X ctx A I J) :
    AgreeAlong I J A := by
  intro e he
  rcases he.indexed with rfl | hindexed
  · exact hd.same
  · by_cases hsame : J.get e.1 = some e.2
    · rw [hindexed,hsame]
    · exact h e (.inl he) (hd.left e.1 e.2 hindexed hsame)

/-- The verify operation adds the signature to liveness, and the signature is not
looked for in the index. -/
theorem sameAnswers_of_live (hd : DifferOnlyBy X ctx A I J)
    (h : ∀ n, isAttestationLive I time n A = isAttestationLive J time n A) :
    SameAnswers X ctx A time I J := by
  refine ⟨h,?_⟩
  intro now steps params asOf hparams htime
  have hsig : ∀ index, verifyAttestationSignature X (ctx.withIndex index) A =
      verifyAttestationSignature X ctx A := fun _ => rfl
  have hverify : ∀ index, index.get A.1 = I.get A.1 →
      verifyAttestation X (ctx.withIndex index) now steps A.1 asOf =
        match I.get A.1 with
        | none => some (.answer false (some "attestation_not_indexed"))
        | some _ =>
          if !verifyAttestationSignature X ctx A then
            some (.answer false (some "invalid_signature"))
          else (isAttestationLive index time steps A).map fun live =>
            if live then .answer true none else .answer false (some "not_live") := by
    intro index hget
    have hindex : (ctx.withIndex index).index = index := rfl
    unfold verifyAttestation
    rw [hindex,hget,htime]
    cases hI : I.get A.1 with
    | none => rfl
    | some a =>
      rw [hd.own a hI]
      dsimp only
      rw [hsig]
  unfold handleVerify
  rw [hparams]
  dsimp only
  rw [hverify I rfl,hverify J hd.same.symm,h steps]

theorem isAttestationLive_outside (h : isSelfValidBasic time A.2 = false) (n : ℕ) :
    isAttestationLive I time n A = isAttestationLive J time n A := by
  cases n with
  | zero => rfl
  | succ n => simp [isAttestationLive,h]

/-- A successor attested by `party`, without a window and without a kind. -/
def foreignSuccessor (party : Hash) (A : Attestation) : AttestationData :=
  ⟨party,A.2.attested,[],some A.1,none,none⟩

theorem get_foreign (party h g : Hash) : (new.insert h (foreignSuccessor party A)).get g =
      if g = h then some (foreignSuccessor party A) else none := by
  rw [get_insert]
  rfl

theorem foreign_revokes_nothing (party h g : Hash) :
    (new.insert h (foreignSuccessor party A)).findRevocationsFor g = [] := by
  apply List.eq_nil_iff_forall_not_mem.mpr
  intro e he
  rw [mem_revocations,get_foreign] at he
  split_ifs at he
  · have hkind := he.2.2
    rw [← Option.some.inj he.1] at hkind
    cases hkind
  · cases he.1

theorem foreign_supersedes (party h : Hash) :
    (new.insert h (foreignSuccessor party A)).findAttestationsWithSupersedes A.1 =
      [(h,foreignSuccessor party A)] := by
  apply eq_of_hash_sorted (successors_sorted _) (List.pairwise_singleton _ _)
  intro e
  rw [mem_supersedes,get_foreign,List.mem_singleton]
  constructor
  · rintro ⟨he,-⟩
    split_ifs at he with hh
    exact Prod.ext hh (Option.some.inj he).symm
  · rintro rfl
    rw [if_pos rfl]
    exact ⟨rfl,rfl⟩

/-- Nobody's successor ends a live attestation. -/
theorem live_ended_by_foreign (h : isSelfValidBasic time A.2 = true) (party g : Hash) :
    isAttestationLive .new time 3 A = some true ∧
    isAttestationLive (new.insert g (foreignSuccessor party A)) time 3 A = some false := by
  have hnew : ∀ g, new.findRevocationsFor g = [] ∧
      new.findAttestationsWithSupersedes g = [] := fun _ => ⟨rfl,rfl⟩
  constructor
  · simp [isAttestationLive,h,selfRevoked,hasValidDescendant,hnew,anyOpt,walk,scanDescendants]
  · have hwindow : isSelfValidBasic time (foreignSuccessor party A) = true := rfl
    simp [isAttestationLive,h,selfRevoked,hasValidDescendant,foreign_revokes_nothing,
      foreign_supersedes,anyOpt,walk,scanDescendants,hwindow]

end Forged

instance : Nontrivial Hash := ⟨Hash.zero,⟨1,List.replicate 48 0,by rfl⟩,by decide⟩

/-- What forged and foreign attestations can do to `A`: an attestation inside its window is
never safe from them, and two indexes are told apart only by those the question reaches. -/
theorem forged_attestations_immaterial_iff (X : Platform) (ctx : AttestationCtx) (A : Attestation)
    (time : ℕ) : ((∀ I J, DifferOnlyBy X ctx A I J → SameAnswers X ctx A time I J) ↔
      isSelfValidBasic time A.2 = false) ∧
    ∀ I J, DifferOnlyBy X ctx A I J → ConsultedAlike X ctx A I J →
      SameAnswers X ctx A time I J := by
  refine ⟨⟨?_,?_⟩,?_⟩
  · intro hall
    by_contra hwindow
    obtain ⟨party,hparty⟩ := exists_ne A.2.attesting
    obtain ⟨g,hg⟩ := exists_ne A.1
    have hdiffer : DifferOnlyBy X ctx A .new
        (AttestationIndex.new.insert g (foreignSuccessor party A)) := by
      refine DifferOnlyBy.insert ?_ (e := (g,foreignSuccessor party A)) rfl hg.symm (.inl hparty)
      intro a ha
      cases ha
    have hlive := (hall _ _ hdiffer).1 3
    have hended := live_ended_by_foreign (Bool.not_eq_false _ ▸ hwindow) party g
    rw [hended.1,hended.2] at hlive
    cases hlive
  · intro hwindow I J hdiffer
    exact sameAnswers_of_live hdiffer (isAttestationLive_outside hwindow)
  · intro I J hdiffer hconsulted
    apply sameAnswers_of_live hdiffer
    intro n
    exact isAttestationLive_eq (hconsulted.agree hdiffer) (hconsulted.symm.agree hdiffer.symm)
      time n A .self

namespace AttestationSample

open Sample

def certProperties : List (Value × Value) :=
  [(txt "function",txt "agent"),(txt "kind",txt "identity-cert")]

def cert : Attestation :=
  (sha256Hash 0x13d3f9d0c38329117303da718da15bdb0b9e7427252062f709e2fe67014a3e96,
    ⟨alice.contentHash,bob.contentHash,certProperties,none,none,none⟩)

def certSig := ByteCode.beBytes 64
  0xbb82217d7257c75f261e4add74475b37c4ff73b6c1072833d9411ff932966c160d17d6a826cd332c1192e97ae8e1fd1d8093071d5abf0c3477f2ed333d5a8209

def certSigValue := sigValue cert.1 alice.contentHash certSig
def certSigEntity := entity "system/signature" certSigValue
  0x9092e4a6a50bd868d309be8a591f9e64c15eebcc75e5f85de2ff0db1917994ec

/-- A revocation in alice's name that she never signed. -/
def forged : Attestation :=
  (sha256Hash 0x281c4787a475233feb664e282108b69dfc5df92bb4aa4a241f55aa6ad7c16ce6,
    ⟨alice.contentHash,cert.1,[(txt "kind",txt "revocation")],none,none,none⟩)

def paramsValue : Value := .map [(txt "attestation_hash",.bytes cert.1.toBytes)]

def crates : Platform := platform [peerValue aliceKey,certSigValue,paramsValue] []
  [(aliceKey,cert.1.toBytes,certSig)]

def honest : AttestationIndex := AttestationIndex.new.insert cert.1 cert.2
def tampered : AttestationIndex := honest.insert forged.1 forged.2

def stores : AttestationCtx := ⟨honest,⟨[alice]⟩,⟨.empty⟩,[certSigEntity]⟩

/-- Bob's word about carol, unsigned too, that no question about the first reaches. -/
def bystander : Attestation :=
  (sha256Hash 0x5d911736186c2a7e7df54a36605d27f8338ceb2503f683085de5f6eb632e0818,
    ⟨bob.contentHash,carol.contentHash,certProperties,none,none,none⟩)

def crowded : AttestationIndex := honest.insert bystander.1 bystander.2

def isValid : Option VerifyReply → Bool
  | some (.answer true _) => true
  | _ => false

theorem honest_own : ∀ a, honest.get cert.1 = some a → a = cert.2 := by
  intro a ha
  exact (Option.some.inj ha).symm

theorem asks_cert : verifyParams crates (toEcf paramsValue) = .ok (cert.1,none) := by
  have hsome : (verifyParams crates (toEcf paramsValue)).toOption = some (cert.1,none) := by
    decide +kernel
  cases hv : verifyParams crates (toEcf paramsValue) with
  | error e =>
    rw [hv] at hsome
    cases hsome
  | ok p =>
    rw [hv] at hsome
    rw [Option.some.inj hsome]

end AttestationSample

open AttestationSample

/-- The forged revocation is the only difference, and the verify operation turns. -/
theorem forged_revocation_kills :
    ¬∀ (X : Platform) (ctx : AttestationCtx) (A : Attestation) (time : ℕ) (I J : AttestationIndex),
      DifferOnlyBy X ctx A I J → SameAnswers X ctx A time I J := by
  intro h
  have hnew : honest.get forged.1 = none :=
    Option.isNone_iff_eq_none.mp (by decide +kernel)
  have hdiffer : DifferOnlyBy crates stores cert honest tampered :=
    DifferOnlyBy.insert honest_own hnew (by decide +kernel) (.inr (by decide +kernel))
  have hverify := (h crates stores cert 1 honest tampered hdiffer).2 1 9 (toEcf paramsValue) none
    asks_cert rfl
  have hhonest : isValid (handleVerify crates (stores.withIndex honest) 1 9 (toEcf paramsValue)) =
      true := by decide +kernel
  have htampered : isValid (handleVerify crates (stores.withIndex tampered) 1 9
      (toEcf paramsValue)) = false := by decide +kernel
  rw [hverify,htampered] at hhonest
  cases hhonest

theorem forged_attestations_immaterial_iff_sample :
    SameAnswers crates stores cert 1 honest crowded ∧
    ¬∀ I J, DifferOnlyBy crates stores cert I J → SameAnswers crates stores cert 1 I J := by
  have hmain := forged_attestations_immaterial_iff crates stores cert 1
  have hnew : honest.get bystander.1 = none :=
    Option.isNone_iff_eq_none.mp (by decide +kernel)
  refine ⟨hmain.2 honest crowded (DifferOnlyBy.insert honest_own hnew (by decide +kernel)
    (.inl (by decide +kernel))) ?_,?_⟩
  · have halone : ∀ index, (index = honest ∨ index = crowded) → ∀ e, Consults index cert e →
        e = cert := by
      intro index hindex e he
      refine consults_alone ?_ ?_ he
      · rcases hindex with rfl | rfl
        · exact List.isEmpty_iff.mp (by decide +kernel)
        · exact List.isEmpty_iff.mp (by decide +kernel)
      · rcases hindex with rfl | rfl
        · exact List.isEmpty_iff.mp (by decide +kernel)
        · exact List.isEmpty_iff.mp (by decide +kernel)
    intro e he hsuspect
    have hcert : e = cert := by
      rcases he with he | he
      · exact halone honest (.inl rfl) e he
      · exact halone crowded (.inr rfl) e he
    rw [hcert]
    rcases hsuspect with hparty | hsig
    · rw [hcert] at hparty
      exact absurd rfl hparty
    · rw [hcert] at hsig
      have hgood : verifyAttestationSignature crates stores cert = true := by decide +kernel
      rw [hgood] at hsig
      cases hsig
  · rw [hmain.1]
    decide +kernel

end EntityCore
