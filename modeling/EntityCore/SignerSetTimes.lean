import EntityCore.LiveHeads
import EntityCore.SignerSets

/-! The signer set of the present and that of a time. The first walks forward from each chain
head to what is live, the second back to what is inside its window; at one and the same time
they need not reach the same update. -/
namespace EntityCore

open Outcome Worklist AttestationIndex Option

/-! Which live head the walk forward settles on. -/

section Best

variable {index : AttestationIndex} {now : ℕ}

/-- The later start, then the smaller hash. -/
def headRank (a : Attestation) : ℕ ×ₗ Hashᵒᵈ := toLex (a.2.notBefore.getD 0,OrderDual.toDual a.1)

theorem betterHead_some (b e : Attestation) :
    betterHead (some b) e = if headRank b < headRank e then some e else some b := by
  unfold betterHead headRank
  simp only [Prod.Lex.toLex_lt_toLex,OrderDual.toDual_lt_toDual]

/-- No live attestation after the start is better than the one that is found. -/
theorem findLiveHead_best {steps : ℕ} {start head : Attestation}
    (hstart : index.get start.1 = some start.2)
    (h : findLiveHead index now steps start = some (some head)) {e : Attestation}
    (he : Follows index start e) (hlive : Live index now e) : headRank e ≤ headRank head := by
  have hinj : ∀ a b : Attestation, index.get a.1 = some a.2 → index.get b.1 = some b.2 →
      a.1 = b.1 → a = b := fun a b => AttestationIndex.eq_of_same_hash
  have hvisits := walk_visits (F := fun _ => True)
    (N := fun best => ∀ b, best = some b → headRank b ≤ headRank head)
    (Q := fun a => Live index now a → headRank a ≤ headRank head)
    (E := fun e d => d ∈ index.findAttestationsWithSupersedes e.1) hinj ?_ ?_
    (show ∀ a ∈ [start], index.get a.1 = some a.2 by simpa using hstart) h trivial
    (fun b hb => (some.inj hb) ▸ le_rfl)
  · obtain ⟨-,V,-,hstartV,hvisited⟩ := hvisits
    have hreached : index.get e.1 = some e.2 ∧ e.1 ∈ V := by
      clear hlive
      induction he with
      | start => exact ⟨hstart,hstartV start List.mem_cons_self⟩
      | next _ supersedes ih =>
        refine ⟨(mem_supersedes.mp supersedes).1,?_⟩
        rcases hvisited _ ih.1 ih.2 with hnil | hedges
        · cases hnil
        · exact hedges.2 _ supersedes
    rcases hvisited e hreached.1 hreached.2 with hnil | hbest
    · cases hnil
    · exact hbest.1 hlive
  · intro s a s' hvisit
    obtain ⟨live,-,hcase⟩ := map_eq_some_iff.mp hvisit
    cases hcase
  · intro best a best' pushed ha hvisit
    obtain ⟨live,hasked,hcase⟩ := map_eq_some_iff.mp hvisit
    obtain ⟨rfl,rfl⟩ := Visit.more.inj hcase
    refine ⟨fun b hb => (mem_supersedes.mp hb).1,fun b hb => hb,?_⟩
    intro hafter
    cases live with
    | false =>
      exact ⟨fun b hb => hafter b (by simpa using hb),
        fun hlive => absurd hlive (not_live_of_false hasked)⟩
    | true =>
      rw [if_pos rfl] at hafter
      cases best with
      | none =>
        refine ⟨?_,fun _ => hafter a rfl⟩
        intro b hb
        cases hb
      | some b =>
        rw [betterHead_some] at hafter
        split_ifs at hafter with hbetter
        · have hle := hafter a rfl
          refine ⟨?_,fun _ => hle⟩
          intro c hc
          obtain rfl := some.inj hc
          exact hbetter.le.trans hle
        · have hle := hafter b rfl
          refine ⟨?_,fun _ => (not_lt.mp hbetter).trans hle⟩
          intro c hc
          obtain rfl := some.inj hc
          exact hle

end Best

/-! Which update each direction reaches. -/

variable {r r' : Option AttestationData} {heads : List Attestation} {a : AttestationData}
  {index : AttestationIndex}

section Picks

variable (index : AttestationIndex) (now : ℕ)

/-- The update that another one supersedes. -/
def StepBack (a b : AttestationData) : Prop := a.supersedes.bind index.get = some b

/-- The first update inside its window on the way back. -/
inductive NearestBack : AttestationData → Option AttestationData → Prop
  | here {a : AttestationData} (valid : isSelfValidBasic now a = true) : NearestBack a (some a)
  | none {a : AttestationData} (outside : isSelfValidBasic now a = false)
      (first : a.supersedes.bind index.get = none) : NearestBack a none
  | back {a b : AttestationData} {r : Option AttestationData}
      (outside : isSelfValidBasic now a = false) (link : StepBack index a b)
      (rest : NearestBack b r) : NearestBack a r

/-- Nothing after a chain head is live, and neither it nor anything before it is inside its
window. -/
structure Lapsed (u : Attestation) : Prop where
  forward : ∀ e, Follows index u e → ¬Live index now e
  backward : ∀ a, Relation.ReflTransGen (StepBack index) u.2 a → isSelfValidBasic now a = false

/-- The best live update after the first chain head that has one. -/
inductive ForwardPick : List Attestation → Option AttestationData → Prop
  | none : ForwardPick [] none
  | skip {u : Attestation} {rest : List Attestation} {r : Option AttestationData}
      (dead : ∀ e, Follows index u e → ¬Live index now e) (later : ForwardPick rest r) :
      ForwardPick (u::rest) r
  | head {u d : Attestation} {rest : List Attestation} (follows : Follows index u d)
      (live : Live index now d)
      (best : ∀ e, Follows index u e → Live index now e → headRank e ≤ headRank d) :
      ForwardPick (u::rest) (some d.2)

/-- The nearest update inside its window before the first chain head that has one. -/
inductive BackwardPick : List Attestation → Option AttestationData → Prop
  | none : BackwardPick [] none
  | skip {u : Attestation} {rest : List Attestation} {r : Option AttestationData}
      (outside : NearestBack index now u.2 none) (later : BackwardPick rest r) :
      BackwardPick (u::rest) r
  | head {u : Attestation} {a : AttestationData} {rest : List Attestation}
      (nearest : NearestBack index now u.2 (some a)) : BackwardPick (u::rest) (some a)

/-- The first chain head that has not lapsed, if there is one, is live itself. -/
def LiveFirst (heads : List Attestation) : Prop :=
  ∀ pre u post, heads = pre++u::post → (∀ v ∈ pre, Lapsed index now v) → ¬Lapsed index now u →
    Live index now u

/-- The set with what an update says, if there is one. -/
def SignerSet.saying (set : SignerSet) (update : Option AttestationData) : SignerSet :=
  update.elim set set.updated

variable {index now}

theorem NearestBack.unique
    (h : NearestBack index now a r) (h' : NearestBack index now a r') : r = r' := by
  induction h with
  | here valid =>
    cases h' with
    | here => rfl
    | none outside => simp [valid] at outside
    | back outside => simp [valid] at outside
  | none outside first =>
    cases h' with
    | here valid => simp [valid] at outside
    | none => rfl
    | back _ link =>
      unfold StepBack at link
      rw [first] at link
      cases link
  | back outside link _ ih =>
    cases h' with
    | here valid => simp [valid] at outside
    | none _ first =>
      unfold StepBack at link
      rw [first] at link
      cases link
    | back _ link' rest =>
      unfold StepBack at link link'
      rw [link] at link'
      obtain rfl := some.inj link'
      exact ih rest

theorem headBefore_nearest {n : ℕ}
    (h : headBefore index now n a = some r) : NearestBack index now a r := by
  induction n generalizing a with
  | zero => cases h
  | succ n ih =>
    unfold headBefore at h
    rw [Bool.and_comm] at h
    split_ifs at h with hvalid
    · obtain rfl := some.inj h
      exact .here hvalid
    · replace hvalid : isSelfValidBasic now a = false := Bool.eq_false_iff.mpr hvalid
      cases hlink : a.supersedes.bind index.get with
      | none =>
        rw [hlink] at h
        obtain rfl := some.inj h
        exact .none hvalid hlink
      | some prev =>
        rw [hlink] at h
        exact .back hvalid hlink (ih h)

theorem NearestBack.reached {b : AttestationData} (h : NearestBack index now a (some b)) :
    Relation.ReflTransGen (StepBack index) a b ∧ isSelfValidBasic now b = true := by
  generalize hr : some b = r at h
  induction h with
  | here valid =>
    obtain rfl := some.inj hr
    exact ⟨.refl,valid⟩
  | none => cases hr
  | back _ link _ ih =>
    obtain ⟨hreached,hvalid⟩ := ih hr
    exact ⟨.head link hreached,hvalid⟩

theorem follows_indexed {u e : Attestation} (hu : index.get u.1 = some u.2)
    (he : Follows index u e) : index.get e.1 = some e.2 := by
  cases he with
  | start => exact hu
  | next _ supersedes => exact (mem_supersedes.mp supersedes).1

theorem ForwardPick.unique
    (hheads : ∀ u ∈ heads, index.get u.1 = some u.2) (h : ForwardPick index now heads r)
    (h' : ForwardPick index now heads r') : r = r' := by
  induction h with
  | none =>
    cases h'
    rfl
  | skip dead _ ih =>
    cases h' with
    | skip _ later => exact ih (fun u hu => hheads u (List.mem_cons_of_mem _ hu)) later
    | head follows live => exact absurd live (dead _ follows)
  | @head u d _ follows live best =>
    cases h' with
    | skip dead => exact absurd live (dead _ follows)
    | @head _ d' _ follows' live' best' =>
      have hsame : headRank d = headRank d' :=
        le_antisymm (best' d follows live) (best d' follows' live')
      have hhash : d.1 = d'.1 := congrArg (fun r : ℕ ×ₗ Hashᵒᵈ => OrderDual.ofDual (ofLex r).2) hsame
      have hget := follows_indexed (hheads u List.mem_cons_self) follows
      rw [hhash,follows_indexed (hheads u List.mem_cons_self) follows'] at hget
      exact hget.symm

theorem BackwardPick.unique
    (h : BackwardPick index now heads r) (h' : BackwardPick index now heads r') : r = r' := by
  induction h with
  | none =>
    cases h'
    rfl
  | skip outside _ ih =>
    cases h' with
    | skip _ later => exact ih later
    | head nearest => cases outside.unique nearest
  | head nearest =>
    cases h' with
    | skip outside => cases outside.unique nearest
    | head nearest' => exact nearest.unique nearest'

theorem applyUpdates_forward {steps : ℕ} {set set' : SignerSet}
    (hheads : ∀ u ∈ heads, index.get u.1 = some u.2)
    (h : applyUpdates index now steps none set heads = some set') :
    ∃ r, ForwardPick index now heads r ∧ set' = set.saying r := by
  induction heads with
  | nil => exact ⟨none,.none,(some.inj h).symm⟩
  | cons u heads ih =>
    unfold applyUpdates at h
    rw [bind_eq_bind,bind_eq_some_iff] at h
    obtain ⟨found,hfound,h⟩ := h
    obtain ⟨head,hhead,rfl⟩ := map_eq_some_iff.mp hfound
    have hu := hheads u List.mem_cons_self
    cases head with
    | none =>
      obtain ⟨r,hpick,hset⟩ := ih (fun v hv => hheads v (List.mem_cons_of_mem _ hv)) h
      exact ⟨r,.skip (fun e he => findLiveHead_none hu hhead he) hpick,hset⟩
    | some head =>
      obtain ⟨hfollows,hlive⟩ := findLiveHead_some hhead
      exact ⟨some head.2,.head hfollows hlive (fun e he => findLiveHead_best hu hhead he),
        (some.inj h).symm⟩

theorem applyUpdates_backward {steps : ℕ} {set set' : SignerSet}
    (h : applyUpdates index now steps (some now) set heads = some set') :
    ∃ r, BackwardPick index now heads r ∧ set' = set.saying r := by
  induction heads with
  | nil => exact ⟨none,.none,(some.inj h).symm⟩
  | cons u heads ih =>
    unfold applyUpdates at h
    rw [bind_eq_bind,bind_eq_some_iff] at h
    obtain ⟨found,hfound,h⟩ := h
    have hnearest := headBefore_nearest hfound
    cases found with
    | none =>
      obtain ⟨r,hpick,hset⟩ := ih h
      exact ⟨r,.skip hnearest hpick,hset⟩
    | some a => exact ⟨some a,.head hnearest,(some.inj h).symm⟩

/-- A live chain head is what both directions reach. -/
theorem picks_of_live {u : Attestation} {rest : List Attestation}
    (hlive : Live index now u) (hforward : ForwardPick index now (u::rest) r)
    (hbackward : BackwardPick index now (u::rest) r') : r = some u.2 ∧ r' = some u.2 := by
  have hgood := hlive.good
  constructor
  · cases hforward with
    | skip dead => exact absurd hlive (dead u .start)
    | head follows live =>
      rcases follows_iff.mp follows with rfl | hdescends
      · rfl
      · exact absurd live.good.1 (hgood.2 _ hdescends)
  · have hhere : NearestBack index now u.2 (some u.2) := .here hgood.1.valid
    cases hbackward with
    | skip outside => cases outside.unique hhere
    | head nearest => exact nearest.unique hhere

/-- Where the first chain head that has not lapsed is live, both directions reach it. -/
theorem LiveFirst.same_pick
    (h : LiveFirst index now heads) (hforward : ForwardPick index now heads r)
    (hbackward : BackwardPick index now heads r') : r = r' := by
  induction heads with
  | nil =>
    cases hforward
    cases hbackward
    rfl
  | cons u rest ih =>
    by_cases hlapsed : Lapsed index now u
    · have hrest : LiveFirst index now rest := by
        intro pre v post hsplit hpre
        refine h (u::pre) v post (by rw [hsplit]; rfl) ?_
        exact List.forall_mem_cons.mpr ⟨hlapsed,hpre⟩
      cases hforward with
      | head follows live => exact absurd live (hlapsed.forward _ follows)
      | skip _ later =>
        cases hbackward with
        | skip _ later' => exact ih hrest later later'
        | head nearest =>
          obtain ⟨hreached,hvalid⟩ := nearest.reached
          rw [hlapsed.backward _ hreached] at hvalid
          cases hvalid
    · obtain ⟨hr,hr'⟩ := picks_of_live (h [] u rest rfl (by simp) hlapsed) hforward hbackward
      rw [hr,hr']

end Picks

section Verdict

variable (X : Platform) (ctx : QuorumCtx) (now : ℕ) (quorumId : Hash)

/-- The updates that the two directions reach say the same in the end. -/
def SaySame (quorum : QuorumData) : Prop :=
  ∃ forward backward, ForwardPick ctx.index now (chainHeads ctx quorumId) forward ∧
    BackwardPick ctx.index now (chainHeads ctx quorumId) backward ∧
    resolveSet ctx quorumId quorum.resolutionMode none
        (SignerSet.saying ⟨quorum.signers,quorum.threshold⟩ forward) =
      resolveSet ctx quorumId quorum.resolutionMode none
        (SignerSet.saying ⟨quorum.signers,quorum.threshold⟩ backward)

/-- When the signer set of the present is that of the present time. -/
def AgreesWithNow : Prop :=
  ∀ quorum, loadQuorum X ctx quorumId = .ok quorum →
    LiveFirst ctx.index now (chainHeads ctx quorumId) ∨ SaySame ctx now quorumId quorum

variable {X ctx now quorumId}

/-- Resolvers that answer for the present as for the time it is. -/
theorem resolveSet_now (hresolvers : ∀ mode resolver, ctx.resolvers.get mode = some resolver →
      resolver ctx.contentStore ctx.locationIndex none =
        resolver ctx.contentStore ctx.locationIndex (some now)) (mode : Str) (set : SignerSet) :
    resolveSet ctx quorumId mode (some now) set = resolveSet ctx quorumId mode none set := by
  unfold resolveSet
  split_ifs
  · rfl
  · cases hresolver : ctx.resolvers.get mode with
    | none => rfl
    | some resolver =>
      dsimp only
      rw [hresolvers mode resolver hresolver]

/-! Both have an answer where the index is content-addressed. -/

theorem headBefore_more {t m n : ℕ} (hmn : m ≤ n) (h : headBefore index t m a = some r) :
    headBefore index t n a = some r := by
  induction m generalizing n a with
  | zero => cases h
  | succ m ih =>
    obtain ⟨k,rfl⟩ : ∃ k, n = k+1 := ⟨n-1,by omega⟩
    unfold headBefore at h ⊢
    split_ifs at h ⊢ with hvalid
    · exact h
    · cases hlink : a.supersedes.bind index.get with
      | none =>
        rw [hlink] at h
        exact h
      | some prev =>
        rw [hlink] at h
        exact ih (by omega) h

/-- On the way back ever more of the index lies ahead. -/
theorem headBefore_indexed (hacyclic : index.Acyclic) (t : ℕ)
    {g : Hash} (hget : index.get g = some a) : ∃ n r, headBefore index t n a = some r := by
  induction hleft : index.keys.card-(index.above g).card using Nat.strong_induction_on
    generalizing g a with
  | _ left ih =>
    by_cases hvalid : (a.notBefore.all (· ≤ t) && a.expiresAt.all (t < ·)) = true
    · exact ⟨1,some a,by rw [headBefore,if_pos hvalid]⟩
    · cases hlink : a.supersedes.bind index.get with
      | none => exact ⟨1,none,by rw [headBefore,if_neg hvalid,hlink]⟩
      | some prev =>
        obtain ⟨k,hk,hprev⟩ := bind_eq_some_iff.mp hlink
        have hname : g ∈ index.above k := mem_above.mpr (.single ⟨a,hget,.inr hk⟩)
        have hmore := above_lt hacyclic hname
        have hall := @above_le index k
        obtain ⟨n,r,h⟩ := ih _ (by omega) hprev rfl
        refine ⟨n+1,r,?_⟩
        rw [headBefore,if_neg hvalid,hlink]
        exact h

theorem findQuorumUpdateHeadAt_total {index : AttestationIndex} (hacyclic : index.Acyclic)
    (asOf : Option ℕ) {u : Attestation} (hu : index.get u.1 = some u.2) :
    ∃ N r, ∀ n, N ≤ n → findQuorumUpdateHeadAt index now n asOf u = some r := by
  cases asOf with
  | none =>
    obtain ⟨N,head,hhead⟩ := @findLiveHead_total _ now hacyclic u
    refine ⟨N,head.map Prod.snd,fun n hn => ?_⟩
    rw [findQuorumUpdateHeadAt,hhead n hn]
    rfl
  | some t =>
    obtain ⟨N,r,h⟩ := headBefore_indexed hacyclic t hu
    exact ⟨N,r,fun n hn => headBefore_more hn h⟩

theorem applyUpdates_total {index : AttestationIndex} (hacyclic : index.Acyclic) (asOf : Option ℕ)
    (set : SignerSet) {heads : List Attestation} (hheads : ∀ u ∈ heads, index.get u.1 = some u.2) :
    ∃ N set', ∀ n, N ≤ n → applyUpdates index now n asOf set heads = some set' := by
  induction heads with
  | nil => exact ⟨0,set,fun _ _ => rfl⟩
  | cons u heads ih =>
    obtain ⟨M,r,hr⟩ := @findQuorumUpdateHeadAt_total now _ hacyclic asOf _
      (hheads u List.mem_cons_self)
    obtain ⟨N,set',hset⟩ := ih fun v hv => hheads v (List.mem_cons_of_mem _ hv)
    cases r with
    | none =>
      refine ⟨max M N,set',fun n hn => ?_⟩
      rw [applyUpdates,hr n ((Nat.le_max_left M N).trans hn)]
      exact hset n ((Nat.le_max_right M N).trans hn)
    | some head =>
      refine ⟨M,set.updated head,fun n hn => ?_⟩
      rw [applyUpdates,hr n hn]
      rfl

end Verdict

/-- With nothing cached and resolvers that answer for the present as for the time it is, the
two sets are the same precisely when the first chain head that has not lapsed is live or the
updates that the two directions reach say the same; over a content-addressed index both have
an answer. -/
theorem signer_sets_agree_iff (X : Platform) (ctx : QuorumCtx) (now : ℕ) (quorumId : Hash)
    (hcache : ctx.signerSetCache.get quorumId = none)
    (hresolvers : ∀ mode resolver, ctx.resolvers.get mode = some resolver →
      resolver ctx.contentStore ctx.locationIndex none =
        resolver ctx.contentStore ctx.locationIndex (some now)) :
    (∀ steps present past, currentSignerSetAsOf X ctx now steps quorumId none = some present →
      currentSignerSetAsOf X ctx now steps quorumId (some now) = some past →
      (present = past ↔ AgreesWithNow X ctx now quorumId)) ∧
    (ctx.index.Acyclic → ∀ asOf, ∃ N answer, ∀ n, N ≤ n →
      currentSignerSetAsOf X ctx now n quorumId asOf = some answer) := by
  have huncached : ∀ steps asOf, currentSignerSetAsOf X ctx now steps quorumId asOf =
      computeSignerSet X ctx now steps quorumId asOf := by
    intro steps asOf
    unfold currentSignerSetAsOf
    rw [hcache,ite_self]
  have hheads : ∀ u ∈ chainHeads ctx quorumId, ctx.index.get u.1 = some u.2 :=
    fun u => mem_chainHeads
  constructor
  · intro steps present past hpresent hpast
    rw [huncached] at hpresent hpast
    unfold computeSignerSet at hpresent hpast
    unfold AgreesWithNow
    cases hload : loadQuorum X ctx quorumId with
    | error err =>
      rw [hload] at hpresent hpast
      obtain rfl := Option.some.inj hpresent
      obtain rfl := Option.some.inj hpast
      exact ⟨fun _ _ hok => (by cases hok),fun _ => rfl⟩
    | ok quorum =>
      rw [hload] at hpresent hpast
      obtain ⟨set,hset,rfl⟩ := Option.map_eq_some_iff.mp hpresent
      obtain ⟨set',hset',rfl⟩ := Option.map_eq_some_iff.mp hpast
      obtain ⟨forward,hforward,rfl⟩ := applyUpdates_forward hheads hset
      obtain ⟨backward,hbackward,rfl⟩ := applyUpdates_backward hset'
      rw [resolveSet_now hresolvers]
      constructor
      · intro hsame quorum' hquorum
        obtain rfl := Except.ok.inj hquorum
        exact .inr ⟨forward,backward,hforward,hbackward,hsame⟩
      · intro hagrees
        rcases hagrees quorum rfl with hfirst | ⟨f,b,hf,hb,hsame⟩
        · rw [hfirst.same_pick hforward hbackward]
        · rw [hf.unique hheads hforward,hb.unique hbackward] at hsame
          exact hsame
  · intro hacyclic asOf
    cases hload : loadQuorum X ctx quorumId with
    | error err =>
      refine ⟨0,.error err,fun n _ => ?_⟩
      rw [huncached,computeSignerSet,hload]
    | ok quorum =>
      obtain ⟨N,set,hset⟩ := @applyUpdates_total now _ hacyclic asOf
        ⟨quorum.signers,quorum.threshold⟩ _ hheads
      refine ⟨N,resolveSet ctx quorumId quorum.resolutionMode asOf set,fun n hn => ?_⟩
      rw [huncached,computeSignerSet,hload]
      dsimp only
      rw [hset n hn]
      rfl

namespace QuorumSample

open Sample

/-- Alice alone until 4. -/
def stopgap : Attestation :=
  (sha256Hash 0xc27516bde42bed95ee52b74f73b1cc4f6936ce3984843d9ff371a12f6b1a7682,
    ⟨quorumId,quorumId,[(txt "kind",txt "quorum-update"),
      (txt "new_signers",.array [.bytes alice.contentHash.toBytes]),(txt "new_threshold",uint 1)],
      some takeover.1,none,some 4⟩)

def afterStopgap : QuorumCtx := { peer [] with
  index := (peer []).index.insert stopgap.1 stopgap.2 }

/-- The sets of the present and of that time. -/
theorem evaluated_times :
    ((currentSignerSetAsOf quorumCrates afterStopgap 5 9 quorumId none).bind Except.toOption =
        some ⟨[alice.contentHash,bob.contentHash],2⟩ ∧
      (currentSignerSetAsOf quorumCrates afterStopgap 5 9 quorumId (some 5)).bind
        Except.toOption = some ⟨[carol.contentHash],1⟩) ∧
    (currentSignerSetAsOf quorumCrates (peer []) 1 9 quorumId (some 1)).bind Except.toOption =
      some ⟨[carol.contentHash],1⟩ := by
  decide +kernel

end QuorumSample

open QuorumSample Sample

/-- After the stopgap has expired the present is the quorum's entity and that time its
predecessor. -/
theorem expired_update_splits :
    ¬∀ (X : Platform) (ctx : QuorumCtx) (now steps : ℕ) (quorumId : Hash),
      ctx.signerSetCache.get quorumId = none → currentSignerSetAsOf X ctx now steps quorumId none =
        currentSignerSetAsOf X ctx now steps quorumId (some now) := by
  intro h
  have hsame := congrArg (·.bind Except.toOption) (h quorumCrates afterStopgap 5 9 quorumId rfl)
  obtain ⟨⟨hpresent,hpast⟩,-⟩ := evaluated_times
  have hsets := Option.some.inj (hpresent.symm.trans (hsame.trans hpast))
  exact absurd (congrArg SignerSet.threshold hsets) (by decide)

theorem signer_sets_agree_iff_sample : AgreesWithNow quorumCrates (peer []) 1 quorumId := by
  have hpresent := set_after_takeover [] (evaluated_takeover.2.1 [] List.mem_cons_self).2
  have hpast : currentSignerSetAsOf quorumCrates (peer []) 1 9 quorumId (some 1) =
      some (.ok ⟨[carol.contentHash],1⟩) := by
    obtain ⟨answer,hanswer,hok⟩ := Option.bind_eq_some_iff.mp evaluated_times.2
    rw [hanswer,toOption_eq.mp hok]
  exact ((signer_sets_agree_iff quorumCrates (peer []) 1 quorumId rfl
    (fun _ _ hnone => by cases hnone)).1 9 _ _ hpresent hpast).mp rfl

end EntityCore
