import EntityCore.AttestationGraph

/-! Liveness without a bound. An attestation names others by their content hash, so no chain of
names comes back to where it started; that ends the recursions, and it makes the last good link
of a chain without forks its only live one. -/
namespace EntityCore

open Worklist List

variable {h : Hash} {d a att : Attestation} {post : List Attestation}

namespace AttestationIndex

variable (index : AttestationIndex)

/-- The attestation `g` of the index is about `h` or supersedes it. -/
def Names (h g : Hash) : Prop :=
  ∃ a, index.get g = some a ∧ (a.attested = h ∨ a.supersedes = some h)

/-- What content addressing gives: no hash is reached from itself. -/
def Acyclic : Prop := ∀ h, ¬Relation.TransGen index.Names h h

def keys : Finset Hash := (index.byHash.entries.map Prod.fst).toFinset

open Classical in
/-- What is reached from a hash. -/
noncomputable def above (h : Hash) : Finset Hash :=
  index.keys.filter (Relation.TransGen index.Names h)

variable {index}

theorem mem_entries : a ∈ index.byHash.entries ↔ index.get a.1 = some a.2 :=
  index.byHash.mem_entries a.1 a.2

theorem mem_above {g : Hash} : g ∈ index.above h ↔ Relation.TransGen index.Names h g := by
  simp only [above,Finset.mem_filter,and_iff_right_iff_imp]
  intro hreached
  obtain ⟨k,-,a,ha,-⟩ := Relation.TransGen.tail'_iff.mp hreached
  rw [keys,mem_toFinset,mem_map]
  exact ⟨(g,a),mem_entries.mpr ha,rfl⟩

theorem above_lt (hacyclic : index.Acyclic) {g : Hash} (hreached : g ∈ index.above h) :
    (index.above g).card < (index.above h).card := by
  apply Finset.card_lt_card
  rw [Finset.ssubset_iff]
  refine ⟨g,fun hself => hacyclic g (mem_above.mp hself),?_⟩
  intro k hk
  rw [mem_above] at hreached
  rcases Finset.mem_insert.mp hk with rfl | hk
  · exact mem_above.mpr hreached
  · exact mem_above.mpr (hreached.trans (mem_above.mp hk))

theorem above_le (h : Hash) : (index.above h).card ≤ index.keys.card := by
  apply Finset.card_le_card
  intro g hg
  simp only [above,Finset.mem_filter] at hg
  exact hg.1

/-- Where every link goes up in some order, none comes back. -/
theorem acyclic_of_rank (rank : Hash → ℕ) (h : ∀ g k, index.Names g k → rank g < rank k) :
    index.Acyclic := by
  have htrans : ∀ g k, Relation.TransGen index.Names g k → rank g < rank k := by
    intro g k hreached
    induction hreached with
    | single hname => exact h _ _ hname
    | tail _ hname ih => exact ih.trans (h _ _ hname)
  intro g hself
  exact lt_irrefl _ (htrans g g hself)

end AttestationIndex

open AttestationIndex

/-! The recursions end. -/

section Termination

variable {index : AttestationIndex} {now : ℕ}

theorem names_of_revocation {r : Attestation} (hr : r ∈ index.findRevocationsFor h) :
    index.Names h r.1 := by
  obtain ⟨hget,hattested,-⟩ := mem_revocations.mp hr
  exact ⟨r.2,hget,.inl hattested⟩

theorem names_of_supersedes
    (hd : d ∈ index.findAttestationsWithSupersedes h) : index.Names h d.1 := by
  obtain ⟨hget,hsupersedes⟩ := mem_supersedes.mp hd
  exact ⟨d.2,hget,.inr hsupersedes⟩

variable (index now) in
/-- With enough steps there is an answer. -/
def Decides (att : Attestation) : Prop := ∃ n b, isAttestationLive index now n att = some b

/-- Finitely many questions are answered with one number of steps. -/
theorem decides_together {l : List Attestation} (h : ∀ a ∈ l, Decides index now a) :
    ∃ n, ∀ a ∈ l, ∃ b, isAttestationLive index now n a = some b := by
  induction l with
  | nil => exact ⟨0,by simp⟩
  | cons a l ih =>
    obtain ⟨m,b,hb⟩ := h a mem_cons_self
    obtain ⟨n,hn⟩ := ih fun e he => h e (mem_cons_of_mem _ he)
    refine ⟨max m n,forall_mem_cons.mpr ⟨⟨b,?_⟩,?_⟩⟩
    · exact isAttestationLive_extends (Nat.le_max_left m n) a b hb
    · intro e he
      obtain ⟨c,hc⟩ := hn e he
      exact ⟨c,isAttestationLive_extends (Nat.le_max_right m n) e c hc⟩

section Totality

variable {live : Attestation → Option Bool}

theorem selfRevoked_total (h : ∀ r ∈ index.findRevocationsFor att.1, ∃ b, live r = some b) :
    ∃ b, selfRevoked index live att = some b := by
  apply anyOpt_total
  intro r hr
  split_ifs
  · exact h r hr
  · exact ⟨false,rfl⟩

theorem scanDescendants_total {ds : List Attestation}
    (h : ∀ d ∈ ds, ∃ b, selfRevoked index live d = some b) (pushed : List Hash) :
    ∃ v, scanDescendants index now live ds pushed = some v := by
  induction ds generalizing pushed with
  | nil => exact ⟨_,rfl⟩
  | cons d ds ih =>
    have hrest := ih fun e he => h e (mem_cons_of_mem _ he)
    obtain ⟨b,hb⟩ := h d mem_cons_self
    unfold scanDescendants
    rw [hb]
    split_ifs
    · cases b with
      | false => exact ⟨_,rfl⟩
      | true => exact hrest _
    · exact hrest _

/-- A scan ends at a good successor or pushes them all, none of them good. -/
theorem scanDescendants_spec {ds : List Attestation} {pushed : List Hash} {v : Visit Bool Hash}
    (h : scanDescendants index now live ds pushed = some v) :
    (v = .stop true ∧ ∃ d ∈ ds, isSelfValidBasic now d.2 = true ∧
        selfRevoked index live d = some false) ∨
      v = .more false (pushed++ds.map Prod.fst) ∧ ∀ d ∈ ds, isSelfValidBasic now d.2 = true →
        selfRevoked index live d = some true := by
  induction ds generalizing pushed with
  | nil =>
    obtain rfl := Option.some.inj h
    exact .inr ⟨by simp,by simp⟩
  | cons d ds ih =>
    have hrest : scanDescendants index now live ds (pushed++[d.1]) = some v →
        (isSelfValidBasic now d.2 = true → selfRevoked index live d = some true) →
        (v = .stop true ∧ ∃ e ∈ d::ds, isSelfValidBasic now e.2 = true ∧
            selfRevoked index live e = some false) ∨
          v = .more false (pushed++(d::ds).map Prod.fst) ∧ ∀ e ∈ d::ds,
            isSelfValidBasic now e.2 = true → selfRevoked index live e = some true := by
      intro hv hd
      rcases ih hv with ⟨hstop,e,he,hgood⟩ | ⟨hmore,hall⟩
      · exact .inl ⟨hstop,e,mem_cons_of_mem _ he,hgood⟩
      · refine .inr ⟨by simpa using hmore,forall_mem_cons.mpr ⟨hd,hall⟩⟩
    unfold scanDescendants at h
    split_ifs at h with hvalid
    · cases hr : selfRevoked index live d with
      | none =>
        rw [hr] at h
        cases h
      | some b =>
        rw [hr] at h
        cases b with
        | false =>
          obtain rfl := Option.some.inj h
          exact .inl ⟨rfl,d,mem_cons_self,hvalid,hr⟩
        | true => exact hrest h fun _ => hr
    · exact hrest h fun hd => absurd hd hvalid

end Totality

/-- Over an index without cycles every question about liveness is answered. -/
theorem decides (hacyclic : index.Acyclic) (att : Attestation) : Decides index now att := by
  induction hsize : (index.above att.1).card using Nat.strong_induction_on generalizing att with
  | _ size ih =>
    classical
    -- whatever is reached from here has fewer above it
    obtain ⟨n,hn⟩ := @decides_together index now
      (index.byHash.entries.filter fun e => e.1 ∈ index.above att.1) (by
        intro e he
        have habove := of_decide_eq_true (mem_filter.mp he).2
        exact ih _ (hsize ▸ above_lt hacyclic habove) e rfl)
    have hrevs : ∀ h, h = att.1 ∨ h ∈ index.above att.1 →
        ∀ r ∈ index.findRevocationsFor h, ∃ b, isAttestationLive index now n r = some b := by
      intro h hh r hr
      refine hn r (mem_filter.mpr ⟨mem_entries.mpr (mem_revocations.mp hr).1,?_⟩)
      have hname := Relation.TransGen.single (names_of_revocation hr)
      refine decide_eq_true (mem_above.mpr ?_)
      rcases hh with rfl | hh
      · exact hname
      · exact (mem_above.mp hh).trans hname
    have hpushed : ∀ h, h = att.1 ∨ h ∈ index.above att.1 →
        ∀ d ∈ index.findAttestationsWithSupersedes h, d.1 ∈ index.above att.1 := by
      intro h hh d hd
      have hname := Relation.TransGen.single (names_of_supersedes hd)
      refine mem_above.mpr ?_
      rcases hh with rfl | hh
      · exact hname
      · exact (mem_above.mp hh).trans hname
    obtain ⟨m,b,hwalk⟩ : ∃ m b,
        hasValidDescendant index now (isAttestationLive index now n) m att.1 = some b := by
      unfold hasValidDescendant
      refine walk_total (P := fun h => h = att.1 ∨ h ∈ index.above att.1)
        (U := insert att.1 (index.above att.1)) ?_ ?_ ?_ [] false (by simp)
      · intro h hh
        rw [Finset.mem_insert]
        exact hh
      · intro _ h hh
        apply scanDescendants_total
        intro d hd
        exact selfRevoked_total (hrevs d.1 (.inr (hpushed h hh d hd)))
      · intro _ h s pushed hh hvisit g hg
        rcases scanDescendants_spec hvisit with ⟨hstop,-⟩ | ⟨hmore,-⟩
        · cases hstop
        · obtain ⟨-,rfl⟩ := Visit.more.inj hmore
          rw [nil_append] at hg
          obtain ⟨d,hd,rfl⟩ := mem_map.mp hg
          exact .inr (hpushed h hh d hd)
    obtain ⟨c,hrevoked⟩ := selfRevoked_total (hrevs att.1 (.inl rfl))
    refine ⟨max n m+1,if !isSelfValidBasic now att.2 then false else if c then false else !b,?_⟩
    have hextends := @isAttestationLive_extends index now _ _ (Nat.le_max_left n m)
    unfold isAttestationLive
    rw [selfRevoked_extends hextends att c hrevoked,
      hasValidDescendant_extends hextends (Nat.le_max_right n m) hwalk]
    cases isSelfValidBasic now att.2 <;> cases c <;> rfl

theorem findLiveHead_total (hacyclic : index.Acyclic) (start : Attestation) :
    ∃ N head, ∀ n, N ≤ n → findLiveHead index now n start = some head := by
  obtain ⟨m,hm⟩ := @decides_together index now
    (start::index.byHash.entries) fun e _ => decides hacyclic e
  have hindexed : ∀ e d : Attestation, d ∈ index.findAttestationsWithSupersedes e.1 →
      d ∈ start::index.byHash.entries := fun e d hd =>
    mem_cons_of_mem _ (mem_entries.mpr (mem_supersedes.mp hd).1)
  obtain ⟨k,head,hwalk⟩ := @walk_total _ _ _ _ Prod.fst
    (fun best e => (isAttestationLive index now m e).map fun live =>
      .more (if live then betterHead best e else best) (index.findAttestationsWithSupersedes e.1))
    (· ∈ start::index.byHash.entries) ((start::index.byHash.entries).map Prod.fst).toFinset
    (fun e he => mem_toFinset.mpr (mem_map_of_mem he)) (by
      intro best e he
      obtain ⟨b,hb⟩ := hm e he
      rw [hb]
      exact ⟨_,rfl⟩) (by
      intro best e best' pushed _ hvisit d hd
      obtain ⟨live,-,hcase⟩ := Option.map_eq_some_iff.mp hvisit
      obtain ⟨-,rfl⟩ := Visit.more.inj hcase
      exact hindexed e d hd) [] [start] (none : Option Attestation) (by simp)
  refine ⟨max m k,head,?_⟩
  intro n hn
  refine walk_extends ?_ ((Nat.le_max_right m k).trans hn) hwalk
  intro best e v hv
  obtain ⟨live,hlive,rfl⟩ := Option.map_eq_some_iff.mp hv
  exact Option.map_eq_some_iff.mpr
    ⟨live,isAttestationLive_extends ((Nat.le_max_left m k).trans hn) e live hlive,rfl⟩

end Termination

/-! What being live comes to. -/

section Goodness

variable (index : AttestationIndex) (now : ℕ)

/-- Inside its window, and no live revocation by its own party. -/
structure Good (att : Attestation) : Prop where
  valid : isSelfValidBasic now att.2 = true
  unrevoked : ¬∃ r ∈ index.findRevocationsFor att.1, r.2.attesting = att.2.attesting ∧
    Live index now r

/-- Supersedes what has a hash, at any distance. -/
inductive Descends (h : Hash) : Attestation → Prop
  | direct {d : Attestation} (supersedes : d ∈ index.findAttestationsWithSupersedes h) :
      Descends h d
  | next {e d : Attestation} (reached : Descends h e)
      (supersedes : d ∈ index.findAttestationsWithSupersedes e.1) : Descends h d

variable {index now}

theorem Descends.head {e : Attestation}
    (hfirst : e ∈ index.findAttestationsWithSupersedes h) (hrest : Descends index e.1 d) :
    Descends index h d := by
  induction hrest with
  | direct supersedes => exact .next (.direct hfirst) supersedes
  | next _ supersedes ih => exact .next ih supersedes

/-- The successors, and what supersedes them. -/
theorem descends_iff : Descends index h d ↔ d ∈ index.findAttestationsWithSupersedes h ∨
      ∃ e ∈ index.findAttestationsWithSupersedes h, Descends index e.1 d := by
  constructor
  · intro hd
    induction hd with
    | direct supersedes => exact .inl supersedes
    | next _ supersedes ih =>
      rcases ih with hfirst | ⟨e,he,hrest⟩
      · exact .inr ⟨_,hfirst,.direct supersedes⟩
      · exact .inr ⟨e,he,.next hrest supersedes⟩
  · rintro (hfirst | ⟨e,he,hrest⟩)
    · exact .direct hfirst
    · exact .head he hrest

theorem follows_iff {start e : Attestation} :
    Follows index start e ↔ e = start ∨ Descends index start.1 e := by
  constructor
  · intro he
    induction he with
    | start => exact .inl rfl
    | next _ supersedes ih =>
      rcases ih with rfl | hreached
      · exact .inr (.direct supersedes)
      · exact .inr (.next hreached supersedes)
  · rintro (rfl | hreached)
    · exact .start
    · induction hreached with
      | direct supersedes => exact .next .start supersedes
      | next _ supersedes ih => exact .next ih supersedes

theorem selfRevoked_iff {n : ℕ} {b : Bool}
    (h : selfRevoked index (isAttestationLive index now n) att = some b) :
    b = true ↔ ∃ r ∈ index.findRevocationsFor att.1, r.2.attesting = att.2.attesting ∧
      Live index now r := by
  cases b with
  | true =>
    refine ⟨fun _ => ?_,fun _ => rfl⟩
    obtain ⟨r,hr,hlive⟩ := anyOpt_true h
    split_ifs at hlive with hparty
    · exact ⟨r,hr,hparty,n,hlive⟩
    · cases hlive
  | false =>
    refine ⟨Bool.noConfusion,?_⟩
    rintro ⟨r,hr,hparty,hlive⟩
    have hdead := anyOpt_false h r hr
    rw [if_pos hparty] at hdead
    exact absurd hlive (not_live_of_false hdead)

theorem good_iff {n : ℕ} {b : Bool}
    (h : selfRevoked index (isAttestationLive index now n) att = some b) :
    Good index now att ↔ isSelfValidBasic now att.2 = true ∧ b = false := by
  have hrevoked := selfRevoked_iff h
  constructor
  · rintro ⟨hvalid,hunrevoked⟩
    exact ⟨hvalid,Bool.eq_false_iff.mpr fun hb => hunrevoked (hrevoked.mp hb)⟩
  · rintro ⟨hvalid,rfl⟩
    exact ⟨hvalid,fun hb => Bool.noConfusion (hrevoked.mpr hb)⟩

/-- The search ends at a good descendant, and where it finds none there is none. -/
theorem hasValidDescendant_iff {n m : ℕ} {b : Bool}
    (hd : hasValidDescendant index now (isAttestationLive index now n) m h = some b) :
    b = true ↔ ∃ d, Descends index h d ∧ Good index now d := by
  have hreach : ∀ g, (g = h ∨ ∃ e, Descends index h e ∧ e.1 = g) →
      ∀ d ∈ index.findAttestationsWithSupersedes g, Descends index h d := by
    rintro g (rfl | ⟨e,he,rfl⟩) d hsucc
    · exact .direct hsucc
    · exact .next he hsucc
  cases b with
  | true =>
    refine ⟨fun _ => ?_,fun _ => rfl⟩
    refine walk_invariant (P := fun g => g = h ∨ ∃ e, Descends index h e ∧ e.1 = g)
      (I := fun s => s = true → ∃ d, Descends index h d ∧ Good index now d)
      ?_ ?_ (by simp) (by simp) hd rfl
    · intro s g s' hg _ hvisit _
      rcases scanDescendants_spec hvisit with ⟨-,d,hsucc,hvalid,hrevoked⟩ | ⟨hmore,-⟩
      · exact ⟨d,hreach g hg d hsucc,(good_iff hrevoked).mpr ⟨hvalid,rfl⟩⟩
      · cases hmore
    · intro s g s' pushed hg _ hvisit
      rcases scanDescendants_spec hvisit with ⟨hstop,-⟩ | ⟨hmore,-⟩
      · cases hstop
      · obtain ⟨rfl,rfl⟩ := Visit.more.inj hmore
        refine ⟨by simp,?_⟩
        intro k hk
        rw [nil_append] at hk
        obtain ⟨d,hsucc,rfl⟩ := mem_map.mp hk
        exact .inr ⟨d,hreach g hg d hsucc,rfl⟩
  | false =>
    refine ⟨Bool.noConfusion,?_⟩
    rintro ⟨d,hdescends,hgood⟩
    have hvisits := walk_visits (F := fun s => s = false) (N := fun _ => True)
      (P := fun _ => True)
      (Q := fun g => ∀ d ∈ index.findAttestationsWithSupersedes g, ¬Good index now d)
      (E := fun g k => ∃ d ∈ index.findAttestationsWithSupersedes g, d.1 = k)
      (fun _ _ _ _ hsame => hsame) ?_ ?_ (by simp) hd rfl trivial
    · obtain ⟨-,V,-,hstack,hvisited⟩ := hvisits
      have hvisitedAll : ∀ g ∈ V, (∀ d ∈ index.findAttestationsWithSupersedes g, ¬Good index now d) ∧
          ∀ k, (∃ d ∈ index.findAttestationsWithSupersedes g, d.1 = k) → k ∈ V := by
        intro g hg
        rcases hvisited g trivial hg with hnil | hg
        · cases hnil
        · exact hg
      have hin : ∀ e, Descends index h e → e.1 ∈ V ∧ ¬Good index now e := by
        intro e he
        induction he with
        | direct supersedes =>
          have hfirst := hvisitedAll h (hstack h (by simp))
          exact ⟨hfirst.2 _ ⟨_,supersedes,rfl⟩,hfirst.1 _ supersedes⟩
        | next _ supersedes ih =>
          have hbefore := hvisitedAll _ ih.1
          exact ⟨hbefore.2 _ ⟨_,supersedes,rfl⟩,hbefore.1 _ supersedes⟩
      exact absurd hgood (hin d hdescends).2
    · intro s g s' hvisit hfalse
      rcases scanDescendants_spec hvisit with ⟨hstop,-⟩ | ⟨hmore,-⟩
      · obtain rfl := Visit.stop.inj hstop
        cases hfalse
      · cases hmore
    · intro s g s' pushed _ hvisit
      rcases scanDescendants_spec hvisit with ⟨hstop,-⟩ | ⟨hmore,hall⟩
      · cases hstop
      · obtain ⟨rfl,rfl⟩ := Visit.more.inj hmore
        refine ⟨fun _ _ => trivial,?_,?_⟩
        · rintro k ⟨d,hsucc,rfl⟩
          rw [nil_append]
          exact mem_map_of_mem hsucc
        · intro _
          refine ⟨trivial,?_⟩
          intro d hsucc hgood
          have hrevoked := hall d hsucc hgood.valid
          exact Bool.noConfusion ((good_iff hrevoked).mp hgood).2

theorem isAttestationLive_iff {n : ℕ} {b : Bool} (h : isAttestationLive index now n att = some b) :
    b = true ↔ Good index now att ∧ ∀ d, Descends index att.1 d → ¬Good index now d := by
  cases n with
  | zero => cases h
  | succ n =>
    unfold isAttestationLive at h
    split_ifs at h with hvalid
    · obtain rfl := Option.some.inj h
      refine ⟨Bool.noConfusion,?_⟩
      rintro ⟨hgood,-⟩
      simp [hgood.valid] at hvalid
    · replace hvalid : isSelfValidBasic now att.2 = true := by simpa using hvalid
      cases hr : selfRevoked index (isAttestationLive index now n) att with
      | none =>
        rw [hr] at h
        cases h
      | some c =>
        rw [hr] at h
        have hgood := good_iff hr
        cases c with
        | true =>
          obtain rfl := Option.some.inj h
          refine ⟨Bool.noConfusion,?_⟩
          rintro ⟨hself,-⟩
          exact Bool.noConfusion (hgood.mp hself).2
        | false =>
          obtain ⟨d,hd,rfl⟩ := Option.map_eq_some_iff.mp h
          have hdescendant := hasValidDescendant_iff hd
          have hself := hgood.mpr ⟨hvalid,rfl⟩
          constructor
          · intro hnot
            refine ⟨hself,?_⟩
            intro e he hgoodE
            rw [hdescendant.mpr ⟨e,he,hgoodE⟩] at hnot
            cases hnot
          · rintro ⟨-,hnone⟩
            cases d with
            | false => rfl
            | true =>
              obtain ⟨e,he,hgoodE⟩ := hdescendant.mp rfl
              exact absurd hgoodE (hnone e he)

theorem Live.good (h : Live index now att) :
    Good index now att ∧ ∀ d, Descends index att.1 d → ¬Good index now d := by
  obtain ⟨n,hn⟩ := h
  exact (isAttestationLive_iff hn).mp rfl

/-- The live attestations are the good ones that nothing good supersedes. -/
theorem live_iff (hacyclic : index.Acyclic) (att : Attestation) : Live index now att ↔
    Good index now att ∧ ∀ d, Descends index att.1 d → ¬Good index now d := by
  constructor
  · exact Live.good
  · intro h
    obtain ⟨n,b,hb⟩ := @decides _ now hacyclic att
    rw [(isAttestationLive_iff hb).mpr h] at hb
    exact ⟨n,hb⟩

end Goodness

/-! Chains. -/

section Chains

variable {index : AttestationIndex} {now : ℕ}

variable (index) in
/-- Each supersedes the one before it, and nothing else does. -/
inductive Linear : List Attestation → Prop
  | last {a : Attestation} (none : ∀ d, d ∉ index.findAttestationsWithSupersedes a.1) : Linear [a]
  | cons {a b : Attestation} {rest : List Attestation}
      (only : ∀ d, d ∈ index.findAttestationsWithSupersedes a.1 ↔ d = b)
      (tail : Linear (b::rest)) : Linear (a::b::rest)

theorem Linear.suffix {pre l : List Attestation} (h : Linear index (pre++l)) (hl : l ≠ []) :
    Linear index l := by
  induction pre with
  | nil => exact h
  | cons a pre ih =>
    rw [cons_append] at h
    cases hsplit : pre++l with
    | nil => simp [hl] at hsplit
    | cons b rest =>
      rw [hsplit] at h ih
      cases h with
      | cons _ hrest => exact ih hrest

/-- What supersedes a link, at any distance, are the links after it. -/
theorem Linear.descends_iff (h : Linear index (a::post)) : Descends index a.1 d ↔ d ∈ post := by
  induction post generalizing a with
  | nil =>
    cases h with
    | last hnone =>
      rw [EntityCore.descends_iff]
      constructor
      · rintro (hd | ⟨e,he,-⟩)
        · exact absurd hd (hnone d)
        · exact absurd he (hnone e)
      · intro hd
        cases hd
  | cons b rest ih =>
    cases h with
    | cons honly hrest =>
      rw [EntityCore.descends_iff,mem_cons,← ih hrest,honly d]
      constructor
      · rintro (hd | ⟨e,he,hreached⟩)
        · exact .inl hd
        · obtain rfl := (honly e).mp he
          exact .inr hreached
      · rintro (hd | hreached)
        · exact .inl hd
        · exact .inr ⟨b,(honly b).mpr rfl,hreached⟩

theorem Linear.follows_iff (h : Linear index (a::post)) : Follows index a d ↔ d ∈ a::post := by
  rw [EntityCore.follows_iff,h.descends_iff,mem_cons]

theorem Linear.live_unique {pre : List Attestation}
    (h : Linear index (pre++a::post)) (ha : Live index now a) :
    ∀ b ∈ pre++post, ¬Live index now b := by
  intro b hb hlive
  rcases mem_append.mp hb with hb | hb
  · obtain ⟨before,between,rfl⟩ := append_of_mem hb
    rw [append_assoc,cons_append] at h
    have hafter := (h.suffix (cons_ne_nil _ _)).descends_iff (d := a)
    exact hlive.good.2 a (hafter.mpr (by simp)) ha.good.1
  · have hafter := (h.suffix (cons_ne_nil _ _)).descends_iff (d := b)
    exact ha.good.2 b (hafter.mpr hb) hlive.good.1

theorem Linear.findLiveHead_eq {before between : List Attestation} {start : Attestation}
    (h : Linear index (before++start::between)) (hstart : index.get start.1 = some start.2)
    (ha : a ∈ start::between) (hlive : Live index now a) {n : ℕ} {head : Option Attestation}
    (hhead : findLiveHead index now n start = some head) : head = some a := by
  have hsuffix := h.suffix (cons_ne_nil _ _)
  cases head with
  | none => exact absurd hlive (findLiveHead_none hstart hhead (hsuffix.follows_iff.mpr ha))
  | some d =>
    obtain ⟨hfollows,hd⟩ := findLiveHead_some hhead
    have hmem := hsuffix.follows_iff.mp hfollows
    obtain ⟨x,y,hsplit⟩ := append_of_mem ha
    rw [hsplit] at hsuffix hmem
    by_contra hne
    refine hsuffix.live_unique hlive d ?_ hd
    simp only [mem_append,mem_cons] at hmem ⊢
    rcases hmem with hx | rfl | hy
    · exact .inl hx
    · exact absurd rfl hne
    · exact .inr hy

end Chains

/-- Both questions are answered over every content-addressed index; of a chain without forks the
one live link is the last good one, and it is the live head of every link up to it. -/
theorem live_head_of_chain (index : AttestationIndex) (hacyclic : index.Acyclic) (now : ℕ) :
    (∀ att, ∃ N b, ∀ n, N ≤ n → isAttestationLive index now n att = some b) ∧
    (∀ start, ∃ N head, ∀ n, N ≤ n → findLiveHead index now n start = some head) ∧
    ∀ chain, Linear index chain → (∀ a ∈ chain, index.get a.1 = some a.2) →
      ∀ pre a post, chain = pre++a::post →
        (Live index now a ↔ Good index now a ∧ ∀ b ∈ post, ¬Good index now b) ∧
        (Live index now a → ∀ b ∈ pre++post, ¬Live index now b) ∧
        (Live index now a → ∀ start ∈ pre++[a], ∃ N, ∀ n, N ≤ n →
          findLiveHead index now n start = some (some a)) := by
  refine ⟨?_,fun start => findLiveHead_total hacyclic start,?_⟩
  · intro att
    obtain ⟨N,b,hb⟩ := @decides _ now hacyclic att
    exact ⟨N,b,fun n hn => isAttestationLive_extends hn att b hb⟩
  · rintro chain hlinear hindexed pre a post rfl
    have hsuffix := hlinear.suffix (List.cons_ne_nil _ _)
    refine ⟨?_,hlinear.live_unique,?_⟩
    · rw [live_iff hacyclic]
      simp only [hsuffix.descends_iff]
    · intro hlive start hstart
      obtain ⟨N,head,hhead⟩ := @findLiveHead_total _ now hacyclic start
      have hget : index.get start.1 = some start.2 := by
        apply hindexed
        simp only [List.mem_append,List.mem_cons,List.not_mem_nil,or_false] at hstart ⊢
        tauto
      refine ⟨N,fun n hn => ?_⟩
      rw [hhead n hn]
      rcases List.mem_append.mp hstart with hpre | hlast
      · obtain ⟨before,between,rfl⟩ := List.append_of_mem hpre
        rw [List.append_assoc,List.cons_append] at hlinear
        rw [hlinear.findLiveHead_eq hget (by simp) hlive (hhead n hn)]
      · obtain rfl := List.mem_singleton.mp hlast
        rw [hlinear.findLiveHead_eq hget List.mem_cons_self hlive (hhead n hn)]

namespace LiveSample

open Sample

def first : Attestation := (sha256Hash 0x7b0c94a927f5f78f34a4222b9765de21492d783486ffe08c0359d3b1a5afa5ef,
  ⟨alice.contentHash,bob.contentHash,[(txt "kind",txt "badge")],none,none,none⟩)

/-- Takes the place of the first until 4. -/
def second : Attestation := (sha256Hash 0x24e68ca609298cf98595c55aeeea3d2c4618c35487a9cb4f1e036c3284997585,
  ⟨alice.contentHash,bob.contentHash,[(txt "kind",txt "badge")],some first.1,none,some 4⟩)

def index : AttestationIndex := (AttestationIndex.new.insert first.1 first.2).insert second.1 second.2

theorem get_index (g : Hash) : index.get g =
    if g = second.1 then some second.2 else if g = first.1 then some first.2 else none := by
  have hne : second.1 ≠ first.1 := by decide
  have hempty : ∀ h, AttestationIndex.new.get h = none := fun _ => rfl
  simp only [index,AttestationIndex.get_insert,hempty,if_neg hne,Option.getD_none]

theorem acyclic : index.Acyclic := by
  refine AttestationIndex.acyclic_of_rank (fun h => if h = second.1 then 2 else if h = first.1 then 1 else 0) ?_
  rintro h g ⟨a,ha,hname⟩
  rw [get_index] at ha
  split_ifs at ha with hsecond hfirst
  · obtain rfl := Option.some.inj ha
    rcases hname with rfl | hname
    · rw [hsecond]
      decide
    · obtain rfl := Option.some.inj hname
      rw [hsecond]
      decide
  · obtain rfl := Option.some.inj ha
    rcases hname with rfl | hname
    · rw [hfirst]
      decide
    · cases hname

theorem supersedes_iff : d ∈ index.findAttestationsWithSupersedes h ↔ h = first.1 ∧ d = second := by
  rw [mem_supersedes,get_index]
  constructor
  · rintro ⟨hget,hsupersedes⟩
    split_ifs at hget with hsecond hfirst
    · have hd : d = second := Prod.ext hsecond (Option.some.inj hget).symm
      subst hd
      exact ⟨(Option.some.inj hsupersedes).symm,rfl⟩
    · rw [← Option.some.inj hget] at hsupersedes
      cases hsupersedes
  · rintro ⟨rfl,rfl⟩
    exact ⟨if_pos rfl,rfl⟩

theorem chain : Linear index [first,second] := by
  refine .cons ?_ (.last ?_)
  · intro d
    simp [supersedes_iff]
  · intro d hd
    exact absurd (supersedes_iff.mp hd).1 (by decide)

theorem indexed : ∀ a ∈ [first,second], index.get a.1 = some a.2 := by
  intro a ha
  rw [get_index]
  simp only [mem_cons,not_mem_nil,or_false] at ha
  rcases ha with rfl | rfl
  · rw [if_neg (by decide),if_pos rfl]
  · rw [if_pos rfl]

theorem good_first : Good index 5 first := by
  refine ⟨by decide,?_⟩
  rintro ⟨r,hr,-⟩
  obtain ⟨hget,hattested,-⟩ := mem_revocations.mp hr
  rw [get_index] at hget
  split_ifs at hget
  · rw [← Option.some.inj hget] at hattested
    exact absurd hattested (by decide)
  · rw [← Option.some.inj hget] at hattested
    exact absurd hattested (by decide)

end LiveSample

open LiveSample in
theorem live_head_of_chain_sample : Live index 5 first ∧ ¬Live index 5 second ∧
    ∃ N, ∀ n, N ≤ n → findLiveHead index 5 n first = some (some first) := by
  obtain ⟨hlive,honly,hhead⟩ := (live_head_of_chain index acyclic 5).2.2 [first,second] chain
    indexed [] first [second] rfl
  have hfirst := hlive.mpr ⟨good_first,fun b hb hgood => by
    obtain rfl := List.mem_singleton.mp hb
    exact Bool.noConfusion hgood.valid⟩
  exact ⟨hfirst,honly hfirst second (by simp),hhead hfirst first (by simp)⟩

end EntityCore
