import EntityCore.ForgedAttestations
import EntityCore.LiveHeads
import EntityCore.IdentityChain

/-! Masking. The parent of a link is the live attestation about its party with the smallest
hash, whoever made it; so what is added to an index can take a parent's place, and an accepted
certificate is accepted no more. What stays behind the parents and is consulted about nothing
that the verification asks changes no answer. -/
namespace EntityCore

open Ecf Outcome Strings Worklist AttestationIndex List

variable {e a link : Attestation} {l : List Attestation}

/-! The parent of a link. -/

section Parents

variable {index : AttestationIndex} {now n : ℕ}

/-- A live attestation is its own live head. -/
theorem findLiveHead_self {head : Option Attestation}
    (hget : index.get e.1 = some e.2) (hlive : Live index now e)
    (h : findLiveHead index now n e = some head) : head = some e := by
  cases head with
  | none => exact absurd hlive (findLiveHead_none hget h .start)
  | some d =>
    obtain ⟨hfollows,hd⟩ := findLiveHead_some h
    rcases follows_iff.mp hfollows with rfl | hdescends
    · rfl
    · exact absurd hd.good.1 (hlive.good.2 d hdescends)

theorem filterOpt_spec {α : Type} {p : α → Option Bool} {as kept : List α}
    (h : filterOpt p as = some kept) : ∀ a ∈ as, ∃ b, p a = some b ∧ (b = true → a ∈ kept) := by
  induction as generalizing kept with
  | nil => simp
  | cons a as ih =>
    simp only [filterOpt,Option.bind_eq_bind,Option.bind_eq_some_iff,Option.pure_def,
      Option.some.injEq] at h
    obtain ⟨b,hb,rest,hrest,rfl⟩ := h
    refine forall_mem_cons.mpr ⟨⟨b,hb,?_⟩,?_⟩
    · rintro rfl
      simp
    · intro x hx
      obtain ⟨c,hc,hkept⟩ := ih hrest x hx
      refine ⟨c,hc,fun hyes => ?_⟩
      split_ifs
      · exact mem_cons_of_mem _ (hkept hyes)
      · exact hkept hyes

theorem filterOpt_total {α : Type} {p : α → Option Bool} {as : List α}
    (h : ∀ a ∈ as, ∃ b, p a = some b) : ∃ kept, filterOpt p as = some kept := by
  induction as with
  | nil => exact ⟨[],rfl⟩
  | cons a as ih =>
    obtain ⟨b,hb⟩ := h a mem_cons_self
    obtain ⟨kept,hkept⟩ := ih fun x hx => h x (mem_cons_of_mem _ hx)
    simp [filterOpt,hb,hkept]

/-- Of live attestations the heads are they themselves. -/
theorem mem_collectHeads {heads out : List Attestation}
    (hl : ∀ e ∈ l, index.get e.1 = some e.2 ∧ Live index now e)
    (hheads : ∀ e ∈ heads, index.get e.1 = some e.2)
    (h : collectHeads index now n l heads = some out) : a ∈ out ↔ a ∈ heads ∨ a ∈ l := by
  induction l generalizing heads with
  | nil =>
    obtain rfl := Option.some.inj h
    simp
  | cons e l ih =>
    obtain ⟨hget,hlive⟩ := hl e mem_cons_self
    have hrest := fun x hx => hl x (mem_cons_of_mem e hx)
    unfold collectHeads at h
    rw [Option.bind_eq_bind,Option.bind_eq_some_iff] at h
    obtain ⟨head,hhead,h⟩ := h
    obtain rfl := findLiveHead_self hget hlive hhead
    dsimp only at h
    split_ifs at h with hseen
    · rw [ih hrest hheads h,mem_cons]
      obtain ⟨b,hb,hsame⟩ := any_eq_true.mp hseen
      have hbe : b = e := eq_of_same_hash (hheads b hb) hget (of_decide_eq_true hsame)
      constructor
      · rintro (ha | ha)
        · exact .inl ha
        · exact .inr (.inr ha)
      · rintro (ha | rfl | ha)
        · exact .inl ha
        · exact .inl (hbe ▸ hb)
        · exact .inr ha
    · rw [ih hrest ?_ h,mem_append,mem_singleton,mem_cons,or_assoc]
      intro x hx
      rcases mem_append.mp hx with hx | hx
      · exact hheads x hx
      · exact mem_singleton.mp hx ▸ hget

theorem collectHeads_total
    (h : ∀ e ∈ l, ∃ head, findLiveHead index now n e = some head) (heads : List Attestation) :
    ∃ out, collectHeads index now n l heads = some out := by
  induction l generalizing heads with
  | nil => exact ⟨heads,rfl⟩
  | cons e l ih =>
    obtain ⟨head,hhead⟩ := h e mem_cons_self
    have hrest := ih fun x hx => h x (mem_cons_of_mem e hx)
    unfold collectHeads
    rw [hhead,Option.bind_eq_bind,Option.bind_some]
    cases head with
    | none => exact hrest heads
    | some head =>
      dsimp only
      split_ifs
      · exact hrest heads
      · exact hrest _

theorem minByHash_none (h : minByHash l = none) : l = [] := by
  cases l with
  | nil => rfl
  | cons e l =>
    unfold minByHash at h
    split at h
    · cases h
    · split_ifs at h

theorem minByHash_some {m : Attestation} (h : minByHash l = some m) :
    m ∈ l ∧ ∀ a ∈ l, m.1 ≤ a.1 := by
  induction l generalizing m with
  | nil => cases h
  | cons e l ih =>
    unfold minByHash at h
    split at h
    · rename_i hnone
      obtain rfl := Option.some.inj h
      simp [minByHash_none hnone]
    · rename_i k hk
      obtain ⟨hmem,hleast⟩ := ih hk
      split_ifs at h with hlt
      · obtain rfl := Option.some.inj h
        exact ⟨mem_cons_of_mem _ hmem,forall_mem_cons.mpr ⟨hlt.le,hleast⟩⟩
      · obtain rfl := Option.some.inj h
        refine ⟨mem_cons_self,forall_mem_cons.mpr ⟨le_rfl,?_⟩⟩
        exact fun a ha => (not_lt.mp hlt).trans (hleast a ha)

variable (index now) in
/-- The live attestation about a party with the smallest hash. -/
structure Parent (party : Hash) (a : Attestation) : Prop where
  indexed : index.get a.1 = some a.2
  about : a.2.attested = party
  live : Live index now a
  least : ∀ e, index.get e.1 = some e.2 → e.2.attested = party → Live index now e → a.1 ≤ e.1

theorem Parent.unique {party : Hash} {b : Attestation} (ha : Parent index now party a)
    (hb : Parent index now party b) : a = b := by
  apply eq_of_same_hash ha.indexed hb.indexed
  exact le_antisymm (ha.least b hb.indexed hb.about hb.live) (hb.least a ha.indexed ha.about ha.live)

/-- What authorises a party is its parent, and where nothing does nothing about it is live. -/
theorem defaultFindAuthorizing_spec {party : Hash} {found : Option Attestation}
    (h : defaultFindAuthorizing index now n party = some found) :
    (∀ a, found = some a → Parent index now party a) ∧
    (found = none → ∀ e, index.get e.1 = some e.2 → e.2.attested = party → ¬Live index now e) := by
  unfold defaultFindAuthorizing at h
  rw [Option.bind_eq_bind,Option.bind_eq_some_iff] at h
  obtain ⟨live,hfilter,h⟩ := h
  obtain ⟨heads,hheads,h⟩ := Option.bind_eq_some_iff.mp h
  obtain rfl := Option.some.inj h
  have hlive : ∀ e, e ∈ live ↔ index.get e.1 = some e.2 ∧ e.2.attested = party ∧
      Live index now e := by
    intro e
    constructor
    · intro he
      obtain ⟨htargeting,hyes⟩ := mem_filterOpt hfilter e he
      obtain ⟨hget,habout,-⟩ := mem_targeting.mp htargeting
      exact ⟨hget,habout,n,hyes⟩
    · rintro ⟨hget,habout,hyes⟩
      obtain ⟨b,hb,hkept⟩ := filterOpt_spec hfilter e (mem_targeting.mpr ⟨hget,habout,rfl⟩)
      cases b with
      | true => exact hkept rfl
      | false => exact absurd hyes (not_live_of_false hb)
  have hmem : ∀ e, e ∈ heads ↔ e ∈ live := by
    intro e
    rw [mem_collectHeads (fun x hx => ⟨((hlive x).mp hx).1,((hlive x).mp hx).2.2⟩) (by simp) hheads]
    simp
  constructor
  · intro a ha
    obtain ⟨hin,hleast⟩ := minByHash_some ha
    obtain ⟨hget,habout,hyes⟩ := (hlive a).mp ((hmem a).mp hin)
    exact ⟨hget,habout,hyes,fun e he habout hyes =>
      hleast e ((hmem e).mpr ((hlive e).mpr ⟨he,habout,hyes⟩))⟩
  · intro hnone e hget habout hyes
    have hin := (hmem e).mpr ((hlive e).mpr ⟨hget,habout,hyes⟩)
    rw [minByHash_none hnone] at hin
    cases hin

variable (index now n) in
/-- Every question about an attestation of the index is answered. -/
def Answers : Prop := ∀ e, index.get e.1 = some e.2 →
  (∃ b, isAttestationLive index now n e = some b) ∧ ∃ head, findLiveHead index now n e = some head

theorem answers_of_acyclic (hacyclic : index.Acyclic) (now : ℕ) :
    ∃ N, ∀ n, N ≤ n → Answers index now n := by
  obtain ⟨m,hm⟩ := @decides_together index now index.byHash.entries fun e _ => decides hacyclic e
  have hheads : ∀ l : List Attestation, ∃ N, ∀ n, N ≤ n → ∀ e ∈ l,
      ∃ head, findLiveHead index now n e = some head := by
    intro l
    induction l with
    | nil => exact ⟨0,by simp⟩
    | cons e l ih =>
      obtain ⟨k,head,hk⟩ := @findLiveHead_total _ now hacyclic e
      obtain ⟨N,hN⟩ := ih
      refine ⟨max k N,fun n hn => forall_mem_cons.mpr ⟨⟨head,?_⟩,?_⟩⟩
      · exact hk n ((Nat.le_max_left k N).trans hn)
      · exact hN n ((Nat.le_max_right k N).trans hn)
  obtain ⟨N,hN⟩ := hheads index.byHash.entries
  refine ⟨max m N,fun n hn e he => ⟨?_,hN n ((Nat.le_max_right m N).trans hn) e (mem_entries.mpr he)⟩⟩
  obtain ⟨b,hb⟩ := hm e (mem_entries.mpr he)
  exact ⟨b,isAttestationLive_extends ((Nat.le_max_left m N).trans hn) e b hb⟩

theorem Answers.finds (hanswers : Answers index now n) {party : Hash}
    (ha : Parent index now party a) : defaultFindAuthorizing index now n party = some (some a) := by
  have hindexed : ∀ e ∈ index.findAttestationsTargeting party fun _ => true,
      index.get e.1 = some e.2 := fun e he => (mem_targeting.mp he).1
  obtain ⟨live,hlive⟩ := filterOpt_total fun e he => (hanswers e (hindexed e he)).1
  obtain ⟨heads,hheads⟩ := collectHeads_total (l := live) (fun e he =>
    (hanswers e (hindexed e (mem_filterOpt hlive e he).1)).2) []
  have hfound : defaultFindAuthorizing index now n party = some (minByHash heads) := by
    unfold defaultFindAuthorizing
    rw [hlive,Option.bind_eq_bind,Option.bind_some,hheads]
    rfl
  obtain ⟨hsome,hnone⟩ := defaultFindAuthorizing_spec hfound
  cases hmin : minByHash heads with
  | none => exact absurd ha.live (hnone hmin a ha.indexed ha.about)
  | some b => rw [hfound,hmin,(hsome b hmin).unique ha]

end Parents

/-! The chain above a certificate. -/

section Climbing

variable {index : AttestationIndex} {now n : ℕ} {terminate : AttestationData → Bool}

variable (index now terminate) in
/-- Each link's parent comes after it, up to the first that ends the walk. -/
inductive Climbs : Attestation → List Attestation → Prop
  | top {a : Attestation} (ends : terminate a.2 = true) : Climbs a [a]
  | link {a b : Attestation} {rest : List Attestation} (goes : terminate a.2 = false)
      (parent : Parent index now a.2.attesting b) (above : Climbs b rest) : Climbs a (a::rest)

theorem climbs_of_walk {depth : ℕ} {chain : List Attestation}
    (h : walkAttestingChain index now n terminate depth a = some (some chain)) :
    Climbs index now terminate a chain ∧ chain.length ≤ depth := by
  induction depth generalizing a chain with
  | zero => cases h
  | succ depth ih =>
    unfold walkAttestingChain at h
    split_ifs at h with hend
    · obtain rfl : [a] = chain := Option.some.inj (Option.some.inj h)
      exact ⟨.top hend,by simp⟩
    · rw [Option.bind_eq_bind,Option.bind_eq_some_iff] at h
      obtain ⟨found,hfound,h⟩ := h
      cases found with
      | none => cases h
      | some parent =>
        dsimp only at h
        rw [Option.bind_eq_bind,Option.bind_eq_some_iff] at h
        obtain ⟨above,habove,hchain⟩ := h
        cases above with
        | none => cases hchain
        | some above =>
          obtain rfl : a::above = chain := Option.some.inj (Option.some.inj hchain)
          obtain ⟨hclimbs,hlength⟩ := ih habove
          refine ⟨.link (Bool.eq_false_iff.mpr hend) ?_ hclimbs,by simpa using hlength⟩
          exact (defaultFindAuthorizing_spec hfound).1 parent rfl

theorem walk_of_climbs (hanswers : Answers index now n)
    {chain : List Attestation} (h : Climbs index now terminate a chain) {depth : ℕ}
    (hdepth : chain.length ≤ depth) :
    walkAttestingChain index now n terminate depth a = some (some chain) := by
  induction h generalizing depth with
  | top ends =>
    obtain ⟨d,rfl⟩ : ∃ d, depth = d+1 := ⟨depth-1,by simp at hdepth; omega⟩
    unfold walkAttestingChain
    rw [if_pos ends]
  | link goes parent above ih =>
    rw [length_cons] at hdepth
    obtain ⟨d,rfl⟩ : ∃ d, depth = d+1 := ⟨depth-1,by omega⟩
    unfold walkAttestingChain
    rw [if_neg (Bool.eq_false_iff.mp goes),hanswers.finds parent,Option.bind_eq_bind,
      Option.bind_some]
    dsimp only
    rw [ih (by omega)]
    rfl

end Climbing

/-! One attestation more. -/

def QuorumCtx.adding (ctx : QuorumCtx) (added : Attestation) : QuorumCtx :=
  { ctx with index := ctx.index.insert added.1 added.2 }

section Adding

variable (index : AttestationIndex) (now : ℕ) (added att : Attestation) (chain : List Attestation)

/-- It supersedes no link and revokes none. -/
def SparesLinks : Prop := ∀ link ∈ chain, added.2.supersedes ≠ some link.1 ∧
  ¬(added.2.attested = link.1 ∧ added.2.kind = some kindRevocation)

/-- What the verification asks about: the certificate, its revocations, and the attestations
about the parties that attest its chain. -/
def Asked (e : Attestation) : Prop := e = att ∨ index.get e.1 = some e.2 ∧
  (e ∈ index.findRevocationsFor att.1 ∨ ∃ link ∈ chain, e.2.attested = link.2.attesting)

/-- It is new, no answer that the verification needs consults it, where it is about a party of
the chain its hash is no smaller than the parent's, and it says nothing about a signer set. -/
structure StaysBehind : Prop where
  new : index.get added.1 = none
  spares : SparesLinks added chain
  unconsulted : ∀ e, Asked index att chain e →
    ∀ d, Consults (index.insert added.1 added.2) e d → d.1 ≠ added.1
  behind : ∀ link ∈ chain, added.2.attested = link.2.attesting →
    Live (index.insert added.1 added.2) now added →
    ∀ parent, Parent index now link.2.attesting parent → parent.1 ≤ added.1
  noUpdate : isUpdate added.2 = true → ∀ link ∈ chain, added.2.attested ≠ link.2.attesting

variable {index now added att chain}

theorem get_adding (hnew : index.get added.1 = none) (h : Hash) :
    (index.insert added.1 added.2).get h = if h = added.1 then some added.2 else index.get h := by
  rw [get_insert,hnew]
  rfl

theorem get_kept (hnew : index.get added.1 = none)
    (he : index.get e.1 = some e.2) : (index.insert added.1 added.2).get e.1 = some e.2 := by
  rw [get_adding hnew,if_neg ?_]
  · exact he
  · intro hsame
    rw [hsame,hnew] at he
    cases he

theorem get_adding_self (hnew : index.get added.1 = none) :
    (index.insert added.1 added.2).get added.1 = some added.2 := by
  rw [get_adding hnew,if_pos rfl]

theorem eq_added_or_kept (he : (index.insert added.1 added.2).get e.1 = some e.2) :
    e = added ∨ index.get e.1 = some e.2 := by
  rw [get_insert] at he
  split_ifs at he with hsame
  · cases hold : index.get added.1 with
    | none =>
      rw [hold] at he
      exact .inl (Prod.ext hsame (Option.some.inj he).symm)
    | some a =>
      rw [hold] at he
      rw [hsame,hold]
      exact .inr he
  · exact .inr he

/-- What supersedes nothing and revokes nothing is consulted about itself only. -/
theorem unconsulted_of_inert (hnew : index.get added.1 = none)
    (hsupersedes : added.2.supersedes = none) (hkind : added.2.kind ≠ some kindRevocation)
    {d : Attestation} (he : e.1 ≠ added.1)
    (hd : Consults (index.insert added.1 added.2) e d) : d.1 ≠ added.1 := by
  have hown : ∀ {x : Attestation}, (index.insert added.1 added.2).get x.1 = some x.2 →
      x.1 = added.1 → x.2 = added.2 := by
    intro x hx hsame
    rw [get_adding hnew,if_pos hsame] at hx
    exact (Option.some.inj hx).symm
  intro hsame
  cases hd with
  | self => exact he hsame
  | revocation _ revokes _ =>
    obtain ⟨hget,-,hrevocation⟩ := mem_revocations.mp revokes
    rw [hown hget hsame] at hrevocation
    exact hkind hrevocation
  | successor _ supersedes =>
    obtain ⟨hget,hsuccessor⟩ := mem_supersedes.mp supersedes
    rw [hown hget hsame,hsupersedes] at hsuccessor
    cases hsuccessor

theorem Climbs.asked {terminate : AttestationData → Bool} (h : Climbs index now terminate att chain)
    (hlink : link ∈ chain.tail) : Asked index att chain link := by
  have habove : ∀ {a : Attestation} {links : List Attestation}, Climbs index now terminate a links →
      link ∈ links.tail → index.get link.1 = some link.2 ∧
        ∃ below ∈ links, link.2.attested = below.2.attesting := by
    intro a links hclimbs
    induction hclimbs with
    | top => exact fun hin => absurd hin not_mem_nil
    | @link a b rest goes parent above ih =>
      intro hin
      rw [tail_cons] at hin
      obtain ⟨rest',hrest⟩ : ∃ rest', rest = b::rest' := by
        cases above with
        | top => exact ⟨[],rfl⟩
        | link => exact ⟨_,rfl⟩
      rw [hrest,mem_cons] at hin
      rcases hin with rfl | hin
      · exact ⟨parent.indexed,a,mem_cons_self,parent.about⟩
      · obtain ⟨hget,below,hbelow,habout⟩ := ih (hrest ▸ hin)
        exact ⟨hget,below,mem_cons_of_mem _ hbelow,habout⟩
  obtain ⟨hget,hbelow⟩ := habove h hlink
  exact .inr ⟨hget,.inr hbelow⟩

variable (h : StaysBehind index now added att chain)

include h

theorem StaysBehind.agree (he : Asked index att chain e) :
    AgreeAlong index (index.insert added.1 added.2) e ∧
      AgreeAlong (index.insert added.1 added.2) index e := by
  have hself := h.unconsulted e he e .self
  constructor
  · intro d hd
    rw [get_adding h.new,if_neg ?_]
    rcases Consults.indexed hd with rfl | hget
    · exact hself
    · intro hsame
      rw [hsame,h.new] at hget
      cases hget
  · intro d hd
    rw [get_adding h.new,if_neg (h.unconsulted e he d hd)]

theorem StaysBehind.live_eq (he : Asked index att chain e) (n : ℕ) :
    isAttestationLive (index.insert added.1 added.2) now n e = isAttestationLive index now n e :=
  (isAttestationLive_eq (h.agree he).1 (h.agree he).2 now n e .self).symm

theorem StaysBehind.live_iff (he : Asked index att chain e) :
    Live (index.insert added.1 added.2) now e ↔ Live index now e := by
  unfold Live
  simp only [h.live_eq he]

/-- No parent loses its place. -/
theorem StaysBehind.parent (hlink : link ∈ chain) (ha : Parent index now link.2.attesting a) :
    Parent (index.insert added.1 added.2) now link.2.attesting a where
  indexed := get_kept h.new ha.indexed
  about := ha.about
  live := (h.live_iff (.inr ⟨ha.indexed,.inr ⟨link,hlink,ha.about⟩⟩)).mpr ha.live
  least := by
    intro e hget habout hlive
    rcases eq_added_or_kept hget with rfl | hkept
    · exact h.behind link hlink habout hlive a ha
    · refine ha.least e hkept habout ?_
      exact (h.live_iff (.inr ⟨hkept,.inr ⟨link,hlink,habout⟩⟩)).mp hlive

theorem StaysBehind.climbs {terminate : AttestationData → Bool} {start : Attestation}
    {links : List Attestation} (hclimbs : Climbs index now terminate start links)
    (hlinks : ∀ link ∈ links, link ∈ chain) :
    Climbs (index.insert added.1 added.2) now terminate start links := by
  induction hclimbs with
  | top ends => exact .top ends
  | link goes parent above ih =>
    refine .link goes (h.parent (hlinks _ mem_cons_self) parent) (ih ?_)
    exact fun link hlink => hlinks link (mem_cons_of_mem _ hlink)

theorem StaysBehind.findLiveHead_eq (he : Asked index att chain e) (n : ℕ) :
    findLiveHead (index.insert added.1 added.2) now n e = findLiveHead index now n e := by
  obtain ⟨hI,hJ⟩ := h.agree he
  symm
  refine walk_congr (P := Consults index e) ?_ ?_ n [] none ?_
  · intro best a ha
    rw [isAttestationLive_eq hI hJ now n a ha,successors_eq hI hJ ha]
  · intro best a best' pushed ha hvisit d hd
    obtain ⟨live,-,hcase⟩ := Option.map_eq_some_iff.mp hvisit
    obtain ⟨-,rfl⟩ := Visit.more.inj hcase
    exact .successor ha hd
  · intro a ha
    rw [mem_singleton] at ha
    exact ha ▸ .self

end Adding

section Verdict

variable {X : Platform} {ctx : QuorumCtx} {now steps n : ℕ} {added att : Attestation}
  {chain : List Attestation}

theorem findLiveHead_extends {index : AttestationIndex} {start : Attestation}
    {head : Option Attestation} (hn : steps ≤ n)
    (h : findLiveHead index now steps start = some head) :
    findLiveHead index now n start = some head := by
  refine walk_extends ?_ hn h
  intro best e v hv
  obtain ⟨live,hlive,rfl⟩ := Option.map_eq_some_iff.mp hv
  exact Option.map_eq_some_iff.mpr ⟨live,isAttestationLive_extends hn e live hlive,rfl⟩

theorem countSignatures_adding (entityHash : Hash) (threshold : ℕ) (signers signed : List Hash) :
    countSignatures X (ctx.adding added) entityHash threshold signers signed =
      countSignatures X ctx entityHash threshold signers signed := by
  induction signers generalizing signed with
  | nil => rfl
  | cons s signers ih =>
    have hs : verifySpecificSigner X (ctx.adding added).toAttestationCtx entityHash s =
        verifySpecificSigner X ctx.toAttestationCtx entityHash s := rfl
    simp only [countSignatures,hs,ih]

theorem checkDual_adding (hash : Hash) (signers : List Hash) :
    checkDual X (ctx.adding added) hash signers = checkDual X ctx hash signers := by
  induction signers with
  | nil => rfl
  | cons s signers ih =>
    have hs : verifySpecificSigner X (ctx.adding added).toAttestationCtx hash s =
        verifySpecificSigner X ctx.toAttestationCtx hash s := rfl
    simp only [checkDual,hs,ih]

/-- Signatures are found in the stores, not in the index. -/
theorem checkTopology_adding (link : Attestation) (topology : Topology) :
    checkTopology X (ctx.adding added) link topology = checkTopology X ctx link topology := by
  cases topology with
  | single expectedSigner => rfl
  | dual signers => exact checkDual_adding link.1 signers
  | kOfN signers threshold =>
    simp only [checkTopology,verifyKOfNSignatures,countSignatures_adding]

variable (h : StaysBehind ctx.index now added att chain) (hn : steps ≤ n)

include h

theorem StaysBehind.chainHeads_eq (hlink : link ∈ chain) :
    chainHeads (ctx.adding added) link.2.attesting = chainHeads ctx link.2.attesting := by
  have hupdates : quorumUpdates (ctx.adding added) link.2.attesting =
      quorumUpdates ctx link.2.attesting := by
    apply eq_of_hash_sorted
      ((fetch_sorted ((ctx.adding added).index.byAttested.lookup_sorted _)).filter _)
      ((fetch_sorted (ctx.index.byAttested.lookup_sorted _)).filter _)
    intro e
    show e ∈ (ctx.index.insert added.1 added.2).findAttestationsTargeting _ _ ↔
      e ∈ ctx.index.findAttestationsTargeting _ _
    rw [mem_targeting,mem_targeting]
    constructor
    · rintro ⟨hget,habout,hupdate⟩
      rcases eq_added_or_kept hget with rfl | hkept
      · exact absurd habout (h.noUpdate hupdate link hlink)
      · exact ⟨hkept,habout,hupdate⟩
    · rintro ⟨hget,habout,hupdate⟩
      exact ⟨get_kept h.new hget,habout,hupdate⟩
  unfold chainHeads
  rw [hupdates]

include hn

theorem StaysBehind.applyUpdates {set set' : SignerSet} {heads : List Attestation}
    (hheads : ∀ u ∈ heads, Asked ctx.index att chain u)
    (hset : applyUpdates ctx.index now steps none set heads = some set') :
    EntityCore.applyUpdates (ctx.adding added).index now n none set heads = some set' := by
  induction heads with
  | nil => exact hset
  | cons u heads ih =>
    unfold EntityCore.applyUpdates at hset ⊢
    rw [Option.bind_eq_bind,Option.bind_eq_some_iff] at hset ⊢
    obtain ⟨found,hfound,hset⟩ := hset
    obtain ⟨head,hhead,rfl⟩ := Option.map_eq_some_iff.mp hfound
    refine ⟨head.map Prod.snd,Option.map_eq_some_iff.mpr ⟨head,?_,rfl⟩,?_⟩
    · exact (h.findLiveHead_eq (hheads u mem_cons_self) n).trans
        (findLiveHead_extends hn hhead)
    · cases head with
      | none => exact ih (fun x hx => hheads x (mem_cons_of_mem _ hx)) hset
      | some head => exact hset

/-- The signer sets that links need are the same. -/
theorem StaysBehind.currentSignerSet (hlink : link ∈ chain) {answer : Except QuorumError SignerSet}
    (hset : currentSignerSet X ctx now steps link.2.attesting = some answer) :
    EntityCore.currentSignerSet X (ctx.adding added) now n link.2.attesting = some answer := by
  unfold EntityCore.currentSignerSet currentSignerSetAsOf at hset ⊢
  have hcache : (ctx.adding added).signerSetCache = ctx.signerSetCache := rfl
  rw [hcache]
  split at hset
  · exact hset
  · unfold computeSignerSet at hset ⊢
    have hload : loadQuorum X (ctx.adding added) link.2.attesting =
        loadQuorum X ctx link.2.attesting := rfl
    rw [hload]
    cases hquorum : loadQuorum X ctx link.2.attesting with
    | error e =>
      rw [hquorum] at hset
      exact hset
    | ok quorum =>
      rw [hquorum] at hset
      obtain ⟨set,hupdates,rfl⟩ := Option.map_eq_some_iff.mp hset
      refine Option.map_eq_some_iff.mpr ⟨set,?_,rfl⟩
      rw [h.chainHeads_eq hlink]
      refine h.applyUpdates hn ?_ hupdates
      intro u hu
      obtain ⟨hget,habout,-⟩ := mem_targeting.mp (mem_filter.mp hu).1
      exact .inr ⟨hget,.inr ⟨link,hlink,habout⟩⟩

theorem StaysBehind.topology (hlink : link ∈ chain) {found : Option Topology}
    (htopology : identityTopologyFor X ctx now steps link.2 = some found) :
    identityTopologyFor X (ctx.adding added) now n link.2 = some found := by
  have hquorum : ∀ found, quorumTopology X ctx now steps link.2 = some found →
      quorumTopology X (ctx.adding added) now n link.2 = some found := by
    intro found hfound
    obtain ⟨answer,hanswer,rfl⟩ := Option.map_eq_some_iff.mp hfound
    exact Option.map_eq_some_iff.mpr ⟨answer,h.currentSignerSet hn hlink hanswer,rfl⟩
  have hquorumLink : identityIsQuorumLink (ctx.adding added) link.2 =
      identityIsQuorumLink ctx link.2 := rfl
  unfold identityTopologyFor at htopology ⊢
  rw [hquorumLink]
  cases hkind : link.2.kind with
  | none =>
    rw [hkind] at htopology
    exact htopology
  | some kind =>
    rw [hkind] at htopology
    dsimp only at htopology ⊢
    by_cases hcert : kind = kindIdentityCert
    · rw [if_pos hcert] at htopology ⊢
      cases hfunction : (readFunction link.2).bind CertFunction.parseOptional with
      | none =>
        rw [hfunction] at htopology
        exact htopology
      | some function =>
        rw [hfunction] at htopology
        cases function with
        | controller =>
          dsimp only at htopology ⊢
          split_ifs at htopology ⊢
          · exact hquorum _ htopology
          · exact htopology
        | agent => exact htopology
        | identifier => exact htopology
    · rw [if_neg hcert] at htopology ⊢
      split_ifs at htopology ⊢
      · exact htopology
      · exact hquorum _ htopology
      · exact htopology

theorem StaysBehind.signed (hlink : link ∈ chain)
    (hsigned : (verifySignatures X ctx now steps link).Accepts ()) :
    (verifySignatures X (ctx.adding added) now n link).Accepts () := by
  rw [verifySignatures_accepts] at hsigned ⊢
  obtain ⟨topology,hfound,hchecked⟩ := hsigned
  exact ⟨topology,h.topology hn hlink hfound,(checkTopology_adding link topology).trans hchecked⟩

theorem StaysBehind.requireLive (he : Asked ctx.index att chain e)
    (hlive : (requireLive ctx now steps e).Accepts ()) :
    (EntityCore.requireLive (ctx.adding added) now n e).Accepts () := by
  rw [requireLive_accepts] at hlive ⊢
  exact (h.live_eq he n).trans (isAttestationLive_extends hn e true hlive)

/-- Whoever may revoke is the same, so nobody has revoked. -/
theorem StaysBehind.unrevoked (hatt : att ∈ chain)
    (hanswers : Answers (ctx.adding added).index now n)
    (hchain : chainToQuorum ctx now steps att = some (some chain))
    (hchain' : chainToQuorum (ctx.adding added) now n att = some (some chain))
    (hrevoked : authorityRevoked ctx now steps att = some false) :
    authorityRevoked (ctx.adding added) now n att = some false := by
  have hrevoker : ∀ revoker, identityIsAuthorizedRevoker (ctx.adding added) now n revoker att =
      identityIsAuthorizedRevoker ctx now steps revoker att := by
    intro revoker
    unfold identityIsAuthorizedRevoker
    rw [hchain,hchain']
  have hsame : (ctx.adding added).index.findRevocationsFor att.1 =
      ctx.index.findRevocationsFor att.1 := by
    apply eq_of_hash_sorted (revocations_sorted _) (revocations_sorted _)
    intro r
    show r ∈ (ctx.index.insert added.1 added.2).findRevocationsFor _ ↔ _
    rw [mem_revocations,mem_revocations]
    constructor
    · rintro ⟨hget,habout,hkind⟩
      rcases eq_added_or_kept hget with rfl | hkept
      · exact absurd ⟨habout,hkind⟩ (h.spares att hatt).2
      · exact ⟨hkept,habout,hkind⟩
    · rintro ⟨hget,habout,hkind⟩
      exact ⟨get_kept h.new hget,habout,hkind⟩
  unfold authorityRevoked at hrevoked ⊢
  rw [hsame]
  refine anyOpt_eq_false (fun r hr => ?_) fun r hr hyes => ?_
  · obtain ⟨⟨live,hlive⟩,-⟩ := hanswers r (get_kept h.new (mem_revocations.mp hr).1)
    rw [hlive]
    cases live with
    | false => exact ⟨false,rfl⟩
    | true =>
      unfold identityIsAuthorizedRevoker
      rw [hchain']
      exact ⟨_,rfl⟩
  · have hasked : Asked ctx.index att chain r := .inr ⟨(mem_revocations.mp hr).1,.inl hr⟩
    have hno := anyOpt_false hrevoked r hr
    cases hlive : isAttestationLive ctx.index now steps r with
    | none =>
      rw [hlive] at hno
      cases hno
    | some live =>
      have hlive' := (h.live_eq hasked n).trans (isAttestationLive_extends hn r live hlive)
      change isAttestationLive (ctx.adding added).index now n r = some live at hlive'
      rw [hlive'] at hyes
      rw [hlive] at hno
      cases live with
      | false => cases hyes
      | true =>
        dsimp only at hyes hno
        rw [hrevoker,hno] at hyes
        cases hyes

end Verdict

/-- An accepted certificate stays accepted when an attestation is added that stays behind the
parents of its chain. -/
theorem cert_not_masked (X : Platform) (ctx : QuorumCtx) (now steps : ℕ) (att added : Attestation)
    (haccepted : (identityVerifyCert X ctx now steps att).Accepts ())
    (hacyclic : (ctx.adding added).index.Acyclic) (chain : List Attestation)
    (hchain : chainToQuorum ctx now steps att = some (some chain))
    (hbehind : StaysBehind ctx.index now added att chain) :
    ∃ N, ∀ n, N ≤ n → (identityVerifyCert X (ctx.adding added) now n att).Accepts () := by
  obtain ⟨N,hN⟩ := answers_of_acyclic hacyclic now
  refine ⟨max steps N,?_⟩
  intro n hn
  have hsteps := (Nat.le_max_left steps N).trans hn
  have hanswers := hN n ((Nat.le_max_right steps N).trans hn)
  obtain ⟨hclimbs,hlength⟩ := climbs_of_walk hchain
  have hchain' : chainToQuorum (ctx.adding added) now n att = some (some chain) :=
    walk_of_climbs hanswers (hbehind.climbs hclimbs fun _ hlink => hlink) hlength
  obtain ⟨rest,hrest,-⟩ := walkAttestingChain_some hchain
  have hatt : att ∈ chain := hrest ▸ List.mem_cons_self
  obtain ⟨-,hrevoked,hsigned,found,hfound,hlinks⟩ := identityVerifyCert_accepts haccepted
  obtain rfl : found = chain := Option.some.inj (Option.some.inj (hfound.symm.trans hchain))
  unfold identityVerifyCert at haccepted ⊢
  rw [Verifying.seq_accepts,Verifying.seq_accepts,Verifying.seq_accepts,Verifying.seq_accepts]
    at haccepted ⊢
  obtain ⟨hstructure,hlive,-,-,-⟩ := haccepted
  refine ⟨hstructure,hbehind.requireLive hsteps (.inl rfl) hlive,?_,
    hbehind.signed hsteps hatt hsigned,?_⟩
  · rw [requireUnrevoked_accepts]
    exact hbehind.unrevoked hsteps hatt hanswers hchain hchain' hrevoked
  · unfold verifyChain
    split_ifs
    · rfl
    · rw [Verifying.bind_accepts]
      refine ⟨some found,?_,?_⟩
      · unfold Verifying.Accepts
        rw [ExceptT.run_lift,hchain']
        rfl
      · refine verifyLinks_accepts.mpr ?_
        intro link hlink
        have hin : link ∈ found := List.mem_of_mem_tail hlink
        have hverified := hlinks link hlink
        unfold identityVerifyCertNoChain at hverified ⊢
        rw [Verifying.seq_accepts] at hverified ⊢
        exact ⟨hbehind.requireLive hsteps (hclimbs.asked hlink) hverified.1,
          hbehind.signed hsteps hin hverified.2⟩

namespace MaskingSample

open Sample IdentitySample

def issued : List Issued := [bobController,carolController,daveAgent]

/-- Alice's words about bob, signed by nobody. -/
def greeting : Attestation := (sha256Hash 0x2ded93bc9469f9dce99d7a07693513c01f36b312064428f318e8846552067a9b,
  ⟨alice.contentHash,bob.contentHash,[(txt "kind",txt "greeting")],none,none,none⟩)

def rating : Attestation := (sha256Hash 0xa4596c3af590d2b390c2526bef030faf3bc87b154ac7fddec06dc61032ccacb5,
  ⟨alice.contentHash,bob.contentHash,[(txt "kind",txt "rating")],none,none,none⟩)

theorem accepted : (identityVerifyCert identityCrates (peer issued) 1 12 daveAgent.att).Accepts () :=
  accepted_of_accepts (by decide +kernel)

theorem mem_issued (h : (peer issued).index.get e.1 = some e.2) :
    e = daveAgent.att ∨ e = carolController.att ∨ e = bobController.att := by
  change (((AttestationIndex.new.insert bobController.att.1 bobController.att.2).insert
    carolController.att.1 carolController.att.2).insert daveAgent.att.1 daveAgent.att.2).get e.1 =
      some e.2 at h
  rcases eq_added_or_kept h with rfl | h
  · exact .inl rfl
  rcases eq_added_or_kept h with rfl | h
  · exact .inr (.inl rfl)
  rcases eq_added_or_kept h with rfl | h
  · exact .inr (.inr rfl)
  · cases h

/-- Attestations name peers. -/
theorem acyclic {added : Attestation} (hattested : added.2.attested = bob.contentHash)
    (hsupersedes : added.2.supersedes = none) (hhash : added.1 ∉ [bob.contentHash,carol.contentHash,
      dave.contentHash]) : ((peer issued).adding added).index.Acyclic := by
  have hkeys : ∀ h ∈ [bob.contentHash,carol.contentHash,dave.contentHash],
      h ∉ [daveAgent.att.1,carolController.att.1,bobController.att.1] := by decide
  refine AttestationIndex.acyclic_of_rank (fun h =>
    if h ∈ [bob.contentHash,carol.contentHash,dave.contentHash] then 0 else 1) ?_
  rintro h g ⟨a,ha,hname⟩
  have hpeer : h ∈ [bob.contentHash,carol.contentHash,dave.contentHash] ∧
      g ∉ [bob.contentHash,carol.contentHash,dave.contentHash] := by
    rcases eq_added_or_kept (e := (g,a)) ha with hsame | hkept
    · obtain ⟨rfl,rfl⟩ := Prod.ext_iff.mp hsame
      rw [hattested,hsupersedes] at hname
      rcases hname with rfl | hname
      · exact ⟨mem_cons_self,hhash⟩
      · cases hname
    · rcases mem_issued (e := (g,a)) hkept with hsame | hsame | hsame
      all_goals
        obtain ⟨hg,rfl⟩ := Prod.ext_iff.mp hsame
        dsimp only at hg
        subst hg
        rcases hname with rfl | hname
        · exact ⟨by decide,fun hg => hkeys _ hg (by simp)⟩
        · cases hname
  simp [hpeer.1,hpeer.2]

end MaskingSample

open Sample IdentitySample MaskingSample

/-- A greeting about bob, with a smaller hash than bob's certificate, and dave's certificate is
verified no more. -/
theorem greeting_masks :
    ¬∀ (X : Platform) (ctx : QuorumCtx) (now steps : ℕ) (att added : Attestation),
      (identityVerifyCert X ctx now steps att).Accepts () → (ctx.adding added).index.Acyclic →
      ∀ chain, chainToQuorum ctx now steps att = some (some chain) → SparesLinks added chain →
        ∃ n, (identityVerifyCert X (ctx.adding added) now n att).Accepts () := by
  intro h
  obtain ⟨-,-,-,chain,hchain,-⟩ := identityVerifyCert_accepts accepted
  obtain ⟨n,hn⟩ := h _ _ _ _ _ greeting accepted (acyclic rfl rfl (by decide +kernel)) chain hchain
    fun link _ => ⟨nofun,fun hrevokes => absurd hrevokes.2 (by decide +kernel)⟩
  obtain ⟨-,-,-,chain',hchain',-⟩ := identityVerifyCert_accepts hn
  have hlinked : ∀ att ∈ [daveAgent.att,carolController.att,greeting],
      identityIsQuorumLink ((peer issued).adding greeting) att.2 = false := by decide +kernel
  have hparty : ∀ {party : Hash} {a : Attestation},
      Parent ((peer issued).adding greeting).index 1 party a → a.2.attested = party ∧
        a ∈ [greeting,daveAgent.att,carolController.att,bobController.att] := by
    intro party a ha
    refine ⟨ha.about,?_⟩
    rcases eq_added_or_kept ha.indexed with rfl | hkept
    · exact List.mem_cons_self
    · rcases mem_issued hkept with rfl | rfl | rfl <;> simp
  have hlive : Live ((peer issued).adding greeting).index 1 greeting := ⟨3,by decide +kernel⟩
  cases (climbs_of_walk hchain').1 with
  | top ends => exact Bool.noConfusion ((hlinked daveAgent.att (by simp)).symm.trans ends)
  | link _ parent above =>
    obtain ⟨hcarol,hmem⟩ := hparty parent
    simp only [List.mem_cons,List.not_mem_nil,or_false] at hmem
    rcases hmem with rfl | rfl | rfl | rfl
    · exact absurd hcarol (by decide +kernel)
    · exact absurd hcarol (by decide +kernel)
    · cases above with
      | top ends => exact Bool.noConfusion ((hlinked carolController.att (by simp)).symm.trans ends)
      | link _ parent above =>
        obtain ⟨hbob,hmem⟩ := hparty parent
        simp only [List.mem_cons,List.not_mem_nil,or_false] at hmem
        rcases hmem with rfl | rfl | rfl | rfl
        · cases above with
          | top ends => exact Bool.noConfusion ((hlinked greeting (by simp)).symm.trans ends)
          | link _ parent above =>
            -- nobody says anything about alice
            obtain ⟨halice,hmem⟩ := hparty parent
            simp only [List.mem_cons,List.not_mem_nil,or_false] at hmem
            rcases hmem with rfl | rfl | rfl | rfl <;> exact absurd halice (by decide +kernel)
        · exact absurd hbob (by decide +kernel)
        · exact absurd hbob (by decide +kernel)
        · exact absurd (parent.least greeting (get_adding_self rfl) rfl hlive) (by decide +kernel)
    · exact absurd hcarol (by decide +kernel)


/-- A rating of bob stays behind his certificate. -/
theorem cert_not_masked_sample : ∃ N, ∀ n, N ≤ n →
    (identityVerifyCert identityCrates ((peer issued).adding rating) 1 n daveAgent.att).Accepts () := by
  obtain ⟨-,-,-,chain,hchain,-⟩ := identityVerifyCert_accepts accepted
  refine cert_not_masked identityCrates (peer issued) 1 12 daveAgent.att rating accepted
    (acyclic rfl rfl (by decide)) chain hchain ?_
  have hnew : (peer issued).index.get rating.1 = none := rfl
  constructor
  · exact hnew
  · exact fun link _ => ⟨nofun,fun hrevokes => absurd hrevokes.2 (by decide)⟩
  · intro e he d hd
    refine unconsulted_of_inert hnew rfl (by decide) ?_ hd
    intro hsame
    rcases he with rfl | ⟨hget,-⟩
    · exact absurd hsame (by decide)
    · rw [hsame,hnew] at hget
      cases hget
  · intro link _ hbob _ parent hparent
    have habout := hparent.about.trans hbob.symm
    rcases mem_issued hparent.indexed with rfl | rfl | rfl
    · exact absurd habout (by decide)
    · exact absurd habout (by decide)
    · decide
  · exact fun hupdate => absurd hupdate (by decide)

end EntityCore
