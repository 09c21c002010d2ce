import EntityCore.BreadthFirst
import EntityCore.UntrackedPaths

/-! What a walk of the history brings a peer that has everything up to a watermark. The
walk is breadth first and ends at the watermark, whatever is still queued. -/
namespace EntityCore

open Outcome BreadthFirst List

variable {head v : Hash}

section Walk

variable (X : Platform) (s : ContentStore)

/-- A version that another has behind it, or itself. -/
def AncestorOrSelf (v head : Hash) : Prop := Relation.ReflTransGen (ParentOf X s) v head

def IsVersion (v : Hash) : Prop := (versionAt X s v).isSome

/-- No more versions than the limit are behind the head. -/
def FitsLimit (head : Hash) (limit : ℕ) : Prop :=
  ∀ l : List Hash, l.Nodup → (∀ v ∈ l, IsVersion X s v ∧ AncestorOrSelf X s v head) →
    l.length ≤ limit

/-- Every version behind the head and not behind the watermark is there, once. -/
def MissesNothing (head watermark : Hash) (history : List Hash) : Prop :=
  ∀ v, IsVersion X s v → AncestorOrSelf X s v head → ¬AncestorOrSelf X s v watermark →
    history.count v = 1

variable {X s}

theorem mem_parentsOf {p : Hash} : p ∈ parentsOf X s v ↔ ParentOf X s p v := by
  rw [parentsOf,ParentOf]
  cases versionAt X s v <;> simp

/-! The generations of a head end where there is no cycle. -/

theorem ancestor_of_generation {n : ℕ}
    (h : v ∈ generation (parentsOf X s) head n) : AncestorOrSelf X s v head := by
  induction n generalizing v with
  | zero =>
    rw [generation,mem_singleton] at h
    rw [h]
    exact .refl
  | succ n ih =>
    rw [generation,mem_flatMap] at h
    obtain ⟨u,hu,hv⟩ := h
    exact (ih hu).head (mem_parentsOf.mp hv)

/-- A version of a late generation has as many versions above it. -/
theorem descendants_of_generation (hacyclic : ∀ v, ¬Relation.TransGen (ParentOf X s) v v) {n : ℕ}
    (h : v ∈ generation (parentsOf X s) head n) : ∃ l : List Hash, l.length = n ∧ l.Nodup ∧
      ∀ u ∈ l, IsVersion X s u ∧ Relation.TransGen (ParentOf X s) v u := by
  induction n generalizing v with
  | zero => exact ⟨[],rfl,nodup_nil,fun u hu => by cases hu⟩
  | succ n ih =>
    rw [generation,mem_flatMap] at h
    obtain ⟨u,hu,hv⟩ := h
    have hparent := mem_parentsOf.mp hv
    obtain ⟨l,hlength,hnodup,habove⟩ := ih hu
    refine ⟨u::l,by rw [length_cons,hlength],nodup_cons.mpr ⟨?_,hnodup⟩,?_⟩
    · intro hmem
      exact hacyclic u (habove u hmem).2
    · intro w hw
      rcases mem_cons.mp hw with rfl | hw
      · refine ⟨?_,.single hparent⟩
        obtain ⟨d,hd,-⟩ := hparent
        rw [IsVersion,hd]
        rfl
      · exact ⟨(habove w hw).1,.head hparent (habove w hw).2⟩

theorem isVersion_stored (h : IsVersion X s v) : v ∈ s.puts.map Entity.contentHash := by
  obtain ⟨d,hd⟩ := Option.isSome_iff_exists.mp h
  obtain ⟨e,he,-⟩ := Option.bind_eq_some_iff.mp hd
  have hhash : e.contentHash = v := by simpa using find?_some he
  exact mem_map.mpr ⟨e,mem_of_find?_eq_some he,hhash⟩

/-- A store has no more versions than entities. -/
theorem fitsLimit_of_length {limit : ℕ} (h : s.puts.length ≤ limit) (head : Hash) :
    FitsLimit X s head limit := by
  intro l hnodup hl
  have hsub : l ⊆ s.puts.map Entity.contentHash := fun u hu => isVersion_stored (hl u hu).1
  have hle := (hnodup.subperm hsub).length_le
  rw [length_map] at hle
  omega

theorem generations_end (hacyclic : ∀ v, ¬Relation.TransGen (ParentOf X s) v v) (head : Hash) :
    generation (parentsOf X s) head (s.puts.length+1) = [] := by
  rw [eq_nil_iff_forall_not_mem]
  intro v hv
  obtain ⟨l,hlength,hnodup,habove⟩ := descendants_of_generation hacyclic hv
  have hsub : l ⊆ s.puts.map Entity.contentHash := fun u hu => isVersion_stored (habove u hu).1
  have hle := (hnodup.subperm hsub).length_le
  rw [hlength,length_map] at hle
  omega

/-! The walk goes with the queue of all routes. -/

theorem mem_of_limit {limit : ℕ} (hlimit : FitsLimit X s head limit)
    {result : List Hash} (hnodup : result.Nodup)
    (hresult : ∀ v ∈ result, IsVersion X s v ∧ AncestorOrSelf X s v head)
    (hfull : limit ≤ result.length) (hv : IsVersion X s v)
    (hreach : AncestorOrSelf X s v head) : v ∈ result := by
  by_contra hnot
  have hlonger := hlimit (v::result) (nodup_cons.mpr ⟨hnot,hnodup⟩) (by
    intro u hu
    rcases mem_cons.mp hu with rfl | hu
    · exact ⟨hv,hreach⟩
    · exact hresult u hu)
  rw [length_cons] at hlonger
  omega

/-- The loop between two rounds: what is out are versions behind the head, seen, and the
parents of what was seen are seen or queued. -/
structure Walking (X : Platform) (s : ContentStore) (head watermark : Hash) (queue : List Hash)
    (visited : Finset Hash) (result : List Hash) : Prop where
  nodup : result.Nodup
  versions : ∀ v ∈ result, IsVersion X s v ∧ AncestorOrSelf X s v head
  seen : ∀ v ∈ result, v ∈ visited
  parents : ∀ v ∈ visited, ∀ p ∈ parentsOf X s v, p ∈ visited ∨ p ∈ queue
  unmet : watermark ∉ visited

namespace Walking

variable {head watermark a : Hash} {queue : List Hash} {visited : Finset Hash} {result : List Hash}

theorem pass (h : Walking X s head watermark (a::queue) visited result) (ha : a ∈ visited) :
    Walking X s head watermark queue visited result := by
  refine ⟨h.nodup,h.versions,h.seen,fun v hv p hp => ?_,h.unmet⟩
  rcases h.parents v hv p hp with hseen | hqueue
  · exact .inl hseen
  · rcases mem_cons.mp hqueue with rfl | hqueue
    · exact .inl ha
    · exact .inr hqueue

theorem unreadable (h : Walking X s head watermark (a::queue) visited result)
    (hne : a ≠ watermark) (hnone : parentsOf X s a = []) :
    Walking X s head watermark queue (insert a visited) result := by
  refine ⟨h.nodup,h.versions,fun v hv => Finset.mem_insert_of_mem (h.seen v hv),?_,?_⟩
  · intro v hv p hp
    rcases Finset.mem_insert.mp hv with rfl | hv
    · rw [hnone] at hp
      cases hp
    · rcases h.parents v hv p hp with hseen | hqueue
      · exact .inl (Finset.mem_insert_of_mem hseen)
      · rcases mem_cons.mp hqueue with rfl | hqueue
        · exact .inl (Finset.mem_insert_self _ _)
        · exact .inr hqueue
  · rw [Finset.mem_insert,not_or]
    exact ⟨hne.symm,h.unmet⟩

theorem goesOut (h : Walking X s head watermark (a::queue) visited result) (ha : a ∉ visited)
    (hne : a ≠ watermark) (hversion : IsVersion X s a) (hreach : AncestorOrSelf X s a head) :
    Walking X s head watermark
      (queue++(parentsOf X s a).filter fun p => p ∉ insert a visited) (insert a visited)
      (result++[a]) := by
  refine ⟨?_,?_,?_,?_,?_⟩
  · rw [nodup_append_comm]
    exact nodup_cons.mpr ⟨fun hold => ha (h.seen a hold),h.nodup⟩
  · intro v hv
    rcases mem_append.mp hv with hv | hv
    · exact h.versions v hv
    · rw [mem_singleton.mp hv]
      exact ⟨hversion,hreach⟩
  · intro v hv
    rcases mem_append.mp hv with hv | hv
    · exact Finset.mem_insert_of_mem (h.seen v hv)
    · rw [mem_singleton.mp hv]
      exact Finset.mem_insert_self _ _
  · intro v hv p hp
    by_cases hseen : p ∈ insert a visited
    · exact .inl hseen
    refine .inr (mem_append.mpr ?_)
    rcases Finset.mem_insert.mp hv with rfl | hv
    · exact .inr (mem_filter.mpr ⟨hp,by simpa using hseen⟩)
    · rcases h.parents v hv p hp with hold | hqueue
      · exact absurd (Finset.mem_insert_of_mem hold) hseen
      · rcases mem_cons.mp hqueue with rfl | hqueue
        · exact absurd (Finset.mem_insert_self _ _) hseen
        · exact .inl hqueue
  · rw [Finset.mem_insert,not_or]
    exact ⟨hne.symm,h.unmet⟩

end Walking

/-- What the loop still brings, with its order before it: the versions not seen that come
before the watermark. -/
def BringsUpTo (X : Platform) (s : ContentStore) (head watermark : Hash) (order : List Hash)
    (visited : Finset Hash) (result history : List Hash) : Prop :=
  history.Nodup ∧ ∀ v, IsVersion X s v → AncestorOrSelf X s v head →
    (v ∈ history ↔ v ∈ result ∨ v ∉ visited ∧ v ∈ order.takeWhile (· ≠ watermark))

theorem BringsUpTo.pass {watermark a : Hash} {order : List Hash} {visited : Finset Hash}
    {result history : List Hash} (h : BringsUpTo X s head watermark order visited result history)
    (ha : a ∈ visited) (hne : a ≠ watermark) :
    BringsUpTo X s head watermark (a::order) visited result history := by
  refine ⟨h.1,fun v hv hvr => ?_⟩
  rw [h.2 v hv hvr,takeWhile_cons_of_pos (by simpa using hne),mem_cons]
  by_cases hva : v = a
  · subst hva
    simp [ha]
  · simp [hva]

/-- The loop brings what the queue of all routes gives out before the watermark. The
induction is on that queue; the one of the loop is thinner. -/
theorem walkHistoryLoop_spec {watermark : Hash} {limit : ℕ}
    (hlimit : FitsLimit X s head limit) {full order : List Hash}
    (horder : Emits (parentsOf X s) full order) (hreach : ∀ v ∈ order, AncestorOrSelf X s v head) :
    ∀ {queue : List Hash} {visited : Finset Hash} {result : List Hash} (fuel : ℕ),
      Thin visited full queue → Walking X s head watermark queue visited result →
      order.length < fuel → ∃ history,
        walkHistoryLoop X s limit (some watermark) fuel queue visited result = .ok history ∧
        BringsUpTo X s head watermark order visited result history := by
  induction horder with
  | nil =>
    intro queue visited result fuel hthin hw hfuel
    cases hthin
    obtain ⟨fuel,rfl⟩ : ∃ n, fuel = n+1 := ⟨fuel-1,by omega⟩
    exact ⟨result,rfl,hw.nodup,fun v _ _ => by simp⟩
  | @cons a full rest hrest ih =>
    intro queue visited result fuel hthin hw hfuel
    rw [length_cons] at hfuel
    have ih := @ih fun v hv => hreach v (mem_cons_of_mem a hv)
    cases hthin with
    | drop ha hthin =>
      -- another route to something seen: its parents are seen or queued
      have hne : a ≠ watermark := fun h => hw.unmet (h ▸ ha)
      obtain ⟨history,hrun,hbrings⟩ := ih fuel (hthin.append_seen (hw.parents a ha)) hw (by omega)
      exact ⟨history,hrun,hbrings.pass ha hne⟩
    | @keep _ _ _ queue hthin =>
      obtain ⟨fuel,rfl⟩ : ∃ n, fuel = n+1 := ⟨fuel-1,by omega⟩
      rw [walkHistoryLoop]
      by_cases hfull : limit ≤ result.length
      · rw [if_pos hfull]
        refine ⟨result,rfl,hw.nodup,fun v hv hvr => ?_⟩
        have hmem := mem_of_limit hlimit hw.nodup hw.versions hfull hv hvr
        simp [hmem]
      rw [if_neg hfull]
      by_cases ha : a ∈ visited
      · rw [if_pos ha]
        rw [Finset.insert_eq_of_mem ha] at hthin
        have hne : a ≠ watermark := fun h => hw.unmet (h ▸ ha)
        have hpass := hw.pass ha
        obtain ⟨history,hrun,hbrings⟩ := ih fuel (hthin.append_seen (hpass.parents a ha)) hpass
          (by omega)
        exact ⟨history,hrun,hbrings.pass ha hne⟩
      rw [if_neg ha]
      by_cases hstop : some watermark = some a
      · rw [if_pos hstop]
        obtain rfl := Option.some.inj hstop
        exact ⟨result,rfl,hw.nodup,fun v _ _ => by simp⟩
      rw [if_neg hstop]
      have hne : a ≠ watermark := fun h => hstop (congrArg some h.symm)
      cases hentry : versionAt X s a with
      | none =>
        have hnone : parentsOf X s a = [] := by rw [parentsOf,hentry]; rfl
        rw [hnone,append_nil] at ih
        obtain ⟨history,hrun,hnodup,hspec⟩ := ih fuel hthin (hw.unreadable hne hnone) (by omega)
        refine ⟨history,hrun,hnodup,fun v hv hvr => ?_⟩
        have hva : v ≠ a := by
          rintro rfl
          rw [IsVersion,hentry] at hv
          cases hv
        rw [hspec v hv hvr,takeWhile_cons_of_pos (by simpa using hne),mem_cons, Finset.mem_insert]
        simp [hva]
      | some entry =>
        dsimp only
        have hnext : parentsOf X s a = entry.parents := by rw [parentsOf,hentry]; rfl
        have hversion : IsVersion X s a := by rw [IsVersion,hentry]; rfl
        have hout := hw.goesOut ha hne hversion (hreach a mem_cons_self)
        have hthinner : Thin (insert a visited) (full++parentsOf X s a)
            (queue++(parentsOf X s a).filter fun p => p ∉ insert a visited) := by
          refine hthin.append_filter _ fun p _ hp => ?_
          rw [decide_eq_false_iff_not] at hp
          exact not_not.mp hp
        rw [← hnext]
        obtain ⟨history,hrun,hnodup,hspec⟩ := ih fuel hthinner hout (by omega)
        refine ⟨history,hrun,hnodup,fun v hv hvr => ?_⟩
        rw [hspec v hv hvr,takeWhile_cons_of_pos (by simpa using hne),mem_cons,
          Finset.mem_insert,mem_append,mem_singleton]
        by_cases hva : v = a
        · subst hva
          simp [ha]
        · simp [hva]

theorem walkHistoryLoop_more {limit : ℕ} {stopAt : Option Hash} {fuel : ℕ} {queue : List Hash}
    {visited : Finset Hash} {result history : List Hash}
    (h : walkHistoryLoop X s limit stopAt fuel queue visited result = .ok history) (n : ℕ) :
    walkHistoryLoop X s limit stopAt (fuel+n) queue visited result = .ok history := by
  induction fuel generalizing queue visited result with
  | zero => cases h
  | succ fuel ih =>
    rw [Nat.succ_add]
    cases queue with
    | nil => exact h
    | cons a queue =>
      rw [walkHistoryLoop] at h ⊢
      split_ifs at h ⊢
      · exact h
      · exact ih h
      · exact h
      · cases hentry : versionAt X s a with
        | none =>
          rw [hentry] at h
          exact ih h
        | some entry =>
          rw [hentry] at h
          exact ih h

/-- A walk to a watermark brings the versions it meets before the watermark. -/
theorem walkHistory_spec (hacyclic : ∀ v, ¬Relation.TransGen (ParentOf X s) v v)
    {limit : ℕ} (hlimit : FitsLimit X s head limit) (watermark : Hash) :
    ∃ rounds, ∀ fuel, rounds ≤ fuel → ∃ history,
      walkHistory X s fuel head limit (some watermark) = .ok history ∧ history.Nodup ∧
      ∀ v, IsVersion X s v → AncestorOrSelf X s v head →
        (v ∈ history ↔ MetBefore (parentsOf X s) head watermark v) := by
  have hend := generations_end hacyclic head
  have horder := @emits_generations _ (parentsOf X s) head (s.puts.length+1) 0
    (by rwa [Nat.zero_add])
  simp only [Nat.zero_add] at horder
  have hreach : ∀ v ∈ (range (s.puts.length+1)).flatMap (generation (parentsOf X s) head),
      AncestorOrSelf X s v head := by
    intro v hv
    obtain ⟨n,-,hn⟩ := mem_flatMap.mp hv
    exact ancestor_of_generation hn
  have hstart : Walking X s head watermark [head] ∅ [] := by
    refine ⟨nodup_nil,?_,?_,?_,Finset.notMem_empty _⟩
    · intro v hv
      cases hv
    · intro v hv
      cases hv
    · intro v hv
      cases hv
  refine ⟨((range (s.puts.length+1)).flatMap (generation (parentsOf X s) head)).length+1,
    fun fuel hfuel => ?_⟩
  obtain ⟨history,hrun,hnodup,hspec⟩ :=
    walkHistoryLoop_spec hlimit horder hreach fuel (.keep .nil) hstart hfuel
  refine ⟨history,hrun,hnodup,fun v hv hvr => ?_⟩
  rw [hspec v hv hvr,metBefore_iff hend]
  simp

/-- An incremental fetch misses nothing exactly if the walk meets every version it owes
before the watermark. -/
theorem incremental_fetch_complete_iff (hacyclic : ∀ v, ¬Relation.TransGen (ParentOf X s) v v)
    {head : Hash} {limit : ℕ} (hlimit : FitsLimit X s head limit) (watermark : Hash) :
    ∃ rounds, ∀ fuel, rounds ≤ fuel → ∃ history,
      walkHistory X s fuel head limit (some watermark) = .ok history ∧
      (MissesNothing X s head watermark history ↔
        ∀ v, IsVersion X s v → AncestorOrSelf X s v head → ¬AncestorOrSelf X s v watermark →
          MetBefore (parentsOf X s) head watermark v) := by
  obtain ⟨rounds,hwalk⟩ := walkHistory_spec hacyclic hlimit watermark
  refine ⟨rounds,fun fuel hfuel => ?_⟩
  obtain ⟨history,hrun,hnodup,hspec⟩ := hwalk fuel hfuel
  refine ⟨history,hrun,?_⟩
  have hcount : ∀ v, history.count v = 1 ↔ v ∈ history := fun v =>
    ⟨fun h => List.one_le_count_iff.mp h.ge,List.count_eq_one_of_mem hnodup⟩
  constructor
  · intro h v hv hvr hnot
    exact (hspec v hv hvr).mp ((hcount v).mp (h v hv hvr hnot))
  · intro h v hv hvr hnot
    exact (hcount v).mpr ((hspec v hv hvr).mpr (h v hv hvr hnot))

end Walk

namespace FetchSample

open Sample RevisionSample AutoVersionSample AgreementSample UntrackedSample

/-- One side of a version changed twice, the other once, and the two merged. -/
def changedTwice : Entity := versionEntity ⟨rootOfBoth,[changing.contentHash]⟩
  0xdfd1769efa96cc6bcb47a82fbaf4cfaf0e50dcc4378591f66dff17c6cdf9e215
def merged : Entity := versionEntity ⟨rootOfMerged,[adding.contentHash,changedTwice.contentHash]⟩
  0x9b9aaafbbb2c0e95145353ac7673b02870bc326fe199e28a1b1818f8bf534c05

def uneven : World where
  nodes := twoSides.nodes
  entries := twoSides.entries++[
    (⟨rootOfBoth,[changing.contentHash]⟩,
      0xdfd1769efa96cc6bcb47a82fbaf4cfaf0e50dcc4378591f66dff17c6cdf9e215),
    (⟨rootOfMerged,[adding.contentHash,changedTwice.contentHash]⟩,
      0x9b9aaafbbb2c0e95145353ac7673b02870bc326fe199e28a1b1818f8bf534c05)]
  others := twoSides.others
  digests := twoSides.digests

def unevenStore : ContentStore := ⟨[headOfOne,adding,changing,changedTwice,merged]⟩

def depth (h : Hash) : ℕ :=
  if h = merged.contentHash then 3 else if h = changedTwice.contentHash then 2
  else if h = headOfOne.contentHash then 0 else 1

theorem uneven_acyclic (v : Hash) : ¬Relation.TransGen (ParentOf uneven.crates unevenStore) v v :=
  acyclic_of_rank depth (by decide +kernel) v

theorem changing_parentOf : ParentOf uneven.crates unevenStore changing.contentHash
    changedTwice.contentHash := mem_parentsOf.mp (by decide +kernel)

end FetchSample

open FetchSample UntrackedSample AgreementSample

/-- The walk from the merge to the version before the last on the longer side. -/
theorem incremental_fetch_complete_iff_sample : ∃ rounds, ∀ fuel, rounds ≤ fuel → ∃ history,
      walkHistory uneven.crates unevenStore fuel merged.contentHash 5 (some changing.contentHash) =
        .ok history ∧
      (MissesNothing uneven.crates unevenStore merged.contentHash changing.contentHash history ↔
        ∀ v, IsVersion uneven.crates unevenStore v →
          AncestorOrSelf uneven.crates unevenStore v merged.contentHash →
          ¬AncestorOrSelf uneven.crates unevenStore v changing.contentHash →
          MetBefore (parentsOf uneven.crates unevenStore) merged.contentHash
            changing.contentHash v) :=
  incremental_fetch_complete_iff uneven_acyclic (fitsLimit_of_length (by decide) _) _

/-- The shorter side reaches the watermark while the longer one is still queued. -/
theorem longer_side_missed : ¬∀ (s : ContentStore) (head watermark : Hash) (limit : ℕ),
      (∀ v, ¬Relation.TransGen (ParentOf uneven.crates s) v v) →
      AncestorOrSelf uneven.crates s watermark head → FitsLimit uneven.crates s head limit →
      ∃ fuel history, walkHistory uneven.crates s fuel head limit (some watermark) = .ok history ∧
        MissesNothing uneven.crates s head watermark history := by
  intro h
  have hchain : AncestorOrSelf uneven.crates unevenStore changing.contentHash merged.contentHash :=
    .tail (.single changing_parentOf) (mem_parentsOf.mp (by decide +kernel))
  have hbelow : AncestorOrSelf uneven.crates unevenStore headOfOne.contentHash
      merged.contentHash := hchain.head (mem_parentsOf.mp (by decide +kernel))
  have hroot : ¬AncestorOrSelf uneven.crates unevenStore changing.contentHash
      headOfOne.contentHash := by
    intro hpath
    rcases Relation.ReflTransGen.cases_tail hpath with heq | ⟨u,-,hu⟩
    · revert heq
      decide +kernel
    · have hnone : parentsOf uneven.crates unevenStore headOfOne.contentHash = [] := by
        decide +kernel
      have hmem := mem_parentsOf.mpr hu
      rw [hnone] at hmem
      cases hmem
  obtain ⟨fuel,history,hrun,hall⟩ := h unevenStore merged.contentHash headOfOne.contentHash 5
    uneven_acyclic hbelow (fitsLimit_of_length (by decide +kernel) _)
  have hshort : walkHistory uneven.crates unevenStore 5 merged.contentHash 5
      (some headOfOne.contentHash) =
        .ok [merged.contentHash,adding.contentHash,changedTwice.contentHash] := by decide +kernel
  have hsame : history = [merged.contentHash,adding.contentHash,changedTwice.contentHash] := by
    have h₁ := walkHistoryLoop_more hrun 5
    have h₂ := walkHistoryLoop_more hshort fuel
    rw [Nat.add_comm 5 fuel,h₁] at h₂
    exact Except.ok.inj h₂
  have hcount := hall changing.contentHash (by unfold IsVersion; decide) hchain hroot
  rw [hsame] at hcount
  revert hcount
  decide +kernel

end EntityCore
