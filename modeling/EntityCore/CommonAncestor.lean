import EntityCore.Turns
import EntityCore.IncrementalFetch

/-! Which common ancestor the merge takes for its base. The search walks from both versions
in turn and takes the first version that both walks have come to, which need not be a
lowest one. -/
namespace EntityCore

open BreadthFirst Relation

variable {X : Platform} {s : ContentStore}

section Meaning

variable (X : Platform) (s : ContentStore) (a b : Hash)

def CommonAncestor (v : Hash) : Prop := AncestorOrSelf X s v a ∧ AncestorOrSelf X s v b

/-- A common ancestor with none strictly below it. -/
def LowestCommonAncestor (v : Hash) : Prop :=
  CommonAncestor X s a b v ∧ ∀ w, CommonAncestor X s a b w → ¬TransGen (ParentOf X s) v w

/-- Before a common ancestor that has another below it the walks meet in some other. -/
def LowestMetFirst : Prop :=
  ∀ t v, MeetAt (parentsOf X s) a b t v →
    (∃ w, CommonAncestor X s a b w ∧ TransGen (ParentOf X s) v w) →
    ∃ u < t, ∃ w, MeetAt (parentsOf X s) a b u w

/-- The version in which the walks meet first, if they meet. -/
def FirstMet : Option Hash → Prop
  | some v => ∃ t, MeetAt (parentsOf X s) a b t v ∧ ∀ u < t, ∀ w, ¬MeetAt (parentsOf X s) a b u w
  | none => ∀ t w, ¬MeetAt (parentsOf X s) a b t w

end Meaning

/-! The walks come to all ancestors: a store names finitely many. -/

/-- A version and all that the versions of the store name as parents. -/
def namedVersions (X : Platform) (s : ContentStore) (start : Hash) : Finset Hash :=
  insert start
    (s.puts.flatMap fun e => ((decodeRevisionEntry X e).map (·.parents)).getD []).toFinset

variable {a b v : Hash}

theorem named_parents {start : Hash} : ∀ p ∈ parentsOf X s a, p ∈ namedVersions X s start := by
  intro p hp
  rw [namedVersions,Finset.mem_insert,List.mem_toFinset,List.mem_flatMap]
  right
  obtain ⟨d,hd,hmem⟩ := mem_parentsOf.mp hp
  obtain ⟨e,he,hdec⟩ := Option.bind_eq_some_iff.mp hd
  refine ⟨e,List.mem_of_find?_eq_some he,?_⟩
  simpa [hdec] using hmem

theorem walk_ends (start : Hash) : ∃ n, (after (parentsOf X s) start n).1 = [] :=
  turns_end (namedVersions X s start) (fun _ _ => named_parents) ([start],∅)
    (by simp [namedVersions])

theorem taken_ancestor {start : Hash} :
    (∃ n, TakenAt (parentsOf X s) start n v) ↔ AncestorOrSelf X s v start := by
  rw [taken_iff (namedVersions X s start) (Finset.mem_insert_self _ _) (fun _ _ => named_parents) v,
    AncestorOrSelf,← reflTransGen_swap]
  simp only [mem_parentsOf]

theorem common_iff_met : CommonAncestor X s a b v ↔ ∃ t, MeetAt (parentsOf X s) a b t v := by
  rw [CommonAncestor,← taken_ancestor,← taken_ancestor]
  constructor
  · rintro ⟨⟨m,hm⟩,n,hn⟩
    obtain ⟨m',-,hm'⟩ := FirstTakenAt.of_taken hm
    obtain ⟨n',-,hn'⟩ := FirstTakenAt.of_taken hn
    exact ⟨_,m',n',hm',hn',rfl⟩
  · rintro ⟨t,m,n,hm,hn,-⟩
    exact ⟨⟨m,hm.1⟩,n,hn.1⟩

/-! The search is the two walks up to where they meet. -/

theorem expandSide_cases (q : List Hash × Finset Hash) (other : Finset Hash) :
    (∃ v queue, q.1 = v::queue ∧ v ∈ other ∧ expandSide X s q.1 q.2 other = .inl v) ∨
    (∀ v, q.1.head? = some v → v ∉ other) ∧
      expandSide X s q.1 q.2 other = .inr (turn (parentsOf X s) q) := by
  match q with
  | ([],seen) => exact .inr ⟨by simp,rfl⟩
  | (v::queue,seen) =>
    by_cases hv : v ∈ other
    · exact .inl ⟨v,queue,rfl,hv,by simp [expandSide,hv]⟩
    · refine .inr ⟨by simpa using hv,?_⟩
      simp only [expandSide,if_neg hv,turn]
      split_ifs <;> rfl

theorem not_met_after {n : ℕ} (ha : (after (parentsOf X s) a n).1 = [])
    (hb : (after (parentsOf X s) b n).1 = [])
    (hno : ∀ t < 2*n, ∀ w, ¬MeetAt (parentsOf X s) a b t w) : FirstMet X s a b none := by
  have hearly : ∀ {c : Hash} {k : ℕ} {w : Hash}, (after (parentsOf X s) c n).1 = [] →
      TakenAt (parentsOf X s) c k w → k < n := by
    intro c k w hc hk
    by_contra hge
    have hsame := after_nil hc (k-n)
    rw [show n+(k-n) = k by omega] at hsame
    rw [TakenAt,hsame,hc] at hk
    cases hk
  rintro t w ⟨k,k',hk,hk',ht⟩
  have h₁ := hearly ha hk.1
  have h₂ := hearly hb hk'.1
  exact hno t (by omega) w ⟨k,k',hk,hk',ht⟩

/-- The induction is on the turns until both queues are empty. -/
theorem findCommonAncestorLoop_spec {last : ℕ}
    (ha : (after (parentsOf X s) a last).1 = []) (hb : (after (parentsOf X s) b last).1 = [])
    (k : ℕ) : ∀ (n fuel : ℕ), n+k = last → k < fuel →
      (∀ t < 2*n, ∀ w, ¬MeetAt (parentsOf X s) a b t w) →
      ∃ r, findCommonAncestorLoop X s fuel (after (parentsOf X s) a n).1
          (after (parentsOf X s) b n).1 (after (parentsOf X s) a n).2
          (after (parentsOf X s) b n).2 = .ok r ∧ FirstMet X s a b r := by
  induction k with
  | zero =>
    intro n fuel hn hfuel hno
    obtain ⟨fuel,rfl⟩ : ∃ m, fuel = m+1 := ⟨fuel-1,by omega⟩
    obtain rfl : n = last := hn
    refine ⟨none,?_,not_met_after ha hb hno⟩
    simp [findCommonAncestorLoop,ha,hb]
  | succ k ih =>
    intro n fuel hn hfuel hno
    obtain ⟨fuel,rfl⟩ : ∃ m, fuel = m+1 := ⟨fuel-1,by omega⟩
    rw [findCommonAncestorLoop]
    by_cases hempty : ((after (parentsOf X s) a n).1.isEmpty &&
        (after (parentsOf X s) b n).1.isEmpty) = true
    · rw [if_pos hempty]
      rw [Bool.and_eq_true,List.isEmpty_iff,List.isEmpty_iff] at hempty
      exact ⟨none,rfl,not_met_after hempty.1 hempty.2 hno⟩
    rw [if_neg hempty]
    rcases expandSide_cases (after (parentsOf X s) a n) (after (parentsOf X s) b n).2 with
      ⟨v,queue,hqueue,hv,hside⟩ | ⟨hnotA,hside⟩
    · -- the walk from `a` comes to a version of the other
      rw [hside]
      exact ⟨some v,rfl,2*n,meetAt_left hqueue hv hno,hno⟩
    rw [hside]
    dsimp only
    rw [← after_succ]
    have hnoA : ∀ t < 2*n+1, ∀ w, ¬MeetAt (parentsOf X s) a b t w := by
      intro t ht w hw
      by_cases hlt : t < 2*n
      · exact hno t hlt w hw
      · obtain ⟨m,m',hm,hm',heq⟩ := hw
        obtain rfl : m = n := by omega
        exact hnotA w hm.1 (mem_after.mpr ⟨m',by omega,hm'.1⟩)
    rcases expandSide_cases (after (parentsOf X s) b n) (after (parentsOf X s) a (n+1)).2 with
      ⟨v,queue,hqueue,hv,hside⟩ | ⟨hnotB,hside⟩
    · rw [hside]
      exact ⟨some v,rfl,2*n+1,meetAt_right hqueue hv hnoA,hnoA⟩
    rw [hside]
    dsimp only
    rw [← after_succ]
    apply ih (n+1) fuel (by omega) (by omega)
    intro t ht w hw
    by_cases hlt : t < 2*n+1
    · exact hnoA t hlt w hw
    · obtain ⟨m,m',hm,hm',heq⟩ := hw
      obtain rfl : m' = n := by omega
      exact hnotB w hm'.1 (mem_after.mpr ⟨m,by omega,hm.1⟩)

/-- The search ends, with the version in which the walks meet first. -/
theorem findCommonAncestor_spec (X : Platform) (s : ContentStore) (a b : Hash) :
    ∃ rounds, ∀ fuel, rounds ≤ fuel → ∃ r, findCommonAncestor X s fuel a b = .ok r ∧
      FirstMet X s a b r := by
  obtain ⟨n,hn⟩ := walk_ends (X := X) (s := s) a
  obtain ⟨n',hn'⟩ := walk_ends (X := X) (s := s) b
  have ha : (after (parentsOf X s) a (n+n')).1 = [] := by rw [after_nil hn,hn]
  have hb : (after (parentsOf X s) b (n+n')).1 = [] := by
    rw [Nat.add_comm,after_nil hn',hn']
  refine ⟨n+n'+1,fun fuel hfuel => ?_⟩
  exact findCommonAncestorLoop_spec ha hb (n+n') 0 fuel (by omega) (by omega) (by simp)

theorem firstMet_none {r : Option Hash} (h : FirstMet X s a b r) :
    r = none ↔ ¬∃ v, CommonAncestor X s a b v := by
  cases r with
  | none =>
    simp only [true_iff]
    rintro ⟨v,hv⟩
    obtain ⟨t,ht⟩ := common_iff_met.mp hv
    exact h t v ht
  | some v =>
    obtain ⟨t,ht,-⟩ := h
    simp only [reduceCtorEq,false_iff,not_not]
    exact ⟨v,common_iff_met.mpr ⟨t,ht⟩⟩

theorem firstMet_lowest_iff {r : Option Hash} (h : FirstMet X s a b r) :
    (∀ v, r = some v → LowestCommonAncestor X s a b v) ↔ LowestMetFirst X s a b := by
  constructor
  · intro hlow t v ht ⟨w,hw,hbelow⟩
    by_contra hnot
    push Not at hnot
    cases r with
    | none => exact h t v ht
    | some first =>
      obtain ⟨u,hu,hfirst⟩ := h
      have hle : u ≤ t := not_lt.mp fun hlt => hfirst t hlt v ht
      have hge : t ≤ u := not_lt.mp fun hlt => hnot u hlt first hu
      obtain rfl : u = t := le_antisymm hle hge
      obtain rfl := meetAt_unique hu ht
      exact (hlow _ rfl).2 w hw hbelow
  · intro hfirst v hv
    subst hv
    obtain ⟨t,ht,hno⟩ := h
    refine ⟨common_iff_met.mpr ⟨t,ht⟩,fun w hw hbelow => ?_⟩
    obtain ⟨u,hu,w',hw'⟩ := hfirst t v ht ⟨w,hw,hbelow⟩
    exact hno u hu w' hw'

theorem CommonAncestor.symm (h : CommonAncestor X s a b v) : CommonAncestor X s b a v := ⟨h.2,h.1⟩

theorem LowestCommonAncestor.symm (h : LowestCommonAncestor X s a b v) :
    LowestCommonAncestor X s b a v := ⟨h.1.symm,fun w hw => h.2 w hw.symm⟩

/-- The base of a merge is a lowest common ancestor, and the same from either side where
there is one only, exactly when the walks meet first in a lowest one. -/
theorem merge_base_lowest_iff (X : Platform) (s : ContentStore) (a b : Hash) :
    ∃ rounds, ∀ fuel, rounds ≤ fuel → ∃ r r', findCommonAncestor X s fuel a b = .ok r ∧
      findCommonAncestor X s fuel b a = .ok r' ∧ (((r = none ↔ ¬∃ v, CommonAncestor X s a b v) ∧
        (∀ v, r = some v → LowestCommonAncestor X s a b v) ∧
        ((∃! v, LowestCommonAncestor X s a b v) → r = r')) ↔ LowestMetFirst X s a b ∧
        ((∃! v, LowestCommonAncestor X s a b v) → LowestMetFirst X s b a)) := by
  obtain ⟨n,hn⟩ := findCommonAncestor_spec X s a b
  obtain ⟨n',hn'⟩ := findCommonAncestor_spec X s b a
  refine ⟨max n n',fun fuel hfuel => ?_⟩
  obtain ⟨r,hr,hmet⟩ := hn fuel (le_trans (le_max_left _ _) hfuel)
  obtain ⟨r',hr',hmet'⟩ := hn' fuel (le_trans (le_max_right _ _) hfuel)
  refine ⟨r,r',hr,hr',?_⟩
  rw [iff_true_intro (firstMet_none hmet),true_and,firstMet_lowest_iff hmet]
  apply and_congr_right
  intro hlow
  apply forall_congr'
  rintro ⟨v,hv,hunique⟩
  have hlow := (firstMet_lowest_iff hmet).mpr hlow
  have hsome : r = some v := by
    cases r with
    | none => exact absurd ⟨v,hv.1⟩ ((firstMet_none hmet).mp rfl)
    | some u => rw [hunique u (hlow u rfl)]
  rw [← firstMet_lowest_iff hmet']
  constructor
  · rintro rfl u hu
    obtain rfl := Option.some.inj (hsome.symm.trans hu)
    exact hv.symm
  · intro hlow'
    rw [hsome]
    cases r' with
    | none => exact absurd ⟨v,hv.1.symm⟩ ((firstMet_none hmet').mp rfl)
    | some u => rw [hunique u (hlow' u rfl).symm]

/-! Two changes of the oldest version, each merged with a version two steps above it. -/
namespace AncestorSample

open Sample RevisionSample AutoVersionSample AgreementSample UntrackedSample

def middle : Entity := versionEntity ⟨rootOfMerged,[headOfOne.contentHash]⟩
  0x49c90b2ab09930819030e90ffcd586b3306bfebf88f0bef9b752d3c7975f6ef2
def kept : Entity := versionEntity ⟨rootOfMerged,[middle.contentHash]⟩
  0xad18b71217755228a91658a79b4971f021b64f3cb0ff706667915d5fb1c8b3a4
def undone : Entity := versionEntity ⟨rootOfOne,[middle.contentHash]⟩
  0xbf7396f3bbc1094ce38777b2cf3871eae7a6e5e288f5a1a18fb4aed895904879
def leftMerge : Entity := versionEntity ⟨rootOfOne,[adding.contentHash,kept.contentHash]⟩
  0x827f8ba8c0c3ce85a163c6222ca0f78204cdd317aff695df7ec8768d6e860f48
def rightMerge : Entity := versionEntity ⟨rootOfOne,[changing.contentHash,undone.contentHash]⟩
  0xcce5d7837ab1a8426a8423c82f2e7e97605c8f9c58d83aaf96ff832ccd2d1de4

def twoMerges : World where
  nodes := twoSides.nodes
  entries := twoSides.entries++[
    (⟨rootOfMerged,[headOfOne.contentHash]⟩,
      0x49c90b2ab09930819030e90ffcd586b3306bfebf88f0bef9b752d3c7975f6ef2),
    (⟨rootOfMerged,[middle.contentHash]⟩,
      0xad18b71217755228a91658a79b4971f021b64f3cb0ff706667915d5fb1c8b3a4),
    (⟨rootOfOne,[middle.contentHash]⟩,
      0xbf7396f3bbc1094ce38777b2cf3871eae7a6e5e288f5a1a18fb4aed895904879),
    (⟨rootOfOne,[adding.contentHash,kept.contentHash]⟩,
      0x827f8ba8c0c3ce85a163c6222ca0f78204cdd317aff695df7ec8768d6e860f48),
    (⟨rootOfOne,[changing.contentHash,undone.contentHash]⟩,
      0xcce5d7837ab1a8426a8423c82f2e7e97605c8f9c58d83aaf96ff832ccd2d1de4)]
  others := twoSides.others
  digests := twoSides.digests

def twoMergesStore : ContentStore :=
  ⟨[headOfOne,adding,changing,middle,kept,undone,leftMerge,rightMerge]⟩

def height (h : Hash) : ℕ :=
  if h = headOfOne.contentHash then 0
  else if h = leftMerge.contentHash ∨ h = rightMerge.contentHash then 3
  else if h = kept.contentHash ∨ h = undone.contentHash then 2 else 1

end AncestorSample

open AncestorSample UntrackedSample AgreementSample in
/-- Both walks come to the oldest version before the one above it. -/
theorem merge_base_not_lowest : ¬ ∀ (X : Platform) (s : ContentStore) (a b : Hash),
    (∀ v, ¬TransGen (ParentOf X s) v v) → ∀ fuel r, findCommonAncestor X s fuel a b = .ok r →
      ∀ v, r = some v → LowestCommonAncestor X s a b v := by
  intro h
  have ⟨hrank,hrun,hkept,hundone,hmiddle,hmiddle',hbelow⟩ :
      (∀ e ∈ twoMergesStore.puts, ∀ d ∈ decodeRevisionEntry twoMerges.crates e, ∀ p ∈ d.parents,
        height p < height e.contentHash) ∧
      findCommonAncestor twoMerges.crates twoMergesStore 5 leftMerge.contentHash
        rightMerge.contentHash = .ok (some headOfOne.contentHash) ∧
      kept.contentHash ∈ parentsOf twoMerges.crates twoMergesStore leftMerge.contentHash ∧
      undone.contentHash ∈ parentsOf twoMerges.crates twoMergesStore rightMerge.contentHash ∧
      middle.contentHash ∈ parentsOf twoMerges.crates twoMergesStore kept.contentHash ∧
      middle.contentHash ∈ parentsOf twoMerges.crates twoMergesStore undone.contentHash ∧
      headOfOne.contentHash ∈ parentsOf twoMerges.crates twoMergesStore middle.contentHash := by
    decide +kernel
  have hlowest := h twoMerges.crates twoMergesStore leftMerge.contentHash rightMerge.contentHash
    (acyclic_of_rank height hrank) 5 _ hrun _ rfl
  apply hlowest.2 middle.contentHash
  · constructor
    · exact .tail (.single (mem_parentsOf.mp hmiddle)) (mem_parentsOf.mp hkept)
    · exact .tail (.single (mem_parentsOf.mp hmiddle')) (mem_parentsOf.mp hundone)
  · exact .single (mem_parentsOf.mp hbelow)

end EntityCore
