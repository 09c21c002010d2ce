import EntityCore.MergePaths

/-! Which merge config decides for a path. The configs are taken as the location index
lists them; the selection is the first of the best, and it depends on the listing when the
best are not one. -/
namespace EntityCore

open Ecf Outcome Strings List

/-! The first best of a list. -/

section Order

variable {ε α β γ : Type*} [LinearOrder β] (rank : α → β) (v : α → γ) (f : ε → Option α)

theorem argmax_cons_best {a : α} {l : List α} (h : ∀ c ∈ l, rank c ≤ rank a) :
    (a::l).argmax rank = some a := by
  rw [argmax_cons]
  cases hl : l.argmax rank with
  | none => rfl
  | some c =>
    have hc := h c (argmax_mem hl)
    simp [not_lt.mpr hc]

/-- The choice is the same for every order of the list exactly when what ties for it
agrees. -/
theorem argmax_order_iff (l : List ε) : (∀ l' : List ε, l'.Perm l →
      ((l'.filterMap f).argmax rank).map v = ((l.filterMap f).argmax rank).map v) ↔
    ∀ a ∈ l.filterMap f, ∀ b ∈ l.filterMap f, rank a = rank b →
      (∀ c ∈ l.filterMap f, rank c ≤ rank a) → v a = v b := by
  constructor
  · intro h
    have hfirst : ∀ a ∈ l.filterMap f, (∀ c ∈ l.filterMap f, rank c ≤ rank a) →
        some (v a) = ((l.filterMap f).argmax rank).map v := by
      intro a ha hbest
      obtain ⟨e,he,hfe⟩ := mem_filterMap.mp ha
      obtain ⟨s,t,rfl⟩ := append_of_mem he
      have hperm : (e::(s++t)).Perm (s++e::t) := perm_middle.symm
      have hstart := argmax_cons_best rank (a := a) (l := (s++t).filterMap f) (by
        intro c hc
        apply hbest c
        simp only [filterMap_append,mem_append] at hc ⊢
        rw [filterMap_cons_some hfe]
        exact hc.imp_right (mem_cons_of_mem a))
      have hsame := h _ hperm
      rw [filterMap_cons_some hfe,hstart] at hsame
      exact hsame
    intro a ha b hb hab hbest
    have hleft := hfirst a ha hbest
    have hright := hfirst b hb (fun c hc => (hbest c hc).trans hab.le)
    exact Option.some.inj (hleft.trans hright.symm)
  · intro h l' hperm
    have hlist := hperm.filterMap f
    cases hl' : (l'.filterMap f).argmax rank with
    | none =>
      have hnil := argmax_eq_none.mp hl'
      have hnone : l.filterMap f = [] := (hnil ▸ hlist).nil_eq.symm
      rw [hnone]
      rfl
    | some a =>
      cases hl : (l.filterMap f).argmax rank with
      | none =>
        have hnil := argmax_eq_none.mp hl
        rw [hnil] at hlist
        rw [hlist.eq_nil] at hl'
        cases hl'
      | some b =>
        have ha := hlist.mem_iff.mp (argmax_mem hl')
        have hb := argmax_mem hl
        have hle : rank a ≤ rank b := le_of_mem_argmax ha hl
        have hge : rank b ≤ rank a := le_of_mem_argmax (hlist.mem_iff.mpr hb) hl'
        have hbest : ∀ c ∈ l.filterMap f, rank c ≤ rank a := fun c hc =>
          le_of_mem_argmax (hlist.mem_iff.mpr hc) hl'
        simp [h a ha b hb (le_antisymm hle hge) hbest]

end Order

namespace Candidate

variable {α : Type}

/-- What the comparison orders by: form and literal length upwards, pattern and name
downwards. -/
def rank (c : Candidate α) : (ℕ ×ₗ ℕ) ×ₗ (Strᵒᵈ ×ₗ Strᵒᵈ) :=
  toLex (toLex (patternSpecificity c.pattern),toLex (OrderDual.toDual c.pattern,
    OrderDual.toDual c.name))

theorem moreSpecific_iff (cand best : Candidate α) :
    cand.moreSpecific best = true ↔ best.rank < cand.rank := by
  have hpair : patternSpecificity cand.pattern = patternSpecificity best.pattern ↔
      (patternSpecificity cand.pattern).1 = (patternSpecificity best.pattern).1 ∧
      (patternSpecificity cand.pattern).2 = (patternSpecificity best.pattern).2 := Prod.ext_iff
  unfold moreSpecific rank
  simp only [Prod.Lex.toLex_lt_toLex,OrderDual.toDual_lt_toDual,EmbeddingLike.apply_eq_iff_eq]
  split_ifs with hkey hsame hless hmore
  · simpa [hpair,eq_comm] using Or.inl hkey
  · simp [hsame,hless]
  · have hne : best.pattern ≠ cand.pattern := ne_of_lt hmore
    simp [hsame,hless,hne]
  · have heq : cand.pattern = best.pattern := le_antisymm (not_lt.mp hmore) (not_lt.mp hless)
    simp [heq]
  · have hne : patternSpecificity best.pattern ≠ patternSpecificity cand.pattern :=
      fun h => hsame h.symm
    simp only [not_or,not_and,not_lt] at hkey
    simpa [hne] using hkey

theorem rank_eq_iff (a b : Candidate α) :
    a.rank = b.rank ↔ a.pattern = b.pattern ∧ a.name = b.name := by
  constructor
  · intro h
    have hpair := congrArg (fun r => ofLex (ofLex r).2) h
    simpa [rank] using hpair
  · rintro ⟨hp,hn⟩
    simp [rank,hp,hn]

theorem foldl_better (l : List (Candidate α)) : l.foldl better none = l.argmax rank := by
  unfold argmax
  congr 1
  funext best cand
  cases best with
  | none => rfl
  | some b =>
    have h := moreSpecific_iff cand b
    by_cases hm : cand.moreSpecific b = true
    · simp [better,argAux,hm,h.mp hm]
    · simp [better,argAux,hm,h.not.mp hm]

end Candidate

/-! The selection over a listing. -/

section Selection

variable (X : Platform) (s : ContentStore) (index : MemoryLocationIndex) (localPeerId : Str)

/-- A listed config that matches the path and carries a value. -/
def pathCandidate {α : Type} (valueOf : Bytes → Option α) (path : Str) (e : Str × Hash) :
    Option (Candidate α) := do
  let config ← s.get e.2
  let pattern ← (mergeConfigFields X config.data).pattern
  let value ← valueOf config.data
  if globMatch pattern path then some ⟨pattern,configNameOf e.1,value⟩ else none

/-- The matching configs of a listing. -/
def pathCandidates {α : Type} (valueOf : Bytes → Option α) (path : Str)
    (entries : List (Str × Hash)) : List (Candidate α) :=
  entries.filterMap (pathCandidate X s valueOf path)

def selectFrom {α : Type} (entries : List (Str × Hash)) (valueOf : Bytes → Option α) (path : Str) :
    Option α :=
  ((pathCandidates X s valueOf path entries).foldl Candidate.better none).map (·.value)

def deletionOf (data : Bytes) : Option DeletionResolution := (mergeConfigFields X data).deletion

/-- `findDeletionResolution` over configs listed in some order. -/
def findDeletionResolutionFrom (entries : List (Str × Hash)) (path : Str) : DeletionResolution :=
  (selectFrom X s entries (deletionOf X) path).getD .preserveOnConflict

/-- What the override and the configs of the two types decide. -/
def decidedEarlier (overrideStrategy : Option Str) (localHash remoteHash : Hash) :
    Option MergeStrategy :=
  (overrideStrategy.bind fun o => MergeStrategy.parse o none).or
    ((([localHash,remoteHash].filterMap s.get).map (·.entityType)).findSome?
      (typeStrategy X s index localPeerId))

/-- `findMergeStrategy` over path configs listed in some order. -/
def findMergeStrategyFrom (entries : List (Str × Hash)) (path : Str)
    (overrideStrategy : Option Str) (localHash remoteHash : Hash) : MergeStrategy :=
  ((decidedEarlier X s index localPeerId overrideStrategy localHash remoteHash).or
    (selectFrom X s entries (mergeStrategyOf X) path)).getD .threeWay

/-- No two of the best configs for a path have one pattern and one last segment of their
names, and different values. -/
def TiesAgree {α : Type} (valueOf : Bytes → Option α) (path : Str) (entries : List (Str × Hash)) :
    Prop :=
  ∀ a ∈ pathCandidates X s valueOf path entries, ∀ b ∈ pathCandidates X s valueOf path entries,
    a.pattern = b.pattern ∧ a.name = b.name →
    (∀ c ∈ pathCandidates X s valueOf path entries, c.moreSpecific a = false) → a.value = b.value

variable {X s}

theorem bestPathConfig_eq {α : Type} (valueOf : Bytes → Option α) (path : Str) :
    bestPathConfig X s index localPeerId valueOf path =
      selectFrom X s (index.list (mergeConfigPath localPeerId "path/")) valueOf path := by
  unfold bestPathConfig selectFrom pathCandidates
  congr 1
  rw [foldl_filterMap]
  congr 1
  funext best e
  unfold pathCandidate
  cases hget : s.get e.2 with
  | none => simp
  | some config =>
    cases hpattern : (mergeConfigFields X config.data).pattern with
    | none => simp [hpattern]
    | some pattern =>
      cases hvalue : valueOf config.data with
      | none => simp [hpattern,hvalue]
      | some value => by_cases hm : globMatch pattern path = true <;> simp [hpattern,hvalue,hm]

theorem findDeletionResolution_eq (path : Str) : findDeletionResolution X s index localPeerId path =
    findDeletionResolutionFrom X s (index.list (mergeConfigPath localPeerId "path/")) path := by
  unfold findDeletionResolution findDeletionResolutionFrom
  rw [bestPathConfig_eq]
  rfl

theorem findMergeStrategy_eq (path : Str) (o : Option Str) (a b : Hash) :
    findMergeStrategy X s index localPeerId path o a b =
      findMergeStrategyFrom X s index localPeerId (index.list (mergeConfigPath localPeerId "path/"))
        path o a b := by
  unfold findMergeStrategy findMergeStrategyFrom decidedEarlier
  rw [bestPathConfig_eq]
  cases o.bind fun o => MergeStrategy.parse o none with
  | some strategy => rfl
  | none =>
    simp only [Option.none_or]
    split
    · rename_i strategy htype
      rw [htype]
      rfl
    · rename_i htype
      rw [htype]
      rfl

/-- What stands in for no config does not hide a difference. -/
theorem selectFrom_order_iff {α : Type} (valueOf : Bytes → Option α) (path : Str)
    (entries : List (Str × Hash)) (otherwise : α) :
    (∀ l : List (Str × Hash), l.Perm entries → (selectFrom X s l valueOf path).getD otherwise =
      (selectFrom X s entries valueOf path).getD otherwise) ↔
      TiesAgree X s valueOf path entries := by
  have hsome : ∀ l : List (Str × Hash), l.Perm entries →
      ((selectFrom X s l valueOf path).getD otherwise =
      (selectFrom X s entries valueOf path).getD otherwise ↔
      selectFrom X s l valueOf path = selectFrom X s entries valueOf path) := by
    intro l hperm
    have hlist := hperm.filterMap (pathCandidate X s valueOf path)
    have hnone : selectFrom X s l valueOf path = none ↔
        selectFrom X s entries valueOf path = none := by
      simp only [selectFrom,Candidate.foldl_better,Option.map_eq_none_iff,argmax_eq_none,
        pathCandidates]
      exact ⟨fun h => (h ▸ hlist).nil_eq.symm,fun h => (h ▸ hlist).eq_nil⟩
    cases hl : selectFrom X s l valueOf path with
    | none => simp [hnone.mp hl]
    | some x =>
      cases he : selectFrom X s entries valueOf path with
      | none => rw [hnone.mpr he] at hl; cases hl
      | some y => simp
  have hforall := forall₂_congr hsome
  rw [hforall]
  have horder := argmax_order_iff Candidate.rank (fun c : Candidate α => c.value)
    (pathCandidate X s valueOf path) entries
  simp only [selectFrom,Candidate.foldl_better,pathCandidates] at horder ⊢
  rw [horder]
  unfold TiesAgree
  simp only [Candidate.rank_eq_iff,← Bool.not_eq_true,Candidate.moreSpecific_iff,not_lt]
  rfl

/-- The two lookups answer the same for every order in which the configs may be listed,
exactly when the configs that tie for best agree, as far as the lookup comes to them. -/
theorem selection_order_iff (X : Platform) (s : ContentStore) (index : MemoryLocationIndex)
    (localPeerId path : Str) (o : Option Str) (a b : Hash) :
    ((∀ l : List (Str × Hash), l.Perm (index.list (mergeConfigPath localPeerId "path/")) →
        findDeletionResolutionFrom X s l path = findDeletionResolution X s index localPeerId path) ∧
      (∀ l : List (Str × Hash), l.Perm (index.list (mergeConfigPath localPeerId "path/")) →
        findMergeStrategyFrom X s index localPeerId l path o a b =
          findMergeStrategy X s index localPeerId path o a b)) ↔
    TiesAgree X s (deletionOf X) path (index.list (mergeConfigPath localPeerId "path/")) ∧
      ((decidedEarlier X s index localPeerId o a b).isSome ∨ TiesAgree X s (mergeStrategyOf X) path
          (index.list (mergeConfigPath localPeerId "path/"))) := by
  rw [findDeletionResolution_eq,findMergeStrategy_eq]
  refine and_congr (selectFrom_order_iff _ _ _ _) ?_
  unfold findMergeStrategyFrom
  cases hearly : decidedEarlier X s index localPeerId o a b with
  | some strategy => simp
  | none =>
    simp only [Option.none_or,Option.isSome_none,Bool.false_eq_true,false_or]
    exact selectFrom_order_iff _ _ _ _

end Selection

namespace MergeSample

open Sample

def takeSource : Value := .map [(txt "pattern",txt "docs/*"),(txt "strategy",txt "source-wins"),
  (txt "deletion_resolution",txt "deletion-wins")]
def takeTarget : Value := .map [(txt "pattern",txt "docs/*"),(txt "strategy",txt "target-wins"),
  (txt "deletion_resolution",txt "deterministic")]

def sourceConfig : Entity := entity "system/revision/merge-config" takeSource
  0x5c70ddca45db98dc894df2e84b7b48d2fe7725dab6ea6d79e4f540307c2925ed
def targetConfig : Entity := entity "system/revision/merge-config" takeTarget
  0x59fd9bc1ea3704f5effed703c8e0f0cf4a7d6f5d62ee8b20b3ffd7dc76644a3b

def readsConfigs : Platform := platform [takeSource,takeTarget] [] []

def configs : ContentStore := ⟨[sourceConfig,targetConfig]⟩

/-- Two configs of one last segment, in two directories of names. -/
def listed : List (Str × Hash) :=
  [(mergeConfigPath aliceId "path/desk/docs",sourceConfig.contentHash),
    (mergeConfigPath aliceId "path/team/docs",targetConfig.contentHash)]

def namedAlike : MemoryLocationIndex := ⟨.ofList listed⟩

end MergeSample

open MergeSample Sample in
theorem listing_decides_merge :
    namedAlike.list (mergeConfigPath aliceId "path/") = listed ∧
    findDeletionResolution readsConfigs configs namedAlike aliceId "docs/a".toList = .deletionWins ∧
    findDeletionResolutionFrom readsConfigs configs listed.reverse "docs/a".toList =
      .deterministic ∧
    findMergeStrategy readsConfigs configs namedAlike aliceId "docs/a".toList none .zero .zero =
      .sourceWins ∧
    findMergeStrategyFrom readsConfigs configs namedAlike aliceId listed.reverse "docs/a".toList
      none
      .zero .zero = .targetWins := by
  decide +kernel

end EntityCore
