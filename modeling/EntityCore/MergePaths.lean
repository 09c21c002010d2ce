import EntityCore.MergeConvergence
import EntityCore.TrackedConfigs

/-! What a merge makes of one path: a change that only one side made, and two entities
kept both. -/
namespace EntityCore

open Strings List

/-! The names of what is kept beside. -/

theorem digest_four (h : Hash) : (h.digest.take 4).length = 4 := by
  rcases h.algorithm_cases with ⟨-,hd⟩ | ⟨-,hd⟩ <;> rw [length_take,hd] <;> rfl

theorem keepBothPath_length (path : Str) (h : Hash) :
    (keepBothPath path h).length = path.length+19 := by
  have hdash : ".keep-both-".toList.length = 11 := by decide
  rw [keepBothPath,length_append,length_append,hexStr_length,digest_four,hdash]

variable {path : Str} {l r : OrderedMap Str Hash}

/-- Names made for different paths are different. -/
theorem keepBothPath_path {path' : Str} {h h' : Hash}
    (he : keepBothPath path h = keepBothPath path' h') : path = path' := by
  have hlength : path.length = path'.length := by
    have := congrArg length he
    rw [keepBothPath_length,keepBothPath_length] at this
    omega
  rw [keepBothPath,keepBothPath,append_assoc,append_assoc] at he
  exact (append_inj he hlength).1

/-! Bindings put into a map one after the other. -/

theorem get_insertAll_of_mem {A : List (Str × Hash)} (m : OrderedMap Str Hash)
    (hA : ∀ e ∈ A, ∀ e' ∈ A, e.1 = e'.1 → e.2 = e'.2) {e : Str × Hash} (he : e ∈ A) :
    (A.foldl (fun m e => m.insert e.1 e.2) m).get e.1 = some e.2 := by
  induction A generalizing m e with
  | nil => cases he
  | cons a A ih =>
    have htail : ∀ e ∈ A, ∀ e' ∈ A, e.1 = e'.1 → e.2 = e'.2 := fun e he e' he' =>
      hA e (mem_cons_of_mem a he) e' (mem_cons_of_mem a he')
    rw [foldl_cons]
    by_cases hlater : e.1 ∈ A.map Prod.fst
    · obtain ⟨e',he',hkey⟩ := mem_map.mp hlater
      have hvalue := hA e' (mem_cons_of_mem a he') e he hkey
      rw [← hkey,← hvalue]
      exact ih _ htail he'
    · have hfirst : e = a := by
        rcases mem_cons.mp he with h | h
        · exact h
        · exact absurd (mem_map.mpr ⟨e,h,rfl⟩) hlater
      rw [get_insertAll_not_mem _ hlater,← hfirst,OrderedMap.get_insert,if_pos rfl]

theorem foldl_add_conflicts (f : Str → PathMerge) (paths : List Str) (result : MergeResult) :
    (paths.foldl (fun result path => result.add path (f path)) result).conflicts =
      result.conflicts++paths.filterMap fun k => (f k).conflict := by
  induction paths generalizing result with
  | nil => simp
  | cons path paths ih =>
    rw [foldl_cons,ih]
    unfold MergeResult.add
    cases hadd : (f path).conflict <;> simp [hadd]

section Merge

variable (X : Platform) (s : ContentStore) (index : MemoryLocationIndex) (localPeerId : Str)
  (strategyOverride : Option Str)

/-- Exactly one of two hashes is the deletion marker. -/
def markerBeside (l r : Hash) : Bool :=
  xor (l = canonicalDeletionMarkerHash X) (r = canonicalDeletionMarkerHash X)

/-! A change that only one side made. -/

/-- What the configs of a path make of a change on one side: a deletion on one side is
judged by the base, and an edit where the strategy looks at the base or happens to take
the side that changed. -/
def RespectsChange (path : Str) (base : Option Hash) (l r : Hash) : Prop :=
  markerBeside X l r = true ∨
    match findMergeStrategy X s index localPeerId path strategyOverride l r with
    | .threeWay => True
    | .sourceWins => base = some l
    | .targetWins => base = some r
    | _ => False

/-- The merge binds a path to a hash and says nothing more about the path. -/
def MergedCleanly (result : MergeResult) (path : Str) (h : Hash) : Prop :=
  result.mergedBindings.get path = some h ∧ (∀ c ∈ result.conflicts, c.path ≠ path) ∧
    ∀ e ∈ result.additionalBindings, ∀ h', e.1 ≠ keepBothPath path h'

/-- What the merge makes of a path, by itself. -/
def mergeAt (ancestor : Option (OrderedMap Str Hash)) (l r : OrderedMap Str Hash) (path : Str) :
    PathMerge :=
  mergePath X s index localPeerId strategyOverride path ((ancestor.getD .empty).get path)
    (l.get path) (r.get path)

/-- The side that differs from the base. -/
def changedSide (base : Option Hash) (l r : Hash) : Hash := if base = some l then r else l

variable {X s index localPeerId strategyOverride}

theorem mergePath_conflict {base l r : Option Hash} {c : ConflictInfo}
    (h : (mergePath X s index localPeerId strategyOverride path base l r).conflict = some c) :
    c.path = path := by
  cases l with
  | none => cases r <;> cases h
  | some x => cases r with
    | none => cases h
    | some y =>
      rw [mergePath] at h
      split_ifs at h with heq hmarker
      · cases h
      · rw [mergeMarker] at h
        dsimp only at h
        by_cases hl : base = some x
        · rw [if_pos hl] at h
          cases h
        rw [if_neg hl] at h
        by_cases hr : base = some y
        · rw [if_pos hr] at h
          cases h
        rw [if_neg hr] at h
        cases hres : findDeletionResolution X s index localPeerId path with
        | threeWayFallthrough =>
          rw [hres] at h
          cases h
          rfl
        | preserveOnConflict => rw [hres] at h; cases h
        | deletionWins => rw [hres] at h; cases h
        | deterministic => rw [hres] at h; cases h
      · rw [mergeEdits] at h
        cases hs : findMergeStrategy X s index localPeerId path strategyOverride x y with
        | threeWay =>
          rw [hs] at h
          dsimp only at h
          split_ifs at h <;> cases h
          rfl
        | sourceWins => rw [hs] at h; cases h
        | targetWins => rw [hs] at h; cases h
        | keepBoth => rw [hs] at h; cases h
        | manual => rw [hs] at h; cases h; rfl
        | handler p => rw [hs] at h; cases h; rfl
        | unresolvable n => rw [hs] at h; cases h; rfl

theorem conflicts_clean_iff {ancestor : Option (OrderedMap Str Hash)}
    (hpaths : path ∈ allPaths (ancestor.getD .empty) l r) :
    (∀ c ∈ (mergeSnapshots X s index localPeerId strategyOverride ancestor l r).conflicts,
      c.path ≠ path) ↔
      (mergeAt X s index localPeerId strategyOverride ancestor l r path).conflict = none := by
  unfold mergeSnapshots
  dsimp only
  rw [foldl_add_conflicts,nil_append]
  constructor
  · intro hall
    cases hc : (mergeAt X s index localPeerId strategyOverride ancestor l r path).conflict with
    | none => rfl
    | some c =>
      have hmem := hall c (mem_filterMap.mpr ⟨path,hpaths,hc⟩)
      exact absurd (mergePath_conflict hc) hmem
  · intro hnone c hc hpath
    obtain ⟨k,-,hk⟩ := mem_filterMap.mp hc
    have hkey : k = path := (mergePath_conflict hk).symm.trans hpath
    subst hkey
    rw [mergeAt] at hnone
    rw [hnone] at hk
    cases hk

theorem additional_clean_iff {ancestor : Option (OrderedMap Str Hash)}
    (hpaths : path ∈ allPaths (ancestor.getD .empty) l r) :
    (∀ e ∈ (mergeSnapshots X s index localPeerId strategyOverride ancestor l
      r).additionalBindings, ∀ h', e.1 ≠ keepBothPath path h') ↔
      (mergeAt X s index localPeerId strategyOverride ancestor l r path).additional = none := by
  unfold mergeSnapshots
  dsimp only
  rw [foldl_add_additional,nil_append]
  constructor
  · intro hall
    cases he : (mergeAt X s index localPeerId strategyOverride ancestor l r path).additional with
    | none => rfl
    | some e =>
      have hmem := hall e (mem_filterMap.mpr ⟨path,hpaths,he⟩)
      obtain ⟨-,y,-,-,-,-,-,rfl⟩ := (mergePath_additional path _ _ _ e).mp he
      exact absurd rfl (hmem y)
  · intro hnone e he h' hname
    obtain ⟨k,-,hk⟩ := mem_filterMap.mp he
    obtain ⟨-,y,-,-,-,-,-,rfl⟩ := (mergePath_additional k _ _ _ e).mp hk
    have hkey := keepBothPath_path hname
    subst hkey
    rw [mergeAt] at hnone
    rw [hnone] at hk
    cases hk

/-- A path is merged cleanly in the whole as it is by itself. -/
theorem mergedCleanly_iff (ancestor : Option (OrderedMap Str Hash)) (l r : OrderedMap Str Hash)
    (hbound : (l.get path).isSome) (h : Hash) :
    MergedCleanly (mergeSnapshots X s index localPeerId strategyOverride ancestor l r) path h ↔
      ∃ d, mergeAt X s index localPeerId strategyOverride ancestor l r path = ⟨some h,d,none,none⟩ := by
  have hpaths : path ∈ allPaths (ancestor.getD .empty) l r := mem_allPaths.mpr (.inr (.inl hbound))
  rw [MergedCleanly,get_mergedBindings,conflicts_clean_iff hpaths,additional_clean_iff hpaths]
  change (mergeAt X s index localPeerId strategyOverride ancestor l r path).binding = some h ∧ _ ↔ _
  cases mergeAt X s index localPeerId strategyOverride ancestor l r path
  simp

/-- A change of one side goes through if the configs of the path respect it. -/
theorem mergePath_oneSided {base : Option Hash} {l r : Hash} (hne : l ≠ r)
    (hbase : base = some l ∨ base = some r) :
    (∃ d, mergePath X s index localPeerId strategyOverride path base (some l) (some r) =
      ⟨some (changedSide base l r),d,none,none⟩) ↔
      RespectsChange X s index localPeerId strategyOverride path base l r := by
  have hrl : r ≠ l := hne.symm
  rw [mergePath,if_neg hne,RespectsChange]
  by_cases hmarker : markerBeside X l r = true
  · have hxor := hmarker
    rw [markerBeside] at hxor
    rw [if_pos hxor,mergeMarker]
    rcases hbase with rfl | rfl
    · simp [changedSide,hmarker]
    · simp [changedSide,hmarker,hrl]
  · have hxor := hmarker
    rw [markerBeside] at hxor
    rw [if_neg hxor,mergeEdits]
    cases findMergeStrategy X s index localPeerId path strategyOverride l r <;>
      rcases hbase with rfl | rfl <;> simp [changedSide,hmarker,PathMerge.keep,hne,hrl]

/-- Where exactly one side differs from the base, the merge binds its hash and says nothing
more exactly if the configs of the path respect a change. -/
theorem one_sided_change_clean_iff (ancestor : Option (OrderedMap Str Hash))
    (l r : OrderedMap Str Hash) {path : Str} {x y : Hash} (hl : l.get path = some x)
    (hr : r.get path = some y) (hside : Xor ((ancestor.getD .empty).get path ≠ some x)
      ((ancestor.getD .empty).get path ≠ some y)) :
    MergedCleanly (mergeSnapshots X s index localPeerId strategyOverride ancestor l r) path
      (changedSide ((ancestor.getD .empty).get path) x y) ↔
      RespectsChange X s index localPeerId strategyOverride path
        ((ancestor.getD .empty).get path) x y := by
  have hbase : (ancestor.getD .empty).get path = some x ∨
      (ancestor.getD .empty).get path = some y := by
    rcases hside with ⟨-,h⟩ | ⟨-,h⟩
    · exact .inr (not_not.mp h)
    · exact .inl (not_not.mp h)
  have hne : x ≠ y := by
    rintro rfl
    rcases hside with ⟨h,h'⟩ | ⟨h,h'⟩ <;> exact h' h
  rw [mergedCleanly_iff ancestor l r (by rw [hl]; rfl),mergeAt,hl,hr]
  exact mergePath_oneSided hne hbase

/-! Two entities kept both. -/

variable (X s index localPeerId strategyOverride)

/-- Two different entities at one path, and keep-both for the path. -/
def ResolvedKeepBoth (l r : OrderedMap Str Hash) (path : Str) (x y : Hash) : Prop :=
  l.get path = some x ∧ r.get path = some y ∧ x ≠ y ∧ markerBeside X x y = false ∧
    findMergeStrategy X s index localPeerId path strategyOverride x y = .keepBoth

/-- Whether the configs of a path give a divergence to the remote side. -/
def takesRemote (path : Str) (base : Option Hash) (x y : Hash) : Bool :=
  if markerBeside X x y then
    sideChosen base x y ((favouredSide X s index localPeerId path x y).getD false)
  else match findMergeStrategy X s index localPeerId path strategyOverride x y with
    | .sourceWins => true
    | .threeWay => sideChosen base x y false
    | _ => false

/-- No side has anything but the hash at a path, or the side that counts there has it. -/
def FreeFor (ancestor : Option (OrderedMap Str Hash)) (l r : OrderedMap Str Hash) (path : Str)
    (h : Hash) : Prop :=
  match l.get path, r.get path with
  | none, none => True
  | some x, none => x = h
  | none, some y => y = h
  | some x, some y =>
    (if takesRemote X s index localPeerId strategyOverride path ((ancestor.getD .empty).get path) x y
      then y else x) = h

/-- What the merge bound stays bound after the fold, and both sides of every path kept both
are among the values. -/
structure LosesNothing (ancestor : Option (OrderedMap Str Hash)) (l r : OrderedMap Str Hash) :
    Prop where
  bound : ∀ path h, (mergeSnapshots X s index localPeerId strategyOverride ancestor l
    r).mergedBindings.get path = some h → (mergeSnapshots X s index localPeerId strategyOverride
      ancestor l r).bindings.get path = some h
  both : ∀ path x y, ResolvedKeepBoth X s index localPeerId strategyOverride l r path x y →
    x ∈ (mergeSnapshots X s index localPeerId strategyOverride ancestor l r).bindings.values ∧
      y ∈ (mergeSnapshots X s index localPeerId strategyOverride ancestor l r).bindings.values

variable {X s index localPeerId strategyOverride}

theorem mergePath_binding_both (path : Str) (base : Option Hash) (x y : Hash) :
    (mergePath X s index localPeerId strategyOverride path base (some x) (some y)).binding =
      some (if takesRemote X s index localPeerId strategyOverride path base x y then y else x) := by
  by_cases hne : x = y
  · subst hne
    simp [mergePath,PathMerge.keep]
  rw [mergePath,if_neg hne,takesRemote]
  by_cases hmarker : markerBeside X x y = true
  · have hxor := hmarker
    rw [markerBeside] at hxor
    rw [if_pos hxor,if_pos hmarker]
    cases hfavoured : favouredSide X s index localPeerId path x y with
    | none =>
      rw [favouredSide,if_pos hxor] at hfavoured
      cases hres : findDeletionResolution X s index localPeerId path <;> rw [hres] at hfavoured <;>
        cases hfavoured
    | some favoured => exact mergeMarker_binding hne hxor hfavoured base
  · have hxor := hmarker
    rw [markerBeside] at hxor
    rw [if_neg hxor,if_neg hmarker,mergeEdits]
    cases findMergeStrategy X s index localPeerId path strategyOverride x y with
    | threeWay =>
      dsimp only
      by_cases hx : base = some x
      · rw [if_pos hx,hx,sideChosen_first]
        rfl
      · rw [if_neg hx]
        by_cases hy : base = some y
        · rw [if_pos hy,hy,sideChosen_second hne]
          rfl
        · rw [if_neg hy,sideChosen_neither hx hy]
          rfl
    | sourceWins => rfl
    | targetWins => rfl
    | manual => rfl
    | keepBoth => rfl
    | handler p => rfl
    | unresolvable n => rfl

theorem freeFor_iff (ancestor : Option (OrderedMap Str Hash)) (l r : OrderedMap Str Hash)
    (path : Str) (h : Hash) : FreeFor X s index localPeerId strategyOverride ancestor l r path h ↔
      ∀ h', (mergeSnapshots X s index localPeerId strategyOverride ancestor l
        r).mergedBindings.get path = some h' → h' = h := by
  rw [get_mergedBindings,FreeFor]
  cases l.get path with
  | none => cases r.get path <;> simp [mergePath,PathMerge.keep]
  | some x => cases r.get path with
    | none => simp [mergePath,PathMerge.keep]
    | some y =>
      rw [mergePath_binding_both]
      simp

theorem mem_additionalBindings (ancestor : Option (OrderedMap Str Hash))
    (l r : OrderedMap Str Hash) (e : Str × Hash) :
    e ∈ (mergeSnapshots X s index localPeerId strategyOverride ancestor l r).additionalBindings ↔
      ∃ path x y, ResolvedKeepBoth X s index localPeerId strategyOverride l r path x y ∧
        (keepBothPath path y,y) = e := by
  rw [additionalBindings_eq,mem_filterMap]
  constructor
  · rintro ⟨path,-,hadd⟩
    obtain ⟨x,y,hx,hy,hne,hxor,hs,he⟩ := (mergePath_additional path none _ _ e).mp hadd
    exact ⟨path,x,y,⟨hx,hy,hne,hxor,hs⟩,he⟩
  · rintro ⟨path,x,y,⟨hx,hy,hne,hxor,hs⟩,he⟩
    refine ⟨path,?_,(mergePath_additional path none _ _ e).mpr ⟨x,y,hx,hy,hne,hxor,hs,he⟩⟩
    rw [mem_keysOf,hx]
    rfl

/-- Names made for two paths meet nowhere, so every generated binding is there at the end. -/
theorem get_bindings_beside (ancestor : Option (OrderedMap Str Hash)) {x y : Hash}
    (h : ResolvedKeepBoth X s index localPeerId strategyOverride l r path x y) :
    (mergeSnapshots X s index localPeerId strategyOverride ancestor l r).bindings.get
      (keepBothPath path y) = some y := by
  have hfunctional : ∀ e ∈ (mergeSnapshots X s index localPeerId strategyOverride ancestor l
      r).additionalBindings, ∀ e' ∈ (mergeSnapshots X s index localPeerId strategyOverride ancestor
        l r).additionalBindings, e.1 = e'.1 → e.2 = e'.2 := by
    intro e he e' he' hkey
    obtain ⟨p,-,b,⟨-,hb,-⟩,rfl⟩ := (mem_additionalBindings ancestor l r e).mp he
    obtain ⟨q,-,c,⟨-,hc,-⟩,rfl⟩ := (mem_additionalBindings ancestor l r e').mp he'
    have hpath : p = q := keepBothPath_path hkey
    subst hpath
    exact Option.some.inj (hb.symm.trans hc)
  have hmem := (mem_additionalBindings ancestor l r (keepBothPath path y,y)).mpr ⟨path,x,y,h,rfl⟩
  exact get_insertAll_of_mem _ hfunctional hmem

theorem get_merged_keepBoth (ancestor : Option (OrderedMap Str Hash)) {x y : Hash}
    (h : ResolvedKeepBoth X s index localPeerId strategyOverride l r path x y) :
    (mergeSnapshots X s index localPeerId strategyOverride ancestor l r).mergedBindings.get path =
      some x := by
  obtain ⟨hx,hy,-,hmarker,hstrategy⟩ := h
  rw [get_mergedBindings,hx,hy,mergePath_binding_both,takesRemote,hmarker,hstrategy]
  rfl

/-- Keep-both loses nothing exactly if every name it makes is free for the remote entity. -/
theorem keep_both_loses_nothing_iff (ancestor : Option (OrderedMap Str Hash))
    (l r : OrderedMap Str Hash) : LosesNothing X s index localPeerId strategyOverride ancestor l r ↔
      ∀ path x y, ResolvedKeepBoth X s index localPeerId strategyOverride l r path x y →
        FreeFor X s index localPeerId strategyOverride ancestor l r (keepBothPath path y) y := by
  constructor
  · intro h path x y hboth
    rw [freeFor_iff]
    intro h' hmerged
    have hkept := h.bound _ _ hmerged
    rw [get_bindings_beside ancestor hboth] at hkept
    exact (Option.some.inj hkept).symm
  · intro hfree
    have hbound : ∀ path h, (mergeSnapshots X s index localPeerId strategyOverride ancestor l
        r).mergedBindings.get path = some h → (mergeSnapshots X s index localPeerId
          strategyOverride ancestor l r).bindings.get path = some h := by
      intro path h hmerged
      by_cases hname : path ∈ (mergeSnapshots X s index localPeerId strategyOverride ancestor l
          r).additionalBindings.map Prod.fst
      · obtain ⟨e,he,rfl⟩ := List.mem_map.mp hname
        obtain ⟨p,x,y,hboth,rfl⟩ := (mem_additionalBindings ancestor l r e).mp he
        have hsame := (freeFor_iff ancestor l r _ _).mp (hfree p x y hboth) h hmerged
        rw [hsame]
        exact get_bindings_beside ancestor hboth
      · rw [MergeResult.bindings,get_insertAll_not_mem _ hname]
        exact hmerged
    refine ⟨hbound,fun path x y hboth => ?_⟩
    rw [OrderedMap.mem_values,OrderedMap.mem_values]
    exact ⟨⟨path,hbound path x (get_merged_keepBoth ancestor hboth)⟩,
      ⟨keepBothPath path y,get_bindings_beside ancestor hboth⟩⟩

end Merge

namespace MergeSample

open UntrackedSample AgreementSample AutoVersionSample

/-- One note, bound to a first or to a second text. -/
def bound (h : Hash) : OrderedMap Str Hash := OrderedMap.empty.insert "a".toList h

def emptyIndex : MemoryLocationIndex := ⟨.empty⟩

end MergeSample

open MergeSample UntrackedSample AgreementSample AutoVersionSample

/-- Without a config the remote edit of a note goes through. -/
theorem one_sided_change_clean_iff_sample :
    MergedCleanly (mergeSnapshots twoSides.crates ⟨[]⟩ emptyIndex peer none
      (some (bound one.contentHash)) (bound one.contentHash) (bound two.contentHash)) "a".toList
      two.contentHash := by
  have hthree : findMergeStrategy twoSides.crates ⟨[]⟩ emptyIndex peer "a".toList none
      one.contentHash two.contentHash = .threeWay := by decide
  have hrespects : RespectsChange twoSides.crates ⟨[]⟩ emptyIndex peer none "a".toList
      (some one.contentHash) one.contentHash two.contentHash := by
    rw [RespectsChange,hthree]
    exact .inr trivial
  exact (one_sided_change_clean_iff (some (bound one.contentHash)) (bound one.contentHash)
    (bound two.contentHash) (by decide) (by decide)
    (.inr ⟨by decide,by decide⟩)).mpr hrespects

/-- Under keep-both the same remote edit is kept beside the note it replaces. -/
theorem one_sided_edit_kept_beside :
    ¬∀ (ancestor : Option (OrderedMap Str Hash)) (l r : OrderedMap Str Hash)
      (strategyOverride : Option Str) (path : Str) (x y : Hash), l.get path = some x →
      r.get path = some y → Xor ((ancestor.getD .empty).get path ≠ some x)
        ((ancestor.getD .empty).get path ≠ some y) →
      MergedCleanly (mergeSnapshots twoSides.crates ⟨[]⟩ emptyIndex peer strategyOverride ancestor
        l r) path (changedSide ((ancestor.getD .empty).get path) x y) := by
  intro h
  have hclean := (h (some (bound one.contentHash)) (bound one.contentHash) (bound two.contentHash)
    (some "keep-both".toList) "a".toList one.contentHash two.contentHash (by decide +kernel)
    (by decide +kernel) (.inr ⟨by decide +kernel,by decide +kernel⟩)).1
  revert hclean
  decide +kernel

namespace MergeSample

open UntrackedSample AgreementSample AutoVersionSample

/-- A note with an older remote text kept beside it, and edited there since. -/
def besideEdited : OrderedMap Str Hash :=
  (bound one.contentHash).insert (keepBothPath "a".toList two.contentHash) headOfOne.contentHash

end MergeSample

/-- A second merge of the same remote text writes over the edit. -/
theorem edit_beside_lost : ¬∀ (ancestor : Option (OrderedMap Str Hash)) (l r : OrderedMap Str Hash)
      (strategyOverride : Option Str),
      LosesNothing twoSides.crates ⟨[]⟩ emptyIndex peer strategyOverride ancestor l r := by
  intro h
  have hlost := (h none besideEdited (bound two.contentHash) (some "keep-both".toList)).bound
    (keepBothPath "a".toList two.contentHash) headOfOne.contentHash (by decide +kernel)
  revert hlost
  decide +kernel

end EntityCore
