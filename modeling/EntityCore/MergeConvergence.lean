import EntityCore.UntrackedPaths

/-! Two peers that merge the same pair of versions, each from its own side. The merge
differs at most by the ancestor that the two searches find. -/
namespace EntityCore

open Ecf Outcome Strings List MemoryLocationIndex

/-! What a merge reads of the configs. -/

section Configs

theorem configNameOf_below (u v : Str) : configNameOf (u++ '/'::v) = configNameOf v := by
  have hlast : (segments '/' v).getLast? = some ((segments '/' v).getLast (segments_ne_nil _ _)) :=
    getLast?_eq_some_getLast _
  rw [configNameOf,configNameOf,segments_append,getLast?_append,hlast]
  rfl

/-- The listing below a prefix is a map of what comes after it. -/
theorem list_of_get {i : MemoryLocationIndex} {a : Str} {m : OrderedMap Str Hash}
    (h : ∀ rest, i.get (a++rest) = m.get rest) :
    i.list a = m.entries.map fun e => (a++e.1,e.2) := by
  have hsorted : (i.list a).Pairwise fun x y => x.1 < y.1 := by
    rw [list_eq]
    exact OrderedMap.sorted _
  have hsorted' : (m.entries.map fun e => (a++e.1,e.2)).Pairwise fun x y => x.1 < y.1 :=
    pairwise_map.mpr (m.sorted.imp fun hlt => append_left_lt hlt)
  have hnodup : ∀ {l : List (Str × Hash)}, (l.Pairwise fun x y => x.1 < y.1) → l.Nodup :=
    fun hl => hl.imp fun hlt he => hlt.ne (congrArg Prod.fst he)
  have hperm : (i.list a).Perm (m.entries.map fun e => (a++e.1,e.2)) := by
    refine (perm_ext_iff_of_nodup (hnodup hsorted) (hnodup hsorted')).mpr ?_
    rintro ⟨p,v⟩
    rw [mem_list,mem_map]
    constructor
    · rintro ⟨hget,rest,rfl⟩
      exact ⟨(rest,v),(m.mem_entries rest v).mpr (h rest ▸ hget),rfl⟩
    · rintro ⟨⟨rest,v'⟩,hmem,he⟩
      obtain ⟨rfl,rfl⟩ := Prod.mk.inj he
      exact ⟨(h rest).trans ((m.mem_entries rest v').mp hmem),prefix_append _ _⟩
  exact hperm.eq_of_pairwise (fun x y _ _ hxy hyx => absurd hyx (lt_asymm hxy)) hsorted hsorted'

theorem exists_below (i : MemoryLocationIndex) (a : Str) :
    ∃ m : OrderedMap Str Hash, ∀ rest, m.get rest = i.get (a++rest) := by
  have hfold : ∀ l : List (Str × Hash), (∀ e ∈ l, a <+: e.1) → (l.map Prod.fst).Nodup →
      ∃ m : OrderedMap Str Hash, ∀ rest, m.get rest = OrderedMap.lookup (a++rest) l := by
    intro l
    induction l with
    | nil => exact fun _ _ => ⟨.empty,fun _ => rfl⟩
    | cons e l ih =>
      intro hpre hnodup
      obtain ⟨m,hm⟩ := ih (fun e he => hpre e (mem_cons_of_mem _ he)) hnodup.of_cons
      obtain ⟨t,ht⟩ := hpre e mem_cons_self
      refine ⟨m.insert t e.2,fun rest => ?_⟩
      rw [OrderedMap.get_insert,hm,OrderedMap.lookup,← ht]
      by_cases hr : t = rest
      · rw [if_pos hr.symm,if_pos (by rw [hr])]
      · rw [if_neg (Ne.symm hr),if_neg fun he => hr (append_cancel_left he)]
  obtain ⟨m,hm⟩ := hfold (i.list a)
    (fun e he => ((i.mem_list a e.1 e.2).mp he).2) (by
      rw [list_eq]
      exact OrderedMap.keys_nodup _)
  refine ⟨m,fun rest => ?_⟩
  rw [hm,list_eq]
  show (OrderedMap.filterKeys _ _).get _ = _
  rw [OrderedMap.get_filterKeys,if_pos ((startsWith_iff _ _).mpr (prefix_append _ _))]
  rfl

/-- Both peers have the same merge configs, each below its own root. -/
def SameMergeConfigs (p q : Str) (i j : MemoryLocationIndex) : Prop :=
  ∀ rest, i.get (mergeConfigPath p ""++rest) = j.get (mergeConfigPath q ""++rest)

variable {X : Platform} {s : ContentStore} {p q : Str} {i j : MemoryLocationIndex}

theorem SameMergeConfigs.get (h : SameMergeConfigs p q i j) (kind : String) (rest : Str) :
    i.get (mergeConfigPath p kind++rest) = j.get (mergeConfigPath q kind++rest) := by
  have hsplit : ∀ pid, mergeConfigPath pid kind++rest =
      mergeConfigPath pid ""++(kind.toList++rest) := by
    intro pid
    simp [mergeConfigPath]
  rw [hsplit,hsplit]
  exact h _

theorem bestPathConfig_congr (h : SameMergeConfigs p q i j) {α : Type} (valueOf : Bytes → Option α)
    (path : Str) : bestPathConfig X s i p valueOf path = bestPathConfig X s j q valueOf path := by
  obtain ⟨m,hm⟩ := exists_below i (mergeConfigPath p "path/")
  have hi := list_of_get fun rest => (hm rest).symm
  have hj := list_of_get (i := j) (a := mergeConfigPath q "path/")
    fun rest => (h.get "path/" rest).symm.trans (hm rest).symm
  have hname : ∀ pid rest, configNameOf (mergeConfigPath pid "path/"++rest) = configNameOf rest := by
    intro pid rest
    have hsplit : mergeConfigPath pid "path/"++rest = mergeConfigPath pid "path"++ '/'::rest := by
      simp [mergeConfigPath]
    rw [hsplit,configNameOf_below]
  unfold bestPathConfig
  rw [hi,hj,foldl_map,foldl_map]
  simp only [hname]

theorem findDeletionResolution_congr (h : SameMergeConfigs p q i j) (path : Str) :
    findDeletionResolution X s i p path = findDeletionResolution X s j q path := by
  rw [findDeletionResolution,findDeletionResolution,bestPathConfig_congr h]

theorem findMergeStrategy_congr (h : SameMergeConfigs p q i j) (path : Str) (o : Option Str)
    (l r : Hash) : findMergeStrategy X s i p path o l r = findMergeStrategy X s j q path o l r := by
  have htype : typeStrategy X s i p = typeStrategy X s j q := by
    funext name
    rw [typeStrategy,typeStrategy,h.get "type/" name]
  rw [findMergeStrategy,findMergeStrategy,htype,bestPathConfig_congr h]

theorem mergePath_congr (h : SameMergeConfigs p q i j) (o : Option Str) :
    mergePath X s i p o = mergePath X s j q o := by
  funext path base l r
  have hmarker : mergeMarker X s i p = mergeMarker X s j q := by
    funext path base l r
    rw [mergeMarker,mergeMarker,findDeletionResolution_congr h]
  have hedits : mergeEdits X s i p o = mergeEdits X s j q o := by
    funext path base l r
    rw [mergeEdits,mergeEdits,findMergeStrategy_congr h]
  unfold mergePath
  rw [hmarker,hedits]

theorem mergeSnapshots_congr (h : SameMergeConfigs p q i j) (o : Option Str)
    (ancestor : Option (OrderedMap Str Hash)) (l r : OrderedMap Str Hash) :
    mergeSnapshots X s i p o ancestor l r = mergeSnapshots X s j q o ancestor l r := by
  rw [mergeSnapshots,mergeSnapshots,mergePath_congr h]

end Configs

/-! What a merge makes of its base. -/

section Base

variable (X : Platform) (s : ContentStore) (index : MemoryLocationIndex) (localPeerId : Str)

/-- The side a base chooses between two bindings: the one that changed, and without a
side that kept the base the one favoured. `true` is the second side. -/
def sideChosen (base : Option Hash) (l r : Hash) (favoured : Bool) : Bool :=
  if base = some l then true else if base = some r then false else favoured

/-- Where the base decides between two bindings, the side favoured if it does not. -/
def favouredSide (path : Str) (l r : Hash) : Option Bool :=
  let marker := canonicalDeletionMarkerHash X
  if xor (l = marker) (r = marker) then
    match findDeletionResolution X s index localPeerId path with
    | .preserveOnConflict => some (l = marker)
    | .deletionWins => some (r = marker)
    | .threeWayFallthrough => some false
    | .deterministic => some (¬l < r)
  else if findMergeStrategy X s index localPeerId path none l r = .threeWay then some false
  else none

/-- Two entities of different bindings are both kept, the second at its own path. -/
def KeptBothAt (l r : OrderedMap Str Hash) (k : Str) : Prop :=
  ∃ path x y, l.get path = some x ∧ r.get path = some y ∧ x ≠ y ∧
    xor (decide (x = canonicalDeletionMarkerHash X)) (decide (y = canonicalDeletionMarkerHash X)) =
      false ∧
    findMergeStrategy X s index localPeerId path none x y = .keepBoth ∧ keepBothPath path y = k

/-- The two bases choose the same side wherever the choice shows. -/
def BasesAgree (base base' l r : OrderedMap Str Hash) : Prop :=
  ∀ k x y favoured, l.get k = some x → r.get k = some y → x ≠ y →
    favouredSide X s index localPeerId k x y = some favoured →
    ¬KeptBothAt X s index localPeerId l r k →
    sideChosen (base.get k) x y favoured = sideChosen (base'.get k) x y favoured

variable {X s index localPeerId}

theorem sideChosen_first (l r : Hash) (favoured : Bool) : sideChosen (some l) l r favoured = true :=
  if_pos rfl

theorem sideChosen_second {l r : Hash} (hne : l ≠ r) (favoured : Bool) :
    sideChosen (some r) l r favoured = false := by
  rw [sideChosen,if_neg fun h => hne (Option.some.inj h).symm,if_pos rfl]

theorem sideChosen_neither {base : Option Hash} {l r : Hash} (hl : base ≠ some l)
    (hr : base ≠ some r) (favoured : Bool) : sideChosen base l r favoured = favoured := by
  rw [sideChosen,if_neg hl,if_neg hr]

theorem mergeMarker_binding {path : Str} {l r : Hash} {favoured : Bool} (hne : l ≠ r)
    (hxor : xor (decide (l = canonicalDeletionMarkerHash X))
      (decide (r = canonicalDeletionMarkerHash X)) = true)
    (h : favouredSide X s index localPeerId path l r = some favoured) (base : Option Hash) :
    (mergeMarker X s index localPeerId path base l r).binding =
      some (if sideChosen base l r favoured then r else l) := by
  unfold mergeMarker
  dsimp only
  by_cases hl : base = some l
  · rw [if_pos hl,hl,sideChosen_first]
    rfl
  · rw [if_neg hl]
    by_cases hr : base = some r
    · rw [if_pos hr,hr,sideChosen_second hne]
      rfl
    · rw [if_neg hr,sideChosen_neither hl hr]
      rw [favouredSide,if_pos hxor] at h
      -- exactly one of the two is the marker
      have hother : r = canonicalDeletionMarkerHash X ↔ ¬l = canonicalDeletionMarkerHash X := by
        by_cases hm : l = canonicalDeletionMarkerHash X <;> simp [hm] at hxor ⊢ <;> exact hxor
      cases hres : findDeletionResolution X s index localPeerId path with
      | preserveOnConflict =>
        rw [hres] at h
        obtain rfl := Option.some.inj h
        simp [PathMerge.keep]
      | deletionWins =>
        rw [hres] at h
        obtain rfl := Option.some.inj h
        by_cases hm : r = canonicalDeletionMarkerHash X
        · simp [hm]
        · have hm' := not_not.mp fun hl => hm (hother.mpr hl)
          simp [hm,hm']
      | threeWayFallthrough =>
        rw [hres] at h
        obtain rfl := Option.some.inj h
        rfl
      | deterministic =>
        rw [hres] at h
        obtain rfl := Option.some.inj h
        by_cases hlt : l < r
        · simp [hlt]
        · simp [hlt]

theorem mergePath_favoured {path : Str} {l r : Hash} {favoured : Bool} (hne : l ≠ r)
    (h : favouredSide X s index localPeerId path l r = some favoured) (base : Option Hash) :
    (mergePath X s index localPeerId none path base (some l) (some r)).binding =
      some (if sideChosen base l r favoured then r else l) := by
  unfold mergePath
  dsimp only
  rw [if_neg hne]
  by_cases hxor : xor (decide (l = canonicalDeletionMarkerHash X))
      (decide (r = canonicalDeletionMarkerHash X)) = true
  · rw [if_pos hxor]
    exact mergeMarker_binding hne hxor h base
  · rw [if_neg hxor]
    rw [favouredSide,if_neg hxor] at h
    split_ifs at h with hstrategy
    obtain rfl := Option.some.inj h
    unfold mergeEdits
    rw [hstrategy]
    dsimp only
    by_cases hl : base = some l
    · rw [if_pos hl,hl,sideChosen_first]
      rfl
    · rw [if_neg hl]
      by_cases hr : base = some r
      · rw [if_pos hr,hr,sideChosen_second hne]
        rfl
      · rw [if_neg hr,sideChosen_neither hl hr]
        rfl

/-- Where no side is favoured the base does not count. -/
theorem mergePath_unfavoured {path : Str} {l r : Hash} (hne : l ≠ r)
    (h : favouredSide X s index localPeerId path l r = none) (base base' : Option Hash) :
    (mergePath X s index localPeerId none path base (some l) (some r)).binding =
      (mergePath X s index localPeerId none path base' (some l) (some r)).binding := by
  unfold favouredSide at h
  dsimp only at h
  split_ifs at h with hxor hstrategy
  · cases hres : findDeletionResolution X s index localPeerId path <;> rw [hres] at h <;> cases h
  · unfold mergePath
    dsimp only
    rw [if_neg hne,if_neg hne,if_neg hxor,if_neg hxor]
    unfold mergeEdits
    dsimp only
    cases hs : findMergeStrategy X s index localPeerId path none l r with
    | threeWay => exact absurd hs hstrategy
    | sourceWins => rfl
    | targetWins => rfl
    | manual => rfl
    | keepBoth => rfl
    | handler p => rfl
    | unresolvable n => rfl

/-- What is kept beside a binding does not depend on the base. -/
theorem mergePath_additional {o : Option Str} (path : Str) (base l r : Option Hash) (e : Str × Hash) :
    (mergePath X s index localPeerId o path base l r).additional = some e ↔
      ∃ x y, l = some x ∧ r = some y ∧ x ≠ y ∧ xor (decide (x = canonicalDeletionMarkerHash X))
          (decide (y = canonicalDeletionMarkerHash X)) = false ∧
        findMergeStrategy X s index localPeerId path o x y = .keepBoth ∧
        (keepBothPath path y,y) = e := by
  cases l with
  | none => cases r <;> simp [mergePath,PathMerge.keep]
  | some x => cases r with
    | none => simp [mergePath,PathMerge.keep]
    | some y =>
      unfold mergePath
      dsimp only
      by_cases hxy : x = y
      · simp [hxy,PathMerge.keep]
      · rw [if_neg hxy]
        by_cases hxor : xor (decide (x = canonicalDeletionMarkerHash X))
            (decide (y = canonicalDeletionMarkerHash X)) = true
        · rw [if_pos hxor]
          have hnone : (mergeMarker X s index localPeerId path base x y).additional = none := by
            unfold mergeMarker
            dsimp only
            by_cases hl : base = some x
            · rw [if_pos hl]
            · rw [if_neg hl]
              by_cases hr : base = some y
              · rw [if_pos hr]
              · rw [if_neg hr]
                cases findDeletionResolution X s index localPeerId path <;> rfl
          constructor
          · intro h
            rw [hnone] at h
            cases h
          · rintro ⟨x',y',hx,hy,-,hfalse,-,-⟩
            rw [← Option.some.inj hx,← Option.some.inj hy,hxor] at hfalse
            cases hfalse
        · rw [if_neg hxor]
          unfold mergeEdits
          dsimp only
          constructor
          · intro h
            refine ⟨x,y,rfl,rfl,hxy,Bool.eq_false_iff.mpr hxor,?_⟩
            split at h
            · cases h
            · cases h
            · split_ifs at h
              · cases h
              · cases h
            · rename_i hs
              exact ⟨hs,Option.some.inj h⟩
            · cases h
            · cases h
            · cases h
          · rintro ⟨x',y',hx,hy,-,-,hs,he⟩
            obtain rfl := Option.some.inj hx
            obtain rfl := Option.some.inj hy
            rw [hs]
            exact congrArg some he

theorem foldl_add_get (f : Str → PathMerge) (paths : List Str) (result : MergeResult) (k : Str) :
    (paths.foldl (fun result path => result.add path (f path)) result).mergedBindings.get k =
      if k ∈ paths then (f k).binding.or (result.mergedBindings.get k)
      else result.mergedBindings.get k := by
  have hadd : ∀ (result : MergeResult) (path : Str),
      (result.add path (f path)).mergedBindings.get k =
        if k = path then (f k).binding.or (result.mergedBindings.get k)
        else result.mergedBindings.get k := by
    intro result path
    unfold MergeResult.add
    dsimp only
    by_cases hk : k = path
    · subst hk
      cases (f k).binding <;> simp
    · rw [if_neg hk]
      cases (f path).binding with
      | none => rfl
      | some h => rw [OrderedMap.get_insert,if_neg hk]
  induction paths generalizing result with
  | nil => simp
  | cons path paths ih =>
    rw [foldl_cons,ih,hadd]
    by_cases hk : k = path
    · subst hk
      cases (f k).binding <;> simp
    · simp [hk]

theorem foldl_add_additional (f : Str → PathMerge) (paths : List Str) (result : MergeResult) :
    (paths.foldl (fun result path => result.add path (f path)) result).additionalBindings =
      result.additionalBindings++paths.filterMap fun k => (f k).additional := by
  induction paths generalizing result with
  | nil => simp
  | cons path paths ih =>
    rw [foldl_cons,ih]
    unfold MergeResult.add
    cases hadd : (f path).additional <;> simp [hadd]

theorem mem_allPaths {base l r : OrderedMap Str Hash} {k : Str} :
    k ∈ allPaths base l r ↔ (base.get k).isSome ∨ (l.get k).isSome ∨ (r.get k).isSome := by
  rw [allPaths,mem_insertionSort,mem_dedup,mem_append,mem_append,
    mem_keysOf,mem_keysOf,mem_keysOf,or_assoc]

/-- The merged binding of a path is the merge of its bindings. -/
theorem get_mergedBindings {o : Option Str} (ancestor : Option (OrderedMap Str Hash)) (l r : OrderedMap Str Hash)
    (k : Str) : (mergeSnapshots X s index localPeerId o ancestor l r).mergedBindings.get k =
      (mergePath X s index localPeerId o k ((ancestor.getD .empty).get k) (l.get k)
        (r.get k)).binding := by
  have hfold := foldl_add_get (fun path => mergePath X s index localPeerId o path
    ((ancestor.getD .empty).get path) (l.get path) (r.get path))
    (allPaths (ancestor.getD .empty) l r) ⟨.empty,[],[],[]⟩ k
  unfold mergeSnapshots
  dsimp only at hfold ⊢
  rw [hfold]
  split_ifs with hk
  · simp
  · rw [mem_allPaths,not_or,not_or] at hk
    rw [Option.not_isSome_iff_eq_none.mp hk.2.1,Option.not_isSome_iff_eq_none.mp hk.2.2]
    rfl

/-- The paths of one side among all of them. -/
theorem allPaths_filter (base l r : OrderedMap Str Hash) :
    (allPaths base l r).filter (fun k => (l.get k).isSome) = keysOf l := by
  have hsorted : (allPaths base l r).Pairwise (· ≤ ·) := pairwise_insertionSort _ _
  have hnodup : (allPaths base l r).Nodup :=
    (perm_insertionSort _ _).nodup_iff.mpr (nodup_dedup _)
  have hperm : ((allPaths base l r).filter fun k => (l.get k).isSome).Perm (keysOf l) := by
    refine (perm_ext_iff_of_nodup (hnodup.filter _) l.keys_nodup).mpr fun k => ?_
    rw [mem_filter,mem_allPaths,show k ∈ map Prod.fst l.entries ↔ _ from mem_keysOf]
    exact ⟨fun h => h.2,fun h => ⟨.inr (.inl h),h⟩⟩
  refine hperm.eq_of_pairwise (fun a b _ _ hab hba => le_antisymm hab hba) (hsorted.filter _) ?_
  exact pairwise_map.mpr (l.sorted.imp fun h => h.le)

/-- What is kept beside, in the order of the paths of one side. -/
theorem additionalBindings_eq {o : Option Str} (ancestor : Option (OrderedMap Str Hash))
    (l r : OrderedMap Str Hash) :
    (mergeSnapshots X s index localPeerId o ancestor l r).additionalBindings =
      (keysOf l).filterMap fun k =>
        (mergePath X s index localPeerId o k none (l.get k) (r.get k)).additional := by
  have hfold := foldl_add_additional (fun path => mergePath X s index localPeerId o path
    ((ancestor.getD .empty).get path) (l.get path) (r.get path))
    (allPaths (ancestor.getD .empty) l r) ⟨.empty,[],[],[]⟩
  unfold mergeSnapshots
  dsimp only at hfold ⊢
  rw [hfold,nil_append,← allPaths_filter (ancestor.getD .empty) l r,filterMap_filter]
  apply filterMap_congr
  intro k _
  have hbase : (mergePath X s index localPeerId o k ((ancestor.getD .empty).get k) (l.get k)
      (r.get k)).additional =
      (mergePath X s index localPeerId o k none (l.get k) (r.get k)).additional := by
    apply Option.ext
    intro e
    rw [mergePath_additional,mergePath_additional]
  rw [hbase]
  cases hl : l.get k with
  | none => cases r.get k <;> simp [mergePath,PathMerge.keep]
  | some x => rfl

theorem mem_additional_iff (ancestor : Option (OrderedMap Str Hash)) (l r : OrderedMap Str Hash)
    (k : Str) : k ∈ (mergeSnapshots X s index localPeerId none ancestor l
        r).additionalBindings.map Prod.fst ↔ KeptBothAt X s index localPeerId l r k := by
  rw [additionalBindings_eq,mem_map]
  constructor
  · rintro ⟨e,he,rfl⟩
    obtain ⟨path,-,hadd⟩ := mem_filterMap.mp he
    obtain ⟨x,y,hx,hy,hne,hxor,hs,rfl⟩ := (mergePath_additional path none _ _ e).mp hadd
    exact ⟨path,x,y,hx,hy,hne,hxor,hs,rfl⟩
  · rintro ⟨path,x,y,hx,hy,hne,hxor,hs,rfl⟩
    refine ⟨(keepBothPath path y,y),mem_filterMap.mpr ⟨path,?_,?_⟩,rfl⟩
    · rw [mem_keysOf,hx]
      rfl
    · exact (mergePath_additional path none _ _ _).mpr ⟨x,y,hx,hy,hne,hxor,hs,rfl⟩

theorem get_insertAll_not_mem {A : List (Str × Hash)} (m : OrderedMap Str Hash) {k : Str}
    (hk : k ∉ A.map Prod.fst) : (A.foldl (fun m e => m.insert e.1 e.2) m).get k = m.get k := by
  induction A generalizing m with
  | nil => rfl
  | cons e A ih =>
    rw [map_cons,mem_cons,not_or] at hk
    rw [foldl_cons,ih _ hk.2,OrderedMap.get_insert,if_neg hk.1]

theorem get_insertAll_mem {A : List (Str × Hash)} (m m' : OrderedMap Str Hash) {k : Str}
    (hk : k ∈ A.map Prod.fst) : (A.foldl (fun m e => m.insert e.1 e.2) m).get k =
      (A.foldl (fun m e => m.insert e.1 e.2) m').get k := by
  induction A generalizing m m' with
  | nil => cases hk
  | cons e A ih =>
    rw [foldl_cons,foldl_cons]
    by_cases hrest : k ∈ A.map Prod.fst
    · exact ih _ _ hrest
    · have he : k = e.1 := (mem_cons.mp hk).resolve_right hrest
      rw [get_insertAll_not_mem _ hrest,get_insertAll_not_mem _ hrest,OrderedMap.get_insert,
        OrderedMap.get_insert,if_pos he,if_pos he]

/-- Two bases make the same merge exactly if they choose the same sides. -/
theorem bindings_eq_iff (base base' : Option (OrderedMap Str Hash)) (l r : OrderedMap Str Hash) :
    (mergeSnapshots X s index localPeerId none base l r).bindings =
        (mergeSnapshots X s index localPeerId none base' l r).bindings ↔
      BasesAgree X s index localPeerId (base.getD .empty) (base'.getD .empty) l r := by
  have hadditional : (mergeSnapshots X s index localPeerId none base l r).additionalBindings =
      (mergeSnapshots X s index localPeerId none base' l r).additionalBindings := by
    rw [additionalBindings_eq,additionalBindings_eq]
  have hpath : (mergeSnapshots X s index localPeerId none base l r).bindings =
        (mergeSnapshots X s index localPeerId none base' l r).bindings ↔
      ∀ k, ¬KeptBothAt X s index localPeerId l r k →
        (mergePath X s index localPeerId none k ((base.getD .empty).get k) (l.get k)
          (r.get k)).binding =
        (mergePath X s index localPeerId none k ((base'.getD .empty).get k) (l.get k)
          (r.get k)).binding := by
    constructor
    · intro heq k hk
      have hget : (mergeSnapshots X s index localPeerId none base l r).bindings.get k =
          (mergeSnapshots X s index localPeerId none base' l r).bindings.get k := by rw [heq]
      rw [← mem_additional_iff base] at hk
      rwa [MergeResult.bindings,MergeResult.bindings,get_insertAll_not_mem _ hk,
        get_insertAll_not_mem _ (hadditional ▸ hk),get_mergedBindings,get_mergedBindings] at hget
    · intro h
      apply OrderedMap.ext_get
      intro k
      rw [MergeResult.bindings,MergeResult.bindings,← hadditional]
      by_cases hk : KeptBothAt X s index localPeerId l r k
      · exact get_insertAll_mem _ _ ((mem_additional_iff base l r k).mpr hk)
      · have hmem := fun hm => hk ((mem_additional_iff base l r k).mp hm)
        rw [get_insertAll_not_mem _ hmem,get_insertAll_not_mem _ hmem,get_mergedBindings,
          get_mergedBindings]
        exact h k hk
  rw [hpath]
  constructor
  · intro h k x y favoured hx hy hne hf hk
    have hbinding := h k hk
    rw [hx,hy,mergePath_favoured hne hf,mergePath_favoured hne hf] at hbinding
    have hside := Option.some.inj hbinding
    cases hb : sideChosen ((base.getD .empty).get k) x y favoured with
    | true =>
      cases hb' : sideChosen ((base'.getD .empty).get k) x y favoured with
      | true => rfl
      | false =>
        rw [hb,hb'] at hside
        exact absurd hside.symm hne
    | false =>
      cases hb' : sideChosen ((base'.getD .empty).get k) x y favoured with
      | true =>
        rw [hb,hb'] at hside
        exact absurd hside hne
      | false => rfl
  · intro h k hk
    cases hl : l.get k with
    | none => cases r.get k <;> rfl
    | some x => cases hr : r.get k with
      | none => rfl
      | some y =>
        by_cases hxy : x = y
        · simp [mergePath,hxy]
        · cases hf : favouredSide X s index localPeerId k x y with
          | none => exact mergePath_unfavoured hxy hf _ _
          | some favoured =>
            rw [mergePath_favoured hxy hf,mergePath_favoured hxy hf,
              h k x y favoured hl hr hxy hf hk]

end Base

/-! The two merges. -/

section Peers

variable (X : Platform) (fuel : ℕ)

/-- A peer with one version at its head merges the other and makes a version of them. -/
structure MergesInto (localPeerId : Str) (p : MergeParams) (w w' : RevisionWorld)
    (localHead remote version : Hash) : Prop where
  head : (VersionOp.merge p).head X localPeerId w = some localHead
  remote : p.remoteVersion = remote
  strategy : p.strategy = none
  order : VersionOp.mergeOrder X localPeerId w p = "deterministic".toList
  run : ∃ status conflicts merged deleted, handleMerge X fuel localPeerId p w =
      (.ok (.merge status (some version) conflicts merged deleted),w') ∧
    (status = "merged" ∨ status = "merged_with_conflicts")

/-- The bindings of the ancestor a search finds, none if it finds none. -/
def baseFound (w : RevisionWorld) (a b : Hash) : OrderedMap Str Hash :=
  match findCommonAncestor X w.store fuel a b with
  | .ok (some v) => bindingsAt X fuel w v
  | _ => .empty

/-- The bindings of two versions, those of the lower one first. -/
def orderedSides (w : RevisionWorld) (a b : Hash) : OrderedMap Str Hash × OrderedMap Str Hash :=
  if b < a then (bindingsAt X fuel w b,bindingsAt X fuel w a)
  else (bindingsAt X fuel w a,bindingsAt X fuel w b)

variable {X fuel} {localPeerId : Str} {p : MergeParams} {w w' : RevisionWorld} {a b v : Hash}

/-- What a merge that makes a version has gone through. -/
theorem MergesInto.steps (h : MergesInto X fuel localPeerId p w w' a b v) :
    a ≠ b ∧ ∃ result config w₁, mergeVersions X fuel localPeerId "deterministic".toList none a b w =
        (.ok result,w) ∧
      createMergeVersion X fuel config result a b w = (.ok (some v),w₁) ∧ w₁.store ≤ w'.store := by
  obtain ⟨status,conflicts,merged,deleted,hrun,hstatus⟩ := h.run
  have happlied : (RevisionReply.merge status (some v) conflicts merged deleted).Applied := .inr hstatus
  obtain ⟨head,hhead,hcases⟩ := VersionOp.handleMerge_cases hrun happlied
  obtain rfl : a = head := Option.some.inj (h.head.symm.trans hhead)
  rcases hcases with ⟨-,hforward⟩ | ⟨hrel,hmerge⟩
  · -- a fast-forward answers otherwise
    unfold fastForward at hforward
    obtain ⟨_,w₁,-,hrest⟩ := Action.bind_eq_ok.mp hforward
    obtain ⟨_,w₂,-,hrest₂⟩ := Action.bind_eq_ok.mp hrest
    obtain ⟨_,w₃,-,hrest₃⟩ := Action.bind_eq_ok.mp hrest₂
    obtain ⟨_,w₄,-,hreply⟩ := Action.bind_eq_ok.mp hrest₃
    have hforwarded := Except.ok.inj (Prod.mk.inj hreply).1
    rw [RevisionReply.merge.injEq] at hforwarded
    rcases hstatus with hs | hs <;> rw [hs] at hforwarded <;> simp at hforwarded
  · have hne : a ≠ b := by
      rintro rfl
      rw [h.remote,checkRelationship,if_pos rfl] at hrel
      cases hrel
    obtain ⟨result,version,w₁,w₂,u,u',_,hversions,hcreate,hadvance,happly,hreply⟩ :=
      VersionOp.mergeDiverged_cases hmerge happlied
    rw [RevisionReply.merge.injEq] at hreply
    obtain rfl := Option.some.inj hreply.2.1
    have horder := h.order
    unfold VersionOp.mergeOrder at horder
    rw [horder,h.strategy,h.remote] at hversions
    rw [h.remote] at hcreate
    refine ⟨hne,result,_,w₁,hversions,hcreate,?_⟩
    have hstore := (sameBut_advanceHead X hadvance).1
    exact hstore ▸ le_applyMergeResult happly

/-- The version a merge makes holds the merge of the two sides over the base found. -/
theorem MergesInto.made (h : MergesInto X fuel localPeerId p w w' a b v) :
    a ≠ b ∧ ∃ base root s₁ e, base.getD .empty = baseFound X fuel w a b ∧
      buildTrie X (mergeSnapshots X w.store w.index localPeerId none base
        (orderedSides X fuel w a b).1 (orderedSides X fuel w a b).2).bindings w.store = (.ok root,s₁) ∧
      buildRevisionEntry X ⟨root,sortedParents [a,b]⟩ = .ok e ∧ v = e.contentHash ∧
      s₁.put e ≤ w'.store := by
  obtain ⟨hne,result,config,w₁,hversions,hcreate,hle⟩ := h.steps
  obtain ⟨-,found,hfound,hresult⟩ := VersionOp.mergeVersions_eq hversions
  have hsides : normalizeMergeSides (bindingsAt X fuel w a) (bindingsAt X fuel w b) a b
      "deterministic".toList = orderedSides X fuel w a b := by
    unfold normalizeMergeSides orderedSides
    simp only [true_and]
  rw [hsides] at hresult
  refine ⟨hne,found.map (bindingsAt X fuel w),?_⟩
  have hbase : (found.map (bindingsAt X fuel w)).getD .empty = baseFound X fuel w a b := by
    rw [baseFound,hfound]
    cases found <;> rfl
  unfold createMergeVersion at hcreate
  obtain ⟨root,w₂,htrie,hrest⟩ := Action.bind_eq_ok.mp hcreate
  obtain ⟨oscillates,w₃,hsearch,hrest₂⟩ := Action.bind_eq_ok.mp hrest
  obtain ⟨-,rfl⟩ := Action.reading_eq_ok.mp hsearch
  cases oscillates with
  | true => cases Except.ok.inj (Prod.mk.inj hrest₂).1
  | false =>
    obtain ⟨v',w₄,hversion,hpure⟩ := Action.bind_eq_ok.mp hrest₂
    obtain ⟨hv,rfl⟩ := Prod.mk.inj hpure
    obtain rfl := Option.some.inj (Except.ok.inj hv)
    obtain ⟨hroot,hw⟩ := Prod.mk.inj htrie
    rw [mapErr_ok] at hroot
    unfold createVersion at hversion
    split at hversion
    · cases (Prod.mk.inj hversion).1
    · rename_i e he
      obtain ⟨hhash,rfl⟩ := Prod.mk.inj hversion
      refine ⟨root,w₃.store,e,hbase,?_,he,(Except.ok.inj hhash).symm,hle⟩
      rw [← hresult]
      exact Prod.ext hroot (congrArg RevisionWorld.store hw)

theorem baseFound_congr {w₁ w₂ : RevisionWorld} (h : w₁.store = w₂.store) (a b : Hash) :
    baseFound X fuel w₂ a b = baseFound X fuel w₁ a b := by
  unfold baseFound
  rw [h]
  split
  · exact VersionOp.bindingsAt_congr h.symm _
  · rfl

theorem orderedSides_comm {w₁ w₂ : RevisionWorld} (h : w₁.store = w₂.store) (hne : a ≠ b) :
    orderedSides X fuel w₂ b a = orderedSides X fuel w₁ a b := by
  unfold orderedSides
  rw [VersionOp.bindingsAt_congr h.symm a,VersionOp.bindingsAt_congr h.symm b]
  rcases lt_or_gt_of_ne hne with hlt | hlt
  · rw [if_pos hlt,if_neg (lt_asymm hlt)]
  · rw [if_neg (lt_asymm hlt),if_pos hlt]

theorem sortedParents_comm (a b : Hash) : sortedParents [a,b] = sortedParents [b,a] :=
  List.Perm.eq_of_pairwise (fun _ _ _ _ hab hba => le_antisymm hab hba)
    (pairwise_insertionSort _ _) (pairwise_insertionSort _ _)
    ((perm_insertionSort _ _).trans ((List.Perm.swap _ _ _).trans
      (perm_insertionSort _ _).symm))

/-- The paths a merge of two sides may bind. -/
def mergedPaths (X : Platform) (s : ContentStore) (index : MemoryLocationIndex) (localPeerId : Str)
    (l r : OrderedMap Str Hash) : Set Str :=
  {k | (l.get k).isSome ∨ (r.get k).isSome ∨ KeptBothAt X s index localPeerId l r k}

theorem within_mergedPaths {s : ContentStore} {index : MemoryLocationIndex}
    (base : Option (OrderedMap Str Hash)) (l r : OrderedMap Str Hash) :
    Within (mergeSnapshots X s index localPeerId none base l r).bindings
      (mergedPaths X s index localPeerId l r) := by
  intro t ht
  have hget := (OrderedMap.mem_entries _ t.1 t.2).mp ht
  by_cases hk : KeptBothAt X s index localPeerId l r t.1
  · exact .inr (.inr hk)
  · have hmem := fun hm => hk ((mem_additional_iff base l r t.1).mp hm)
    rw [MergeResult.bindings,get_insertAll_not_mem _ hmem,get_mergedBindings] at hget
    cases hl : l.get t.1 with
    | some x => exact .inl (by rw [hl]; rfl)
    | none => cases hr : r.get t.1 with
      | some y => exact .inr (.inl (by rw [hr]; rfl))
      | none =>
        rw [hl,hr] at hget
        cases hget

/-- Two peers with the same store and merge configs that merge the same two versions in
the deterministic order make the same version if the ancestors their searches find choose
the same sides; if no two things they stored share a hash, only then. -/
theorem merges_converge_iff (X : Platform) (fuel : ℕ) {pid₁ pid₂ : Str} {m₁ m₂ : MergeParams}
    {w₁ w₁' w₂ w₂' : RevisionWorld} {a b v₁ v₂ : Hash} (hstore : w₁.store = w₂.store)
    (hconfigs : SameMergeConfigs pid₁ pid₂ w₁.index w₂.index)
    (h₁ : MergesInto X fuel pid₁ m₁ w₁ w₁' a b v₁) (h₂ : MergesInto X fuel pid₂ m₂ w₂ w₂' b a v₂) :
    (BasesAgree X w₁.store w₁.index pid₁ (baseFound X fuel w₁ a b) (baseFound X fuel w₁ b a)
        (orderedSides X fuel w₁ a b).1 (orderedSides X fuel w₁ a b).2 → v₁ = v₂) ∧
    (X.FormatAllocated →
      Spread X (mergedPaths X w₁.store w₁.index pid₁ (orderedSides X fuel w₁ a b).1
        (orderedSides X fuel w₁ a b).2) →
      ContentStore.KeepsVersions X ⟨w₁'.store.puts++w₂'.store.puts⟩ → v₁ = v₂ →
      BasesAgree X w₁.store w₁.index pid₁ (baseFound X fuel w₁ a b) (baseFound X fuel w₁ b a)
        (orderedSides X fuel w₁ a b).1 (orderedSides X fuel w₁ a b).2) := by
  obtain ⟨hne,base₁,root₁,s₁,e₁,hbase₁,hbuild₁,hentry₁,hv₁,hle₁⟩ := h₁.made
  obtain ⟨-,base₂,root₂,s₂,e₂,hbase₂,hbuild₂,hentry₂,hv₂,hle₂⟩ := h₂.made
  rw [baseFound_congr hstore] at hbase₂
  rw [orderedSides_comm hstore hne,← hstore,← mergeSnapshots_congr hconfigs] at hbuild₂
  rw [sortedParents_comm b a] at hentry₂
  rw [← hbase₁,← hbase₂,← bindings_eq_iff]
  constructor
  · intro hsame
    rw [hsame,hbuild₂] at hbuild₁
    obtain ⟨hroot,-⟩ := Prod.mk.inj hbuild₁
    rw [← Except.ok.inj hroot,hentry₂] at hentry₁
    rw [hv₁,hv₂,Except.ok.inj hentry₁]
  · intro hX hspread hkeeps hsame
    have hright : w₂'.store ≤ ⟨w₁'.store.puts++w₂'.store.puts⟩ := List.suffix_append _ _
    have hfaithful₁ := (keepsVersions_left hkeeps).faithful
    have hput₁ : s₁ ≤ w₁'.store := le_trans (List.suffix_cons _ _) hle₁
    have hput₂ : s₂ ≤ w₂'.store := le_trans (List.suffix_cons _ _) hle₂
    obtain ⟨t₁,hspec₁,htrie₁⟩ := buildTrie_spec hX hfaithful₁ hspread
      (within_mergedPaths base₁ _ _) (by rw [hbuild₁]; exact hput₁)
    obtain ⟨t₂,hspec₂,htrie₂⟩ := buildTrie_spec hX hkeeps.faithful hspread
      (within_mergedPaths base₂ _ _) (by rw [hbuild₂]; exact hput₂.trans hright)
    rw [hbuild₁] at hspec₁
    rw [hbuild₂] at hspec₂
    obtain ⟨hroot₁,rfl⟩ := Prod.mk.inj hspec₁
    obtain ⟨hroot₂,rfl⟩ := Prod.mk.inj hspec₂
    -- one hash, one entry, one root
    have hmem₁ : e₁ ∈ w₁'.store.puts++w₂'.store.puts :=
      List.mem_append_left _ (List.IsSuffix.mem List.mem_cons_self hle₁)
    have hmem₂ : e₂ ∈ w₁'.store.puts++w₂'.store.puts :=
      List.mem_append_right _ (List.IsSuffix.mem List.mem_cons_self hle₂)
    have hread₁ := versionAt_put hkeeps le_rfl hentry₁ hmem₁
    have hread₂ := versionAt_put hkeeps le_rfl hentry₂ hmem₂
    have hroots : root₁ = root₂ := by
      rw [← hv₁,hsame,hv₂,hread₂] at hread₁
      exact (congrArg RevisionEntryData.root (Option.some.inj hread₁)).symm
    rw [Except.ok.inj hroot₁,Except.ok.inj hroot₂] at hroots
    refine bindings_of_rootHash hkeeps.faithful hspread (within_mergedPaths base₁ _ _)
      (within_mergedPaths base₂ _ _) ?_ (htrie₂.mono (hput₂.trans hright)) hroots
    exact htrie₁.of_subset (List.Subset.trans (List.IsSuffix.subset hput₁)
      (List.subset_append_left _ _))

end Peers

namespace CrossSample

open Sample RevisionSample AutoVersionSample AgreementSample UntrackedSample ByteCode

def secondPeer : Str := List.replicate 46 'B'

def pathOf (pid : Str) : Str := resolvePrefix "project/".toList pid

/-- Two histories that begin apart, and one more version on each. -/
def startOfTwo : Entity := versionEntity ⟨rootOfTwo,[]⟩
  0xbf89b88bab1af94af4ee2233f0ee401a0243e6b89f19dd7d576e0c9ccfc90554
def addingToTwo : Entity := versionEntity ⟨rootOfMerged,[startOfTwo.contentHash]⟩
  0xaf39177cf4e74a7616fffb1a8ee390dc3052ef7df7cdd6614c3a237edd658d00

/-- Each side has merged the start of the other. -/
def left : Entity := versionEntity ⟨rootOfBoth,[adding.contentHash,startOfTwo.contentHash]⟩
  0x6bfaffd303f09876f65360dd47bd7603236e1b2591aa2de0467ab8ec34cd55e6
def right : Entity := versionEntity ⟨rootOfMerged,[headOfOne.contentHash,addingToTwo.contentHash]⟩
  0x193dd65a1bfb1d36915e4bb1a7b1d8fa200de842cfff17bd7a599665723728a7

/-- What the two peers make of the two. -/
def madeLeft : Entity := versionEntity ⟨rootOfMerged,[right.contentHash,left.contentHash]⟩
  0x2c96477003f1739d5e381b0f722b5052d0c7702f5bddeb328d6cad61043538e0
def madeRight : Entity := versionEntity ⟨rootOfBoth,[right.contentHash,left.contentHash]⟩
  0x7068c2d8f3688d58c5212fea0d576749410d715afe0bb87cfb539c4e6107cca1

def crossing : World where
  nodes := twoSides.nodes
  entries := twoSides.entries++[
    (⟨rootOfTwo,[]⟩,0xbf89b88bab1af94af4ee2233f0ee401a0243e6b89f19dd7d576e0c9ccfc90554),
    (⟨rootOfMerged,[startOfTwo.contentHash]⟩,
      0xaf39177cf4e74a7616fffb1a8ee390dc3052ef7df7cdd6614c3a237edd658d00),
    (⟨rootOfBoth,[adding.contentHash,startOfTwo.contentHash]⟩,
      0x6bfaffd303f09876f65360dd47bd7603236e1b2591aa2de0467ab8ec34cd55e6),
    (⟨rootOfMerged,[headOfOne.contentHash,addingToTwo.contentHash]⟩,
      0x193dd65a1bfb1d36915e4bb1a7b1d8fa200de842cfff17bd7a599665723728a7),
    (⟨rootOfMerged,[right.contentHash,left.contentHash]⟩,
      0x2c96477003f1739d5e381b0f722b5052d0c7702f5bddeb328d6cad61043538e0),
    (⟨rootOfBoth,[right.contentHash,left.contentHash]⟩,
      0x7068c2d8f3688d58c5212fea0d576749410d715afe0bb87cfb539c4e6107cca1)]
  others := twoSides.others
  digests := twoSides.digests++[
    (ecfForHash "system/tree/path".toList (toEcf (.text (pathOf secondPeer))),
      0xae0242dfe644003cb72ba7e8aa18e890cbc9b6d7c7a5cfef4861961f335e1c88)]

def versions : ContentStore := ⟨[headOfOne,adding,changing,startOfTwo,addingToTwo,left,right,
    nodeEntity nodeOne 0xd29663eff96ee1fea819e34b40fa1e809dd1275dd94ad13c1a1a5e88dbdb8833,
    nodeEntity nodeTwo 0x94d32f30e9eb29452b36d8d5102016aded5c70c674b01fa1cb4c24e2017f0a06,
    nodeEntity nodeBoth 0x93cd3a073c96cb137108fce87abf6a243b53b4922375ab9a34a68499cbd75ecf,
    nodeEntity nodeMerged 0xc1cd1ff8c68e03cfe5e55c8afed6bb2469d25f2df4b8982c879aecbc254fdd4c,
    one,two]⟩

/-- How many versions lie below one. -/
def rank (h : Hash) : ℕ :=
  if h = left.contentHash ∨ h = right.contentHash then 2
  else if h = headOfOne.contentHash ∨ h = startOfTwo.contentHash then 0 else 1

def peerAt (pid : Str) (head : Entity) : RevisionWorld where
  store := versions
  index := (MemoryLocationIndex.mk .empty).set
    (revHeadPath pid (prefixHash crossing.crates (pathOf pid))) head.contentHash

def mergeWith (remote : Entity) : MergeParams :=
  ⟨"project/".toList,remote.contentHash,none,false,some "deterministic".toList⟩

def mergedAt (pid : Str) (head remote : Entity) : RevisionWorld :=
  (handleMerge crossing.crates levels pid (mergeWith remote) (peerAt pid head)).2

theorem get_set_elsewhere {path start : Str} (h : startsWith path start = false) (hash : Hash)
    (rest : Str) : ((mk .empty).set path hash).get (start++rest) = none := by
  rw [get_set,if_neg]
  · rfl
  · rintro ⟨rfl,-⟩
    rw [Bool.eq_false_iff] at h
    exact h ((startsWith_iff _ _).mpr (prefix_append _ _))

theorem bare_configs (head head' : Entity) : SameMergeConfigs peer secondPeer
    (peerAt peer head).index (peerAt secondPeer head').index := by
  intro rest
  unfold peerAt
  rw [get_set_elsewhere (by decide +kernel),get_set_elsewhere (by decide +kernel)]

/-- The head is there and the merge with the other version answers with this one. -/
def Merging (pid : Str) (head remote made : Entity) : Prop :=
  (VersionOp.merge (mergeWith remote)).head crossing.crates pid (peerAt pid head) =
      some head.contentHash ∧
    (handleMerge crossing.crates levels pid (mergeWith remote) (peerAt pid head)).1 =
      .ok (.merge "merged" (some made.contentHash) [] 2 0)

instance (pid : Str) (head remote made : Entity) : Decidable (Merging pid head remote made) :=
  inferInstanceAs (Decidable (_ ∧ _))

theorem Merging.mergesInto {pid : Str} {head remote made : Entity}
    (h : Merging pid head remote made) :
    MergesInto crossing.crates levels pid (mergeWith remote) (peerAt pid head)
      (mergedAt pid head remote) head.contentHash remote.contentHash made.contentHash := by
  unfold mergedAt
  exact ⟨h.1,rfl,rfl,rfl,_,_,_,_,eq_of_ran h.2,.inl rfl⟩

def sides : OrderedMap Str Hash × OrderedMap Str Hash :=
  orderedSides crossing.crates levels (peerAt peer adding) adding.contentHash changing.contentHash

/-- The merges of the two sides of one version and those over the crossed histories. -/
theorem evaluated_sides :
    ((Merging peer adding changing merging ∧ Merging secondPeer changing adding merging) ∧
      crossing.Knows
        ⟨(mergedAt peer adding changing).store.puts++(mergedAt secondPeer changing adding).store.puts⟩ ∧
      (∀ m ∈ [sides.1,sides.2], ∀ e ∈ m.entries, e.1 ∈ ["a".toList,"b".toList]) ∧
      (mergeSnapshots crossing.crates (peerAt peer adding).store (peerAt peer adding).index
        peer none none sides.1 sides.2).additionalBindings.map Prod.fst = []) ∧
    (Merging peer left right madeLeft ∧ Merging secondPeer right left madeRight) ∧
    findCommonAncestor crossing.crates versions levels left.contentHash right.contentHash =
      .ok (some headOfOne.contentHash) ∧
    findCommonAncestor crossing.crates versions levels right.contentHash left.contentHash =
      .ok (some startOfTwo.contentHash) ∧
    madeLeft.contentHash ≠ madeRight.contentHash ∧
    ∀ e ∈ versions.puts, ∀ d ∈ decodeRevisionEntry crossing.crates e, ∀ p ∈ d.parents,
      rank p < rank e.contentHash := by decide +kernel

theorem spread_sides : Spread crossing.crates (mergedPaths crossing.crates (peerAt peer adding).store
    (peerAt peer adding).index peer sides.1 sides.2) := by
  obtain ⟨⟨-,-,hsides,hnone⟩,-⟩ := evaluated_sides
  have hkeys : Spread crossing.crates {k | k ∈ ["a".toList,"b".toList]} :=
    spread_of_level (j := 0) (by decide) (by decide)
  refine hkeys.subset ?_
  rintro k (hk | hk | hk)
  · exact OrderedMap.mem_keys_of_get (hsides _ (by simp)) hk
  · exact OrderedMap.mem_keys_of_get (hsides _ (by simp)) hk
  · rw [← mem_additional_iff none,hnone] at hk
    cases hk

end CrossSample

open CrossSample UntrackedSample AgreementSample

/-- Two sides of one version make the same merge on both peers. -/
theorem merges_converge_iff_sample :
    MergesInto crossing.crates levels peer (mergeWith changing) (peerAt peer adding)
      (mergedAt peer adding changing) adding.contentHash changing.contentHash merging.contentHash ∧
    MergesInto crossing.crates levels secondPeer (mergeWith adding) (peerAt secondPeer changing)
      (mergedAt secondPeer changing adding) changing.contentHash adding.contentHash
      merging.contentHash ∧ BasesAgree crossing.crates versions (peerAt peer adding).index peer
      (baseFound crossing.crates levels (peerAt peer adding) adding.contentHash changing.contentHash)
      (baseFound crossing.crates levels (peerAt peer adding) changing.contentHash adding.contentHash)
      (orderedSides crossing.crates levels (peerAt peer adding) adding.contentHash
        changing.contentHash).1
      (orderedSides crossing.crates levels (peerAt peer adding) adding.contentHash
        changing.contentHash).2 := by
  obtain ⟨⟨⟨h₁,h₂⟩,hknown,-,-⟩,-⟩ := evaluated_sides
  have hX : crossing.crates.FormatAllocated := by decide
  have hstore : (peerAt peer adding).store = (peerAt secondPeer changing).store := rfl
  have hconverge := merges_converge_iff crossing.crates levels hstore (bare_configs adding changing)
    h₁.mergesInto h₂.mergesInto
  exact ⟨h₁.mergesInto,h₂.mergesInto,hconverge.2 hX spread_sides hknown.keepsVersions rfl⟩

/-- Over crossed histories the searches find different ancestors, and the peers make
different versions. -/
theorem crossed_merges_differ :
    MergesInto crossing.crates levels peer (mergeWith right) (peerAt peer left)
      (mergedAt peer left right) left.contentHash right.contentHash madeLeft.contentHash ∧
    MergesInto crossing.crates levels secondPeer (mergeWith left) (peerAt secondPeer right)
      (mergedAt secondPeer right left) right.contentHash left.contentHash madeRight.contentHash ∧
    (peerAt peer left).store = (peerAt secondPeer right).store ∧
    SameMergeConfigs peer secondPeer (peerAt peer left).index (peerAt secondPeer right).index ∧
    (∀ v, ¬Relation.TransGen (ParentOf crossing.crates versions) v v) ∧
    findCommonAncestor crossing.crates versions levels left.contentHash right.contentHash =
      .ok (some headOfOne.contentHash) ∧
    findCommonAncestor crossing.crates versions levels right.contentHash left.contentHash =
      .ok (some startOfTwo.contentHash) ∧ madeLeft.contentHash ≠ madeRight.contentHash := by
  obtain ⟨-,⟨h₁,h₂⟩,hleft,hright,hne,hrank⟩ := evaluated_sides
  exact ⟨h₁.mergesInto,h₂.mergesInto,rfl,bare_configs _ _,acyclic_of_rank rank hrank,hleft,hright,
    hne⟩

end EntityCore
