import EntityCore.MergePaths

/-! Reverting the head. The merge compares the head with its parent over the head itself
as the ancestor, so every path goes the parent's way, and the markers stand for what the
head added. -/
namespace EntityCore

open Ecf Outcome Strings Action List

/-! The diff at a path the target binds. -/

section Diff

variable {X : Platform} {localPeerId : Str}

theorem get_foldl_set_of_mem (treePrefix : Str) (skips : Hash → Bool) {l : List (Str × Hash)}
    (hnodup : (l.map Prod.fst).Nodup) (index : MemoryLocationIndex) {k : Str} {h : Hash}
    (hmem : (k,h) ∈ l) :
    (l.foldl (fun (index : MemoryLocationIndex) e =>
      if skips e.2 then index else index.set (treePrefix++e.1) e.2) index).get (treePrefix++k) =
      if skips h = false ∧ pathIsStorable (treePrefix++k) then some h
      else index.get (treePrefix++k) := by
  induction l generalizing index with
  | nil => cases hmem
  | cons e l ih =>
    rw [map_cons,nodup_cons] at hnodup
    rw [foldl_cons]
    rcases mem_cons.mp hmem with rfl | hrest
    · -- no later entry is about this path
      rw [get_foldl_set treePrefix skips l _ fun e he hp =>
        hnodup.1 (mem_map.mpr ⟨e,he,append_cancel_left hp⟩)]
      cases hskip : skips h with
      | true => simp
      | false =>
        rw [if_neg (by simp),MemoryLocationIndex.get_set]
        simp only [true_and]
    · have hne : treePrefix++k ≠ treePrefix++e.1 := fun hp =>
        hnodup.1 (mem_map.mpr ⟨(k,h),hrest,append_cancel_left hp⟩)
      have hhere : (if skips e.2 then index else index.set (treePrefix++e.1) e.2).get
          (treePrefix++k) = index.get (treePrefix++k) := by
        split_ifs
        · rfl
        · rw [MemoryLocationIndex.get_set,if_neg fun h => hne h.1]
      rw [ih hnodup.2 _ hrest,hhere]

/-- What the target binds is bound where the index takes the path; a marker only unbinds. -/
theorem get_applySnapshotDiff_bound (barePrefix : Str) (current target : OrderedMap Str Hash)
    {w w' : RevisionWorld} {u : Unit}
    (hrun : applySnapshotDiff X localPeerId barePrefix current target w = (.ok u,w')) {k : Str}
    {h : Hash} (hk : target.get k = some h) :
    w'.index.get (qualifyTreePrefix barePrefix localPeerId++k) =
      if h = canonicalDeletionMarkerHash X then
        if (current.get k).isSome then none
        else w.index.get (qualifyTreePrefix barePrefix localPeerId++k)
      else if pathIsStorable (qualifyTreePrefix barePrefix localPeerId++k) then some h
      else w.index.get (qualifyTreePrefix barePrefix localPeerId++k) := by
  obtain rfl : _ = w' := (Prod.mk.inj hrun).2
  dsimp only
  have hset := get_foldl_set_of_mem (qualifyTreePrefix barePrefix localPeerId)
    (fun h => decide (h = canonicalDeletionMarkerHash X)) target.keys_nodup
    ((keysOf current).foldl (fun (index : MemoryLocationIndex) relPath =>
      if unbinds X target relPath then
        (index.remove (qualifyTreePrefix barePrefix localPeerId++relPath)).2 else index) w.index)
    ((target.mem_entries k h).mpr hk)
  simp only [decide_eq_true_eq,decide_eq_false_iff_not] at hset
  rw [hset,get_foldl_remove]
  have hiff : (∃ j ∈ keysOf current, unbinds X target j = true ∧
      qualifyTreePrefix barePrefix localPeerId++j = qualifyTreePrefix barePrefix localPeerId++k) ↔
      (current.get k).isSome ∧ h = canonicalDeletionMarkerHash X := by
    constructor
    · rintro ⟨j,hj,hunbinds,hp⟩
      obtain rfl := append_cancel_left hp
      refine ⟨mem_keysOf.mp hj,?_⟩
      simpa [unbinds,hk] using hunbinds
    · rintro ⟨hsome,hmarker⟩
      exact ⟨k,mem_keysOf.mpr hsome,by simp [unbinds,hk,hmarker],rfl⟩
  by_cases hmarker : h = canonicalDeletionMarkerHash X
  · simp only [hmarker,not_true,false_and,if_false,if_true,and_true,hiff]
  · simp only [hmarker,not_false_eq_true,true_and,and_false,if_false,hiff]

end Diff

/-! Bringing a merge result without conflicts into the tree. -/

variable {m : OrderedMap Str Hash} {version localHead : Hash}

section Adopt

variable (X : Platform) (localPeerId : Str)

/-- What a version binds at a path apart from its deletions. -/
def unmarked (m : OrderedMap Str Hash) (k : Str) : Option Hash :=
  (m.get k).filter fun h => h ≠ canonicalDeletionMarkerHash X

/-- The path can be bound below the prefix, and the listing shows it. -/
def treeTakes (barePrefix k : Str) : Bool :=
  pathIsStorable (qualifyTreePrefix barePrefix localPeerId++k) &&
    !(startsWith (qualifyTreePrefix barePrefix localPeerId++k)
      ('/'::localPeerId++ "/system/revision/".toList) || k.isEmpty)

/-- The live tree has what the bindings say at every path it takes. At another path it
keeps what it had if they bind the path, and has nothing if they do not. -/
def ShowsBindings (barePrefix : Str) (m : OrderedMap Str Hash) (w w' : RevisionWorld) : Prop :=
  ∀ k, (snapshotBindingsFromTree w'.index barePrefix localPeerId).get k =
    if treeTakes localPeerId barePrefix k then unmarked X m k
    else if (unmarked X m k).isSome then
      (snapshotBindingsFromTree w.index barePrefix localPeerId).get k
    else none

variable {X localPeerId} {barePrefix ph : Str} {result : MergeResult} {w w' : RevisionWorld}

theorem unmarked_of_none {k : Str} (h : m.get k = none) : unmarked X m k = none := by
  rw [unmarked,h]
  rfl

theorem unmarked_of_marker {k : Str}
    (h : m.get k = some (canonicalDeletionMarkerHash X)) : unmarked X m k = none := by
  simp [unmarked,h]

theorem unmarked_of_entity {k : Str} {v : Hash} (h : m.get k = some v)
    (hv : v ≠ canonicalDeletionMarkerHash X) : unmarked X m k = some v := by
  simp [unmarked,h,hv]

theorem unmarked_eq_some {k : Str} {v : Hash} :
    unmarked X m k = some v ↔ m.get k = some v ∧ v ≠ canonicalDeletionMarkerHash X := by
  rw [unmarked,Option.filter_eq_some_iff,decide_eq_true_eq]

theorem get_applyDeletions {u : Unit} {deletions : List Str}
    (hrun : applyDeletions localPeerId barePrefix deletions w = (.ok u,w')) (k : Str) :
    w'.index.get (qualifyTreePrefix barePrefix localPeerId++k) =
      if k ∈ deletions then none
      else w.index.get (qualifyTreePrefix barePrefix localPeerId++k) := by
  obtain rfl : _ = w' := (Prod.mk.inj hrun).2
  have hremove := get_foldl_remove (qualifyTreePrefix barePrefix localPeerId) (fun _ => true)
    deletions w.index (qualifyTreePrefix barePrefix localPeerId++k)
  simp only [if_true,true_and] at hremove
  dsimp only
  rw [hremove]
  have hiff : (∃ j ∈ deletions, qualifyTreePrefix barePrefix localPeerId++j =
      qualifyTreePrefix barePrefix localPeerId++k) ↔ k ∈ deletions := by
    constructor
    · rintro ⟨j,hj,hp⟩
      exact append_cancel_left hp ▸ hj
    · exact fun hk => ⟨k,hk,rfl⟩
  simp only [hiff]

/-- With nothing in conflict the tree comes to show the merged bindings. -/
theorem applyMergeResult_shows (hconflicts : result.conflicts = [])
    (hdeletions : ∀ k ∈ result.deletions,
      result.bindings.get k = some (canonicalDeletionMarkerHash X))
    {localVersion remoteVersion : Hash} :
    ∃ w', applyMergeResult X localPeerId barePrefix ph result localVersion remoteVersion w =
        (.ok ⟨⟩,w') ∧ w'.store = w.store ∧
      ShowsBindings X localPeerId barePrefix result.bindings w w' := by
  have hread : computeSnapshotBindings localPeerId barePrefix w =
      (.ok (snapshotBindingsFromTree w.index barePrefix localPeerId),w) := rfl
  obtain ⟨w₁,hdiff,hstore₁⟩ : ∃ w₁, applySnapshotDiff X localPeerId barePrefix
      (snapshotBindingsFromTree w.index barePrefix localPeerId) result.bindings w = (.ok (),w₁) ∧
      w₁.store = w.store := ⟨_,rfl,rfl⟩
  obtain ⟨w₂,hdelete,hstore₂⟩ : ∃ w₂,
      applyDeletions localPeerId barePrefix result.deletions w₁ = (.ok (),w₂) ∧
      w₂.store = w₁.store := ⟨_,rfl,rfl⟩
  refine ⟨w₂,?_,hstore₂.trans hstore₁,?_⟩
  · unfold applyMergeResult
    rw [bind_of_ok hread,bind_of_ok hdiff,bind_of_ok hdelete,hconflicts]
    rfl
  intro k
  rw [get_snapshotBindingsFromTree]
  have hbefore := get_snapshotBindingsFromTree w.index barePrefix localPeerId k
  unfold treeTakes
  by_cases hhidden : (startsWith (qualifyTreePrefix barePrefix localPeerId++k)
      ('/'::localPeerId++ "/system/revision/".toList) || k.isEmpty) = true
  · rw [if_pos hhidden] at hbefore ⊢
    rw [hbefore,hhidden]
    simp
  · rw [if_neg hhidden] at hbefore ⊢
    rw [get_applyDeletions hdelete,Bool.eq_false_iff.mpr hhidden]
    simp only [Bool.not_false,Bool.and_true]
    cases hget : result.bindings.get k with
    | none =>
      rw [get_applySnapshotDiff X _ _ _ hdiff hget,unmarked_of_none hget,hbefore]
      cases w.index.get (qualifyTreePrefix barePrefix localPeerId++k) <;> simp
    | some h =>
      rw [get_applySnapshotDiff_bound _ _ _ hdiff hget,hbefore]
      by_cases hmarker : h = canonicalDeletionMarkerHash X
      · rw [if_pos hmarker,unmarked_of_marker (hmarker ▸ hget)]
        cases w.index.get (qualifyTreePrefix barePrefix localPeerId++k) <;> simp
      · have hkept : k ∉ result.deletions := by
          intro hk
          have hbound := hdeletions k hk
          rw [hget] at hbound
          exact hmarker (Option.some.inj hbound)
        rw [if_neg hkept,if_neg hmarker,unmarked_of_entity hget hmarker]
        simp

theorem getVersionBindings_runs {fuel : ℕ} {d : RevisionEntryData}
    (h : versionAt X w.store version = some d)
    (hm : collectAllBindings X w.store fuel d.root = .ok m) :
    getVersionBindings X fuel version w = (.ok m,w) := by
  obtain ⟨e,he,hd⟩ := Option.bind_eq_some_iff.mp h
  unfold getVersionBindings
  rw [reading_apply,he]
  dsimp only
  rw [hd]
  dsimp only
  rw [hm]
  rfl

theorem advanceHead_runs (version : Hash) (w : RevisionWorld) :
    ∃ w', advanceHead X localPeerId ph version w = (.ok (),w') := by
  unfold advanceHead
  have hset : setPath (revHeadPath localPeerId ph) version w = (.ok (),_) := rfl
  rw [bind_of_ok hset]
  have hread : ∀ w : RevisionWorld, (reading fun w : RevisionWorld =>
      (.ok (readActiveBranch X w.store w.index localPeerId ph) : Except HandlerError _)) w =
      (.ok (readActiveBranch X w.store w.index localPeerId ph),w) := fun w => rfl
  rw [bind_of_ok (hread _)]
  cases readActiveBranch X _ _ localPeerId ph with
  | none => exact ⟨_,rfl⟩
  | some name => exact ⟨_,rfl⟩

/-- Once its trie is in the store, the merged version is made and shown. -/
theorem adopt_runs (hconflicts : result.conflicts = []) (hdeletions : ∀ k ∈ result.deletions,
      result.bindings.get k = some (canonicalDeletionMarkerHash X)) {root : Hash}
    {s : ContentStore} (hbuild : buildTrie X result.bindings w.store = (.ok root,s)) {e : Entity}
    (hentry : buildRevisionEntry X ⟨root,[localHead]⟩ = .ok e) :
    ∃ w', adoptMergeResult X localPeerId barePrefix ph result localHead version w =
        (.ok e.contentHash,w') ∧ w'.store = s.put e ∧
      ShowsBindings X localPeerId barePrefix result.bindings w w' := by
  have htrie : onContent (buildTrie X result.bindings) w = (.ok root,{ w with store := s }) := by
    show (mapErr _ _,_) = _
    rw [hbuild]
    rfl
  have hcreate : createVersion X root [localHead] { w with store := s } =
      (.ok e.contentHash,{ w with store := s.put e }) := by
    unfold createVersion
    rw [show sortedParents [localHead] = [localHead] from rfl,hentry]
  obtain ⟨w₁,hadvance⟩ : ∃ w₁, advanceHead X localPeerId ph e.contentHash
      { w with store := s.put e } = (.ok (),w₁) := advanceHead_runs _ _
  obtain ⟨w',happly,hstore,hshows⟩ : ∃ w', applyMergeResult X localPeerId barePrefix ph result
      localHead version w₁ = (.ok ⟨⟩,w') ∧ w'.store = w₁.store ∧
      ShowsBindings X localPeerId barePrefix result.bindings w₁ w' :=
    applyMergeResult_shows hconflicts hdeletions
  obtain ⟨hstore₁,hsame⟩ := sameBut_advanceHead X hadvance
  refine ⟨w',?_,hstore.trans hstore₁,?_⟩
  · unfold adoptMergeResult
    rw [bind_of_ok htrie,bind_of_ok hcreate,bind_of_ok hadvance, bind_of_ok happly]
    rfl
  · -- the head's own records are not listed
    intro k
    rw [hshows k,hsame.snapshot]

theorem buildTrie_le_adopt (hX : X.FormatAllocated) (hconflicts : result.conflicts = [])
    (hdeletions : ∀ k ∈ result.deletions,
      result.bindings.get k = some (canonicalDeletionMarkerHash X)) :
    (buildTrie X result.bindings w.store).2 ≤
      (adoptMergeResult X localPeerId barePrefix ph result localHead version w).2.store := by
  cases hbuild : buildTrie X result.bindings w.store with
  | mk r s =>
    cases r with
    | ok root =>
      obtain ⟨e,he⟩ := buildRevisionEntry_ok hX ⟨root,[localHead]⟩
      obtain ⟨w',hrun,hstore,-⟩ : ∃ w', adoptMergeResult X localPeerId barePrefix ph result
          localHead version w = (.ok e.contentHash,w') ∧ w'.store = s.put e ∧ _ :=
        adopt_runs hconflicts hdeletions hbuild he
      rw [hrun,hstore]
      exact suffix_cons _ _
    | error failure =>
      have hfail : onContent (buildTrie X result.bindings) w =
          (.error (.internal (RootTrackerEngine.failureText failure)),{ w with store := s }) := by
        show (mapErr _ _,_) = _
        rw [hbuild]
        rfl
      unfold adoptMergeResult
      show _ ≤ (andThen _ _ w).2.store
      rw [andThen,hfail]

/-- The version made of a merge result without conflicts binds what the result binds, and
the tree shows it. -/
theorem adopt_spec (hX : X.FormatAllocated) {fuel : ℕ} (hfuel : levels ≤ fuel) {keys : Set Str}
    (hspread : Spread X keys) (hwithin : Within result.bindings keys)
    (hconflicts : result.conflicts = []) (hdeletions : ∀ k ∈ result.deletions,
      result.bindings.get k = some (canonicalDeletionMarkerHash X))
    (hkeeps : (adoptMergeResult X localPeerId barePrefix ph result localHead version
      w).2.store.KeepsVersions X) :
    ∃ made w', adoptMergeResult X localPeerId barePrefix ph result localHead version w =
        (.ok made,w') ∧ getVersionBindings X fuel made w' = (.ok result.bindings,w') ∧
      ShowsBindings X localPeerId barePrefix result.bindings w w' := by
  obtain ⟨s,hbuild,htrie⟩ := buildTrie_spec hX hkeeps.faithful hspread hwithin
    (buildTrie_le_adopt hX hconflicts hdeletions)
  obtain ⟨e,he⟩ := buildRevisionEntry_ok hX ⟨rootHashOf X result.bindings,[localHead]⟩
  obtain ⟨w',hrun,hstore,hshows⟩ : ∃ w', adoptMergeResult X localPeerId barePrefix ph result
      localHead version w = (.ok e.contentHash,w') ∧ w'.store = s.put e ∧
      ShowsBindings X localPeerId barePrefix result.bindings w w' :=
    adopt_runs hconflicts hdeletions hbuild he
  rw [hrun] at hkeeps
  have hput : s ≤ w'.store := by
    rw [hstore]
    exact suffix_cons _ _
  have hmem : e ∈ w'.store.puts := by
    rw [hstore]
    exact mem_cons_self
  exact ⟨_,w',hrun,getVersionBindings_runs (versionAt_put hkeeps le_rfl he hmem)
    (collectAllBindings_spec hkeeps.faithful hspread hfuel le_rfl hwithin (htrie.mono hput)),hshows⟩

end Adopt

/-! The merge of a head that is its own ancestor. -/

section Undo

variable {X : Platform} {s : ContentStore} {index : MemoryLocationIndex} {localPeerId : Str}

/-- No merge config speaks about a path: neither one of the two entities' types nor one
whose pattern matches. -/
def NoMergeConfig (X : Platform) (localPeerId : Str) (w : RevisionWorld) (path : Str) (l r : Hash) :
    Prop :=
  (([l,r].filterMap w.store.get).map (·.entityType)).findSome?
      (typeStrategy X w.store w.index localPeerId) = none ∧
    bestPathConfig X w.store w.index localPeerId (mergeStrategyOf X) path = none

theorem NoMergeConfig.threeWay {w : RevisionWorld} {path : Str} {l r : Hash}
    (h : NoMergeConfig X localPeerId w path l r) :
    findMergeStrategy X w.store w.index localPeerId path none l r = .threeWay := by
  unfold findMergeStrategy
  rw [Option.bind_none]
  dsimp only
  rw [h.1,h.2]
  rfl

/-- A side that is as the ancestor had it gives way, and a conflict needs two that are not. -/
theorem mergePath_undo {path : Str} {base r : Option Hash} (hr : base.isSome → r.isSome)
    (hstrategy : ∀ x y, base = some x → r = some y → x ≠ y → y ≠ canonicalDeletionMarkerHash X →
      findMergeStrategy X s index localPeerId path none x y = .threeWay) :
    ∃ deleted, mergePath X s index localPeerId none path base base r = ⟨r,deleted,none,none⟩ ∧
      (deleted = true → r = some (canonicalDeletionMarkerHash X)) := by
  unfold mergePath
  cases base with
  | none =>
    cases r with
    | none => exact ⟨false,rfl,fun h => by cases h⟩
    | some y => exact ⟨false,rfl,fun h => by cases h⟩
  | some x =>
    obtain ⟨y,rfl⟩ := Option.isSome_iff_exists.mp (hr rfl)
    dsimp only
    by_cases hxy : x = y
    · subst hxy
      exact ⟨false,if_pos rfl,fun h => by cases h⟩
    · rw [if_neg hxy]
      by_cases hxor : xor (decide (x = canonicalDeletionMarkerHash X))
          (decide (y = canonicalDeletionMarkerHash X)) = true
      · rw [if_pos hxor]
        refine ⟨decide (y = canonicalDeletionMarkerHash X),?_,?_⟩
        · unfold mergeMarker
          dsimp only
          rw [if_pos rfl]
        · intro h
          rw [of_decide_eq_true h]
      · rw [if_neg hxor]
        -- two entities, as different hashes are not both the marker
        have hmarker : y ≠ canonicalDeletionMarkerHash X := by
          rintro rfl
          apply hxor
          simp [hxy]
        refine ⟨false,?_,fun h => by cases h⟩
        unfold mergeEdits
        rw [hstrategy x y rfl rfl hxy hmarker]
        dsimp only
        rw [if_pos rfl]
        rfl

theorem mem_foldl_add_deletions (f : Str → PathMerge) (paths : List Str) (result : MergeResult)
    (k : Str) : k ∈ (paths.foldl (fun result path => result.add path (f path)) result).deletions ↔
      k ∈ result.deletions ∨ k ∈ paths ∧ (f k).deleted = true := by
  induction paths generalizing result with
  | nil => simp
  | cons path paths ih =>
    rw [foldl_cons,ih]
    unfold MergeResult.add
    dsimp only
    by_cases hk : k = path
    · subst hk
      split_ifs with hdeleted
      · simp [hdeleted]
      · simp [hdeleted]
    · split_ifs
      · simp [hk]
      · simp [hk]

/-- A merge whose every path goes to the second side gives that side's bindings. -/
theorem mergeSnapshots_undo {base r : OrderedMap Str Hash}
    (hpath : ∀ k, ∃ deleted, mergePath X s index localPeerId none k (base.get k) (base.get k)
      (r.get k) = ⟨r.get k,deleted,none,none⟩ ∧
      (deleted = true → r.get k = some (canonicalDeletionMarkerHash X))) :
    (mergeSnapshots X s index localPeerId none (some base) base r).bindings = r ∧
    (mergeSnapshots X s index localPeerId none (some base) base r).conflicts = [] ∧
    ∀ k ∈ (mergeSnapshots X s index localPeerId none (some base) base r).deletions,
      r.get k = some (canonicalDeletionMarkerHash X) := by
  have hfold : mergeSnapshots X s index localPeerId none (some base) base r =
      (allPaths base base r).foldl (fun result path => result.add path (mergePath X s index
        localPeerId none path (base.get path) (base.get path) (r.get path))) ⟨.empty,[],[],[]⟩ := rfl
  have hadditional : (mergeSnapshots X s index localPeerId none (some base) base
      r).additionalBindings = [] := by
    rw [hfold,foldl_add_additional,nil_append,filterMap_eq_nil_iff]
    intro k _
    obtain ⟨deleted,hk,-⟩ := hpath k
    rw [hk]
  refine ⟨?_,?_,?_⟩
  · apply OrderedMap.ext_get
    intro k
    obtain ⟨deleted,hk,-⟩ := hpath k
    rw [MergeResult.bindings,hadditional,foldl_nil,get_mergedBindings]
    show (mergePath X s index localPeerId none k (base.get k) (base.get k) (r.get k)).binding = _
    rw [hk]
  · rw [hfold,foldl_add_conflicts,nil_append,filterMap_eq_nil_iff]
    intro k _
    obtain ⟨deleted,hk,-⟩ := hpath k
    rw [hk]
  · intro k hmem
    rw [hfold,mem_foldl_add_deletions] at hmem
    obtain ⟨deleted,hk,hmarker⟩ := hpath k
    rcases hmem with h | ⟨-,h⟩
    · cases h
    · rw [hk] at h
      exact hmarker h

theorem unmarked_augment (target added : OrderedMap Str Hash) (s : ContentStore) (k : Str) :
    unmarked X (augmentBindingsWithMarkers X target added s).1 k = unmarked X target k := by
  rw [unmarked,unmarked,get_augment]
  cases target.get k with
  | some h => rfl
  | none =>
    rw [Option.none_or]
    split_ifs
    · simp
    · rfl

end Undo

/-! The revert. -/

/-- An answer that only reads the last result leaves what it left. -/
theorem bind_pure_snd {σ ε α β : Type} (m : Action σ ε α) (f : α → β) (s : σ) :
    ((m >>= fun a => pure (f a)) s).2 = (m s).2 := by
  show (andThen m _ s).2 = _
  unfold andThen
  cases m s with
  | mk r s' => cases r <;> rfl

section Revert

variable (X : Platform) (fuel : ℕ) (localPeerId : Str)

/-- The head of the prefix is the version to revert, it has one parent, and the bindings
of both can be read. -/
structure RevertsHead (p : VersionOpParams) (w : RevisionWorld) (parent : Hash)
    (undone restored : OrderedMap Str Hash) : Prop where
  entry : ∃ root, versionAt X w.store p.version = some ⟨root,[parent]⟩
  asked : p.parent = none ∨ p.parent = some parent
  head : (VersionOp.revert p).head X localPeerId w = some p.version
  undone : getVersionBindings X fuel p.version w = (.ok undone,w)
  restored : getVersionBindings X fuel parent w = (.ok restored,w)

variable {X fuel localPeerId} {p : VersionOpParams} {w : RevisionWorld} {parent : Hash}
  {undone restored : OrderedMap Str Hash}

theorem loadVersion_runs {d : RevisionEntryData}
    (h : versionAt X w.store version = some d) : loadVersion X version w = (.ok d,w) := by
  obtain ⟨e,he,hd⟩ := Option.bind_eq_some_iff.mp h
  unfold loadVersion
  rw [reading_apply,he]
  dsimp only
  rw [hd]
  rfl

/-- The merge a revert of the head makes. -/
def undoResult (X : Platform) (localPeerId : Str) (undone restored : OrderedMap Str Hash)
    (w : RevisionWorld) : MergeResult :=
  mergeSnapshots X (withMarkers X restored undone w).2.store w.index localPeerId none (some undone)
    undone (augmentBindingsWithMarkers X restored undone w.store).1

/-- It goes the parent's way at every path, with a marker for what the head added. -/
theorem undoResult_spec (hconfig : ∀ k l r, undone.get k = some l → restored.get k = some r →
      NoMergeConfig X localPeerId (withMarkers X restored undone w).2 k l r) :
    (undoResult X localPeerId undone restored w).bindings =
      (augmentBindingsWithMarkers X restored undone w.store).1 ∧
    (undoResult X localPeerId undone restored w).conflicts = [] ∧
    ∀ k ∈ (undoResult X localPeerId undone restored w).deletions,
      (augmentBindingsWithMarkers X restored undone w.store).1.get k =
        some (canonicalDeletionMarkerHash X) := by
  have hget := get_augment (X := X) restored undone w.store
  apply mergeSnapshots_undo
  intro k
  apply mergePath_undo
  · intro hk
    rw [hget,if_pos hk]
    cases restored.get k <;> rfl
  · intro x y hx hy hxy hmarker
    rw [hget] at hy
    cases hr : restored.get k with
    | none =>
      rw [hr,hx] at hy
      exact absurd (Option.some.inj hy).symm hmarker
    | some r =>
      rw [hr] at hy
      obtain rfl := Option.some.inj hy
      exact (hconfig k x r hx hr).threeWay

theorem within_augment : Within (augmentBindingsWithMarkers X restored undone w.store).1
    {k | (undone.get k).isSome ∨ (restored.get k).isSome} := by
  intro e he
  have hbound := get_augment (X := X) restored undone w.store e.1
  rw [(OrderedMap.mem_entries _ e.1 e.2).mp he] at hbound
  cases hr : restored.get e.1 with
  | some r => exact .inr (by rw [hr]; rfl)
  | none =>
    rw [hr,Option.none_or] at hbound
    split_ifs at hbound with hundone
    exact .inl hundone

/-- Up to the merge a revert of the head goes through. -/
theorem RevertsHead.steps (h : RevertsHead X fuel localPeerId p w parent undone restored) :
    handleRevert X fuel localPeerId p w =
      (do
        let version ← adoptMergeResult X localPeerId p.barePrefix
          ((VersionOp.revert p).subtreeKey X localPeerId)
          (undoResult X localPeerId undone restored w) p.version p.version
        return .revert (if (undoResult X localPeerId undone restored w).conflicts.isEmpty
          then "reverted" else "reverted_with_conflicts") p.version version
          (undoResult X localPeerId undone restored w).conflicts.length :
        Handling RevisionReply) (withMarkers X restored undone w).2 := by
  obtain ⟨root,hentry⟩ := h.entry
  have hselect : selectParent ⟨root,[parent]⟩ p.parent
      "cannot revert initial version (no parents)" = .ok parent := by
    rcases h.asked with hnone | hsome
    · rw [hnone]
      rfl
    · rw [hsome]
      simp [selectParent]
  have hhead : requireHead localPeerId (prefixHash X (resolvePrefix p.barePrefix localPeerId)) w =
      (.ok p.version,w) := by
    show (okOr ((VersionOp.revert p).head X localPeerId w) _,w) = _
    rw [h.head]
    rfl
  have hmarkers : withMarkers X restored undone w =
      (.ok (augmentBindingsWithMarkers X restored undone w.store).1,
        (withMarkers X restored undone w).2) := rfl
  unfold handleRevert
  rw [bind_of_ok (loadVersion_runs hentry),hselect]
  show ((requireHead localPeerId _ >>= _ : Handling RevisionReply) w) = _
  rw [bind_of_ok hhead,bind_of_ok h.undone,bind_of_ok h.undone,
    bind_of_ok h.restored,bind_of_ok hmarkers]
  rfl

end Revert

namespace RevertSample

open Sample RevisionSample AutoVersionSample AgreementSample UntrackedSample ByteCode

def nodeParent : SnapshotNodeData :=
  ⟨0x2800000#32,[.bucket [("c//d".toList,two.contentHash)],.bucket [("a".toList,one.contentHash)]]⟩
def nodeHead : SnapshotNodeData :=
  ⟨0x2000080#32,[.bucket [("b".toList,one.contentHash)],.bucket [("a".toList,two.contentHash)]]⟩
def nodeRestored : SnapshotNodeData :=
  ⟨0x2800080#32,[.bucket [("b".toList,markerHash)],.bucket [("c//d".toList,two.contentHash)],
    .bucket [("a".toList,one.contentHash)]]⟩

def parentEntry : RevisionEntryData :=
  ⟨sha256Hash 0x1262463b413e020c0a7e08d497cb692d6f268ebc24f1fd9a213ec87d2fc52f24,[]⟩
def parentVersion : Entity := versionEntity parentEntry
  0x09dcd80550f84102e8773db1040f2fa8d24a1c84b4e54c2c2ca1fe08e17fc8e9

/-- The head changes one path of its parent, adds one and has lost one. -/
def headEntry : RevisionEntryData :=
  ⟨sha256Hash 0x714fb2d1da8caa1f1f391ebb6ae5d14188455163c7c5ff25724989d57ec52fdc,
    [parentVersion.contentHash]⟩
def headVersion : Entity := versionEntity headEntry
  0x9a959f369213d07d24cf305883c23695c0f3114f3d7ad7cc936bdbefccef371e

def restoredEntry : RevisionEntryData :=
  ⟨sha256Hash 0x7ef642a5a9291e5655fa1f523448fe3a44507b7e0833e738c1ed9c9ff2b03eb0,
    [headVersion.contentHash]⟩
def restoredVersion : Hash :=
  sha256Hash 0x8623f16d5d9c712290ea9a30d7d46995bf4be6856061373357deb3c94a2f331d

def history : World where
  nodes := [(nodeParent,0x1262463b413e020c0a7e08d497cb692d6f268ebc24f1fd9a213ec87d2fc52f24),
    (nodeHead,0x714fb2d1da8caa1f1f391ebb6ae5d14188455163c7c5ff25724989d57ec52fdc),
    (nodeRestored,0x7ef642a5a9291e5655fa1f523448fe3a44507b7e0833e738c1ed9c9ff2b03eb0)]
  entries := [(parentEntry,0x09dcd80550f84102e8773db1040f2fa8d24a1c84b4e54c2c2ca1fe08e17fc8e9),
    (headEntry,0x9a959f369213d07d24cf305883c23695c0f3114f3d7ad7cc936bdbefccef371e),
    (restoredEntry,0x8623f16d5d9c712290ea9a30d7d46995bf4be6856061373357deb3c94a2f331d)]
  others := [txt "one",txt "two",.map []]
  digests := [
    (utf8 "a".toList,0xca978112ca1bbdcafac231b39a23dc4da786eff8147c4e72b9807785afee48bb),
    (utf8 "b".toList,0x3e23e8160039594a33894f6564e1b1348bbd7a0088d42c4acb73eeaed59c009d),
    (utf8 "c//d".toList,0xb8ad1da71f5b89ba1f28a51e64173488f8336586b1d133c78c2fd8cdfb4622eb),
    (ecfForHash "system/tree/path".toList (toEcf (.text projectPath)),
      0x4434f23addb89b2376c646d266c542ce4da11f89bd529074f2a207f05363cf28),
    (ecfForHash typeDeletionMarker [0xa0],
      0x689ae4679f69f006e4bf7cb7c7a9155d0de5fb9fe31e81692dca5769eda9e0a6)]

/-- The head and its parent in the store, what the head binds in the tree. -/
def changed : RevisionWorld where
  store := ⟨[headVersion,parentVersion,
    nodeEntity nodeHead 0x714fb2d1da8caa1f1f391ebb6ae5d14188455163c7c5ff25724989d57ec52fdc,
    nodeEntity nodeParent 0x1262463b413e020c0a7e08d497cb692d6f268ebc24f1fd9a213ec87d2fc52f24,
    one,two]⟩
  index := (MemoryLocationIndex.mk .empty).set (projectPath++ "a".toList) two.contentHash
    |>.set (projectPath++ "b".toList) one.contentHash
    |>.set (revHeadPath peer (prefixHash history.crates projectPath)) headVersion.contentHash

def headBound : OrderedMap Str Hash :=
  .ofList [("a".toList,two.contentHash),("b".toList,one.contentHash)]
def parentBound : OrderedMap Str Hash :=
  .ofList [("a".toList,one.contentHash),("c//d".toList,two.contentHash)]

def request : VersionOpParams := ⟨"project/".toList,headVersion.contentHash,none⟩

def reverted : RevisionWorld := (handleRevert history.crates levels peer request changed).2

instance (X : Platform) (localPeerId : Str) (w : RevisionWorld) (path : Str) (l r : Hash) :
    Decidable (NoMergeConfig X localPeerId w path l r) := inferInstanceAs (Decidable (_ ∧ _))

theorem format_allocated : history.crates.FormatAllocated := by decide

/-- What the head and its parent bind, and what the revert makes of them. -/
theorem evaluated_revert :
    (versionAt history.crates changed.store headVersion.contentHash =
        some ⟨headEntry.root,[parentVersion.contentHash]⟩ ∧
      (VersionOp.revert request).head history.crates peer changed = some headVersion.contentHash ∧
      (getVersionBindings history.crates levels headVersion.contentHash changed).1 = .ok headBound ∧
      (getVersionBindings history.crates levels parentVersion.contentHash changed).1 =
        .ok parentBound) ∧
    (∀ e ∈ headBound.entries, ∀ e' ∈ parentBound.entries, NoMergeConfig history.crates peer
      (withMarkers history.crates parentBound headBound changed).2 e.1 e.2 e'.2) ∧
    (∀ m ∈ [headBound,parentBound], ∀ e ∈ m.entries, e.1 ∈ ["a".toList,"b".toList,"c//d".toList]) ∧
    history.Knows (handleRevert history.crates levels peer request changed).2.store ∧
    (handleRevert history.crates levels peer request changed).1 =
      .ok (.revert "reverted" headVersion.contentHash restoredVersion 0) ∧
    unmarked history.crates parentBound "c//d".toList = some two.contentHash ∧
    (snapshotBindingsFromTree reverted.index request.barePrefix peer).get "c//d".toList = none := by
  decide +kernel

theorem reverts_head : RevertsHead history.crates levels peer request changed
    parentVersion.contentHash headBound parentBound := by
  obtain ⟨⟨hentry,hhead,hundone,hrestored⟩,-⟩ := evaluated_revert
  exact ⟨⟨_,hentry⟩,.inl rfl,hhead,eq_of_ran hundone,eq_of_ran hrestored⟩

theorem no_merge_config (k : Str) (l r : Hash) (hl : headBound.get k = some l)
    (hr : parentBound.get k = some r) : NoMergeConfig history.crates peer
      (withMarkers history.crates parentBound headBound changed).2 k l r := by
  obtain ⟨-,hall,-⟩ := evaluated_revert
  exact hall (k,l) ((OrderedMap.mem_entries _ k l).mpr hl) (k,r)
    ((OrderedMap.mem_entries _ k r).mpr hr)

end RevertSample

open RevertSample AgreementSample UntrackedSample AutoVersionSample RevisionSample

end EntityCore
