import EntityCore.RevisionOps
import EntityCore.VersionAgreement

/-! What the version operations do to live paths that no version mentions. -/
namespace EntityCore

open Ecf Outcome Strings Action Except

variable {w₁ w w' : RevisionWorld} {k ph path : Str} {reply : RevisionReply} {result : MergeResult}
  {h v version localVersion remoteVersion a b : Hash} {p : MergeParams}

inductive VersionOp where
  | checkout (params : CheckoutParams)
  | merge (params : MergeParams)
  | cherryPick (params : VersionOpParams)
  | revert (params : VersionOpParams)

namespace VersionOp

variable (X : Platform) (fuel : ℕ) (localPeerId : Str)

def run : VersionOp → Handling RevisionReply
  | .checkout p => handleCheckout X fuel localPeerId p
  | .merge p => handleMerge X fuel localPeerId p
  | .cherryPick p => handleCherryPick X fuel localPeerId p
  | .revert p => handleRevert X fuel localPeerId p

def barePrefix : VersionOp → Str
  | .checkout p => p.barePrefix
  | .merge p => p.barePrefix
  | .cherryPick p => p.barePrefix
  | .revert p => p.barePrefix

/-- The subtree key of the prefix an operation is about. -/
def subtreeKey (op : VersionOp) : Str := prefixHash X (resolvePrefix op.barePrefix localPeerId)

end VersionOp

/-- The operation went through and changed the head. -/
def RevisionReply.Applied : RevisionReply → Prop
  | .refused _ _ _ => False
  | .merge status _ _ _ _ =>
    status = "fast_forward" ∨ status = "merged" ∨ status = "merged_with_conflicts"
  | .cherryPick _ _ _ _ => True
  | .revert _ _ _ _ => True
  | .checkout _ _ _ _ _ => True

section Index

variable (X : Platform) (localPeerId : Str)

/-- The operations' own records about a prefix: head, branches, conflicts. -/
def ownRecord (ph path : Str) : Bool :=
  startsWith path ('/'::localPeerId++ "/system/revision/".toList++ph++['/'])

theorem ownRecord_revisionPath (ph : Str) (rest : String) (h : ∃ t, rest.toList = '/'::t) (t : Str) :
    ownRecord localPeerId ph (revisionPath localPeerId ph rest++t) = true := by
  obtain ⟨u,hu⟩ := h
  unfold ownRecord revisionPath
  rw [startsWith_iff,hu]
  exact ⟨u++t,by simp⟩

theorem ownRecord_head (ph : Str) : ownRecord localPeerId ph (revHeadPath localPeerId ph) = true := by
  have h := ownRecord_revisionPath localPeerId ph "/head" ⟨_,rfl⟩ []
  rwa [List.append_nil] at h

theorem ownRecord_activeBranch (ph : Str) :
    ownRecord localPeerId ph (revActiveBranchPath localPeerId ph) = true := by
  have h := ownRecord_revisionPath localPeerId ph "/active-branch" ⟨_,rfl⟩ []
  rwa [List.append_nil] at h

theorem ownRecord_branch (ph name : Str) :
    ownRecord localPeerId ph (revBranchPath localPeerId ph name) = true :=
  ownRecord_revisionPath localPeerId ph "/branches/" ⟨_,rfl⟩ name

theorem ownRecord_conflict (ph path : Str) :
    ownRecord localPeerId ph (revConflictPath localPeerId ph path) = true :=
  ownRecord_revisionPath localPeerId ph "/conflicts/" ⟨_,rfl⟩ path

theorem not_ownRecord_of_listed
    (h : startsWith path ('/'::localPeerId++ "/system/revision/".toList) = false) :
    ownRecord localPeerId ph path = false := by
  rw [Bool.eq_false_iff] at h ⊢
  intro hown
  apply h
  obtain ⟨t,ht⟩ := (startsWith_iff _ _).mp hown
  refine (startsWith_iff _ _).mpr ⟨ph++['/']++t,?_⟩
  rw [← ht]
  simp

/-- Two indexes agree outside the records of a prefix. -/
def SameBut (ph : Str) (a b : MemoryLocationIndex) : Prop :=
  ∀ p, ownRecord localPeerId ph p = false → b.get p = a.get p

variable {localPeerId} {ph : Str} {a b c : MemoryLocationIndex}

theorem SameBut.refl : SameBut localPeerId ph a a := fun _ _ => rfl

theorem SameBut.trans (h : SameBut localPeerId ph a b) (h' : SameBut localPeerId ph b c) :
    SameBut localPeerId ph a c := fun p hp => (h' p hp).trans (h p hp)

theorem SameBut.set (hpath : ownRecord localPeerId ph path = true) (hash : Hash)
    (h : SameBut localPeerId ph a b) : SameBut localPeerId ph a (b.set path hash) := by
  intro p hp
  rw [MemoryLocationIndex.get_set,if_neg]
  · exact h p hp
  · rintro ⟨rfl,-⟩
    rw [hp] at hpath
    cases hpath

theorem SameBut.remove (hpath : ownRecord localPeerId ph path = true)
    (h : SameBut localPeerId ph a b) : SameBut localPeerId ph a (b.remove path).2 := by
  intro p hp
  show (OrderedMap.erase _ _).get p = _
  rw [OrderedMap.get_erase,if_neg]
  · exact h p hp
  · rintro rfl
    rw [hp] at hpath
    cases hpath

/-- The listing below a prefix does not see the records. -/
theorem SameBut.snapshot (h : SameBut localPeerId ph a b) (barePrefix : Str) :
    snapshotBindingsFromTree b barePrefix localPeerId =
      snapshotBindingsFromTree a barePrefix localPeerId := by
  apply OrderedMap.ext_get
  intro k
  rw [get_snapshotBindingsFromTree,get_snapshotBindingsFromTree]
  cases hrev : startsWith (qualifyTreePrefix barePrefix localPeerId++k)
    ('/'::localPeerId++ "/system/revision/".toList) with
  | true => simp only [Bool.true_or,if_true]
  | false =>
    rw [h _ (not_ownRecord_of_listed localPeerId hrev)]

theorem get_foldl_remove (treePrefix : Str) (drops : Str → Bool) (l : List Str)
    (index : MemoryLocationIndex) (p : Str) :
    (l.foldl (fun (index : MemoryLocationIndex) k =>
      if drops k then (index.remove (treePrefix++k)).2 else index) index).get p =
      if ∃ k ∈ l, drops k = true ∧ treePrefix++k = p then none else index.get p := by
  induction l generalizing index with
  | nil => simp
  | cons k l ih =>
    rw [List.foldl_cons,ih]
    by_cases hrest : ∃ k ∈ l, drops k = true ∧ treePrefix++k = p
    · rw [if_pos hrest,if_pos]
      obtain ⟨j,hj,hp⟩ := hrest
      exact ⟨j,List.mem_cons_of_mem _ hj,hp⟩
    · rw [if_neg hrest]
      by_cases hk : drops k = true ∧ treePrefix++k = p
      · rw [if_pos hk.1,if_pos ⟨k,List.mem_cons_self,hk⟩]
        show (OrderedMap.erase _ _).get p = none
        rw [OrderedMap.get_erase,if_pos hk.2.symm]
      · rw [if_neg (c := ∃ j ∈ k::l, _)]
        · split_ifs with hd
          · show (OrderedMap.erase _ _).get p = index.paths.get p
            rw [OrderedMap.get_erase,if_neg]
            exact fun hp => hk ⟨hd,hp.symm⟩
          · rfl
        · rintro ⟨j,hj,hp⟩
          rcases List.mem_cons.mp hj with rfl | hj
          · exact hk hp
          · exact hrest ⟨j,hj,hp⟩

theorem get_foldl_set (treePrefix : Str) (skips : Hash → Bool) (l : List (Str × Hash))
    (index : MemoryLocationIndex) {p : Str} (h : ∀ e ∈ l, treePrefix++e.1 ≠ p) :
    (l.foldl (fun (index : MemoryLocationIndex) e =>
      if skips e.2 then index else index.set (treePrefix++e.1) e.2) index).get p = index.get p := by
  induction l generalizing index with
  | nil => rfl
  | cons e l ih =>
    rw [List.foldl_cons,ih _ fun e he => h e (List.mem_cons_of_mem _ he)]
    split_ifs
    · rfl
    · rw [MemoryLocationIndex.get_set,if_neg]
      rintro ⟨rfl,-⟩
      exact h e List.mem_cons_self rfl

theorem mem_keysOf {m : OrderedMap Str Hash} : k ∈ keysOf m ↔ (m.get k).isSome := by
  rw [keysOf,List.mem_map,Option.isSome_iff_exists]
  constructor
  · rintro ⟨e,he,rfl⟩
    exact ⟨e.2,(m.mem_entries e.1 e.2).mp he⟩
  · rintro ⟨h,hh⟩
    exact ⟨(k,h),(m.mem_entries k h).mpr hh,rfl⟩

/-- A path the target lacks goes if the baseline has it and stays otherwise. -/
theorem get_applySnapshotDiff (barePrefix : Str) (current target : OrderedMap Str Hash)
    {u : Unit}
    (hrun : applySnapshotDiff X localPeerId barePrefix current target w = (.ok u,w'))
    (hk : target.get k = none) :
    w'.index.get (qualifyTreePrefix barePrefix localPeerId++k) =
      if (current.get k).isSome then none
      else w.index.get (qualifyTreePrefix barePrefix localPeerId++k) := by
  obtain rfl : _ = w' := (Prod.mk.inj hrun).2
  dsimp only
  have hset := get_foldl_set (qualifyTreePrefix barePrefix localPeerId)
    (fun h => decide (h = canonicalDeletionMarkerHash X)) target.entries
    ((keysOf current).foldl (fun (index : MemoryLocationIndex) relPath =>
      if unbinds X target relPath then
        (index.remove (qualifyTreePrefix barePrefix localPeerId++relPath)).2 else index) w.index)
    (p := qualifyTreePrefix barePrefix localPeerId++k) (by
      intro e he hp
      have hget := (target.mem_entries e.1 e.2).mp he
      rw [List.append_cancel_left hp,hk] at hget
      cases hget)
  simp only [decide_eq_true_eq] at hset
  rw [hset,get_foldl_remove]
  have hiff : (∃ j ∈ keysOf current, unbinds X target j = true ∧
      qualifyTreePrefix barePrefix localPeerId++j = qualifyTreePrefix barePrefix localPeerId++k) ↔
      (current.get k).isSome := by
    constructor
    · rintro ⟨j,hj,-,hp⟩
      rw [← List.append_cancel_left hp]
      exact mem_keysOf.mp hj
    · intro hsome
      exact ⟨k,mem_keysOf.mpr hsome,by simp [unbinds,hk],rfl⟩
  simp only [hiff]

theorem sameBut_advanceHead {u : Unit}
    (hrun : advanceHead X localPeerId ph version w = (.ok u,w')) :
    w'.store = w.store ∧ SameBut localPeerId ph w.index w'.index := by
  unfold advanceHead at hrun
  obtain ⟨_,w₁,hset,hrun⟩ := bind_eq_ok.mp hrun
  obtain ⟨branch,w₂,hread,hrun⟩ := bind_eq_ok.mp hrun
  obtain rfl := (Prod.mk.inj hset).2
  obtain rfl := (Prod.mk.inj hread).2
  have hhead := (SameBut.refl (a := w.index)).set (ownRecord_head localPeerId ph) version
  cases branch with
  | none =>
    obtain rfl := (Prod.mk.inj hrun).2
    exact ⟨rfl,hhead⟩
  | some name =>
    obtain rfl := (Prod.mk.inj hrun).2
    exact ⟨rfl,hhead.set (ownRecord_branch localPeerId ph name) version⟩

theorem storeConflicts_spec (conflicts : List ConflictInfo) {u : PUnit}
    (hrun : conflicts.forM (storeConflict X localPeerId ph localVersion remoteVersion) w =
      (.ok u,w')) : w.store ≤ w'.store ∧ SameBut localPeerId ph w.index w'.index := by
  induction conflicts generalizing w with
  | nil =>
    obtain rfl := (Prod.mk.inj hrun).2
    exact ⟨le_rfl,SameBut.refl⟩
  | cons info rest ih =>
    obtain ⟨_,w₁,hone,hrest⟩ := bind_eq_ok.mp hrun
    refine And.imp (le_trans ?_) (SameBut.trans ?_) (ih hrest)
    all_goals
      unfold storeConflict at hone
      dsimp only at hone
      split at hone
    · cases (Prod.mk.inj hone).1
    · obtain rfl := (Prod.mk.inj hone).2
      exact List.suffix_cons _ _
    · cases (Prod.mk.inj hone).1
    · obtain rfl := (Prod.mk.inj hone).2
      exact SameBut.refl.set (ownRecord_conflict localPeerId ph info.path) _

end Index

/-! What a merge result binds and deletes. -/

section Result

variable {X : Platform} {s : ContentStore} {index : MemoryLocationIndex} {localPeerId : Str}
  {strategyOverride : Option Str}

theorem mergeMarker_binds (path : Str) (base : Option Hash) (l r : Hash) :
    (mergeMarker X s index localPeerId path base l r).binding.isSome := by
  unfold mergeMarker
  dsimp only
  by_cases hl : base = some l
  · rw [if_pos hl]
    rfl
  · rw [if_neg hl]
    by_cases hr : base = some r
    · rw [if_pos hr]
      rfl
    · rw [if_neg hr]
      split <;> rfl

theorem mergeEdits_binds (path : Str) (base : Option Hash) (l r : Hash) :
    (mergeEdits X s index localPeerId strategyOverride path base l r).binding.isSome := by
  unfold mergeEdits
  dsimp only
  split
  · rfl
  · rfl
  · split_ifs <;> rfl
  · rfl
  · rfl
  · rfl
  · rfl

/-- A path either side binds is bound by the merge. -/
theorem mergePath_binds (base : Option Hash) {l r : Option Hash} (h : l.isSome ∨ r.isSome) :
    (mergePath X s index localPeerId strategyOverride path base l r).binding.isSome := by
  unfold mergePath
  cases l with
  | none => cases r with
    | none => simp at h
    | some r => rfl
  | some l => cases r with
    | none => rfl
    | some r =>
      dsimp only
      split_ifs
      · rfl
      · exact mergeMarker_binds path base l r
      · exact mergeEdits_binds path base l r

theorem mergePath_deleted {base l r : Option Hash}
    (h : (mergePath X s index localPeerId strategyOverride path base l r).deleted = true) :
    (mergePath X s index localPeerId strategyOverride path base l r).binding.isSome := by
  cases l with
  | none => cases r with
    | none => cases h
    | some r => exact mergePath_binds base (.inr rfl)
  | some l => exact mergePath_binds base (.inl rfl)

theorem get_insertAll_isSome (l : List (Str × Hash)) (m : OrderedMap Str Hash)
    (h : (m.get k).isSome) : ((l.foldl (fun m e => m.insert e.1 e.2) m).get k).isSome := by
  induction l generalizing m with
  | nil => exact h
  | cons e l ih =>
    apply ih
    rw [OrderedMap.get_insert]
    split_ifs
    · rfl
    · exact h

theorem keeps_bound {m : OrderedMap Str Hash} {binding : Option Hash} {path : Str}
    (h : (m.get k).isSome) :
    ((match binding with
      | some h => m.insert path h
      | none => m).get k).isSome := by
  cases binding with
  | none => exact h
  | some hash =>
    rw [OrderedMap.get_insert]
    split_ifs
    · rfl
    · exact h

/-- What a merge deletes it binds, to the marker. -/
theorem bound_of_deletion (ancestor : Option (OrderedMap Str Hash)) (l r : OrderedMap Str Hash)
    (hk : k ∈ (mergeSnapshots X s index localPeerId strategyOverride ancestor l r).deletions) :
    ((mergeSnapshots X s index localPeerId strategyOverride ancestor l r).bindings.get k).isSome := by
  apply get_insertAll_isSome
  unfold mergeSnapshots at hk ⊢
  dsimp only at hk ⊢
  have hfold : ∀ (paths : List Str) (result : MergeResult),
      (k ∈ result.deletions → (result.mergedBindings.get k).isSome) →
      let final := paths.foldl (fun result path => result.add path
        (mergePath X s index localPeerId strategyOverride path ((ancestor.getD .empty).get path)
          (l.get path) (r.get path))) result
      k ∈ final.deletions → (final.mergedBindings.get k).isSome := by
    intro paths
    induction paths with
    | nil => exact fun result h => h
    | cons path paths ih =>
      intro result h
      apply ih
      intro hmem
      unfold MergeResult.add at hmem ⊢
      dsimp only at hmem ⊢
      split_ifs at hmem with hdel
      · rcases List.mem_append.mp hmem with hold | hnew
        · exact keeps_bound (h hold)
        · obtain rfl := List.mem_singleton.mp hnew
          obtain ⟨b,hb⟩ := Option.isSome_iff_exists.mp (mergePath_deleted hdel)
          rw [hb]
          simp
      · exact keeps_bound (h hmem)
  exact hfold _ _ (fun h => by cases h) hk

/-- Bringing a merge result into the tree takes out every listed path it does not bind. -/
theorem get_applyMergeResult {barePrefix : Str}
    (hdeletions : ∀ k ∈ result.deletions, (result.bindings.get k).isSome)
    {u : PUnit}
    (hrun : applyMergeResult X localPeerId barePrefix ph result localVersion remoteVersion w =
      (.ok u,w')) (hk : result.bindings.get k = none)
    (hown : ownRecord localPeerId ph (qualifyTreePrefix barePrefix localPeerId++k) = false) :
    w'.index.get (qualifyTreePrefix barePrefix localPeerId++k) =
      if ((snapshotBindingsFromTree w.index barePrefix localPeerId).get k).isSome then none
      else w.index.get (qualifyTreePrefix barePrefix localPeerId++k) := by
  unfold applyMergeResult at hrun
  obtain ⟨current,w₁,hread,hrun⟩ := bind_eq_ok.mp hrun
  obtain ⟨_,w₂,hdiff,hrun⟩ := bind_eq_ok.mp hrun
  obtain ⟨_,w₃,hdelete,hconflicts⟩ := bind_eq_ok.mp hrun
  obtain ⟨hcurrent,rfl⟩ := Prod.mk.inj hread
  obtain rfl := ok.inj hcurrent
  rw [(storeConflicts_spec X result.conflicts hconflicts).2 _ hown]
  obtain rfl := (Prod.mk.inj hdelete).2
  have hremove := get_foldl_remove (qualifyTreePrefix barePrefix localPeerId) (fun _ => true)
    result.deletions w₂.index (qualifyTreePrefix barePrefix localPeerId++k)
  simp only [if_true] at hremove
  dsimp only
  rw [hremove,if_neg,get_applySnapshotDiff X barePrefix _ _ hdiff hk]
  rintro ⟨j,hj,-,hp⟩
  have hbound := hdeletions j hj
  rw [List.append_cancel_left hp,hk] at hbound
  cases hbound

theorem le_applyMergeResult {barePrefix : Str} {u : PUnit}
    (hrun : applyMergeResult X localPeerId barePrefix ph result localVersion remoteVersion w =
      (.ok u,w')) : w.store ≤ w'.store := by
  unfold applyMergeResult at hrun
  obtain ⟨current,w₁,hread,hrest⟩ := bind_eq_ok.mp hrun
  obtain ⟨_,w₂,hdiff,hrest₂⟩ := bind_eq_ok.mp hrest
  obtain ⟨_,w₃,hdelete,hconflicts⟩ := bind_eq_ok.mp hrest₂
  obtain rfl := (Prod.mk.inj hread).2
  obtain rfl := (Prod.mk.inj hdiff).2
  obtain rfl := (Prod.mk.inj hdelete).2
  have hle := (storeConflicts_spec X _ hconflicts).1
  exact hle

end Result

/-! The versions an operation involves. -/

section Involved

variable (X : Platform) (fuel : ℕ) (localPeerId : Str) (w : RevisionWorld)

/-- What a version binds; one that cannot be read binds nothing. -/
def bindingsAt (version : Hash) : OrderedMap Str Hash :=
  ((getVersionBindings X fuel version w).1.toOption).getD .empty

namespace VersionOp

def head (op : VersionOp) : Option Hash :=
  w.index.get (revHeadPath localPeerId (op.subtreeKey X localPeerId))

def parentOf (p : VersionOpParams) : Option Hash := do
  let entry ← versionAt X w.store p.version
  (selectParent entry p.parent "").toOption

/-- The versions an operation starts from. -/
def sources (op : VersionOp) : List Hash :=
  (op.head X localPeerId w).toList++match op with
    | .checkout p =>
      (((checkoutTarget localPeerId p (op.subtreeKey X localPeerId) w).1.toOption).map
        Prod.fst).toList
    | .merge p => [p.remoteVersion]
    | .cherryPick p => p.version::(parentOf X w p).toList
    | .revert p => p.version::(parentOf X w p).toList

def mergeOrder (p : MergeParams) : Str :=
  (p.mergeOrder.or ((configFor X w.store w.index localPeerId
    ((VersionOp.merge p).subtreeKey X localPeerId)).map (·.mergeOrder))).getD defaultMergeOrder

/-- What the version an operation makes binds. -/
def recorded (op : VersionOp) : OrderedMap Str Hash :=
  match op, op.head X localPeerId w with
  | .merge p, some h => match checkRelationship X w.store fuel h p.remoteVersion with
    | .ok .diverged => (((mergeVersions X fuel localPeerId (mergeOrder X localPeerId w p) p.strategy h
        p.remoteVersion w).1.toOption).map MergeResult.bindings).getD .empty
    | _ => .empty
  | .cherryPick p, some h => match parentOf X w p with
    | some parent => (mergeSnapshots X w.store w.index localPeerId none
        (some (bindingsAt X fuel w parent)) (bindingsAt X fuel w h)
        (bindingsAt X fuel w p.version)).bindings
    | none => .empty
  | .revert p, some h => match parentOf X w p with
    | some parent =>
      let restored := augmentBindingsWithMarkers X (bindingsAt X fuel w parent)
        (bindingsAt X fuel w p.version) w.store
      (mergeSnapshots X restored.2 w.index localPeerId none (some (bindingsAt X fuel w p.version))
        (bindingsAt X fuel w h) restored.1).bindings
    | none => .empty
  | _, _ => .empty

/-- A version involved binds the path. -/
def Mentions (op : VersionOp) (k : Str) : Prop :=
  (∃ v ∈ op.sources X localPeerId w, ((bindingsAt X fuel w v).get k).isSome) ∨
    ((op.recorded X fuel localPeerId w).get k).isSome

/-- The operation goes from version to version: a checkout, or a merge from behind. -/
def Transcribes (op : VersionOp) : Prop :=
  match op with
  | .checkout _ => True
  | .merge p => ∃ h, op.head X localPeerId w = some h ∧
      checkRelationship X w.store fuel h p.remoteVersion = .ok .behind
  | .cherryPick _ => False
  | .revert _ => False

/-- Every live path below the prefix that no version involved mentions has the binding
it had, the operation's own records apart. -/
def KeepsUnmentioned (op : VersionOp) (w' : RevisionWorld) : Prop :=
  ∀ k h, w.index.get (qualifyTreePrefix op.barePrefix localPeerId++k) = some h →
    ¬op.Mentions X fuel localPeerId w k →
    ownRecord localPeerId (op.subtreeKey X localPeerId)
      (qualifyTreePrefix op.barePrefix localPeerId++k) = false →
    w'.index.get (qualifyTreePrefix op.barePrefix localPeerId++k) = some h

/-- The live listing of the operation's prefix. -/
def live (op : VersionOp) : OrderedMap Str Hash :=
  snapshotBindingsFromTree w.index op.barePrefix localPeerId

/-- The operation takes every listed path it does not record out of the tree. -/
def OverLive (op : VersionOp) (w' : RevisionWorld) : Prop :=
  ∀ k, (op.recorded X fuel localPeerId w).get k = none →
    ownRecord localPeerId (op.subtreeKey X localPeerId)
      (qualifyTreePrefix op.barePrefix localPeerId++k) = false →
    w'.index.get (qualifyTreePrefix op.barePrefix localPeerId++k) =
      if ((op.live localPeerId w).get k).isSome then none
      else w.index.get (qualifyTreePrefix op.barePrefix localPeerId++k)

end VersionOp

end Involved

namespace VersionOp

variable {X : Platform} {fuel : ℕ} {localPeerId : Str} {w w' : RevisionWorld} {op : VersionOp}

theorem listed_eq (hk : (op.live localPeerId w).get k = some h) :
    w.index.get (qualifyTreePrefix op.barePrefix localPeerId++k) = some h ∧
      startsWith (qualifyTreePrefix op.barePrefix localPeerId++k)
        ('/'::localPeerId++ "/system/revision/".toList) = false := by
  rw [live,get_snapshotBindingsFromTree] at hk
  cases hrev : startsWith (qualifyTreePrefix op.barePrefix localPeerId++k)
    ('/'::localPeerId++ "/system/revision/".toList) with
  | true =>
    rw [hrev,Bool.true_or,if_pos rfl] at hk
    cases hk
  | false =>
    rw [hrev,Bool.false_or] at hk
    split_ifs at hk
    exact ⟨hk,rfl⟩

/-- Over the live tree, only what some version mentions is safe. -/
theorem OverLive.keeps_iff (h : op.OverLive X fuel localPeerId w w') :
    op.KeepsUnmentioned X fuel localPeerId w w' ↔
      ∀ k, ((op.live localPeerId w).get k).isSome → op.Mentions X fuel localPeerId w k := by
  have hnone : ∀ {k}, ¬op.Mentions X fuel localPeerId w k →
      (op.recorded X fuel localPeerId w).get k = none := by
    intro k hk
    cases hr : (op.recorded X fuel localPeerId w).get k with
    | none => rfl
    | some v => exact absurd (.inr (by rw [hr]; rfl)) hk
  constructor
  · intro hkeeps k hk
    by_contra hmention
    obtain ⟨v,hv⟩ := Option.isSome_iff_exists.mp hk
    obtain ⟨hlive,hrev⟩ := listed_eq hv
    have hown : ownRecord localPeerId (op.subtreeKey X localPeerId)
        (qualifyTreePrefix op.barePrefix localPeerId++k) = false :=
      not_ownRecord_of_listed localPeerId hrev
    have hafter := h k (hnone hmention) hown
    rw [if_pos hk,hkeeps k v hlive hmention hown] at hafter
    cases hafter
  · intro hall k v hlive hmention hown
    rw [h k (hnone hmention) hown,if_neg fun hk => hmention (hall k hk)]
    exact hlive

/-- From version to version, nothing else is touched. -/
theorem keeps_of_diff {current target : OrderedMap Str Hash} {a b : MemoryLocationIndex}
    (hbefore : SameBut localPeerId (op.subtreeKey X localPeerId) w.index a)
    (hdiff : ∀ k, target.get k = none → b.get (qualifyTreePrefix op.barePrefix localPeerId++k) =
      if (current.get k).isSome then none
      else a.get (qualifyTreePrefix op.barePrefix localPeerId++k))
    (hafter : SameBut localPeerId (op.subtreeKey X localPeerId) b w'.index)
    (hmentions : ∀ k, ¬op.Mentions X fuel localPeerId w k → current.get k = none ∧ target.get k = none) :
    op.KeepsUnmentioned X fuel localPeerId w w' := by
  intro k h hlive hmention hown
  obtain ⟨hcurrent,htarget⟩ := hmentions k hmention
  rw [hafter _ hown,hdiff k htarget,if_neg (by simp [hcurrent]),hbefore _ hown]
  exact hlive

/-! One operation after the other. -/

theorem getVersionBindings_eq {m : OrderedMap Str Hash}
    (h : getVersionBindings X fuel v w = (.ok m,w₁)) : w₁ = w ∧ bindingsAt X fuel w v = m := by
  refine ⟨(reading_eq_ok.mp h).2,?_⟩
  rw [bindingsAt,h]
  rfl

theorem bindingsAt_congr (h : w₁.store = w.store) (v : Hash) :
    bindingsAt X fuel w₁ v = bindingsAt X fuel w v := by
  unfold bindingsAt getVersionBindings
  rw [reading_apply,reading_apply,h]

theorem mentions_source (h : ¬op.Mentions X fuel localPeerId w k)
    (hv : v ∈ op.sources X localPeerId w) : (bindingsAt X fuel w v).get k = none := by
  cases hk : (bindingsAt X fuel w v).get k with
  | none => rfl
  | some b => exact absurd (.inl ⟨v,hv,by rw [hk]; rfl⟩) h

theorem keeps_fastForward (hhead : (VersionOp.merge p).head X localPeerId w = some h)
    (hrun : fastForward X fuel localPeerId p.barePrefix ((VersionOp.merge p).subtreeKey X localPeerId) h
      p.remoteVersion w = (.ok reply,w')) :
    (VersionOp.merge p).KeepsUnmentioned X fuel localPeerId w w' := by
  unfold fastForward at hrun
  obtain ⟨localBindings,w₁,hlocal,hrun⟩ := bind_eq_ok.mp hrun
  obtain ⟨_,w₂,hadvance,hrun⟩ := bind_eq_ok.mp hrun
  obtain ⟨remoteBindings,w₃,hremote,hrun⟩ := bind_eq_ok.mp hrun
  obtain ⟨_,w₄,hdiff,hreply⟩ := bind_eq_ok.mp hrun
  obtain ⟨rfl,hlocal⟩ := getVersionBindings_eq hlocal
  obtain ⟨rfl,hremote⟩ := getVersionBindings_eq hremote
  obtain ⟨hstore,hsame⟩ := sameBut_advanceHead X hadvance
  obtain rfl := (Prod.mk.inj hreply).2
  rw [bindingsAt_congr hstore] at hremote
  refine keeps_of_diff hsame (fun k hk => get_applySnapshotDiff X _ _ _ hdiff hk) SameBut.refl ?_
  intro k hk
  rw [← hlocal,← hremote]
  refine ⟨mentions_source hk ?_,mentions_source hk ?_⟩
  · rw [sources,hhead]
    exact List.mem_cons_self
  · rw [sources]
    exact List.mem_append_right _ List.mem_cons_self

theorem mergeVersions_eq {order : Str} {strategy : Option Str}
    (h : mergeVersions X fuel localPeerId order strategy a b w = (.ok result,w₁)) :
    w₁ = w ∧ ∃ found, findCommonAncestor X w.store fuel a b = .ok found ∧
      result = mergeSnapshots X w.store w.index localPeerId strategy
        (found.map (bindingsAt X fuel w))
        (normalizeMergeSides (bindingsAt X fuel w a) (bindingsAt X fuel w b) a b order).1
        (normalizeMergeSides (bindingsAt X fuel w a) (bindingsAt X fuel w b) a b order).2 := by
  unfold mergeVersions at h
  obtain ⟨found,w₂,hsearch,hrest⟩ := bind_eq_ok.mp h
  obtain ⟨l,w₃,hl,hrest'⟩ := bind_eq_ok.mp hrest
  obtain ⟨r,w₄,hr,hmerge⟩ := bind_eq_ok.mp hrest'
  obtain ⟨hfound,rfl⟩ := reading_eq_ok.mp hsearch
  obtain ⟨rfl,rfl⟩ := getVersionBindings_eq hl
  obtain ⟨rfl,rfl⟩ := getVersionBindings_eq hr
  have hfound' := (mapErr_ok _ _ _).mp hfound
  cases found with
  | none =>
    obtain ⟨ancestor,w₅,hancestor,hread⟩ := bind_eq_ok.mp hmerge
    obtain ⟨hnone,rfl⟩ := Prod.mk.inj hancestor
    obtain rfl := ok.inj hnone
    obtain ⟨hresult,rfl⟩ := reading_eq_ok.mp hread
    exact ⟨rfl,none,hfound',(ok.inj hresult).symm⟩
  | some v =>
    obtain ⟨ancestor,w₅,hancestor,hread⟩ := bind_eq_ok.mp hmerge
    obtain ⟨m,w₆,hm,hpure⟩ := bind_eq_ok.mp hancestor
    obtain ⟨rfl,rfl⟩ := getVersionBindings_eq hm
    obtain ⟨hsome,rfl⟩ := Prod.mk.inj hpure
    obtain rfl := ok.inj hsome
    obtain ⟨hresult,rfl⟩ := reading_eq_ok.mp hread
    exact ⟨rfl,some v,hfound',(ok.inj hresult).symm⟩

theorem createVersion_index {root : Hash} {parents : List Hash}
    (h : createVersion X root parents w = (.ok v,w₁)) : w₁.index = w.index := by
  unfold createVersion at h
  split at h
  · cases (Prod.mk.inj h).1
  · obtain rfl := (Prod.mk.inj h).2
    rfl

theorem onContent_index {α : Type} {m : Action ContentStore TrieFailure α} {a : α}
    (h : onContent m w = (.ok a,w₁)) : w₁.index = w.index := by
  obtain rfl := (Prod.mk.inj h).2
  rfl

theorem createMergeVersion_index {config : Option RevisionConfig} {v : Option Hash}
    (h : createMergeVersion X fuel config result a b w = (.ok v,w₁)) : w₁.index = w.index := by
  unfold createMergeVersion at h
  obtain ⟨root,w₂,htrie,h⟩ := bind_eq_ok.mp h
  obtain ⟨oscillates,w₃,hsearch,h⟩ := bind_eq_ok.mp h
  obtain ⟨-,rfl⟩ := reading_eq_ok.mp hsearch
  have hindex := onContent_index htrie
  cases oscillates with
  | true =>
    obtain rfl := (Prod.mk.inj h).2
    exact hindex
  | false =>
    obtain ⟨v',w₄,hcreate,hpure⟩ := bind_eq_ok.mp h
    obtain rfl := (Prod.mk.inj hpure).2
    exact (createVersion_index hcreate).trans hindex

/-- The last part of the merging operations: the head moves, the result is applied. -/
theorem overLive_of_apply {w₂ : RevisionWorld} {u : Unit} {u' : PUnit}
    (hrecorded : op.recorded X fuel localPeerId w = result.bindings)
    (hdeletions : ∀ k ∈ result.deletions, (result.bindings.get k).isSome)
    (hindex : w₁.index = w.index)
    (hadvance : advanceHead X localPeerId (op.subtreeKey X localPeerId) version w₁ = (.ok u,w₂))
    (happly : applyMergeResult X localPeerId op.barePrefix (op.subtreeKey X localPeerId) result a b
      w₂ = (.ok u',w')) : op.OverLive X fuel localPeerId w w' := by
  obtain ⟨-,hsame⟩ := sameBut_advanceHead X hadvance
  rw [hindex] at hsame
  intro k hk hown
  rw [hrecorded] at hk
  rw [get_applyMergeResult hdeletions happly hk hown,hsame.snapshot,hsame _ hown]
  rfl

/-- What a merge of diverged versions that goes through has done. -/
theorem mergeDiverged_cases {config : Option RevisionConfig}
    (hrun : mergeDiverged X fuel localPeerId p ph config h w = (.ok reply,w'))
    (happlied : reply.Applied) : ∃ result version w₁ w₂ u u' status,
      mergeVersions X fuel localPeerId
        ((p.mergeOrder.or (config.map (·.mergeOrder))).getD defaultMergeOrder) p.strategy h
        p.remoteVersion w = (.ok result,w) ∧
      createMergeVersion X fuel config result h p.remoteVersion w = (.ok (some version),w₁) ∧
      advanceHead X localPeerId ph version w₁ = (.ok u,w₂) ∧
      applyMergeResult X localPeerId p.barePrefix ph result h p.remoteVersion w₂ = (.ok u',w') ∧
      reply = .merge status (some version) (result.conflicts.map (·.path))
        result.bindings.entries.length result.deletions.length := by
  unfold mergeDiverged at hrun
  obtain ⟨result,w₀,hmerge,hrest⟩ := bind_eq_ok.mp hrun
  obtain ⟨rfl,-⟩ := mergeVersions_eq hmerge
  by_cases hdry : p.dryRun = true
  · rw [if_pos hdry] at hrest
    obtain rfl := (ok.inj (Prod.mk.inj hrest).1)
    rcases happlied with hs | hs | hs <;> split_ifs at hs <;> simp at hs
  · rw [if_neg hdry] at hrest
    obtain ⟨version,w₂,hversion,hrest'⟩ := bind_eq_ok.mp hrest
    cases version with
    | none =>
      obtain rfl := (ok.inj (Prod.mk.inj hrest').1)
      rcases happlied with hs | hs | hs <;> simp at hs
    | some version =>
      obtain ⟨u,w₃,hadvance,hrest''⟩ := bind_eq_ok.mp hrest'
      obtain ⟨u',w₄,happly,hreply⟩ := bind_eq_ok.mp hrest''
      obtain ⟨hreply',rfl⟩ := Prod.mk.inj hreply
      exact ⟨result,version,w₂,w₃,u,u',_,hmerge,hversion,hadvance,happly, (ok.inj hreply').symm⟩

theorem overLive_mergeDiverged (hhead : (VersionOp.merge p).head X localPeerId w = some h)
    (hrel : checkRelationship X w.store fuel h p.remoteVersion = .ok .diverged)
    (hrun : mergeDiverged X fuel localPeerId p ((VersionOp.merge p).subtreeKey X localPeerId)
      (configFor X w.store w.index localPeerId ((VersionOp.merge p).subtreeKey X localPeerId)) h w =
      (.ok reply,w')) (happlied : reply.Applied) :
    (VersionOp.merge p).OverLive X fuel localPeerId w w' := by
  obtain ⟨result,version,w₁,w₂,u,u',status,hmerge,hversion,hadvance,happly,-⟩ :=
    mergeDiverged_cases hrun happlied
  have hrecorded : (VersionOp.merge p).recorded X fuel localPeerId w = result.bindings := by
    unfold recorded
    rw [hhead]
    dsimp only
    rw [hrel]
    dsimp only
    rw [show mergeVersions X fuel localPeerId (mergeOrder X localPeerId w p) p.strategy h
      p.remoteVersion w = _ from hmerge]
    rfl
  obtain ⟨-,found,-,hresult⟩ := mergeVersions_eq hmerge
  refine overLive_of_apply hrecorded ?_ (createMergeVersion_index hversion) hadvance happly
  rw [hresult]
  exact fun k hk => bound_of_deletion _ _ _ hk

theorem overLive_adopt (hrecorded : op.recorded X fuel localPeerId w = result.bindings)
    (hdeletions : ∀ k ∈ result.deletions, (result.bindings.get k).isSome)
    (hindex : w₁.index = w.index)
    (hrun : adoptMergeResult X localPeerId op.barePrefix (op.subtreeKey X localPeerId) result h
      version w₁ = (.ok v,w')) : op.OverLive X fuel localPeerId w w' := by
  unfold adoptMergeResult at hrun
  obtain ⟨root,w₂,htrie,hrest⟩ := bind_eq_ok.mp hrun
  obtain ⟨v',w₃,hcreate,hrest'⟩ := bind_eq_ok.mp hrest
  obtain ⟨_,w₄,hadvance,hrest''⟩ := bind_eq_ok.mp hrest'
  obtain ⟨_,w₅,happly,hreply⟩ := bind_eq_ok.mp hrest''
  obtain rfl := (Prod.mk.inj hreply).2
  have hindex' : w₃.index = w.index :=
    (createVersion_index hcreate).trans ((onContent_index htrie).trans hindex)
  exact overLive_of_apply hrecorded hdeletions hindex' hadvance happly

/-- The parent an operation works with is the one its sources name. -/
theorem parentOf_eq {p : VersionOpParams} {entry : RevisionEntryData} {initial : String}
    {parent : Hash} (hload : loadVersion X p.version w = (.ok entry,w₁))
    (hselect : selectParent entry p.parent initial = .ok parent) :
    w₁ = w ∧ parentOf X w p = some parent := by
  unfold loadVersion at hload
  obtain ⟨hentry,rfl⟩ := reading_eq_ok.mp hload
  refine ⟨rfl,?_⟩
  have hversion : versionAt X w₁.store p.version = some entry := by
    unfold versionAt
    cases hget : w₁.store.get p.version with
    | none => rw [hget] at hentry; cases hentry
    | some entity =>
      rw [hget] at hentry
      exact (okOr_ok _ _ _).mp hentry
  have hsame : (selectParent entry p.parent "").toOption = some parent := by
    unfold selectParent at hselect ⊢
    split at hselect
    · cases hselect
    · split_ifs at hselect ⊢
      rw [ok.inj hselect]
      rfl
    · rw [ok.inj hselect]
      rfl
    · cases hselect
  unfold parentOf
  rw [hversion]
  exact hsame

theorem not_applied_of_selectParent {entry : RevisionEntryData} {specified : Option Hash}
    {initial : String} {refusal : RevisionReply}
    (h : selectParent entry specified initial = .error refusal) : ¬refusal.Applied := by
  unfold selectParent at h
  split at h
  · rw [← error.inj h]
    exact id
  · split_ifs at h
    rw [← error.inj h]
    exact id
  · cases h
  · rw [← error.inj h]
    exact id

theorem overLive_cherryPick {p : VersionOpParams}
    (hrun : handleCherryPick X fuel localPeerId p w = (.ok reply,w')) (happlied : reply.Applied) :
    (VersionOp.cherryPick p).OverLive X fuel localPeerId w w' := by
  unfold handleCherryPick at hrun
  obtain ⟨entry,w₁,hload,hrest⟩ := bind_eq_ok.mp hrun
  cases hselect : selectParent entry p.parent
      "cannot cherry-pick initial version (no parents)" with
  | error refusal =>
    rw [hselect] at hrest
    obtain rfl := ok.inj (Prod.mk.inj hrest).1
    exact absurd happlied (not_applied_of_selectParent hselect)
  | ok parent =>
    rw [hselect] at hrest
    obtain ⟨rfl,hparent⟩ := parentOf_eq hload hselect
    obtain ⟨h,w₂,hhead,hrest₂⟩ := bind_eq_ok.mp hrest
    obtain ⟨ancestor,w₃,hancestor,hrest₃⟩ := bind_eq_ok.mp hrest₂
    obtain ⟨l,w₄,hl,hrest₄⟩ := bind_eq_ok.mp hrest₃
    obtain ⟨r,w₅,hr,hrest₅⟩ := bind_eq_ok.mp hrest₄
    obtain ⟨result,w₆,hmerge,hrest₆⟩ := bind_eq_ok.mp hrest₅
    obtain ⟨v,w₇,hadopt,hreply⟩ := bind_eq_ok.mp hrest₆
    obtain ⟨hhead,rfl⟩ := reading_eq_ok.mp hhead
    obtain ⟨rfl,hancestor⟩ := getVersionBindings_eq hancestor
    obtain ⟨rfl,hl⟩ := getVersionBindings_eq hl
    obtain ⟨rfl,hr⟩ := getVersionBindings_eq hr
    obtain ⟨hmerge,rfl⟩ := reading_eq_ok.mp hmerge
    obtain rfl := (Prod.mk.inj hreply).2
    have hhead' : (VersionOp.cherryPick p).head X localPeerId w₆ = some h := (okOr_ok _ _ _).mp hhead
    have hresult := (ok.inj hmerge).symm
    have hrecorded : (VersionOp.cherryPick p).recorded X fuel localPeerId w₆ = result.bindings := by
      unfold recorded
      rw [hhead']
      dsimp only
      rw [hparent]
      dsimp only
      rw [hancestor,hl,hr,hresult]
    refine overLive_adopt hrecorded ?_ rfl hadopt
    rw [hresult]
    exact fun k hk => bound_of_deletion _ _ _ hk

theorem overLive_revert {p : VersionOpParams}
    (hrun : handleRevert X fuel localPeerId p w = (.ok reply,w')) (happlied : reply.Applied) :
    (VersionOp.revert p).OverLive X fuel localPeerId w w' := by
  unfold handleRevert at hrun
  obtain ⟨entry,w₁,hload,hrest⟩ := bind_eq_ok.mp hrun
  cases hselect : selectParent entry p.parent "cannot revert initial version (no parents)" with
  | error refusal =>
    rw [hselect] at hrest
    obtain rfl := ok.inj (Prod.mk.inj hrest).1
    exact absurd happlied (not_applied_of_selectParent hselect)
  | ok parent =>
    rw [hselect] at hrest
    obtain ⟨rfl,hparent⟩ := parentOf_eq hload hselect
    obtain ⟨h,w₂,hhead,hrest₂⟩ := bind_eq_ok.mp hrest
    obtain ⟨ancestor,w₃,hancestor,hrest₃⟩ := bind_eq_ok.mp hrest₂
    obtain ⟨l,w₄,hl,hrest₄⟩ := bind_eq_ok.mp hrest₃
    obtain ⟨parentBindings,w₅,hr,hrest₅⟩ := bind_eq_ok.mp hrest₄
    obtain ⟨restored,w₆,hmarkers,hrest₆⟩ := bind_eq_ok.mp hrest₅
    obtain ⟨result,w₇,hmerge,hrest₇⟩ := bind_eq_ok.mp hrest₆
    obtain ⟨v,w₈,hadopt,hreply⟩ := bind_eq_ok.mp hrest₇
    obtain ⟨hhead,rfl⟩ := reading_eq_ok.mp hhead
    obtain ⟨rfl,hancestor⟩ := getVersionBindings_eq hancestor
    obtain ⟨rfl,hl⟩ := getVersionBindings_eq hl
    obtain ⟨rfl,hr⟩ := getVersionBindings_eq hr
    obtain ⟨hrestored,rfl⟩ := Prod.mk.inj hmarkers
    obtain ⟨hread,rfl⟩ := reading_eq_ok.mp hmerge
    obtain rfl := (Prod.mk.inj hreply).2
    have hhead' : (VersionOp.revert p).head X localPeerId w₅ = some h := (okOr_ok _ _ _).mp hhead
    obtain rfl := ok.inj hrestored
    have hresult := (ok.inj hread).symm
    have hrecorded : (VersionOp.revert p).recorded X fuel localPeerId w₅ = result.bindings := by
      unfold recorded
      rw [hhead']
      dsimp only
      rw [hparent]
      dsimp only
      rw [hancestor,hl,hr,hresult]
    refine overLive_adopt hrecorded ?_ ?_ hadopt
    · rw [hresult]
      exact fun k hk => bound_of_deletion _ _ _ hk
    · rfl

theorem sameBut_setActiveBranch {name : Str} {u : Unit}
    (hrun : setActiveBranch X localPeerId ph name w = (.ok u,w₁)) :
    SameBut localPeerId ph w.index w₁.index := by
  obtain rfl := (Prod.mk.inj hrun).2
  dsimp only
  split
  · exact SameBut.refl.set (ownRecord_activeBranch localPeerId ph) _
  · exact SameBut.refl

/-- The head's bindings a checkout starts from are those of a version it mentions. -/
theorem committed_none {p : CheckoutParams} {committed : OrderedMap Str Hash}
    (h : committedHeadBindings X fuel localPeerId ((VersionOp.checkout p).subtreeKey X localPeerId) w =
      (.ok committed,w₁)) (hk : ¬(VersionOp.checkout p).Mentions X fuel localPeerId w k) :
    w₁ = w ∧ committed.get k = none := by
  unfold committedHeadBindings at h
  obtain ⟨hread,rfl⟩ := reading_eq_ok.mp h
  refine ⟨rfl,?_⟩
  cases hhead : (VersionOp.checkout p).head X localPeerId w₁ with
  | none =>
    rw [show w₁.index.get _ = none from hhead] at hread
    rw [← ok.inj hread]
    rfl
  | some v =>
    rw [show w₁.index.get _ = some v from hhead] at hread
    rw [← ok.inj hread]
    apply mentions_source hk
    rw [sources,hhead]
    exact List.mem_cons_self

theorem keeps_checkout {p : CheckoutParams}
    (hrun : handleCheckout X fuel localPeerId p w = (.ok reply,w')) (happlied : reply.Applied) :
    (VersionOp.checkout p).KeepsUnmentioned X fuel localPeerId w w' := by
  unfold handleCheckout at hrun
  obtain ⟨target,w₁,htarget,hrest⟩ := bind_eq_ok.mp hrun
  obtain ⟨config,w₂,hconfig,hrest₂⟩ := bind_eq_ok.mp hrest
  obtain ⟨htarget',rfl⟩ := reading_eq_ok.mp htarget
  obtain ⟨-,rfl⟩ := reading_eq_ok.mp hconfig
  dsimp only at hrest₂
  split_ifs at hrest₂ with hdeny
  · obtain rfl := ok.inj (Prod.mk.inj hrest₂).1
    exact absurd happlied id
  · obtain ⟨targetBindings,w₃,hbindings,hrest₃⟩ := bind_eq_ok.mp hrest₂
    obtain ⟨live,w₄,hlive,hrest₄⟩ := bind_eq_ok.mp hrest₃
    obtain ⟨committed,w₅,hcommitted,hrest₅⟩ := bind_eq_ok.mp hrest₄
    obtain ⟨_,w₆,hset,hrest₆⟩ := bind_eq_ok.mp hrest₅
    obtain ⟨rfl,hbindings'⟩ := getVersionBindings_eq hbindings
    obtain ⟨-,rfl⟩ := reading_eq_ok.mp hlive
    obtain ⟨-,rfl⟩ := reading_eq_ok.mp hcommitted
    obtain rfl := (Prod.mk.inj hset).2
    have hhead := (SameBut.refl (a := w₅.index)).set
      (ownRecord_head localPeerId ((VersionOp.checkout p).subtreeKey X localPeerId)) target.1
    have hmentions : ∀ k, ¬(VersionOp.checkout p).Mentions X fuel localPeerId w₅ k →
        committed.get k = none ∧ targetBindings.get k = none := by
      intro k hk
      refine ⟨(committed_none hcommitted hk).2,?_⟩
      rw [← hbindings']
      apply mentions_source hk
      rw [sources]
      refine List.mem_append_right _ ?_
      rw [show checkoutTarget localPeerId p ((VersionOp.checkout p).subtreeKey X localPeerId) w₅ = _
        from htarget]
      exact List.mem_cons_self
    cases hbranch : target.2 with
    | none =>
      rw [hbranch] at hrest₆
      obtain ⟨_,w₇,hremove,hrest₇⟩ := bind_eq_ok.mp hrest₆
      obtain ⟨_,w₈,hdiff,hrest₈⟩ := bind_eq_ok.mp hrest₇
      obtain ⟨_,w₉,hfinal,hreply⟩ := bind_eq_ok.mp hrest₈
      obtain ⟨-,rfl⟩ := reading_eq_ok.mp hfinal
      obtain rfl := (Prod.mk.inj hreply).2
      obtain rfl := (Prod.mk.inj hremove).2
      have hbefore := hhead.remove
        (ownRecord_activeBranch localPeerId ((VersionOp.checkout p).subtreeKey X localPeerId))
      exact keeps_of_diff hbefore (fun k hk => get_applySnapshotDiff X _ _ _ hdiff hk)
        SameBut.refl hmentions
    | some name =>
      rw [hbranch] at hrest₆
      obtain ⟨_,w₇,hactive,hrest₇⟩ := bind_eq_ok.mp hrest₆
      obtain ⟨_,w₈,hdiff,hrest₈⟩ := bind_eq_ok.mp hrest₇
      obtain ⟨_,w₉,hfinal,hreply⟩ := bind_eq_ok.mp hrest₈
      obtain ⟨-,rfl⟩ := reading_eq_ok.mp hfinal
      obtain rfl := (Prod.mk.inj hreply).2
      have hbefore := hhead.trans (sameBut_setActiveBranch hactive)
      exact keeps_of_diff hbefore (fun k hk => get_applySnapshotDiff X _ _ _ hdiff hk)
        SameBut.refl hmentions

/-- A merge that goes through goes forward from the head or merges with it. -/
theorem handleMerge_cases
    (hrun : handleMerge X fuel localPeerId p w = (.ok reply,w')) (happlied : reply.Applied) :
    ∃ h, (VersionOp.merge p).head X localPeerId w = some h ∧
      (checkRelationship X w.store fuel h p.remoteVersion = .ok .behind ∧
        fastForward X fuel localPeerId p.barePrefix ((VersionOp.merge p).subtreeKey X localPeerId) h
          p.remoteVersion w = (.ok reply,w') ∨
      checkRelationship X w.store fuel h p.remoteVersion = .ok .diverged ∧
        mergeDiverged X fuel localPeerId p ((VersionOp.merge p).subtreeKey X localPeerId)
          (configFor X w.store w.index localPeerId ((VersionOp.merge p).subtreeKey X localPeerId)) h
          w = (.ok reply,w')) := by
  unfold handleMerge at hrun
  obtain ⟨config,w₁,hconfig,hrest⟩ := bind_eq_ok.mp hrun
  obtain ⟨head,w₂,hhead,hrest₂⟩ := bind_eq_ok.mp hrest
  obtain ⟨hconfig',rfl⟩ := reading_eq_ok.mp hconfig
  obtain ⟨hhead',rfl⟩ := reading_eq_ok.mp hhead
  cases head with
  | none =>
    obtain rfl := ok.inj (Prod.mk.inj hrest₂).1
    exact absurd happlied id
  | some h =>
    refine ⟨h,ok.inj hhead',?_⟩
    obtain ⟨rel,w₃,hrel,hrest₃⟩ := bind_eq_ok.mp hrest₂
    obtain ⟨hrel',rfl⟩ := reading_eq_ok.mp hrel
    have hrel'' := (mapErr_ok _ _ _).mp hrel'
    cases rel with
    | inSync =>
      obtain rfl := ok.inj (Prod.mk.inj hrest₃).1
      simp [RevisionReply.Applied] at happlied
    | ahead =>
      obtain rfl := ok.inj (Prod.mk.inj hrest₃).1
      simp [RevisionReply.Applied] at happlied
    | behind =>
      dsimp only at hrest₃
      split_ifs at hrest₃ with hdry
      · obtain rfl := ok.inj (Prod.mk.inj hrest₃).1
        simp [RevisionReply.Applied] at happlied
      · exact .inl ⟨hrel'',hrest₃⟩
    | diverged =>
      obtain ⟨same,w₄,hsame,hrest₄⟩ := bind_eq_ok.mp hrest₃
      obtain ⟨-,rfl⟩ := reading_eq_ok.mp hsame
      cases same with
      | true =>
        obtain rfl := ok.inj (Prod.mk.inj hrest₄).1
        simp [RevisionReply.Applied] at happlied
      | false =>
        rw [← ok.inj hconfig'] at hrest₄
        exact .inr ⟨hrel'',hrest₄⟩

/-- A version operation that goes through keeps the live paths no version involved binds
exactly if it goes from version to version or there are none. -/
theorem unmentioned_kept_iff {reply : RevisionReply}
    (hrun : op.run X fuel localPeerId w = (.ok reply,w')) (happlied : reply.Applied) :
    op.KeepsUnmentioned X fuel localPeerId w w' ↔ op.Transcribes X fuel localPeerId w ∨
        ∀ k, ((op.live localPeerId w).get k).isSome → op.Mentions X fuel localPeerId w k := by
  cases op with
  | checkout p => exact iff_of_true (keeps_checkout hrun happlied) (.inl trivial)
  | merge p =>
    obtain ⟨h,hhead,⟨hrel,hforward⟩ | ⟨hrel,hmerge⟩⟩ := handleMerge_cases hrun happlied
    · exact iff_of_true (keeps_fastForward hhead hforward) (.inl ⟨h,hhead,hrel⟩)
    · rw [(overLive_mergeDiverged hhead hrel hmerge happlied).keeps_iff,or_iff_right]
      rintro ⟨h',hhead',hbehind⟩
      rw [hhead] at hhead'
      rw [← Option.some.inj hhead',hrel] at hbehind
      cases hbehind
  | cherryPick p =>
    rw [(overLive_cherryPick hrun happlied).keeps_iff]
    exact (or_iff_right id).symm
  | revert p =>
    rw [(overLive_revert hrun happlied).keeps_iff]
    exact (or_iff_right id).symm

end VersionOp

namespace UntrackedSample

open Sample RevisionSample AutoVersionSample AgreementSample ByteCode

def nodeMerged : SnapshotNodeData :=
  ⟨0x2000080#32,[.bucket [("b".toList,two.contentHash)],.bucket [("a".toList,two.contentHash)]]⟩

def rootOfMerged : Hash :=
  sha256Hash 0xc1cd1ff8c68e03cfe5e55c8afed6bb2469d25f2df4b8982c879aecbc254fdd4c

/-- One side adds a note, the other changes the first. -/
def adding : Entity := versionEntity ⟨rootOfBoth,[headOfOne.contentHash]⟩
  0x8c2ebe74a67633ffd0437e969cb27a2097f072de6cfd10a2acecea11356d8a93
def changing : Entity := versionEntity ⟨rootOfTwo,[headOfOne.contentHash]⟩
  0xb450d37de1cafe9d3e0b549d9f9aaac10cee66dcfb034fb1d83a62228cdd253d
def merging : Entity := versionEntity ⟨rootOfMerged,[adding.contentHash,changing.contentHash]⟩
  0x594665b828b9c17cd3f54e18dba9c7aa0a5f1d1cec40f1191a79858e705c4e7b

def peer : Str := engine.localPeerId

def twoSides : World where
  nodes := [(nodeOne,0xd29663eff96ee1fea819e34b40fa1e809dd1275dd94ad13c1a1a5e88dbdb8833),
    (nodeTwo,0x94d32f30e9eb29452b36d8d5102016aded5c70c674b01fa1cb4c24e2017f0a06),
    (nodeBoth,0x93cd3a073c96cb137108fce87abf6a243b53b4922375ab9a34a68499cbd75ecf),
    (nodeMerged,0xc1cd1ff8c68e03cfe5e55c8afed6bb2469d25f2df4b8982c879aecbc254fdd4c)]
  entries := [(⟨rootOfOne,[]⟩,0x56174e0f4011bb9054b5e77924031a7fdeb1985dd343b6c9b95556bb46def700),
    (⟨rootOfBoth,[headOfOne.contentHash]⟩,
      0x8c2ebe74a67633ffd0437e969cb27a2097f072de6cfd10a2acecea11356d8a93),
    (⟨rootOfTwo,[headOfOne.contentHash]⟩,
      0xb450d37de1cafe9d3e0b549d9f9aaac10cee66dcfb034fb1d83a62228cdd253d),
    (⟨rootOfMerged,[adding.contentHash,changing.contentHash]⟩,
      0x594665b828b9c17cd3f54e18dba9c7aa0a5f1d1cec40f1191a79858e705c4e7b)]
  others := [txt "one",txt "two",.map []]
  digests := [
    (utf8 "a".toList,0xca978112ca1bbdcafac231b39a23dc4da786eff8147c4e72b9807785afee48bb),
    (utf8 "b".toList,0x3e23e8160039594a33894f6564e1b1348bbd7a0088d42c4acb73eeaed59c009d),
    (ecfForHash "system/tree/path".toList (toEcf (.text projectPath)),
      0x4434f23addb89b2376c646d266c542ce4da11f89bd529074f2a207f05363cf28),
    (ecfForHash typeDeletionMarker [0xa0],
      0x689ae4679f69f006e4bf7cb7c7a9155d0de5fb9fe31e81692dca5769eda9e0a6)]

/-- The notes of the adding side in the tree, and one more that was never committed. -/
def before (head : Entity) : RevisionWorld where
  store := ⟨[headOfOne,adding,changing,
    nodeEntity nodeOne 0xd29663eff96ee1fea819e34b40fa1e809dd1275dd94ad13c1a1a5e88dbdb8833,
    nodeEntity nodeTwo 0x94d32f30e9eb29452b36d8d5102016aded5c70c674b01fa1cb4c24e2017f0a06,
    nodeEntity nodeBoth 0x93cd3a073c96cb137108fce87abf6a243b53b4922375ab9a34a68499cbd75ecf,
    one,two]⟩
  index := (MemoryLocationIndex.mk .empty).set (projectPath++ "a".toList) one.contentHash
    |>.set (projectPath++ "b".toList) two.contentHash
    |>.set (projectPath++ "c".toList) one.contentHash
    |>.set (revHeadPath peer (prefixHash twoSides.crates projectPath)) head.contentHash

def mergeOf (remote : Entity) : VersionOp :=
  .merge ⟨"project/".toList,remote.contentHash,none,false,none⟩

def after (head remote : Entity) : RevisionWorld :=
  ((mergeOf remote).run twoSides.crates levels peer (before head)).2

theorem eq_of_ran {α : Type} {m : Handling α} {a : α} (h : (m w).1 = .ok a) :
    m w = (.ok a,(m w).2) := Prod.ext h rfl

/-- A fast-forward and a merge, and what the merge makes of the note that was never committed. -/
theorem evaluated_merges :
    (((mergeOf adding).run twoSides.crates levels peer (before headOfOne)).1 =
        .ok (.merge "fast_forward" (some adding.contentHash) [] 0 0) ∧
      checkRelationship twoSides.crates (before headOfOne).store levels headOfOne.contentHash
        adding.contentHash = .ok .behind ∧
      (mergeOf adding).head twoSides.crates peer (before headOfOne) = some headOfOne.contentHash) ∧
    ((mergeOf changing).run twoSides.crates levels peer (before adding)).1 =
      .ok (.merge "merged" (some merging.contentHash) [] 2 0) ∧
    (before adding).index.get (projectPath++ "c".toList) = some one.contentHash ∧
    ¬(mergeOf changing).Mentions twoSides.crates levels peer (before adding) "c".toList ∧
    (after adding changing).index.get (projectPath++ "c".toList) = none := by
  unfold VersionOp.Mentions
  decide +kernel

end UntrackedSample

open UntrackedSample AgreementSample AutoVersionSample

/-- A fast-forward keeps the note no version has. -/
theorem unmentioned_kept_iff_sample :
    ((mergeOf adding).run twoSides.crates levels peer (before headOfOne)).1 =
      .ok (.merge "fast_forward" (some adding.contentHash) [] 0 0) ∧
    (mergeOf adding).KeepsUnmentioned twoSides.crates levels peer (before headOfOne)
      (after headOfOne adding) := by
  obtain ⟨⟨hrun,hbehind,hhead⟩,-⟩ := evaluated_merges
  have htranscribes : (mergeOf adding).Transcribes twoSides.crates levels peer (before headOfOne) :=
    ⟨_,hhead,hbehind⟩
  rw [after]
  exact ⟨hrun,(VersionOp.unmentioned_kept_iff (eq_of_ran hrun) (.inl rfl)).mpr (.inl htranscribes)⟩

/-- The merge of the two sides takes it out of the tree. -/
theorem merge_removes_untracked :
    ((mergeOf changing).run twoSides.crates levels peer (before adding)).1 =
      .ok (.merge "merged" (some merging.contentHash) [] 2 0) ∧
    (before adding).index.get (projectPath++ "c".toList) = some one.contentHash ∧
    ¬(mergeOf changing).Mentions twoSides.crates levels peer (before adding) "c".toList ∧
    (after adding changing).index.get (projectPath++ "c".toList) = none ∧
    ¬(mergeOf changing).KeepsUnmentioned twoSides.crates levels peer (before adding)
      (after adding changing) := by
  obtain ⟨-,hrun,hlive,hmention,hgone⟩ := evaluated_merges
  refine ⟨hrun,hlive,hmention,hgone,?_⟩
  intro hkeeps
  have hkept : (after adding changing).index.get (projectPath++ "c".toList) = some one.contentHash :=
    hkeeps "c".toList _ hlive hmention (by decide +kernel)
  rw [hgone] at hkept
  cases hkept

end EntityCore
