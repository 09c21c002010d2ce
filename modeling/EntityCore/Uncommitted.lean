import EntityCore.Revert
import EntityCore.CommitTruth
import EntityCore.TrieFrame

/-! What status, checkout and commit take for uncommitted. Status compares the live tree
with the head's bindings as they are. Commit leaves out what the config excludes, and
keeps a marker for what is gone. -/
namespace EntityCore

open Ecf Outcome Strings Option Action

def revConflictsPrefix (pid ph : Str) : Str := revisionPath pid ph "/conflicts/"
def revRemotesPrefix (pid ph : Str) : Str := revisionPath pid ph "/remotes/"

structure StatusReply where
  conflicts : ℕ
  head : Option Hash
  pending : ℕ
  barePrefix : Str
  remotes : List (Str × Hash)

/-- Live paths the head binds otherwise, and paths of the head that are not live. -/
def changedPaths (current headBindings : OrderedMap Str Hash) : ℕ :=
  (current.entries.filter fun e => headBindings.get e.1 ≠ some e.2).length+
    (headBindings.entries.filter fun e => (current.get e.1).isNone).length

theorem changedPaths_eq_zero {current headBindings : OrderedMap Str Hash} :
    changedPaths current headBindings = 0 ↔ ∀ k, current.get k = headBindings.get k := by
  unfold changedPaths
  rw [Nat.add_eq_zero_iff,List.length_eq_zero_iff,List.length_eq_zero_iff,List.filter_eq_nil_iff,
    List.filter_eq_nil_iff]
  constructor
  · rintro ⟨hlive,hgone⟩ k
    cases hk : current.get k with
    | some h =>
      have hsame := hlive (k,h) ((current.mem_entries k h).mpr hk)
      simp only [decide_eq_true_eq,not_not] at hsame
      exact hsame.symm
    | none =>
      cases hb : headBindings.get k with
      | none => rfl
      | some h =>
        have hsome := hgone (k,h) ((headBindings.mem_entries k h).mpr hb)
        simp [hk] at hsome
  · intro h
    refine ⟨?_,?_⟩
    · rintro ⟨k,v⟩ he
      have hk := (current.mem_entries k v).mp he
      simp [← h k,hk]
    · rintro ⟨k,v⟩ he
      have hk := (headBindings.mem_entries k v).mp he
      simp [h k,hk]

section Operations

variable (X : Platform) (fuel : ℕ) (localPeerId barePrefix : Str)

def subtreeKeyOf : Str := prefixHash X (resolvePrefix barePrefix localPeerId)

def headOf (w : RevisionWorld) : Option Hash :=
  w.index.get (revHeadPath localPeerId (subtreeKeyOf X localPeerId barePrefix))

def liveOf (w : RevisionWorld) : OrderedMap Str Hash :=
  snapshotBindingsFromTree w.index barePrefix localPeerId

/-- A head whose bindings cannot be read counts as if nothing had changed. -/
def pendingChanges (w : RevisionWorld) : ℕ :=
  match headOf X localPeerId barePrefix w with
  | some head => match (getVersionBindings X fuel head w).1 with
    | .ok headBindings => changedPaths (liveOf localPeerId barePrefix w) headBindings
    | .error _ => 0
  | none => (liveOf localPeerId barePrefix w).entries.length

def handleStatus : Handling StatusReply := .reading fun w =>
  let ph := subtreeKeyOf X localPeerId barePrefix
  let remotesPrefix := revRemotesPrefix localPeerId ph
  .ok {
    conflicts := (w.index.list (revConflictsPrefix localPeerId ph)).length
    head := headOf X localPeerId barePrefix w
    pending := pendingChanges X fuel localPeerId barePrefix w
    barePrefix := barePrefix
    remotes := (w.index.list remotesPrefix).filterMap fun e =>
      let rest := (stripPrefix e.1 remotesPrefix).getD []
      if rest.isEmpty then none else some (rest,e.2) }

/-- The status of a prefix says that nothing is pending. -/
def NothingPending (w : RevisionWorld) : Prop :=
  ∃ reply, (handleStatus X fuel localPeerId barePrefix w).1 = .ok reply ∧ reply.pending = 0

/-- A commit would find its root recorded by the head already. -/
def Deduplicates (w : RevisionWorld) : Prop :=
  ∃ root s, commitRoot X fuel w.index barePrefix localPeerId w.store = (.ok root,s) ∧
    headRecords X s (headOf X localPeerId barePrefix w) root = true

/-- A commit answers with a version. -/
def CommitsTo (w : RevisionWorld) (version : Hash) : Prop :=
  ∃ out, (performCommit X fuel w.index barePrefix localPeerId w.store).1 = .ok out ∧
    out.versionHash = version

/-! What a commit records. -/

/-- Whether the config of the prefix keeps a binding out of versions. -/
def excludedAt (s : ContentStore) (index : MemoryLocationIndex) (k : Str) (h : Hash) : Bool :=
  (configFor X s index localPeerId (subtreeKeyOf X localPeerId barePrefix)).any
    fun cfg => cfg.excludes s k h

/-- What a commit takes from the live tree. -/
def keptAt (w : RevisionWorld) (k : Str) : Option Hash :=
  ((liveOf localPeerId barePrefix w).get k).filter
    fun h => !excludedAt X localPeerId barePrefix w.store w.index k h

/-- With the marker where only the head has a binding. -/
def recordedAt (w : RevisionWorld) (headBindings : OrderedMap Str Hash) (k : Str) : Option Hash :=
  (keptAt X localPeerId barePrefix w k).or
    (if (headBindings.get k).isSome then some (canonicalDeletionMarkerHash X) else none)

end Operations

variable {k : Str} {t s s' : ContentStore} {v h version : Hash} {m : OrderedMap Str Hash}
  {d : RevisionEntryData}

section Facts

variable {X : Platform} {fuel : ℕ} {localPeerId barePrefix : Str} {w : RevisionWorld}

theorem handleStatus_pending : (handleStatus X fuel localPeerId barePrefix w).1.toOption.map
    (·.pending) = some (pendingChanges X fuel localPeerId barePrefix w) := rfl

theorem nothingPending_iff : NothingPending X fuel localPeerId barePrefix w ↔
    pendingChanges X fuel localPeerId barePrefix w = 0 := by
  constructor
  · rintro ⟨reply,hreply,hpending⟩
    rw [← Except.ok.inj hreply] at hpending
    exact hpending
  · exact fun h => ⟨_,rfl,h⟩

theorem keptAt_eq_some : keptAt X localPeerId barePrefix w k = some h ↔
    (liveOf localPeerId barePrefix w).get k = some h ∧
      excludedAt X localPeerId barePrefix w.store w.index k h = false := by
  rw [keptAt,filter_eq_some_iff,Bool.not_eq_true']

theorem keptAt_some (hk : keptAt X localPeerId barePrefix w k = some h) :
    (liveOf localPeerId barePrefix w).get k = some h := (keptAt_eq_some.mp hk).1

theorem recordedAt_eq_iff {headBindings : OrderedMap Str Hash} :
    recordedAt X localPeerId barePrefix w headBindings k = headBindings.get k ↔
      if (keptAt X localPeerId barePrefix w k).isSome then
        (liveOf localPeerId barePrefix w).get k = headBindings.get k
      else unmarked X headBindings k = none := by
  unfold recordedAt
  cases hk : keptAt X localPeerId barePrefix w k with
  | some h =>
    rw [keptAt_some hk,some_or,isSome_some,if_pos rfl]
  | none =>
    simp only [isSome_none,Bool.false_eq_true,if_false,none_or,unmarked]
    cases headBindings.get k with
    | none => simp
    | some v =>
      by_cases hv : v = canonicalDeletionMarkerHash X
      · simp [hv]
      · simp [hv,Ne.symm hv]

theorem keptLive_get (k : Str) : (keptLive X w.index barePrefix localPeerId w.store).get k =
    keptAt X localPeerId barePrefix w k := by
  have hkey : commitKey X barePrefix localPeerId = subtreeKeyOf X localPeerId barePrefix := rfl
  unfold keptLive keptAt excludedAt
  rw [hkey]
  cases configFor X w.store w.index localPeerId (subtreeKeyOf X localPeerId barePrefix) with
  | none =>
    show (liveOf localPeerId barePrefix w).get k = _
    cases (liveOf localPeerId barePrefix w).get k <;> rfl
  | some cfg => exact get_filterBindings cfg w.store _ k

theorem commitBindings_runs {parent : OrderedMap Str Hash}
    (h : ParentBinds X fuel w.index barePrefix localPeerId w.store parent) :
    ∃ m s, commitBindings X fuel w.index barePrefix localPeerId w.store = (.ok m,s) ∧
      w.store ≤ s ∧ ((headOf X localPeerId barePrefix w).bind (versionAt X w.store) = none →
        s = w.store) ∧ ∀ k, m.get k = recordedAt X localPeerId barePrefix w parent k := by
  obtain ⟨m,s,hrun,hle,hnone,hm⟩ := commitBindings_get h
  exact ⟨m,s,hrun,hle,hnone,fun k => (by rw [hm,keptLive_get,recordedAt])⟩

theorem getVersionBindings_version (fuel : ℕ)
    (h : versionAt X w.store v = some d) : (getVersionBindings X fuel v w).1 =
      mapErr (fun e => .internal (RootTrackerEngine.failureText e))
        (collectAllBindings X w.store fuel d.root) := by
  obtain ⟨e,he,hd⟩ := bind_eq_some_iff.mp h
  unfold getVersionBindings
  rw [reading_apply,he]
  dsimp only
  rw [hd]

theorem scanEntryField_other {name : Str} (hroot : name ≠ "root".toList)
    (hparents : name ≠ "parents".toList) (acc : EntryFields) (v : Value) :
    scanEntryField acc (.text name,v) = some acc := by
  unfold scanEntryField
  show (if name = "root".toList then _ else _) = _
  rw [if_neg hroot,if_neg hparents]

theorem grows_commitRoot : Action.Grows (commitRoot X fuel w.index barePrefix localPeerId) := by
  refine Action.Grows.bind ?_ grows_buildTrie
  intro s
  unfold commitBindings
  dsimp only
  split
  · exact le_rfl
  · split
    · exact le_rfl
    · exact le_augment _ _ s

theorem getVersionBindings_fails (fuel : ℕ) (h : versionAt X w.store v = none) :
    ∃ e, (getVersionBindings X fuel v w).1 = .error e := by
  unfold versionAt at h
  unfold getVersionBindings
  rw [reading_apply]
  cases hget : w.store.get v with
  | none => exact ⟨_,rfl⟩
  | some e =>
    rw [hget,bind_some] at h
    dsimp only
    rw [h]
    exact ⟨_,rfl⟩

theorem decodeRevisionEntry_node {e : Entity} {n : SnapshotNodeData}
    (h : X.fromReader e.data = .ok n.toValue) : decodeRevisionEntry X e = none := by
  unfold decodeRevisionEntry
  rw [h]
  have hfields : ∀ v v', [(.text "map".toList,v),(.text "data".toList,v')].foldlM scanEntryField
      ⟨none,none⟩ = some ⟨none,none⟩ := by
    intro v v'
    rw [List.foldlM_cons,scanEntryField_other (by decide) (by decide),bind_eq_bind,
      bind_some,List.foldlM_cons,scanEntryField_other (by decide) (by decide)]
    rfl
  simp only [Except.toOption,SnapshotNodeData.toValue,Value.asMap,bind_eq_bind,
    bind_some,hfields,bind_none]

/-- Building a trie makes no version of a hash that was none. -/
theorem versionAt_buildTrie (ht : t.Faithful X)
    {root : Hash} (hbuild : buildTrie X m s = (.ok root,s')) (hle : s' ≤ t)
    (hv : versionAt X s v = none) : versionAt X s' v = none := by
  have hle' : (buildTrie X m (ContentStore.onto ⟨[]⟩ s)).2 ≤ t := by
    rw [ContentStore.empty_onto,hbuild]
    exact hle
  have hbuilds : Framed s ⟨[]⟩ (buildTrie X m) (Built X Set.univ) :=
    builds_buildTrie (fun _ _ => trivial) ht.readsNodes hle'
  have hframe := hbuilds.frame
  rw [ContentStore.empty_onto,hbuild] at hframe
  obtain ⟨hroot,hstore⟩ := Prod.mk.inj hframe
  have hbuilt := hbuilds.post root hroot.symm
  unfold versionAt at hv ⊢
  by_cases hhas : (buildTrie X m ⟨[]⟩).2.Has v
  · obtain ⟨e,he,-,hget⟩ := hhas.get
    rw [hstore,ContentStore.get_onto hhas,hget,bind_some]
    obtain ⟨n,hn⟩ := hbuilt.contained.made e he
    have hnew : Entity.newWithFormat X typeTreeSnapshotNode n.toEcfBytes X.defaultHashFormat =
        .ok e := hn
    have hdata : e.data = n.toEcfBytes := (Entity.newWithFormat_ok X hnew).2.1
    have hmem : e ∈ s'.puts := by
      rw [hstore]
      exact List.mem_append_left _ he
    exact decodeRevisionEntry_node (ht.decodes e (List.IsSuffix.mem hmem hle) n hdata)
  · rw [hstore,ContentStore.get_onto_of_not hhas]
    exact hv

theorem commitRoot_runs (hX : X.FormatAllocated) (ht : t.Faithful X)
    {keys : Set Str} (hspread : Spread X keys) {parent : OrderedMap Str Hash}
    (hparent : ParentBinds X fuel w.index barePrefix localPeerId w.store parent)
    (hlive : Within (liveOf localPeerId barePrefix w) keys) (hwithin : Within parent keys)
    (hle : (commitRoot X fuel w.index barePrefix localPeerId w.store).2 ≤ t) :
    ∃ m s, commitRoot X fuel w.index barePrefix localPeerId w.store = (.ok (rootHashOf X m),s) ∧
      w.store ≤ s ∧ TrieStored X s m ∧ Within m keys ∧
      (∀ k, m.get k = recordedAt X localPeerId barePrefix w parent k) ∧
      ((headOf X localPeerId barePrefix w).bind (versionAt X w.store) = none →
        (headOf X localPeerId barePrefix w).bind (versionAt X s) = none) := by
  obtain ⟨m,s₁,hbindings,hs₁,hnone,hm⟩ := commitBindings_runs hparent
  have hroot : commitRoot X fuel w.index barePrefix localPeerId w.store = buildTrie X m s₁ := by
    unfold commitRoot
    rw [bind_of_ok hbindings]
  have hwithinM : Within m keys := by
    intro e he
    have hget := (m.mem_entries e.1 e.2).mp he
    rw [hm,recordedAt] at hget
    cases hk : keptAt X localPeerId barePrefix w e.1 with
    | some h => exact hlive (e.1,h) ((OrderedMap.mem_entries _ e.1 h).mpr (keptAt_some hk))
    | none =>
      rw [hk,none_or] at hget
      split_ifs at hget with hp
      obtain ⟨v,hv⟩ := isSome_iff_exists.mp hp
      exact hwithin (e.1,v) ((parent.mem_entries e.1 v).mpr hv)
  rw [hroot] at hle
  obtain ⟨s,hbuild,htrie⟩ := buildTrie_spec hX ht hspread hwithinM hle
  have hgrow := grows_buildTrie (X := X) m s₁
  rw [hbuild] at hgrow hle
  refine ⟨m,s,hroot.trans hbuild,hs₁.trans hgrow,htrie,hwithinM,hm,fun h => ?_⟩
  obtain rfl := hnone h
  cases hhead : headOf X localPeerId barePrefix w with
  | none => rfl
  | some v =>
    rw [hhead] at h
    exact versionAt_buildTrie ht hbuild hle h

variable {keys : Set Str} {v : Hash} {m : OrderedMap Str Hash}

/-- Every key in sight is among some keys: those live and those of the versions. -/
structure KeysInSight (X : Platform) (fuel : ℕ) (localPeerId barePrefix : Str) (w : RevisionWorld)
    (keys : Set Str) : Prop where
  live : Within (liveOf localPeerId barePrefix w) keys
  versions : ∀ v d m, versionAt X w.store v = some d →
    collectAllBindings X w.store fuel d.root = .ok m → Within m keys

theorem ParentBinds.unique {a b : OrderedMap Str Hash}
    (ha : ParentBinds X fuel w.index barePrefix localPeerId w.store a)
    (hb : ParentBinds X fuel w.index barePrefix localPeerId w.store b) : a = b := by
  rcases ha with ⟨hna,rfl⟩ | ⟨d,hd,hca⟩
  · rcases hb with ⟨-,rfl⟩ | ⟨d,hd,-⟩
    · rfl
    · rw [hna] at hd
      cases hd
  · rcases hb with ⟨hnb,-⟩ | ⟨d',hd',hcb⟩
    · rw [hnb] at hd
      cases hd
    · rw [hd] at hd'
      obtain rfl := some.inj hd'
      rw [hca] at hcb
      exact Except.ok.inj hcb

theorem commitRoot_fails {e : TrieFailure}
    (hbind : (headOf X localPeerId barePrefix w).bind (versionAt X w.store) = some d)
    (hcollect : collectAllBindings X w.store fuel d.root = .error e) :
    commitRoot X fuel w.index barePrefix localPeerId w.store = (.error e,w.store) := by
  have hbind' : (w.index.get (revHeadPath localPeerId (prefixHash X
      (resolvePrefix barePrefix localPeerId)))).bind (versionAt X w.store) = some d := hbind
  have hfail : commitBindings X fuel w.index barePrefix localPeerId w.store =
      (.error e,w.store) := by
    unfold commitBindings
    dsimp only
    rw [hbind']
    dsimp only
    rw [hcollect]
  unfold commitRoot
  show andThen _ _ _ = _
  rw [andThen,hfail]

theorem CommitsTo.parentBinds (h : CommitsTo X fuel localPeerId barePrefix w v) :
    ∃ parent, ParentBinds X fuel w.index barePrefix localPeerId w.store parent := by
  obtain ⟨out,hout,-⟩ := h
  cases hbind : (headOf X localPeerId barePrefix w).bind (versionAt X w.store) with
  | none => exact ⟨_,.inl ⟨hbind,rfl⟩⟩
  | some d =>
    cases hcollect : collectAllBindings X w.store fuel d.root with
    | ok parent => exact ⟨parent,.inr ⟨d,hbind,hcollect⟩⟩
    | error e =>
      unfold performCommit at hout
      dsimp only at hout
      rw [commitRoot_fails hbind hcollect] at hout
      cases hout

theorem KeysInSight.parent (h : KeysInSight X fuel localPeerId barePrefix w keys)
    {parent : OrderedMap Str Hash} (hparent : ParentBinds X fuel w.index barePrefix localPeerId w.store parent) :
    Within parent keys := by
  rcases hparent with ⟨-,rfl⟩ | ⟨d,hd,hcollect⟩
  · intro e he
    cases he
  · obtain ⟨v,-,hv⟩ := bind_eq_some_iff.mp hd
    exact h.versions v d parent hv hcollect

/-- The version is in the store with the trie of its bindings. -/
structure WholeVersion (X : Platform) (s : ContentStore) (keys : Set Str) (v : Hash)
    (m : OrderedMap Str Hash) : Prop where
  entry : ∃ parents, versionAt X s v = some ⟨rootHashOf X m,parents⟩
  trie : TrieStored X s m
  within : Within m keys

theorem WholeVersion.mono (ht : t.Faithful X) (hst : s ≤ s') (hle : s' ≤ t)
    (h : WholeVersion X s keys v m) : WholeVersion X s' keys v m := by
  obtain ⟨parents,hentry⟩ := h.entry
  exact ⟨⟨parents,versionAt_mono ht hst hle hentry⟩,h.trie.mono hst,h.within⟩

theorem WholeVersion.collect (ht : t.Faithful X) (hspread : Spread X keys)
    (hfuel : levels ≤ fuel) (hst : s ≤ t) (h : WholeVersion X s keys v m) :
    collectAllBindings X s fuel (rootHashOf X m) = .ok m :=
  collectAllBindings_spec ht hspread hfuel hst h.within h.trie

theorem WholeVersion.reads (ht : t.Faithful X) (hspread : Spread X keys)
    (hfuel : levels ≤ fuel) (hst : w.store ≤ t) (h : WholeVersion X w.store keys v m) :
    getVersionBindings X fuel v w = (.ok m,w) := by
  obtain ⟨parents,hentry⟩ := h.entry
  exact getVersionBindings_runs hentry (h.collect ht hspread hfuel hst)

theorem WholeVersion.parentBinds (ht : t.Faithful X) (hspread : Spread X keys)
    (hfuel : levels ≤ fuel) (hst : w.store ≤ t) (h : WholeVersion X w.store keys v m)
    (hhead : headOf X localPeerId barePrefix w = some v) :
    ParentBinds X fuel w.index barePrefix localPeerId w.store m := by
  obtain ⟨parents,hentry⟩ := h.entry
  refine .inr ⟨⟨rootHashOf X m,parents⟩,?_,h.collect ht hspread hfuel hst⟩
  show (headOf X localPeerId barePrefix w).bind _ = _
  rw [hhead]
  exact hentry

/-- A version that is in the store with its trie records a root exactly if it is the root
of its bindings. -/
theorem WholeVersion.records_iff (ht : t.Faithful X) (hspread : Spread X keys)
    (hst : s ≤ s') (hle : s' ≤ t) (h : WholeVersion X s keys v m)
    {m' : OrderedMap Str Hash} (hm' : Within m' keys) (htrie : TrieStored X s' m') :
    headRecords X s' (some v) (rootHashOf X m') = true ↔ ∀ k, m'.get k = m.get k := by
  obtain ⟨parents,hentry⟩ := h.entry
  rw [headRecords,bind_some,versionAt_mono ht hst hle hentry]
  simp only [any_some,decide_eq_true_eq]
  constructor
  · intro hroot k
    rw [bindings_of_rootHash ht hspread h.within hm' ((h.trie.mono hst).mono hle)
      (htrie.mono hle) hroot]
  · intro hsame
    rw [OrderedMap.ext_get hsame]

end Facts

/-! Status and commit. -/

section Status

variable (X : Platform) (fuel : ℕ) (localPeerId barePrefix : Str) (w : RevisionWorld)
  (headBindings : OrderedMap Str Hash) (k : Str)

/-- Status counts the path and a commit records a change at it. -/
def ChangedForBoth : Prop :=
  (liveOf localPeerId barePrefix w).get k ≠ headBindings.get k ∧
    ((keptAt X localPeerId barePrefix w k).isSome ∨ (unmarked X headBindings k).isSome)

/-- Status counts the path and a commit records it as the head has it: gone already, or
live, excluded and unknown to the head. -/
def CountedOnly : Prop :=
  (liveOf localPeerId barePrefix w).get k ≠ headBindings.get k ∧
    keptAt X localPeerId barePrefix w k = none ∧ unmarked X headBindings k = none

/-- The path is live as the head binds it, and excluded by now: a commit deletes it. -/
def RecordedOnly : Prop :=
  (liveOf localPeerId barePrefix w).get k = headBindings.get k ∧
    keptAt X localPeerId barePrefix w k = none ∧ (unmarked X headBindings k).isSome

/-- Some path is changed for both, or the paths that only one of the two takes for changed
are matched by paths that only the other does. -/
def ChangesMatch : Prop :=
  (∃ k, ChangedForBoth X localPeerId barePrefix w headBindings k) ∨
    ((∃ k, CountedOnly X localPeerId barePrefix w headBindings k) ↔
      ∃ k, RecordedOnly X localPeerId barePrefix w headBindings k)

/-- A root stands for what is bound at each path. -/
def StandsFor (root : Hash) (f : Str → Option Hash) : Prop :=
  ∃ m : OrderedMap Str Hash, (∀ k, m.get k = f k) ∧ root = rootHashOf X m

/-- Without a head something is live. A head can be read, and the changes match; if the
store has only a part of its trie, the live tree is that part exactly if what a commit
records is what the head stands for. -/
def StatusAgrees : Prop :=
  (headOf X localPeerId barePrefix w = none ∧
    ∃ k, ((liveOf localPeerId barePrefix w).get k).isSome) ∨
  ∃ v d m, headOf X localPeerId barePrefix w = some v ∧ versionAt X w.store v = some d ∧
    collectAllBindings X w.store fuel d.root = .ok m ∧
    ((d.root = rootHashOf X m ∧ TrieStored X w.store m) →
      ChangesMatch X localPeerId barePrefix w m) ∧
    (¬(d.root = rootHashOf X m ∧ TrieStored X w.store m) →
      ((∀ k, (liveOf localPeerId barePrefix w).get k = m.get k) ↔
        StandsFor X d.root (recordedAt X localPeerId barePrefix w m)))

/-- Two conditions on every path come out alike exactly if some path fails both or the
paths that fail one are matched by paths that fail the other. -/
theorem forall_iff_forall_iff {α : Type} {A D : α → Prop} : ((∀ k, A k) ↔ ∀ k, D k) ↔
    (∃ k, ¬A k ∧ ¬D k) ∨ ((∃ k, ¬A k ∧ D k) ↔ ∃ k, A k ∧ ¬D k) := by
  constructor
  · intro h
    by_cases hboth : ∃ k, ¬A k ∧ ¬D k
    · exact .inl hboth
    · push Not at hboth
      refine .inr ⟨?_,?_⟩
      · rintro ⟨k,hA,-⟩
        obtain ⟨j,hj⟩ := not_forall.mp fun hD => hA (h.mpr hD k)
        exact ⟨j,not_not.mp fun hAj => hj (hboth j hAj),hj⟩
      · rintro ⟨k,-,hD⟩
        obtain ⟨j,hj⟩ := not_forall.mp fun hA => hD (h.mp hA k)
        exact ⟨j,hj,hboth j hj⟩
  · rintro (⟨k,hA,hD⟩ | h)
    · exact iff_of_false (fun hall => hA (hall k)) fun hall => hD (hall k)
    · constructor
      · intro hA k
        by_contra hD
        obtain ⟨j,hj,-⟩ := h.mpr ⟨k,hA k,hD⟩
        exact hj (hA j)
      · intro hD k
        by_contra hA
        obtain ⟨j,-,hj⟩ := h.mp ⟨k,hA,hD k⟩
        exact hj (hD j)

variable {X fuel localPeerId barePrefix w headBindings}

theorem recordedAt_of_kept {k : Str} (h : keptAt X localPeerId barePrefix w k ≠ none) :
    recordedAt X localPeerId barePrefix w headBindings k = headBindings.get k ↔
      (liveOf localPeerId barePrefix w).get k = headBindings.get k := by
  rw [recordedAt_eq_iff,if_pos (isSome_iff_ne_none.mpr h)]

theorem recordedAt_of_not_kept {k : Str} (h : keptAt X localPeerId barePrefix w k = none) :
    recordedAt X localPeerId barePrefix w headBindings k = headBindings.get k ↔
      unmarked X headBindings k = none := by
  rw [recordedAt_eq_iff,h,isSome_none,if_neg (by simp)]

theorem changedForBoth_iff {k : Str} : ChangedForBoth X localPeerId barePrefix w headBindings k ↔
    (liveOf localPeerId barePrefix w).get k ≠ headBindings.get k ∧
      recordedAt X localPeerId barePrefix w headBindings k ≠ headBindings.get k := by
  refine and_congr_right fun hlive => ?_
  by_cases hk : keptAt X localPeerId barePrefix w k = none
  · rw [hk,ne_eq,recordedAt_of_not_kept hk,isSome_none]
    simp [isSome_iff_ne_none]
  · rw [ne_eq,recordedAt_of_kept hk]
    exact iff_of_true (.inl (isSome_iff_ne_none.mpr hk)) hlive

theorem countedOnly_iff {k : Str} : CountedOnly X localPeerId barePrefix w headBindings k ↔
    (liveOf localPeerId barePrefix w).get k ≠ headBindings.get k ∧
      recordedAt X localPeerId barePrefix w headBindings k = headBindings.get k := by
  refine and_congr_right fun hlive => ?_
  by_cases hk : keptAt X localPeerId barePrefix w k = none
  · rw [recordedAt_of_not_kept hk]
    exact and_iff_right hk
  · rw [recordedAt_of_kept hk]
    exact iff_of_false (fun h => hk h.1) hlive

theorem recordedOnly_iff {k : Str} : RecordedOnly X localPeerId barePrefix w headBindings k ↔
    (liveOf localPeerId barePrefix w).get k = headBindings.get k ∧
      recordedAt X localPeerId barePrefix w headBindings k ≠ headBindings.get k := by
  refine and_congr_right fun hlive => ?_
  by_cases hk : keptAt X localPeerId barePrefix w k = none
  · rw [ne_eq,recordedAt_of_not_kept hk,isSome_iff_ne_none]
    exact and_iff_right hk
  · rw [ne_eq,recordedAt_of_kept hk]
    exact iff_of_false (fun h => hk h.1) fun h => h hlive

/-- Over a head that can be read a commit deduplicates exactly if the head stands for what
it records. -/
theorem deduplicates_iff (hX : X.FormatAllocated) {keys : Set Str} (hspread : Spread X keys)
    (hsight : KeysInSight X fuel localPeerId barePrefix w keys)
    (hkeeps : (performCommit X fuel w.index barePrefix localPeerId w.store).2.1.KeepsVersions X)
    (hhead : headOf X localPeerId barePrefix w = some v) (hversion : versionAt X w.store v = some d)
    (hcollect : collectAllBindings X w.store fuel d.root = .ok m) :
    (Deduplicates X fuel localPeerId barePrefix w ↔
      StandsFor X d.root (recordedAt X localPeerId barePrefix w m)) ∧
    (d.root = rootHashOf X m ∧ TrieStored X w.store m →
      (Deduplicates X fuel localPeerId barePrefix w ↔
        ∀ k, recordedAt X localPeerId barePrefix w m k = m.get k)) := by
  have ht := hkeeps.faithful
  have hle : (commitRoot X fuel w.index barePrefix localPeerId w.store).2 ≤
      (performCommit X fuel w.index barePrefix localPeerId w.store).2.1 := commitRoot_le_performCommit
  have hbind : (headOf X localPeerId barePrefix w).bind (versionAt X w.store) = some d := by
    rw [hhead]
    exact hversion
  have hparent : ParentBinds X fuel w.index barePrefix localPeerId w.store m := .inr ⟨d,hbind,hcollect⟩
  obtain ⟨m',s,hroot,hs,htrie,hwithin,hm',-⟩ := commitRoot_runs hX ht hspread hparent hsight.live
    (hsight.parent hparent) hle
  rw [hroot] at hle
  have hdedup : Deduplicates X fuel localPeerId barePrefix w ↔
      headRecords X s (some v) (rootHashOf X m') = true := by
    constructor
    · rintro ⟨root,s',hroot',hrec⟩
      rw [hroot] at hroot'
      obtain ⟨hrootEq,rfl⟩ := Prod.mk.inj hroot'
      rw [Except.ok.inj hrootEq,← hhead]
      exact hrec
    · intro hrec
      exact ⟨_,s,hroot,by rw [hhead]; exact hrec⟩
  refine ⟨?_,?_⟩
  · rw [hdedup,headRecords,bind_some,versionAt_mono ht hs hle hversion]
    simp only [any_some,decide_eq_true_eq]
    constructor
    · exact fun h => ⟨m',hm',h⟩
    · rintro ⟨m'',hm'',h⟩
      rw [h,OrderedMap.ext_get fun k => (hm'' k).trans (hm' k).symm]
  · rintro ⟨hd,hstored⟩
    have hwhole : WholeVersion X w.store keys v m :=
      ⟨⟨d.parents,by rw [hversion,← hd]⟩,hstored,hsight.parent hparent⟩
    have hrecords := hwhole.records_iff ht hspread hs hle hwithin htrie
    simp only [hm'] at hrecords
    rw [hdedup,hrecords]

/-- Over a head that cannot be read a commit never deduplicates. -/
theorem not_deduplicates (hX : X.FormatAllocated) {keys : Set Str} (hspread : Spread X keys)
    (hsight : KeysInSight X fuel localPeerId barePrefix w keys)
    (hkeeps : (performCommit X fuel w.index barePrefix localPeerId w.store).2.1.KeepsVersions X)
    (hbind : ∀ d, (headOf X localPeerId barePrefix w).bind (versionAt X w.store) = some d →
      ∃ e, collectAllBindings X w.store fuel d.root = .error e) :
    ¬Deduplicates X fuel localPeerId barePrefix w := by
  rintro ⟨root,s,hroot,hrec⟩
  cases hd : (headOf X localPeerId barePrefix w).bind (versionAt X w.store) with
  | none =>
    obtain ⟨m,s',hroot',-,-,-,-,hnone⟩ := commitRoot_runs hX hkeeps.faithful hspread
      (.inl ⟨hd,rfl⟩) hsight.live (fun e he => by cases he) commitRoot_le_performCommit
    rw [hroot] at hroot'
    obtain ⟨-,rfl⟩ := Prod.mk.inj hroot'
    rw [headRecords,hnone hd] at hrec
    cases hrec
  | some d =>
    obtain ⟨e,he⟩ := hbind d hd
    rw [commitRoot_fails hd he] at hroot
    cases (Prod.mk.inj hroot).1

/-- Status reports nothing pending exactly when a commit would deduplicate, in the states
described and no others. -/
theorem status_agrees_iff (hX : X.FormatAllocated) {keys : Set Str} (hspread : Spread X keys)
    (hsight : KeysInSight X fuel localPeerId barePrefix w keys)
    (hkeeps : (performCommit X fuel w.index barePrefix localPeerId w.store).2.1.KeepsVersions X) :
    (NothingPending X fuel localPeerId barePrefix w ↔ Deduplicates X fuel localPeerId barePrefix w) ↔
      StatusAgrees X fuel localPeerId barePrefix w := by
  rw [nothingPending_iff]
  unfold pendingChanges StatusAgrees
  cases hhead : headOf X localPeerId barePrefix w with
  | none =>
    rw [iff_false_right (not_deduplicates hX hspread hsight hkeeps (by rw [hhead]; nofun))]
    constructor
    · intro hlen
      obtain ⟨e,he⟩ := List.exists_mem_of_length_pos (Nat.pos_of_ne_zero hlen)
      refine .inl ⟨rfl,e.1,?_⟩
      rw [(OrderedMap.mem_entries _ e.1 e.2).mp he]
      rfl
    · rintro (⟨-,k,hk⟩ | ⟨v,d,m,hv,-⟩) hlen
      · obtain ⟨h,hh⟩ := isSome_iff_exists.mp hk
        have hmem := (OrderedMap.mem_entries _ k h).mpr hh
        rw [List.length_eq_zero_iff.mp hlen] at hmem
        cases hmem
      · cases hv
  | some v =>
    dsimp only
    -- status takes a head that cannot be read for unchanged, and a commit goes on from it
    cases hversion : versionAt X w.store v with
    | none =>
      obtain ⟨e,he⟩ := getVersionBindings_fails fuel hversion
      rw [he,iff_false_right (not_deduplicates hX hspread hsight hkeeps fun d hd => ?_)]
      · refine iff_of_false (fun h => h rfl) ?_
        rintro (⟨h,-⟩ | ⟨v',d,m,hv,hd,-⟩)
        · cases h
        · rw [← some.inj hv,hversion] at hd
          cases hd
      · rw [hhead,bind_some,hversion] at hd
        cases hd
    | some d =>
      have hread := getVersionBindings_version fuel hversion
      cases hcollect : collectAllBindings X w.store fuel d.root with
      | error e =>
        rw [hcollect] at hread
        rw [hread,iff_false_right (not_deduplicates hX hspread hsight hkeeps fun d' hd => ?_)]
        · refine iff_of_false (fun h => h rfl) ?_
          rintro (⟨h,-⟩ | ⟨v',d',m,hv,hd,hm,-⟩)
          · cases h
          · rw [← some.inj hv,hversion] at hd
            rw [← some.inj hd,hcollect] at hm
            cases hm
        · rw [hhead,bind_some,hversion] at hd
          exact ⟨e,some.inj hd ▸ hcollect⟩
      | ok m =>
        rw [hcollect] at hread
        obtain ⟨hstands,hsame⟩ := deduplicates_iff hX hspread hsight hkeeps hhead hversion hcollect
        rw [hread]
        show (changedPaths (liveOf localPeerId barePrefix w) m = 0 ↔ _) ↔ _
        rw [changedPaths_eq_zero]
        have hmatch : d.root = rootHashOf X m ∧ TrieStored X w.store m →
            (((∀ k, (liveOf localPeerId barePrefix w).get k = m.get k) ↔
              Deduplicates X fuel localPeerId barePrefix w) ↔
              ChangesMatch X localPeerId barePrefix w m) := by
          intro hwhole
          rw [hsame hwhole,forall_iff_forall_iff]
          simp only [← ne_eq,← changedForBoth_iff,← countedOnly_iff,← recordedOnly_iff]
          exact Iff.rfl
        constructor
        · intro h
          exact .inr ⟨v,d,m,rfl,hversion,hcollect,fun hwhole => (hmatch hwhole).mp h,
            fun _ => h.trans hstands⟩
        · rintro (⟨h,-⟩ | ⟨v',d',m',hv,hd,hm,hwhole,hpart⟩)
          · cases h
          · obtain rfl := some.inj hv
            rw [hversion] at hd
            obtain rfl := some.inj hd
            rw [hcollect] at hm
            obtain rfl := Except.ok.inj hm
            by_cases h : d.root = rootHashOf X m ∧ TrieStored X w.store m
            · exact (hmatch h).mpr (hwhole h)
            · exact (hpart h).trans hstands.symm

end Status

/-! Commit over a state. -/

section Commit

variable {X : Platform} {fuel : ℕ} {localPeerId barePrefix : Str} {w : RevisionWorld}
  {keys : Set Str} {v : Hash} {m : OrderedMap Str Hash}

/-- A commit that answers with a version that was there records what that version binds. -/
theorem CommitsTo.records (hX : X.FormatAllocated) (hspread : Spread X keys)
    (hsight : KeysInSight X fuel localPeerId barePrefix w keys)
    (hkeeps : (performCommit X fuel w.index barePrefix localPeerId w.store).2.1.KeepsVersions X)
    (hv : WholeVersion X w.store keys v m) (h : CommitsTo X fuel localPeerId barePrefix w v) :
    ∃ parent, ParentBinds X fuel w.index barePrefix localPeerId w.store parent ∧
      ∀ k, recordedAt X localPeerId barePrefix w parent k = m.get k := by
  have ht := hkeeps.faithful
  obtain ⟨parent,hparent⟩ := h.parentBinds
  obtain ⟨m',s,hroot,hs,htrie,hwithin,hm',-⟩ := commitRoot_runs hX ht hspread hparent hsight.live
    (hsight.parent hparent) commitRoot_le_performCommit
  have hle : s ≤ (performCommit X fuel w.index barePrefix localPeerId w.store).2.1 := by
    have hle' : (commitRoot X fuel w.index barePrefix localPeerId w.store).2 ≤
        (performCommit X fuel w.index barePrefix localPeerId w.store).2.1 :=
      commitRoot_le_performCommit
    rwa [hroot] at hle'
  refine ⟨parent,hparent,fun k => ?_⟩
  rw [← hm' k]
  obtain ⟨out,hout,rfl⟩ := h
  obtain ⟨out',hout',-,hdedup,hnew⟩ := performCommit_cases hX rfl hroot
  rw [hout] at hout'
  obtain rfl := Except.ok.inj hout'
  cases hrec : headRecords X s (w.index.get (revHeadPath localPeerId
      (prefixHash X (resolvePrefix barePrefix localPeerId)))) (rootHashOf X m') with
  | true =>
    rw [hdedup hrec] at hrec
    exact (hv.records_iff ht hspread hs hle hwithin htrie).mp hrec k
  | false =>
    -- a new version of this hash would be the old one
    obtain ⟨e,he,hhash,hfinal⟩ := hnew hrec
    have hmade := versionAt_put hkeeps le_rfl he (by rw [hfinal]; exact List.mem_cons_self)
    obtain ⟨parents,hentry⟩ := hv.entry
    rw [← hhash,versionAt_mono ht (hs.trans hle) le_rfl hentry] at hmade
    have hroots := congrArg RevisionEntryData.root (some.inj hmade)
    rw [bindings_of_rootHash ht hspread hv.within hwithin (hv.trie.mono (hs.trans hle))
      (htrie.mono hle) hroots]

/-- Over a head that is a version a commit answers with it exactly if it records what it
binds. -/
theorem commitsTo_head_iff (hX : X.FormatAllocated) (hfuel : levels ≤ fuel)
    (hspread : Spread X keys) (hsight : KeysInSight X fuel localPeerId barePrefix w keys)
    (hkeeps : (performCommit X fuel w.index barePrefix localPeerId w.store).2.1.KeepsVersions X)
    (hv : WholeVersion X w.store keys v m) (hhead : headOf X localPeerId barePrefix w = some v) :
    CommitsTo X fuel localPeerId barePrefix w v ↔
      ∀ k, recordedAt X localPeerId barePrefix w m k = m.get k := by
  have ht := hkeeps.faithful
  have hle : (commitRoot X fuel w.index barePrefix localPeerId w.store).2 ≤
      (performCommit X fuel w.index barePrefix localPeerId w.store).2.1 := commitRoot_le_performCommit
  have hparent : ParentBinds X fuel w.index barePrefix localPeerId w.store m :=
    hv.parentBinds ht hspread hfuel ((grows_commitRoot w.store).trans hle) hhead
  constructor
  · intro h
    obtain ⟨parent,hparent',hrecorded⟩ := h.records hX hspread hsight hkeeps hv
    obtain rfl := hparent.unique hparent'
    exact hrecorded
  · intro h
    obtain ⟨m',s,hroot,hs,htrie,hwithin,hm',-⟩ := commitRoot_runs hX ht hspread hparent hsight.live
      hv.within hle
    obtain ⟨out,hout,-,hdedup,-⟩ := performCommit_cases hX hhead hroot
    rw [hroot] at hle
    have hrec := (hv.records_iff ht hspread hs hle hwithin htrie).mpr fun k => (hm' k).trans (h k)
    exact ⟨out,hout,(some.inj (hdedup hrec)).symm⟩

end Commit

/-! Checkout and commit. -/

section Checkout

variable (X : Platform) (fuel : ℕ) (localPeerId : Str)

/-- The head and the active branch moved to a version, before its bindings are brought
into the tree. -/
def pointedTo (barePrefix : Str) (version : Hash) (branch : Option Str) (w : RevisionWorld) :
    RevisionWorld :=
  let ph := subtreeKeyOf X localPeerId barePrefix
  let moved := (setPath (revHeadPath localPeerId ph) version w).2
  match branch with
  | some name => (setActiveBranch X localPeerId ph name moved).2
  | none => (removePath (revActiveBranchPath localPeerId ph) moved).2

/-- The path below the prefix is not listed. -/
def hiddenAt (barePrefix k : Str) : Bool :=
  startsWith (qualifyTreePrefix barePrefix localPeerId++k)
    ('/'::localPeerId++ "/system/revision/".toList) || k.isEmpty

/-- What the tree shows at a path once the bindings of a version are brought into it. -/
def broughtIn (barePrefix : Str) (committed target : OrderedMap Str Hash) (w : RevisionWorld)
    (k : Str) : Option Hash :=
  if hiddenAt localPeerId barePrefix k then none
  else match unmarked X target k with
    | some v => if pathIsStorable (qualifyTreePrefix barePrefix localPeerId++k) then some v
      else (liveOf localPeerId barePrefix w).get k
    | none => if (committed.get k).isSome then none else (liveOf localPeerId barePrefix w).get k

variable {X fuel localPeerId} {barePrefix : Str} {w w' : RevisionWorld}
  {committed target : OrderedMap Str Hash}

theorem pointedTo_sameBut (version : Hash) (branch : Option Str) :
    SameBut localPeerId (subtreeKeyOf X localPeerId barePrefix) w.index
      (pointedTo X localPeerId barePrefix version branch w).index := by
  have hhead := (SameBut.refl (a := w.index)).set
    (ownRecord_head localPeerId (subtreeKeyOf X localPeerId barePrefix)) version
  cases branch with
  | none => exact hhead.remove (ownRecord_activeBranch localPeerId _)
  | some name =>
    unfold pointedTo setActiveBranch
    dsimp only [modify_apply]
    split
    · exact hhead.set (ownRecord_activeBranch localPeerId _) _
    · exact hhead

theorem get_liveOf (k : Str) : (liveOf localPeerId barePrefix w).get k =
    if hiddenAt localPeerId barePrefix k then none
    else w.index.get (qualifyTreePrefix barePrefix localPeerId++k) :=
  get_snapshotBindingsFromTree w.index barePrefix localPeerId k

theorem get_liveOf_diff {w₁ : RevisionWorld} {u : Unit}
    (hsame : SameBut localPeerId (subtreeKeyOf X localPeerId barePrefix) w.index w₁.index)
    (hrun : applySnapshotDiff X localPeerId barePrefix committed target w₁ = (.ok u,w')) (k : Str) :
    (liveOf localPeerId barePrefix w').get k =
      broughtIn X localPeerId barePrefix committed target w k := by
  rw [get_liveOf,broughtIn]
  cases hhidden : hiddenAt localPeerId barePrefix k with
  | true => rfl
  | false =>
    have hbefore : w₁.index.get (qualifyTreePrefix barePrefix localPeerId++k) =
        (liveOf localPeerId barePrefix w).get k := by
      rw [get_liveOf,hhidden]
      apply hsame
      apply not_ownRecord_of_listed
      exact (Bool.or_eq_false_iff.mp hhidden).1
    simp only [Bool.false_eq_true,if_false]
    cases htarget : target.get k with
    | none => rw [get_applySnapshotDiff X _ _ _ hrun htarget,hbefore,unmarked_of_none htarget]
    | some v =>
      rw [get_applySnapshotDiff_bound _ _ _ hrun htarget,hbefore]
      by_cases hv : v = canonicalDeletionMarkerHash X
      · rw [if_pos hv,unmarked_of_marker (hv ▸ htarget)]
      · rw [if_neg hv,unmarked_of_entity htarget hv]

/-- A path that is none of those below the prefix is left alone. -/
theorem get_diff_elsewhere {u : Unit} {p : Str}
    (hrun : applySnapshotDiff X localPeerId barePrefix committed target w = (.ok u,w'))
    (hp : ∀ k, (committed.get k).isSome ∨ (unmarked X target k).isSome →
      qualifyTreePrefix barePrefix localPeerId++k ≠ p) : w'.index.get p = w.index.get p := by
  by_cases hbelow : ∃ k, qualifyTreePrefix barePrefix localPeerId++k = p
  · obtain ⟨k,rfl⟩ := hbelow
    have hneither := not_or.mp fun h => hp k h rfl
    rw [Bool.not_eq_true,isSome_eq_false_iff,isNone_iff_eq_none,Bool.not_eq_true,
      isSome_eq_false_iff,isNone_iff_eq_none] at hneither
    cases htarget : target.get k with
    | none =>
      rw [get_applySnapshotDiff X _ _ _ hrun htarget,hneither.1,if_neg (by simp)]
    | some v =>
      have hv : v = canonicalDeletionMarkerHash X := by
        by_contra hv
        rw [unmarked_of_entity htarget hv] at hneither
        cases hneither.2
      rw [get_applySnapshotDiff_bound _ _ _ hrun htarget,if_pos hv,hneither.1,if_neg (by simp)]
  · obtain rfl : _ = w' := (Prod.mk.inj hrun).2
    dsimp only
    have hset := get_foldl_set (qualifyTreePrefix barePrefix localPeerId)
      (fun h => decide (h = canonicalDeletionMarkerHash X)) target.entries
      ((keysOf committed).foldl (fun (index : MemoryLocationIndex) relPath =>
        if unbinds X target relPath then
          (index.remove (qualifyTreePrefix barePrefix localPeerId++relPath)).2 else index) w.index)
      fun e _ he => hbelow ⟨e.1,he⟩
    simp only [decide_eq_true_eq] at hset
    rw [hset,get_foldl_remove,if_neg]
    rintro ⟨k,-,-,hk⟩
    exact hbelow ⟨k,hk⟩

/-- What a checkout that goes through does: it moves the head and brings in the target
over what the old head has. -/
theorem checkout_steps {p : CheckoutParams} {finalHead : Hash} {branch : Option Str}
    {noted uncommitted : Bool} (hrun : handleCheckout X fuel localPeerId p w =
      (.ok (.checkout finalHead version branch noted uncommitted),w')) : ∃ committed target u,
      committedHeadBindings X fuel localPeerId (subtreeKeyOf X localPeerId p.barePrefix) w =
        (.ok committed,w) ∧ getVersionBindings X fuel version w = (.ok target,w) ∧
      applySnapshotDiff X localPeerId p.barePrefix committed target
        (pointedTo X localPeerId p.barePrefix version branch w) = (.ok u,w') := by
  unfold handleCheckout at hrun
  obtain ⟨⟨found,onBranch⟩,w₁,hfound,hrest⟩ := bind_eq_ok.mp hrun
  obtain ⟨config,w₂,hconfig,hrest₂⟩ := bind_eq_ok.mp hrest
  obtain ⟨-,rfl⟩ := reading_eq_ok.mp hfound
  obtain ⟨-,rfl⟩ := reading_eq_ok.mp hconfig
  dsimp only at hrest₂
  split_ifs at hrest₂ with hdeny
  · cases Except.ok.inj (Prod.mk.inj hrest₂).1
  · obtain ⟨target,w₃,htarget,hrest₃⟩ := bind_eq_ok.mp hrest₂
    obtain ⟨live,w₄,hlive,hrest₄⟩ := bind_eq_ok.mp hrest₃
    obtain ⟨committed,w₅,hcommitted,hrest₅⟩ := bind_eq_ok.mp hrest₄
    obtain ⟨_,w₆,hset,hrest₆⟩ := bind_eq_ok.mp hrest₅
    obtain ⟨rfl,-⟩ := VersionOp.getVersionBindings_eq htarget
    obtain ⟨-,rfl⟩ := reading_eq_ok.mp hlive
    obtain ⟨-,rfl⟩ := reading_eq_ok.mp hcommitted
    obtain rfl := (Prod.mk.inj hset).2
    -- the active branch is cleared or set, and the rest runs alike
    cases onBranch
    all_goals
      obtain ⟨_,w₇,hmoved,hrest₇⟩ := bind_eq_ok.mp hrest₆
      obtain ⟨u,w₈,hdiff,hrest₈⟩ := bind_eq_ok.mp hrest₇
      obtain ⟨_,w₉,hfinal,hreply⟩ := bind_eq_ok.mp hrest₈
      obtain ⟨-,rfl⟩ := reading_eq_ok.mp hfinal
      obtain ⟨hanswer,rfl⟩ := Prod.mk.inj hreply
      obtain rfl := (Prod.mk.inj hmoved).2
      have hfields := Except.ok.inj hanswer
      rw [RevisionReply.checkout.injEq] at hfields
      obtain ⟨-,rfl,rfl,-,-⟩ := hfields
      exact ⟨committed,target,u,hcommitted,htarget,hdiff⟩

/-- From a state without pending changes nothing live is missing from the committed
bindings unless the head cannot be read, and they bind nothing that is not listed. -/
theorem committed_of_nothingPending (hpending : NothingPending X fuel localPeerId barePrefix w)
    (hcommitted : committedHeadBindings X fuel localPeerId (subtreeKeyOf X localPeerId barePrefix) w =
      (.ok committed,w)) :
    (∀ k h, (liveOf localPeerId barePrefix w).get k = some h → committed.get k = none →
      ∃ v e, headOf X localPeerId barePrefix w = some v ∧
        (getVersionBindings X fuel v w).1 = .error e) ∧
    ∀ k, hiddenAt localPeerId barePrefix k = true → committed.get k = none := by
  have hread := (reading_eq_ok.mp hcommitted).1
  have hpending' := nothingPending_iff.mp hpending
  unfold pendingChanges at hpending'
  cases hhead : headOf X localPeerId barePrefix w with
  | none =>
    rw [show w.index.get _ = none from hhead] at hread
    obtain rfl := Except.ok.inj hread
    rw [hhead] at hpending'
    refine ⟨fun k h hk => ?_,fun k _ => rfl⟩
    have hmem := (OrderedMap.mem_entries _ k h).mpr hk
    rw [List.length_eq_zero_iff.mp hpending'] at hmem
    cases hmem
  | some v =>
    rw [show w.index.get _ = some v from hhead] at hread
    rw [hhead] at hpending'
    dsimp only at hread hpending'
    cases hbindings : (getVersionBindings X fuel v w).1 with
    | ok m =>
      rw [hbindings] at hread hpending'
      obtain rfl : m = committed := Except.ok.inj hread
      have hsame := changedPaths_eq_zero.mp hpending'
      refine ⟨fun k h hk hnone => ?_,fun k hk => ?_⟩
      · rw [hsame k,hnone] at hk
        cases hk
      · rw [← hsame k,get_liveOf,if_pos hk]
    | error e =>
      rw [hbindings] at hread
      obtain rfl : OrderedMap.empty = committed := Except.ok.inj hread
      exact ⟨fun _ _ _ _ => ⟨v,e,rfl,hbindings⟩,fun _ _ => rfl⟩

theorem pointedTo_head {branch : Option Str}
    (hpid : pathIsStorable (revHeadPath localPeerId (subtreeKeyOf X localPeerId barePrefix)) =
      true) :
    headOf X localPeerId barePrefix (pointedTo X localPeerId barePrefix version branch w) =
      some version := by
  have hset : (w.index.set (revHeadPath localPeerId (subtreeKeyOf X localPeerId barePrefix))
      version).get (revHeadPath localPeerId (subtreeKeyOf X localPeerId barePrefix)) =
      some version := by
    rw [MemoryLocationIndex.get_set,if_pos ⟨rfl,hpid⟩]
  have hne : revHeadPath localPeerId (subtreeKeyOf X localPeerId barePrefix) ≠
      revActiveBranchPath localPeerId (subtreeKeyOf X localPeerId barePrefix) := by
    intro he
    have htail := List.append_cancel_left he
    revert htail
    decide
  unfold headOf
  cases branch with
  | none =>
    show (OrderedMap.erase _ _).get _ = _
    rw [OrderedMap.get_erase,if_neg hne]
    exact hset
  | some name =>
    unfold pointedTo setActiveBranch
    dsimp only [modify_apply]
    split
    · show ((w.index.set _ version).set _ _).get _ = _
      rw [MemoryLocationIndex.get_set,if_neg fun h => hne h.1]
      exact hset
    · exact hset

/-- Bringing in a version that binds nothing unlisted leaves the records as they are. -/
theorem get_diff_record {u : Unit}
    (hrun : applySnapshotDiff X localPeerId barePrefix committed target w = (.ok u,w'))
    (hcommitted : ∀ k, hiddenAt localPeerId barePrefix k = true → committed.get k = none)
    (htarget : ∀ k, hiddenAt localPeerId barePrefix k = true → unmarked X target k = none)
    (ph : Str) (rest : String) : w'.index.get (revisionPath localPeerId ph rest) =
      w.index.get (revisionPath localPeerId ph rest) := by
  apply get_diff_elsewhere hrun
  rintro k hk hp
  have hhidden : hiddenAt localPeerId barePrefix k = true := by
    unfold hiddenAt
    rw [hp,revisionPath,List.append_assoc,Bool.or_eq_true]
    exact .inl ((startsWith_iff _ _).mpr (List.prefix_append _ _))
  rw [hcommitted k hhidden,htarget k hhidden] at hk
  simp at hk

theorem le_pointedTo (version : Hash) (branch : Option Str) :
    w.store ≤ (pointedTo X localPeerId barePrefix version branch w).store := by
  cases branch with
  | none => exact le_rfl
  | some name =>
    unfold pointedTo setActiveBranch
    dsimp only [modify_apply]
    split
    · exact List.suffix_cons _ _
    · exact le_rfl

/-- Whatever the version binds to an entity the tree can hold and list, or has already,
and the config does not exclude it. If the head cannot be read, the config excludes
whatever else is live. -/
structure CheckoutAgrees (X : Platform) (fuel : ℕ) (localPeerId barePrefix : Str) (version : Hash)
    (branch : Option Str) (target : OrderedMap Str Hash) (w : RevisionWorld) : Prop where
  bound : ∀ k v, unmarked X target k = some v →
    (treeTakes localPeerId barePrefix k = true ∨ (liveOf localPeerId barePrefix w).get k = some v) ∧
      excludedAt X localPeerId barePrefix (pointedTo X localPeerId barePrefix version branch w).store
        (pointedTo X localPeerId barePrefix version branch w).index k v = false
  clean : ∀ v e, headOf X localPeerId barePrefix w = some v →
    (getVersionBindings X fuel v w).1 = .error e → ∀ k h,
      (liveOf localPeerId barePrefix w).get k = some h → unmarked X target k = none →
      target.get k ≠ some h →
      excludedAt X localPeerId barePrefix (pointedTo X localPeerId barePrefix version branch w).store
        (pointedTo X localPeerId barePrefix version branch w).index k h = true

theorem treeTakes_iff : treeTakes localPeerId barePrefix k = true ↔
    pathIsStorable (qualifyTreePrefix barePrefix localPeerId++k) = true ∧
      hiddenAt localPeerId barePrefix k = false := by
  show (pathIsStorable _ && !hiddenAt localPeerId barePrefix k) = true ↔ _
  rw [Bool.and_eq_true,Bool.not_eq_true']

theorem liveOf_hidden (h : hiddenAt localPeerId barePrefix k = true) :
    (liveOf localPeerId barePrefix w).get k = none := by
  rw [get_liveOf,if_pos h]

/-- What is brought in for a bound path. -/
theorem broughtIn_entity (hk : unmarked X target k = some v) :
    broughtIn X localPeerId barePrefix committed target w k = some v ↔
      treeTakes localPeerId barePrefix k = true ∨
        (liveOf localPeerId barePrefix w).get k = some v := by
  rw [broughtIn,treeTakes_iff,hk]
  cases hhidden : hiddenAt localPeerId barePrefix k with
  | true =>
    rw [liveOf_hidden hhidden]
    simp
  | false =>
    cases pathIsStorable (qualifyTreePrefix barePrefix localPeerId++k) <;> simp

/-- At another path what was live stays, if it was not committed. -/
theorem broughtIn_other (hk : unmarked X target k = none) :
    broughtIn X localPeerId barePrefix committed target w k = some h ↔
      committed.get k = none ∧ (liveOf localPeerId barePrefix w).get k = some h := by
  rw [broughtIn,hk]
  cases hhidden : hiddenAt localPeerId barePrefix k with
  | true =>
    rw [liveOf_hidden hhidden]
    simp
  | false => cases committed.get k <;> simp

theorem committed_of_unreadable {e : HandlerError} (hv : headOf X localPeerId barePrefix w = some v)
    (he : (getVersionBindings X fuel v w).1 = .error e)
    (hcommitted : committedHeadBindings X fuel localPeerId (subtreeKeyOf X localPeerId barePrefix) w =
      (.ok committed,w)) : committed = .empty := by
  have hread := (reading_eq_ok.mp hcommitted).1
  rw [show w.index.get _ = some v from hv] at hread
  dsimp only at hread
  rw [he] at hread
  exact (Except.ok.inj hread).symm

/-- A commit after a checkout from a state without pending changes answers with the
version checked out, if the version and the state are as described and only then. -/
theorem checkout_agrees_iff (hX : X.FormatAllocated) (hfuel : levels ≤ fuel) {p : CheckoutParams}
    {finalHead version : Hash} {branch : Option Str} {noted uncommitted : Bool}
    (hrun : handleCheckout X fuel localPeerId p w =
      (.ok (.checkout finalHead version branch noted uncommitted),w'))
    (hpid : pathIsStorable (revHeadPath localPeerId (subtreeKeyOf X localPeerId p.barePrefix)) = true)
    (hpending : NothingPending X fuel localPeerId p.barePrefix w) {keys : Set Str}
    (hspread : Spread X keys) (hsight : KeysInSight X fuel localPeerId p.barePrefix w' keys)
    (hkeeps : (performCommit X fuel w'.index p.barePrefix localPeerId w'.store).2.1.KeepsVersions X)
    (hwhole : WholeVersion X w.store keys version target) :
    CommitsTo X fuel localPeerId p.barePrefix w' version ↔
      CheckoutAgrees X fuel localPeerId p.barePrefix version branch target w := by
  obtain ⟨committed,target',u,hcommitted,htarget,hdiff⟩ := checkout_steps hrun
  have ht := hkeeps.faithful
  have hstore : w'.store = (pointedTo X localPeerId p.barePrefix version branch w).store := by
    obtain rfl : _ = w' := (Prod.mk.inj hdiff).2
    rfl
  have hgrown : w.store ≤ w'.store := hstore ▸ le_pointedTo version branch
  have hle : w'.store ≤ (performCommit X fuel w'.index p.barePrefix localPeerId w'.store).2.1 :=
    (grows_commitRoot w'.store).trans commitRoot_le_performCommit
  rw [hwhole.reads ht hspread hfuel (hgrown.trans hle)] at htarget
  obtain rfl := Except.ok.inj (Prod.mk.inj htarget).1
  obtain ⟨hleft,hlisted⟩ := committed_of_nothingPending hpending hcommitted
  have hlive := get_liveOf_diff (pointedTo_sameBut version branch) hdiff
  have hwhole' := hwhole.mono ht hgrown hle
  by_cases hunlisted : ∃ k v, unmarked X target k = some v ∧
      hiddenAt localPeerId p.barePrefix k = true
  · obtain ⟨k,v,hk,hhidden⟩ := hunlisted
    refine iff_of_false (fun hcommits => ?_) fun hagrees => ?_
    · -- what is not listed a commit records as deleted at most
      obtain ⟨parent,-,hrecorded⟩ := hcommits.records hX hspread hsight hkeeps hwhole'
      obtain ⟨hget,hentity⟩ := unmarked_eq_some.mp hk
      have hkept : keptAt X localPeerId p.barePrefix w' k = none := by
        rw [keptAt,liveOf_hidden hhidden]
        rfl
      have hbound := hrecorded k
      rw [hget,recordedAt,hkept,none_or] at hbound
      split_ifs at hbound
      exact hentity (some.inj hbound).symm
    · rcases (hagrees.bound k v hk).1 with htakes | hsame
      · rw [(treeTakes_iff.mp htakes).2] at hhidden
        cases hhidden
      · rw [liveOf_hidden hhidden] at hsame
        cases hsame
  · have hnone : ∀ k, hiddenAt localPeerId p.barePrefix k = true → unmarked X target k = none := by
      intro k hk
      by_contra hne
      obtain ⟨v,hv⟩ := ne_none_iff_exists'.mp hne
      exact hunlisted ⟨k,v,hv,hk⟩
    have hrecord := get_diff_record hdiff hlisted hnone
    have hhead : headOf X localPeerId p.barePrefix w' = some version :=
      (hrecord _ "/head").trans (pointedTo_head hpid)
    have hexcluded : ∀ k h, excludedAt X localPeerId p.barePrefix w'.store w'.index k h =
        excludedAt X localPeerId p.barePrefix
          (pointedTo X localPeerId p.barePrefix version branch w).store
          (pointedTo X localPeerId p.barePrefix version branch w).index k h := by
      intro k h
      have hconfig := hrecord (subtreeKeyOf X localPeerId p.barePrefix) "/config"
      unfold excludedAt configFor revConfigPath
      rw [hconfig,hstore]
    rw [commitsTo_head_iff hX hfuel hspread hsight hkeeps hwhole' hhead]
    constructor
    · intro hall
      refine ⟨fun k v hk => ?_,fun v e hv he k h hk hgone hother => ?_⟩
      · have hsome : keptAt X localPeerId p.barePrefix w' k ≠ none := by
          intro hkept
          rw [(recordedAt_of_not_kept hkept).mp (hall k)] at hk
          cases hk
        have hsame := (recordedAt_of_kept hsome).mp (hall k)
        obtain ⟨h,hkept⟩ := ne_none_iff_exists'.mp hsome
        obtain ⟨hshown,hkeeps⟩ := keptAt_eq_some.mp hkept
        rw [hshown,(unmarked_eq_some.mp hk).1] at hsame
        obtain rfl := some.inj hsame
        rw [hlive] at hshown
        exact ⟨(broughtIn_entity hk).mp hshown,(hexcluded k h).symm.trans hkeeps⟩
      · -- nothing is committed, so the path stays live
        by_contra hkeeps
        rw [Bool.not_eq_true,← hexcluded] at hkeeps
        have hshown : (liveOf localPeerId p.barePrefix w').get k = some h := by
          rw [hlive,broughtIn_other hgone,committed_of_unreadable hv he hcommitted]
          exact ⟨rfl,hk⟩
        have hkept := keptAt_eq_some.mpr ⟨hshown,hkeeps⟩
        have hsame := (recordedAt_of_kept (by rw [hkept]; simp)).mp (hall k)
        rw [hshown] at hsame
        exact hother hsame.symm
    · intro hagrees k
      cases hk : unmarked X target k with
      | some v =>
        obtain ⟨htakes,hkeeps⟩ := hagrees.bound k v hk
        have hshown : (liveOf localPeerId p.barePrefix w').get k = some v := by
          rw [hlive]
          exact (broughtIn_entity hk).mpr htakes
        have hkept := keptAt_eq_some.mpr ⟨hshown,(hexcluded k v).trans hkeeps⟩
        rw [recordedAt_of_kept (by rw [hkept]; simp),hshown,(unmarked_eq_some.mp hk).1]
      | none =>
        cases hkept : keptAt X localPeerId p.barePrefix w' k with
        | none => exact (recordedAt_of_not_kept hkept).mpr hk
        | some h =>
          obtain ⟨hshown,hkeeps⟩ := keptAt_eq_some.mp hkept
          rw [recordedAt_of_kept (by rw [hkept]; simp),hshown]
          rw [hlive,broughtIn_other hk] at hshown
          obtain ⟨v,e,hv,he⟩ := hleft k h hshown.2 hshown.1
          by_contra hother
          rw [hexcluded,hagrees.clean v e hv he k h hshown.2 hk (Ne.symm hother)] at hkeeps
          cases hkeeps

end Checkout

/-- Nothing is pending exactly when a commit deduplicates, in the states described and no
others. A commit after a checkout from a state without pending changes answers with the
version checked out, under the condition described and no other. -/
theorem status_checkout_commit_agree_iff (X : Platform) (hX : X.FormatAllocated) {fuel : ℕ}
    (hfuel : levels ≤ fuel) (localPeerId : Str) {keys : Set Str} (hspread : Spread X keys) :
    (∀ barePrefix w, KeysInSight X fuel localPeerId barePrefix w keys →
      (performCommit X fuel w.index barePrefix localPeerId w.store).2.1.KeepsVersions X →
      ((NothingPending X fuel localPeerId barePrefix w ↔
          Deduplicates X fuel localPeerId barePrefix w) ↔
        StatusAgrees X fuel localPeerId barePrefix w)) ∧
    ∀ (p : CheckoutParams) (w w' : RevisionWorld) (finalHead version : Hash) (branch : Option Str)
      (noted uncommitted : Bool) (target : OrderedMap Str Hash),
      pathIsStorable (revHeadPath localPeerId (subtreeKeyOf X localPeerId p.barePrefix)) = true →
      WholeVersion X w.store keys version target →
      NothingPending X fuel localPeerId p.barePrefix w → handleCheckout X fuel localPeerId p w =
        (.ok (.checkout finalHead version branch noted uncommitted),w') →
      KeysInSight X fuel localPeerId p.barePrefix w' keys →
      (performCommit X fuel w'.index p.barePrefix localPeerId w'.store).2.1.KeepsVersions X →
      (CommitsTo X fuel localPeerId p.barePrefix w' version ↔
        CheckoutAgrees X fuel localPeerId p.barePrefix version branch target w) := by
  refine ⟨?_,?_⟩
  · intro barePrefix w hsight hkeeps
    exact status_agrees_iff hX hspread hsight hkeeps
  · intro p w w' finalHead version branch noted uncommitted target hpid hwhole hpending hrun hsight
      hkeeps
    exact checkout_agrees_iff hX hfuel hrun hpid hpending hspread hsight hkeeps hwhole

/-- Bindings that fit one bucket have no nodes below the root. -/
theorem subsStored_of_few {X : Platform}
    (h : m.entries.length ≤ bucketSize) (left level : ℕ) : SubsStored X s left level m := by
  cases left with
  | zero => trivial
  | succ left =>
    intro p hp
    have hpart : (part X level m p).entries.length ≤ m.entries.length := List.length_filter_le _ _
    omega

namespace UncommittedSample

open Sample RevisionSample AutoVersionSample AgreementSample UntrackedSample ByteCode

/-- The head has a marker for a note that is gone. -/
def markedVersion : Entity := versionEntity ⟨rootOfMarked,[headOfBoth.contentHash]⟩
  0xc8c6d63138c1d1dc965303c3330ea16d92e48286849432413bbcd7da16b84d52

def project : Str := "project/".toList

def treeOver (head : Entity) : MemoryLocationIndex :=
  (MemoryLocationIndex.mk .empty).set (projectPath++ "a".toList) one.contentHash
    |>.set (revHeadPath peer (prefixHash world.crates projectPath)) head.contentHash

def deleted : RevisionWorld where
  store := ⟨[markedVersion,
    nodeEntity nodeMarked 0x85a8752892f89ec9743dde03f0227b84a7c47f9b94028dc36293cbc4915a617a,
    one,two]⟩
  index := treeOver markedVersion

def clean : RevisionWorld where
  store := ⟨[headOfOne,headOfBoth,
    nodeEntity nodeOne 0xd29663eff96ee1fea819e34b40fa1e809dd1275dd94ad13c1a1a5e88dbdb8833,
    nodeEntity nodeBoth 0x93cd3a073c96cb137108fce87abf6a243b53b4922375ab9a34a68499cbd75ecf,
    one,two]⟩
  index := treeOver headOfOne

def request : CheckoutParams := ⟨project,none,some headOfBoth.contentHash⟩

def checkedOut : RevisionWorld := (handleCheckout world.crates levels peer request clean).2

def keys : List Str := ["a".toList,"b".toList]

/-- What the tree and the versions of a store bind. -/
def Bound (w : RevisionWorld) : Prop :=
  (∀ e ∈ (liveOf peer project w).entries, e.1 ∈ keys) ∧
  ∀ e ∈ w.store.puts, (decodeRevisionEntry world.crates e).all fun d =>
    (collectAllBindings world.crates w.store levels d.root).toOption.all fun m =>
      m.entries.all fun b => decide (b.1 ∈ keys)

instance (w : RevisionWorld) : Decidable (Bound w) := inferInstanceAs (Decidable (_ ∧ _))

/-- The keys of a finite store can be looked through. -/
theorem Bound.inSight {w : RevisionWorld} (h : Bound w) :
    KeysInSight world.crates levels peer project w {k | k ∈ keys} := by
  refine ⟨h.1,fun v d m hv hm b hb => ?_⟩
  obtain ⟨e,he,hd⟩ := bind_eq_some_iff.mp hv
  have hall := h.2 e (List.mem_of_find?_eq_some he)
  rw [hd,all_some,hm] at hall
  exact of_decide_eq_true (List.all_eq_true.mp hall b hb)

theorem spread_keys : Spread world.crates {k | k ∈ keys} :=
  spread_of_level (j := 0) (by decide) (by decide)

/-- The condition at a deletion and at a checkout of the version with both notes. -/
theorem evaluated_status :
    (pendingChanges world.crates levels peer project deleted = 1 ∧
      (match commitRoot world.crates levels deleted.index project peer deleted.store with
        | (.ok root,s) => headRecords world.crates s (headOf world.crates peer project deleted) root
        | (.error _,_) => false) = true ∧
      Bound deleted ∧
      world.Knows (performCommit world.crates levels deleted.index project peer deleted.store).2.1) ∧
    (pendingChanges world.crates levels peer project clean = 0 ∧
      (handleCheckout world.crates levels peer request clean).1 =
        .ok (.checkout headOfBoth.contentHash headOfBoth.contentHash none false false) ∧
      pathIsStorable (revHeadPath peer (subtreeKeyOf world.crates peer request.barePrefix)) = true ∧
      Bound checkedOut ∧ world.Knows (performCommit world.crates levels checkedOut.index
        request.barePrefix peer checkedOut.store).2.1) ∧
    (versionAt world.crates clean.store headOfBoth.contentHash =
        some ⟨rootHashOf world.crates bothBindings,[]⟩ ∧
      (∀ e ∈ bothBindings.entries, e.1 ∈ keys) ∧
      ∃ e ∈ clean.store.puts, (canon world.crates levels 0 bothBindings).toEntity world.crates =
        .ok e) ∧
    (∀ e ∈ bothBindings.entries,
      treeTakes peer request.barePrefix e.1 = true ∧
      excludedAt world.crates peer request.barePrefix
        (pointedTo world.crates peer request.barePrefix headOfBoth.contentHash none clean).store
        (pointedTo world.crates peer request.barePrefix headOfBoth.contentHash none clean).index
        e.1 e.2 = false) ∧
    headOf world.crates peer request.barePrefix clean = some headOfOne.contentHash ∧
    (getVersionBindings world.crates levels headOfOne.contentHash clean).1 = .ok headBindings := by
  decide +kernel

theorem deleted_deduplicates : Deduplicates world.crates levels peer project deleted := by
  obtain ⟨⟨-,hrec,-⟩,-⟩ := evaluated_status
  cases hroot : commitRoot world.crates levels deleted.index project peer deleted.store with
  | mk result s =>
    rw [hroot] at hrec
    cases result with
    | ok root => exact ⟨root,s,hroot,hrec⟩
    | error e => cases hrec

theorem deleted_disagrees : ¬(NothingPending world.crates levels peer project deleted ↔
    Deduplicates world.crates levels peer project deleted) := by
  intro h
  have hpending := nothingPending_iff.mp (h.mpr deleted_deduplicates)
  rw [evaluated_status.1.1] at hpending
  cases hpending

end UncommittedSample

open UncommittedSample AgreementSample UntrackedSample AutoVersionSample RevisionSample

/-- The condition fails at a deletion. It holds for a checkout of the version with both
notes. -/
theorem status_checkout_commit_agree_iff_sample :
    ¬StatusAgrees world.crates levels peer project deleted ∧
    NothingPending world.crates levels peer project clean ∧
    CommitsTo world.crates levels peer project checkedOut headOfBoth.contentHash := by
  obtain ⟨⟨-,-,hbound,hknown⟩,⟨hcount,hrun,hpid,hbound',hknown'⟩,⟨hentry,hkeys,hroot⟩,hkept,hhead,
    hread⟩ := evaluated_status
  have hiff := status_checkout_commit_agree_iff world.crates world_allocated le_rfl peer spread_keys
  have hwhole : WholeVersion world.crates clean.store {k | k ∈ keys} headOfBoth.contentHash
      bothBindings :=
    ⟨⟨[],hentry⟩,⟨hroot,subsStored_of_few (by decide) _ _⟩,hkeys⟩
  have hpending := nothingPending_iff.mpr hcount
  have hagrees : CheckoutAgrees world.crates levels peer request.barePrefix headOfBoth.contentHash
      none bothBindings clean := by
    refine ⟨fun k v hk => ?_,fun v e hv he => ?_⟩
    · obtain ⟨htakes,hkeeps⟩ := hkept (k,v)
        ((OrderedMap.mem_entries _ k v).mpr (unmarked_eq_some.mp hk).1)
      exact ⟨.inl htakes,hkeeps⟩
    · rw [hhead] at hv
      rw [← Option.some.inj hv,hread] at he
      cases he
  have hstatus := hiff.1 project deleted hbound.inSight hknown.keepsVersions
  have hran : handleCheckout world.crates levels peer request clean =
      (.ok (.checkout headOfBoth.contentHash headOfBoth.contentHash none false false),checkedOut) := by
    rw [checkedOut]
    exact eq_of_ran hrun
  have hcommits := hiff.2 request clean checkedOut _ _ _ _ _ bothBindings hpid hwhole hpending hran
    hbound'.inSight hknown'.keepsVersions
  exact ⟨fun h => deleted_disagrees (hstatus.mpr h),hpending,hcommits.mpr hagrees⟩

/-- A deleted note is committed and its marker is in the head. Status counts it for ever,
and a commit has nothing to record. -/
theorem deletion_stays_pending :
    (handleStatus world.crates levels peer project deleted).1.toOption.map (·.pending) = some 1 ∧
    Deduplicates world.crates levels peer project deleted ∧
    ¬(NothingPending world.crates levels peer project deleted ↔
      Deduplicates world.crates levels peer project deleted) := by
  refine ⟨?_,deleted_deduplicates,deleted_disagrees⟩
  rw [handleStatus_pending,evaluated_status.1.1]

end EntityCore
