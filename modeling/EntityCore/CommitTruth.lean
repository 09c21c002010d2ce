import EntityCore.VersionAgreement

/-! What a commit says of the live tree: the bindings of the version it makes, or of the
head it finds unchanged, against the bindings that are there. -/
namespace EntityCore

open Ecf Outcome Strings

section Commit

variable (X : Platform) (fuel : ℕ) (index : MemoryLocationIndex) (barePrefix localPeerId : Str)
  (s : ContentStore)

def commitKey : Str := prefixHash X (resolvePrefix barePrefix localPeerId)

def commitHead : Option Hash := index.get (revHeadPath localPeerId (commitKey X barePrefix localPeerId))

/-- The listed bindings that pass the filters of the prefix's config. -/
def keptLive : OrderedMap Str Hash :=
  let raw := snapshotBindingsFromTree index barePrefix localPeerId
  match configFor X s index localPeerId (commitKey X barePrefix localPeerId) with
  | some cfg => cfg.filterBindings s raw
  | none => raw

/-- The binding of a relative path in the live tree. -/
def liveAt (path : Str) : Option Hash := index.get (qualifyTreePrefix barePrefix localPeerId++path)

/-- What the parent version binds; nothing without a head, or without the head's entry. -/
def ParentBinds (parent : OrderedMap Str Hash) : Prop :=
  ((commitHead X index barePrefix localPeerId).bind (versionAt X s) = none ∧ parent = .empty) ∨
    ∃ d, (commitHead X index barePrefix localPeerId).bind (versionAt X s) = some d ∧
      collectAllBindings X s fuel d.root = .ok parent

/-- The version a commit answers with binds these paths. -/
def Recorded (recorded : OrderedMap Str Hash) : Prop :=
  ∃ out d, (performCommit X fuel index barePrefix localPeerId s).1 = .ok out ∧
    versionAt X (performCommit X fuel index barePrefix localPeerId s).2.1 out.versionHash = some d ∧
    collectAllBindings X (performCommit X fuel index barePrefix localPeerId s).2.1 fuel d.root =
      .ok recorded

/-- Only what is unbound is marked deleted, nothing of the parent version is left out, and
the rest is what is live and passes the filters. -/
structure Truthful (parent recorded : OrderedMap Str Hash) : Prop where
  deleted : ∀ k, recorded.get k = some (canonicalDeletionMarkerHash X) →
    liveAt index barePrefix localPeerId k = none
  carried : ∀ k, (parent.get k).isSome → (recorded.get k).isSome
  kept : ∀ k h, h ≠ canonicalDeletionMarkerHash X →
    (recorded.get k = some h ↔ (keptLive X index barePrefix localPeerId s).get k = some h)

/-- No kept binding is the marker itself, and whatever the parent version binds and is
live passes the filters. -/
structure NothingFilteredAway (parent : OrderedMap Str Hash) : Prop where
  unmarked : ∀ k, (keptLive X index barePrefix localPeerId s).get k ≠
    some (canonicalDeletionMarkerHash X)
  passes : ∀ k, (parent.get k).isSome → (liveAt index barePrefix localPeerId k).isSome →
    ((keptLive X index barePrefix localPeerId s).get k).isSome

/-- The paths a commit looks at. -/
def commitPaths (parent : OrderedMap Str Hash) : Set Str :=
  {k | ((keptLive X index barePrefix localPeerId s).get k).isSome ∨ (parent.get k).isSome}

variable {X fuel index barePrefix localPeerId s}

theorem liveAt_of_kept {k : Str} {h : Hash}
    (hk : (keptLive X index barePrefix localPeerId s).get k = some h) :
    liveAt index barePrefix localPeerId k = some h := by
  have hraw : (snapshotBindingsFromTree index barePrefix localPeerId).get k = some h := by
    rw [keptLive] at hk
    cases hcfg : configFor X s index localPeerId (commitKey X barePrefix localPeerId) with
    | none =>
      rw [hcfg] at hk
      exact hk
    | some cfg =>
      rw [hcfg] at hk
      dsimp only at hk
      rw [get_filterBindings] at hk
      exact (Option.filter_eq_some_iff.mp hk).1
  rw [get_snapshotBindingsFromTree] at hraw
  split_ifs at hraw
  exact hraw

theorem commitBindings_eq : commitBindings X fuel index barePrefix localPeerId s =
    match (commitHead X index barePrefix localPeerId).bind (versionAt X s) with
    | none => (.ok (keptLive X index barePrefix localPeerId s),s)
    | some entry => match collectAllBindings X s fuel entry.root with
      | .error e => (.error e,s)
      | .ok parentBindings =>
        let r := augmentBindingsWithMarkers X (keptLive X index barePrefix localPeerId s)
          parentBindings s
        (.ok r.1,r.2) := rfl

/-- A commit records what is kept, and the marker where the parent version has more. -/
theorem commitBindings_get {parent : OrderedMap Str Hash}
    (hparent : ParentBinds X fuel index barePrefix localPeerId s parent) :
    ∃ m s', commitBindings X fuel index barePrefix localPeerId s = (.ok m,s') ∧ s ≤ s' ∧
      ((commitHead X index barePrefix localPeerId).bind (versionAt X s) = none → s' = s) ∧
      ∀ k, m.get k = ((keptLive X index barePrefix localPeerId s).get k).or
        (if (parent.get k).isSome then some (canonicalDeletionMarkerHash X) else none) := by
  rw [commitBindings_eq]
  rcases hparent with ⟨hnone,rfl⟩ | ⟨d,hsome,hcollect⟩
  · rw [hnone]
    exact ⟨_,s,rfl,le_rfl,fun _ => rfl,fun k => by simp⟩
  · rw [hsome]
    dsimp only
    rw [hcollect]
    exact ⟨_,_,rfl,le_augment _ _ s,(fun h => by cases h),fun k => get_augment _ _ s k⟩

/-- The version answered with has the root that was built. -/
theorem performCommit_version (hX : X.FormatAllocated)
    (hstore : (performCommit X fuel index barePrefix localPeerId s).2.1.KeepsVersions X)
    {root : Hash} {s' : ContentStore}
    (hroot : commitRoot X fuel index barePrefix localPeerId s = (.ok root,s')) :
    s' ≤ (performCommit X fuel index barePrefix localPeerId s).2.1 ∧
    ∃ out d, (performCommit X fuel index barePrefix localPeerId s).1 = .ok out ∧
      versionAt X (performCommit X fuel index barePrefix localPeerId s).2.1 out.versionHash =
        some d ∧ d.root = root := by
  have hhead : index.get (revHeadPath localPeerId (prefixHash X (resolvePrefix barePrefix
      localPeerId))) = commitHead X index barePrefix localPeerId := rfl
  rcases commitEntry_fst hX (commitHead X index barePrefix localPeerId) root s' with
    ⟨hrecords,hentry⟩ | ⟨hrecords,e,he,hentry⟩
  · have hrun : performCommit X fuel index barePrefix localPeerId s =
        (.ok ⟨(commitHead X index barePrefix localPeerId).getD Hash.zero,root,
          ((commitHead X index barePrefix localPeerId).bind (versionAt X s')).bind (·.parents.head?)⟩,
          s',index) := by
      have hsame : commitEntry X (commitHead X index barePrefix localPeerId) root s' =
          (.ok none,s') := by
        unfold commitEntry
        rw [if_pos hrecords]
      unfold performCommit
      dsimp only
      rw [hroot,hhead]
      dsimp only
      rw [hsame]
    rw [hrun]
    cases hc : commitHead X index barePrefix localPeerId with
    | none =>
      rw [hc] at hrecords
      cases hrecords
    | some v =>
      rw [hc,headRecords,Option.bind_some,Option.any_eq_true] at hrecords
      obtain ⟨d,hd,heq⟩ := hrecords
      exact ⟨le_rfl,_,d,rfl,hd,by simpa using heq⟩
  · have hsame : commitEntry X (commitHead X index barePrefix localPeerId) root s' =
        (.ok (some e.contentHash),s'.put e) := by
      unfold commitEntry
      rw [if_neg (by rw [hrecords]; simp),he]
    have hrun : ∃ branched, performCommit X fuel index barePrefix localPeerId s =
        (.ok ⟨e.contentHash,root,commitHead X index barePrefix localPeerId⟩,s'.put e,branched) := by
      unfold performCommit
      dsimp only
      rw [hroot,hhead]
      dsimp only
      rw [hsame]
      exact ⟨_,rfl⟩
    obtain ⟨branched,hrun⟩ := hrun
    rw [hrun] at hstore ⊢
    exact ⟨List.suffix_cons _ _,_,_,rfl,versionAt_put hstore le_rfl he List.mem_cons_self,rfl⟩

/-- Markers and kept bindings tell the truth exactly if the filters take nothing away that
the parent version has and is still live. -/
theorem truthful_iff {parent recorded : OrderedMap Str Hash}
    (hget : ∀ k, recorded.get k = ((keptLive X index barePrefix localPeerId s).get k).or
      (if (parent.get k).isSome then some (canonicalDeletionMarkerHash X) else none)) :
    Truthful X index barePrefix localPeerId s parent recorded ↔
      NothingFilteredAway X index barePrefix localPeerId s parent := by
  constructor
  · intro h
    refine ⟨fun k hk => ?_,fun k hparent hlive => ?_⟩
    · have hmarked : recorded.get k = some (canonicalDeletionMarkerHash X) := by
        rw [hget,hk]
        rfl
      have hnone := h.deleted k hmarked
      rw [liveAt_of_kept hk] at hnone
      cases hnone
    · cases hk : (keptLive X index barePrefix localPeerId s).get k with
      | some v => rfl
      | none =>
        have hmarked : recorded.get k = some (canonicalDeletionMarkerHash X) := by
          rw [hget,hk,if_pos hparent]
          rfl
        rw [h.deleted k hmarked] at hlive
        cases hlive
  · intro h
    refine ⟨fun k hmarked => ?_,fun k hparent => ?_,fun k v hv => ?_⟩
    · rw [hget] at hmarked
      cases hk : (keptLive X index barePrefix localPeerId s).get k with
      | some v =>
        rw [hk] at hmarked
        exact absurd (hk.trans hmarked) (h.unmarked k)
      | none =>
        rw [hk,Option.none_or] at hmarked
        split_ifs at hmarked with hparent
        cases hlive : liveAt index barePrefix localPeerId k with
        | none => rfl
        | some v =>
          have hpass := h.passes k hparent (by rw [hlive]; rfl)
          rw [hk] at hpass
          cases hpass
    · rw [hget,if_pos hparent]
      cases (keptLive X index barePrefix localPeerId s).get k <;> rfl
    · rw [hget]
      cases hk : (keptLive X index barePrefix localPeerId s).get k with
      | some w => simp
      | none =>
        rw [Option.none_or]
        split_ifs
        · simp [Ne.symm hv]
        · simp

/-- A commit records the live tree truthfully exactly if its filters take nothing away that
the parent version has and is still live. -/
theorem commit_truthful_iff (hX : X.FormatAllocated) (hfuel : levels ≤ fuel)
    {parent : OrderedMap Str Hash}
    (hparent : ParentBinds X fuel index barePrefix localPeerId s parent)
    (hspread : Spread X (commitPaths X index barePrefix localPeerId s parent))
    (hstore : (performCommit X fuel index barePrefix localPeerId s).2.1.KeepsVersions X) :
    ∃ recorded, Recorded X fuel index barePrefix localPeerId s recorded ∧
      (Truthful X index barePrefix localPeerId s parent recorded ↔
        NothingFilteredAway X index barePrefix localPeerId s parent) := by
  obtain ⟨m,s₁,hbindings,-,-,hget⟩ := commitBindings_get hparent
  have hwithin : Within m (commitPaths X index barePrefix localPeerId s parent) := by
    intro e he
    have hk := (m.mem_entries e.1 e.2).mp he
    rw [hget] at hk
    cases hl : (keptLive X index barePrefix localPeerId s).get e.1 with
    | some v => exact .inl (by rw [hl]; rfl)
    | none =>
      rw [hl,Option.none_or] at hk
      split_ifs at hk with hp
      exact .inr hp
  have hroot : commitRoot X fuel index barePrefix localPeerId s = buildTrie X m s₁ := by
    unfold commitRoot
    rw [Action.bind_of_ok hbindings]
  have hle : (buildTrie X m s₁).2 ≤ (performCommit X fuel index barePrefix localPeerId s).2.1 := by
    cases hbuild : buildTrie X m s₁ with
    | mk result s₂ =>
      rw [hbuild] at hroot
      cases result with
      | error e =>
        unfold performCommit
        dsimp only
        rw [hroot]
      | ok root => exact (performCommit_version hX hstore hroot).1
  obtain ⟨s₂,hbuild,htrie⟩ := buildTrie_spec hX hstore.faithful hspread hwithin hle
  rw [hbuild] at hroot
  obtain ⟨hs₂,out,d,hout,hversion,hd⟩ := performCommit_version hX hstore hroot
  refine ⟨m,⟨out,d,hout,hversion,?_⟩,truthful_iff hget⟩
  rw [hd]
  exact collectAllBindings_spec hstore.faithful hspread hfuel le_rfl hwithin (htrie.mono hs₂)

end Commit

namespace CommitSample

open Sample RevisionSample AutoVersionSample AgreementSample

/-- A config that leaves out a note the head version has. -/
def excludingDoc : Value := .map [(txt "prefix",txt "project/"),
  (txt "exclude",.array [txt "a"])]

def excluding : Entity := entity "system/revision/config" excludingDoc
  0x765ac98472cbfdc01802cd739d62bc75b7dcf0fa1c13da461b625ba53a9a0625

def nodeGone : SnapshotNodeData := ⟨0x2000000#32,[.bucket [("a".toList,markerHash)]]⟩

def rootOfGone : Hash :=
  sha256Hash 0xb7e1d9f8b8771558dc0257b0f6d91f6dc18e4491f22606bb4dd2159f19383430

def filtering : World where
  nodes := world.nodes++[
    (nodeGone,0xb7e1d9f8b8771558dc0257b0f6d91f6dc18e4491f22606bb4dd2159f19383430)]
  entries := world.entries++[(⟨rootOfGone,[headOfOne.contentHash]⟩,
    0x647371a41924f61de383642d514fda3b955ca3d202e182116bef19a3afe0b077)]
  others := world.others++[excludingDoc]
  digests := world.digests

/-- The note is in the tree as the head version has it. -/
def noteTree : MemoryLocationIndex :=
  let key := prefixHash filtering.crates projectPath
  ((MemoryLocationIndex.mk .empty).set (projectPath++ "a".toList) one.contentHash
    |>.set (revHeadPath engine.localPeerId key) headOfOne.contentHash).set
    (revConfigPath engine.localPeerId key) excluding.contentHash

def noteEntities : ContentStore := ⟨[headOfOne,excluding,one,
  nodeEntity nodeOne 0xd29663eff96ee1fea819e34b40fa1e809dd1275dd94ad13c1a1a5e88dbdb8833]⟩

def projectArea : Str := "project/".toList

/-- What the commits of the two trees come to. -/
theorem evaluated_commits :
    (world.Knows (performCommit world.crates levels shrunkTree projectArea engine.localPeerId
        shrunkStore).2.1 ∧
      (∀ m ∈ [keptLive world.crates shrunkTree projectArea engine.localPeerId shrunkStore,bothBindings],
        ∀ e ∈ m.entries, e.1 ∈ ["a".toList,"b".toList]) ∧
      (commitHead world.crates shrunkTree projectArea engine.localPeerId).bind
        (versionAt world.crates shrunkStore) = some ⟨rootOfBoth,[]⟩ ∧
      collectAllBindings world.crates shrunkStore levels rootOfBoth = .ok bothBindings) ∧
    ((commitHead filtering.crates noteTree projectArea engine.localPeerId).bind
        (versionAt filtering.crates noteEntities) = some ⟨rootOfOne,[]⟩ ∧
      collectAllBindings filtering.crates noteEntities levels rootOfOne = .ok headBindings) ∧
    (performCommit filtering.crates levels noteTree projectArea engine.localPeerId
      noteEntities).1.map (·.versionHash) = .ok (sha256Hash
        0x647371a41924f61de383642d514fda3b955ca3d202e182116bef19a3afe0b077) ∧
    versionAt filtering.crates (performCommit filtering.crates levels noteTree projectArea
      engine.localPeerId noteEntities).2.1 (sha256Hash
        0x647371a41924f61de383642d514fda3b955ca3d202e182116bef19a3afe0b077) =
      some ⟨rootOfGone,[headOfOne.contentHash]⟩ ∧
    collectAllBindings filtering.crates (performCommit filtering.crates levels noteTree projectArea
      engine.localPeerId noteEntities).2.1 levels rootOfGone = .ok (.ofList [("a".toList,markerHash)]) ∧
    (OrderedMap.ofList [("a".toList,markerHash)]).get "a".toList =
      some (canonicalDeletionMarkerHash filtering.crates) ∧
    liveAt noteTree projectArea engine.localPeerId "a".toList ≠ none := by decide +kernel

end CommitSample

open CommitSample Sample AgreementSample AutoVersionSample RevisionSample

/-- The head version has two notes, the tree one of them. -/
theorem commit_truthful_iff_sample :
    ParentBinds world.crates levels shrunkTree projectArea engine.localPeerId shrunkStore bothBindings ∧
    ∃ recorded, Recorded world.crates levels shrunkTree projectArea engine.localPeerId shrunkStore
      recorded ∧ (Truthful world.crates shrunkTree projectArea engine.localPeerId shrunkStore
        bothBindings recorded ↔ NothingFilteredAway world.crates shrunkTree projectArea
          engine.localPeerId shrunkStore bothBindings) := by
  obtain ⟨⟨hknown,hkeys,hparent⟩,-⟩ := evaluated_commits
  have hbinds : ParentBinds world.crates levels shrunkTree projectArea engine.localPeerId shrunkStore
      bothBindings := .inr ⟨_,hparent⟩
  have hspread : Spread world.crates (commitPaths world.crates shrunkTree projectArea
      engine.localPeerId shrunkStore bothBindings) := by
    have hkey : Spread world.crates {k | k ∈ ["a".toList,"b".toList]} :=
      spread_of_level (j := 0) (by decide) (by decide)
    refine hkey.subset ?_
    rintro k (hk | hk)
    · exact OrderedMap.mem_keys_of_get (hkeys _ (by simp)) hk
    · exact OrderedMap.mem_keys_of_get (hkeys _ (by simp)) hk
  exact ⟨hbinds,commit_truthful_iff world_allocated (Nat.le_refl levels) hbinds hspread
    hknown.keepsVersions⟩

/-- A live note that a new exclude covers is recorded as deleted. -/
theorem excluded_note_marked :
    ¬∀ (index : MemoryLocationIndex) (s : ContentStore) (parent recorded : OrderedMap Str Hash),
      ParentBinds filtering.crates levels index projectArea engine.localPeerId s parent →
      Recorded filtering.crates levels index projectArea engine.localPeerId s recorded →
      Truthful filtering.crates index projectArea engine.localPeerId s parent recorded := by
  intro h
  obtain ⟨-,hparent,hmade,hread,hbinds,hmark,hlive⟩ := evaluated_commits
  obtain ⟨out,hout,hversion⟩ : ∃ out, (performCommit filtering.crates levels noteTree projectArea
      engine.localPeerId noteEntities).1 = .ok out ∧ out.versionHash = sha256Hash
        0x647371a41924f61de383642d514fda3b955ca3d202e182116bef19a3afe0b077 := by
    cases hrun : (performCommit filtering.crates levels noteTree projectArea engine.localPeerId
        noteEntities).1 with
    | error e =>
      rw [hrun] at hmade
      cases hmade
    | ok out =>
      rw [hrun] at hmade
      exact ⟨out,rfl,Except.ok.inj hmade⟩
  have hrecorded : Recorded filtering.crates levels noteTree projectArea engine.localPeerId noteEntities
      (.ofList [("a".toList,markerHash)]) := by
    refine ⟨out,⟨rootOfGone,[headOfOne.contentHash]⟩,hout,?_,hbinds⟩
    rw [hversion]
    exact hread
  exact hlive ((h noteTree noteEntities headBindings _ (.inr ⟨_,hparent⟩) hrecorded).deleted _ hmark)

end EntityCore
