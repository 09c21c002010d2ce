import EntityCore.AutoVersionRace

/-! Two ways to one version. Auto-version takes the tracked root and filters it; commit
lists the live tree, filters the listing and marks what the head version had and the
listing has not. -/
namespace EntityCore

open Ecf Outcome Strings

section Paths

variable (X : Platform) (fuel : ℕ) (E : RootTrackerEngine) (cfg : RevisionConfig)
  (index : MemoryLocationIndex) (s : ContentStore)

/-- The subtree key of a config's prefix. -/
def configKey : Str := prefixHash X (resolvePrefix cfg.barePrefix E.localPeerId)

def configHead : Option Hash := index.get (revHeadPath E.localPeerId (configKey X E cfg))

/-- What the tracker keeps for a config's prefix. -/
def trackedBindings : OrderedMap Str Hash :=
  E.bindingsUnder index (trackingPrefixField (canonicalizePrefix cfg.barePrefix))

/-- The tracked root is the root a rebuild of the prefix gives, and its nodes are in the
store. -/
def TrackedUpToDate (trackedRoot : Hash) : Prop :=
  ∃ s₀, (buildTrie X (trackedBindings E cfg index) s₀).1 = .ok trackedRoot ∧
    (buildTrie X (trackedBindings E cfg index) s₀).2 ≤ s

/-- The bindings of the head version; without a head there are none. -/
def HeadBinds (parent : OrderedMap Str Hash) : Prop :=
  (configHead X E cfg index = none ∧ parent = .empty) ∨
    ∃ head d, configHead X E cfg index = some head ∧ versionAt X s head = some d ∧
      collectAllBindings X s fuel d.root = .ok parent

def trackedKept : OrderedMap Str Hash := cfg.filterBindings s (trackedBindings E cfg index)

def listedKept : OrderedMap Str Hash :=
  cfg.filterBindings s (snapshotBindingsFromTree index cfg.barePrefix E.localPeerId)

/-- The paths either way looks at. -/
def pathsInPlay (parent : OrderedMap Str Hash) : Set Str :=
  {k | ((trackedBindings E cfg index).get k).isSome ∨
    ((snapshotBindingsFromTree index cfg.barePrefix E.localPeerId).get k).isSome ∨
    (parent.get k).isSome}

/-- The tracker and the listing keep the same bindings, and whatever the head version
binds is still kept. A deleted path agrees only where the tracker has the marker. -/
structure ListingsAgree (parent : OrderedMap Str Hash) : Prop where
  kept : ∀ k h, (listedKept E cfg index s).get k = some h →
    (trackedKept E cfg index s).get k = some h
  absent : ∀ k, (listedKept E cfg index s).get k = none → parent.get k = none →
    (trackedKept E cfg index s).get k = none
  deleted : ∀ k, (listedKept E cfg index s).get k = none → (parent.get k).isSome →
    (trackedKept E cfg index s).get k = some (canonicalDeletionMarkerHash X)

/-- Both ways come to one root, and then to one entry or both to the head as it is. -/
def SameVersion (trackedRoot : Hash) : Prop :=
  ∃ out, (performCommit X fuel index cfg.barePrefix E.localPeerId s).1 = .ok out ∧
    (filteredRoot X fuel cfg trackedRoot s).1 = .ok out.rootHash ∧
    (emitEntry X fuel cfg (configHead X E cfg index) trackedRoot s).1 =
      .ok (if headRecords X s (configHead X E cfg index) out.rootHash then none
        else some out.versionHash) ∧
    (headRecords X s (configHead X E cfg index) out.rootHash →
      configHead X E cfg index = some out.versionHash)

/-- What the two ways put into the store between them. -/
def sharedStore (trackedRoot : Hash) : ContentStore :=
  ⟨(emitEntry X fuel cfg (configHead X E cfg index) trackedRoot s).2.puts++
    (performCommit X fuel index cfg.barePrefix E.localPeerId s).2.1.puts⟩

end Paths

variable {s' : ContentStore} {parent : OrderedMap Str Hash}

section Agreement

variable {X : Platform} {fuel : ℕ} {E : RootTrackerEngine} {cfg : RevisionConfig}
  {index : MemoryLocationIndex} {s : ContentStore}

theorem keepsVersions_left {s : ContentStore}
    (h : (⟨s.puts++s'.puts⟩ : ContentStore).KeepsVersions X) : s.KeepsVersions X := by
  have hmem : ∀ e ∈ s.puts, e ∈ s.puts++s'.puts := fun e he => List.mem_append_left _ he
  refine ⟨⟨?_,fun e he => h.faithful.decodes e (hmem e he)⟩,fun e he => h.entries e (hmem e he)⟩
  intro e he
  have hret := h.faithful.returns e (hmem e he)
  have hsome : (s.puts.find? fun x => x.contentHash = e.contentHash).isSome := by
    rw [List.find?_isSome]
    exact ⟨e,he,by simp⟩
  obtain ⟨x,hx⟩ := Option.isSome_iff_exists.mp hsome
  rw [ContentStore.get,List.find?_append,hx,Option.some_or] at hret
  rw [ContentStore.get,hx,hret]

theorem headRecords_mono {s t : ContentStore} (ht : t.Faithful X) (hst : s ≤ s') (hle : s' ≤ t)
    {head : Option Hash} (hstored : ∀ h, head = some h → (versionAt X s h).isSome) (root : Hash) :
    headRecords X s' head root = headRecords X s head root := by
  cases head with
  | none => rfl
  | some h =>
    obtain ⟨d,hd⟩ := Option.isSome_iff_exists.mp (hstored h rfl)
    unfold headRecords
    rw [Option.bind_some,Option.bind_some,hd,versionAt_mono ht hst hle hd]

/-- Commit records the kept listing with the markers of the head version added. -/
theorem commitBindings_spec (hcfg : configFor X s index E.localPeerId (configKey X E cfg) = some cfg)
    (hhead : HeadBinds X fuel E cfg index s parent) :
    ∃ m s', commitBindings X fuel index cfg.barePrefix E.localPeerId s = (.ok m,s') ∧ s ≤ s' ∧
      ∀ k, m.get k = ((listedKept E cfg index s).get k).or
        (if (parent.get k).isSome then some (canonicalDeletionMarkerHash X) else none) := by
  have hkey : prefixHash X (resolvePrefix cfg.barePrefix E.localPeerId) = configKey X E cfg := rfl
  unfold commitBindings
  dsimp only
  rw [hkey,hcfg]
  dsimp only
  rcases hhead with ⟨hnone,rfl⟩ | ⟨head,d,hsome,hd,hcollect⟩
  · have hbind : (index.get (revHeadPath E.localPeerId (configKey X E cfg))).bind (versionAt X s) =
        none := by
      rw [show index.get _ = none from hnone]
      rfl
    rw [hbind]
    exact ⟨_,s,rfl,le_rfl,fun k => by simp [listedKept]⟩
  · have hbind : (index.get (revHeadPath E.localPeerId (configKey X E cfg))).bind (versionAt X s) =
        some d := by
      rw [show index.get _ = some head from hsome]
      exact hd
    rw [hbind]
    dsimp only
    rw [hcollect]
    exact ⟨_,_,rfl,le_augment _ _ s,fun k => get_augment _ _ s k⟩

theorem configHead_eq : index.get (revHeadPath E.localPeerId
    (prefixHash X (resolvePrefix cfg.barePrefix E.localPeerId))) = configHead X E cfg index := rfl

theorem grows_commitEntry (head : Option Hash) (root : Hash) : Action.Grows (commitEntry X head root) := by
  intro s
  unfold commitEntry
  split_ifs
  · exact le_rfl
  · split
    · exact le_rfl
    · exact List.suffix_cons _ _

/-- From a root on, auto-version and commit do the same. -/
theorem emitEntry_eq (head : Option Hash) {root versionRoot : Hash}
    (hroot : filteredRoot X fuel cfg root s = (.ok versionRoot,s')) :
    emitEntry X fuel cfg head root s = commitEntry X head versionRoot s' := by
  unfold emitEntry
  rw [hroot]
  rfl

theorem performCommit_store {barePrefix localPeerId : Str} {root : Hash}
    (hroot : commitRoot X fuel index barePrefix localPeerId s = (.ok root,s')) :
    (performCommit X fuel index barePrefix localPeerId s).2.1 = (commitEntry X
      (index.get (revHeadPath localPeerId (prefixHash X (resolvePrefix barePrefix localPeerId))))
        root s').2 := by
  unfold performCommit
  dsimp only
  rw [hroot]
  dsimp only
  rcases commitEntry X _ root s' with ⟨(m | (v | v)),s''⟩ <;> rfl

/-- What commit answers: the head it found, or the entry it has stored over it. -/
theorem performCommit_cases (hX : X.FormatAllocated) {barePrefix localPeerId : Str} {root : Hash}
    {head : Option Hash} (hhead : index.get (revHeadPath localPeerId
      (prefixHash X (resolvePrefix barePrefix localPeerId))) = head)
    (hroot : commitRoot X fuel index barePrefix localPeerId s = (.ok root,s')) :
    ∃ out, (performCommit X fuel index barePrefix localPeerId s).1 = .ok out ∧ out.rootHash = root ∧
      (headRecords X s' head root = true → head = some out.versionHash) ∧
      (headRecords X s' head root = false →
        ∃ e, buildRevisionEntry X ⟨root,sortedParents head.toList⟩ = .ok e ∧
          out.versionHash = e.contentHash ∧
          (performCommit X fuel index barePrefix localPeerId s).2.1 = s'.put e) := by
  subst hhead
  rw [performCommit_store hroot]
  unfold performCommit
  dsimp only
  rw [hroot]
  dsimp only
  unfold commitEntry
  cases hrec : headRecords X s' (index.get (revHeadPath localPeerId
      (prefixHash X (resolvePrefix barePrefix localPeerId)))) root with
  | true =>
    rw [if_pos rfl]
    refine ⟨_,rfl,rfl,fun _ => ?_,fun h => by cases h⟩
    cases hhead : index.get (revHeadPath localPeerId
        (prefixHash X (resolvePrefix barePrefix localPeerId))) with
    | none =>
      rw [hhead] at hrec
      cases hrec
    | some h =>
      rfl
  | false =>
    obtain ⟨e,he⟩ := buildRevisionEntry_ok hX ⟨root,sortedParents (index.get (revHeadPath
      localPeerId (prefixHash X (resolvePrefix barePrefix localPeerId)))).toList⟩
    rw [if_neg (by simp),he]
    exact ⟨_,rfl,rfl,fun h => (by cases h),fun _ => ⟨e,rfl,rfl,rfl⟩⟩

theorem performCommit_spec (hX : X.FormatAllocated) {t : ContentStore} (ht : t.Faithful X)
    {root : Hash} (hss' : s ≤ s') (hs't : s' ≤ t)
    (hstored : ∀ h, configHead X E cfg index = some h → (versionAt X s h).isSome)
    (hroot : commitRoot X fuel index cfg.barePrefix E.localPeerId s = (.ok root,s')) :
    ∃ out, (performCommit X fuel index cfg.barePrefix E.localPeerId s).1 = .ok out ∧
      out.rootHash = root ∧ (headRecords X s (configHead X E cfg index) root →
        configHead X E cfg index = some out.versionHash) ∧
      (headRecords X s (configHead X E cfg index) root = false →
        ∃ e, buildRevisionEntry X ⟨root,sortedParents (configHead X E cfg index).toList⟩ = .ok e ∧
          out.versionHash = e.contentHash) := by
  obtain ⟨out,hout,houtRoot,hdedup,hnew⟩ := performCommit_cases hX configHead_eq hroot
  rw [headRecords_mono ht hss' hs't hstored root] at hdedup hnew
  refine ⟨out,hout,houtRoot,hdedup,fun h => ?_⟩
  obtain ⟨e,he,hversion,-⟩ := hnew h
  exact ⟨e,he,hversion⟩

theorem commitEntry_fst (hX : X.FormatAllocated) (head : Option Hash) (root : Hash)
    (s : ContentStore) : (headRecords X s head root = true ∧ (commitEntry X head root s).1 = .ok none) ∨
      (headRecords X s head root = false ∧ ∃ e,
        buildRevisionEntry X ⟨root,sortedParents head.toList⟩ = .ok e ∧
          (commitEntry X head root s).1 = .ok (some e.contentHash)) := by
  unfold commitEntry
  cases hrec : headRecords X s head root with
  | true => exact .inl ⟨rfl,rfl⟩
  | false =>
    obtain ⟨e,he⟩ := buildRevisionEntry_ok hX ⟨root,sortedParents head.toList⟩
    refine .inr ⟨rfl,e,he,?_⟩
    rw [if_neg (by simp),he]

theorem listingsAgree_iff {m : OrderedMap Str Hash}
    (hm : ∀ k, m.get k = ((listedKept E cfg index s).get k).or
      (if (parent.get k).isSome then some (canonicalDeletionMarkerHash X) else none)) :
    trackedKept E cfg index s = m ↔ ListingsAgree X E cfg index s parent := by
  constructor
  · intro heq
    have hget : ∀ k, (trackedKept E cfg index s).get k = _ := fun k => heq ▸ hm k
    refine ⟨?_,?_,?_⟩
    · intro k h hk
      rw [hget k,hk]
      rfl
    · intro k hk hp
      rw [hget k,hk,hp]
      rfl
    · intro k hk hp
      rw [hget k,hk,if_pos hp]
      rfl
  · intro h
    apply OrderedMap.ext_get
    intro k
    rw [hm k]
    cases hk : (listedKept E cfg index s).get k with
    | some v => exact h.kept k v hk
    | none =>
      cases hp : parent.get k with
      | none => exact h.absent k hk hp
      | some v => exact h.deleted k hk (by rw [hp]; rfl)

theorem commitRoot_le_performCommit {barePrefix localPeerId : Str} :
    (commitRoot X fuel index barePrefix localPeerId s).2 ≤
      (performCommit X fuel index barePrefix localPeerId s).2.1 := by
  cases hroot : commitRoot X fuel index barePrefix localPeerId s with
  | mk result s' =>
    cases result with
    | error e =>
      unfold performCommit
      dsimp only
      rw [hroot]
    | ok root =>
      rw [performCommit_store hroot]
      exact grows_commitEntry _ root s'

theorem within_pathsInPlay {m : OrderedMap Str Hash}
    (h : ∀ k v, m.get k = some v → ((trackedBindings E cfg index).get k).isSome ∨
      ((snapshotBindingsFromTree index cfg.barePrefix E.localPeerId).get k).isSome ∨
      (parent.get k).isSome) : Within m (pathsInPlay E cfg index parent) := by
  intro e he
  exact h e.1 e.2 ((m.mem_entries e.1 e.2).mp he)

end Agreement

/-- Auto-version and commit mint the same version exactly when the tracker and the
listing keep the same bindings and nothing the head version binds is gone. -/
theorem auto_version_agrees_iff (X : Platform) (hX : X.FormatAllocated) (fuel : ℕ)
    (hfuel : levels ≤ fuel) (E : RootTrackerEngine) (cfg : RevisionConfig)
    (index : MemoryLocationIndex) (s : ContentStore)
    (hcfg : configFor X s index E.localPeerId (configKey X E cfg) = some cfg)
    (trackedRoot : Hash) (htracked : TrackedUpToDate X E cfg index s trackedRoot)
    (parent : OrderedMap Str Hash) (hhead : HeadBinds X fuel E cfg index s parent)
    (hspread : Spread X (pathsInPlay E cfg index parent))
    (hstore : (sharedStore X fuel E cfg index s trackedRoot).KeepsVersions X) :
    SameVersion X fuel E cfg index s trackedRoot ↔ ListingsAgree X E cfg index s parent := by
  have hemitKeeps := keepsVersions_left hstore
  have hemitLe := filteredRoot_le_emitEntry (X := X) cfg fuel (configHead X E cfg index)
    trackedRoot s
  have hemitGrows := grows_emitEntry (X := X) cfg fuel (configHead X E cfg index)
    trackedRoot s
  have hcommitLe : (performCommit X fuel index cfg.barePrefix E.localPeerId s).2.1 ≤
      sharedStore X fuel E cfg index s trackedRoot := List.suffix_append _ _
  have hstored : ∀ h, configHead X E cfg index = some h → (versionAt X s h).isSome := by
    intro h hh
    rcases hhead with ⟨hnone,-⟩ | ⟨head,d,hsome,hd,-⟩
    · rw [hnone] at hh
      cases hh
    · rw [hsome] at hh
      obtain rfl := Option.some.inj hh
      exact Option.isSome_iff_exists.mpr ⟨d,hd⟩
  -- the tracked side
  have hwithin : Within (trackedBindings E cfg index) (pathsInPlay E cfg index parent) :=
    within_pathsInPlay fun k v hk => .inl (by rw [hk]; rfl)
  obtain ⟨s₀,hroot,hs₀⟩ := htracked
  obtain ⟨s₁,hbuilt,htrie⟩ := buildTrie_spec hX hemitKeeps.faithful hspread hwithin
    (hs₀.trans hemitGrows)
  rw [hbuilt] at hroot hs₀
  obtain rfl := Except.ok.inj hroot
  obtain ⟨s₂,hfiltered,hkept⟩ := filteredRoot_spec hX hemitKeeps.faithful hspread hfuel hwithin
    (htrie.mono hs₀) cfg hemitLe
  have hs₂ : s₂ ≤ (emitEntry X fuel cfg (configHead X E cfg index)
      (rootHashOf X (trackedBindings E cfg index)) s).2 := by
    have hle := hemitLe
    rw [hfiltered] at hle
    exact hle
  have hss₂ : s ≤ s₂ := by
    have hle := grows_filteredRoot (X := X) fuel cfg (rootHashOf X (trackedBindings E cfg index)) s
    rw [hfiltered] at hle
    exact hle
  -- the listed side
  obtain ⟨m,s₃,hbindings,hss₃,hm⟩ := commitBindings_spec hcfg hhead
  have hwithinM : Within m (pathsInPlay E cfg index parent) := by
    apply within_pathsInPlay
    intro k v hk
    rw [hm k] at hk
    cases hl : (listedKept E cfg index s).get k with
    | some w =>
      rw [listedKept,get_filterBindings] at hl
      obtain ⟨hl,-⟩ := Option.filter_eq_some_iff.mp hl
      exact .inr (.inl (by rw [hl]; rfl))
    | none =>
      rw [hl,Option.none_or] at hk
      split_ifs at hk with hp
      exact .inr (.inr hp)
  have hcommit : commitRoot X fuel index cfg.barePrefix E.localPeerId s = buildTrie X m s₃ := by
    unfold commitRoot
    rw [Action.bind_of_ok hbindings]
  have hrootLe : (commitRoot X fuel index cfg.barePrefix E.localPeerId s).2 ≤
      (performCommit X fuel index cfg.barePrefix E.localPeerId s).2.1 := commitRoot_le_performCommit
  rw [hcommit] at hrootLe
  obtain ⟨s₄,hbuild,hlisted⟩ := buildTrie_spec hX hstore.faithful hspread hwithinM
    (hrootLe.trans hcommitLe)
  have hs₄ : s₄ ≤ sharedStore X fuel E cfg index s (rootHashOf X (trackedBindings E cfg index)) := by
    rw [hbuild] at hrootLe
    exact hrootLe.trans hcommitLe
  have hss₄ : s ≤ s₄ := by
    have hle := grows_buildTrie (X := X) m s₃
    rw [hbuild] at hle
    exact hss₃.trans hle
  rw [hbuild] at hcommit
  obtain ⟨out,hout,houtRoot,hdedup,hnew⟩ := performCommit_spec hX hstore.faithful hss₄ hs₄ hstored
    hcommit
  rw [← listingsAgree_iff hm]
  constructor
  · rintro ⟨out',hout',hemitRoot,-,-⟩
    obtain rfl : out = out' := Except.ok.inj (hout.symm.trans hout')
    rw [hfiltered] at hemitRoot
    have hsame : rootHashOf X (trackedKept E cfg index s) = rootHashOf X m :=
      (Except.ok.inj hemitRoot).trans houtRoot
    refine bindings_of_rootHash hstore.faithful hspread (filterBindings_within cfg s hwithin)
      hwithinM ?_ (hlisted.mono hs₄) hsame
    exact hkept.of_subset (List.Subset.trans (List.IsSuffix.subset hs₂) (List.subset_append_left _ _))
  · intro hsame
    have hroots : rootHashOf X (cfg.filterBindings s (trackedBindings E cfg index)) =
        out.rootHash := by
      rw [houtRoot,← hsame]
      rfl
    rw [hroots] at hfiltered
    rw [← houtRoot] at hdedup hnew
    refine ⟨out,hout,by rw [hfiltered],?_,hdedup⟩
    rw [emitEntry_eq _ hfiltered]
    have hrec := headRecords_mono hemitKeeps.faithful hss₂ hs₂ hstored out.rootHash
    rcases commitEntry_fst hX (configHead X E cfg index) out.rootHash s₂ with
      ⟨htrue,hnone⟩ | ⟨hfalse,e,he,hsome⟩
    · rw [hnone,if_pos (hrec.symm.trans htrue)]
    · obtain ⟨e',he',hversion⟩ := hnew (hrec.symm.trans hfalse)
      rw [hsome,if_neg (by rw [← hrec,hfalse]; simp),hversion]
      rw [he] at he'
      rw [Except.ok.inj he']

namespace AgreementSample

open Sample RevisionSample AutoVersionSample ByteCode

def configDoc : Value := .map [(txt "prefix",txt "project/"),(txt "auto_version",.bool true)]

def configEntity : Entity := entity "system/revision/config" configDoc
  0x5a3403d22664a3990e01b4f1c7defdef0e856be56a633608e61cb56d758fdc1e

def markerHash : Hash :=
  sha256Hash 0x689ae4679f69f006e4bf7cb7c7a9155d0de5fb9fe31e81692dca5769eda9e0a6

def nodeOne : SnapshotNodeData := ⟨0x2000000#32,[.bucket [("a".toList,one.contentHash)]]⟩
def nodeTwo : SnapshotNodeData := ⟨0x2000000#32,[.bucket [("a".toList,two.contentHash)]]⟩
def nodeBoth : SnapshotNodeData :=
  ⟨0x2000080#32,[.bucket [("b".toList,two.contentHash)],.bucket [("a".toList,one.contentHash)]]⟩
def nodeMarked : SnapshotNodeData :=
  ⟨0x2000080#32,[.bucket [("b".toList,markerHash)],.bucket [("a".toList,one.contentHash)]]⟩

def rootOfBoth : Hash :=
  sha256Hash 0x93cd3a073c96cb137108fce87abf6a243b53b4922375ab9a34a68499cbd75ecf
def rootOfMarked : Hash :=
  sha256Hash 0x85a8752892f89ec9743dde03f0227b84a7c47f9b94028dc36293cbc4915a617a

def headOfBoth : Entity := versionEntity ⟨rootOfBoth,[]⟩
  0xfc97911ef09a05cbb30712949a5cf6f267a00787bfd8c0b85a7c8778d80ec520
def headOfOne : Entity := versionEntity ⟨rootOfOne,[]⟩
  0x56174e0f4011bb9054b5e77924031a7fdeb1985dd343b6c9b95556bb46def700

def engine : RootTrackerEngine := ⟨List.replicate 46 'A'⟩

def projectPath : Str := resolvePrefix "project/".toList engine.localPeerId

def world : World where
  nodes := [(nodeOne,0xd29663eff96ee1fea819e34b40fa1e809dd1275dd94ad13c1a1a5e88dbdb8833),
    (nodeTwo,0x94d32f30e9eb29452b36d8d5102016aded5c70c674b01fa1cb4c24e2017f0a06),
    (nodeBoth,0x93cd3a073c96cb137108fce87abf6a243b53b4922375ab9a34a68499cbd75ecf),
    (nodeMarked,0x85a8752892f89ec9743dde03f0227b84a7c47f9b94028dc36293cbc4915a617a)]
  entries := [(⟨rootOfOne,[]⟩,0x56174e0f4011bb9054b5e77924031a7fdeb1985dd343b6c9b95556bb46def700),
    (⟨rootOfBoth,[]⟩,0xfc97911ef09a05cbb30712949a5cf6f267a00787bfd8c0b85a7c8778d80ec520),
    (⟨rootOfTwo,[headOfOne.contentHash]⟩,
      0xb450d37de1cafe9d3e0b549d9f9aaac10cee66dcfb034fb1d83a62228cdd253d),
    (⟨rootOfOne,[headOfBoth.contentHash]⟩,
      0xb4e43b1c59163378745c992105ff1b166fe2965a50b6e566dab6786314de52cb),
    (⟨rootOfMarked,[headOfBoth.contentHash]⟩,
      0xc8c6d63138c1d1dc965303c3330ea16d92e48286849432413bbcd7da16b84d52)]
  others := [txt "one",txt "two",configDoc,.map []]
  digests := [
    (utf8 "a".toList,0xca978112ca1bbdcafac231b39a23dc4da786eff8147c4e72b9807785afee48bb),
    (utf8 "b".toList,0x3e23e8160039594a33894f6564e1b1348bbd7a0088d42c4acb73eeaed59c009d),
    (ecfForHash "system/tree/path".toList (toEcf (.text projectPath)),
      0x4434f23addb89b2376c646d266c542ce4da11f89bd529074f2a207f05363cf28),
    (ecfForHash typeDeletionMarker [0xa0],
      0x689ae4679f69f006e4bf7cb7c7a9155d0de5fb9fe31e81692dca5769eda9e0a6)]

/-- A tree with one note below the prefix, a head and the config. -/
def treeWith (value head : Entity) : MemoryLocationIndex :=
  let key := prefixHash world.crates projectPath
  ((MemoryLocationIndex.mk .empty).set (projectPath++ "a".toList) value.contentHash
    |>.set (revHeadPath engine.localPeerId key) head.contentHash).set
    (revConfigPath engine.localPeerId key) configEntity.contentHash

/-- The store after the tracker's rebuild, with the head and its trie. -/
def storeWith (value head node : Entity) : ContentStore :=
  ⟨[head,node,configEntity]++
    (buildTrie world.crates (trackedBindings engine plain (treeWith value head)) ⟨[one,two]⟩).2.puts⟩

theorem rebuilt_le (value head node : Entity) :
    (buildTrie world.crates (trackedBindings engine plain (treeWith value head)) ⟨[one,two]⟩).2 ≤
      storeWith value head node := by
  unfold storeWith
  exact List.suffix_append _ _

def changedTree : MemoryLocationIndex := treeWith two headOfOne
def changedStore : ContentStore := storeWith two headOfOne
  (nodeEntity nodeOne 0xd29663eff96ee1fea819e34b40fa1e809dd1275dd94ad13c1a1a5e88dbdb8833)

/-- The head version has two notes, the tree one of them. -/
def shrunkTree : MemoryLocationIndex := treeWith one headOfBoth
def shrunkStore : ContentStore := storeWith one headOfBoth
  (nodeEntity nodeBoth 0x93cd3a073c96cb137108fce87abf6a243b53b4922375ab9a34a68499cbd75ecf)

def headBindings : OrderedMap Str Hash := .ofList [("a".toList,one.contentHash)]
def bothBindings : OrderedMap Str Hash :=
  .ofList [("a".toList,one.contentHash),("b".toList,two.contentHash)]

/-- What the two trees come to. -/
theorem evaluated_trees :
    (configFor world.crates changedStore changedTree engine.localPeerId
        (configKey world.crates engine plain) = some plain ∧
      (buildTrie world.crates (trackedBindings engine plain changedTree) ⟨[one,two]⟩).1 =
        .ok rootOfTwo ∧
      (configHead world.crates engine plain changedTree = some headOfOne.contentHash ∧
        versionAt world.crates changedStore headOfOne.contentHash = some ⟨rootOfOne,[]⟩ ∧
        collectAllBindings world.crates changedStore levels rootOfOne = .ok headBindings) ∧
      trackedKept engine plain changedTree changedStore = (augmentBindingsWithMarkers world.crates
        (listedKept engine plain changedTree changedStore) headBindings changedStore).1 ∧
      world.Knows (sharedStore world.crates levels engine plain changedTree changedStore rootOfTwo) ∧
      ∀ m ∈ [trackedBindings engine plain changedTree,
          snapshotBindingsFromTree changedTree plain.barePrefix engine.localPeerId,headBindings],
        ∀ e ∈ m.entries, e.1 ∈ ["a".toList]) ∧
    configFor world.crates shrunkStore shrunkTree engine.localPeerId
      (configKey world.crates engine plain) = some plain ∧
    (buildTrie world.crates (trackedBindings engine plain shrunkTree) ⟨[one,two]⟩).1 =
      .ok rootOfOne ∧
    (configHead world.crates engine plain shrunkTree = some headOfBoth.contentHash ∧
      versionAt world.crates shrunkStore headOfBoth.contentHash = some ⟨rootOfBoth,[]⟩ ∧
      collectAllBindings world.crates shrunkStore levels rootOfBoth = .ok bothBindings) ∧
    (filteredRoot world.crates levels plain rootOfOne shrunkStore).1 = .ok rootOfOne ∧
    (performCommit world.crates levels shrunkTree plain.barePrefix engine.localPeerId
      shrunkStore).1.map (·.rootHash) = .ok rootOfMarked := by decide +kernel

theorem world_allocated : world.crates.FormatAllocated := by decide

end AgreementSample

open AgreementSample AutoVersionSample RevisionSample

theorem auto_version_agrees_iff_sample : world.crates.FormatAllocated ∧
    configFor world.crates changedStore changedTree engine.localPeerId
      (configKey world.crates engine plain) = some plain ∧
    TrackedUpToDate world.crates engine plain changedTree changedStore rootOfTwo ∧
    HeadBinds world.crates levels engine plain changedTree changedStore headBindings ∧
    SameVersion world.crates levels engine plain changedTree changedStore rootOfTwo := by
  obtain ⟨⟨hcfg,hbuilt,hbinds,hkept,hknown,hkeys⟩,-⟩ := evaluated_trees
  have htracked : TrackedUpToDate world.crates engine plain changedTree changedStore rootOfTwo := by
    refine ⟨⟨[one,two]⟩,hbuilt,?_⟩
    unfold changedTree changedStore
    exact rebuilt_le _ _ _
  have hhead : HeadBinds world.crates levels engine plain changedTree changedStore headBindings :=
    .inr ⟨_,_,hbinds⟩
  have hagree : ListingsAgree world.crates engine plain changedTree changedStore headBindings := by
    rwa [← listingsAgree_iff (fun k => get_augment _ _ changedStore k)]
  have hspread : Spread world.crates (pathsInPlay engine plain changedTree headBindings) := by
    have hkey : Spread world.crates {k | k ∈ ["a".toList]} :=
      spread_of_level (j := 0) (by decide) (by decide)
    refine hkey.subset ?_
    rintro k (hk | hk | hk) <;> exact OrderedMap.mem_keys_of_get (hkeys _ (by simp)) hk
  exact ⟨world_allocated,hcfg,htracked,hhead,(auto_version_agrees_iff world.crates world_allocated
    levels le_rfl engine plain changedTree changedStore hcfg rootOfTwo htracked headBindings hhead
    hspread hknown.keepsVersions).mpr hagree⟩

/-- Commit records the deletion and auto-version does not. -/
theorem auto_version_forgets_deletion :
    configFor world.crates shrunkStore shrunkTree engine.localPeerId
      (configKey world.crates engine plain) = some plain ∧
    TrackedUpToDate world.crates engine plain shrunkTree shrunkStore rootOfOne ∧
    HeadBinds world.crates levels engine plain shrunkTree shrunkStore bothBindings ∧
    (filteredRoot world.crates levels plain rootOfOne shrunkStore).1 = .ok rootOfOne ∧
    (performCommit world.crates levels shrunkTree plain.barePrefix engine.localPeerId
      shrunkStore).1.map (·.rootHash) = .ok rootOfMarked ∧
    ¬SameVersion world.crates levels engine plain shrunkTree shrunkStore rootOfOne := by
  obtain ⟨-,hcfg,hbuilt,hbinds,hroot,hcommit⟩ := evaluated_trees
  have htracked : TrackedUpToDate world.crates engine plain shrunkTree shrunkStore rootOfOne := by
    refine ⟨⟨[one,two]⟩,hbuilt,?_⟩
    unfold shrunkTree shrunkStore
    exact rebuilt_le _ _ _
  refine ⟨hcfg,htracked,.inr ⟨_,_,hbinds⟩,hroot,hcommit,?_⟩
  rintro ⟨out,hout,hroot,-,-⟩
  rw [hout] at hcommit
  have hmarked : out.rootHash = rootOfMarked := Except.ok.inj hcommit
  rw [hmarked] at hroot
  have hne : rootOfOne ≠ rootOfMarked := by decide
  exact hne (Except.ok.inj hroot)

end EntityCore
