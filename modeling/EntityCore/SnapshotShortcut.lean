import EntityCore.TreeHandler

/-! The snapshot shortcut. A prefix whose root is tracked is answered with that root, any other
with the root of a trie built over the listing. The tracker leaves its own bindings out of a trie
and the listing does not, and the tracker goes by the canonical form of a prefix. -/
namespace EntityCore

open Ecf Outcome ByteCode Strings Action List

/-- Nothing is bound at a malformed path. -/
def MemoryLocationIndex.Storable (m : MemoryLocationIndex) : Prop :=
  ∀ path, (m.get path).isSome → pathIsStorable path = true

namespace MemoryLocationIndex

end MemoryLocationIndex

namespace TreeHandler

variable (X : Platform) (H : TreeHandler) (ctx : TreeContext)

/-- The rebuild alone. -/
def rebuiltSnapshot (start : Str) : TreeAction Entity := do
  let bindings ← .reading fun s => .ok (H.snapshotBindings X ctx start s.index)
  let root ← buildRoot X bindings
  .lift (snapshotEntity X root)

/-- The tracker of the handler's own peer. -/
def tracker : RootTrackerEngine := ⟨H.localPeerId⟩

/-- What the shortcut finds is the root of some config: its path, and what a rebuild of the config's
prefix stores there, with the nodes in the store. -/
def TrackedUpToDate (start : Str) (s : TreeState) : Prop :=
  ∀ root, H.lookupTrackedRoot s.index start = some root → ∃ barePrefix bare,
    stripPrefix start ('/'::H.localPeerId++['/']) = some bare ∧
    '/'::H.localPeerId++ "/system/tree/root/".toList++bare.rdropWhile (· = '/') =
      H.tracker.qualifiedRootPath barePrefix ∧
    ∃ s₀, (buildTrie X (H.tracker.bindingsUnder s.index barePrefix) s₀).1 = .ok root ∧
      (buildTrie X (H.tracker.bindingsUnder s.index barePrefix) s₀).2 ≤ s.store

/-- The prefix in canonical form, with one slash at its end. -/
def oneSlash (start : Str) : Str := start.rdropWhile (· = '/')++['/']

/-- What makes tracker and listing see the same bindings: under a prefix spelled with one slash the
tracker itself has bound nothing, under any other there is nothing to see. -/
def NothingApart (start : Str) (index : MemoryLocationIndex) : Prop :=
  if start = oneSlash start then
    ∀ rel, H.tracker.isSelfPath (start++rel) = true → index.get (start++rel) = none
  else ∀ rel, H.tracker.isSelfPath (oneSlash start++rel) = false →
    index.get (oneSlash start++rel) = none

/-- The keys either way binds. -/
def keysSeen (start : Str) (index : MemoryLocationIndex) : Set Str :=
  {k | (index.get (start++k)).isSome ∨ (index.get (oneSlash start++k)).isSome}

section Shortcut

variable {X : Platform} {H : TreeHandler} {ctx : TreeContext}

theorem get_snapshotBindings (hcap : capFilterActive ctx = false) (start : Str)
    (index : MemoryLocationIndex) (rel : Str) :
    (H.snapshotBindings X ctx start index).get rel = index.get (start++rel) := by
  have h := RootTrackerEngine.get_listed index start (fun _ => false) rel
  rw [if_neg (by simp)] at h
  rw [← h]
  unfold snapshotBindings
  congr 1
  refine foldl_ext _ _ _ fun bindings e he => ?_
  obtain ⟨t,ht⟩ := ((index.mem_list start e.1 e.2).mp he).2
  have hrel : relativeTo start e.1 = e.1.drop start.length := by
    unfold relativeTo
    rw [(stripPrefix_eq_some _ _ _).mpr ht.symm,← ht,drop_left]
    rfl
  simp [hcap,hrel]

theorem rdropWhile_slash (s : Str) : ∃ n, s = s.rdropWhile (· = '/')++replicate n '/' := by
  refine ⟨(s.rtakeWhile (· = '/')).length,?_⟩
  have hslash : s.rtakeWhile (· = '/') =
      replicate (s.rtakeWhile (· = '/')).length '/' :=
    eq_replicate_of_mem fun c hc => by simpa using mem_rtakeWhile_imp hc
  rw [← hslash,rdropWhile_append_rtakeWhile]

theorem rdropWhile_append_of_ne {a b : Str} (h : b.rdropWhile (· = '/') ≠ []) :
    (a++b).rdropWhile (· = '/') = a++b.rdropWhile (· = '/') := by
  unfold rdropWhile at h ⊢
  rw [reverse_append,dropWhile_append,if_neg]
  · simp
  · simpa using h

/-- The tracked prefix is the canonical form of the prefix that was asked for. -/
theorem qualifiedBarePrefix_of_tracked {start barePrefix bare : Str}
    (hbare : stripPrefix start ('/'::H.localPeerId++['/']) = some bare)
    (hpath : '/'::H.localPeerId++ "/system/tree/root/".toList++bare.rdropWhile (· = '/') =
      H.tracker.qualifiedRootPath barePrefix) :
    H.tracker.qualifiedBarePrefix barePrefix = oneSlash start := by
  obtain rfl := (stripPrefix_eq_some _ _ _).mp hbare
  have hroot : "/system/tree/root/".toList = "/system/tree/root".toList++['/'] := rfl
  rw [hroot] at hpath
  unfold RootTrackerEngine.qualifiedRootPath at hpath
  unfold RootTrackerEngine.qualifiedBarePrefix
  simp only [RootTrackerEngine.rootPathPrefix,RootTrackerEngine.rootPathExact,tracker] at hpath ⊢
  by_cases hp : (canonicalPrefix barePrefix).isEmpty
  · rw [if_pos hp] at hpath
    have hlen := congrArg length hpath
    simp at hlen
  · rw [if_neg hp] at hpath
    have hkey : bare.rdropWhile (· = '/') = canonicalPrefix barePrefix := by simpa using hpath
    have hne : bare.rdropWhile (· = '/') ≠ [] := fun h => hp (by rw [← hkey,h]; rfl)
    rw [if_neg hp,oneSlash,rdropWhile_append_of_ne hne,hkey]
    simp

/-- A prefix with more than one slash at its end has nothing below it. -/
theorem get_of_slashes {start : Str} {index : MemoryLocationIndex} (hindex : index.Storable)
    (hstart : validatePrefix start = true) (hne : start ≠ []) (hs : start ≠ oneSlash start)
    (rel : Str) : index.get (start++rel) = none := by
  obtain ⟨n,hn⟩ := rdropWhile_slash start
  have hend : ['/'] <:+ start := by simpa [validatePrefix,hne] using hstart
  have htwo : 2 ≤ n := by
    rcases n with - | - | n
    · exfalso
      rw [replicate_zero,append_nil] at hn
      obtain ⟨t,ht⟩ := hend
      rw [← ht,rdropWhile_concat_pos _ _ _ (by simp)] at hn
      have hlen := congrArg length hn
      have hle := (List.rdropWhile_prefix (· = '/') t).length_le
      simp at hlen
      omega
    · exact absurd hn hs
    · omega
  obtain ⟨k,rfl⟩ := Nat.exists_eq_add_of_le htwo
  by_contra hbound
  have hstored := hindex _ (Option.isSome_iff_ne_none.mpr hbound)
  have hdouble : "//".toList <:+: start++rel := by
    refine ⟨start.rdropWhile (· = '/'),replicate k '/'++rel,?_⟩
    conv_rhs => rw [hn,replicate_add]
    simp
  unfold pathIsStorable at hstored
  rw [(containsText_iff _ _).mpr hdouble] at hstored
  simp at hstored

theorem bindings_same_iff {start barePrefix : Str} {index : MemoryLocationIndex}
    (hcap : capFilterActive ctx = false) (hindex : index.Storable)
    (hstart : validatePrefix start = true) (hne : start ≠ [])
    (hq : H.tracker.qualifiedBarePrefix barePrefix = oneSlash start) :
    H.snapshotBindings X ctx start index = H.tracker.bindingsUnder index barePrefix ↔
      H.NothingApart start index := by
  have hget (rel : Str) := get_snapshotBindings (X := X) (H := H) hcap start index rel
  have htracked (rel : Str) := RootTrackerEngine.get_bindingsUnder (E := H.tracker) index barePrefix rel
  have hext : H.snapshotBindings X ctx start index = H.tracker.bindingsUnder index barePrefix ↔
      ∀ rel, index.get (start++rel) = if H.tracker.isSelfPath (oneSlash start++rel) then none
        else index.get (oneSlash start++rel) := by
    constructor
    · intro h rel
      rw [← hget,h,htracked,hq]
    · intro h
      apply OrderedMap.ext_get
      intro rel
      rw [hget,htracked,hq,h]
  rw [hext]
  unfold NothingApart
  by_cases hs : start = oneSlash start
  · rw [if_pos hs,← hs]
    refine forall_congr' fun rel => ?_
    cases H.tracker.isSelfPath (start++rel) <;> simp
  · rw [if_neg hs]
    refine forall_congr' fun rel => ?_
    rw [get_of_slashes hindex hstart hne hs]
    cases H.tracker.isSelfPath (oneSlash start++rel) <;> simp [eq_comm]

theorem rootData_inj {g h : Hash} (he : rootData g = rootData h) : g = h := by
  have hsingle (v : Value) : toEcf (.map [field "root" v]) =
      encodeHead majorMap 1++(toEcf (.text "root".toList)++(toEcf v++[])) := rfl
  unfold rootData at he
  rw [hsingle,hsingle] at he
  have hbytes : toEcf (hashVal g) = toEcf (hashVal h) := by simpa using he
  exact Hash.toBytes_inj (eq_of_same_bytes
    (((toEcf_identifies _ _ (wellFormed_hash g) (wellFormed_hash h)).1).mp hbytes))

theorem snapshotEntity_ok (hX : X.FormatAllocated) (root : Hash) :
    ∃ e, snapshotEntity X root = .ok e ∧ e.data = rootData root := by
  obtain ⟨e,he⟩ := @Entity.new_ok _ hX typeTreeSnapshot (rootData root)
    (by decide) (by decide) (toEcf_map_ne_nil _)
  exact ⟨e,by simp [snapshotEntity,he,mapErr],(Entity.newWithFormat_ok X he).2.1⟩

theorem snapshotEntity_inj (hX : X.FormatAllocated) {g h : Hash} :
    snapshotEntity X g = snapshotEntity X h ↔ g = h := by
  constructor
  · intro he
    obtain ⟨a,ha,hdata⟩ := snapshotEntity_ok hX g
    obtain ⟨b,hb,hdata'⟩ := snapshotEntity_ok hX h
    rw [ha,hb] at he
    obtain rfl := Except.ok.inj he
    exact rootData_inj (hdata.symm.trans hdata')
  · rintro rfl
    rfl

theorem rebuiltSnapshot_spec (start : Str) {s : TreeState} {root : Hash} {store : ContentStore}
    (h : buildTrie X (H.snapshotBindings X ctx start s.index) s.store = (.ok root,store)) :
    H.rebuiltSnapshot X ctx start s = (snapshotEntity X root,{ s with store := store }) := by
  have hbuilt : buildRoot X (H.snapshotBindings X ctx start s.index) s =
      (.ok root,{ s with store := store }) := by
    simp [buildRoot,onPart,h,mapErr]
  have hread : (reading fun s : TreeState =>
      (.ok (H.snapshotBindings X ctx start s.index) : Except TreeFailure _)) s =
      (.ok (H.snapshotBindings X ctx start s.index),s) := rfl
  unfold rebuiltSnapshot
  rw [bind_of_ok hread,bind_of_ok hbuilt]
  rfl

theorem rebuiltSnapshot_store (start : Str) (s : TreeState) :
    (H.rebuiltSnapshot X ctx start s).2.store =
      (buildTrie X (H.snapshotBindings X ctx start s.index) s.store).2 := by
  cases h : buildTrie X (H.snapshotBindings X ctx start s.index) s.store with | mk r store =>
  cases r with
  | ok root => rw [rebuiltSnapshot_spec start h]
  | error e =>
    have hbuilt : buildRoot X (H.snapshotBindings X ctx start s.index) s =
        (.error (TrieFailure.inTree "trie build: " e),{ s with store := store }) := by
      simp [buildRoot,onPart,h,mapErr]
    have hread : (reading fun s : TreeState =>
        (.ok (H.snapshotBindings X ctx start s.index) : Except TreeFailure _)) s =
        (.ok (H.snapshotBindings X ctx start s.index),s) := rfl
    unfold rebuiltSnapshot
    rw [bind_of_ok hread]
    simp only [bind,andThen,hbuilt]

theorem handleSnapshot_tracked {start : Str} {s : TreeState} {root : Hash}
    (hcap : capFilterActive ctx = false)
    (htarget : H.effectivePrefix ctx "system/tree:snapshot"
      ((paramField X ctx "prefix").bind Value.asText) = .ok start)
    (hadm : H.admitPrefix X ctx start = .ok ())
    (h : H.lookupTrackedRoot s.index start = some root) :
    H.handleSnapshot X ctx s = (snapshotEntity X root,s) := by
  have hread : (reading fun s : TreeState =>
      (.ok (H.lookupTrackedRoot s.index start) : Except TreeFailure _)) s = (.ok (some root),s) := by
    rw [reading_apply,h]
  unfold handleSnapshot
  rw [htarget,bind_of_ok (lift_apply _ s),hadm, bind_of_ok (lift_apply _ s),bind_of_ok hread,hcap]
  rfl

theorem handleSnapshot_untracked {start : Str} {s : TreeState}
    (htarget : H.effectivePrefix ctx "system/tree:snapshot"
      ((paramField X ctx "prefix").bind Value.asText) = .ok start)
    (hadm : H.admitPrefix X ctx start = .ok ())
    (h : H.lookupTrackedRoot s.index start = none) :
    H.handleSnapshot X ctx s = H.rebuiltSnapshot X ctx start s := by
  have hread : (reading fun s : TreeState =>
      (.ok (H.lookupTrackedRoot s.index start) : Except TreeFailure _)) s = (.ok none,s) := by
    rw [reading_apply,h]
  unfold handleSnapshot
  rw [htarget,bind_of_ok (lift_apply _ s),hadm, bind_of_ok (lift_apply _ s),bind_of_ok hread]
  simp only [ite_self]
  rfl

theorem admitPrefix_valid {start : Str} (h : H.admitPrefix X ctx start = .ok ()) :
    validatePrefix start = true := by
  by_contra hv
  unfold admitPrefix at h
  simp [hv,ensure,bind,Except.bind] at h

end Shortcut

/-- With a tracked root that is up to date, the shortcut answers what a rebuild would exactly when
tracker and listing see the same bindings. -/
theorem snapshot_shortcut_iff (X : Platform) (hX : X.FormatAllocated) (H : TreeHandler)
    (ctx : TreeContext) (hcap : capFilterActive ctx = false) (start : Str)
    (htarget : H.effectivePrefix ctx "system/tree:snapshot"
      ((paramField X ctx "prefix").bind Value.asText) = .ok start)
    (hadm : H.admitPrefix X ctx start = .ok ()) (s : TreeState) (hindex : s.index.Storable)
    (htracked : H.TrackedUpToDate X start s) (hkeys : Spread X (keysSeen start s.index))
    (hstore : (H.rebuiltSnapshot X ctx start s).2.store.Faithful X) :
    (H.handleSnapshot X ctx s).1 = (H.rebuiltSnapshot X ctx start s).1 ↔
      (H.lookupTrackedRoot s.index start = none ∨ H.NothingApart start s.index) := by
  cases hlookup : H.lookupTrackedRoot s.index start with
  | none => simp [handleSnapshot_untracked htarget hadm hlookup]
  | some root =>
    obtain ⟨barePrefix,bare,hbare,hpath,s₀,hroot,hs₀⟩ := htracked root hlookup
    have hne : start ≠ [] := by
      rintro rfl
      cases (stripPrefix_eq_some _ _ _).mp hbare
    have hq := qualifiedBarePrefix_of_tracked hbare hpath
    have hlisted : Within (H.snapshotBindings X ctx start s.index) (keysSeen start s.index) := by
      intro e he
      have hget := ((H.snapshotBindings X ctx start s.index).mem_entries e.1 e.2).mp he
      rw [get_snapshotBindings hcap] at hget
      exact .inl (by rw [hget]; rfl)
    have htree : Within (H.tracker.bindingsUnder s.index barePrefix) (keysSeen start s.index) := by
      intro e he
      have hget := ((H.tracker.bindingsUnder s.index barePrefix).mem_entries e.1 e.2).mp he
      rw [RootTrackerEngine.get_bindingsUnder,hq] at hget
      split_ifs at hget
      exact .inr (by rw [hget]; rfl)
    -- the rebuild
    obtain ⟨s₁,hbuilt,hnodes⟩ : ∃ s₁, buildTrie X (H.snapshotBindings X ctx start s.index) s.store =
          (.ok (rootHashOf X (H.snapshotBindings X ctx start s.index)),s₁) ∧
        TrieStored X s₁ (H.snapshotBindings X ctx start s.index) :=
      buildTrie_spec hX hstore hkeys hlisted (by rw [rebuiltSnapshot_store])
    rw [rebuiltSnapshot_spec start hbuilt] at hstore ⊢
    rw [handleSnapshot_tracked hcap htarget hadm hlookup]
    have hgrow : s.store ≤ s₁ := by
      have hle := grows_buildTrie (X := X) (H.snapshotBindings X ctx start s.index) s.store
      rw [hbuilt] at hle
      exact hle
    -- the tracked root
    obtain ⟨s₂,hbuilt₂,hnodes₂⟩ := buildTrie_spec hX hstore hkeys htree (hs₀.trans hgrow)
    rw [hbuilt₂] at hroot hs₀
    obtain rfl := Except.ok.inj hroot
    rw [snapshotEntity_inj hX,← bindings_same_iff (X := X) hcap hindex (admitPrefix_valid hadm)
      hne hq]
    simp only [reduceCtorEq,false_or]
    constructor
    · intro h
      exact bindings_of_rootHash hstore hkeys hlisted htree hnodes
        (hnodes₂.mono (hs₀.trans hgrow)) h.symm
    · intro h
      rw [h]

end TreeHandler

/-! A tracked prefix above the tracked roots. -/

namespace TrackedSystem

open Sample TreeHandler

def handler : TreeHandler := ⟨"bob".toList⟩

def ownRoot : Str := "tree/root/system".toList

def emptyRoot : Hash := sha256Hash 0x6a22fe736e2fc785166138fc5694b508f1df0c0db87746e9e89a62253ac94997

/-- What the listing finds: the tracked root itself. -/
def listedNode : SnapshotNodeData := ⟨1#32 <<< 29,[.bucket [(ownRoot,emptyRoot)]]⟩

def nodes : List (SnapshotNodeData × ℕ) := [
  (.empty,0x6a22fe736e2fc785166138fc5694b508f1df0c0db87746e9e89a62253ac94997),
  (listedNode,0x5df4c881cd4be048b0b7f0566566f51eddd684b4fd4a78fa9f12b2c7419a698a)]

def crates : Platform := platform (nodes.map fun n => n.1.toValue)
  ((utf8 ownRoot,0xeb39769f2ec549c413b22241d8b3e24245a56c3533cbd9d0ccd274127af8daf8)::
    nodes.map fun n => (ecfForHash typeTreeSnapshotNode n.1.toEcfBytes,n.2)) []

def asked : TreeContext where
  isExternal := false
  callerCapability := none
  pattern := []
  resourceTarget := some ⟨["/bob/system/".toList],[]⟩
  params := ⟨[],[],sha256Hash 0⟩
  included := .empty

def start : Str := "/bob/system/".toList

/-- Nothing but the root of the empty trie, as the tracker bound it. -/
def tracked : TreeState where
  store := (buildTrie crates .empty ⟨[]⟩).2
  index := MemoryLocationIndex.set ⟨.empty⟩ (start++ownRoot) emptyRoot

def listedRoot : Hash := sha256Hash 0x5df4c881cd4be048b0b7f0566566f51eddd684b4fd4a78fa9f12b2c7419a698a

/-- What is asked for, what is bound, and what the listing stores. -/
theorem evaluated_tracked :
    (effectiveTargets asked.resourceTarget handler.localPeerId = ["/bob/system/".toList] ∧
      canonicalize "/bob/system/".toList handler.localPeerId = start ∧ oneSlash start = start ∧
      pathIsStorable (start++ownRoot) = true) ∧
    (handler.lookupTrackedRoot tracked.index start = some emptyRoot ∧
      handler.tracker.bindingsUnder tracked.index "system/".toList = .empty ∧
      (∀ k ∈ [ownRoot], ([ownRoot].filter fun k' => slot crates 0 k' = slot crates 0 k).length ≤ 3)) ∧
    ((∀ x ∈ nodes, x.1.toEcfBytes.length < 2^63) ∧
      ∀ e ∈ (handler.rebuiltSnapshot crates asked start tracked).2.store.puts,
        (handler.rebuiltSnapshot crates asked start tracked).2.store.get e.contentHash = some e ∧
        ∃ n ∈ nodes, n.1.toEcfBytes = e.data) ∧
    (buildTrie crates (handler.snapshotBindings crates asked start tracked.index)
      tracked.store).1 = .ok listedRoot ∧ emptyRoot ≠ listedRoot := by
  decide +kernel

theorem asks_system : handler.effectivePrefix asked "system/tree:snapshot"
    ((paramField crates asked "prefix").bind Value.asText) = .ok start := by
  obtain ⟨⟨h,hpath,-⟩,-⟩ := evaluated_tracked
  simp only [effectivePrefix,singleEffectiveTarget,h,hpath]
  rfl

theorem admits_system : handler.admitPrefix crates asked start = .ok () := rfl

theorem tracked_get (path : Str) :
    tracked.index.get path = if path = start++ownRoot then some emptyRoot else none := by
  have hstorable : pathIsStorable (start++ownRoot) = true := evaluated_tracked.1.2.2.2
  simp only [tracked,MemoryLocationIndex.get_set,hstorable,and_true]
  rfl

theorem tracked_storable : tracked.index.Storable := by
  intro path h
  rw [tracked_get] at h
  split_ifs at h with hpath
  · rw [hpath]
    exact evaluated_tracked.1.2.2.2
  · cases h

theorem finds_root : handler.lookupTrackedRoot tracked.index start = some emptyRoot :=
  evaluated_tracked.2.1.1

theorem tracked_current : handler.TrackedUpToDate crates start tracked := by
  intro root hroot
  obtain rfl := Option.some.inj (finds_root.symm.trans hroot)
  have hbindings : handler.tracker.bindingsUnder tracked.index "system/".toList = .empty :=
    evaluated_tracked.2.1.2.1
  refine ⟨"system/".toList,"system/".toList,by decide +kernel,by decide +kernel,⟨[]⟩,?_,?_⟩
  · rw [hbindings]
    decide +kernel
  · rw [hbindings]
    exact suffix_rfl

theorem tracked_spread : Spread crates (keysSeen start tracked.index) := by
  have hkey : Spread crates {k | k ∈ [ownRoot]} := spread_of_level (j := 0) (by decide)
    evaluated_tracked.2.1.2.2
  refine hkey.subset fun k hk => ?_
  have hslash : oneSlash start = start := evaluated_tracked.1.2.2.1
  simp only [keysSeen,hslash,or_self,Set.mem_ofPred_eq,tracked_get] at hk
  split_ifs at hk with hpath
  · simpa using hpath
  · cases hk

theorem tracked_faithful : (handler.rebuiltSnapshot crates asked start tracked).2.store.Faithful crates :=
  TrieSample.faithful_of_nodes evaluated_tracked.2.2.1.1 evaluated_tracked.2.2.1.2

theorem lists_root : buildTrie crates (handler.snapshotBindings crates asked start tracked.index)
    tracked.store = (.ok listedRoot,
      (buildTrie crates (handler.snapshotBindings crates asked start tracked.index)
        tracked.store).2) :=
  Prod.ext evaluated_tracked.2.2.2.1 rfl

end TrackedSystem

open TrackedSystem TreeHandler

theorem snapshot_shortcut_iff_sample : (handler.handleSnapshot crates asked tracked).1 =
        (handler.rebuiltSnapshot crates asked start tracked).1 ↔
      (handler.lookupTrackedRoot tracked.index start = none ∨
        handler.NothingApart start tracked.index) :=
  snapshot_shortcut_iff crates (by decide) handler asked rfl start
    asks_system admits_system tracked tracked_storable tracked_current tracked_spread
    tracked_faithful

/-- The tracked root of `system/` leaves its own binding out, the listing does not. -/
theorem shortcut_leaves_root_out :
    ¬∀ (X : Platform) (H : TreeHandler) (ctx : TreeContext) (start : Str) (s : TreeState),
      X.FormatAllocated → capFilterActive ctx = false →
      H.effectivePrefix ctx "system/tree:snapshot"
        ((paramField X ctx "prefix").bind Value.asText) = .ok start →
      H.admitPrefix X ctx start = .ok () → s.index.Storable → H.TrackedUpToDate X start s →
      Spread X (keysSeen start s.index) → (H.rebuiltSnapshot X ctx start s).2.store.Faithful X →
      (H.handleSnapshot X ctx s).1 = (H.rebuiltSnapshot X ctx start s).1 := by
  intro h
  have hX : crates.FormatAllocated := by decide
  have hsame := h crates handler asked start tracked hX rfl asks_system admits_system
    tracked_storable tracked_current tracked_spread tracked_faithful
  have hfirst : (handler.handleSnapshot crates asked tracked).1 =
      snapshotEntity crates emptyRoot := by
    rw [handleSnapshot_tracked rfl asks_system admits_system finds_root]
  rw [hfirst,rebuiltSnapshot_spec start lists_root,snapshotEntity_inj hX] at hsame
  exact evaluated_tracked.2.2.2.2 hsame
end EntityCore
