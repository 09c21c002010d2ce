import EntityCore.RootRace
import EntityCore.Revision

/-! Writers that auto-version one prefix at once. Each brings the tracked root to its
write and then repeats: read the head, read the tracked root, and either find the head
up to date or swap in an entry of the filtered tracked root. -/
namespace EntityCore

open Ecf Outcome Strings Option Function

/-- A write below the prefix: an entity bound at a path, or the path removed. -/
structure VersionedWrite where
  rel : Str
  value : Option Entity

namespace VersionedWrite

def putContent (w : VersionedWrite) (s : ContentStore) : ContentStore :=
  match w.value with
  | some e => s.put e
  | none => s

def apply (w : VersionedWrite) (live : OrderedMap Str Hash) : OrderedMap Str Hash :=
  match w.value with
  | some e => live.insert w.rel e.contentHash
  | none => live.erase w.rel

end VersionedWrite

inductive EmitPhase where
  | waiting
  | readingHead (attempts : ℕ)
  | readingRoot (attempts : ℕ) (head : Option Hash)
  | emitting (attempts : ℕ) (head : Option Hash) (trackedRoot : Hash)
  | swapping (attempts : ℕ) (head : Option Hash) (entry : Hash)
  | finished
  | failed (message : String)
  deriving DecidableEq

structure EmitState (ι : Type) where
  live : OrderedMap Str Hash
  trackedRoot : Option Hash
  head : Option Hash
  store : ContentStore
  phase : ι → EmitPhase

def headRacesLost : String :=
  "auto-version: head lost "++toString maxHeadCasRetries++ " CAS races — this write is in no version"

def trackedRootMissing : String := "auto-version: tracking-config missing or disabled for prefix"

section Race

variable {ι : Type} [DecidableEq ι] (X : Platform) (fuel : ℕ) (cfg : RevisionConfig)
  (writes : ι → VersionedWrite)

def EmitState.moveTo (s : EmitState ι) (i : ι) (p : EmitPhase) : EmitState ι :=
  { s with phase := Function.update s.phase i p }

/-- The next step of one writer. -/
def emitStep (i : ι) (s : EmitState ι) : EmitState ι :=
  match s.phase i with
  | .waiting =>
    let live := (writes i).apply s.live
    let r := buildTrie X live ((writes i).putContent s.store)
    match r.1 with
    | .ok root => EmitState.moveTo { s with live := live, trackedRoot := some root, store := r.2 } i
        (.readingHead maxHeadCasRetries)
    | .error e => EmitState.moveTo { s with store := r.2 } i
        (.failed (RootTrackerEngine.failureText e))
  | .readingHead 0 => s.moveTo i (.failed headRacesLost)
  | .readingHead (attempts+1) => s.moveTo i (.readingRoot attempts s.head)
  | .readingRoot attempts head => match s.trackedRoot with
    | some root => s.moveTo i (.emitting attempts head root)
    | none => s.moveTo i (.failed trackedRootMissing)
  | .emitting attempts head root =>
    let r := emitEntry X fuel cfg head root s.store
    let emitted := { s with store := r.2 }
    match r.1 with
    | .error m => emitted.moveTo i (.failed m)
    | .ok none => emitted.moveTo i .finished
    | .ok (some entry) => emitted.moveTo i (.swapping attempts head entry)
  | .swapping attempts head entry =>
    if s.head = head then EmitState.moveTo { s with head := some entry } i .finished
    else s.moveTo i (.readingHead attempts)
  | .finished => s
  | .failed _ => s

def runEmit (schedule : List ι) (s : EmitState ι) : EmitState ι :=
  schedule.foldl (fun s i => emitStep X fuel cfg writes i s) s

/-- The root an entry under a hash records. -/
def recordedRoot (s : ContentStore) (version : Option Hash) : Option Hash :=
  (version.bind (versionAt X s)).map (·.root)

/-- The root of the versions a tree is given under a config. -/
def versionRootOf (s : ContentStore) (live : OrderedMap Str Hash) : Hash :=
  rootHashOf X (cfg.filterBindings s live)

/-- The head a writer has read together with a tracked root, and the root of the version
it is about to make. -/
def EmitPhase.aim (s : ContentStore) : EmitPhase → Option (Option Hash × Option Hash)
  | .emitting _ head root =>
    some (head,(collectAllBindings X s fuel root).toOption.map (versionRootOf X cfg s))
  | .swapping _ head entry => some (head,recordedRoot X s (some entry))
  | _ => none

/-- A write does not take the filtered tree back to what the head records while another
writer has read that head and is about to put a different version over it. -/
def SafeWrite (i : ι) (s : EmitState ι) : Prop :=
  s.phase i = .waiting →
    recordedRoot X s.store s.head = some (versionRootOf X cfg ((writes i).putContent s.store)
      ((writes i).apply s.live)) →
    ∀ j root, (s.phase j).aim X fuel cfg s.store = some (s.head,root) →
      root = recordedRoot X s.store s.head

def SafeWrites : List ι → EmitState ι → Prop
  | [], _ => True
  | i::rest, s => SafeWrite X fuel cfg writes i s ∧ SafeWrites rest (emitStep X fuel cfg writes i s)

/-- The store once the filtered root of the tracked root has been computed in it. -/
def closingStore (s : EmitState ι) : ContentStore :=
  match s.trackedRoot with
  | some root => (filteredRoot X fuel cfg root s.store).2
  | none => s.store

/-- The head records the filtered tracked root. -/
def HeadUpToDate (s : EmitState ι) : Prop :=
  ∃ root head entry, s.trackedRoot = some root ∧ s.head = some head ∧
    versionAt X s.store head = some entry ∧
    (filteredRoot X fuel cfg root s.store).1 = .ok entry.root

end Race

/-! The invariant. `t` is a later store of the same run, in which every root and every
type that is read on the way reads the same. -/

variable {t s : ContentStore} {head : Option Hash} {s' : EmitState ι} {p : EmitPhase}
  {m : OrderedMap Str Hash} {r e : Hash}

section Parts

variable {X : Platform} {keys : Set Str} {cfg : RevisionConfig}

/-- A trie in the store together with the entities it binds. -/
structure TreeAt (X : Platform) (keys : Set Str) (s : ContentStore) (m : OrderedMap Str Hash) :
    Prop where
  stored : TrieStored X s m
  within : Within m keys
  valued : ∀ k v, m.get k = some v → (s.get v).isSome

theorem get_eq_of_le (ht : t.Faithful X) (hst : s ≤ t) {h : Hash}
    (hs : (s.get h).isSome) : s.get h = t.get h := by
  obtain ⟨e,he⟩ := isSome_iff_exists.mp hs
  rw [he,ContentStore.get_mono ht hst le_rfl he]

theorem isSome_get_of_le (hst : s ≤ t) {h : Hash} (hs : (s.get h).isSome) : (t.get h).isSome := by
  rw [ContentStore.get,List.find?_isSome] at hs ⊢
  obtain ⟨e,he,hh⟩ := hs
  exact ⟨e,List.IsSuffix.mem he hst,hh⟩

theorem TreeAt.mono (hst : s ≤ t) (h : TreeAt X keys s m) : TreeAt X keys t m :=
  ⟨h.stored.mono hst,h.within,fun k v hk => isSome_get_of_le hst (h.valued k v hk)⟩

theorem versionRootOf_eq (ht : t.Faithful X) (hst : s ≤ t)
    (hm : ∀ k v, m.get k = some v → (s.get v).isSome) :
    versionRootOf X cfg s m = versionRootOf X cfg t m := by
  unfold versionRootOf
  rw [filterBindings_congr cfg fun k v hk => get_eq_of_le ht hst (hm k v hk)]

theorem TreeAt.unique (ht : t.Faithful X) (hkeys : Spread X keys)
    {m' : OrderedMap Str Hash} (h : TreeAt X keys t m) (h' : TreeAt X keys t m')
    (he : rootHashOf X m = rootHashOf X m') : m = m' :=
  bindings_of_rootHash ht hkeys h.within h'.within h.stored h'.stored he

theorem recordedRoot_mono {s' : ContentStore} (ht : t.Faithful X) (hst : s ≤ s') (hle : s' ≤ t)
    {version : Option Hash} (h : recordedRoot X s version = some r) :
    recordedRoot X s' version = some r := by
  obtain ⟨d,hd,hr⟩ := map_eq_some_iff.mp h
  obtain ⟨v,rfl,hv⟩ := bind_eq_some_iff.mp hd
  rw [recordedRoot,bind_some,versionAt_mono ht hst hle hv,map_some,hr]

/-- A version names another among its parents. -/
def ParentOf (X : Platform) (t : ContentStore) (a b : Hash) : Prop :=
  ∃ d, versionAt X t b = some d ∧ a ∈ d.parents

/-- A head read earlier in a run. -/
def Older (X : Platform) (t : ContentStore) : Option Hash → Option Hash → Prop
  | none, _ => True
  | some a, some b => Relation.ReflTransGen (ParentOf X t) a b
  | some _, none => False

theorem Older.refl (t : ContentStore) (h : Option Hash) : Older X t h h := by
  cases h with
  | none => trivial
  | some a => exact Relation.ReflTransGen.refl

/-- A new entry over the head is younger than every head read so far. -/
theorem Older.entry {h : Option Hash} (ho : Older X t h head)
    (he : versionAt X t e = some ⟨r,sortedParents head.toList⟩) : Older X t h (some e) := by
  cases h with
  | none => trivial
  | some a => cases head with
    | none => exact ho.elim
    | some b => exact Relation.ReflTransGen.tail ho ⟨_,he,List.mem_cons_self⟩

theorem Older.ne_entry (hacyclic : ∀ v, ¬ Relation.TransGen (ParentOf X t) v v) {h : Option Hash}
    (ho : Older X t h head) (he : versionAt X t e = some ⟨r,sortedParents head.toList⟩) :
    h ≠ some e := by
  rintro rfl
  cases head with
  | none => exact ho
  | some b =>
    have hparent : ParentOf X t b e := ⟨_,he,List.mem_cons_self⟩
    exact hacyclic e (Relation.TransGen.tail' ho hparent)

theorem headRecords_iff (s : ContentStore) (head : Option Hash) (r : Hash) :
    headRecords X s head r = true ↔ recordedRoot X s head = some r := by
  unfold headRecords recordedRoot
  cases head.bind (versionAt X s) <;> simp

variable (cfg) in
theorem filteredRoot_le_emitEntry (fuel : ℕ) (head : Option Hash) (root : Hash) (s : ContentStore) :
    (filteredRoot X fuel cfg root s).2 ≤ (emitEntry X fuel cfg head root s).2 := by
  unfold emitEntry
  cases hr : filteredRoot X fuel cfg root s with
  | mk result s' =>
    cases result with
    | error e => exact le_rfl
    | ok versionRoot =>
      dsimp only
      split_ifs
      · exact le_rfl
      · split
        · exact le_rfl
        · exact List.suffix_cons _ _

variable (cfg) in
theorem grows_emitEntry (fuel : ℕ) (head : Option Hash) (root : Hash) :
    Action.Grows (emitEntry X fuel cfg head root) := fun s =>
  (grows_filteredRoot fuel cfg root s).trans (filteredRoot_le_emitEntry cfg fuel head root s)

/-- One attempt on the trie of some bindings: the head already has its version, or an
entry for it has been stored. -/
theorem emitEntry_spec (hX : X.FormatAllocated) (ht : t.KeepsVersions X)
    (hkeys : Spread X keys) {fuel : ℕ} (hfuel : levels ≤ fuel)
    (hm : TreeAt X keys s m) (head : Option Hash)
    (hle : (emitEntry X fuel cfg head (rootHashOf X m) s).2 ≤ t) :
    (∃ s', emitEntry X fuel cfg head (rootHashOf X m) s = (.ok none,s') ∧
      recordedRoot X s' head = some (versionRootOf X cfg t m)) ∨
    (∃ e s', emitEntry X fuel cfg head (rootHashOf X m) s = (.ok (some e),s') ∧
      versionAt X s' e = some ⟨versionRootOf X cfg t m,sortedParents head.toList⟩) ∨
    ∃ msg s', emitEntry X fuel cfg head (rootHashOf X m) s = (.error msg,s') := by
  have hst : s ≤ t := (grows_emitEntry cfg fuel head _ s).trans hle
  have hroot : rootHashOf X (cfg.filterBindings s m) = versionRootOf X cfg t m :=
    versionRootOf_eq ht.faithful hst hm.valued
  have hfiltered := (filteredRoot_le_emitEntry (X := X) cfg fuel head (rootHashOf X m)
    s).trans hle
  obtain ⟨s',hrun,-⟩ := filteredRoot_spec hX ht.faithful hkeys hfuel hm.within hm.stored cfg
    hfiltered
  rw [hroot] at hrun
  unfold emitEntry at hle ⊢
  rw [hrun] at hle ⊢
  dsimp only at hle ⊢
  by_cases hrec : headRecords X s' head (versionRootOf X cfg t m) = true
  · rw [if_pos hrec]
    exact .inl ⟨s',rfl,(headRecords_iff _ _ _).mp hrec⟩
  · rw [if_neg hrec] at hle ⊢
    cases hbuild : buildRevisionEntry X ⟨versionRootOf X cfg t m,sortedParents head.toList⟩ with
    | error msg => exact .inr (.inr ⟨msg,s',rfl⟩)
    | ok entity =>
      rw [hbuild] at hle
      refine .inr (.inl ⟨entity.contentHash,s'.put entity,rfl,?_⟩)
      exact versionAt_put ht hle hbuild List.mem_cons_self

namespace VersionedWrite

variable (w : VersionedWrite)

theorem le_putContent (s : ContentStore) : s ≤ w.putContent s := by
  unfold putContent
  cases w.value with
  | some e => exact List.suffix_cons _ _
  | none => exact le_rfl

theorem within_apply {live : OrderedMap Str Hash} (h : Within live keys) (hrel : w.rel ∈ keys) :
    Within (w.apply live) keys := by
  unfold apply
  cases w.value with
  | some e => exact h.insert hrel _
  | none => exact h.erase _

/-- The entity a write binds is in the store before the tree names it. -/
theorem valued_apply {live : OrderedMap Str Hash}
    (h : ∀ k v, live.get k = some v → (s.get v).isSome) :
    ∀ k v, (w.apply live).get k = some v → ((w.putContent s).get v).isSome := by
  intro k v hk
  have hold : ∀ v, (s.get v).isSome → ((w.putContent s).get v).isSome := fun v hv =>
    isSome_get_of_le (w.le_putContent s) hv
  unfold apply at hk
  cases hw : w.value with
  | none =>
    simp only [hw,OrderedMap.get_erase] at hk
    split_ifs at hk
    exact hold v (h k v hk)
  | some e =>
    simp only [hw,OrderedMap.get_insert] at hk
    split_ifs at hk
    · obtain rfl := some.inj hk
      simp [putContent,hw,ContentStore.put,ContentStore.get]
    · exact hold v (h k v hk)

end VersionedWrite

end Parts

section Invariant

variable {ι : Type} [DecidableEq ι] (X : Platform) (fuel : ℕ) (cfg : RevisionConfig)
  (writes : ι → VersionedWrite) (keys : Set Str) (t : ContentStore)

/-- What a writer holds was read in the run. -/
def EmitPhase.Read (s : EmitState ι) : EmitPhase → Prop
  | .readingRoot _ h => Older X t h s.head
  | .emitting _ h root => Older X t h s.head ∧ ∃ m, root = rootHashOf X m ∧ TreeAt X keys s.store m
  | .swapping _ h e => Older X t h s.head ∧
      ∃ r, versionAt X s.store e = some ⟨r,sortedParents h.toList⟩
  | _ => True

/-- A writer is about to put a version of root `r` over the head `h`. -/
def EmitPhase.AimsAt (h : Option Hash) (r : Hash) : EmitPhase → Prop
  | .emitting _ h' root => h' = h ∧
      ∃ m, root = rootHashOf X m ∧ TreeAt X keys t m ∧ r = versionRootOf X cfg t m
  | .swapping _ h' e => h' = h ∧ recordedRoot X t (some e) = some r
  | _ => False

/-- A writer that will not finish before the head records the current tree. -/
def EmitPhase.OnTheWay (live : OrderedMap Str Hash) : EmitPhase → Prop
  | .readingHead _ => True
  | .readingRoot _ h => recordedRoot X t h ≠ some (versionRootOf X cfg t live)
  | .emitting _ h root => root = rootHashOf X live ∧
      recordedRoot X t h ≠ some (versionRootOf X cfg t live)
  | .swapping _ _ e => recordedRoot X t (some e) = some (versionRootOf X cfg t live)
  | _ => False

/-- The head records the tree, and nobody is about to replace it by something else. -/
def HeadSettled (s : EmitState ι) : Prop :=
  recordedRoot X t s.head = some (versionRootOf X cfg t s.live) ∧
    ∀ j r, (s.phase j).AimsAt X cfg keys t s.head r → r = versionRootOf X cfg t s.live

/-- The head is behind, and some writer will see to it. -/
def HeadPending (s : EmitState ι) : Prop :=
  recordedRoot X t s.head ≠ some (versionRootOf X cfg t s.live) ∧
    ∃ j, (s.phase j).OnTheWay X cfg t s.live

structure EmitInv (s : EmitState ι) : Prop where
  rooted : Rooted X s.store s.trackedRoot s.live
  within : Within s.live keys
  valued : ∀ k v, s.live.get k = some v → (s.store.get v).isSome
  headStored : ∀ h, s.head = some h → (versionAt X s.store h).isSome
  reads : ∀ i, (s.phase i).Read X keys t s
  progress : (∀ i, s.phase i = .waiting) ∨ (∃ i m, s.phase i = .failed m) ∨
    (s.trackedRoot = some (rootHashOf X s.live) ∧ (HeadSettled X cfg keys t s ∨ HeadPending X cfg t s))

variable {X fuel cfg writes keys t}

omit [DecidableEq ι] in
theorem EmitPhase.Read.mono {s : EmitState ι} (hstore : s.store ≤ s'.store)
    (ht : t.Faithful X) (hle : s'.store ≤ t)
    (hhead : ∀ h, Older X t h s.head → Older X t h s'.head) (h : p.Read X keys t s) :
    p.Read X keys t s' := by
  cases p with
  | readingRoot n h' => exact hhead h' h
  | emitting n h' root =>
    obtain ⟨ho,m,hm,htree⟩ := h
    exact ⟨hhead h' ho,m,hm,htree.mono hstore⟩
  | swapping n h' e =>
    obtain ⟨ho,r,hr⟩ := h
    exact ⟨hhead h' ho,r,versionAt_mono ht hstore hle hr⟩
  | _ => trivial

/-- The other writers' reads stay good while one writer moves. -/
theorem reads_moveTo {s s' : EmitState ι} {i : ι} {p : EmitPhase} (hstore : s.store ≤ s'.store)
    (ht : t.Faithful X) (hle : s'.store ≤ t) (hhead : ∀ h, Older X t h s.head → Older X t h s'.head)
    (hphase : s'.phase = update s.phase i p) (hreads : ∀ j, (s.phase j).Read X keys t s)
    (hp : p.Read X keys t s') : ∀ j, (s'.phase j).Read X keys t s' := by
  intro j
  rw [hphase]
  by_cases hj : j = i
  · subst hj
    rw [update_self]
    exact hp
  · rw [update_of_ne hj]
    exact (hreads j).mono hstore ht hle hhead

/-- A move that changes neither tree nor head keeps things settled if the mover does not
take up another aim. -/
theorem HeadSettled.move {s s' : EmitState ι} {i : ι} {p : EmitPhase} (h : HeadSettled X cfg keys t s)
    (hlive : s'.live = s.live) (hhead : s'.head = s.head) (hphase : s'.phase = update s.phase i p)
    (hp : ∀ r, p.AimsAt X cfg keys t s.head r → r = versionRootOf X cfg t s.live) :
    HeadSettled X cfg keys t s' := by
  refine ⟨by rw [hlive,hhead]; exact h.1,?_⟩
  intro j r
  rw [hphase,hlive,hhead]
  by_cases hj : j = i
  · subst hj
    rw [update_self]
    exact hp r
  · rw [update_of_ne hj]
    exact h.2 j r

theorem HeadPending.move {s s' : EmitState ι} {i : ι} {p : EmitPhase} (h : HeadPending X cfg t s)
    (hlive : s'.live = s.live) (hhead : s'.head = s.head) (hphase : s'.phase = update s.phase i p)
    (hp : (s.phase i).OnTheWay X cfg t s.live → p.OnTheWay X cfg t s.live) : HeadPending X cfg t s' := by
  refine ⟨by rw [hlive,hhead]; exact h.1,?_⟩
  obtain ⟨j,hj⟩ := h.2
  refine ⟨j,?_⟩
  rw [hphase,hlive]
  by_cases hji : j = i
  · subst hji
    rw [update_self]
    exact hp hj
  · rw [update_of_ne hji]
    exact hj

/-- A move that changes nothing but the mover's phase and what is in the store. -/
theorem EmitInv.move {s s' : EmitState ι} {i : ι} {p : EmitPhase} (h : EmitInv X cfg keys t s)
    (ht : t.Faithful X) (hle : s'.store ≤ t) (hstore : s.store ≤ s'.store)
    (hlive : s'.live = s.live) (htracked : s'.trackedRoot = s.trackedRoot)
    (hhead : s'.head = s.head) (hphase : s'.phase = update s.phase i p)
    (hmoves : s.phase i ≠ .waiting ∧ ∀ m, s.phase i ≠ .failed m) (hp : p.Read X keys t s')
    (hprog : (∃ m, p = .failed m) ∨ (s.trackedRoot = some (rootHashOf X s.live) →
      (∀ r, HeadSettled X cfg keys t s → p.AimsAt X cfg keys t s.head r →
        r = versionRootOf X cfg t s.live) ∧
      (HeadPending X cfg t s → (s.phase i).OnTheWay X cfg t s.live → p.OnTheWay X cfg t s.live))) :
    EmitInv X cfg keys t s' := by
  refine ⟨?_,?_,?_,?_,?_,?_⟩
  · rw [htracked,hlive]
    exact h.rooted.mono hstore
  · rw [hlive]
    exact h.within
  · rw [hlive]
    exact fun k v hk => isSome_get_of_le hstore (h.valued k v hk)
  · intro v hv
    rw [hhead] at hv
    obtain ⟨d,hd⟩ := isSome_iff_exists.mp (h.headStored v hv)
    rw [versionAt_mono ht hstore hle hd]
    rfl
  · refine reads_moveTo hstore ht hle ?_ hphase h.reads hp
    intro v hv
    rw [hhead]
    exact hv
  · rcases hprog with ⟨m,rfl⟩ | hprog
    · exact .inr (.inl ⟨i,m,by rw [hphase,update_self]⟩)
    · rcases h.progress with hquiet | ⟨j,m,hj⟩ | ⟨hroot,hsettled | hpending⟩
      · exact absurd (hquiet i) hmoves.1
      · have hji : j ≠ i := by
          rintro rfl
          exact hmoves.2 m hj
        exact .inr (.inl ⟨j,m,by rw [hphase,update_of_ne hji,hj]⟩)
      · refine .inr (.inr ⟨by rw [htracked,hlive,hroot],.inl ?_⟩)
        exact hsettled.move hlive hhead hphase fun r => (hprog hroot).1 r hsettled
      · refine .inr (.inr ⟨by rw [htracked,hlive,hroot],.inr ?_⟩)
        exact hpending.move hlive hhead hphase ((hprog hroot).2 hpending)

omit [DecidableEq ι] in
/-- The tracked root a writer reads is the root of the tree. -/
theorem EmitInv.trackedRoot_eq {s : EmitState ι} (h : EmitInv X cfg keys t s) {root : Hash}
    (hr : s.trackedRoot = some root) : root = rootHashOf X s.live ∧ TreeAt X keys s.store s.live := by
  rcases h.rooted with ⟨hnone,-⟩ | ⟨hsome,hstored⟩
  · rw [hr] at hnone
    cases hnone
  · rw [hr] at hsome
    exact ⟨some.inj hsome,hstored,h.within,h.valued⟩

section Steps

variable (ht : t.KeepsVersions X) {s : EmitState ι} {i : ι} (h : EmitInv X cfg keys t s)
  (hle : (emitStep X fuel cfg writes i s).store ≤ t)

include ht h hle

theorem EmitInv.readHead {attempts : ℕ} (hp : s.phase i = .readingHead attempts) :
    EmitInv X cfg keys t (emitStep X fuel cfg writes i s) := by
  have hmoves : s.phase i ≠ .waiting ∧ ∀ m, s.phase i ≠ .failed m := by simp [hp]
  unfold emitStep at hle ⊢
  rw [hp] at hle ⊢
  cases attempts with
  | zero => exact h.move ht.faithful hle le_rfl rfl rfl rfl rfl hmoves trivial (.inl ⟨_,rfl⟩)
  | succ attempts =>
    refine h.move ht.faithful hle le_rfl rfl rfl rfl rfl hmoves (Older.refl t s.head)
      (.inr fun _ => ⟨?_,?_⟩)
    · intro r _ haim
      exact haim.elim
    · -- the head it reads is the current one, which is behind
      intro hpending _
      exact hpending.1

theorem EmitInv.readRoot (hkeys : Spread X keys) {attempts : ℕ} {head : Option Hash}
    (hp : s.phase i = .readingRoot attempts head) :
    EmitInv X cfg keys t (emitStep X fuel cfg writes i s) := by
  have hmoves : s.phase i ≠ .waiting ∧ ∀ m, s.phase i ≠ .failed m := by simp [hp]
  have hread := h.reads i
  rw [hp] at hread
  unfold emitStep at hle ⊢
  rw [hp] at hle ⊢
  cases hroot : s.trackedRoot with
  | none =>
    simp only [hroot] at hle
    exact h.move ht.faithful hle le_rfl rfl rfl rfl rfl hmoves trivial (.inl ⟨_,rfl⟩)
  | some root =>
    simp only [hroot] at hle
    obtain ⟨hr,htree⟩ := h.trackedRoot_eq hroot
    refine h.move ht.faithful hle le_rfl rfl rfl rfl rfl hmoves ⟨hread,s.live,hr,htree⟩
      (.inr fun _ => ⟨?_,?_⟩)
    · rintro r - ⟨-,m,hm,htm,rfl⟩
      rw [htm.unique ht.faithful hkeys (htree.mono hle) (hm.symm.trans hr)]
    · intro _ hway
      rw [hp] at hway
      exact ⟨hr,hway⟩

theorem EmitInv.emit (hX : X.FormatAllocated) (hkeys : Spread X keys) (hfuel : levels ≤ fuel)
    {attempts : ℕ} {head : Option Hash} {root : Hash} (hp : s.phase i = .emitting attempts head root) :
    EmitInv X cfg keys t (emitStep X fuel cfg writes i s) := by
  have hmoves : s.phase i ≠ .waiting ∧ ∀ m, s.phase i ≠ .failed m := by simp [hp]
  have hread := h.reads i
  rw [hp] at hread
  obtain ⟨holder,m,rfl,htree⟩ := hread
  have hgrow := grows_emitEntry (X := X) cfg fuel head (rootHashOf X m) s.store
  have hstore : (emitStep X fuel cfg writes i s).store =
      (emitEntry X fuel cfg head (rootHashOf X m) s.store).2 := by
    unfold emitStep
    rw [hp]
    dsimp only
    split <;> rfl
  have hst : s.store ≤ t := hgrow.trans (hstore ▸ hle)
  have hspec := emitEntry_spec hX ht hkeys hfuel htree head (hstore ▸ hle)
  unfold emitStep at hle ⊢
  rw [hp] at hle ⊢
  dsimp only at hle ⊢
  have hcurrent : s.trackedRoot = some (rootHashOf X s.live) → rootHashOf X m = rootHashOf X s.live →
      m = s.live := fun htracked hroot =>
    (htree.mono hst).unique ht.faithful hkeys ((h.trackedRoot_eq htracked).2.mono hst) hroot
  rcases hspec with ⟨s',hrun,hrec⟩ | ⟨e,s',hrun,hentry⟩ | ⟨msg,s',hrun⟩
  · rw [hrun] at hgrow hle ⊢
    have hle' : s' ≤ t := hle
    refine h.move ht.faithful hle hgrow rfl rfl rfl rfl hmoves trivial
      (.inr fun htracked => ⟨?_,?_⟩)
    · intro r _ haim
      exact haim.elim
    · -- a writer on its way has read the current tree, which this head does not record
      intro _ hway
      rw [hp] at hway
      rw [hcurrent htracked hway.1] at hrec
      exact absurd (recordedRoot_mono ht.faithful hle' le_rfl hrec) hway.2
  · rw [hrun] at hgrow hle ⊢
    have hle' : s' ≤ t := hle
    have hrec : recordedRoot X t (some e) = some (versionRootOf X cfg t m) := by
      rw [recordedRoot,bind_some,versionAt_mono ht.faithful hle' le_rfl hentry]
      rfl
    refine h.move ht.faithful hle hgrow rfl rfl rfl rfl hmoves ⟨holder,_,hentry⟩
      (.inr fun htracked => ⟨?_,?_⟩)
    · rintro r hsettled ⟨hhead,hr⟩
      rw [hrec] at hr
      rw [← some.inj hr]
      apply hsettled.2 i
      rw [hp]
      exact ⟨hhead,m,rfl,htree.mono hst,rfl⟩
    · intro _ hway
      rw [hp] at hway
      rw [hcurrent htracked hway.1] at hrec
      exact hrec
  · rw [hrun] at hgrow hle ⊢
    exact h.move ht.faithful hle hgrow rfl rfl rfl rfl hmoves trivial (.inl ⟨_,rfl⟩)

theorem EmitInv.swap (hacyclic : ∀ v, ¬ Relation.TransGen (ParentOf X t) v v) {attempts : ℕ}
    {head : Option Hash} {e : Hash} (hp : s.phase i = .swapping attempts head e) :
    EmitInv X cfg keys t (emitStep X fuel cfg writes i s) := by
  have hmoves : s.phase i ≠ .waiting ∧ ∀ m, s.phase i ≠ .failed m := by simp [hp]
  have hread := h.reads i
  rw [hp] at hread
  obtain ⟨holder,r,hentry⟩ := hread
  unfold emitStep at hle ⊢
  rw [hp] at hle ⊢
  dsimp only at hle ⊢
  by_cases hhead : s.head = head
  · subst hhead
    rw [if_pos rfl] at hle ⊢
    have hle' : s.store ≤ t := hle
    have hentry' := versionAt_mono ht.faithful hle' le_rfl hentry
    have hrec : recordedRoot X t (some e) = some r := by
      rw [recordedRoot,bind_some,hentry']
      rfl
    -- nobody has read the new head yet
    have hfresh : ∀ j r', j ≠ i → ¬ (s.phase j).AimsAt X cfg keys t (some e) r' := by
      intro j r' hj haim
      have hj' := h.reads j
      cases hpj : s.phase j with
      | emitting n h' root =>
        rw [hpj] at haim hj'
        exact hj'.1.ne_entry hacyclic hentry' haim.1
      | swapping n h' e' =>
        rw [hpj] at haim hj'
        exact hj'.1.ne_entry hacyclic hentry' haim.1
      | waiting => rw [hpj] at haim; exact haim
      | readingHead n => rw [hpj] at haim; exact haim
      | readingRoot n h' => rw [hpj] at haim; exact haim
      | finished => rw [hpj] at haim; exact haim
      | failed m => rw [hpj] at haim; exact haim
    refine ⟨h.rooted,h.within,h.valued,?_,?_,?_⟩
    · rintro v hv
      obtain rfl : e = v := some.inj hv
      exact isSome_iff_exists.mpr ⟨_,hentry⟩
    · exact reads_moveTo (s := s) le_rfl ht.faithful hle' (fun v hv => hv.entry hentry') rfl
        h.reads trivial
    · have hsettle : r = versionRootOf X cfg t s.live →
          HeadSettled X cfg keys t (EmitState.moveTo { s with head := some e } i .finished) := by
        intro hr
        refine ⟨hrec.trans (congrArg some hr),?_⟩
        intro j r' haim
        by_cases hj : j = i
        · subst hj
          simp only [EmitState.moveTo,update_self] at haim
          exact haim.elim
        · simp only [EmitState.moveTo,update_of_ne hj] at haim
          exact absurd haim (hfresh j r' hj)
      rcases h.progress with hquiet | ⟨j,m,hj⟩ | ⟨hroot,hsettled | hpending⟩
      · exact absurd (hquiet i) hmoves.1
      · have hji : j ≠ i := by
          rintro rfl
          exact hmoves.2 m hj
        exact .inr (.inl ⟨j,m,by simp only [EmitState.moveTo,update_of_ne hji,hj]⟩)
      · refine .inr (.inr ⟨hroot,.inl (hsettle ?_)⟩)
        apply hsettled.2 i
        rw [hp]
        exact ⟨rfl,hrec⟩
      · refine .inr (.inr ⟨hroot,?_⟩)
        by_cases hr : r = versionRootOf X cfg t s.live
        · exact .inl (hsettle hr)
        · obtain ⟨j,hway⟩ := hpending.2
          have hji : j ≠ i := by
            rintro rfl
            rw [hp] at hway
            exact hr (some.inj (hrec.symm.trans hway))
          refine .inr ⟨?_,j,?_⟩
          · intro hcon
            exact hr (some.inj (hrec.symm.trans hcon))
          · simp only [EmitState.moveTo,update_of_ne hji]
            exact hway
  · rw [if_neg hhead] at hle ⊢
    refine h.move ht.faithful hle le_rfl rfl rfl rfl rfl hmoves trivial (.inr fun _ => ⟨?_,?_⟩)
    · intro r _ haim
      exact haim.elim
    · intro _ _
      trivial

omit hle [DecidableEq ι] in
/-- Where the write restores what the head records, the safe-write condition leaves no
writer with another aim. -/
theorem EmitInv.aim_of_safe (hkeys : Spread X keys) (hfuel : levels ≤ fuel)
    (hputt : (writes i).putContent s.store ≤ t) (hp : s.phase i = .waiting)
    (hvalued : ∀ k v, ((writes i).apply s.live).get k = some v →
      (((writes i).putContent s.store).get v).isSome) (hsafe : SafeWrite X fuel cfg writes i s)
    (hrec : recordedRoot X t s.head = some (versionRootOf X cfg t ((writes i).apply s.live)))
    {j : ι} (haim : (s.phase j).AimsAt X cfg keys t s.head r) :
    r = versionRootOf X cfg t ((writes i).apply s.live) := by
  have hst : s.store ≤ t := ((writes i).le_putContent s.store).trans hputt
  have hhere : recordedRoot X s.store s.head =
      some (versionRootOf X cfg t ((writes i).apply s.live)) := by
    cases hh : s.head with
    | none =>
      rw [hh] at hrec
      cases hrec
    | some v =>
      obtain ⟨d,hd⟩ := isSome_iff_exists.mp (h.headStored v hh)
      have hd' := versionAt_mono ht.faithful hst le_rfl hd
      rw [hh,recordedRoot,bind_some,hd'] at hrec
      rw [recordedRoot,bind_some,hd]
      exact hrec
  have hsafe' := hsafe hp (by rw [versionRootOf_eq ht.faithful hputt hvalued]; exact hhere) j
  have hread := h.reads j
  cases hpj : s.phase j with
  | emitting n h' root =>
    rw [hpj] at haim hread
    obtain ⟨rfl,m,rfl,htm,rfl⟩ := haim
    obtain ⟨-,m',hm',htree⟩ := hread
    obtain rfl : m = m' := htm.unique ht.faithful hkeys (htree.mono hst) hm'
    have haim' : (s.phase j).aim X fuel cfg s.store =
        some (s.head,some (versionRootOf X cfg t m)) := by
      rw [hpj,EmitPhase.aim,collectAllBindings_spec ht.faithful hkeys hfuel hst htree.within
        htree.stored]
      show some (s.head,some (versionRootOf X cfg s.store m)) = _
      rw [versionRootOf_eq ht.faithful hst htree.valued]
    have hsame := hsafe' _ haim'
    rw [hhere] at hsame
    exact some.inj hsame
  | swapping n h' e =>
    rw [hpj] at haim hread
    obtain ⟨rfl,hr⟩ := haim
    obtain ⟨-,r',hr'⟩ := hread
    have hre : recordedRoot X s.store (some e) = some r := by
      rw [recordedRoot,bind_some,versionAt_mono ht.faithful hst le_rfl hr'] at hr
      rw [recordedRoot,bind_some,hr']
      exact hr
    have haim' : (s.phase j).aim X fuel cfg s.store = some (s.head,some r) := by
      rw [hpj,EmitPhase.aim,hre]
    have hsame := hsafe' _ haim'
    rw [hhere] at hsame
    exact some.inj hsame
  | waiting => rw [hpj] at haim; exact haim.elim
  | readingHead n => rw [hpj] at haim; exact haim.elim
  | readingRoot n h' => rw [hpj] at haim; exact haim.elim
  | finished => rw [hpj] at haim; exact haim.elim
  | failed m => rw [hpj] at haim; exact haim.elim

theorem EmitInv.write (hX : X.FormatAllocated) (hkeys : Spread X keys) (hfuel : levels ≤ fuel)
    (hrel : (writes i).rel ∈ keys) (hp : s.phase i = .waiting)
    (hsafe : SafeWrite X fuel cfg writes i s) :
    EmitInv X cfg keys t (emitStep X fuel cfg writes i s) := by
  have hput := (writes i).le_putContent s.store
  have hwithin := (writes i).within_apply h.within hrel
  have hvalued := (writes i).valued_apply h.valued
  have hstore : (emitStep X fuel cfg writes i s).store =
      (buildTrie X ((writes i).apply s.live) ((writes i).putContent s.store)).2 := by
    unfold emitStep
    rw [hp]
    dsimp only
    split <;> rfl
  rw [hstore] at hle
  have hputt : (writes i).putContent s.store ≤ t := (grows_buildTrie _ _).trans hle
  have hst : s.store ≤ t := hput.trans hputt
  obtain ⟨s',hrun,hstored⟩ := buildTrie_spec hX ht.faithful hkeys hwithin hle
  have hgrow := grows_buildTrie (X := X) ((writes i).apply s.live) ((writes i).putContent s.store)
  rw [hrun] at hle hgrow
  have hss' : s.store ≤ s' := hput.trans hgrow
  unfold emitStep
  rw [hp]
  dsimp only
  rw [hrun]
  refine ⟨.inr ⟨rfl,hstored⟩,hwithin,?_,?_,?_,?_⟩
  · exact fun k v hk => isSome_get_of_le hgrow (hvalued k v hk)
  · intro v hv
    obtain ⟨d,hd⟩ := isSome_iff_exists.mp (h.headStored v hv)
    exact isSome_iff_exists.mpr ⟨d,versionAt_mono ht.faithful hss' hle hd⟩
  · exact reads_moveTo (s := s) hss' ht.faithful hle (fun v hv => hv) rfl h.reads trivial
  · refine .inr (.inr ⟨rfl,?_⟩)
    by_cases hrec : recordedRoot X t s.head = some (versionRootOf X cfg t ((writes i).apply s.live))
    · refine .inl ⟨hrec,?_⟩
      intro j r haim
      by_cases hj : j = i
      · subst hj
        simp only [EmitState.moveTo,update_self] at haim
        exact haim.elim
      · simp only [EmitState.moveTo,update_of_ne hj] at haim
        exact h.aim_of_safe ht hkeys hfuel hputt hp hvalued hsafe hrec haim
    · refine .inr ⟨hrec,i,?_⟩
      simp only [EmitState.moveTo,update_self]
      trivial

end Steps

theorem emitStep_grows (i : ι) (s : EmitState ι) : s.store ≤ (emitStep X fuel cfg writes i s).store := by
  unfold emitStep
  cases hp : s.phase i with
  | waiting =>
    have hgrow := ((writes i).le_putContent s.store).trans
      (grows_buildTrie (X := X) ((writes i).apply s.live) ((writes i).putContent s.store))
    dsimp only
    split
    · exact hgrow
    · exact hgrow
  | readingHead n => cases n <;> exact le_rfl
  | readingRoot n head =>
    dsimp only
    split
    · exact le_rfl
    · exact le_rfl
  | emitting n head root =>
    have hgrow := grows_emitEntry (X := X) cfg fuel head root s.store
    dsimp only
    split
    · exact hgrow
    · exact hgrow
    · exact hgrow
  | swapping n head e =>
    dsimp only
    split_ifs
    · exact le_rfl
    · exact le_rfl
  | finished => exact le_rfl
  | failed m => exact le_rfl

theorem runEmit_grows (schedule : List ι) (s : EmitState ι) :
    s.store ≤ (runEmit X fuel cfg writes schedule s).store := by
  induction schedule generalizing s with
  | nil => exact le_rfl
  | cons i rest ih => exact (emitStep_grows i s).trans (ih _)

/-- One step of any writer keeps the invariant. -/
theorem emitStep_inv (hX : X.FormatAllocated) (ht : t.KeepsVersions X)
    (hacyclic : ∀ v, ¬ Relation.TransGen (ParentOf X t) v v) (hkeys : Spread X keys)
    (hfuel : levels ≤ fuel) (hrels : ∀ i, (writes i).rel ∈ keys) {s : EmitState ι}
    (h : EmitInv X cfg keys t s) {i : ι} (hsafe : SafeWrite X fuel cfg writes i s)
    (hle : (emitStep X fuel cfg writes i s).store ≤ t) :
    EmitInv X cfg keys t (emitStep X fuel cfg writes i s) := by
  cases hp : s.phase i with
  | waiting => exact h.write ht hle hX hkeys hfuel (hrels i) hp hsafe
  | readingHead n => exact h.readHead ht hle hp
  | readingRoot n head => exact h.readRoot ht hle hkeys hp
  | emitting n head root => exact h.emit ht hle hX hkeys hfuel hp
  | swapping n head e => exact h.swap ht hle hacyclic hp
  | finished =>
    have hsame : emitStep X fuel cfg writes i s = s := by simp [emitStep,hp]
    rw [hsame]
    exact h
  | failed m =>
    have hsame : emitStep X fuel cfg writes i s = s := by simp [emitStep,hp]
    rw [hsame]
    exact h

theorem runEmit_inv (hX : X.FormatAllocated) (ht : t.KeepsVersions X)
    (hacyclic : ∀ v, ¬ Relation.TransGen (ParentOf X t) v v) (hkeys : Spread X keys)
    (hfuel : levels ≤ fuel) (hrels : ∀ i, (writes i).rel ∈ keys) (schedule : List ι)
    {s : EmitState ι} (h : EmitInv X cfg keys t s) (hsafe : SafeWrites X fuel cfg writes schedule s)
    (hle : (runEmit X fuel cfg writes schedule s).store ≤ t) :
    EmitInv X cfg keys t (runEmit X fuel cfg writes schedule s) := by
  induction schedule generalizing s with
  | nil => exact h
  | cons i rest ih =>
    obtain ⟨hstep,hrest⟩ := hsafe
    have h₁ := emitStep_inv hX ht hacyclic hkeys hfuel hrels h hstep
      ((runEmit_grows rest _).trans hle)
    exact ih h₁ hrest hle

omit [DecidableEq ι] in
/-- Once every writer has finished, nothing is pending. -/
theorem EmitInv.headUpToDate [Nonempty ι] {final : EmitState ι} (hX : X.FormatAllocated)
    (ht : (closingStore X fuel cfg final).KeepsVersions X) (hkeys : Spread X keys)
    (hfuel : levels ≤ fuel) (hclose : final.store ≤ closingStore X fuel cfg final)
    (h : EmitInv X cfg keys (closingStore X fuel cfg final) final)
    (hdone : ∀ i, final.phase i = .finished) : HeadUpToDate X fuel cfg final := by
  obtain ⟨i⟩ := ‹Nonempty ι›
  rcases h.progress with hquiet | ⟨j,m,hj⟩ | ⟨hroot,hsettled | ⟨-,j,hway⟩⟩
  · have hi := hquiet i
    rw [hdone i] at hi
    cases hi
  · rw [hdone j] at hj
    cases hj
  · have hrec := hsettled.1
    cases hhead : final.head with
    | none =>
      rw [hhead] at hrec
      cases hrec
    | some head =>
      obtain ⟨entry,hentry⟩ := isSome_iff_exists.mp (h.headStored head hhead)
      have htree := (h.trackedRoot_eq hroot).2
      have hle : (filteredRoot X fuel cfg (rootHashOf X final.live) final.store).2 ≤
          closingStore X fuel cfg final := by
        unfold closingStore
        rw [hroot]
      obtain ⟨s',hrun,-⟩ := filteredRoot_spec hX ht.faithful hkeys hfuel htree.within htree.stored
        cfg hle
      refine ⟨_,head,entry,hroot,hhead,hentry,?_⟩
      rw [hhead,recordedRoot,bind_some,versionAt_mono ht.faithful hclose le_rfl hentry,
        ← versionRootOf_eq ht.faithful hclose htree.valued] at hrec
      rw [hrun]
      exact congrArg Except.ok (some.inj hrec).symm
  · rw [hdone j] at hway
    exact hway.elim

end Invariant

/-- How a race begins: the tracked root is the trie of the live tree, the entities it
binds and the head's entry are stored, and no writer has done anything. -/
structure EmitStart {ι : Type} (X : Platform) (writes : ι → VersionedWrite) (keys : Set Str)
    (s : EmitState ι) : Prop where
  rooted : Rooted X s.store s.trackedRoot s.live
  valued : ∀ k v, s.live.get k = some v → (s.store.get v).isSome
  headStored : ∀ h, s.head = some h → (versionAt X s.store h).isSome
  waiting : ∀ i, s.phase i = .waiting
  spread : Spread X keys
  bound : Within s.live keys
  rels : ∀ i, (writes i).rel ∈ keys

/-- If no write restores what the head records under a writer that is about to replace
it, the head ends up to date. -/
theorem auto_version_keeps_writes {ι : Type} [DecidableEq ι] [Nonempty ι] (X : Platform)
    (hX : X.FormatAllocated) (fuel : ℕ) (hfuel : levels ≤ fuel) (cfg : RevisionConfig)
    (writes : ι → VersionedWrite) (keys : Set Str) (s : EmitState ι)
    (hstart : EmitStart X writes keys s) (schedule : List ι)
    (hstore : (closingStore X fuel cfg (runEmit X fuel cfg writes schedule s)).KeepsVersions X)
    (hacyclic : ∀ v, ¬ Relation.TransGen
      (ParentOf X (closingStore X fuel cfg (runEmit X fuel cfg writes schedule s))) v v)
    (hsafe : SafeWrites X fuel cfg writes schedule s)
    (hdone : ∀ i, (runEmit X fuel cfg writes schedule s).phase i = .finished) :
    HeadUpToDate X fuel cfg (runEmit X fuel cfg writes schedule s) := by
  have hclose : (runEmit X fuel cfg writes schedule s).store ≤
      closingStore X fuel cfg (runEmit X fuel cfg writes schedule s) := by
    unfold closingStore
    split
    · exact grows_filteredRoot fuel cfg _ _
    · exact le_rfl
  have hinit : EmitInv X cfg keys
      (closingStore X fuel cfg (runEmit X fuel cfg writes schedule s)) s := by
    refine ⟨hstart.rooted,hstart.bound,hstart.valued,hstart.headStored,?_,.inl hstart.waiting⟩
    intro i
    rw [hstart.waiting i]
    trivial
  have hend := runEmit_inv hX hstore hacyclic hstart.spread hfuel hstart.rels schedule hinit hsafe
    hclose
  exact hend.headUpToDate hX hstore hstart.spread hfuel hclose hdone

/-- A store in which the parents of every version come before it in some ranking has no
cycle of versions. -/
theorem acyclic_of_rank {X : Platform} (rank : Hash → ℕ)
    (h : ∀ e ∈ s.puts, ∀ d ∈ decodeRevisionEntry X e, ∀ p ∈ d.parents,
      rank p < rank e.contentHash) (v : Hash) : ¬ Relation.TransGen (ParentOf X s) v v := by
  have hstep : ∀ {a b : Hash}, ParentOf X s a b → rank a < rank b := by
    rintro a b ⟨d,hd,ha⟩
    obtain ⟨e,he,hdec⟩ := bind_eq_some_iff.mp hd
    have hb : e.contentHash = b := by simpa using List.find?_some he
    have hlt := h e (List.mem_of_find?_eq_some he) d hdec a ha
    rwa [hb] at hlt
  have hchain : ∀ {a b : Hash}, Relation.TransGen (ParentOf X s) a b → rank a < rank b := by
    intro a b hab
    induction hab with
    | single h => exact hstep h
    | tail _ h ih => exact ih.trans (hstep h)
  intro hcycle
  exact lt_irrefl _ (hchain hcycle)

namespace AutoVersionSample

open Sample RevisionSample ByteCode

def note (text : String) (digest : ℕ) : Entity := entity "app/note" (txt text) digest

def one : Entity := note "one" 0xa98b78e5059e329654170d2592cabd73feb6428b81e31a423f0b781b3e4a76f3
def two : Entity := note "two" 0xbd80b2f7c4de929a1078df89d78a7fdd0b30c0acb24c28c2dee2f898e2626be9

def nodes : List (SnapshotNodeData × ℕ) := [
  (⟨0x2000000#32,[.bucket [("a".toList,one.contentHash)]]⟩,
    0xd29663eff96ee1fea819e34b40fa1e809dd1275dd94ad13c1a1a5e88dbdb8833),
  (⟨0x2000000#32,[.bucket [("a".toList,two.contentHash)]]⟩,
    0x94d32f30e9eb29452b36d8d5102016aded5c70c674b01fa1cb4c24e2017f0a06)]

def rootOfOne : Hash :=
  sha256Hash 0xd29663eff96ee1fea819e34b40fa1e809dd1275dd94ad13c1a1a5e88dbdb8833
def rootOfTwo : Hash :=
  sha256Hash 0x94d32f30e9eb29452b36d8d5102016aded5c70c674b01fa1cb4c24e2017f0a06

def firstTwo : Hash :=
  sha256Hash 0xbf89b88bab1af94af4ee2233f0ee401a0243e6b89f19dd7d576e0c9ccfc90554
def firstOne : Hash :=
  sha256Hash 0x56174e0f4011bb9054b5e77924031a7fdeb1985dd343b6c9b95556bb46def700

def entries : List (RevisionEntryData × ℕ) := [
  (⟨rootOfTwo,[]⟩,0xbf89b88bab1af94af4ee2233f0ee401a0243e6b89f19dd7d576e0c9ccfc90554),
  (⟨rootOfOne,[firstTwo]⟩,0x5340e7687e710b7775fecc922d9b99a28b0d92d00b63daf97df0f3712b9cf264),
  (⟨rootOfOne,[]⟩,0x56174e0f4011bb9054b5e77924031a7fdeb1985dd343b6c9b95556bb46def700),
  (⟨rootOfTwo,[firstOne]⟩,0xb450d37de1cafe9d3e0b549d9f9aaac10cee66dcfb034fb1d83a62228cdd253d)]

def keyDigests : List (Bytes × ℕ) := [
  (utf8 "a".toList,0xca978112ca1bbdcafac231b39a23dc4da786eff8147c4e72b9807785afee48bb)]

def crates : Platform :=
  platform (documentsOf (nodes.map Prod.fst) (entries.map Prod.fst) [txt "one",txt "two"])
    (keyDigests++(nodes.map fun n => (ecfForHash typeTreeSnapshotNode n.1.toEcfBytes,n.2))++
      entries.map fun d => (ecfForHash typeRevisionEntry d.1.toEcfBytes,d.2)) []

def documents : World := ⟨nodes,entries,[txt "one",txt "two"],keyDigests⟩

def plain : RevisionConfig := ⟨"project/".toList,true,defaultMergeOrder,none,[],[],
  defaultCheckoutPolicy⟩

/-- The third writer restores what the first wrote. -/
def writes : Fin 3 → VersionedWrite :=
  ![⟨"a".toList,some one⟩,⟨"a".toList,some two⟩,⟨"a".toList,some one⟩]

def fresh : EmitState (Fin 3) := ⟨.empty,none,none,⟨[]⟩,fun _ => .waiting⟩

/-- Two writers emit over no head; the second loses its swap and finds its write
recorded. The third comes last. -/
def retried : List (Fin 3) := [0,1,0,1,0,1,0,1,0,1,1,1,1,2,2,2,2,2]

/-- The third writer writes and finishes between the emit of the second and its swap. -/
def crossed : List (Fin 3) := [0,0,0,0,0,1,1,1,1,2,2,2,2,1]

instance decidableSafeWrites {ι : Type} [DecidableEq ι] [Fintype ι] (X : Platform) (fuel : ℕ)
    (cfg : RevisionConfig) (writes : ι → VersionedWrite) :
    ∀ (schedule : List ι) (s : EmitState ι), Decidable (SafeWrites X fuel cfg writes schedule s)
  | [], _ => .isTrue trivial
  | i::rest, s =>
    haveI : Decidable (SafeWrite X fuel cfg writes i s) :=
      decidable_of_iff (s.phase i = .waiting →
        recordedRoot X s.store s.head = some (versionRootOf X cfg ((writes i).putContent s.store)
          ((writes i).apply s.live)) →
        ∀ j, ∀ a ∈ (s.phase j).aim X fuel cfg s.store, a.1 = s.head →
          a.2 = recordedRoot X s.store s.head)
        ⟨fun h hp hr j _ ha => h hp hr j _ ha rfl,
          fun h hp hr j a ha hh => h hp hr j a.2 (by rw [← hh]; exact ha)⟩
    haveI := decidableSafeWrites X fuel cfg writes rest (emitStep X fuel cfg writes i s)
    inferInstanceAs (Decidable (_ ∧ _))

theorem fresh_start : EmitStart crates writes {k | k ∈ ["a".toList]} fresh := by
  refine ⟨.inl ⟨rfl,rfl⟩,?_,?_,fun _ => rfl,?_,?_,?_⟩
  · intro k v hk
    cases hk
  · intro h hh
    cases hh
  · exact spread_of_level (j := 0) (by decide) (by decide)
  · intro t ht
    cases ht
  · show ∀ i, (writes i).rel ∈ ["a".toList]
    decide

/-- What the two schedules come to. -/
theorem evaluated_writers :
    (documents.Knows (closingStore crates levels plain
        (runEmit crates levels plain writes retried fresh)) ∧
      (∀ e ∈ (closingStore crates levels plain (runEmit crates levels plain writes retried fresh)).puts,
        ∀ d ∈ decodeRevisionEntry crates e, ∀ p ∈ d.parents,
          (if p = firstTwo then 0 else 1) < if e.contentHash = firstTwo then 0 else 1) ∧
      SafeWrites crates levels plain writes retried fresh ∧
      ∀ i, (runEmit crates levels plain writes retried fresh).phase i = .finished) ∧
    (∀ i, (runEmit crates levels plain writes crossed fresh).phase i = .finished) ∧
    (runEmit crates levels plain writes crossed fresh).live.get "a".toList = some one.contentHash ∧
    recordedRoot crates (runEmit crates levels plain writes crossed fresh).store
      (runEmit crates levels plain writes crossed fresh).head = some rootOfTwo ∧
    (runEmit crates levels plain writes crossed fresh).trackedRoot = some rootOfOne := by
  decide +kernel

theorem crates_allocated : crates.FormatAllocated := by decide

end AutoVersionSample

open AutoVersionSample

theorem auto_version_keeps_writes_sample :
    crates.FormatAllocated ∧ EmitStart crates writes {k | k ∈ ["a".toList]} fresh ∧
    SafeWrites crates levels plain writes retried fresh ∧
    (∀ i, (runEmit crates levels plain writes retried fresh).phase i = .finished) ∧
    HeadUpToDate crates levels plain (runEmit crates levels plain writes retried fresh) := by
  have ⟨⟨hknown,hrank,hsafe,hdone⟩,_⟩ := evaluated_writers
  have hdate := auto_version_keeps_writes crates crates_allocated levels le_rfl plain writes _
    fresh fresh_start retried hknown.keepsVersions (acyclic_of_rank _ hrank) hsafe hdone
  exact ⟨crates_allocated,fresh_start,hsafe,hdone,hdate⟩

/-- Every writer has finished; the tree has the first value and the head version the
second. -/
theorem auto_version_loses_write :
    (∀ i, (runEmit crates levels plain writes crossed fresh).phase i = .finished) ∧
    (runEmit crates levels plain writes crossed fresh).live.get "a".toList =
      some one.contentHash ∧
    recordedRoot crates (runEmit crates levels plain writes crossed fresh).store
      (runEmit crates levels plain writes crossed fresh).head = some rootOfTwo ∧
    ¬HeadUpToDate crates levels plain (runEmit crates levels plain writes crossed fresh) := by
  obtain ⟨-,hdone,hlive,hrec,htracked⟩ := evaluated_writers
  refine ⟨hdone,hlive,hrec,?_⟩
  rintro ⟨root,head,entry,hroot,hhead,hentry,hfiltered⟩
  have hentryRoot : entry.root = rootOfTwo := by
    rw [hhead,recordedRoot,Option.bind_some,hentry] at hrec
    exact Option.some.inj hrec
  have hrootOne : root = rootOfOne := Option.some.inj (hroot.symm.trans htracked)
  rw [hentryRoot,hrootOne] at hfiltered
  have hne : rootOfOne ≠ rootOfTwo := by decide
  exact hne (Except.ok.inj hfiltered)

end EntityCore
