import EntityCore.RootTracker

/-! Writers racing under one tracked prefix. Each writes the index and then repeats
read, recompute, compare-and-swap on the tracked root until the swap succeeds. The
steps of different writers interleave in any order. -/
namespace EntityCore

open Outcome Strings Function

/-- A write a writer is to make: bind the path, or remove it. -/
structure Job where
  path : Str
  value : Option Hash

inductive Phase where
  | waiting
  | reading (attempts : ℕ)
  | computing (attempts : ℕ) (currentRoot : Option Hash)
  | swapping (attempts : ℕ) (currentRoot : Option Hash) (newRoot : Hash)
  | finished
  | failed (message : String)
  deriving DecidableEq

/-- Between its index write and its root update; a failed writer stays there. -/
def Phase.unsettled : Phase → Bool
  | .waiting => false
  | .finished => false
  | _ => true

structure RaceState (ι : Type) where
  index : MemoryLocationIndex
  store : ContentStore
  phase : ι → Phase

namespace Job

def write (job : Job) (index : MemoryLocationIndex) : MemoryLocationIndex :=
  match job.value with
  | some h => index.set job.path h
  | none => (index.remove job.path).2

/-- A write that changes nothing emits no event. -/
def emits (job : Job) (index : MemoryLocationIndex) : Bool := index.get job.path ≠ job.value

/-- The path can be stored and is not the tracker's own. -/
def Plain (E : RootTrackerEngine) (job : Job) : Prop :=
  E.isSelfPath job.path = false ∧ (job.value ≠ none → pathIsStorable job.path = true)

end Job

/-- One tracked prefix, as the engine addresses it. -/
structure Tracked where
  engine : RootTrackerEngine
  barePrefix : Str

namespace Tracked

def rootPath (T : Tracked) : Str := T.engine.qualifiedRootPath T.barePrefix
def top (T : Tracked) : Str := T.engine.qualifiedBarePrefix T.barePrefix
def rel (T : Tracked) (path : Str) : Str := path.drop T.top.length
def bindings (T : Tracked) (index : MemoryLocationIndex) : OrderedMap Str Hash :=
  T.engine.bindingsUnder index T.barePrefix

end Tracked

section Race

variable {ι : Type} [DecidableEq ι] (X : Platform) (fuel : ℕ) (T : Tracked) (jobs : ι → Job)

namespace RaceState

def moveTo (s : RaceState ι) (i : ι) (p : Phase) : RaceState ι :=
  { s with phase := Function.update s.phase i p }

end RaceState

/-- The compare-and-swap of the root, on the index itself. -/
def swapIndex (index : MemoryLocationIndex) (currentRoot : Option Hash) (newRoot : Hash) :
    Except CasError MemoryLocationIndex :=
  match currentRoot with
  | some expected => index.compareAndSwap T.rootPath expected newRoot
  | none => index.compareAndCreate T.rootPath newRoot

/-- The next step of one writer. -/
def raceStep (i : ι) (s : RaceState ι) : RaceState ι :=
  match s.phase i with
  | .waiting =>
    let written := { s with index := (jobs i).write s.index }
    if (jobs i).emits s.index && startsWith (jobs i).path T.top then
      written.moveTo i (.reading maxRootCasRetries)
    else written.moveTo i .finished
  | .reading 0 => s.moveTo i (.failed (RootTrackerEngine.racesLost T.rootPath))
  | .reading (attempts+1) => s.moveTo i (.computing attempts (s.index.get T.rootPath))
  | .computing attempts currentRoot =>
    let r := RootTrackerEngine.trieUpdate X fuel currentRoot (T.rel (jobs i).path) (jobs i).value
      s.store
    let computed := { s with store := r.2 }
    match r.1 with
    | .error e => computed.moveTo i (.failed (RootTrackerEngine.failureText e))
    | .ok newRoot =>
      if currentRoot = some newRoot then computed.moveTo i .finished
      else computed.moveTo i (.swapping attempts currentRoot newRoot)
  | .swapping attempts currentRoot newRoot =>
    match swapIndex T s.index currentRoot newRoot with
    | .ok index => { s with index := index }.moveTo i .finished
    | .error _ => s.moveTo i (.reading attempts)
  | .finished => s
  | .failed _ => s

/-- A schedule names the writer that takes each step. -/
def runRace (schedule : List ι) (s : RaceState ι) : RaceState ι :=
  schedule.foldl (fun s i => raceStep X fuel T jobs i s) s

/-- A writer touches the index only while no other writer of its path is unsettled. -/
def SafeStep (i : ι) (s : RaceState ι) : Prop :=
  s.phase i = .waiting → ∀ j, j ≠ i → (jobs j).path = (jobs i).path → (s.phase j).unsettled = false

def SafeRun : List ι → RaceState ι → Prop
  | [], _ => True
  | i::rest, s => SafeStep jobs i s ∧ SafeRun rest (raceStep X fuel T jobs i s)

/-- The tracked root holds the bindings of the index under the prefix. -/
def TrackedMatches (s : RaceState ι) : Prop :=
  (∀ root, s.index.get T.rootPath = some root →
    collectAllBindings X s.store fuel root = .ok (T.bindings s.index)) ∧
  (s.index.get T.rootPath = none → T.bindings s.index = .empty)

end Race

/-! The pieces of the invariant. -/

section Lemmas

variable {X : Platform} {T : Tracked} {keys : Set Str}

theorem Rooted.mono {s t : ContentStore} (hst : s ≤ t) {root : Option Hash}
    {m : OrderedMap Str Hash} (h : Rooted X s root m) : Rooted X t root m :=
  h.imp_right fun hr => ⟨hr.1,hr.2.mono hst⟩

theorem bindings_of_rootHash {t : ContentStore} (ht : t.Faithful X) (hkeys : Spread X keys)
    {m m' : OrderedMap Str Hash} (hm : Within m keys) (hm' : Within m' keys)
    (hs : TrieStored X t m) (hs' : TrieStored X t m') (h : rootHashOf X m = rootHashOf X m') :
    m = m' := by
  have hc := collectAllBindings_spec ht hkeys le_rfl le_rfl hm hs
  have hc' := collectAllBindings_spec ht hkeys le_rfl le_rfl hm' hs'
  rw [h,hc'] at hc
  exact (Except.ok.inj hc).symm

theorem Rooted.unique {t : ContentStore} (ht : t.Faithful X) (hkeys : Spread X keys)
    {root : Option Hash} {m m' : OrderedMap Str Hash} (hm : Within m keys) (hm' : Within m' keys)
    (h : Rooted X t root m) (h' : Rooted X t root m') : m = m' := by
  rcases h with ⟨rfl,rfl⟩ | ⟨rfl,hs⟩
  · rcases h' with ⟨-,rfl⟩ | ⟨hn,-⟩
    · rfl
    · cases hn
  · rcases h' with ⟨hn,-⟩ | ⟨he,hs'⟩
    · cases hn
    · exact bindings_of_rootHash ht hkeys hm hm' hs hs' (Option.some.inj he)

theorem Job.get_write {job : Job} (h : job.Plain T.engine) (index : MemoryLocationIndex) (p : Str) :
    (job.write index).get p = if p = job.path then job.value else index.get p := by
  unfold Job.write
  cases hv : job.value with
  | some v =>
    have hstorable := h.2 (by rw [hv]; exact Option.some_ne_none v)
    dsimp only
    rw [MemoryLocationIndex.get_set]
    simp [hstorable]
  | none => simp [MemoryLocationIndex.remove,MemoryLocationIndex.get]

theorem Job.write_of_not_emits {job : Job} (h : job.Plain T.engine) {index : MemoryLocationIndex}
    (he : job.emits index = false) : job.write index = index := by
  apply MemoryLocationIndex.ext_get
  intro p
  rw [Job.get_write h]
  by_cases hp : p = job.path
  · have hsame : index.get job.path = job.value := by simpa [Job.emits] using he
    rw [if_pos hp,hp,hsame]
  · rw [if_neg hp]

theorem Job.ne_rootPath {job : Job} (h : job.Plain T.engine) : job.path ≠ T.rootPath := by
  intro he
  have hself := RootTrackerEngine.qualifiedRootPath_self (E := T.engine) T.barePrefix
  have hplain := h.1
  rw [he,Tracked.rootPath,hself] at hplain
  cases hplain

theorem Tracked.get_bindings (index : MemoryLocationIndex) (rel : Str) :
    (T.bindings index).get rel = if T.engine.isSelfPath (T.top++rel) then none
      else index.get (T.top++rel) := RootTrackerEngine.get_bindingsUnder index T.barePrefix rel

/-- A change of the index outside a path leaves the binding below the prefix alone. -/
theorem Tracked.get_bindings_congr {index index' : MemoryLocationIndex} {rel : Str}
    (h : T.engine.isSelfPath (T.top++rel) = false → index'.get (T.top++rel) = index.get (T.top++rel)) :
    (T.bindings index').get rel = (T.bindings index).get rel := by
  rw [get_bindings,get_bindings]
  split_ifs with hself
  · rfl
  · exact h (by simpa using hself)

theorem Tracked.path_eq {path : Str} (h : T.top <+: path) : path = T.top++T.rel path := by
  obtain ⟨r,rfl⟩ := h
  rw [Tracked.rel,List.drop_left]

end Lemmas

section Invariant

variable {ι : Type} [DecidableEq ι] {X : Platform} {fuel : ℕ} {T : Tracked} {jobs : ι → Job}
  {keys : Set Str}

def Job.op (T : Tracked) (job : Job) : TrieOp :=
  RootTrackerEngine.updateOp (T.rel job.path) job.value

theorem Job.get_op {job : Job} (m : OrderedMap Str Hash) (rel : Str) :
    ((job.op T).apply m).get rel = if rel = T.rel job.path then job.value else m.get rel := by
  unfold Job.op
  cases job.value with
  | some v => simp [RootTrackerEngine.updateOp,TrieOp.apply]
  | none => simp [RootTrackerEngine.updateOp,TrieOp.apply]

theorem Job.key_op (job : Job) : (job.op T).key = T.rel job.path := by
  unfold Job.op
  cases job.value <;> rfl

/-- What a writer holds between its steps, seen from the bindings `R` of the root. -/
def AttemptOk (X : Platform) (T : Tracked) (keys : Set Str) (store : ContentStore) (job : Job)
    (R : OrderedMap Str Hash) : Phase → Prop
  | .computing _ currentRoot => ∃ C, Rooted X store currentRoot C ∧ Within C keys ∧
      C.get (T.rel job.path) = R.get (T.rel job.path)
  | .swapping _ currentRoot newRoot => ∃ C, Rooted X store currentRoot C ∧ Within C keys ∧
      newRoot = rootHashOf X ((job.op T).apply C) ∧ TrieStored X store ((job.op T).apply C)
  | _ => True

theorem AttemptOk.mono {s t : ContentStore} (hst : s ≤ t) {job : Job} {R R' : OrderedMap Str Hash}
    (hR : R'.get (T.rel job.path) = R.get (T.rel job.path)) {p : Phase}
    (h : AttemptOk X T keys s job R p) : AttemptOk X T keys t job R' p := by
  cases p with
  | computing n cur =>
    obtain ⟨C,hC,hw,hg⟩ := h
    exact ⟨C,hC.mono hst,hw,hg.trans hR.symm⟩
  | swapping n cur new =>
    obtain ⟨C,hC,hw,hnew,hs⟩ := h
    exact ⟨C,hC.mono hst,hw,hnew,hs.mono hst⟩
  | _ => trivial

/-- The root's bindings are those of the index, but for paths whose writer has not
settled; there the index already has what the writer is to put into the root. -/
structure RaceInv (X : Platform) (T : Tracked) (jobs : ι → Job) (keys : Set Str) (s : RaceState ι)
    (R : OrderedMap Str Hash) : Prop where
  rooted : Rooted X s.store (s.index.get T.rootPath) R
  within : Within R keys
  agree : ∀ rel, (∀ i, (s.phase i).unsettled = true → (jobs i).path ≠ T.top++rel) →
    R.get rel = (T.bindings s.index).get rel
  alone : ∀ i j, (s.phase i).unsettled = true → (s.phase j).unsettled = true →
    (jobs i).path = (jobs j).path → i = j
  written : ∀ i, (s.phase i).unsettled = true →
    T.top <+: (jobs i).path ∧ s.index.get (jobs i).path = (jobs i).value
  attempt : ∀ i, AttemptOk X T keys s.store (jobs i) R (s.phase i)

/-- A writer that stays on its side of settling. -/
theorem unsettled_update {phase : ι → Phase} {i : ι} {p : Phase}
    (hp : p.unsettled = (phase i).unsettled) :
    ∀ j, (update phase i p j).unsettled = (phase j).unsettled :=
  (forall_update_iff phase fun j q => q.unsettled = (phase j).unsettled).mpr ⟨hp,fun _ _ => rfl⟩

theorem eq_or_unsettled {phase : ι → Phase} {i : ι} {p : Phase} :
    ∀ j, (update phase i p j).unsettled = true → j = i ∨ j ≠ i ∧ (phase j).unsettled = true :=
  (forall_update_iff phase fun j q => q.unsettled = true →
    j = i ∨ j ≠ i ∧ (phase j).unsettled = true).mpr ⟨fun _ => .inl rfl,fun _ hj h => .inr ⟨hj,h⟩⟩

/-- What one writer comes to hold leaves the others' attempts alone. -/
theorem attempts_update {phase : ι → Phase} {store : ContentStore} {R : OrderedMap Str Hash} {i : ι}
    {p : Phase} (hp : AttemptOk X T keys store (jobs i) R p)
    (h : ∀ j, j ≠ i → AttemptOk X T keys store (jobs j) R (phase j)) :
    ∀ j, AttemptOk X T keys store (jobs j) R (update phase i p j) :=
  (forall_update_iff phase fun j => AttemptOk X T keys store (jobs j) R).mpr ⟨hp,h⟩

/-- A writer moves on and stays unsettled; nothing else changes but the store. -/
theorem RaceInv.moveTo {s : RaceState ι} {R : OrderedMap Str Hash} (h : RaceInv X T jobs keys s R)
    {i : ι} (hi : (s.phase i).unsettled = true) {store : ContentStore} (hstore : s.store ≤ store)
    {p : Phase} (hp : p.unsettled = true) (hattempt : AttemptOk X T keys store (jobs i) R p) :
    RaceInv X T jobs keys ({ s with store := store }.moveTo i p) R := by
  have hsame := unsettled_update (hp.trans hi.symm)
  refine ⟨h.rooted.mono hstore,h.within,?_,?_,?_,?_⟩
  · intro rel hrel
    exact h.agree rel fun j hj => hrel j ((hsame j).trans hj)
  · intro j k hj hk
    exact h.alone j k ((hsame j).symm.trans hj) ((hsame k).symm.trans hk)
  · intro j hj
    exact h.written j ((hsame j).symm.trans hj)
  · exact attempts_update hattempt fun j _ => (h.attempt j).mono hstore rfl

/-- A writer is done once the root has what it wrote. -/
theorem RaceInv.settle {s : RaceState ι} {R : OrderedMap Str Hash} (h : RaceInv X T jobs keys s R)
    {i : ι} (hplain : (jobs i).Plain T.engine) (hi : (s.phase i).unsettled = true)
    (hR : R.get (T.rel (jobs i).path) = (jobs i).value) :
    RaceInv X T jobs keys (s.moveTo i .finished) R := by
  have hback : ∀ j, (update s.phase i .finished j).unsettled = true →
      j ≠ i ∧ (s.phase j).unsettled = true := by
    intro j hj
    rcases eq_or_unsettled j hj with rfl | h
    · rw [update_self] at hj
      cases hj
    · exact h
  refine ⟨h.rooted,h.within,?_,?_,?_,?_⟩
  · intro rel hrel
    by_cases hpath : (jobs i).path = T.top++rel
    · have hrel' : T.rel (jobs i).path = rel := by rw [hpath,Tracked.rel,List.drop_left]
      have hself := hplain.1
      rw [hpath] at hself
      rw [hrel'] at hR
      rw [hR,Tracked.get_bindings,if_neg (by simp [hself]),← hpath]
      exact (h.written i hi).2.symm
    · refine h.agree rel fun j hj => ?_
      by_cases hji : j = i
      · subst hji
        exact hpath
      · exact hrel j (by simpa [RaceState.moveTo,update_of_ne hji] using hj)
  · intro j k hj hk
    exact h.alone j k (hback j hj).2 (hback k hk).2
  · intro j hj
    exact h.written j (hback j hj).2
  · exact attempts_update trivial fun j _ => h.attempt j

/-- The index write of a writer whose path no other writer is busy with. -/
theorem RaceInv.write {s : RaceState ι} {R : OrderedMap Str Hash} (h : RaceInv X T jobs keys s R)
    (hjobs : ∀ i, (jobs i).Plain T.engine) {i : ι} (hi : s.phase i = .waiting)
    (hsafe : SafeStep jobs i s) : RaceInv X T jobs keys (raceStep X fuel T jobs i s) R := by
  have hget := Job.get_write (hjobs i) s.index
  have hroot : ((jobs i).write s.index).get T.rootPath = s.index.get T.rootPath := by
    rw [hget,if_neg (Job.ne_rootPath (hjobs i)).symm]
  have hiu : (s.phase i).unsettled = false := by rw [hi]; rfl
  unfold raceStep
  rw [hi]
  dsimp only
  by_cases hbusy : ((jobs i).emits s.index && startsWith (jobs i).path T.top) = true
  · rw [if_pos hbusy]
    rw [Bool.and_eq_true,startsWith_iff] at hbusy
    have hother : ∀ j, j ≠ i → (s.phase j).unsettled = true → (jobs j).path ≠ (jobs i).path := by
      intro j hji hj hpath
      rw [hsafe hi j hji hpath] at hj
      cases hj
    refine ⟨?_,h.within,?_,?_,?_,?_⟩
    · show Rooted X s.store (((jobs i).write s.index).get T.rootPath) R
      rw [hroot]
      exact h.rooted
    · intro rel hrel
      have hne : (jobs i).path ≠ T.top++rel :=
        hrel i (by simp [RaceState.moveTo,Phase.unsettled])
      rw [h.agree rel fun j hj => ?_]
      · refine (Tracked.get_bindings_congr fun _ => ?_).symm
        show ((jobs i).write s.index).get _ = _
        rw [hget,if_neg (Ne.symm hne)]
      · by_cases hji : j = i
        · subst hji
          exact hne
        · exact hrel j (by simpa [RaceState.moveTo,update_of_ne hji] using hj)
    · intro j k hj hk hpath
      rcases eq_or_unsettled j hj with hj' | ⟨hji,hj'⟩
      · rcases eq_or_unsettled k hk with hk' | ⟨hki,hk'⟩
        · exact hj'.trans hk'.symm
        · rw [hj'] at hpath
          exact absurd hpath.symm (hother k hki hk')
      · rcases eq_or_unsettled k hk with hk' | ⟨hki,hk'⟩
        · rw [hk'] at hpath
          exact absurd hpath (hother j hji hj')
        · exact h.alone j k hj' hk' hpath
    · intro j hj
      rcases eq_or_unsettled j hj with rfl | ⟨hji,hj⟩
      · refine ⟨hbusy.2,?_⟩
        show ((jobs j).write s.index).get _ = _
        rw [hget,if_pos rfl]
      · refine ⟨(h.written j hj).1,?_⟩
        show ((jobs i).write s.index).get _ = _
        rw [hget,if_neg (hother j hji hj)]
        exact (h.written j hj).2
    · exact attempts_update trivial fun j _ => h.attempt j
  · rw [if_neg hbusy]
    have hsame := unsettled_update (p := .finished) hiu.symm
    -- either nothing was written or the path lies outside of the prefix
    have hkeep : ∀ rel, ((jobs i).write s.index).get (T.top++rel) = s.index.get (T.top++rel) := by
      intro rel
      by_cases he : (jobs i).emits s.index = true
      · rw [hget,if_neg]
        intro hpath
        rw [he,Bool.true_and,startsWith_iff] at hbusy
        exact hbusy ⟨rel,hpath⟩
      · rw [Job.write_of_not_emits (hjobs i) (by simpa using he)]
    refine ⟨?_,h.within,?_,?_,?_,?_⟩
    · show Rooted X s.store (((jobs i).write s.index).get T.rootPath) R
      rw [hroot]
      exact h.rooted
    · intro rel hrel
      rw [h.agree rel fun j hj => hrel j ((hsame j).trans hj)]
      exact (Tracked.get_bindings_congr fun _ => hkeep rel).symm
    · intro j k hj hk
      exact h.alone j k ((hsame j).symm.trans hj) ((hsame k).symm.trans hk)
    · intro j hj
      obtain ⟨htop,hval⟩ := h.written j ((hsame j).symm.trans hj)
      refine ⟨htop,?_⟩
      show ((jobs i).write s.index).get _ = _
      rw [Tracked.path_eq htop,hkeep,← Tracked.path_eq htop,hval]
    · exact attempts_update trivial fun j _ => h.attempt j

/-- Reading the root: what is read are the root's own bindings. -/
theorem RaceInv.read {s : RaceState ι} {R : OrderedMap Str Hash} (h : RaceInv X T jobs keys s R)
    {i : ι} {attempts : ℕ} (hi : s.phase i = .reading attempts) :
    RaceInv X T jobs keys (raceStep X fuel T jobs i s) R := by
  have hiu : (s.phase i).unsettled = true := by rw [hi]; rfl
  unfold raceStep
  rw [hi]
  cases attempts with
  | zero => exact h.moveTo hiu le_rfl rfl trivial
  | succ n => exact h.moveTo hiu le_rfl rfl ⟨R,h.rooted,h.within,rfl⟩

/-- Recomputing: if the root read already has the write, then so has the root now. -/
theorem RaceInv.compute {s : RaceState ι} {R : OrderedMap Str Hash} (h : RaceInv X T jobs keys s R)
    (hX : X.FormatAllocated) {t : ContentStore} (ht : t.Faithful X) (hkeys : Spread X keys)
    (hfuel : levels ≤ fuel) (hrel : ∀ i, T.rel (jobs i).path ∈ keys) {i : ι}
    (hplain : (jobs i).Plain T.engine) {attempts : ℕ} {currentRoot : Option Hash}
    (hi : s.phase i = .computing attempts currentRoot)
    (hle : (raceStep X fuel T jobs i s).store ≤ t) :
    RaceInv X T jobs keys (raceStep X fuel T jobs i s) R := by
  have hiu : (s.phase i).unsettled = true := by rw [hi]; rfl
  obtain ⟨C,hC,hCw,hCget⟩ : AttemptOk X T keys s.store (jobs i) R (.computing attempts currentRoot) :=
    hi ▸ h.attempt i
  have hstore : (raceStep X fuel T jobs i s).store =
      (((jobs i).op T).run X fuel currentRoot s.store).2 := by
    unfold raceStep
    rw [hi]
    dsimp only [RootTrackerEngine.trieUpdate]
    show _ = (RootTrackerEngine.trieUpdate X fuel currentRoot (T.rel (jobs i).path) (jobs i).value
      s.store).2
    unfold RootTrackerEngine.trieUpdate
    split
    · rfl
    · split_ifs <;> rfl
  rw [hstore] at hle
  have hkey : ((jobs i).op T).key ∈ keys := by rw [Job.key_op]; exact hrel i
  obtain ⟨store,hrun,hstored⟩ := trieOp_spec hX ht hkeys hfuel hCw hkey hC hle
  have hgrow : s.store ≤ store := by
    have hg := grows_trieOp (X := X) fuel currentRoot ((jobs i).op T) s.store
    rwa [hrun] at hg
  rw [hrun] at hle
  have hupdate : RootTrackerEngine.trieUpdate X fuel currentRoot (T.rel (jobs i).path) (jobs i).value
      s.store = (.ok (rootHashOf X (((jobs i).op T).apply C)),store) := hrun
  unfold raceStep
  rw [hi]
  dsimp only
  rw [hupdate]
  dsimp only
  split_ifs with hnothing
  · have hsame : C = ((jobs i).op T).apply C := by
      rw [hnothing] at hC
      exact (hC.mono hgrow).mono hle |>.unique ht hkeys hCw (hCw.apply hkey)
        (.inr ⟨rfl,hstored.mono hle⟩)
    have hvalue : R.get (T.rel (jobs i).path) = (jobs i).value := by
      rw [← hCget,hsame,Job.get_op,if_pos rfl]
    have hmoved := h.moveTo hiu hgrow (p := .reading 0) rfl trivial
    have hs := hmoved.settle hplain (by simp [RaceState.moveTo,Phase.unsettled]) hvalue
    simpa [RaceState.moveTo] using hs
  · exact h.moveTo hiu hgrow rfl ⟨C,hC.mono hgrow,hCw,rfl,hstored⟩

/-- A swap that succeeds moves the root by the writer's own operation. -/
theorem swapIndex_ok {index index' : MemoryLocationIndex} {currentRoot : Option Hash} {newRoot : Hash}
    (h : swapIndex T index currentRoot newRoot = .ok index') : index.get T.rootPath = currentRoot ∧
      ∀ p, index'.get p = if p = T.rootPath then some newRoot else index.get p := by
  unfold swapIndex at h
  cases currentRoot with
  | some expected =>
    dsimp only at h
    unfold MemoryLocationIndex.compareAndSwap at h
    cases hg : index.paths.get T.rootPath with
    | none =>
      rw [hg] at h
      cases h
    | some current =>
      rw [hg] at h
      dsimp only at h
      split_ifs at h with hc
      obtain rfl := Except.ok.inj h
      refine ⟨by rw [MemoryLocationIndex.get,hg,hc],fun p => ?_⟩
      simp [MemoryLocationIndex.get]
  | none =>
    dsimp only at h
    unfold MemoryLocationIndex.compareAndCreate at h
    cases hg : index.paths.get T.rootPath with
    | some current =>
      rw [hg] at h
      cases h
    | none =>
      rw [hg] at h
      obtain rfl := Except.ok.inj h
      refine ⟨hg,fun p => ?_⟩
      simp [MemoryLocationIndex.get]

theorem RaceInv.swap {s : RaceState ι} {R : OrderedMap Str Hash} (h : RaceInv X T jobs keys s R)
    {t : ContentStore} (ht : t.Faithful X) (hst : s.store ≤ t) (hkeys : Spread X keys)
    (hrel : ∀ i, T.rel (jobs i).path ∈ keys) (hjobs : ∀ i, (jobs i).Plain T.engine) {i : ι}
    {attempts : ℕ} {currentRoot : Option Hash} {newRoot : Hash}
    (hi : s.phase i = .swapping attempts currentRoot newRoot) :
    ∃ R', RaceInv X T jobs keys (raceStep X fuel T jobs i s) R' := by
  have hiu : (s.phase i).unsettled = true := by rw [hi]; rfl
  obtain ⟨C,hC,hCw,hnew,hstored⟩ :
      AttemptOk X T keys s.store (jobs i) R (.swapping attempts currentRoot newRoot) :=
    hi ▸ h.attempt i
  unfold raceStep
  rw [hi]
  dsimp only
  cases hswap : swapIndex T s.index currentRoot newRoot with
  | error e => exact ⟨R,h.moveTo hiu le_rfl rfl trivial⟩
  | ok index =>
    dsimp only
    obtain ⟨hcurrent,hget⟩ := swapIndex_ok hswap
    have hCR : C = R := by
      have hR := h.rooted
      rw [hcurrent] at hR
      exact (hC.mono hst).unique ht hkeys hCw h.within (hR.mono hst)
    subst hCR
    have hkey : ((jobs i).op T).key ∈ keys := by rw [Job.key_op]; exact hrel i
    have hkeep : ∀ p, T.engine.isSelfPath p = false → index.get p = s.index.get p := by
      intro p hp
      rw [hget,if_neg]
      intro he
      rw [he,Tracked.rootPath,RootTrackerEngine.qualifiedRootPath_self] at hp
      cases hp
    have hother : ∀ j, j ≠ i → (s.phase j).unsettled = true →
        T.rel (jobs j).path ≠ T.rel (jobs i).path := by
      intro j hji hj hr
      apply hji
      apply h.alone j i hj hiu
      rw [Tracked.path_eq (h.written j hj).1,Tracked.path_eq (h.written i hiu).1,hr]
    -- the root after the swap, with the writer still counted as unsettled
    have hmid : RaceInv X T jobs keys ({ s with index := index }.moveTo i (.reading 0))
        (((jobs i).op T).apply C) := by
      have hsame := unsettled_update (p := .reading 0) hiu.symm
      refine ⟨?_,hCw.apply hkey,?_,?_,?_,?_⟩
      · show Rooted X s.store (index.get T.rootPath) _
        rw [hget,if_pos rfl,hnew]
        exact .inr ⟨rfl,hstored⟩
      · intro rel hrel'
        have hne : rel ≠ T.rel (jobs i).path := by
          intro he
          refine hrel' i (by simp [RaceState.moveTo,Phase.unsettled]) ?_
          rw [he]
          exact Tracked.path_eq (h.written i hiu).1
        rw [Job.get_op,if_neg hne,
          h.agree rel fun j hj => hrel' j ((hsame j).trans hj)]
        exact (Tracked.get_bindings_congr fun hself => hkeep _ hself).symm
      · intro j k hj hk
        exact h.alone j k ((hsame j).symm.trans hj) ((hsame k).symm.trans hk)
      · intro j hj
        obtain ⟨htop,hval⟩ := h.written j ((hsame j).symm.trans hj)
        refine ⟨htop,?_⟩
        show index.get _ = _
        rw [hkeep _ (hjobs j).1,hval]
      · refine attempts_update trivial fun j hji => ?_
        have hold := h.attempt j
        cases hu : (s.phase j).unsettled with
        | true =>
          have hR : (((jobs i).op T).apply C).get (T.rel (jobs j).path) =
              C.get (T.rel (jobs j).path) := by
            rw [Job.get_op,if_neg (hother j hji hu)]
          exact hold.mono le_rfl hR
        | false =>
          cases hph : s.phase j with
          | waiting => trivial
          | finished => trivial
          | _ => rw [hph] at hu; cases hu
    refine ⟨((jobs i).op T).apply C,?_⟩
    have hsettled := hmid.settle (hjobs i) (by simp [RaceState.moveTo,Phase.unsettled])
      (by rw [Job.get_op,if_pos rfl])
    simpa [RaceState.moveTo] using hsettled

theorem raceStep_grows (i : ι) (s : RaceState ι) : s.store ≤ (raceStep X fuel T jobs i s).store := by
  unfold raceStep
  cases hp : s.phase i with
  | waiting =>
    dsimp only
    split_ifs
    · exact le_rfl
    · exact le_rfl
  | reading n =>
    cases n with
    | zero => exact le_rfl
    | succ n => exact le_rfl
  | computing n cur =>
    have hg := grows_trieOp (X := X) fuel cur ((jobs i).op T) s.store
    dsimp only [RootTrackerEngine.trieUpdate]
    split
    · exact hg
    · split_ifs
      · exact hg
      · exact hg
  | swapping n cur new =>
    dsimp only
    cases swapIndex T s.index cur new with
    | ok index => exact le_rfl
    | error e => exact le_rfl
  | finished => exact le_rfl
  | failed m => exact le_rfl

/-- One step of any writer keeps the invariant. -/
theorem raceStep_inv (hX : X.FormatAllocated) {t : ContentStore} (ht : t.Faithful X)
    (hkeys : Spread X keys) (hfuel : levels ≤ fuel) (hrel : ∀ i, T.rel (jobs i).path ∈ keys)
    (hjobs : ∀ i, (jobs i).Plain T.engine) {s : RaceState ι} {R : OrderedMap Str Hash}
    (h : RaceInv X T jobs keys s R) {i : ι} (hsafe : SafeStep jobs i s)
    (hle : (raceStep X fuel T jobs i s).store ≤ t) :
    ∃ R', RaceInv X T jobs keys (raceStep X fuel T jobs i s) R' := by
  cases hp : s.phase i with
  | waiting => exact ⟨R,h.write hjobs hp hsafe⟩
  | reading n => exact ⟨R,h.read hp⟩
  | computing n cur => exact ⟨R,h.compute hX ht hkeys hfuel hrel (hjobs i) hp hle⟩
  | swapping n cur new => exact h.swap ht ((raceStep_grows i s).trans hle) hkeys hrel hjobs hp
  | finished =>
    have hsame : raceStep X fuel T jobs i s = s := by simp [raceStep,hp]
    rw [hsame]
    exact ⟨R,h⟩
  | failed m =>
    have hsame : raceStep X fuel T jobs i s = s := by simp [raceStep,hp]
    rw [hsame]
    exact ⟨R,h⟩

theorem runRace_grows (schedule : List ι) (s : RaceState ι) :
    s.store ≤ (runRace X fuel T jobs schedule s).store := by
  induction schedule generalizing s with
  | nil => exact le_rfl
  | cons i rest ih => exact (raceStep_grows i s).trans (ih _)

theorem runRace_inv (hX : X.FormatAllocated) {t : ContentStore} (ht : t.Faithful X)
    (hkeys : Spread X keys) (hfuel : levels ≤ fuel) (hrel : ∀ i, T.rel (jobs i).path ∈ keys)
    (hjobs : ∀ i, (jobs i).Plain T.engine) (schedule : List ι) {s : RaceState ι}
    {R : OrderedMap Str Hash} (h : RaceInv X T jobs keys s R)
    (hsafe : SafeRun X fuel T jobs schedule s)
    (hle : (runRace X fuel T jobs schedule s).store ≤ t) :
    ∃ R', RaceInv X T jobs keys (runRace X fuel T jobs schedule s) R' := by
  induction schedule generalizing s R with
  | nil => exact ⟨R,h⟩
  | cons i rest ih =>
    obtain ⟨hstep,hrest⟩ := hsafe
    obtain ⟨R₁,h₁⟩ := raceStep_inv hX ht hkeys hfuel hrel hjobs h hstep
      ((runRace_grows rest _).trans hle)
    exact ih h₁ hrest hle

end Invariant

/-- How a race begins: the root is what the index has under the prefix, no writer has
done anything, and the keys in play have hashes that tell them apart. -/
structure RaceStart {ι : Type} (X : Platform) (T : Tracked) (jobs : ι → Job) (keys : Set Str)
    (s : RaceState ι) : Prop where
  rooted : Rooted X s.store (s.index.get T.rootPath) (T.bindings s.index)
  waiting : ∀ i, s.phase i = .waiting
  spread : Spread X keys
  bound : Within (T.bindings s.index) keys
  rels : ∀ i, T.rel (jobs i).path ∈ keys

/-- If no writer touches a path while another writer of it is unsettled, and the paths
are storable and not the tracker's own, then no write is lost. -/
theorem race_keeps_writes {ι : Type} [DecidableEq ι] (X : Platform) (hX : X.FormatAllocated)
    (fuel : ℕ) (hfuel : levels ≤ fuel) (T : Tracked) (jobs : ι → Job) (keys : Set Str)
    (s : RaceState ι) (hstart : RaceStart X T jobs keys s) (schedule : List ι)
    (hstore : (runRace X fuel T jobs schedule s).store.Faithful X)
    (hjobs : ∀ i, (jobs i).Plain T.engine) (hsafe : SafeRun X fuel T jobs schedule s)
    (hdone : ∀ i, (runRace X fuel T jobs schedule s).phase i = .finished) :
    TrackedMatches X fuel T (runRace X fuel T jobs schedule s) := by
  have hquiet : ∀ i, (s.phase i).unsettled = false := fun i => by rw [hstart.waiting i]; rfl
  have hinit : RaceInv X T jobs keys s (T.bindings s.index) := by
    refine ⟨hstart.rooted,hstart.bound,fun _ _ => rfl,?_,?_,?_⟩
    · intro i j hi
      rw [hquiet i] at hi
      cases hi
    · intro i hi
      rw [hquiet i] at hi
      cases hi
    · intro i
      rw [hstart.waiting i]
      trivial
  obtain ⟨R,hR⟩ := runRace_inv hX hstore hstart.spread hfuel hstart.rels hjobs schedule hinit hsafe
    le_rfl
  have hall : R = T.bindings (runRace X fuel T jobs schedule s).index := by
    apply OrderedMap.ext_get
    intro rel
    apply hR.agree rel
    intro i hi
    rw [hdone i] at hi
    cases hi
  subst hall
  rcases hR.rooted with ⟨hnone,hempty⟩ | ⟨hsome,hstored⟩
  · refine ⟨fun root hroot => ?_,fun _ => hempty⟩
    rw [hnone] at hroot
    cases hroot
  · refine ⟨fun root hroot => ?_,fun hnone => ?_⟩
    · rw [hsome] at hroot
      cases hroot
      exact collectAllBindings_spec hstore hstart.spread hfuel le_rfl hR.within hstored
    · rw [hsome] at hnone
      cases hnone

namespace RaceSample

open Sample Ecf ByteCode

def nodes : List (SnapshotNodeData × ℕ) := [
  (⟨0x2000000#32,[.bucket [("a".toList,sha256Hash 1)]]⟩,
    0x1a889e9765bfc855676b2b75069942fd90ea7226b52e1ffc15d6a97ed745c96d),
  (⟨0x80#32,[.bucket [("b".toList,sha256Hash 2)]]⟩,
    0xbecee998468dfac56716889114a3f62d5ab6ddc4ac6252aba6f4ac6ca25acea3),
  (⟨0x2000080#32,[.bucket [("b".toList,sha256Hash 2)],.bucket [("a".toList,sha256Hash 1)]]⟩,
    0x9dd86b985a0e981448697e2469293af392fbad360540cedec059a991be000e5c),
  (⟨0x2000000#32,[.bucket [("a".toList,sha256Hash 2)]]⟩,
    0x6212b9333c41911308c0931d7ac3c657d34c677db2caaaf041a64e439df7eb61)]

def keyDigests : List (Bytes × ℕ) := [
  (utf8 "a".toList,0xca978112ca1bbdcafac231b39a23dc4da786eff8147c4e72b9807785afee48bb),
  (utf8 "b".toList,0x3e23e8160039594a33894f6564e1b1348bbd7a0088d42c4acb73eeaed59c009d)]

def crates : Platform := platform (nodes.map fun n => n.1.toValue)
  (keyDigests++nodes.map fun n => (ecfForHash typeTreeSnapshotNode n.1.toEcfBytes,n.2)) []

def project : Tracked := ⟨⟨List.replicate 46 'A'⟩,"project/".toList⟩

def fresh : RaceState (Fin 2) := ⟨⟨.empty⟩,⟨[]⟩,fun _ => .waiting⟩

def jobAt (name : String) (value : ℕ) : Job := ⟨project.top++name.toList,some (sha256Hash value)⟩

def apart : Fin 2 → Job := ![jobAt "a" 1,jobAt "b" 2]

/-- Both read no root; the second writer's swap fails and it tries again. -/
local instance instNeZeroJobs : NeZero 2 := ⟨by decide⟩

def retried : List (Fin 2) := [0,1,0,1,0,1,0,1,1,1,1]

def together : Fin 2 → Job := ![jobAt "a" 1,jobAt "a" 2]

/-- The first to write the index is the last to update the root. -/
def crossed : List (Fin 2) := [0,1,1,1,1,0,0,0]

theorem fresh_start : RaceStart crates project apart {k | k ∈ ["a".toList,"b".toList]} fresh := by
  have hempty : project.bindings fresh.index = .empty := by decide
  refine ⟨.inl ⟨rfl,hempty⟩,fun _ => rfl,?_,?_,?_⟩
  · exact spread_of_level (j := 0) (by decide) (by decide)
  · rw [hempty]
    intro t ht
    cases ht
  · show ∀ i, project.rel (apart i).path ∈ ["a".toList,"b".toList]
    decide

instance decidablePlain (E : RootTrackerEngine) (job : Job) : Decidable (job.Plain E) :=
  inferInstanceAs (Decidable (_ ∧ _))

instance decidableSafeRun {ι : Type} [DecidableEq ι] [Fintype ι] (X : Platform) (fuel : ℕ)
    (T : Tracked) (jobs : ι → Job) :
    ∀ (schedule : List ι) (s : RaceState ι), Decidable (SafeRun X fuel T jobs schedule s)
  | [], _ => .isTrue trivial
  | i::rest, s =>
    haveI : Decidable (SafeStep jobs i s) := by unfold SafeStep; infer_instance
    haveI := decidableSafeRun X fuel T jobs rest (raceStep X fuel T jobs i s)
    inferInstanceAs (Decidable (_ ∧ _))

/-- What the two schedules come to. -/
theorem evaluated_race :
    ((∀ x ∈ nodes, x.1.toEcfBytes.length < 2^63) ∧
      ∀ e ∈ (runRace crates levels project apart retried fresh).store.puts,
        (runRace crates levels project apart retried fresh).store.get e.contentHash = some e ∧
        ∃ n ∈ nodes, n.1.toEcfBytes = e.data) ∧
    ((∀ i, (apart i).Plain project.engine) ∧ SafeRun crates levels project apart retried fresh ∧
      ∀ i, (runRace crates levels project apart retried fresh).phase i = .finished) ∧
    ((∀ i, (together i).Plain project.engine) ∧
      ∀ i, (runRace crates levels project together crossed fresh).phase i = .finished) ∧
    (runRace crates levels project together crossed fresh).index.get project.rootPath =
      some (sha256Hash 0x1a889e9765bfc855676b2b75069942fd90ea7226b52e1ffc15d6a97ed745c96d) ∧
    collectAllBindings crates (runRace crates levels project together crossed fresh).store levels
        (sha256Hash 0x1a889e9765bfc855676b2b75069942fd90ea7226b52e1ffc15d6a97ed745c96d) ≠
      .ok (project.bindings (runRace crates levels project together crossed fresh).index) := by
  decide +kernel

end RaceSample

open RaceSample in
theorem race_keeps_writes_sample :
    crates.FormatAllocated ∧ RaceStart crates project apart {k | k ∈ ["a".toList,"b".toList]} fresh ∧
    (∀ i, (runRace crates levels project apart retried fresh).phase i = .finished) ∧
    TrackedMatches crates levels project (runRace crates levels project apart retried fresh) := by
  have hX : crates.FormatAllocated := by decide
  obtain ⟨⟨hlen,hret⟩,⟨hjobs,hsafe,hdone⟩,-⟩ := evaluated_race
  have hmatch := race_keeps_writes crates hX levels le_rfl project apart _ fresh fresh_start retried
    (TrieSample.faithful_of_nodes hlen hret) hjobs hsafe hdone
  exact ⟨hX,fresh_start,hdone,hmatch⟩

open RaceSample Sample in
/-- Every writer has finished; the index has the second value and the root the first. -/
theorem race_loses_write : (∀ i, (together i).Plain project.engine) ∧
    (∀ i, (runRace crates levels project together crossed fresh).phase i = .finished) ∧
    ¬TrackedMatches crates levels project (runRace crates levels project together crossed fresh) := by
  obtain ⟨-,-,⟨hplain,hdone⟩,hroot,hlost⟩ := evaluated_race
  exact ⟨hplain,hdone,fun hmatch => hlost (hmatch.1 _ hroot)⟩

end EntityCore
