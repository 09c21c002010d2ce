import EntityCore.Delegation
import EntityCore.QueryIndex

/-! The location index with its query indexes. Every write goes through to the inner index and
is then mirrored in the query indexes; puts into the content store come in between, before or
after the bindings that name them. -/
namespace EntityCore

open Ecf Strings Function

/-- The decorated index with the store it reads, and what the store held of a path's hash when
the path was last set. -/
structure IndexedTree where
  inner : MemoryLocationIndex
  contentStore : ContentStore
  indexes : QueryIndexes
  seen : Str → Option Entity

variable {path : Str} {t' : IndexedTree}

namespace IndexedTree

variable (X : Platform) (typeRegistry : TypeRegistry)

def start : IndexedTree := ⟨⟨.empty⟩,⟨[]⟩,.new,fun _ => none⟩

/-- Add what the store holds under a hash to the indexes. -/
def addHeld (t : IndexedTree) (path : Str) (hash : Hash) : QueryIndexes :=
  match t.contentStore.get hash with
  | some entity => t.indexes.addEntriesForEntity X typeRegistry path entity
  | none => t.indexes

/-- The path was set to the hash just now. -/
def note (t : IndexedTree) (path : Str) (hash : Hash) : IndexedTree :=
  { t with seen := Function.update t.seen path (t.contentStore.get hash) }

def set (t : IndexedTree) (path : Str) (hash : Hash) : IndexedTree :=
  let previous := t.inner.get path
  let written := { t with inner := t.inner.set path hash }
  let written := if pathIsStorable path then written.note path hash else written
  if previous = some hash then written
  else
    let cleared := if previous.isSome then
        { written with indexes := written.indexes.removeEntriesForPath path }
      else written
    { cleared with indexes := cleared.addHeld X typeRegistry path hash }

def remove (t : IndexedTree) (path : Str) : Option Hash × IndexedTree :=
  let indexes := t.indexes.removeEntriesForPath path
  let (removed,inner) := t.inner.remove path
  (removed,{ t with inner,indexes })

def compareAndSwap (t : IndexedTree) (path : Str) (expected newHash : Hash) :
    Except CasError IndexedTree := do
  let inner ← t.inner.compareAndSwap path expected newHash
  let written := { t with inner }.note path newHash
  if expected ≠ newHash then
    let cleared := { written with indexes := written.indexes.removeEntriesForPath path }
    return { cleared with indexes := cleared.addHeld X typeRegistry path newHash }
  else return written

def compareAndRemove (t : IndexedTree) (path : Str) (expected : Hash) :
    Except CasError (Hash × IndexedTree) := do
  let (removed,inner) ← t.inner.compareAndRemove path expected
  return (removed,{ t with inner,indexes := t.indexes.removeEntriesForPath path })

def compareAndCreate (t : IndexedTree) (path : Str) (newHash : Hash) :
    Except CasError IndexedTree := do
  let inner ← t.inner.compareAndCreate path newHash
  let written := { t with inner }.note path newHash
  return { written with indexes := written.addHeld X typeRegistry path newHash }

inductive Call where
  | set (path : Str) (hash : Hash)
  | remove (path : Str)
  | compareAndSwap (path : Str) (expected newHash : Hash)
  | compareAndRemove (path : Str) (expected : Hash)
  | compareAndCreate (path : Str) (newHash : Hash)
  | put (entity : Entity)

/-- A call that fails leaves everything as it was. -/
def call (t : IndexedTree) : Call → IndexedTree
  | .set path hash => t.set X typeRegistry path hash
  | .remove path => (t.remove path).2
  | .compareAndSwap path expected newHash =>
    match t.compareAndSwap X typeRegistry path expected newHash with
    | .ok t' => t'
    | .error _ => t
  | .compareAndRemove path expected =>
    match t.compareAndRemove path expected with
    | .ok (_,t') => t'
    | .error _ => t
  | .compareAndCreate path newHash =>
    match t.compareAndCreate X typeRegistry path newHash with
    | .ok t' => t'
    | .error _ => t
  | .put entity => { t with contentStore := t.contentStore.put entity }

def run (calls : List Call) : IndexedTree := calls.foldl (call X typeRegistry) start

/-- The indexes answer as freshly built ones, from the bindings and from the entities that
were at hand when their paths were last set. -/
def UpToDate (t : IndexedTree) : Prop :=
  t.indexes.Agree (QueryIndexes.rebuildWith X typeRegistry t.inner fun entry => t.seen entry.1)

/-- A write that is refused has nothing to index; a path that is set again to its hash finds
of it what it found before. -/
def Indexable (t : IndexedTree) : Call → Prop
  | .set path hash =>
    if t.inner.get path = some hash then
      pathIsStorable path = true → t.contentStore.get hash = t.seen path
    else pathIsStorable path = true ∨
      (t.contentStore.get hash = none ∧ (t.inner.get path = none ∨ t.seen path = none))
  | .compareAndSwap path expected newHash =>
    t.inner.get path = some expected → expected = newHash → t.contentStore.get newHash = t.seen path
  | _ => True

/-- The entity a path's binding has in the indexes. -/
def posted (t : IndexedTree) (path : Str) : Option Entity :=
  (t.inner.get path).bind fun _ => t.seen path

def Mirrored (t : IndexedTree) : Prop := t.indexes.Reflects X typeRegistry t.posted

variable {X typeRegistry} {t : IndexedTree}

theorem Mirrored.upToDate (h : t.Mirrored X typeRegistry) : t.UpToDate X typeRegistry :=
  h.agree (QueryIndexes.reflects_rebuildWith t.inner fun entry => t.seen entry.1)

/-- Indexing what is held under the hash of a path that has nothing indexed. -/
theorem reflects_addHeld {posted : Str → Option Entity}
    (h : t.indexes.Reflects X typeRegistry posted) (hp : posted path = none)
    (hash : Hash) : (t.addHeld X typeRegistry path hash).Reflects X typeRegistry
      (update posted path (t.contentStore.get hash)) := by
  unfold addHeld
  cases hg : t.contentStore.get hash with
  | some entity => exact h.add hp entity
  | none =>
    have hsame : update posted path none = posted := by
      rw [← hp,update_eq_self]
    rw [hsame]
    exact h

theorem Mirrored.cleared (h : t.Mirrored X typeRegistry) (path : Str) :
    (if (t.inner.get path).isSome then t.indexes.removeEntriesForPath path
      else t.indexes).Reflects X typeRegistry (update t.posted path none) := by
  by_cases hprev : (t.inner.get path).isSome
  · rw [if_pos hprev]
    exact h.remove path
  · have hnone : t.posted path = none := by
      simp only [Bool.not_eq_true,Option.isSome_eq_false_iff,Option.isNone_iff_eq_none] at hprev
      rw [posted,hprev,Option.bind_none]
    rw [if_neg hprev,← hnone,update_eq_self]
    exact h

/-- A path set to a hash posts what is held under it. -/
theorem posted_written {hash : Hash}
    (hinner : ∀ p, t'.inner.get p = if p = path then some hash else t.inner.get p)
    (hseen : t'.seen = update t.seen path (t.contentStore.get hash)) :
    t'.posted = update t.posted path (t.contentStore.get hash) := by
  funext p
  unfold posted
  rw [hinner,hseen]
  by_cases hp : p = path
  · subst hp
    simp
  · simp [hp]

@[simp] theorem set_inner (path : Str) (hash : Hash) :
    (t.set X typeRegistry path hash).inner = t.inner.set path hash := by
  unfold set note
  dsimp only
  split_ifs <;> rfl

@[simp] theorem set_seen (path : Str) (hash : Hash) :
    (t.set X typeRegistry path hash).seen = if pathIsStorable path then
      update t.seen path (t.contentStore.get hash) else t.seen := by
  unfold set note
  dsimp only
  split_ifs <;> rfl

theorem set_indexes (path : Str) (hash : Hash) :
    (t.set X typeRegistry path hash).indexes = if t.inner.get path = some hash then t.indexes
      else addHeld X typeRegistry { t with indexes :=
        if (t.inner.get path).isSome then t.indexes.removeEntriesForPath path else t.indexes }
          path hash := by
  unfold set note
  dsimp only
  split_ifs <;> rfl

theorem posted_set_of_storable (hs : pathIsStorable path = true) (hash : Hash) :
    (t.set X typeRegistry path hash).posted = update t.posted path (t.contentStore.get hash) := by
  apply posted_written
  · intro p
    rw [set_inner,MemoryLocationIndex.get_set]
    simp [hs]
  · rw [set_seen,if_pos hs]

theorem posted_set_of_not_storable (hs : pathIsStorable path = false) (hash : Hash) :
    (t.set X typeRegistry path hash).posted = t.posted := by
  funext p
  unfold posted
  rw [set_inner,set_seen,MemoryLocationIndex.set_of_not_storable hs]
  simp [hs]

theorem Mirrored.set (h : t.Mirrored X typeRegistry) {hash : Hash}
    (hc : t.Indexable (.set path hash)) :
    (t.set X typeRegistry path hash).Mirrored X typeRegistry := by
  unfold Mirrored
  rw [set_indexes]
  by_cases hprev : t.inner.get path = some hash
  · have hsame : (t.set X typeRegistry path hash).posted = t.posted := by
      cases hs : pathIsStorable path with
      | false => exact posted_set_of_not_storable hs hash
      | true =>
        have hheld : t.contentStore.get hash = t.seen path := by simpa [Indexable,hprev,hs] using hc
        have hposted : t.posted path = t.seen path := by rw [posted,hprev,Option.bind_some]
        rw [posted_set_of_storable hs,hheld,← hposted,update_eq_self]
    rw [if_pos hprev,hsame]
    exact h
  · have hposted : (t.set X typeRegistry path hash).posted =
        update t.posted path (t.contentStore.get hash) := by
      cases hs : pathIsStorable path with
      | true => exact posted_set_of_storable hs hash
      | false =>
        have hnone : t.contentStore.get hash = none ∧
            (t.inner.get path = none ∨ t.seen path = none) := by
          simpa [Indexable,hprev,hs] using hc
        have hfree : t.posted path = none := by
          unfold posted
          rcases hnone.2 with hn | hn <;> simp [hn]
        rw [posted_set_of_not_storable hs,hnone.1,← hfree,update_eq_self]
    have hadd := reflects_addHeld (t := { t with indexes := _ }) (h.cleared path)
      (update_self path none t.posted) hash
    rw [if_neg hprev,hposted]
    rw [update_idem] at hadd
    exact hadd

theorem Mirrored.remove (h : t.Mirrored X typeRegistry) (path : Str) :
    (t.remove path).2.Mirrored X typeRegistry := by
  have hposted : (t.remove path).2.posted = update t.posted path none := by
    funext p
    unfold posted
    show ((t.inner.remove path).2.get p).bind _ = _
    by_cases hp : p = path
    · subst hp
      simp [MemoryLocationIndex.remove]
    · simp [MemoryLocationIndex.remove,hp]
      rfl
  unfold Mirrored
  rw [hposted]
  exact QueryIndexes.Reflects.remove h path

theorem get_inserted (path : Str) (hash : Hash) (p : Str) :
    (⟨t.inner.paths.insert path hash⟩ : MemoryLocationIndex).get p =
      if p = path then some hash else t.inner.get p := by
  by_cases hp : p = path <;> simp [hp,MemoryLocationIndex.get]

theorem Mirrored.compareAndSwap (h : t.Mirrored X typeRegistry) {expected newHash : Hash}
    (hc : t.Indexable (.compareAndSwap path expected newHash))
    (hcas : t.compareAndSwap X typeRegistry path expected newHash = .ok t') :
    t'.Mirrored X typeRegistry := by
  have hget : t.inner.get path = some expected ∧ t.inner.compareAndSwap path expected newHash =
      .ok ⟨t.inner.paths.insert path newHash⟩ := by
    unfold IndexedTree.compareAndSwap MemoryLocationIndex.compareAndSwap at hcas
    unfold MemoryLocationIndex.compareAndSwap MemoryLocationIndex.get
    cases hg : t.inner.paths.get path with
    | none => simp [hg,bind,Except.bind] at hcas
    | some current =>
      by_cases he : current = expected
      · simp [he]
      · simp [hg,he,bind,Except.bind] at hcas
  unfold IndexedTree.compareAndSwap at hcas
  rw [hget.2] at hcas
  have hposted : ∀ s : IndexedTree, s.inner = ⟨t.inner.paths.insert path newHash⟩ →
      s.seen = update t.seen path (t.contentStore.get newHash) →
      s.posted = update t.posted path (t.contentStore.get newHash) := by
    intro s hinner hseen
    apply posted_written _ hseen
    intro p
    rw [hinner,get_inserted]
  by_cases he : expected = newHash
  · have ht : t' = note { t with inner := ⟨t.inner.paths.insert path newHash⟩ } path newHash := by
      simpa [he,bind,Except.bind,pure,Except.pure] using hcas.symm
    have hheld := hc hget.1 he
    have hfirst : t.posted path = t.seen path := by rw [posted,hget.1,Option.bind_some]
    unfold Mirrored
    rw [hposted t' (by rw [ht]; rfl) (by rw [ht]; rfl),hheld,← hfirst,update_eq_self,ht]
    exact h
  · have ht : t' = { note { t with inner := ⟨t.inner.paths.insert path newHash⟩ } path newHash with
        indexes := addHeld X typeRegistry
          { t with indexes := t.indexes.removeEntriesForPath path } path newHash } := by
      simp only [bind,Except.bind,ne_eq,he,not_false_eq_true,if_true,pure,Except.pure,
        Except.ok.injEq] at hcas
      rw [← hcas]
      rfl
    have hadd := reflects_addHeld (t := { t with indexes := t.indexes.removeEntriesForPath path })
      (QueryIndexes.Reflects.remove h path) (update_self path none t.posted) newHash
    rw [update_idem] at hadd
    unfold Mirrored
    rw [hposted t' (by rw [ht]; rfl) (by rw [ht]; rfl),ht]
    exact hadd

theorem Mirrored.compareAndRemove (h : t.Mirrored X typeRegistry) {expected removed : Hash}
    (hcas : t.compareAndRemove path expected = .ok (removed,t')) : t'.Mirrored X typeRegistry := by
  have ht : t' = (t.remove path).2 := by
    unfold IndexedTree.compareAndRemove MemoryLocationIndex.compareAndRemove at hcas
    cases hg : t.inner.paths.get path with
    | none => simp [hg,bind,Except.bind] at hcas
    | some current =>
      by_cases he : current = expected
      · simp only [hg,he,if_true,bind,Except.bind,pure,Except.pure,Except.ok.injEq,
          Prod.mk.injEq] at hcas
        rw [← hcas.2]
        rfl
      · simp [hg,he,bind,Except.bind] at hcas
  rw [ht]
  exact h.remove path

theorem Mirrored.compareAndCreate (h : t.Mirrored X typeRegistry) {newHash : Hash}
    (hcas : t.compareAndCreate X typeRegistry path newHash = .ok t') :
    t'.Mirrored X typeRegistry := by
  unfold IndexedTree.compareAndCreate MemoryLocationIndex.compareAndCreate at hcas
  cases hg : t.inner.paths.get path with
  | some current => simp [hg,bind,Except.bind] at hcas
  | none =>
    have hfree : t.posted path = none := by
      rw [posted,MemoryLocationIndex.get,hg,Option.bind_none]
    have ht : t' = { note { t with inner := ⟨t.inner.paths.insert path newHash⟩ } path newHash with
        indexes := t.addHeld X typeRegistry path newHash } := by
      simp only [hg,bind,Except.bind,pure,Except.pure,Except.ok.injEq] at hcas
      rw [← hcas]
      rfl
    have hposted : t'.posted = update t.posted path (t.contentStore.get newHash) := by
      apply posted_written
      · intro p
        rw [ht]
        exact get_inserted path newHash p
      · rw [ht]
        rfl
    unfold Mirrored
    rw [hposted,ht]
    exact reflects_addHeld h hfree newHash

theorem Mirrored.call (h : t.Mirrored X typeRegistry) {c : Call} (hc : t.Indexable c) :
    (t.call X typeRegistry c).Mirrored X typeRegistry := by
  cases c with
  | set path hash => exact h.set hc
  | remove path => exact h.remove path
  | compareAndSwap path expected newHash =>
    cases hr : t.compareAndSwap X typeRegistry path expected newHash with
    | ok t' =>
      simp only [IndexedTree.call,hr]
      exact h.compareAndSwap hc hr
    | error e =>
      simp only [IndexedTree.call,hr]
      exact h
  | compareAndRemove path expected =>
    cases hr : t.compareAndRemove path expected with
    | ok r =>
      simp only [IndexedTree.call,hr]
      exact h.compareAndRemove hr
    | error e =>
      simp only [IndexedTree.call,hr]
      exact h
  | compareAndCreate path newHash =>
    cases hr : t.compareAndCreate X typeRegistry path newHash with
    | ok t' =>
      simp only [IndexedTree.call,hr]
      exact h.compareAndCreate hr
    | error e =>
      simp only [IndexedTree.call,hr]
      exact h
  | put entity => exact h

theorem mirrored_start : start.Mirrored X typeRegistry := QueryIndexes.reflects_new

variable (X typeRegistry)

/-- Every call of a run meets its condition where it is made. -/
def AllIndexable : IndexedTree → List Call → Prop
  | _, [] => True
  | t, c::calls => t.Indexable c ∧ AllIndexable (t.call X typeRegistry c) calls

theorem mirrored_foldl {calls : List Call} (h : t.Mirrored X typeRegistry)
    (hc : AllIndexable X typeRegistry t calls) :
    (calls.foldl (call X typeRegistry) t).Mirrored X typeRegistry := by
  induction calls generalizing t with
  | nil => exact h
  | cons c calls ih => exact ih (h.call hc.1) hc.2

/-- Where every write that finds something to index is also bound, and no path is set again to
its hash after the hash's entity has arrived, the indexes always equal a rebuild. -/
theorem run_upToDate (calls : List Call) (h : AllIndexable X typeRegistry start calls) :
    (run X typeRegistry calls).UpToDate X typeRegistry :=
  (mirrored_foldl X typeRegistry mirrored_start h).upToDate

instance (t : IndexedTree) : (c : Call) → Decidable (t.Indexable c)
  | .set path hash => inferInstanceAs (Decidable (if t.inner.get path = some hash then _ else _))
  | .compareAndSwap path expected newHash =>
    inferInstanceAs (Decidable (t.inner.get path = some expected → expected = newHash → _))
  | .remove _ => inferInstanceAs (Decidable True)
  | .compareAndRemove _ _ => inferInstanceAs (Decidable True)
  | .compareAndCreate _ _ => inferInstanceAs (Decidable True)
  | .put _ => inferInstanceAs (Decidable True)

end IndexedTree

namespace IndexedSample

open Sample IndexedTree

def crates : Platform := platform [] [] []

def plain : Str := '/'::aliceId++"/app/contact".toList

def doubled : Str := '/'::aliceId++"/app//contact".toList

def calls : List Call := [
  .set plain bob.contentHash,.put alice,.put bob,.compareAndSwap plain bob.contentHash alice.contentHash,
  .compareAndSwap plain carol.contentHash bob.contentHash,.set plain bob.contentHash,
  .compareAndCreate doubled alice.contentHash,.compareAndRemove plain bob.contentHash]

/-- Late content, failed and successful swaps, an overwrite and a removal. -/
theorem run_upToDate_sample : (run crates (fun _ => none) calls).UpToDate crates fun _ => none := by
  refine run_upToDate crates (fun _ => none) calls ⟨?_,?_,?_,?_,?_,?_,?_,?_,trivial⟩ <;>
    decide +kernel

/-- A write that the tree refuses is indexed all the same. -/
theorem refused_write_indexed : ¬ (run crates (fun _ => none)
    [.put alice,.set doubled alice.contentHash]).UpToDate crates fun _ => none := by
  intro h
  have htypes := h.types typePeer
  revert htypes
  decide +kernel

end IndexedSample

end EntityCore
