import Mathlib

/-! Finite maps kept as association lists in strictly increasing key order, so
that iteration order is part of the value and equal lookups mean equal maps. -/
namespace EntityCore

open List

/-- A finite map; `entries` is what an in-order iteration yields. -/
structure OrderedMap (α β : Type) [LinearOrder α] where
  entries : List (α × β)
  sorted : entries.Pairwise (fun x y => x.1 < y.1)

namespace OrderedMap

variable {α β : Type} [LinearOrder α]

instance [DecidableEq β] : DecidableEq (OrderedMap α β) := fun m n =>
  decidable_of_iff (m.entries = n.entries) ⟨fun h => by cases m; cases n; simp_all,fun h => by rw [h]⟩

def lookup (k : α) : List (α × β) → Option β
  | [] => none
  | (a,b)::r => if a = k then some b else lookup k r

def insertEntry (k : α) (v : β) : List (α × β) → List (α × β)
  | [] => [(k,v)]
  | (a,b)::r => if k < a then (k,v)::(a,b)::r
    else if a = k then (k,v)::r else (a,b)::insertEntry k v r

theorem mem_insertEntry {k : α} {v : β} {l : List (α × β)} {e : α × β}
    (h : e ∈ insertEntry k v l) : e = (k,v) ∨ e ∈ l := by
  induction l with
  | nil => simpa [insertEntry] using h
  | cons x r ih =>
    simp only [insertEntry] at h
    split at h
    · simpa using h
    · split at h
      · rcases mem_cons.mp h with h | h
        · exact Or.inl h
        · exact Or.inr (mem_cons_of_mem _ h)
      · rcases mem_cons.mp h with h | h
        · exact Or.inr (by rw [h]; exact mem_cons_self)
        · exact (ih h).imp_right (mem_cons_of_mem _)

theorem insertEntry_sorted (k : α) (v : β) (l : List (α × β))
    (h : l.Pairwise (fun x y => x.1 < y.1)) :
    (insertEntry k v l).Pairwise (fun x y => x.1 < y.1) := by
  induction l with
  | nil => simp [insertEntry]
  | cons x r ih =>
    obtain ⟨hx,hr⟩ := pairwise_cons.mp h
    simp only [insertEntry]
    split
    · rename_i hk
      refine pairwise_cons.mpr ⟨?_,h⟩
      intro y hy
      rcases mem_cons.mp hy with rfl | hy
      · exact hk
      · exact hk.trans (hx y hy)
    · rename_i hk
      split
      · rename_i he
        refine pairwise_cons.mpr ⟨fun y hy => ?_,hr⟩
        simpa [← he] using hx y hy
      · rename_i he
        refine pairwise_cons.mpr ⟨fun y hy => ?_,ih hr⟩
        rcases mem_insertEntry hy with rfl | hy
        · exact lt_of_le_of_ne (not_lt.mp hk) he
        · exact hx y hy

def empty : OrderedMap α β := ⟨[],List.Pairwise.nil⟩

def get (m : OrderedMap α β) (k : α) : Option β := lookup k m.entries

def insert (m : OrderedMap α β) (k : α) (v : β) : OrderedMap α β :=
  ⟨insertEntry k v m.entries,insertEntry_sorted k v m.entries m.sorted⟩

def erase (m : OrderedMap α β) (k : α) : OrderedMap α β :=
  ⟨m.entries.filter (fun e => e.1 ≠ k),m.sorted.filter _⟩

/-- The entries whose key satisfies a test, in key order. -/
def filterKeys (m : OrderedMap α β) (p : α → Bool) : OrderedMap α β :=
  ⟨m.entries.filter (fun e => p e.1),m.sorted.filter _⟩

def values (m : OrderedMap α β) : List β := m.entries.map (·.2)

/-- Later entries overwrite earlier ones. -/
def ofList (l : List (α × β)) : OrderedMap α β := l.foldl (fun m e => m.insert e.1 e.2) empty

/-- Every binding of `m` is a binding of `n`. -/
def Sub (m n : OrderedMap α β) : Prop := ∀ k v, m.get k = some v → n.get k = some v

theorem mem_of_lookup {k : α} {v : β} {l : List (α × β)} (h : lookup k l = some v) : (k,v) ∈ l := by
  induction l with
  | nil => simp [lookup] at h
  | cons x r ih =>
    simp only [lookup] at h
    split at h
    · rename_i hx
      have hv : x.2 = v := Option.some.inj h
      rw [← hx,← hv]
      exact mem_cons_self
    · exact mem_cons_of_mem _ (ih h)

theorem lookup_of_mem {k : α} {v : β} {l : List (α × β)} (hs : (l.map Prod.fst).Nodup)
    (h : (k,v) ∈ l) : lookup k l = some v := by
  induction l with
  | nil => simp at h
  | cons x r ih =>
    obtain ⟨hx,hr⟩ := nodup_cons.mp hs
    rcases mem_cons.mp h with rfl | h
    · simp [lookup]
    · have hne : x.1 ≠ k := fun he => hx (by rw [he]; exact mem_map_of_mem h)
      simp only [lookup,if_neg hne]
      exact ih hr h

theorem keys_nodup (m : OrderedMap α β) : (m.entries.map Prod.fst).Nodup :=
  pairwise_map.mpr (m.sorted.imp fun hab => hab.ne)

theorem mem_entries (m : OrderedMap α β) (k : α) (v : β) : (k,v) ∈ m.entries ↔ m.get k = some v :=
  ⟨lookup_of_mem m.keys_nodup,mem_of_lookup⟩

theorem lookup_insertEntry (k : α) (v : β) (l : List (α × β)) (j : α)
    (hs : l.Pairwise (fun x y => x.1 < y.1)) :
    lookup j (insertEntry k v l) = if j = k then some v else lookup j l := by
  induction l with
  | nil => simp [insertEntry,lookup,eq_comm]
  | cons x r ih =>
    obtain ⟨hx,hr⟩ := pairwise_cons.mp hs
    simp only [insertEntry]
    split
    · simp [lookup,eq_comm]
    · split
      · rename_i he
        subst he
        by_cases hj : j = x.1 <;> simp [lookup,hj,eq_comm]
      · rename_i he
        simp only [lookup,ih hr]
        split
        · rename_i hj
          rw [if_neg (by rw [← hj]; exact he)]
        · rfl

@[simp] theorem get_empty (k : α) : (empty : OrderedMap α β).get k = none := rfl

@[simp] theorem get_insert (m : OrderedMap α β) (k : α) (v : β) (j : α) :
    (m.insert k v).get j = if j = k then some v else m.get j :=
  lookup_insertEntry k v m.entries j m.sorted

theorem get_filter (m : OrderedMap α β) (p : α → Bool) (hs) (k : α) :
    get ⟨m.entries.filter (fun e => p e.1),hs⟩ k = if p k then m.get k else none := by
  apply Option.ext
  intro v
  rw [← mem_entries]
  simp only [mem_filter,mem_entries]
  split <;> simp_all

@[simp] theorem get_filterKeys (m : OrderedMap α β) (p : α → Bool) (k : α) :
    (m.filterKeys p).get k = if p k then m.get k else none := get_filter m p _ k

@[simp] theorem get_erase (m : OrderedMap α β) (k j : α) :
    (m.erase k).get j = if j = k then none else m.get j := by
  have h := get_filter m (fun a => decide (a ≠ k)) (m.sorted.filter _) j
  simp only [erase]
  rw [h]
  by_cases hj : j = k <;> simp [hj]

/-- Equal lookups, equal maps: the sorted list is determined by its members. -/
theorem ext_get {m n : OrderedMap α β} (h : ∀ k, m.get k = n.get k) : m = n := by
  have hperm : m.entries.Perm n.entries := by
    apply (perm_ext_iff_of_nodup ?_ ?_).mpr
    · rintro ⟨k,v⟩
      rw [mem_entries,mem_entries,h]
    · exact m.sorted.imp fun hab he => hab.ne (congrArg Prod.fst he)
    · exact n.sorted.imp fun hab he => hab.ne (congrArg Prod.fst he)
  have he : m.entries = n.entries := by
    refine hperm.eq_of_pairwise ?_ m.sorted n.sorted
    intro a b _ _ hab hba
    exact absurd hab hba.not_gt
  cases m; cases n; simp_all

theorem erase_of_get_none {m : OrderedMap α β} {k : α} (h : m.get k = none) : m.erase k = m := by
  apply ext_get
  intro j
  rw [get_erase]
  split
  · rename_i hj; rw [hj,h]
  · rfl

theorem mem_values (m : OrderedMap α β) (v : β) : v ∈ m.values ↔ ∃ k, m.get k = some v := by
  simp only [values,mem_map,Prod.exists,exists_eq_right,mem_entries]

theorem mem_keys_of_get {m : OrderedMap α β} {keys : List α}
    (h : ∀ e ∈ m.entries, e.1 ∈ keys) {k : α} (hk : (m.get k).isSome) : k ∈ keys := by
  obtain ⟨v,hv⟩ := Option.isSome_iff_exists.mp hk
  exact h (k,v) ((m.mem_entries k v).mpr hv)

theorem lookup_eq_none {k : α} {l : List (α × β)} (h : k ∉ l.map Prod.fst) : lookup k l = none := by
  cases hl : lookup k l with
  | none => rfl
  | some v => exact absurd (mem_map_of_mem (f := Prod.fst) (mem_of_lookup hl)) h

theorem lookup_filter {p : α × β → Bool} {l : List (α × β)} (hs : (l.map Prod.fst).Nodup) (k : α) :
    lookup k (l.filter p) = (lookup k l).filter fun v => p (k,v) := by
  induction l with
  | nil => rfl
  | cons e l ih =>
    obtain ⟨a,b⟩ := e
    obtain ⟨he,hl⟩ := nodup_cons.mp hs
    have ih := ih hl
    by_cases hk : a = k
    · subst hk
      have hnone : lookup a (l.filter p) = none := by
        apply lookup_eq_none
        intro hm
        exact he ((List.Sublist.map _ filter_sublist).subset hm)
      by_cases hp : p (a,b) = true
      · simp [hp,lookup,Option.filter]
      · simp [hp,lookup,hnone,Option.filter]
    · by_cases hp : p (a,b) = true
      · simp [hp,lookup,hk,ih]
      · simp [hp,lookup,hk,ih]

theorem get_foldl_insert (l : List (α × β)) (hs : (l.map Prod.fst).Nodup)
    (m : OrderedMap α β) (k : α) :
    (l.foldl (fun m e => m.insert e.1 e.2) m).get k = (lookup k l).or (m.get k) := by
  induction l generalizing m with
  | nil => simp [lookup]
  | cons x r ih =>
    obtain ⟨hx,hr⟩ := nodup_cons.mp hs
    simp only [foldl_cons,ih hr,get_insert,lookup]
    by_cases hk : x.1 = k
    · subst hk
      simp [lookup_eq_none hx]
    · simp [hk,Ne.symm hk]

/-- A map is rebuilt from its entries in any order. -/
theorem foldl_insert_perm {m : OrderedMap α β} {l : List (α × β)} (h : l.Perm m.entries) :
    l.foldl (fun m e => m.insert e.1 e.2) empty = m := by
  have hs : (l.map Prod.fst).Nodup := (h.map Prod.fst).nodup_iff.mpr m.keys_nodup
  apply ext_get
  intro k
  rw [get_foldl_insert _ hs,get_empty,Option.or_none]
  apply Option.ext
  intro v
  rw [← mem_entries,← h.mem_iff]
  exact ⟨mem_of_lookup,lookup_of_mem hs⟩

theorem ofList_entries (m : OrderedMap α β) : ofList m.entries = m :=
  foldl_insert_perm (List.Perm.refl _)

/-! Edits in place, as a program makes them on the list of entries. -/

section FindIdx

variable {k : α} {test : α × β → Bool} (htest : ∀ e, test e = true ↔ e.1 = k)
include htest

theorem get_eq_none_of_findIdx {m : OrderedMap α β} (h : m.entries.findIdx? test = none) :
    m.get k = none := by
  cases hg : m.get k with
  | none => rfl
  | some v =>
    have hm := (mem_entries m k v).mpr hg
    have hne := findIdx?_eq_none_iff.mp h (k,v) hm
    rw [(htest (k,v)).mpr rfl] at hne
    cases hne

theorem get_of_findIdx {m : OrderedMap α β} {i : ℕ} (h : m.entries.findIdx? test = some i) :
    ∃ v, m.get k = some v := by
  obtain ⟨hi,hk,-⟩ := findIdx?_eq_some_iff_getElem.mp h
  have hkey := (htest _).mp hk
  exact ⟨m.entries[i].2,(mem_entries m k _).mp (by rw [← hkey]; exact getElem_mem hi)⟩

theorem modify_eq_insertEntry (v : β) {l : List (α × β)} {i : ℕ}
    (hs : l.Pairwise fun x y => x.1 < y.1) (h : l.findIdx? test = some i) :
    l.modify i (fun e => (e.1,v)) = insertEntry k v l := by
  induction l generalizing i with
  | nil => simp at h
  | cons x r ih =>
    obtain ⟨hx,hr⟩ := pairwise_cons.mp hs
    rw [findIdx?_cons] at h
    by_cases hk : x.1 = k
    · rw [if_pos ((htest x).mpr hk)] at h
      obtain rfl := Option.some.inj h
      simp [insertEntry,hk]
    · rw [if_neg fun hc => hk ((htest x).mp hc),Option.map_eq_some_iff] at h
      obtain ⟨j,hj,rfl⟩ := h
      obtain ⟨hlt,hkey,-⟩ := findIdx?_eq_some_iff_getElem.mp hj
      have hxk : x.1 < k := by
        have hlt' := hx _ (getElem_mem hlt)
        rwa [(htest _).mp hkey] at hlt'
      simp [insertEntry,hxk.not_gt,hk,ih hr hj]

theorem modify_entries {m : OrderedMap α β} {i : ℕ} (v : β) (h : m.entries.findIdx? test = some i) :
    m.entries.modify i (fun e => (e.1,v)) = (m.insert k v).entries :=
  modify_eq_insertEntry htest v m.sorted h

theorem eraseIdx_eq_filter {l : List (α × β)} {i : ℕ}
    (hs : l.Pairwise fun x y => x.1 < y.1) (h : l.findIdx? test = some i) :
    l.eraseIdx i = l.filter fun e => e.1 ≠ k := by
  induction l generalizing i with
  | nil => simp at h
  | cons x r ih =>
    obtain ⟨hx,hr⟩ := pairwise_cons.mp hs
    rw [findIdx?_cons] at h
    by_cases hk : x.1 = k
    · rw [if_pos ((htest x).mpr hk)] at h
      obtain rfl := Option.some.inj h
      have hall : ∀ e ∈ r, e.1 ≠ k := fun e he => hk ▸ (hx e he).ne'
      rw [eraseIdx_cons_zero,filter_cons_of_neg (by simp [hk]),eq_comm, filter_eq_self]
      exact fun e he => by simpa using hall e he
    · rw [if_neg fun hc => hk ((htest x).mp hc),Option.map_eq_some_iff] at h
      obtain ⟨j,hj,rfl⟩ := h
      rw [eraseIdx_cons_succ,filter_cons_of_pos (by simpa using hk),ih hr hj]

theorem eraseIdx_entries {m : OrderedMap α β} {i : ℕ} (h : m.entries.findIdx? test = some i) :
    m.entries.eraseIdx i = (m.erase k).entries :=
  eraseIdx_eq_filter htest m.sorted h

end FindIdx

theorem nodup_entries (m : OrderedMap α β) : m.entries.Nodup :=
  m.sorted.imp fun hab he => hab.ne (congrArg Prod.fst he)

theorem perm_entries {m : OrderedMap α β} {l : List (α × β)} (hl : l.Nodup)
    (h : ∀ k v, (k,v) ∈ l ↔ m.get k = some v) : l.Perm m.entries := by
  apply (perm_ext_iff_of_nodup hl m.nodup_entries).mpr
  rintro ⟨k,v⟩
  rw [h,mem_entries]

/-- Sorting by key restores the order of the entries. -/
theorem insertionSort_entries {m : OrderedMap α β} {l : List (α × β)} (h : l.Perm m.entries) :
    l.insertionSort (fun a b => a.1 ≤ b.1) = m.entries := by
  have hperm := (perm_insertionSort (fun a b : α × β => a.1 ≤ b.1) l).trans h
  have htotal : Std.Total fun a b : α × β => a.1 ≤ b.1 := ⟨fun a b => le_total a.1 b.1⟩
  have htrans : IsTrans (α × β) fun a b => a.1 ≤ b.1 := ⟨fun a b c => le_trans⟩
  have hsorted := pairwise_insertionSort (fun a b : α × β => a.1 ≤ b.1) l
  refine hperm.eq_of_pairwise ?_ hsorted (m.sorted.imp fun hab => hab.le)
  rintro ⟨a,v⟩ ⟨b,w⟩ ha hb hab hba
  have hk : a = b := le_antisymm hab hba
  subst hk
  have hv := (mem_entries m a v).mp (hperm.mem_iff.mp ha)
  rw [(mem_entries m a w).mp hb] at hv
  rw [Option.some.inj hv]

theorem insert_perm {m : OrderedMap α β} {k : α} (v : β) (h : m.get k = none) :
    (m.entries++[(k,v)]).Perm (m.insert k v).entries := by
  apply perm_entries
  · rw [nodup_append]
    refine ⟨m.nodup_entries,nodup_singleton _,?_⟩
    rintro ⟨a,b⟩ ha c hc rfl
    simp only [mem_singleton,Prod.mk.injEq] at hc
    rw [mem_entries,hc.1,h] at ha
    cases ha
  · intro j w
    rw [get_insert,mem_append,mem_entries,mem_singleton,Prod.mk.injEq]
    by_cases hj : j = k
    · subst hj
      simp [h,eq_comm]
    · simp [hj]

theorem length_insert_of_none {m : OrderedMap α β} {k : α} (v : β) (h : m.get k = none) :
    (m.insert k v).entries.length = m.entries.length+1 := by
  rw [← (insert_perm v h).length_eq,length_append,length_singleton]

theorem length_erase_add_one {m : OrderedMap α β} {k : α} {v : β} (h : m.get k = some v) :
    (m.erase k).entries.length+1 = m.entries.length := by
  have hnone : (m.erase k).get k = none := by simp
  have hback : (m.erase k).insert k v = m := by
    apply ext_get
    intro j
    by_cases hj : j = k
    · simp [hj,h]
    · simp [hj]
  rw [← length_insert_of_none v hnone,hback]

theorem length_le_insert (m : OrderedMap α β) (k : α) (v : β) :
    m.entries.length ≤ (m.insert k v).entries.length := by
  cases h : m.get k with
  | none =>
    rw [length_insert_of_none v h]
    exact Nat.le_succ _
  | some w =>
    have hsame : (m.insert k v).erase k = m.erase k := by
      apply ext_get
      intro j
      by_cases hj : j = k
      · simp [hj]
      · simp [hj]
    have hone := length_erase_add_one (m := m.insert k v) (k := k) (v := v) (by simp)
    rw [hsame,length_erase_add_one h] at hone
    exact hone.le

/-- The entries of a map, gathered class by class. -/
theorem flatMap_filterKeys_perm (m : OrderedMap α β) (f : α → ℕ) (n : ℕ)
    (hf : ∀ e ∈ m.entries, f e.1 < n) :
    ((range n).flatMap fun p => (m.filterKeys fun k => f k = p).entries).Perm m.entries := by
  apply perm_entries
  · rw [nodup_flatMap]
    refine ⟨fun p _ => nodup_entries _,nodup_range.imp fun hab => ?_⟩
    intro e ha hb
    have hfa := (mem_filter.mp ha).2
    have hfb := (mem_filter.mp hb).2
    simp only [decide_eq_true_eq] at hfa hfb
    exact hab (hfa.symm.trans hfb)
  · intro k v
    simp only [mem_flatMap,mem_range,mem_entries,get_filterKeys,decide_eq_true_eq]
    constructor
    · rintro ⟨p,-,hp⟩
      split at hp
      · exact hp
      · cases hp
    · intro h
      exact ⟨f k,hf _ ((mem_entries m k v).mpr h),by simp [h]⟩

end OrderedMap
end EntityCore
