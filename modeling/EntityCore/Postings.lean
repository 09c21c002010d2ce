import EntityCore.OrderedMap

/-! Indexes from keys to finite sets of entries. An entry is posted under a key; whoever wants
entries gone names the keys to look under, and a set left empty is dropped. -/
namespace EntityCore

abbrev Postings (κ ε : Type) [LinearOrder κ] : Type := OrderedMap κ (Finset ε)

namespace Postings

variable {κ ε : Type} [LinearOrder κ] [DecidableEq ε]

def under (m : Postings κ ε) (k : κ) : Finset ε := (OrderedMap.get m k).getD ∅

def post (m : Postings κ ε) (p : κ × ε) : Postings κ ε :=
  OrderedMap.insert m p.1 (insert p.2 (under m p.1))

def postAll (m : Postings κ ε) (ps : List (κ × ε)) : Postings κ ε := ps.foldl post m

def retain (keep : ε → Bool) (m : Postings κ ε) (k : κ) : Postings κ ε :=
  match OrderedMap.get m k with
  | none => m
  | some s =>
    if s.filter (keep ·) = ∅ then OrderedMap.erase m k
    else OrderedMap.insert m k (s.filter (keep ·))

def retainAll (keep : ε → Bool) (m : Postings κ ε) (ks : List κ) : Postings κ ε :=
  ks.foldl (retain keep) m

/-- Everything in these sets. -/
def gather (l : List (κ × Finset ε)) : Finset ε := l.foldr (fun e s => e.2 ∪ s) ∅

@[simp] theorem under_empty (k : κ) : under (OrderedMap.empty : Postings κ ε) k = ∅ := rfl

theorem mem_under_post (m : Postings κ ε) (p : κ × ε) (k : κ) (e : ε) :
    e ∈ under (post m p) k ↔ (k,e) = p ∨ e ∈ under m k := by
  unfold under post
  rw [OrderedMap.get_insert]
  by_cases hk : k = p.1
  · subst hk
    simp [under,Prod.ext_iff]
  · simp [hk,Prod.ext_iff]

theorem mem_under_postAll (m : Postings κ ε) (ps : List (κ × ε)) (k : κ) (e : ε) :
    e ∈ under (postAll m ps) k ↔ (k,e) ∈ ps ∨ e ∈ under m k := by
  unfold postAll
  induction ps generalizing m with
  | nil => simp
  | cons p ps ih =>
    rw [List.foldl_cons,ih,mem_under_post,List.mem_cons]
    tauto

theorem mem_under_retain (keep : ε → Bool) (m : Postings κ ε) (j k : κ) (e : ε) :
    e ∈ under (retain keep m j) k ↔ e ∈ under m k ∧ (k = j → keep e) := by
  unfold retain
  cases hg : OrderedMap.get m j with
  | none =>
    by_cases hk : k = j
    · subst hk
      simp [under,hg]
    · simp [hk]
  | some s =>
    by_cases hs : s.filter (keep ·) = ∅
    · simp only [hs,if_true]
      by_cases hk : k = j
      · subst hk
        have hnone : ∀ x ∈ s, keep x = false := by
          simpa [Finset.filter_eq_empty_iff] using hs
        simp only [under,OrderedMap.get_erase,if_true,hg,Option.getD_none,Option.getD_some,
          Finset.notMem_empty,forall_const,false_iff,not_and]
        intro he
        rw [hnone e he]
        exact Bool.false_ne_true
      · simp [under,hk]
    · simp only [hs,if_false]
      by_cases hk : k = j
      · subst hk
        simp [under,hg]
      · simp [under,hk]

theorem mem_under_retainAll (keep : ε → Bool) (m : Postings κ ε) (ks : List κ) (k : κ) (e : ε) :
    e ∈ under (retainAll keep m ks) k ↔ e ∈ under m k ∧ (k ∈ ks → keep e) := by
  unfold retainAll
  induction ks generalizing m with
  | nil => simp
  | cons j ks ih =>
    rw [List.foldl_cons,ih,mem_under_retain,List.mem_cons]
    tauto

theorem mem_gather (l : List (κ × Finset ε)) (e : ε) : e ∈ gather l ↔ ∃ p ∈ l, e ∈ p.2 := by
  induction l with
  | nil => simp [gather]
  | cons p l ih =>
    have hcons : gather (p::l) = p.2 ∪ gather l := rfl
    rw [hcons,Finset.mem_union,ih]
    simp

theorem mem_under_iff (m : Postings κ ε) (k : κ) (e : ε) :
    e ∈ under m k ↔ ∃ s, (k,s) ∈ m.entries ∧ e ∈ s := by
  unfold under
  constructor
  · intro h
    cases hg : OrderedMap.get m k with
    | none => simp [hg] at h
    | some s =>
      rw [hg] at h
      exact ⟨s,(OrderedMap.mem_entries m k s).mpr hg,h⟩
  · rintro ⟨s,hs,he⟩
    rw [(OrderedMap.mem_entries m k s).mp hs]
    exact he

/-- The entries under the keys that pass a test. -/
theorem mem_gather_filter (m : Postings κ ε) (test : κ → Bool) (e : ε) :
    e ∈ gather (m.entries.filter fun p => test p.1) ↔ ∃ k, test k ∧ e ∈ under m k := by
  rw [mem_gather]
  constructor
  · rintro ⟨p,hp,he⟩
    rw [List.mem_filter] at hp
    exact ⟨p.1,hp.2,(mem_under_iff m p.1 e).mpr ⟨p.2,hp.1,he⟩⟩
  · rintro ⟨k,hk,he⟩
    obtain ⟨s,hs,he⟩ := (mem_under_iff m k e).mp he
    exact ⟨(k,s),List.mem_filter.mpr ⟨hs,hk⟩,he⟩

end Postings

end EntityCore
