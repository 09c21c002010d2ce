import Mathlib

/-! The order in which a queue visits what is reachable from a start. A queue that takes
every successor goes through the generations one after the other; one that passes over
what it has seen meets everything in the same order for the first time. -/
namespace EntityCore

open List
namespace BreadthFirst

variable {α : Type} (next : α → List α)

/-- What is reached by so many links, with every route. -/
def generation (start : α) : ℕ → List α
  | 0 => [start]
  | n+1 => (generation start n).flatMap next

/-- The members a queue gives out until it is empty, each followed by its successors. -/
inductive Emits : List α → List α → Prop
  | nil : Emits [] []
  | cons {a : α} {queue rest : List α} (h : Emits (queue++next a) rest) : Emits (a::queue) (a::rest)

variable {next}

/-- The front of a queue comes out whole, with its successors queued behind the rest. -/
theorem emits_front {as bs rest : List α} (h : Emits next (bs++as.flatMap next) rest) :
    Emits next (as++bs) (as++rest) := by
  induction as generalizing bs with
  | nil => simpa using h
  | cons a as ih =>
    have hrest : Emits next (as++(bs++next a)) (as++rest) := ih (by simpa using h)
    rw [← append_assoc] at hrest
    exact .cons hrest

theorem emits_generations {start : α} (m k : ℕ) (h : generation next start (k+m) = []) :
    Emits next (generation next start k)
      ((range m).flatMap fun i => generation next start (k+i)) := by
  induction m generalizing k with
  | zero =>
    rw [Nat.add_zero] at h
    rw [h]
    exact .nil
  | succ m ih =>
    have hrest := ih (k+1) (by rw [← h]; congr 1; omega)
    have hshift : ((range m).flatMap fun i => generation next start (k+(i+1))) =
        (range m).flatMap fun i => generation next start (k+1+i) := by
      congr 1
      funext i
      congr 1
      omega
    rw [range_succ_eq_map,flatMap_cons,flatMap_map,Nat.add_zero]
    have hfront : Emits next (generation next start k++[]) _ :=
      emits_front (by rw [nil_append]; exact hrest)
    rw [append_nil,← hshift] at hfront
    exact hfront

theorem generation_nil {start : α} {n : ℕ} (h : generation next start n = []) (m : ℕ) :
    generation next start (n+m) = [] := by
  induction m with
  | zero => exact h
  | succ m ih => rw [← Nat.add_assoc,generation,ih,flatMap_nil]

/-! Up to a first occurrence. -/

theorem mem_takeWhile_append (p : α → Bool) (a : α) (l l' : List α) : a ∈ (l++l').takeWhile p ↔
      a ∈ l.takeWhile p ∨ (∀ b ∈ l, p b = true) ∧ a ∈ l'.takeWhile p := by
  induction l with
  | nil => simp
  | cons b l ih =>
    rw [cons_append]
    by_cases hb : p b = true
    · simp [hb,ih,or_assoc]
    · simp [hb]

variable [DecidableEq α]

variable (next) in
/-- In the first generation that has the stop, before it, or in an earlier generation. -/
def MetBefore (start stop a : α) : Prop :=
  ∃ n, (∀ m < n, stop ∉ generation next start m) ∧
    a ∈ (generation next start n).takeWhile (· ≠ stop)

theorem mem_takeWhile_generations {start stop a : α} (n : ℕ) :
    a ∈ ((range n).flatMap (generation next start)).takeWhile (· ≠ stop) ↔
      ∃ m < n, (∀ k < m, stop ∉ generation next start k) ∧
        a ∈ (generation next start m).takeWhile (· ≠ stop) := by
  induction n with
  | zero => simp
  | succ n ih =>
    rw [range_succ,flatMap_append,mem_takeWhile_append,ih]
    have hnone : (∀ b ∈ (range n).flatMap (generation next start), decide (b ≠ stop) = true) ↔
        ∀ k < n, stop ∉ generation next start k := by
      constructor
      · intro h k hk hstop
        have := h stop (mem_flatMap.mpr ⟨k,mem_range.mpr hk,hstop⟩)
        simp at this
      · intro h b hb
        obtain ⟨k,hk,hmem⟩ := mem_flatMap.mp hb
        rw [decide_eq_true_eq]
        rintro rfl
        exact h k (mem_range.mp hk) hmem
    rw [hnone]
    simp only [flatMap_cons,flatMap_nil,append_nil]
    constructor
    · rintro (⟨m,hm,h⟩ | ⟨hbefore,h⟩)
      · exact ⟨m,by omega,h⟩
      · exact ⟨n,by omega,hbefore,h⟩
    · rintro ⟨m,hm,hbefore,h⟩
      by_cases hmn : m = n
      · subst hmn
        exact .inr ⟨hbefore,h⟩
      · exact .inl ⟨m,by omega,hbefore,h⟩

/-- Past the last generation there is nothing to meet. -/
theorem metBefore_iff {start stop a : α} {n : ℕ} (h : generation next start n = []) :
    MetBefore next start stop a ↔
      a ∈ ((range n).flatMap (generation next start)).takeWhile (· ≠ stop) := by
  rw [mem_takeWhile_generations]
  constructor
  · rintro ⟨m,hbefore,ha⟩
    refine ⟨m,?_,hbefore,ha⟩
    by_contra hm
    have hempty := generation_nil h (m-n)
    rw [show n+(m-n) = m by omega] at hempty
    rw [hempty] at ha
    cases ha
  · rintro ⟨m,-,hbefore,ha⟩
    exact ⟨m,hbefore,ha⟩

/-! A queue without what has been seen. -/

/-- A queue thinned out: what is dropped has been seen, or is in the queue before. -/
inductive Thin : Finset α → List α → List α → Prop
  | nil {seen : Finset α} : Thin seen [] []
  | keep {seen : Finset α} {a : α} {full thin : List α} (h : Thin (insert a seen) full thin) :
      Thin seen (a::full) (a::thin)
  | drop {seen : Finset α} {a : α} {full thin : List α} (ha : a ∈ seen) (h : Thin seen full thin) :
      Thin seen (a::full) thin

namespace Thin

theorem of_seen {seen : Finset α} {l : List α} (h : ∀ a ∈ l, a ∈ seen) : Thin seen l [] := by
  induction l with
  | nil => exact .nil
  | cons a l ih =>
    exact .drop (h a mem_cons_self) (ih fun b hb => h b (mem_cons_of_mem a hb))

theorem filter (keep : α → Bool) {seen : Finset α} {l : List α}
    (h : ∀ a ∈ l, keep a = false → a ∈ seen) : Thin seen l (l.filter keep) := by
  induction l generalizing seen with
  | nil => exact .nil
  | cons a l ih =>
    have hl : ∀ b ∈ l, keep b = false → b ∈ seen := fun b hb => h b (mem_cons_of_mem a hb)
    cases ha : keep a with
    | true =>
      rw [filter_cons_of_pos ha]
      exact .keep (ih fun b hb hkeep => Finset.mem_insert_of_mem (hl b hb hkeep))
    | false =>
      rw [filter_cons_of_neg (by simp [ha])]
      exact .drop (h a mem_cons_self ha) (ih hl)

/-- Successors that have been seen or are queued may be left out. -/
theorem append_seen {seen : Finset α} {full thin l : List α} (h : Thin seen full thin)
    (hl : ∀ a ∈ l, a ∈ seen ∨ a ∈ thin) : Thin seen (full++l) thin := by
  induction h with
  | nil => exact of_seen fun a ha => (hl a ha).resolve_right (not_mem_nil)
  | @keep seen b full thin _ ih =>
    refine .keep (ih fun a ha => ?_)
    rcases hl a ha with hseen | hthin
    · exact .inl (Finset.mem_insert_of_mem hseen)
    · rcases mem_cons.mp hthin with rfl | hthin
      · exact .inl (Finset.mem_insert_self _ _)
      · exact .inr hthin
  | drop hb _ ih => exact .drop hb (ih hl)

theorem append_filter (keep : α → Bool) {seen : Finset α} {full thin l : List α}
    (h : Thin seen full thin) (hl : ∀ a ∈ l, keep a = false → a ∈ seen) :
    Thin seen (full++l) (thin++l.filter keep) := by
  induction h with
  | nil => exact filter keep hl
  | @keep seen b full thin _ ih =>
    exact .keep (ih fun a ha hkeep => Finset.mem_insert_of_mem (hl a ha hkeep))
  | drop hb _ ih => exact .drop hb (ih hl)

end Thin

end BreadthFirst
end EntityCore
