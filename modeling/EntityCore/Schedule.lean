import Mathlib

/-! Actors that take turns. A schedule names the actor of each step; what every single
step keeps, every run keeps, whatever the interleaving. -/
namespace EntityCore
namespace Schedule

universe u v w

variable {ι : Type u} {σ : Type v}

/-- The state after the actors have stepped in the order of the schedule. -/
def run (step : ι → σ → σ) (schedule : List ι) (s : σ) : σ :=
  schedule.foldl (fun s i => step i s) s

/-- Every step of the run is taken in a state where it is safe. -/
def Admissible (step : ι → σ → σ) (safe : ι → σ → Prop) : List ι → σ → Prop
  | [], _ => True
  | i::rest, s => safe i s ∧ Admissible step safe rest (step i s)

variable {step : ι → σ → σ} {safe : ι → σ → Prop}

@[simp] theorem run_nil (s : σ) : run step [] s = s := rfl

@[simp] theorem run_cons (i : ι) (rest : List ι) (s : σ) :
    run step (i::rest) s = run step rest (step i s) := rfl

@[simp] theorem run_append (first rest : List ι) (s : σ) :
    run step (first++rest) s = run step rest (run step first s) := List.foldl_append

@[simp] theorem admissible_nil (s : σ) : Admissible step safe [] s := trivial

@[simp] theorem admissible_cons (i : ι) (rest : List ι) (s : σ) :
    Admissible step safe (i::rest) s ↔ safe i s ∧ Admissible step safe rest (step i s) := Iff.rfl

theorem admissible_append (first rest : List ι) (s : σ) : Admissible step safe (first++rest) s ↔
      Admissible step safe first s ∧ Admissible step safe rest (run step first s) := by
  induction first generalizing s with
  | nil => simp
  | cons i first ih => simp [ih,and_assoc]

/-- Where every step is safe, every run is admissible. -/
theorem Admissible.of_forall (h : ∀ i s, safe i s) (schedule : List ι) (s : σ) :
    Admissible step safe schedule s := by
  induction schedule generalizing s with
  | nil => trivial
  | cons i rest ih => exact ⟨h i s,ih (step i s)⟩

theorem admissible_congr {safe' : ι → σ → Prop} (h : ∀ i s, safe i s ↔ safe' i s)
    (schedule : List ι) (s : σ) :
    Admissible step safe schedule s ↔ Admissible step safe' schedule s := by
  induction schedule generalizing s with
  | nil => exact Iff.rfl
  | cons i rest ih => exact and_congr (h i s) (ih (step i s))

theorem le_run {α : Type w} [Preorder α] {f : σ → α} (h : ∀ i s, f s ≤ f (step i s))
    (schedule : List ι) (s : σ) : f s ≤ f (run step schedule s) := by
  induction schedule generalizing s with
  | nil => exact le_rfl
  | cons i rest ih => exact (h i s).trans (ih (step i s))

/-- An invariant of the safe steps that stay below a bound, over a run that does. The
bound is what the run ends with, for a part of the state that only grows. -/
theorem run_invariant_below {α : Type w} [Preorder α] {f : σ → α}
    (hmono : ∀ i s, f s ≤ f (step i s)) {t : α} {Inv : σ → Prop}
    (hstep : ∀ i s, Inv s → safe i s → f (step i s) ≤ t → Inv (step i s)) {schedule : List ι}
    {s : σ} (hs : Inv s) (hsafe : Admissible step safe schedule s)
    (ht : f (run step schedule s) ≤ t) : Inv (run step schedule s) := by
  induction schedule generalizing s with
  | nil => exact hs
  | cons i rest ih =>
    have hnext : Inv (step i s) := hstep i s hs hsafe.1 ((le_run hmono rest _).trans ht)
    exact ih hnext hsafe.2 ht

theorem run_invariant {Inv : σ → Prop} (hstep : ∀ i s, Inv s → safe i s → Inv (step i s))
    {schedule : List ι} {s : σ} (hs : Inv s) (hsafe : Admissible step safe schedule s) :
    Inv (run step schedule s) :=
  run_invariant_below (f := fun _ => ()) (fun _ _ => le_rfl)
    (fun i s h hi _ => hstep i s h hi) hs hsafe le_rfl

theorem run_keeps {Inv : σ → Prop} (hstep : ∀ i s, Inv s → Inv (step i s)) {schedule : List ι}
    {s : σ} (hs : Inv s) : Inv (run step schedule s) := by
  induction schedule generalizing s with
  | nil => exact hs
  | cons i rest ih => exact ih (hstep i s hs)

/-! Actors with a phase each: a step of one moves that one. -/

section Phases

variable {κ : Type w} [DecidableEq ι]

theorem update_forall {P : ι → κ → Prop} {phase : ι → κ} {i : ι} {k : κ} (hi : P i k)
    (h : ∀ j, j ≠ i → P j (phase j)) (j : ι) : P j (Function.update phase i k j) := by
  by_cases hj : j = i
  · subst hj
    simpa using hi
  · simpa [hj] using h j hj

/-- The number of actors in some phases goes up by one when one enters them. -/
theorem card_update_enter [Fintype ι] {p : κ → Bool} {phase : ι → κ} {i : ι} {k : κ}
    (hout : p (phase i) = false) (hin : p k = true) :
    (Finset.univ.filter fun j => p (Function.update phase i k j) = true).card =
      (Finset.univ.filter fun j => p (phase j) = true).card+1 := by
  have hset : (Finset.univ.filter fun j => p (Function.update phase i k j) = true) =
      insert i (Finset.univ.filter fun j => p (phase j) = true) := by
    ext j
    by_cases hj : j = i
    · simp [hj,hin]
    · simp [hj]
  rw [hset,Finset.card_insert_of_notMem (by simp [hout])]

/-- It stays when one moves within or without them. -/
theorem card_update_stay [Fintype ι] {p : κ → Bool} {phase : ι → κ} {i : ι} {k : κ}
    (h : p k = p (phase i)) :
    (Finset.univ.filter fun j => p (Function.update phase i k j) = true).card =
      (Finset.univ.filter fun j => p (phase j) = true).card := by
  congr 1
  ext j
  by_cases hj : j = i
  · simp [hj,h]
  · simp [hj]

end Phases

end Schedule
end EntityCore
