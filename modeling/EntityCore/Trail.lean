import EntityCore.Program

/-! The trail of a run: the commands it issues, each with the state it is issued in. Two
runs are alike as long as the commands on the trail of the first are answered alike. -/
namespace EntityCore
namespace Program

variable {C : Type} {R : C → Type} {ε α σ τ : Type}

section Trail

variable (h : (c : C) → σ → Option (R c) × σ)

def trail : Program R ε α → σ → List (C × σ)
  | .step c k, s => (c,s)::match h c s with
    | (some r,s') => (k r).trail s'
    | (none,_) => []
  | _, _ => []

end Trail

variable {h : (c : C) → σ → Option (R c) × σ} {g : (c : C) → τ → Option (R c) × τ}

theorem trail_step (c : C) (k : R c → Program R ε α) (s : σ) : (Program.step c k).trail h s =
    (c,s)::match (h c s).1 with
      | some r => (k r).trail h (h c s).2
      | none => [] := by
  rw [trail]
  rcases h c s with ⟨_ | r,s'⟩ <;> rfl

theorem run_alike_trail {S : σ → τ → Prop} {good : C → σ → Prop}
    (hstep : ∀ c s t, good c s → S s t → (h c s).1 = (g c t).1 ∧ S (h c s).2 (g c t).2)
    (p : Program R ε α) {s : σ} {t : τ} (hst : S s t) (hgood : ∀ x ∈ p.trail h s, good x.1 x.2) :
    (p.run h s).1 = (p.run g t).1 ∧ S (p.run h s).2 (p.run g t).2 := by
  induction p generalizing s t with
  | done a => exact ⟨rfl,hst⟩
  | early v => exact ⟨rfl,hst⟩
  | fault => exact ⟨rfl,hst⟩
  | step c k ih =>
    rw [trail_step] at hgood
    have ⟨hanswer,hnext⟩ := hstep c s t (hgood (c,s) List.mem_cons_self) hst
    rw [run_step,run_step,← hanswer]
    cases hr : (h c s).1 with
    | none => exact ⟨rfl,hnext⟩
    | some r =>
      rw [hr] at hgood
      exact ih r hnext fun x hx => hgood x (List.mem_cons_of_mem _ hx)

end Program
end EntityCore
