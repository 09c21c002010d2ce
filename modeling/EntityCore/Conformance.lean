import EntityCore.Program

/-! Programs that keep to a contract: every command is good, every value that they end with
meets a postcondition, and they break off only where they may. A contract is read off the
program; what it says of a run is below. -/
namespace EntityCore

namespace Program

variable {C : Type} {R : C → Type} {ε δ α β : Type} {good : C → Prop} {faults : Prop}

def Conforms (good : C → Prop) (faults : Prop) (post : α → Prop) : Program R ε α → Prop
  | .done a => post a
  | .early _ => True
  | .fault => faults
  | .step c k => good c ∧ ∀ r, (k r).Conforms good faults post

namespace Conforms

variable {pre : α → Prop} {post : β → Prop} {p : Program R ε α}

theorem bind {f : α → Program R ε β} (hp : p.Conforms good faults pre)
    (hf : ∀ a, pre a → (f a).Conforms good faults post) : (p >>= f).Conforms good faults post := by
  induction p with
  | done a => exact hf a hp
  | early v => trivial
  | fault => exact hp
  | step c k ih => exact ⟨hp.1,fun r => ih r (hp.2 r)⟩

theorem mono {good' : C → Prop} {faults' : Prop} {pre' : α → Prop}
    (hp : p.Conforms good faults pre) (hgood : ∀ c, good c → good' c) (hfaults : faults → faults')
    (hpre : ∀ a, pre a → pre' a) : p.Conforms good' faults' pre' := by
  induction p with
  | done a => exact hpre a hp
  | early v => trivial
  | fault => exact hfaults hp
  | step c k ih => exact ⟨hgood c hp.1,fun r => ih r (hp.2 r)⟩

theorem andAny {f : α → Program R ε β} (hp : p.Conforms good faults fun _ => True)
    (hf : ∀ a, (f a).Conforms good faults post) : (p >>= f).Conforms good faults post :=
  hp.bind fun a _ => hf a

theorem weaken (hp : p.Conforms good faults pre) : p.Conforms good faults fun _ => True :=
  hp.mono (fun _ hc => hc) id fun _ _ => trivial

theorem map {f : α → β} (hp : p.Conforms good faults pre) (hf : ∀ a, pre a → post (f a)) :
    (f <$> p).Conforms good faults post := hp.bind hf

theorem perform {c : C} (hc : good c) :
    (perform c : Program R ε (R c)).Conforms good faults fun _ => True := ⟨hc,fun _ => trivial⟩

theorem orEarly {post : α → Prop} {o : Option α} (v : ε) (h : ∀ a, o = some a → post a) :
    (orEarly o v : Program R ε α).Conforms good faults post := by
  cases o with
  | none => trivial
  | some a => exact h a rfl

/-- A value that may be missing, of which nothing is asked. -/
theorem orEarlyAny (o : Option α) (v : ε) :
    (Program.orEarly o v : Program R ε α).Conforms good faults fun _ => True :=
  orEarly v fun _ _ => trivial

theorem expect {post : α → Prop} {o : Option α} (hnone : o = none → faults)
    (h : ∀ a, o = some a → post a) : (expect o : Program R ε α).Conforms good faults post := by
  cases o with
  | none => exact hnone rfl
  | some a => exact h a rfl

theorem mapEach {post : β → Prop} {f : α → Program R ε β}
    (hf : ∀ a, (f a).Conforms good faults post) (as : List α) :
    (mapEach f as).Conforms good faults fun bs => ∀ b ∈ bs, post b := by
  induction as with
  | nil => exact fun b hb => absurd hb List.not_mem_nil
  | cons a as ih =>
    exact (hf a).bind fun b hb => ih.bind fun bs hbs => List.forall_mem_cons.mpr ⟨hb,hbs⟩

theorem foldEach {f : β → α → Program R ε β}
    (hf : ∀ b a, post b → (f b a).Conforms good faults post) (as : List α) (b : β) (hb : post b) :
    (foldEach f b as).Conforms good faults post := by
  induction as generalizing b with
  | nil => exact hb
  | cons a as ih => exact (hf b a hb).bind fun b' hb' => ih b' hb'

theorem answer {p : Program R ε ε} {pre : ε → Prop} (hp : p.Conforms good faults pre) :
    (p.answer : Program R δ ε).Conforms good faults fun _ => True := by
  induction p with
  | done a => trivial
  | early v => trivial
  | fault => exact hp
  | step c k ih => exact ⟨hp.1,fun r => ih r (hp.2 r)⟩

theorem any (p : Program R ε α) : p.Conforms (fun _ => True) True fun _ => True := by
  induction p with
  | done a => trivial
  | early v => trivial
  | fault => trivial
  | step c k ih => exact ⟨trivial,ih⟩

end Conforms

/-! Runs. -/

section Runs

variable {σ τ : Type} {h : (c : C) → σ → Option (R c) × σ} {I B : σ → Prop}

theorem run_bind_of_fault {p : Program R ε α} (f : α → Program R ε β) {s : σ}
    (hend : (p.run h s).1 = .fault) : (p >>= f).run h s = (.fault,(p.run h s).2) := by
  rw [run_andThen]
  generalize p.run h s = ended at hend ⊢
  obtain ⟨ending,s'⟩ := ended
  dsimp only at hend
  rw [hend]

/-- Where no command that answers brings about `B`, no run that does not break off does. -/
theorem run_avoids (hkeep : ∀ c s, I s → I (h c s).2)
    (hstep : ∀ c s, I s → (h c s).1.isSome → B (h c s).2 → B s) (p : Program R ε α) {s : σ}
    (hs : I s) (hend : (p.run h s).1 ≠ .fault) (hB : B (p.run h s).2) : B s := by
  induction p generalizing s with
  | done a => exact hB
  | early v => exact hB
  | fault => exact hB
  | step c k ih =>
    rw [run_step] at hend hB
    cases hc : (h c s).1 with
    | none => exact absurd (by simp [hc]) hend
    | some r =>
      simp only [hc] at hend hB
      exact hstep c s hs (by simp [hc]) (ih r (hkeep c s hs) hend hB)

/-- A program that never breaks off by itself breaks off with a command. -/
theorem run_fault {post : α → Prop} (hkeep : ∀ c s, I s → I (h c s).2)
    (hstep : ∀ c s, I s → (h c s).1 = none → B (h c s).2) (p : Program R ε α)
    (hp : p.Conforms good False post) {s : σ} (hs : I s) (hend : (p.run h s).1 = .fault) :
    B (p.run h s).2 := by
  induction p generalizing s with
  | done a => cases hend
  | early v => cases hend
  | fault => exact hp.elim
  | step c k ih =>
    rw [run_step] at hend ⊢
    cases hc : (h c s).1 with
    | none => exact hstep c s hs hc
    | some r =>
      simp only [hc] at hend
      exact ih r (hp.2 r) (hkeep c s hs) hend

theorem run_post {post : α → Prop} {p : Program R ε α} (hp : p.Conforms good faults post) {s : σ}
    {a : α} (hend : (p.run h s).1 = .done a) : post a := by
  induction p generalizing s with
  | done b =>
    cases hend
    exact hp
  | early v => cases hend
  | fault => cases hend
  | step c k ih =>
    rw [run_step] at hend
    cases hc : (h c s).1 with
    | none =>
      simp only [hc] at hend
      cases hend
    | some r =>
      simp only [hc] at hend
      exact ih r (hp.2 r) hend

/-- Every command that this very run issues is good. -/
def Issues (h : (c : C) → σ → Option (R c) × σ) (good : C → Prop) : Program R ε α → σ → Prop
  | .step c k, s => good c ∧ ∀ r, (h c s).1 = some r → (k r).Issues h good (h c s).2
  | _, _ => True

theorem Conforms.issues {post : α → Prop} {p : Program R ε α}
    (hp : p.Conforms good faults post) (s : σ) : p.Issues h good s := by
  induction p generalizing s with
  | done a => trivial
  | early v => trivial
  | fault => trivial
  | step c k ih => exact ⟨hp.1,fun r _ => ih r (hp.2 r) _⟩

theorem Issues.bind {p : Program R ε α} {f : α → Program R ε β} {s : σ} (hp : p.Issues h good s)
    (hf : ∀ a s', p.run h s = (.done a,s') → (f a).Issues h good s') :
    (p >>= f).Issues h good s := by
  induction p generalizing s with
  | done a => exact hf a s rfl
  | early v => trivial
  | fault => trivial
  | step c k ih =>
    refine ⟨hp.1,fun r hr => ih r (hp.2 r hr) fun a s' hrun => hf a s' ?_⟩
    rw [run_step,hr]
    exact hrun

theorem Issues.answer {p : Program R ε ε} {s : σ} (hp : p.Issues h good s) :
    (p.answer : Program R δ ε).Issues h good s := by
  induction p generalizing s with
  | done a => trivial
  | early v => trivial
  | fault => trivial
  | step c k ih => exact ⟨hp.1,fun r hr => ih r (hp.2 r hr)⟩

/-- What good commands keep, a run of good commands keeps; `G` is what may be assumed of the
end of the run, and so of every state before. -/
theorem run_keeps_of_issues {G : σ → Prop} (hback : ∀ c s, G (h c s).2 → G s)
    (hstep : ∀ c s, good c → I s → G (h c s).2 → I (h c s).2) (p : Program R ε α) {s : σ}
    (hp : p.Issues h good s) (hs : I s) (hend : G (p.run h s).2) : I (p.run h s).2 := by
  induction p generalizing s with
  | done a => exact hs
  | early v => exact hs
  | fault => exact hs
  | step c k ih =>
    rw [run_step] at hend ⊢
    cases hc : (h c s).1 with
    | none =>
      simp only [hc] at hend ⊢
      exact hstep c s hp.1 hs hend
    | some r =>
      simp only [hc] at hend ⊢
      have hnext := hstep c s hp.1 hs (run_back hback _ hend)
      exact ih r (hp.2 r hc) hnext hend

theorem Issues.congr {g : (c : C) → τ → Option (R c) × τ} {S : σ → τ → Prop}
    (hstep : ∀ c s t, S s t → (h c s).1 = (g c t).1 ∧ S (h c s).2 (g c t).2)
    {p : Program R ε α} {s : σ} {t : τ} (hst : S s t) (hp : p.Issues g good t) :
    p.Issues h good s := by
  induction p generalizing s t with
  | done a => trivial
  | early v => trivial
  | fault => trivial
  | step c k ih =>
    have hc := hstep c s t hst
    exact ⟨hp.1,fun r hr => ih r hc.2 (hp.2 r (hc.1 ▸ hr))⟩

end Runs

end Program

end EntityCore
