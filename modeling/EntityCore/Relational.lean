import EntityCore.Trail

/-! Programs that correspond: they issue commands that match, and go on correspondingly
from answers that match. -/
namespace EntityCore

/-- Two endings of one kind, with values that are related. -/
inductive Ending.Related {ε δ α β : Type} (early : ε → δ → Prop) (done : α → β → Prop) :
    Ending ε α → Ending δ β → Prop
  | done {a b} (h : done a b) : Related early done (.done a) (.done b)
  | early {v w} (h : early v w) : Related early done (.early v) (.early w)
  | fault : Related early done .fault .fault

namespace Program

variable {C : Type} {R : C → Type} {ε δ α β γ κ σ τ : Type}

/-- `matched` says of two commands that they match and of which answers to them do. -/
inductive Corresponds (matched : (c d : C) → (R c → R d → Prop) → Prop) (early : ε → δ → Prop)
    (done : α → β → Prop) : Program R ε α → Program R δ β → Prop
  | done {a b} (h : done a b) : Corresponds matched early done (.done a) (.done b)
  | early {v w} (h : early v w) : Corresponds matched early done (.early v) (.early w)
  | fault : Corresponds matched early done .fault .fault
  | step {c d k l answers} (h : matched c d answers)
    (hk : ∀ r t, answers r t → Corresponds matched early done (k r) (l t)) :
    Corresponds matched early done (.step c k) (.step d l)

namespace Corresponds

variable {matched : (c d : C) → (R c → R d → Prop) → Prop} {early : ε → δ → Prop}
  {done : α → β → Prop} {next : γ → κ → Prop}

theorem mono {done' : α → β → Prop} {p : Program R ε α} {q : Program R δ β}
    (h : Corresponds matched early done p q) (hdone : ∀ a b, done a b → done' a b) :
    Corresponds matched early done' p q := by
  induction h with
  | done h => exact .done (hdone _ _ h)
  | early h => exact .early h
  | fault => exact .fault
  | step h _ ih => exact .step h ih

theorem bind {p : Program R ε α} {q : Program R δ β} {f : α → Program R ε γ}
    {g : β → Program R δ κ} (h : Corresponds matched early done p q)
    (hf : ∀ a b, done a b → Corresponds matched early next (f a) (g b)) :
    Corresponds matched early next (p >>= f) (q >>= g) := by
  induction h with
  | done h => exact hf _ _ h
  | early h => exact .early h
  | fault => exact .fault
  | step h _ ih => exact .step h ih

theorem bind_eq {p : Program R ε α} {q : Program R δ α} {f : α → Program R ε γ}
    {g : α → Program R δ κ} (h : Corresponds matched early Eq p q)
    (hf : ∀ a, Corresponds matched early next (f a) (g a)) :
    Corresponds matched early next (p >>= f) (q >>= g) := by
  apply h.bind
  intro a b hab
  subst hab
  exact hf a

theorem perform {c d : C} {answers : R c → R d → Prop} (h : matched c d answers) :
    Corresponds matched early answers (perform c) (perform d) :=
  .step h fun _ _ hr => .done hr

theorem answer {value : ε → δ → Prop} {p : Program R ε ε} {q : Program R δ δ}
    (h : Corresponds matched value value p q) :
    Corresponds matched early value p.answer q.answer := by
  induction h with
  | done h => exact .done h
  | early h => exact .done h
  | fault => exact .fault
  | step h _ ih => exact .step h ih

theorem orEarly {v : ε} {w : δ} (o : Option α) (h : early v w) :
    Corresponds matched early Eq (orEarly o v) (orEarly o w) := by
  cases o with
  | none => exact .early h
  | some a => exact .done rfl

theorem expect (o : Option α) : Corresponds matched early Eq (expect o) (expect o) := by
  cases o with
  | none => exact .fault
  | some a => exact .done rfl

theorem mapEach {f : κ → Program R ε α} {g : κ → Program R δ α}
    (h : ∀ a, Corresponds matched early Eq (f a) (g a)) (as : List κ) :
    Corresponds matched early Eq (mapEach f as) (mapEach g as) := by
  induction as with
  | nil => exact .done rfl
  | cons a as ih => exact (h a).bind_eq fun b => ih.bind_eq fun bs => .done rfl

theorem foldEach {f : α → κ → Program R ε α} {g : β → κ → Program R δ β}
    (h : ∀ a b x, done a b → Corresponds matched early done (f a x) (g b x)) (xs : List κ)
    {a : α} {b : β} (hab : done a b) :
    Corresponds matched early done (foldEach f a xs) (foldEach g b xs) := by
  induction xs generalizing a b with
  | nil => exact .done hab
  | cons x xs ih => exact (h a b x hab).bind fun a' b' h' => ih h'

/-- Runs of programs that correspond, where the handlers answer matching commands that
are good with matching answers. -/
theorem run {h : (c : C) → σ → Option (R c) × σ} {g : (c : C) → τ → Option (R c) × τ}
    {S : σ → τ → Prop} {good : C → τ → Prop}
    (hstep : ∀ c d answers s t, matched c d answers → good d t → S s t →
      Option.Rel answers (h c s).1 (g d t).1 ∧ S (h c s).2 (g d t).2)
    {p : Program R ε α} {q : Program R δ β} (hpq : Corresponds matched early done p q) {s : σ} {t : τ}
    (hst : S s t) (hgood : ∀ x ∈ q.trail g t, good x.1 x.2) :
    Ending.Related early done (p.run h s).1 (q.run g t).1 ∧ S (p.run h s).2 (q.run g t).2 := by
  induction hpq generalizing s t with
  | done hab => exact ⟨.done hab,hst⟩
  | early hvw => exact ⟨.early hvw,hst⟩
  | fault => exact ⟨.fault,hst⟩
  | @step c d k l answers hc _ ih =>
    rw [trail_step] at hgood
    have ⟨hanswer,hnext⟩ := hstep c d answers s t hc (hgood (d,t) List.mem_cons_self) hst
    rw [run_step,run_step]
    cases hl : (h c s).1 with
    | none =>
      rw [hl] at hanswer
      cases hr : (g d t).1 with
      | none => exact ⟨.fault,hnext⟩
      | some r =>
        rw [hr] at hanswer
        cases hanswer
    | some r' =>
      rw [hl] at hanswer
      cases hr : (g d t).1 with
      | none =>
        rw [hr] at hanswer
        cases hanswer
      | some r =>
        rw [hr] at hanswer hgood
        cases hanswer with
        | some hrr => exact ih r' r hrr hnext fun x hx => hgood x (List.mem_cons_of_mem _ hx)

end Corresponds

/-! Composed programs. -/

section Compose

variable {h : (c : C) → σ → Option (R c) × σ} {g : (c : C) → τ → Option (R c) × τ}

theorem mem_trail_left {p : Program R ε α} (f : α → Program R ε β) {s : σ} {x : C × σ}
    (hx : x ∈ p.trail h s) : x ∈ (p >>= f).trail h s := by
  induction p generalizing s with
  | done a => cases hx
  | early v => cases hx
  | fault => cases hx
  | step c k ih =>
    show x ∈ (Program.step c fun r => k r >>= f).trail h s
    rw [trail_step] at hx ⊢
    rcases List.mem_cons.mp hx with hhead | hrest
    · exact hhead ▸ List.mem_cons_self
    · apply List.mem_cons_of_mem
      cases hr : (h c s).1 with
      | none =>
        rw [hr] at hrest
        cases hrest
      | some r =>
        rw [hr] at hrest
        exact ih r hrest

theorem mem_trail_right {p : Program R ε α} (f : α → Program R ε β) {s s' : σ} {a : α}
    (hp : p.run h s = (.done a,s')) {x : C × σ} (hx : x ∈ (f a).trail h s') :
    x ∈ (p >>= f).trail h s := by
  induction p generalizing s with
  | done b =>
    cases hp
    exact hx
  | early v => cases hp
  | fault => cases hp
  | step c k ih =>
    show x ∈ (Program.step c fun r => k r >>= f).trail h s
    rw [run_step] at hp
    rw [trail_step]
    apply List.mem_cons_of_mem
    cases hr : (h c s).1 with
    | none =>
      rw [hr] at hp
      cases hp
    | some r =>
      rw [hr] at hp
      exact ih r hp

/-- Runs are related if those of the first parts are, and those of what follows a value. -/
theorem run_bind_related {early : ε → δ → Prop} {done : α → β → Prop} {next : γ → κ → Prop}
    {S : σ → τ → Prop} {p : Program R ε α} {q : Program R δ β} {f : α → Program R ε γ}
    {k : β → Program R δ κ} {s : σ} {t : τ}
    (hpq : Ending.Related early done (p.run h s).1 (q.run g t).1 ∧ S (p.run h s).2 (q.run g t).2)
    (hfk : ∀ a b s' t', p.run h s = (.done a,s') → q.run g t = (.done b,t') → done a b → S s' t' →
      Ending.Related early next ((f a).run h s').1 ((k b).run g t').1 ∧
        S ((f a).run h s').2 ((k b).run g t').2) :
    Ending.Related early next ((p >>= f).run h s).1 ((q >>= k).run g t).1 ∧
      S ((p >>= f).run h s).2 ((q >>= k).run g t).2 := by
  rw [run_andThen,run_andThen]
  rcases hp : p.run h s with ⟨left,s'⟩
  rcases hq : q.run g t with ⟨right,t'⟩
  rw [hp,hq] at hpq
  have ⟨hends,hstates⟩ := hpq
  cases hends with
  | done hab => exact hfk _ _ s' t' hp hq hab hstates
  | early hvw => exact ⟨.early hvw,hstates⟩
  | fault => exact ⟨.fault,hstates⟩

end Compose

end Program
end EntityCore
