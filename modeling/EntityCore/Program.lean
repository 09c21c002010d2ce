import Mathlib

/-! Programs over commands. A program ends with a value, returns early, breaks off, or
issues a command and goes on with the answer. What holds of single commands is carried to
whole runs by the rules at the end. -/
namespace EntityCore

inductive Program {C : Type} (R : C → Type) (ε α : Type) : Type
  | done (a : α)
  | early (v : ε)
  | fault
  | step (c : C) (k : R c → Program R ε α)

/-- How a run ends. -/
inductive Ending (ε α : Type) : Type
  | done (a : α)
  | early (v : ε)
  | fault

namespace Program

variable {C : Type} {R : C → Type} {ε δ α β : Type}

def andThen : Program R ε α → (α → Program R ε β) → Program R ε β
  | .done a, f => f a
  | .early v, _ => .early v
  | .fault, _ => .fault
  | .step c k, f => .step c fun r => (k r).andThen f

instance : Monad (Program R ε) where
  pure := .done
  bind := andThen

theorem andThen_done (p : Program R ε α) : p.andThen .done = p := by
  induction p with
  | step c k ih => exact congrArg _ (funext ih)
  | _ => rfl

theorem andThen_assoc {γ : Type} (p : Program R ε α) (f : α → Program R ε β)
    (g : β → Program R ε γ) : (p.andThen f).andThen g = p.andThen fun a => (f a).andThen g := by
  induction p with
  | step c k ih => exact congrArg _ (funext ih)
  | _ => rfl

instance : LawfulMonad (Program R ε) :=
  LawfulMonad.mk' _ andThen_done (fun _ _ => rfl) andThen_assoc

def perform (c : C) : Program R ε (R c) := .step c .done

/-- The value of a program that returns what it may also return early. -/
def answer : Program R ε ε → Program R δ ε
  | .done v => .done v
  | .early v => .done v
  | .fault => .fault
  | .step c k => .step c fun r => (k r).answer

/-- What is there, or an early return. -/
def orEarly (o : Option α) (v : ε) : Program R ε α :=
  match o with
  | some a => .done a
  | none => .early v

/-- What must be there. -/
def expect : Option α → Program R ε α
  | some a => .done a
  | none => .fault

/-- One after the other, collecting the values. -/
def mapEach (f : α → Program R ε β) : List α → Program R ε (List β)
  | [] => .done []
  | a::as => do
    let b ← f a
    let bs ← mapEach f as
    return b::bs

def foldEach (f : β → α → Program R ε β) : β → List α → Program R ε β
  | b, [] => .done b
  | b, a::as => do foldEach f (← f b a) as

/-! Runs. -/

section Runs

variable {σ τ : Type}

def run (h : (c : C) → σ → Option (R c) × σ) : Program R ε α → σ → Ending ε α × σ
  | .done a, s => (.done a,s)
  | .early v, s => (.early v,s)
  | .fault, s => (.fault,s)
  | .step c k, s => match h c s with
    | (some r,s') => (k r).run h s'
    | (none,s') => (.fault,s')

variable {h : (c : C) → σ → Option (R c) × σ} {g : (c : C) → τ → Option (R c) × τ}

theorem run_step (c : C) (k : R c → Program R ε α) (s : σ) : (Program.step c k).run h s =
    match (h c s).1 with
    | some r => (k r).run h (h c s).2
    | none => (.fault,(h c s).2) := by
  rw [run]
  rcases h c s with ⟨_ | r,s'⟩ <;> rfl

/-- What every command keeps, a run keeps; `good` is what the commands may be assumed to be. -/
def All (good : C → Prop) : Program R ε α → Prop
  | .step c k => good c ∧ ∀ r, (k r).All good
  | _ => True

theorem run_keeps {good : C → Prop} {I : σ → Prop}
    (hstep : ∀ c s, good c → I s → I (h c s).2) (p : Program R ε α) (hp : p.All good) {s : σ}
    (hs : I s) : I (p.run h s).2 := by
  induction p generalizing s with
  | done a => exact hs
  | early v => exact hs
  | fault => exact hs
  | step c k ih =>
    have hnext := hstep c s hp.1 hs
    rw [run_step]
    split
    · exact ih _ (hp.2 _) hnext
    · exact hnext

/-- What no command brings about holds before a run after which it holds. -/
theorem run_back {G : σ → Prop} (hback : ∀ c s, G (h c s).2 → G s) (p : Program R ε α) {s : σ}
    (hs : G (p.run h s).2) : G s := by
  induction p generalizing s with
  | done a => exact hs
  | early v => exact hs
  | fault => exact hs
  | step c k ih =>
    apply hback c s
    rw [run_step] at hs
    split at hs
    · exact ih _ hs
    · exact hs

/-- Two handlers that answer alike on related states run every program alike, as long as
both runs stay good. -/
theorem run_alike {S : σ → τ → Prop} {G : σ → Prop} {J : τ → Prop}
    (hback : ∀ c s, G (h c s).2 → G s) (hback' : ∀ c t, J (g c t).2 → J t)
    (hstep : ∀ c s t, S s t → G (h c s).2 → J (g c t).2 →
      (h c s).1 = (g c t).1 ∧ S (h c s).2 (g c t).2)
    (p : Program R ε α) {s : σ} {t : τ} (hst : S s t) (hs : G (p.run h s).2)
    (ht : J (p.run g t).2) : (p.run h s).1 = (p.run g t).1 ∧ S (p.run h s).2 (p.run g t).2 := by
  induction p generalizing s t with
  | done a => exact ⟨rfl,hst⟩
  | early v => exact ⟨rfl,hst⟩
  | fault => exact ⟨rfl,hst⟩
  | step c k ih =>
    have hgood : G (h c s).2 := by
      rw [run_step] at hs
      split at hs
      · exact run_back hback _ hs
      · exact hs
    have hgood' : J (g c t).2 := by
      rw [run_step] at ht
      split at ht
      · exact run_back hback' _ ht
      · exact ht
    obtain ⟨hanswer,hnext⟩ := hstep c s t hst hgood hgood'
    rw [run_step] at hs ht ⊢
    rw [run_step]
    rw [← hanswer] at ht ⊢
    cases hc : (h c s).1 with
    | none => exact ⟨rfl,hnext⟩
    | some r =>
      rw [hc] at hs ht
      exact ih r hnext hs ht

theorem run_andThen (p : Program R ε α) (f : α → Program R ε β) (s : σ) :
    (p >>= f).run h s = match p.run h s with
      | (.done a,s') => (f a).run h s'
      | (.early v,s') => (.early v,s')
      | (.fault,s') => (.fault,s') := by
  induction p generalizing s with
  | done a => rfl
  | early v => rfl
  | fault => rfl
  | step c k ih =>
    show (Program.step c fun r => k r >>= f).run h s = _
    rw [run_step,run_step]
    split
    · exact ih _ _
    · rfl

end Runs

/-! Commands of composed programs. -/

section All

variable {good : C → Prop}

theorem All.bind {p : Program R ε α} {f : α → Program R ε β} (hp : p.All good)
    (hf : ∀ a, (f a).All good) : (p >>= f).All good := by
  induction p with
  | done a => exact hf a
  | early v => trivial
  | fault => trivial
  | step c k ih => exact ⟨hp.1,fun r => ih r (hp.2 r)⟩

theorem All.answer {p : Program R ε ε} (hp : p.All good) : (p.answer : Program R δ ε).All good := by
  induction p with
  | done a => trivial
  | early v => trivial
  | fault => trivial
  | step c k ih => exact ⟨hp.1,fun r => ih r (hp.2 r)⟩

@[simp] theorem all_orEarly (o : Option α) (v : ε) :
    (orEarly o v : Program R ε α).All good := by
  cases o <;> trivial

@[simp] theorem all_expect (o : Option α) : (expect o : Program R ε α).All good := by
  cases o <;> trivial

theorem All.mapEach {f : α → Program R ε β} {as : List α} (hf : ∀ a, (f a).All good) :
    (mapEach f as).All good := by
  induction as with
  | nil => trivial
  | cons a as ih => exact (hf a).bind fun b => ih.bind fun bs => trivial

theorem All.foldEach {f : β → α → Program R ε β} (hf : ∀ b a, (f b a).All good) (as : List α)
    (b : β) : (foldEach f b as).All good := by
  induction as generalizing b with
  | nil => trivial
  | cons a as ih => exact (hf b a).bind fun b' => ih b'

/-- Every value that a program can end with. -/
def Ends (post : α → Prop) : Program R ε α → Prop
  | .done a => post a
  | .early _ => True
  | .fault => True
  | .step _ k => ∀ r, (k r).Ends post

theorem Ends.bind {post : β → Prop} (p : Program R ε α) {f : α → Program R ε β}
    (hf : ∀ a, (f a).Ends post) : (p >>= f).Ends post := by
  induction p with
  | done a => exact hf a
  | early v => trivial
  | fault => trivial
  | step c k ih => exact fun r => ih r

theorem Ends.map {post : β → Prop} {p : Program R ε α} {f : α → β} {pre : α → Prop}
    (hp : p.Ends pre) (hf : ∀ {a}, pre a → post (f a)) : (f <$> p).Ends post := by
  induction p with
  | done a => exact hf hp
  | early v => trivial
  | fault => trivial
  | step c k ih => exact fun r => ih r (hp r)

/-- What a program ends with may be used about the commands that follow it. -/
theorem All.bind_of_ends {post : α → Prop} {p : Program R ε α} {f : α → Program R ε β}
    (hp : p.All good) (hends : p.Ends post) (hf : ∀ a, post a → (f a).All good) :
    (p >>= f).All good := by
  induction p with
  | done a => exact hf a hends
  | early v => trivial
  | fault => trivial
  | step c k ih => exact ⟨hp.1,fun r => ih r (hp.2 r) (hends r)⟩

theorem all_true (p : Program R ε α) : p.All fun _ => True := by
  induction p with
  | done a => trivial
  | early v => trivial
  | fault => trivial
  | step c k ih => exact ⟨trivial,ih⟩

end All

end Program

end EntityCore
