import Mathlib

/-! Fallible computations: the combinators an early-return program is written
with, and what a successful result says about each of its steps. -/
namespace EntityCore
namespace Outcome

variable {ε ε' α β : Type}

/-- Return early with `e` unless the condition holds. -/
def ensure (b : Bool) (e : ε) : Except ε Unit := if b then .ok () else .error e

/-- Turn an absent value into an error. -/
def okOr (o : Option α) (e : ε) : Except ε α :=
  match o with
  | some a => .ok a
  | none => .error e

def mapErr (f : ε → ε') : Except ε α → Except ε' α
  | .ok a => .ok a
  | .error e => .error (f e)

/-- Run a check on every member, stopping at the first failure. -/
def forEach (f : α → Except ε Unit) : List α → Except ε Unit
  | [] => .ok ()
  | a::as => f a >>= fun _ => forEach f as

@[simp] theorem ensure_ok (b : Bool) (e : ε) : ensure b e = .ok () ↔ b = true := by
  cases b <;> simp [ensure]

@[simp] theorem okOr_ok (o : Option α) (e : ε) (a : α) : okOr o e = .ok a ↔ o = some a := by
  cases o <;> simp [okOr]

@[simp] theorem mapErr_ok (f : ε → ε') (x : Except ε α) (a : α) :
    mapErr f x = .ok a ↔ x = .ok a := by
  cases x <;> simp [mapErr]

@[simp] theorem bind_ok (x : Except ε α) (f : α → Except ε β) (b : β) :
    (x >>= f) = .ok b ↔ ∃ a, x = .ok a ∧ f a = .ok b := by
  cases x with
  | ok a => exact ⟨fun h => ⟨a,rfl,h⟩,fun ⟨_,ha,h⟩ => by cases ha; exact h⟩
  | error e => exact ⟨fun h => (by cases h),fun ⟨_,ha,_⟩ => (by cases ha)⟩

@[simp high] theorem seq_ok (x : Except ε Unit) (f : Unit → Except ε β) (b : β) :
    (x >>= f) = .ok b ↔ x = .ok () ∧ f () = .ok b := by
  rw [bind_ok]
  exact ⟨fun ⟨_,hx,h⟩ => ⟨hx,h⟩,fun ⟨hx,h⟩ => ⟨(),hx,h⟩⟩

@[simp] theorem pure_ok (a b : α) : (pure a : Except ε α) = .ok b ↔ a = b :=
  ⟨fun h => by cases h; rfl,fun h => by rw [h]; rfl⟩

theorem forEach_ok (f : α → Except ε Unit) (as : List α) :
    forEach f as = .ok () ↔ ∀ a ∈ as, f a = .ok () := by
  induction as with
  | nil => simp [forEach]
  | cons a as ih =>
    simp only [forEach,seq_ok,ih,List.forall_mem_cons]

theorem toOption_eq {x : Except ε α} {a : α} : x.toOption = some a ↔ x = .ok a := by
  cases x <;> simp [Except.toOption]

theorem exists_ok_of_any {x : Except ε α} {p : α → Bool} (h : x.toOption.any p = true) :
    ∃ a, x = .ok a ∧ p a = true := by
  cases x with
  | ok a => exact ⟨a,rfl,h⟩
  | error e => cases h

/-- Thread an accumulator through a list, stopping at the first failure. -/
def foldE (f : β → α → Except ε β) : β → List α → Except ε β
  | b, [] => .ok b
  | b, a::as => f b a >>= fun b' => foldE f b' as

theorem foldE_rel {γ : Type} (R : β → γ → Prop) (f : β → α → Except ε β) (g : γ → α → Except ε' γ)
    (hstep : ∀ b c a b' c', R b c → f b a = .ok b' → g c a = .ok c' → R b' c')
    (as : List α) (b b' : β) (c c' : γ) (h : R b c)
    (hf : foldE f b as = .ok b') (hg : foldE g c as = .ok c') : R b' c' := by
  induction as generalizing b c with
  | nil =>
    simp only [foldE,Except.ok.injEq] at hf hg
    subst hf; subst hg; exact h
  | cons a as ih =>
    simp only [foldE,bind_ok] at hf hg
    obtain ⟨b₁,hb,hf⟩ := hf
    obtain ⟨c₁,hc,hg⟩ := hg
    exact ih b₁ c₁ (hstep b c a b₁ c₁ h hb hc) hf hg

/-- A fold whose every step goes through and keeps a property goes through and keeps it. -/
theorem foldlM_ok {f : β → α → Except ε β} (P : β → Prop) (as : List α) (b : β) (hb : P b)
    (hstep : ∀ b, P b → ∀ a ∈ as, ∃ b', f b a = .ok b' ∧ P b') :
    ∃ b', as.foldlM f b = .ok b' ∧ P b' := by
  induction as generalizing b with
  | nil => exact ⟨b,rfl,hb⟩
  | cons a as ih =>
    obtain ⟨b₁,hf,h₁⟩ := hstep b hb a List.mem_cons_self
    obtain ⟨b',hrest,h'⟩ := ih b₁ h₁ fun b hb a ha => hstep b hb a (List.mem_cons_of_mem _ ha)
    refine ⟨b',?_,h'⟩
    rw [List.foldlM_cons,hf]
    exact hrest

theorem foldlM_congr {f g : β → α → Except ε β} (as : List α) (b : β)
    (h : ∀ a ∈ as, ∀ b, f b a = g b a) : as.foldlM f b = as.foldlM g b := by
  induction as generalizing b with
  | nil => rfl
  | cons a as ih =>
    rw [List.foldlM_cons,List.foldlM_cons,h a List.mem_cons_self]
    congr 1
    funext b'
    exact ih b' fun a ha => h a (List.mem_cons_of_mem _ ha)

/-! Computations over a state that outlives a failure. -/

def Action (σ ε α : Type) : Type := σ → Except ε α × σ

namespace Action

variable {σ : Type}

def andThen (m : Action σ ε α) (f : α → Action σ ε β) : Action σ ε β := fun s =>
  match m s with
  | (.ok a,s') => f a s'
  | (.error e,s') => (.error e,s')

instance : Monad (Action σ ε) where
  pure a := fun s => (.ok a,s)
  bind := andThen

/-- A result that needs the state only to read it. -/
def reading (f : σ → Except ε α) : Action σ ε α := fun s => (f s,s)

def lift (r : Except ε α) : Action σ ε α := reading fun _ => r

def modify (f : σ → σ) : Action σ ε Unit := fun s => (.ok (),f s)

/-- Run a computation on a part of the state. -/
def onPart {τ ε' : Type} (part : σ → τ) (withPart : σ → τ → σ) (f : ε' → ε)
    (m : Action τ ε' α) : Action σ ε α := fun s =>
  let r := m (part s)
  (mapErr f r.1,withPart s r.2)

@[simp] theorem pure_apply (a : α) (s : σ) : (pure a : Action σ ε α) s = (.ok a,s) := rfl

@[simp] theorem reading_apply (f : σ → Except ε α) (s : σ) : reading f s = (f s,s) := rfl

@[simp] theorem lift_apply (r : Except ε α) (s : σ) : (lift r : Action σ ε α) s = (r,s) := rfl

theorem bind_of_ok {m : Action σ ε α} {f : α → Action σ ε β} {s s' : σ} {a : α}
    (h : m s = (.ok a,s')) : (m >>= f) s = f a s' := by
  show andThen m f s = _
  rw [andThen,h]

@[simp] theorem modify_apply (f : σ → σ) (s : σ) :
    (modify f : Action σ ε Unit) s = (.ok (),f s) := rfl

theorem bind_eq_ok {m : Action σ ε α} {f : α → Action σ ε β} {s s' : σ} {b : β} :
    (m >>= f) s = (.ok b,s') ↔ ∃ a s₁, m s = (.ok a,s₁) ∧ f a s₁ = (.ok b,s') := by
  show andThen m f s = _ ↔ _
  unfold andThen
  cases hm : m s with
  | mk r s₁ => cases r with
    | ok a => simp
    | error e => simp

theorem reading_eq_ok {f : σ → Except ε α} {s s' : σ} {a : α} :
    reading f s = (.ok a,s') ↔ f s = .ok a ∧ s' = s := by
  rw [reading_apply,Prod.mk.injEq]
  exact and_congr_right fun _ => eq_comm

/-- The state only ever grows. -/
def Grows [Preorder σ] (m : Action σ ε α) : Prop := ∀ s, s ≤ (m s).2

section Growth

variable [Preorder σ]

theorem grows_pure (a : α) : Grows (pure a : Action σ ε α) := fun _ => le_rfl

theorem grows_reading (f : σ → Except ε α) : Grows (reading f) := fun _ => le_rfl

theorem grows_lift (r : Except ε α) : Grows (lift r : Action σ ε α) := fun _ => le_rfl

/-- What comes after a step starts from what the step left. -/
theorem Grows.le_bind {m : Action σ ε α} {f : α → Action σ ε β} (hf : ∀ a, Grows (f a)) (s : σ) :
    (m s).2 ≤ ((m >>= f) s).2 := by
  show _ ≤ (andThen m f s).2
  unfold andThen
  cases hm : m s with
  | mk r s' => cases r with
    | ok a => exact hf a s'
    | error e => exact le_rfl

theorem Grows.bind {m : Action σ ε α} {f : α → Action σ ε β} (hm : Grows m)
    (hf : ∀ a, Grows (f a)) : Grows (m >>= f) :=
  fun s => (hm s).trans (Grows.le_bind hf s)

theorem Grows.foldlM {γ : Type} {f : β → γ → Action σ ε β} (hf : ∀ b c, Grows (f b c))
    (cs : List γ) (b : β) : Grows (cs.foldlM f b) := by
  induction cs generalizing b with
  | nil => exact grows_pure b
  | cons c cs ih => exact (hf b c).bind fun b' => ih b'

end Growth

end Action

end Outcome
end EntityCore
