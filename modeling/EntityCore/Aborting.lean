import EntityCore.Outcome

/-! Computations that the runtime may cut short. Slices and indices are checked, machine
arithmetic may overflow, and a collection may ask for room: beside its outcome, a run has
the capacities that were requested on the way. -/
namespace EntityCore

open Outcome

/-- Why the runtime stopped a run. -/
inductive Fault where
  | outOfBounds
  | overflow
  | capacity
  | recursion
  deriving DecidableEq

structure Aborting (ε α : Type) where
  requested : List ℕ
  outcome : Except Fault (Except ε α)

namespace Aborting

variable {ε ε' α β : Type}

def andThen (m : Aborting ε α) (f : α → Aborting ε β) : Aborting ε β :=
  match m.outcome with
  | .ok (.ok a) => ⟨m.requested++(f a).requested,(f a).outcome⟩
  | .ok (.error e) => ⟨m.requested,.ok (.error e)⟩
  | .error fault => ⟨m.requested,.error fault⟩

instance : Monad (Aborting ε) where
  pure a := ⟨[],.ok (.ok a)⟩
  bind := andThen

def lift (r : Except ε α) : Aborting ε α := ⟨[],.ok r⟩

def fail (e : ε) : Aborting ε α := lift (.error e)

def abort (fault : Fault) : Aborting ε α := ⟨[],.error fault⟩

def mapError (f : ε → ε') (m : Aborting ε α) : Aborting ε' α :=
  ⟨m.requested,m.outcome.map (mapErr f)⟩

/-! What the runtime checks, with sizes of 64 bits. -/

def index (data : List α) (i : ℕ) : Aborting ε α :=
  match data[i]? with
  | some a => lift (.ok a)
  | none => abort .outOfBounds

def slice (data : List α) (start stop : ℕ) : Aborting ε (List α) :=
  if start ≤ stop ∧ stop ≤ data.length then lift (.ok ((data.drop start).take (stop-start)))
  else abort .outOfBounds

def add (a b : ℕ) : Aborting ε ℕ := if a+b < 2^64 then lift (.ok (a+b)) else abort .overflow

/-- A 32-bit shift by its width or more overflows; the bits shifted out are lost. -/
def shiftLeft (a n : ℕ) : Aborting ε ℕ :=
  if n < 32 then lift (.ok (a*2^n%2^32)) else abort .overflow

/-- Room for `count` elements of `size` bytes: no more than `isize::MAX` bytes. -/
def withCapacity (size count : ℕ) : Aborting ε Unit :=
  ⟨[count],if size*count < 2^63 then .ok (.ok ()) else .error .capacity⟩

/-- A copy is as large as what is copied. -/
def toVec (data : List UInt8) : Aborting ε (List UInt8) := do
  withCapacity 1 data.length
  return data

/-! Runs that come to an end within a bound on the room they ask for. -/

def Ends (n : ℕ) (m : Aborting ε α) (r : Except ε α) : Prop :=
  m.outcome = .ok r ∧ ∀ k ∈ m.requested, k ≤ n

def Sound (n : ℕ) (m : Aborting ε α) : Prop :=
  (∃ r, m.outcome = .ok r) ∧ ∀ k ∈ m.requested, k ≤ n

instance (n : ℕ) (m : Aborting ε α) : Decidable (Sound n m) :=
  decidable_of_iff (m.outcome.toBool = true ∧ ∀ k ∈ m.requested, k ≤ n) (by
    unfold Sound
    cases m.outcome <;> simp [Except.toBool])

variable {n : ℕ}

theorem Ends.sound {m : Aborting ε α} {r : Except ε α} (h : Ends n m r) : Sound n m :=
  ⟨⟨r,h.1⟩,h.2⟩

theorem ends_lift (r : Except ε α) : Ends n (lift r) r := ⟨rfl,by simp [lift]⟩

theorem ends_pure (a : α) : Ends n (pure a : Aborting ε α) (.ok a) := ends_lift (.ok a)

theorem ends_fail (e : ε) : Ends n (fail e : Aborting ε α) (.error e) := ends_lift (.error e)

/-- A step with a counterpart: what follows is only met when the counterpart goes on. -/
theorem Ends.bind {m : Aborting ε α} {r : Except ε α} {f : α → Aborting ε β}
    {g : α → Except ε β} (hm : Ends n m r) (hf : ∀ a, r = .ok a → Ends n (f a) (g a)) :
    Ends n (m >>= f) (r >>= g) := by
  obtain ⟨ho,hreq⟩ := hm
  have hbind : m >>= f = andThen m f := rfl
  cases r with
  | error e =>
    have hand : m >>= f = ⟨m.requested,.ok (.error e)⟩ := by rw [hbind,andThen,ho]
    rw [hand]
    exact ⟨rfl,hreq⟩
  | ok a =>
    have hand : m >>= f = ⟨m.requested++(f a).requested,(f a).outcome⟩ := by
      rw [hbind,andThen,ho]
    have hrest := hf a rfl
    rw [hand]
    refine ⟨hrest.1,fun k hk => ?_⟩
    rcases List.mem_append.mp hk with hk | hk
    · exact hreq k hk
    · exact hrest.2 k hk

theorem Ends.step {m : Aborting ε α} {a : α} {f : α → Aborting ε β} {r : Except ε β}
    (hm : Ends n m (.ok a)) (hf : Ends n (f a) r) : Ends n (m >>= f) r :=
  Ends.bind (g := fun _ => r) hm fun _ ha => by cases ha; exact hf

theorem Ends.ite {c : Prop} [Decidable c] {m m' : Aborting ε α} {r r' : Except ε α}
    (hm : c → Ends n m r) (hm' : ¬ c → Ends n m' r') :
    Ends n (if c then m else m') (if c then r else r') := by
  by_cases hc : c
  · rw [if_pos hc,if_pos hc]
    exact hm hc
  · rw [if_neg hc,if_neg hc]
    exact hm' hc

theorem Ends.mapError {m : Aborting ε α} {r : Except ε α} (h : Ends n m r) (f : ε → ε') :
    Ends n (m.mapError f) (mapErr f r) := by
  refine ⟨?_,h.2⟩
  rw [Aborting.mapError,h.1]
  rfl

/-- Two continuations that agree on what a step can return. -/
theorem bind_agree {m : Aborting ε α} {f g : α → Aborting ε β}
    (h : ∀ a, m.outcome = .ok (.ok a) → f a = g a) : m >>= f = m >>= g := by
  show andThen m f = andThen m g
  unfold andThen
  match ho : m.outcome with
  | .error _ => rfl
  | .ok (.error _) => rfl
  | .ok (.ok a) => simp only [h a ho]

/-- What a sequence asks for is asked for by its first step or later. -/
theorem Sound.left {m : Aborting ε α} {f : α → Aborting ε β} (h : Sound n (m >>= f)) : Sound n m := by
  obtain ⟨⟨r,hr⟩,hreq⟩ := h
  have hbind : m >>= f = andThen m f := rfl
  rw [hbind] at hr hreq
  unfold andThen at hr hreq
  match ho : m.outcome with
  | .error fault =>
    rw [ho] at hr
    cases hr
  | .ok (.error e) =>
    rw [ho] at hreq
    exact ⟨⟨_,ho⟩,hreq⟩
  | .ok (.ok a) =>
    rw [ho] at hreq
    exact ⟨⟨_,ho⟩,fun k hk => hreq k (List.mem_append_left _ hk)⟩

theorem Sound.right {m : Aborting ε α} {a : α} {f : α → Aborting ε β} (h : Sound n (m >>= f))
    (hm : m.outcome = .ok (.ok a)) : Sound n (f a) := by
  obtain ⟨⟨r,hr⟩,hreq⟩ := h
  have hbind : m >>= f = ⟨m.requested++(f a).requested,(f a).outcome⟩ := by
    show andThen m f = _
    rw [andThen,hm]
  rw [hbind] at hr hreq
  exact ⟨⟨r,hr⟩,fun k hk => hreq k (List.mem_append_right _ hk)⟩

/-! The checks that go through. -/

theorem ends_index {data : List α} {i : ℕ} {a : α} (h : data[i]? = some a) :
    Ends n (index data i : Aborting ε α) (.ok a) := by
  rw [index,h]
  exact ends_lift _

theorem ends_slice {data : List α} {start stop : ℕ} (h : start ≤ stop) (h' : stop ≤ data.length) :
    Ends n (slice data start stop : Aborting ε (List α))
      (.ok ((data.drop start).take (stop-start))) := by
  rw [slice,if_pos ⟨h,h'⟩]
  exact ends_lift _

theorem ends_add {a b : ℕ} (h : a+b < 2^64) : Ends n (add a b : Aborting ε ℕ) (.ok (a+b)) := by
  rw [add,if_pos h]
  exact ends_lift _

theorem Sound.add_lt {a b : ℕ} (h : Sound n (add a b : Aborting ε ℕ)) : a+b < 2^64 := by
  by_contra hge
  obtain ⟨⟨r,hr⟩,_⟩ := h
  rw [add,if_neg hge] at hr
  cases hr

theorem ends_shiftLeft {a k : ℕ} (h : k < 32) :
    Ends n (shiftLeft a k : Aborting ε ℕ) (.ok (a*2^k%2^32)) := by
  rw [shiftLeft,if_pos h]
  exact ends_lift _

theorem ends_withCapacity {size count : ℕ} (h : count ≤ n) (h' : size*count < 2^63) :
    Ends n (withCapacity size count : Aborting ε Unit) (.ok ()) :=
  ⟨if_pos h',by simpa [withCapacity] using h⟩

theorem sound_withCapacity {size count : ℕ} :
    Sound n (withCapacity size count : Aborting ε Unit) ↔ count ≤ n ∧ size*count < 2^63 := by
  constructor
  · rintro ⟨⟨r,hr⟩,hreq⟩
    refine ⟨hreq count (by simp [withCapacity]),?_⟩
    by_contra hge
    rw [withCapacity,if_neg hge] at hr
    cases hr
  · intro h
    exact (ends_withCapacity h.1 h.2).sound

theorem ends_toVec {data : List UInt8} (h : data.length ≤ n) (h' : data.length < 2^63) :
    Ends n (toVec data : Aborting ε (List UInt8)) (.ok data) :=
  (ends_withCapacity h (by omega)).step (ends_pure data)

end Aborting
end EntityCore
