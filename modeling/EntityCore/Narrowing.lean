import Mathlib

/-! Include/exclude scopes over any kind of value and pattern, and when one scope
lies inside another: a value the narrower scope admits, the wider one admits. -/
namespace EntityCore
namespace Narrowing

variable {V P Q : Type}

/-- Some include matches the value and no exclude does. -/
def Admits (hit : V → P → Prop) (includes excludes : List P) (v : V) : Prop :=
  (∃ p ∈ includes, hit v p) ∧ ∀ p ∈ excludes, ¬ hit v p

/-- Every include of the inner scope lies below one of the outer, and every exclude
of the outer below one of the inner. -/
structure Inside (below : P → Q → Prop) (above : Q → P → Prop)
    (innerInc innerExc : List P) (outerInc outerExc : List Q) : Prop where
  includes : ∀ p ∈ innerInc, ∃ q ∈ outerInc, below p q
  excludes : ∀ q ∈ outerExc, ∃ p ∈ innerExc, above q p

theorem Inside.admits {below : P → Q → Prop} {above : Q → P → Prop}
    {innerInc innerExc : List P} {outerInc outerExc : List Q}
    (h : Inside below above innerInc innerExc outerInc outerExc) (inHit : V → P → Prop)
    (outHit : V → Q → Prop) {v : V} (hbelow : ∀ p q, inHit v p → below p q → outHit v q)
    (habove : ∀ q p, outHit v q → above q p → inHit v p)
    (ha : Admits inHit innerInc innerExc v) : Admits outHit outerInc outerExc v := by
  obtain ⟨⟨p,hp,hv⟩,hex⟩ := ha
  constructor
  · obtain ⟨q,hq,hpq⟩ := h.includes p hp
    exact ⟨q,hq,hbelow p q hv hpq⟩
  · intro q hq hv
    obtain ⟨p,hp,hqp⟩ := h.excludes q hq
    exact hex p hp (habove q p hv hqp)

end Narrowing
end EntityCore
