import Mathlib

/-! Little-endian numbers in groups of seven bits: a byte of 128 or more says that another
one follows. A number has one spelling without a zero group at its end. -/
namespace EntityCore
namespace Leb128

/-- The number that some groups of seven bits spell, the low group first. -/
def value : List UInt8 → ℕ
  | [] => 0
  | b::bs => b.toNat%128+128*value bs

/-- Every byte but the last says that another one follows. -/
def Terminated : List UInt8 → Prop
  | [] => False
  | [b] => b.toNat < 128
  | b::bs => 128 ≤ b.toNat ∧ Terminated bs

@[simp] theorem value_singleton (b : UInt8) : value [b] = b.toNat%128 := by simp [value]

theorem terminated_cons {b : UInt8} {bs : List UInt8} (h : bs ≠ []) :
    Terminated (b::bs) ↔ 128 ≤ b.toNat ∧ Terminated bs := by
  cases bs with
  | nil => exact absurd rfl h
  | cons c bs => rfl

theorem Terminated.ne_nil {bs : List UInt8} (h : Terminated bs) : bs ≠ [] := by
  rintro rfl
  exact h

/-- A terminated spelling is no proper front of another. -/
theorem Terminated.append_inj {a b r s : List UInt8} (ha : Terminated a) (hb : Terminated b)
    (h : a++r = b++s) : a = b ∧ r = s := by
  induction a generalizing b with
  | nil => exact ha.elim
  | cons x a ih =>
    cases b with
    | nil => exact hb.elim
    | cons y b =>
      obtain ⟨rfl,hrest⟩ := List.cons.inj h
      by_cases hna : a = []
      · subst hna
        by_cases hnb : b = []
        · subst hnb
          exact ⟨rfl,hrest⟩
        · have hx : x.toNat < 128 := ha
          have hy := ((terminated_cons hnb).mp hb).1
          omega
      · have hx := (terminated_cons hna).mp ha
        by_cases hnb : b = []
        · subst hnb
          have hy : x.toNat < 128 := hb
          omega
        · obtain ⟨rfl,rfl⟩ := ih hx.2 ((terminated_cons hnb).mp hb).2 hrest
          exact ⟨rfl,rfl⟩

end Leb128
end EntityCore
