import EntityCore.Trampoline

/-! Arithmetic and comparison of integer operands. An operand stands for a 64-bit pattern,
read as signed unless a cast to unsigned is directly below the operation. -/
namespace EntityCore
namespace Compute

open Ecf

/-- An operand that is a CBOR integer or carries the cast tag. -/
def ComputeValue.IsInteger (v : ComputeValue) : Prop := v.asI128.isSome

def ComputeValue.pattern (v : ComputeValue) (unsigned : Bool) : ℤ :=
  if unsigned then (asU64 v.word).toNat else asI64 v.word

/-- The quotient of a divisor that divides. -/
def ExactQuotient (a b : ℤ) (v : ComputeValue) : Prop :=
  if b = 0 then v = .error .divisionByZero
  else b ∣ a → ∃ q, v.asI128 = some q ∧ q ≡ a/b [ZMOD 2^64]

/-- The truncated remainder. -/
def ExactRemainder (a b : ℤ) (v : ComputeValue) : Prop :=
  if b = 0 then v = .error .divisionByZero
  else ∃ q r, v.asI128 = some r ∧ a = q*b+r ∧ |r| < |b| ∧ (r = 0 ∨ r.sign = a.sign)

structure ExactArithmetic (op : Str) (left right v : ComputeValue) : Prop where
  add : op = "add".toList → v.asI128 = some ((left.word+right.word).bmod (2^64))
  sub : op = "sub".toList → v.asI128 = some ((left.word-right.word).bmod (2^64))
  mul : op = "mul".toList → v.asI128 = some ((left.word*right.word).bmod (2^64))
  div : op = "div".toList → ExactQuotient (left.pattern (unsignedOperands left right))
    (right.pattern (unsignedOperands left right)) v
  mod : op = "mod".toList → ExactRemainder (left.pattern (unsignedOperands left right))
    (right.pattern (unsignedOperands left right)) v

/-- The least word by minus one, signed. -/
def DivisionOverflows (op : Str) (left right : ComputeValue) : Prop :=
  op = "div".toList ∧ unsignedOperands left right = false ∧ left.pattern false = i64Min ∧
    right.pattern false = -1

namespace ComputeValue

variable {v : ComputeValue}

theorem IsInteger.asI128 (h : v.IsInteger) : v.asI128 = some v.word := by
  obtain ⟨n,hn⟩ := Option.isSome_iff_exists.mp h
  simp [word,hn]

theorem IsInteger.numeric (h : v.IsInteger) : v.isNumeric = true ∧ v.isFloat = false := by
  unfold IsInteger ComputeValue.asI128 at h
  split at h
  · exact ⟨rfl,rfl⟩
  · exact ⟨rfl,rfl⟩
  · cases h

@[simp] theorem asI128_integer (n : ℤ) :
    (primitive (integer n)).asI128 = some (n.bmod (2^64)) := rfl

@[simp] theorem asI128_uint (u : UInt64) : (uint u).asI128 = some (u.toNat : ℤ) := rfl

theorem isInteger_integer (n : ℤ) : (primitive (integer n)).IsInteger := rfl

theorem isInteger_unsigned (u : UInt64) : (primitive (unsignedInteger u)).IsInteger := rfl

theorem isInteger_uint (u : UInt64) : (uint u).IsInteger := rfl

theorem pattern_signed_bounds (v : ComputeValue) :
    i64Min ≤ v.pattern false ∧ v.pattern false < 2^63 := by
  have hlow := Int.le_bmod (x := v.word) (m := 2^64) (by decide)
  have hhigh := Int.bmod_lt (x := v.word) (m := 2^64) (by decide)
  unfold pattern asI64 i64Min
  simp only [Bool.false_eq_true,if_false]
  omega

theorem asU64_toNat (n : ℤ) : ((asU64 n).toNat : ℤ) = n.emod (2^64) := by
  have hpos := Int.emod_nonneg n (b := 2^64) (by decide)
  have hlt := Int.emod_lt_of_pos n (b := 2^64) (by decide)
  unfold asU64
  rw [UInt64.toNat_ofNat']
  show ((((n%2^64).toNat % 2^64 : ℕ)) : ℤ) = n%2^64
  have hn : (n%2^64).toNat < 2^64 := by omega
  rw [Nat.mod_eq_of_lt hn]
  omega

end ComputeValue

/-! Truncated division. -/

theorem tdiv_modEq {a b : ℤ} (h : b ∣ a) : (a.tdiv b).bmod (2^64) ≡ a/b [ZMOD 2^64] := by
  rw [Int.tdiv_eq_ediv_of_dvd h]
  show (Int.bmod (a/b) ((2^64 : ℕ))) % 2^64 = a/b % 2^64
  exact Int.bmod_emod

theorem tmod_sign {a b : ℤ} : a.tmod b = 0 ∨ (a.tmod b).sign = a.sign := by
  by_cases hz : a.tmod b = 0
  · exact Or.inl hz
  · right
    rcases lt_trichotomy a 0 with ha | ha | ha
    · have hneg : a.tmod b ≤ 0 := by
        have h := Int.tmod_nonneg b (a := -a) (by omega)
        rw [Int.neg_tmod] at h
        omega
      rw [Int.sign_eq_neg_one_of_neg ha,Int.sign_eq_neg_one_of_neg (lt_of_le_of_ne hneg hz)]
    · exact absurd (by rw [ha,Int.zero_tmod]) hz
    · have hpos : 0 ≤ a.tmod b := Int.tmod_nonneg b (le_of_lt ha)
      rw [Int.sign_eq_one_of_pos ha,Int.sign_eq_one_of_pos (lt_of_le_of_ne hpos (Ne.symm hz))]

theorem exactRemainder_tmod {a b : ℤ} (hb : b ≠ 0) {v : ComputeValue}
    (hv : v.asI128 = some (a.tmod b)) : ExactRemainder a b v := by
  unfold ExactRemainder
  rw [if_neg hb]
  refine ⟨a.tdiv b,a.tmod b,hv,?_,?_,tmod_sign⟩
  · have h := Int.mul_tdiv_add_tmod a b
    rw [mul_comm] at h
    exact h.symm
  · have h : (a.tmod b).natAbs < b.natAbs := by
      rw [Int.natAbs_tmod]
      exact Nat.mod_lt _ (Int.natAbs_pos.mpr hb)
    rw [Int.abs_eq_natAbs,Int.abs_eq_natAbs]
    exact_mod_cast h

section Division

variable (F : Runtime) (left right : ComputeValue)

theorem div_unsigned (h : unsignedOperands left right = true) :
    ∃ v, applyDivInteger F left right = some v ∧
      ExactQuotient (left.pattern true) (right.pattern true) v := by
  unfold applyDivInteger ExactQuotient ComputeValue.pattern
  simp only [h,if_true]
  generalize asU64 left.word = l
  generalize asU64 right.word = r
  by_cases hr : r = 0
  · exact ⟨.error .divisionByZero,by simp [hr],by simp [hr]⟩
  · have hr' : ((r.toNat : ℕ) : ℤ) ≠ 0 := by
      intro hz
      exact hr (UInt64.toNat_inj.mp (by exact_mod_cast hz))
    by_cases hmod : l % r = 0
    · refine ⟨.uint (l/r),by simp [hr,hmod],?_⟩
      rw [if_neg hr']
      intro _
      refine ⟨_,ComputeValue.asI128_uint _,?_⟩
      rw [UInt64.toNat_div]
      push_cast
      exact Int.ModEq.refl _
    · refine ⟨_,by rw [if_neg hr,if_neg hmod],?_⟩
      rw [if_neg hr']
      intro hdvd
      exfalso
      apply hmod
      apply UInt64.toNat_inj.mp
      rw [UInt64.toNat_mod]
      exact Nat.mod_eq_zero_of_dvd (by exact_mod_cast hdvd)

theorem div_signed (h : unsignedOperands left right = false)
    (hover : ¬ (left.pattern false = i64Min ∧ right.pattern false = -1)) :
    ∃ v, applyDivInteger F left right = some v ∧
      ExactQuotient (left.pattern false) (right.pattern false) v := by
  have hl : asI64 left.word = left.pattern false := by simp [ComputeValue.pattern]
  have hr : asI64 right.word = right.pattern false := by simp [ComputeValue.pattern]
  unfold applyDivInteger ExactQuotient
  simp only [h,hl,hr,Bool.false_eq_true,if_false]
  generalize left.pattern false = l at *
  generalize right.pattern false = r at *
  by_cases hz : r = 0
  · exact ⟨.error .divisionByZero,by simp [hz],by simp [hz]⟩
  · by_cases hmod : l.tmod r = 0
    · refine ⟨.primitive (integer (l.tdiv r)),by rw [if_neg hz,if_neg hover,if_pos hmod],?_⟩
      rw [if_neg hz]
      intro hdvd
      exact ⟨_,ComputeValue.asI128_integer _,tdiv_modEq hdvd⟩
    · refine ⟨_,by rw [if_neg hz,if_neg hover,if_neg hmod],?_⟩
      rw [if_neg hz]
      intro hdvd
      exact absurd (Int.tmod_eq_zero_of_dvd hdvd) hmod

theorem mod_exact : ExactRemainder (left.pattern (unsignedOperands left right))
    (right.pattern (unsignedOperands left right)) (applyModInteger left right) := by
  unfold applyModInteger
  cases hu : unsignedOperands left right with
  | true =>
    simp only [if_true,ComputeValue.pattern]
    generalize asU64 left.word = l
    generalize asU64 right.word = r
    by_cases hr : r = 0
    · simp [hr,ExactRemainder]
    · have hr' : ((r.toNat : ℕ) : ℤ) ≠ 0 := by
        intro hz
        exact hr (UInt64.toNat_inj.mp (by exact_mod_cast hz))
      rw [if_neg hr]
      apply exactRemainder_tmod hr'
      rw [ComputeValue.asI128_uint,UInt64.toNat_mod]
      norm_cast
  | false =>
    have hl : asI64 left.word = left.pattern false := by simp [ComputeValue.pattern]
    have hr : asI64 right.word = right.pattern false := by simp [ComputeValue.pattern]
    simp only [hl,hr,Bool.false_eq_true,if_false]
    have hb := right.pattern_signed_bounds
    generalize left.pattern false = l
    generalize right.pattern false = r at hb
    by_cases hz : r = 0
    · simp [hz,ExactRemainder]
    · rw [if_neg hz]
      apply exactRemainder_tmod hz
      -- a remainder is below the divisor, so it is a word
      have hlt : (l.tmod r).natAbs < r.natAbs := by
        rw [Int.natAbs_tmod]
        exact Nat.mod_lt _ (Int.natAbs_pos.mpr hz)
      rw [ComputeValue.asI128_integer]
      congr 1
      unfold i64Min at hb
      apply Int.bmod_eq_of_le <;> norm_num <;> omega

end Division

/-- On integers the float rules do not apply. -/
theorem applyArithmetic_integer (F : Runtime) (op : Str) {left right : ComputeValue}
    (hl : left.IsInteger) (hr : right.IsInteger) : applyArithmetic F op left right =
      if op = "add".toList then some (.primitive (integer (asI64 left.word+asI64 right.word)))
      else if op = "sub".toList then some (.primitive (integer (asI64 left.word-asI64 right.word)))
      else if op = "mul".toList then some (.primitive (integer (asI64 left.word*asI64 right.word)))
      else if op = "div".toList then applyDivInteger F left right
      else if op = "mod".toList then some (applyModInteger left right)
      else some (.error (.invalidExpression ("Unknown arithmetic op: "++String.ofList op))) := by
  simp only [applyArithmetic,hl.numeric.1,hl.numeric.2,hr.numeric.1,hr.numeric.2,Bool.not_true,
    Bool.or_self,Bool.and_false,Bool.false_eq_true,if_false]

/-- An operation other than the five is exact in that it promises nothing. -/
theorem exactArithmetic_of_word {op : Str} {left right v : ComputeValue}
    (hadd : op = "add".toList → v.asI128 = some ((left.word+right.word).bmod (2^64)))
    (hsub : op = "sub".toList → v.asI128 = some ((left.word-right.word).bmod (2^64)))
    (hmul : op = "mul".toList → v.asI128 = some ((left.word*right.word).bmod (2^64)))
    (hdiv : op ≠ "div".toList) (hmod : op ≠ "mod".toList) : ExactArithmetic op left right v :=
  ⟨hadd,hsub,hmul,fun h => absurd h hdiv,fun h => absurd h hmod⟩

/-- Integer arithmetic is exact on all operands but the least word divided by minus one. -/
theorem integer_arithmetic_exact_iff (F : Runtime) (op : Str) (left right : ComputeValue)
    (hl : left.IsInteger) (hr : right.IsInteger) :
    (∃ v, applyArithmetic F op left right = some v ∧ ExactArithmetic op left right v) ↔
      ¬ DivisionOverflows op left right := by
  have hops : "add".toList ≠ "sub".toList ∧ "add".toList ≠ "mul".toList ∧
      "add".toList ≠ "div".toList ∧ "add".toList ≠ "mod".toList ∧ "sub".toList ≠ "mul".toList ∧
      "sub".toList ≠ "div".toList ∧ "sub".toList ≠ "mod".toList ∧ "mul".toList ≠ "div".toList ∧
      "mul".toList ≠ "mod".toList ∧ "div".toList ≠ "mod".toList := by decide
  obtain ⟨has,ham,had,har,hsm,hsd,hsr,hmd,hmr,hdr⟩ := hops
  rw [applyArithmetic_integer F op hl hr]
  by_cases hadd : op = "add".toList
  · subst hadd
    rw [if_pos rfl]
    refine iff_of_true ⟨_,rfl,exactArithmetic_of_word ?_ (fun h => absurd h has)
      (fun h => absurd h ham) had har⟩ fun h => had h.1
    intro _
    rw [ComputeValue.asI128_integer,asI64,asI64,← Int.add_bmod]
  rw [if_neg hadd]
  by_cases hsub : op = "sub".toList
  · subst hsub
    rw [if_pos rfl]
    refine iff_of_true ⟨_,rfl,exactArithmetic_of_word (fun h => absurd h hadd) ?_
      (fun h => absurd h hsm) hsd hsr⟩ fun h => hsd h.1
    intro _
    rw [ComputeValue.asI128_integer,asI64,asI64,← Int.sub_bmod]
  rw [if_neg hsub]
  by_cases hmul : op = "mul".toList
  · subst hmul
    rw [if_pos rfl]
    refine iff_of_true ⟨_,rfl,exactArithmetic_of_word (fun h => absurd h hadd)
      (fun h => absurd h hsub) ?_ hmd hmr⟩ fun h => hmd h.1
    intro _
    rw [ComputeValue.asI128_integer,asI64,asI64,← Int.mul_bmod]
  rw [if_neg hmul]
  by_cases hdiv : op = "div".toList
  · subst hdiv
    rw [if_pos rfl]
    have hquot : ∀ v, ExactQuotient (left.pattern (unsignedOperands left right))
        (right.pattern (unsignedOperands left right)) v → ExactArithmetic "div".toList left right v :=
      fun v hv => ⟨fun h => absurd h hadd,fun h => absurd h hsub,fun h => absurd h hmul,
        fun _ => hv,fun h => absurd h hdr⟩
    cases hu : unsignedOperands left right with
    | true =>
      obtain ⟨v,hv,hex⟩ := div_unsigned F left right hu
      refine iff_of_true ⟨v,hv,hquot v (by rw [hu]; exact hex)⟩ ?_
      rintro ⟨_,h,_⟩
      rw [hu] at h
      cases h
    | false =>
      by_cases hover : left.pattern false = i64Min ∧ right.pattern false = -1
      · refine iff_of_false ?_ fun h => h ⟨rfl,hu,hover⟩
        rintro ⟨v,hv,_⟩
        have hz : asI64 right.word ≠ 0 := by
          have h := hover.2
          simp only [ComputeValue.pattern,Bool.false_eq_true,if_false] at h
          omega
        have ho : asI64 left.word = i64Min ∧ asI64 right.word = -1 := by
          simpa [ComputeValue.pattern] using hover
        unfold applyDivInteger at hv
        simp only [hu,Bool.false_eq_true,if_false] at hv
        rw [if_neg hz,if_pos ho] at hv
        cases hv
      · obtain ⟨v,hv,hex⟩ := div_signed F left right hu hover
        exact iff_of_true ⟨v,hv,hquot v (by rw [hu]; exact hex)⟩ fun h => hover h.2.2
  rw [if_neg hdiv]
  have hnot : ¬ DivisionOverflows op left right := fun h => hdiv h.1
  by_cases hmod : op = "mod".toList
  · subst hmod
    rw [if_pos rfl]
    exact iff_of_true ⟨_,rfl,fun h => absurd h hadd,fun h => absurd h hsub,fun h => absurd h hmul,
      fun h => absurd h hdiv,fun _ => mod_exact left right⟩ hnot
  · rw [if_neg hmod]
    exact iff_of_true ⟨_,rfl,exactArithmetic_of_word (fun h => absurd h hadd)
      (fun h => absurd h hsub) (fun h => absurd h hmul) hdiv hmod⟩ hnot

theorem integer_arithmetic_exact_seven_by_two :
    ¬ DivisionOverflows "mod".toList (.primitive (integer (-7))) (.primitive (integer 2)) ∧
    ∃ v, applyArithmetic ComputeSample.words "mod".toList (.primitive (integer (-7)))
      (.primitive (integer 2)) = some v ∧ ExactArithmetic "mod".toList (.primitive (integer (-7)))
        (.primitive (integer 2)) v := by
  have hnot : ¬ DivisionOverflows "mod".toList (.primitive (integer (-7)))
      (.primitive (integer 2)) := by
    rintro ⟨h,-⟩
    exact absurd h (by decide)
  exact ⟨hnot,(integer_arithmetic_exact_iff ComputeSample.words "mod".toList _ _
    (ComputeValue.isInteger_integer _) (ComputeValue.isInteger_integer _)).mpr hnot⟩

/-- The least word by minus one panics. -/
theorem least_word_division_panics :
    ¬ ∀ (F : Runtime) (op : Str) (left right : ComputeValue), left.IsInteger → right.IsInteger →
      ∃ v, applyArithmetic F op left right = some v ∧ ExactArithmetic op left right v := by
  intro h
  obtain ⟨v,hv,-⟩ := h ComputeSample.words "div".toList (.primitive (integer (-2^63)))
    (.primitive (integer (-1))) rfl rfl
  have hnone : (applyArithmetic ComputeSample.words "div".toList (.primitive (integer (-2^63)))
    (.primitive (integer (-1)))).isNone = true := by decide
  rw [hv] at hnone
  cases hnone

/-! Comparison. -/

def Holds (F : Runtime) (op : String) (a b : ComputeValue) : Prop :=
  applyCompare F op.toList a b = .primitive (.bool true)

structure ConsistentOrder (F : Runtime) (a b : ComputeValue) : Prop where
  trichotomy : (Holds F "lt" a b ∧ ¬ Holds F "eq" a b ∧ ¬ Holds F "gt" a b) ∨
    (¬ Holds F "lt" a b ∧ Holds F "eq" a b ∧ ¬ Holds F "gt" a b) ∨
    (¬ Holds F "lt" a b ∧ ¬ Holds F "eq" a b ∧ Holds F "gt" a b)
  lte : Holds F "lte" a b ↔ Holds F "lt" a b ∨ Holds F "eq" a b
  gte : Holds F "gte" a b ↔ Holds F "gt" a b ∨ Holds F "eq" a b
  neq : Holds F "neq" a b ↔ ¬ Holds F "eq" a b

section Compare

variable (F : Runtime) {a b : ComputeValue}

theorem holds_eq (ha : a.IsInteger) (hb : b.IsInteger) : Holds F "eq" a b ↔ a.word = b.word := by
  have hne : computeValuesEqual F a b = decide (a.word = b.word) := by
    unfold computeValuesEqual
    simp [ha.numeric.1,ha.numeric.2,hb.numeric.1,hb.numeric.2,ha.asI128,hb.asI128]
  simp [Holds,applyCompare,hne]

theorem holds_neq (ha : a.IsInteger) (hb : b.IsInteger) : Holds F "neq" a b ↔ a.word ≠ b.word := by
  have hne : computeValuesEqual F a b = decide (a.word = b.word) := by
    unfold computeValuesEqual
    simp [ha.numeric.1,ha.numeric.2,hb.numeric.1,hb.numeric.2,ha.asI128,hb.asI128]
  simp [Holds,applyCompare,hne]

/-- An ordering compares the patterns in the signedness of the operands. -/
theorem holds_ordering (ha : a.IsInteger) (hb : b.IsInteger) {op : String}
    (hop : op.toList ∈ ["lt".toList,"gt".toList,"lte".toList,"gte".toList]) : Holds F op a b ↔
      ordering (· < ·) (· ≤ ·) op.toList (a.pattern (unsignedOperands a b))
        (b.pattern (unsignedOperands a b)) = true := by
  have heq : op.toList ≠ "eq".toList := by
    rintro h
    rw [h] at hop
    exact absurd hop (by decide)
  have hneq : op.toList ≠ "neq".toList := by
    rintro h
    rw [h] at hop
    exact absurd hop (by decide)
  have hbool : ∀ t : Bool, ComputeValue.primitive (.bool t) = .primitive (.bool true) ↔ t = true := by
    intro t
    simp
  simp only [Holds,applyCompare,if_neg heq,if_neg hneq,if_pos hop,ha.numeric.1,ha.numeric.2,
    hb.numeric.1,hb.numeric.2,Bool.and_self,Bool.or_self,Bool.false_eq_true,if_false,if_true]
  cases hu : unsignedOperands a b with
  | true =>
    simp only [if_true,ComputeValue.pattern]
    rw [hbool]
    have hlt : ∀ x y : UInt64, (decide (x < y)) = decide ((x.toNat : ℤ) < y.toNat) := by
      intro x y
      simp [UInt64.lt_iff_toNat_lt]
    have hle : ∀ x y : UInt64, (decide (x ≤ y)) = decide ((x.toNat : ℤ) ≤ y.toNat) := by
      intro x y
      simp [UInt64.le_iff_toNat_le]
    unfold ordering
    simp only [hlt,hle]
  | false =>
    simp only [Bool.false_eq_true,if_false,ComputeValue.pattern]
    exact hbool _

end Compare

/-- Patterns agree exactly where the integers do modulo the word. -/
theorem pattern_eq_iff (a b : ComputeValue) (unsigned : Bool) :
    a.pattern unsigned = b.pattern unsigned ↔ a.word ≡ b.word [ZMOD 2^64] := by
  cases unsigned with
  | true =>
    simp only [ComputeValue.pattern,if_true,ComputeValue.asU64_toNat]
    exact Iff.rfl
  | false =>
    simp only [ComputeValue.pattern,Bool.false_eq_true,if_false,asI64]
    constructor
    · intro h
      have hmod := congrArg (fun n : ℤ => n % ((2^64 : ℕ) : ℤ)) h
      rw [Int.bmod_emod,Int.bmod_emod] at hmod
      exact hmod
    · intro h
      rw [← Int.emod_bmod (x := a.word),← Int.emod_bmod (x := b.word)]
      exact congrArg (fun n : ℤ => n.bmod (2^64)) h

section Order

variable (F : Runtime) {a b : ComputeValue} (ha : a.IsInteger) (hb : b.IsInteger)
include ha hb

theorem holds_lt : Holds F "lt" a b ↔
    a.pattern (unsignedOperands a b) < b.pattern (unsignedOperands a b) := by
  rw [holds_ordering F ha hb (by decide)]
  exact decide_eq_true_iff

theorem holds_gt : Holds F "gt" a b ↔
    b.pattern (unsignedOperands a b) < a.pattern (unsignedOperands a b) := by
  rw [holds_ordering F ha hb (by decide)]
  exact decide_eq_true_iff

theorem holds_lte : Holds F "lte" a b ↔
    a.pattern (unsignedOperands a b) ≤ b.pattern (unsignedOperands a b) := by
  rw [holds_ordering F ha hb (by decide)]
  exact decide_eq_true_iff

theorem holds_gte : Holds F "gte" a b ↔
    b.pattern (unsignedOperands a b) ≤ a.pattern (unsignedOperands a b) := by
  rw [holds_ordering F ha hb (by decide)]
  exact decide_eq_true_iff

/-- Of two integers with one pattern none is below, above or equal to the other. -/
theorem not_consistent_of_clash (hmod : a.word ≡ b.word [ZMOD 2^64]) (hne : a.word ≠ b.word) :
    ¬ ConsistentOrder F a b := by
  intro h
  have hxy := (pattern_eq_iff a b (unsignedOperands a b)).mpr hmod
  rcases h.trichotomy with ⟨h,-,-⟩ | ⟨-,h,-⟩ | ⟨-,-,h⟩
  · rw [holds_lt F ha hb] at h
    omega
  · exact hne ((holds_eq F ha hb).mp h)
  · rw [holds_gt F ha hb] at h
    omega

end Order

/-- Equality compares integers and the orderings compare patterns, so the order is
consistent exactly where no two integers share a pattern. -/
theorem integer_order_consistent_iff (F : Runtime) (a b : ComputeValue) (ha : a.IsInteger)
    (hb : b.IsInteger) :
    ConsistentOrder F a b ↔ (a.word ≡ b.word [ZMOD 2^64] → a.word = b.word) := by
  constructor
  · intro h hmod
    by_contra hne
    exact not_consistent_of_clash F ha hb hmod hne h
  · intro h
    have hpat := pattern_eq_iff a b (unsignedOperands a b)
    have hiff : a.word = b.word ↔
        a.pattern (unsignedOperands a b) = b.pattern (unsignedOperands a b) :=
      ⟨fun he => hpat.mpr (by rw [he]),fun hxy => h (hpat.mp hxy)⟩
    have heq := (holds_eq F ha hb).trans hiff
    refine ⟨?_,?_,?_,?_⟩
    · rw [holds_lt F ha hb,heq,holds_gt F ha hb]
      omega
    · rw [holds_lte F ha hb,holds_lt F ha hb,heq]
      omega
    · rw [holds_gte F ha hb,holds_gt F ha hb,heq]
      omega
    · rw [holds_neq F ha hb,holds_eq F ha hb]

theorem integer_order_consistent_one_two :
    ConsistentOrder ComputeSample.words (.primitive (integer 1)) (.uint 2) :=
  (integer_order_consistent_iff ComputeSample.words _ _ (ComputeValue.isInteger_integer 1)
    (ComputeValue.isInteger_uint 2)).mpr (by decide)

/-- The word of ones, its tag stripped, is neither below, above nor equal to minus one. -/
theorem ones_against_minus_one :
    ¬ ∀ (F : Runtime) (a b : ComputeValue), a.IsInteger → b.IsInteger → ConsistentOrder F a b := by
  intro h
  have hones := ComputeValue.isInteger_unsigned (2^64-1)
  have hminus := ComputeValue.isInteger_integer (-1)
  exact not_consistent_of_clash ComputeSample.words hones hminus (by decide +kernel)
    (by decide) (h ComputeSample.words _ _ hones hminus)

end Compute
end EntityCore
