import Mathlib

/-! Sparse arrays: a bitmap of the occupied positions and a dense list of what stands
there, in position order. The index of a position in the list is the number of
occupied positions before it. -/
namespace EntityCore

open List
namespace SparseArray

variable {α : Type} {w : ℕ}

def countOnes (m : BitVec w) : ℕ := (List.range w).countP fun i => m.getLsbD i

/-- The bitmap and the list hold a partial function on positions. -/
structure Holds (m : BitVec w) (d : List α) (f : ℕ → Option α) : Prop where
  bits : ∀ p < w, m.getLsbD p = (f p).isSome
  dense : d = (List.range w).filterMap f

def bitmap (w : ℕ) (f : ℕ → Option α) : BitVec w := BitVec.ofFnLE fun i => (f i).isSome

def dense (w : ℕ) (f : ℕ → Option α) : List α := (List.range w).filterMap f

theorem holds_bitmap (f : ℕ → Option α) : Holds (bitmap w f) (dense w f) f :=
  ⟨fun p hp => by simp [bitmap,BitVec.getLsbD_eq_getElem hp],rfl⟩

theorem Holds.unique {m m' : BitVec w} {d d' : List α} {f : ℕ → Option α}
    (h : Holds m d f) (h' : Holds m' d' f) : m = m' ∧ d = d' := by
  refine ⟨BitVec.eq_of_getLsbD_eq fun i hi => ?_,h.dense.trans h'.dense.symm⟩
  rw [h.bits i hi,h'.bits i hi]

theorem range_split {p : ℕ} (hp : p < w) : range w = range p++p::range' (p+1) (w-p-1) := by
  have hw : w = p+(w-p) := by omega
  have hs : w-p = w-p-1+1 := by omega
  rw [range_eq_range',range_eq_range']
  conv_lhs => rw [hw,← range'_append_1,hs,range'_succ,Nat.zero_add]

theorem Holds.split {m : BitVec w} {d : List α} {f : ℕ → Option α} (h : Holds m d f)
    {p : ℕ} (hp : p < w) : d = (range p).filterMap f++
      ((f p).toList++(range' (p+1) (w-p-1)).filterMap f) := by
  rw [h.dense,range_split hp,filterMap_append,filterMap_cons]
  cases f p <;> rfl

theorem countOnes_below {m mask : BitVec w} {d : List α} {f : ℕ → Option α} (h : Holds m d f)
    {p : ℕ} (hp : p < w) (hmask : ∀ i < w, mask.getLsbD i = decide (i < p)) :
    countOnes (m &&& mask) = ((range p).filterMap f).length := by
  have hbit : ∀ i < w, (m &&& mask).getLsbD i = ((f i).isSome && decide (i < p)) := by
    intro i hi
    rw [BitVec.getLsbD_and,h.bits i hi,hmask i hi]
  have hlow : ∀ i ∈ range p, (m &&& mask).getLsbD i = (f i).isSome := by
    intro i hi
    have hip := mem_range.mp hi
    rw [hbit i (hip.trans hp),decide_eq_true hip,Bool.and_true]
  have hhigh : ∀ i ∈ p::range' (p+1) (w-p-1), ¬ (m &&& mask).getLsbD i = true := by
    intro i hi
    have hle : p ≤ i ∧ i < w := by
      rcases mem_cons.mp hi with rfl | hi
      · exact ⟨le_rfl,hp⟩
      · have hr := mem_range'_1.mp hi
        omega
    rw [hbit i hle.2,decide_eq_false (by omega),Bool.and_false]
    exact Bool.false_ne_true
  rw [countOnes,range_split hp,countP_append,countP_eq_zero.mpr hhigh,Nat.add_zero,
    length_filterMap_eq_countP]
  exact countP_congr fun i hi => by rw [hlow i hi]

theorem filterMap_update_of_notMem {f : ℕ → Option α} {p : ℕ} {o : Option α} {l : List ℕ}
    (hp : p ∉ l) : l.filterMap (Function.update f p o) = l.filterMap f := by
  apply filterMap_congr
  intro i hi
  exact Function.update_of_ne (fun he => hp (by rwa [← he])) _ _

/-- Writing one position changes the middle of the list. -/
theorem Holds.update {m m' : BitVec w} {d : List α} {f : ℕ → Option α} (h : Holds m d f)
    {p : ℕ} (hp : p < w) {o : Option α} (hm : m'.getLsbD p = o.isSome)
    (hrest : ∀ i < w, i ≠ p → m'.getLsbD i = m.getLsbD i) : Holds m' ((range p).filterMap f++
      (o.toList++(range' (p+1) (w-p-1)).filterMap f)) (Function.update f p o) := by
  constructor
  · intro i hi
    by_cases hip : i = p
    · subst hip
      rw [hm,Function.update_self]
    · rw [hrest i hi hip,h.bits i hi,Function.update_of_ne hip]
  · have hlow : p ∉ range p := by simp
    have hhigh : p ∉ range' (p+1) (w-p-1) := by
      intro hc
      have hr := mem_range'_1.mp hc
      omega
    rw [range_split hp,filterMap_append,filterMap_cons,Function.update_self,
      filterMap_update_of_notMem hlow,filterMap_update_of_notMem hhigh]
    cases o <;> rfl

theorem insertIdx_length_append (l r : List α) (a : α) : (l++r).insertIdx l.length a = l++a::r := by
  induction l with
  | nil => rfl
  | cons x l ih =>
    rw [cons_append,length_cons,insertIdx_succ_cons,ih,cons_append]

section At

variable {m : BitVec w} {d : List α} {f : ℕ → Option α} {p : ℕ}

theorem Holds.get (h : Holds m d f) (hp : p < w) {a : α} (ha : f p = some a) :
    d[((range p).filterMap f).length]? = some a := by
  rw [h.split hp,ha,getElem?_append_right le_rfl]
  simp

theorem Holds.insert (h : Holds m d f) (hp : p < w) (hnone : f p = none) (a : α) :
    Holds (m ||| 1#w <<< p) (d.insertIdx ((range p).filterMap f).length a)
      (Function.update f p (some a)) := by
  have hd : d.insertIdx ((range p).filterMap f).length a = (range p).filterMap f++
      ((some a).toList++(range' (p+1) (w-p-1)).filterMap f) := by
    conv_lhs => rw [h.split hp,hnone]
    exact insertIdx_length_append _ _ a
  rw [hd]
  apply h.update hp
  · simp [hp]
  · intro i hi hne
    have hs : (1#w <<< p).getLsbD i = false := by
      simp [hi]
      omega
    rw [BitVec.getLsbD_or,hs,Bool.or_false]

theorem Holds.set (h : Holds m d f) (hp : p < w) {b : α} (hsome : f p = some b) (a : α) :
    Holds m (d.set ((range p).filterMap f).length a) (Function.update f p (some a)) := by
  have hd : d.set ((range p).filterMap f).length a = (range p).filterMap f++
      ((some a).toList++(range' (p+1) (w-p-1)).filterMap f) := by
    conv_lhs => rw [h.split hp,hsome]
    rw [set_append_right _ _ le_rfl]
    simp
  rw [hd]
  apply h.update hp
  · rw [h.bits p hp,hsome]
    rfl
  · intro i _ _
    rfl

theorem Holds.erase (h : Holds m d f) (hp : p < w) {b : α} (hsome : f p = some b) :
    Holds (m &&& ~~~(1#w <<< p)) (d.eraseIdx ((range p).filterMap f).length)
      (Function.update f p none) := by
  have hd : d.eraseIdx ((range p).filterMap f).length = (range p).filterMap f++
      ((none : Option α).toList++(range' (p+1) (w-p-1)).filterMap f) := by
    conv_lhs => rw [h.split hp,hsome]
    rw [eraseIdx_append_of_length_le le_rfl]
    simp
  rw [hd]
  apply h.update hp
  · simp [hp]
  · intro i hi hne
    have hs : (1#w <<< p).getLsbD i = false := by
      simp [hi]
      omega
    rw [BitVec.getLsbD_and,BitVec.getLsbD_not,hs,decide_eq_true hi]
    simp

end At

end SparseArray
end EntityCore
