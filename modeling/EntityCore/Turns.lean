import Mathlib

/-! Two queues that take turns. Each goes its own way through what is reachable from its
start, and the first member that both have come to is where they meet. -/
namespace EntityCore
namespace BreadthFirst

variable {α : Type} [DecidableEq α] (next : α → List α)

/-- A queue takes its first member, and queues what follows it if it is new. -/
def turn : List α × Finset α → List α × Finset α
  | ([],seen) => ([],seen)
  | (a::queue,seen) => if a ∈ seen then (queue,seen) else (queue++next a,insert a seen)

/-- The queue and the members taken, after so many turns. -/
def after (start : α) (n : ℕ) : List α × Finset α := (turn next)^[n] ([start],∅)

def TakenAt (start : α) (n : ℕ) (a : α) : Prop := (after next start n).1.head? = some a

def FirstTakenAt (start : α) (n : ℕ) (a : α) : Prop :=
  TakenAt next start n a ∧ ∀ m < n, ¬TakenAt next start m a

variable {next}

theorem after_succ (start : α) (n : ℕ) :
    after next start (n+1) = turn next (after next start n) := Function.iterate_succ_apply' _ _ _

theorem turn_seen (q : List α × Finset α) (a : α) :
    a ∈ (turn next q).2 ↔ a ∈ q.2 ∨ q.1.head? = some a := by
  match q with
  | ([],seen) => simp [turn]
  | (b::queue,seen) =>
    by_cases hb : b ∈ seen
    · simp only [turn,if_pos hb,List.head?_cons,Option.some.injEq]
      exact ⟨.inl,fun h => h.elim id fun h => h ▸ hb⟩
    · simp [turn,if_neg hb,or_comm,eq_comm]

theorem mem_after {start a : α} {n : ℕ} :
    a ∈ (after next start n).2 ↔ ∃ m < n, TakenAt next start m a := by
  induction n with
  | zero => simp [after]
  | succ n ih =>
    rw [after_succ,turn_seen,ih]
    constructor
    · rintro (⟨m,hm,ha⟩ | ha)
      · exact ⟨m,by omega,ha⟩
      · exact ⟨n,by omega,ha⟩
    · rintro ⟨m,hm,ha⟩
      by_cases hmn : m = n
      · exact .inr (hmn ▸ ha)
      · exact .inl ⟨m,by omega,ha⟩

theorem firstTakenAt_of_head {start a : α} {n : ℕ} {queue : List α}
    (h : (after next start n).1 = a::queue) (hnew : a ∉ (after next start n).2) :
    FirstTakenAt next start n a := by
  refine ⟨by rw [TakenAt,h]; rfl,?_⟩
  intro m hm ha
  exact hnew (mem_after.mpr ⟨m,hm,ha⟩)

theorem FirstTakenAt.of_taken {start a : α} {n : ℕ} (h : TakenAt next start n a) :
    ∃ m ≤ n, FirstTakenAt next start m a := by
  classical
  have hex : ∃ m, TakenAt next start m a := ⟨n,h⟩
  exact ⟨Nat.find hex,Nat.find_le h,Nat.find_spec hex,fun m hm => Nat.find_min hex hm⟩

/-! What is taken is what can be reached. -/

theorem turn_mem {q : List α × Finset α} {P : α → Prop} (hP : ∀ a, P a → ∀ b ∈ next a, P b)
    (h : ∀ a ∈ q.1, P a) : ∀ a ∈ (turn next q).1, P a := by
  match q with
  | ([],seen) => simp [turn]
  | (b::queue,seen) =>
    have hb := h b List.mem_cons_self
    have hrest : ∀ a ∈ queue, P a := fun a ha => h a (List.mem_cons_of_mem b ha)
    by_cases hseen : b ∈ seen
    · simpa only [turn,if_pos hseen] using hrest
    · simp only [turn,if_neg hseen,List.mem_append]
      intro a ha
      exact ha.elim (hrest a) (hP b hb a)

theorem queued {start : α} {P : α → Prop} (hstart : P start) (hP : ∀ a, P a → ∀ b ∈ next a, P b)
    (n : ℕ) : ∀ a ∈ (after next start n).1, P a := by
  induction n with
  | zero => simp [after,hstart]
  | succ n ih =>
    rw [after_succ]
    exact turn_mem hP ih

/-- What follows a member that was taken has been taken or is queued. -/
theorem follows {start : α} (n : ℕ) : ∀ a ∈ (after next start n).2, ∀ b ∈ next a,
    b ∈ (after next start n).2 ∨ b ∈ (after next start n).1 := by
  induction n with
  | zero => simp [after]
  | succ n ih =>
    rw [after_succ]
    generalize after next start n = q at ih ⊢
    match q with
    | ([],seen) => simpa [turn] using ih
    | (c::queue,seen) =>
      by_cases hc : c ∈ seen
      · simp only [turn,if_pos hc]
        intro a ha b hb
        rcases ih a ha b hb with h | h
        · exact .inl h
        · rcases List.mem_cons.mp h with rfl | h
          · exact .inl hc
          · exact .inr h
      · simp only [turn,if_neg hc]
        intro a ha b hb
        rcases Finset.mem_insert.mp ha with rfl | ha
        · exact .inr (List.mem_append_right _ hb)
        · rcases ih a ha b hb with h | h
          · exact .inl (Finset.mem_insert_of_mem h)
          · rcases List.mem_cons.mp h with rfl | h
            · exact .inl (Finset.mem_insert_self _ _)
            · exact .inr (List.mem_append_left _ h)

/-- A queue ends that draws from a finite stock: a new member uses it up, an old one
shortens the queue. -/
theorem turns_end (stock : Finset α) (hstock : ∀ a ∈ stock, ∀ b ∈ next a, b ∈ stock)
    (q : List α × Finset α) (hqueue : ∀ a ∈ q.1, a ∈ stock) : ∃ n, ((turn next)^[n] q).1 = [] := by
  induction hk : (stock\q.2).card using Nat.strong_induction_on generalizing q with
  | _ k ih =>
    obtain ⟨queue,seen⟩ := q
    induction queue with
    | nil => exact ⟨0,rfl⟩
    | cons a queue ihq =>
      by_cases ha : a ∈ seen
      · obtain ⟨n,hn⟩ := ihq (fun b hb => hqueue b (List.mem_cons_of_mem a hb)) hk
        exact ⟨n+1,by rw [Function.iterate_succ_apply,turn,if_pos ha]; exact hn⟩
      · have hmem := hqueue a List.mem_cons_self
        have hless : (stock\insert a seen).card < k := by
          rw [← hk]
          apply Finset.card_lt_card
          refine ⟨Finset.sdiff_subset_sdiff le_rfl (Finset.subset_insert a seen),?_⟩
          intro hsub
          have := hsub (Finset.mem_sdiff.mpr ⟨hmem,ha⟩)
          simp at this
        obtain ⟨n,hn⟩ := ih _ hless (queue++next a,insert a seen) (by
          intro b hb
          rcases List.mem_append.mp hb with hb | hb
          · exact hqueue b (List.mem_cons_of_mem a hb)
          · exact hstock a hmem b hb) rfl
        exact ⟨n+1,by rw [Function.iterate_succ_apply,turn,if_neg ha]; exact hn⟩

theorem after_nil {start : α} {n : ℕ} (h : (after next start n).1 = []) (k : ℕ) :
    after next start (n+k) = after next start n := by
  induction k with
  | zero => rfl
  | succ k ih =>
    rw [← Nat.add_assoc,after_succ,ih]
    generalize after next start n = q at h ⊢
    obtain ⟨queue,seen⟩ := q
    obtain rfl : queue = [] := h
    rfl

/-- Taken at some turn: reached over links. -/
theorem taken_iff {start : α} (stock : Finset α) (hstart : start ∈ stock)
    (hstock : ∀ a ∈ stock, ∀ b ∈ next a, b ∈ stock) (a : α) :
    (∃ n, TakenAt next start n a) ↔ Relation.ReflTransGen (fun b c => c ∈ next b) start a := by
  constructor
  · rintro ⟨n,hn⟩
    exact queued .refl (fun b hb c hc => hb.tail hc) n a (List.mem_of_mem_head? hn)
  · intro hreach
    obtain ⟨n,hn⟩ := turns_end stock hstock ([start],∅) (by simpa using hstart)
    have hall : a ∈ (after next start n).2 := by
      induction hreach with
      | refl =>
        obtain ⟨k,rfl⟩ : ∃ k, n = k+1 := by
          cases n with
          | zero => cases hn
          | succ k => exact ⟨k,rfl⟩
        exact mem_after.mpr ⟨0,by omega,rfl⟩
      | @tail b c _ hc ih =>
        rcases follows n b ih c hc with h | h
        · exact h
        · rw [show (after next start n).1 = [] from hn] at h
          cases h
    obtain ⟨m,-,hm⟩ := mem_after.mp hall
    exact ⟨m,hm⟩

/-! Two queues in turn, the one from `a` first. -/

variable (next) in
/-- Both have come to `v`, at the turn of the second to do so. -/
def MeetAt (a b : α) (t : ℕ) (v : α) : Prop :=
  ∃ m n, FirstTakenAt next a m v ∧ FirstTakenAt next b n v ∧ t = max (2*m) (2*n+1)

/-- What one queue comes to and the other has come to is met at this turn. -/
theorem meetAt_left {a b v : α} {n : ℕ} {queue : List α} (hv : (after next a n).1 = v::queue)
    (hb : v ∈ (after next b n).2) (hno : ∀ t < 2*n, ∀ w, ¬MeetAt next a b t w) :
    MeetAt next a b (2*n) v := by
  obtain ⟨m,hm,hmv⟩ := mem_after.mp hb
  obtain ⟨k,hk,hfirst⟩ := FirstTakenAt.of_taken hmv
  have hnew : v ∉ (after next a n).2 := by
    intro hold
    obtain ⟨m',hm',hmv'⟩ := mem_after.mp hold
    obtain ⟨k',hk',hfirst'⟩ := FirstTakenAt.of_taken hmv'
    exact hno _ (by omega) v ⟨k',k,hfirst',hfirst,rfl⟩
  exact ⟨n,k,firstTakenAt_of_head hv hnew,hfirst,by omega⟩

theorem meetAt_right {a b v : α} {n : ℕ} {queue : List α} (hv : (after next b n).1 = v::queue)
    (ha : v ∈ (after next a (n+1)).2) (hno : ∀ t < 2*n+1, ∀ w, ¬MeetAt next a b t w) :
    MeetAt next a b (2*n+1) v := by
  obtain ⟨m,hm,hmv⟩ := mem_after.mp ha
  obtain ⟨k,hk,hfirst⟩ := FirstTakenAt.of_taken hmv
  have hnew : v ∉ (after next b n).2 := by
    intro hold
    obtain ⟨m',hm',hmv'⟩ := mem_after.mp hold
    obtain ⟨k',hk',hfirst'⟩ := FirstTakenAt.of_taken hmv'
    exact hno _ (by omega) v ⟨k,k',hfirst,hfirst',rfl⟩
  exact ⟨k,n,hfirst,firstTakenAt_of_head hv hnew,by omega⟩

theorem meetAt_unique {a b v w : α} {t : ℕ} (hv : MeetAt next a b t v) (hw : MeetAt next a b t w) :
    v = w := by
  obtain ⟨m,n,hm,hn,ht⟩ := hv
  obtain ⟨m',n',hm',hn',ht'⟩ := hw
  by_cases h : 2*n+1 ≤ 2*m
  · obtain rfl : m = m' := by omega
    exact Option.some.inj (hm.1.symm.trans hm'.1)
  · obtain rfl : n = n' := by omega
    exact Option.some.inj (hn.1.symm.trans hn'.1)

end BreadthFirst
end EntityCore
