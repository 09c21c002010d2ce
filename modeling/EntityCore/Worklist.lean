import Mathlib

/-! Questions whose answer may not come. A predicate into `Option Bool` that answers `none`
has run out of steps; the scans below ask it member by member and stop where it does. -/
namespace EntityCore

open List
variable {p : α → Option Bool} {as stack : List α}

namespace Worklist

variable {α β κ σ : Type}

/-- Is there a member with the property? Stops at the first that has it. -/
def anyOpt (p : α → Option Bool) : List α → Option Bool
  | [] => some false
  | a::as => match p a with
    | none => none
    | some true => some true
    | some false => anyOpt p as

def filterOpt (p : α → Option Bool) : List α → Option (List α)
  | [] => some []
  | a::as => do
    let kept ← p a
    let rest ← filterOpt p as
    return if kept then a::rest else rest

theorem anyOpt_cons (p : α → Option Bool) (a : α) (as : List α) : anyOpt p (a::as) = match p a with
    | none => none
    | some true => some true
    | some false => anyOpt p as := rfl

theorem anyOpt_true (h : anyOpt p as = some true) : ∃ a ∈ as, p a = some true := by
  induction as with
  | nil => cases h
  | cons a as ih =>
    rw [anyOpt_cons] at h
    split at h
    · cases h
    · rename_i ha
      exact ⟨a,mem_cons_self,ha⟩
    · obtain ⟨b,hb,hp⟩ := ih h
      exact ⟨b,mem_cons_of_mem _ hb,hp⟩

theorem anyOpt_false (h : anyOpt p as = some false) : ∀ a ∈ as, p a = some false := by
  induction as with
  | nil => simp
  | cons a as ih =>
    rw [anyOpt_cons] at h
    split at h
    · cases h
    · cases h
    · rename_i ha
      exact forall_mem_cons.mpr ⟨ha,ih h⟩

theorem anyOpt_congr {p q : α → Option Bool} {as : List α} (h : ∀ a ∈ as, p a = q a) :
    anyOpt p as = anyOpt q as := by
  induction as with
  | nil => rfl
  | cons a as ih =>
    have hrest := ih fun b hb => h b (mem_cons_of_mem _ hb)
    simp only [anyOpt_cons,h a mem_cons_self,hrest]

theorem anyOpt_filter (p : α → Option Bool) (keep : α → Bool) {as : List α}
    (h : ∀ a ∈ as, keep a = false → p a = some false) : anyOpt p as = anyOpt p (as.filter keep) := by
  induction as with
  | nil => rfl
  | cons a as ih =>
    have hrest := ih fun b hb => h b (mem_cons_of_mem _ hb)
    cases hk : keep a with
    | false =>
      rw [filter_cons_of_neg (by simp [hk]),← hrest]
      simp only [anyOpt_cons,h a mem_cons_self hk]
    | true =>
      rw [filter_cons_of_pos hk]
      simp only [anyOpt_cons,hrest]

theorem anyOpt_total (h : ∀ a ∈ as, ∃ b, p a = some b) : ∃ b, anyOpt p as = some b := by
  induction as with
  | nil => exact ⟨false,rfl⟩
  | cons a as ih =>
    obtain ⟨b,hb⟩ := h a mem_cons_self
    rw [anyOpt_cons]
    rw [hb]
    cases b with
    | true => exact ⟨true,rfl⟩
    | false => exact ih fun a ha => h a (mem_cons_of_mem _ ha)

theorem anyOpt_eq_false (htotal : ∀ a ∈ as, ∃ b, p a = some b) (hno : ∀ a ∈ as, p a ≠ some true) :
    anyOpt p as = some false := by
  obtain ⟨b,hb⟩ := anyOpt_total htotal
  cases b with
  | false => exact hb
  | true =>
    obtain ⟨a,ha,hyes⟩ := anyOpt_true hb
    exact absurd hyes (hno a ha)

theorem mem_filterOpt {p : α → Option Bool} {as kept : List α} (h : filterOpt p as = some kept) :
    ∀ a ∈ kept, a ∈ as ∧ p a = some true := by
  induction as generalizing kept with
  | nil =>
    cases h
    simp
  | cons a as ih =>
    simp only [filterOpt,Option.bind_eq_bind,Option.bind_eq_some_iff,Option.pure_def,
      Option.some.injEq] at h
    obtain ⟨b,hb,rest,hrest,rfl⟩ := h
    intro x hx
    cases b with
    | false =>
      have hh := ih hrest x (by simpa using hx)
      exact ⟨mem_cons_of_mem _ hh.1,hh.2⟩
    | true =>
      rcases mem_cons.mp (by simpa using hx) with rfl | hx
      · exact ⟨mem_cons_self,hb⟩
      · have hh := ih hrest x hx
        exact ⟨mem_cons_of_mem _ hh.1,hh.2⟩

/-- One question answers whatever the other answers, and in the same way. -/
def Extends {γ : Type} (p q : α → Option γ) : Prop := ∀ a c, p a = some c → q a = some c

theorem anyOpt_extends {p q : α → Option Bool} (h : Extends p q) :
    Extends (anyOpt p) (anyOpt q) := by
  intro as b hb
  induction as with
  | nil => exact hb
  | cons a as ih =>
    rw [anyOpt_cons] at hb ⊢
    cases hp : p a with
    | none =>
      rw [hp] at hb
      cases hb
    | some c =>
      rw [hp] at hb
      rw [h a c hp]
      cases c with
      | true => exact hb
      | false => exact ih hb

/-- A visit ends the walk or pushes further nodes. -/
inductive Visit (σ α : Type) where
  | stop (s : σ)
  | more (s : σ) (pushed : List α)

/-- A walk with a stack and the keys already seen; the last push is popped first. -/
def walk [DecidableEq κ] (key : α → κ) (visit : σ → α → Option (Visit σ α)) :
    ℕ → List α → List κ → σ → Option σ
  | 0, _, _, _ => none
  | _+1, [], _, s => some s
  | n+1, a::stack, seen, s =>
    if key a ∈ seen then walk key visit n stack seen s
    else match visit s a with
      | none => none
      | some (.stop s') => some s'
      | some (.more s' pushed) => walk key visit n (pushed.reverse++stack) (key a::seen) s'

section Walk

variable [DecidableEq κ] {key : α → κ} {visit visit' : σ → α → Option (Visit σ α)}
  {P : α → Prop} {I : σ → Prop}

theorem walk_cons (n : ℕ) (a : α) (stack : List α) (seen : List κ) (s : σ) :
    walk key visit (n+1) (a::stack) seen s =
      if key a ∈ seen then walk key visit n stack seen s
      else match visit s a with
        | none => none
        | some (.stop s') => some s'
        | some (.more s' pushed) =>
          walk key visit n (pushed.reverse++stack) (key a::seen) s' := rfl

theorem walk_extends (h : ∀ s, Extends (visit s) (visit' s)) {n n' : ℕ} (hn : n ≤ n')
    {stack : List α} {seen : List κ} {s s' : σ} (hw : walk key visit n stack seen s = some s') :
    walk key visit' n' stack seen s = some s' := by
  induction n generalizing n' stack seen s with
  | zero => cases hw
  | succ n ih =>
    obtain ⟨m,rfl⟩ : ∃ m, n' = m+1 := ⟨n'-1,by omega⟩
    have hm : n ≤ m := by omega
    cases stack with
    | nil => exact hw
    | cons a stack =>
      rw [walk_cons] at hw ⊢
      split_ifs at hw ⊢
      · exact ih hm hw
      · cases hv : visit s a with
        | none =>
          rw [hv] at hw
          cases hw
        | some v =>
          rw [hv] at hw
          rw [h s a v hv]
          cases v with
          | stop s₁ => exact hw
          | more s₁ pushed => exact ih hm hw

/-- What every visit of a node in range keeps, the walk keeps. -/
theorem walk_invariant (hstop : ∀ s a s', P a → I s → visit s a = some (.stop s') → I s')
    (hmore : ∀ s a s' pushed, P a → I s → visit s a = some (.more s' pushed) →
      I s' ∧ ∀ b ∈ pushed, P b) {n : ℕ} {stack : List α} {seen : List κ} {s s' : σ}
    (hstack : ∀ a ∈ stack, P a) (hs : I s) (h : walk key visit n stack seen s = some s') : I s' := by
  induction n generalizing stack seen s with
  | zero => cases h
  | succ n ih => cases stack with
    | nil =>
      cases h
      exact hs
    | cons a stack =>
      have ha := hstack a mem_cons_self
      have hrest : ∀ b ∈ stack, P b := fun b hb => hstack b (mem_cons_of_mem _ hb)
      rw [walk_cons] at h
      split_ifs at h
      · exact ih hrest hs h
      · split at h
        · cases h
        · rename_i s₁ hv
          cases h
          exact hstop s a s' ha hs hv
        · rename_i s₁ pushed hv
          obtain ⟨hs₁,hpushed⟩ := hmore s a s₁ pushed ha hs hv
          refine ih ?_ hs₁ h
          intro b hb
          rcases mem_append.mp hb with hb | hb
          · exact hpushed b (mem_reverse.mp hb)
          · exact hrest b hb

/-- Walks that visit alike in a range closed under pushing end alike. -/
theorem walk_congr (hsame : ∀ s a, P a → visit s a = visit' s a)
    (hclosed : ∀ s a s' pushed, P a → visit s a = some (.more s' pushed) → ∀ b ∈ pushed, P b)
    (n : ℕ) {stack : List α} (seen : List κ) (s : σ) (hstack : ∀ a ∈ stack, P a) :
    walk key visit n stack seen s = walk key visit' n stack seen s := by
  induction n generalizing stack seen s with
  | zero => rfl
  | succ n ih => cases stack with
    | nil => rfl
    | cons a stack =>
      have ha := hstack a mem_cons_self
      have hrest : ∀ b ∈ stack, P b := fun b hb => hstack b (mem_cons_of_mem _ hb)
      rw [walk_cons,walk_cons]
      split_ifs
      · exact ih seen s hrest
      · rw [← hsame s a ha]
        cases hv : visit s a with
        | none => rfl
        | some v => cases v with
          | stop s' => rfl
          | more s' pushed =>
            apply ih
            intro b hb
            rcases mem_append.mp hb with hb | hb
            · exact hclosed s a s' pushed ha hv b (mem_reverse.mp hb)
            · exact hrest b hb

/-- A walk that does not stop where `F` holds visits all it can reach if it ends there. What holds
of the last state and is handed back by every visit gives `Q` of the node visited. -/
theorem walk_visits {F N : σ → Prop} {Q : α → Prop} {E : α → α → Prop}
    (hinj : ∀ a b, P a → P b → key a = key b → a = b)
    (hstop : ∀ s a s', visit s a = some (.stop s') → ¬F s')
    (hmore : ∀ s a s' pushed, P a → visit s a = some (.more s' pushed) →
      (∀ b ∈ pushed, P b) ∧ (∀ b, E a b → b ∈ pushed) ∧ (N s' → N s ∧ Q a))
    {n : ℕ} {stack : List α} {seen : List κ} {s s' : σ} (hstack : ∀ a ∈ stack, P a)
    (h : walk key visit n stack seen s = some s') (hF : F s') (hN : N s') :
    N s ∧ ∃ V : List κ, seen ⊆ V ∧ (∀ a ∈ stack, key a ∈ V) ∧
      ∀ a, P a → key a ∈ V → key a ∈ seen ∨ Q a ∧ ∀ b, E a b → key b ∈ V := by
  induction n generalizing stack seen s with
  | zero => cases h
  | succ n ih => cases stack with
    | nil =>
      cases h
      exact ⟨hN,seen,List.Subset.refl _,by simp,fun a _ ha => .inl ha⟩
    | cons a stack =>
      have ha := hstack a mem_cons_self
      have hrest : ∀ b ∈ stack, P b := fun b hb => hstack b (mem_cons_of_mem _ hb)
      rw [walk_cons] at h
      split_ifs at h with hseen
      · obtain ⟨hs,V,hV,hstackV,hvisited⟩ := ih hrest h
        exact ⟨hs,V,hV,forall_mem_cons.mpr ⟨hV hseen,hstackV⟩,hvisited⟩
      · split at h
        · cases h
        · rename_i s₁ hv
          cases h
          exact absurd hF (hstop s a s' hv)
        · rename_i s₁ pushed hv
          obtain ⟨hpushed,hedges,hback⟩ := hmore s a s₁ pushed ha hv
          have hnext : ∀ b ∈ pushed.reverse++stack, P b := by
            intro b hb
            rcases mem_append.mp hb with hb | hb
            · exact hpushed b (mem_reverse.mp hb)
            · exact hrest b hb
          obtain ⟨hs₁,V,hV,hstackV,hvisited⟩ := ih hnext h
          have hkey : key a ∈ V := hV mem_cons_self
          refine ⟨(hback hs₁).1,V,fun k hk => hV (mem_cons_of_mem _ hk),?_,?_⟩
          · exact forall_mem_cons.mpr
              ⟨hkey,fun b hb => hstackV b (mem_append_right _ hb)⟩
          · intro x hx hxV
            rcases hvisited x hx hxV with hxa | hxQ
            · rcases mem_cons.mp hxa with hxa | hxs
              · have hsame := hinj x a hx ha hxa
                subst hsame
                refine .inr ⟨(hback hs₁).2,?_⟩
                intro b hb
                exact hstackV b (mem_append_left _ (mem_reverse.mpr (hedges b hb)))
              · exact .inl hxs
            · exact .inr hxQ

/-- A walk among finitely many keys, every visit of which has an answer, ends: each visit that
pushes has one key less before it, and otherwise the stack gets shorter. -/
theorem walk_total {U : Finset κ} (hkeys : ∀ a, P a → key a ∈ U)
    (hvisit : ∀ s a, P a → ∃ v, visit s a = some v)
    (hclosed : ∀ s a s' pushed, P a → visit s a = some (.more s' pushed) → ∀ b ∈ pushed, P b)
    (seen : List κ) {stack : List α} (s : σ) (hstack : ∀ a ∈ stack, P a) :
    ∃ n s', walk key visit n stack seen s = some s' := by
  induction hleft : (U.filter (· ∉ seen)).card using Nat.strong_induction_on
    generalizing seen stack s with
  | _ left ihleft =>
    induction stack generalizing s with
    | nil => exact ⟨1,s,rfl⟩
    | cons a stack ihstack =>
      have ha := hstack a mem_cons_self
      have hrest : ∀ b ∈ stack, P b := fun b hb => hstack b (mem_cons_of_mem _ hb)
      by_cases hseen : key a ∈ seen
      · obtain ⟨n,s',h⟩ := ihstack s hrest
        refine ⟨n+1,s',?_⟩
        rw [walk,if_pos hseen]
        exact h
      · obtain ⟨v,hv⟩ := hvisit s a ha
        cases v with
        | stop s' =>
          refine ⟨1,s',?_⟩
          rw [walk,if_neg hseen,hv]
        | more s₁ pushed =>
          have hfewer : (U.filter (· ∉ key a::seen)).card < left := by
            rw [← hleft]
            apply Finset.card_lt_card
            rw [Finset.ssubset_iff]
            refine ⟨key a,by simp,?_⟩
            intro k hk
            rcases Finset.mem_insert.mp hk with rfl | hk
            · exact Finset.mem_filter.mpr ⟨hkeys a ha,hseen⟩
            · rw [Finset.mem_filter] at hk ⊢
              exact ⟨hk.1,fun hin => hk.2 (mem_cons_of_mem _ hin)⟩
          have hnext : ∀ b ∈ pushed.reverse++stack, P b := by
            intro b hb
            rcases mem_append.mp hb with hb | hb
            · exact hclosed s a s₁ pushed ha hv b (mem_reverse.mp hb)
            · exact hrest b hb
          obtain ⟨n,s',h⟩ := ihleft _ hfewer (key a::seen) s₁ hnext rfl
          refine ⟨n+1,s',?_⟩
          rw [walk,if_neg hseen,hv]
          exact h

end Walk
end Worklist
end EntityCore
