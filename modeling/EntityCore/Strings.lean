import Mathlib

/-! Text as lists of characters: prefixes, suffixes, splitting at the first
separator and substring search, each with the equation that characterises it. -/
namespace EntityCore

open List
namespace Strings

variable {α : Type} [DecidableEq α]

def startsWith (s p : List α) : Bool := p.isPrefixOf s

def endsWith (s p : List α) : Bool := p.isSuffixOf s

def stripPrefix (s p : List α) : Option (List α) :=
  if startsWith s p then some (s.drop p.length) else none

def stripSuffix (s p : List α) : Option (List α) :=
  if endsWith s p then some (s.take (s.length-p.length)) else none

/-- The text before and after the first occurrence of a separator. -/
def splitOnce (c : α) : List α → Option (List α × List α)
  | [] => none
  | x::xs => if x = c then some ([],xs) else (splitOnce c xs).map fun r => (x::r.1,r.2)

/-- All segments between separators, empty ones included. -/
def segments (c : α) : List α → List (List α)
  | [] => [[]]
  | x::xs =>
    if x = c then []::segments c xs
    else match segments c xs with
      | [] => [[x]]
      | s::ss => (x::s)::ss

/-- Does `p` occur somewhere in `s`? -/
def containsText (s p : List α) : Bool := s.tails.any (startsWith · p)

/-- Drop every leading and trailing occurrence of one character. -/
def trimMatches (c : α) (s : List α) : List α :=
  ((s.dropWhile (· = c)).reverse.dropWhile (· = c)).reverse

@[simp] theorem startsWith_iff (s p : List α) : startsWith s p = true ↔ p <+: s := by
  simp [startsWith]

@[simp] theorem endsWith_iff (s p : List α) : endsWith s p = true ↔ p <:+ s := by
  simp [endsWith]

/-- Lists whose first parts differ early are no prefixes of one another. -/
theorem not_prefix_append {β : Type*} {a b : List β} {n : ℕ} (ha : n ≤ a.length)
    (hb : n ≤ b.length) (h : a.take n ≠ b.take n) (x y : List β) : ¬ a++x <+: b++y := by
  rintro ⟨t,ht⟩
  apply h
  have htake := congrArg (take n) ht
  rwa [append_assoc,take_append_of_le_length ha, take_append_of_le_length hb] at htake

theorem stripPrefix_eq_some (s p t : List α) : stripPrefix s p = some t ↔ s = p++t := by
  unfold stripPrefix
  split
  · rename_i h
    obtain ⟨u,rfl⟩ := (startsWith_iff s p).mp h
    simp [eq_comm]
  · rename_i h
    refine ⟨fun h' => (by cases h'),fun h' => (h ?_).elim⟩
    exact (startsWith_iff s p).mpr ⟨t,h'.symm⟩

theorem stripSuffix_eq_some (s p t : List α) : stripSuffix s p = some t ↔ s = t++p := by
  unfold stripSuffix
  split
  · rename_i h
    obtain ⟨u,rfl⟩ := (endsWith_iff s p).mp h
    simp [eq_comm]
  · rename_i h
    refine ⟨fun h' => (by cases h'),fun h' => (h ?_).elim⟩
    exact (endsWith_iff s p).mpr ⟨t,h'.symm⟩

theorem splitOnce_eq_some (c : α) (s a b : List α) :
    splitOnce c s = some (a,b) ↔ s = a++c::b ∧ c ∉ a := by
  induction s generalizing a with
  | nil => simp [splitOnce]
  | cons x xs ih =>
    unfold splitOnce
    split
    · rename_i hx
      subst hx
      cases a with
      | nil => simp [eq_comm]
      | cons y ys =>
        simp only [Option.some.injEq,Prod.mk.injEq,reduceCtorEq,false_and,cons_append,
          cons.injEq,mem_cons,not_or,false_iff,not_and,and_imp]
        intro hxy _ hne
        exact absurd hxy hne
    · rename_i hx
      cases a with
      | nil => simp [hx]
      | cons y ys =>
        simp only [Option.map_eq_some_iff,Prod.exists,Prod.mk.injEq,cons.injEq,
          cons_append,mem_cons,not_or]
        constructor
        · rintro ⟨a',b',h,⟨rfl,rfl⟩,rfl⟩
          have hh := (ih a').mp h
          exact ⟨⟨rfl,hh.1⟩,fun hc => hx hc.symm,hh.2⟩
        · rintro ⟨⟨rfl,h⟩,_,hc⟩
          exact ⟨ys,b,(ih ys).mpr ⟨h,hc⟩,⟨rfl,rfl⟩,rfl⟩

theorem splitOnce_eq_none (c : α) (s : List α) : splitOnce c s = none ↔ c ∉ s := by
  induction s with
  | nil => simp [splitOnce]
  | cons x xs ih =>
    unfold splitOnce
    split
    · rename_i hx; simp [hx]
    · rename_i hx
      simp only [Option.map_eq_none_iff,ih,mem_cons,not_or]
      exact ⟨fun h => ⟨fun hc => hx hc.symm,h⟩,fun h => h.2⟩

@[simp] theorem containsText_iff (s p : List α) : containsText s p = true ↔ p <:+: s := by
  simp only [containsText,any_eq_true,mem_tails,startsWith_iff]
  constructor
  · rintro ⟨t,⟨a,rfl⟩,⟨b,rfl⟩⟩
    exact ⟨a,b,by simp⟩
  · rintro ⟨a,b,rfl⟩
    exact ⟨p++b,⟨a,by simp⟩,⟨b,rfl⟩⟩

theorem containsText_false (s p : List α) : containsText s p = false ↔ ¬ p <:+: s := by
  rw [← containsText_iff,Bool.not_eq_true]

/-- A doubled character of a join lies in one part or across the seam. -/
theorem double_append (c : α) (a b : List α) : [c,c] <:+: a++b ↔
    [c,c] <:+: a ∨ [c,c] <:+: b ∨ (a.getLast? = some c ∧ b.head? = some c) := by
  induction a with
  | nil => simp
  | cons x a ih =>
    have hfirst : ∀ l : List α, [c,c] <+: x::l ↔ x = c ∧ l.head? = some c := by
      intro l
      cases l with
      | nil => simp
      | cons y l => simp [eq_comm]
    rw [cons_append,infix_cons_iff,infix_cons_iff,ih,hfirst,hfirst]
    cases a with
    | nil => simp; tauto
    | cons y a => simp; tauto

theorem segments_ne_nil (c : α) (t : List α) : segments c t ≠ [] := by
  cases t with
  | nil => simp [segments]
  | cons x t =>
    unfold segments
    split_ifs
    · simp
    · split <;> simp

theorem segments_append (c : α) (u v : List α) :
    segments c (u++c::v) = segments c u++segments c v := by
  induction u with
  | nil =>
    rw [nil_append,segments.eq_2,if_pos rfl]
    rfl
  | cons x u ih =>
    rw [cons_append,segments,ih,segments]
    split_ifs with hx
    · rfl
    · cases hseg : segments c u with
      | nil => exact absurd hseg (segments_ne_nil c u)
      | cons s ss => rfl

theorem mem_of_mem_segments {c x : α} {s seg : List α} (h : seg ∈ segments c s) (hx : x ∈ seg) :
    x ∈ s := by
  induction s generalizing seg with
  | nil => simp [segments] at h; subst h; exact hx
  | cons y s ih =>
    simp only [segments] at h
    split at h
    · rcases mem_cons.mp h with rfl | h
      · cases hx
      · exact mem_cons_of_mem _ (ih h hx)
    · split at h
      · simp only [mem_singleton] at h
        subst h
        exact mem_cons.mpr (Or.inl (mem_singleton.mp hx))
      · rename_i t ts hseg
        rcases mem_cons.mp h with rfl | h
        · rcases mem_cons.mp hx with rfl | hx
          · exact mem_cons_self
          · exact mem_cons_of_mem _ (ih (hseg ▸ mem_cons_self) hx)
        · exact mem_cons_of_mem _ (ih (hseg ▸ mem_cons_of_mem _ h) hx)

end Strings
end EntityCore
