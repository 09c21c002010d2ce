import EntityCore.Strings

/-! A text and its segments. Joined again they are the text, and segments without the
separator are those of what they are joined to. -/
namespace EntityCore
namespace Strings

variable {α : Type} [DecidableEq α] {c : α}

theorem segments_eq_splitOn (s : List α) : segments c s = s.splitOn c := by
  induction s with
  | nil => rfl
  | cons x s ih =>
    rw [segments,List.splitOn_cons_eq_if_modifyHead,← ih]
    by_cases hx : x = c
    · rw [if_pos hx,if_pos (beq_iff_eq.mpr hx)]
    · rw [if_neg hx,if_neg (by simpa using hx)]
      cases h : segments c s with
      | nil => exact absurd h (segments_ne_nil c s)
      | cons y ys => rfl

theorem segments_eq_singleton {s : List α} (h : c ∉ s) : segments c s = [s] := by
  rw [segments_eq_splitOn,List.splitOn_eq_singleton h]

theorem intercalate_segments (s : List α) : [c].intercalate (segments c s) = s := by
  rw [segments_eq_splitOn,List.intercalate_splitOn]

theorem segments_intercalate {segs : List (List α)} (hne : segs ≠ []) (h : ∀ seg ∈ segs, c ∉ seg) :
    segments c ([c].intercalate segs) = segs := by
  rw [segments_eq_splitOn,List.splitOn_intercalate c h hne]

theorem segments_inj {s t : List α} (h : segments c s = segments c t) : s = t := by
  rw [← intercalate_segments (c := c) s,h,intercalate_segments]

theorem notMem_of_mem_segments {s seg : List α} (h : seg ∈ segments c s) : c ∉ seg := by
  induction s generalizing seg with
  | nil =>
    rw [List.mem_singleton.mp h]
    exact List.not_mem_nil
  | cons x s ih =>
    rw [segments] at h
    split_ifs at h with hx
    · rcases List.mem_cons.mp h with rfl | h
      · exact List.not_mem_nil
      · exact ih h
    · cases hs : segments c s with
      | nil => exact absurd hs (segments_ne_nil c s)
      | cons y ys =>
        rw [hs] at h ih
        rcases List.mem_cons.mp h with rfl | h
        · rw [List.mem_cons,not_or]
          exact ⟨Ne.symm hx,ih List.mem_cons_self⟩
        · exact ih (List.mem_cons_of_mem _ h)

/-- The position of a first occurrence says what stands before and behind it. -/
theorem findIdx?_eq_some_iff (w : List α) (segs : List (List α)) (idx : ℕ) :
    segs.findIdx? (· = w) = some idx ↔ ∃ a b, segs = a++w::b ∧ w ∉ a ∧ a.length = idx := by
  induction segs generalizing idx with
  | nil => simp
  | cons seg segs ih =>
    rw [List.findIdx?_cons]
    by_cases hw : seg = w
    · subst hw
      simp only [decide_true,if_true,Option.some.injEq]
      constructor
      · rintro rfl
        exact ⟨[],segs,rfl,by simp,rfl⟩
      · rintro ⟨a,b,hseg,ha,rfl⟩
        cases a with
        | nil => rfl
        | cons x a =>
          obtain ⟨rfl,-⟩ := List.cons.inj hseg
          exact absurd List.mem_cons_self ha
    · simp only [hw,decide_false,Bool.false_eq_true,if_false,Option.map_eq_some_iff]
      constructor
      · rintro ⟨n,hn,rfl⟩
        obtain ⟨a,b,rfl,ha,rfl⟩ := (ih n).mp hn
        exact ⟨seg::a,b,rfl,by simp [Ne.symm hw,ha],rfl⟩
      · rintro ⟨a,b,hseg,ha,rfl⟩
        cases a with
        | nil => exact absurd (List.cons.inj hseg).1 hw
        | cons x a =>
          obtain ⟨rfl,rfl⟩ := List.cons.inj hseg
          exact ⟨a.length,(ih _).mpr ⟨a,b,rfl,fun h => ha (List.mem_cons_of_mem _ h),rfl⟩,rfl⟩

end Strings
end EntityCore
