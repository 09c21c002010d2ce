import EntityCore.ByteCode

/-! Hexadecimal texts. A byte is spelled by two digits; the reader of a number takes a sign
in front as well, so that a group of two characters is also read from a sign and one digit. -/
namespace EntityCore

def hexDigitValue (c : Char) : Option ℕ :=
  if '0' ≤ c ∧ c ≤ '9' then some (c.toNat-48)
  else if 'a' ≤ c ∧ c ≤ 'f' then some (c.toNat-87)
  else if 'A' ≤ c ∧ c ≤ 'F' then some (c.toNat-55)
  else none

/-- A `u8` from a hexadecimal text; a sign may stand before it. -/
def hexU8 (s : Str) : Option UInt8 :=
  let digits := match s with
    | '+'::rest => rest
    | _ => s
  if digits = [] then none
  else (digits.mapM hexDigitValue).bind fun ds =>
    let n := ds.foldl (fun acc d => 16*acc+d) 0
    if n < 256 then some (UInt8.ofNat n) else none

/-- Two characters at a time, a last one alone. -/
def pairs : Str → List Str
  | [] => []
  | [a] => [[a]]
  | a::b::rest => [a,b]::pairs rest

namespace HexText

/-- The length of a text in bytes. -/
def byteLength (t : Str) : ℕ := (t.map Char.utf8Size).sum

@[simp] theorem byteLength_nil : byteLength [] = 0 := rfl

@[simp] theorem byteLength_cons (c : Char) (t : Str) :
    byteLength (c::t) = c.utf8Size+byteLength t := by simp [byteLength]

/-- Two digits for each byte. -/
inductive Spells : Str → Bytes → Prop
  | nil : Spells [] []
  | cons {a b : Char} {x y : ℕ} {text : Str} {bytes : Bytes} (ha : hexDigitValue a = some x)
      (hb : hexDigitValue b = some y) (h : Spells text bytes) :
      Spells (a::b::text) (UInt8.ofNat (16*x+y)::bytes)

/-- Two characters for each byte, whatever the reader of a number makes of them. -/
inductive ReadsHex : Str → Bytes → Prop
  | nil : ReadsHex [] []
  | cons {a b : Char} {byte : UInt8} {text : Str} {bytes : Bytes} (hab : hexU8 [a,b] = some byte)
      (h : ReadsHex text bytes) : ReadsHex (a::b::text) (byte::bytes)

/-! Digits. -/

theorem hexDigitValue_lt {c : Char} {x : ℕ} (h : hexDigitValue c = some x) : x < 16 := by
  unfold hexDigitValue at h
  have hle : ∀ {a b : Char}, a ≤ b → a.toNat ≤ b.toNat := fun h => h
  split_ifs at h with h1 h2 h3
  all_goals
    obtain rfl := Option.some.inj h
  · have hh := hle h1.2
    have h9 : '9'.toNat = 57 := rfl
    omega
  · have hh := hle h2.2
    have hf : 'f'.toNat = 102 := rfl
    omega
  · have hh := hle h3.2
    have hf : 'F'.toNat = 70 := rfl
    omega

theorem hexDigitValue_range {c : Char} {x : ℕ} (h : hexDigitValue c = some x) :
    48 ≤ c.toNat ∧ c.toNat ≤ 102 := by
  have hle : ∀ {a b : Char}, a ≤ b → a.toNat ≤ b.toNat := fun h => h
  have hends : '0'.toNat = 48 ∧ '9'.toNat = 57 ∧ 'a'.toNat = 97 ∧ 'f'.toNat = 102 ∧
      'A'.toNat = 65 ∧ 'F'.toNat = 70 := by decide
  unfold hexDigitValue at h
  split_ifs at h with h1 h2 h3
  · have := hle h1.1
    have := hle h1.2
    omega
  · have := hle h2.1
    have := hle h2.2
    omega
  · have := hle h3.1
    have := hle h3.2
    omega

theorem hexDigitValue_ascii {c : Char} {x : ℕ} (h : hexDigitValue c = some x) : c.utf8Size = 1 := by
  have hval : c.val.toNat ≤ 102 := (hexDigitValue_range h).2
  simp only [Char.utf8Size]
  rw [if_pos]
  rw [UInt32.le_iff_toNat_le]
  exact hval.trans (by decide)

theorem hexDigitValue_plus : hexDigitValue '+' = none := by decide

/-- Two characters are read as two digits, or as a sign and a digit. -/
theorem hexU8_pair (a b : Char) : hexU8 [a,b] =
    if a = '+' then (hexDigitValue b).map UInt8.ofNat
    else (hexDigitValue a).bind fun x => (hexDigitValue b).map fun y => UInt8.ofNat (16*x+y) := by
  by_cases ha : a = '+'
  · subst ha
    simp only [hexU8,if_true]
    cases hb : hexDigitValue b with
    | none => simp [hb]
    | some y =>
      have hy := hexDigitValue_lt hb
      simp [hb,show y < 256 by omega]
  · have hdigits : hexU8 [a,b] = ([a,b].mapM hexDigitValue).bind fun ds =>
        let n := ds.foldl (fun acc d => 16*acc+d) 0
        if n < 256 then some (UInt8.ofNat n) else none := by
      unfold hexU8
      split
      · rename_i rest heq
        exact absurd (List.cons.inj heq).1 ha
      · rfl
    rw [hdigits,if_neg ha]
    cases hx : hexDigitValue a with
    | none => simp [hx]
    | some x => cases hy : hexDigitValue b with
      | none => simp [hx,hy]
      | some y =>
        have h1 := hexDigitValue_lt hx
        have h2 := hexDigitValue_lt hy
        simp [hx,hy,show 16*x+y < 256 by omega]

/-- What is read has one byte a character. -/
theorem ascii_of_hexU8 {a b : Char} {byte : UInt8} (h : hexU8 [a,b] = some byte) :
    a.utf8Size = 1 ∧ b.utf8Size = 1 := by
  rw [hexU8_pair] at h
  split_ifs at h with ha
  · subst ha
    obtain ⟨y,hy,-⟩ := Option.map_eq_some_iff.mp h
    exact ⟨rfl,hexDigitValue_ascii hy⟩
  · obtain ⟨x,hx,h⟩ := Option.bind_eq_some_iff.mp h
    obtain ⟨y,hy,-⟩ := Option.map_eq_some_iff.mp h
    exact ⟨hexDigitValue_ascii hx,hexDigitValue_ascii hy⟩

theorem ascii_of_hexU8_single {a : Char} {byte : UInt8} (h : hexU8 [a] = some byte) :
    a.utf8Size = 1 := by
  unfold hexU8 at h
  split at h
  · simp_all
  · cases ha : hexDigitValue a with
    | none => simp [ha] at h
    | some x => exact hexDigitValue_ascii ha

/-! Whole texts. -/

theorem ReadsHex.byteLength {t : Str} {bytes : Bytes} (h : ReadsHex t bytes) :
    byteLength t = 2*bytes.length := by
  induction h with
  | nil => rfl
  | cons hab _ ih =>
    have ⟨ha,hb⟩ := ascii_of_hexU8 hab
    rw [byteLength_cons,byteLength_cons,ha,hb,ih,List.length_cons]
    omega

/-- Digits are what is read without a sign. -/
theorem spells_iff {t : Str} {bytes : Bytes} : Spells t bytes ↔ ReadsHex t bytes ∧ '+' ∉ t := by
  constructor
  · intro h
    induction h with
    | nil => exact ⟨.nil,by simp⟩
    | cons ha hb _ ih =>
      have hne : ∀ {c : Char} {x : ℕ}, hexDigitValue c = some x → c ≠ '+' := by
        rintro c x hc rfl
        rw [hexDigitValue_plus] at hc
        cases hc
      refine ⟨.cons ?_ ih.1,?_⟩
      · rw [hexU8_pair,if_neg (hne ha),ha,hb]
        rfl
      · simp only [List.mem_cons,not_or]
        exact ⟨(hne ha).symm,(hne hb).symm,ih.2⟩
  · rintro ⟨h,hplus⟩
    induction h with
    | nil => exact .nil
    | cons hab _ ih =>
      simp only [List.mem_cons,not_or] at hplus
      rw [hexU8_pair,if_neg (Ne.symm hplus.1)] at hab
      obtain ⟨x,hx,hab⟩ := Option.bind_eq_some_iff.mp hab
      obtain ⟨y,hy,rfl⟩ := Option.map_eq_some_iff.mp hab
      exact .cons hx hy (ih hplus.2.2)

end HexText
end EntityCore
