import Mathlib

/-! Byte strings: their order, fixed-width big-endian numbers, the UTF-8 image of
a text, and codes whose concatenations can be split in only one way. -/
namespace EntityCore

abbrev Str := List Char
abbrev Bytes := List UInt8

instance instLawfulBEqStr : LawfulBEq Str := inferInstance

instance instLinearOrderUInt8 : LinearOrder UInt8 where
  le_refl := UInt8.le_refl
  le_trans _ _ _ := UInt8.le_trans
  le_antisymm _ _ := UInt8.le_antisymm
  le_total := UInt8.le_total
  lt_iff_le_not_ge a b := by
    rw [UInt8.lt_iff_toNat_lt,UInt8.le_iff_toNat_le,UInt8.le_iff_toNat_le]
    omega
  toDecidableLE := inferInstance

namespace ByteCode

/-- `width` bytes of a number, most significant first; higher bytes are dropped. -/
def beBytes : ℕ → ℕ → Bytes
  | 0, _ => []
  | w+1, n => beBytes w (n/256)++[UInt8.ofNat n]

@[simp] theorem beBytes_length (w n : ℕ) : (beBytes w n).length = w := by
  induction w generalizing n <;> simp_all [beBytes]

theorem beBytes_inj {w m n : ℕ} (hm : m < 256^w) (hn : n < 256^w)
    (h : beBytes w m = beBytes w n) : m = n := by
  induction w generalizing m n with
  | zero => simp only [pow_zero] at hm hn; omega
  | succ w ih =>
    simp only [beBytes] at h
    obtain ⟨hq,hr⟩ := List.append_inj' h rfl
    have hb : m%256 = n%256 := by
      have hh := congrArg UInt8.toNat (List.cons.inj hr).1
      simpa using hh
    have hd : m/256 = n/256 := by
      apply ih _ _ hq
      · rw [Nat.div_lt_iff_lt_mul (by norm_num)]; rwa [pow_succ] at hm
      · rw [Nat.div_lt_iff_lt_mul (by norm_num)]; rwa [pow_succ] at hn
    omega

/-- The bytes a text occupies in memory. -/
def utf8 (s : Str) : Bytes := s.flatMap String.utf8EncodeChar

theorem utf8_inj {s t : Str} (h : utf8 s = utf8 t) : s = t := by
  have hb : s.utf8Encode = t.utf8Encode := by
    simpa [List.utf8Encode,utf8] using congrArg List.toByteArray h
  apply String.ofList_injective
  apply String.toByteArray_inj.mp
  simpa using hb

/-- Two byte strings of known equal length split off a common front in one way. -/
theorem append_split {a b r s : Bytes} (hl : a.length = b.length) (h : a++r = b++s) :
    a = b ∧ r = s := List.append_inj h hl

/-! Base 58 text: positional digits, with one leading `1` for each leading zero byte. -/

def base58Alphabet : Str := "123456789ABCDEFGHJKLMNPQRSTUVWXYZabcdefghijkmnopqrstuvwxyz".toList

def base58Digit (n : ℕ) : Char := base58Alphabet.getD n '1'

def beNumber (b : Bytes) : ℕ := b.foldl (fun n x => 256*n+x.toNat) 0

theorem beNumber_snoc (b : Bytes) (x : UInt8) : beNumber (b++[x]) = 256*beNumber b+x.toNat := by
  simp [beNumber]

theorem beNumber_beBytes (w n : ℕ) : beNumber (beBytes w n) = n%256^w := by
  induction w generalizing n with
  | zero => simp [beBytes,beNumber,Nat.mod_one]
  | succ w ih =>
    have hb : (UInt8.ofNat n).toNat = n%256 := by simp
    rw [beBytes,beNumber_snoc,ih,hb,pow_succ',Nat.mod_mul]
    omega

/-- Digits before `acc`, most significant first; `fuel` bounds their number. -/
def base58Digits : ℕ → ℕ → Str → Str
  | 0, _, acc => acc
  | fuel+1, n, acc => if n = 0 then acc else base58Digits fuel (n/58) (base58Digit (n%58)::acc)

def base58Encode (b : Bytes) : Str :=
  List.replicate (b.takeWhile (· = 0)).length '1'++base58Digits (2*b.length) (beNumber b) []

end ByteCode
end EntityCore
