import EntityCore.Hash
import EntityCore.Leb128

/-! The wire form of a hash, read back. The format code may be spelled with zero groups at
its end, and what a fifth group has above the 32 bits is dropped; both are accepted. -/
namespace EntityCore
namespace Hash

open Outcome

/-- A byte string of CBOR around the wire form. -/
def toCbor (h : Hash) : Bytes :=
  let wire := h.toBytes
  if wire.length < 24 then (0x40 ||| UInt8.ofNat wire.length)::wire
  else 0x58::UInt8.ofNat wire.length::wire

/-- Offset and length of the content of a CBOR byte string. -/
def cborContent : Bytes → Except HashError (ℕ × ℕ)
  | [] => .error (.invalidFormat "empty CBOR for hash")
  | head::rest =>
    if head = 0x58 then match rest with
      | [] => .error (.invalidFormat "CBOR too short for hash")
      | length::_ => .ok (2,length.toNat)
    else if 0x40 ≤ head ∧ head ≤ 0x57 then .ok (1,(head-0x40).toNat)
    else .error (.invalidFormat ("expected CBOR bstr header, got "++String.ofList (hexStr [head])))

def fromCbor (cbor : Bytes) : Except HashError Hash := do
  let (contentOff,contentLen) ← cborContent cbor
  if cbor.length ≠ contentOff+contentLen then
    .error (.invalidLength (contentOff+contentLen) cbor.length)
  else fromBytes (cbor.drop contentOff)

theorem fromCbor_toCbor (h : Hash) : fromCbor h.toCbor = .ok h := by
  have hread := fromBytes_toBytes h
  rw [toBytes_eq] at hread
  unfold toCbor
  rw [toBytes_eq]
  rcases h.algorithm_cases with ⟨ha,hd⟩ | ⟨ha,hd⟩
  · simp [hd,fromCbor,cborContent,hread]
  · simp [hd,fromCbor,cborContent,hread]

/-! The format code. -/

theorem continues_iff (b : UInt8) : b &&& 0x80 = 0 ↔ b.toNat < 128 := by
  have h : ∀ i : Fin 256, UInt8.ofNat i.val &&& 0x80 = 0 ↔ i.val < 128 := by decide +kernel
  have hb := h ⟨b.toNat,b.toNat_lt⟩
  simpa using hb

theorem group_toNat (b : UInt8) : (b &&& 0x7F).toNat = b.toNat%128 := by
  have h := Nat.and_two_pow_sub_one_eq_mod b.toNat 7
  simpa [UInt8.toNat_and] using h

/-- What a group adds to a value below it; the fifth loses its high bits. -/
theorem addGroup {value i : ℕ} (hi : i ≤ 4) (hv : value < 128^i) (d : ℕ) :
    value ||| d*2^(7*i)%2^32 = (value+128^i*d)%2^32 := by
  have hpow : (2 : ℕ)^(7*i) = 128^i := by rw [pow_mul]; norm_num
  obtain ⟨c,hc⟩ : 128^i ∣ 2^32 := by
    rw [← hpow]
    exact pow_dvd_pow 2 (by omega)
  have hmod : d*2^(7*i)%2^32 = 2^(7*i)*(d%c) := by
    rw [hpow,hc,Nat.mul_comm,Nat.mul_mod_mul_left]
  have hcpos : 0 < c := by
    rcases Nat.eq_zero_or_pos c with rfl | h
    · simp at hc
    · exact h
  have hlt : 128^i*(d%c)+value < 2^32 := by
    have hd : d%c+1 ≤ c := Nat.mod_lt d hcpos
    calc 128^i*(d%c)+value < 128^i*(d%c)+128^i := by omega
      _ = 128^i*(d%c+1) := by ring
      _ ≤ 128^i*c := Nat.mul_le_mul_left _ hd
      _ = 2^32 := hc.symm
  have hsum : (value+128^i*d)%2^32 = 128^i*(d%c)+value := by
    have hd : 128^i*d = 2^32*(d/c)+128^i*(d%c) := by
      rw [hc,Nat.mul_assoc,← Nat.mul_add,Nat.div_add_mod]
    rw [hd,show value+(2^32*(d/c)+128^i*(d%c)) = 128^i*(d%c)+value+2^32*(d/c) by ring,
      Nat.add_mul_mod_self_left,Nat.mod_eq_of_lt hlt]
  rw [hmod,hsum,Nat.or_comm,← hpow,← Nat.two_pow_add_eq_or_of_lt (by rw [hpow]; exact hv)]

/-- The digits from the i-th on, up to the fifth. -/
theorem readVarintLoop_ok (bytes : Bytes) {value i : ℕ} (hi : i ≤ 4) (hv : value < 128^i)
    (v c : ℕ) : readVarintLoop value (7*i) i bytes = .ok (v,c) ↔
      ∃ digits rest, bytes = digits++rest ∧ Leb128.Terminated digits ∧ i+digits.length ≤ 5 ∧
        c = i+digits.length ∧ v = (value+128^i*Leb128.value digits)%2^32 := by
  induction bytes generalizing value i with
  | nil =>
    simp only [readVarintLoop,reduceCtorEq,false_iff]
    rintro ⟨digits,rest,hb,ht,-⟩
    exact ht.ne_nil (List.append_eq_nil_iff.mp hb.symm).1
  | cons b bs ih =>
    have hgroup := addGroup hi hv (b &&& 0x7F).toNat
    rw [group_toNat] at hgroup
    have hshift : 7*i ≥ 28 ↔ i = 4 := by omega
    simp only [readVarintLoop,hshift,continues_iff,group_toNat,hgroup,ne_eq,Nat.not_lt]
    by_cases hb : b.toNat < 128
    · have hone : b.toNat%128 = b.toNat := Nat.mod_eq_of_lt hb
      rw [if_neg (by omega),if_pos hb]
      simp only [Except.ok.injEq,Prod.mk.injEq]
      constructor
      · rintro ⟨rfl,rfl⟩
        exact ⟨[b],bs,rfl,hb,by simp; omega,rfl,by rw [Leb128.value_singleton]⟩
      · rintro ⟨digits,rest,hsplit,ht,-,rfl,rfl⟩
        have hd : digits = [b] :=
          (ht.append_inj (b := [b]) hb (hsplit.symm.trans List.singleton_append.symm)).1
        subst hd
        exact ⟨by rw [Leb128.value_singleton],rfl⟩
    · -- a digit that continues is followed by the digits of the rest
      have hcons : ∀ digits rest, b::bs = digits++rest → Leb128.Terminated digits →
          ∃ more, digits = b::more ∧ bs = more++rest ∧ Leb128.Terminated more := by
        intro digits rest hsplit ht
        cases digits with
        | nil => exact ht.elim
        | cons d more =>
          obtain ⟨rfl,hrest⟩ := List.cons.inj hsplit
          by_cases hm : more = []
          · subst hm
            exact absurd ht hb
          · exact ⟨more,rfl,hrest,((Leb128.terminated_cons hm).mp ht).2⟩
      by_cases hfour : i = 4
      · rw [if_pos ⟨hfour,by omega⟩]
        simp only [reduceCtorEq,false_iff]
        rintro ⟨digits,rest,hsplit,ht,hlen,-⟩
        obtain ⟨more,rfl,-,hm⟩ := hcons digits rest hsplit ht
        have hpos := List.length_pos_iff.mpr hm.ne_nil
        simp only [List.length_cons] at hlen
        omega
      · have hsmall : value+128^i*(b.toNat%128) < 128^(i+1) := by
          have hm := Nat.mod_lt b.toNat (show 0 < 128 by norm_num)
          calc value+128^i*(b.toNat%128) < 128^i+128^i*(b.toNat%128) := by omega
            _ = 128^i*(b.toNat%128+1) := by ring
            _ ≤ 128^i*128 := Nat.mul_le_mul_left _ hm
            _ = 128^(i+1) := (pow_succ _ _).symm
        have hword : 128^(i+1) ≤ 2^32 := by
          calc 128^(i+1) ≤ 128^4 := Nat.pow_le_pow_right (by norm_num) (by omega)
            _ ≤ 2^32 := by norm_num
        rw [if_neg (by omega),if_neg hb,if_neg (by omega),Nat.mod_eq_of_lt (by omega),
          show 7*i+7 = 7*(i+1) by ring,ih (by omega) hsmall]
        constructor
        · rintro ⟨more,rest,rfl,hm,hlen,rfl,rfl⟩
          refine ⟨b::more,rest,rfl,(Leb128.terminated_cons hm.ne_nil).mpr ⟨by omega,hm⟩,?_,?_,?_⟩
          · simp only [List.length_cons]; omega
          · simp only [List.length_cons]; omega
          · rw [Leb128.value,pow_succ]; congr 1; ring
        · rintro ⟨digits,rest,hsplit,ht,hlen,rfl,rfl⟩
          obtain ⟨more,rfl,rfl,hm⟩ := hcons digits rest hsplit ht
          simp only [List.length_cons] at hlen ⊢
          exact ⟨more,rest,rfl,hm,by omega,by omega,by rw [Leb128.value,pow_succ]; congr 1; ring⟩

/-- A terminated spelling of at most five bytes is read modulo the word. -/
theorem readVarintU32_ok (bytes : Bytes) (v c : ℕ) : readVarintU32 bytes = .ok (v,c) ↔
    ∃ digits rest, bytes = digits++rest ∧ Leb128.Terminated digits ∧ digits.length ≤ 5 ∧
      c = digits.length ∧ v = Leb128.value digits%2^32 := by
  have h := readVarintLoop_ok (i := 0) bytes (Nat.zero_le 4) (show 0 < 128^0 by norm_num) v c
  simpa [readVarintU32] using h

/-- A hash is read off a format code, however it is spelled, and a digest of its length. -/
theorem fromBytes_ok (bytes : Bytes) (h : Hash) : fromBytes bytes = .ok h ↔
    ∃ digits, bytes = digits++h.digest ∧ Leb128.Terminated digits ∧ digits.length ≤ 5 ∧
      h.algorithm.toNat = Leb128.value digits%2^32 := by
  have hlow : h.algorithm.toNat < 2 := by
    rcases h.algorithm_cases with ⟨ha,-⟩ | ⟨ha,-⟩ <;> rw [ha] <;> decide
  constructor
  · intro hread
    simp only [fromBytes,bind_ok,Prod.exists,readVarintU32_ok] at hread
    obtain ⟨v,c,⟨digits,rest,rfl,ht,hlen,rfl,hv⟩,hread⟩ := hread
    split_ifs at hread with hff hwide
    split at hread
    · cases hread
    · rename_i expected hexpected
      split_ifs at hread with hl
      have hh := (Except.ok.inj hread).symm
      subst hh
      refine ⟨digits,by simp,ht,hlen,?_⟩
      rw [← hv]
      simp only [UInt8.toNat_ofNat']
      omega
  · rintro ⟨digits,rfl,ht,hlen,hcode⟩
    have hread := (readVarintU32_ok (digits++h.digest) h.algorithm.toNat digits.length).mpr
      ⟨digits,h.digest,rfl,ht,hlen,rfl,hcode⟩
    obtain ⟨algorithm,digest,hd⟩ := h
    have hff : ¬ algorithm.toNat = hashAlgorithmReservedFf.toNat := by
      simp only [hashAlgorithmReservedFf]
      simp only at hlow
      have h255 : UInt8.toNat 255 = 255 := rfl
      omega
    simp only at hread hlow hd
    simp only [fromBytes,hread,Outcome.bind_ok,Except.ok.injEq,exists_eq_left',if_neg hff,
      if_neg (show ¬ algorithm.toNat ≥ 2^8 by omega),UInt8.ofNat_toNat]
    split
    · rename_i hnone
      rw [UInt8.ofNat_toNat,hd] at hnone
      cases hnone
    · rename_i expected hexpected
      have he : expected = digest.length := by
        rw [UInt8.ofNat_toNat,hd] at hexpected
        exact (Option.some.inj hexpected).symm
      subst he
      simp

/-! Canonical spellings. -/

/-- What is read off some bytes is what they spell, and is written as they stand. -/
def WireCanonical (bytes : Bytes) : Prop :=
  (∀ h, fromBytes bytes = .ok h → h.toBytes = bytes) ∧
    ∀ v c, readVarintU32 bytes = .ok (v,c) → v = Leb128.value (bytes.take c)

/-- The bytes begin with a number of five groups that has more than 32 bits. -/
def Overlong (bytes : Bytes) : Prop :=
  ∃ digits rest, bytes = digits++rest ∧ Leb128.Terminated digits ∧ digits.length ≤ 5 ∧
    2^32 ≤ Leb128.value digits

/-- A format code in two to five groups stands before a digest of its format. -/
def Padded (bytes : Bytes) : Prop :=
  ∃ digits digest, bytes = digits++digest ∧ Leb128.Terminated digits ∧ 2 ≤ digits.length ∧
    digits.length ≤ 5 ∧ ∃ code : UInt8, Leb128.value digits = code.toNat ∧
      digestLenForFormat code = some digest.length

theorem reads_exactly_iff (bytes : Bytes) :
    (∀ v c, readVarintU32 bytes = .ok (v,c) → v = Leb128.value (bytes.take c)) ↔
      ¬ Overlong bytes := by
  simp only [readVarintU32_ok]
  constructor
  · rintro h ⟨digits,rest,rfl,ht,hlen,hwide⟩
    have hv := h _ _ ⟨digits,rest,rfl,ht,hlen,rfl,rfl⟩
    rw [List.take_left'] at hv
    · have hlt := Nat.mod_lt (Leb128.value digits) (show 0 < 2^32 by norm_num)
      omega
    · rfl
  · rintro h v c ⟨digits,rest,rfl,ht,hlen,rfl,rfl⟩
    rw [List.take_left' rfl]
    apply Nat.mod_eq_of_lt
    by_contra hwide
    exact h ⟨digits,rest,rfl,ht,hlen,by omega⟩

/-- Where no bits are lost, only a padded code is written back differently. -/
theorem writes_back_iff {bytes : Bytes} (hwide : ¬ Overlong bytes) :
    (∀ h, fromBytes bytes = .ok h → h.toBytes = bytes) ↔ ¬ Padded bytes := by
  have hexact : ∀ digits rest, bytes = digits++rest → Leb128.Terminated digits →
      digits.length ≤ 5 → Leb128.value digits%2^32 = Leb128.value digits := by
    intro digits rest hb ht hlen
    apply Nat.mod_eq_of_lt
    by_contra hw
    exact hwide ⟨digits,rest,hb,ht,hlen,by omega⟩
  simp only [fromBytes_ok]
  constructor
  · rintro h ⟨digits,digest,rfl,ht,htwo,hlen,code,hcode,hdigest⟩
    have hback := h ⟨code,digest,hdigest⟩ ⟨digits,rfl,ht,hlen,by
      rw [hexact digits digest rfl ht hlen,hcode]⟩
    have hl := congrArg List.length hback
    rw [toBytes_eq] at hl
    simp only [List.length_cons,List.length_append] at hl
    omega
  · rintro h hash ⟨digits,rfl,ht,hlen,hcode⟩
    rw [hexact digits hash.digest rfl ht hlen] at hcode
    rw [toBytes_eq]
    have hone : digits.length < 2 := by
      by_contra htwo
      exact h ⟨digits,hash.digest,rfl,ht,by omega,hlen,hash.algorithm,hcode.symm,
        hash.digest_length⟩
    obtain ⟨d,rfl⟩ : ∃ d, digits = [d] := by
      apply List.length_eq_one_iff.mp
      have hpos := List.length_pos_iff.mpr ht.ne_nil
      omega
    have hd : d.toNat < 128 := ht
    rw [Leb128.value_singleton,Nat.mod_eq_of_lt hd] at hcode
    rw [UInt8.toNat_inj.mp hcode]
    rfl

/-- The wire form is canonical on every input but a padded format code and a number of more
than 32 bits; written hashes are always read back. -/
theorem wire_canonical_iff (bytes : Bytes) :
    (WireCanonical bytes ↔ ¬ Padded bytes ∧ ¬ Overlong bytes) ∧
      ∀ h : Hash, fromBytes h.toBytes = .ok h ∧ fromCbor h.toCbor = .ok h := by
  refine ⟨?_,fun h => ⟨fromBytes_toBytes h,fromCbor_toCbor h⟩⟩
  rw [WireCanonical,reads_exactly_iff,and_congr_left_iff]
  exact writes_back_iff

/-- A fifth byte of sixteen is lost, and the zero hash is read. -/
theorem wide_code_read : ¬ ∀ bytes, WireCanonical bytes := by
  intro h
  have hc := h ([0x80,0x80,0x80,0x80,0x10]++List.replicate 32 0)
  have hback := hc.1 zero (by decide)
  revert hback
  decide

end Hash
end EntityCore
