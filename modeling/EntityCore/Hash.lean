import EntityCore.Ecf
import EntityCore.Outcome

/-! Content hashes: a format code and its digest, their order, their wire form
and hexadecimal name, and the code outside the repository they are computed with. -/
namespace EntityCore

open Ecf Outcome

/-- The crates the program links against and the process-wide settings it reads. -/
structure Platform where
  fromReader : Bytes → Except String Value
  intoWriter : Value → Except String Bytes
  sha256 : Bytes → Bytes
  sha384 : Bytes → Bytes
  sha256_length : ∀ b, (sha256 b).length = 32
  sha384_length : ∀ b, (sha384 b).length = 48
  ed25519Verify : Bytes → Bytes → Bytes → Bool
  ed448Verify : Bytes → Bytes → Bytes → Bool
  defaultHashFormat : UInt8

namespace Hash

def hashAlgorithmSha256 : UInt8 := 0x00
def hashAlgorithmSha384 : UInt8 := 0x01
def hashAlgorithmReservedFf : UInt8 := 0xFF

def digestLenForFormat (formatCode : UInt8) : Option ℕ :=
  if formatCode = hashAlgorithmSha256 then some 32
  else if formatCode = hashAlgorithmSha384 then some 48
  else none

end Hash

/-- A hash of an allocated format, its digest as long as the format says. -/
structure Hash where
  algorithm : UInt8
  digest : Bytes
  digest_length : Hash.digestLenForFormat algorithm = some digest.length
  deriving DecidableEq

inductive HashError where
  | hashMismatch (expected actual : Hash)
  | invalidLength (expected actual : ℕ)
  | unsupportedAlgorithm (code : UInt8)
  | reservedFormat (code : UInt8)
  | invalidFormat (message : String)
  deriving DecidableEq

namespace Hash

theorem ext {g h : Hash} (ha : g.algorithm = h.algorithm) (hd : g.digest = h.digest) : g = h := by
  cases g; cases h; simp_all

/-- By format code, then by digest bytes. -/
instance : LinearOrder Hash := LinearOrder.lift' (fun h : Hash => h.algorithm::h.digest)
  fun _ _ he => ext (List.cons.inj he).1 (List.cons.inj he).2

theorem algorithm_cases (h : Hash) :
    (h.algorithm = 0 ∧ h.digest.length = 32) ∨ (h.algorithm = 1 ∧ h.digest.length = 48) := by
  have hl := h.digest_length
  unfold digestLenForFormat at hl
  split at hl
  · rename_i ha; exact .inl ⟨ha,(Option.some.inj hl).symm⟩
  · split at hl
    · rename_i ha; exact .inr ⟨ha,(Option.some.inj hl).symm⟩
    · cases hl

/-- Hash `{type, data}` under a format code. -/
def computeFormat (X : Platform) (entityType : Str) (data : Bytes) (formatCode : UInt8) :
    Except HashError Hash :=
  let ecfBytes := ecfForHash entityType data
  if h : formatCode = hashAlgorithmSha256 then
    .ok ⟨formatCode,X.sha256 ecfBytes,by rw [h,X.sha256_length]; rfl⟩
  else if h : formatCode = hashAlgorithmSha384 then
    .ok ⟨formatCode,X.sha384 ecfBytes,by rw [h,X.sha384_length]; rfl⟩
  else .error (.unsupportedAlgorithm formatCode)

theorem computeFormat_algorithm {X : Platform} {t : Str} {d : Bytes} {f : UInt8} {h : Hash}
    (hh : computeFormat X t d f = .ok h) : h.algorithm = f := by
  unfold computeFormat at hh
  by_cases h0 : f = hashAlgorithmSha256
  · simp only [dif_pos h0] at hh
    obtain rfl := Except.ok.inj hh
    rfl
  · by_cases h1 : f = hashAlgorithmSha384
    · simp only [dif_neg h0,dif_pos h1] at hh
      obtain rfl := Except.ok.inj hh
      rfl
    · simp only [dif_neg h0,dif_neg h1] at hh
      cases hh

def validate (X : Platform) (entityType : Str) (data : Bytes) (claimed : Hash) :
    Except HashError Unit := do
  let actual ← computeFormat X entityType data claimed.algorithm
  if actual ≠ claimed then .error (.hashMismatch claimed actual) else .ok ()

/-- Groups of seven bits, low first; a 32-bit value has at most five. -/
def pushVarint : ℕ → ℕ → Bytes
  | 0, value => [UInt8.ofNat value]
  | g+1, value =>
    if value ≥ 0x80 then (UInt8.ofNat value ||| 0x80)::pushVarint g (value/2^7)
    else [UInt8.ofNat value]

def pushVarintU32 (value : ℕ) : Bytes := pushVarint 4 value

def readVarintLoop (value shift consumed : ℕ) : Bytes → Except HashError (ℕ × ℕ)
  | [] => .error (.invalidFormat "truncated varint")
  | b::bs =>
    let consumed := consumed+1
    if shift ≥ 28 ∧ b &&& 0x80 ≠ 0 then .error (.invalidFormat "varint exceeds u32")
    else
      let value := value ||| ((b &&& 0x7F).toNat*2^shift%2^32)
      if b &&& 0x80 = 0 then .ok (value,consumed)
      else if consumed ≥ 5 then .error (.invalidFormat "varint exceeds 5 bytes")
      else readVarintLoop value (shift+7) consumed bs

def readVarintU32 (bytes : Bytes) : Except HashError (ℕ × ℕ) := readVarintLoop 0 0 0 bytes

def fromBytes (bytes : Bytes) : Except HashError Hash := do
  let (formatValue,consumed) ← readVarintU32 bytes
  if formatValue = hashAlgorithmReservedFf.toNat then
    .error (.reservedFormat hashAlgorithmReservedFf)
  else if formatValue ≥ 2^8 then .error (.unsupportedAlgorithm 0xFE)
  else
    let algorithm := UInt8.ofNat formatValue
    match hl : digestLenForFormat algorithm with
    | none => .error (.unsupportedAlgorithm algorithm)
    | some expected =>
      if h : bytes.length = consumed+expected then
        .ok ⟨algorithm,bytes.drop consumed,by rw [hl,List.length_drop]; congr 1; omega⟩
      else .error (.invalidLength (consumed+expected) bytes.length)

def toBytes (h : Hash) : Bytes := pushVarintU32 h.algorithm.toNat++h.digest

def zero : Hash := ⟨hashAlgorithmSha256,List.replicate 32 0,by rfl⟩

def isZero (h : Hash) : Bool := h.algorithm = hashAlgorithmSha256 && h.digest.all (· = 0)

def hexDigit (n : ℕ) : Char := Char.ofNat (if n < 10 then 48+n else 87+n)

/-- Two lowercase digits a byte. -/
def hexStr (bytes : Bytes) : Str :=
  bytes.flatMap fun b => [hexDigit (b.toNat/16),hexDigit (b.toNat%16)]

def toHex (h : Hash) : Str := hexStr h.toBytes

theorem toBytes_eq (h : Hash) : h.toBytes = h.algorithm::h.digest := by
  rcases h.algorithm_cases with ⟨ha,_⟩ | ⟨ha,_⟩ <;>
    · rw [toBytes,ha]; rfl

/-- The wire form is read back to the hash it came from. -/
theorem fromBytes_toBytes (h : Hash) : fromBytes h.toBytes = .ok h := by
  obtain ⟨a,d,hl⟩ := h
  rw [toBytes_eq]
  rcases algorithm_cases ⟨a,d,hl⟩ with ⟨rfl,hd⟩ | ⟨rfl,hd⟩
  · have hr : readVarintU32 (0::d) = .ok (0,1) := rfl
    simp only at hd
    simp [fromBytes,hr,hashAlgorithmReservedFf,digestLenForFormat,hashAlgorithmSha256,hd]
  · have hr : readVarintU32 (1::d) = .ok (1,1) := rfl
    simp only at hd
    simp [fromBytes,hr,hashAlgorithmReservedFf,digestLenForFormat,hashAlgorithmSha256,
      hashAlgorithmSha384,hd]

theorem toBytes_inj {g h : Hash} (he : g.toBytes = h.toBytes) : g = h := by
  have hg := fromBytes_toBytes g
  rw [he,fromBytes_toBytes h] at hg
  exact (Except.ok.inj hg).symm

theorem hexDigit_inj : ∀ m n : Fin 16, hexDigit m = hexDigit n → m = n := by decide +kernel

theorem hexStr_inj {a b : Bytes} (h : hexStr a = hexStr b) : a = b := by
  induction a generalizing b with
  | nil => cases b with
    | nil => rfl
    | cons y b => simp [hexStr] at h
  | cons x a ih => cases b with
    | nil => simp [hexStr] at h
    | cons y b =>
      simp only [hexStr,List.flatMap_cons,List.cons_append,List.nil_append,List.cons.injEq] at h
      have hx := x.toNat_lt
      have hy := y.toNat_lt
      have hhi := hexDigit_inj ⟨x.toNat/16,by omega⟩ ⟨y.toNat/16,by omega⟩ h.1
      have hlo := hexDigit_inj ⟨x.toNat%16,by omega⟩ ⟨y.toNat%16,by omega⟩ h.2.1
      simp only [Fin.mk.injEq] at hhi hlo
      have hxy : x = y := UInt8.toNat_inj.mp (by omega)
      rw [hxy,ih h.2.2]

theorem toHex_inj {g h : Hash} (he : g.toHex = h.toHex) : g = h := toBytes_inj (hexStr_inj he)

end Hash
end EntityCore
