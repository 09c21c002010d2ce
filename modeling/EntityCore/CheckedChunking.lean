import EntityCore.Aborting
import EntityCore.Reassembly

/-! Chunking with checked arithmetic: shifts, sums, indices and slices are those of the source,
and each may stop the run. The size comes from the manifest of a blob, and may be any word. -/
namespace EntityCore

open Ecf Outcome

/-! The runtime's checks on words of 64 bits. -/

namespace Aborting

variable {ε α β : Type}

/-- A 64-bit shift by its width or more overflows. -/
def shiftLeft64 (a n : ℕ) : Aborting ε ℕ :=
  if n < 64 then lift (.ok (a*2^n%2^64)) else abort .overflow

def sub (a b : ℕ) : Aborting ε ℕ := if b ≤ a then lift (.ok (a-b)) else abort .overflow

theorem lift_ok_bind (a : α) (f : α → Aborting ε β) : lift (.ok a) >>= f = f a := rfl

theorem add_eq {a b : ℕ} (h : a+b < 2^64) : (add a b : Aborting ε ℕ) = lift (.ok (a+b)) :=
  if_pos h

theorem slice_eq {data : List α} {start stop : ℕ} (h : start ≤ stop) (hstop : stop ≤ data.length) :
    (slice data start stop : Aborting ε (List α)) =
      lift (.ok ((data.drop start).take (stop-start))) := if_pos ⟨h,hstop⟩

theorem index_eq [Inhabited α] {data : List α} {i : ℕ} (h : i < data.length) :
    (index data i : Aborting ε α) = lift (.ok (data.getD i default)) := by
  simp [index,h]

theorem bind_fault {m : Aborting ε α} {fault : Fault} (h : m.outcome = .error fault)
    (f : α → Aborting ε β) : (m >>= f).outcome = .error fault := by
  show (andThen m f).outcome = _
  rw [andThen,h]

end Aborting

section Checked

/-- The mask of so many low bits. -/
def lowMask (bits : ℕ) : Aborting ChunkerError UInt64 := do
  let power ← Aborting.shiftLeft64 1 bits
  let mask ← Aborting.sub power 1
  return UInt64.ofNat mask

def CdcParams.fromTargetChecked (targetSize : UInt64) : Aborting ChunkerError CdcParams :=
  if h : targetSize.toNat = 0 then .fail (.invalid "target_size must be > 0")
  else do
    let bits := targetSize.toNat.log2
    let maskS ← lowMask (bits+2)
    let maskL ← lowMask (bits-2)
    return {
      targetSize := targetSize.toNat
      minSize := targetSize.toNat/4
      maxSize := min (targetSize.toNat*2) (2^64-1)
      maskS
      maskL
      min_lt_target := quarter_lt_target h
      target_le_max := target_le_twice targetSize }

variable (gear : UInt8 → UInt64)

def rollUntilChecked (data : Bytes) (mask : UInt64) :
    ℕ → ℕ → UInt64 → Aborting ChunkerError (Option ℕ × UInt64)
  | 0, _, fp => return (none,fp)
  | left+1, i, fp => do
    let byte ← Aborting.index data i
    let next ← Aborting.add i 1
    let fp := (fp <<< 1)+gear byte
    if fp &&& mask = 0 then return (some next,fp) else rollUntilChecked data mask left next fp

def findBoundaryChecked (data : Bytes) (offset : ℕ) (params : CdcParams) :
    Aborting ChunkerError ℕ := do
  let i ← Aborting.add offset params.minSize
  let target ← Aborting.add offset params.targetSize
  let limit₁ := min target data.length
  match ← rollUntilChecked gear data params.maskS (limit₁-i) i 0 with
  | (some cut,_) => return cut
  | (none,fp) =>
    let i := max i limit₁
    let greatest ← Aborting.add offset params.maxSize
    let limit₂ := min greatest data.length
    match ← rollUntilChecked gear data params.maskL (limit₂-i) i fp with
    | (some cut,_) => return cut
    | (none,_) => return max i limit₂

def pieceEndChecked (params : CdcParams) (data : Bytes) (offset : ℕ) : Aborting ChunkerError ℕ := do
  let remaining ← Aborting.sub data.length offset
  if remaining ≤ params.minSize then Aborting.add offset remaining
  else findBoundaryChecked gear data offset params

variable (X : Platform)

/-- Run an action of the store, and hand its store on. -/
def runOnStore {α : Type} (action : Action ContentStore ChunkerError α) (s : ContentStore) :
    Aborting ChunkerError (α × ContentStore) :=
  .lift ((action s).1.map fun a => (a,(action s).2))

def chunksFromChecked (params : CdcParams) (raw : Bytes) :
    ℕ → ℕ → List Hash → ContentStore → Aborting ChunkerError (List Hash × ContentStore)
  | 0, _, _, _ => .fail .outOfFuel
  | fuel+1, offset, chunks, s =>
    if offset < raw.length then do
      let stop ← pieceEndChecked gear params raw offset
      let piece ← Aborting.slice raw offset stop
      let (chunkHash,s) ← runOnStore (putChunk X piece) s
      chunksFromChecked params raw fuel stop (chunks++[chunkHash]) s
    else return (chunks,s)

def createBlobChecked (fuel : ℕ) (raw : Bytes) (targetSize : UInt64) (s : ContentStore) :
    Aborting ChunkerError (Hash × ContentStore) := do
  let params ← CdcParams.fromTargetChecked targetSize
  let (chunks,s) ← chunksFromChecked gear X params raw fuel 0 [] s
  runOnStore (putBlob X raw.length targetSize.toNat contentChunkingFastcdc chunks) s

end Checked

/-! Where no check fails the checked chunker does what the unchecked one does. -/

section Refines

/-- A checked run that does what an action does, then what follows it. -/
theorem runOnStore_bind {α β : Type} {action : Action ContentStore ChunkerError α}
    {f : α → Action ContentStore ChunkerError β} {s : ContentStore}
    {rest : α × ContentStore → Aborting ChunkerError (β × ContentStore)}
    (h : ∀ a s', action s = (.ok a,s') → rest (a,s') = runOnStore (f a) s') :
    runOnStore action s >>= rest = runOnStore (action >>= f) s := by
  show Aborting.andThen (runOnStore action s) rest = runOnStore (Action.andThen action f) s
  unfold runOnStore Action.andThen
  rcases hrun : action s with ⟨_ | a,s'⟩
  · rfl
  · exact h a s' hrun

theorem lowMask_power {bits : ℕ} (h : 2^bits < 2^64) : 1*2^bits%2^64 = 2^bits := by
  rw [Nat.one_mul]
  exact Nat.mod_eq_of_lt h

theorem lowMask_eq {bits : ℕ} (h : bits < 64) :
    lowMask bits = .lift (.ok (UInt64.ofNat (2^bits-1))) := by
  have hpow := lowMask_power (Nat.pow_lt_pow_right (by decide : 1 < 2) h)
  have hpos : 1 ≤ 2^bits := Nat.one_le_two_pow
  unfold lowMask Aborting.shiftLeft64
  rw [if_pos h,Aborting.lift_ok_bind,hpow]
  unfold Aborting.sub
  rw [if_pos hpos]
  rfl

theorem lowMask_wide {bits : ℕ} (h : 64 ≤ bits) : (lowMask bits).outcome = .error .overflow := by
  unfold lowMask Aborting.shiftLeft64
  rw [if_neg (by omega)]
  rfl

/-- With a shift below the width, the unchecked chunker has the same mask. -/
theorem shift_sub_one {bits : ℕ} (h : bits < 64) :
    (1 <<< UInt64.ofNat bits : UInt64)-1 = UInt64.ofNat (2^bits-1) := by
  have hpow : 2^bits < 2^64 := Nat.pow_lt_pow_right (by decide) h
  have hpos : 1 ≤ 2^bits := Nat.one_le_two_pow
  have hshift : (1 <<< UInt64.ofNat bits : UInt64).toNat = 2^bits := by
    have hbits : bits%2^64%64 = bits := by omega
    rw [UInt64.toNat_shiftLeft,UInt64.toNat_ofNat',hbits,Nat.shiftLeft_eq]
    exact lowMask_power hpow
  have hone : (1 : UInt64) ≤ 1 <<< UInt64.ofNat bits := by
    rw [UInt64.le_iff_toNat_le,hshift]
    exact hpos
  apply UInt64.toNat_inj.mp
  rw [UInt64.toNat_sub_of_le _ _ hone,hshift,UInt64.toNat_ofNat',Nat.mod_eq_of_lt (by omega)]
  rfl

variable {targetSize : UInt64}

theorem fromTargetChecked_eq (h : targetSize.toNat < 2^62) :
    CdcParams.fromTargetChecked targetSize = .lift (CdcParams.fromTarget targetSize) := by
  unfold CdcParams.fromTargetChecked CdcParams.fromTarget
  by_cases hzero : targetSize.toNat = 0
  · rw [dif_pos hzero,dif_pos hzero]
    rfl
  · have hbits : targetSize.toNat.log2 < 62 := (Nat.log2_lt hzero).mpr h
    rw [dif_neg hzero,dif_neg hzero]
    simp only [lowMask_eq (show targetSize.toNat.log2+2 < 64 by omega),
      lowMask_eq (show targetSize.toNat.log2-2 < 64 by omega),Aborting.lift_ok_bind,
      shift_sub_one (show targetSize.toNat.log2+2 < 64 by omega),
      shift_sub_one (show targetSize.toNat.log2-2 < 64 by omega)]
    rfl

theorem fromTargetChecked_wide (h : 2^62 ≤ targetSize.toNat) :
    (CdcParams.fromTargetChecked targetSize).outcome = .error .overflow := by
  have hzero : targetSize.toNat ≠ 0 := by omega
  have hbits : 62 ≤ targetSize.toNat.log2 := (Nat.le_log2 hzero).mpr h
  have hwide := lowMask_wide (show 64 ≤ targetSize.toNat.log2+2 by omega)
  unfold CdcParams.fromTargetChecked
  rw [dif_neg hzero]
  exact Aborting.bind_fault hwide _

theorem fromTarget_masks (h : targetSize.toNat < 2^62) {params : CdcParams}
    (hparams : CdcParams.fromTarget targetSize = .ok params) :
    params.maskS.toNat = 2^(targetSize.toNat.log2+2)-1 ∧
    params.maskL.toNat = 2^(targetSize.toNat.log2-2)-1 ∧ params.targetSize = targetSize.toNat ∧
    params.maxSize ≤ 2*targetSize.toNat := by
  unfold CdcParams.fromTarget at hparams
  by_cases hzero : targetSize.toNat = 0
  · rw [dif_pos hzero] at hparams
    cases hparams
  · have hbits : targetSize.toNat.log2 < 62 := (Nat.log2_lt hzero).mpr h
    have hmask : ∀ bits < 64, ((1 <<< UInt64.ofNat bits : UInt64)-1).toNat = 2^bits-1 := by
      intro bits hlt
      have hpow : 2^bits < 2^64 := Nat.pow_lt_pow_right (by decide) hlt
      rw [shift_sub_one hlt,UInt64.toNat_ofNat',Nat.mod_eq_of_lt (by omega)]
    rw [dif_neg hzero] at hparams
    cases hparams
    exact ⟨hmask _ (by omega),hmask _ (by omega),rfl,by show min _ _ ≤ _; omega⟩

variable (gear : UInt8 → UInt64)

theorem rollUntilChecked_eq {data : Bytes} (hdata : data.length < 2^63) (mask : UInt64)
    {left i : ℕ} (h : left = 0 ∨ i+left ≤ data.length) (fp : UInt64) :
    rollUntilChecked gear data mask left i fp = .lift (.ok (rollUntil gear data mask left i fp)) := by
  induction left generalizing i fp with
  | zero => rfl
  | succ left ih =>
    have hi : i < data.length := by omega
    rw [rollUntilChecked,rollUntil,Aborting.index_eq hi,Aborting.lift_ok_bind,
      Aborting.add_eq (by omega),Aborting.lift_ok_bind]
    show (if (fp <<< 1)+gear (data.getD i 0) &&& mask = 0 then _ else _) = _
    by_cases hcut : (fp <<< 1)+gear (data.getD i 0) &&& mask = 0
    · simp only [if_pos hcut]
      rfl
    · simp only [if_neg hcut]
      exact ih (by omega) _

variable {params : CdcParams} {raw : Bytes} {offset : ℕ}

theorem findBoundaryChecked_eq (hraw : raw.length < 2^63) (hoffset : offset < raw.length)
    (hmax : params.maxSize < 2^63) : findBoundaryChecked gear raw offset params =
      .lift (.ok (findBoundary gear raw offset params)) := by
  have hmin := params.min_lt_target
  have htarget := params.target_le_max
  unfold findBoundaryChecked findBoundary
  simp only
  rw [Aborting.add_eq (by omega),Aborting.lift_ok_bind,Aborting.add_eq (by omega),
    Aborting.lift_ok_bind,rollUntilChecked_eq gear hraw _ (by omega),Aborting.lift_ok_bind]
  rcases rollUntil gear raw params.maskS (min (offset+params.targetSize) raw.length-
    (offset+params.minSize)) (offset+params.minSize) 0 with ⟨_ | cut,fp⟩
  · simp only
    rw [Aborting.add_eq (by omega),Aborting.lift_ok_bind,
      rollUntilChecked_eq gear hraw _ (by omega),Aborting.lift_ok_bind]
    rcases rollUntil gear raw params.maskL _ _ fp with ⟨_ | cut,fp'⟩
    · rfl
    · rfl
  · rfl

theorem pieceEndChecked_eq (hraw : raw.length < 2^63) (hoffset : offset < raw.length)
    (hmax : params.maxSize < 2^63) :
    pieceEndChecked gear params raw offset = .lift (.ok (pieceEnd gear params raw offset)) := by
  unfold pieceEndChecked pieceEnd Aborting.sub
  rw [if_pos hoffset.le,Aborting.lift_ok_bind]
  by_cases hshort : raw.length-offset ≤ params.minSize
  · simp only [if_pos hshort]
    exact Aborting.add_eq (by omega)
  · simp only [if_neg hshort]
    exact findBoundaryChecked_eq gear hraw hoffset hmax

variable (X : Platform)

theorem chunksFromChecked_eq (hraw : raw.length < 2^63) (hmax : params.maxSize < 2^63) {fuel : ℕ}
    (hfuel : raw.length-offset < fuel) (chunks : List Hash) (s : ContentStore) :
    chunksFromChecked gear X params raw fuel offset chunks s =
      runOnStore (chunksFrom X gear params raw offset chunks) s := by
  induction fuel generalizing offset chunks s with
  | zero => omega
  | succ fuel ih =>
    rw [chunksFromChecked,chunksFrom]
    by_cases h : offset < raw.length
    · have hend := pieceEnd_bounds gear params raw h
      rw [if_pos h,dif_pos h,pieceEndChecked_eq gear hraw h hmax,Aborting.lift_ok_bind,
        Aborting.slice_eq hend.1.le hend.2,Aborting.lift_ok_bind,← List.drop_take]
      exact runOnStore_bind fun chunkHash s₁ _ => ih (by omega) _ s₁
    · rw [if_neg h,dif_neg h]
      rfl

/-- Below a quarter of the words the checked chunker is the unchecked one. -/
theorem createBlobChecked_eq (hraw : raw.length < 2^63) (h : targetSize.toNat < 2^62) {fuel : ℕ}
    (hfuel : raw.length < fuel) (s : ContentStore) :
    createBlobChecked gear X fuel raw targetSize s =
      runOnStore (createBlobFastcdc X gear raw targetSize) s := by
  unfold createBlobChecked
  rw [fromTargetChecked_eq h]
  unfold createBlobFastcdc
  cases hparams : CdcParams.fromTarget targetSize with
  | error e => rfl
  | ok params =>
    obtain ⟨-,-,-,hmax⟩ := fromTarget_masks h hparams
    rw [Aborting.lift_ok_bind]
    rw [chunksFromChecked_eq gear X hraw (by omega) (by omega)]
    show _ = runOnStore (chunksFrom X gear params raw 0 [] >>= fun chunks =>
      putBlob X raw.length targetSize.toNat contentChunkingFastcdc chunks) s
    exact runOnStore_bind fun chunks s₁ _ => rfl

theorem putNew_error {entityType : Str} {data : Bytes} {s : ContentStore} {e : ChunkerError}
    (h : (putNew X entityType data s).1 = .error e) : ∃ text, e = .entity text := by
  unfold putNew at h
  cases he : Entity.new X entityType data with
  | ok made =>
    rw [he] at h
    cases h
  | error err =>
    rw [he] at h
    exact ⟨_,(Except.error.inj h).symm⟩

theorem storePieces_error {pieces : List Bytes} {chunks : List Hash} {s : ContentStore}
    {e : ChunkerError} (h : (storePieces X pieces chunks s).1 = .error e) :
    ∃ text, e = .entity text := by
  induction pieces generalizing chunks s with
  | nil => cases h
  | cons piece pieces ih =>
    replace h : (Action.andThen (putChunk X piece) (fun chunkHash =>
        storePieces X pieces (chunks++[chunkHash])) s).1 = .error e := h
    unfold Action.andThen at h
    rcases hput : putChunk X piece s with ⟨err | hash,s'⟩
    · rw [hput] at h
      cases h
      exact @putNew_error X typeContentChunk (toEcf (chunkValue piece)) s _
        (congrArg Prod.fst hput)
    · rw [hput] at h
      exact ih h

/-- The unchecked chunker, a total function, does not run out of fuel. -/
theorem createBlobFastcdc_fuel {s : ContentStore} :
    (createBlobFastcdc X gear raw targetSize s).1 ≠ .error .outOfFuel := by
  intro h
  unfold createBlobFastcdc at h
  cases hparams : CdcParams.fromTarget targetSize with
  | error e =>
    rw [hparams] at h
    unfold CdcParams.fromTarget at hparams
    by_cases hzero : targetSize.toNat = 0
    · rw [dif_pos hzero] at hparams
      cases hparams
      cases h
    · rw [dif_neg hzero] at hparams
      cases hparams
  | ok params =>
    rw [hparams] at h
    replace h : (Action.andThen (chunksFrom X gear params raw 0 []) (fun chunks =>
        putBlob X raw.length targetSize.toNat contentChunkingFastcdc chunks) s).1 =
          .error .outOfFuel := h
    rw [chunksFrom_eq] at h
    unfold Action.andThen at h
    rcases hstore : storePieces X (pieces gear params (raw.drop 0)) [] s with ⟨err | chunks,s'⟩
    · rw [hstore] at h
      obtain ⟨text,htext⟩ := storePieces_error X (congrArg Prod.fst hstore)
      rw [htext] at h
      cases h
    · rw [hstore] at h
      obtain ⟨text,htext⟩ := putNew_error X h
      cases htext

end Refines

section Safe

variable (X : Platform) (gear : UInt8 → UInt64)

/-- Cutting the bytes again comes to an end, with a result or an error of the chunker and no
fault of the runtime, and the masks have the bits that the size asks for. -/
structure RechunksSafely (raw : Bytes) (chunkSize : UInt64) (s : ContentStore) : Prop where
  ends : ∃ r n, r ≠ .error .outOfFuel ∧ ∀ fuel ≥ n,
    (createBlobChecked gear X fuel raw chunkSize s).outcome = .ok r
  masks : ∀ params, (CdcParams.fromTargetChecked chunkSize).outcome = .ok (.ok params) →
    params.maskS.toNat = 2^(chunkSize.toNat.log2+2)-1 ∧
    params.maskL.toNat = 2^(chunkSize.toNat.log2-2)-1

/-- Every word that a manifest declares is safe below a quarter of the words, whatever is on
the disk, and none is from there on. -/
theorem rechunks_safely_iff {raw : Bytes} (hraw : raw.length < 2^63) (chunkSize : UInt64)
    (s : ContentStore) : RechunksSafely X gear raw chunkSize s ↔ chunkSize.toNat < 2^62 := by
  constructor
  · intro h
    by_contra hwide
    obtain ⟨r,n,-,hrun⟩ := h.ends
    have hfault := fromTargetChecked_wide (show 2^62 ≤ chunkSize.toNat by omega)
    have hall := hrun n le_rfl
    unfold createBlobChecked at hall
    rw [Aborting.bind_fault hfault] at hall
    cases hall
  · intro h
    let r := (createBlobFastcdc X gear raw chunkSize s).1.map fun hash =>
      (hash,(createBlobFastcdc X gear raw chunkSize s).2)
    have hfuel : r ≠ .error .outOfFuel := by
      intro herr
      have hnone : (createBlobFastcdc X gear raw chunkSize s).1 ≠ .error .outOfFuel :=
        createBlobFastcdc_fuel gear X
      simp only [r] at herr
      cases hrun : (createBlobFastcdc X gear raw chunkSize s).1 with
      | ok hash =>
        rw [hrun] at herr
        cases herr
      | error e =>
        rw [hrun] at herr hnone
        exact hnone (congrArg _ (Except.error.inj herr))
    refine ⟨⟨r,raw.length+1,hfuel,fun fuel hmore => ?_⟩,fun params hparams => ?_⟩
    · rw [createBlobChecked_eq gear X hraw h (by omega)]
      rfl
    · rw [fromTargetChecked_eq h] at hparams
      have hmasks := fromTarget_masks h (Except.ok.inj hparams)
      exact ⟨hmasks.1,hmasks.2.1⟩

end Safe

namespace CheckedSample

open Sample

def gear : UInt8 → UInt64 := fun _ => 0

def blob (chunkSize digest : ℕ) : Entity :=
  entity "system/content/blob" (blobValue 1 chunkSize 1 []) digest

def crates : Platform := platform [blobValue 1 (2^62) 1 [],blobValue 1 (2^20) 1 []] [] []

theorem rechunks_safely_iff_sample :
    RechunksSafely crates gear [7] (2^20) ⟨[]⟩ ↔ (2^20 : UInt64).toNat < 2^62 :=
  rechunks_safely_iff crates gear (by decide) (2^20) ⟨[]⟩

/-- A manifest that declares a quarter of the words stops the run in a shift. -/
theorem wide_size_overflows : blobChunkSize crates (blob (2^62) 1) = .ok (2^62) ∧
    ¬RechunksSafely crates gear [7] (UInt64.ofNat (2^62)) ⟨[]⟩ ∧
    ∀ fuel, (createBlobChecked gear crates fuel [7] (UInt64.ofNat (2^62)) ⟨[]⟩).outcome =
      .error .overflow := by
  have hwide : 2^62 ≤ (UInt64.ofNat (2^62)).toNat := by decide
  have hfault : ∀ fuel, (createBlobChecked gear crates fuel [7] (UInt64.ofNat (2^62))
      ⟨[]⟩).outcome = .error .overflow :=
    fun fuel => Aborting.bind_fault (fromTargetChecked_wide hwide) _
  refine ⟨by decide,fun h => ?_,hfault⟩
  obtain ⟨r,n,-,hrun⟩ := h.ends
  have hall := hrun n le_rfl
  rw [hfault n] at hall
  cases hall

end CheckedSample

end EntityCore
