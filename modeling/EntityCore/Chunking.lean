import EntityCore.Delegation
import EntityCore.TrieCanonical

/-! Content-defined chunking. A byte string is cut where a rolling fingerprint has the bits of
a mask clear, the harder mask below the target size and the easier one above it; every piece
is stored as a chunk and a blob lists the chunks. The streamed chunker cuts the window it has
read so far, the buffered one the whole string. -/
namespace EntityCore

open Ecf Outcome List

def typeContentChunk : Str := "system/content/chunk".toList
def typeContentBlob : Str := "system/content/blob".toList
def contentChunkingFastcdc : ℕ := 1

inductive ChunkerError where
  | invalid (text : String)
  | entity (text : String)
  | outOfFuel
  deriving DecidableEq

/-- A piece is longer than the least size, and the target lies below the greatest. -/
structure CdcParams where
  targetSize : ℕ
  minSize : ℕ
  maxSize : ℕ
  maskS : UInt64
  maskL : UInt64
  min_lt_target : minSize < targetSize
  target_le_max : targetSize ≤ maxSize

theorem quarter_lt_target {targetSize : UInt64} (h : ¬targetSize.toNat = 0) :
    targetSize.toNat/4 < targetSize.toNat := by
  omega

theorem target_le_twice (targetSize : UInt64) :
    targetSize.toNat ≤ min (targetSize.toNat*2) (2^64-1) := by
  have hlt := targetSize.toNat_lt
  omega

def CdcParams.fromTarget (targetSize : UInt64) : Except ChunkerError CdcParams :=
  if h : targetSize.toNat = 0 then .error (.invalid "target_size must be > 0")
  else
    let bits := targetSize.toNat.log2
    .ok {
      targetSize := targetSize.toNat
      minSize := targetSize.toNat/4
      maxSize := min (targetSize.toNat*2) (2^64-1)
      maskS := (1 <<< UInt64.ofNat (bits+2))-1
      maskL := (1 <<< UInt64.ofNat (bits-2))-1
      min_lt_target := quarter_lt_target h
      target_le_max := target_le_twice targetSize }

section Boundary

variable (gear : UInt8 → UInt64)

/-- Roll the fingerprint over `left` bytes from `i` on; stop behind the first byte that leaves
the bits of the mask clear. -/
def rollUntil (data : Bytes) (mask : UInt64) : ℕ → ℕ → UInt64 → Option ℕ × UInt64
  | 0, _, fp => (none,fp)
  | left+1, i, fp =>
    let fp := (fp <<< 1)+gear (data.getD i 0)
    if fp &&& mask = 0 then (some (i+1),fp) else rollUntil data mask left (i+1) fp

def findBoundary (data : Bytes) (offset : ℕ) (params : CdcParams) : ℕ :=
  let i := offset+params.minSize
  let limit₁ := min (offset+params.targetSize) data.length
  match rollUntil gear data params.maskS (limit₁-i) i 0 with
  | (some cut,_) => cut
  | (none,fp) =>
    let i := max i limit₁
    let limit₂ := min (offset+params.maxSize) data.length
    match rollUntil gear data params.maskL (limit₂-i) i fp with
    | (some cut,_) => cut
    | (none,_) => max i limit₂

/-- Where the piece that starts at `offset` ends. -/
def pieceEnd (params : CdcParams) (data : Bytes) (offset : ℕ) : ℕ :=
  let remaining := data.length-offset
  if remaining ≤ params.minSize then offset+remaining else findBoundary gear data offset params

theorem rollUntil_bounds (data : Bytes) (mask : UInt64) {left i cut : ℕ} {fp fp' : UInt64}
    (h : rollUntil gear data mask left i fp = (some cut,fp')) : i < cut ∧ cut ≤ i+left := by
  induction left generalizing i fp with
  | zero => simp [rollUntil] at h
  | succ left ih =>
    simp only [rollUntil] at h
    by_cases hm : (fp <<< 1)+gear (data.getD i 0) &&& mask = 0
    · simp only [hm,if_true,Prod.mk.injEq,Option.some.injEq] at h
      omega
    · simp only [hm,if_false] at h
      have hrest := ih h
      omega

theorem rollUntil_shift {data : Bytes} (window : Bytes) (mask : UInt64) {offset left i : ℕ} (fp : UInt64)
    (h : ∀ j, i ≤ j → j < i+left → window.getD j 0 = data.getD (offset+j) 0) :
    rollUntil gear data mask left (offset+i) fp =
      ((rollUntil gear window mask left i fp).1.map (offset+·),
        (rollUntil gear window mask left i fp).2) := by
  induction left generalizing i fp with
  | zero => rfl
  | succ left ih =>
    have hi := h i le_rfl (by omega)
    have hrest : ∀ fp, rollUntil gear data mask left (offset+i+1) fp = _ := fun fp =>
      ih (i := i+1) fp fun j hj hlt => h j (by omega) (by omega)
    simp only [rollUntil,hi]
    by_cases hm : (fp <<< 1)+gear (data.getD (offset+i) 0) &&& mask = 0
    · simp only [hm,if_true,Option.map_some,Nat.add_assoc]
    · simp only [hm,if_false]
      exact hrest _

variable (params : CdcParams)

/-- The boundary lies behind the least size and within the greatest. -/
theorem findBoundary_bounds (data : Bytes) (offset : ℕ) (h : params.minSize < data.length-offset) :
    offset+params.minSize < findBoundary gear data offset params ∧
      findBoundary gear data offset params ≤ min (offset+params.maxSize) data.length := by
  have hmin := params.min_lt_target
  have hmax := params.target_le_max
  unfold findBoundary
  simp only
  split
  · rename_i cut fp hr
    have hb := rollUntil_bounds gear _ _ hr
    omega
  · split
    · rename_i cut fp hr
      have hb := rollUntil_bounds gear _ _ hr
      omega
    · omega

theorem pieceEnd_bounds (data : Bytes) {offset : ℕ} (h : offset < data.length) :
    offset < pieceEnd gear params data offset ∧ pieceEnd gear params data offset ≤ data.length := by
  unfold pieceEnd
  simp only
  split_ifs with hs
  · omega
  · have hb := findBoundary_bounds gear params data offset (by omega)
    omega

/-- The cut of a window that is full, or that ends with the data, is the cut of the data. -/
theorem findBoundary_window {data : Bytes} {offset n : ℕ}
    (hn : params.maxSize ≤ n ∨ data.length ≤ offset+n) (h : params.minSize < data.length-offset) :
    findBoundary gear data offset params =
      offset+findBoundary gear ((data.drop offset).take n) 0 params := by
  have hmin := params.min_lt_target
  have hmax := params.target_le_max
  have hlen : ((data.drop offset).take n).length = min n (data.length-offset) := by simp
  have hget : ∀ j, j < n → ((data.drop offset).take n).getD j 0 = data.getD (offset+j) 0 := by
    intro j hj
    simp [getD_eq_getElem?_getD,hj]
  unfold findBoundary
  simp only [hlen,Nat.zero_add]
  have hcount₁ : min (offset+params.targetSize) data.length-(offset+params.minSize) =
      min params.targetSize (min n (data.length-offset))-params.minSize := by omega
  have hcount₂ : min (offset+params.maxSize) data.length-
        max (offset+params.minSize) (min (offset+params.targetSize) data.length) =
      min params.maxSize (min n (data.length-offset))-
        max params.minSize (min params.targetSize (min n (data.length-offset))) := by omega
  have hstart : max (offset+params.minSize) (min (offset+params.targetSize) data.length) =
      offset+max params.minSize (min params.targetSize (min n (data.length-offset))) := by omega
  rw [hcount₁,hcount₂,hstart,rollUntil_shift gear ((data.drop offset).take n) params.maskS 0
    fun j _ hj => hget j (by omega)]
  generalize hr : rollUntil gear ((data.drop offset).take n) params.maskS _ params.minSize 0 = r
  obtain ⟨cut | cut,fp⟩ := r
  · simp only [Option.map_none]
    rw [rollUntil_shift gear ((data.drop offset).take n) params.maskL fp
      fun j _ hj => hget j (by omega)]
    generalize rollUntil gear ((data.drop offset).take n) params.maskL _ _ fp = r
    obtain ⟨cut | cut,fp'⟩ := r
    · simp only [Option.map_none]
      omega
    · simp
  · simp

theorem pieceEnd_window (data : Bytes) {offset : ℕ} (n : ℕ)
    (hn : params.maxSize ≤ n ∨ data.length ≤ offset+n) (h : offset < data.length) :
    pieceEnd gear params data offset =
      offset+pieceEnd gear params ((data.drop offset).take n) 0 := by
  have hmin := params.min_lt_target
  have hmax := params.target_le_max
  have hlen : ((data.drop offset).take n).length = min n (data.length-offset) := by simp
  unfold pieceEnd
  simp only [hlen,Nat.sub_zero,Nat.zero_add]
  by_cases hs : data.length-offset ≤ params.minSize
  · rw [if_pos hs,if_pos (by omega)]
    omega
  · rw [if_neg hs,if_neg (by omega)]
    exact findBoundary_window gear params hn (by omega)

end Boundary

section Chunkers

variable (X : Platform) (gear : UInt8 → UInt64) (params : CdcParams)

def putNew (entityType : Str) (data : Bytes) : Action ContentStore ChunkerError Hash :=
  fun s => match Entity.new X entityType data with
    | .ok e => (.ok e.contentHash,s.put e)
    | .error e => (.error (.entity e.display),s)

def chunkValue (payload : Bytes) : Value := .map [field "payload" (.bytes payload)]

def putChunk (payload : Bytes) : Action ContentStore ChunkerError Hash :=
  putNew X typeContentChunk (toEcf (chunkValue payload))

def blobValue (totalSize chunkSize chunking : ℕ) (chunks : List Hash) : Value :=
  .map [
    field "total_size" (uinteger totalSize),
    field "chunk_size" (uinteger chunkSize),
    field "chunking" (uinteger chunking),
    field "chunks" (.array (chunks.map hashVal))]

def putBlob (totalSize chunkSize chunking : ℕ) (chunks : List Hash) :
    Action ContentStore ChunkerError Hash :=
  putNew X typeContentBlob (toEcf (blobValue totalSize chunkSize chunking chunks))

def chunksFrom (raw : Bytes) (offset : ℕ) (chunks : List Hash) :
    Action ContentStore ChunkerError (List Hash) :=
  if h : offset < raw.length then do
    let chunkHash ← putChunk X ((raw.take (pieceEnd gear params raw offset)).drop offset)
    chunksFrom raw (pieceEnd gear params raw offset) (chunks++[chunkHash])
  else pure chunks
termination_by raw.length-offset
decreasing_by
  have hb := pieceEnd_bounds gear params raw h
  omega

def createBlobFastcdc (raw : Bytes) (targetSize : UInt64) :
    Action ContentStore ChunkerError Hash := do
  let params ← .lift (CdcParams.fromTarget targetSize)
  let chunks ← chunksFrom X gear params raw 0 []
  putBlob X raw.length targetSize.toNat contentChunkingFastcdc chunks

inductive ReadOutcome where
  | read (piece : Bytes)
  | interrupted
  | failed (text : String)

/-- A source of bytes; asked for at most so many, it answers and moves on. -/
structure Reader (ρ : Type) where
  read : ρ → ℕ → ReadOutcome × ρ

variable {ρ : Type} (R : Reader ρ)

/-- Read until `want` bytes have come or the source has ended. -/
def fillWindow : ℕ → ρ → ℕ → Bytes → Except ChunkerError (Bytes × Bool × ρ)
  | _, r, 0, buf => .ok (buf,false,r)
  | 0, _, _+1, _ => .error .outOfFuel
  | fuel+1, r, want+1, buf => match R.read r (want+1) with
    | (.read [],r') => .ok (buf,true,r')
    | (.read piece,r') => fillWindow fuel r' (want+1-piece.length) (buf++piece)
    | (.interrupted,r') => fillWindow fuel r' (want+1) buf
    | (.failed text,_) => .error (.entity ("read: "++text))

/-- What has been read and not yet stored. -/
structure Window (ρ : Type) where
  reader : ρ
  buf : Bytes
  eof : Bool

def Window.refill (fuel : ℕ) (w : Window ρ) : Except ChunkerError (Window ρ) :=
  if !w.eof && w.buf.length < params.maxSize then do
    let (buf,eof,reader) ← fillWindow R fuel w.reader (params.maxSize-w.buf.length) w.buf
    return ⟨reader,buf,eof⟩
  else .ok w

def streamChunks : ℕ → Window ρ → List Hash → ℕ → Action ContentStore ChunkerError (List Hash × ℕ)
  | 0, _, _, _ => .lift (.error .outOfFuel)
  | fuel+1, w, chunks, totalSize =>
    if w.eof && w.buf.isEmpty then pure (chunks,totalSize) else do
      let w ← .lift (w.refill params R fuel)
      if w.buf = [] then pure (chunks,totalSize) else do
        let cut := pieceEnd gear params w.buf 0
        let chunkHash ← putChunk X (w.buf.take cut)
        let w := { w with buf := w.buf.drop cut }
        if w.eof && w.buf.isEmpty then pure (chunks++[chunkHash],totalSize+cut)
        else streamChunks fuel w (chunks++[chunkHash]) (totalSize+cut)

def createBlobFastcdcStream (fuel : ℕ) (reader : ρ) (targetSize : UInt64) :
    Action ContentStore ChunkerError Hash := do
  let params ← .lift (CdcParams.fromTarget targetSize)
  let (chunks,totalSize) ← streamChunks X gear params R fuel ⟨reader,[],false⟩ [] 0
  putBlob X totalSize targetSize.toNat contentChunkingFastcdc chunks

end Chunkers

/-! The pieces of a byte string, and what each chunker does with them. -/

section Pieces

variable (gear : UInt8 → UInt64) (params : CdcParams)

def pieces (raw : Bytes) : List Bytes :=
  if h : raw = [] then []
  else raw.take (pieceEnd gear params raw 0)::pieces (raw.drop (pieceEnd gear params raw 0))
termination_by raw.length
decreasing_by
  have hpos := List.length_pos_iff.mpr h
  have hb := pieceEnd_bounds gear params raw hpos
  rw [List.length_drop]
  omega

@[simp] theorem pieces_nil : pieces gear params [] = [] := by
  rw [pieces]
  simp

theorem pieces_of_ne_nil {raw : Bytes} (h : raw ≠ []) :
    pieces gear params raw = raw.take (pieceEnd gear params raw 0)::
      pieces gear params (raw.drop (pieceEnd gear params raw 0)) := by
  rw [pieces,dif_neg h]

theorem length_drop_pieceEnd_lt {raw : Bytes} (h : raw ≠ []) :
    (raw.drop (pieceEnd gear params raw 0)).length < raw.length := by
  have hpos := length_pos_iff.mpr h
  have hb := pieceEnd_bounds gear params raw hpos
  rw [length_drop]
  omega

/-- Nothing is lost or reordered by cutting. -/
theorem flatten_pieces (raw : Bytes) : (pieces gear params raw).flatten = raw := by
  induction hn : raw.length using Nat.strong_induction_on generalizing raw with
  | _ n ih =>
    by_cases h : raw = []
    · simp [h]
    · have hlt := length_drop_pieceEnd_lt gear params h
      rw [pieces_of_ne_nil gear params h,flatten_cons,ih _ (by omega) _ rfl, take_append_drop]

def storePieces (X : Platform) : List Bytes → List Hash →
    Action ContentStore ChunkerError (List Hash)
  | [], chunks => pure chunks
  | piece::rest, chunks => do
    let chunkHash ← putChunk X piece
    storePieces X rest (chunks++[chunkHash])

variable (X : Platform)

theorem chunksFrom_eq (raw : Bytes) (offset : ℕ) (chunks : List Hash) :
    chunksFrom X gear params raw offset chunks =
      storePieces X (pieces gear params (raw.drop offset)) chunks := by
  induction hn : raw.length-offset using Nat.strong_induction_on generalizing offset chunks with
  | _ n ih =>
    rw [chunksFrom]
    by_cases h : offset < raw.length
    · have hne : raw.drop offset ≠ [] := by simpa using h
      have hb := pieceEnd_bounds gear params raw h
      have hwindow := pieceEnd_window gear params raw raw.length (.inr (by omega)) h
      have htake : (raw.drop offset).take raw.length = raw.drop offset :=
        take_of_length_le (by simp)
      rw [htake] at hwindow
      rw [dif_pos h,pieces_of_ne_nil gear params hne]
      show (_ >>= _) = (_ >>= _)
      rw [drop_take,hwindow,Nat.add_sub_cancel_left,drop_drop]
      congr 1
      funext chunkHash
      rw [← hwindow]
      exact ih _ (by omega) _ _ rfl
    · have hnil : raw.drop offset = [] := drop_of_length_le (by omega)
      rw [dif_neg h,hnil,pieces_nil]
      rfl

end Pieces

/-! Reading a byte string piece by piece. -/

section Reading

variable {ρ : Type} (R : Reader ρ)

/-- From here on the reader gives exactly these bytes, in pieces that are not empty before the
end; it may be interrupted, but not for ever. -/
inductive Yields : ρ → Bytes → Prop
  | intro {r : ρ} {bytes : Bytes}
      (answers : ∀ want, 0 < want → (R.read r want).1 = .interrupted ∨
        ∃ piece, (R.read r want).1 = .read piece ∧ piece.length ≤ want ∧ piece <+: bytes ∧
          (piece = [] → bytes = []))
      (again : ∀ want, 0 < want → (R.read r want).1 = .interrupted → Yields (R.read r want).2 bytes)
      (goesOn : ∀ want piece, 0 < want → (R.read r want).1 = .read piece → piece ≠ [] →
        Yields (R.read r want).2 (bytes.drop piece.length)) : Yields r bytes

variable {R}

theorem fillWindow_ok {r : ρ} {bytes : Bytes} (h : Yields R r bytes) (want : ℕ) :
    ∃ n r', (∀ fuel ≥ n, ∀ buf, fillWindow R fuel r want buf =
        .ok (buf++bytes.take want,decide (bytes.length < want),r')) ∧
      (want ≤ bytes.length → Yields R r' (bytes.drop want)) := by
  induction h generalizing want with
  | @intro r bytes answers again goesOn hagain hgoes =>
    cases want with
    | zero =>
      refine ⟨0,r,fun fuel _ buf => ?_,fun _ => .intro answers again goesOn⟩
      cases fuel <;> simp [fillWindow]
    | succ want =>
      have hpos : 0 < want+1 := by omega
      rcases answers (want+1) hpos with hint | ⟨piece,hpiece,hlen,hpre,hend⟩
      · obtain ⟨n,r',hfill,hrest⟩ := hagain (want+1) hpos hint (want+1)
        refine ⟨n+1,r',fun fuel hfuel buf => ?_,hrest⟩
        obtain ⟨fuel,rfl⟩ : ∃ k, fuel = k+1 := ⟨fuel-1,by omega⟩
        rw [fillWindow,show R.read r (want+1) = (.interrupted,(R.read r (want+1)).2) by rw [← hint]]
        exact hfill fuel (by omega) buf
      · have hr : R.read r (want+1) = (.read piece,(R.read r (want+1)).2) := by rw [← hpiece]
        by_cases hne : piece = []
        · refine ⟨1,(R.read r (want+1)).2,fun fuel hfuel buf => ?_,fun hle => ?_⟩
          · obtain ⟨fuel,rfl⟩ : ∃ k, fuel = k+1 := ⟨fuel-1,by omega⟩
            rw [fillWindow,hr,hne,hend hne]
            simp
          · rw [hend hne] at hle
            simp at hle
        · obtain ⟨n,r',hfill,hrest⟩ := hgoes (want+1) piece hpos hpiece hne (want+1-piece.length)
          obtain ⟨rest,rfl⟩ := hpre
          have hp := length_pos_iff.mpr hne
          simp only [drop_left] at hfill hrest
          simp only [length_append,drop_append]
          refine ⟨n+1,r',fun fuel hfuel buf => ?_,fun hle => ?_⟩
          · obtain ⟨fuel,rfl⟩ : ∃ k, fuel = k+1 := ⟨fuel-1,by omega⟩
            have htake : (piece++rest).take (want+1) = piece++rest.take (want+1-piece.length) := by
              rw [take_append,take_of_length_le hlen]
            have hlast : decide (piece.length+rest.length < want+1) =
                decide (rest.length < want+1-piece.length) := by
              rw [decide_eq_decide]
              omega
            rw [fillWindow,hr,htake,hlast,← append_assoc]
            cases piece with
            | nil => exact absurd rfl hne
            | cons b piece => exact hfill fuel (by omega) (buf++b::piece)
          · rw [drop_of_length_le hlen,nil_append]
            exact hrest (by omega)

theorem fillWindow_reads {r : ρ} {bytes : Bytes} (h : Yields R r bytes) {maxSize : ℕ}
    {buf : Bytes} (hbuf : buf.length < maxSize) :
    ∃ n r', (∀ fuel ≥ n, fillWindow R fuel r (maxSize-buf.length) buf =
        .ok ((buf++bytes).take maxSize,decide ((buf++bytes).length < maxSize),r')) ∧
      (maxSize ≤ (buf++bytes).length → Yields R r' (bytes.drop (maxSize-buf.length))) := by
  obtain ⟨n,r',hfill,hrest⟩ := fillWindow_ok h (maxSize-buf.length)
  refine ⟨n,r',fun fuel hfuel => ?_,fun hle => hrest ?_⟩
  · have hlast : decide (bytes.length < maxSize-buf.length) =
        decide ((buf++bytes).length < maxSize) := by
      rw [decide_eq_decide,length_append]
      omega
    have hle := hbuf.le
    rw [hfill fuel hfuel buf,hlast,take_append,take_of_length_le hle]
  · rw [length_append] at hle
    omega

/-- What is still to be stored: the window's own bytes, then what the reader gives. -/
structure Ahead (R : Reader ρ) (params : CdcParams) (w : Window ρ) (bytes : Bytes) : Prop where
  ended : w.eof = true → bytes = []
  open_ : w.eof = false → Yields R w.reader bytes
  within : w.buf.length ≤ params.maxSize

variable {params : CdcParams}

theorem Ahead.refill {w : Window ρ} {bytes : Bytes} (h : Ahead R params w bytes) :
    ∃ n w' bytes', (∀ fuel ≥ n, w.refill params R fuel = .ok w') ∧ Ahead R params w' bytes' ∧
      w'.buf++bytes' = w.buf++bytes ∧ w'.buf = (w.buf++bytes).take params.maxSize := by
  by_cases hc : (!w.eof && w.buf.length < params.maxSize) = true
  · have hread : w.eof = false ∧ w.buf.length < params.maxSize := by simpa using hc
    obtain ⟨n,r',hfill,hrest⟩ := fillWindow_reads (h.open_ hread.1) hread.2
    refine ⟨n,⟨r',_,decide ((w.buf++bytes).length < params.maxSize)⟩,
      bytes.drop (params.maxSize-w.buf.length),fun fuel hfuel => ?_,
      ⟨fun hend => ?_,fun hopen => ?_,?_⟩,?_,rfl⟩
    · unfold Window.refill
      rw [if_pos hc,hfill fuel hfuel]
      rfl
    · have hlt : (w.buf++bytes).length < params.maxSize := by simpa using hend
      rw [length_append] at hlt
      exact drop_of_length_le (by omega)
    · exact hrest (by simpa using hopen)
    · simp
    · have hle := hread.2.le
      rw [take_append,take_of_length_le hle,append_assoc,take_append_drop]
  · refine ⟨0,w,bytes,fun fuel _ => ?_,h,rfl,?_⟩
    · unfold Window.refill
      rw [if_neg hc]
    · have hlen := h.within
      by_cases hend : w.eof = true
      · rw [h.ended hend,append_nil,take_of_length_le hlen]
      · have hfull : w.buf.length = params.maxSize := by
          have hnot : ¬ w.buf.length < params.maxSize := by simpa [hend] using hc
          omega
        rw [← hfull,take_left]

variable (X : Platform) (gear : UInt8 → UInt64)

/-- With enough fuel the streamed chunker stores the pieces of everything ahead. -/
theorem streamChunks_eq {w : Window ρ} {bytes : Bytes} (h : Ahead R params w bytes) :
    ∃ n, ∀ fuel ≥ n, ∀ chunks totalSize, streamChunks X gear params R fuel w chunks totalSize =
      (storePieces X (pieces gear params (w.buf++bytes)) chunks >>= fun chunks =>
        pure (chunks,totalSize+(w.buf++bytes).length)) := by
  induction hn : (w.buf++bytes).length using Nat.strong_induction_on generalizing w bytes with
  | _ n ih =>
    subst hn
    have hmin := params.min_lt_target
    have hmax := params.target_le_max
    obtain ⟨n₁,w',bytes',hrefill,hw',hall,hbuf⟩ := h.refill
    by_cases hdone : w.buf++bytes = []
    · have hempty : w'.buf = [] := by rw [hbuf,hdone,take_nil]
      refine ⟨n₁+1,fun fuel hfuel chunks totalSize => ?_⟩
      obtain ⟨fuel,rfl⟩ : ∃ k, fuel = k+1 := ⟨fuel-1,by omega⟩
      rw [hdone,pieces_nil,streamChunks,hrefill fuel (by omega)]
      funext s
      by_cases hend : (w.eof && w.buf.isEmpty) = true
      · rw [if_pos hend]
        rfl
      · rw [if_neg hend]
        show (if w'.buf = [] then _ else _ : Action ContentStore ChunkerError _) s = _
        rw [if_pos hempty]
        rfl
    · have hpos := length_pos_iff.mpr hdone
      have hcut : pieceEnd gear params (w.buf++bytes) 0 = pieceEnd gear params w'.buf 0 := by
        have hwindow := pieceEnd_window gear params (w.buf++bytes) params.maxSize (.inl le_rfl)
          hpos
        rw [hwindow,drop_zero,← hbuf,Nat.zero_add]
      have hne : w'.buf ≠ [] := by
        rw [hbuf]
        simp only [ne_eq,take_eq_nil_iff,hdone,or_false]
        omega
      have hlt := length_drop_pieceEnd_lt gear params hdone
      have hle := (pieceEnd_bounds gear params w'.buf (length_pos_iff.mpr hne)).2
      have hpieces := pieces_of_ne_nil gear params hdone
      rw [hcut] at hlt hpieces
      generalize hk : pieceEnd gear params w'.buf 0 = cut at hlt hle hpieces
      have htake : (w.buf++bytes).take cut = w'.buf.take cut := by
        rw [← hall,take_append_of_le_length hle]
      have hdrop : (w.buf++bytes).drop cut = w'.buf.drop cut++bytes' := by
        rw [← hall,drop_append_of_le_length hle]
      have hnext : Ahead R params { w' with buf := w'.buf.drop cut } bytes' := by
        have hwithin := hw'.within
        exact ⟨hw'.ended,hw'.open_,by
          show (w'.buf.drop cut).length ≤ params.maxSize
          rw [length_drop]
          omega⟩
      rw [hdrop] at hlt hpieces
      obtain ⟨n₂,hrest⟩ := ih _ hlt hnext rfl
      refine ⟨max n₁ n₂+1,fun fuel hfuel chunks totalSize => ?_⟩
      obtain ⟨fuel,rfl⟩ : ∃ k, fuel = k+1 := ⟨fuel-1,by omega⟩
      have hopen : ¬ (w.eof && w.buf.isEmpty) = true := by
        intro hboth
        have hb : w.eof = true ∧ w.buf = [] := by simpa using hboth
        exact hdone (by rw [hb.2,h.ended hb.1,append_nil])
      rw [hpieces,htake,streamChunks,if_neg hopen,hrefill fuel (by omega)]
      funext s
      show (if w'.buf = [] then _ else _ : Action ContentStore ChunkerError _) s = _
      rw [if_neg hne,hk]
      show Action.andThen _ _ s = Action.andThen (Action.andThen _ _) _ s
      unfold Action.andThen
      cases hput : putChunk X (w'.buf.take cut) s with
      | mk r s₁ => cases r with
        | error e => rfl
        | ok chunkHash =>
          have htotal : totalSize+(w.buf++bytes).length =
              totalSize+cut+(w'.buf.drop cut++bytes').length := by
            rw [← hdrop,length_drop,← hall,length_append]
            omega
          have hgo := congrFun (hrest fuel (by omega) (chunks++[chunkHash]) (totalSize+cut)) s₁
          simp only [htotal]
          by_cases hend : (w'.eof && (w'.buf.drop cut).isEmpty) = true
          · have hb : w'.eof = true ∧ w'.buf.drop cut = [] := by simpa using hend
            rw [if_pos hend,hb.2,hw'.ended hb.1,append_nil,pieces_nil]
            rfl
          · rw [if_neg hend]
            exact hgo

/-- A reader that yields the bytes, however it cuts them up and however often it is
interrupted, is chunked as the whole byte string is: the same entities are put in the same
order, and the same hash or the same error comes back. -/
theorem stream_eq_buffered {r : ρ} {raw : Bytes} (h : Yields R r raw) (targetSize : UInt64) :
    ∃ n, ∀ fuel ≥ n, createBlobFastcdcStream X gear R fuel r targetSize =
      createBlobFastcdc X gear raw targetSize := by
  cases hp : CdcParams.fromTarget targetSize with
  | error e =>
    refine ⟨0,fun fuel _ => ?_⟩
    unfold createBlobFastcdcStream createBlobFastcdc
    rw [hp]
    rfl
  | ok params =>
    have hstart : Ahead R params ⟨r,[],false⟩ raw :=
      ⟨fun hend => (Bool.false_ne_true hend).elim,fun _ => h,Nat.zero_le _⟩
    obtain ⟨n,hstream⟩ := streamChunks_eq X gear hstart
    refine ⟨n,fun fuel hfuel => ?_⟩
    unfold createBlobFastcdcStream createBlobFastcdc
    rw [hp]
    show (streamChunks X gear params R fuel ⟨r,[],false⟩ [] 0 >>= fun p =>
        putBlob X p.2 targetSize.toNat contentChunkingFastcdc p.1) =
      (chunksFrom X gear params raw 0 [] >>= fun chunks =>
        putBlob X raw.length targetSize.toNat contentChunkingFastcdc chunks)
    rw [hstream fuel hfuel,chunksFrom_eq,List.drop_zero]
    funext s
    show Action.andThen (Action.andThen (storePieces X (pieces gear params raw) []) _) _ s =
      Action.andThen (storePieces X (pieces gear params raw) []) _ s
    unfold Action.andThen
    cases storePieces X (pieces gear params raw) [] s with
    | mk result s₁ => cases result with
      | error e => rfl
      | ok chunks =>
        show putBlob X (0+raw.length) _ _ chunks s₁ = _
        rw [Nat.zero_add]

end Reading

/-! A reader that plays back a script of pieces and interrupts. -/

namespace Reader

/-- Of a piece longer than it is asked for it gives the front. -/
def scripted : Reader (List (Option Bytes)) where
  read
    | [], _ => (.read [],[])
    | none::script, _ => (.interrupted,script)
    | some piece::script, want =>
      if piece.length ≤ want then (.read piece,script)
      else (.read (piece.take want),some (piece.drop want)::script)

theorem yields_piece {script : List (Option Bytes)} {bytes : Bytes}
    (h : Yields scripted script bytes) {piece : Bytes} (hne : piece ≠ []) :
    Yields scripted (some piece::script) (piece++bytes) := by
  induction hn : piece.length using Nat.strong_induction_on generalizing piece with
  | _ n ih =>
    refine .intro (fun want hw => .inr ?_) (fun want hw hint => ?_) fun want p hw hread hp => ?_
    · by_cases hle : piece.length ≤ want
      · exact ⟨piece,by simp [scripted,hle],hle,prefix_append _ _,fun he => absurd he hne⟩
      · refine ⟨piece.take want,by simp [scripted,hle],by simp,?_,fun he => ?_⟩
        · exact (List.take_prefix _ _).trans (prefix_append _ _)
        · simp only [take_eq_nil_iff,hne,or_false] at he
          omega
    · by_cases hle : piece.length ≤ want <;> simp [scripted,hle] at hint
    · by_cases hle : piece.length ≤ want
      · simp only [scripted,hle,if_true,ReadOutcome.read.injEq] at hread ⊢
        subst hread
        rw [drop_left]
        exact h
      · simp only [scripted,hle,if_false,ReadOutcome.read.injEq] at hread ⊢
        subst hread
        have hlen : (piece.take want).length = want := by simp; omega
        rw [hlen,drop_append_of_le_length (by omega)]
        refine ih _ ?_ (fun he => ?_) rfl
        · rw [length_drop]
          omega
        · rw [drop_eq_nil_iff] at he
          omega

theorem yields_scripted (script : List (Option Bytes)) (h : some [] ∉ script) :
    Yields scripted script (script.flatMap (·.getD [])) := by
  induction script with
  | nil =>
    refine .intro (fun want _ => .inr ⟨[],rfl,Nat.zero_le _,prefix_rfl,fun _ => rfl⟩)
      (fun want _ hint => by simp [scripted] at hint) fun want p _ hread hp => ?_
    simp only [scripted,ReadOutcome.read.injEq] at hread
    exact absurd hread.symm hp
  | cons arrival script ih =>
    have hrest := ih fun hmem => h (mem_cons_of_mem _ hmem)
    cases arrival with
    | none =>
      exact .intro (fun want _ => .inl rfl) (fun want _ _ => hrest)
        fun want p _ hread _ => by simp [scripted] at hread
    | some piece =>
      exact yields_piece hrest fun he => h (by simp [he])

end Reader

/-- Twelve bytes in three pieces, with two interrupts. -/
theorem stream_eq_buffered_scripted :
    ∃ n, ∀ fuel ≥ n, createBlobFastcdcStream (Sample.platform [] [] []) (fun b => b.toUInt64*2654435761)
        Reader.scripted fuel [some [1,2,3,4,5],none,none,some [6],some [7,8,9,10,11,12]] 4 =
      createBlobFastcdc (Sample.platform [] [] []) (fun b => b.toUInt64*2654435761)
        [1,2,3,4,5,6,7,8,9,10,11,12] 4 := by
  have hplays := Reader.yields_scripted
    [some [1,2,3,4,5],none,none,some [6],some [7,8,9,10,11,12]] (by decide)
  exact stream_eq_buffered (Sample.platform [] [] []) (fun b => b.toUInt64*2654435761) hplays 4

end EntityCore
