import EntityCore.Aborting
import EntityCore.Reassembly

/-! What a blob declares and what its chunks are. The verifier asks for chunks that are not
empty and add up to the size declared; reading back asks for neither, but asks for room of the
declared size first. Both chunkers make blobs that the verifier accepts. -/
namespace EntityCore

open Ecf Outcome List

/-! Verification, and reading back into memory. -/

section Verify

variable (X : Platform) (store : ContentStore) (blobHash : Hash)

def chunkPayloadLen (chunk : Entity) : Except String ℕ := do
  let v ← mapErr ("cbor: "++·) (X.fromReader chunk.data)
  return (((v.lookup "payload").bind (·.asBytes)).map List.length).getD 0

/-- One chunk more; the sum stays at the largest word. -/
def countChunk (actual : ℕ) (chunkHash : Hash) : Except VerifyError ℕ := do
  let chunk ← okOr (store.get chunkHash) (.chunkMissing chunkHash)
  let payloadLen ← mapErr (fun e => .badBlob ("chunk decode: "++e)) (chunkPayloadLen X chunk)
  if payloadLen = 0 then .error (.emptyChunk chunkHash)
  else return min (actual+payloadLen) (2^64-1)

def verifyContent : Except VerifyError Unit := do
  let (declared,chunkHashes) ← decodeBlob X store blobHash
  let actual ← chunkHashes.foldlM (countChunk X store) 0
  ensure (actual = declared) (.sizeMismatch declared actual)

/-- Room is made for the declared size before the first chunk is looked at. -/
def reassembleInto : Aborting VerifyError Bytes := do
  let (totalSize,chunkHashes) ← .lift (decodeBlob X store blobHash)
  .withCapacity 1 totalSize
  .lift (chunkHashes.foldlM (fun out hash => do return out++(← chunkPayload X store hash)) [])

/-- The blob declares a size and lists stored chunks with these payloads. -/
def ListsChunks (totalSize : ℕ) (payloads : List Bytes) : Prop :=
  ∃ hashes, decodeBlob X store blobHash = .ok (totalSize,hashes) ∧
    List.Forall₂ (fun payload hash => chunkPayload X store hash = .ok payload) payloads hashes

end Verify

section ListsChunks

variable {X : Platform} {store : ContentStore} {blobHash : Hash} {totalSize : ℕ}
  {payloads : List Bytes}

theorem chunkPayloadLen_eq (chunk : Entity) :
    chunkPayloadLen X chunk = (chunkPayloadBytes X chunk).map length := by
  unfold chunkPayloadLen chunkPayloadBytes
  cases X.fromReader chunk.data with
  | error e => rfl
  | ok v =>
    show Except.ok _ = Except.ok _
    cases (v.lookup "payload").bind (·.asBytes) <;> rfl

/-- Counting a chunk is reading it and looking at its length. -/
theorem countChunk_eq (actual : ℕ) (hash : Hash) : countChunk X store actual hash =
    (chunkPayload X store hash).bind fun payload =>
      if payload = [] then .error (.emptyChunk hash)
      else .ok (min (actual+payload.length) (2^64-1)) := by
  unfold countChunk chunkPayload
  cases store.get hash with
  | none => rfl
  | some chunk =>
    simp only [okOr,bind,Except.bind,chunkPayloadLen_eq]
    cases chunkPayloadBytes X chunk with
    | error e => rfl
    | ok payload =>
      simp only [Except.map,mapErr,length_eq_zero_iff]
      rfl

theorem countChunks_ok {hashes : List Hash}
    (h : List.Forall₂ (fun payload hash => chunkPayload X store hash = .ok payload) payloads hashes)
    {actual : ℕ} (hactual : actual ≤ 2^64-1) (n : ℕ) :
    hashes.foldlM (countChunk X store) actual = .ok n ↔
      [] ∉ payloads ∧ n = min (actual+payloads.flatten.length) (2^64-1) := by
  induction h generalizing actual with
  | nil =>
    show Except.ok actual = Except.ok n ↔ _
    rw [flatten_nil,length_nil,Nat.add_zero,min_eq_left hactual,Except.ok.injEq]
    exact ⟨fun hn => ⟨not_mem_nil,hn.symm⟩,fun hn => hn.2.symm⟩
  | @cons payload hash payloads hashes hpayload _ ih =>
    have hstep : countChunk X store actual hash = if payload = [] then .error (.emptyChunk hash)
        else .ok (min (actual+payload.length) (2^64-1)) := by
      rw [countChunk_eq,hpayload]
      rfl
    rw [foldlM_cons,hstep]
    by_cases hempty : payload = []
    · rw [if_pos hempty]
      constructor
      · intro hn
        cases hn
      · intro hn
        exact absurd (hempty ▸ mem_cons_self) hn.1
    · rw [if_neg hempty]
      show foldlM _ _ _ = _ ↔ _
      rw [ih (min_le_right _ _),mem_cons,not_or,flatten_cons,length_append]
      constructor
      · rintro ⟨hrest,rfl⟩
        exact ⟨⟨fun hnil => hempty hnil.symm,hrest⟩,by omega⟩
      · rintro ⟨⟨-,hrest⟩,rfl⟩
        exact ⟨hrest,by omega⟩

theorem mapM_payloads_ok {hashes : List Hash} : hashes.mapM (chunkPayload X store) = .ok payloads ↔
      List.Forall₂ (fun payload hash => chunkPayload X store hash = .ok payload) payloads hashes := by
  induction hashes generalizing payloads with
  | nil =>
    show Except.ok [] = Except.ok payloads ↔ _
    simp [eq_comm]
  | cons hash hashes ih =>
    rw [mapM_cons,forall₂_cons_right_iff]
    simp only [bind_ok,pure_ok,ih]
    constructor
    · rintro ⟨payload,hpayload,rest,hrest,rfl⟩
      exact ⟨payload,rest,hpayload,hrest,rfl⟩
    · rintro ⟨payload,rest,hpayload,hrest,rfl⟩
      exact ⟨payload,hpayload,rest,hrest,rfl⟩

theorem ListsChunks.stream (h : ListsChunks X store blobHash totalSize payloads) :
    reassembleStream X store blobHash = .ok payloads := by
  obtain ⟨hashes,hblob,hall⟩ := h
  unfold reassembleStream
  rw [hblob]
  exact mapM_payloads_ok.mpr hall

theorem ListsChunks.reassemble (h : ListsChunks X store blobHash totalSize payloads) :
    reassemble X store blobHash = .ok payloads.flatten := by
  rw [← reassembleStream_flatten,h.stream]
  rfl

/-- The verifier accepts chunks that are not empty and add up to the declared size. -/
theorem ListsChunks.verify_iff (h : ListsChunks X store blobHash totalSize payloads) :
    verifyContent X store blobHash = .ok () ↔
      [] ∉ payloads ∧ min payloads.flatten.length (2^64-1) = totalSize := by
  obtain ⟨hashes,hblob,hall⟩ := h
  have hcount := @countChunks_ok X store payloads hashes hall 0 (Nat.zero_le _)
  simp only [Nat.zero_add] at hcount
  unfold verifyContent
  rw [hblob]
  show (hashes.foldlM (countChunk X store) 0).bind _ = _ ↔ _
  cases hfold : hashes.foldlM (countChunk X store) 0 with
  | error e =>
    constructor
    · intro hn
      cases hn
    · rintro ⟨hnonempty,-⟩
      rw [(hcount _).mpr ⟨hnonempty,rfl⟩] at hfold
      cases hfold
  | ok actual =>
    obtain ⟨hnonempty,rfl⟩ := (hcount actual).mp hfold
    show ensure _ _ = _ ↔ _
    rw [ensure_ok,decide_eq_true_iff]
    exact ⟨fun hsize => ⟨hnonempty,hsize⟩,And.right⟩

/-- Whatever goes through lists stored chunks. -/
theorem lists_of_stream (h : reassembleStream X store blobHash = .ok payloads) :
    ∃ totalSize, ListsChunks X store blobHash totalSize payloads := by
  obtain ⟨blob,hblob,hread⟩ := (bind_ok _ _ _).mp h
  exact ⟨blob.1,blob.2,hblob,mapM_payloads_ok.mp hread⟩

theorem lists_of_reassemble {bytes : Bytes} (h : EntityCore.reassemble X store blobHash = .ok bytes) :
    ∃ totalSize payloads, ListsChunks X store blobHash totalSize payloads ∧
      payloads.flatten = bytes := by
  rw [← reassembleStream_flatten] at h
  cases hstream : reassembleStream X store blobHash with
  | error e =>
    rw [hstream] at h
    cases h
  | ok payloads =>
    rw [hstream] at h
    obtain ⟨totalSize,hlists⟩ := lists_of_stream hstream
    exact ⟨totalSize,payloads,hlists,Except.ok.inj h⟩

theorem lists_of_verify (h : verifyContent X store blobHash = .ok ()) :
    ∃ totalSize payloads, ListsChunks X store blobHash totalSize payloads := by
  have hread : ∀ {hashes : List Hash} {actual n : ℕ},
      hashes.foldlM (countChunk X store) actual = .ok n →
      ∃ payloads, hashes.mapM (chunkPayload X store) = .ok payloads := by
    intro hashes
    induction hashes with
    | nil => exact fun _ => ⟨[],rfl⟩
    | cons hash hashes ih =>
      intro actual n hfold
      rw [foldlM_cons,countChunk_eq] at hfold
      obtain ⟨actual',hcount,hfold⟩ := (bind_ok _ _ _).mp hfold
      obtain ⟨payload,hpayload,-⟩ := (bind_ok _ _ _).mp hcount
      obtain ⟨rest,hrest⟩ := ih hfold
      refine ⟨payload::rest,?_⟩
      rw [mapM_cons,hpayload,hrest]
      rfl
  obtain ⟨blob,hblob,hcount⟩ := (bind_ok _ _ _).mp h
  obtain ⟨actual,hfold,-⟩ := (bind_ok _ _ _).mp hcount
  obtain ⟨payloads,hpayloads⟩ := hread hfold
  exact ⟨blob.1,payloads,blob.2,hblob,mapM_payloads_ok.mp hpayloads⟩

end ListsChunks

/-! What reading back owes to the verifier. -/

section Described

variable {X : Platform} {store : ContentStore} {blobHash : Hash}

/-- Reading back never stops the runtime, goes through exactly when the verifier accepts, in
memory as in the stream, and gives as many bytes as are declared. -/
structure ReadsBackVerified (X : Platform) (store : ContentStore) (blobHash : Hash) : Prop where
  noPanic : ∃ r, (reassembleInto X store blobHash).outcome = .ok r
  reassembled : (∃ bytes, (reassembleInto X store blobHash).outcome = .ok (.ok bytes)) ↔
    verifyContent X store blobHash = .ok ()
  streamed : (∃ writes, reassembleStream X store blobHash = .ok writes) ↔
    verifyContent X store blobHash = .ok ()
  sameBytes : ∀ bytes, (reassembleInto X store blobHash).outcome = .ok (.ok bytes) →
    ∃ writes, reassembleStream X store blobHash = .ok writes ∧ writes.flatten = bytes
  declared : ∀ bytes, (reassembleInto X store blobHash).outcome = .ok (.ok bytes) →
    ∃ hashes, decodeBlob X store blobHash = .ok (bytes.length,hashes)

/-- Apart from the room that is made first, the result is the one of reading back. -/
theorem reassembleInto_outcome (hroom : ∀ totalSize hashes,
      decodeBlob X store blobHash = .ok (totalSize,hashes) → totalSize < 2^63) :
    (reassembleInto X store blobHash).outcome = .ok (reassemble X store blobHash) := by
  unfold reassembleInto reassemble
  cases hblob : decodeBlob X store blobHash with
  | error e => rfl
  | ok blob =>
    obtain ⟨totalSize,hashes⟩ := blob
    have hsmall : 1*totalSize < 2^63 := by
      rw [Nat.one_mul]
      exact hroom totalSize hashes hblob
    show (Aborting.andThen (Aborting.lift (.ok (totalSize,hashes))) _).outcome = _
    simp only [Aborting.andThen,Aborting.lift,Aborting.withCapacity,if_pos hsmall,bind]
    rfl

theorem reassembleInto_large {totalSize : ℕ} {hashes : List Hash}
    (hblob : decodeBlob X store blobHash = .ok (totalSize,hashes)) (hlarge : 2^63 ≤ totalSize) :
    (reassembleInto X store blobHash).outcome = .error .capacity := by
  unfold reassembleInto
  rw [hblob]
  have hfault : ¬1*totalSize < 2^63 := by omega
  show (Aborting.andThen (Aborting.lift (.ok (totalSize,hashes))) _).outcome = _
  simp only [Aborting.andThen,Aborting.lift,Aborting.withCapacity,if_neg hfault,bind]

/-- The verifier's answer is the reader's, exactly on manifests that declare less than the
address space and, once their chunks are there, the bytes these chunks have, none of them empty. -/
theorem readsBackVerified_iff : ReadsBackVerified X store blobHash ↔
    (∀ totalSize hashes, decodeBlob X store blobHash = .ok (totalSize,hashes) → totalSize < 2^63) ∧
    ∀ totalSize payloads, ListsChunks X store blobHash totalSize payloads →
      [] ∉ payloads ∧ payloads.flatten.length = totalSize := by
  constructor
  · intro h
    have hroom : ∀ totalSize hashes, decodeBlob X store blobHash = .ok (totalSize,hashes) →
        totalSize < 2^63 := by
      intro totalSize hashes hblob
      by_contra hlarge
      obtain ⟨r,hr⟩ := h.noPanic
      rw [reassembleInto_large hblob (by omega)] at hr
      cases hr
    refine ⟨hroom,fun totalSize payloads hlists => ?_⟩
    have hout := reassembleInto_outcome hroom
    rw [hlists.reassemble] at hout
    obtain ⟨hnonempty,-⟩ := hlists.verify_iff.mp (h.reassembled.mp ⟨_,hout⟩)
    obtain ⟨hashes,hsize⟩ := h.declared _ hout
    obtain ⟨hashes',hblob,-⟩ := hlists
    rw [hsize] at hblob
    exact ⟨hnonempty,congrArg Prod.fst (Except.ok.inj hblob)⟩
  · rintro ⟨hroom,hmatches⟩
    have hout := reassembleInto_outcome hroom
    have hverified : ∀ {totalSize payloads}, ListsChunks X store blobHash totalSize payloads →
        verifyContent X store blobHash = .ok () := by
      intro totalSize payloads hlists
      obtain ⟨hnonempty,hsize⟩ := hmatches _ _ hlists
      obtain ⟨hashes,hblob,-⟩ := id hlists
      have hsmall := hroom _ _ hblob
      exact hlists.verify_iff.mpr ⟨hnonempty,by omega⟩
    have hbytes : ∀ bytes, (reassembleInto X store blobHash).outcome = .ok (.ok bytes) →
        ∃ totalSize payloads, ListsChunks X store blobHash totalSize payloads ∧
          payloads.flatten = bytes := by
      intro bytes hread
      rw [hout] at hread
      exact lists_of_reassemble (Except.ok.inj hread)
    refine ⟨⟨_,hout⟩,⟨?_,?_⟩,⟨?_,?_⟩,?_,?_⟩
    · rintro ⟨bytes,hread⟩
      obtain ⟨_,_,hlists,-⟩ := hbytes bytes hread
      exact hverified hlists
    · intro hverify
      obtain ⟨_,payloads,hlists⟩ := lists_of_verify hverify
      exact ⟨payloads.flatten,by rw [hout,hlists.reassemble]⟩
    · rintro ⟨writes,hstream⟩
      obtain ⟨_,hlists⟩ := lists_of_stream hstream
      exact hverified hlists
    · intro hverify
      obtain ⟨_,payloads,hlists⟩ := lists_of_verify hverify
      exact ⟨payloads,hlists.stream⟩
    · intro bytes hread
      obtain ⟨_,payloads,hlists,hflat⟩ := hbytes bytes hread
      exact ⟨payloads,hlists.stream,hflat⟩
    · intro bytes hread
      obtain ⟨totalSize,payloads,hlists,hflat⟩ := hbytes bytes hread
      obtain ⟨hashes,hblob,-⟩ := id hlists
      refine ⟨hashes,?_⟩
      rw [← hflat,(hmatches _ _ hlists).2]
      exact hblob

end Described

namespace ManifestSample

open Sample

/-- A blob without chunks that declares this many bytes. -/
def emptyBlob (totalSize digest : ℕ) : Entity :=
  entity "system/content/blob" (blobValue totalSize 1 0 []) digest

def hugeBlob : Entity := emptyBlob (2^63) 1

def shortBlob : Entity := emptyBlob 1 2

def crates : Platform := platform [blobValue (2^63) 1 0 [],blobValue 1 1 0 []] [] []

def store : ContentStore := ⟨[hugeBlob,shortBlob]⟩

/-- One manifest asks for too much room, the other is read back though no byte is there. -/
theorem manifests_believed : ¬ReadsBackVerified crates store hugeBlob.contentHash ∧
    (reassembleInto crates store hugeBlob.contentHash).outcome = .error .capacity ∧
    (reassembleInto crates store shortBlob.contentHash).outcome = .ok (.ok []) ∧
    verifyContent crates store shortBlob.contentHash = .error (.sizeMismatch 1 0) := by
  have hblob : decodeBlob crates store hugeBlob.contentHash = .ok (2^63,[]) := by decide +kernel
  have hfault := reassembleInto_large hblob le_rfl
  refine ⟨fun h => ?_,hfault,by decide +kernel,by decide +kernel⟩
  obtain ⟨r,hr⟩ := h.noPanic
  rw [hfault] at hr
  cases hr

end ManifestSample

/-! Chunking loses nothing. The fixed chunker cuts after as many bytes every time. -/

section Fixed

def contentChunkingFixed : ℕ := 0

variable (X : Platform)

/-- While there is a byte left the size is below the length of a slice or cuts at its end, so
the sum stays a word. -/
def fixedChunksFrom (raw : Bytes) {chunkSize : ℕ} (hpos : 0 < chunkSize) (offset : ℕ)
    (chunks : List Hash) : Action ContentStore ChunkerError (List Hash) :=
  if _h : offset < raw.length then do
    let stop := min (offset+chunkSize) raw.length
    let chunkHash ← putChunk X ((raw.take stop).drop offset)
    fixedChunksFrom raw hpos stop (chunks++[chunkHash])
  else pure chunks
termination_by raw.length-offset

def createBlobFixed (raw : Bytes) (chunkSize : UInt64) : Action ContentStore ChunkerError Hash :=
  if h : chunkSize.toNat = 0 then .lift (.error (.invalid "chunk_size must be > 0"))
  else do
    let chunks ← fixedChunksFrom X raw (Nat.pos_of_ne_zero h) 0 []
    putBlob X raw.length chunkSize.toNat contentChunkingFixed chunks

def fixedPieces (raw : Bytes) {chunkSize : ℕ} (hpos : 0 < chunkSize) : List Bytes :=
  if _h : raw = [] then []
  else raw.take chunkSize::fixedPieces (raw.drop chunkSize) hpos
termination_by raw.length
decreasing_by
  have hlen := List.length_pos_iff.mpr _h
  rw [List.length_drop]
  omega

variable {chunkSize : ℕ} (hpos : 0 < chunkSize)

@[simp] theorem fixedPieces_nil : fixedPieces [] hpos = [] := by
  rw [fixedPieces]
  simp

theorem fixedPieces_of_ne_nil {raw : Bytes} (h : raw ≠ []) :
    fixedPieces raw hpos = raw.take chunkSize::fixedPieces (raw.drop chunkSize) hpos := by
  rw [fixedPieces,dif_neg h]

theorem fixedChunksFrom_eq (raw : Bytes) (offset : ℕ) (chunks : List Hash) :
    fixedChunksFrom X raw hpos offset chunks =
      storePieces X (fixedPieces (raw.drop offset) hpos) chunks := by
  induction hn : raw.length-offset using Nat.strong_induction_on generalizing offset chunks with
  | _ n ih =>
    rw [fixedChunksFrom]
    by_cases h : offset < raw.length
    · have hne : raw.drop offset ≠ [] := by simpa using h
      have hpiece : (raw.take (min (offset+chunkSize) raw.length)).drop offset =
          (raw.drop offset).take chunkSize := by
        rw [drop_take,take_eq_take_iff,length_drop]
        omega
      have hrest : (raw.drop offset).drop chunkSize =
          raw.drop (min (offset+chunkSize) raw.length) := by
        rw [drop_drop]
        rcases le_total (offset+chunkSize) raw.length with hle | hle
        · rw [min_eq_left hle]
        · rw [min_eq_right hle,drop_length,drop_of_length_le hle]
      rw [dif_pos h,fixedPieces_of_ne_nil hpos hne,hrest,← hpiece]
      show (_ >>= _) = (_ >>= _)
      congr 1
      funext chunkHash
      exact ih _ (by omega) _ _ rfl
    · have hnil : raw.drop offset = [] := drop_of_length_le (by omega)
      rw [dif_neg h,hnil,fixedPieces_nil]
      rfl

end Fixed

/-! The pieces: all of the bytes, none empty, and each but the last within the bounds. -/

section Bounds

/-- The pieces make up the bytes, none is empty, and each but the last has a length like this. -/
structure CutInto (raw : Bytes) (pieces : List Bytes) (Bounded : ℕ → Prop) : Prop where
  whole : pieces.flatten = raw
  nonempty : [] ∉ pieces
  bounded : ∀ piece ∈ pieces.dropLast, Bounded piece.length

variable {Bounded : ℕ → Prop}

theorem cutInto_nil : CutInto [] [] Bounded := ⟨rfl,by simp,by simp⟩

/-- One piece off the front, in bounds if something is left. -/
theorem CutInto.cons {raw : Bytes} {n : ℕ} {pieces : List Bytes} (hraw : raw ≠ []) (hn : 0 < n)
    (hrest : CutInto (raw.drop n) pieces Bounded)
    (hbounded : raw.drop n ≠ [] → Bounded (raw.take n).length) :
    CutInto raw (raw.take n::pieces) Bounded := by
  refine ⟨?_,?_,?_⟩
  · rw [flatten_cons,hrest.whole,take_append_drop]
  · have hpiece : raw.take n ≠ [] := by
      rw [Ne,take_eq_nil_iff]
      rintro (rfl | rfl)
      · exact hn.ne rfl
      · exact hraw rfl
    intro hmem
    rcases mem_cons.mp hmem with hnil | hmem
    · exact hpiece hnil.symm
    · exact hrest.nonempty hmem
  · intro piece hpiece
    cases pieces with
    | nil =>
      simp at hpiece
    | cons next later =>
      rw [dropLast_cons_cons] at hpiece
      rcases mem_cons.mp hpiece with rfl | hpiece
      · apply hbounded
        rw [← hrest.whole]
        intro hnil
        have hnext : next = [] := by
          rw [flatten_cons,append_eq_nil_iff] at hnil
          exact hnil.1
        exact hrest.nonempty (hnext ▸ mem_cons_self)
      · exact hrest.bounded piece hpiece

theorem cutInto_fixedPieces {chunkSize : ℕ} (hpos : 0 < chunkSize) (raw : Bytes) :
    CutInto raw (fixedPieces raw hpos) (· = chunkSize) := by
  induction hn : raw.length using Nat.strong_induction_on generalizing raw with
  | _ n ih =>
    by_cases h : raw = []
    · rw [h,fixedPieces_nil]
      exact cutInto_nil
    · have hlen := length_pos_iff.mpr h
      rw [fixedPieces_of_ne_nil hpos h]
      refine .cons h hpos (ih _ ?_ _ rfl) fun hleft => ?_
      · rw [length_drop]
        omega
      · have hmore := length_pos_iff.mpr hleft
        rw [length_drop] at hmore
        rw [length_take]
        omega

/-- Longer than the least size, no longer than the greatest. -/
theorem cutInto_pieces (gear : UInt8 → UInt64) (params : CdcParams) (raw : Bytes) :
    CutInto raw (pieces gear params raw) fun n => params.minSize < n ∧ n ≤ params.maxSize := by
  induction hn : raw.length using Nat.strong_induction_on generalizing raw with
  | _ n ih =>
    by_cases h : raw = []
    · rw [h,pieces_nil]
      exact cutInto_nil
    · have hlen := length_pos_iff.mpr h
      have hend := pieceEnd_bounds gear params raw hlen
      rw [pieces_of_ne_nil gear params h]
      refine .cons h hend.1 (ih _ ?_ _ rfl) fun hleft => ?_
      · exact hn ▸ length_drop_pieceEnd_lt gear params h
      · have hmore := length_pos_iff.mpr hleft
        rw [length_drop] at hmore
        have hlong : ¬raw.length-0 ≤ params.minSize := by
          intro hshort
          have hall : pieceEnd gear params raw 0 = 0+(raw.length-0) := by
            unfold pieceEnd
            exact if_pos hshort
          omega
        have hcut : pieceEnd gear params raw 0 = findBoundary gear raw 0 params := by
          unfold pieceEnd
          exact if_neg hlong
        have hb := findBoundary_bounds gear params raw 0 (by omega)
        rw [length_take,hcut]
        omega

end Bounds

/-! What both chunkers leave in the store. -/

section Lossless

variable {X : Platform} {s s' : ContentStore}

theorem putNew_runs (hX : X.FormatAllocated) {entityType : Str} (htype : entityType ≠ [])
    (hpeer : entityType ≠ typePeer) (entries : List (Value × Value)) (s : ContentStore) :
    ∃ hash s', putNew X entityType (toEcf (.map entries)) s = (.ok hash,s') := by
  obtain ⟨e,he⟩ := Entity.new_ok hX htype hpeer (toEcf_map_ne_nil entries)
  exact ⟨e.contentHash,s.put e,by rw [putNew,he]⟩

theorem storePieces_runs (hX : X.FormatAllocated) (pieces : List Bytes) (chunks : List Hash)
    (s : ContentStore) : ∃ out s', storePieces X pieces chunks s = (.ok out,s') := by
  induction pieces generalizing chunks s with
  | nil => exact ⟨chunks,s,rfl⟩
  | cons piece pieces ih =>
    obtain ⟨hash,s₁,hput⟩ := putNew_runs hX (show typeContentChunk ≠ [] by decide)
      (by decide) [field "payload" (.bytes piece)] s
    obtain ⟨out,s',hrest⟩ := ih (chunks++[hash]) s₁
    exact ⟨out,s',Action.bind_eq_ok.mpr ⟨hash,s₁,hput,hrest⟩⟩

theorem chunkPayload_stored (hs : s.Readable X) {piece : Bytes} {hash : Hash}
    (h : ChunkStored s piece hash) : chunkPayload X s hash = .ok piece := by
  obtain ⟨e,he,rfl,hdata⟩ := h
  simp [chunkPayload,hs.returns e he,okOr,chunkPayloadBytes_stored hs he hdata,mapErr,bind,
    Except.bind]

/-- The pieces are stored, then a blob that lists them. -/
def storeAll (X : Platform) (raw : Bytes) (chunkSize chunking : ℕ) (pieces : List Bytes) :
    Action ContentStore ChunkerError Hash := do
  let chunks ← storePieces X pieces []
  putBlob X raw.length chunkSize chunking chunks

theorem storeAll_runs (hX : X.FormatAllocated) (raw : Bytes) (chunkSize chunking : ℕ)
    (pieces : List Bytes) (s : ContentStore) :
    ∃ hash s', storeAll X raw chunkSize chunking pieces s = (.ok hash,s') := by
  obtain ⟨chunks,s₁,hchunks⟩ := storePieces_runs hX pieces [] s
  obtain ⟨hash,s',hblob⟩ := putNew_runs hX (show typeContentBlob ≠ [] by decide) (by decide)
    [field "total_size" (uinteger raw.length),field "chunk_size" (uinteger chunkSize),
      field "chunking" (uinteger chunking),field "chunks" (.array (chunks.map hashVal))] s₁
  exact ⟨hash,s',Action.bind_eq_ok.mpr ⟨chunks,s₁,hchunks,hblob⟩⟩

theorem storeAll_lists {raw : Bytes} (hraw : raw.length < 2^63) {chunkSize chunking : ℕ}
    {pieces : List Bytes} {hash : Hash}
    (h : storeAll X raw chunkSize chunking pieces s = (.ok hash,s')) (hs : s'.Readable X) :
    ListsChunks X s' hash raw.length pieces := by
  obtain ⟨chunks,s₁,hchunks,hblob⟩ := Action.bind_eq_ok.mp h
  obtain ⟨-,new,hnew,hall⟩ := storePieces_ok hchunks
  rw [nil_append] at hnew
  subst hnew
  obtain ⟨e,htype,hdata,rfl,rfl⟩ := putNew_ok hblob
  have hgrow : s₁ ≤ s₁.put e := suffix_cons e s₁.puts
  have hdecode := decodeBlobEntity_stored hs mem_cons_self htype hdata
  rw [Nat.mod_eq_of_lt (by omega)] at hdecode
  refine ⟨chunks,?_,hall.imp fun piece hash hone => chunkPayload_stored hs (hone.mono hgrow)⟩
  simp only [decodeBlob,hs.returns e mem_cons_self,okOr,bind,Except.bind,hdecode]

/-- The bytes went into the store as these pieces, and come out of it again. -/
structure StoredAs (X : Platform) (store : ContentStore) (blobHash : Hash) (raw : Bytes)
    (pieces : List Bytes) : Prop where
  listed : ListsChunks X store blobHash raw.length pieces
  verified : verifyContent X store blobHash = .ok ()
  back : (reassembleInto X store blobHash).outcome = .ok (.ok raw)

theorem CutInto.storedAs {Bounded : ℕ → Prop} {raw : Bytes} {pieces : List Bytes} {hash : Hash}
    (hcut : CutInto raw pieces Bounded) (hraw : raw.length < 2^63)
    (hlists : ListsChunks X s hash raw.length pieces) : StoredAs X s hash raw pieces := by
  refine ⟨hlists,hlists.verify_iff.mpr ⟨hcut.nonempty,?_⟩,?_⟩
  · rw [hcut.whole]
    omega
  · rw [reassembleInto_outcome,hlists.reassemble,hcut.whole]
    intro totalSize hashes hblob
    obtain ⟨hashes',hblob',-⟩ := hlists
    rw [hblob] at hblob'
    have hsize : totalSize = raw.length := congrArg Prod.fst (Except.ok.inj hblob')
    omega

theorem createBlobFixed_eq (raw : Bytes) {size : UInt64} (hsize : 0 < size.toNat) :
    createBlobFixed X raw size =
      storeAll X raw size.toNat contentChunkingFixed (fixedPieces raw hsize) := by
  unfold createBlobFixed
  rw [dif_neg (by omega),fixedChunksFrom_eq,drop_zero]
  rfl

theorem createBlobFastcdc_eq (gear : UInt8 → UInt64) (raw : Bytes) {size : UInt64}
    {params : CdcParams} (hparams : CdcParams.fromTarget size = .ok params) :
    createBlobFastcdc X gear raw size =
      storeAll X raw size.toNat contentChunkingFastcdc (pieces gear params raw) := by
  unfold createBlobFastcdc
  rw [hparams]
  show (do
    let chunks ← chunksFrom X gear params raw 0 []
    putBlob X raw.length size.toNat contentChunkingFastcdc chunks) = _
  rw [chunksFrom_eq,drop_zero]
  rfl

variable (X s)

/-- Every byte string a slice can hold, with every size: both chunkers come to an end, and what
they store is the byte string in pieces within their bounds. -/
theorem chunkers_lossless (hX : X.FormatAllocated) (gear : UInt8 → UInt64) {raw : Bytes}
    (hraw : raw.length < 2^63) {size : UInt64} (hsize : 0 < size.toNat) :
    (∃ hash s', createBlobFixed X raw size s = (.ok hash,s') ∧ (s'.Readable X → ∃ pieces,
      StoredAs X s' hash raw pieces ∧ CutInto raw pieces (· = size.toNat))) ∧
    ∃ hash s', createBlobFastcdc X gear raw size s = (.ok hash,s') ∧ (s'.Readable X → ∃ pieces,
      StoredAs X s' hash raw pieces ∧
      CutInto raw pieces fun n => size.toNat < 4*n ∧ n ≤ 2*size.toNat) := by
  constructor
  · obtain ⟨hash,s',hrun⟩ := storeAll_runs hX raw size.toNat contentChunkingFixed
      (fixedPieces raw hsize) s
    have hcut := cutInto_fixedPieces hsize raw
    refine ⟨hash,s',?_,fun hs => ⟨_,?_,hcut⟩⟩
    · rw [createBlobFixed_eq raw hsize]
      exact hrun
    · exact hcut.storedAs hraw (storeAll_lists hraw hrun hs)
  · obtain ⟨params,hparams,hmin,hmax⟩ : ∃ params, CdcParams.fromTarget size = .ok params ∧
        params.minSize = size.toNat/4 ∧ params.maxSize ≤ 2*size.toNat := by
      unfold CdcParams.fromTarget
      rw [dif_neg (by omega)]
      exact ⟨_,rfl,rfl,by show min _ _ ≤ _; omega⟩
    obtain ⟨hash,s',hrun⟩ := storeAll_runs hX raw size.toNat contentChunkingFastcdc
      (pieces gear params raw) s
    have hcut := cutInto_pieces gear params raw
    refine ⟨hash,s',?_,fun hs => ⟨_,?_,⟨hcut.whole,hcut.nonempty,?_⟩⟩⟩
    · rw [createBlobFastcdc_eq gear raw hparams]
      exact hrun
    · exact hcut.storedAs hraw (storeAll_lists hraw hrun hs)
    · intro piece hpiece
      have hb := hcut.bounded piece hpiece
      omega

end Lossless

namespace PieceSample

open Sample

def chunk : Entity := entity "system/content/chunk" (chunkValue [7]) 1

def blob (chunking : ℕ) : Entity :=
  entity "system/content/blob" (blobValue 1 1 chunking [chunk.contentHash]) (2+chunking)

def documents : List Value := [chunkValue [7],blobValue 1 1 0 [chunk.contentHash],
  blobValue 1 1 1 [chunk.contentHash]]

def crates : Platform := platform documents
  ([chunk,blob 0,blob 1].zipIdx.map fun e => (ecfForHash e.1.entityType e.1.data,e.2+1)) []

def gear : UInt8 → UInt64 := fun _ => 0

def filled (chunking : ℕ) : ContentStore := ⟨[blob chunking,chunk]⟩

theorem filled_readable : (filled 0).Readable crates ∧ (filled 1).Readable crates := by
  have hregular : ∀ v ∈ documents, Regular v := by
    simp only [documents,forall_mem_cons]
    exact ⟨regular_chunkValue _,regular_blobValue _ _ _ _,regular_blobValue _ _ _ _,by simp⟩
  constructor
  · exact readable_of_documents (by decide +kernel) (by decide +kernel) (by decide +kernel) hregular
  · exact readable_of_documents (by decide +kernel) (by decide +kernel) (by decide +kernel) hregular

theorem storeAll_one {chunking : ℕ} (h : chunking = 0 ∨ chunking = 1) :
    storeAll crates [7] 1 chunking [[7]] ⟨[]⟩ =
      (.ok (blob chunking).contentHash,filled chunking) := by
  rcases h with rfl | rfl
  · exact Prod.ext (by decide +kernel) (congrArg ContentStore.mk
      (show (storeAll crates [7] 1 0 [[7]] ⟨[]⟩).2.puts = [blob 0,chunk] by decide +kernel))
  · exact Prod.ext (by decide +kernel) (congrArg ContentStore.mk
      (show (storeAll crates [7] 1 1 [[7]] ⟨[]⟩).2.puts = [blob 1,chunk] by decide +kernel))

/-- One byte, one chunk. -/
theorem chunkers_lossless_sample :
    (∃ hash, createBlobFixed crates [7] 1 ⟨[]⟩ = (.ok hash,filled 0) ∧ ∃ pieces,
      StoredAs crates (filled 0) hash [7] pieces ∧ CutInto [7] pieces (· = 1)) ∧
    ∃ hash, createBlobFastcdc crates gear [7] 1 ⟨[]⟩ = (.ok hash,filled 1) ∧ ∃ pieces,
      StoredAs crates (filled 1) hash [7] pieces ∧
      CutInto [7] pieces fun n => 1 < 4*n ∧ n ≤ 2*1 := by
  have hX : crates.FormatAllocated := by decide
  have hfixed : createBlobFixed crates [7] 1 ⟨[]⟩ = (.ok (blob 0).contentHash,filled 0) := by
    have hpieces : @fixedPieces [7] 1 (by decide) = [[7]] := by
      rw [fixedPieces_of_ne_nil _ (by decide)]
      exact congrArg _ (fixedPieces_nil _)
    rw [createBlobFixed_eq [7] (by decide)]
    show storeAll crates [7] 1 contentChunkingFixed (@fixedPieces [7] 1 _) ⟨[]⟩ = _
    rw [hpieces]
    exact storeAll_one (.inl rfl)
  have hcdc : createBlobFastcdc crates gear [7] 1 ⟨[]⟩ = (.ok (blob 1).contentHash,filled 1) := by
    obtain ⟨params,hparams,hmin⟩ : ∃ params, CdcParams.fromTarget 1 = .ok params ∧
        params.minSize < 1 := ⟨_,rfl,by decide⟩
    have hend := pieceEnd_bounds gear params [7] (show 0 < ([7] : Bytes).length by decide)
    have hone : pieceEnd gear params [7] 0 = 1 := Nat.le_antisymm hend.2 hend.1
    rw [createBlobFastcdc_eq gear [7] hparams,pieces_of_ne_nil _ _ (by decide),hone]
    show storeAll crates [7] 1 contentChunkingFastcdc ([7]::pieces gear params []) ⟨[]⟩ = _
    rw [pieces_nil]
    exact storeAll_one (.inr rfl)
  obtain ⟨⟨hash,s',hrun,hstored⟩,hash',s'',hrun',hstored'⟩ :=
    @chunkers_lossless crates ⟨[]⟩ hX gear [7] (by decide) 1 (by decide)
  cases hfixed.symm.trans hrun
  cases hcdc.symm.trans hrun'
  exact ⟨⟨_,hrun,hstored filled_readable.1⟩,_,hrun',hstored' filled_readable.2⟩

end PieceSample

end EntityCore
