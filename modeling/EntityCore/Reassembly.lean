import EntityCore.Chunking
import EntityCore.Documents

/-! Reading blobs back: the chunks a blob lists, and the content they make up. -/
namespace EntityCore

open Ecf Outcome

/-- The value under a key, of a map. -/
def Ecf.Value.lookup (v : Value) (key : String) : Option Value :=
  v.asMap.bind fun map => getField map key

inductive VerifyError where
  | blobMissing (hash : Hash)
  | notABlob
  | badBlob (text : String)
  | chunkMissing (hash : Hash)
  | emptyChunk (hash : Hash)
  | sizeMismatch (declared actual : ℕ)
  deriving DecidableEq

def VerifyError.display : VerifyError → String
  | .blobMissing hash => "blob not in content store: "++HashError.displayHash hash
  | .notABlob => "entity is not a system/content/blob"
  | .badBlob text => "blob decode failed: "++text
  | .chunkMissing hash => "chunk missing: "++HashError.displayHash hash
  | .emptyChunk hash => "chunk has empty payload: "++HashError.displayHash hash
  | .sizeMismatch declared actual => "total size mismatch — blob declares "++toString declared++
      ", actual "++toString actual

def decodeHashRecord (value : Value) : Except String Hash := do
  let bytes ← okOr value.asBytes "hash entry not a bstr"
  mapErr HashError.display (Hash.fromBytes bytes)

section Verify

variable (X : Platform)

def blobChunkSize (blob : Entity) : Except VerifyError ℕ :=
  if blob.entityType ≠ typeContentBlob then .error .notABlob
  else do
    let v ← mapErr (fun e => .badBlob ("cbor: "++e)) (X.fromReader blob.data)
    okOr ((v.lookup "chunk_size").bind (·.asU64)) (.badBlob "missing chunk_size")

def decodeBlobEntity (blob : Entity) : Except VerifyError (ℕ × List Hash) :=
  if blob.entityType ≠ typeContentBlob then .error .notABlob
  else do
    let v ← mapErr (fun e => .badBlob ("cbor: "++e)) (X.fromReader blob.data)
    let totalSize ← okOr ((v.lookup "total_size").bind (·.asU64)) (.badBlob "missing total_size")
    let chunks ← okOr ((v.lookup "chunks").bind (·.asArray)) (.badBlob "missing chunks")
    let hashes ← chunks.mapM fun entry => mapErr .badBlob (decodeHashRecord entry)
    return (totalSize,hashes)

def decodeBlob (store : ContentStore) (blobHash : Hash) : Except VerifyError (ℕ × List Hash) := do
  let blob ← okOr (store.get blobHash) (.blobMissing blobHash)
  decodeBlobEntity X blob

def chunkPayloadBytes (chunk : Entity) : Except String Bytes := do
  let v ← mapErr ("cbor: "++·) (X.fromReader chunk.data)
  return ((v.lookup "payload").bind (·.asBytes)).getD []

def chunkPayload (store : ContentStore) (chunkHash : Hash) : Except VerifyError Bytes := do
  let chunk ← okOr (store.get chunkHash) (.chunkMissing chunkHash)
  mapErr (fun e => .badBlob ("chunk decode: "++e)) (chunkPayloadBytes X chunk)

def reassemble (store : ContentStore) (blobHash : Hash) : Except VerifyError Bytes := do
  let (_,hashes) ← decodeBlob X store blobHash
  hashes.foldlM (fun out hash => do return out++(← chunkPayload X store hash)) []

/-- What goes to the writer, one chunk at a time. -/
def reassembleStream (store : ContentStore) (blobHash : Hash) : Except VerifyError (List Bytes) := do
  let (_,hashes) ← decodeBlob X store blobHash
  hashes.mapM (chunkPayload X store)

theorem foldlM_append (f : Hash → Except VerifyError Bytes) (hashes : List Hash) (out : Bytes) :
    (hashes.foldlM (fun out hash => do return out++(← f hash)) out : Except VerifyError Bytes) =
      (hashes.mapM f).map fun writes => out++writes.flatten := by
  induction hashes generalizing out with
  | nil => simp [pure,Except.pure,Except.map]
  | cons hash hashes ih =>
    rw [List.foldlM_cons,List.mapM_cons]
    cases hf : f hash with
    | error e => rfl
    | ok piece =>
      have hrest := ih (out++piece)
      simp only [bind,Except.bind,pure,Except.pure] at hrest ⊢
      rw [hrest]
      cases hashes.mapM f with
      | error e => rfl
      | ok writes => simp [Except.map]

/-- The writer gets the bytes that are put together in memory. -/
theorem reassembleStream_flatten (store : ContentStore) (blobHash : Hash) :
    (reassembleStream X store blobHash).map List.flatten = reassemble X store blobHash := by
  unfold reassembleStream reassemble
  cases decodeBlob X store blobHash with
  | error e => rfl
  | ok blob =>
    have hfold := foldlM_append (chunkPayload X store) blob.2 []
    simp only [List.nil_append] at hfold
    exact hfold.symm

end Verify

/-! What was stored is read back. -/

section RoundTrip

variable {X : Platform}

theorem lookup_same {v : Value} {m : List (Value × Value)} (h : Same v (.map m))
    (hn : (m.map fun kv => kv.1.asText).Nodup) {k : String} {w : Value}
    (hw : getField m k = some w) : ∃ u, v.lookup k = some u ∧ Same u w := by
  cases v with
  | map m' =>
    have hrel := getField_rel h hn k
    rw [hw] at hrel
    cases hr : getField m' k with
    | none =>
      rw [hr] at hrel
      cases hrel
    | some u =>
      rw [hr] at hrel
      cases hrel with
      | some huw => exact ⟨u,hr,huw⟩
  | _ => cases h

theorem mapM_hashRecords {entries : List Value} {hashes : List Hash}
    (h : List.Forall₂ Same entries (hashes.map hashVal)) :
    (entries.mapM fun entry => mapErr VerifyError.badBlob (decodeHashRecord entry)) =
      .ok hashes := by
  induction hashes generalizing entries with
  | nil =>
    cases h
    rfl
  | cons hash hashes ih =>
    cases h with
    | @cons entry _ entries _ hentry hentries =>
      have hdecode : decodeHashRecord entry = .ok hash := by
        cases hentry
        simp [decodeHashRecord,Value.asBytes,okOr,Hash.fromBytes_toBytes,mapErr,bind,Except.bind]
      rw [List.mapM_cons,hdecode,ih hentries]
      rfl

theorem regular_chunkValue (payload : Bytes) : Regular (chunkValue payload) :=
  presentFields_regular (l := [("payload",some (.bytes payload))]) (by simp) (by
    simpa using Regular.bytes payload)

theorem regular_blobValue (totalSize chunkSize chunking : ℕ) (chunks : List Hash) :
    Regular (blobValue totalSize chunkSize chunking chunks) := by
  have harray : Regular (.array (chunks.map hashVal)) := by
    apply Regular.array
    intro v hv
    obtain ⟨h,-,rfl⟩ := List.mem_map.mp hv
    exact .bytes _
  apply presentFields_regular (l := [("total_size",some (uinteger totalSize)),
    ("chunk_size",some (uinteger chunkSize)),("chunking",some (uinteger chunking)),
    ("chunks",some (.array (chunks.map hashVal)))]) (by simp)
  simp only [List.forall_mem_cons,Option.some.injEq,forall_eq']
  exact ⟨.integer _,.integer _,.integer _,harray,by simp⟩

variable {s : ContentStore}

theorem chunkPayloadBytes_stored (hs : s.Readable X) {e : Entity} (he : e ∈ s.puts)
    {payload : Bytes} (hdata : e.data = toEcf (chunkValue payload)) :
    chunkPayloadBytes X e = .ok payload := by
  obtain ⟨v,hread,hsame⟩ := hs.read he (regular_chunkValue payload) hdata
  have hfield : getField [field "payload" (.bytes payload)] "payload" = some (.bytes payload) := by
    simp [getField,field,Value.asText]
  obtain ⟨u,hu,hbytes⟩ := lookup_same hsame (by simp) hfield
  cases hbytes
  simp [chunkPayloadBytes,hread,mapErr,hu,Value.asBytes,bind,Except.bind,pure,Except.pure]

theorem Ecf.Same.asU64_eq {v w : Value} (h : Same v w) : v.asU64 = w.asU64 := by
  cases h <;> rfl

theorem decodeBlobEntity_stored (hs : s.Readable X) {e : Entity} (he : e ∈ s.puts)
    (htype : e.entityType = typeContentBlob) {totalSize chunkSize chunking : ℕ} {chunks : List Hash}
    (hdata : e.data = toEcf (blobValue totalSize chunkSize chunking chunks)) :
    decodeBlobEntity X e = .ok (totalSize%2^64,chunks) := by
  obtain ⟨v,hread,hsame⟩ :=
    hs.read he (regular_blobValue totalSize chunkSize chunking chunks) hdata
  have hn : (([field "total_size" (uinteger totalSize),field "chunk_size" (uinteger chunkSize),
      field "chunking" (uinteger chunking),field "chunks" (.array (chunks.map hashVal))]).map
        fun kv => kv.1.asText).Nodup := by
    simp [field,Value.asText]
  have hsizeField : getField [field "total_size" (uinteger totalSize),
      field "chunk_size" (uinteger chunkSize),field "chunking" (uinteger chunking),
      field "chunks" (.array (chunks.map hashVal))] "total_size" = some (uinteger totalSize) := by
    simp [getField,field,Value.asText]
  have hchunksField : getField [field "total_size" (uinteger totalSize),
      field "chunk_size" (uinteger chunkSize),field "chunking" (uinteger chunking),
      field "chunks" (.array (chunks.map hashVal))] "chunks" =
        some (.array (chunks.map hashVal)) := by
    simp [getField,field,Value.asText]
  obtain ⟨size,hsize,hsizeSame⟩ := lookup_same hsame hn hsizeField
  obtain ⟨listed,hlisted,hlistedSame⟩ := lookup_same hsame hn hchunksField
  have hu64 : size.asU64 = some (totalSize%2^64) :=
    hsizeSame.asU64_eq.trans (asU64_uinteger totalSize)
  cases hlistedSame with
  | @array entries _ hentries =>
    have hmapM := mapM_hashRecords hentries
    simp only [decodeBlobEntity,htype,ne_eq,not_true,if_false,hread,mapErr,hsize,hlisted,
      Option.bind_some,hu64,okOr,Value.asArray,bind,Except.bind,pure,Except.pure] at hmapM ⊢
    rw [hmapM]

/-- A put that succeeds has made its entity and stored it. -/
theorem putNew_ok {entityType : Str} {data : Bytes} {hash : Hash} {s' : ContentStore}
    (h : putNew X entityType data s = (.ok hash,s')) :
    ∃ e, e.entityType = entityType ∧ e.data = data ∧ e.contentHash = hash ∧ s' = s.put e := by
  unfold putNew at h
  cases he : Entity.new X entityType data with
  | error err => simp [he] at h
  | ok e =>
    obtain ⟨htype,hdata,-⟩ := Entity.newWithFormat_ok X he
    simp only [he,Prod.mk.injEq,Except.ok.injEq] at h
    exact ⟨e,htype,hdata,h.1,h.2.symm⟩

/-- The chunk of a piece is in the store. -/
def ChunkStored (s : ContentStore) (piece : Bytes) (hash : Hash) : Prop :=
  ∃ e ∈ s.puts, e.contentHash = hash ∧ e.data = toEcf (chunkValue piece)

theorem ChunkStored.mono {s' : ContentStore} (hle : s ≤ s') {piece : Bytes} {hash : Hash}
    (h : ChunkStored s piece hash) : ChunkStored s' piece hash := by
  obtain ⟨e,he,hrest⟩ := h
  exact ⟨e,List.IsSuffix.mem he hle,hrest⟩

theorem storePieces_ok {pieces : List Bytes} {chunks out : List Hash} {s' : ContentStore}
    (h : storePieces X pieces chunks s = (.ok out,s')) :
    s ≤ s' ∧ ∃ new, out = chunks++new ∧ List.Forall₂ (ChunkStored s') pieces new := by
  induction pieces generalizing chunks s with
  | nil =>
    cases (show (Except.ok chunks,s) = (.ok out,s') from h)
    exact ⟨le_rfl,[],by simp,.nil⟩
  | cons piece pieces ih =>
    rw [storePieces,Action.bind_eq_ok] at h
    obtain ⟨hash,s₁,hput,hrest⟩ := h
    obtain ⟨e,-,hdata,hhash,rfl⟩ := putNew_ok hput
    obtain ⟨hle,new,hout,hall⟩ := ih hrest
    have hone : ChunkStored (s.put e) piece hash := ⟨e,List.mem_cons_self,hhash,hdata⟩
    refine ⟨(List.suffix_cons e s.puts).trans hle,hash::new,?_,.cons (hone.mono hle) hall⟩
    rw [hout,List.append_assoc]
    rfl

theorem foldlM_payloads (hs : s.Readable X) {pieces : List Bytes} {hashes : List Hash}
    (h : List.Forall₂ (ChunkStored s) pieces hashes) (out : Bytes) :
    (hashes.foldlM (fun out hash => do return out++(← chunkPayload X s hash)) out :
      Except VerifyError Bytes) = .ok (out++pieces.flatten) := by
  induction h generalizing out with
  | nil =>
    rw [List.flatten_nil,List.append_nil]
    rfl
  | @cons piece hash pieces hashes hone _ ih =>
    obtain ⟨e,he,hhash,hdata⟩ := hone
    have hget := hs.returns e he
    rw [hhash] at hget
    have hpayload : chunkPayload X s hash = .ok piece := by
      simp [chunkPayload,hget,okOr,chunkPayloadBytes_stored hs he hdata,mapErr,bind,Except.bind]
    rw [List.foldlM_cons,hpayload,List.flatten_cons,← List.append_assoc]
    exact ih _

/-- A blob that was made of a byte string is put together to it again. -/
theorem reassemble_createBlob {gear : UInt8 → UInt64} {raw : Bytes} {targetSize : UInt64}
    {hash : Hash} {s' : ContentStore}
    (h : createBlobFastcdc X gear raw targetSize s = (.ok hash,s')) (hs : s'.Readable X) :
    s ≤ s' ∧ reassemble X s' hash = .ok raw := by
  unfold createBlobFastcdc at h
  rw [Action.bind_eq_ok] at h
  obtain ⟨params,s₀,hparams,h⟩ := h
  obtain ⟨-,rfl⟩ := Action.reading_eq_ok.mp hparams
  rw [Action.bind_eq_ok] at h
  obtain ⟨chunks,s₁,hchunks,hblob⟩ := h
  rw [chunksFrom_eq,List.drop_zero] at hchunks
  obtain ⟨hle,new,hnew,hall⟩ := storePieces_ok hchunks
  obtain ⟨e,htype,hdata,hhash,rfl⟩ := putNew_ok hblob
  rw [List.nil_append] at hnew
  subst hnew
  have hgrow : s₁ ≤ s₁.put e := List.suffix_cons e s₁.puts
  have hget := hs.returns e List.mem_cons_self
  rw [hhash] at hget
  have hdecode := decodeBlobEntity_stored hs List.mem_cons_self htype hdata
  have hpayloads := foldlM_payloads hs (hall.imp fun _ _ => ChunkStored.mono hgrow) []
  rw [List.nil_append,flatten_pieces] at hpayloads
  refine ⟨hle.trans hgrow,?_⟩
  simp only [reassemble,decodeBlob,hget,okOr,hdecode,bind,Except.bind] at hpayloads ⊢
  exact hpayloads

end RoundTrip

end EntityCore
