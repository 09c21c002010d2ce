import EntityCore.Reassembly

/-! Tree changes written to the disk. A change under a configured root becomes the file of its
path, unless one of three shortcuts says that there is nothing to write: the path was written a
moment ago, the cached blob of the file is the one that comes in, or the bytes on the disk are cut
into that very blob. -/
namespace EntityCore

open Ecf Outcome Strings EntityUri

/-! What the filesystem says about a file, and the cache of it. -/

structure Stat where
  dev : ℕ
  ino : ℕ
  mtimeNs : ℤ
  ctimeNs : ℤ
  size : ℕ
  modeBits : ℕ
  deriving DecidableEq

structure StatEntry where
  stat : Stat
  blobHash : Hash
  cacheWriteTimeNs : ℤ

/-- The components of a path. -/
abbrev FsPath := List Str

inductive ProbeResult where
  | hit (blobHash : Hash)
  | racyMiss
  | miss

abbrev StatCache := OrderedMap FsPath StatEntry

variable {w : ReverseWorld} {now : Readings} {hash : Hash} {bytes : Bytes} {path : FsPath}
  {event : TreeChangeEvent}

namespace StatCache

def probe (cache : StatCache) (path : FsPath) (fresh : Stat) : ProbeResult :=
  match cache.get path with
  | none => .miss
  | some entry =>
    if fresh ≠ entry.stat then .miss
    else if fresh.mtimeNs < entry.cacheWriteTimeNs then .hit entry.blobHash
    else .racyMiss

def record (cache : StatCache) (nowNs : ℤ) (path : FsPath) (fresh : Stat) (blobHash : Hash) :
    StatCache :=
  -- an entry as young as the file is smudged, and misses
  let stat := if fresh.mtimeNs ≥ nowNs then { fresh with size := 0 } else fresh
  cache.insert path ⟨stat,blobHash,nowNs⟩

theorem probe_hit {cache : StatCache} {fresh : Stat} {blobHash : Hash}
    (h : cache.probe path fresh = .hit blobHash) :
    ∃ entry, cache.get path = some entry ∧ entry.blobHash = blobHash := by
  unfold probe at h
  cases hc : cache.get path with
  | none => simp [hc] at h
  | some entry =>
    simp only [hc] at h
    split_ifs at h
    cases h
    exact ⟨entry,rfl,rfl⟩

theorem get_record (cache : StatCache) (nowNs : ℤ) (path : FsPath) (fresh : Stat)
    (blobHash : Hash) (p : FsPath) : ∃ stat, (cache.record nowNs path fresh blobHash).get p =
      if p = path then some ⟨stat,blobHash,nowNs⟩ else cache.get p := by
  refine ⟨if fresh.mtimeNs ≥ nowNs then { fresh with size := 0 } else fresh,?_⟩
  by_cases hp : p = path
  · simp [record,hp]
  · simp [record,hp]

end StatCache

/-! The paths written lately. -/

abbrev ReverseTracker := OrderedMap Str ℕ

def recentWriteWindow : ℕ := 5*10^9

namespace ReverseTracker

def isRecentlyWritten (written : ReverseTracker) (path : Str) (now : ℕ) : Bool × ReverseTracker :=
  match written.get path with
  | some instant =>
    if now-instant ≤ recentWriteWindow then (true,written) else (false,written.erase path)
  | none => (false,written)

end ReverseTracker

/-! Root mappings. -/

structure RootMapping where
  name : Str
  pathPrefix : Str
  fsRoot : FsPath
  readOnly : Bool

def findRootMapping (roots : List RootMapping) (bareTreePath : Str) : Option RootMapping :=
  roots.foldl (fun best m =>
    if startsWith bareTreePath m.pathPrefix &&
        best.all (fun b => (ByteCode.utf8 b.pathPrefix).length < (ByteCode.utf8 m.pathPrefix).length)
      then some m else best) none

/-- No segment leads up, and the path does not start over at the root. -/
def isSafeRelative (rel : Str) : Bool :=
  !startsWith rel ['/'] && (segments '/' rel).all (· ≠ "..".toList)

def resolveFsPathRelative (root : RootMapping) (relative : Str) : Except String FsPath :=
  if isSafeRelative relative then
    .ok (root.fsRoot++(segments '/' relative).filter fun c => c ≠ [] ∧ c ≠ ['.'])
  else .error ("path traversal rejected: "++String.ofList relative)

/-! The files. -/

def typeFile : Str := "local/files/file".toList

structure FileData where
  path : Str
  size : ℕ
  modifiedAt : Option ℕ
  content : Hash
  mediaType : Option Str
  written : Bool
  deriving DecidableEq

structure DiskFile where
  bytes : Bytes
  stat : Stat

structure ReverseWorld where
  store : ContentStore
  disk : OrderedMap FsPath DiskFile
  statCache : StatCache
  tracker : ReverseTracker

/-- What the clocks and the filesystem say while an event is processed: the monotonic clock at
the check of the window and after a write, the wall clock when the cache is updated, and the
metadata of the file that is written. -/
structure Readings where
  checkedAt : ℕ
  writtenAt : ℕ
  recordedAt : ℤ
  stat : Stat

def defaultChunkSize : ℕ := 1024*1024

def streamingThreshold : ℕ := 64*1024*1024

section Reverse

variable (X : Platform) (gear : UInt8 → UInt64)

def decodeFileData (entity : Entity) : Except String FileData := do
  let v ← mapErr ("cbor: "++·) (X.fromReader entity.data)
  let content ← match v.lookup "content" with
    | some c => decodeHashRecord c
    | none => .ok Hash.zero
  return {
    path := ((v.lookup "path").bind (·.asText)).getD []
    size := ((v.lookup "size").bind (·.asU64)).getD 0
    modifiedAt := (v.lookup "modified_at").bind (·.asU64)
    content
    mediaType := (v.lookup "media_type").bind (·.asText)
    written := ((v.lookup "written").bind (·.asBool)).getD false }

/-- The blob of what is on the disk, cut as the blob that comes in. -/
def currentDiskBlobHash (raw : Bytes) (chunkSize : ℕ) : Action ContentStore ChunkerError Hash :=
  createBlobFastcdc X gear raw (UInt64.ofNat chunkSize)

/-- Whether the bytes of a file are cut into the blob; if they are, the cache learns it. -/
def rechunk (now : Readings) (fsPath : FsPath) (file : DiskFile) (content : Hash) (chunkSize : ℕ)
    (w : ReverseWorld) : Bool × ReverseWorld :=
  match currentDiskBlobHash X gear file.bytes chunkSize w.store with
  | (.ok currentHash,store) =>
    if currentHash = content then
      (true,{ w with
        store
        statCache := w.statCache.record now.recordedAt fsPath file.stat currentHash })
    else (false,{ w with store })
  | (.error _,store) => (false,{ w with store })

/-- Whether the file has the content already. -/
def circuitBreaker (now : Readings) (fsPath : FsPath) (content : Hash) (chunkSize : ℕ)
    (w : ReverseWorld) : Bool × ReverseWorld :=
  match w.disk.get fsPath with
  | none => (false,w)
  | some file => match w.statCache.probe fsPath file.stat with
    | .hit cached => (cached = content,w)
    | .miss | .racyMiss => rechunk X gear now fsPath file content chunkSize w

def blobBytes (store : ContentStore) (fileData : FileData) : Except String Bytes :=
  if fileData.size ≥ streamingThreshold then
    mapErr (fun e => "write (stream): "++VerifyError.display e)
      ((reassembleStream X store fileData.content).map List.flatten)
  else mapErr (fun e => "reassemble: "++e.display) (reassemble X store fileData.content)

def writeBlob (now : Readings) (fsPath : FsPath) (fileData : FileData) (barePath : Str) :
    Action ReverseWorld String Unit := fun w =>
  match blobBytes X w.store fileData with
  | .error e => (.error e,w)
  | .ok bytes => (.ok (),{ w with
      disk := w.disk.insert fsPath ⟨bytes,now.stat⟩
      tracker := w.tracker.insert barePath now.writtenAt
      statCache := w.statCache.record now.recordedAt fsPath now.stat fileData.content })

def incomingChunkSize (incomingBlob : Entity) : ℕ :=
  match blobChunkSize X incomingBlob with
  | .ok size => size
  | .error _ => defaultChunkSize

def reverseWriteFile (now : Readings) (fsPath : FsPath) (fileEntityHash : Hash) (barePath : Str) :
    Action ReverseWorld String Unit := fun w =>
  match w.store.get fileEntityHash with
  | none => (.ok (),w)
  | some entity =>
    if entity.entityType ≠ typeFile then (.ok (),w)
    else match decodeFileData X entity with
      | .error e => (.error e,w)
      | .ok fileData =>
        if fileData.content.isZero then (.ok (),w)
        else match w.store.get fileData.content with
          -- the blob has not come yet
          | none => (.ok (),w)
          | some incomingBlob =>
            let (same,w) := circuitBreaker X gear now fsPath fileData.content
              (incomingChunkSize X incomingBlob) w
            if same then (.ok (),w) else writeBlob X now fsPath fileData barePath w

variable (roots : List RootMapping)

def processEvent (evt : TreeChangeEvent) (now : Readings) : Action ReverseWorld String Unit :=
  fun w =>
    let bare := EntityUri.stripPeerPrefix evt.path
    if startsWith bare "system/".toList then (.ok (),w)
    else match findRootMapping roots bare with
      | none => (.ok (),w)
      | some root =>
        if root.readOnly then (.ok (),w)
        else
          let (recent,tracker) := w.tracker.isRecentlyWritten bare now.checkedAt
          let w := { w with tracker }
          if recent then (.ok (),w)
          else match stripPrefix bare root.pathPrefix with
            | none => (.error "prefix mismatch",w)
            | some relative => match resolveFsPathRelative root relative with
              | .error _ => (.ok (),w)
              | .ok fsPath => match evt.changeType with
                | .deleted => (.ok (),{ w with
                    disk := w.disk.erase fsPath
                    statCache := w.statCache.erase fsPath })
                | .created | .modified => reverseWriteFile X gear now fsPath evt.hash bare w

/-- An event, what the clocks say at it, and the entities that have come in before it. -/
structure ReverseStep where
  event : TreeChangeEvent
  now : Readings
  arrived : List Entity

def ReverseWorld.receive (w : ReverseWorld) (entities : List Entity) : ReverseWorld :=
  { w with store := entities.foldl ContentStore.put w.store }

def reverseStep (w : ReverseWorld) (step : ReverseStep) : ReverseWorld :=
  (processEvent X gear roots step.event step.now (w.receive step.arrived)).2

def reverseRun (w : ReverseWorld) (steps : List ReverseStep) : ReverseWorld :=
  steps.foldl (reverseStep X gear roots) w

end Reverse

/-! Blobs stay whole while the store grows. -/

section Growth

variable {X : Platform} {s s' t : ContentStore}

theorem ContentStore.Readable.of_le (ht : t.Readable X) (hle : s ≤ t) : s.Readable X := by
  refine ⟨fun e he => ?_,fun e he => ht.sized e (List.IsSuffix.mem he hle),
    fun e he => ht.decodes e (List.IsSuffix.mem he hle)⟩
  have het := ht.returns e (List.IsSuffix.mem he hle)
  cases hg : s.get e.contentHash with
  | none =>
    have hn := List.find?_eq_none.mp hg e he
    simp at hn
  | some x =>
    have hx := ContentStore.get_grows ht.returns hle le_rfl hg
    rw [hx] at het
    rw [Option.some.inj het]

theorem decodeBlob_grows (ht : t.Readable X) (hle : s ≤ s') (hle' : s' ≤ t)
    {blob : ℕ × List Hash} (h : decodeBlob X s hash = .ok blob) :
    decodeBlob X s' hash = .ok blob := by
  rw [decodeBlob,bind_ok] at h ⊢
  obtain ⟨e,hget,hdecode⟩ := h
  rw [okOr_ok] at hget
  exact ⟨e,(okOr_ok _ _ _).mpr (ContentStore.get_grows ht.returns hle hle' hget),hdecode⟩

theorem blob_stored (h : reassemble X s hash = .ok bytes) : (s.get hash).isSome := by
  rw [reassemble,bind_ok] at h
  obtain ⟨blob,hblob,-⟩ := h
  rw [decodeBlob,bind_ok] at hblob
  obtain ⟨e,hget,-⟩ := hblob
  rw [okOr_ok] at hget
  rw [hget]
  rfl

theorem chunkPayload_grows (ht : t.Readable X) (hle : s ≤ s') (hle' : s' ≤ t)
    {payload : Bytes} (h : chunkPayload X s hash = .ok payload) :
    chunkPayload X s' hash = .ok payload := by
  rw [chunkPayload,bind_ok] at h ⊢
  obtain ⟨e,hget,hdecode⟩ := h
  rw [okOr_ok] at hget
  exact ⟨e,(okOr_ok _ _ _).mpr (ContentStore.get_grows ht.returns hle hle' hget),hdecode⟩

theorem foldlM_payloads_grows (ht : t.Readable X) (hle : s ≤ s') (hle' : s' ≤ t)
    (hashes : List Hash) (out : Bytes)
    (h : hashes.foldlM (fun out hash => do return out++(← chunkPayload X s hash)) out = .ok bytes) :
    hashes.foldlM (fun out hash => do return out++(← chunkPayload X s' hash)) out = .ok bytes := by
  induction hashes generalizing out with
  | nil => exact h
  | cons hash hashes ih =>
    rw [List.foldlM_cons,bind_ok] at h ⊢
    obtain ⟨next,hnext,hrest⟩ := h
    refine ⟨next,?_,ih next hrest⟩
    rw [bind_ok] at hnext ⊢
    obtain ⟨payload,hpayload,hout⟩ := hnext
    exact ⟨payload,chunkPayload_grows ht hle hle' hpayload,hout⟩

theorem reassemble_grows (ht : t.Readable X) (hle : s ≤ s') (hle' : s' ≤ t)
    (h : reassemble X s hash = .ok bytes) : reassemble X s' hash = .ok bytes := by
  rw [reassemble,bind_ok] at h ⊢
  obtain ⟨⟨total,hashes⟩,hblob,hfold⟩ := h
  exact ⟨(total,hashes),decodeBlob_grows ht hle hle' hblob,
    foldlM_payloads_grows ht hle hle' hashes [] hfold⟩

theorem grows_putNew (entityType : Str) (data : Bytes) :
    Action.Grows (putNew X entityType data) := by
  intro s
  unfold putNew
  cases Entity.new X entityType data with
  | error e => exact le_rfl
  | ok e => exact List.suffix_cons e s.puts

theorem grows_storePieces (pieces : List Bytes) (chunks : List Hash) :
    Action.Grows (storePieces X pieces chunks) := by
  induction pieces generalizing chunks with
  | nil => exact Action.grows_pure _
  | cons piece pieces ih => exact (grows_putNew _ _).bind fun hash => ih _

theorem grows_createBlobFastcdc (gear : UInt8 → UInt64) (raw : Bytes) (targetSize : UInt64) :
    Action.Grows (createBlobFastcdc X gear raw targetSize) := by
  apply Action.Grows.bind (Action.grows_lift _)
  intro params
  rw [chunksFrom_eq]
  exact (grows_storePieces _ _).bind fun chunks => grows_putNew _ _

end Growth

/-! What an event does. -/

namespace ReverseWorld

/-- What is at a path of the disk. -/
def contentAt (w : ReverseWorld) (path : FsPath) : Option Bytes := (w.disk.get path).map (·.bytes)

/-- The cached blob of a file on the disk is one of its bytes. -/
def CacheTruthful (X : Platform) (w : ReverseWorld) : Prop :=
  ∀ path entry file, w.statCache.get path = some entry → w.disk.get path = some file →
    reassemble X w.store entry.blobHash = .ok file.bytes

end ReverseWorld

/-- The file that a tree path is written to, if it is. -/
def mirroredPath (roots : List RootMapping) (bare : Str) : Option FsPath :=
  if startsWith bare "system/".toList then none
  else (findRootMapping roots bare).bind fun root =>
    if root.readOnly then none
    else (stripPrefix bare root.pathPrefix).bind fun relative =>
      (resolveFsPathRelative root relative).toOption

/-- What an event says is at its path now: nothing, or a file whose blob is complete. -/
inductive Reports (X : Platform) (s : ContentStore) (event : TreeChangeEvent) : Option Bytes → Prop
  | deletion (hchange : event.changeType = .deleted) : Reports X s event none
  | binding {entity : Entity} {fileData : FileData} {bytes : Bytes}
      (hchange : event.changeType ≠ .deleted) (hget : s.get event.hash = some entity)
      (htype : entity.entityType = typeFile) (hdata : decodeFileData X entity = .ok fileData)
      (hcontent : fileData.content.isZero = false)
      (hbytes : reassemble X s fileData.content = .ok bytes) : Reports X s event (some bytes)

section Steps

variable {X : Platform} {gear : UInt8 → UInt64} {roots : List RootMapping} {t : ContentStore}

theorem blobBytes_of_reassemble {s : ContentStore} {fileData : FileData}
    (h : reassemble X s fileData.content = .ok bytes) : blobBytes X s fileData = .ok bytes := by
  unfold blobBytes
  split_ifs
  · rw [reassembleStream_flatten,h]
    rfl
  · rw [h]
    rfl

theorem reassemble_of_blobBytes {s : ContentStore} {fileData : FileData}
    (h : blobBytes X s fileData = .ok bytes) : reassemble X s fileData.content = .ok bytes := by
  unfold blobBytes at h
  split_ifs at h
  · rw [reassembleStream_flatten] at h
    exact (mapErr_ok _ _ _).mp h
  · exact (mapErr_ok _ _ _).mp h

namespace ReverseWorld.CacheTruthful

variable {w : ReverseWorld}

theorem grow (h : w.CacheTruthful X) (ht : t.Readable X) {s : ContentStore} (hle : w.store ≤ s)
    (hle' : s ≤ t) : ({ w with store := s } : ReverseWorld).CacheTruthful X := by
  intro path entry file hentry hfile
  exact reassemble_grows ht hle hle' (h path entry file hentry hfile)

theorem record (h : w.CacheTruthful X) (nowNs : ℤ) (stat : Stat)
    (hfile : ∀ file, w.disk.get path = some file → reassemble X w.store hash = .ok file.bytes) :
    ({ w with statCache := w.statCache.record nowNs path stat hash } : ReverseWorld).CacheTruthful
      X := by
  intro p entry file hentry hf
  obtain ⟨recorded,hget⟩ := w.statCache.get_record nowNs path stat hash p
  have hentry' : (w.statCache.record nowNs path stat hash).get p = some entry := hentry
  rw [hget] at hentry'
  by_cases hp : p = path
  · rw [if_pos hp] at hentry'
    have heq : entry.blobHash = hash := by
      rw [← Option.some.inj hentry']
    rw [heq]
    exact hfile file (hp ▸ hf)
  · rw [if_neg hp] at hentry'
    exact h p entry file hentry' hf

theorem write (h : w.CacheTruthful X) (nowNs : ℤ) (stat : Stat)
    (hbytes : reassemble X w.store hash = .ok bytes) (tracker : ReverseTracker) : ({ w with
        disk := w.disk.insert path ⟨bytes,stat⟩
        tracker
        statCache := w.statCache.record nowNs path stat hash } : ReverseWorld).CacheTruthful X := by
  intro p entry file hentry hf
  obtain ⟨recorded,hget⟩ := w.statCache.get_record nowNs path stat hash p
  have hentry' : (w.statCache.record nowNs path stat hash).get p = some entry := hentry
  have hf' : (w.disk.insert path ⟨bytes,stat⟩).get p = some file := hf
  rw [hget] at hentry'
  rw [OrderedMap.get_insert] at hf'
  by_cases hp : p = path
  · rw [if_pos hp] at hentry' hf'
    rw [← Option.some.inj hentry',← Option.some.inj hf']
    exact hbytes
  · rw [if_neg hp] at hentry' hf'
    exact h p entry file hentry' hf'

theorem remove (h : w.CacheTruthful X) (path : FsPath) : ({ w with
        disk := w.disk.erase path
        statCache := w.statCache.erase path } : ReverseWorld).CacheTruthful X := by
  intro p entry file hentry hf
  have hentry' : (w.statCache.erase path).get p = some entry := hentry
  have hf' : (w.disk.erase path).get p = some file := hf
  rw [OrderedMap.get_erase] at hentry' hf'
  split_ifs at hentry' hf'
  exact h p entry file hentry' hf'

end ReverseWorld.CacheTruthful

theorem rechunk_grows (X : Platform) (gear : UInt8 → UInt64) (now : Readings) (fsPath : FsPath)
    (file : DiskFile) (content : Hash) (chunkSize : ℕ) (w : ReverseWorld) :
    w.store ≤ (rechunk X gear now fsPath file content chunkSize w).2.store := by
  have hgrow := grows_createBlobFastcdc (X := X) gear file.bytes (UInt64.ofNat chunkSize) w.store
  unfold rechunk currentDiskBlobHash
  cases hc : createBlobFastcdc X gear file.bytes (UInt64.ofNat chunkSize) w.store with
  | mk result store =>
    rw [hc] at hgrow
    cases result with
    | error e => exact hgrow
    | ok currentHash =>
      dsimp only
      split_ifs
      · exact hgrow
      · exact hgrow

theorem circuitBreaker_grows (X : Platform) (gear : UInt8 → UInt64) (now : Readings)
    (fsPath : FsPath) (content : Hash) (chunkSize : ℕ) (w : ReverseWorld) :
    w.store ≤ (circuitBreaker X gear now fsPath content chunkSize w).2.store := by
  unfold circuitBreaker
  cases w.disk.get fsPath with
  | none => exact le_rfl
  | some file =>
    dsimp only
    cases w.statCache.probe fsPath file.stat with
    | hit cached => exact le_rfl
    | racyMiss | miss => exact rechunk_grows X gear now fsPath file content chunkSize w

theorem writeBlob_store (X : Platform) (now : Readings) (fsPath : FsPath) (fileData : FileData)
    (bare : Str) (w : ReverseWorld) : (writeBlob X now fsPath fileData bare w).2.store = w.store := by
  unfold writeBlob
  cases blobBytes X w.store fileData with
  | error e => rfl
  | ok bytes => rfl

theorem reverseWriteFile_grows (X : Platform) (gear : UInt8 → UInt64) (now : Readings)
    (fsPath : FsPath) (hash : Hash) (bare : Str) (w : ReverseWorld) :
    w.store ≤ (reverseWriteFile X gear now fsPath hash bare w).2.store := by
  unfold reverseWriteFile
  cases w.store.get hash with
  | none => exact le_rfl
  | some entity =>
    dsimp only
    split_ifs
    · exact le_rfl
    cases decodeFileData X entity with
    | error e => exact le_rfl
    | ok fileData =>
      dsimp only
      split_ifs
      · exact le_rfl
      cases w.store.get fileData.content with
      | none => exact le_rfl
      | some incomingBlob =>
        have hgrow := circuitBreaker_grows X gear now fsPath fileData.content
          (incomingChunkSize X incomingBlob) w
        dsimp only
        split_ifs
        · exact hgrow
        · rw [writeBlob_store]
          exact hgrow

theorem rechunk_spec (ht : t.Readable X) {fsPath : FsPath} {file : DiskFile}
    {content : Hash} {chunkSize : ℕ} {w' : ReverseWorld} {same : Bool}
    (h : rechunk X gear now fsPath file content chunkSize w = (same,w')) (hle : w'.store ≤ t)
    (hfile : w.disk.get fsPath = some file) (htruth : w.CacheTruthful X) :
    w'.disk = w.disk ∧ w'.CacheTruthful X ∧
      (same = true → reassemble X w'.store content = .ok file.bytes) := by
  have hstore := rechunk_grows X gear now fsPath file content chunkSize w
  rw [h] at hstore
  unfold rechunk at h
  cases hc : currentDiskBlobHash X gear file.bytes chunkSize w.store with
  | mk result store =>
    rw [hc] at h
    cases result with
    | error e =>
      cases h
      exact ⟨rfl,htruth.grow ht hstore hle,fun hsame => (Bool.false_ne_true hsame).elim⟩
    | ok currentHash =>
      by_cases heq : currentHash = content
      · simp only [heq,if_true] at h
        cases h
        have hbytes := (reassemble_createBlob hc (ht.of_le hle)).2
        rw [heq] at hbytes
        refine ⟨rfl,?_,fun _ => hbytes⟩
        apply (htruth.grow ht hstore hle).record
        intro file' hfile'
        have hsame : file' = file := Option.some.inj (hfile'.symm.trans hfile)
        rw [hsame]
        exact hbytes
      · simp only [heq,if_false] at h
        cases h
        exact ⟨rfl,htruth.grow ht hstore hle,fun hsame => (Bool.false_ne_true hsame).elim⟩

/-- The circuit breaker leaves the disk alone and the cache truthful, and when it opens, what is on
the disk is the content that comes in. -/
theorem circuitBreaker_spec (ht : t.Readable X) {fsPath : FsPath} {content : Hash}
    {chunkSize : ℕ} {w' : ReverseWorld} {same : Bool}
    (h : circuitBreaker X gear now fsPath content chunkSize w = (same,w')) (hle : w'.store ≤ t)
    (htruth : w.CacheTruthful X) : w'.disk = w.disk ∧ w'.CacheTruthful X ∧
      (same = true → ∃ file, w.disk.get fsPath = some file ∧
        reassemble X w'.store content = .ok file.bytes) := by
  unfold circuitBreaker at h
  cases hfile : w.disk.get fsPath with
  | none =>
    rw [hfile] at h
    cases h
    exact ⟨rfl,htruth,fun hsame => (Bool.false_ne_true hsame).elim⟩
  | some file =>
    rw [hfile] at h
    cases hp : w.statCache.probe fsPath file.stat with
    | hit cached =>
      simp only [hp] at h
      cases h
      refine ⟨rfl,htruth,fun hsame => ⟨file,rfl,?_⟩⟩
      obtain ⟨entry,hentry,hblob⟩ := StatCache.probe_hit hp
      have hcached : cached = content := by simpa using hsame
      have hbytes := htruth fsPath entry file hentry hfile
      rw [hblob,hcached] at hbytes
      exact hbytes
    | racyMiss | miss =>
      simp only [hp] at h
      obtain ⟨hdisk,htruth',hsame⟩ := rechunk_spec ht h hle hfile htruth
      exact ⟨hdisk,htruth',fun hs => ⟨file,rfl,hsame hs⟩⟩

/-- A write puts the content of the blob at the path, or nothing changes. -/
theorem writeBlob_spec {now : Readings} {fsPath : FsPath} {fileData : FileData} {bare : Str}
    {w : ReverseWorld} (htruth : w.CacheTruthful X) :
    (writeBlob X now fsPath fileData bare w).2.CacheTruthful X ∧
    ∀ bytes, reassemble X w.store fileData.content = .ok bytes →
      (writeBlob X now fsPath fileData bare w).2.contentAt fsPath = some bytes := by
  unfold writeBlob
  cases hblob : blobBytes X w.store fileData with
  | error e =>
    refine ⟨htruth,fun bytes hbytes => ?_⟩
    rw [blobBytes_of_reassemble hbytes] at hblob
    cases hblob
  | ok written =>
    have hwritten := reassemble_of_blobBytes hblob
    refine ⟨htruth.write _ _ hwritten _,fun bytes hbytes => ?_⟩
    have heq : written = bytes := Except.ok.inj (hwritten.symm.trans hbytes)
    simp [ReverseWorld.contentAt,heq]

theorem reverseWriteFile_spec (ht : t.Readable X) {now : Readings} {fsPath : FsPath} {hash : Hash}
    {bare : Str} {w : ReverseWorld}
    (hle : (reverseWriteFile X gear now fsPath hash bare w).2.store ≤ t)
    (htruth : w.CacheTruthful X) :
    (reverseWriteFile X gear now fsPath hash bare w).2.CacheTruthful X ∧
    ∀ entity fileData bytes, w.store.get hash = some entity → entity.entityType = typeFile →
      decodeFileData X entity = .ok fileData → fileData.content.isZero = false →
      reassemble X w.store fileData.content = .ok bytes →
      (reverseWriteFile X gear now fsPath hash bare w).2.contentAt fsPath = some bytes := by
  cases hget : w.store.get hash with
  | none =>
    simp only [reverseWriteFile,hget]
    exact ⟨htruth,fun entity _ _ he => by cases he⟩
  | some entity =>
    by_cases htype : entity.entityType = typeFile
    swap
    · simp only [reverseWriteFile,hget,ne_eq,htype,not_false_eq_true,if_true]
      refine ⟨htruth,fun entity' _ _ he htype' => ?_⟩
      cases he
      exact (htype htype').elim
    cases hdata : decodeFileData X entity with
    | error e =>
      simp only [reverseWriteFile,hget,ne_eq,htype,not_true,if_false,hdata]
      refine ⟨htruth,fun entity' fileData _ he _ hdata' => ?_⟩
      cases he
      rw [hdata] at hdata'
      cases hdata'
    | ok fileData =>
      by_cases hzero : fileData.content.isZero = true
      · simp only [reverseWriteFile,hget,ne_eq,htype,not_true,if_false,hdata,hzero,if_true]
        refine ⟨htruth,fun entity' fileData' _ he _ hdata' hcontent => ?_⟩
        cases he
        cases hdata.symm.trans hdata'
        rw [hzero] at hcontent
        cases hcontent
      have hdecoded : ∀ entity' fileData', some entity = some entity' →
          decodeFileData X entity' = .ok fileData' → fileData' = fileData := by
        intro entity' fileData' he hdata'
        cases he
        exact Except.ok.inj (hdata'.symm.trans hdata)
      cases hblob : w.store.get fileData.content with
      | none =>
        simp only [reverseWriteFile,hget,ne_eq,htype,not_true,if_false,hdata,hzero,hblob]
        refine ⟨htruth,fun entity' fileData' bytes he _ hdata' _ hbytes => ?_⟩
        rw [hdecoded entity' fileData' he hdata'] at hbytes
        have hstored := blob_stored hbytes
        rw [hblob] at hstored
        cases hstored
      | some incomingBlob =>
        generalize hsize : incomingChunkSize X incomingBlob = chunkSize
        cases hbreak : circuitBreaker X gear now fsPath fileData.content chunkSize w with
        | mk same w₁ =>
          have hres : (reverseWriteFile X gear now fsPath hash bare w).2 =
              if same then w₁ else (writeBlob X now fsPath fileData bare w₁).2 := by
            simp only [reverseWriteFile,hget,ne_eq,htype,not_true,if_false,hdata,hzero,hblob,hsize,
              hbreak]
            cases same <;> rfl
          have hstore : (reverseWriteFile X gear now fsPath hash bare w).2.store = w₁.store := by
            rw [hres]
            cases same
            · exact (writeBlob_store X now fsPath fileData bare w₁)
            · rfl
          rw [hstore] at hle
          have hgrow := circuitBreaker_grows X gear now fsPath fileData.content chunkSize w
          rw [hbreak] at hgrow
          obtain ⟨hdisk,htruth₁,hsame⟩ := circuitBreaker_spec ht hbreak hle htruth
          obtain ⟨hwrite,hcontent⟩ := @writeBlob_spec X now fsPath fileData bare _ htruth₁
          rw [hres]
          cases same with
          | true =>
            refine ⟨htruth₁,fun entity' fileData' bytes he _ hdata' _ hbytes => ?_⟩
            rw [hdecoded entity' fileData' he hdata'] at hbytes
            obtain ⟨file,hfile,hread⟩ := hsame rfl
            have heq := (reassemble_grows ht hgrow hle hbytes).symm.trans hread
            rw [Except.ok.inj heq]
            show (w₁.disk.get fsPath).map (·.bytes) = _
            rw [hdisk,hfile]
            rfl
          | false =>
            refine ⟨hwrite,fun entity' fileData' bytes he _ hdata' _ hbytes => ?_⟩
            rw [hdecoded entity' fileData' he hdata'] at hbytes
            exact hcontent bytes (reassemble_grows ht hgrow hle hbytes)

/-- An event at a path that is not mirrored changes neither the disk nor the cache. -/
theorem processEvent_unmirrored {event : TreeChangeEvent} {now : Readings} {w : ReverseWorld}
    (h : mirroredPath roots (stripPeerPrefix event.path) = none) :
    ∃ tracker, (processEvent X gear roots event now w).2 = { w with tracker } := by
  unfold processEvent
  unfold mirroredPath at h
  generalize stripPeerPrefix event.path = bare at h ⊢
  dsimp only
  by_cases hsystem : startsWith bare "system/".toList = true
  · rw [if_pos hsystem]
    exact ⟨w.tracker,rfl⟩
  rw [if_neg hsystem] at h ⊢
  cases hroot : findRootMapping roots bare with
  | none => exact ⟨w.tracker,rfl⟩
  | some root =>
    rw [hroot,Option.bind_some] at h
    by_cases hro : root.readOnly = true
    · simp only [hro,if_true]
      exact ⟨w.tracker,rfl⟩
    rw [if_neg hro] at h
    simp only [hro]
    cases hrecent : w.tracker.isRecentlyWritten bare now.checkedAt with
    | mk recent tracker =>
      refine ⟨tracker,?_⟩
      cases recent with
      | true => rfl
      | false =>
        cases hrel : stripPrefix bare root.pathPrefix with
        | none => simp
        | some relative =>
          rw [hrel,Option.bind_some] at h
          cases hfs : resolveFsPathRelative root relative with
          | error e => simp [hfs]
          | ok fsPath =>
            rw [hfs] at h
            cases h

/-- An event at a mirrored path is passed over within the window, and otherwise acted on. -/
theorem processEvent_mirrored {event : TreeChangeEvent} {now : Readings} {w : ReverseWorld}
    {fsPath : FsPath} (h : mirroredPath roots (stripPeerPrefix event.path) = some fsPath) :
    (processEvent X gear roots event now w).2 = let bare := stripPeerPrefix event.path
      let (recent,tracker) := w.tracker.isRecentlyWritten bare now.checkedAt
      if recent then { w with tracker }
      else match event.changeType with
        | .deleted => { w with
            tracker
            disk := w.disk.erase fsPath
            statCache := w.statCache.erase fsPath }
        | .created | .modified =>
          (reverseWriteFile X gear now fsPath event.hash bare { w with tracker }).2 := by
  unfold processEvent
  unfold mirroredPath at h
  generalize stripPeerPrefix event.path = bare at h ⊢
  by_cases hsystem : startsWith bare "system/".toList = true
  · rw [if_pos hsystem] at h
    cases h
  dsimp only
  rw [if_neg hsystem] at h ⊢
  obtain ⟨root,hroot,h⟩ := Option.bind_eq_some_iff.mp h
  by_cases hro : root.readOnly = true
  · rw [if_pos hro] at h
    cases h
  rw [if_neg hro] at h
  obtain ⟨relative,hrel,h⟩ := Option.bind_eq_some_iff.mp h
  cases hfs : resolveFsPathRelative root relative with
  | error e =>
    rw [hfs] at h
    cases h
  | ok fs =>
    rw [hfs] at h
    have heq : fs = fsPath := Option.some.inj h
    subst heq
    simp only [hroot,hro,hrel,hfs]
    cases hrecent : w.tracker.isRecentlyWritten bare now.checkedAt with
    | mk recent tracker =>
      cases recent with
      | true => rfl
      | false =>
        cases event.changeType <;> rfl

theorem processEvent_grows (event : TreeChangeEvent) (now : Readings) (w : ReverseWorld) :
    w.store ≤ (processEvent X gear roots event now w).2.store := by
  cases hpath : mirroredPath roots (stripPeerPrefix event.path) with
  | none =>
    have hres := @processEvent_unmirrored X gear roots _ now w hpath
    obtain ⟨tracker,hres⟩ := hres
    rw [hres]
  | some fsPath =>
    have hres := @processEvent_mirrored X gear roots _ now w _ hpath
    generalize stripPeerPrefix event.path = bare at hres
    cases hrecent : w.tracker.isRecentlyWritten bare now.checkedAt with
    | mk recent tracker =>
      have hfile := reverseWriteFile_grows X gear now fsPath event.hash bare { w with tracker }
      simp only [hrecent] at hres
      rw [hres]
      cases recent with
      | true => exact le_rfl
      | false =>
        cases hchange : event.changeType with
        | deleted => exact le_rfl
        | created | modified => exact hfile

theorem processEvent_truthful (ht : t.Readable X) {event : TreeChangeEvent} {now : Readings}
    {w : ReverseWorld} (hle : (processEvent X gear roots event now w).2.store ≤ t)
    (htruth : w.CacheTruthful X) : (processEvent X gear roots event now w).2.CacheTruthful X := by
  cases hpath : mirroredPath roots (stripPeerPrefix event.path) with
  | none =>
    have hres := @processEvent_unmirrored X gear roots _ now w hpath
    obtain ⟨tracker,hres⟩ := hres
    rw [hres]
    exact htruth
  | some fsPath =>
    have hres := @processEvent_mirrored X gear roots _ now w _ hpath
    generalize stripPeerPrefix event.path = bare at hres
    cases hrecent : w.tracker.isRecentlyWritten bare now.checkedAt with
    | mk recent tracker =>
      simp only [hrecent] at hres
      rw [hres] at hle ⊢
      cases recent with
      | true => exact htruth
      | false =>
        cases hchange : event.changeType with
        | deleted => exact ReverseWorld.CacheTruthful.remove htruth fsPath
        | created | modified =>
          simp only [hchange] at hle
          exact (reverseWriteFile_spec ht (w := { w with tracker }) hle htruth).1

/-- An event that is not passed over leaves on the disk what it reports. -/
theorem processEvent_content (ht : t.Readable X) {event : TreeChangeEvent} {now : Readings}
    {w : ReverseWorld} (hle : (processEvent X gear roots event now w).2.store ≤ t)
    (htruth : w.CacheTruthful X) {fsPath : FsPath} {content : Option Bytes}
    (hpath : mirroredPath roots (stripPeerPrefix event.path) = some fsPath)
    (hreports : Reports X w.store event content) :
    (processEvent X gear roots event now w).2.contentAt fsPath =
      if (w.tracker.isRecentlyWritten (stripPeerPrefix event.path) now.checkedAt).1
        then w.contentAt fsPath else content := by
  have hres := @processEvent_mirrored X gear roots _ now w _ hpath
  generalize stripPeerPrefix event.path = bare at hres ⊢
  cases hrecent : w.tracker.isRecentlyWritten bare now.checkedAt with
  | mk recent tracker =>
    simp only [hrecent] at hres
    rw [hres] at hle ⊢
    cases recent with
    | true => rfl
    | false =>
      cases hreports with
      | deletion hchange =>
        simp [hchange,ReverseWorld.contentAt]
      | @binding entity fileData bytes hchange hget htype hdata hcontent hbytes =>
        cases hc : event.changeType with
        | deleted => exact (hchange hc).elim
        | created | modified =>
          simp only [hc] at hle
          exact (reverseWriteFile_spec ht (w := { w with tracker }) hle htruth).2 entity fileData
            bytes hget htype hdata hcontent hbytes

/-! Runs. -/

theorem receive_grows (w : ReverseWorld) (entities : List Entity) :
    w.store ≤ (w.receive entities).store := by
  show w.store ≤ entities.foldl ContentStore.put w.store
  generalize w.store = s
  induction entities generalizing s with
  | nil => exact le_rfl
  | cons e entities ih => exact le_trans (List.suffix_cons e s.puts) (ih _)

theorem reverseStep_grows (w : ReverseWorld) (step : ReverseStep) :
    w.store ≤ (reverseStep X gear roots w step).store :=
  (receive_grows w step.arrived).trans (processEvent_grows step.event step.now _)

theorem receive_truthful (ht : t.Readable X) {step : ReverseStep}
    (hle : (reverseStep X gear roots w step).store ≤ t) (htruth : w.CacheTruthful X) :
    (w.receive step.arrived).CacheTruthful X := by
  have hevent := @processEvent_grows X gear roots step.event step.now
    (w.receive step.arrived)
  exact htruth.grow ht (receive_grows w step.arrived) (hevent.trans hle)

theorem reverseStep_truthful (ht : t.Readable X) {step : ReverseStep}
    (hle : (reverseStep X gear roots w step).store ≤ t) (htruth : w.CacheTruthful X) :
    (reverseStep X gear roots w step).CacheTruthful X :=
  processEvent_truthful ht hle (receive_truthful ht hle htruth)

theorem reverseRun_grows (w : ReverseWorld) (steps : List ReverseStep) :
    w.store ≤ (reverseRun X gear roots w steps).store := by
  induction steps generalizing w with
  | nil => exact le_rfl
  | cons step steps ih => exact (reverseStep_grows w step).trans (ih _)

theorem reverseRun_truthful (ht : t.Readable X) {steps : List ReverseStep}
    (hle : (reverseRun X gear roots w steps).store ≤ t) (htruth : w.CacheTruthful X) :
    (reverseRun X gear roots w steps).CacheTruthful X := by
  induction steps generalizing w with
  | nil => exact htruth
  | cons step steps ih =>
    have hstep : (reverseStep X gear roots w step).store ≤ t :=
      (reverseRun_grows (reverseStep X gear roots w step) steps).trans hle
    exact ih hle (reverseStep_truthful ht hstep htruth)

end Steps

/-- After a run of events, the disk holds at a mirrored path what the last event reports exactly
when the path was not written within the window before it, or the disk held that already. -/
theorem disk_follows_iff {X : Platform} {gear : UInt8 → UInt64} {roots : List RootMapping}
    {w : ReverseWorld} {steps : List ReverseStep} {last : ReverseStep} {fsPath : FsPath}
    {content : Option Bytes} (htruth : w.CacheTruthful X)
    (hpath : mirroredPath roots (EntityUri.stripPeerPrefix last.event.path) = some fsPath)
    (hreports : Reports X ((reverseRun X gear roots w steps).receive last.arrived).store last.event
      content) (hread : (reverseRun X gear roots w (steps++[last])).store.Readable X) :
    (reverseRun X gear roots w (steps++[last])).contentAt fsPath = content ↔
      ((reverseRun X gear roots w steps).tracker.isRecentlyWritten
        (EntityUri.stripPeerPrefix last.event.path) last.now.checkedAt).1 = false ∨
      (reverseRun X gear roots w steps).contentAt fsPath = content := by
  have hsplit : reverseRun X gear roots w (steps++[last]) =
      reverseStep X gear roots (reverseRun X gear roots w steps) last := by
    rw [reverseRun,List.foldl_append]
    rfl
  rw [hsplit] at hread ⊢
  generalize hmid : reverseRun X gear roots w steps = mid at hreports hread ⊢
  have hmidTruth : mid.CacheTruthful X := by
    rw [← hmid] at hread ⊢
    exact reverseRun_truthful hread (reverseStep_grows _ last) htruth
  have hcontent := @processEvent_content X gear roots _ hread _ _ _ le_rfl
    (receive_truthful hread le_rfl hmidTruth) _ _ hpath hreports
  have hstep : (reverseStep X gear roots mid last).contentAt fsPath =
      if (mid.tracker.isRecentlyWritten (EntityUri.stripPeerPrefix last.event.path)
        last.now.checkedAt).1 then mid.contentAt fsPath else content := hcontent
  rw [hstep]
  cases (mid.tracker.isRecentlyWritten (EntityUri.stripPeerPrefix last.event.path)
    last.now.checkedAt).1 with
  | true => simp
  | false => simp

namespace ReverseSample

open Sample

def chunk (b : UInt8) (digest : ℕ) : Entity :=
  entity "system/content/chunk" (chunkValue [b]) digest

def blob (chunk : Entity) (digest : ℕ) : Entity :=
  entity "system/content/blob" (blobValue 1 defaultChunkSize 1 [chunk.contentHash]) digest

def fileValue (blob : Entity) : Value :=
  .map [field "path" (txt "a.txt"),field "size" (uinteger 1),
    field "content" (hashVal blob.contentHash)]

def firstChunk : Entity :=
  chunk 1 0x7e5d6c0b69c1e6349fa6b234b341fa8f3a5f6448b9b3e53ff8f2cc3b1ca603ba

def secondChunk : Entity :=
  chunk 2 0x64fa5b81098e5b94f31d423d37d998b167dd270125f426fe8f2e163b3199cadb

def firstBlob : Entity :=
  blob firstChunk 0x859057268e5bf431d52fbc20f6603da475e8bd6925cd503749ee9ce3efd332a2

def secondBlob : Entity :=
  blob secondChunk 0x5d006cda46f34dbf11d7efec93ef4c6ae38cf0b90cd8fc6eb347335155a4f61a

def firstFile : Entity := entity "local/files/file" (fileValue firstBlob)
  0xbaf8d2e911f8902a9012a1a3e69f32671fe7532dfef076988b373c7a10df656c

def secondFile : Entity := entity "local/files/file" (fileValue secondBlob)
  0xc42667492bac676e4ac208d953a9069183b9cfb217dada59f995bb0bd6996618

def documents : List Value := [chunkValue [1],chunkValue [2],
  blobValue 1 defaultChunkSize 1 [firstChunk.contentHash],
  blobValue 1 defaultChunkSize 1 [secondChunk.contentHash],fileValue firstBlob,fileValue secondBlob]

def crates : Platform := platform documents [] []

def gear : UInt8 → UInt64 := fun _ => 0

def roots : List RootMapping :=
  [⟨"shared".toList,"local/files/shared/".toList,["srv".toList,"shared".toList],false⟩]

def fsPath : FsPath := ["srv".toList,"shared".toList,"a.txt".toList]

def change (changeType : ChangeType) (file : Entity) : TreeChangeEvent where
  path := '/'::aliceId++ "/local/files/shared/a.txt".toList
  hash := file.contentHash
  previousHash := none
  newHash := some file.contentHash
  changeType := changeType
  context := none

def readAt (seconds : ℕ) : Readings where
  checkedAt := seconds*10^9
  writtenAt := seconds*10^9
  recordedAt := seconds*10^9+1
  stat := ⟨1,seconds,seconds*10^9,seconds*10^9,1,0o644⟩

def created : ReverseStep :=
  ⟨change .created firstFile,readAt 1,[firstChunk,firstBlob,firstFile]⟩

def modified (seconds : ℕ) : ReverseStep :=
  ⟨change .modified secondFile,readAt seconds,[secondChunk,secondBlob,secondFile]⟩

def fresh : ReverseWorld := ⟨⟨[]⟩,.empty,.empty,.empty⟩

/-- What has come in when the file is modified. -/
def arrived : ContentStore :=
  ((reverseRun crates gear roots fresh [created]).receive [secondChunk,secondBlob,secondFile]).store

/-- The two files, as they arrive and as the disk has them after each run. -/
theorem evaluated_writes :
    (arrived.get secondFile.contentHash = some secondFile ∧
      decodeFileData crates secondFile =
        .ok ⟨"a.txt".toList,1,none,secondBlob.contentHash,none,false⟩ ∧
      secondBlob.contentHash.isZero = false ∧
      reassemble crates arrived secondBlob.contentHash = .ok [2]) ∧
    mirroredPath roots (EntityUri.stripPeerPrefix (change .modified secondFile).path) =
      some fsPath ∧
    (reverseRun crates gear roots fresh [created,modified 2]).contentAt fsPath = some [1] ∧
    ∀ e ∈ (reverseRun crates gear roots fresh ([created]++[modified 10])).store.puts,
      (reverseRun crates gear roots fresh ([created]++[modified 10])).store.get e.contentHash =
        some e ∧ e.data.length < 2^63 ∧ ∃ v ∈ documents, toEcf v = e.data := by
  decide +kernel

theorem modified_reports (seconds : ℕ) :
    Reports crates ((reverseRun crates gear roots fresh [created]).receive
      (modified seconds).arrived).store (modified seconds).event (some [2]) := by
  obtain ⟨⟨hget,hdata,hzero,hbytes⟩,-⟩ := evaluated_writes
  have hmodified : ChangeType.modified ≠ .deleted := by decide
  exact .binding hmodified hget rfl hdata hzero hbytes

/-- A file created and, a second later, modified: the disk keeps the first content. -/
theorem modification_passed_over :
    mirroredPath roots (EntityUri.stripPeerPrefix (modified 2).event.path) = some fsPath ∧
    Reports crates ((reverseRun crates gear roots fresh [created]).receive
      (modified 2).arrived).store (modified 2).event (some [2]) ∧
    (reverseRun crates gear roots fresh [created,modified 2]).contentAt fsPath = some [1] := by
  obtain ⟨-,hpath,hkept,-⟩ := evaluated_writes
  exact ⟨hpath,modified_reports 2,hkept⟩

/-- Modified nine seconds after it was created, it has the second content. -/
theorem disk_follows_iff_sample :
    (reverseRun crates gear roots fresh ([created]++[modified 10])).contentAt fsPath = some [2] ↔
      ((reverseRun crates gear roots fresh [created]).tracker.isRecentlyWritten
        (EntityUri.stripPeerPrefix (modified 10).event.path) (modified 10).now.checkedAt).1 = false ∨
      (reverseRun crates gear roots fresh [created]).contentAt fsPath = some [2] := by
  obtain ⟨-,hpath,-,hstored⟩ := evaluated_writes
  have htruth : fresh.CacheTruthful crates := by
    intro path entry file hentry
    cases hentry
  have hread : (reverseRun crates gear roots fresh ([created]++[modified 10])).store.Readable
      crates := by
    refine readable_of_documents (fun e he => (hstored e he).1) (fun e he => (hstored e he).2.1)
      (fun e he => (hstored e he).2.2) ?_
    have hfile : ∀ e : Entity, Regular (fileValue e) := by
      intro e
      apply presentFields_regular (l := [("path",some (txt "a.txt")),("size",some (uinteger 1)),
        ("content",some (hashVal e.contentHash))]) (by simp)
      simp only [List.forall_mem_cons,Option.some.injEq,forall_eq']
      exact ⟨.text _,.integer _,.bytes _,by simp⟩
    simp only [documents,List.forall_mem_cons]
    exact ⟨regular_chunkValue _,regular_chunkValue _,regular_blobValue _ _ _ _,
      regular_blobValue _ _ _ _,hfile _,hfile _,by simp⟩
  exact disk_follows_iff htruth hpath (modified_reports 10) hread

end ReverseSample

end EntityCore
