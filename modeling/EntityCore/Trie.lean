import EntityCore.SparseArray
import EntityCore.TokenCodec

/-! The snapshot trie: nodes of 32 positions addressed by slices of a key's hash,
each holding a bucket of at most three bindings or a link to a node one level down.
Nodes live in a content store under the hash of their encoding. -/
namespace EntityCore

open Ecf Outcome ByteCode SparseArray

def typeTreeSnapshotNode : Str := "system/tree/snapshot/node".toList

def bitWidth : ℕ := 5

def bucketSize : ℕ := 3

def bitmapBytes : ℕ := 4

inductive Entry where
  | bucket (tuples : List (Str × Hash))
  | link (hash : Hash)
  deriving DecidableEq

structure SnapshotNodeData where
  map : BitVec 32
  data : List Entry
  deriving DecidableEq

/-- The entities put, newest first; a lookup finds what the last put under a hash left. -/
structure ContentStore where
  puts : List Entity

namespace ContentStore

def get (s : ContentStore) (hash : Hash) : Option Entity :=
  s.puts.find? fun e => e.contentHash = hash

def put (s : ContentStore) (entity : Entity) : ContentStore := ⟨entity::s.puts⟩

/-- A store later in a run holds what was put before. -/
instance : Preorder ContentStore where
  le s t := s.puts <:+ t.puts
  le_refl s := List.suffix_refl s.puts
  le_trans _ _ _ := List.IsSuffix.trans

theorem get_put (s : ContentStore) (e : Entity) (h : Hash) :
    (s.put e).get h = if e.contentHash = h then some e else s.get h := by
  unfold put get
  rw [List.find?_cons]
  by_cases he : e.contentHash = h
  · simp [he]
  · simp [he]

theorem contentHash_of_get {s : ContentStore} {h : Hash} {e : Entity} (hg : s.get h = some e) :
    e.contentHash = h := by
  have hf := List.find?_some hg
  simpa using hf

/-- None of the entities has the hash of another, or of a different one in the store. -/
def CollisionFree (s : ContentStore) (entities : List Entity) : Prop :=
  ∀ e ∈ entities, ∀ e', (e' ∈ entities ∨ s.get e.contentHash = some e') →
    e'.contentHash = e.contentHash → e' = e

namespace CollisionFree

variable {s : ContentStore} {entities : List Entity}

theorem get_put_eq (h : s.CollisionFree entities) {e : Entity} (he : e ∈ entities) {k : Hash}
    {e' : Entity} (hg : s.get k = some e') : (s.put e).get k = some e' := by
  rw [get_put]
  split_ifs with hk
  · subst hk
    rw [h e he e' (.inr hg) (contentHash_of_get hg)]
  · exact hg

theorem put (h : s.CollisionFree entities) {e : Entity} (he : e ∈ entities) :
    (s.put e).CollisionFree entities := by
  intro x hx e' he' hhash
  rcases he' with he' | he'
  · exact h x hx e' (.inl he') hhash
  · rw [get_put] at he'
    split_ifs at he' with hk
    · have heq : e = e' := Option.some.inj he'
      subst heq
      exact h x hx e (.inl he) hk
    · exact h x hx e' (.inr he') hhash

end CollisionFree

end ContentStore

inductive TrieFailure where
  | message (text : String)
  | panicked (text : String)
  | outOfFuel
  deriving DecidableEq

def missingSubNode : TrieFailure := .message "missing sub-node"

namespace Entry

def tupleToValue (t : Str × Hash) : Value := .array [.text t.1,.bytes t.2.toBytes]

def toValue : Entry → Value
  | .bucket tuples => .array (tuples.map tupleToValue)
  | .link h => .bytes h.toBytes

def tupleFromValue (tuple : Value) : Option (Str × Hash) := do
  match ← tuple.asArray with
  | [k,h] => return (← k.asText,← hashField h)
  | _ => none

/-- A bucket is an array on the wire, a link a byte string. -/
def fromValue (item : Value) : Option Entry :=
  match item.asArray with
  | some items => (items.mapM tupleFromValue).map .bucket
  | none => (hashField item).map .link

end Entry

structure NodeFields where
  bitmap : Option (BitVec 32)
  entries : Option (List Entry)

namespace SnapshotNodeData

def empty : SnapshotNodeData := ⟨0#32,[]⟩

def toValue (n : SnapshotNodeData) : Value :=
  .map [(.text "map".toList,.bytes (beBytes bitmapBytes n.map.toNat)),
    (.text "data".toList,.array (n.data.map Entry.toValue))]

def toEcfBytes (n : SnapshotNodeData) : Bytes := toEcf n.toValue

def scanField (acc : NodeFields) (kv : Value × Value) : Option NodeFields := do
  let name ← kv.1.asText
  if name = "map".toList then
    let b ← kv.2.asBytes
    if b.length ≠ bitmapBytes then none else some { acc with bitmap := some (.ofNat 32 (beNumber b)) }
  else if name = "data".toList then
    let items ← kv.2.asArray
    let entries ← items.mapM Entry.fromValue
    some { acc with entries := some entries }
  else some acc

def fromCbor (X : Platform) (data : Bytes) : Option SnapshotNodeData := do
  let value ← (X.fromReader data).toOption
  let fields ← (← value.asMap).foldlM scanField ⟨none,none⟩
  return ⟨← fields.bitmap,← fields.entries⟩

end SnapshotNodeData

variable (X : Platform)

def keyHash (key : Str) : Bytes := X.sha256 (utf8 key)

/-- Five bits of a hash, most significant first. Past its last byte the slice panics. -/
def bitSliceAt (hashBytes : Bytes) (level : ℕ) : Except TrieFailure ℕ := do
  let bitOffset := level*bitWidth
  let byteOffset := bitOffset/8
  let bitInByte := bitOffset%8
  let b0 ← okOr hashBytes[byteOffset]? (.panicked "index out of bounds")
  let b1 := hashBytes[byteOffset+1]?.getD 0
  let combined := (b0.toNat <<< 8) ||| b1.toNat
  let shift := 16-bitInByte-bitWidth
  return (combined >>> shift) &&& 0x1F

/-- Whether a position is occupied, and where its entry stands in the dense array. -/
def position (map : BitVec 32) (p : ℕ) : Bool × ℕ :=
  let bitSet : Bool := (map >>> p) &&& 1#32 = 1#32
  let mask : BitVec 32 := if p = 0 then 0#32 else (1#32 <<< p)-1#32
  (bitSet,countOnes (map &&& mask))

def entryAt (node : SnapshotNodeData) (idx : ℕ) : Except TrieFailure Entry :=
  okOr node.data[idx]? (.panicked "index out of bounds")

def insertAt (node : SnapshotNodeData) (idx : ℕ) (e : Entry) : Except TrieFailure (List Entry) :=
  if idx ≤ node.data.length then .ok (node.data.insertIdx idx e)
  else .error (.panicked "insertion index out of bounds")

/-- `sort_by` on the keys, which is stable. -/
def sortTuples (tuples : List (Str × Hash)) : List (Str × Hash) :=
  tuples.insertionSort fun a b => a.1 ≤ b.1

def loadTrieNode (s : ContentStore) (hash : Hash) : Option SnapshotNodeData :=
  (s.get hash).bind fun e => SnapshotNodeData.fromCbor X e.data

def loadOrEmpty (s : ContentStore) (rootHash : Option Hash) : SnapshotNodeData :=
  (rootHash.bind (loadTrieNode X s)).getD .empty

def SnapshotNodeData.toEntity (n : SnapshotNodeData) : Except EntityError Entity :=
  Entity.new X typeTreeSnapshotNode n.toEcfBytes

def storeTrieNode (node : SnapshotNodeData) : Action ContentStore TrieFailure Hash := fun s =>
  match node.toEntity X with
  | .ok e => (.ok e.contentHash,s.put e)
  | .error e => (.error (.message e.display),s)

def loadSub (hash : Hash) : Action ContentStore TrieFailure SnapshotNodeData :=
  .reading fun s => okOr (loadTrieNode X s hash) missingSubNode

/-! Walks over everything below a node. They follow links as long as there are any;
`fuel` bounds the depth. -/

def countStep (s : ContentStore) (below : SnapshotNodeData → Except TrieFailure ℕ) (total : ℕ) :
    Entry → Except TrieFailure ℕ
  | .bucket b => pure (total+b.length)
  | .link h => do
    let sub ← okOr (loadTrieNode X s h) missingSubNode
    return total+(← below sub)

def countEntries (s : ContentStore) : ℕ → SnapshotNodeData → Except TrieFailure ℕ
  | 0, _ => .error .outOfFuel
  | fuel+1, node => node.data.foldlM (countStep X s (countEntries s fuel)) 0

def flattenStep (s : ContentStore)
    (below : SnapshotNodeData → List (Str × Hash) → Except TrieFailure (List (Str × Hash)))
    (out : List (Str × Hash)) : Entry → Except TrieFailure (List (Str × Hash))
  | .bucket b => pure (out++b)
  | .link h => do
    let sub ← okOr (loadTrieNode X s h) missingSubNode
    below sub out

def flattenEntriesInto (s : ContentStore) :
    ℕ → SnapshotNodeData → List (Str × Hash) → Except TrieFailure (List (Str × Hash))
  | 0, _, _ => .error .outOfFuel
  | fuel+1, node, out => node.data.foldlM (flattenStep X s (flattenEntriesInto s fuel)) out

def flattenEntries (s : ContentStore) (fuel : ℕ) (node : SnapshotNodeData) :
    Except TrieFailure (List (Str × Hash)) := flattenEntriesInto X s fuel node []

/-- Unlike the other walks this one steps over links that do not load. -/
def collectStep (s : ContentStore)
    (below : SnapshotNodeData → OrderedMap Str Hash → Except TrieFailure (OrderedMap Str Hash))
    (out : OrderedMap Str Hash) : Entry → Except TrieFailure (OrderedMap Str Hash)
  | .bucket b => pure (b.foldl (fun out t => out.insert t.1 t.2) out)
  | .link h => match loadTrieNode X s h with
    | some sub => below sub out
    | none => pure out

def collectBindingsInto (s : ContentStore) :
    ℕ → SnapshotNodeData → OrderedMap Str Hash → Except TrieFailure (OrderedMap Str Hash)
  | 0, _, _ => .error .outOfFuel
  | fuel+1, node, out => node.data.foldlM (collectStep X s (collectBindingsInto s fuel)) out

def collectAllBindings (s : ContentStore) (fuel : ℕ) (nodeHash : Hash) :
    Except TrieFailure (OrderedMap Str Hash) :=
  match loadTrieNode X s nodeHash with
  | some node => collectBindingsInto X s fuel node .empty
  | none => pure .empty

/-! Updates. A hash has slices for levels 0 to 51, so `left` starts at 52 and the
slice of a level past the last has panicked before it runs out. -/

def levels : ℕ := 52

/-- What becomes of an occupied position; `down` is the put one level below. -/
def putEntry (down : SnapshotNodeData → Bytes → Str → Hash →
    Action ContentStore TrieFailure SnapshotNodeData) (hashBytes : Bytes) (key : Str)
    (valueHash : Hash) : Entry → Action ContentStore TrieFailure Entry
  | .bucket tuples =>
    match tuples.findIdx? fun t => t.1 = key with
    | some pos => pure (.bucket (tuples.modify pos fun t => (t.1,valueHash)))
    | none =>
      if tuples.length < bucketSize then pure (.bucket (sortTuples (tuples++[(key,valueHash)])))
      else do
        -- overflow: the bucket and the new binding go one level down
        let sub ← tuples.foldlM (fun sub t => down sub (keyHash X t.1) t.1 t.2)
          SnapshotNodeData.empty
        let sub ← down sub hashBytes key valueHash
        let subHash ← storeTrieNode X sub
        pure (.link subHash)
  | .link subHash => do
    let sub ← loadSub X subHash
    let newSub ← down sub hashBytes key valueHash
    let newSubHash ← storeTrieNode X newSub
    pure (.link newSubHash)

def putAtNode : ℕ → SnapshotNodeData → Bytes → ℕ → Str → Hash →
    Action ContentStore TrieFailure SnapshotNodeData
  | 0, _, _, _, _, _ => .lift (.error (.panicked "index out of bounds"))
  | left+1, node, hashBytes, level, key, valueHash => do
    let p ← .lift (bitSliceAt hashBytes level)
    let idx := (position node.map p).2
    if !(position node.map p).1 then do
      let newData ← .lift (insertAt node idx (.bucket [(key,valueHash)]))
      pure ⟨node.map ||| 1#32 <<< p,newData⟩
    else do
      let entry ← .lift (entryAt node idx)
      let newEntry ← putEntry X (fun sub hb k v => putAtNode left sub hb (level+1) k v)
        hashBytes key valueHash entry
      pure ⟨node.map,node.data.set idx newEntry⟩

inductive RemoveOutcome where
  | unchanged
  | modified (node : SnapshotNodeData)
  | inlined (tuples : List (Str × Hash))

/-- What a removal does to an occupied position. -/
inductive RemoveStep where
  | keep
  | drop
  | replace (entry : Entry)

/-- The canonical-form bound: a node below the root with fewer than four bindings
goes back into its parent's bucket. -/
def enforceBound (fuel : ℕ) (isRoot : Bool) (result : SnapshotNodeData) :
    Action ContentStore TrieFailure RemoveOutcome :=
  if isRoot then pure (.modified result)
  else .reading fun s => do
    let branch ← countEntries X s fuel result
    if branch < bucketSize+1 then (flattenEntries X s fuel result).map .inlined
    else pure (.modified result)

def applyStep (fuel : ℕ) (isRoot : Bool) (node : SnapshotNodeData) (p idx : ℕ) :
    RemoveStep → Action ContentStore TrieFailure RemoveOutcome
  | .keep => pure .unchanged
  | .drop => enforceBound X fuel isRoot ⟨node.map &&& ~~~(1#32 <<< p),node.data.eraseIdx idx⟩
  | .replace entry => enforceBound X fuel isRoot ⟨node.map,node.data.set idx entry⟩

/-- The entry after a removal below it. -/
def relink : RemoveOutcome → Action ContentStore TrieFailure RemoveStep
  | .unchanged => pure .keep
  | .modified newSub => do
    let newSubHash ← storeTrieNode X newSub
    pure (.replace (.link newSubHash))
  | .inlined tuples =>
    pure (if tuples.isEmpty then .drop else .replace (.bucket (sortTuples tuples)))

def removeEntry (down : SnapshotNodeData → Action ContentStore TrieFailure RemoveOutcome)
    (key : Str) : Entry → Action ContentStore TrieFailure RemoveStep
  | .bucket tuples =>
    match tuples.findIdx? fun t => t.1 = key with
    | none => pure .keep
    | some pos =>
      pure (if tuples.length = 1 then .drop else .replace (.bucket (tuples.eraseIdx pos)))
  | .link subHash => do
    let sub ← loadSub X subHash
    let outcome ← down sub
    relink X outcome

def removeAtNode (fuel : ℕ) : ℕ → SnapshotNodeData → Bytes → ℕ → Str → Bool →
    Action ContentStore TrieFailure RemoveOutcome
  | 0, _, _, _, _, _ => .lift (.error (.panicked "index out of bounds"))
  | left+1, node, hashBytes, level, key, isRoot => do
    let p ← .lift (bitSliceAt hashBytes level)
    let idx := (position node.map p).2
    if !(position node.map p).1 then pure .unchanged
    else do
      let entry ← .lift (entryAt node idx)
      let step ← removeEntry X (fun sub => removeAtNode fuel left sub hashBytes (level+1) key false)
        key entry
      applyStep X fuel isRoot node p idx step

def buildTrie (bindings : OrderedMap Str Hash) : Action ContentStore TrieFailure Hash := do
  let root ← bindings.entries.foldlM (fun root kv =>
    putAtNode X levels root (keyHash X kv.1) 0 kv.1 kv.2) SnapshotNodeData.empty
  storeTrieNode X root

def triePut (rootHash : Option Hash) (relativeKey : Str) (valueHash : Hash) :
    Action ContentStore TrieFailure Hash := do
  let root ← Action.reading fun s => .ok (loadOrEmpty X s rootHash)
  let newRoot ← putAtNode X levels root (keyHash X relativeKey) 0 relativeKey valueHash
  storeTrieNode X newRoot

def trieRemove (fuel : ℕ) (rootHash : Option Hash) (relativeKey : Str) :
    Action ContentStore TrieFailure Hash := do
  let root ← Action.reading fun s => .ok (loadOrEmpty X s rootHash)
  match ← removeAtNode X fuel levels root (keyHash X relativeKey) 0 relativeKey true with
  | .unchanged => storeTrieNode X root
  | .modified newRoot => storeTrieNode X newRoot
  | .inlined _ => .lift (.error (.panicked "root never reports Inline"))

end EntityCore
