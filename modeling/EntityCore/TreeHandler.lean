import EntityCore.AttestationHandler
import EntityCore.RevisionPull
import EntityCore.Wire

/-! The tree handler: snapshot, extract and diff. A snapshot is a commitment to the
bindings under a prefix, an extract is the snapshot with everything below it in one
envelope, a diff compares two snapshots. -/
namespace EntityCore

open Ecf Outcome Strings

def typeTreeSnapshot : Str := "system/tree/snapshot".toList
def typeTreeDiff : Str := "system/tree/diff".toList

structure TreeContext where
  isExternal : Bool
  callerCapability : Option CapabilityToken
  pattern : Str
  resourceTarget : Option ResourceTarget
  params : Entity
  included : OrderedMap Hash Entity

structure TreeState where
  store : ContentStore
  index : MemoryLocationIndex

/-- What an operation ends in instead of a result. A refusal is a response like any other. -/
inductive TreeFailure where
  | refused (response : Failure)
  | failed (error : HandlerError)
  | panicked (text : String)
  | outOfFuel

abbrev TreeAction (α : Type) : Type := Action TreeState TreeFailure α

def TrieFailure.inTree (what : String) : TrieFailure → TreeFailure
  | .message m => .failed (.internal (what++m))
  | .panicked t => .panicked t
  | .outOfFuel => .outOfFuel

/-- The order a hash set gives its members in, another one in every process. -/
structure SetOrder where
  list : Finset Hash → List Hash
  mem_list : ∀ s h, h ∈ list s ↔ h ∈ s
  nodup : ∀ s, (list s).Nodup

/-- A map keyed by what its entities hash to. Under a format that cannot be computed the
stamped hash is the key. -/
def Envelope.includeEntity (X : Platform) (env : Envelope) (e : Entity) : Envelope :=
  let key := match Hash.computeFormat X e.entityType e.data e.contentHash.algorithm with
    | .ok h => h
    | .error _ => e.contentHash
  ⟨env.root,env.included.insert key e⟩

/-! Boundary checks. -/

def validatePrefix (path : Str) : Bool := path.isEmpty || endsWith path ['/']

def EntityUri.validatePathInput (path : Str) : Except String Unit :=
  if startsWith path "./".toList || path = ".".toList then
    .error "reserved: directory-relative path ./"
  else if startsWith path "../".toList || path = "..".toList then
    .error "reserved: directory-relative path ../"
  else if containsText ((stripPrefix path uriScheme).getD path) "//".toList then
    .error "invalid: path contains empty segment (//)"
  else .ok ()

/-- At least four hexadecimal digits, upper case. -/
def codePoint (c : Char) : String :=
  let digits := (Nat.toDigits 16 c.toNat).map Char.toUpper
  String.ofList (List.replicate (4-digits.length) '0'++digits)

/-- An entry of `paths` is relative to the prefix; `quoted` is the debug form of a text. -/
def validateExtractSubpath (quoted : Str → String) (entry : Str) : Except String Unit :=
  if entry.isEmpty then .error "extract paths[] entry is empty"
  else if startsWith entry ['/'] then
    .error ("extract paths[] entry is relative to `prefix`, not absolute: "++quoted entry)
  else match entry.find? isControl with
    | some c => .error ("extract paths[] entry contains a control character (U+"++codePoint c++ ")")
    | none => mapErr (fun e => "extract paths[] entry is not a valid relative path: "++e)
        (EntityUri.validatePathInput entry)

structure TreeHandler where
  localPeerId : Str

namespace TreeHandler

variable (X : Platform) (H : TreeHandler) (ctx : TreeContext)

/-! Authorization. -/

/-- Whether a dispatch may touch a path; only a caller from outside is asked. -/
def authorizePath (basePermission path : Str) : Except Failure Unit :=
  if !ctx.isExternal then .ok ()
  else match ctx.callerCapability with
    | none => .ok ()
    | some cap =>
      match resolveGranterPeerId X cap.granter H.localPeerId ctx.included.get with
      | none => .error ⟨403,"capability_denied",
          "capability granter is unresolvable — cannot evaluate path scope"⟩
      | some granterPeerId =>
        if checkPathPermission basePermission path cap ctx.pattern H.localPeerId granterPeerId then
          .ok ()
        else .error ⟨403,"capability_denied",
          "insufficient capability for path: "++String.ofList path⟩

def pathAllowed (basePermission path : Str) : Bool :=
  (H.authorizePath X ctx basePermission path).isOk

def capFilterActive : Bool := ctx.isExternal && ctx.callerCapability.isSome

def permissionGet : Str := "get".toList
def permissionPut : Str := "put".toList

/-! Parameters. -/

def decodeParams : Option Value := (X.fromReader ctx.params.data).toOption

def paramField (name : String) : Option Value :=
  (decodeParams X ctx).bind fun p => p.asMap.bind fun map => getField map name

/-- The prefix of a read: the resource target, else what `absent` makes of the parameters. -/
def effectivePrefix (what : String) (absent : Option Str) : Except TreeFailure Str := do
  match ← mapErr .refused (singleEffectiveTarget ctx.resourceTarget H.localPeerId what) with
  | .one p => .ok p
  | .selfExcluded => .error (.refused (selfExcludedRefusal what))
  | .absent => .ok (absent.getD [])

/-- The checks that both reads make of their prefix. -/
def admitPrefix (path : Str) : Except TreeFailure Unit := do
  ensure (validatePrefix path)
    (.refused (badRequest "invalid_prefix" "non-empty prefix must end with '/'"))
  mapErr .refused (H.authorizePath X ctx permissionGet path)

/-! Snapshot. -/

def lookupTrackedRoot (index : MemoryLocationIndex) (qualified : Str) : Option Hash := do
  let bare ← stripPrefix qualified ('/'::H.localPeerId++['/'])
  let key := bare.rdropWhile (· = '/')
  index.get ('/'::H.localPeerId++ "/system/tree/root/".toList++key)

def rootData (root : Hash) : Bytes := toEcf (.map [field "root" (hashVal root)])

def snapshotEntity (root : Hash) : Except TreeFailure Entity :=
  mapErr (fun e => .failed (.internal e.display)) (Entity.new X typeTreeSnapshot (rootData root))

def relativeTo (start path : Str) : Str := (stripPrefix path start).getD path

/-- The bindings below a prefix, without those a scoped caller may not get. -/
def snapshotBindings (start : Str) (index : MemoryLocationIndex) : OrderedMap Str Hash :=
  (index.list start).foldl (fun bindings entry =>
    if capFilterActive ctx && !H.pathAllowed X ctx permissionGet entry.1 then bindings
    else bindings.insert (relativeTo start entry.1) entry.2) .empty

def buildRoot (bindings : OrderedMap Str Hash) : TreeAction Hash :=
  .onPart TreeState.store (fun s store => { s with store := store }) (TrieFailure.inTree "trie build: ")
    (buildTrie X bindings)

/-- A tracked root stands for all bindings, so a scoped caller is not given it. -/
def handleSnapshot : TreeAction Entity := do
  let start ← .lift (H.effectivePrefix ctx "system/tree:snapshot"
    ((paramField X ctx "prefix").bind Value.asText))
  .lift (H.admitPrefix X ctx start)
  let tracked ← .reading fun s => .ok (H.lookupTrackedRoot s.index start)
  match (if capFilterActive ctx then none else tracked) with
  | some root => .lift (snapshotEntity X root)
  | none => do
    let bindings ← .reading fun s => .ok (H.snapshotBindings X ctx start s.index)
    let root ← buildRoot X bindings
    .lift (snapshotEntity X root)

/-! Extract. -/

def pathsFilter : Option (List Str) := do
  let paths := (← (← paramField X ctx "paths").asArray).filterMap Value.asText
  if paths.isEmpty then none else some paths

def extractBindings (start : Str) (paths : Option (List Str)) (index : MemoryLocationIndex) :
    OrderedMap Str Hash :=
  let found : OrderedMap Str Hash := match paths with
    | some paths => paths.foldl (fun map rel => match index.get (start++rel) with
      | some hash => map.insert rel hash
      | none => map) .empty
    | none => .ofList ((index.list start).map fun entry => (relativeTo start entry.1,entry.2))
  found.filterKeys fun rel => H.pathAllowed X ctx permissionGet (start++rel)

def includeHeld (s : ContentStore) (env : Envelope) (hash : Hash) : Envelope :=
  match s.get hash with
  | some e => env.includeEntity X e
  | none => env

/-- The snapshot, the trie's nodes, then what is bound. -/
def extractEnvelope (order : SetOrder) (s : ContentStore) (bindings : OrderedMap Str Hash)
    (snapshot : Entity) (trieHashes : Finset Hash) : Envelope :=
  let env := (⟨snapshot,.empty⟩ : Envelope).includeEntity X snapshot
  let env := (order.list trieHashes).foldl (fun env h =>
    if h ∈ bindings.values ∨ h = snapshot.contentHash then env else includeHeld X s env h) env
  bindings.values.foldl (includeHeld X s) env

def envelopeEntity (env : Envelope) : Except TreeFailure Entity :=
  mapErr (fun e => .failed (.internal e.display)) (Entity.new X typeEnvelope (Wire.encodeEnvelope env))

/-- The envelope over some bindings. -/
def extractFrom (fuel : ℕ) (order : SetOrder) (bindings : OrderedMap Str Hash) :
    TreeAction Entity := do
  let root ← buildRoot X bindings
  let snapshot ← .lift (snapshotEntity X root)
  let trieHashes ← .reading fun s =>
    mapErr (TrieFailure.inTree "") (collectReachableHashes X s.store fuel root ∅)
  let env ← .reading fun s => .ok (extractEnvelope X order s.store bindings snapshot trieHashes)
  .lift (envelopeEntity X env)

def handleExtract (fuel : ℕ) (order : SetOrder) (quoted : Str → String) : TreeAction Entity := do
  let start ← .lift (H.effectivePrefix ctx "system/tree:extract"
    (((paramField X ctx "prefix").bind Value.asText).map fun raw =>
      EntityUri.qualifyPath raw H.localPeerId))
  .lift (H.admitPrefix X ctx start)
  let paths := pathsFilter X ctx
  -- every entry is checked before any is read
  .lift (mapErr (fun e => .refused (badRequest "invalid_path" e))
    (forEach (validateExtractSubpath quoted) (paths.getD [])))
  let bindings ← .reading fun s => .ok (H.extractBindings X ctx start paths s.index)
  extractFrom X fuel order bindings

/-! Diff. -/

/-- A text bound to the hash in a byte string; anything else spoils the whole map. -/
def flatBinding (kv : Value × Value) : Option (Str × Hash) := do
  return (← kv.1.asText,← hashField kv.2)

/-- A snapshot names the root of its trie; the flat form of earlier versions lists the bindings. -/
def decodeSnapshotBindings (fuel : ℕ) (s : ContentStore) (data : Bytes) :
    Except TrieFailure (Option (OrderedMap Str Hash)) :=
  match (X.fromReader data).toOption.bind Value.asMap with
  | none => pure none
  | some map =>
    match (getField map "root").bind hashField with
    | some root => some <$> collectAllBindings X s fuel root
    | none => pure do
      let bindings ← (← getField map "bindings").asMap
      return .ofList (← bindings.mapM flatBinding)

structure TreeDiff where
  added : OrderedMap Str Hash
  removed : OrderedMap Str Hash
  changed : OrderedMap Str (Hash × Hash)
  unchanged : ℕ

def compareBinding (base : OrderedMap Str Hash) (d : TreeDiff) (kv : Str × Hash) : TreeDiff :=
  match base.get kv.1 with
  | none => { d with added := d.added.insert kv.1 kv.2 }
  | some baseHash =>
    if baseHash ≠ kv.2 then { d with changed := d.changed.insert kv.1 (baseHash,kv.2) }
    else { d with unchanged := d.unchanged+1 }

def compareBindings (base target : OrderedMap Str Hash) : TreeDiff :=
  let d := target.entries.foldl (compareBinding base) ⟨.empty,.empty,.empty,0⟩
  { d with removed := base.entries.foldl (fun removed kv =>
      if (target.get kv.1).isNone then removed.insert kv.1 kv.2 else removed) .empty }

def bindingPairs (m : OrderedMap Str Hash) : Value :=
  .map (m.entries.map fun kv => (.text kv.1,hashVal kv.2))

def diffData (baseHash targetHash : Hash) (d : TreeDiff) : Bytes :=
  toEcf (.map [field "added" (bindingPairs d.added),field "base" (hashVal baseHash),
    field "changed" (.map (d.changed.entries.map fun kv => (.text kv.1,
      .map [field "base_hash" (hashVal kv.2.1),field "target_hash" (hashVal kv.2.2)]))),
    field "removed" (bindingPairs d.removed),field "target" (hashVal targetHash),
    field "unchanged" (integerI64 d.unchanged)])

def diffEntity (baseHash targetHash : Hash) (d : TreeDiff) : Except TreeFailure Entity :=
  mapErr (fun e => .failed (.internal e.display))
    (Entity.new X typeTreeDiff (diffData baseHash targetHash d))

def paramsMap (what : String) : Except TreeFailure (List (Value × Value)) := do
  let params ← okOr (decodeParams X ctx) (.failed (.invalidParams ("params required for "++what)))
  okOr params.asMap (.failed (.invalidParams "params must be a map"))

def bytesParam (map : List (Value × Value)) (name : String) : Except TreeFailure Bytes :=
  okOr ((getField map name).bind Value.asBytes) (.failed (.invalidParams (name++ " hash required")))

def hashParam (bytes : Bytes) : Except TreeFailure Hash :=
  mapErr (fun e => .failed (.invalidParams e.display)) (Hash.fromBytes bytes)

/-- The store first, then what came with the request. -/
def resolveSnapshot (s : ContentStore) (hash : Hash) : Option Entity :=
  (s.get hash).or (ctx.included.get hash)

def operandBindings (fuel : ℕ) (s : ContentStore) (name : String) (e : Entity) :
    Except TreeFailure (OrderedMap Str Hash) := do
  let found ← mapErr (TrieFailure.inTree "") (decodeSnapshotBindings X fuel s e.data)
  okOr found (.failed (.invalidParams ("failed to decode "++name++ " snapshot bindings")))

def snapshotNotFound (name : String) : TreeFailure :=
  .refused ⟨404,"snapshot_not_found",name++ " snapshot not found"⟩

def handleDiff (fuel : ℕ) (s : ContentStore) : Except TreeFailure Entity := do
  let map ← paramsMap X ctx "diff"
  let baseBytes ← bytesParam map "base"
  let targetBytes ← bytesParam map "target"
  let baseHash ← hashParam baseBytes
  let targetHash ← hashParam targetBytes
  let base ← okOr (resolveSnapshot ctx s baseHash) (snapshotNotFound "base")
  let target ← okOr (resolveSnapshot ctx s targetHash) (snapshotNotFound "target")
  let baseBindings ← operandBindings X fuel s "base" base
  let targetBindings ← operandBindings X fuel s "target" target
  diffEntity X baseHash targetHash (compareBindings baseBindings targetBindings)

end TreeHandler
end EntityCore
