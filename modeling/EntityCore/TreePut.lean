import EntityCore.Documents
import EntityCore.Listing

/-! Writes of the tree. A put names a path and carries an entity with its hash; it is a receipt and
not an authoring path. The entity travels inside the parameters, and what arrives is read by the
CBOR library and written again before its hash is checked. -/
namespace EntityCore

open Ecf Outcome ByteCode Strings TreeHandler Action

def typeTreePutResult : Str := "system/tree/put-result".toList

/-- Why a submitted value is no entity this peer can check. -/
inductive PutAdmission where
  | notAnEntity (message : String)
  | unsupportedContentHashFormat (message : String)

def PutAdmission.refusal : PutAdmission → Failure
  | .notAnEntity m =>
    badRequest "invalid_request" ("submitted entity is not a core/entity: "++m)
  | .unsupportedContentHashFormat m =>
    badRequest "unsupported_content_hash_format" ("cannot verify the submitted content hash: "++m)

structure EntityFields where
  entityType : Option Str
  data : Option Bytes
  contentHash : Option Hash

namespace EntityFields

def admitHash (bytes : Bytes) : Except PutAdmission Hash :=
  mapErr (fun e => match e with
    | .unsupportedAlgorithm _ | .reservedFormat _ =>
      .unsupportedContentHashFormat ("content_hash: "++HashError.display e)
    | _ => .notAnEntity ("content_hash: "++HashError.display e)) (Hash.fromBytes bytes)

/-- The data is written again by the library that read it. -/
def scanField (X : Platform) (acc : EntityFields) (kv : Value × Value) :
    Except PutAdmission EntityFields :=
  match kv.1.asText with
  | none => .ok acc
  | some name =>
    if name = "type".toList then do
      let s ← okOr kv.2.asText (.notAnEntity "'type' is present but is not a text string")
      ensure (!s.isEmpty) (.notAnEntity "'type' is present but empty")
      .ok { acc with entityType := some s }
    else if name = "data".toList then do
      let buf ← mapErr (fun e => .notAnEntity ("re-encode data: "++e)) (X.intoWriter kv.2)
      .ok { acc with data := some buf }
    else if name = "content_hash".toList then do
      let bytes ← okOr kv.2.asBytes
        (.notAnEntity "'content_hash' is present but is not a byte string")
      let hash ← admitHash bytes
      .ok { acc with contentHash := some hash }
    else .ok acc

def toEntity (fields : EntityFields) : Except PutAdmission Entity := do
  let entityType ← okOr fields.entityType (.notAnEntity "missing 'type' field")
  let data ← okOr fields.data (.notAnEntity "missing 'data' field")
  let contentHash ← okOr fields.contentHash (.notAnEntity ("missing 'content_hash' field — "++
    "`put` is a receipt path and does not author a hash on the submitter's behalf "++
    "(ENTITY-CORE-PROTOCOL §6.3; the SDK's construction step is SDK-OPERATIONS §3.2)"))
  .ok ⟨entityType,data,contentHash⟩

end EntityFields

def decodeEntityFromCbor (X : Platform) (raw : Bytes) : Except PutAdmission Entity := do
  let value ← mapErr (fun e => .notAnEntity ("cbor decode: "++e)) (X.fromReader raw)
  let map ← okOr value.asMap (.notAnEntity "entity must be a CBOR map")
  let fields ← foldE (EntityFields.scanField X) ⟨none,none,none⟩ map
  fields.toEntity

def validationRefusal (e : EntityError) : Failure :=
  match e with
  | .hashMismatch _ _ => badRequest "hash_mismatch"
      ("content hash does not match the entity it addresses: "++e.display)
  | _ => badRequest "invalid_request" ("entity is structurally invalid: "++e.display)

def firstIllegalPathByte (path : Str) : Option UInt8 :=
  (utf8 path).find? fun b => b < 0x20 || b = 0x7F

def checkPathBytes (path : Str) : Except Failure Unit :=
  match firstIllegalPathByte path with
  | some bad => .error (badRequest "invalid_path"
      ("path contains illegal control byte "++HashError.hexCode bad++ " (V7 §1.4)"))
  | none => .ok ()

def casRefusal (path : Str) : CasError → TreeFailure
  | .notFound => .refused ⟨409,"hash_mismatch","no binding at "++String.ofList path++
      " for expected_hash"⟩
  | .mismatch actual => .refused ⟨409,"hash_mismatch","expected_hash mismatch at "++
      String.ofList path++ ": actual "++actual.display⟩

namespace TreeHandler

variable (X : Platform) (H : TreeHandler) (ctx : TreeContext)

def expectedHash : Except TreeFailure (Option Hash) :=
  match paramField X ctx "expected_hash" with
  | none => .ok none
  | some .null => .ok none
  | some v => match v.asBytes with
    | some bytes => (mapErr (fun e => .failed (.invalidParams ("expected_hash: "++e.display)))
        (Hash.fromBytes bytes)).map some
    | none => .error (.refused (badRequest "invalid_params" "expected_hash must be bytes"))

/-- A put of nothing removes the binding. -/
def removes : Option Value → Bool
  | none => true
  | some .null => true
  | some v => v.asBytes = some []

def putResult (fields : List (Value × Value)) : Except TreeFailure Entity :=
  mapErr (fun e => .failed (.internal e.display))
    (Entity.new X typeTreePutResult (toEcf (.map fields)))

def removed (done : Bool) : Except TreeFailure Entity := putResult X [field "removed" (.bool done)]

def removeBinding (path : Str) (expected : Option Hash) : TreeAction Entity := fun s =>
  match expected with
  | some expected =>
    if expected.isZero then
      match s.index.get path with
      | none => (removed X false,s)
      | some actual => (.error (.refused ⟨409,"hash_mismatch",
          "expected_hash zero (expect absent) but binding present at "++String.ofList path++
          ": actual "++actual.display⟩),s)
    else match s.index.compareAndRemove path expected with
      | .ok (_,index) => (removed X true,{ s with index := index })
      | .error e => (.error (casRefusal path e),s)
  | none => match s.index.remove path with
    | (some _,index) => (removed X true,{ s with index := index })
    | (none,_) => (.error (.refused ⟨404,"not_found","path not bound: "++String.ofList path⟩),s)

def bindPath (path : Str) (expected : Option Hash) (hash : Hash) : TreeAction Unit := fun s =>
  match expected with
  | none => (.ok (),{ s with index := s.index.set path hash })
  | some expected =>
    match (if expected.isZero then s.index.compareAndCreate path hash
      else s.index.compareAndSwap path expected hash) with
    | .ok index => (.ok (),{ s with index := index })
    | .error e => (.error (casRefusal path e),s)

/-- The entity of a put, admitted in two steps: its structure, then its hash. -/
def admitEntity (v : Value) : Except TreeFailure Entity := do
  let raw ← mapErr (fun e => .failed (.internal ("encode entity bytes: "++e))) (X.intoWriter v)
  let entity ← mapErr (fun e => .refused e.refusal) (decodeEntityFromCbor X raw)
  mapErr (fun e => .refused (validationRefusal e)) (entity.validate X)
  .ok entity

def storeEntity (path : Str) (expected : Option Hash) (v : Value) : TreeAction Entity := do
  let entity ← .lift (admitEntity X v)
  .modify fun s => { s with store := s.store.put entity }
  bindPath path expected entity.contentHash
  .lift (putResult X [field "content_hash" (hashVal entity.contentHash)])

/-- Everything that is checked of a put before it touches the tree. -/
def putPath : Except TreeFailure Str := do
  let path ← mapErr .refused
    (requireSingleResourcePath ctx.resourceTarget H.localPeerId "system/tree:put (the bind path)")
  mapErr .refused (H.authorizePath X ctx permissionPut path)
  mapErr .refused (checkPathBytes path)
  .ok path

def handlePut : TreeAction Entity := do
  let path ← .lift (H.putPath X ctx)
  let expected ← .lift (expectedHash X ctx)
  match paramField X ctx "entity" with
  | none => removeBinding X path expected
  | some v =>
    if removes (some v) then removeBinding X path expected
    else storeEntity X path expected v

end TreeHandler

/-! A submitted entity. -/

namespace EntityFields

section Submitted

variable {X : Platform} {t : Str} {v : Value} {h : Hash}

/-- The fields of an entity as it is submitted, its data as the library read it. -/
def submitted (t : Str) (v : Value) (h : Hash) : List (Value × Value) :=
  [field "type" (.text t),field "data" v,field "content_hash" (hashVal h)]

theorem scanField_type (acc : EntityFields) : scanField X acc (field "type" (.text t)) =
    if t = [] then .error (.notAnEntity "'type' is present but empty")
    else .ok { acc with entityType := some t } := by
  cases t <;> rfl

theorem scanField_data (acc : EntityFields) : scanField X acc (field "data" v) =
    (mapErr (fun e => .notAnEntity ("re-encode data: "++e)) (X.intoWriter v)).map fun buf =>
      { acc with data := some buf } := by
  have hne : ¬ "data".toList = "type".toList := by decide
  unfold scanField field
  simp only [Value.asText,hne,if_false,if_true]
  cases X.intoWriter v <;> rfl

theorem scanField_contentHash (acc : EntityFields) :
    scanField X acc (field "content_hash" (hashVal h)) =
      .ok { acc with contentHash := some h } := by
  have hne : ¬ "content_hash".toList = "type".toList := by decide
  have hne' : ¬ "content_hash".toList = "data".toList := by decide
  have hadmitted : admitHash h.toBytes = .ok h := by
    unfold admitHash
    rw [Hash.fromBytes_toBytes]
    rfl
  unfold scanField field
  simp only [Value.asText,hne,hne',if_false,if_true,hashVal,Value.asBytes,okOr]
  show (admitHash h.toBytes >>= fun hash => _) = _
  rw [hadmitted]
  rfl

/-- In any order the fields give the same: the data is what the library writes. -/
theorem scan_submitted {map : List (Value × Value)} (hmap : map.Perm (submitted t v h))
    (fields : EntityFields) : foldE (scanField X) ⟨none,none,none⟩ map = .ok fields ↔
      t ≠ [] ∧ ∃ d, X.intoWriter v = .ok d ∧ fields = ⟨some t,some d,some h⟩ := by
  have hmem := List.mem_permutations.mpr hmap
  simp [submitted,List.permutations,List.permutationsAux,List.permutationsAux.rec,
    List.permutationsAux2] at hmem
  by_cases ht : t = []
  · rcases hmem with rfl | rfl | rfl | rfl | rfl | rfl <;>
      cases hw : X.intoWriter v <;>
      simp [foldE,scanField_type,scanField_data,scanField_contentHash,ht,hw,mapErr,bind,Except.bind,
        Except.map]
  · rcases hmem with rfl | rfl | rfl | rfl | rfl | rfl <;>
      cases hw : X.intoWriter v <;>
      simp [foldE,scanField_type,scanField_data,scanField_contentHash,ht,hw,mapErr,bind,Except.bind,
        Except.map,eq_comm]

end Submitted

end EntityFields

/-! The receipt. -/

namespace TreeHandler

section Receipt

variable {X : Platform} {H : TreeHandler} {ctx : TreeContext}

/-- The parameters embed the data of an entity: the library reads them as the entity's fields, the
data as it reads the data alone, and what it writes of the fields it reads back. -/
structure Submits (X : Platform) (ctx : TreeContext) (e : Entity) (v : Value) : Prop where
  reads : X.fromReader e.data = .ok v
  embeds : ∃ params map raw, X.fromReader ctx.params.data = .ok (.map params) ∧
    getField params "entity" = some (.map map) ∧ getField params "expected_hash" = none ∧
    map.Perm (EntityFields.submitted e.entityType v e.contentHash) ∧
    X.intoWriter (.map map) = .ok raw ∧ X.fromReader raw = .ok (.map map)

/-- A path to put at: what the checks let through and the index can keep, and no listing. -/
structure PutAt (X : Platform) (H : TreeHandler) (ctx : TreeContext) (path : Str) : Prop where
  admitted : H.putPath X ctx = .ok path
  storable : pathIsStorable path = true
  leaf : (path.isEmpty || endsWith path ['/']) = false

/-- A request that reads the path, by a caller who may. -/
structure ReadsAt (X : Platform) (H : TreeHandler) (reader : TreeContext) (suffix path : Str) :
    Prop where
  target : H.readTarget reader suffix = .ok path
  allowed : H.authorizePath X reader permissionGet path = .ok ()

theorem admitEntity_submitted {map : List (Value × Value)} {raw : Bytes} {t : Str} {v : Value}
    {h : Hash} (hwrites : X.intoWriter (.map map) = .ok raw)
    (hreads : X.fromReader raw = .ok (.map map))
    (hmap : map.Perm (EntityFields.submitted t v h)) (e : Entity) :
    admitEntity X (.map map) = .ok e ↔
      t ≠ [] ∧ ∃ d, X.intoWriter v = .ok d ∧ e = ⟨t,d,h⟩ ∧ e.validate X = .ok () := by
  have hdecoded (d : Entity) : decodeEntityFromCbor X raw = .ok d ↔
      t ≠ [] ∧ ∃ b, X.intoWriter v = .ok b ∧ d = ⟨t,b,h⟩ := by
    have hscan := EntityFields.scan_submitted (X := X) hmap
    unfold decodeEntityFromCbor
    rw [hreads]
    show (foldE (EntityFields.scanField X) ⟨none,none,none⟩ map >>= EntityFields.toEntity) = _ ↔ _
    constructor
    · intro hd
      cases hf : foldE (EntityFields.scanField X) ⟨none,none,none⟩ map with
      | error err =>
        rw [hf] at hd
        cases hd
      | ok fields =>
        obtain ⟨ht,b,hb,rfl⟩ := (hscan fields).mp hf
        rw [hf] at hd
        exact ⟨ht,b,hb,(Except.ok.inj hd).symm⟩
    · rintro ⟨ht,b,hb,rfl⟩
      rw [(hscan _).mpr ⟨ht,b,hb,rfl⟩]
      rfl
  unfold admitEntity
  rw [hwrites]
  show (mapErr (fun e => TreeFailure.refused (PutAdmission.refusal e)) (decodeEntityFromCbor X raw) >>=
    fun entity => _) = _ ↔ _
  cases hd : decodeEntityFromCbor X raw with
  | error err =>
    constructor
    · intro he
      cases he
    · rintro ⟨ht,d,hw,rfl,-⟩
      have hok := (hdecoded _).mpr ⟨ht,d,hw,rfl⟩
      rw [hd] at hok
      cases hok
  | ok entity =>
    obtain ⟨ht,d,hw,rfl⟩ := (hdecoded entity).mp hd
    cases hv : (⟨t,d,h⟩ : Entity).validate X with
    | error err =>
      simp only [mapErr,bind,Except.bind,hv,hw,reduceCtorEq,false_iff]
      rintro ⟨-,d',hd',rfl,hv'⟩
      obtain rfl := Except.ok.inj hd'
      rw [hv] at hv'
      cases hv'
    | ok u =>
      simp only [mapErr,bind,Except.bind,hv,hw,Except.ok.injEq]
      constructor
      · rintro rfl
        exact ⟨ht,d,rfl,rfl,hv⟩
      · rintro ⟨-,d',rfl,rfl,-⟩
        rfl

theorem handlePut_submitted {path : Str} {e : Entity} {v : Value}
    (hpath : H.putPath X ctx = .ok path) (hsubmits : Submits X ctx e v) (s : TreeState)
    (r : Entity) (s' : TreeState) :
    H.handlePut X ctx s = (.ok r,s') ↔ e.entityType ≠ [] ∧ ∃ d, X.intoWriter v = .ok d ∧
        (⟨e.entityType,d,e.contentHash⟩ : Entity).validate X = .ok () ∧
        putResult X [field "content_hash" (hashVal e.contentHash)] = .ok r ∧
        s' = ⟨s.store.put ⟨e.entityType,d,e.contentHash⟩,s.index.set path e.contentHash⟩ := by
  obtain ⟨params,map,raw,hparams,hentity,hexpected,hmap,hwrites,hreads⟩ := hsubmits.embeds
  have hfield : paramField X ctx "entity" = some (.map map) := by
    simp [paramField,decodeParams,hparams,Except.toOption,Value.asMap,hentity]
  have hnone : expectedHash X ctx = .ok none := by
    have habsent : paramField X ctx "expected_hash" = none := by
      simp [paramField,decodeParams,hparams,Except.toOption,Value.asMap,hexpected]
    simp [expectedHash,habsent]
  have hput : H.handlePut X ctx s = storeEntity X path none (.map map) s := by
    unfold handlePut
    rw [hpath,bind_of_ok (lift_apply _ s),hnone, bind_of_ok (lift_apply _ s),hfield]
    rfl
  rw [hput]
  have hadmits := admitEntity_submitted hwrites hreads hmap
  unfold storeEntity
  cases ha : admitEntity X (.map map) with
  | error err =>
    constructor
    · intro h
      cases h
    · rintro ⟨ht,d,hd,hv,-⟩
      have hok := (hadmits _).mpr ⟨ht,d,hd,rfl,hv⟩
      rw [ha] at hok
      cases hok
  | ok entity =>
    obtain ⟨ht,d,hd,rfl,hv⟩ := (hadmits entity).mp ha
    rw [bind_of_ok (lift_apply _ s),bind_of_ok (modify_apply _ s)]
    show (putResult X [field "content_hash" (hashVal e.contentHash)],_) = _ ↔ _
    rw [Prod.mk.injEq]
    constructor
    · rintro ⟨hr,hs⟩
      exact ⟨ht,d,hd,hv,hr,hs.symm⟩
    · rintro ⟨-,d',hd',-,hr,rfl⟩
      rw [hd] at hd'
      obtain rfl := Except.ok.inj hd'
      exact ⟨hr,rfl⟩

/-- The put is answered, and the path then holds the entity as it was submitted. -/
def FaithfulReceipt (X : Platform) (H : TreeHandler) (ctx reader : TreeContext) (suffix : Str)
    (e : Entity) (s : TreeState) : Prop :=
  ∃ r s', H.handlePut X ctx s = (.ok r,s') ∧ s'.store.get e.contentHash = some e ∧
    H.handleGet X reader suffix s' = .ok (.entity e)

/-- Whatever a put stores is the entity its hash says it is. -/
def AcceptsValid (X : Platform) (H : TreeHandler) (ctx : TreeContext) (s : TreeState) : Prop :=
  ∀ v r s', paramField X ctx "entity" = some v → removes (some v) = false →
    H.handlePut X ctx s = (.ok r,s') → ∃ e, e.validate X = .ok () ∧ s'.store = s.store.put e

theorem admitEntity_valid {v : Value} {e : Entity} (h : admitEntity X v = .ok e) :
    e.validate X = .ok () := by
  unfold admitEntity at h
  simp only [mapErr,bind,Except.bind] at h
  split at h
  · cases h
  · split at h
    · cases h
    · split at h
      · cases h
      · rename_i entity _ _ _ heq
        obtain rfl := Except.ok.inj h
        split at heq
        · rename_i hv
          rw [hv]
        · cases heq

theorem bindPath_store {path : Str} {expected : Option Hash} {h : Hash} {s s' : TreeState}
    (hb : bindPath path expected h s = (.ok (),s')) : s'.store = s.store := by
  unfold bindPath at hb
  cases expected with
  | none =>
    obtain ⟨-,rfl⟩ := Prod.mk.inj hb
    rfl
  | some expected =>
    dsimp only at hb
    split at hb
    · obtain ⟨-,rfl⟩ := Prod.mk.inj hb
      rfl
    · cases hb

theorem accepts_valid (s : TreeState) : AcceptsValid X H ctx s := by
  intro v r s' hv hkeeps h
  unfold handlePut at h
  obtain ⟨path,s₁,h₁,h⟩ := bind_eq_ok.mp h
  obtain ⟨expected,s₂,h₂,h⟩ := bind_eq_ok.mp h
  obtain ⟨-,rfl⟩ := Prod.mk.inj h₁
  obtain ⟨-,rfl⟩ := Prod.mk.inj h₂
  rw [hv] at h
  simp only [hkeeps,Bool.false_eq_true,if_false] at h
  unfold storeEntity at h
  obtain ⟨entity,s₃,h₃,h⟩ := bind_eq_ok.mp h
  obtain ⟨hadmits,rfl⟩ := Prod.mk.inj h₃
  rw [bind_of_ok (modify_apply _ s)] at h
  obtain ⟨u,s₄,h₄,h⟩ := bind_eq_ok.mp h
  obtain ⟨-,rfl⟩ := Prod.mk.inj h
  exact ⟨entity,admitEntity_valid hadmits,bindPath_store h₄⟩

end Receipt

end TreeHandler

/-! An integer in two bytes that fits in one. -/

namespace LongInteger

open Sample TreeHandler

def handler : TreeHandler := ⟨"bob".toList⟩

def five : Value := integerI64 5

/-- The author wrote the five with a byte of its own. -/
def note : Entity := ⟨"app/note".toList,[0x18,0x05],
  sha256Hash 0x0c3d1b96a34673bf7351be32d38ed5c8e8939281a823a905647e6d89b9579f40⟩

def fields : List (Value × Value) :=
  EntityFields.submitted note.entityType five note.contentHash

def params : List (Value × Value) := [field "entity" (.map fields)]

/-- The library reads both spellings of the five and writes the short one. -/
def crates : Platform :=
  let short := platform [.map params,.map fields,five]
    [(ecfForHash note.entityType note.data,
      0x0c3d1b96a34673bf7351be32d38ed5c8e8939281a823a905647e6d89b9579f40)] []
  { short with fromReader := fun b => if b = note.data then .ok five else short.fromReader b }

def request : TreeContext where
  isExternal := false
  callerCapability := none
  pattern := []
  resourceTarget := some ⟨["/bob/app/note".toList],[]⟩
  params := ⟨"system/tree/put-request".toList,toEcf (.map params),sha256Hash 0⟩
  included := .empty

def notePath : Str := "/bob/app/note".toList

def blank : TreeState := ⟨⟨[]⟩,⟨.empty⟩⟩

theorem targets_note : effectiveTargets request.resourceTarget handler.localPeerId = [notePath] := by
  decide

theorem note_canonical : canonicalize notePath handler.localPeerId = notePath := by decide

theorem puts_at_note : PutAt crates handler request notePath where
  admitted := by
    have hsubject : requireSingleResourcePath request.resourceTarget handler.localPeerId
        "system/tree:put (the bind path)" = .ok notePath := by
      simp only [requireSingleResourcePath,optionalSingleResourcePath,singleEffectiveTarget,
        targets_note,note_canonical]
      rfl
    unfold putPath
    rw [hsubject]
    rfl
  storable := by decide +kernel
  leaf := by decide +kernel

theorem reads_note : ReadsAt crates handler request [] notePath where
  target := by
    simp only [readTarget,singleEffectiveTarget,targets_note,note_canonical]
    rfl
  allowed := rfl

theorem reads_known {w : Value} (hw : w ∈ [.map params,.map fields,five])
    (hne : toEcf w ≠ note.data) : crates.fromReader (toEcf w) = .ok w := by
  show (if toEcf w = note.data then _ else _) = _
  rw [if_neg hne]
  exact reads_document (by decide) hw

theorem submits_note : Submits crates request note five where
  reads := rfl
  embeds := ⟨params,fields,toEcf (.map fields),reads_known (by simp) (by decide),rfl,rfl,
    List.Perm.refl _,rfl,reads_known (by simp) (by decide)⟩

theorem note_valid : note.validate crates = .ok () := by decide +kernel

end LongInteger

open LongInteger TreeHandler

end EntityCore
