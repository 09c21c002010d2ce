import EntityCore.Closure

/-! Ingest: the entities of a request go into the content store one at a time, each with a
binding below the namespace. What stops at a bad entry has bound the ones before it. -/
namespace EntityCore

open Ecf Outcome Strings

/-! Location indexes, by what their lookups show. -/

/-- A write binds its path, if the index takes it, and no other. -/
structure PathIndex (σ : Type) where
  get : σ → Str → Option Hash
  set : σ → Str → Hash → σ
  takes : Str → Bool
  get_set : ∀ i path hash q,
    get (set i path hash) q = if q = path ∧ takes path = true then some hash else get i q

def memoryIndex : PathIndex MemoryLocationIndex where
  get := MemoryLocationIndex.get
  set := MemoryLocationIndex.set
  takes := pathIsStorable
  get_set := MemoryLocationIndex.get_set

/-! The handler. -/

section Ingest

variable (X : Platform)

/-- Of several fields with one key, the last counts. -/
def decodeCoreEntity (value : Value) : Except String Entity := do
  let m ← okOr value.asMap "entity not a map"
  let (etype,edata) := m.foldl (fun found kv =>
    if kv.1.asText = some "type".toList then (kv.2.asText,found.2)
    else if kv.1.asText = some "data".toList then (found.1,some kv.2)
    else found) (none,none)
  let etype ← okOr etype "entity missing type"
  mapErr EntityError.display (Entity.new X etype (toEcf (edata.getD (.map []))))

def rootEntity (value : Value) : Except Failure Entity :=
  mapErr (badRequest "invalid_envelope") (decodeCoreEntity X value)

def ingestedEntry (entry : Value × Value) : Except Failure Entity := do
  let keyHash ← mapErr (fun m => badRequest "invalid_envelope" ("included key: "++m))
    (decodeHashRecord entry.1)
  let entity ← mapErr (fun m => badRequest "invalid_envelope" ("included entity: "++m))
    (decodeCoreEntity X entry.2)
  ensure (entity.contentHash = keyHash)
    (badRequest "hash_mismatch" "included entity hash does not match key")
  return entity

def loneEntity (value : Value) : Except Failure Entity :=
  mapErr (badRequest "invalid_request") (decodeCoreEntity X value)

def ingestResultValue (root : Option Entity) (rootHash : Hash) (count : ℕ) : Value :=
  .map ((root.toList.map fun r => field "root" (.map [
      field "type" (.text r.entityType),
      field "data" ((X.fromReader r.data).toOption.getD (.map [])),
      field "content_hash" (hashVal r.contentHash)]))++
    [field "root_hash" (hashVal rootHash),field "ingested_count" (uinteger count)])

def ingestResult (root : Option Entity) (rootHash : Hash) (count : ℕ) : Except Failure Entity :=
  mapErr (fun e => badRequest "encode_failed" e.display) (Entity.new X
    "system/content/ingest-result".toList (toEcf (ingestResultValue X root rootHash count)))

/-- The content store, and the index if one is wired. -/
structure IngestState (σ : Type) where
  store : ContentStore
  index : Option σ

def bindingPath (namespaceUri : Str) (h : Hash) : Str := namespaceUri++ '/'::h.toHex

variable {σ : Type} (I : PathIndex σ) (refuses : ContentStore → Entity → Option String)
  (namespaceUri : Str)

def IngestState.get (s : IngestState σ) (path : Str) : Option Hash :=
  s.index.bind fun i => I.get i path

def writeNamespaceBinding (h : Hash) (s : IngestState σ) : IngestState σ :=
  { s with index := s.index.map fun i => I.set i (bindingPath namespaceUri h) h }

/-- An entity that has been decoded is stored and bound; a store may refuse it. -/
def ingestOne (decoded : Except Failure Entity) : Action (IngestState σ) Failure Entity := fun s =>
  match decoded with
  | .error failure => (.error failure,s)
  | .ok entity => match refuses s.store entity with
    | some text => (.error (badRequest "store_failed" ("store error: "++text)),s)
    | none => (.ok entity,writeNamespaceBinding I namespaceUri entity.contentHash
        { s with store := s.store.put entity })

/-- A field counts when it is there and not null. -/
def present : Option Value → Option Value
  | none | some .null => none
  | some v => some v

def includedEntries (envelope : Value) : List (Value × Value) :=
  ((envelope.lookup "included").bind (·.asMap)).getD []

/-- The entries one after the other. -/
def ingestAll : List (Except Failure Entity) → Action (IngestState σ) Failure (List Entity)
  | [] => pure []
  | entry::rest => do
    let entity ← ingestOne I refuses namespaceUri entry
    let later ← ingestAll rest
    pure (entity::later)

/-- What is ingested, and below which namespace. -/
inductive IngestInput where
  | envelope (value : Value)
  | entity (value : Value)

def ingestInput (localPeerId : Str) (resourceTarget : Option ResourceTarget) (params : Bytes) :
    Except Failure (Str × IngestInput) := do
  let namespaceUri ← requireSingleResourcePath resourceTarget localPeerId
    "system/content:ingest (the namespace path)"
  let params ← mapErr (fun e => badRequest "invalid_params" ("cbor: "++e)) (X.fromReader params)
  match present (params.lookup "envelope"),present (params.lookup "entity") with
  | some _, some _ =>
    .error (badRequest "ambiguous_input" "specify envelope or entity, not both")
  | none, none => .error (badRequest "missing_input" "specify envelope or entity")
  | some envelope, none => return (namespaceUri,.envelope envelope)
  | none, some entity => return (namespaceUri,.entity entity)

/-- The entries in order: the root, if there is one, and what is included. -/
def IngestInput.entries : IngestInput → List (Except Failure Entity)
  | .envelope value => (present (value.lookup "root")).toList.map (rootEntity X)++
      (includedEntries value).map (ingestedEntry X)
  | .entity value => [loneEntity X value]

/-- The result once all entries are in. -/
def ingestAnswer (input : IngestInput) (entities : List Entity) : Except Failure Entity :=
  match input with
  | .entity _ =>
    ingestResult X none ((entities.head?.map (·.contentHash)).getD Hash.zero) entities.length
  | .envelope value =>
    let root := (present (value.lookup "root")).bind fun _ => entities.head?
    ingestResult X root ((root.map (·.contentHash)).getD Hash.zero) entities.length

def handleIngest (localPeerId : Str) (resourceTarget : Option ResourceTarget) (params : Bytes) :
    Action (IngestState σ) Failure Entity := do
  let (namespaceUri,input) ← .lift (ingestInput X localPeerId resourceTarget params)
  let entities ← ingestAll I refuses namespaceUri (input.entries X)
  .lift (ingestAnswer X input entities)

end Ingest

/-! The entries in order, up to the first that is refused. -/

section Admitted

variable (refuses : ContentStore → Entity → Option String)

/-- The entities before the first entry that is refused, and the refusal. -/
def admitted : ContentStore → List (Except Failure Entity) → List Entity × Option Failure
  | _, [] => ([],none)
  | _, .error failure::_ => ([],some failure)
  | store, .ok entity::rest => match refuses store entity with
    | some text => ([],some (badRequest "store_failed" ("store error: "++text)))
    | none =>
      let later := admitted (store.put entity) rest
      (entity::later.1,later.2)

variable {σ : Type} (I : PathIndex σ) (namespaceUri : Str)

/-- The state after these entities. -/
def IngestState.after (entities : List Entity) (s : IngestState σ) : IngestState σ :=
  entities.foldl (fun s entity => writeNamespaceBinding I namespaceUri entity.contentHash
    { s with store := s.store.put entity }) s

theorem ingestAll_run (entries : List (Except Failure Entity)) (s : IngestState σ) :
    ingestAll I refuses namespaceUri entries s =
      ((match (admitted refuses s.store entries).2 with
        | none => .ok (admitted refuses s.store entries).1
        | some failure => .error failure),
      s.after I namespaceUri (admitted refuses s.store entries).1) := by
  induction entries generalizing s with
  | nil => rfl
  | cons entry rest ih =>
    cases entry with
    | error failure => rfl
    | ok entity =>
      cases hrefuses : refuses s.store entity with
      | some text =>
        show Action.andThen _ _ s = _
        simp only [Action.andThen,ingestOne,admitted,hrefuses]
        rfl
      | none =>
        have hrest := ih (writeNamespaceBinding I namespaceUri entity.contentHash
          { s with store := s.store.put entity })
        show Action.andThen _ _ s = _
        simp only [Action.andThen,ingestOne,admitted,hrefuses]
        show Action.andThen _ _ _ = _
        simp only [Action.andThen,hrest]
        have hstore : (writeNamespaceBinding I namespaceUri entity.contentHash
          { s with store := s.store.put entity }).store = s.store.put entity := rfl
        rw [hstore]
        cases (admitted refuses (s.store.put entity) rest).2 <;> rfl

end Admitted

/-! What the handler leaves. -/

section Trace

variable {X : Platform} {refuses : ContentStore → Entity → Option String} {σ : Type}
  {I : PathIndex σ} {namespaceUri : Str}

def IngestState.takes (I : PathIndex σ) (s : IngestState σ) (path : Str) : Bool :=
  s.index.isSome && I.takes path

theorem get_binding (h : Hash) (s : IngestState σ) (q : Str) :
    (writeNamespaceBinding I namespaceUri h s).get I q =
      if q = bindingPath namespaceUri h ∧ s.takes I (bindingPath namespaceUri h) = true
      then some h else s.get I q := by
  unfold writeNamespaceBinding IngestState.get IngestState.takes
  cases s.index with
  | none => simp
  | some i => simp [I.get_set]

@[simp] theorem takes_binding (h : Hash) (s : IngestState σ) (q : Str) :
    (writeNamespaceBinding I namespaceUri h s).takes I q = s.takes I q := by
  simp [writeNamespaceBinding,IngestState.takes]

theorem bindingPath_inj {g h : Hash} (he : bindingPath namespaceUri g = bindingPath namespaceUri h) :
    g = h := Hash.toHex_inj (List.cons_inj_right '/' |>.mp (List.append_cancel_left he))

theorem after_elsewhere {entities : List Entity} {s : IngestState σ} {q : Str}
    (h : ∀ e ∈ entities, q = bindingPath namespaceUri e.contentHash → s.takes I q = false) :
    (s.after I namespaceUri entities).get I q = s.get I q := by
  induction entities generalizing s with
  | nil => rfl
  | cons e rest ih =>
    have hone := @get_binding σ I namespaceUri e.contentHash
      { s with store := s.store.put e } q
    have hsame : s.after I namespaceUri (e::rest) = (writeNamespaceBinding I namespaceUri
        e.contentHash { s with store := s.store.put e }).after I namespaceUri rest := rfl
    rw [hsame,ih,hone,if_neg]
    · rfl
    · rintro ⟨rfl,htakes⟩
      exact Bool.false_ne_true ((h e List.mem_cons_self rfl).symm.trans htakes)
    · intro e' he' hq
      rw [takes_binding]
      exact h e' (List.mem_cons_of_mem _ he') hq

theorem after_bound {entities : List Entity} {s : IngestState σ} {e : Entity} (he : e ∈ entities)
    (htakes : s.takes I (bindingPath namespaceUri e.contentHash) = true) :
    (s.after I namespaceUri entities).get I (bindingPath namespaceUri e.contentHash) =
      some e.contentHash := by
  induction entities generalizing s e with
  | nil => cases he
  | cons x rest ih =>
    have hsame : s.after I namespaceUri (x::rest) = (writeNamespaceBinding I namespaceUri
        x.contentHash { s with store := s.store.put x }).after I namespaceUri rest := rfl
    rw [hsame]
    by_cases hlater : ∃ y ∈ rest, y.contentHash = e.contentHash
    · obtain ⟨y,hy,hh⟩ := hlater
      rw [← hh] at htakes ⊢
      exact ih (e := y) hy ((takes_binding _ _ _).trans htakes)
    · have hx : x = e := by
        rcases List.mem_cons.mp he with rfl | hrest
        · rfl
        · exact absurd ⟨e,hrest,rfl⟩ hlater
      rw [after_elsewhere,get_binding,hx,if_pos ⟨rfl,htakes⟩]
      intro y hy hq
      exact absurd ⟨y,hy,(bindingPath_inj hq).symm⟩ hlater

/-- An entity whose binding the index takes, or holds already, is bound; no other is. -/
theorem after_get_iff {entities : List Entity} {s : IngestState σ} {e : Entity} (he : e ∈ entities) :
    (s.after I namespaceUri entities).get I (bindingPath namespaceUri e.contentHash) =
        some e.contentHash ↔ s.takes I (bindingPath namespaceUri e.contentHash) = true ∨
        s.get I (bindingPath namespaceUri e.contentHash) = some e.contentHash := by
  cases htakes : s.takes I (bindingPath namespaceUri e.contentHash) with
  | true => simp [after_bound he htakes]
  | false => simp [after_elsewhere fun _ _ _ => htakes]

theorem mem_after_store {entities : List Entity} {s : IngestState σ} {e : Entity}
    (he : e ∈ s.store.puts ∨ e ∈ entities) : e ∈ (s.after I namespaceUri entities).store.puts := by
  induction entities generalizing s with
  | nil => exact he.resolve_right List.not_mem_nil
  | cons x rest ih =>
    refine ih ?_
    rcases he with hold | hnew
    · exact .inl (List.mem_cons_of_mem _ hold)
    · rcases List.mem_cons.mp hnew with rfl | hrest
      · exact .inl List.mem_cons_self
      · exact .inr hrest

/-! What was admitted was decoded, and its hash is that of its type and data. -/

theorem new_hash {t : Str} {d : Bytes} {e : Entity} (h : Entity.new X t d = .ok e) :
    Hash.computeFormat X e.entityType e.data X.defaultHashFormat = .ok e.contentHash := by
  obtain ⟨rfl,rfl,hhash⟩ := Entity.newWithFormat_ok X h
  exact hhash

theorem new_allocated {t : Str} {d : Bytes} {e : Entity} (h : Entity.new X t d = .ok e) :
    X.FormatAllocated := by
  have hhash := new_hash h
  unfold Platform.FormatAllocated Hash.digestLenForFormat
  unfold Hash.computeFormat at hhash
  split_ifs at hhash ⊢ <;> simp_all

theorem decoded_new {value : Value} {e : Entity} (h : decodeCoreEntity X value = .ok e) :
    ∃ t d, Entity.new X t d = .ok e := by
  simp only [decodeCoreEntity,bind_ok,mapErr_ok] at h
  obtain ⟨_,-,_,-,hnew⟩ := h
  exact ⟨_,_,hnew⟩

theorem entry_new {input : IngestInput} {e : Entity} (h : .ok e ∈ input.entries X) :
    ∃ t d, Entity.new X t d = .ok e := by
  cases input with
  | entity value =>
    have hone : .ok e = loneEntity X value := List.mem_singleton.mp h
    exact decoded_new ((mapErr_ok _ _ _).mp hone.symm)
  | envelope value =>
    rcases List.mem_append.mp h with hroot | hincluded
    · obtain ⟨v,-,hv⟩ := List.mem_map.mp hroot
      exact decoded_new ((mapErr_ok _ _ _).mp hv)
    · obtain ⟨kv,-,hkv⟩ := List.mem_map.mp hincluded
      simp only [ingestedEntry,bind_ok,mapErr_ok,pure_ok] at hkv
      obtain ⟨_,-,_,hdecode,_,-,rfl⟩ := hkv
      exact decoded_new hdecode

theorem admitted_mem {store : ContentStore} {entries : List (Except Failure Entity)} {e : Entity}
    (h : e ∈ (admitted refuses store entries).1) : .ok e ∈ entries := by
  induction entries generalizing store with
  | nil => cases h
  | cons entry rest ih =>
    cases entry with
    | error failure => cases h
    | ok entity =>
      unfold admitted at h
      cases hrefuses : refuses store entity with
      | some text =>
        rw [hrefuses] at h
        cases h
      | none =>
        rw [hrefuses] at h
        rcases List.mem_cons.mp h with rfl | hrest
        · exact List.mem_cons_self
        · exact List.mem_cons_of_mem _ (ih hrest)

theorem admitted_all {store : ContentStore} {entries : List (Except Failure Entity)}
    (h : (admitted refuses store entries).2 = none) :
    entries = (admitted refuses store entries).1.map .ok := by
  induction entries generalizing store with
  | nil => rfl
  | cons entry rest ih =>
    cases entry with
    | error failure => cases h
    | ok entity =>
      unfold admitted at h ⊢
      cases hrefuses : refuses store entity with
      | some text =>
        rw [hrefuses] at h
        cases h
      | none =>
        rw [hrefuses] at h
        exact congrArg _ (ih h)

/-! The result. -/

theorem ingestResult_data {root : Option Entity} {rootHash : Hash} {count : ℕ} {result : Entity}
    (h : ingestResult X root rootHash count = .ok result) :
    result.data = toEcf (ingestResultValue X root rootHash count) :=
  (Entity.newWithFormat_ok X ((mapErr_ok _ _ _).mp h)).2.1

/-- A result can be encoded once an entity could. -/
theorem ingestAnswer_ok (hX : X.FormatAllocated) (input : IngestInput) (entities : List Entity) :
    ∃ result, ingestAnswer X input entities = .ok result := by
  have hresult : ∀ root rootHash count, ∃ result, ingestResult X root rootHash count = .ok result := by
    intro root rootHash count
    obtain ⟨e,he⟩ := Entity.new_ok hX
      (show "system/content/ingest-result".toList ≠ [] by decide) (by decide) (toEcf_map_ne_nil _)
    exact ⟨e,by rw [ingestResult,ingestResultValue,he]; rfl⟩
  cases input with
  | entity value => exact hresult _ _ _
  | envelope value => exact hresult _ _ _

end Trace

section Clean

variable (X : Platform) (refuses : ContentStore → Entity → Option String) {σ : Type}
  (I : PathIndex σ) (localPeerId : Str) (resourceTarget : Option ResourceTarget) (params : Bytes)
  (s : IngestState σ)

/-- An error leaves every path as it was. With a result, all entries are in the store under the
hash of their own type and data and bound below the namespace, and the result counts them. -/
structure CleanIngest : Prop where
  refused : ∀ failure s', handleIngest X I refuses localPeerId resourceTarget params s =
    (.error failure,s') → ∀ path, s'.get I path = s.get I path
  accepted : ∀ result s', handleIngest X I refuses localPeerId resourceTarget params s =
    (.ok result,s') → ∃ (namespaceUri : Str) (input : IngestInput) (entities : List Entity),
      ingestInput X localPeerId resourceTarget params = .ok (namespaceUri,input) ∧
      input.entries X = entities.map .ok ∧
      (∃ root rootHash, result.data = toEcf (ingestResultValue X root rootHash entities.length)) ∧
      ∀ e ∈ entities,
        Hash.computeFormat X e.entityType e.data X.defaultHashFormat = .ok e.contentHash ∧
        s'.store.get e.contentHash = some e ∧
        s'.get I (bindingPath namespaceUri e.contentHash) = some e.contentHash

/-- A refused request changes nothing where its entities before the refused one are bound already
or not taken; an accepted one is true where each is bound already or taken. -/
structure IngestCondition (namespaceUri : Str) (input : IngestInput) : Prop where
  refused : (admitted refuses s.store (input.entries X)).2 ≠ none →
    ∀ e ∈ (admitted refuses s.store (input.entries X)).1,
      s.takes I (bindingPath namespaceUri e.contentHash) = true →
        s.get I (bindingPath namespaceUri e.contentHash) = some e.contentHash
  accepted : (admitted refuses s.store (input.entries X)).2 = none →
    ∀ e ∈ (admitted refuses s.store (input.entries X)).1,
      s.takes I (bindingPath namespaceUri e.contentHash) = true ∨
        s.get I (bindingPath namespaceUri e.contentHash) = some e.contentHash

variable {X refuses I localPeerId resourceTarget params s}

theorem handleIngest_refused {failure : Failure}
    (h : ingestInput X localPeerId resourceTarget params = .error failure) :
    handleIngest X I refuses localPeerId resourceTarget params s = (.error failure,s) := by
  unfold handleIngest
  rw [h]
  rfl

theorem handleIngest_run {namespaceUri : Str} {input : IngestInput}
    (h : ingestInput X localPeerId resourceTarget params = .ok (namespaceUri,input)) :
    handleIngest X I refuses localPeerId resourceTarget params s =
      (match (admitted refuses s.store (input.entries X)).2 with
        | none => ingestAnswer X input (admitted refuses s.store (input.entries X)).1
        | some failure => .error failure,
      s.after I namespaceUri (admitted refuses s.store (input.entries X)).1) := by
  have hrun := ingestAll_run refuses I namespaceUri (input.entries X) s
  unfold handleIngest
  rw [h]
  show Action.andThen (ingestAll I refuses namespaceUri (input.entries X)) _ s = _
  unfold Action.andThen
  rw [hrun]
  cases (admitted refuses s.store (input.entries X)).2 <;> rfl

/-- The request leaves no trace, or a true one, exactly under the condition. -/
theorem clean_ingest_iff
    (hreturns : ∀ e ∈ (handleIngest X I refuses localPeerId resourceTarget params s).2.store.puts,
      (handleIngest X I refuses localPeerId resourceTarget params s).2.store.get e.contentHash =
        some e) : CleanIngest X refuses I localPeerId resourceTarget params s ↔
      ∀ namespaceUri input, ingestInput X localPeerId resourceTarget params =
        .ok (namespaceUri,input) → IngestCondition X refuses I s namespaceUri input := by
  constructor
  · intro h namespaceUri input hinput
    have hrun := @handleIngest_run X refuses σ I _ _ _ s _ _ hinput
    refine ⟨fun hsome e he htakes => ?_,fun hnone e he => ?_⟩
    · cases hfail : (admitted refuses s.store (input.entries X)).2 with
      | none => exact absurd hfail hsome
      | some failure =>
        rw [hfail] at hrun
        rw [← h.refused failure _ hrun]
        exact after_bound he htakes
    · obtain ⟨t,d,hnew⟩ := entry_new (admitted_mem he)
      obtain ⟨result,hresult⟩ := ingestAnswer_ok (new_allocated hnew) input
        (admitted refuses s.store (input.entries X)).1
      have hall := admitted_all hnone
      rw [hnone] at hrun
      simp only [hresult] at hrun
      obtain ⟨namespaceUri',input',entities,hinput',hentries,-,hbound⟩ := h.accepted result _ hrun
      rw [hinput] at hinput'
      cases hinput'
      have hsame : (admitted refuses s.store (input.entries X)).1 = entities :=
        List.map_injective_iff.mpr (fun _ _ => Except.ok.inj) (hall.symm.trans hentries)
      exact (after_get_iff he).mp (hbound e (hsame ▸ he)).2.2
  · intro h
    cases hinput : ingestInput X localPeerId resourceTarget params with
    | error failure =>
      have hrun := @handleIngest_refused X refuses σ I _ _ _ s _ hinput
      refine ⟨fun failure' s' hf path => ?_,fun result s' hok => ?_⟩
      · rw [hrun] at hf
        cases hf
        rfl
      · rw [hrun] at hok
        cases hok
    | ok found =>
      obtain ⟨namespaceUri,input⟩ := found
      have hcond := h namespaceUri input hinput
      have hrun := @handleIngest_run X refuses σ I _ _ _ s _ _ hinput
      rw [hrun] at hreturns
      cases hfail : (admitted refuses s.store (input.entries X)).2 with
      | some failure =>
        rw [hfail] at hrun
        refine ⟨fun failure' s' hf path => ?_,fun result s' hok => ?_⟩
        · rw [hrun] at hf
          cases hf
          by_cases hpath : ∃ e ∈ (admitted refuses s.store (input.entries X)).1,
              path = bindingPath namespaceUri e.contentHash ∧ s.takes I path = true
          · obtain ⟨e,he,rfl,htakes⟩ := hpath
            rw [after_bound he htakes]
            exact (hcond.refused (by rw [hfail]; simp) e he htakes).symm
          · refine after_elsewhere fun e he hq => ?_
            exact Bool.eq_false_iff.mpr fun htakes => hpath ⟨e,he,hq,htakes⟩
        · rw [hrun] at hok
          cases hok
      | none =>
        have hall := admitted_all hfail
        rw [hfail] at hrun
        refine ⟨fun failure' s' hf path => ?_,fun result s' hok => ?_⟩
        · rw [hrun] at hf
          cases hentities : (admitted refuses s.store (input.entries X)).1 with
          | nil =>
            rw [hentities] at hf
            have hstate : s.after I namespaceUri [] = s' := congrArg Prod.snd hf
            rw [← hstate]
            rfl
          | cons e rest =>
            have he : e ∈ (admitted refuses s.store (input.entries X)).1 := by
              rw [hentities]
              exact List.mem_cons_self
            obtain ⟨t,d,hnew⟩ := entry_new (admitted_mem he)
            obtain ⟨result,hresult⟩ := ingestAnswer_ok (new_allocated hnew) input
              (admitted refuses s.store (input.entries X)).1
            simp only [hresult] at hf
            cases hf
        · rw [hrun] at hok
          have hanswer : ingestAnswer X input (admitted refuses s.store (input.entries X)).1 =
            .ok result := congrArg Prod.fst hok
          have hstate : s.after I namespaceUri (admitted refuses s.store (input.entries X)).1 = s' :=
            congrArg Prod.snd hok
          refine ⟨namespaceUri,input,_,hinput,hall,?_,fun e he => ?_⟩
          · cases input with
            | entity value => exact ⟨_,_,ingestResult_data hanswer⟩
            | envelope value => exact ⟨_,_,ingestResult_data hanswer⟩
          · obtain ⟨t,d,hnew⟩ := entry_new (admitted_mem he)
            rw [← hstate]
            exact ⟨new_hash hnew,hreturns e (mem_after_store (.inr he)),
              (after_get_iff he).mpr (hcond.accepted hfail e he)⟩

end Clean

namespace IngestSample

open Sample

/-- What the crates of the sample hash everything to. -/
def noteHash : Hash := sha256Hash 0

def note : Value := .map [field "type" (txt "app/note"),field "data" (uinteger 5)]

/-- The second entry is filed under a hash that is not its own. -/
def envelope : Value :=
  .map [field "included" (.map [(hashVal noteHash,note),(hashVal (sha256Hash 1),note)])]

def request : Value := .map [field "envelope" envelope]

def crates : Platform := platform [request] [] []

def target : ResourceTarget := ⟨["system/content/public".toList],[]⟩

def publicSpace : Str := '/'::aliceId++ "/system/content/public".toList

def blank : IngestState MemoryLocationIndex := ⟨⟨[]⟩,some ⟨.empty⟩⟩

def stored : Entity := ⟨"app/note".toList,toEcf (uinteger 5),noteHash⟩

set_option maxRecDepth 4000 in
theorem request_read : ingestInput crates aliceId (some target) (toEcf request) =
    .ok (publicSpace,.envelope envelope) := by rfl

theorem request_admitted : admitted (fun _ _ => none) blank.store
    (IngestInput.entries crates (.envelope envelope)) =
      ([stored],some (badRequest "hash_mismatch" "included entity hash does not match key")) := by
  rfl

theorem clean_ingest_iff_sample :
    CleanIngest crates (fun _ _ => none) memoryIndex aliceId (some target) (toEcf request) blank ↔
      ∀ namespaceUri input, ingestInput crates aliceId (some target) (toEcf request) =
        .ok (namespaceUri,input) →
          IngestCondition crates (fun _ _ => none) memoryIndex blank namespaceUri input := by
  apply clean_ingest_iff
  rw [handleIngest_run request_read,request_admitted]
  intro e he
  cases List.mem_singleton.mp he
  decide

/-- The first entry stays bound when the second is refused. -/
theorem refused_ingest_binds :
    ¬CleanIngest crates (fun _ _ => none) memoryIndex aliceId (some target) (toEcf request)
      blank := by
  intro h
  have hrun := @handleIngest_run _ (fun _ _ => none) _ memoryIndex _ _ _ blank _ _ request_read
  rw [request_admitted] at hrun
  have hsame := h.refused _ _ hrun (bindingPath publicSpace noteHash)
  have htakes : blank.takes memoryIndex (bindingPath publicSpace noteHash) = true := by decide +kernel
  have hbound := after_bound (show stored ∈ [stored] from List.mem_cons_self) htakes
  cases hbound.symm.trans hsame

end IngestSample

end EntityCore
