import EntityCore.TrieTransfer
import EntityCore.UntrackedPaths

/-! Pull: a remote head is fetched, the trie below it is asked for round by round, and
the head is merged. The remote may answer each request in any way. -/
namespace EntityCore

open Ecf Outcome Strings Except Finset

/-! Envelopes as the handler reads them. -/

def typeEnvelope : Str := "system/envelope".toList
def typeError : Str := "system/protocol/error".toList

def HandlerError.display : HandlerError → String
  | .internal m => "handler error: "++m
  | .invalidParams m => "invalid params: "++m

section Envelope

variable (X : Platform)

/-- The code of an error entity, empty if there is none to read. -/
def remoteErrorCode (result : Entity) : Str :=
  if result.entityType = typeError then
    match (X.fromReader result.data).toOption.bind Value.asMap with
    | some map => ((map.filterMap fun kv =>
        if kv.1.asText = key "code" then kv.2.asText else none).getLast?).getD []
    | none => []
  else []

structure InlineFields where
  entityType : Option Str
  data : Option Value

def scanInlineField (acc : InlineFields) (kv : Value × Value) : InlineFields :=
  if kv.1.asText = key "type" then { acc with entityType := kv.2.asText }
  else if kv.1.asText = key "data" then { acc with data := some kv.2 }
  else acc

/-- An entity from its inline form; the hash it carries there is not looked at. -/
def inlineToEntity (v : Value) : Except HandlerError Entity := do
  let map ← okOr v.asMap (.internal "inline entity not a map")
  let fields := map.foldl scanInlineField ⟨none,none⟩
  let entityType ← okOr fields.entityType (.internal "inline entity missing type")
  let data ← okOr fields.data (.internal "inline entity missing data")
  let bytes ← mapErr (fun e => .internal ("inline data encode: "++e)) (X.intoWriter data)
  mapErr (fun e => .internal e.display) (Entity.new X entityType bytes)

def includedEntity (kv : Value × Value) : Except HandlerError (Hash × Entity) := do
  let bytes ← okOr kv.1.asBytes (.internal "envelope included key not bytes")
  let hash ← mapErr (fun e => .internal e.display) (Hash.fromBytes bytes)
  return (hash,← inlineToEntity X kv.2)

structure EnvelopeFields where
  root : Option Entity
  included : List (Hash × Entity)

def scanEnvelopeField (acc : EnvelopeFields) (kv : Value × Value) :
    Except HandlerError EnvelopeFields :=
  if kv.1.asText = key "root" then do
    return { acc with root := some (← inlineToEntity X kv.2) }
  else if kv.1.asText = key "included" then
    match kv.2.asMap with
    | some map => do return { acc with included := acc.included++(← map.mapM (includedEntity X)) }
    | none => pure acc
  else pure acc

def decodeEnvelopeData (data : Bytes) : Except HandlerError (Entity × List (Hash × Entity)) := do
  let value ← mapErr (fun e => .internal ("envelope decode: "++e)) (X.fromReader data)
  let map ← okOr value.asMap (.internal "envelope not a map")
  let fields ← map.foldlM (scanEnvelopeField X) ⟨none,[]⟩
  let root ← okOr fields.root (.internal "envelope missing root")
  return (root,fields.included)

/-- The head of a fetch result: the first field of that name that is bytes. -/
def decodeFetchResultHead (data : Bytes) : Option Hash := do
  let map ← ((X.fromReader data).toOption).bind Value.asMap
  let bytes ← map.findSome? fun kv => if kv.1.asText = key "head" then kv.2.asBytes else none
  (Hash.fromBytes bytes).toOption

end Envelope

/-! What is missing below a root. -/

section Missing

variable (X : Platform) (s : ContentStore)

def missingStep (below : Hash → Finset Hash × List Hash → Except TrieFailure (Finset Hash × List Hash))
    (acc : Finset Hash × List Hash) : Entry → Except TrieFailure (Finset Hash × List Hash)
  | .bucket b =>
    pure (acc.1,acc.2++(b.map Prod.snd).filter fun v => !v.isZero && (s.get v).isNone)
  | .link l => below l acc

/-- An entity of another type is taken for a value and not walked. -/
def visitMissing : ℕ → Hash → Finset Hash × List Hash → Except TrieFailure (Finset Hash × List Hash)
  | 0, _, _ => .error .outOfFuel
  | fuel+1, h, acc =>
    if h.isZero || h ∈ acc.1 then pure acc
    else match s.get h with
      | none => pure (insert h acc.1,acc.2++[h])
      | some entity =>
        if entity.entityType ≠ typeTreeSnapshotNode then pure (insert h acc.1,acc.2)
        else match SnapshotNodeData.fromCbor X entity.data with
          | none => pure (insert h acc.1,acc.2)
          | some node => node.data.foldlM (missingStep s (visitMissing fuel)) (insert h acc.1,acc.2)

def collectMissingPullHashes (fuel : ℕ) (root : Hash) : Except TrieFailure (List Hash) :=
  if root.isZero then pure [] else Prod.snd <$> visitMissing X s fuel root (∅,[])

end Missing

/-! The operation. -/

structure PullParams where
  barePrefix : Str
  remotePrefix : Option Str
  remote : Option Str
  since : Option Hash
  depth : Option ℕ

structure RemoteReply where
  status : ℕ
  result : Entity

/-- The other peer: its answer to the requests of a pull by their number. -/
abbrev Remote : Type := ℕ → String → Entity → Except String RemoteReply

/-- How the requests before the merge end: with an answer, or with a head to merge. -/
inductive PullOutcome where
  | answered (reply : RevisionReply)
  | ready (head root : Hash)
  deriving DecidableEq

def statusInternalError : ℕ := 500
def statusBadGateway : ℕ := 502
def pullMaxRounds : ℕ := 32

/-- A count as a signed word. -/
def signedWord (n : ℕ) : Integer :=
  ⟨if n%2^64 < 2^63 then (n%2^64 : ℕ) else ((n%2^64 : ℕ) : ℤ)-2^64,by split <;> omega⟩

section Pull

variable (X : Platform) (fuel : ℕ) (localPeerId : Str)

def buildFetchParamsEntity (barePrefix : Str) (remotePrefix : Option Str) (since : Option Hash)
    (depth : Option ℕ) : Except HandlerError Entity :=
  let fields := (depth.map fun d => (Value.text "depth".toList,Value.integer (signedWord d))).toList++
    [(.text "prefix".toList,.text barePrefix)]++
    ((remotePrefix.filter fun p => !p.isEmpty).map fun p =>
      (Value.text "remote_prefix".toList,Value.text p)).toList++optionalHash "since" since
  mapErr (fun e => .internal e.display)
    (Entity.new X "system/revision/fetch-params".toList (toEcf (.map (sortFields fields))))

def buildFetchEntitiesParamsEntity (barePrefix : Str) (snapshot : Hash) (hashes : List Hash) :
    Except HandlerError Entity :=
  let fields := [(Value.text "hashes".toList,.array (hashes.map fun h => .bytes h.toBytes)),
    (.text "prefix".toList,.text barePrefix),(.text "snapshot".toList,.bytes snapshot.toBytes)]
  mapErr (fun e => .internal e.display)
    (Entity.new X "system/revision/fetch-entities-params".toList (toEcf (.map (sortFields fields))))

/-- Each included entity goes into the store under its own hash. -/
def ingest (included : List (Hash × Entity)) : Handling Unit := .modify fun w =>
  { w with store := included.foldl (fun s e => s.put e.2) w.store }

def remoteFetchFailed (message : String) : RevisionReply :=
  .refused statusBadGateway "remote_fetch_failed" message

/-- Rounds of asking for what is missing; `none` lets the merge go on. -/
def pullRounds (remote barePrefix : Str) (root : Hash) (execute : Remote) :
    ℕ → ℕ → Handling (Option RevisionReply)
  | 0, _ => pure none
  | left+1, round => do
    let missing ← searched fun s => collectMissingPullHashes X s fuel root
    if missing.isEmpty then return none
    let params ← .lift (buildFetchEntitiesParamsEntity X barePrefix root missing)
    match execute (round+1) "fetch-entities" params with
    | .error e => return some (remoteFetchFailed ("revision/fetch-entities round "++
        toString (round+1)++ " on "++String.ofList remote++ ": "++e))
    | .ok reply =>
      if 400 ≤ reply.status then
        return some (remoteFetchFailed ("revision/fetch-entities round "++toString (round+1)++
          " on "++String.ofList remote++ ": status="++toString reply.status++ " "++
          String.ofList (remoteErrorCode X reply.result)))
      else if reply.result.entityType ≠ typeEnvelope then return none
      else match decodeEnvelopeData X reply.result.data with
        | .error _ => return none
        | .ok (_,included) => do
          ingest included
          if included.isEmpty then return none
          else pullRounds remote barePrefix root execute left (round+1)

/-- The head of the remote, with what came along in the store. -/
def fetchHead (params : PullParams) (remote barePrefix : Str) (execute : Remote) :
    Handling (RevisionReply ⊕ Hash) := do
  let request ← .lift (buildFetchParamsEntity X barePrefix params.remotePrefix params.since
    params.depth)
  match execute 0 "fetch" request with
  | .error e => return .inl (remoteFetchFailed ("revision/fetch on "++String.ofList remote++ ": "++e))
  | .ok reply =>
    if 400 ≤ reply.status then
      return .inl (remoteFetchFailed ("revision/fetch on "++String.ofList remote++ ": status="++
        toString reply.status++ " "++String.ofList (remoteErrorCode X reply.result)))
    else if reply.result.entityType ≠ typeEnvelope then
      return .inl (remoteFetchFailed ("expected "++String.ofList typeEnvelope++
        " from remote fetch; got "++String.ofList reply.result.entityType))
    else match decodeEnvelopeData X reply.result.data with
      | .error e => return .inl (remoteFetchFailed ("decode remote fetch envelope: "++e.display))
      | .ok (fetchRoot,included) => do
        ingest included
        match decodeFetchResultHead X fetchRoot.data with
        | some head =>
          if head.isZero then return .inl (.merge "remote_empty" none [] 0 0) else return .inr head
        | none => return .inl (.merge "remote_empty" none [] 0 0)

/-- Everything up to the merge. -/
def pullClosure (params : PullParams) (execute : Option Remote) : Handling PullOutcome := do
  if params.barePrefix.isEmpty then
    return .answered (.refused statusBadRequest "invalid_params" "prefix is required")
  match params.remote.filter fun r => !r.isEmpty with
  | none => return .answered (.refused statusBadRequest "invalid_params"
      "remote peer-id is required for pull")
  | some remote => match execute with
    | none => return .answered (.refused statusInternalError "internal_error"
        "handler context missing execute_fn (required for outbound cross-peer dispatch)")
    | some execute => do
      let barePrefix := (params.remotePrefix.filter fun p => !p.isEmpty).getD params.barePrefix
      match ← fetchHead X params remote barePrefix execute with
      | .inl reply => return .answered reply
      | .inr head => do
        match ← .reading fun w => .ok (w.store.get head) with
        | none => return .answered (.refused statusInternalError "internal_error"
            "version entity missing after fetch ingest")
        | some entity => match decodeRevisionEntry X entity with
          | none => return .answered (.refused statusInternalError "internal_error"
              "decode fetched version entry failed")
          | some entry => do
            match ← pullRounds X fuel remote barePrefix entry.root execute pullMaxRounds 0 with
            | some reply => return .answered reply
            | none => return .ready head entry.root

def handlePull (params : PullParams) (execute : Option Remote) : Handling RevisionReply := do
  match ← pullClosure X fuel params execute with
  | .answered reply => return reply
  | .ready head _ =>
    let merge : MergeParams := ⟨resolvePrefix params.barePrefix localPeerId,head,none,false,none⟩
    handleMerge X fuel localPeerId merge

end Pull

/-! What the walk for missing hashes finds. -/

variable {h root : Hash} {fuel left round : ℕ}

section Closure

variable (X : Platform) (s : ContentStore)

/-- In the store, or the zero hash that names nothing. -/
def Present (h : Hash) : Prop := h.isZero ∨ (s.get h).isSome

/-- Every node and every value below a hash is there. -/
structure ClosureComplete (root : Hash) : Prop where
  nodes : ∀ h, NodeOf X s root h → Present s h
  values : ∀ v, ValueOf X s root v → Present s v

/-- A hash the walk does not look behind though it may name a node: zero, or an entity of
another type. -/
def PassedOver (h : Hash) : Prop :=
  h.isZero ∨ ∃ e, s.get h = some e ∧ e.entityType ≠ typeTreeSnapshotNode

/-- Seen with all that hangs on it: missing hashes are noted and links are seen. -/
structure Noted (acc : Finset Hash × List Hash) (h : Hash) : Prop where
  node : Present s h ∨ h ∈ acc.2
  values : ¬PassedOver s h → ∀ v, Binds X s h v → Present s v ∨ v ∈ acc.2
  links : ¬PassedOver s h → ∀ l, LinksTo X s h l → l.isZero ∨ l ∈ acc.1

/-- A part of the walk: what is new is noted, and is missing somewhere below. -/
structure Walked (below : Hash → Prop) (acc acc' : Finset Hash × List Hash) : Prop where
  seen : acc.1 ⊆ acc'.1
  missing : acc.2 ⊆ acc'.2
  noted : ∀ x ∈ acc'.1, x ∈ acc.1 ∨ Noted X s acc' x
  found : ∀ m ∈ acc'.2, m ∈ acc.2 ∨ (¬Present s m ∧ below m)

/-- An entry of a node has been looked at. -/
def EntryNoted (acc : Finset Hash × List Hash) : Entry → Prop
  | .bucket b => ∀ t ∈ b, Present s t.2 ∨ t.2 ∈ acc.2
  | .link l => l.isZero ∨ l ∈ acc.1

variable {X s} {below : Hash → Prop} {acc acc' acc'' : Finset Hash × List Hash}

theorem Noted.mono (hseen : acc.1 ⊆ acc'.1) (hmissing : acc.2 ⊆ acc'.2)
    (hn : Noted X s acc h) : Noted X s acc' h :=
  ⟨hn.node.imp_right (hmissing ·),fun hp v hv => (hn.values hp v hv).imp_right (hmissing ·),
    fun hp l hl => (hn.links hp l hl).imp_right (hseen ·)⟩

theorem EntryNoted.mono (hseen : acc.1 ⊆ acc'.1) (hmissing : acc.2 ⊆ acc'.2) {e : Entry}
    (he : EntryNoted s acc e) : EntryNoted s acc' e := by
  cases e with
  | bucket b => exact fun t ht => (he t ht).imp_right (hmissing ·)
  | link l => exact Or.imp_right (hseen ·) he

theorem Walked.refl : Walked X s below acc acc :=
  ⟨Finset.Subset.refl _,List.Subset.refl _,fun _ hx => .inl hx,fun _ hm => .inl hm⟩

theorem Walked.trans (h : Walked X s below acc acc') (h' : Walked X s below acc' acc'') :
    Walked X s below acc acc'' := by
  refine ⟨h.seen.trans h'.seen,List.Subset.trans h.missing h'.missing,?_,?_⟩
  · intro x hx
    rcases h'.noted x hx with hx | hx
    · exact (h.noted x hx).imp_right (Noted.mono h'.seen h'.missing)
    · exact .inr hx
  · intro m hm
    rcases h'.found m hm with hm | hm
    · exact h.found m hm
    · exact .inr hm

theorem Walked.imp {below' : Hash → Prop} (himp : ∀ m, below m → below' m)
    (h : Walked X s below acc acc') : Walked X s below' acc acc' :=
  ⟨h.seen,h.missing,h.noted,fun m hm => (h.found m hm).imp_right fun hb => ⟨hb.1,himp m hb.2⟩⟩

theorem walked_entries
    {visit : Hash → Finset Hash × List Hash → Except TrieFailure (Finset Hash × List Hash)}
    (es : List Entry) {acc acc' : Finset Hash × List Hash}
    (hvisit : ∀ l, Entry.link l ∈ es → ∀ {acc acc'}, visit l acc = .ok acc' →
      Walked X s below acc acc' ∧ (l.isZero ∨ l ∈ acc'.1))
    (hvalues : ∀ b, Entry.bucket b ∈ es → ∀ t ∈ b, below t.2)
    (hrun : es.foldlM (missingStep s visit) acc = .ok acc') :
    Walked X s below acc acc' ∧ ∀ e ∈ es, EntryNoted s acc' e := by
  induction es generalizing acc with
  | nil =>
    obtain rfl := ok.inj hrun
    exact ⟨Walked.refl,fun e he => by cases he⟩
  | cons e es ih =>
    rw [List.foldlM_cons] at hrun
    obtain ⟨acc₁,hone,hrest⟩ := (bind_ok _ _ _).mp hrun
    obtain ⟨hwalk,hnoted⟩ := ih (fun l hl => hvisit l (List.mem_cons_of_mem _ hl))
      (fun b hb => hvalues b (List.mem_cons_of_mem _ hb)) hrest
    have hfirst : Walked X s below acc acc₁ ∧ EntryNoted s acc₁ e := by
      cases e with
      | link l => exact hvisit l List.mem_cons_self hone
      | bucket b =>
        obtain rfl := ok.inj hone
        refine ⟨⟨Finset.Subset.refl _,List.subset_append_left _ _,fun _ hx => .inl hx,?_⟩,?_⟩
        · intro m hm
          rcases List.mem_append.mp hm with hm | hm
          · exact .inl hm
          · obtain ⟨hmem,hmiss⟩ := List.mem_filter.mp hm
            obtain ⟨t,ht,rfl⟩ := List.mem_map.mp hmem
            refine .inr ⟨?_,hvalues b List.mem_cons_self t ht⟩
            simpa [Present] using hmiss
        · intro t ht
          by_cases hp : Present s t.2
          · exact .inl hp
          · refine .inr (List.mem_append_right _ (List.mem_filter.mpr
              ⟨List.mem_map.mpr ⟨t,ht,rfl⟩,?_⟩))
            simpa [Present] using hp
    refine ⟨hfirst.1.trans hwalk,?_⟩
    intro e' he'
    rcases List.mem_cons.mp he' with rfl | he'
    · exact hfirst.2.mono hwalk.seen hwalk.missing
    · exact hnoted e' he'

theorem walked_leaf {missing : List Hash} (hnode : Present s h ∨ h ∈ missing)
    (hleaf : loadTrieNode X s h = none ∨ PassedOver s h) (hsub : acc.2 ⊆ missing)
    (hfound : ∀ m ∈ missing, m ∈ acc.2 ∨ (¬Present s m ∧ below m)) :
    Walked X s below acc (insert h acc.1,missing) := by
  refine ⟨subset_insert _ _,hsub,?_,hfound⟩
  intro x hx
  rcases mem_insert.mp hx with rfl | hx
  · refine .inr ⟨hnode,?_,?_⟩
    · rintro hp v ⟨n,b,hn,-⟩
      rw [hleaf.resolve_right hp] at hn
      cases hn
    · rintro hp l ⟨n,hn,-⟩
      rw [hleaf.resolve_right hp] at hn
      cases hn
  · exact .inl hx

theorem walked_node {n : SnapshotNodeData} (hpresent : Present s h)
    (hload : loadTrieNode X s h = some n) (hwalk : Walked X s below (insert h acc.1,acc.2) acc')
    (hnoted : ∀ e ∈ n.data, EntryNoted s acc' e) : Walked X s below acc acc' := by
  refine ⟨(subset_insert _ _).trans hwalk.seen,hwalk.missing,?_,hwalk.found⟩
  intro x hx
  rcases hwalk.noted x hx with hx | hx
  · rcases mem_insert.mp hx with rfl | hx
    · refine .inr ⟨.inl hpresent,?_,?_⟩
      · rintro - v ⟨n',b,hn',hb,k,hk⟩
        rw [hload] at hn'
        obtain rfl := Option.some.inj hn'
        exact hnoted _ hb (k,v) hk
      · rintro - l ⟨n',hn',hl⟩
        rw [hload] at hn'
        obtain rfl := Option.some.inj hn'
        exact hnoted _ hl
    · exact .inl hx
  · exact .inr hx

theorem walked_visit (hrun : visitMissing X s fuel h acc = .ok acc') :
    Walked X s (fun m => NodeOf X s h m ∨ ValueOf X s h m) acc acc' ∧ (h.isZero ∨ h ∈ acc'.1) := by
  induction fuel generalizing h acc acc' with
  | zero => cases hrun
  | succ fuel ih =>
    unfold visitMissing at hrun
    by_cases hskip : (h.isZero || decide (h ∈ acc.1)) = true
    · rw [if_pos hskip] at hrun
      obtain rfl := ok.inj hrun
      exact ⟨Walked.refl,by simpa using hskip⟩
    · rw [if_neg hskip] at hrun
      rw [Bool.or_eq_true,not_or,decide_eq_true_eq] at hskip
      cases hget : s.get h with
      | none =>
        rw [hget] at hrun
        obtain rfl := ok.inj hrun
        have habsent : ¬Present s h := by
          rintro (hz | hsome)
          · exact hskip.1 hz
          · rw [hget] at hsome
            cases hsome
        refine ⟨walked_leaf (.inr (by simp)) (.inl (by rw [loadTrieNode,hget]; rfl))
          (List.subset_append_left _ _) ?_,.inr (mem_insert_self _ _)⟩
        intro m hm
        refine (List.mem_append.mp hm).imp_right fun hm => ?_
        obtain rfl := List.mem_singleton.mp hm
        exact ⟨habsent,.inl Relation.ReflTransGen.refl⟩
      | some entity =>
        have hpresent : Present s h := .inr (by rw [hget]; rfl)
        rw [hget] at hrun
        dsimp only at hrun
        by_cases htype : entity.entityType ≠ typeTreeSnapshotNode
        · rw [if_pos htype] at hrun
          obtain rfl := ok.inj hrun
          exact ⟨walked_leaf (.inl hpresent) (.inr (.inr ⟨entity,hget,htype⟩)) (List.Subset.refl _)
            fun m hm => .inl hm,.inr (mem_insert_self _ _)⟩
        · rw [if_neg htype] at hrun
          have hload : loadTrieNode X s h = SnapshotNodeData.fromCbor X entity.data := by
            rw [loadTrieNode,hget]
            rfl
          cases hnode : SnapshotNodeData.fromCbor X entity.data with
          | none =>
            rw [hnode] at hrun hload
            obtain rfl := ok.inj hrun
            exact ⟨walked_leaf (.inl hpresent) (.inl hload) (List.Subset.refl _)
              fun m hm => .inl hm,.inr (mem_insert_self _ _)⟩
          | some node =>
            rw [hnode] at hrun hload
            have hvalues : ∀ b, Entry.bucket b ∈ node.data → ∀ t ∈ b,
                NodeOf X s h t.2 ∨ ValueOf X s h t.2 := fun b hb t ht =>
              .inr ⟨h,Relation.ReflTransGen.refl,node,b,hload,hb,t.1,ht⟩
            have hlinks : ∀ l, Entry.link l ∈ node.data →
                ∀ {acc acc'}, visitMissing X s fuel l acc = .ok acc' →
                Walked X s (fun m => NodeOf X s h m ∨ ValueOf X s h m) acc acc' ∧
                  (l.isZero ∨ l ∈ acc'.1) := by
              intro l hl acc acc' hvisit
              have hlink : NodeOf X s h l := Relation.ReflTransGen.single ⟨node,hload,hl⟩
              refine ⟨(ih hvisit).1.imp ?_,(ih hvisit).2⟩
              intro m hm
              exact hm.imp (OccursIn.trans (o := .node m) hlink)
                (OccursIn.trans (o := .value m) hlink)
            obtain ⟨hwalk,hnoted⟩ := walked_entries node.data hlinks hvalues hrun
            exact ⟨walked_node hpresent hload hwalk hnoted, .inr (hwalk.seen (mem_insert_self _ _))⟩

theorem ClosureComplete.of_node (hc : ClosureComplete X s root)
    (hnode : NodeOf X s root h) : ClosureComplete X s h :=
  ⟨fun x hx => hc.nodes x (OccursIn.trans (o := .node x) hnode hx),
    fun v hv => hc.values v (OccursIn.trans (o := .value v) hnode hv)⟩

variable (X s) in
/-- Whatever the walk passes over is complete by itself. -/
def NoGap (root : Hash) : Prop :=
  ∀ h, NodeOf X s root h → PassedOver s h → ClosureComplete X s h

/-- The nodes below a root that the walk sees, and those it passes over. -/
theorem seen_or_passedOver (hroot : root.isZero ∨ root ∈ acc.1)
    (hnoted : ∀ x ∈ acc.1, Noted X s acc x) (hnode : NodeOf X s root h) :
    h ∈ acc.1 ∨ ∃ p, NodeOf X s root p ∧ PassedOver s p ∧ NodeOf X s p h := by
  induction hnode with
  | refl =>
    rcases hroot with hz | hseen
    · exact .inr ⟨root,Relation.ReflTransGen.refl,.inl hz,Relation.ReflTransGen.refl⟩
    · exact .inl hseen
  | @tail b c hb hlink ih =>
    rcases ih with hseen | ⟨p,hp,hover,hbelow⟩
    · by_cases hover : PassedOver s b
      · exact .inr ⟨b,hb,hover,Relation.ReflTransGen.single hlink⟩
      · rcases (hnoted b hseen).links hover c hlink with hz | hc
        · exact .inr ⟨c,hb.tail hlink,.inl hz,Relation.ReflTransGen.refl⟩
        · exact .inl hc
    · exact .inr ⟨p,hp,hover,hbelow.tail hlink⟩

/-- Nothing is missing exactly if all is there, up to what the walk passes over. -/
theorem closureComplete_iff {missing : List Hash}
    (hrun : collectMissingPullHashes X s fuel root = .ok missing) :
    ClosureComplete X s root ↔ missing = [] ∧ NoGap X s root := by
  unfold collectMissingPullHashes at hrun
  by_cases hz : root.isZero = true
  · rw [if_pos hz] at hrun
    obtain rfl := ok.inj hrun
    exact ⟨fun hc => ⟨rfl,fun h hh _ => hc.of_node hh⟩,
      fun h => h.2 root Relation.ReflTransGen.refl (.inl hz)⟩
  · rw [if_neg hz] at hrun
    obtain ⟨acc,hvisit,hmissing⟩ := (bind_ok _ _ _).mp hrun
    obtain rfl : acc.2 = missing := ok.inj hmissing
    obtain ⟨hwalk,hroot⟩ := walked_visit hvisit
    constructor
    · intro hc
      refine ⟨List.eq_nil_iff_forall_not_mem.mpr fun m hm => ?_,fun h hh _ => hc.of_node hh⟩
      rcases hwalk.found m hm with hm | ⟨habsent,hnode | hvalue⟩
      · cases hm
      · exact habsent (hc.nodes m hnode)
      · exact habsent (hc.values m hvalue)
    · rintro ⟨hnil,hgap⟩
      have hnoted : ∀ x ∈ acc.1, Noted X s acc x := fun x hx =>
        (hwalk.noted x hx).resolve_left (notMem_empty x)
      have hmem : ∀ {x}, x ∉ acc.2 := by
        intro x hx
        rw [hnil] at hx
        cases hx
      refine ⟨?_,?_⟩
      · intro h hh
        rcases seen_or_passedOver hroot hnoted hh with hseen | ⟨p,hp,hover,hbelow⟩
        · exact (hnoted h hseen).node.resolve_right hmem
        · exact (hgap p hp hover).nodes h hbelow
      · rintro v ⟨h,hh,hv⟩
        rcases seen_or_passedOver hroot hnoted hh with hseen | ⟨p,hp,hover,hbelow⟩
        · by_cases hover : PassedOver s h
          · exact (hgap h hh hover).values v ⟨h,Relation.ReflTransGen.refl,hv⟩
          · exact ((hnoted h hseen).values hover v hv).resolve_right hmem
        · exact (hgap p hp hover).values v ⟨h,hbelow,hv⟩

/-- Each node entered is one of the store that was not seen before. -/
theorem visitMissing_ok (hfuel : ((s.puts.map (·.contentHash)).toFinset \ acc.1).card < fuel) :
    ∃ acc', visitMissing X s fuel h acc = .ok acc' ∧ acc.1 ⊆ acc'.1 := by
  induction fuel generalizing h acc with
  | zero => omega
  | succ fuel ih =>
    unfold visitMissing
    split_ifs with hskip
    · exact ⟨acc,rfl,Finset.Subset.refl _⟩
    · rw [Bool.or_eq_true,not_or,decide_eq_true_eq] at hskip
      cases hget : s.get h with
      | none => exact ⟨_,rfl,subset_insert _ _⟩
      | some entity =>
        dsimp only
        split_ifs with htype
        · exact ⟨_,rfl,subset_insert _ _⟩
        · cases hnode : SnapshotNodeData.fromCbor X entity.data with
          | none => exact ⟨_,rfl,subset_insert _ _⟩
          | some node =>
            have hstored : h ∈ (s.puts.map (·.contentHash)).toFinset := by
              have hh : entity.contentHash = h := by simpa using List.find?_some hget
              rw [List.mem_toFinset,← hh]
              exact List.mem_map_of_mem (List.mem_of_find?_eq_some hget)
            have hless : ((s.puts.map (·.contentHash)).toFinset \ insert h acc.1).card < fuel := by
              have hlt : ((s.puts.map (·.contentHash)).toFinset \ insert h acc.1).card <
                  ((s.puts.map (·.contentHash)).toFinset \ acc.1).card := by
                apply card_lt_card
                refine (ssubset_iff_of_subset ?_).mpr ⟨h,?_,?_⟩
                · exact sdiff_subset_sdiff (Finset.Subset.refl _) (subset_insert _ _)
                · exact mem_sdiff.mpr ⟨hstored,hskip.2⟩
                · simp
              omega
            have hstep : ∀ a : Finset Hash × List Hash, insert h acc.1 ⊆ a.1 → ∀ e ∈ node.data,
                ∃ a', missingStep s (visitMissing X s fuel) a e = .ok a' ∧
                  insert h acc.1 ⊆ a'.1 := by
              intro a ha e he
              cases e with
              | bucket b => exact ⟨_,rfl,ha⟩
              | link l =>
                have hcard := card_le_card (sdiff_subset_sdiff
                  (Finset.Subset.refl (s.puts.map (·.contentHash)).toFinset) ha)
                obtain ⟨a',hrun,hsub⟩ : ∃ a', visitMissing X s fuel l a = .ok a' ∧ a.1 ⊆ a'.1 :=
                  ih (by omega)
                exact ⟨a',hrun,ha.trans hsub⟩
            obtain ⟨acc',hrun,hsub⟩ := foldlM_ok (fun a : Finset Hash × List Hash =>
              insert h acc.1 ⊆ a.1) node.data (insert h acc.1,acc.2) (Finset.Subset.refl _) hstep
            exact ⟨acc',hrun,(subset_insert _ _).trans hsub⟩

theorem collectMissing_ok (hfuel : s.puts.length < fuel) (root : Hash) :
    ∃ missing, collectMissingPullHashes X s fuel root = .ok missing := by
  unfold collectMissingPullHashes
  split_ifs
  · exact ⟨_,rfl⟩
  · have hcard : ((s.puts.map (·.contentHash)).toFinset \ ∅).card < fuel := by
      have hle := List.toFinset_card_le (s.puts.map (·.contentHash))
      rw [List.length_map] at hle
      rw [sdiff_empty]
      omega
    obtain ⟨acc,hrun,-⟩ : ∃ acc, visitMissing X s fuel root (∅,[]) = .ok acc ∧ ∅ ⊆ acc.1 :=
      visitMissing_ok hcard
    exact ⟨acc.2,by rw [hrun]; rfl⟩

end Closure

/-! The rounds. -/

section Rounds

variable (X : Platform) (fuel : ℕ)

/-- The entities of an answer that is an envelope with some in it. -/
def deliveredBy (answer : Except String RemoteReply) : Option (List (Hash × Entity)) :=
  match answer with
  | .error _ => none
  | .ok reply =>
    if 400 ≤ reply.status ∨ reply.result.entityType ≠ typeEnvelope then none
    else match decodeEnvelopeData X reply.result.data with
      | .error _ => none
      | .ok (_,included) => if included.isEmpty then none else some included

/-- Within the rounds left the remote answers every request with entities until nothing
is missing. -/
def Delivers (execute : Remote) (barePrefix : Str) (root : Hash) : ℕ → ℕ → ContentStore → Prop
  | 0, _, s => collectMissingPullHashes X s fuel root = .ok [] ∧ NoGap X s root
  | left+1, round, s =>
    (collectMissingPullHashes X s fuel root = .ok [] ∧ NoGap X s root) ∨
    ∃ missing request included, missing ≠ [] ∧
      collectMissingPullHashes X s fuel root = .ok missing ∧
      buildFetchEntitiesParamsEntity X barePrefix root missing = .ok request ∧
      deliveredBy X (execute (round+1) "fetch-entities" request) = some included ∧
      Delivers execute barePrefix root left (round+1) (included.foldl (fun s e => s.put e.2) s)

variable {X fuel} {execute : Remote} {barePrefix : Str} {root : Hash} {s : ContentStore}

theorem delivers_of_done (hmissing : collectMissingPullHashes X s fuel root = .ok []) :
    Delivers X fuel execute barePrefix root left round s ↔ NoGap X s root := by
  cases left with
  | zero => exact and_iff_right hmissing
  | succ left =>
    refine ⟨?_,fun h => .inl ⟨hmissing,h⟩⟩
    rintro (h | ⟨missing,request,included,hne,hrun,-⟩)
    · exact h.2
    · rw [hmissing] at hrun
      exact absurd (ok.inj hrun).symm hne

theorem delivers_of_asked {missing : List Hash} {request : Entity}
    (hne : missing ≠ []) (hmissing : collectMissingPullHashes X s fuel root = .ok missing)
    (hrequest : buildFetchEntitiesParamsEntity X barePrefix root missing = .ok request) :
    Delivers X fuel execute barePrefix root (left+1) round s ↔
      ∃ included, deliveredBy X (execute (round+1) "fetch-entities" request) = some included ∧
        Delivers X fuel execute barePrefix root left (round+1)
          (included.foldl (fun s e => s.put e.2) s) := by
  constructor
  · rintro (⟨hdone,-⟩ | ⟨missing',request',included,-,hrun,hrequest',hanswer,hrest⟩)
    · rw [hmissing] at hdone
      exact absurd (ok.inj hdone) hne
    · rw [hmissing] at hrun
      obtain rfl := ok.inj hrun
      rw [hrequest] at hrequest'
      obtain rfl := ok.inj hrequest'
      exact ⟨included,hanswer,hrest⟩
  · rintro ⟨included,hanswer,hrest⟩
    exact .inr ⟨missing,request,included,hne,hmissing,hrequest,hanswer,hrest⟩

/-- The rounds end with everything there exactly if the remote delivers. -/
theorem pullRounds_iff {remote : Str} {w w' : RevisionWorld}
    (hrun : pullRounds X fuel remote barePrefix root execute left round w = (.ok none,w'))
    (hfuel : w'.store.puts.length < fuel) : ClosureComplete X w'.store root ↔
      Delivers X fuel execute barePrefix root left round w.store := by
  induction left generalizing round w with
  | zero =>
    obtain rfl := (Prod.mk.inj hrun).2
    obtain ⟨missing,hmissing⟩ := collectMissing_ok (X := X) hfuel root
    rw [closureComplete_iff hmissing,Delivers,hmissing,ok.injEq]
  | succ left ih =>
    unfold pullRounds at hrun
    obtain ⟨missing,w₁,hsearch,hrest⟩ := Action.bind_eq_ok.mp hrun
    obtain ⟨hread,rfl⟩ := Action.reading_eq_ok.mp hsearch
    have hmissing := (mapErr_ok _ _ _).mp hread
    by_cases hnil : missing = []
    · subst hnil
      obtain rfl := (Prod.mk.inj hrest).2
      rw [closureComplete_iff hmissing,delivers_of_done hmissing,and_iff_right rfl]
    · rw [if_neg (by simpa using hnil)] at hrest
      obtain ⟨request,w₂,hlift,hask⟩ := Action.bind_eq_ok.mp hrest
      obtain ⟨hrequest,rfl⟩ := Prod.mk.inj hlift
      rw [delivers_of_asked hnil hmissing hrequest]
      have hstuck : ∀ {w₃ : RevisionWorld}, w₃ = w₁ →
          deliveredBy X (execute (round+1) "fetch-entities" request) = none →
          (ClosureComplete X w₃.store root ↔ ∃ included,
            deliveredBy X (execute (round+1) "fetch-entities" request) = some included ∧
            Delivers X fuel execute barePrefix root left (round+1)
              (included.foldl (fun s e => s.put e.2) w₁.store)) := by
        rintro w₃ rfl hanswer
        rw [closureComplete_iff hmissing,hanswer]
        simp [hnil]
      cases hanswer : execute (round+1) "fetch-entities" request with
      | error e =>
        rw [hanswer] at hask
        cases ok.inj (Prod.mk.inj hask).1
      | ok reply =>
        rw [hanswer] at hask hstuck
        dsimp only at hask
        by_cases hstatus : 400 ≤ reply.status
        · rw [if_pos hstatus] at hask
          cases ok.inj (Prod.mk.inj hask).1
        · rw [if_neg hstatus] at hask
          by_cases htype : reply.result.entityType ≠ typeEnvelope
          · rw [if_pos htype] at hask
            refine hstuck (Prod.mk.inj hask).2.symm ?_
            rw [deliveredBy,if_pos (.inr htype)]
          · rw [if_neg htype] at hask
            cases hdecode : decodeEnvelopeData X reply.result.data with
            | error e =>
              rw [hdecode] at hask
              refine hstuck (Prod.mk.inj hask).2.symm ?_
              rw [deliveredBy,if_neg (not_or.mpr ⟨hstatus,htype⟩),hdecode]
            | ok envelope =>
              rw [hdecode] at hask
              dsimp only at hask
              obtain ⟨_,w₃,hingest,hnext⟩ := Action.bind_eq_ok.mp hask
              obtain rfl := (Prod.mk.inj hingest).2
              have hgiven : deliveredBy X (.ok reply) =
                  if envelope.2.isEmpty then none else some envelope.2 := by
                rw [deliveredBy,if_neg (not_or.mpr ⟨hstatus,htype⟩),hdecode]
              by_cases hempty : envelope.2.isEmpty = true
              · rw [if_pos hempty] at hnext hgiven
                refine hstuck ?_ hgiven
                rw [← (Prod.mk.inj hnext).2,List.isEmpty_iff.mp hempty]
                rfl
              · rw [if_neg hempty] at hnext hgiven
                rw [ih hnext,hgiven]
                constructor
                · exact fun h => ⟨_,rfl,h⟩
                · rintro ⟨included,hincluded,h⟩
                  obtain rfl := Option.some.inj hincluded
                  exact h

end Rounds

/-! Reading a trie in a store that has more. -/

section Reading

variable {X : Platform} {s t : ContentStore}

theorem collectBindingsInto_congr {n : SnapshotNodeData}
    (h : ∀ l, Entry.link l ∈ n.data → ∀ x, NodeOf X s l x → t.get x = s.get x)
    (out : OrderedMap Str Hash) :
    collectBindingsInto X t fuel n out = collectBindingsInto X s fuel n out := by
  induction fuel generalizing n out with
  | zero => rfl
  | succ fuel ih =>
    unfold collectBindingsInto
    apply foldlM_congr
    intro e he out
    cases e with
    | bucket b => rfl
    | link l =>
      have hload : loadTrieNode X t l = loadTrieNode X s l := by
        rw [loadTrieNode,loadTrieNode,h l he l Relation.ReflTransGen.refl]
      unfold collectStep
      dsimp only
      rw [hload]
      cases hsub : loadTrieNode X s l with
      | none => rfl
      | some sub =>
        apply ih
        intro l' hl' x hx
        exact h l he x (Relation.ReflTransGen.head ⟨sub,hsub,hl'⟩ hx)

theorem collectAllBindings_congr (h : ∀ x, NodeOf X s root x → t.get x = s.get x) :
    collectAllBindings X t fuel root = collectAllBindings X s fuel root := by
  have hload : loadTrieNode X t root = loadTrieNode X s root := by
    rw [loadTrieNode,loadTrieNode,h root Relation.ReflTransGen.refl]
  unfold collectAllBindings
  rw [hload]
  cases hn : loadTrieNode X s root with
  | none => rfl
  | some n =>
    apply collectBindingsInto_congr
    intro l hl x hx
    exact h x (Relation.ReflTransGen.head ⟨n,hn,hl⟩ hx)

/-- A store has all that another has, and no entity under the zero hash beyond it. -/
def ExtendsStore (s t : ContentStore) : Prop :=
  (∀ h e, s.get h = some e → t.get h = some e) ∧ ∀ h, h.isZero → t.get h = s.get h

theorem ClosureComplete.bindings (hc : ClosureComplete X s root)
    (hst : ExtendsStore s t) (fuel : ℕ) :
    collectAllBindings X t fuel root = collectAllBindings X s fuel root := by
  apply collectAllBindings_congr
  intro x hx
  rcases hc.nodes x hx with hz | hsome
  · exact hst.2 x hz
  · obtain ⟨e,he⟩ := Option.isSome_iff_exists.mp hsome
    rw [he]
    exact hst.1 x e he

theorem FullTrie.closureComplete {d : ℕ} (hf : FullTrie X s d root) : ClosureComplete X s root := by
  have hbelow : ∀ {x}, NodeOf X s root x → ∃ d, FullTrie X s (d+1) x := by
    intro x hx
    induction hx with
    | refl =>
      cases d with
      | zero => exact hf.elim
      | succ d => exact ⟨d,hf⟩
    | tail _ hlink ih =>
      obtain ⟨d,n,hn,-,hlinks⟩ := ih
      obtain ⟨n',hn',hl⟩ := hlink
      rw [hn] at hn'
      obtain rfl := Option.some.inj hn'
      have hfull := hlinks _ hl
      cases d with
      | zero => exact hfull.elim
      | succ d => exact ⟨d,hfull⟩
  refine ⟨?_,?_⟩
  · intro x hx
    obtain ⟨d,n,hn,-⟩ := hbelow hx
    obtain ⟨e,he,-⟩ := Option.bind_eq_some_iff.mp hn
    exact .inr (by rw [he]; rfl)
  · rintro v ⟨x,hx,n',b,hn',hb,k,hk⟩
    obtain ⟨d,n,hn,hvalues,-⟩ := hbelow hx
    rw [hn] at hn'
    obtain rfl := Option.some.inj hn'
    exact .inr (hvalues b hb (k,v) hk)

end Reading

def PullParams.askedPrefix (params : PullParams) : Str :=
  (params.remotePrefix.filter fun p => !p.isEmpty).getD params.barePrefix

/-- The store once the answer to the fetch is in it. -/
def fetchedStore (X : Platform) (params : PullParams) (execute : Remote) (w : RevisionWorld) :
    ContentStore :=
  (fetchHead X params (params.remote.getD []) params.askedPrefix execute w).2.store

/-- What comes before the merge: a head and the rounds for its trie. -/
theorem pullClosure_cases {X : Platform} {params : PullParams} {execute : Remote}
    {w w' : RevisionWorld} {head : Hash}
    (hrun : pullClosure X fuel params (some execute) w = (.ok (.ready head root),w')) :
    ∃ w₀, w₀.store = fetchedStore X params execute w ∧
      pullRounds X fuel (params.remote.getD []) params.askedPrefix root execute pullMaxRounds 0 w₀ =
        (.ok none,w') := by
  unfold pullClosure at hrun
  by_cases hprefix : params.barePrefix.isEmpty = true
  · rw [if_pos hprefix] at hrun
    cases ok.inj (Prod.mk.inj hrun).1
  · rw [if_neg hprefix] at hrun
    cases hremote : params.remote.filter fun r => !r.isEmpty with
    | none =>
      rw [hremote] at hrun
      cases ok.inj (Prod.mk.inj hrun).1
    | some remote =>
      rw [hremote] at hrun
      have hname : params.remote.getD [] = remote := by
        rw [(Option.filter_eq_some_iff.mp hremote).1]
        rfl
      obtain ⟨fetched,w₀,hfetch,hrest⟩ := Action.bind_eq_ok.mp hrun
      rw [fetchedStore,hname]
      refine ⟨w₀,?_,?_⟩
      · rw [show fetchHead X params remote params.askedPrefix execute w = _ from hfetch]
      · cases fetched with
        | inl reply => cases ok.inj (Prod.mk.inj hrest).1
        | inr head' =>
          obtain ⟨entity,w₁,hread,hrest₂⟩ := Action.bind_eq_ok.mp hrest
          obtain ⟨-,rfl⟩ := Action.reading_eq_ok.mp hread
          cases entity with
          | none => cases ok.inj (Prod.mk.inj hrest₂).1
          | some entity =>
            dsimp only at hrest₂
            cases hentry : decodeRevisionEntry X entity with
            | none =>
              rw [hentry] at hrest₂
              cases ok.inj (Prod.mk.inj hrest₂).1
            | some entry =>
              rw [hentry] at hrest₂
              obtain ⟨reply,w₂,hrounds,hready⟩ := Action.bind_eq_ok.mp hrest₂
              cases reply with
              | some reply => cases ok.inj (Prod.mk.inj hready).1
              | none =>
                obtain ⟨hready',rfl⟩ := Prod.mk.inj hready
                obtain ⟨-,rfl⟩ := PullOutcome.ready.inj (ok.inj hready')
                exact hrounds

/-- When a pull comes to the merge, the trie of the remote head is in the store exactly if
the remote delivers it in the rounds it is given, and then the bindings merged are those
any store with all of it would give. -/
theorem pull_closure_complete_iff (X : Platform) (fuel : ℕ) (localPeerId : Str)
    (params : PullParams) (execute : Remote) (w w' : RevisionWorld) (head root : Hash)
    (hrun : pullClosure X fuel params (some execute) w = (.ok (.ready head root),w'))
    (hfuel : w'.store.puts.length < fuel) :
    handlePull X fuel localPeerId params (some execute) w = handleMerge X fuel localPeerId
      ⟨resolvePrefix params.barePrefix localPeerId,head,none,false,none⟩ w' ∧
    (ClosureComplete X w'.store root ↔
      Delivers X fuel execute params.askedPrefix root pullMaxRounds 0
        (fetchedStore X params execute w)) ∧
    (ClosureComplete X w'.store root → ∀ t, ExtendsStore w'.store t →
      collectAllBindings X t fuel root = collectAllBindings X w'.store fuel root) := by
  obtain ⟨w₀,hstore,hrounds⟩ := pullClosure_cases hrun
  refine ⟨?_,?_,fun hc t ht => hc.bindings ht fuel⟩
  · unfold handlePull
    rw [Action.bind_of_ok hrun]
  · rw [pullRounds_iff hrounds hfuel,hstore]

namespace PullSample

open Sample RevisionSample AutoVersionSample AgreementSample UntrackedSample ByteCode

def inline (type : String) (v : Value) (hash : Hash) : Value :=
  .map [(txt "data",v),(txt "type",txt type),(txt "content_hash",.bytes hash.toBytes)]

def hashes (l : List Hash) : Value := .array (l.map fun h => .bytes h.toBytes)

def envelope (root : Value) (included : List (Hash × Value)) : Value :=
  .map ((txt "root",root)::if included.isEmpty then [] else
    [(txt "included",.map (included.map fun e => (.bytes e.1.toBytes,e.2)))])

/-- The remote head is the version that adds a note. -/
def fetchResult : Value := .map [(txt "head",.bytes adding.contentHash.toBytes),
  (txt "has_more",.bool false),(txt "versions",hashes [adding.contentHash])]

def entitiesResult (found missing : List Hash) : Value :=
  .map [(txt "found",hashes found),(txt "missing",hashes missing)]

def foundNode : Value := entitiesResult [rootOfBoth] []
def foundNote : Value := entitiesResult [two.contentHash] []
def foundNothing : Value := entitiesResult [] [rootOfBoth]

def fetchAnswer : Value := envelope
  (inline "system/revision/fetch-result" fetchResult
    (sha256Hash 0x103610cd10dfbc8d7ed011ee4a896cb41fea3bb299dd3ff00147e5f2fd234305))
  [(adding.contentHash,inline "system/revision/entry"
    (RevisionEntryData.toValue ⟨rootOfBoth,[headOfOne.contentHash]⟩) adding.contentHash)]

def nodeAnswer : Value := envelope
  (inline "system/revision/fetch-entities-result" foundNode
    (sha256Hash 0x79eec22c26a26c32bc91b62152efe225cb770d589b2367b3ab0233c9de203f15))
  [(rootOfBoth,inline "system/tree/snapshot/node" nodeBoth.toValue rootOfBoth)]

def noteAnswer : Value := envelope
  (inline "system/revision/fetch-entities-result" foundNote
    (sha256Hash 0x76cce20522b0c04f44cc8e936e3b74ab29d3e301098b343458a59df591c70156))
  [(two.contentHash,inline "app/note" (txt "two") two.contentHash)]

def emptyAnswer : Value := envelope
  (inline "system/revision/fetch-entities-result" foundNothing
    (sha256Hash 0xd52448b448dd2972d1d42542a09769930577ebe00db749e8408ab88ab274642f)) []

def digestOf (type : String) (v : Value) (digest : ℕ) : Bytes × ℕ :=
  (ecfForHash type.toList (toEcf v),digest)

def request (missing : List Hash) : Value := .map [(txt "hashes",hashes missing),
  (txt "prefix",txt "project/"),(txt "snapshot",.bytes rootOfBoth.toBytes)]

def pulling : World where
  nodes := twoSides.nodes
  entries := twoSides.entries
  others := twoSides.others++[fetchResult,foundNode,foundNote,foundNothing,fetchAnswer,nodeAnswer,
    noteAnswer,emptyAnswer]
  digests := twoSides.digests++[
    digestOf "app/note" (txt "two") 0xbd80b2f7c4de929a1078df89d78a7fdd0b30c0acb24c28c2dee2f898e2626be9,
    digestOf "system/revision/fetch-result" fetchResult
      0x103610cd10dfbc8d7ed011ee4a896cb41fea3bb299dd3ff00147e5f2fd234305,
    digestOf "system/revision/fetch-entities-result" foundNode
      0x79eec22c26a26c32bc91b62152efe225cb770d589b2367b3ab0233c9de203f15,
    digestOf "system/revision/fetch-entities-result" foundNote
      0x76cce20522b0c04f44cc8e936e3b74ab29d3e301098b343458a59df591c70156,
    digestOf "system/revision/fetch-entities-result" foundNothing
      0xd52448b448dd2972d1d42542a09769930577ebe00db749e8408ab88ab274642f,
    digestOf "system/revision/fetch-params" (.map [(txt "prefix",txt "project/")])
      0x0be9d2b8bc903758c771516edf6229f5758ea44bf2e622a94689935f1ef39713,
    digestOf "system/revision/fetch-entities-params" (request [rootOfBoth])
      0xfeb0ef8765b5c6639adb5e63b52eba0440e16e47c8a6a6bbe27b90c3cfe1d50d,
    digestOf "system/revision/fetch-entities-params" (request [two.contentHash])
      0x1b96b809c237d16706a16525517cb2568b6b1a0324aa123cef0c49e398a28da8]

def reply (v : Value) (digest : ℕ) : Except String RemoteReply :=
  .ok ⟨200,entity "system/envelope" v digest⟩

def fetchReply : Except String RemoteReply :=
  reply fetchAnswer 0x41844fdc7998010d464151dcc3edf82488d5e38cb49bee6c7f2a43d7444feb95

/-- A remote that sends what it is asked for. -/
def helpful : Remote := fun n _ _ => match n with
  | 0 => fetchReply
  | 1 => reply nodeAnswer 0xb5d2bac0b985416af7628d191ca196916b90f58545a312089b87e1f92056cb4f
  | _ => reply noteAnswer 0xb249d72a254f7711c013be547435c4850013347ba9e967dc400089f041c55c76

/-- A remote that knows its head and nothing below it. -/
def forgetful : Remote := fun n _ _ => match n with
  | 0 => fetchReply
  | _ => reply emptyAnswer 0x909a4ca1c7049135176c66def7e6f2b515e144e6993a191d559db07ae381aa21

def params : PullParams := ⟨"project/".toList,none,some (List.replicate 46 'B'),none,none⟩

/-- A peer at the first version, with its note in the tree. -/
def behind : RevisionWorld where
  store := ⟨[headOfOne,
    nodeEntity nodeOne 0xd29663eff96ee1fea819e34b40fa1e809dd1275dd94ad13c1a1a5e88dbdb8833,one]⟩
  index := (MemoryLocationIndex.mk .empty).set (projectPath++ "a".toList) one.contentHash
    |>.set (revHeadPath peer (prefixHash pulling.crates projectPath)) headOfOne.contentHash

def atMerge (remote : Remote) : RevisionWorld :=
  (pullClosure pulling.crates levels params (some remote) behind).2

theorem ready_of_run {remote : Remote}
    (h : (pullClosure pulling.crates levels params (some remote) behind).1 =
      .ok (.ready adding.contentHash rootOfBoth)) :
    pullClosure pulling.crates levels params (some remote) behind =
      (.ok (.ready adding.contentHash rootOfBoth),atMerge remote) := Prod.ext h rfl

/-- The pull from the helpful remote and the one from the forgetful. -/
theorem evaluated_pulls :
    ((pullClosure pulling.crates levels params (some helpful) behind).1 =
        .ok (.ready adding.contentHash rootOfBoth) ∧
      FullTrie pulling.crates (atMerge helpful).store levels rootOfBoth ∧
      (atMerge helpful).store.puts.length < levels) ∧
    (pullClosure pulling.crates levels params (some forgetful) behind).1 =
      .ok (.ready adding.contentHash rootOfBoth) ∧
    ¬(rootOfBoth.isZero = true ∨ ((atMerge forgetful).store.get rootOfBoth).isSome) ∧
    (handlePull pulling.crates levels peer params (some forgetful) behind).1 =
      .ok (.merge "fast_forward" (some adding.contentHash) [] 0 0) ∧
    behind.index.get (projectPath++ "a".toList) = some one.contentHash ∧
    (handlePull pulling.crates levels peer params (some forgetful) behind).2.index.get
      (projectPath++ "a".toList) = none := by decide +kernel

end PullSample

open PullSample UntrackedSample AgreementSample AutoVersionSample

/-- A remote that sends what is asked for delivers the trie. -/
theorem pull_closure_complete_iff_sample :
    (pullClosure pulling.crates levels params (some helpful) behind).1 =
      .ok (.ready adding.contentHash rootOfBoth) ∧
    ClosureComplete pulling.crates (atMerge helpful).store rootOfBoth ∧
    Delivers pulling.crates levels helpful params.askedPrefix rootOfBoth pullMaxRounds 0
      (fetchedStore pulling.crates params helpful behind) := by
  obtain ⟨⟨hrun,hfull,hlength⟩,-⟩ := evaluated_pulls
  have hpull := pull_closure_complete_iff pulling.crates levels peer params helpful behind
    (atMerge helpful) _ _ (ready_of_run hrun) hlength
  exact ⟨hrun,hfull.closureComplete,hpull.2.1.mp hfull.closureComplete⟩

/-- After an empty answer the head is merged without its trie, and the note that both
versions have leaves the tree. -/
theorem pull_merges_incomplete :
    (pullClosure pulling.crates levels params (some forgetful) behind).1 =
      .ok (.ready adding.contentHash rootOfBoth) ∧
    ¬ClosureComplete pulling.crates (atMerge forgetful).store rootOfBoth ∧
    (handlePull pulling.crates levels peer params (some forgetful) behind).1 =
      .ok (.merge "fast_forward" (some adding.contentHash) [] 0 0) ∧
    behind.index.get (projectPath++ "a".toList) = some one.contentHash ∧
    (handlePull pulling.crates levels peer params (some forgetful) behind).2.index.get
      (projectPath++ "a".toList) = none := by
  obtain ⟨-,hrun,habsent,hmerged,hnote,hgone⟩ := evaluated_pulls
  refine ⟨hrun,?_,hmerged,hnote,hgone⟩
  intro hc
  exact habsent (hc.nodes rootOfBoth Relation.ReflTransGen.refl)

end EntityCore
