import EntityCore.AttestationHandler
import EntityCore.Reassembly

/-! Fetching a blob with everything it lists. The serving peer answers a request with as many of
its hashes, in order, as a frame has room for; the fetching peer asks in batches, and asks again
for what has not come, a fixed number of times. -/
namespace EntityCore

open Ecf Outcome ByteCode List

/-! The serving peer. -/

structure SystemContentHandler where
  localPeerId : Str
  contentStore : ContentStore
  getFrameBudget : ℕ
  resolveMiss : Hash → Option Entity

/-- Addition of machine words that stops at the greatest one. -/
def saturatingAdd (a b : ℕ) : ℕ := min (a+b) (2^64-1)

def includedEntryCost (entity : Entity) : ℕ :=
  saturatingAdd (saturatingAdd 65 (utf8 entity.entityType).length) entity.data.length

structure GetProgress where
  found : List Hash
  missing : List Hash
  included : OrderedMap Hash Entity
  used : ℕ
  budgetExhausted : Bool

namespace SystemContentHandler

variable (X : Platform) (S : SystemContentHandler)

def getOne (p : GetProgress) (h : Hash) : GetProgress :=
  if p.budgetExhausted then { p with missing := p.missing++[h] }
  else match (S.contentStore.get h).or (S.resolveMiss h) with
    | some entity =>
      let next := saturatingAdd p.used (includedEntryCost entity)
      -- at least one entity goes out, whatever it costs
      if next > S.getFrameBudget ∧ p.included.entries ≠ [] then
        { p with budgetExhausted := true,missing := p.missing++[h] }
      else
        { p with used := next,included := p.included.insert h entity,found := p.found++[h] }
    | none => { p with missing := p.missing++[h] }

def encodeContentResponse (found missing : List Hash) : Value :=
  .map [field "found" (.array (found.map hashVal)),field "missing" (.array (missing.map hashVal))]

def handleGet (resourceTarget : Option ResourceTarget) (params : Entity) : HandlerResult :=
  let answer : Except Failure (Entity × OrderedMap Hash Entity) := do
    let _ ← requireSingleResourcePath resourceTarget S.localPeerId
      "system/content:get (the namespace path)"
    let params ← mapErr (fun e => badRequest "invalid_params" ("cbor: "++e))
      (X.fromReader params.data)
    let hashes ← okOr ((params.lookup "hashes").bind (·.asArray))
      (badRequest "invalid_params" "hashes required")
    let p ← hashes.foldlM (fun p entry => do
      return S.getOne p (← mapErr (badRequest "invalid_params") (decodeHashRecord entry)))
      ⟨[],[],.empty,0,false⟩
    let result ← mapErr (fun e => badRequest "encode_failed" e.display) (Entity.new X
      "system/content/content-response".toList (toEcf (encodeContentResponse p.found p.missing)))
    return (result,p.included)
  match answer with
  | .ok (result,included) => .ok result included
  | .error failure => .error failure

end SystemContentHandler

/-! The fetching peer. -/

def getBatchSize : ℕ := 16

def maxPendingSyncRetries : ℕ := 8

inductive EnsureClosureError where
  | forbidden
  | notFound (hash : Hash)
  | pendingSync (retries : ℕ)
  | dispatch (status : ℕ)
  | decode (text : String)
  | verify (e : VerifyError)
  | panicked (text : String)
  deriving DecidableEq

/-- What carries a request to a handler and its answer back. -/
structure Dispatcher where
  execute : Str → String → Entity → Option ResourceTarget → Except String HandlerResult

/-- The batches of a list, each as long as it may be. -/
def batchesFrom : ℕ → List Hash → List (List Hash)
  | 0, _ => []
  | n+1, hashes =>
    if hashes = [] then [] else hashes.take getBatchSize::batchesFrom n (hashes.drop getBatchSize)

def batches (hashes : List Hash) : List (List Hash) := batchesFrom hashes.length hashes

section Client

variable (X : Platform) (D : Dispatcher) (space : Str)

def getRequestValue (hashes : List Hash) : Value :=
  .map [field "hashes" (.array (hashes.map hashVal))]

def fetchAndStore (hashes : List Hash) : Action ContentStore EnsureClosureError Unit := fun s =>
  match Entity.new X "system/content/get-request".toList (toEcf (getRequestValue hashes)) with
  | .error _ => (.error (.panicked "get-request type is valid"),s)
  | .ok params => match D.execute space "get" params (some ⟨[space],[]⟩) with
    | .error e => (.error (.decode ("dispatch: "++e)),s)
    | .ok (.ok _ included) => (.ok (),included.values.foldl ContentStore.put s)
    | .ok (.error f) =>
      if f.status = 403 then (.error .forbidden,s)
      else if f.status = 404 then (.error (.notFound (hashes.head?.getD Hash.zero)),s)
      else if f.status = 503 then (.ok (),s)
      else (.error (.dispatch f.status),s)

/-- Ask for the blob until it is there, so many times more. -/
def awaitBlob (blobHash : Hash) : ℕ → Action ContentStore EnsureClosureError Unit
  | 0 => fun s =>
    if (s.get blobHash).isSome then (.ok (),s)
    else (.error (.pendingSync (maxPendingSyncRetries+1)),s)
  | n+1 => fun s =>
    if (s.get blobHash).isSome then (.ok (),s)
    else (do fetchAndStore X D space [blobHash]; awaitBlob blobHash n) s

def fetchAll : List (List Hash) → Action ContentStore EnsureClosureError Unit
  | [] => pure ()
  | window::windows => do
    fetchAndStore X D space window
    fetchAll windows

/-- Ask for what is missing until nothing is, so many times more. -/
def drainMissing : ℕ → List Hash → Action ContentStore EnsureClosureError Unit
  | 0, missing =>
    if missing = [] then pure () else .lift (.error (.pendingSync (maxPendingSyncRetries+1)))
  | n+1, missing =>
    if missing = [] then pure () else do
      fetchAll X D space (batches missing)
      let stillMissing ← .reading fun s => .ok (missing.filter fun h => (s.get h).isNone)
      drainMissing n stillMissing

def ensureClosure (blobHash : Hash) : Action ContentStore EnsureClosureError Unit := do
  awaitBlob X D space blobHash (maxPendingSyncRetries+1)
  let (_,chunkHashes) ← .reading fun s => mapErr .verify (decodeBlob X s blobHash)
  let missing ← .reading fun s => .ok (chunkHashes.filter fun h => (s.get h).isNone)
  drainMissing X D space (maxPendingSyncRetries+1) missing

end Client

/-- Requests that reach the handler of a peer. -/
def SystemContentHandler.dispatcher (X : Platform) (S : SystemContentHandler) : Dispatcher where
  execute _ _ params resourceTarget := .ok (S.handleGet X resourceTarget params)

/-! What a peer that has everything answers. -/

/-- The front of a batch that fits the budget; its first hash always goes out. -/
def granted (budget : ℕ) (cost : Hash → ℕ) : ℕ → Bool → List Hash → List Hash
  | _, _, [] => []
  | used, first, h::hashes =>
    if saturatingAdd used (cost h) > budget ∧ first = false then []
    else h::granted budget cost (saturatingAdd used (cost h)) false hashes

/-- What is left of the missing hashes when every batch of them has been asked for once. -/
def afterRound (budget : ℕ) (cost : Hash → ℕ) (missing : List Hash) : List Hash :=
  missing.filter fun h => h ∉ (batches missing).flatMap (granted budget cost 0 true)

theorem granted_subset (budget : ℕ) (cost : Hash → ℕ) (used : ℕ) (first : Bool)
    (hashes : List Hash) : granted budget cost used first hashes ⊆ hashes := by
  induction hashes generalizing used first with
  | nil => simp [granted]
  | cons h hashes ih =>
    unfold granted
    split_ifs
    · exact nil_subset _
    · exact cons_subset_cons h (ih _ _)

theorem length_of_mem_batchesFrom {n : ℕ} {hashes batch : List Hash}
    (h : batch ∈ batchesFrom n hashes) : batch.length ≤ getBatchSize := by
  induction n generalizing hashes with
  | zero => cases h
  | succ n ih =>
    unfold batchesFrom at h
    split_ifs at h
    · cases h
    · rcases mem_cons.mp h with rfl | h
      · exact length_take_le _ _
      · exact ih h

theorem sublist_of_mem_batchesFrom {n : ℕ} {hashes batch : List Hash}
    (h : batch ∈ batchesFrom n hashes) : batch.Sublist hashes := by
  induction n generalizing hashes with
  | zero => cases h
  | succ n ih =>
    unfold batchesFrom at h
    split_ifs at h
    · cases h
    · rcases mem_cons.mp h with rfl | h
      · exact take_sublist _ _
      · exact (ih h).trans (drop_sublist _ _)

section Serving

variable {X : Platform} {S : SystemContentHandler}

/-- The cost of what the peer has under a hash. -/
def SystemContentHandler.costOf (S : SystemContentHandler) (h : Hash) : ℕ :=
  ((S.contentStore.get h).map includedEntryCost).getD 0

theorem getOne_exhausted (hashes : List Hash) {p : GetProgress} (h : p.budgetExhausted = true) :
    (hashes.foldl S.getOne p).included = p.included := by
  induction hashes generalizing p with
  | nil => rfl
  | cons x hashes ih =>
    have hstep : S.getOne p x = { p with missing := p.missing++[x] } := by
      simp [SystemContentHandler.getOne,h]
    rw [foldl_cons,hstep]
    exact ih h

/-- What goes out is the granted front of the batch, every entity under its hash. -/
theorem included_getOne (hashes : List Hash) (hall : ∀ h ∈ hashes, (S.contentStore.get h).isSome)
    {p : GetProgress} (hp : p.budgetExhausted = false) (k : Hash) :
    (hashes.foldl S.getOne p).included.get k =
      if k ∈ granted S.getFrameBudget S.costOf p.used (decide (p.included.entries = [])) hashes
        then S.contentStore.get k else p.included.get k := by
  induction hashes generalizing p with
  | nil => simp [granted]
  | cons h hashes ih =>
    obtain ⟨entity,hentity⟩ := Option.isSome_iff_exists.mp (hall h mem_cons_self)
    have hcost : S.costOf h = includedEntryCost entity := by
      simp [SystemContentHandler.costOf,hentity]
    have hrest := fun x hx => hall x (mem_cons_of_mem _ hx)
    rw [foldl_cons]
    by_cases hfull : saturatingAdd p.used (includedEntryCost entity) > S.getFrameBudget ∧
        p.included.entries ≠ []
    · have hstep : S.getOne p h = { p with budgetExhausted := true,missing := p.missing++[h] } := by
        simp only [SystemContentHandler.getOne,hp,hentity,Option.some_or,Bool.false_eq_true,
          if_false]
        rw [if_pos hfull]
      have hnone : granted S.getFrameBudget S.costOf p.used (decide (p.included.entries = []))
          (h::hashes) = [] := by
        unfold granted
        rw [hcost,if_pos ⟨hfull.1,by simpa using hfull.2⟩]
      rw [hstep,hnone,getOne_exhausted hashes rfl]
      simp
    · have hstep : S.getOne p h = { p with
          used := saturatingAdd p.used (includedEntryCost entity)
          included := p.included.insert h entity
          found := p.found++[h] } := by
        simp only [SystemContentHandler.getOne,hp,hentity,Option.some_or,Bool.false_eq_true,
          if_false]
        rw [if_neg hfull]
      have hsome : granted S.getFrameBudget S.costOf p.used (decide (p.included.entries = []))
          (h::hashes) = h::granted S.getFrameBudget S.costOf
            (saturatingAdd p.used (includedEntryCost entity)) false hashes := by
        rw [granted,hcost,if_neg]
        simpa using hfull
      have hnonempty : (p.included.insert h entity).entries ≠ [] := by
        intro hnil
        have hget := OrderedMap.get_insert p.included h entity h
        rw [OrderedMap.get,hnil,if_pos rfl] at hget
        cases hget
      have hgo := ih hrest (p := { p with
        used := saturatingAdd p.used (includedEntryCost entity)
        included := p.included.insert h entity
        found := p.found++[h] }) hp
      rw [hstep,hsome,hgo]
      simp only [hnonempty,decide_false,OrderedMap.get_insert,mem_cons]
      by_cases hk : k = h
      · subst hk
        simp [hentity]
      · simp [hk]

theorem decodeHashRecord_hashVal (h : Hash) : decodeHashRecord (hashVal h) = .ok h := by
  simp [decodeHashRecord,hashVal,Value.asBytes,okOr,Hash.fromBytes_toBytes,mapErr,bind,Except.bind]

theorem foldlM_hashRecords (hashes : List Hash) (p : GetProgress) :
    (hashes.map hashVal).foldlM (fun p entry => do
      return S.getOne p (← mapErr (badRequest "invalid_params") (decodeHashRecord entry))) p =
        .ok (hashes.foldl S.getOne p) := by
  induction hashes generalizing p with
  | nil => rfl
  | cons h hashes ih =>
    rw [map_cons,foldlM_cons,decodeHashRecord_hashVal]
    exact ih _

/-- The reader reads a request back as it was written. -/
def ReadsRequest (X : Platform) (hashes : List Hash) : Prop :=
  X.fromReader (toEcf (getRequestValue hashes)) = .ok (getRequestValue hashes)

/-- It does so for every batch of these hashes. -/
def ReadsRequests (X : Platform) (known : List Hash) : Prop :=
  ∀ hashes, List.Sublist hashes known → hashes.length ≤ getBatchSize → ReadsRequest X hashes

/-- The handler takes the path for one concrete resource. -/
def Concrete (S : SystemContentHandler) (space : Str) : Prop :=
  ∃ path, requireSingleResourcePath (some ⟨[space],[]⟩) S.localPeerId
    "system/content:get (the namespace path)" = .ok path

theorem handleGet_granted (hX : X.FormatAllocated) {space : Str} (hspace : Concrete S space)
    {hashes : List Hash} (hread : ReadsRequest X hashes)
    (hall : ∀ h ∈ hashes, (S.contentStore.get h).isSome) {params : Entity}
    (hparams : params.data = toEcf (getRequestValue hashes)) :
    ∃ result included, S.handleGet X (some ⟨[space],[]⟩) params = .ok result included ∧
      ∀ k, included.get k = if k ∈ granted S.getFrameBudget S.costOf 0 true hashes
        then S.contentStore.get k else none := by
  obtain ⟨path,hpath⟩ := hspace
  have hlookup : ((getRequestValue hashes).lookup "hashes").bind (·.asArray) =
      some (hashes.map hashVal) := by
    simp [getRequestValue,Value.lookup,Value.asMap,getField,field,Value.asText,Value.asArray]
  have hfold := foldlM_hashRecords (S := S) hashes ⟨[],[],.empty,0,false⟩
  have hincluded := included_getOne hashes hall (p := ⟨[],[],.empty,0,false⟩) rfl
  generalize hashes.foldl S.getOne ⟨[],[],.empty,0,false⟩ = p at hfold hincluded
  have hnew : ∃ result, Entity.new X "system/content/content-response".toList
      (toEcf (SystemContentHandler.encodeContentResponse p.found p.missing)) = .ok result :=
    Entity.new_ok hX (by decide) (by decide) (toEcf_map_ne_nil _)
  obtain ⟨result,hresult⟩ := hnew
  refine ⟨result,p.included,?_,hincluded⟩
  unfold SystemContentHandler.handleGet
  rw [hpath,hparams,hread]
  simp only [bind,Except.bind,mapErr,hlookup,okOr] at hfold ⊢
  rw [hfold]
  simp only [hresult]
  rfl

theorem get_foldl_put (source : ContentStore) (entities : List Entity)
    (h : ∀ e ∈ entities, source.get e.contentHash = some e) (s : ContentStore) (k : Hash) :
    (entities.foldl ContentStore.put s).get k =
      if k ∈ entities.map (·.contentHash) then source.get k else s.get k := by
  induction entities generalizing s with
  | nil => simp
  | cons e entities ih =>
    rw [foldl_cons,ih fun x hx => h x (mem_cons_of_mem _ hx),ContentStore.get_put]
    by_cases hk : e.contentHash = k
    · subst hk
      simp [h e mem_cons_self]
    · simp [hk,Ne.symm hk]

/-- A round trip brings in the granted front of the batch. -/
theorem fetchAndStore_granted (hX : X.FormatAllocated) {space : Str} (hspace : Concrete S space)
    {hashes : List Hash} (hread : ReadsRequest X hashes)
    (hall : ∀ h ∈ hashes, (S.contentStore.get h).isSome) (s : ContentStore) :
    ∃ s', fetchAndStore X (S.dispatcher X) space hashes s = (.ok (),s') ∧
      ∀ k, s'.get k = if k ∈ granted S.getFrameBudget S.costOf 0 true hashes
        then S.contentStore.get k else s.get k := by
  have hnew : ∃ params, Entity.new X "system/content/get-request".toList
      (toEcf (getRequestValue hashes)) = .ok params :=
    Entity.new_ok hX (by decide) (by decide) (toEcf_map_ne_nil _)
  obtain ⟨params,hparams⟩ := hnew
  have hdata := (Entity.newWithFormat_ok X hparams).2.1
  obtain ⟨result,included,hget,hincluded⟩ := handleGet_granted hX hspace hread hall hdata
  have hkeyed : ∀ e ∈ included.values, S.contentStore.get e.contentHash = some e ∧
      e.contentHash ∈ granted S.getFrameBudget S.costOf 0 true hashes := by
    intro e he
    obtain ⟨k,hk⟩ := (included.mem_values e).mp he
    rw [hincluded] at hk
    split_ifs at hk with hmem
    have hhash := ContentStore.contentHash_of_get hk
    rw [hhash]
    exact ⟨hk,hmem⟩
  refine ⟨included.values.foldl ContentStore.put s,?_,fun k => ?_⟩
  · unfold fetchAndStore SystemContentHandler.dispatcher
    rw [hparams]
    simp only [hget]
  · rw [get_foldl_put S.contentStore _ fun e he => (hkeyed e he).1]
    have hiff : k ∈ included.values.map (·.contentHash) ↔
        k ∈ granted S.getFrameBudget S.costOf 0 true hashes := by
      constructor
      · intro hk
        obtain ⟨e,he,rfl⟩ := mem_map.mp hk
        exact (hkeyed e he).2
      · intro hk
        obtain ⟨e,he⟩ := Option.isSome_iff_exists.mp (hall k (granted_subset _ _ _ _ _ hk))
        have hval : e ∈ included.values := (included.mem_values e).mpr ⟨k,by
          rw [hincluded,if_pos hk,he]⟩
        exact mem_map.mpr ⟨e,hval,ContentStore.contentHash_of_get he⟩
    simp only [hiff]

theorem fetchAll_granted (hX : X.FormatAllocated) {space : Str} (hspace : Concrete S space)
    (windows : List (List Hash)) (hread : ∀ w ∈ windows, ReadsRequest X w)
    (hall : ∀ w ∈ windows, ∀ h ∈ w, (S.contentStore.get h).isSome) (s : ContentStore) :
    ∃ s', fetchAll X (S.dispatcher X) space windows s = (.ok (),s') ∧
      ∀ k, s'.get k = if k ∈ windows.flatMap (granted S.getFrameBudget S.costOf 0 true)
        then S.contentStore.get k else s.get k := by
  induction windows generalizing s with
  | nil => exact ⟨s,rfl,fun k => by simp⟩
  | cons w windows ih =>
    obtain ⟨s₁,hfetch,hget₁⟩ := fetchAndStore_granted hX hspace (hread w mem_cons_self)
      (hall w mem_cons_self) s
    obtain ⟨s₂,hrest,hget₂⟩ := ih (fun x hx => hread x (mem_cons_of_mem _ hx))
      (fun x hx => hall x (mem_cons_of_mem _ hx)) s₁
    refine ⟨s₂,?_,fun k => ?_⟩
    · rw [fetchAll,Action.bind_of_ok hfetch,hrest]
    · simp only [hget₂,hget₁,flatMap_cons,mem_append]
      by_cases hw : k ∈ granted S.getFrameBudget S.costOf 0 true w
      · simp [hw]
      · simp [hw]

theorem afterRound_nil (budget : ℕ) (cost : Hash → ℕ) : afterRound budget cost [] = [] := rfl

theorem afterRounds_nil (budget : ℕ) (cost : Hash → ℕ) (n : ℕ) :
    (afterRound budget cost)^[n] [] = [] := by
  induction n with
  | zero => rfl
  | succ n ih => rw [Function.iterate_succ_apply,afterRound_nil,ih]

/-- The rounds succeed when they empty the list of missing hashes, and then all of them have
come; what was there stays. -/
theorem drainMissing_spec (hX : X.FormatAllocated) {space : Str} (hspace : Concrete S space)
    (n : ℕ) (missing : List Hash) (hread : ReadsRequests X missing)
    (hall : ∀ h ∈ missing, (S.contentStore.get h).isSome) (s : ContentStore)
    (hgone : ∀ h ∈ missing, s.get h = none) :
    ((drainMissing X (S.dispatcher X) space n missing s).1 = .ok () ↔
      (afterRound S.getFrameBudget S.costOf)^[n] missing = []) ∧
    ((drainMissing X (S.dispatcher X) space n missing s).1 = .ok () →
      ∀ h ∈ missing, ((drainMissing X (S.dispatcher X) space n missing s).2.get h).isSome) ∧
    ∀ h, (s.get h).isSome →
      ((drainMissing X (S.dispatcher X) space n missing s).2.get h).isSome := by
  induction n generalizing missing s with
  | zero =>
    unfold drainMissing
    by_cases hnil : missing = []
    · simp [hnil]
    · simp [hnil]
  | succ n ih =>
    unfold drainMissing
    by_cases hnil : missing = []
    · simp [hnil,afterRounds_nil]
    · obtain ⟨s',hfetch,hget⟩ := fetchAll_granted hX hspace (batches missing)
        (fun w hw => hread w (sublist_of_mem_batchesFrom hw) (length_of_mem_batchesFrom hw))
        (fun w hw h hh => hall h ((sublist_of_mem_batchesFrom hw).subset hh)) s
      have hstill : (missing.filter fun h => (s'.get h).isNone) =
          afterRound S.getFrameBudget S.costOf missing := by
        unfold afterRound
        apply filter_congr
        intro h hh
        rw [hget]
        by_cases hg : h ∈ (batches missing).flatMap (granted S.getFrameBudget S.costOf 0 true)
        · simp [hg,hall h hh]
        · simp [hg,hgone h hh]
      have hkept : ∀ h, (s.get h).isSome → (s'.get h).isSome := by
        intro h hh
        rw [hget]
        split_ifs with hg
        · obtain ⟨w,hw,hwg⟩ := mem_flatMap.mp hg
          exact hall h ((sublist_of_mem_batchesFrom hw).subset (granted_subset _ _ _ _ _ hwg))
        · exact hh
      have hreading : (Action.reading fun s => .ok (missing.filter fun h => (s.get h).isNone) :
          Action ContentStore EnsureClosureError (List Hash)) s' =
            (.ok (afterRound S.getFrameBudget S.costOf missing),s') := by
        rw [← hstill]
        rfl
      have hleft : ∀ h ∈ afterRound S.getFrameBudget S.costOf missing,
          h ∈ missing ∧ s'.get h = none := by
        intro h hh
        rw [← hstill,mem_filter] at hh
        exact ⟨hh.1,by simpa using hh.2⟩
      obtain ⟨hiff,hcame,hstays⟩ := ih (afterRound S.getFrameBudget S.costOf missing)
        (fun hashes hsub => hread hashes (hsub.trans filter_sublist)) (fun h hh => hall h (hleft h hh).1) s' fun h hh => (hleft h hh).2
      rw [if_neg hnil,Action.bind_of_ok hfetch,Action.bind_of_ok hreading,
        Function.iterate_succ_apply]
      refine ⟨hiff,fun hok h hh => ?_,fun h hh => hstays h (hkept h hh)⟩
      by_cases hs : (s'.get h).isSome
      · exact hstays h hs
      · refine hcame hok h ?_
        rw [← hstill,mem_filter]
        exact ⟨hh,by simpa using hs⟩

variable {blobHash : Hash} {blob : Entity} {totalSize : ℕ} {chunks : List Hash}

/-- The blob itself comes with the first request. -/
theorem awaitBlob_spec (hX : X.FormatAllocated) {space : Str} (hspace : Concrete S space)
    (hread : ReadsRequest X [blobHash]) (hblob : S.contentStore.get blobHash = some blob) (n : ℕ)
    (s : ContentStore) (hagree : ∀ e, s.get blobHash = some e → e = blob) :
    ∃ s', awaitBlob X (S.dispatcher X) space blobHash (n+1) s = (.ok (),s') ∧
      s'.get blobHash = some blob ∧ ∀ k, k ≠ blobHash → s'.get k = s.get k := by
  unfold awaitBlob
  cases hs : s.get blobHash with
  | some e =>
    have he := hagree e hs
    rw [he] at hs
    exact ⟨s,by simp,hs,fun k _ => rfl⟩
  | none =>
    have hall : ∀ h ∈ [blobHash], (S.contentStore.get h).isSome := by
      simp [hblob]
    obtain ⟨s',hfetch,hget⟩ := fetchAndStore_granted hX hspace hread hall s
    have hgranted : granted S.getFrameBudget S.costOf 0 true [blobHash] = [blobHash] := by
      simp [granted]
    rw [hgranted] at hget
    have hhere : s'.get blobHash = some blob := by rw [hget]; simp [hblob]
    refine ⟨s',?_,hhere,fun k hk => by rw [hget]; simp [hk]⟩
    simp only [Option.isSome_none,Bool.false_eq_true,if_false]
    rw [Action.bind_of_ok hfetch]
    cases n with
    | zero => simp [awaitBlob,hhere]
    | succ n => simp [awaitBlob,hhere]

/-- The chunks that have to be fetched. -/
def chunksMissing (local_ : ContentStore) (blobHash : Hash) (chunks : List Hash) : List Hash :=
  chunks.filter fun h => (local_.get h).isNone && decide (h ≠ blobHash)

/-- Against a peer that has a blob and everything it lists, the closure completes exactly when
nine rounds of prefix answers leave nothing of the missing chunks; and when it does, the blob
and its chunks are there. -/
theorem ensureClosure_spec (hX : X.FormatAllocated) {space : Str} (hspace : Concrete S space)
    (hread : ReadsRequests X (blobHash::chunks)) (hblob : S.contentStore.get blobHash = some blob)
    (hchunks : decodeBlobEntity X blob = .ok (totalSize,chunks))
    (hall : ∀ h ∈ chunks, (S.contentStore.get h).isSome) (local_ : ContentStore)
    (hagree : ∀ e, local_.get blobHash = some e → e = blob) :
    ((ensureClosure X (S.dispatcher X) space blobHash local_).1 = .ok () ↔
      (afterRound S.getFrameBudget S.costOf)^[maxPendingSyncRetries+1]
        (chunksMissing local_ blobHash chunks) = []) ∧
    ((ensureClosure X (S.dispatcher X) space blobHash local_).1 = .ok () → ∀ h ∈ blobHash::chunks,
        ((ensureClosure X (S.dispatcher X) space blobHash local_).2.get h).isSome) := by
  obtain ⟨s,hawait,hhere,helse⟩ := awaitBlob_spec hX hspace
    (hread [blobHash] (by simp) (by simp [getBatchSize])) hblob maxPendingSyncRetries local_ hagree
  have hdecode : (Action.reading fun s => mapErr .verify (decodeBlob X s blobHash) :
      Action ContentStore EnsureClosureError (ℕ × List Hash)) s = (.ok (totalSize,chunks),s) := by
    simp [decodeBlob,hhere,okOr,hchunks,mapErr,bind,Except.bind]
  have hmissing : (chunks.filter fun h => (s.get h).isNone) =
      chunksMissing local_ blobHash chunks := by
    unfold chunksMissing
    apply List.filter_congr
    intro h _
    by_cases hh : h = blobHash
    · subst hh
      simp [hhere]
    · simp [hh,helse h hh]
  have hreading : (Action.reading fun s => .ok (chunks.filter fun h => (s.get h).isNone) :
      Action ContentStore EnsureClosureError (List Hash)) s =
        (.ok (chunksMissing local_ blobHash chunks),s) := by
    rw [← hmissing]
    rfl
  have hleft : ∀ h ∈ chunksMissing local_ blobHash chunks, h ∈ chunks ∧ s.get h = none := by
    intro h hh
    rw [← hmissing,List.mem_filter] at hh
    exact ⟨hh.1,by simpa using hh.2⟩
  obtain ⟨hiff,hcame,hstays⟩ := drainMissing_spec hX hspace (maxPendingSyncRetries+1)
    (chunksMissing local_ blobHash chunks)
    (fun hashes hsub => hread hashes ((hsub.trans List.filter_sublist).trans
      (List.sublist_cons_self _ _))) (fun h hh => hall h (hleft h hh).1) s
    fun h hh => (hleft h hh).2
  have hrun : ensureClosure X (S.dispatcher X) space blobHash local_ =
      drainMissing X (S.dispatcher X) space (maxPendingSyncRetries+1)
        (chunksMissing local_ blobHash chunks) s := by
    unfold ensureClosure
    rw [Action.bind_of_ok hawait,Action.bind_of_ok hdecode]
    dsimp only
    rw [Action.bind_of_ok hreading]
  rw [hrun]
  refine ⟨hiff,fun hok h hh => ?_⟩
  rcases List.mem_cons.mp hh with rfl | hh
  · exact hstays h (by simp [hhere])
  · by_cases hs : (s.get h).isSome
    · exact hstays h hs
    · refine hcame hok h ?_
      rw [← hmissing,List.mem_filter]
      exact ⟨hh,by simpa using hs⟩

end Serving

namespace ClosureSample

open Sample

def chunk (b : UInt8) (digest : ℕ) : Entity :=
  entity "system/content/chunk" (chunkValue [b]) digest

/-- One chunk a byte, as the fixed-size chunker cuts with a chunk size of one. -/
def chunks : List Entity := [
  chunk 0 0x85790aa150e224d2d7cfc7c0aa88619baedc5c83e9ac957cb50527f021706676,
  chunk 1 0x7e5d6c0b69c1e6349fa6b234b341fa8f3a5f6448b9b3e53ff8f2cc3b1ca603ba,
  chunk 2 0x64fa5b81098e5b94f31d423d37d998b167dd270125f426fe8f2e163b3199cadb,
  chunk 3 0x2026ff384e5d7f941e2a33a1dcc6ce7ee7b59a205a5bfe9c0b317c15450c150d,
  chunk 4 0x0420c7aa5fc1a66729352ceeaf21ce9ed6c80fd079ce64076cbcdf24e67243f9,
  chunk 5 0x7f909ba74b523326b04484cfca4553f558123ea3be70642aa9441bc5f731d8fc,
  chunk 6 0xc020e4b53214a3a9e76522bc09376cf54026ae86e0e8489f61be15182c4c408f,
  chunk 7 0x5d073df4d977cd55d177571a5a6900a4f86a3933406343caca395e6fca5f3634,
  chunk 8 0xf537f54723d6402d21ba50b3af37b6deb039b67bd6b79102a4ec2b159ea46a49,
  chunk 9 0xc29313b96153277b44bbe6aad305aa2c01d8e5466fbefb26768115ffce0f6064]

def blobOf (listed : List Entity) (digest : ℕ) : Entity :=
  entity "system/content/blob" (blobValue listed.length 1 0 (listed.map (·.contentHash))) digest

def blob : Entity := blobOf chunks
  0x8ec360b2199197ecb9b0a822a7dfcd9a5d2df33f83a58e91d4decfd442b21ce1

def smallBlob : Entity := blobOf (chunks.take 2)
  0x97a3627f347ec8b49689bca8aee9962fa8b656a20b8b6e844cc5f8ec42049619

def hashes : List Hash := chunks.map (·.contentHash)

/-- Everything that is read on the way: the blobs and the requests. -/
def documents : List Value :=
  [blobValue 10 1 0 hashes,blobValue 2 1 0 (hashes.take 2),getRequestValue [blob.contentHash]]++
    ((List.range 9).map fun k => getRequestValue (hashes.drop k))++
    (smallBlob.contentHash::hashes.take 2).sublists.map getRequestValue

def crates : Platform := platform documents [] []

def server (budget : ℕ) : SystemContentHandler :=
  ⟨aliceId,⟨blob::smallBlob::chunks⟩,budget,fun _ => none⟩

def space : Str := "system/content/files".toList

/-- The answers of the two closures, one of which takes a round more than there are. -/
theorem evaluated_closures :
    ((documents.map toEcf).Nodup ∧
      (server 0).contentStore.get smallBlob.contentHash = some smallBlob ∧
      decodeBlobEntity crates smallBlob = .ok (2,hashes.take 2) ∧
      ∀ h ∈ hashes.take 2, ((server 0).contentStore.get h).isSome) ∧
    ((server 0).contentStore.get blob.contentHash = some blob ∧
      decodeBlobEntity crates blob = .ok (10,hashes) ∧
      ∀ h ∈ hashes, ((server 0).contentStore.get h).isSome) ∧
    (ensureClosure crates ((server 0).dispatcher crates) space blob.contentHash ⟨[]⟩).1 =
      .error (.pendingSync 9) := by
  decide +kernel

theorem crates_read {v : Value} (hv : v ∈ documents) : crates.fromReader (toEcf v) = .ok v :=
  reads_document evaluated_closures.1.1 hv

theorem crates_readRequests : ReadsRequests crates (smallBlob.contentHash::hashes.take 2) := by
  intro l hl _
  apply crates_read
  apply mem_append_right
  exact mem_map_of_mem (mem_sublists.mpr hl)

/-- Two chunks, one an answer. -/
theorem ensureClosure_spec_sample :
    ((ensureClosure crates ((server 0).dispatcher crates) space smallBlob.contentHash ⟨[]⟩).1 =
        .ok () ↔ (afterRound 0 (server 0).costOf)^[9]
        (chunksMissing ⟨[]⟩ smallBlob.contentHash (hashes.take 2)) = []) ∧
    ((ensureClosure crates ((server 0).dispatcher crates) space smallBlob.contentHash ⟨[]⟩).1 =
        .ok () → ∀ h ∈ smallBlob.contentHash::hashes.take 2,
      ((ensureClosure crates ((server 0).dispatcher crates) space smallBlob.contentHash
        ⟨[]⟩).2.get h).isSome) := by
  have hX : crates.FormatAllocated := by decide
  have hspace : Concrete (server 0) space := ⟨'/'::aliceId++ '/'::space,by rfl⟩
  obtain ⟨⟨-,hblob,hdecode,hall⟩,-⟩ := evaluated_closures
  exact ensureClosure_spec (S := server 0) hX hspace crates_readRequests hblob hdecode hall ⟨[]⟩
    fun e he => by cases he

/-- Ten chunks at one an answer take ten rounds, and there are nine. -/
theorem closure_gives_up : (server 0).contentStore.get blob.contentHash = some blob ∧
    decodeBlobEntity crates blob = .ok (10,hashes) ∧
    (∀ h ∈ hashes, ((server 0).contentStore.get h).isSome) ∧
    (ensureClosure crates ((server 0).dispatcher crates) space blob.contentHash ⟨[]⟩).1 =
      .error (.pendingSync 9) :=
  let ⟨_,⟨hget,hdecode,hstored⟩,hgives⟩ := evaluated_closures
  ⟨hget,hdecode,hstored,hgives⟩

end ClosureSample

end EntityCore
