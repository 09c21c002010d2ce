import EntityCore.CascadeVolume
import EntityCore.TreeHandler

/-! The merge of a snapshot into the tree. Everything that can refuse it is checked before the first
write, and then every binding of the source is looked up and, as the strategy says, written. What the
index answers to a write is not looked at: a write it refused counts as applied. -/
namespace EntityCore

open Ecf Outcome Strings TreeHandler List

variable {σ : Type}

def typeTreeMergeResult : Str := "system/tree/merge-result".toList

inductive TreeMergeStrategy where
  | noOverwrite | sourceWins | targetWins
  deriving DecidableEq

structure MergeConflict where
  existing : Hash
  incoming : Hash
  resolution : Str
  deriving DecidableEq

structure MergeReport where
  applied : ℕ
  skipped : ℕ
  conflicts : OrderedMap Str MergeConflict

structure Verdict where
  applies : Bool
  conflict : Option MergeConflict

namespace TreeMergeStrategy

def ofText (s : Str) : Option TreeMergeStrategy :=
  if s = "no-overwrite".toList then some .noOverwrite
  else if s = "source-wins".toList then some .sourceWins
  else if s = "target-wins".toList then some .targetWins
  else none

def text : TreeMergeStrategy → Str
  | .noOverwrite => "no-overwrite".toList
  | .sourceWins => "source-wins".toList
  | .targetWins => "target-wins".toList

/-- What becomes of a source binding, given what the target has. -/
def verdict (g : TreeMergeStrategy) (existing : Option Hash) (incoming : Hash) : Verdict :=
  match existing with
  | none => ⟨true,none⟩
  | some old =>
    if old = incoming then ⟨false,none⟩
    else match g with
      | .sourceWins => ⟨true,some ⟨old,incoming,"used-incoming".toList⟩⟩
      | .targetWins => ⟨false,some ⟨old,incoming,"kept-existing".toList⟩⟩
      | .noOverwrite => ⟨false,some ⟨old,incoming,"unresolved".toList⟩⟩

end TreeMergeStrategy

namespace MergeReport

def empty : MergeReport := ⟨0,0,.empty⟩

def note (r : MergeReport) (path : Str) (v : Verdict) : MergeReport where
  applied := if v.applies then r.applied+1 else r.applied
  skipped := if v.applies then r.skipped else r.skipped+1
  conflicts := match v.conflict with
    | some conflict => r.conflicts.insert path conflict
    | none => r.conflicts

def conflictValue (c : MergeConflict) : Value :=
  .map [field "existing_hash" (hashVal c.existing),field "incoming_hash" (hashVal c.incoming),
    field "resolution" (textVal c.resolution)]

def toEntity (X : Platform) (g : TreeMergeStrategy) (r : MergeReport) : Except EntityError Entity :=
  Entity.new X typeTreeMergeResult (toEcf (.map [field "applied" (integerI64 r.applied),
    field "conflicts" (.map (r.conflicts.entries.map fun e => (.text e.1,conflictValue e.2))),
    field "skipped" (integerI64 r.skipped),field "strategy" (textVal g.text)]))

end MergeReport

/-! The apply loop. -/

/-- A write of the loop, with the consumers it called. -/
structure Delivery where
  path : Str
  hash : Hash
  emissions : List Emission

structure MergeRun (σ : Type) where
  tree : NotifyingLocationIndex σ
  report : MergeReport
  writes : List Delivery

def MergeRun.write (c : Consumers σ) (emit : ExecutionContext) (path : Str) (hash : Hash)
    (run : MergeRun σ) : MergeRun σ :=
  let r := NotifyingLocationIndex.setImpl c path hash (some emit) run.tree
  { run with tree := r.state, writes := run.writes++[⟨path,hash,r.emissions⟩] }

def mergeStep (c : Consumers σ) (emit : ExecutionContext) (g : TreeMergeStrategy) (dryRun : Bool)
    (start : Str) (run : MergeRun σ) (binding : Str × Hash) : MergeRun σ :=
  let path := start++binding.1
  let v := g.verdict (run.tree.inner.get path) binding.2
  let written := if v.applies && !dryRun then run.write c emit path binding.2 else run
  { written with report := written.report.note path v }

/-! What comes before the first write. -/

structure MergePlan where
  strategy : TreeMergeStrategy
  dryRun : Bool
  applyPrefix : Str
  bindings : OrderedMap Str Hash

def validateTreeBoundaryPath (path : Str) : Except String Unit :=
  match path.find? isControl with
  | some c => .error ("path contains a control character (U+"++codePoint c++ ")")
  | none => EntityUri.validateAbsolutePath path

namespace TreeHandler

variable (X : Platform) (H : TreeHandler) (ctx : TreeContext)

def selfInconsistent (what : String) (e : EntityError) : TreeFailure :=
  .refused (badRequest "hash_mismatch" ("source_envelope "++what++e.display))

/-- An entity goes to the store as it came, when its hash is its own. -/
def ingestEntity (what : String) (e : Entity) : Action ContentStore TreeFailure Unit := do
  .lift (mapErr (selfInconsistent what) (e.validate X))
  .modify (·.put e)

/-- The envelope may be wrapped in an entity of its own. -/
def envelopeBytes (raw : Bytes) : Bytes :=
  match Wire.cborMapFieldRaw raw "type".toList,Wire.cborMapFieldRaw raw "data".toList with
  | some _, some data => data
  | _, _ => raw

/-- The bytes of the parameters are read, not what the library made of them. -/
def ingestSourceEnvelope (shown : Wire.WireError → String) : Action ContentStore TreeFailure Hash := do
  let raw ← .lift (okOr (Wire.cborMapFieldRaw ctx.params.data "source_envelope".toList)
    (.failed (.invalidParams "source_envelope is not addressable in the params CBOR")))
  let envelope ← .lift (mapErr (fun e => match e with
    | .includedKeyMismatch key actual => .refused (badRequest "hash_mismatch"
        ("source_envelope.included entry keyed "++key++ " holds an entity that hashes to "++actual))
    | e => .refused (badRequest "invalid_params"
        ("source_envelope is not a decodable envelope: "++shown e)))
    (Wire.decodeEnvelope (envelopeBytes raw)))
  envelope.included.values.forM (ingestEntity X "carries a self-inconsistent entity: ")
  ingestEntity X "root is self-inconsistent: " envelope.root
  return envelope.root.contentHash

/-- The hash of the source; an all-zero one counts as absent. -/
def sourceHash (params : List (Value × Value)) : Except TreeFailure (Option Hash) :=
  match (getField params "source").bind Value.asBytes with
  | none => .ok none
  | some bytes => (mapErr (fun e => .failed (.invalidParams e.display)) (Hash.fromBytes bytes)).map
      fun h => if h.isZero then none else some h

def resolveSource (shown : Wire.WireError → String) (params : List (Value × Value)) :
    Action ContentStore TreeFailure Hash := do
  match ← .lift (sourceHash params) with
  | some h => return h
  | none =>
    if (getField params "source_envelope").isSome then ingestSourceEnvelope X ctx shown
    else .lift (.error (.failed (.invalidParams "source snapshot hash or source_envelope required")))

/-- The peer whose namespace the handler serves. -/
def namespaceOf : Str := EntityUri.firstSegment ((stripPrefix ctx.pattern ['/']).getD ctx.pattern)

def qualify (p : Str) : Str :=
  if p.isEmpty || !EntityUri.isPeerId (namespaceOf ctx) then p
  else if startsWith p ['/'] || startsWith p uriScheme then p
  else '/'::namespaceOf ctx++ '/'::p

def applyPrefixOf (sourcePrefix targetPrefix : Str) : Str :=
  if !targetPrefix.isEmpty then qualify ctx targetPrefix
  else if !sourcePrefix.isEmpty then qualify ctx sourcePrefix
  else []

/-- The checks of all target paths: their form first, then the caller's permission. -/
def checkTargets (targets : List Str) : Except TreeFailure Unit := do
  if EntityUri.isPeerId (namespaceOf ctx) then
    forEach (fun target => mapErr (fun e => .refused (badRequest "invalid_path"
      ("merge target path is not a valid tree path: "++e))) (validateTreeBoundaryPath target)) targets
  forEach (fun target => mapErr .refused (H.authorizePath X ctx permissionPut target)) targets

/-- Everything that can refuse a merge. Only the content store is touched. -/
def planMerge (shown : Wire.WireError → String) (fuel : ℕ) :
    Action ContentStore TreeFailure MergePlan := do
  let params ← .lift (okOr (decodeParams X ctx) (.failed (.invalidParams "params required for merge")))
  let map ← .lift (okOr params.asMap (.failed (.invalidParams "params must be a map")))
  let source ← resolveSource X ctx shown map
  let name := ((getField map "strategy").bind Value.asText).getD "no-overwrite".toList
  let strategy ← .lift (okOr (TreeMergeStrategy.ofText name)
    (.refused (badRequest "invalid_params" ("invalid merge strategy: "++String.ofList name))))
  let text := fun key => ((getField map key).bind Value.asText).getD []
  let entity ← .reading fun s => okOr ((s.get source).or (ctx.included.get source))
    (.refused ⟨404,"snapshot_not_found","source snapshot not found"⟩)
  let found ← .reading fun s =>
    mapErr (TrieFailure.inTree "") (decodeSnapshotBindings X fuel s entity.data)
  let bindings ← .lift (okOr found (.failed (.invalidParams "failed to decode source snapshot")))
  let start := applyPrefixOf ctx (text "source_prefix") (text "target_prefix")
  .lift (H.checkTargets X ctx (bindings.entries.map fun b => start++b.1))
  return ⟨strategy,((getField map "dry_run").bind Value.asBool).getD false,start,bindings⟩

end TreeHandler

/-! The merge. -/

structure MergeState (σ : Type) where
  store : ContentStore
  tree : NotifyingLocationIndex σ

def MergePlan.run (c : Consumers σ) (emit : ExecutionContext) (plan : MergePlan)
    (s : NotifyingLocationIndex σ) : MergeRun σ :=
  plan.bindings.entries.foldl (mergeStep c emit plan.strategy plan.dryRun plan.applyPrefix)
    ⟨s,.empty,[]⟩

/-- The report of a merge, with the writes it made; `emit` is the execution context they carry. -/
def TreeHandler.handleMerge (X : Platform) (H : TreeHandler) (ctx : TreeContext)
    (shown : Wire.WireError → String) (fuel : ℕ) (c : Consumers σ) (emit : ExecutionContext) :
    Action (MergeState σ) TreeFailure (MergePlan × MergeReport × List Delivery) := fun s =>
  let r := H.planMerge X ctx shown fuel s.store
  match r.1 with
  | .error e => (.error e,{ s with store := r.2 })
  | .ok plan =>
    let run := plan.run c emit s.tree
    (.ok (plan,run.report,run.writes),⟨r.2,run.tree⟩)

/-! One write. -/

/-- Every hook was called for the write. -/
def Delivery.Reached (c : Consumers σ) (d : Delivery) : Prop :=
  ∀ hook ∈ c.syncHooks, ∃ found, Emission.hook hook.name found ∈ d.emissions

/-- No hook halts a cascade. -/
def NeverHalts (c : Consumers σ) : Prop :=
  ∀ hook ∈ c.syncHooks, ∀ event ctx s, (hook.onTreeChange event ctx s).1 = .ok ()

/-- A path that the index binds when it is asked to. -/
def Bindable (path : Str) : Prop :=
  EntityUri.validateAbsolutePath path = .ok () ∧ pathIsStorable path = true

namespace NotifyingLocationIndex

section Step

variable {c : Consumers σ}

theorem runHooks_reached (hgo : NeverHalts c) (event : TreeChangeEvent) (hooks : List (SyncTreeHook σ))
    (hsub : ∀ hook ∈ hooks, hook ∈ c.syncHooks) (completed : List Str) (ctx : ExecutionContext)
    (s : NotifyingLocationIndex σ) : ∀ hook ∈ hooks, ∃ found, Emission.hook hook.name found ∈
      (runHooks event hooks completed ctx s).emissions := by
  induction hooks generalizing completed ctx s with
  | nil => simp
  | cons hook rest ih =>
    have hone := hgo hook (hsub hook (by simp)) event (enterHook hook ctx) s
    intro other hmem
    simp only [runHooks,hone]
    rcases mem_cons.mp hmem with rfl | hrest
    · exact ⟨_,mem_cons_self⟩
    · obtain ⟨found,hfound⟩ := ih (fun h hh => hsub h (by simp [hh])) _ _ _ other hrest
      exact ⟨found,mem_cons_of_mem _ hfound⟩

theorem deliver_reached (hgo : NeverHalts c) (event : TreeChangeEvent) (ctx : ExecutionContext)
    (s : NotifyingLocationIndex σ) :
    ∀ hook ∈ c.syncHooks, ∃ found, Emission.hook hook.name found ∈ (deliver c event ctx s).emissions := by
  intro hook hmem
  obtain ⟨found,hfound⟩ := runHooks_reached hgo event c.syncHooks (fun _ h => h) [] ctx s hook hmem
  refine ⟨found,?_⟩
  simp only [deliver]
  split
  · exact hfound
  · exact mem_append_left _ hfound

/-- What a dispatch calls: everyone, or nobody when the chain is used up. -/
theorem dispatchEvent_reached (hgo : NeverHalts c) (path : Str) (hash : Hash)
    (previousHash newHash : Option Hash) (changeType : ChangeType) (x : ExecutionContext)
    (s : NotifyingLocationIndex σ) : (∀ hook ∈ c.syncHooks, ∃ found, Emission.hook hook.name found ∈
        (dispatchEvent c path hash previousHash newHash changeType (some x) s).emissions) ↔
      (c.syncHooks = [] ∨ ¬OverLimit s x) := by
  simp only [dispatchEvent,Option.getD_some]
  by_cases h : OverLimit s x
  · rw [if_pos ((chainExceeded_iff s x).mpr h)]
    simp [h,eq_nil_iff_forall_not_mem]
  · rw [if_neg fun he => h ((chainExceeded_iff s x).mp he)]
    simp only [h,not_false_eq_true,or_true,iff_true]
    exact deliver_reached hgo _ _ _

/-- What one write of a merge does: it goes through, or it leaves the tree alone and calls nobody. -/
structure WriteStep (c : Consumers σ) (path : Str) (hash : Hash) (x : ExecutionContext)
    (s : NotifyingLocationIndex σ) (r : Ran σ CascadeResult) : Prop where
  depth : r.state.cascadeDepth = s.cascadeDepth
  elsewhere : ∀ p, p ≠ path → r.state.inner.get p = s.inner.get p
  bound : r.state.inner.get path = some hash ↔ Bindable path ∧ s.cascadeDepth < cascadeDepthLimit
  reached : Bindable path → s.cascadeDepth < cascadeDepthLimit →
    ((∀ hook ∈ c.syncHooks, ∃ found, Emission.hook hook.name found ∈ r.emissions) ↔
      (c.syncHooks = [] ∨ ¬OverLimit s x))
  chains : Bindable path → s.cascadeDepth < cascadeDepthLimit → ¬OverLimit s x →
    ∀ chain, x.chainId = some chain →
      r.state.accumulated chain = s.accumulated chain+(s.cascadeDepth+1)

theorem setImpl_step (hq : Quiet c) (hgo : NeverHalts c) {path : Str} {hash : Hash}
    {s : NotifyingLocationIndex σ} (hnew : s.inner.get path ≠ some hash) (x : ExecutionContext) :
    WriteStep c path hash x s (setImpl c path hash (some x) s) := by
  unfold setImpl
  cases hvalid : EntityUri.validateAbsolutePath path with
  | error e =>
    have hno : ¬ Bindable path := fun hb => by rw [hb.1] at hvalid; cases hvalid
    exact ⟨rfl,fun _ _ => rfl,iff_of_false hnew fun h => hno h.1,fun hb => absurd hb hno,
      fun hb => absurd hb hno⟩
  | ok u =>
    by_cases hdepth : s.cascadeDepth ≥ cascadeDepthLimit
    · have hno : ¬ s.cascadeDepth < cascadeDepthLimit := not_lt.mpr hdepth
      simp only [if_pos hdepth]
      exact ⟨rfl,fun _ _ => rfl,iff_of_false hnew fun h => hno h.2,fun _ h => absurd h hno,
        fun _ h => absurd h hno⟩
    · simp only [if_neg hdepth]
      have hdispatch (previousHash : Option Hash) (changeType : ChangeType) :
          WriteStep c path hash x s (dispatchEvent c path hash previousHash (some hash) changeType
            (some x) { s with inner := s.inner.set path hash }) := by
        obtain ⟨hinner,hsame,hchains,-⟩ := dispatchEvent_quiet hq path hash previousHash (some hash)
          changeType x { s with inner := s.inner.set path hash }
        refine ⟨hsame,fun p hp => ?_,?_,fun _ _ => ?_,fun _ _ hover chain hchain => ?_⟩
        · rw [hinner,MemoryLocationIndex.get_set,if_neg fun h => hp h.1]
        · rw [hinner,MemoryLocationIndex.get_set]
          by_cases hs : pathIsStorable path = true
          · simp [hs,Bindable,hvalid,not_le.mp hdepth]
          · simp [hs,Bindable,hnew]
        · exact dispatchEvent_reached hgo _ _ _ _ _ _ _
        · have hchain' : (x.atDepth (s.cascadeDepth+1)).chainId = some chain := hchain
          have hfree : (deeper { s with inner := s.inner.set path hash }).chainExceeded
              (x.atDepth (s.cascadeDepth+1)) = false := by
            rw [Bool.eq_false_iff]
            exact fun he => hover ((chainExceeded_iff s x).mp he)
          unfold accumulated
          rw [hchains]
          simp only [noteChain,hchain',hfree]
          simp [accumulated,deeper,ExecutionContext.atDepth]
      split
      · rename_i previous hprevious
        rw [if_neg fun h => hnew (by rw [hprevious,h])]
        exact hdispatch _ _
      · exact hdispatch _ _

/-- Writes in turn, with whom each of them reached. -/
def writeAll (c : Consumers σ) (emit : ExecutionContext) : List (Str × Hash) →
    NotifyingLocationIndex σ → List Delivery × NotifyingLocationIndex σ
  | [], s => ([],s)
  | op::ops, s =>
    let r := setImpl c op.1 op.2 (some emit) s
    let rest := writeAll c emit ops r.state
    (⟨op.1,op.2,r.emissions⟩::rest.1,rest.2)

/-- All writes are in the tree, and all reached every hook. -/
def AllLand (c : Consumers σ) (ops : List (Str × Hash))
    (out : List Delivery × NotifyingLocationIndex σ) : Prop :=
  (∀ op ∈ ops, out.2.inner.get op.1 = some op.2) ∧ ∀ d ∈ out.1, d.Reached c

/-- What the writes need: paths that can be bound, depth left, and as much left in the chain as
all of them together take. -/
structure Room (c : Consumers σ) (emit : ExecutionContext) (ops : List (Str × Hash))
    (s : NotifyingLocationIndex σ) : Prop where
  paths : ∀ op ∈ ops, Bindable op.1
  depth : ops ≠ [] → s.cascadeDepth < cascadeDepthLimit
  chain : c.syncHooks ≠ [] → ops ≠ [] → ∀ chain, emit.chainId = some chain →
    s.accumulated chain+ops.length*(s.cascadeDepth+1) ≤ cascadeDepthLimit

theorem writeAll_elsewhere (hq : Quiet c) (hgo : NeverHalts c) (emit : ExecutionContext)
    {ops : List (Str × Hash)} {s : NotifyingLocationIndex σ} (hops : (ops.map Prod.fst).Nodup)
    (hnew : ∀ op ∈ ops, s.inner.get op.1 ≠ some op.2) {p : Str} (hp : p ∉ ops.map Prod.fst) :
    (writeAll c emit ops s).2.inner.get p = s.inner.get p := by
  induction ops generalizing s with
  | nil => rfl
  | cons op ops ih =>
    obtain ⟨hx,hrest⟩ := nodup_cons.mp hops
    have hstep := setImpl_step hq hgo (hnew op (by simp)) emit
    have hne : p ≠ op.1 := fun h => hp (by simp [h])
    have hnew' : ∀ o ∈ ops, (setImpl c op.1 op.2 (some emit) s).state.inner.get o.1 ≠ some o.2 := by
      intro o ho
      rw [hstep.elsewhere o.1 fun h => hx (mem_map.mpr ⟨o,ho,h⟩)]
      exact hnew o (mem_cons_of_mem _ ho)
    exact (ih hrest hnew' fun h => hp (mem_cons_of_mem _ h)).trans (hstep.elsewhere p hne)

/-- The induction is over the writes, and the chain's sum is what one write leaves to the next. -/
theorem writeAll_land_iff (hq : Quiet c) (hgo : NeverHalts c) (emit : ExecutionContext)
    {ops : List (Str × Hash)} {s : NotifyingLocationIndex σ} (hops : (ops.map Prod.fst).Nodup)
    (hnew : ∀ op ∈ ops, s.inner.get op.1 ≠ some op.2) :
    AllLand c ops (writeAll c emit ops s) ↔ Room c emit ops s := by
  induction ops generalizing s with
  | nil =>
    refine iff_of_true ⟨by simp,by simp [writeAll]⟩ ⟨by simp,by simp,by simp⟩
  | cons op ops ih =>
    obtain ⟨hx,hrest⟩ := nodup_cons.mp hops
    have hstep := setImpl_step hq hgo (hnew op (by simp)) emit
    have hnew' : ∀ o ∈ ops, (setImpl c op.1 op.2 (some emit) s).state.inner.get o.1 ≠ some o.2 := by
      intro o ho
      rw [hstep.elsewhere o.1 fun h => hx (mem_map.mpr ⟨o,ho,h⟩)]
      exact hnew o (mem_cons_of_mem _ ho)
    have hfirst : (writeAll c emit (op::ops) s).2.inner.get op.1 =
        (setImpl c op.1 op.2 (some emit) s).state.inner.get op.1 :=
      writeAll_elsewhere hq hgo emit hrest hnew' hx
    have hland : AllLand c (op::ops) (writeAll c emit (op::ops) s) ↔
        ((setImpl c op.1 op.2 (some emit) s).state.inner.get op.1 = some op.2 ∧
          ∀ hook ∈ c.syncHooks, ∃ found, Emission.hook hook.name found ∈
            (setImpl c op.1 op.2 (some emit) s).emissions) ∧
        AllLand c ops (writeAll c emit ops (setImpl c op.1 op.2 (some emit) s).state) := by
      unfold AllLand
      rw [forall_mem_cons,hfirst]
      simp only [writeAll,forall_mem_cons,Delivery.Reached]
      tauto
    have hover : ¬OverLimit s emit ↔ ∀ chain, emit.chainId = some chain →
        s.accumulated chain+(s.cascadeDepth+1) ≤ cascadeDepthLimit := by
      simp [OverLimit]
    rw [hland,ih hrest hnew']
    constructor
    · rintro ⟨⟨hbound,hreached⟩,hroom⟩
      obtain ⟨hb,hd⟩ := hstep.bound.mp hbound
      refine ⟨forall_mem_cons.mpr ⟨hb,hroom.paths⟩,fun _ => hd,fun hhooks _ chain hchain => ?_⟩
      have hfree := ((hstep.reached hb hd).mp hreached).resolve_left hhooks
      have hone := hover.mp hfree chain hchain
      by_cases hlast : ops = []
      · subst hlast
        simpa using hone
      · have hmore := hroom.chain hhooks hlast chain hchain
        rw [hstep.chains hb hd hfree chain hchain,hstep.depth] at hmore
        rw [length_cons,Nat.succ_mul]
        omega
    · intro hroom
      obtain ⟨hb,hpaths⟩ := forall_mem_cons.mp hroom.paths
      have hd := hroom.depth (by simp)
      have hfree : c.syncHooks ≠ [] → ¬OverLimit s emit := by
        intro hhooks
        rw [hover]
        intro chain hchain
        have hall := hroom.chain hhooks (by simp) chain hchain
        rw [length_cons,Nat.succ_mul] at hall
        omega
      refine ⟨⟨hstep.bound.mpr ⟨hb,hd⟩,(hstep.reached hb hd).mpr ?_⟩,hpaths,
        fun _ => hstep.depth.trans_lt hd,fun hhooks _ chain hchain => ?_⟩
      · by_cases hhooks : c.syncHooks = []
        · exact .inl hhooks
        · exact .inr (hfree hhooks)
      · have hall := hroom.chain hhooks (by simp) chain hchain
        rw [length_cons,Nat.succ_mul] at hall
        rw [hstep.chains hb hd (hfree hhooks) chain hchain,hstep.depth]
        omega

end Step

end NotifyingLocationIndex

/-! The loop. -/

/-- The bindings that a merge applies, with their target paths. -/
def opsOf (g : TreeMergeStrategy) (start : Str) (get : Str → Option Hash)
    (l : List (Str × Hash)) : List (Str × Hash) :=
  (l.filter fun b => (g.verdict (get (start++b.1)) b.2).applies).map fun b => (start++b.1,b.2)

def reportOf (g : TreeMergeStrategy) (start : Str) (get : Str → Option Hash)
    (l : List (Str × Hash)) (r : MergeReport) : MergeReport :=
  l.foldl (fun r b => r.note (start++b.1) (g.verdict (get (start++b.1)) b.2)) r

def MergePlan.applies (plan : MergePlan) (s : NotifyingLocationIndex σ) : List (Str × Hash) :=
  opsOf plan.strategy plan.applyPrefix s.inner.get plan.bindings.entries

section Loop

open NotifyingLocationIndex

variable {c : Consumers σ} {emit : ExecutionContext} {g : TreeMergeStrategy} {start : Str}
  {l : List (Str × Hash)}

theorem not_bound_of_applies {existing : Option Hash} {h : Hash}
    (ha : (g.verdict existing h).applies = true) : existing ≠ some h := by
  rintro rfl
  simp [TreeMergeStrategy.verdict] at ha

theorem opsOf_congr {get get' : Str → Option Hash}
    (h : ∀ b ∈ l, get (start++b.1) = get' (start++b.1)) : opsOf g start get l = opsOf g start get' l := by
  unfold opsOf
  congr 1
  exact filter_congr fun b hb => by rw [h b hb]

theorem reportOf_congr {get get' : Str → Option Hash}
    (h : ∀ b ∈ l, get (start++b.1) = get' (start++b.1)) (r : MergeReport) :
    reportOf g start get l r = reportOf g start get' l r :=
  foldl_ext _ _ _ fun r b hb => by rw [h b hb]

theorem keys_opsOf (get : Str → Option Hash) (hl : (l.map Prod.fst).Nodup) :
    ((opsOf g start get l).map Prod.fst).Nodup := by
  unfold opsOf
  rw [map_map]
  have hkept : ((l.filter fun b => (g.verdict (get (start++b.1)) b.2).applies).map Prod.fst).Nodup :=
    hl.sublist (filter_sublist.map _)
  exact List.Nodup.of_map (drop start.length) (by simpa [Function.comp_def] using hkept)

theorem new_opsOf (get : Str → Option Hash) : ∀ op ∈ opsOf g start get l, get op.1 ≠ some op.2 := by
  intro op hop
  obtain ⟨b,hb,rfl⟩ := mem_map.mp hop
  exact not_bound_of_applies (mem_filter.mp hb).2

/-- The loop makes the writes that the tree it starts from asks for. -/
theorem foldl_mergeStep (hq : Quiet c) (hgo : NeverHalts c) (hl : (l.map Prod.fst).Nodup)
    (run : MergeRun σ) : l.foldl (mergeStep c emit g false start) run =
      ⟨(writeAll c emit (opsOf g start run.tree.inner.get l) run.tree).2,
        reportOf g start run.tree.inner.get l run.report,
        run.writes++(writeAll c emit (opsOf g start run.tree.inner.get l) run.tree).1⟩ := by
  induction l generalizing run with
  | nil => simp [opsOf,reportOf,writeAll]
  | cons b l ih =>
    obtain ⟨hx,hrest⟩ := nodup_cons.mp hl
    rw [foldl_cons,ih hrest]
    cases ha : (g.verdict (run.tree.inner.get (start++b.1)) b.2).applies with
    | false =>
      have hstep : mergeStep c emit g false start run b = ⟨run.tree,run.report.note (start++b.1)
          (g.verdict (run.tree.inner.get (start++b.1)) b.2),run.writes⟩ := by
        simp [mergeStep,ha]
      have hops : opsOf g start run.tree.inner.get (b::l) = opsOf g start run.tree.inner.get l := by
        simp [opsOf,ha]
      rw [hstep,hops]
      rfl
    | true =>
      have hwrite := setImpl_step hq hgo (not_bound_of_applies ha) emit
      have hsame : ∀ o ∈ l, (setImpl c (start++b.1) b.2 (some emit) run.tree).state.inner.get
          (start++o.1) = run.tree.inner.get (start++o.1) := by
        intro o ho
        refine hwrite.elsewhere _ fun h => hx ?_
        rw [← append_cancel_left h]
        exact mem_map_of_mem ho
      have hstep : mergeStep c emit g false start run b =
          ⟨(setImpl c (start++b.1) b.2 (some emit) run.tree).state,
            run.report.note (start++b.1) (g.verdict (run.tree.inner.get (start++b.1)) b.2),
            run.writes++[⟨start++b.1,b.2,
              (setImpl c (start++b.1) b.2 (some emit) run.tree).emissions⟩]⟩ := by
        simp [mergeStep,ha,MergeRun.write]
      have hops : opsOf g start run.tree.inner.get (b::l) =
          (start++b.1,b.2)::opsOf g start run.tree.inner.get l := by
        simp [opsOf,ha]
      rw [hstep,hops]
      dsimp only
      rw [opsOf_congr hsame,reportOf_congr hsame]
      simp [writeAll,reportOf]

theorem foldl_mergeStep_dry (run : MergeRun σ) : l.foldl (mergeStep c emit g true start) run =
      { run with report := reportOf g start run.tree.inner.get l run.report } := by
  induction l generalizing run with
  | nil => rfl
  | cons b l ih =>
    rw [foldl_cons,ih]
    simp [mergeStep,reportOf]

theorem reportOf_counts (get : Str → Option Hash) (r : MergeReport) :
    (reportOf g start get l r).applied = r.applied+(opsOf g start get l).length ∧
      (reportOf g start get l r).applied+(reportOf g start get l r).skipped =
        r.applied+r.skipped+l.length := by
  induction l generalizing r with
  | nil => simp [reportOf,opsOf]
  | cons b l ih =>
    obtain ⟨happlied,htotal⟩ := ih (r.note (start++b.1) (g.verdict (get (start++b.1)) b.2))
    have hcons : reportOf g start get (b::l) r =
        reportOf g start get l (r.note (start++b.1) (g.verdict (get (start++b.1)) b.2)) := rfl
    rw [hcons]
    cases ha : (g.verdict (get (start++b.1)) b.2).applies with
    | false =>
      simp only [MergeReport.note,ha,Bool.false_eq_true,if_false] at happlied htotal ⊢
      simp only [opsOf,filter_cons,ha,Bool.false_eq_true,if_false,length_cons] at happlied ⊢
      omega
    | true =>
      simp only [MergeReport.note,ha,if_true] at happlied htotal ⊢
      simp only [opsOf,filter_cons,ha,if_true,map_cons,length_cons] at happlied ⊢
      omega

end Loop

/-! What a merge says of itself. -/

section Truth

open NotifyingLocationIndex TreeHandler

/-- A report against the tree before and after. -/
structure TellsTruth (c : Consumers σ) (plan : MergePlan) (report : MergeReport)
    (writes : List Delivery) (s s' : NotifyingLocationIndex σ) : Prop where
  landed : AllLand c (plan.applies s) (writes,s')
  applied : report.applied = (plan.applies s).length
  counted : report.applied+report.skipped = plan.bindings.entries.length
  kept : ∀ p, p ∉ (plan.applies s).map Prod.fst → s'.inner.get p = s.inner.get p

/-- A merge that answers tells the truth, and a dry run tells the same and changes nothing; a merge
that refuses has changed nothing. -/
structure MergeTruth (X : Platform) (H : TreeHandler) (ctx : TreeContext)
    (shown : Wire.WireError → String) (fuel : ℕ) (c : Consumers σ) (emit : ExecutionContext)
    (s : MergeState σ) : Prop where
  refused : ∀ e s', H.handleMerge X ctx shown fuel c emit s = (.error e,s') → s'.tree = s.tree
  told : ∀ plan report writes s',
    H.handleMerge X ctx shown fuel c emit s = (.ok (plan,report,writes),s') → plan.dryRun = false →
    TellsTruth c plan report writes s.tree s'.tree
  rehearsed : ∀ plan report writes s' ctx',
    H.handleMerge X ctx shown fuel c emit s = (.ok (plan,report,writes),s') → plan.dryRun = false →
    (H.planMerge X ctx' shown fuel s.store).1 = .ok { plan with dryRun := true } →
    ∃ s'', H.handleMerge X ctx' shown fuel c emit s =
      (.ok ({ plan with dryRun := true },report,[]),s'') ∧ s''.tree = s.tree

variable {X : Platform} {H : TreeHandler} {ctx : TreeContext} {shown : Wire.WireError → String}
  {fuel : ℕ} {c : Consumers σ} {emit : ExecutionContext}

theorem handleMerge_eq_ok {s s' : MergeState σ} {plan : MergePlan} {report : MergeReport}
    {writes : List Delivery} :
    H.handleMerge X ctx shown fuel c emit s = (.ok (plan,report,writes),s') ↔
      (H.planMerge X ctx shown fuel s.store).1 = .ok plan ∧ report = (plan.run c emit s.tree).report ∧
        writes = (plan.run c emit s.tree).writes ∧
        s' = ⟨(H.planMerge X ctx shown fuel s.store).2,(plan.run c emit s.tree).tree⟩ := by
  unfold TreeHandler.handleMerge
  dsimp only
  cases (H.planMerge X ctx shown fuel s.store).1 with
  | error e => simp
  | ok found =>
    simp only [Prod.mk.injEq,Except.ok.injEq]
    constructor
    · rintro ⟨⟨rfl,rfl,rfl⟩,rfl⟩
      exact ⟨rfl,rfl,rfl,rfl⟩
    · rintro ⟨rfl,rfl,rfl,rfl⟩
      exact ⟨⟨rfl,rfl,rfl⟩,rfl⟩

theorem run_real (hq : Quiet c) (hgo : NeverHalts c) {plan : MergePlan} (hreal : plan.dryRun = false)
    (s : NotifyingLocationIndex σ) : plan.run c emit s = ⟨(writeAll c emit (plan.applies s) s).2,
        reportOf plan.strategy plan.applyPrefix s.inner.get plan.bindings.entries .empty,
        (writeAll c emit (plan.applies s) s).1⟩ := by
  unfold MergePlan.run
  rw [hreal,foldl_mergeStep hq hgo plan.bindings.keys_nodup]
  rfl

theorem tellsTruth_iff (hq : Quiet c) (hgo : NeverHalts c) {plan : MergePlan}
    (hreal : plan.dryRun = false) (s : NotifyingLocationIndex σ) :
    TellsTruth c plan (plan.run c emit s).report (plan.run c emit s).writes s
      (plan.run c emit s).tree ↔ Room c emit (plan.applies s) s := by
  have hkeys : ((plan.applies s).map Prod.fst).Nodup := keys_opsOf _ plan.bindings.keys_nodup
  have hnew : ∀ op ∈ plan.applies s, s.inner.get op.1 ≠ some op.2 := new_opsOf _
  rw [run_real hq hgo hreal,← writeAll_land_iff hq hgo emit hkeys hnew]
  constructor
  · intro h
    exact h.landed
  · intro h
    obtain ⟨happlied,htotal⟩ := @reportOf_counts plan.strategy plan.applyPrefix
      plan.bindings.entries s.inner.get .empty
    refine ⟨h,?_,?_,fun p hp => writeAll_elsewhere hq hgo emit hkeys hnew hp⟩
    · rw [happlied]
      exact Nat.zero_add _
    · rw [htotal]
      exact Nat.zero_add _

end Truth

open NotifyingLocationIndex in
/-- With hooks that write nothing and never halt, a merge is the truth exactly when there is room
for all the writes it applies. -/
theorem merge_truth_iff (X : Platform) (H : TreeHandler) (ctx : TreeContext)
    (shown : Wire.WireError → String) (fuel : ℕ) (c : Consumers σ) (hq : Quiet c)
    (hgo : NeverHalts c) (emit : ExecutionContext) (s : MergeState σ) :
    MergeTruth X H ctx shown fuel c emit s ↔
      ∀ plan, (H.planMerge X ctx shown fuel s.store).1 = .ok plan → plan.dryRun = false →
        Room c emit (plan.applies s.tree) s.tree := by
  constructor
  · intro h plan hplan hreal
    exact (tellsTruth_iff hq hgo hreal s.tree).mp
      (h.told plan _ _ _ (handleMerge_eq_ok.mpr ⟨hplan,rfl,rfl,rfl⟩) hreal)
  · intro h
    refine ⟨?_,?_,?_⟩
    · intro e s' he
      unfold TreeHandler.handleMerge at he
      dsimp only at he
      split at he
      · obtain ⟨-,rfl⟩ := Prod.mk.inj he
        rfl
      · cases he
    · intro plan report writes s' hm hreal
      obtain ⟨hplan,rfl,rfl,rfl⟩ := handleMerge_eq_ok.mp hm
      exact (tellsTruth_iff hq hgo hreal s.tree).mpr (h plan hplan hreal)
    · intro plan report writes s' ctx' hm hreal hdry
      obtain ⟨-,rfl,-,-⟩ := handleMerge_eq_ok.mp hm
      have hrun : MergePlan.run c emit { plan with dryRun := true } s.tree =
          ⟨s.tree,(plan.run c emit s.tree).report,[]⟩ := by
        rw [run_real hq hgo hreal]
        exact foldl_mergeStep_dry _
      refine ⟨⟨(H.planMerge X ctx' shown fuel s.store).2,s.tree⟩,?_,rfl⟩
      exact handleMerge_eq_ok.mpr ⟨hdry,by rw [hrun],by rw [hrun],by rw [hrun]⟩

/-! A chain that has used up its depth. -/

namespace LongChain

open Sample NotifyingLocationIndex

def peerId : Str := List.replicate 46 'A'

def handler : TreeHandler := ⟨peerId⟩

def noteHash : Hash := sha256Hash 0x76827aa9c60b43cd9dd92bdb54e8a709217461ffc618314451cb57fa3dc1d061

/-- A snapshot that binds one note. -/
def snapshotDoc : Value := .map [field "bindings" (.map [field "note" (hashVal noteHash)])]

def snapshot : Entity := entity "system/tree/snapshot" snapshotDoc 0x199c3c42986fbaa12dada7cbd8654698b5ac1dba0218114eb25e9cee8d3fa497

def params : Value := .map [field "source" (hashVal snapshot.contentHash),
  field "target_prefix" (textVal "app/".toList)]

def crates : Platform := platform [params,snapshotDoc] [] []

def request : TreeContext where
  isExternal := false
  callerCapability := none
  pattern := '/'::peerId++ "/system/tree".toList
  resourceTarget := none
  params := ⟨"system/tree/merge-request".toList,toEcf params,sha256Hash 0⟩
  included := .empty

/-- One hook, which does nothing. -/
def watched : Consumers Unit where
  syncHooks := [⟨"watcher".toList,"app/watcher".toList,fun _ ctx s => (.ok (),ctx,s)⟩]
  onChangeBroadcast := fun _ s => s

theorem watched_quiet : Quiet watched where
  hooks := by
    intro hook hmem event ctx s
    obtain rfl := mem_singleton.mp hmem
    exact .refl s
  broadcast := fun _ s => .refl s

theorem watched_goes_on : NeverHalts watched := by
  intro hook hmem event ctx s
  obtain rfl := mem_singleton.mp hmem
  rfl

def chain : Str := "c".toList

def emit : ExecutionContext := { chainId := some chain }

/-- As 32 writes of the chain leave the index. -/
def spent : MergeState Unit where
  store := ⟨[snapshot]⟩
  tree := ⟨⟨.empty⟩,0,OrderedMap.empty.insert chain 32,()⟩

def shown : Wire.WireError → String := fun _ => ""

def plan : MergePlan :=
  ⟨.noOverwrite,false,'/'::peerId++ "/app/".toList,.ofList [("note".toList,noteHash)]⟩

theorem plans : (handler.planMerge crates request shown 1 spent.store).1 = .ok plan := by
  rfl

theorem no_room : ¬ Room watched emit (plan.applies spent.tree) spent.tree := by
  intro h
  have hlimit := h.chain (by simp [watched]) (by decide +kernel) chain rfl
  revert hlimit
  decide +kernel

end LongChain

open LongChain NotifyingLocationIndex

theorem merge_truth_iff_sample : MergeTruth crates handler request shown 1 watched emit spent ↔
      ∀ plan, (handler.planMerge crates request shown 1 spent.store).1 = .ok plan →
        plan.dryRun = false → Room watched emit (plan.applies spent.tree) spent.tree :=
  merge_truth_iff crates handler request shown 1 watched watched_quiet watched_goes_on emit spent

/-- The write is reported as applied, and the hook never hears of it. -/
theorem spent_chain_unheard :
    ¬∀ (X : Platform) (H : TreeHandler) (ctx : TreeContext) (shown : Wire.WireError → String)
      (fuel : ℕ) (c : Consumers Unit) (emit : ExecutionContext) (s : MergeState Unit), Quiet c →
      MergeTruth X H ctx shown fuel c emit s := by
  intro h
  have htruth := h crates handler request shown 1 watched emit spent watched_quiet
  have htold := htruth.told plan _ _ _ (handleMerge_eq_ok.mpr ⟨plans,rfl,rfl,rfl⟩) rfl
  exact no_room ((tellsTruth_iff watched_quiet watched_goes_on rfl spent.tree).mp htold)

end EntityCore
