import EntityCore.ComputeSlack
import EntityCore.Trail
import EntityCore.Transparency

/-! What an evaluation can read by naming hashes. Without an authorized set expressions
reach entities of compute types only; the scope of a closure is loaded past that gate. -/
namespace EntityCore
namespace Compute

open Program

/-! The commands of an evaluation. -/

section Trails

variable {W : Type} (X : Platform) (F : Runtime) (host : Host W) (env : EvalEnv)

def enterTrail (loop : Entity → Scope → EvalState W → List Command) (entity : Entity)
    (scope : Scope) (s : EvalState W) : List Command :=
  if !isComputeExpression entity then []
  else if s.depth = 0 then []
  else loop entity scope {s with depth := s.depth-1}

/-- The evaluation of a sub-expression stands for its own commands. -/
def commandTrail (loop : Entity → Scope → EvalState W → List Command) :
    Command × EvalState W → List Command
  | (.evaluate entity scope,s) => enterTrail loop entity scope s
  | (c,_) => [c]

def trampolineTrail : ℕ → Entity → Scope → EvalState W → List Command
  | 0, _, _, _ => []
  | rounds+1, current, scope, s =>
    let s := {s with operations := s.operations-1}
    if s.operations = 0 then []
    else
      let commands := performCommand host env (enter (trampoline X F host env rounds))
      (((evaluateInner X F env current scope).trail commands s).flatMap
          (commandTrail (trampolineTrail rounds)))++
        match (evaluateInner X F env current scope).run commands s with
        | (.done (.tailCall next nextScope _),s') =>
          if !isComputeExpression next then [] else trampolineTrail rounds next nextScope s'
        | _ => []

/-- The commands that an evaluation issues, in their order. -/
def evaluateTrail (entity : Entity) (scope : Scope) (s : EvalState W) : List Command :=
  enterTrail (trampolineTrail X F host env s.operations) entity scope s

end Trails

/-- Lookups of the tree, of paths and of manifests with what they bind, and dispatches. -/
def Command.usesTree : Command → Bool
  | .treeGet _ _ => true
  | .meet _ => true
  | .manifestGet _ => true
  | .contentGet _ => true
  | .execute _ _ _ _ _ => true
  | _ => false

section Sealed

variable {W : Type} {X : Platform} {F : Runtime} {host : Host W} {env : EvalEnv} {w₁ w₂ : W}

/-- Setting a path of the tree leaves the content store alone. -/
def Host.SetsApart (host : Host W) : Prop :=
  ∀ w key hash h, host.contentGet (host.indexSet w key hash) h = host.contentGet w h

/-- The stores hold the same entities of compute types. -/
def SameComputeTypes (host : Host W) (w₁ w₂ : W) : Prop :=
  ∀ h, (host.contentGet w₁ h).filter isComputeType = (host.contentGet w₂ h).filter isComputeType

/-- A command that an evaluation may issue over two stores without telling them apart. -/
def Blind (host : Host W) (env : EvalEnv) (w₁ w₂ : W) (c : Command) : Prop :=
  c.usesTree = false ∧ ∀ h, c = .resolveScopeEntity h → env.included.get h = none →
    host.contentGet w₁ h = host.contentGet w₂ h

/-- States that differ in their stores, and there in what is of no compute type. -/
structure SealedAlike (host : Host W) (w₁ w₂ : W) (s t : EvalState W) : Prop where
  rest : t = {s with world := t.world, log := t.log}
  compute : SameComputeTypes host s.world t.world
  kept : ∀ h, host.contentGet w₁ h = host.contentGet w₂ h →
    host.contentGet s.world h = host.contentGet t.world h

namespace SealedAlike

variable {s t : EvalState W}

theorem of_world {s' t' : EvalState W} (h : SealedAlike host w₁ w₂ s t)
    (hrest : t' = {s' with world := t'.world, log := t'.log}) (hs : s'.world = s.world)
    (ht : t'.world = t.world) : SealedAlike host w₁ w₂ s' t' where
  rest := hrest
  compute := by rw [hs,ht]; exact h.compute
  kept := by rw [hs,ht]; exact h.kept

theorem encountered (h : SealedAlike host w₁ w₂ s t) : t.encountered = s.encountered := by rw [h.rest]
theorem inFlight (h : SealedAlike host w₁ w₂ s t) :
    t.constructedInFlight = s.constructedInFlight := by rw [h.rest]
theorem operations (h : SealedAlike host w₁ w₂ s t) : t.operations = s.operations := by rw [h.rest]
theorem depth (h : SealedAlike host w₁ w₂ s t) : t.depth = s.depth := by rw [h.rest]

theorem put (hhost : host.Stores) (h : SealedAlike host w₁ w₂ s t) (e : Entity) :
    (s.put host e).1 = (t.put host e).1 ∧
      SealedAlike host w₁ w₂ (s.put host e).2 (t.put host e).2 := by
  have hfields := @put_fields _ host s e
  have hfields' := @put_fields _ host t e
  constructor
  · show (host.contentPut s.world e).1 = (host.contentPut t.world e).1
    rw [hhost.put,hhost.put]
  · have hget : ∀ (u : EvalState W) h, host.contentGet (u.put host e).2.world h =
        if h = e.contentHash then some e else host.contentGet u.world h := by
      intro u h
      rw [(put_fields u e).2.2,hhost.get_put]
    constructor
    · rw [h.rest]
      simp only [EvalState.put]
      split <;> split <;> rfl
    · intro hash
      rw [hget,hget]
      by_cases hhash : hash = e.contentHash
      · rw [if_pos hhash,if_pos hhash]
      · rw [if_neg hhash,if_neg hhash]
        exact h.compute hash
    · intro hash hknown
      rw [hget,hget]
      by_cases hhash : hash = e.contentHash
      · rw [if_pos hhash,if_pos hhash]
      · rw [if_neg hhash,if_neg hhash]
        exact h.kept hash hknown

theorem answer {α β : Type} (h : SealedAlike host w₁ w₂ s t) (found found' : Option α)
    (missed : Event) {b b' : β} (hb : b = b') :
    (s.answer found missed b).1 = (t.answer found' missed b').1 ∧
      SealedAlike host w₁ w₂ (s.answer found missed b).2 (t.answer found' missed b').2 := by
  subst hb
  refine ⟨rfl,h.of_world ?_ (answer_fields _ _ _ _).2.2 (answer_fields _ _ _ _).2.2⟩
  rw [h.rest]
  simp only [EvalState.answer,EvalState.note]
  split <;> split <;> rfl

/-- Past the gate the two stores look alike. -/
theorem resolve (henv : env.authorizedDataHashes = []) (h : SealedAlike host w₁ w₂ s t) (hash : Hash) :
    s.resolve host env hash = t.resolve host env hash := by
  have hgate : (fun e => isComputeType e || env.authorizedDataHashes.contains hash) =
      isComputeType := by
    funext e
    simp [henv]
  rw [EvalState.resolve,EvalState.resolve,hgate,EvalState.inReach,EvalState.inReach,h.encountered]
  cases env.included.get hash with
  | some e => rfl
  | none =>
    cases s.encountered.get hash with
    | some e => rfl
    | none => exact h.compute hash

end SealedAlike

/-- A command that does not tell the stores apart is answered alike. -/
theorem command_sealed (hhost : host.Stores) (hsets : host.SetsApart)
    (henv : env.authorizedDataHashes = [])
    {eval : Entity → Scope → EvalState W → Option ComputeValue × EvalState W} (c : Command)
    {s t : EvalState W} (hst : SealedAlike host w₁ w₂ s t)
    (hgood : (∃ e scope, c = .evaluate e scope ∧ (eval e scope s).1 = (eval e scope t).1 ∧
        SealedAlike host w₁ w₂ (eval e scope s).2 (eval e scope t).2) ∨
      Blind host env w₁ w₂ c ∧ ∀ e scope, c ≠ .evaluate e scope) :
    (performCommand host env eval c s).1 = (performCommand host env eval c t).1 ∧
      SealedAlike host w₁ w₂ (performCommand host env eval c s).2
        (performCommand host env eval c t).2 := by
  rcases hgood with ⟨e,scope,rfl,heval⟩ | ⟨hblind,hne⟩
  · exact heval
  have ⟨htree,hscope⟩ := hblind
  cases c with
  | evaluate e scope => exact absurd rfl (hne e scope)
  | charge n =>
    simp only [performCommand,hst.operations]
    split
    · exact ⟨rfl,hst.of_world (by rw [hst.rest]; rfl) rfl rfl⟩
    · exact ⟨rfl,hst.of_world (by rw [hst.rest]) rfl rfl⟩
  | resolve hash => exact hst.answer _ _ _ (hst.resolve henv hash)
  | resolveScopeEntity hash =>
    have hfound : (env.included.get hash <|> host.contentGet s.world hash) =
        (env.included.get hash <|> host.contentGet t.world hash) := by
      cases hincluded : env.included.get hash with
      | some e => rfl
      | none => exact hst.kept hash (hscope hash rfl hincluded)
    simp only [performCommand,hfound]
    split
    · exact ⟨rfl,hst.of_world (by rw [hst.rest]) rfl rfl⟩
    · exact ⟨rfl,hst.of_world (by rw [hst.rest]; rfl) rfl rfl⟩
  | meet hash => cases htree
  | keep entity =>
    have hmet : ∀ s' t' : EvalState W, SealedAlike host w₁ w₂ s' t' → SealedAlike host w₁ w₂
        {s' with encountered := s'.encountered.insert entity.contentHash entity}
        {t' with encountered := t'.encountered.insert entity.contentHash entity} :=
      fun s' t' h => h.of_world (by rw [h.rest]) rfl rfl
    exact ⟨rfl,hmet _ _ (hst.put hhost entity).2⟩
  | referent hash =>
    refine hst.answer _ _ _ ?_
    rw [hst.encountered]
  | inFlight hash =>
    refine hst.answer _ _ _ ?_
    rw [hst.inFlight]
  | recordConstructed hash fields => exact ⟨rfl,hst.of_world (by rw [hst.rest]; rfl) rfl rfl⟩
  | contentGet hash => cases htree
  | contentPut entity =>
    have hput := hst.put hhost entity
    exact ⟨congrArg some hput.1,hput.2⟩
  | depend path => exact ⟨rfl,hst.of_world (by rw [hst.rest]; rfl) rfl rfl⟩
  | treeGet path key => cases htree
  | treeSet path key hash =>
    refine ⟨rfl,?_,fun h => ?_,fun h hknown => ?_⟩
    · rw [hst.rest]
      rfl
    · show (host.contentGet (host.indexSet s.world key hash) h).filter _ =
        (host.contentGet (host.indexSet t.world key hash) h).filter _
      rw [hsets,hsets]
      exact hst.compute h
    · show host.contentGet (host.indexSet s.world key hash) h =
        host.contentGet (host.indexSet t.world key hash) h
      rw [hsets,hsets]
      exact hst.kept h hknown
  | manifestGet key => cases htree
  | execute path operation resource params capability => cases htree

theorem enter_sealed {rounds : ℕ}
    (hloop : ∀ strip e scope (s t : EvalState W), SealedAlike host w₁ w₂ s t →
      (∀ c ∈ trampolineTrail X F host env rounds e scope s, Blind host env w₁ w₂ c) →
      (trampoline X F host env rounds strip e scope s).1 =
          (trampoline X F host env rounds strip e scope t).1 ∧
        SealedAlike host w₁ w₂ (trampoline X F host env rounds strip e scope s).2
          (trampoline X F host env rounds strip e scope t).2)
    (e : Entity) (scope : Scope) {s t : EvalState W} (hst : SealedAlike host w₁ w₂ s t)
    (hblind : ∀ c ∈ enterTrail (trampolineTrail X F host env rounds) e scope s,
      Blind host env w₁ w₂ c) : (enter (trampoline X F host env rounds) e scope s).1 =
        (enter (trampoline X F host env rounds) e scope t).1 ∧
      SealedAlike host w₁ w₂ (enter (trampoline X F host env rounds) e scope s).2
        (enter (trampoline X F host env rounds) e scope t).2 := by
  rw [enterTrail] at hblind
  rw [enter,enter,hst.depth]
  by_cases hexpr : (!isComputeExpression e) = true
  · rw [if_pos hexpr,if_pos hexpr]
    exact ⟨rfl,hst⟩
  rw [if_neg hexpr] at hblind ⊢
  rw [if_neg hexpr]
  by_cases hdepth : s.depth = 0
  · rw [if_pos hdepth,if_pos hdepth]
    exact ⟨rfl,hst.of_world (by rw [hst.rest]; rfl) rfl rfl⟩
  rw [if_neg hdepth] at hblind ⊢
  rw [if_neg hdepth]
  have hstart : SealedAlike host w₁ w₂ {s with depth := s.depth-1} {t with depth := s.depth-1} :=
    hst.of_world (by rw [hst.rest]) rfl rfl
  obtain ⟨hvalue,hstate⟩ := hloop false e scope _ _ hstart hblind
  refine ⟨hvalue,hstate.of_world ?_ rfl rfl⟩
  dsimp only
  rw [hstate.rest]

theorem trampoline_sealed (hhost : host.Stores) (hsets : host.SetsApart)
    (henv : env.authorizedDataHashes = []) (rounds : ℕ) : ∀ strip e scope (s t : EvalState W),
    SealedAlike host w₁ w₂ s t →
    (∀ c ∈ trampolineTrail X F host env rounds e scope s, Blind host env w₁ w₂ c) →
    (trampoline X F host env rounds strip e scope s).1 =
        (trampoline X F host env rounds strip e scope t).1 ∧
      SealedAlike host w₁ w₂ (trampoline X F host env rounds strip e scope s).2
        (trampoline X F host env rounds strip e scope t).2 := by
  induction rounds with
  | zero => exact fun _ _ _ s t hst _ => ⟨rfl,hst.of_world (by rw [hst.rest]; rfl) rfl rfl⟩
  | succ rounds ih =>
    intro strip e scope s t hst hblind
    rw [trampolineTrail] at hblind
    by_cases hops : s.operations-1 = 0
    · have hops' : t.operations-1 = 0 := by rw [hst.operations]; exact hops
      simp only [trampoline,hops,hops',if_true]
      exact ⟨trivial,hst.of_world (by rw [hst.rest]; rfl) rfl rfl⟩
    have hops' : ¬ t.operations-1 = 0 := by rw [hst.operations]; exact hops
    have hstart : SealedAlike host w₁ w₂ {s with operations := s.operations-1}
        {t with operations := t.operations-1} := by
      refine hst.of_world ?_ rfl rfl
      rw [hst.rest]
    rw [trampoline_afterRound _ _ _ _ hops,trampoline_afterRound _ _ _ _ hops']
    dsimp only at hblind
    rw [if_neg hops] at hblind
    have hround : ∀ c (s' t' : EvalState W),
        (∀ c' ∈ commandTrail (trampolineTrail X F host env rounds) (c,s'), Blind host env w₁ w₂ c') →
        SealedAlike host w₁ w₂ s' t' →
        (performCommand host env (enter (trampoline X F host env rounds)) c s').1 =
            (performCommand host env (enter (trampoline X F host env rounds)) c t').1 ∧
          SealedAlike host w₁ w₂
            (performCommand host env (enter (trampoline X F host env rounds)) c s').2
            (performCommand host env (enter (trampoline X F host env rounds)) c t').2 := by
      intro c s' t' hgood hst'
      apply command_sealed hhost hsets henv c hst'
      by_cases heval : ∃ e scope, c = .evaluate e scope
      · obtain ⟨e',scope',hc⟩ := heval
        subst hc
        exact Or.inl ⟨e',scope',rfl,enter_sealed ih e' scope' hst' hgood⟩
      · have hne : ∀ e scope, c ≠ .evaluate e scope := fun e scope hc => heval ⟨e,scope,hc⟩
        refine Or.inr ⟨hgood c ?_,hne⟩
        cases c with
        | evaluate e scope => exact absurd rfl (hne e scope)
        | _ => exact List.mem_singleton_self _
    obtain ⟨hmine,hrest⟩ := List.forall_mem_append.mp hblind
    have halike := run_alike_trail hround (evaluateInner X F env e scope) hstart
      fun x hx c' hc' => hmine c' (List.mem_flatMap.mpr ⟨x,hx,hc'⟩)
    generalize (evaluateInner X F env e scope).run (performCommand host env (enter
      (trampoline X F host env rounds))) {s with operations := s.operations-1} = left
        at halike hrest ⊢
    generalize (evaluateInner X F env e scope).run (performCommand host env (enter
      (trampoline X F host env rounds))) {t with operations := t.operations-1} = right
        at halike ⊢
    cases left with
    | mk ending s' =>
    cases right with
    | mk ending' t' =>
    obtain ⟨hending,hstate⟩ := halike
    dsimp only at hending hstate
    subst hending
    cases ending with
    | early v => exact ⟨rfl,hstate⟩
    | fault => exact ⟨rfl,hstate⟩
    | done result =>
      cases result with
      | value v => exact ⟨rfl,hstate⟩
      | tailCall next nextScope tail =>
        rw [afterRound,afterRound]
        dsimp only at hrest
        by_cases hnext : isComputeExpression next = true
        · rw [if_pos hnext,if_pos hnext]
          rw [if_neg (by simp [hnext])] at hrest
          exact ih (strip || tail) next nextScope s' t' hstate hrest
        · rw [if_neg hnext,if_neg hnext]
          exact ⟨rfl,hstate⟩

/-- Expressions evaluated without an authorized set do not read what is of no compute type
in the content store, but through the scopes of closures: over stores that agree on the
entities of compute types and on the hashes that loading a scope resolves, they come to
the same value. -/
theorem hash_access_confined {W : Type} (X : Platform) (F : Runtime) (host : Host W)
    (env : EvalEnv) (hhost : host.Stores) (hsets : host.SetsApart)
    (henv : env.authorizedDataHashes = []) (e : Entity) (scope : Scope) (s : EvalState W) (w : W)
    (hcompute : SameComputeTypes host s.world w)
    (htree : ∀ c ∈ evaluateTrail X F host env e scope s, c.usesTree = false)
    (hscopes : ∀ h, .resolveScopeEntity h ∈ evaluateTrail X F host env e scope s →
      env.included.get h = none → host.contentGet s.world h = host.contentGet w h) :
    (evaluate X F host env e scope s).1 = (evaluate X F host env e scope {s with world := w}).1 := by
  have hst : SealedAlike host s.world w s {s with world := w} := ⟨rfl,hcompute,fun _ h => h⟩
  exact (enter_sealed (trampoline_sealed hhost hsets henv s.operations) e scope hst
    fun c hc => ⟨htree c hc,fun h hsame => hscopes h (hsame ▸ hc)⟩).1

end Sealed

/-! A closure that comes with the request, over a scope that names a note of the store. -/
namespace ComputeSample

open Ecf Sample

def lookupX : Doc := ⟨"compute/lookup/scope",.map [(txt "name",txt "x")],
  0xaff2fb6268a39c67343743c578be68749b2b339ad634fef435c4a44ed1c9a0b4⟩
def noteScope : Doc := ⟨"compute/scope",.map [(txt "bindings",.map [(txt "x",.map [
  (txt "kind",txt "entity"),(txt "entity_hash",note.ref)])])],
  0x314f04eb2a14ee2b6be4cbc4d7d8945eee4b18a100649ce4db8a7b458cdc2f68⟩
def noteClosure : Doc := ⟨"compute/closure",.map [(txt "body",lookupX.ref),(txt "params",.array []),
  (txt "env",noteScope.ref)],0x442e4ac2c55977eb469822cdbcc88a011f52ac68efce6a3d6def17d7c2be8d6f⟩
def callNote : Doc := ⟨"compute/apply",.map [(txt "fn",noteClosure.ref)],
  0xe3dfc587bb427cfc1b49ef763d7b2c1e23958a5fabf021d1ac3537414f734b66⟩

def noteCrates : Platform := crates [note,lookupX,noteScope,noteClosure,callNote]

def sentAlong : OrderedMap Hash Entity :=
  OrderedMap.ofList ([lookupX,noteScope,noteClosure].map fun d => (d.entity.contentHash,d.entity))

def requestEnv : EvalEnv := {environment none with included := sentAlong}

def scopeRead : Command → Option Hash
  | .resolveScopeEntity h => some h
  | _ => none

/-- What the application of the closure comes to over a store. -/
def callOver (entities : List Entity) : Option ComputeValue :=
  (evaluate noteCrates words (Host.memory none) requestEnv callNote.entity .empty
    {start [] with world := (⟨entities⟩,⟨.empty⟩)}).1

theorem sameComputeTypes_of_none {es es' : List Entity} (h : ∀ e ∈ es, isComputeType e = false)
    (h' : ∀ e ∈ es', isComputeType e = false) (index : MemoryLocationIndex) :
    SameComputeTypes (Host.memory none) (⟨es⟩,index) (⟨es'⟩,index) := by
  have hnone : ∀ es : List Entity, (∀ e ∈ es, isComputeType e = false) → ∀ hash,
      ((ContentStore.mk es).get hash).filter isComputeType = none := by
    intro es hes hash
    cases hget : (ContentStore.mk es).get hash with
    | none => rfl
    | some e =>
      have hfalse := hes e (List.mem_of_find?_eq_some hget)
      simp [hfalse]
  intro hash
  exact (hnone es h hash).trans (hnone es' h' hash).symm

/-- What the application of the closure reads, and what it comes to without the note. -/
theorem evaluated_notes :
    ((∀ e ∈ [note.entity], isComputeType e = false) ∧
      ∀ e ∈ [alice,note.entity], isComputeType e = false) ∧
    ((∀ c ∈ evaluateTrail noteCrates words (Host.memory none) requestEnv callNote.entity .empty
        {start [] with world := (⟨[note.entity]⟩,⟨.empty⟩)}, c.usesTree = false) ∧
      (evaluateTrail noteCrates words (Host.memory none) requestEnv callNote.entity .empty
        {start [] with world := (⟨[note.entity]⟩,⟨.empty⟩)}).filterMap scopeRead =
          [noteScope.entity.contentHash,note.entity.contentHash]) ∧
    (∀ h ∈ [noteScope.entity.contentHash,note.entity.contentHash],
      requestEnv.included.get h = none →
        (⟨[note.entity]⟩ : ContentStore).get h = (⟨[alice,note.entity]⟩ : ContentStore).get h) ∧
    (callOver [note.entity]).map ComputeValue.isError = some false ∧
    (callOver []).map ComputeValue.isError = some true := by
  decide +kernel

end ComputeSample

open ComputeSample Sample in
theorem hash_access_confined_sample : callOver [note.entity] = callOver [alice,note.entity] := by
  obtain ⟨⟨hnote,halice⟩,⟨htree,htrail⟩,hall,-⟩ := evaluated_notes
  refine hash_access_confined noteCrates words (Host.memory none) requestEnv
    (Host.memory_stores none) (fun _ _ _ _ => rfl) rfl callNote.entity .empty
    {start [] with world := (⟨[note.entity]⟩,⟨.empty⟩)} (⟨[alice,note.entity]⟩,⟨.empty⟩)
    (sameComputeTypes_of_none hnote halice _) htree
    fun h hmem hincluded => ?_
  have hread : h ∈ [noteScope.entity.contentHash,note.entity.contentHash] := by
    rw [← htrail]
    exact List.mem_filterMap.mpr ⟨_,hmem,rfl⟩
  exact hall h hread hincluded

open ComputeSample in
/-- The stores agree on the entities of compute types, of which they have none, and the scope
of the closure tells whether the note is there. -/
theorem scope_reads_note : requestEnv.authorizedDataHashes = [] ∧
    SameComputeTypes (Host.memory none) (⟨[note.entity]⟩,⟨.empty⟩) (⟨[]⟩,⟨.empty⟩) ∧
    (∀ c ∈ evaluateTrail noteCrates words (Host.memory none) requestEnv callNote.entity .empty
      {start [] with world := (⟨[note.entity]⟩,⟨.empty⟩)}, c.usesTree = false) ∧
    callOver [note.entity] ≠ callOver [] := by
  obtain ⟨⟨hnote,-⟩,⟨htree,-⟩,-,herror⟩ := evaluated_notes
  refine ⟨rfl,sameComputeTypes_of_none hnote (fun e he => (List.not_mem_nil he).elim) _,htree,
    fun h => ?_⟩
  rw [h,herror.2] at herror
  cases herror.1

end Compute
end EntityCore
