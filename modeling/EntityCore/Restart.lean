import EntityCore.AttestationHandler
import EntityCore.ForgedAttestations
import EntityCore.SignerSets

/-! What a restart remembers. The running index is fed by every write, the one a starting
peer loads by one part of the tree; the two agree as long as each write leaves every
indexed attestation bound there. -/
namespace EntityCore

open Ecf Outcome Strings NotifyingLocationIndex

/-! Loading. -/

section Loading

variable {X : Platform} {localPeerId : Str}

/-- Where a starting peer looks. -/
def attestationRoot (localPeerId : Str) : Str := '/'::localPeerId++ "/system/attestation/".toList

/-- Bound somewhere in that part of the tree. -/
def BoundAtHome (localPeerId : Str) (tree : MemoryLocationIndex) (hash : Hash) : Prop :=
  ∃ p, tree.get p = some hash ∧ attestationRoot localPeerId <+: p

theorem load_fold (X : Platform) (store : ContentStore) (entries : List (Str × Hash))
    (index : AttestationIndex)
    (hindex : ∀ g a, index.get g = some a → attestationAt X store g = some a) (g : Hash) :
    (entries.foldl (fun index entry => match attestationAt X store entry.2 with
      | some att => index.insert entry.2 att
      | none => index) index).get g =
      if g ∈ entries.map Prod.snd then attestationAt X store g else index.get g := by
  induction entries generalizing index with
  | nil => rfl
  | cons e entries ih =>
    have hindexed : index.get e.2 = none ∨ index.get e.2 = attestationAt X store e.2 := by
      cases hknown : index.get e.2 with
      | none => exact .inl rfl
      | some a => exact .inr (hindex e.2 a hknown).symm
    rw [List.foldl_cons,List.map_cons]
    cases hat : attestationAt X store e.2 with
    | none =>
      rw [hat,or_self] at hindexed
      rw [ih index hindex]
      by_cases he : g = e.2
      · rw [he,hat,hindexed,ite_self,ite_self]
      · simp only [List.mem_cons,he,false_or]
    | some att =>
      have hnext : ∀ k, (index.insert e.2 att).get k = if k = e.2 then some att else index.get k := by
        intro k
        rw [AttestationIndex.get_insert]
        rcases hindexed with hnone | hknown
        · rw [hnone]
          rfl
        · rw [hknown,hat]
          rfl
      have hnext' : ∀ k a, (index.insert e.2 att).get k = some a →
          attestationAt X store k = some a := by
        intro k a hk
        rw [hnext] at hk
        split_ifs at hk with hkey
        · rw [hkey,hat,hk]
        · exact hindex k a hk
      rw [ih _ hnext',hnext]
      by_cases he : g = e.2
      · rw [he,hat,if_pos rfl,ite_self,if_pos List.mem_cons_self]
      · simp only [List.mem_cons,he,false_or,if_false]

open Classical in
/-- What a starting peer finds: the attestations bound in its part of the tree. -/
theorem get_load (store : ContentStore) (tree : MemoryLocationIndex) (g : Hash) :
    (AttestationIndex.load X localPeerId store tree).get g =
      if BoundAtHome localPeerId tree g then attestationAt X store g else none := by
  have hfold := load_fold X store (tree.list (attestationRoot localPeerId)) .new
    (fun g a ha => by cases ha) g
  have hiff : g ∈ (tree.list (attestationRoot localPeerId)).map Prod.snd ↔
      BoundAtHome localPeerId tree g := by
    rw [List.mem_map]
    constructor
    · rintro ⟨⟨p,h⟩,he,rfl⟩
      exact ⟨p,(tree.mem_list _ p h).mp he⟩
    · rintro ⟨p,hp⟩
      exact ⟨(p,g),(tree.mem_list _ p g).mpr hp,rfl⟩
  have hload : (AttestationIndex.load X localPeerId store tree).get g = _ := hfold
  rw [hload]
  by_cases hb : BoundAtHome localPeerId tree g
  · rw [if_pos (hiff.mpr hb),if_pos hb]
  · rw [if_neg (fun h => hb (hiff.mp h)),if_neg hb]
    rfl

end Loading

/-! One write. -/

section Writes

variable {X : Platform} {localPeerId : Str}

/-- The hook is told: the path is a tree path, what it holds changes, and the chain of the
write may go on. -/
def Fires (s : AttestationTree) (path : Str) (hash : Hash) (ctx : Option ExecutionContext) : Prop :=
  EntityUri.validateAbsolutePath path = .ok () ∧ s.inner.get path ≠ some hash ∧
    ¬OverLimit s (ctx.getD {})

/-- The tree after the write. -/
def boundTree (tree : MemoryLocationIndex) (path : Str) (hash : Hash) : MemoryLocationIndex :=
  if (EntityUri.validateAbsolutePath path).isOk then tree.set path hash else tree

theorem dispatchEvent_indexed (path : Str) (hash : Hash) (previousHash : Option Hash)
    (changeType : ChangeType) (ctx : Option ExecutionContext) (s : AttestationTree) :
    let r := (dispatchEvent (indexed X localPeerId) path hash previousHash (some hash) changeType
      ctx s).state
    r.inner = s.inner ∧ r.cascadeDepth = s.cascadeDepth ∧
      (OverLimit s (ctx.getD {}) → r.world = s.world) ∧
      (¬OverLimit s (ctx.getD {}) → r.world = indexArrival X hash s.world) := by
  have hnote : ∀ c, (s.deeper.noteChain c).inner = s.inner ∧
      (s.deeper.noteChain c).cascadeDepth = s.cascadeDepth+1 ∧
      (s.deeper.noteChain c).world = s.world := by
    intro c
    unfold noteChain
    split <;> exact ⟨rfl,rfl,rfl⟩
  have hover := chainExceeded_iff s (ctx.getD {})
  obtain ⟨hinner,hdepth,hworld⟩ := hnote ((ctx.getD {}).atDepth s.deeper.cascadeDepth)
  by_cases hexceeded : s.deeper.chainExceeded ((ctx.getD {}).atDepth s.deeper.cascadeDepth) = true
  · have hlimit := hover.mp hexceeded
    simp only [dispatchEvent,hexceeded,if_true,shallower]
    refine ⟨hinner,?_,fun _ => hworld,fun h => absurd hlimit h⟩
    rw [hdepth,Nat.add_sub_cancel]
  · have hlimit : ¬OverLimit s (ctx.getD {}) := fun h => hexceeded (hover.mpr h)
    have hdeliver : ∀ event c s', event.newHash = some hash →
        (deliver (indexed X localPeerId) event c s').state =
          { s' with world := indexArrival X hash s'.world } := by
      intro event c s' hevent
      have hhook : ∀ c t, (attestationIndexHook X localPeerId).onTreeChange event c t =
          (.ok (),c,{ t with world := indexArrival X hash t.world }) := by
        intro c t
        unfold attestationIndexHook
        dsimp only
        rw [hevent]
      simp only [deliver,indexed,runHooks,hhook]
    simp only [dispatchEvent,hexceeded,if_false,shallower,Bool.false_eq_true,hdeliver]
    refine ⟨hinner,?_,fun h => absurd h hlimit,fun _ => ?_⟩
    · rw [hdepth,Nat.add_sub_cancel]
    · rw [hworld]

theorem setImpl_indexed (path : Str) (hash : Hash) (ctx : Option ExecutionContext)
    {s : AttestationTree} (hd : s.cascadeDepth < cascadeDepthLimit) :
    let r := (setImpl (indexed X localPeerId) path hash ctx s).state
    r.inner = boundTree s.inner path hash ∧ r.cascadeDepth = s.cascadeDepth ∧
      (¬Fires s path hash ctx → r.world = s.world) ∧
      (Fires s path hash ctx → r.world = indexArrival X hash s.world) := by
  unfold setImpl Fires boundTree
  split
  · rename_i e he
    rw [he]
    refine ⟨rfl,rfl,fun _ => rfl,?_⟩
    rintro ⟨h,-⟩
    cases h
  · rename_i hvalid
    rw [if_neg hd.not_ge,hvalid]
    have hover : ∀ inner, OverLimit { s with inner := inner } (ctx.getD {}) ↔
        OverLimit s (ctx.getD {}) := fun _ => Iff.rfl
    dsimp only
    split
    · rename_i prev hprev
      split
      · rename_i hsame
        refine ⟨rfl,rfl,fun _ => rfl,?_⟩
        rintro ⟨-,h,-⟩
        rw [hprev,hsame] at h
        exact absurd rfl h
      · rename_i hdiffer
        obtain ⟨hi,hc,hno,hyes⟩ := dispatchEvent_indexed (X := X) path hash (some prev) .modified
          ctx { s with inner := s.inner.set path hash }
        refine ⟨hi,hc,fun h => hno ?_,fun h => hyes h.2.2⟩
        by_contra hwithin
        refine h ⟨rfl,?_,hwithin⟩
        rw [hprev]
        exact fun he => hdiffer (Option.some.inj he)
    · rename_i hnone
      obtain ⟨hi,hc,hno,hyes⟩ := dispatchEvent_indexed (X := X) path hash none .created
        ctx { s with inner := s.inner.set path hash }
      refine ⟨hi,hc,fun h => hno ?_,fun h => hyes h.2.2⟩
      by_contra hwithin
      refine h ⟨rfl,?_,hwithin⟩
      rw [hnone]
      simp

/-- A write as the tree and the index see it; an operation also inserts what it encoded. -/
structure AttestationWrite where
  path : Str
  entity : Entity
  ctx : Option ExecutionContext
  direct : Option AttestationData

variable (X localPeerId)

def AttestationWrite.run (w : AttestationWrite) (s : AttestationTree) : AttestationTree :=
  let r := (setImpl (indexed X localPeerId) w.path w.entity.contentHash w.ctx
    (putAttestation s w.entity)).state
  match w.direct with
  | none => r
  | some att => insertAttestation r w.entity.contentHash att

/-- A peer that started now would hold the same attestations. -/
def Remembers (s : AttestationTree) : Prop :=
  ∀ g, (AttestationIndex.load X localPeerId s.world.store s.inner).get g = s.world.index.get g

/-- What a write must meet: its entity is the only one of its hash, it decodes if an operation
inserts it, every attestation that was bound at home still is, and this one is bound at home
exactly if the index is told of it or knew it. -/
structure Restorable (s : AttestationTree) (w : AttestationWrite) : Prop where
  unique : ∀ e, s.world.store.get w.entity.contentHash = some e → e = w.entity
  decodes : ∀ att, w.direct = some att → ∃ att', AttestationData.fromEntity X w.entity = .ok att' ∧
    (Fires s w.path w.entity.contentHash w.ctx ∨
      (s.world.index.get w.entity.contentHash).isSome ∨ att' = att)
  keeps : ∀ g, BoundAtHome localPeerId s.inner g → (attestationAt X s.world.store g).isSome →
    BoundAtHome localPeerId (boundTree s.inner w.path w.entity.contentHash) g
  homed : (AttestationData.fromEntity X w.entity).isOk → w.direct.isSome ∨
    Fires s w.path w.entity.contentHash w.ctx →
    BoundAtHome localPeerId (boundTree s.inner w.path w.entity.contentHash) w.entity.contentHash
  heard : (AttestationData.fromEntity X w.entity).isOk →
    BoundAtHome localPeerId (boundTree s.inner w.path w.entity.contentHash) w.entity.contentHash →
    w.direct.isSome ∨ Fires s w.path w.entity.contentHash w.ctx ∨
      (s.world.index.get w.entity.contentHash).isSome

variable {X localPeerId} {s : AttestationTree} {w : AttestationWrite}

theorem attestationAt_put (store : ContentStore) (entity : Entity) (g : Hash) :
    attestationAt X (store.put entity) g = if g = entity.contentHash then
      (AttestationData.fromEntity X entity).toOption else attestationAt X store g := by
  unfold attestationAt ContentStore.put ContentStore.get
  rw [List.find?_cons]
  by_cases hg : g = entity.contentHash
  · simp [hg]
  · have hne : ¬entity.contentHash = g := fun h => hg h.symm
    simp [hg,hne]

/-- An entity that is the only one of its hash was read before as it is read now. -/
theorem Restorable.known (h : Restorable X localPeerId s w) {att : AttestationData}
    (hat : attestationAt X s.world.store w.entity.contentHash = some att) :
    AttestationData.fromEntity X w.entity = .ok att := by
  obtain ⟨e,he,hdecoded⟩ := Option.bind_eq_some_iff.mp hat
  rw [h.unique e he] at hdecoded
  cases hread : AttestationData.fromEntity X w.entity with
  | error err =>
    rw [hread] at hdecoded
    cases hdecoded
  | ok a =>
    rw [hread] at hdecoded
    rw [Option.some.inj hdecoded]

theorem boundAtHome_other {tree : MemoryLocationIndex} {path : Str} {hash g : Hash} (hg : g ≠ hash)
    (h : BoundAtHome localPeerId (boundTree tree path hash) g) : BoundAtHome localPeerId tree g := by
  obtain ⟨p,hp,hroot⟩ := h
  refine ⟨p,?_,hroot⟩
  unfold boundTree at hp
  split_ifs at hp
  · rw [MemoryLocationIndex.get_set] at hp
    split_ifs at hp
    · exact absurd (Option.some.inj hp).symm hg
    · exact hp
  · exact hp

open Classical in
/-- The index after a write: what it knew comes first, then what the hook read, then what
the operation encoded. -/
theorem AttestationWrite.run_spec (w : AttestationWrite) {s : AttestationTree}
    (hd : s.cascadeDepth < cascadeDepthLimit) : let r := w.run X localPeerId s
    r.inner = boundTree s.inner w.path w.entity.contentHash ∧ r.cascadeDepth = s.cascadeDepth ∧
    r.world.store = s.world.store.put w.entity ∧
    ∀ g, r.world.index.get g = if g = w.entity.contentHash then
      ((s.world.index.get g).or (if Fires s w.path g w.ctx then
        (AttestationData.fromEntity X w.entity).toOption else none)).or w.direct
      else s.world.index.get g := by
  obtain ⟨hinner,hdepth,hquiet,hheard⟩ := setImpl_indexed (X := X) w.path w.entity.contentHash
    w.ctx (show (putAttestation s w.entity).cascadeDepth < _ from hd)
  dsimp only
  generalize hr : (setImpl (indexed X localPeerId) w.path w.entity.contentHash w.ctx
    (putAttestation s w.entity)).state = r at hinner hdepth hquiet hheard
  have hfires : Fires (putAttestation s w.entity) w.path w.entity.contentHash w.ctx ↔
      Fires s w.path w.entity.contentHash w.ctx := Iff.rfl
  have hstep : r.world.store = s.world.store.put w.entity ∧ ∀ g, r.world.index.get g =
      if g = w.entity.contentHash then (s.world.index.get g).or
        (if Fires s w.path g w.ctx then (AttestationData.fromEntity X w.entity).toOption else none)
      else s.world.index.get g := by
    by_cases hf : Fires s w.path w.entity.contentHash w.ctx
    · rw [hheard (hfires.mpr hf)]
      have hread : attestationAt X (putAttestation s w.entity).world.store w.entity.contentHash =
          (AttestationData.fromEntity X w.entity).toOption := by
        have hput := attestationAt_put (X := X) s.world.store w.entity w.entity.contentHash
        rw [if_pos rfl] at hput
        exact hput
      unfold indexArrival
      rw [hread]
      cases hdec : (AttestationData.fromEntity X w.entity).toOption with
      | none =>
        refine ⟨rfl,?_⟩
        intro g
        have hsame : (putAttestation s w.entity).world.index.get g = s.world.index.get g := rfl
        rw [hsame]
        simp
      | some a =>
        refine ⟨rfl,?_⟩
        intro g
        have hins := AttestationIndex.get_insert s.world.index w.entity.contentHash a g
        refine hins.trans ?_
        by_cases hg : g = w.entity.contentHash
        · subst hg
          rw [if_pos rfl,if_pos rfl,if_pos hf]
          cases s.world.index.get w.entity.contentHash <;> rfl
        · rw [if_neg hg,if_neg hg]
    · rw [hquiet (fun h => hf (hfires.mp h))]
      refine ⟨rfl,?_⟩
      intro g
      have hsame : (putAttestation s w.entity).world.index.get g = s.world.index.get g := rfl
      rw [hsame]
      by_cases hg : g = w.entity.contentHash
      · subst hg
        simp [hf]
      · rw [if_neg hg]
  unfold AttestationWrite.run
  simp only [hr]
  cases hdirect : w.direct with
  | none =>
    refine ⟨hinner,hdepth,hstep.1,?_⟩
    intro g
    rw [hstep.2]
    simp
  | some att =>
    refine ⟨hinner,hdepth,hstep.1,?_⟩
    intro g
    have hins := AttestationIndex.get_insert r.world.index w.entity.contentHash att g
    refine hins.trans ?_
    rw [hstep.2,hstep.2]
    by_cases hg : g = w.entity.contentHash
    · subst hg
      simp only [if_true]
      generalize (s.world.index.get w.entity.contentHash).or _ = known
      cases known <;> rfl
    · rw [if_neg hg,if_neg hg,if_neg hg]

/-- A write that meets its condition leaves the peer restorable. -/
theorem AttestationWrite.remembers (w : AttestationWrite) (hd : s.cascadeDepth < cascadeDepthLimit)
    (hs : Remembers X localPeerId s) (hw : Restorable X localPeerId s w) :
    Remembers X localPeerId (w.run X localPeerId s) := by
  classical
  obtain ⟨hinner,-,hstore,hindex⟩ := AttestationWrite.run_spec (X := X) w hd
  have hbefore : ∀ g, s.world.index.get g = if BoundAtHome localPeerId s.inner g then
      attestationAt X s.world.store g else none := by
    intro g
    rw [← hs g,get_load]
  intro g
  rw [get_load,hinner,hstore,hindex,attestationAt_put]
  by_cases hg : g = w.entity.contentHash
  · subst hg
    rw [if_pos rfl,if_pos rfl]
    cases hdec : AttestationData.fromEntity X w.entity with
    | error err =>
      -- nothing to load, and nobody inserts it
      have hdirect : w.direct = none := by
        cases hcase : w.direct with
        | none => rfl
        | some att =>
          obtain ⟨a,ha,-⟩ := hw.decodes att hcase
          rw [hdec] at ha
          cases ha
      have hunknown : s.world.index.get w.entity.contentHash = none := by
        rw [hbefore]
        split_ifs
        · cases hat : attestationAt X s.world.store w.entity.contentHash with
          | none => rfl
          | some a =>
            have hread := hw.known hat
            rw [hdec] at hread
            cases hread
        · rfl
      rw [hdirect,hunknown]
      simp [Except.toOption]
    | ok a =>
      have hok : (AttestationData.fromEntity X w.entity).isOk := by rw [hdec]; rfl
      have hknown : ∀ b, s.world.index.get w.entity.contentHash = some b → b = a := by
        intro b hb
        rw [hbefore] at hb
        split_ifs at hb
        have hread := hw.known hb
        rw [hdec] at hread
        exact (Except.ok.inj hread).symm
      by_cases hhome : BoundAtHome localPeerId (boundTree s.inner w.path w.entity.contentHash)
          w.entity.contentHash
      · rw [if_pos hhome]
        cases hold : s.world.index.get w.entity.contentHash with
        | some b =>
          rw [hknown b hold]
          rfl
        | none =>
          by_cases hf : Fires s w.path w.entity.contentHash w.ctx
          · rw [if_pos hf]
            rfl
          · rw [if_neg hf]
            cases hdirect : w.direct with
            | none =>
              have hheard := hw.heard hok hhome
              simp [hdirect,hf,hold] at hheard
            | some att =>
              obtain ⟨a',ha',hcase⟩ := hw.decodes att hdirect
              have hsame : a' = a := by
                rw [hdec] at ha'
                exact (Except.ok.inj ha').symm
              have hatt : a' = att := by simpa [hf,hold] using hcase
              rw [← hatt,hsame]
              rfl
      · rw [if_neg hhome]
        have hnot : ¬(w.direct.isSome ∨ Fires s w.path w.entity.contentHash w.ctx) :=
          fun h => hhome (hw.homed hok h)
        have hdirect : w.direct = none := by
          rw [← Option.not_isSome_iff_eq_none]
          exact fun h => hnot (.inl h)
        have hunknown : s.world.index.get w.entity.contentHash = none := by
          rw [hbefore]
          split_ifs with hb
          · cases hat : attestationAt X s.world.store w.entity.contentHash with
            | none => rfl
            | some b => exact absurd (hw.keeps _ hb (by rw [hat]; rfl)) hhome
          · rfl
        rw [hdirect,hunknown,if_neg (fun h => hnot (.inr h))]
        rfl
  · rw [if_neg hg,if_neg hg,hbefore]
    by_cases hb : BoundAtHome localPeerId s.inner g
    · rw [if_pos hb]
      cases hat : attestationAt X s.world.store g with
      | none => rw [ite_self]
      | some a => rw [if_pos (hw.keeps g hb (by rw [hat]; rfl))]
    · rw [if_neg hb,if_neg (fun h => hb (boundAtHome_other hg h))]

end Writes

/-! Runs. -/

section Runs

variable (X : Platform) (localPeerId : Str)

/-- The two indexes give the same answers to every question. -/
def AnswerAlike (i j : AttestationIndex) : Prop :=
  (∀ h, i.get h = j.get h) ∧ (∀ h, i.lookupByAttesting h = j.lookupByAttesting h) ∧
    (∀ h, i.lookupByAttested h = j.lookupByAttested h) ∧
    (∀ k, i.lookupByKind k = j.lookupByKind k) ∧
    (∀ h, i.lookupBySupersedes h = j.lookupBySupersedes h)

def requestWrite (request : Except Failure AttestationRequest) : Option AttestationWrite :=
  request.toOption.map fun r => ⟨r.path,r.entity,none,some r.att⟩

/-- The write a step comes to; a refused request comes to none. -/
def AttestationStep.writes (s : AttestationTree) : AttestationStep → Option AttestationWrite
  | .create rt params => requestWrite (createRequest X localPeerId rt params)
  | .supersede rt params => requestWrite (supersedeRequest X localPeerId s.world.index rt params)
  | .revoke rt params => requestWrite (revokeRequest X localPeerId rt params)
  | .quorumUpdate rt params => requestWrite (quorumUpdateRequest X localPeerId rt params)
  | .quorumPublish rt params => requestWrite (quorumPublishRequest X localPeerId rt params)
  | .write path entity ctx => some ⟨path,entity,ctx,none⟩

def AttestationStep.Restorable (s : AttestationTree) (step : AttestationStep) : Prop :=
  ∀ w, step.writes X localPeerId s = some w → EntityCore.Restorable X localPeerId s w

/-- At rest, with an index that a restart would rebuild. -/
structure AtRest (s : AttestationTree) : Prop where
  remembers : Remembers X localPeerId s
  depth : s.cascadeDepth < cascadeDepthLimit

variable {X localPeerId} {s : AttestationTree}

theorem AtRest.write (h : AtRest X localPeerId s) {w : AttestationWrite}
    (hw : Restorable X localPeerId s w) : AtRest X localPeerId (w.run X localPeerId s) := by
  refine ⟨w.remembers h.depth h.remembers hw,?_⟩
  rw [(AttestationWrite.run_spec (X := X) w h.depth).2.1]
  exact h.depth

theorem AtRest.invalidateSet (h : AtRest X localPeerId s) (q : Hash) :
    AtRest X localPeerId (EntityCore.invalidateSet s q) := ⟨h.remembers,h.depth⟩

theorem AtRest.answer (h : AtRest X localPeerId s) (field : String)
    {request : Except Failure AttestationRequest}
    {store : AttestationRequest → AttestationTree → AttestationTree}
    (hstore : ∀ r, request = .ok r → AtRest X localPeerId (store r s)) :
    AtRest X localPeerId (answer field request store s).2 := by
  unfold EntityCore.answer
  cases request with
  | error f => exact h
  | ok r => exact hstore r rfl

theorem AtRest.persist (h : AtRest X localPeerId s) {request : Except Failure AttestationRequest}
    (hw : ∀ w, requestWrite request = some w → Restorable X localPeerId s w)
    {r : AttestationRequest} (hr : request = .ok r) :
    AtRest X localPeerId (persistAttestation X localPeerId r s) := by
  have hwrite := hw ⟨r.path,r.entity,none,some r.att⟩ (by rw [hr]; rfl)
  exact h.write hwrite

theorem AttestationStep.atRest (step : AttestationStep) (h : AtRest X localPeerId s)
    (hstep : step.Restorable X localPeerId s) : AtRest X localPeerId (step.run X localPeerId s) := by
  cases step with
  | create rt params => exact h.answer _ fun r hr => h.persist hstep hr
  | supersede rt params => exact h.answer _ fun r hr => h.persist hstep hr
  | revoke rt params => exact h.answer _ fun r hr => h.persist hstep hr
  | quorumUpdate rt params => exact h.answer _ fun r hr => (h.persist hstep hr).invalidateSet _
  | quorumPublish rt params => exact h.answer _ fun r hr => (h.persist hstep hr).invalidateSet _
  | write path entity ctx => exact h.write (hstep _ rfl)

theorem runAttestations_atRest (steps : List AttestationStep) (h : AtRest X localPeerId s)
    (hsteps : ∀ pre step post, steps = pre++step::post →
      step.Restorable X localPeerId (runAttestations X localPeerId pre s)) :
    AtRest X localPeerId (runAttestations X localPeerId steps s) := by
  induction steps generalizing s with
  | nil => exact h
  | cons step steps ih =>
    refine ih (step.atRest h (hsteps [] step steps rfl)) ?_
    intro pre step' post hsplit
    exact hsteps (step::pre) step' post (by rw [hsplit]; rfl)

end Runs

/-- In every run whose writes all meet the condition, a peer that restarts at any point reads
an index that answers as the running one. -/
theorem restart_answers_alike (X : Platform) (localPeerId : Str) (s : AttestationTree)
    (steps : List AttestationStep) (hstart : AtRest X localPeerId s)
    (hsteps : ∀ pre step post, steps = pre++step::post →
      step.Restorable X localPeerId (runAttestations X localPeerId pre s)) :
    ∀ done, done <+: steps → AnswerAlike (AttestationIndex.load X localPeerId
        (runAttestations X localPeerId done s).world.store
        (runAttestations X localPeerId done s).inner)
      (runAttestations X localPeerId done s).world.index := by
  intro done hdone
  obtain ⟨rest,hrest⟩ := hdone
  have hrun := runAttestations_atRest done hstart (by
    intro pre step post hsplit
    refine hsteps pre step (post++rest) ?_
    rw [← hrest,hsplit]
    simp)
  exact ⟨hrun.remembers,AttestationIndex.same_answers hrun.remembers⟩

namespace RestartSample

open Sample

def fresh : AttestationTree := ⟨⟨.empty⟩,0,.empty,⟨⟨[]⟩,.new,.empty⟩⟩

theorem fresh_atRest (X : Platform) (localPeerId : Str) : AtRest X localPeerId fresh :=
  ⟨fun _ => rfl,by decide⟩

def target (path : Str) : Option ResourceTarget := some ⟨[path],[]⟩

def certValue : Value := .map AttestationSample.cert.2.toFields
def takeoverValue : Value := .map QuorumSample.takeover.2.toFields

def certEntity := entity "system/attestation" certValue
  0x13d3f9d0c38329117303da718da15bdb0b9e7427252062f709e2fe67014a3e96

def createParams : Value := .map [(txt "attesting",.bytes alice.contentHash.toBytes),
  (txt "attested",.bytes bob.contentHash.toBytes),
  (txt "properties",.map AttestationSample.certProperties)]

def updateParams : Value := .map [(txt "quorum_id",.bytes QuorumSample.quorumId.toBytes),
  (txt "new_signers",hashArray [carol.contentHash]),(txt "new_threshold",uint 1)]

def restartCrates : Platform := platform [createParams,updateParams,certValue,takeoverValue]
  [(ecfForHash typeAttestation (toEcf certValue),
      0x13d3f9d0c38329117303da718da15bdb0b9e7427252062f709e2fe67014a3e96),
    (ecfForHash typeAttestation (toEcf takeoverValue),
      0xfe74351cb345fdee1ab153cab523afe7af4690de3052c1311b85cc75be45f4e8)] []

/-- Where a quorum's own attestations are kept. -/
def rotation : AttestationStep := .quorumUpdate (target (pathQuorumEvent QuorumSample.quorumId
  QuorumSample.takeover.1)) (toEcf updateParams)

def creation : AttestationStep := .create (target "system/attestation/bob".toList)
  (toEcf createParams)

def bobPath : Str := "/2KLeKgPNCREZfM5XY9MPVcZA61Xz8d8e7wb5LCaCf3Hz68/system/attestation/bob".toList

def rotated : AttestationTree := runAttestations restartCrates aliceId [rotation] fresh

/-- A rotation and a restart, and what a creation writes. -/
theorem evaluated_restart :
    ((rotated.world.index.get QuorumSample.takeover.1).isSome = true ∧
      ((AttestationIndex.load restartCrates aliceId rotated.world.store rotated.inner).get
        QuorumSample.takeover.1).isSome = false) ∧
    ((runAttestations restartCrates aliceId [creation] fresh).world.index.get
      certEntity.contentHash).isSome = true ∧
    (creation.writes restartCrates aliceId fresh).map (fun w =>
      (w.path,w.entity,w.ctx.isNone,w.direct.isSome)) = some (bobPath,certEntity,true,true) ∧
    (EntityUri.validateAbsolutePath bobPath).isOk = true ∧
    ((boundTree fresh.inner bobPath certEntity.contentHash).get bobPath =
        some certEntity.contentHash ∧ attestationRoot aliceId <+: bobPath) ∧
    (AttestationData.fromEntity restartCrates certEntity).toOption.any (fun _ => true) = true := by
  decide +kernel

end RestartSample

open RestartSample Sample

/-- A signer rotation at the quorum's event path is indexed, and forgotten by a restart. -/
theorem rotation_forgotten : ¬∀ (X : Platform) (localPeerId : Str) (steps : List AttestationStep),
      AnswerAlike (AttestationIndex.load X localPeerId
        (runAttestations X localPeerId steps fresh).world.store
        (runAttestations X localPeerId steps fresh).inner)
      (runAttestations X localPeerId steps fresh).world.index := by
  intro h
  have hsame := (h restartCrates aliceId [rotation]).1 QuorumSample.takeover.1
  obtain ⟨⟨hindexed,hloaded⟩,-⟩ := evaluated_restart
  have hanswers : (AttestationIndex.load restartCrates aliceId rotated.world.store rotated.inner).get
      QuorumSample.takeover.1 = rotated.world.index.get QuorumSample.takeover.1 := hsame
  rw [hanswers,hindexed] at hloaded
  cases hloaded

theorem restart_answers_alike_sample : AnswerAlike (AttestationIndex.load restartCrates aliceId
      (runAttestations restartCrates aliceId [creation] fresh).world.store
      (runAttestations restartCrates aliceId [creation] fresh).inner)
    (runAttestations restartCrates aliceId [creation] fresh).world.index ∧
    ((runAttestations restartCrates aliceId [creation] fresh).world.index.get
      certEntity.contentHash).isSome = true := by
  obtain ⟨-,hcreated,hfields,hvalid,hhome,hreads⟩ := evaluated_restart
  refine ⟨restart_answers_alike restartCrates aliceId fresh [creation] (fresh_atRest _ _) ?_ [creation]
    (List.prefix_refl _),hcreated⟩
  intro pre step post hsplit w hw
  obtain ⟨rfl,rfl⟩ : pre = [] ∧ step = creation := by
    cases pre with
    | nil => exact ⟨rfl,(List.cons.inj hsplit).1.symm⟩
    | cons x pre =>
      have hnil := (List.cons.inj hsplit).2
      cases pre <;> cases hnil
  have hwrites : creation.writes restartCrates aliceId fresh = some w := hw
  show Restorable restartCrates aliceId fresh w
  rw [hwrites] at hfields
  simp only [Option.map_some,Option.some.injEq,Prod.mk.injEq,Option.isNone_iff_eq_none] at hfields
  obtain ⟨hpath,hentity,hctx,hdirect⟩ := hfields
  have hfires : Fires fresh w.path w.entity.contentHash w.ctx := by
    refine ⟨?_,?_,?_⟩
    · rw [hpath]
      cases hv : EntityUri.validateAbsolutePath bobPath with
      | error e =>
        rw [hv] at hvalid
        cases hvalid
      | ok u => rfl
    · intro hbound
      cases hbound
    · rintro ⟨chain,hchain,-⟩
      rw [hctx] at hchain
      cases hchain
  have hnone : ∀ g, ¬BoundAtHome aliceId fresh.inner g := by
    rintro g ⟨p,hp,-⟩
    cases hp
  obtain ⟨att,hatt,-⟩ := exists_ok_of_any hreads
  refine ⟨?_,?_,?_,?_,?_⟩
  · intro e he
    cases he
  · intro _ _
    rw [hentity]
    exact ⟨att,hatt,.inl (hentity ▸ hfires)⟩
  · intro g hg
    exact absurd hg (hnone g)
  · intro _ _
    rw [hpath,hentity]
    exact ⟨bobPath,hhome⟩
  · intro _ _
    exact .inl hdirect

end EntityCore
