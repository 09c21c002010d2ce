import EntityCore.AttestationGraph

/-! Quorums: K of N peers that act as one party. The signer set of a quorum starts as its
entity says and moves with the updates attested about it. -/
namespace EntityCore

open Ecf Outcome Strings Worklist List

def typeQuorum : Str := "system/quorum".toList
def kindQuorumUpdate : Str := "quorum-update".toList
def kindQuorumPublish : Str := "quorum-publish".toList
def resolutionConcrete : Str := "concrete".toList
def quorumStoragePrefix : Str := "system/quorum/".toList
def quorumEventSegment : Str := "/event/".toList
def maxResolverDepth : ℕ := 8

inductive QuorumError where
  | decode (message : String)
  | encode (message : String)
  | invalid (message : String)
  | resolverUnavailable (quorumIdHex modeName : Str) (availableModes : List Str)
  | resolverDepthExceeded (quorumIdHex : Str) (maxDepth : ℕ)
  | resolverCycle (quorumIdHex cycleAtHex : Str)

def QuorumError.display : QuorumError → String
  | .decode m => "quorum entity decode failed: "++m
  | .encode m => "quorum entity encode failed: "++m
  | .invalid m => "invalid quorum: "++m
  | .resolverUnavailable q m _ => "quorum_resolver_unavailable: mode="++String.ofList m++
      " quorum="++String.ofList q
  | .resolverDepthExceeded q d => "identity_resolver_max_depth_exceeded: max_depth="++toString d++
      " quorum="++String.ofList q
  | .resolverCycle q c => "identity_resolver_cycle: cycle_at="++String.ofList c++
      " quorum="++String.ofList q

/-! Fields, as the quorum extension words their errors. -/

namespace QuorumError

def decodeMap (X : Platform) (data : Bytes) : Except QuorumError (List (Value × Value)) := do
  let value ← mapErr QuorumError.decode (X.fromReader data)
  okOr value.asMap (.decode "expected CBOR map")

def required (map : List (Value × Value)) (key : String) : Except QuorumError Value :=
  okOr (getField map key) (.decode ("missing "++key))

def hashOf (what : String) (v : Value) : Except QuorumError Hash := do
  let bytes ← okOr v.asBytes (.decode (what++ " must be bytes"))
  mapErr (fun e => QuorumError.decode e.display) (Hash.fromBytes bytes)

def fieldHash (map : List (Value × Value)) (key : String) : Except QuorumError Hash := do
  hashOf key (← required map key)

def fieldHashOpt (map : List (Value × Value)) (key : String) : Except QuorumError (Option Hash) :=
  match presentField map key with
  | none => .ok none
  | some v => (hashOf key v).map some

def fieldHashArray (map : List (Value × Value)) (key : String) :
    Except QuorumError (List Hash) := do
  let v ← required map key
  let arr ← okOr v.asArray (.decode (key++ " must be array"))
  arr.mapM (hashOf (key++ " entry"))

def fieldU64 (map : List (Value × Value)) (key : String) : Except QuorumError ℕ := do
  let v ← required map key
  let i ← okOr v.asInteger (.decode (key++ " must be integer"))
  if i.val < 0 then .error (.decode (key++ " must be non-negative")) else .ok i.val.toNat

def fieldStringOpt (map : List (Value × Value)) (key : String) :
    Except QuorumError (Option Str) :=
  match presentField map key with
  | none => .ok none
  | some v => (okOr v.asText (.decode (key++ " must be text"))).map some

def fieldMapOpt (map : List (Value × Value)) (key : String) :
    Except QuorumError (Option (List (Value × Value))) :=
  match presentField map key with
  | none => .ok none
  | some v => (okOr v.asMap (.decode (key++ " must be a map"))).map some

end QuorumError

structure QuorumData where
  signers : List Hash
  threshold : ℕ
  signerResolution : Option Str
  name : Option Str
  metadata : Option (List (Value × Value))

namespace QuorumData

open QuorumError

def fromEntity (X : Platform) (entity : Entity) : Except QuorumError QuorumData := do
  ensure (entity.entityType = typeQuorum) (.decode ("expected system/quorum, got "++
    String.ofList entity.entityType))
  let map ← QuorumError.decodeMap X entity.data
  let signers ← fieldHashArray map "signers"
  let threshold ← fieldU64 map "threshold"
  let signerResolution ← fieldStringOpt map "signer_resolution"
  let name ← fieldStringOpt map "name"
  let metadata ← fieldMapOpt map "metadata"
  return ⟨signers,threshold,signerResolution,name,metadata⟩

def resolutionMode (q : QuorumData) : Str := q.signerResolution.getD resolutionConcrete

end QuorumData

def pathQuorum (quorumId : Hash) : Str := quorumStoragePrefix++quorumId.toHex

def pathQuorumEvent (quorumId attHash : Hash) : Str :=
  pathQuorum quorumId++quorumEventSegment++attHash.toHex

structure SignerSet where
  signers : List Hash
  threshold : ℕ
  deriving DecidableEq

/-! Resolvers of other signers than peers are registered by name. -/

inductive ResolverError where
  | unresolved
  | maxDepthExceeded (depth : ℕ)
  | cycle (revisited : Hash)

/-- What a resolver is given, and the references it has visited before and after. -/
abbrev ResolverFn : Type := ContentStore → MemoryLocationIndex → Option ℕ → Hash → List Hash →
  Except ResolverError Hash × List Hash

structure QuorumCtx extends AttestationCtx where
  resolvers : OrderedMap Str ResolverFn
  signerSetCache : OrderedMap Hash SignerSet

def QuorumCtx.availableModes (ctx : QuorumCtx) : List Str :=
  ((OrderedMap.ofList (ctx.resolvers.entries.map fun e => (e.1,()))).insert
    resolutionConcrete ()).entries.map Prod.fst

def QuorumCtx.caching (ctx : QuorumCtx) (quorumId : Hash) (set : SignerSet) : QuorumCtx :=
  { ctx with signerSetCache := ctx.signerSetCache.insert quorumId set }

section Helpers

variable (X : Platform) (ctx : QuorumCtx)

/-- Entries bound at any path that ends like the quorum's own, in path order. -/
def quorumCandidates (quorumId : Hash) : List (Str × Hash) :=
  (ctx.locationIndex.list ['/']).filter fun entry => endsWith entry.1 (pathQuorum quorumId)

/-- The entity of an entry, if it is a quorum. -/
def quorumAt (entry : Str × Hash) : Option Entity :=
  (ctx.contentStore.get entry.2).bind fun entity =>
    if entity.entityType = typeQuorum then some entity else none

def isQuorumId (hash : Hash) : Bool :=
  (quorumCandidates ctx hash).any fun entry => (quorumAt ctx entry).isSome

def loadQuorum (quorumId : Hash) : Except QuorumError QuorumData :=
  match (quorumCandidates ctx quorumId).findSome? (quorumAt ctx) with
  | some entity => QuorumData.fromEntity X entity
  | none => .error (.invalid ("quorum_not_found: "++String.ofList quorumId.toHex))

/-- One signature after the other, each signer once, until there are enough. -/
def countSignatures (entityHash : Hash) (threshold : ℕ) : List Hash → List Hash → Bool
  | [], signed => threshold ≤ signed.length
  | candidate::rest, signed =>
    if candidate ∈ signed then countSignatures entityHash threshold rest signed
    else if verifySpecificSigner X ctx.toAttestationCtx entityHash candidate then
      if threshold ≤ (candidate::signed).length then true
      else countSignatures entityHash threshold rest (candidate::signed)
    else countSignatures entityHash threshold rest signed

def verifyKOfNSignatures (entityHash : Hash) (signerSet : List Hash) (threshold : ℕ) : Bool :=
  if threshold = 0 then true else countSignatures X ctx entityHash threshold signerSet []

end Helpers

/-! The updates of a quorum. -/

def quorumUpdateSigners (att : AttestationData) : Option (List Hash) := do
  let v ← getField att.properties "new_signers"
  let arr ← v.asArray
  arr.mapM fun item => item.asBytes.bind fun bytes => (Hash.fromBytes bytes).toOption

def quorumUpdateThreshold (att : AttestationData) : Option ℕ := do
  let v ← getField att.properties "new_threshold"
  let i ← v.asInteger
  if i.val < 0 then none else some i.val.toNat

/-- Back along the supersedes links to the first inside its window at `t`. -/
def headBefore (index : AttestationIndex) (t : ℕ) : ℕ → AttestationData → Option (Option AttestationData)
  | 0, _ => none
  | n+1, current =>
    if current.notBefore.all (· ≤ t) && current.expiresAt.all (t < ·) then some (some current)
    else match current.supersedes.bind index.get with
      | none => some none
      | some prev => headBefore index t n prev

def findQuorumUpdateHeadAt (index : AttestationIndex) (now steps : ℕ) (asOf : Option ℕ)
    (start : Attestation) : Option (Option AttestationData) :=
  match asOf with
  | none => (findLiveHead index now steps start).map fun head => head.map Prod.snd
  | some t => headBefore index t steps start.2

/-- The first chain head with a live head decides; what it does not say stays. -/
def applyUpdates (index : AttestationIndex) (now steps : ℕ) (asOf : Option ℕ) (set : SignerSet) :
    List Attestation → Option SignerSet
  | [] => some set
  | e::rest => do
    match ← findQuorumUpdateHeadAt index now steps asOf e with
    | none => applyUpdates index now steps asOf set rest
    | some head => return ⟨(quorumUpdateSigners head).getD set.signers,
        (quorumUpdateThreshold head).getD set.threshold⟩

section SignerSets

variable (X : Platform) (ctx : QuorumCtx) (now steps : ℕ)

def isUpdate (att : AttestationData) : Bool := att.kind = some kindQuorumUpdate

def quorumUpdates (quorumId : Hash) : List Attestation :=
  ctx.index.findAttestationsTargeting quorumId isUpdate

/-- The updates that no update of the same quorum supersedes. -/
def chainHeads (quorumId : Hash) : List Attestation :=
  let updates := quorumUpdates ctx quorumId
  updates.filter fun e => e.1 ∉ updates.filterMap fun u => u.2.supersedes

/-- The signers of a set through the resolver of its mode; visited references are shared. -/
def resolveSigners (quorumIdHex mode : Str) (modes : List Str)
    (resolver : Hash → List Hash → Except ResolverError Hash × List Hash) :
    List Hash → List Hash → Except QuorumError (List Hash)
  | [], _ => .ok []
  | s::rest, visited =>
    match resolver s visited with
    | (.ok r,visited') => (resolveSigners quorumIdHex mode modes resolver rest visited').map (r::·)
    | (.error (.maxDepthExceeded _),_) =>
      .error (.resolverDepthExceeded quorumIdHex maxResolverDepth)
    | (.error (.cycle h),_) => .error (.resolverCycle quorumIdHex h.toHex)
    | (.error .unresolved,_) => .error (.resolverUnavailable quorumIdHex
        (mode++ " (resolver returned unresolved for signer)".toList) modes)

def resolveSet (quorumId : Hash) (mode : Str) (asOf : Option ℕ) (set : SignerSet) :
    Except QuorumError SignerSet :=
  if mode = resolutionConcrete then .ok set
  else match ctx.resolvers.get mode with
    | none => .error (.resolverUnavailable quorumId.toHex mode ctx.availableModes)
    | some resolver => (resolveSigners quorumId.toHex mode ctx.availableModes
        (resolver ctx.contentStore ctx.locationIndex asOf) set.signers []).map fun l =>
          { set with signers := l }

/-- The signer set without the cache. -/
def computeSignerSet (quorumId : Hash) (asOf : Option ℕ) : Option (Except QuorumError SignerSet) :=
  match loadQuorum X ctx quorumId with
  | .error e => some (.error e)
  | .ok quorum => (applyUpdates ctx.index now steps asOf ⟨quorum.signers,quorum.threshold⟩
      (chainHeads ctx quorumId)).map fun set =>
        resolveSet ctx quorumId quorum.resolutionMode asOf set

/-- Only the present set is cached. -/
def currentSignerSetAsOf (quorumId : Hash) (asOf : Option ℕ) :
    Option (Except QuorumError SignerSet) :=
  match (if asOf.isNone then ctx.signerSetCache.get quorumId else none) with
  | some cached => some (.ok cached)
  | none => computeSignerSet X ctx now steps quorumId asOf

def currentSignerSet (quorumId : Hash) : Option (Except QuorumError SignerSet) :=
  currentSignerSetAsOf X ctx now steps quorumId none

end SignerSets

/-! What the helpers say. -/

section Counting

variable {X : Platform} {ctx : QuorumCtx}

/-- The signers with a valid signature over an entity. -/
def signersOf (X : Platform) (ctx : QuorumCtx) (entityHash : Hash) (signerSet : List Hash) :
    Finset Hash :=
  signerSet.toFinset.filter fun s =>
    verifySpecificSigner X ctx.toAttestationCtx entityHash s = true

theorem countSignatures_iff {entityHash : Hash} {threshold : ℕ} (candidates signed : List Hash)
    (hnodup : signed.Nodup)
    (hsigned : ∀ s ∈ signed, verifySpecificSigner X ctx.toAttestationCtx entityHash s = true)
    (hbelow : signed.length < threshold) :
    countSignatures X ctx entityHash threshold candidates signed = true ↔
      threshold ≤ (signersOf X ctx entityHash (signed++candidates)).card := by
  have hown : ∀ l : List Hash, l.Nodup →
      (∀ s ∈ l, verifySpecificSigner X ctx.toAttestationCtx entityHash s = true) →
      signersOf X ctx entityHash l = l.toFinset := by
    intro l _ hl
    apply Finset.filter_true_of_mem
    intro s hs
    exact hl s (mem_toFinset.mp hs)
  induction candidates generalizing signed with
  | nil =>
    rw [append_nil,hown signed hnodup hsigned,toFinset_card_of_nodup hnodup]
    simp [countSignatures]
  | cons c rest ih =>
    unfold countSignatures
    split_ifs with hc hv hlast
    · -- counted before
      refine (ih signed hnodup hsigned hbelow).trans ?_
      have hsame : signersOf X ctx entityHash (signed++c::rest) =
          signersOf X ctx entityHash (signed++rest) := by
        ext s
        simp only [signersOf,Finset.mem_filter,mem_toFinset,mem_append,mem_cons]
        constructor
        · rintro ⟨hs | rfl | hs,hv⟩
          · exact ⟨.inl hs,hv⟩
          · exact ⟨.inl hc,hv⟩
          · exact ⟨.inr hs,hv⟩
        · rintro ⟨hs | hs,hv⟩
          · exact ⟨.inl hs,hv⟩
          · exact ⟨.inr (.inr hs),hv⟩
      rw [hsame]
    · -- the last that was needed
      have hnodup' : (c::signed).Nodup := nodup_cons.mpr ⟨hc,hnodup⟩
      have hsub : (c::signed).toFinset ⊆ signersOf X ctx entityHash (signed++c::rest) := by
        intro s hs
        rw [mem_toFinset,mem_cons] at hs
        simp only [signersOf,Finset.mem_filter,mem_toFinset,mem_append,mem_cons]
        rcases hs with rfl | hs
        · exact ⟨.inr (.inl rfl),hv⟩
        · exact ⟨.inl hs,hsigned s hs⟩
      have hcard := Finset.card_le_card hsub
      rw [toFinset_card_of_nodup hnodup'] at hcard
      exact ⟨fun _ => hlast.trans hcard,fun _ => rfl⟩
    · have hnodup' : (c::signed).Nodup := nodup_cons.mpr ⟨hc,hnodup⟩
      refine (ih (c::signed) hnodup' (forall_mem_cons.mpr ⟨hv,hsigned⟩)
        (not_le.mp hlast)).trans ?_
      have hsame : signersOf X ctx entityHash (signed++c::rest) =
          signersOf X ctx entityHash (c::signed++rest) := by
        ext s
        simp only [signersOf,Finset.mem_filter,mem_toFinset,mem_append,mem_cons, cons_append]
        tauto
      rw [hsame]
    · refine (ih signed hnodup hsigned hbelow).trans ?_
      have hsame : signersOf X ctx entityHash (signed++c::rest) =
          signersOf X ctx entityHash (signed++rest) := by
        ext s
        simp only [signersOf,Finset.mem_filter,mem_toFinset,mem_append,mem_cons]
        constructor
        · rintro ⟨hs | rfl | hs,hs'⟩
          · exact ⟨.inl hs,hs'⟩
          · exact absurd hs' hv
          · exact ⟨.inr hs,hs'⟩
        · rintro ⟨hs | hs,hs'⟩
          · exact ⟨.inl hs,hs'⟩
          · exact ⟨.inr (.inr hs),hs'⟩
      rw [hsame]

/-- Enough of the set has signed. -/
theorem verifyKOfN_iff {entityHash : Hash} {signerSet : List Hash} {threshold : ℕ} :
    verifyKOfNSignatures X ctx entityHash signerSet threshold = true ↔
      threshold ≤ (signersOf X ctx entityHash signerSet).card := by
  unfold verifyKOfNSignatures
  split_ifs with h
  · rw [h]
    exact ⟨fun _ => Nat.zero_le _,fun _ => rfl⟩
  · rw [countSignatures_iff signerSet [] nodup_nil (by simp) (Nat.pos_of_ne_zero h), nil_append]

end Counting

section Memo

variable {X : Platform} {ctx : QuorumCtx} {now steps : ℕ}

end Memo
end EntityCore
