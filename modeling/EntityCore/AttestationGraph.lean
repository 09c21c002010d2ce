import EntityCore.AttestationIndex
import EntityCore.Worklist

/-! The attestation graph: who attests whom, what revokes and what supersedes, which
attestations are live, and the walk from an attestation up to one that ends it. The
recursions follow links between hashes and take a number of steps. -/
namespace EntityCore

open Ecf Outcome Strings Worklist

/-- An attestation with its content hash. -/
abbrev Attestation : Type := Hash × AttestationData

/-- What the helpers read: the index, the stores and the entities that came along with
the request, in the order they are iterated. -/
structure AttestationCtx where
  index : AttestationIndex
  contentStore : ContentStore
  locationIndex : MemoryLocationIndex
  included : List Entity

/-! Signatures. -/

section Signatures

variable (X : Platform)

/-- A signature over `target` by `signer` bound anywhere under its pointer path. -/
def treeSignature (store : ContentStore) (index : MemoryLocationIndex) (target signer : Hash) :
    Option SignatureData :=
  (index.list ['/']).findSome? fun entry =>
    if !endsWith entry.1 ("system/signature/".toList++target.toHex) then none
    else do
      let entity ← store.get entry.2
      if entity.entityType ≠ typeSignature then none
      else do
        let sig ← (SignatureData.fromEntity X entity).toOption
        if sig.target = target ∧ sig.signer = signer then some sig else none

def findSignatureFor (ctx : AttestationCtx) (target signer : Hash) : Option SignatureData :=
  match (findSignatureBySigner X ctx.included target signer).bind fun e =>
      (SignatureData.fromEntity X e).toOption with
  | some sig => some sig
  | none => treeSignature X ctx.contentStore ctx.locationIndex target signer

/-- The key of a peer entity in the store. -/
def resolvePeer (store : ContentStore) (peerHash : Hash) : Option Bytes := do
  let entity ← store.get peerHash
  if entity.entityType ≠ typePeer then none
  else do
    let value ← (X.fromReader entity.data).toOption
    let key ← (← value.asMap).findSome? fun kv =>
      if kv.1.asText = some "public_key".toList then kv.2.asBytes else none
    if key.length = 32 then some key else none

def verifySpecificSigner (ctx : AttestationCtx) (attHash expectedSigner : Hash) : Bool :=
  match findSignatureFor X ctx attHash expectedSigner,resolvePeer X ctx.contentStore expectedSigner with
  | some sig,some publicKey => X.ed25519Verify publicKey attHash.toBytes sig.signature
  | _,_ => false

def verifyAttestationSignature (ctx : AttestationCtx) (att : Attestation) : Bool :=
  verifySpecificSigner X ctx att.1 att.2.attesting

end Signatures

/-! Lookups. -/

variable {e att : Attestation}

namespace AttestationIndex

variable (index : AttestationIndex)

/-- The attestations of a list of hashes. -/
def fetch (hashes : List Hash) : List Attestation :=
  hashes.filterMap fun h => (index.get h).map fun a => (h,a)

def findAttestationsTargeting (entityHash : Hash) (predicate : AttestationData → Bool) :
    List Attestation :=
  (index.fetch (index.lookupByAttested entityHash)).filter fun e => predicate e.2

def findAttestationsBy (peerHash : Hash) (predicate : AttestationData → Bool) : List Attestation :=
  (index.fetch (index.lookupByAttesting peerHash)).filter fun e => predicate e.2

def findRevocationsFor (attestationHash : Hash) : List Attestation :=
  index.findAttestationsTargeting attestationHash fun a => a.kind = some kindRevocation

def findAttestationsWithSupersedes (predecessor : Hash) : List Attestation :=
  index.fetch (index.lookupBySupersedes predecessor)

variable {index}

/-- The index holds one attestation under a hash. -/
theorem eq_of_same_hash {a b : Attestation} (ha : index.get a.1 = some a.2)
    (hb : index.get b.1 = some b.2) (h : a.1 = b.1) : a = b := by
  rw [h,hb] at ha
  exact Prod.ext h (Option.some.inj ha).symm

theorem mem_fetch {hashes : List Hash} :
    e ∈ index.fetch hashes ↔ e.1 ∈ hashes ∧ index.get e.1 = some e.2 := by
  unfold fetch
  rw [List.mem_filterMap]
  constructor
  · rintro ⟨h,hm,he⟩
    obtain ⟨a,ha,rfl⟩ := Option.map_eq_some_iff.mp he
    exact ⟨hm,ha⟩
  · rintro ⟨hm,hg⟩
    exact ⟨e.1,hm,by rw [hg]; rfl⟩

theorem mem_targeting {h : Hash} {predicate : AttestationData → Bool} :
    e ∈ index.findAttestationsTargeting h predicate ↔
      index.get e.1 = some e.2 ∧ e.2.attested = h ∧ predicate e.2 = true := by
  have hlisted := index.attested_listed h e.1
  unfold findAttestationsTargeting
  rw [List.mem_filter,mem_fetch]
  constructor
  · rintro ⟨⟨hm,hg⟩,hp⟩
    obtain ⟨a,ha,hattested⟩ := hlisted.mp hm
    have hsame : a = e.2 := Option.some.inj (ha.symm.trans hg)
    subst hsame
    exact ⟨hg,Option.some.inj hattested,hp⟩
  · rintro ⟨hg,hattested,hp⟩
    exact ⟨⟨hlisted.mpr ⟨e.2,hg,congrArg some hattested⟩,hg⟩,hp⟩

theorem mem_revocations {h : Hash} : e ∈ index.findRevocationsFor h ↔
      index.get e.1 = some e.2 ∧ e.2.attested = h ∧ e.2.kind = some kindRevocation := by
  unfold findRevocationsFor
  rw [mem_targeting,decide_eq_true_eq]

theorem mem_supersedes {h : Hash} : e ∈ index.findAttestationsWithSupersedes h ↔
      index.get e.1 = some e.2 ∧ e.2.supersedes = some h := by
  have hlisted := index.supersedes_listed h e.1
  unfold findAttestationsWithSupersedes
  rw [mem_fetch]
  constructor
  · rintro ⟨hm,hg⟩
    obtain ⟨a,ha,hs⟩ := hlisted.mp hm
    have hsame : a = e.2 := Option.some.inj (ha.symm.trans hg)
    subst hsame
    exact ⟨hg,hs⟩
  · rintro ⟨hg,hs⟩
    exact ⟨hlisted.mpr ⟨e.2,hg,hs⟩,hg⟩

end AttestationIndex

/-! Liveness. -/

section Liveness

variable (index : AttestationIndex) (now : ℕ)

/-- Inside its own validity window. -/
def isSelfValidBasic (att : AttestationData) : Bool :=
  att.expiresAt.all (now < ·) && att.notBefore.all (· ≤ now)

variable (live : Attestation → Option Bool)

/-- A live revocation by the attestation's own party. -/
def selfRevoked (att : Attestation) : Option Bool :=
  anyOpt (fun r => if r.2.attesting = att.2.attesting then live r else some false)
    (index.findRevocationsFor att.1)

/-- The direct successors of one node: the first that counts ends the walk, the others
are pushed. -/
def scanDescendants : List Attestation → List Hash → Option (Visit Bool Hash)
  | [], pushed => some (.more false pushed)
  | d::rest, pushed =>
    if isSelfValidBasic now d.2 then
      match selfRevoked index live d with
      | none => none
      | some false => some (.stop true)
      | some true => scanDescendants rest (pushed++[d.1])
    else scanDescendants rest (pushed++[d.1])

/-- Whether a successor at any distance is inside its window and not self-revoked. -/
def hasValidDescendant (steps : ℕ) (attHash : Hash) : Option Bool :=
  walk id (fun _ h => scanDescendants index now live (index.findAttestationsWithSupersedes h) [])
    steps [attHash] [] false

end Liveness

def isAttestationLive (index : AttestationIndex) (now : ℕ) : ℕ → Attestation → Option Bool
  | 0, _ => none
  | n+1, att =>
    if !isSelfValidBasic now att.2 then some false
    else match selfRevoked index (isAttestationLive index now n) att with
      | none => none
      | some true => some false
      | some false =>
        (hasValidDescendant index now (isAttestationLive index now n) n att.1).map not

section Walks

variable (index : AttestationIndex) (now : ℕ) (steps : ℕ)

/-- The later start wins, then the smaller hash. -/
def betterHead (best : Option Attestation) (e : Attestation) : Option Attestation :=
  match best with
  | none => some e
  | some b =>
    let start (a : Attestation) := a.2.notBefore.getD 0
    if start b < start e ∨ (start b = start e ∧ e.1 < b.1) then some e else some b

/-- The live head of a supersedes chain; dead links in between are walked through. -/
def findLiveHead (start : Attestation) : Option (Option Attestation) :=
  walk Prod.fst (fun best e => (isAttestationLive index now steps e).map fun live =>
    .more (if live then betterHead best e else best) (index.findAttestationsWithSupersedes e.1))
    steps [start] [] none

/-- The live heads of the live attestations about a peer, each once. -/
def collectHeads : List Attestation → List Attestation → Option (List Attestation)
  | [], heads => some heads
  | e::rest, heads => do
    match ← findLiveHead index now steps e with
    | none => collectHeads rest heads
    | some head =>
      if heads.any (·.1 = head.1) then collectHeads rest heads
      else collectHeads rest (heads++[head])

def minByHash : List Attestation → Option Attestation
  | [] => none
  | e::rest => match minByHash rest with
    | none => some e
    | some m => if m.1 < e.1 then some m else some e

/-- What authorises a peer: the smallest live head over any live attestation about it. -/
def defaultFindAuthorizing (peerHash : Hash) : Option (Option Attestation) := do
  let live ← filterOpt (isAttestationLive index now steps)
    (index.findAttestationsTargeting peerHash fun _ => true)
  let heads ← collectHeads index now steps live []
  return minByHash heads

def defaultMaxDepth : ℕ := 32

/-- From an attestation up through what authorises its attesting party, to the first
that ends the walk. -/
def walkAttestingChain (terminate : AttestationData → Bool) :
    ℕ → Attestation → Option (Option (List Attestation))
  | 0, _ => some none
  | depth+1, current =>
    if terminate current.2 then some (some [current])
    else do
      match ← defaultFindAuthorizing index now steps current.2.attesting with
      | none => some none
      | some parent => do
        let rest ← walkAttestingChain terminate depth parent
        return rest.map (current::·)

def walkAttestingChainDefault (terminate : AttestationData → Bool) (start : Attestation) :
    Option (Option (List Attestation)) :=
  walkAttestingChain index now steps terminate defaultMaxDepth start

end Walks

/-! What an answer says. -/

section Answers

variable {index : AttestationIndex} {now n : ℕ}

/-- A live attestation is inside its window and has no live revocation by its own party. -/
theorem isAttestationLive_true (h : isAttestationLive index now n att = some true) :
    isSelfValidBasic now att.2 = true ∧ ∃ m, n = m+1 ∧
      ∀ r ∈ index.findRevocationsFor att.1, r.2.attesting = att.2.attesting →
        isAttestationLive index now m r = some false := by
  cases n with
  | zero => cases h
  | succ m =>
    unfold isAttestationLive at h
    split at h
    · cases h
    · rename_i hbasic
      refine ⟨by simpa using hbasic,m,rfl,?_⟩
      split at h
      · cases h
      · cases h
      · rename_i hrevoked
        intro r hr hparty
        have hr' := anyOpt_false hrevoked r hr
        rw [if_pos hparty] at hr'
        exact hr'

section Extension

variable {live live' : Attestation → Option Bool} (hlive : Extends live live')

include hlive

theorem selfRevoked_extends : Extends (selfRevoked index live) (selfRevoked index live') := by
  intro att b hb
  refine anyOpt_extends ?_ _ b hb
  intro r c hr
  dsimp only at hr ⊢
  split_ifs at hr ⊢
  · exact hlive r c hr
  · exact hr

theorem scanDescendants_extends {ds : List Attestation} {pushed : List Hash} {v : Visit Bool Hash}
    (h : scanDescendants index now live ds pushed = some v) :
    scanDescendants index now live' ds pushed = some v := by
  induction ds generalizing pushed with
  | nil => exact h
  | cons d ds ih =>
    unfold scanDescendants at h ⊢
    split_ifs at h ⊢
    · cases hr : selfRevoked index live d with
      | none =>
        rw [hr] at h
        cases h
      | some b =>
        rw [hr] at h
        rw [selfRevoked_extends hlive d b hr]
        cases b with
        | false => exact h
        | true => exact ih h
    · exact ih h

theorem hasValidDescendant_extends {steps steps' : ℕ} (hs : steps ≤ steps') {h : Hash} {b : Bool}
    (hd : hasValidDescendant index now live steps h = some b) :
    hasValidDescendant index now live' steps' h = some b :=
  walk_extends (fun _ _ _ hv => scanDescendants_extends hlive hv) hs hd

end Extension

/-- More steps answer what fewer answered, and in the same way. -/
theorem isAttestationLive_extends : ∀ {m n : ℕ}, m ≤ n →
    Extends (isAttestationLive index now m) (isAttestationLive index now n) := by
  intro m
  induction m with
  | zero =>
    intro n _ att b hb
    cases hb
  | succ m ih =>
    intro n hn att b hb
    obtain ⟨k,rfl⟩ : ∃ k, n = k+1 := ⟨n-1,by omega⟩
    have hk : m ≤ k := by omega
    have hlive := ih hk
    unfold isAttestationLive at hb ⊢
    split_ifs at hb ⊢
    · exact hb
    · cases hr : selfRevoked index (isAttestationLive index now m) att with
      | none =>
        rw [hr] at hb
        cases hb
      | some c =>
        rw [hr] at hb
        rw [selfRevoked_extends hlive att c hr]
        cases c with
        | true => exact hb
        | false =>
          obtain ⟨d,hd,hdb⟩ := Option.map_eq_some_iff.mp hb
          exact Option.map_eq_some_iff.mpr ⟨d,hasValidDescendant_extends hlive hk hd,hdb⟩

variable (index now) in
/-- With enough steps the answer is yes. -/
def Live (att : Attestation) : Prop := ∃ n, isAttestationLive index now n att = some true

theorem not_live_of_false (h : isAttestationLive index now n att = some false) :
    ¬Live index now att := by
  rintro ⟨m,hm⟩
  have hn := isAttestationLive_extends (Nat.le_max_left n m) att false h
  have hm' := isAttestationLive_extends (Nat.le_max_right n m) att true hm
  rw [hn] at hm'
  cases hm'

/-- No live attestation is revoked by its own party. -/
theorem Live.not_self_revoked (h : Live index now att) {r : Attestation}
    (hr : r ∈ index.findRevocationsFor att.1) (hparty : r.2.attesting = att.2.attesting) :
    ¬Live index now r := by
  obtain ⟨n,hn⟩ := h
  obtain ⟨-,m,-,hrevs⟩ := isAttestationLive_true hn
  exact not_live_of_false (hrevs r hr hparty)

/-- Reached from an attestation by supersedes links forward. -/
inductive Follows (index : AttestationIndex) (start : Attestation) : Attestation → Prop
  | start : Follows index start start
  | next {e d : Attestation} (reached : Follows index start e)
      (supersedes : d ∈ index.findAttestationsWithSupersedes e.1) : Follows index start d

theorem betterHead_cases (best : Option Attestation) (e : Attestation) :
    betterHead best e = best ∨ betterHead best e = some e := by
  unfold betterHead
  cases best with
  | none => exact .inr rfl
  | some b =>
    dsimp only
    split_ifs
    · exact .inr rfl
    · exact .inl rfl

/-- A live head is live and follows the start. -/
theorem findLiveHead_some {steps : ℕ} {start head : Attestation}
    (h : findLiveHead index now steps start = some (some head)) :
    Follows index start head ∧ Live index now head := by
  have hinv : ∀ b, (some head : Option Attestation) = some b →
      Follows index start b ∧ Live index now b := by
    refine walk_invariant (P := Follows index start)
      (I := fun best => ∀ b, best = some b → Follows index start b ∧ Live index now b)
      ?_ ?_ (show ∀ a ∈ [start], Follows index start a from ?_) ?_ h
    · intro best e best' _ _ hvisit
      obtain ⟨live,-,hcase⟩ := Option.map_eq_some_iff.mp hvisit
      cases hcase
    · intro best e best' pushed he hbest hvisit
      obtain ⟨live,hlive,hcase⟩ := Option.map_eq_some_iff.mp hvisit
      obtain ⟨rfl,rfl⟩ := Visit.more.inj hcase
      refine ⟨?_,fun d hd => .next he hd⟩
      intro b hb
      cases live with
      | false => exact hbest b (by simpa using hb)
      | true =>
        rw [if_pos rfl] at hb
        rcases betterHead_cases best e with hsame | hnew
        · exact hbest b (hsame.symm.trans hb)
        · rw [hnew] at hb
          obtain rfl := Option.some.inj hb
          exact ⟨he,steps,hlive⟩
    · intro a ha
      rw [List.mem_singleton] at ha
      exact ha ▸ .start
    · intro b hb
      cases hb
  exact hinv head rfl

/-- Where no live head is found there is none. -/
theorem findLiveHead_none {steps : ℕ} {start : Attestation}
    (hstart : index.get start.1 = some start.2) (h : findLiveHead index now steps start = some none)
    (he : Follows index start e) : ¬Live index now e := by
  have hinj : ∀ a b : Attestation, index.get a.1 = some a.2 → index.get b.1 = some b.2 →
      a.1 = b.1 → a = b := fun a b => AttestationIndex.eq_of_same_hash
  have hstack : ∀ a ∈ [start], index.get a.1 = some a.2 := by simpa using hstart
  have hvisits := walk_visits (F := fun _ => True) (N := fun best => best = none)
    (Q := fun e => isAttestationLive index now steps e = some false)
    (E := fun e d => d ∈ index.findAttestationsWithSupersedes e.1) hinj ?_ ?_ hstack h trivial rfl
  · obtain ⟨-,V,-,hstartV,hvisited⟩ := hvisits
    have hreached : index.get e.1 = some e.2 ∧ e.1 ∈ V := by
      induction he with
      | start => exact ⟨hstart,hstartV start List.mem_cons_self⟩
      | next _ supersedes ih =>
        refine ⟨(AttestationIndex.mem_supersedes.mp supersedes).1,?_⟩
        rcases hvisited _ ih.1 ih.2 with hnil | hedges
        · cases hnil
        · exact hedges.2 _ supersedes
    rcases hvisited e hreached.1 hreached.2 with hnil | hdead
    · cases hnil
    · exact not_live_of_false hdead.1
  · intro s a s' hvisit
    obtain ⟨live,-,hcase⟩ := Option.map_eq_some_iff.mp hvisit
    cases hcase
  · intro s a s' pushed ha hvisit
    obtain ⟨live,hlive,hcase⟩ := Option.map_eq_some_iff.mp hvisit
    obtain ⟨rfl,rfl⟩ := Visit.more.inj hcase
    refine ⟨fun b hb => (AttestationIndex.mem_supersedes.mp hb).1,fun b hb => hb,?_⟩
    intro hnone
    cases live with
    | false => exact ⟨by simpa using hnone,hlive⟩
    | true =>
      rw [if_pos rfl] at hnone
      rcases betterHead_cases s a with hsame | hnew
      · rw [hsame] at hnone
        subst hnone
        cases hsame
      · rw [hnew] at hnone
        cases hnone

end Answers
end EntityCore
