import EntityCore.Attestation
import EntityCore.RequestMint
import EntityCore.RoleHandler

/-! Tokens minted from a capability as parentless roots. The link to the capability is
cut, so the verifier no longer sees its limits; what is left of them is what the handlers
copy into the token. -/
namespace EntityCore

open Ecf Outcome Strings Option

/-! The least of the defined bounds. -/

theorem minDefined_eq_some {bounds : List (Option ℕ)} {e : ℕ} : minDefined bounds = some e ↔
    some e ∈ bounds ∧ ∀ b, some b ∈ bounds → e ≤ b := by
  simp [minDefined,List.min?_eq_some_iff]

theorem minDefined_le {bounds : List (Option ℕ)} {b : ℕ} (h : some b ∈ bounds) :
    ∃ e, minDefined bounds = some e ∧ e ≤ b := by
  cases hm : minDefined bounds with
  | none =>
    have hnil : bounds.filterMap id = [] := List.min?_eq_none_iff.mp hm
    have hmem : b ∈ bounds.filterMap id := List.mem_filterMap.mpr ⟨some b,h,rfl⟩
    rw [hnil] at hmem
    cases hmem
  | some e => exact ⟨e,rfl,(minDefined_eq_some.mp hm).2 b h⟩

/-! The limits of a capability. -/

/-- Inside its own window, as the verifier reads it. -/
structure CapabilityToken.InWindow (t : CapabilityToken) (now : ℕ) : Prop where
  unexpired : ∀ e, t.expiresAt = some e → now < e
  started : ∀ nb, t.notBefore = some nb → nb ≤ now

theorem checkDelegationCaveats_iff (parent child : CapabilityToken) (depth : ℕ) :
    checkDelegationCaveats parent child depth = true ↔
      ∀ dc, parent.delegationCaveats = some dc → dc.noDelegation ≠ some true ∧
        (∀ m, dc.maxDelegationDepth = some m → depth < m) ∧ ∀ ttl, dc.maxDelegationTtl = some ttl →
          ∃ e, child.expiresAt = some e ∧ e-child.createdAt ≤ ttl := by
  unfold checkDelegationCaveats
  cases parent.delegationCaveats with
  | none => simp
  | some dc =>
    simp only [some.injEq,forall_eq']
    by_cases hno : dc.noDelegation = some true
    · simp [hno]
    · rw [if_neg hno]
      cases hm : dc.maxDelegationDepth with
      | none => cases dc.maxDelegationTtl <;> cases child.expiresAt <;> simp [hno]
      | some m =>
        by_cases hd : depth < m
        · cases dc.maxDelegationTtl <;> cases child.expiresAt <;> simp [hno,hd]
        · simp [hno,hd,Nat.le_of_not_lt hd]

variable {X : Platform} {cap t : CapabilityToken}

theorem expires_of_attenuated {child parent : CapabilityToken} {cf pf l : Str}
    (h : isAttenuatedFramed X child parent cf pf l = true) {e : ℕ} (he : parent.expiresAt = some e) :
    ∃ e', child.expiresAt = some e' ∧ e' ≤ e := by
  simp only [isAttenuatedFramed,isAttenuatedInner,he,Bool.and_eq_true] at h
  cases hc : child.expiresAt with
  | none => simp [hc] at h
  | some e' => exact ⟨e',rfl,by simpa [hc] using h.2⟩

/-! Minting. -/

/-- What `request` bounds the expiry of the token by. -/
def CapabilityHandler.requestCeilings (createdAt : ℕ) (callerExp policyTtlMs reqTtlMs : Option ℕ) :
    List (Option ℕ) :=
  let fromTtl := fun ttl => if createdAt+ttl < 2^64 then some (createdAt+ttl) else none
  [callerExp,policyTtlMs.bind fromTtl,reqTtlMs.bind fromTtl]

/-- `t` is minted by the peer `l` as a root from the caller's capability, and `ceilings` are
what bounds its expiry. -/
inductive Rerooted (X : Platform) (l : Str) (cap : CapabilityToken) :
    CapabilityToken → List (Option ℕ) → Prop
  | request {H : CapabilityHandler} {ctx : HandlerContext} {nowMs : ℕ} {s : PeerState}
      {t : CapabilityToken} {author : Hash} {req : CapabilityRequest} (here : H.localPeerId = l)
      (admitted : CapabilityHandler.admitRequest X ctx = .ok (cap,author,req))
      (mints : H.Mints X ctx nowMs s t) :
      Rerooted X l cap t (CapabilityHandler.requestCeilings nowMs cap.expiresAt
        ((H.lookupPolicyEntry X author s).1.bind (·.1.ttlMs)) req.ttlMs)
  | assign {R : RoleHandler} {ctx : RoleContext} {nowMs issuedAt : ℕ} {s : PeerState}
      {issue : RoleIssue} {roleDef : RoleData} (here : R.localPeerId = l)
      (caller : ctx.callerCapability = some cap)
      (approved : R.approveAssign X ctx nowMs s = .ok issue)
      (role : R.readRole X s issue.context issue.role = .ok roleDef) :
      Rerooted X l cap (R.derivedToken issue issuedAt)
        (expiryCeilings (ctx.handlerGrant.bind CapabilityToken.expiresAt)
          (roleMetadataTtl roleDef.metadata) cap.expiresAt nowMs)
  | reDerive {R : RoleHandler} {context role path : Str} {roleDef : RoleData}
      {parentExpires : Option ℕ} {nowMs issuedAt : ℕ} {s : PeerState} {issue : RoleIssue}
      (here : R.localPeerId = l)
      (decided : R.decideReDerive X (some cap) context role roleDef parentExpires nowMs path s =
        .issue issue) :
      Rerooted X l cap (R.derivedToken issue issuedAt)
        (expiryCeilings parentExpires (roleMetadataTtl roleDef.metadata) cap.expiresAt nowMs)

/-- What every minted root has in common: no limit of its own but the expiry, which the
caller's expiry bounds. -/
structure MintedBare (cap t : CapabilityToken) (ceilings : List (Option ℕ)) : Prop where
  granter : ∃ g, t.granter = .single g
  notBefore : t.notBefore = none
  caveats : t.delegationCaveats = none
  expiresAt : t.expiresAt = minDefined ceilings
  caller : cap.expiresAt ∈ ceilings

theorem approveAssign_ok {R : RoleHandler} {ctx : RoleContext} {nowMs : ℕ}
    {s : PeerState} {issue : RoleIssue} (h : R.approveAssign X ctx nowMs s = .ok issue) :
    ∃ roleDef cap, R.readRole X s issue.context issue.role = .ok roleDef ∧
      ctx.callerCapability = some cap ∧
      issue.expiresAt = effectiveExpiresAt (ctx.handlerGrant.bind CapabilityToken.expiresAt)
        (roleMetadataTtl roleDef.metadata) cap.expiresAt nowMs := by
  simp only [RoleHandler.approveAssign,bind_ok,okOr_ok,mapErr_ok,pure_ok] at h
  obtain ⟨_,_,_,_,_,_,_,_,_,_,_,_,roleDef,hrole,_,_,cap,hcap,_,_,_,_,_,_,rfl⟩ := h
  exact ⟨roleDef,cap,hrole,hcap,rfl⟩

theorem decideReDerive_issue {R : RoleHandler}
    {context role path : Str} {roleDef : RoleData} {parentExpires : Option ℕ} {nowMs : ℕ}
    {s : PeerState} {issue : RoleIssue}
    (h : R.decideReDerive X (some cap) context role roleDef parentExpires nowMs path s =
      .issue issue) :
    issue.expiresAt = effectiveExpiresAt parentExpires (roleMetadataTtl roleDef.metadata)
      cap.expiresAt nowMs := by
  unfold RoleHandler.decideReDerive at h
  cases hp : parseAssignmentPath path with
  | none => simp [hp] at h
  | some parsed =>
    cases hg : hashFromPeerSegment parsed.peerId with
    | none =>
      simp only [hp,hg] at h
      split_ifs at h
    | some grantee =>
      simp only [hp,hg] at h
      split_ifs at h
      obtain rfl := RoleHandler.ReDeriveDecision.issue.inj h
      rfl

theorem Rerooted.bare {l : Str}
    {ceilings : List (Option ℕ)} (h : Rerooted X l cap t ceilings) : MintedBare cap t ceilings := by
  cases h with
  | @request H ctx nowMs s t author req here admitted mints =>
    have happ := mints.1
    unfold CapabilityHandler.approveRequest at happ
    simp only [admitted] at happ
    rcases hpolicy : H.lookupPolicyEntry X author s with ⟨policy,s'⟩
    rw [hpolicy] at happ
    dsimp only at happ
    split_ifs at happ
    obtain rfl := Except.ok.inj happ
    exact ⟨⟨_,rfl⟩,rfl,rfl,rfl,by simp [CapabilityHandler.requestCeilings]⟩
  | assign here caller approved role =>
    obtain ⟨roleDef',cap',hrole,hcap,hexp⟩ := approveAssign_ok approved
    obtain rfl := Except.ok.inj (role.symm.trans hrole)
    obtain rfl := some.inj (caller.symm.trans hcap)
    exact ⟨⟨_,rfl⟩,rfl,rfl,hexp,by simp [expiryCeilings]⟩
  | reDerive here decided =>
    exact ⟨⟨_,rfl⟩,rfl,rfl,decideReDerive_issue decided,by simp [expiryCeilings]⟩

/-! Limits that survive. -/

/-- Two ways to restore the cut link: under the minted token, or in its place, so that the
delegation on top of it hangs under the caller's capability. -/
inductive Restored where
  | under | inPlace
  deriving DecidableEq

namespace Restored

/-- The caveats of the capability, checked where the restored link comes to stand: `c` is the
delegation that stands at `depth`, right on top of the minted token `t`. -/
def respects (w : Restored) (cap t c : CapabilityToken) (depth : ℕ) : Bool :=
  match w with
  | .under => checkDelegationCaveats cap t (depth+1)
  | .inPlace => checkDelegationCaveats cap c depth

/-- No chain is long enough to pass a depth limit from here on. -/
def reach : Restored → ℕ
  | .under => maxChainDepth+1
  | .inPlace => maxChainDepth

/-- The earliest issue the lifetime can be counted from; nothing bounds it for a delegation. -/
def since (w : Restored) (t : CapabilityToken) : ℕ :=
  match w with
  | .under => t.createdAt
  | .inPlace => 0

end Restored

/-- What the verifier asks of a delegation `c` of `t` at a depth, beside signatures. -/
structure Accepts (X : Platform) (l : Str) (t c : CapabilityToken) (depth : ℕ) : Prop where
  reachable : depth < maxChainDepth
  narrows : ∃ frame, isAttenuatedFramed X c t frame l l = true
  caveats : checkDelegationCaveats t c depth = true

structure KeepsLimits (X : Platform) (l : Str) (w : Restored) (cap t : CapabilityToken) : Prop where
  window : ∀ now, t.InWindow now → cap.InWindow now
  caveats : ∀ c depth, Accepts X l t c depth → w.respects cap t c depth = true

/-- The capability has no limit that the expiry of the token does not already impose. -/
structure NothingToLaunder (w : Restored) (cap t : CapabilityToken) (ceilings : List (Option ℕ)) :
    Prop where
  started : ∀ nb, cap.notBefore = some nb → nb = 0 ∨ some 0 ∈ ceilings
  delegable : ∀ dc, cap.delegationCaveats = some dc → dc.noDelegation ≠ some true
  deep : ∀ dc m, cap.delegationCaveats = some dc → dc.maxDelegationDepth = some m → w.reach ≤ m
  lasting : ∀ dc ttl, cap.delegationCaveats = some dc → dc.maxDelegationTtl = some ttl →
    ∃ e, some e ∈ ceilings ∧ e-w.since t ≤ ttl

section Limits

variable {X : Platform} {l : Str} {w : Restored} {cap t : CapabilityToken}
  {ceilings : List (Option ℕ)} (hbare : MintedBare cap t ceilings)

include hbare

theorem MintedBare.window_iff : (∀ now, t.InWindow now → cap.InWindow now) ↔
    ∀ nb, cap.notBefore = some nb → nb = 0 ∨ some 0 ∈ ceilings := by
  constructor
  · intro h nb hnb
    by_cases hzero : some 0 ∈ ceilings
    · exact Or.inr hzero
    · have hin : t.InWindow 0 := by
        refine ⟨fun e he => ?_,fun nb hnb => ?_⟩
        · rw [hbare.expiresAt,minDefined_eq_some] at he
          rcases Nat.eq_zero_or_pos e with rfl | hpos
          · exact absurd he.1 hzero
          · exact hpos
        · rw [hbare.notBefore] at hnb
          cases hnb
      exact Or.inl (Nat.le_zero.mp ((h 0 hin).started nb hnb))
  · intro h now hin
    have hleast : ∀ b, some b ∈ ceilings → now < b := by
      intro b hb
      obtain ⟨e,he,hle⟩ := minDefined_le hb
      exact lt_of_lt_of_le (hin.unexpired e (hbare.expiresAt.trans he)) hle
    refine ⟨fun e he => hleast e (he ▸ hbare.caller),fun nb hnb => ?_⟩
    rcases h nb hnb with rfl | hzero
    · exact Nat.zero_le _
    · exact absurd (hleast 0 hzero) (Nat.not_lt_zero _)

/-- A delegation that passes on nothing, as long as the token allows. -/
theorem MintedBare.accepts (c : CapabilityToken) (hg : c.grants = []) (he : c.expiresAt = t.expiresAt)
    {depth : ℕ} (hd : depth < maxChainDepth) : Accepts X l t c depth := by
  refine ⟨hd,⟨l,?_⟩,?_⟩
  · cases hexp : t.expiresAt <;> simp [isAttenuatedFramed,isAttenuatedInner,hg,he,hexp]
  · simp [checkDelegationCaveats,hbare.caveats]

theorem MintedBare.caveats_iff :
    (∀ c depth, Accepts X l t c depth → w.respects cap t c depth = true) ↔
      ∀ dc, cap.delegationCaveats = some dc → dc.noDelegation ≠ some true ∧
        (∀ m, dc.maxDelegationDepth = some m → w.reach ≤ m) ∧
        ∀ ttl, dc.maxDelegationTtl = some ttl → ∃ e, some e ∈ ceilings ∧ e-w.since t ≤ ttl := by
  constructor
  · intro h dc hdc
    -- the delegation issued at time zero that runs as long as the token does
    let c : CapabilityToken := ⟨[],.single t.grantee,t.grantee,none,0,t.expiresAt,none,none⟩
    have hall : ∀ depth < maxChainDepth, w.respects cap t c depth = true := fun depth hd =>
      h c depth (hbare.accepts c rfl rfl hd)
    have hends : ∀ ttl, (∃ e, t.expiresAt = some e ∧ e-w.since t ≤ ttl) →
        ∃ e, some e ∈ ceilings ∧ e-w.since t ≤ ttl := by
      rintro ttl ⟨e,he,hle⟩
      rw [hbare.expiresAt,minDefined_eq_some] at he
      exact ⟨e,he.1,hle⟩
    cases w with
    | under =>
      have hat := fun depth hd => (checkDelegationCaveats_iff cap t (depth+1)).mp (hall depth hd) dc hdc
      have hzero := hat 0 (by decide)
      refine ⟨hzero.1,fun m hm => ?_,fun ttl httl => hends ttl (hzero.2.2 ttl httl)⟩
      have hlast := (hat (maxChainDepth-1) (by decide)).2.1 m hm
      have hreach : Restored.reach .under = maxChainDepth-1+1+1 := rfl
      omega
    | inPlace =>
      have hat := fun depth hd => (checkDelegationCaveats_iff cap c depth).mp (hall depth hd) dc hdc
      have hzero := hat 0 (by decide)
      refine ⟨hzero.1,fun m hm => ?_,fun ttl httl => hends ttl (hzero.2.2 ttl httl)⟩
      have hlast := (hat (maxChainDepth-1) (by decide)).2.1 m hm
      have hreach : Restored.reach .inPlace = maxChainDepth-1+1 := rfl
      omega
  · intro h c depth hacc
    have hdepth := hacc.reachable
    cases w with
    | under =>
      refine (checkDelegationCaveats_iff cap t (depth+1)).mpr fun dc hdc => ?_
      obtain ⟨hno,hdeep,hlast⟩ := h dc hdc
      refine ⟨hno,fun m hm => ?_,fun ttl httl => ?_⟩
      · have hreach : Restored.reach .under = maxChainDepth+1 := rfl
        have hm := hdeep m hm
        omega
      · obtain ⟨b,hb,hle⟩ := hlast ttl httl
        obtain ⟨e,he,heb⟩ := minDefined_le hb
        refine ⟨e,hbare.expiresAt.trans he,?_⟩
        have hsince : Restored.since .under t = t.createdAt := rfl
        omega
    | inPlace =>
      refine (checkDelegationCaveats_iff cap c depth).mpr fun dc hdc => ?_
      obtain ⟨hno,hdeep,hlast⟩ := h dc hdc
      refine ⟨hno,fun m hm => ?_,fun ttl httl => ?_⟩
      · have hreach : Restored.reach .inPlace = maxChainDepth := rfl
        have hm := hdeep m hm
        omega
      · obtain ⟨b,hb,hle⟩ := hlast ttl httl
        obtain ⟨e,he,heb⟩ := minDefined_le hb
        obtain ⟨frame,hatt⟩ := hacc.narrows
        obtain ⟨e',he',hle'⟩ := expires_of_attenuated hatt (hbare.expiresAt.trans he)
        refine ⟨e',he',?_⟩
        have hsince : Restored.since .inPlace t = 0 := rfl
        omega

end Limits

/-- Every accepted chain that ends in the token keeps within the caveats of the capability
once the cut link is restored. -/
def ChainsRespect (X : Platform) (l : Str) (w : Restored) (cap t : CapabilityToken) : Prop :=
  ∀ included leaf now chain i link root c, verifyCapabilityChain X leaf included l now = .ok () →
    collectAuthorityChain X leaf included.get = .ok chain →
    chain[i]? = some link → chain[i+1]? = some root → chain.length = i+2 →
    CapabilityToken.fromEntity X root.entity = .ok t →
    CapabilityToken.fromEntity X link.entity = .ok c → w.respects cap t c i = true

/-- What an accepted chain says of the delegation right on top of its root. -/
theorem accepts_of_chain {l : Str} {included : Included} {leaf : Hash} {now i : ℕ}
    {chain : List Link} {link root : Link} {c : CapabilityToken}
    (hacc : verifyCapabilityChain X leaf included l now = .ok ())
    (hwalk : collectAuthorityChain X leaf included.get = .ok chain)
    (hlink : chain[i]? = some link) (hroot : chain[i+1]? = some root) (hlen : chain.length = i+2)
    (ht : CapabilityToken.fromEntity X root.entity = .ok t)
    (hc : CapabilityToken.fromEntity X link.entity = .ok c) : Accepts X l t c i := by
  obtain ⟨_,chain',hwalk',_,_,_,_,hm,hl⟩ := verifyCapabilityChain_ok.mp hacc
  obtain rfl : chain = chain' := Except.ok.inj (hwalk.symm.trans hwalk')
  obtain ⟨_,hf⟩ := collectFrom_links hwalk
  have hshort := (parentLinks_of_collect hwalk).2
  have hdel := delegated_of_levels (verifyLevels_delegates hf hm hl) hl i link root hlink hroot
  rw [Nat.zero_add] at hdel
  have hlast : chain.getLast? = some root := by
    rw [List.getLast?_eq_getElem?,hlen]
    exact hroot
  obtain ⟨c',t',frame,frameAbove,hc',ht',_,habove,hatt,hcav⟩ := hdel.narrows
  obtain rfl := Except.ok.inj (hc.symm.trans hc')
  obtain rfl := Except.ok.inj (ht.symm.trans ht')
  obtain rfl := some.inj (habove.symm.trans (verifyLevels_root hl root hlast))
  exact ⟨by omega,⟨frame,hatt⟩,hcav⟩

theorem KeepsLimits.chains {l : Str} {w : Restored}
    (h : KeepsLimits X l w cap t) : ChainsRespect X l w cap t := by
  intro included leaf now chain i link root c hacc hwalk hlink hroot hlen ht hc
  exact h.caveats c i (accepts_of_chain hacc hwalk hlink hroot hlen ht hc)

/-- The limits of the caller's capability outlive the mint exactly when the expiry of the
token already imposes them; while they do, every accepted chain keeps within them. -/
theorem rerooting_keeps_limits_iff (X : Platform) (l : Str) (cap t : CapabilityToken)
    (ceilings : List (Option ℕ)) (h : Rerooted X l cap t ceilings) (w : Restored) :
    (KeepsLimits X l w cap t ↔ NothingToLaunder w cap t ceilings) ∧
      (KeepsLimits X l w cap t → ChainsRespect X l w cap t) := by
  have hbare := h.bare
  refine ⟨⟨fun hk => ?_,fun hn => ?_⟩,KeepsLimits.chains⟩
  · have hcav := (hbare.caveats_iff (X := X) (l := l) (w := w)).mp hk.caveats
    exact ⟨hbare.window_iff.mp hk.window,fun dc hdc => (hcav dc hdc).1,
      fun dc m hdc => (hcav dc hdc).2.1 m,fun dc ttl hdc => (hcav dc hdc).2.2 ttl⟩
  · exact ⟨hbare.window_iff.mpr hn.started,hbare.caveats_iff.mpr fun dc hdc =>
      ⟨hn.delegable dc hdc,fun m => hn.deep dc m hdc,fun ttl => hn.lasting dc ttl hdc⟩⟩

/-! Alice lets Bob read `app` and nobody after him. Bob asks her for the same grant, and
passes what she mints on to Carol. -/
namespace RerootSample

open Sample ByteCode

def heldValue : Value := .map [(txt "created_at",uint 1),
  (txt "delegation_caveats",.map [(txt "no_delegation",.bool true)]),
  (txt "grantee",.bytes bob.contentHash.toBytes),(txt "granter",.bytes alice.contentHash.toBytes),
  (txt "grants",.array [appGrant])]
def held := entity "system/capability/token" heldValue
  0x105add7e834a96b34904b88b3d0195bc8a6ee3ef986aa7e075bd0a70fb8ac1df
def heldSig := beBytes 64
  0xf75d7c3cd5ff07cdde8991f3ebd7344f547ac22ac78fc50ea8a8d2adaa566ea94f0d0daa6d299575ea5e395c2a8666d9c5e6cfbbd85082c2106c906da98afc0d
def heldSigValue := sigValue held.contentHash alice.contentHash heldSig

def freshValue := tokenValue 20 alice.contentHash bob.contentHash [appGrant] []
def fresh := entity "system/capability/token" freshValue
  0xa1006106f5d9902f62427a40efeea21f6c636a7bc897d3e3ec65094b432f9e9e
def freshSig := beBytes 64
  0x4425116da7d0e1b26412597e5245e7fc410d0a507da80bb27565564943768bf2c944cf036814d7300e829831cd38b6f7294cdeef87709287d01e0f990f01040c
def freshSigValue := sigValue fresh.contentHash alice.contentHash freshSig

def passedValue := tokenValue 21 bob.contentHash carol.contentHash [grantValue ["system/tree"]
  ["/2KLeKgPNCREZfM5XY9MPVcZA61Xz8d8e7wb5LCaCf3Hz68/app/*"] ["get"]] [fresh.contentHash]
def passed := entity "system/capability/token" passedValue
  0x19bc9591fd9c412b64a166389bac26b9503f133cbd7a523cb4d226946d8312e2
def passedSig := beBytes 64
  0x15ec4a894fd5fed1dc57d67894dfb8427da81dc1230bc326c40df30d9b3f785581f6a0b829ce12bd49eefc3b98f130646108d8879a86912eb5b312aa31855204
def passedSigValue := sigValue passed.contentHash bob.contentHash passedSig

def shown : Included := OrderedMap.ofList ([alice,bob,carol,held,fresh,passed,
  entity "system/signature" heldSigValue
    0xeb086ce0558e3326697e0b203e10e733e71092c51afa507f22d3beceb1503dc2,
  entity "system/signature" freshSigValue
    0xcb0d6842f46fa6fb5ba8e638d0ecddfb46931745804cae545b0060d93c90cb2c,
  entity "system/signature" passedSigValue
    0x5281081ab70e81337b703bf2ddfcee07aae5cfd21b40e63092cb87711f7c9924].map
  fun e => (e.contentHash,e))

def crates := platform
  [peerValue aliceKey,peerValue bobKey,peerValue carolKey,heldValue,freshValue,passedValue,
    heldSigValue,freshSigValue,passedSigValue,askValue]
  [(ecfForHash typeCapToken (toEcf freshValue),
      0xa1006106f5d9902f62427a40efeea21f6c636a7bc897d3e3ec65094b432f9e9e),
    (ecfForHash typeSignature (toEcf freshSigValue),
      0xcb0d6842f46fa6fb5ba8e638d0ecddfb46931745804cae545b0060d93c90cb2c),
    (ecfForHash typeCapGrant (toEcf (.map [(txt "token",.bytes fresh.contentHash.toBytes)])),
      0x410d792181ec1cddfa705fe43bde6787ea7edd81e09d2f164c1b251ab78e3188)]
  [(aliceKey,held.contentHash.toBytes,heldSig),(aliceKey,fresh.contentHash.toBytes,freshSig),
    (bobKey,passed.contentHash.toBytes,passedSig)]

def mint : CapabilityHandler := ⟨aliceId,alice.contentHash,alice,"ed25519".toList,
  fun m => if m = fresh.contentHash.toBytes then freshSig else []⟩

def bobAsks (cap : CapabilityToken) : HandlerContext := ⟨some cap,some bob.contentHash,ask⟩

/-- A grant without constraints and allowances. -/
structure PlainGrant where
  handlers : PathScope
  resources : PathScope
  operations : IdScope
  peers : Option IdScope
  deriving DecidableEq

def PlainGrant.grant (g : PlainGrant) : GrantEntry :=
  ⟨g.handlers,g.resources,g.operations,g.peers,none,none⟩

def plainGrant (g : GrantEntry) : Option PlainGrant :=
  if g.constraints.isNone ∧ g.allowances.isNone then
    some ⟨g.handlers,g.resources,g.operations,g.peers⟩
  else none

theorem grant_plainGrant {g : GrantEntry} {p : PlainGrant} (h : plainGrant g = some p) :
    g = p.grant := by
  obtain ⟨_,_,_,_,c,a⟩ := g
  simp only [plainGrant,ite_none_right_eq_some,isNone_iff_eq_none, some.injEq] at h
  obtain ⟨⟨rfl,rfl⟩,rfl⟩ := h
  rfl

theorem map_grant {gs : List GrantEntry} {ps : List PlainGrant} (h : gs.mapM plainGrant = some ps) :
    gs = ps.map PlainGrant.grant := by
  induction gs generalizing ps with
  | nil =>
    obtain rfl := some.inj h
    rfl
  | cons g gs ih =>
    simp only [List.mapM_cons,bind_eq_bind,bind_eq_some_iff,pure_def, some.injEq] at h
    obtain ⟨x,hx,xs,hxs,rfl⟩ := h
    rw [List.map_cons,← grant_plainGrant hx,← ih hxs]

/-- A token of such grants is told by its grants and its other fields. -/
def sameToken (a b : CapabilityToken) : Bool :=
  (a.grants.mapM plainGrant).isSome && decide (a.grants.mapM plainGrant = b.grants.mapM plainGrant ∧
    a.granter = b.granter ∧ a.grantee = b.grantee ∧ a.parent = b.parent ∧
    a.createdAt = b.createdAt ∧ a.expiresAt = b.expiresAt ∧ a.notBefore = b.notBefore ∧
    a.delegationCaveats = b.delegationCaveats)

theorem eq_of_sameToken {a b : CapabilityToken} (h : sameToken a b = true) : a = b := by
  simp only [sameToken,Bool.and_eq_true,decide_eq_true_eq] at h
  obtain ⟨hsome,hgrants,h₁,h₂,h₃,h₄,h₅,h₆,h₇⟩ := h
  obtain ⟨ps,hps⟩ := isSome_iff_exists.mp hsome
  have hga := map_grant hps
  have hgb := map_grant (hgrants.symm.trans hps)
  cases a
  cases b
  simp only at hga hgb h₁ h₂ h₃ h₄ h₅ h₆ h₇
  rw [hga,hgb,h₁,h₂,h₃,h₄,h₅,h₆,h₇]

/-- What the sample shows, as one check. -/
def launders (cap : CapabilityToken) : Bool :=
  let request := CapabilityHandler.admitRequest crates (bobAsks cap)
  let minted := (mint.approveRequest crates (bobAsks cap) 20 peerWithout).1
  let read := CapabilityToken.fromEntity crates fresh
  request.toOption.isSome && (mint.handleRequest crates (bobAsks cap) 20 peerWithout).1.isOk &&
  (minted.toOption.any fun t => read.toOption.any (sameToken t)) &&
  cap.delegationCaveats.any fun dc => dc.noDelegation = some true

/-- The chain that Carol shows: Bob's delegation on top of the minted token. -/
def chain : List Link :=
  [⟨passed,⟨.single bob.contentHash,carol.contentHash,some fresh.contentHash,none,none⟩⟩,
    ⟨fresh,⟨.single alice.contentHash,bob.contentHash,none,none,none⟩⟩]

/-- What is held and what is passed on verify, and the one is minted from the other. -/
theorem evaluated_reroot :
    (CapabilityToken.fromEntity crates held).toOption.any launders = true ∧
    (CapabilityToken.fromEntity crates passed).toOption.any (fun _ => true) = true ∧
    shown.get held.contentHash = some held ∧
    verifyCapabilityChain crates held.contentHash shown aliceId 20 = .ok () ∧
    verifyCapabilityChain crates passed.contentHash shown aliceId 30 = .ok () ∧
    collectAuthorityChain crates passed.contentHash shown.get = .ok chain := by decide +kernel

theorem held_rerooted : ∃ cap t ceilings dc, CapabilityToken.fromEntity crates held = .ok cap ∧
    Rerooted crates aliceId cap t ceilings ∧ CapabilityToken.fromEntity crates fresh = .ok t ∧
    cap.delegationCaveats = some dc ∧ dc.noDelegation = some true := by
  obtain ⟨cap,hcap,hfacts⟩ := exists_ok_of_any evaluated_reroot.1
  simp only [launders,Bool.and_eq_true] at hfacts
  obtain ⟨⟨⟨hreq,hok⟩,hmint⟩,hforbid⟩ := hfacts
  obtain ⟨dc,hdc,hno⟩ := (any_eq_true _ _).mp hforbid
  obtain ⟨t,ht,hsame⟩ := exists_ok_of_any hmint
  obtain ⟨t',ht',heq⟩ := exists_ok_of_any hsame
  obtain rfl := eq_of_sameToken heq
  cases hadm : CapabilityHandler.admitRequest crates (bobAsks cap) with
  | error failure => simp [hadm,Except.toOption] at hreq
  | ok admitted =>
    obtain ⟨cap',author,req⟩ := admitted
    obtain rfl := some.inj (CapabilityHandler.admitRequest_caller hadm)
    exact ⟨cap,t,_,dc,hcap,.request (H := mint) rfl hadm ⟨ht,hok⟩,ht',hdc,by simpa using hno⟩

theorem forbidden_in_place {c : CapabilityToken} {dc : DelegationCaveats} {depth : ℕ}
    (hdc : cap.delegationCaveats = some dc) (hno : dc.noDelegation = some true) :
    checkDelegationCaveats cap c depth = false := by
  simp [checkDelegationCaveats,hdc,hno]

end RerootSample

open RerootSample

/-- Bob's capability verifies and forbids delegation; the token minted from it is delegated to
Carol in a chain that verifies. -/
theorem rerooting_launders : ¬ ∃ w : Restored, ∀ (X : Platform) (l : Str) (carried : Included)
    (capHash : Hash) (capEntity : Entity) (cap t : CapabilityToken) (ceilings : List (Option ℕ))
    (mintedAt : ℕ), verifyCapabilityChain X capHash carried l mintedAt = .ok () →
    carried.get capHash = some capEntity → CapabilityToken.fromEntity X capEntity = .ok cap →
    Rerooted X l cap t ceilings →
    (∀ now, t.InWindow now → cap.InWindow now) ∧ ChainsRespect X l w cap t := by
  intro ⟨w,h⟩
  obtain ⟨cap,t,ceilings,dc,hcap,hre,ht,hdc,hno⟩ := held_rerooted
  obtain ⟨-,hreads,hget,hheld,hpassed,hwalk⟩ := evaluated_reroot
  obtain ⟨c,hc,-⟩ := exists_ok_of_any hreads
  have hresp := (h crates Sample.aliceId shown held.contentHash held cap t ceilings 20 hheld
    hget hcap hre).2 shown passed.contentHash 30 chain 0 _ _ c hpassed hwalk rfl rfl
    rfl ht hc
  cases w with
  | under => exact absurd hresp (by simp [Restored.respects,forbidden_in_place hdc hno])
  | inPlace => exact absurd hresp (by simp [Restored.respects,forbidden_in_place hdc hno])

theorem rerooting_keeps_limits_iff_sample : ∃ cap t, CapabilityToken.fromEntity crates held = .ok cap ∧
    CapabilityToken.fromEntity crates fresh = .ok t ∧
    ¬ KeepsLimits crates Sample.aliceId .inPlace cap t := by
  obtain ⟨cap,t,ceilings,dc,hcap,hre,ht,hdc,hno⟩ := held_rerooted
  refine ⟨cap,t,hcap,ht,fun hk => ?_⟩
  have hnothing := (rerooting_keeps_limits_iff crates Sample.aliceId cap t ceilings hre .inPlace).1.mp hk
  exact hnothing.delegable dc hdc hno

end EntityCore
