import EntityCore.Attestation
import EntityCore.TokenDecoders

/-! How long a delegated capability lives. A caveat on the lifetime of delegations is
compared with the times a child claims; what the verifier accepts is bounded by the times
of all links. -/
namespace EntityCore

open Ecf Outcome

variable {X : Platform}

/-- What the verifier asks of a collected chain at any time. -/
structure SoundChain (X : Platform) (included : Included) (localPeerId : Str) (chain : List Link) :
    Prop where
  bound : verifyIncludedKeyBinding included = .ok ()
  formats : checkFormats chain = .ok ()
  grantees : ∀ link ∈ chain, checkGrantee included link = .ok ()
  patterns : ∀ link ∈ chain, checkScopePatterns X link = .ok ()
  positions : checkMultiPositions chain = .ok ()
  levels : verifyLevels X included localPeerId 0 chain = .ok ()

/-- The latest time a link of the chain starts to hold. -/
def latestStart (chain : List Link) : ℕ := (chain.filterMap (·.fields.notBefore)).foldr max 0

theorem latestStart_le (chain : List Link) (t : ℕ) :
    latestStart chain ≤ t ↔ ∀ link ∈ chain, ∀ n, link.fields.notBefore = some n → n ≤ t := by
  induction chain with
  | nil => simp [latestStart]
  | cons link rest ih =>
    unfold latestStart at ih ⊢
    cases hn : link.fields.notBefore with
    | none =>
      simp only [List.filterMap_cons,hn,ih]
      simp [hn]
    | some n =>
      simp only [List.filterMap_cons,hn,List.foldr_cons,max_le_iff,ih]
      simp [hn]

/-- A chain is accepted from its latest start to its earliest expiry. -/
theorem accepted_iff_window {included : Included} {localPeerId : Str} {capabilityHash : Hash}
    {chain : List Link} (hchain : collectAuthorityChain X capabilityHash included.get = .ok chain)
    (now : ℕ) : verifyCapabilityChain X capabilityHash included localPeerId now = .ok () ↔
      SoundChain X included localPeerId chain ∧ latestStart chain ≤ now ∧
        ∀ link ∈ chain, ∀ e, link.fields.expiresAt = some e → now < e := by
  rw [verifyCapabilityChain_ok]
  constructor
  · rintro ⟨hbound,chain',hc,hformats,hgrantees,htemporal,hpatterns,hpositions,hlevels⟩
    obtain rfl : chain = chain' := Except.ok.inj (hchain.symm.trans hc)
    simp only [checkTemporal_ok] at htemporal
    refine ⟨⟨hbound,hformats,hgrantees,hpatterns,hpositions,hlevels⟩,?_,?_⟩
    · exact (latestStart_le chain now).mpr fun link hl => (htemporal link hl).2
    · exact fun link hl => (htemporal link hl).1
  · rintro ⟨hsound,hstart,hexpiry⟩
    refine ⟨hsound.bound,chain,hchain,hsound.formats,hsound.grantees,?_,hsound.patterns,
      hsound.positions,hsound.levels⟩
    intro link hl
    exact (checkTemporal_ok link).mpr ⟨hexpiry link hl,(latestStart_le chain now).mp hstart link hl⟩

/-- A link under a bounded delegation has an expiry. -/
theorem child_expires {included : Included} {localPeerId : Str} {chain below above : List Link}
    {child parent : Link} (hsound : SoundChain X included localPeerId chain)
    (hdecoded : ∀ link ∈ chain, decodeCapabilityChainFields X link.entity.data = .ok link.fields)
    (hchain : chain = below++child::parent::above) {token : CapabilityToken} {ttl : ℕ}
    (htoken : CapabilityToken.fromEntity X parent.entity = .ok token)
    (httl : token.delegationCaveats.bind (·.maxDelegationTtl) = some ttl) :
    ∃ e, child.fields.expiresAt = some e := by
  subst hchain
  have hdelegates := verifyLevels_delegates hdecoded hsound.positions hsound.levels
  have hpair : Delegates X included localPeerId child parent := by
    have htail := hdelegates.right_of_append
    exact (List.isChain_cons_cons.mp htail).1
  obtain ⟨g,hg⟩ := hpair.single
  obtain ⟨i,hlevel⟩ := hpair.checked
  simp only [verifyLevel,hg,bind_ok] at hlevel
  obtain ⟨identity,-,hdelegation⟩ := hlevel
  simp only [verifyDelegation,bind_ok,mapErr_ok,ensure_ok] at hdelegation
  obtain ⟨_,-,childToken,hchild,parentToken,hparent,_,-,_,-,hcaveats⟩ := hdelegation
  obtain rfl : token = parentToken := Except.ok.inj (htoken.symm.trans hparent)
  have hfields := fields_of_token hchild hpair.child.decoded
  obtain ⟨caveats,hsome,hcap⟩ := Option.bind_eq_some_iff.mp httl
  cases he : childToken.expiresAt with
  | some e => exact ⟨e,by rw [hfields,he]⟩
  | none =>
    simp only [checkDelegationCaveats,hsome,hcap,he] at hcaveats
    split_ifs at hcaveats

/-- A caveat bounds the time over which a chain under it is accepted exactly when the chain
is never sound or some link expires in time after the latest start. -/
theorem delegation_lifetime_iff (X : Platform) (included : Included) (capabilityHash : Hash)
    (localPeerId : Str) (below above : List Link) (child parent : Link)
    (hchain : collectAuthorityChain X capabilityHash included.get =
      .ok (below++child::parent::above))
    (token : CapabilityToken) (htoken : CapabilityToken.fromEntity X parent.entity = .ok token)
    (ttl : ℕ) (httl : token.delegationCaveats.bind (·.maxDelegationTtl) = some ttl) :
    (∀ t₁ t₂, t₁ ≤ t₂ → verifyCapabilityChain X capabilityHash included localPeerId t₁ = .ok () →
      verifyCapabilityChain X capabilityHash included localPeerId t₂ = .ok () → t₂-t₁ ≤ ttl) ↔
    (SoundChain X included localPeerId (below++child::parent::above) →
      ∃ link ∈ below++child::parent::above, ∃ e, link.fields.expiresAt = some e ∧
        e ≤ latestStart (below++child::parent::above)+ttl+1) := by
  simp only [accepted_iff_window hchain]
  constructor
  · intro hbound hsound
    by_contra hlate
    push Not at hlate
    have hdecoded := (collectFrom_links hchain).2
    obtain ⟨e,he⟩ := child_expires hsound hdecoded rfl htoken httl
    set start := latestStart (below++child::parent::above) with hstart
    have hfirst : ∀ link ∈ below++child::parent::above, ∀ e, link.fields.expiresAt = some e →
        start < e := by
      intro link hl e he
      have := hlate link hl e he
      omega
    have hgap := hbound start (start+ttl+1) (by omega) ⟨hsound,le_rfl,hfirst⟩
      ⟨hsound,by omega,hlate⟩
    omega
  · rintro hwindow t₁ t₂ - ⟨hsound,hstart,-⟩ ⟨-,-,hexpiry⟩
    obtain ⟨link,hl,e,he,hle⟩ := hwindow hsound
    have hbefore := hexpiry link hl e he
    omega

/-! Alice lets Bob delegate for at most one second. Bob dates a token half an hour ahead and
lets it expire half a second later: the token holds from now on. -/
namespace Sample

open ByteCode

/-- Bob's child of `parent`, dated 2000000 and expiring at 2000500. -/
def datedValue (parent : Hash) (notBefore : List (Fin (2^63))) : Value :=
  .map ([(txt "created_at",uint 2000000),(txt "expires_at",uint 2000500),
    (txt "grantee",.bytes carol.contentHash.toBytes),(txt "granter",.bytes bob.contentHash.toBytes),
    (txt "grants",.array [grantValue ["system/tree"]
      ["/2KLeKgPNCREZfM5XY9MPVcZA61Xz8d8e7wb5LCaCf3Hz68/app/*"] ["get"]]),
    (txt "parent",.bytes parent.toBytes)]++notBefore.map fun n => (txt "not_before",uint n))

def cappedValue : Value :=
  .map [(txt "created_at",uint 1),(txt "grantee",.bytes bob.contentHash.toBytes),
    (txt "granter",.bytes alice.contentHash.toBytes),
    (txt "grants",.array [grantValue ["*"] ["*"] ["*"]]),
    (txt "delegation_caveats",.map [(txt "max_delegation_ttl",uint 1000)])]
def capped := entity "system/capability/token" cappedValue
  0x3a6aa03e5faa3bdf7daedd3eb2adbb9a1ec2b8d435d1446fcc47a4d184bc2121
def cappedSig := beBytes 64
  0xd8ae62cab9b1debf718df01e081605ce0407cc021154e9e98adb3bf45f5458bf65724c83f04bf4688d0a1bc5dc045e669faa4d91fbd82409333e5eb1fc85a208
def cappedSigEntity := entity "system/signature"
  (sigValue capped.contentHash alice.contentHash cappedSig)
  0x990e2d2d33f8f1459d45e314e6409eaf9cacb6a466c8577c9cfba57695b1cccf

def ahead := entity "system/capability/token" (datedValue capped.contentHash [])
  0xdb4ae898bcb8be0b22357f9fb88e52fc6faa1c72cca4a13cc74065b29cfcdf89
def aheadSig := beBytes 64
  0xa0591dfdd5884c221fad6e460c83384391422c0576d2838b6de315e144f81f8a2511597ba63f7cf6a96e455e8cc6c1aec03c9f524f25157ff9d78a4231e9ea0d
def aheadSigEntity := entity "system/signature"
  (sigValue ahead.contentHash bob.contentHash aheadSig)
  0xd035d2fa76b7267f901772bf0d7750040a72262af51459cd53ab86fc029e6b08

def started := entity "system/capability/token" (datedValue capped.contentHash [2000000])
  0xa016ab37d3fd43f939d08b346b927c7c2960014c0793d077ce2ea4230a21bd82
def startedSig := beBytes 64
  0xc83737a8eaf46606f1d79cee27210e745aace39f0bcb40256d4fd7631fe5e6dbb11fb9b569d91af7393bc9c4a693cd854a665c536a8d09b6f156399198ef0e05
def startedSigEntity := entity "system/signature"
  (sigValue started.contentHash bob.contentHash startedSig)
  0x90a5c856d6fe6b67a7d6f2c1262cf9975f453f1e6b4d4281afa8604b82686da1

def lifetimeCrates := platform [peerValue aliceKey,peerValue bobKey,peerValue carolKey,cappedValue,
    datedValue capped.contentHash [],datedValue capped.contentHash [2000000],
    sigValue capped.contentHash alice.contentHash cappedSig,
    sigValue ahead.contentHash bob.contentHash aheadSig,
    sigValue started.contentHash bob.contentHash startedSig] []
  [(aliceKey,capped.contentHash.toBytes,cappedSig),(bobKey,ahead.contentHash.toBytes,aheadSig),
    (bobKey,started.contentHash.toBytes,startedSig)]

def lifetimeIncluded : Included := OrderedMap.ofList ([alice,bob,carol,capped,ahead,started,
  cappedSigEntity,aheadSigEntity,startedSigEntity].map fun e => (e.contentHash,e))

def cappedLink : Link :=
  ⟨capped,⟨.single alice.contentHash,bob.contentHash,none,none,none⟩⟩
def aheadLink : Link :=
  ⟨ahead,⟨.single bob.contentHash,carol.contentHash,some capped.contentHash,none,some 2000500⟩⟩
def startedLink : Link :=
  ⟨started,⟨.single bob.contentHash,carol.contentHash,some capped.contentHash,some 2000000,
    some 2000500⟩⟩

/-- The token dated ahead is accepted at both times, and each chain has two links. -/
theorem evaluated_lifetimes :
    ((CapabilityToken.fromEntity lifetimeCrates capped).toOption.any fun t =>
      decide (t.delegationCaveats.bind (·.maxDelegationTtl) = some 1000)) = true ∧
    (collectAuthorityChain lifetimeCrates ahead.contentHash lifetimeIncluded.get =
        .ok [aheadLink,cappedLink] ∧
      verifyCapabilityChain lifetimeCrates ahead.contentHash lifetimeIncluded aliceId 0 = .ok () ∧
      verifyCapabilityChain lifetimeCrates ahead.contentHash lifetimeIncluded aliceId 2000499 =
        .ok ()) ∧
    collectAuthorityChain lifetimeCrates started.contentHash lifetimeIncluded.get =
      .ok [startedLink,cappedLink] := by
  decide +kernel

theorem capped_token : ∃ token, CapabilityToken.fromEntity lifetimeCrates capped = .ok token ∧
    token.delegationCaveats.bind (·.maxDelegationTtl) = some 1000 := by
  obtain ⟨token,htoken,hcap⟩ := exists_ok_of_any
    (x := CapabilityToken.fromEntity lifetimeCrates capped)
    (p := fun t => decide (t.delegationCaveats.bind (·.maxDelegationTtl) = some 1000))
    evaluated_lifetimes.1
  exact ⟨token,htoken,of_decide_eq_true hcap⟩

end Sample

open Sample

/-- The token dated ahead is accepted for half an hour under a caveat of one second. -/
theorem delegation_outlives_caveat : ¬ ∀ (X : Platform) (included : Included)
    (capabilityHash : Hash) (localPeerId : Str) (below above : List Link) (child parent : Link),
    collectAuthorityChain X capabilityHash included.get = .ok (below++child::parent::above) →
    ∀ (token : CapabilityToken), CapabilityToken.fromEntity X parent.entity = .ok token →
    ∀ (ttl : ℕ), token.delegationCaveats.bind (·.maxDelegationTtl) = some ttl → ∀ t₁ t₂, t₁ ≤ t₂ →
      verifyCapabilityChain X capabilityHash included localPeerId t₁ = .ok () →
      verifyCapabilityChain X capabilityHash included localPeerId t₂ = .ok () → t₂-t₁ ≤ ttl := by
  intro h
  obtain ⟨token,htoken,hcap⟩ := capped_token
  obtain ⟨-,⟨hchain,hearly,hlate⟩,-⟩ := evaluated_lifetimes
  have hbound := h lifetimeCrates lifetimeIncluded ahead.contentHash aliceId [] [] aheadLink
    cappedLink hchain token htoken 1000 hcap 0 2000499 (by decide) hearly hlate
  exact absurd hbound (by decide)

theorem delegation_lifetime_iff_sample : latestStart [startedLink,cappedLink] = 2000000 ∧
    ∀ t₁ t₂, t₁ ≤ t₂ →
    verifyCapabilityChain lifetimeCrates started.contentHash lifetimeIncluded aliceId t₁ = .ok () →
    verifyCapabilityChain lifetimeCrates started.contentHash lifetimeIncluded aliceId t₂ = .ok () →
    t₂-t₁ ≤ 1000 := by
  obtain ⟨token,htoken,hcap⟩ := capped_token
  refine ⟨rfl,(delegation_lifetime_iff lifetimeCrates lifetimeIncluded started.contentHash aliceId
    [] [] startedLink cappedLink evaluated_lifetimes.2.2 token htoken 1000 hcap).mpr ?_⟩
  intro _
  exact ⟨startedLink,List.mem_cons_self,2000500,rfl,by decide⟩

end EntityCore
