import EntityCore.CapabilityDelegate
import EntityCore.Rerooting
import EntityCore.RoleOperations
import EntityCore.TokenRoundTrip

/-! The children that `delegate` mints, at the capability handler and at the role handler,
before the verifier. What is checked at the mint is less than what is checked of a chain:
the limits of the parent, its granter's frame and the length of its chain are not looked at. -/
namespace EntityCore

open Ecf Outcome Option

/-! A link on top of a chain that verifies. -/

/-- What the verifier asks of a link over a chain that it accepts, and of the chain once it
is one level deeper. -/
structure FitsOnTop (X : Platform) (included : Included) (v : Str) (now : ℕ) (child parent : Link)
    (chain : List Link) : Prop where
  short : chain.length ≤ maxChainDepth
  format : child.entity.contentHash.algorithm = parent.entity.contentHash.algorithm
  sound : child.Sound X included now
  signed : child.Signed X included v
  delegated : child.DelegatedBy X included v 0 parent
  deeper : ∀ i link above, chain[i]? = some link → chain[i+1]? = some above →
    link.DelegatedBy X included v (i+1) above

section OnTop

variable {X : Platform} {included : Included} {v : Str} {now : ℕ}

theorem ParentLinks.unique {h : Hash} {chain chain' : List Link}
    (hp : ParentLinks X included h chain) (hp' : ParentLinks X included h chain') :
    chain = chain' :=
  Except.ok.inj ((hp.collect (le_max_left _ chain'.length)).symm.trans
    (hp'.collect (le_max_right chain.length _)))

theorem Link.DelegatedBy.deeper_iff {i : ℕ} {link parent : Link}
    (h : link.DelegatedBy X included v i parent) :
    link.DelegatedBy X included v (i+1) parent ↔ ∀ above dc m,
      CapabilityToken.fromEntity X parent.entity = .ok above → above.delegationCaveats = some dc →
      dc.maxDelegationDepth = some m → i+1 < m := by
  constructor
  · intro hdeep above dc m habove hdc hm
    obtain ⟨_,above',_,_,-,habove',-,-,-,hcav⟩ := hdeep.narrows
    obtain rfl := Except.ok.inj (habove.symm.trans habove')
    exact ((checkDelegationCaveats_iff _ _ _).mp hcav dc hdc).2.1 m hm
  · intro hdepth
    obtain ⟨token,above,frame,frameAbove,htoken,habove,hframe,hframeAbove,hatt,hcav⟩ := h.narrows
    refine ⟨h.granter,token,above,frame,frameAbove,htoken,habove,hframe,hframeAbove,hatt,?_⟩
    rw [checkDelegationCaveats_iff] at hcav ⊢
    intro dc hdc
    obtain ⟨hno,-,httl⟩ := hcav dc hdc
    exact ⟨hno,fun m hm => hdepth above dc m habove hdc hm,httl⟩

variable {h p : Hash} {child parent : Link} {rest : List Link}

theorem attested_on_top (hp : Attested X included v now p (parent::rest))
    (present : included.get h = some child.entity)
    (decoded : decodeCapabilityChainFields X child.entity.data = .ok child.fields)
    (named : child.fields.parent = some p) : Attested X included v now h (child::parent::rest) ↔
      FitsOnTop X included v now child parent (parent::rest) := by
  constructor
  · intro ha
    constructor
    · have hlen := ha.short
      simp only [List.length_cons,maxChainDepth] at hlen ⊢
      omega
    · exact ha.oneFormat child (by simp) parent (by simp)
    · exact ha.sound child (by simp)
    · exact ha.signed child (by simp)
    · exact ha.delegated 0 child parent rfl rfl
    · intro i link above hi hi'
      exact ha.delegated (i+1) link above hi hi'
  · intro hf
    constructor
    · exact .link present decoded named hp.reached
    · have hlen := hf.short
      simp only [List.length_cons,maxChainDepth] at hlen ⊢
      omega
    · have hall : ∀ a ∈ child::parent::rest,
          a.entity.contentHash.algorithm = parent.entity.contentHash.algorithm :=
        List.forall_mem_cons.mpr ⟨hf.format,fun a ha => hp.oneFormat a ha parent (by simp)⟩
      intro a ha b hb
      rw [hall a ha,hall b hb]
    · exact List.forall_mem_cons.mpr ⟨hf.sound,hp.sound⟩
    · exact List.forall_mem_cons.mpr ⟨hf.signed,hp.signed⟩
    · intro i link above hi hi'
      cases i with
      | zero =>
        obtain rfl : child = link := by simpa using hi
        obtain rfl : parent = above := by simpa using hi'
        exact hf.delegated
      | succ i => exact hf.deeper i link above (by simpa using hi) (by simpa using hi')
    · intro link g hlast hg
      exact hp.rooted link g (by simpa using hlast) hg

/-- Over a chain that is accepted, a child is accepted when it fits on top. -/
theorem verifies_on_top (hparent : verifyCapabilityChain X p included v now = .ok ())
    (hc : collectAuthorityChain X p included.get = .ok (parent::rest))
    (present : included.get h = some child.entity)
    (decoded : decodeCapabilityChainFields X child.entity.data = .ok child.fields)
    (named : child.fields.parent = some p) : verifyCapabilityChain X h included v now = .ok () ↔
      FitsOnTop X included v now child parent (parent::rest) := by
  have haddressed := (keyBinding_ok included).mp (verifyCapabilityChain_ok.mp hparent).1
  have hp := (verifies_collected_iff haddressed hc).mp hparent
  have hlinks : ParentLinks X included h (child::parent::rest) :=
    .link present decoded named hp.reached
  constructor
  · intro hv
    obtain ⟨-,chain,hwalk,-⟩ := verifyCapabilityChain_ok.mp hv
    obtain rfl := (parentLinks_of_collect hwalk).1.unique hlinks
    exact (attested_on_top hp present decoded named).mp ((verifies_collected_iff haddressed hwalk).mp hv)
  · intro hf
    have ha := (attested_on_top hp present decoded named).mpr hf
    exact (verifies_collected_iff haddressed (ha.reached.collect ha.short)).mpr ha

end OnTop

/-! What the two operations mint. -/

/-- A child of a stored token: who grants it, what of the parent and what was asked for. -/
structure ChildMint where
  localPeerId : Str
  identityHash : Hash
  keyTypeLabel : Str
  sign : Bytes → Bytes
  parentHash : Hash
  parent : CapabilityToken
  grants : List GrantEntry
  grantee : Hash
  asked : Option ℕ

namespace ChildMint

def token (m : ChildMint) (nowMs : ℕ) : CapabilityToken :=
  ⟨m.grants,.single m.identityHash,m.grantee,some m.parentHash,nowMs,
    minDefined [m.parent.expiresAt,m.asked],none,none⟩

def signatureDocument (m : ChildMint) (h : Hash) : Value :=
  .map [field "algorithm" (textVal m.keyTypeLabel),field "signature" (.bytes (m.sign h.toBytes)),
    field "signer" (hashVal m.identityHash),field "target" (hashVal h)]

end ChildMint

/-- The end that a time to live asks for, unless it overflows. -/
def askedEnd (nowMs : ℕ) (ttlMs : Option ℕ) : Option ℕ :=
  ttlMs.bind fun ttl => if nowMs+ttl < 2^64 then some (nowMs+ttl) else none

/-- One of the two operations succeeds, and `e` is the entity of the child it mints. -/
inductive MintsChild (X : Platform) (nowMs : ℕ) (s : PeerState) : ChildMint → Entity → Prop
  | capability {H : CapabilityHandler} {ctx : HandlerContext}
      {d : CapabilityHandler.CapabilityDelegation} {e : Entity}
      (approved : H.approveDelegate X ctx s = .ok d)
      (encoded : (H.delegatedToken d nowMs).toEntity X = .ok e)
      (done : (H.handleDelegate X ctx nowMs s).1.isOk = true) :
      MintsChild X nowMs s ⟨H.localPeerId,H.identityHash,H.keyTypeLabel,H.sign,d.parentHash,
        d.parent,d.grants,H.identityHash,askedEnd nowMs d.ttlMs⟩ e
  | role {R : RoleHandler} {ctx : RoleContext} {d : RoleHandler.RoleDelegation} {e : Entity}
      {map : List (Value × Value)} {asked : Option ℕ}
      (params : Role.decodeMap X ctx.params.data = .ok map)
      (ends : Role.fieldU64Opt map "expires_at" = .ok asked)
      (approved : R.approveDelegate X ctx nowMs s = .ok d)
      (encoded : (R.delegationToken d nowMs).toEntity X = .ok e)
      (done : (R.handleDelegate X ctx nowMs s).1 = .ok e.contentHash) :
      MintsChild X nowMs s ⟨R.localPeerId,R.identityHash,R.keyTypeLabel,R.sign,d.parentHash,
        d.parent,d.scope,d.delegate,asked⟩ e

/-- What holds of every child at its mint. -/
structure ChildMint.Minted (X : Platform) (nowMs : ℕ) (s : PeerState) (m : ChildMint) (e : Entity) :
    Prop where
  stored : ∃ entity, s.contentStore.get m.parentHash = some entity ∧
    CapabilityToken.fromEntity X entity = .ok m.parent
  encoded : (m.token nowMs).toEntity X = .ok e
  covered : ∀ g ∈ m.grants, grantCoveredBy X g m.parent.grants m.localPeerId m.localPeerId
    m.localPeerId = true
  asked : ∀ n, m.asked = some n → n < 2^64

section Mint

variable {X : Platform} {nowMs : ℕ} {s : PeerState}

theorem delegateExpiry_eq (ttlMs parentExpires : Option ℕ) :
    CapabilityHandler.delegateExpiry nowMs ttlMs parentExpires =
      minDefined [parentExpires,askedEnd nowMs ttlMs] := by
  unfold CapabilityHandler.delegateExpiry askedEnd minDefined
  cases parentExpires <;> cases ttlMs.bind _ <;> simp [min_comm]

theorem effectiveExpiresAt_eq (parentExpires asked : Option ℕ) :
    effectiveExpiresAt parentExpires none asked nowMs = minDefined [parentExpires,asked] := by
  cases parentExpires <;> cases asked <;> rfl

theorem covered_of_attenuated {child parent : CapabilityToken} {l : Str}
    (h : isAttenuated X child parent l = true) :
    ∀ g ∈ child.grants, grantCoveredBy X g parent.grants l l l = true := by
  simp only [isAttenuated,isAttenuatedInner,Bool.and_eq_true,List.all_eq_true] at h
  exact h.1

theorem CapabilityHandler.approveDelegate_ok {H : CapabilityHandler} {ctx : HandlerContext}
    {d : CapabilityDelegation} (h : H.approveDelegate X ctx s = .ok d) :
    (∃ entity, s.contentStore.get d.parentHash = some entity ∧
      CapabilityToken.fromEntity X entity = .ok d.parent) ∧
      d.parent.grantee = H.identityHash ∧ unmatchableScopePattern d.grants = none ∧
      ∀ g ∈ d.grants, grantCoveredBy X g d.parent.grants H.localPeerId H.localPeerId
        H.localPeerId = true := by
  simp only [approveDelegate,bind_ok,okOr_ok,mapErr_ok,pure_ok] at h
  obtain ⟨author,-,_,hauthor,req,-,_,-,_,hmatch,entity,hget,_,-,parent,hparent,_,hgrantee,_,hatt,
    rfl⟩ := h
  have hauthor := of_decide_eq_true ((ensure_ok _ _).mp hauthor)
  have hgrantee := of_decide_eq_true ((ensure_ok _ _).mp hgrantee)
  have hatt := (ensure_ok _ _).mp hatt
  refine ⟨⟨entity,hget,hparent⟩,hgrantee.trans hauthor,?_,covered_of_attenuated hatt⟩
  unfold requireMatchable at hmatch
  cases hu : unmatchableScopePattern req.grants with
  | none => rfl
  | some bad => simp [hu] at hmatch

theorem RoleHandler.approveDelegate_ok {R : RoleHandler} {ctx : RoleContext}
    {map : List (Value × Value)} {asked : Option ℕ} {d : RoleDelegation}
    (hmap : Role.decodeMap X ctx.params.data = .ok map)
    (hends : Role.fieldU64Opt map "expires_at" = .ok asked)
    (h : R.approveDelegate X ctx nowMs s = .ok d) :
    (∃ entity, s.contentStore.get d.parentHash = some entity ∧
      CapabilityToken.fromEntity X entity = .ok d.parent) ∧
      d.expiresAt = effectiveExpiresAt d.parent.expiresAt none asked nowMs ∧
      ∀ g ∈ d.scope, grantCoveredBy X g d.parent.grants R.localPeerId R.localPeerId
        R.localPeerId = true := by
  simp only [approveDelegate,bind_ok,okOr_ok,mapErr_ok,pure_ok] at h
  obtain ⟨map',hmap',_,-,_,-,_,-,_,-,_,-,_,-,_,-,_,-,asked',hasked,_,-,_,-,_,-,_,-,_,-,link,-,entity,
    hget,parent,hparent,_,hatt,rfl⟩ := h
  have hatt := (ensure_ok _ _).mp hatt
  obtain rfl := Except.ok.inj (hmap.symm.trans hmap')
  obtain rfl := Except.ok.inj (hends.symm.trans hasked)
  exact ⟨⟨entity,hget,hparent⟩,rfl,covered_of_attenuated hatt⟩

theorem fieldU64Opt_word {map : List (Value × Value)} {key : String} {n : ℕ}
    (h : Role.fieldU64Opt map key = .ok (some n)) : n < 2^64 := by
  unfold Role.fieldU64Opt at h
  cases hv : presentField map key with
  | none => simp [hv] at h
  | some v =>
    simp only [hv,bind_ok,pure_ok,some.injEq,Role.nonNegative,okOr_ok] at h
    obtain ⟨k,⟨i,-,hk⟩,rfl⟩ := h
    have hi := i.inRange.2
    split_ifs at hk with hneg
    obtain rfl := Except.ok.inj hk
    omega

theorem delegatedToken_eq (H : CapabilityHandler) (d : CapabilityHandler.CapabilityDelegation) :
    H.delegatedToken d nowMs = ChildMint.token ⟨H.localPeerId,H.identityHash,H.keyTypeLabel,H.sign,
      d.parentHash,d.parent,d.grants,H.identityHash,askedEnd nowMs d.ttlMs⟩ nowMs := by
  rw [CapabilityHandler.delegatedToken,CapabilityHandler.childToken,delegateExpiry_eq]
  rfl

theorem MintsChild.minted {m : ChildMint} {e : Entity} (h : MintsChild X nowMs s m e) :
    m.Minted X nowMs s e := by
  cases h with
  | @capability H ctx d e approved encoded done =>
    obtain ⟨hstored,-,-,hcovered⟩ := H.approveDelegate_ok approved
    refine ⟨hstored,?_,hcovered,?_⟩
    · rw [← delegatedToken_eq]
      exact encoded
    · intro n hn
      simp only [askedEnd,bind_eq_some_iff,ite_none_right_eq_some, some.injEq] at hn
      obtain ⟨ttl,-,hlt,rfl⟩ := hn
      exact hlt
  | @role R ctx d e map asked params ends approved encoded done =>
    obtain ⟨hstored,hexpires,hcovered⟩ := R.approveDelegate_ok params ends approved
    refine ⟨hstored,?_,hcovered,?_⟩
    · rw [RoleHandler.delegationToken,hexpires,effectiveExpiresAt_eq] at encoded
      exact encoded
    · intro n hn
      subst hn
      exact fieldU64Opt_word ends

/-! The child as it is read back. -/

theorem expiresAt_word {e : Entity} {t : CapabilityToken}
    (h : CapabilityToken.fromEntity X e = .ok t) {n : ℕ} (hn : t.expiresAt = some n) : n < 2^64 := by
  simp only [CapabilityToken.fromEntity,bind_ok,mapErr_ok,okOr_ok,pure_ok] at h
  obtain ⟨_,_,_,_,map,_,acc,hacc,_,_,_,_,_,_,_,_,rfl⟩ := h
  obtain ⟨v,-,hv⟩ := (last_of_scan TokenFields.expiresAt "expires_at".toList Value.asU64
    (fun b kv _ b' hf => temporal_step (scanTokenField_step hf).expiresAt) rfl hacc n).mp hn
  simp only [Value.asU64,bind_eq_some_iff,ite_none_right_eq_some, some.injEq] at hv
  obtain ⟨i,-,hi,rfl⟩ := hv
  omega

variable {m : ChildMint} {e : Entity}

theorem ChildMint.Minted.words (hm : m.Minted X nowMs s e) (hnow : nowMs < 2^64) :
    (m.token nowMs).Words := by
  constructor
  · nofun
  · exact hnow
  · intro n hn
    have hmem := (minDefined_eq_some.mp hn).1
    simp only [List.mem_cons,List.not_mem_nil,or_false] at hmem
    rcases hmem with hparent | hasked
    · obtain ⟨entity,-,hentity⟩ := hm.stored
      exact expiresAt_word hentity hparent.symm
    · exact hm.asked n hasked.symm
  · nofun
  · nofun
  · nofun

theorem ChildMint.Minted.entity (hm : m.Minted X nowMs s e) : e.entityType = typeCapToken ∧
    e.data = Ecf.toEcf (m.token nowMs).document ∧
      e.contentHash.algorithm = X.defaultHashFormat := by
  have hencoded := hm.encoded
  rw [CapabilityToken.toEntity,toEcf_document,mapErr_ok] at hencoded
  obtain ⟨htype,hdata,hhash⟩ := Entity.newWithFormat_ok X hencoded
  exact ⟨htype,hdata,Hash.computeFormat_algorithm hhash⟩

/-- The child reads back, with its grants up to what the encoder makes of their values. -/
theorem ChildMint.Minted.read (hm : m.Minted X nowMs s e) (hnow : nowMs < 2^64)
    (hreads : ReadsBack X (m.token nowMs).document) :
    ∃ u, CapabilityToken.fromEntity X e = .ok u ∧ u.Alike Encoded (m.token nowMs) := by
  obtain ⟨htype,hdata,-⟩ := hm.entity
  obtain ⟨w,hw,hsame⟩ := hreads
  rw [← hdata] at hw
  have hwords := hm.words hnow
  cases w with
  | map map =>
    obtain ⟨u,hu⟩ := fromEntity_total htype hw hsame hwords trivial
    exact ⟨u,hu,(fromEntity_read hw hsame hwords hu).2⟩
  | _ => cases hsame

theorem unmatchable_alike {R : Value → Value → Prop} {gs gs' : List GrantEntry}
    (h : List.Forall₂ (GrantEntry.Alike R) gs' gs) :
    unmatchableScopePattern gs' = unmatchableScopePattern gs := by
  have hpatterns : (gs'.flatMap fun grant => [grant.handlers,grant.resources].flatMap fun scope =>
      scope.includes++scope.excludes) = gs.flatMap fun grant =>
        [grant.handlers,grant.resources].flatMap fun scope => scope.includes++scope.excludes := by
    induction h with
    | nil => rfl
    | cons hab _ ih =>
      simp only [List.flatMap_cons,List.flatMap_nil,hab.handlers,hab.resources] at ih ⊢
      rw [ih]
  rw [unmatchableScopePattern,unmatchableScopePattern,hpatterns]

end Mint

/-! The condition. -/

/-- What the map has of a child: the parent as it is stored, the child, its grantee and the
identity that granted it. -/
structure ChildMint.Presented (X : Platform) (s : PeerState) (included : Included) (v : Str)
    (m : ChildMint) (e : Entity) : Prop where
  parent : included.get m.parentHash = s.contentStore.get m.parentHash
  child : included.get e.contentHash = some e
  grantee : ∃ g, included.get m.grantee = some g ∧ g.entityType = typePeer
  granter : resolveGranterPeerId X (.single m.identityHash) v included.get = some m.localPeerId

/-- What the operations leave open. `u` is the child as it reads back and `chain` the
parent's chain. -/
structure ChildMint.Acceptable (X : Platform) (included : Included) (v : Str) (nowMs : ℕ)
    (m : ChildMint) (u : CapabilityToken) (e : Entity) (chain : List Link) : Prop where
  held : m.parent.grantee = m.identityHash
  short : chain.length ≤ maxChainDepth
  format : m.parentHash.algorithm = X.defaultHashFormat
  lasts : ∀ ending, m.asked = some ending → nowMs < ending
  matchable : unmatchableScopePattern m.grants = none
  covered : ∀ frame, resolveGranterPeerId X m.parent.granter v included.get = some frame →
    ∀ g ∈ u.grants, grantCoveredBy X g m.parent.grants m.localPeerId frame v = true
  delegable : ∀ dc, m.parent.delegationCaveats = some dc → dc.noDelegation ≠ some true ∧
    ∀ ttl, dc.maxDelegationTtl = some ttl →
      ∃ ending, some ending ∈ [m.parent.expiresAt,m.asked] ∧ ending-nowMs ≤ ttl
  depth : ∀ k link above dc n, chain[k]? = some link →
    CapabilityToken.fromEntity X link.entity = .ok above → above.delegationCaveats = some dc →
    dc.maxDelegationDepth = some n → k < n
  signed : SignedFirstBy X included e.contentHash m.identityHash

/-- The child as a link. -/
def ChildMint.link (m : ChildMint) (nowMs : ℕ) (e : Entity) : Link :=
  ⟨e,⟨.single m.identityHash,m.grantee,some m.parentHash,none,
    minDefined [m.parent.expiresAt,m.asked]⟩⟩

section Condition

variable {X : Platform} {included : Included} {v : Str} {nowMs : ℕ} {s : PeerState}
variable {m : ChildMint} {e : Entity} {u : CapabilityToken}

theorem link_decoded (hu : CapabilityToken.fromEntity X e = .ok u)
    (halike : u.Alike Encoded (m.token nowMs)) :
    decodeCapabilityChainFields X e.data = .ok (m.link nowMs e).fields := by
  obtain ⟨value,map,_,hv,hm,hscan,rfl⟩ := chain_scan_of_token hu
  rw [halike.granter,halike.grantee,halike.parent,halike.notBefore,halike.expiresAt] at hscan
  simp [decodeCapabilityChainFields,hv,hm,hscan,mapErr,okOr,ChildMint.token,ChildMint.link]

/-- On its own the child lacks nothing when its end lies ahead and its patterns can match. -/
theorem link_sound_iff (hu : CapabilityToken.fromEntity X e = .ok u)
    (halike : u.Alike Encoded (m.token nowMs)) (hshown : m.Presented X s included v e)
    (hparent : ∀ ending, m.parent.expiresAt = some ending → nowMs < ending) :
    (m.link nowMs e).Sound X included nowMs ↔ (∀ ending, m.asked = some ending → nowMs < ending) ∧
        unmatchableScopePattern m.grants = none := by
  have hgrants : unmatchableScopePattern u.grants = unmatchableScopePattern m.grants :=
    unmatchable_alike halike.grants
  constructor
  · intro hs
    refine ⟨fun ending hasked => ?_,hgrants ▸ hs.matchable u hu⟩
    obtain ⟨first,hfirst,hle⟩ := @minDefined_le [m.parent.expiresAt,m.asked] ending
      (by simp [hasked])
    exact (hs.unexpired first hfirst).trans_le hle
  · rintro ⟨hlasts,hmatch⟩
    constructor
    · nofun
    · intro first hfirst
      have hmem := (minDefined_eq_some.mp hfirst).1
      simp only [List.mem_cons,List.not_mem_nil,or_false] at hmem
      rcases hmem with h | h
      · exact hparent first h.symm
      · exact hlasts first h.symm
    · exact hshown.grantee
    · intro token htoken
      obtain rfl := Except.ok.inj (hu.symm.trans htoken)
      rw [hgrants,hmatch]

/-- The expiry of the child never exceeds the parent's. -/
theorem attenuated_iff (halike : u.Alike Encoded (m.token nowMs)) (frame : Str) :
    isAttenuatedFramed X u m.parent m.localPeerId frame v = true ↔
      ∀ g ∈ u.grants, grantCoveredBy X g m.parent.grants m.localPeerId frame v = true := by
  simp only [isAttenuatedFramed,isAttenuatedInner,Bool.and_eq_true,List.all_eq_true,
    and_iff_left_iff_imp]
  intro _
  cases hp : m.parent.expiresAt with
  | none => rfl
  | some ending =>
    obtain ⟨first,hfirst,hle⟩ := @minDefined_le [m.parent.expiresAt,m.asked] ending
      (by simp [hp])
    have hu : u.expiresAt = some first := halike.expiresAt.trans hfirst
    simpa [hu] using hle

theorem minted_caveats_iff (halike : u.Alike Encoded (m.token nowMs)) :
    checkDelegationCaveats m.parent u 0 = true ↔
      ∀ dc, m.parent.delegationCaveats = some dc → (dc.noDelegation ≠ some true ∧
        ∀ ttl, dc.maxDelegationTtl = some ttl →
          ∃ ending, some ending ∈ [m.parent.expiresAt,m.asked] ∧ ending-nowMs ≤ ttl) ∧
        ∀ n, dc.maxDelegationDepth = some n → 0 < n := by
  have hends : ∀ ttl, (∃ ending, u.expiresAt = some ending ∧ ending-u.createdAt ≤ ttl) ↔
      ∃ ending, some ending ∈ [m.parent.expiresAt,m.asked] ∧ ending-nowMs ≤ ttl := by
    intro ttl
    rw [halike.expiresAt,halike.createdAt]
    constructor
    · rintro ⟨ending,hending,hle⟩
      exact ⟨ending,(minDefined_eq_some.mp hending).1,hle⟩
    · rintro ⟨ending,hmem,hle⟩
      obtain ⟨first,hfirst,hbound⟩ := minDefined_le hmem
      exact ⟨first,hfirst,(Nat.sub_le_sub_right hbound nowMs).trans hle⟩
  rw [checkDelegationCaveats_iff]
  refine forall_congr' fun dc => imp_congr_right fun _ => ?_
  simp only [hends]
  tauto

/-- Under its parent the child is granted by the parent's grantee, covered and within the
parent's caveats. -/
theorem link_delegated_iff (hu : CapabilityToken.fromEntity X e = .ok u)
    (halike : u.Alike Encoded (m.token nowMs)) (hshown : m.Presented X s included v e) {link : Link}
    {frame : Str} (hlink : CapabilityToken.fromEntity X link.entity = .ok m.parent)
    (hgranter : link.fields.granter = m.parent.granter)
    (hgrantee : link.fields.grantee = m.parent.grantee)
    (hframe : resolveGranterPeerId X m.parent.granter v included.get = some frame) :
    (m.link nowMs e).DelegatedBy X included v 0 link ↔ m.parent.grantee = m.identityHash ∧
      (∀ g ∈ u.grants, grantCoveredBy X g m.parent.grants m.localPeerId frame v = true) ∧
      checkDelegationCaveats m.parent u 0 = true := by
  constructor
  · intro hd
    have hheld : m.identityHash = link.fields.grantee := Granter.single.inj hd.granter
    obtain ⟨token,above,f,fa,htoken,habove,hf,hfa,hatt,hcav⟩ := hd.narrows
    obtain rfl := Except.ok.inj (hu.symm.trans htoken)
    have hparent := Except.ok.inj (hlink.symm.trans habove)
    have hown : m.localPeerId = f := some.inj (hshown.granter.symm.trans hf)
    rw [hgranter] at hfa
    have habove : frame = fa := some.inj (hframe.symm.trans hfa)
    rw [← hparent,← hown,← habove] at hatt
    rw [← hparent] at hcav
    exact ⟨(hheld.trans hgrantee).symm,(attenuated_iff halike frame).mp hatt,hcav⟩
  · rintro ⟨hheld,hcovered,hcav⟩
    refine ⟨?_,u,m.parent,m.localPeerId,frame,hu,hlink,hshown.granter,?_,
      (attenuated_iff halike frame).mpr hcovered,hcav⟩
    · rw [hgrantee,hheld]
      rfl
    · rw [hgranter,hframe]

theorem frame_of_signed {link : Link} (hs : link.Signed X included v) :
    ∃ frame, resolveGranterPeerId X link.fields.granter v included.get = some frame := by
  unfold Link.Signed at hs
  cases hg : link.fields.granter with
  | multi g => exact ⟨v,rfl⟩
  | single g =>
    simp only [hg] at hs
    obtain ⟨sig,data,identity,peer,hf⟩ := hs
    obtain ⟨_,id,he,hpe,hid⟩ := verifySingle_ok (verifySingle_iff.mpr ⟨sig,data,identity,hf⟩)
    exact ⟨id,by rw [resolve_single he hpe,hid]⟩

/-- One level deeper only the limits on the depth count. -/
theorem deeper_iff {chain : List Link} {p : Hash} (ha : Attested X included v nowMs p chain) :
    (∀ i link above, chain[i]? = some link → chain[i+1]? = some above →
      link.DelegatedBy X included v (i+1) above) ↔ ∀ k link above dc n, chain[k+1]? = some link →
      CapabilityToken.fromEntity X link.entity = .ok above → above.delegationCaveats = some dc →
      dc.maxDelegationDepth = some n → k+1 < n := by
  constructor
  · intro hd k link above dc n hk habove hdc hn
    obtain ⟨below,hbelow⟩ : ∃ below, chain[k]? = some below := by
      have hlen := (List.getElem?_eq_some_iff.mp hk).1
      exact ⟨_,List.getElem?_eq_getElem (by omega)⟩
    exact (ha.delegated k below link hbelow hk).deeper_iff.mp (hd k below link hbelow hk) above dc n
      habove hdc hn
  · intro hn i link above hi hi'
    refine (ha.delegated i link above hi hi').deeper_iff.mpr ?_
    intro token dc n htoken hdc
    exact hn i above token dc n hi' htoken hdc

theorem ParentLinks.head {h : Hash} {chain : List Link} (hp : ParentLinks X included h chain) :
    ∃ link rest, chain = link::rest ∧ included.get h = some link.entity := by
  cases hp with
  | root present _ _ => exact ⟨_,_,rfl,present⟩
  | link present _ _ _ => exact ⟨_,_,rfl,present⟩

/-! The signature. -/

/-- The map has the signature that was minted and no other over the child, and the key that
signs is the granter's. -/
structure ChildMint.SignedAlone (X : Platform) (included : Included) (m : ChildMint) (e : Entity) :
    Prop where
  only : ∃ sig, Entity.new X typeSignature (Ecf.toEcf (m.signatureDocument e.contentHash)) = .ok sig ∧
    sig ∈ included.values ∧ ∀ x ∈ included.values, isSignatureFor X e.contentHash x = true → x = sig
  reads : ReadsBack X (m.signatureDocument e.contentHash)
  key : ∀ identity peer, included.get m.identityHash = some identity →
    PeerData.fromEntity X identity = .ok peer →
    peerDataSigOk X peer e.contentHash.toBytes (m.sign e.contentHash.toBytes) = true

theorem scanSigField_fields (acc : SigScan) (kv : Value × Value) : (scanSigField acc kv).target =
        (if kv.1.asText = key "target" then hashField kv.2 else acc.target) ∧
      (scanSigField acc kv).signer =
        if kv.1.asText = key "signer" then hashField kv.2 else acc.signer := by
  unfold scanSigField
  split_ifs with ht hs ht' hs' ht' hs' <;> simp_all [key]

theorem hashOr_hashVal (h : Hash) (old : Option Hash) :
    SignatureData.hashOr (hashVal h) old = .ok (some h) := by
  simp [SignatureData.hashOr,hashVal,Value.asBytes,Hash.fromBytes_toBytes]

theorem scanField_fields {acc acc' : SignatureData.Fields} {kv : Value × Value}
    (hhash : kv.1.asText = key "target" ∨ kv.1.asText = key "signer" → ∃ h, kv.2 = hashVal h)
    (hf : SignatureData.scanField acc kv = .ok acc') :
    (acc'.target = if kv.1.asText = key "target" then hashField kv.2 else acc.target) ∧
      (acc'.signer = if kv.1.asText = key "signer" then hashField kv.2 else acc.signer) ∧
      (acc'.algorithm = if kv.1.asText = key "algorithm" then kv.2.asText else acc.algorithm) ∧
      acc'.signature = if kv.1.asText = key "signature" then kv.2.asBytes else acc.signature := by
  unfold SignatureData.scanField at hf
  split_ifs at hf with ht hs ha hg
  · replace ht : kv.1.asText = key "target" := ht
    obtain ⟨h,hv⟩ := hhash (.inl ht)
    rw [hv,hashOr_hashVal] at hf
    obtain rfl := Except.ok.inj hf
    have hfield : hashField (hashVal h) = some h := hashField_toBytes h
    simp [ht,hv,hfield,key_inj]
  · replace hs : kv.1.asText = key "signer" := hs
    obtain ⟨h,hv⟩ := hhash (.inr hs)
    rw [hv,hashOr_hashVal] at hf
    obtain rfl := Except.ok.inj hf
    have hfield : hashField (hashVal h) = some h := hashField_toBytes h
    simp [hs,hv,hfield,key_inj]
  · replace ha : kv.1.asText = key "algorithm" := ha
    obtain rfl := Except.ok.inj hf
    simp [ha,key_inj]
  · replace hg : kv.1.asText = key "signature" := hg
    obtain rfl := Except.ok.inj hf
    simp [hg,key_inj]
  · obtain rfl := Except.ok.inj hf
    exact ⟨(if_neg ht).symm,(if_neg hs).symm,(if_neg ha).symm,(if_neg hg).symm⟩

/-- The signature that was minted is one over the child, and reads back. -/
theorem signature_read {h : Hash} {sig : Entity}
    (hnew : Entity.new X typeSignature (Ecf.toEcf (m.signatureDocument h)) = .ok sig)
    (hreads : ReadsBack X (m.signatureDocument h)) : isSignatureFor X h sig = true ∧
      SignatureData.fromEntity X sig = .ok ⟨h,m.identityHash,m.keyTypeLabel,m.sign h.toBytes⟩ := by
  obtain ⟨htype,hdata,-⟩ := Entity.newWithFormat_ok X hnew
  obtain ⟨w,hw,hsame⟩ := hreads
  rw [← hdata] at hw
  unfold ChildMint.signatureDocument at hsame
  cases w with
  | map map =>
    have hn : ([field "algorithm" (textVal m.keyTypeLabel),
        field "signature" (.bytes (m.sign h.toBytes)),field "signer" (hashVal m.identityHash),
        field "target" (hashVal h)].map fun kv => kv.1.asText).Nodup := by
      simp [field,Value.asText]
    have hmap := (texts_perm hsame).nodup_iff.mpr hn
    obtain ⟨_,halgorithm,⟨⟩⟩ := read_field hsame hn "algorithm" (v := textVal m.keyTypeLabel)
      (by simp [getField_cons,field,Value.asText])
    obtain ⟨_,hsignature,⟨⟩⟩ := read_field hsame hn "signature" (v := .bytes (m.sign h.toBytes))
      (by simp [getField_cons,field,Value.asText])
    obtain ⟨_,hsigner,hv⟩ := read_field hsame hn "signer" (v := hashVal m.identityHash)
      (by simp [getField_cons,field,Value.asText])
    obtain rfl := same_hashVal hv
    obtain ⟨_,htarget,hv⟩ := read_field hsame hn "target" (v := hashVal h)
      (by simp [getField_cons,field,Value.asText])
    obtain rfl := same_hashVal hv
    have hhash : ∀ kv ∈ map, kv.1.asText = key "target" ∨ kv.1.asText = key "signer" →
        ∃ h, kv.2 = hashVal h := by
      rintro kv hkv (hk | hk)
      · exact ⟨h,some.inj ((getField_of_mem hmap hkv hk).symm.trans htarget)⟩
      · exact ⟨m.identityHash,some.inj ((getField_of_mem hmap hkv hk).symm.trans hsigner)⟩
    have hfield : ∀ h, hashField (hashVal h) = some h := hashField_toBytes
    constructor
    · have ht := fold_field hmap SigScan.target "target" hashField
        (fun acc kv => (scanSigField_fields acc kv).1) (b := ⟨none,none⟩) rfl
      have hs := fold_field hmap SigScan.signer "signer" hashField
        (fun acc kv => (scanSigField_fields acc kv).2) (b := ⟨none,none⟩) rfl
      rw [htarget,bind_some,hfield] at ht
      rw [hsigner,bind_some,hfield] at hs
      simp [isSignatureFor,htype,decodeSigTargetSigner,hw,Value.asMap,Except.toOption,ht,hs]
    · obtain ⟨acc,hacc⟩ : ∃ acc,
          foldE SignatureData.scanField ⟨none,none,none,none⟩ map = .ok acc := by
        apply foldE_total
        intro acc kv hkv
        unfold SignatureData.scanField
        split_ifs with ht hs
        · obtain ⟨h,hv⟩ := hhash kv hkv (.inl ht)
          rw [hv,hashOr_hashVal]
          exact ⟨_,rfl⟩
        · obtain ⟨h,hv⟩ := hhash kv hkv (.inr hs)
          rw [hv,hashOr_hashVal]
          exact ⟨_,rfl⟩
        all_goals exact ⟨_,rfl⟩
      have ht := scan_field hmap SignatureData.Fields.target "target" hashField
        (fun b kv hkv b' hf => (scanField_fields (hhash kv hkv) hf).1) rfl hacc
      have hs := scan_field hmap SignatureData.Fields.signer "signer" hashField
        (fun b kv hkv b' hf => (scanField_fields (hhash kv hkv) hf).2.1) rfl hacc
      have ha := scan_field hmap SignatureData.Fields.algorithm "algorithm" Value.asText
        (fun b kv hkv b' hf => (scanField_fields (hhash kv hkv) hf).2.2.1) rfl hacc
      have hg := scan_field hmap SignatureData.Fields.signature "signature" Value.asBytes
        (fun b kv hkv b' hf => (scanField_fields (hhash kv hkv) hf).2.2.2) rfl hacc
      rw [htarget,bind_some,hfield] at ht
      rw [hsigner,bind_some,hfield] at hs
      rw [halgorithm] at ha
      rw [hsignature] at hg
      simp only [SignatureData.fromEntity,bind_ok,mapErr_ok,okOr_ok,pure_ok]
      exact ⟨(),(ensure_ok _ _).mpr (decide_eq_true htype),_,hw,map,rfl,acc,hacc,h,ht,m.identityHash,hs,m.keyTypeLabel,ha,_,hg,rfl⟩
  | _ => cases hsame

theorem signed_of_alone (hshown : m.Presented X s included v e) (h : m.SignedAlone X included e) :
    SignedFirstBy X included e.contentHash m.identityHash := by
  obtain ⟨sig,hnew,hmem,honly⟩ := h.only
  obtain ⟨hover,hread⟩ := signature_read hnew h.reads
  obtain ⟨identity,hidentity,-,peer,hpeer,-⟩ : ∃ identity, included.get m.identityHash = some identity ∧
      identity.entityType = typePeer ∧ ∃ peer, PeerData.fromEntity X identity = .ok peer ∧
        peer.canonicalPeerId X = some m.localPeerId := by
    have hg := hshown.granter
    simp only [resolveGranterPeerId,bind_eq_bind,bind_eq_some_iff,
      ite_none_left_eq_some,not_not,toOption_eq] at hg
    obtain ⟨identity,hidentity,htype,peer,hpeer,hid⟩ := hg
    exact ⟨identity,hidentity,htype,peer,hpeer,hid⟩
  refine ⟨sig,_,identity,peer,?_,hread,rfl,hidentity,hpeer,h.key identity peer hidentity hpeer⟩
  obtain ⟨x,hx⟩ : ∃ x, findSignatureForTarget X included.values e.contentHash = some x :=
    isSome_iff_exists.mp (List.find?_isSome.mpr ⟨sig,hmem,hover⟩)
  rw [hx,honly x (List.mem_of_find?_eq_some hx) (List.find?_some hx)]

end Condition

/-! The verdict. -/

/-- Of a child that either operation mints under a parent whose own chain verifies, the verifier
accepts exactly those that meet the condition, at the time they are minted. -/
theorem delegated_accepted_iff (X : Platform) (nowMs : ℕ) (hnow : nowMs < 2^64) (s : PeerState)
    (m : ChildMint) (e : Entity) (hmints : MintsChild X nowMs s m e)
    (hreads : ReadsBack X (m.token nowMs).document) (included : Included) (v : Str)
    (hshown : m.Presented X s included v e)
    (hparent : verifyCapabilityChain X m.parentHash included v nowMs = .ok ()) :
    ∃ chain u, collectAuthorityChain X m.parentHash included.get = .ok chain ∧
      CapabilityToken.fromEntity X e = .ok u ∧ u.Alike Encoded (m.token nowMs) ∧
      (verifyCapabilityChain X e.contentHash included v nowMs = .ok () ↔
        m.Acceptable X included v nowMs u e chain) ∧
      (m.SignedAlone X included e → SignedFirstBy X included e.contentHash m.identityHash) ∧
      (u.grants = m.grants → ∀ g ∈ u.grants, grantCoveredBy X g m.parent.grants m.localPeerId
        m.localPeerId m.localPeerId = true) := by
  have hm := hmints.minted
  obtain ⟨u,hu,halike⟩ := hm.read hnow hreads
  obtain ⟨-,chain,hc,-⟩ := verifyCapabilityChain_ok.mp hparent
  have haddressed := (keyBinding_ok included).mp (verifyCapabilityChain_ok.mp hparent).1
  have ha := (verifies_collected_iff haddressed hc).mp hparent
  obtain ⟨above,rest,rfl,hpresent⟩ := ha.reached.head
  obtain ⟨entity,hstored,hentity⟩ := hm.stored
  obtain rfl : entity = above.entity := by
    rw [← hshown.parent,hpresent] at hstored
    exact (Option.some.inj hstored).symm
  have hfields := fields_of_token hentity (ha.reached.decoded above (by simp))
  have hgranter : above.fields.granter = m.parent.granter := by rw [hfields]
  obtain ⟨frame,hframe⟩ := frame_of_signed (ha.signed above (by simp))
  rw [hgranter] at hframe
  have hends : ∀ ending, m.parent.expiresAt = some ending → nowMs < ending := by
    have hunexpired := (ha.sound above (by simp)).unexpired
    rwa [hfields] at hunexpired
  have hformat : (m.link nowMs e).entity.contentHash.algorithm = above.entity.contentHash.algorithm ↔
      m.parentHash.algorithm = X.defaultHashFormat := by
    rw [haddressed _ _ hpresent]
    show e.contentHash.algorithm = _ ↔ _
    rw [hm.entity.2.2,eq_comm]
  refine ⟨above::rest,u,hc,hu,halike,?_,signed_of_alone hshown,?_⟩
  · rw [@verifies_on_top _ _ _ _ _ _ (m.link nowMs e) _ _ hparent hc hshown.child (link_decoded hu halike) rfl]
    have hsound := link_sound_iff hu halike hshown hends
    have hdelegated := link_delegated_iff hu halike hshown hentity hgranter (by rw [hfields]) hframe
    have hcaveats := minted_caveats_iff (m := m) (u := u) halike
    constructor
    · intro hf
      obtain ⟨hlasts,hmatchable⟩ := hsound.mp hf.sound
      obtain ⟨hheld,hcovered,hcav⟩ := hdelegated.mp hf.delegated
      rw [hcaveats] at hcav
      refine ⟨hheld,hf.short,hformat.mp hf.format,hlasts,hmatchable,?_,fun dc hdc => (hcav dc hdc).1,
        ?_,hf.signed⟩
      · intro frame' hframe'
        obtain rfl := Option.some.inj (hframe.symm.trans hframe')
        exact hcovered
      · intro k link token dc n hk htoken hdc hn
        cases k with
        | zero =>
          obtain rfl : above = link := by simpa using hk
          obtain rfl := Except.ok.inj (hentity.symm.trans htoken)
          exact (hcav dc hdc).2 n hn
        | succ k => exact (deeper_iff ha).mp hf.deeper k link token dc n hk htoken hdc hn
    · intro h
      refine ⟨h.short,hformat.mpr h.format,hsound.mpr ⟨h.lasts,h.matchable⟩,h.signed,
        hdelegated.mpr ⟨h.held,h.covered frame hframe,hcaveats.mpr ?_⟩,(deeper_iff ha).mpr ?_⟩
      · intro dc hdc
        exact ⟨h.delegable dc hdc,fun n hn => h.depth 0 above m.parent dc n rfl hentity hdc hn⟩
      · intro k link token dc n hk
        exact h.depth (k+1) link token dc n hk
  · intro hsame g hg
    exact hm.covered g (hsame ▸ hg)

/-! Dana holds two tokens, one that forbids delegation and one that allows one level. She
delegates from both. -/
namespace DelegateSample

open Sample ByteCode RerootSample Compute

def danaKey := beBytes 32 0xfcefd17ae49d5ecf9a95eac83297819c1935ad9bd32f65026aacfbd49f1cc058
def dana := entity "system/peer" (peerValue danaKey)
  0x4b432e40e9972dcbee36a1d062e929a94293aedc7ab2bc74526e9d49e8078e72
def danaId : Str := "2KLoSiaPMC85okR5XMQMcqEvH3Q86hNo8nCtwG3nsaUwE7".toList

def heldUnder (caveat : Value × Value) : Value := .map [(txt "created_at",uint 1),
  (txt "delegation_caveats",.map [caveat]),(txt "grantee",.bytes dana.contentHash.toBytes),
  (txt "granter",.bytes dana.contentHash.toBytes),(txt "grants",.array [appGrant])]

def closedValue := heldUnder (txt "no_delegation",.bool true)
def closed := entity "system/capability/token" closedValue
  0x86d851842519b3d3e161e0b031bcd26dc2862b7829bf08e74ff480b7bc20990b
def openValue := heldUnder (txt "max_delegation_depth",uint 1)
def opened := entity "system/capability/token" openValue
  0xc2414dd24f8b96d550b128234e847a81fa9100365fce0a5bbff816c59b598c84

def appEntry : PlainGrant :=
  ⟨⟨["system/tree".toList],[]⟩,⟨["app/*".toList],[]⟩,⟨["get".toList],[]⟩,none⟩

def childOf (parent : Entity) : CapabilityToken := ⟨[appEntry.grant],.single dana.contentHash,
  dana.contentHash,some parent.contentHash,20,none,none,none⟩

def closedChild := entity "system/capability/token" (childOf closed).document
  0x1ce4b35ccbbb7715038bc28794df12b579f2c329199349eeca64a964c299903e
def openedChild := entity "system/capability/token" (childOf opened).document
  0x3c463f2a344b71d0f9674d2537adedb934aa510ecd26cae0c62e953dba265dd2

def closedSig := beBytes 64
  0xb6e928d73c823e00a661c083e699c8ef53400b720aa9d9432f8e3cad477b78d0705a89da47fac55296175de2153ae6676f0f42012965cabcc13a28dace224e02
def openedSig := beBytes 64
  0x46f97e659254fd3737c9264bbceabe8f300be6db48eda2cb57b8f5fa6b90ba2207ce0eaa5c5881b75f3d1610e4eb2773e37136c55dee6acaaaa65e4fe903880f
def closedChildSig := beBytes 64
  0x26e14c7c7ab67d764534ae2d7c0a57d9d2965d3cd4987f77ec0da10a01060eaa37d3345163a767af41479ee7b7caa62bdb37156997c9f2734211b1fb7864ab00
def openedChildSig := beBytes 64
  0x4e72954fa487a8f9dfeab802e6103e4489176667d529fd4e6b15238e43e3b9e0cd894eb7154368e873955ca574e85ca4fe3fbbf235030b4ae86da69898963402

def signed (token : Entity) (sig : Bytes) : Value := sigValue token.contentHash dana.contentHash sig

def asking (parent : Entity) : Value :=
  .map [(txt "grants",.array [appGrant]),(txt "parent",.bytes parent.contentHash.toBytes)]

def grantOf (token : Entity) : Value := .map [(txt "token",.bytes token.contentHash.toBytes)]

def documents : List Value := [peerValue danaKey,closedValue,openValue,(childOf closed).document,
  (childOf opened).document,signed closed closedSig,signed opened openedSig,
  signed closedChild closedChildSig,signed openedChild openedChildSig,asking closed,asking opened]

def crates := platform documents
  [(ecfForHash typeCapToken closedChild.data,
      0x1ce4b35ccbbb7715038bc28794df12b579f2c329199349eeca64a964c299903e),
    (ecfForHash typeCapToken openedChild.data,
      0x3c463f2a344b71d0f9674d2537adedb934aa510ecd26cae0c62e953dba265dd2),
    (ecfForHash typeSignature (toEcf (signed closedChild closedChildSig)),
      0x65f3eb74217f88d60a9f8be20a46c13f070cceba088f0389de7cfc5aea23317c),
    (ecfForHash typeSignature (toEcf (signed openedChild openedChildSig)),
      0x4aaa83a94856b08067dd229a49977cd92b12df68fb1b5c0a0619ecb4acca882a),
    (ecfForHash typeCapGrant (toEcf (grantOf closedChild)),
      0x4631ed8535305498b67d9db387137b6f357551674789593741c661cdb70c5532),
    (ecfForHash typeCapGrant (toEcf (grantOf openedChild)),
      0x5cd6f7b5f72bc36c77f36c00ef68960334e338b6ef011e27798366598e14aa99)]
  [(danaKey,closed.contentHash.toBytes,closedSig),(danaKey,opened.contentHash.toBytes,openedSig),
    (danaKey,closedChild.contentHash.toBytes,closedChildSig),
    (danaKey,openedChild.contentHash.toBytes,openedChildSig)]

def handler : CapabilityHandler := ⟨danaId,dana.contentHash,dana,"ed25519".toList,
  fun m => if m = closedChild.contentHash.toBytes then closedChildSig
    else if m = openedChild.contentHash.toBytes then openedChildSig else []⟩

def delegating (parent : Entity) : HandlerContext :=
  ⟨none,some dana.contentHash,entity "system/capability/delegate-request" (asking parent) 0⟩

def store : PeerState :=
  ⟨OrderedMap.ofList ([closed,opened].map fun e => (e.contentHash,e)),⟨.empty⟩⟩

def shown (parent child : Entity) (parentSig childSig : Bytes) (parentDigest childDigest : ℕ) :
    Included := OrderedMap.ofList ([dana,parent,child,
  entity "system/signature" (signed parent parentSig) parentDigest,
  entity "system/signature" (signed child childSig) childDigest].map fun e => (e.contentHash,e))

def closedShown := shown closed closedChild closedSig closedChildSig
  0xd7b8b4c4145734871d9d133303fd3a731361def98488ebbe9488ae0176950641
  0x65f3eb74217f88d60a9f8be20a46c13f070cceba088f0389de7cfc5aea23317c
def openedShown := shown opened openedChild openedSig openedChildSig
  0xa38282410ebe01c2069230b5d9de5260fcd821873f4d0fb7e34cb7d1a7b1dd3a
  0x4aaa83a94856b08067dd229a49977cd92b12df68fb1b5c0a0619ecb4acca882a

/-- What is minted, once the decision is known to be the child. -/
def minted (d : CapabilityHandler.CapabilityDelegation) : ChildMint :=
  ⟨danaId,dana.contentHash,"ed25519".toList,handler.sign,d.parentHash,d.parent,d.grants,
    dana.contentHash,askedEnd 20 d.ttlMs⟩

def mints (parent child : Entity) : Bool :=
  ((handler.approveDelegate crates (delegating parent) store).toOption.any fun d =>
    sameToken (handler.delegatedToken d 20) (childOf parent) &&
      decide (d.parentHash = parent.contentHash)) &&
  (handler.handleDelegate crates (delegating parent) 20 store).1.isOk &&
  decide ((childOf parent).toEntity crates = .ok child)

theorem mints_child {parent child : Entity} (h : mints parent child = true) :
    ∃ d, MintsChild crates 20 store (minted d) child ∧ (minted d).token 20 = childOf parent ∧
      d.parentHash = parent.contentHash := by
  simp only [mints,Bool.and_eq_true,decide_eq_true_eq] at h
  obtain ⟨⟨happroved,hdone⟩,hentity⟩ := h
  obtain ⟨d,hd,hfacts⟩ := exists_ok_of_any happroved
  simp only [Bool.and_eq_true,decide_eq_true_eq] at hfacts
  have htoken := eq_of_sameToken hfacts.1
  have hmint := MintsChild.capability hd (by rw [htoken,hentity]) hdone
  exact ⟨d,hmint,(delegatedToken_eq handler d).symm.trans htoken,hfacts.2⟩

/-- What is computed of a parent and its child. -/
abbrev Evaluated (parent child sig : Entity) (included : Included)
    (verdict : Except ProtocolError Unit) : Prop :=
  mints parent child = true ∧
  included.get parent.contentHash = store.contentStore.get parent.contentHash ∧
  included.get child.contentHash = some child ∧ included.get dana.contentHash = some dana ∧
  resolveGranterPeerId crates (.single dana.contentHash) danaId included.get = some danaId ∧
  verifyCapabilityChain crates parent.contentHash included danaId 20 = .ok () ∧
  verifyCapabilityChain crates child.contentHash included danaId 20 = verdict ∧
  sig ∈ included.values ∧
  ∀ x ∈ included.values, isSignatureFor crates child.contentHash x = true → x = sig

def closedChildSigEntity := entity "system/signature" (signed closedChild closedChildSig)
  0x65f3eb74217f88d60a9f8be20a46c13f070cceba088f0389de7cfc5aea23317c

def openedChildSigEntity := entity "system/signature" (signed openedChild openedChildSig)
  0x4aaa83a94856b08067dd229a49977cd92b12df68fb1b5c0a0619ecb4acca882a

theorem evaluated_children :
    Evaluated closed closedChild closedChildSigEntity closedShown
      (.error (.capabilityInvalid "delegation caveat violated")) ∧
    Evaluated opened openedChild openedChildSigEntity openedShown (.ok ()) ∧
    (documents.map toEcf).Nodup ∧
    handler.sign closedChild.contentHash.toBytes = closedChildSig ∧
    Entity.new crates typeSignature (Ecf.toEcf (signed closedChild closedChildSig)) =
      .ok closedChildSigEntity ∧
    (PeerData.fromEntity crates dana).toOption.all fun peer =>
      peerDataSigOk crates peer closedChild.contentHash.toBytes closedChildSig := by decide +kernel

theorem presented {parent child sig : Entity} {included : Included}
    {verdict : Except ProtocolError Unit} (h : Evaluated parent child sig included verdict)
    {d : CapabilityHandler.CapabilityDelegation} (hd : d.parentHash = parent.contentHash) :
    (minted d).Presented crates store included danaId child := by
  obtain ⟨-,hparent,hchild,hdana,hgranter,-⟩ := h
  exact ⟨by rw [minted,hd]; exact hparent,hchild,⟨dana,hdana,rfl⟩,hgranter⟩

theorem reads {v : Value} (hv : v ∈ documents) (htag : Tagless v) : ReadsBack crates v :=
  ⟨_,reads_document evaluated_children.2.2.1 hv,same_self htag⟩

theorem signed_alone (d : CapabilityHandler.CapabilityDelegation) :
    (minted d).SignedAlone crates closedShown closedChild := by
  obtain ⟨⟨-,-,-,hdana,-,-,-,hmem,honly⟩,-,-,hsign,hnew,hok⟩ := evaluated_children
  have hdoc : (minted d).signatureDocument closedChild.contentHash =
      signed closedChild closedChildSig := by
    show Value.map [_,field "signature" (.bytes (handler.sign closedChild.contentHash.toBytes)),_,_] = _
    rw [hsign]
    rfl
  constructor
  · rw [hdoc]
    exact ⟨closedChildSigEntity,hnew,hmem,honly⟩
  · rw [hdoc]
    apply reads (by simp [documents])
    apply tagless_entries
    simp [txt,Tagless.text,Tagless.bytes]
  · intro identity peer hidentity hpeer
    obtain rfl := some.inj (hdana.symm.trans hidentity)
    rw [hpeer] at hok
    show peerDataSigOk crates peer _ (handler.sign closedChild.contentHash.toBytes) = true
    rw [hsign]
    exact hok

end DelegateSample

open DelegateSample

/-- The child of a token that forbids delegation is minted, and refused by the verifier. -/
theorem closed_child_refused : ¬ ∀ (X : Platform) (nowMs : ℕ) (s : PeerState) (m : ChildMint)
    (e : Entity), nowMs < 2^64 → MintsChild X nowMs s m e → ReadsBack X (m.token nowMs).document →
    ∀ (included : Included) (v : Str), m.Presented X s included v e → m.SignedAlone X included e →
    verifyCapabilityChain X m.parentHash included v nowMs = .ok () →
    verifyCapabilityChain X e.contentHash included v nowMs = .ok () := by
  intro h
  obtain ⟨hmints,-,-,-,-,hparent,hchild,-⟩ := evaluated_children.1
  obtain ⟨d,hmint,htoken,hd⟩ := mints_child hmints
  have hreads : ReadsBack crates ((minted d).token 20).document := by
    rw [htoken]
    exact reads (by simp [documents]) (tagless_document _)
  have hok := h crates 20 store (minted d) closedChild (by decide) hmint hreads closedShown danaId
    (presented evaluated_children.1 hd) (signed_alone d) (by rw [minted,hd]; exact hparent)
  rw [hchild] at hok
  cases hok

theorem delegated_accepted_iff_sample : ∃ d chain u,
    MintsChild crates 20 store (minted d) openedChild ∧
    (minted d).Acceptable crates openedShown danaId 20 u openedChild chain := by
  obtain ⟨hmints,-,-,-,-,hparent,hchild,-⟩ := evaluated_children.2.1
  obtain ⟨d,hmint,htoken,hd⟩ := mints_child hmints
  have hreads : ReadsBack crates ((minted d).token 20).document := by
    rw [htoken]
    exact reads (by simp [documents]) (tagless_document _)
  obtain ⟨chain,u,-,-,-,hiff,-⟩ := delegated_accepted_iff crates 20 (by decide) store (minted d)
    openedChild hmint hreads openedShown danaId (presented evaluated_children.2.1 hd)
    (by rw [minted,hd]; exact hparent)
  exact ⟨d,chain,u,hmint,hiff.mp hchild⟩

end EntityCore
