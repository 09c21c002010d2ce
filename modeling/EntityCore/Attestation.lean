import EntityCore.OverInclusion

/-! What it means for a capability to be attested, said without the passes of the
verifier: a list of links from the leaf to a parentless root, each signed by its
granter and narrowing the one above. The verifier accepts exactly the attested. -/
namespace EntityCore

open Ecf Outcome

/-- The links from a hash up to a parentless root. -/
inductive ParentLinks (X : Platform) (included : Included) : Hash → List Link → Prop
  | root {h : Hash} {link : Link} (present : included.get h = some link.entity)
      (decoded : decodeCapabilityChainFields X link.entity.data = .ok link.fields)
      (parentless : link.fields.parent = none) : ParentLinks X included h [link]
  | link {h p : Hash} {link : Link} {rest : List Link} (present : included.get h = some link.entity)
      (decoded : decodeCapabilityChainFields X link.entity.data = .ok link.fields)
      (parent : link.fields.parent = some p) (above : ParentLinks X included p rest) :
      ParentLinks X included h (link::rest)

/-- What a link must be on its own. -/
structure Link.Sound (X : Platform) (included : Included) (now : ℕ) (link : Link) : Prop where
  started : ∀ t, link.fields.notBefore = some t → t ≤ now
  unexpired : ∀ t, link.fields.expiresAt = some t → now < t
  grantee : ∃ e, included.get link.fields.grantee = some e ∧ e.entityType = typePeer
  matchable : ∀ token, CapabilityToken.fromEntity X link.entity = .ok token →
    unmatchableScopePattern token.grants = none

/-- Signed by the one granter, or at the root by enough of several. -/
def Link.Signed (X : Platform) (included : Included) (l : Str) (link : Link) : Prop :=
  match link.fields.granter with
  | .single g => SignedFirstBy X included link.entity.contentHash g
  | .multi m => link.fields.parent = none ∧ 2 ≤ m.threshold ∧ m.threshold ≤ m.signers.length ∧
      m.signers.Nodup ∧ QuorumSigned X included l link.entity.contentHash m

/-- A link granted by the grantee of the one above, each read in the namespace of its
own granter. -/
structure Link.DelegatedBy (X : Platform) (included : Included) (l : Str) (depth : ℕ)
    (link parent : Link) : Prop where
  granter : link.fields.granter = .single parent.fields.grantee
  narrows : ∃ token above frame frameAbove, CapabilityToken.fromEntity X link.entity = .ok token ∧
    CapabilityToken.fromEntity X parent.entity = .ok above ∧
    resolveGranterPeerId X link.fields.granter l included.get = some frame ∧
    resolveGranterPeerId X parent.fields.granter l included.get = some frameAbove ∧
    isAttenuatedFramed X token above frame frameAbove l = true ∧
    checkDelegationCaveats above token depth = true

structure Attested (X : Platform) (included : Included) (l : Str) (now : ℕ) (leaf : Hash)
    (chain : List Link) : Prop where
  reached : ParentLinks X included leaf chain
  short : chain.length ≤ 65
  oneFormat : ∀ a ∈ chain, ∀ b ∈ chain,
    a.entity.contentHash.algorithm = b.entity.contentHash.algorithm
  sound : ∀ link ∈ chain, link.Sound X included now
  signed : ∀ link ∈ chain, link.Signed X included l
  delegated : ∀ i link parent, chain[i]? = some link → chain[i+1]? = some parent →
    link.DelegatedBy X included l i parent
  rooted : ∀ link g, chain.getLast? = some link → link.fields.granter = .single g →
    resolveGranterPeerId X (.single g) l included.get = some l

variable {chain : List Link} {link parent : Link}

section Passes

variable {X : Platform} {included : Included} {l : Str} {now : ℕ}

theorem ParentLinks.collect {h : Hash} (hp : ParentLinks X included h chain) :
    ∀ {fuel : ℕ}, chain.length ≤ fuel → collectFrom X included.get fuel h = .ok chain := by
  induction hp with
  | root present decoded parentless =>
    intro fuel hfuel
    obtain ⟨fuel,rfl⟩ : ∃ f, fuel = f+1 := ⟨fuel-1,by simp at hfuel; omega⟩
    simp [collectFrom,present,decoded,parentless]
  | link present decoded parent above ih =>
    intro fuel hfuel
    obtain ⟨fuel,rfl⟩ : ∃ f, fuel = f+1 := ⟨fuel-1,by simp at hfuel; omega⟩
    have hrest := ih (by simpa using hfuel)
    simp [collectFrom,present,decoded,parent,hrest]

theorem parentLinks_of_collect {fuel : ℕ} {h : Hash}
    (hc : collectFrom X included.get fuel h = .ok chain) :
    ParentLinks X included h chain ∧ chain.length ≤ fuel := by
  induction fuel generalizing h chain with
  | zero => simp [collectFrom] at hc
  | succ fuel ih =>
    unfold collectFrom at hc
    cases he : included.get h with
    | none => simp [he] at hc
    | some entity =>
      cases hf : decodeCapabilityChainFields X entity.data with
      | error e => simp [he,hf] at hc
      | ok fields =>
        cases hp : fields.parent with
        | none =>
          simp only [he,hf,hp,Except.ok.injEq] at hc
          subst hc
          exact ⟨.root he hf hp,by simp⟩
        | some p =>
          simp only [he,hf,hp,bind_ok,pure_ok] at hc
          obtain ⟨rest,hr,rfl⟩ := hc
          have hh := ih hr
          exact ⟨.link he hf hp hh.1,by simpa using hh.2⟩

theorem ParentLinks.decoded {h : Hash} (hp : ParentLinks X included h chain) :
    ∀ link ∈ chain, decodeCapabilityChainFields X link.entity.data = .ok link.fields := by
  induction hp with
  | root present decoded parentless => simpa using decoded
  | link present decoded parent above ih => exact List.forall_mem_cons.mpr ⟨decoded,ih⟩

theorem checkFormats_ok (chain : List Link) : checkFormats chain = .ok () ↔
    ∀ a ∈ chain, ∀ b ∈ chain, a.entity.contentHash.algorithm = b.entity.contentHash.algorithm := by
  cases chain with
  | nil => simp [checkFormats]
  | cons first rest =>
    simp only [checkFormats,forEach_ok,ensure_ok,decide_eq_true_eq]
    constructor
    · intro h
      have hall : ∀ a ∈ first::rest,
          a.entity.contentHash.algorithm = first.entity.contentHash.algorithm :=
        List.forall_mem_cons.mpr ⟨rfl,h⟩
      intro a ha b hb
      rw [hall a ha,hall b hb]
    · intro h a ha
      exact h a (List.mem_cons_of_mem _ ha) first List.mem_cons_self

theorem checkScopePatterns_ok (link : Link) : checkScopePatterns X link = .ok () ↔
    ∀ token, CapabilityToken.fromEntity X link.entity = .ok token →
      unmatchableScopePattern token.grants = none := by
  unfold checkScopePatterns
  cases CapabilityToken.fromEntity X link.entity with
  | error e => simp
  | ok token => cases hu : unmatchableScopePattern token.grants <;> simp [hu]

theorem checkTemporal_ok (link : Link) : checkTemporal now link = .ok () ↔
    (∀ t, link.fields.expiresAt = some t → now < t) ∧
      ∀ t, link.fields.notBefore = some t → t ≤ now := by
  simp only [checkTemporal,seq_ok,ensure_ok,decide_eq_true_eq,Option.all_eq_true]

theorem checkGrantee_ok (link : Link) : checkGrantee included link = .ok () ↔
    ∃ e, included.get link.fields.grantee = some e ∧ e.entityType = typePeer := by
  simp only [checkGrantee,bind_ok,okOr_ok,ensure_ok,decide_eq_true_eq]

theorem sound_iff (link : Link) : link.Sound X included now ↔
    checkGrantee included link = .ok () ∧ checkTemporal now link = .ok () ∧
      checkScopePatterns X link = .ok () := by
  rw [checkGrantee_ok,checkTemporal_ok,checkScopePatterns_ok]
  constructor
  · intro h
    exact ⟨h.grantee,⟨h.unexpired,h.started⟩,h.matchable⟩
  · intro h
    exact ⟨h.2.1.2,h.2.1.1,h.1,h.2.2⟩

theorem validate_iff (m : MultiGranter) : m.validate = .ok () ↔
    2 ≤ m.threshold ∧ m.threshold ≤ m.signers.length ∧ m.signers.Nodup := by
  unfold MultiGranter.validate
  dsimp only
  split_ifs with h₁ h₂ h₃ h₄ <;> simp only [true_iff,false_iff,not_and]
  · intro _ _
    omega
  · intro _
    omega
  · intro _ _
    omega
  · exact ⟨by omega,by omega,h₄⟩
  · intro _ _
    exact h₄

theorem resolve_of_first {h g : Hash} {sig identity : Entity} {data : SignatureData} {p : PeerData}
    (hf : FirstSignatureBy X included h g sig data identity p) :
    resolveGranterPeerId X (.single g) l included.get = p.canonicalPeerId X :=
  resolve_single hf.present hf.key

theorem signed_of_level {i : ℕ} {rest : List Link} {parent : Option Link}
    (hm : checkMultiPosition link rest = .ok ())
    (hl : verifyLevel X included l i link parent = .ok ()) : link.Signed X included l := by
  unfold Link.Signed
  cases hg : link.fields.granter with
  | single g =>
    simp only [verifyLevel,hg,bind_ok] at hl
    obtain ⟨p,hp,-⟩ := hl
    obtain ⟨sig,data,identity,hf⟩ := verifySingle_iff.mp hp
    exact ⟨sig,data,identity,p,hf⟩
  | multi m =>
    simp only [checkMultiPosition,hg,seq_ok,ensure_ok,mapErr_ok,validate_iff,
      Option.isNone_iff_eq_none] at hm
    obtain ⟨hp,-,hk,hn,hd⟩ := hm
    simp only [verifyLevel,hg] at hl
    exact ⟨hp,hk,hn,hd,(verifyMulti_iff hd).mp hl⟩

theorem position_of_signed {rest : List Link} (hs : link.Signed X included l)
    (hroot : link.fields.parent = none → rest = []) : checkMultiPosition link rest = .ok () := by
  unfold Link.Signed at hs
  unfold checkMultiPosition
  cases hg : link.fields.granter with
  | single g => rfl
  | multi m =>
    simp only [hg] at hs
    simp only [seq_ok,ensure_ok,mapErr_ok,validate_iff,Option.isNone_iff_eq_none,List.isEmpty_iff]
    exact ⟨hs.1,hroot hs.1,hs.2.1,hs.2.2.1,hs.2.2.2.1⟩

theorem verifyDelegation_ok {i : ℕ} {g : Hash} {p : PeerData} {id : Str}
    (hid : p.canonicalPeerId X = some id) :
    verifyDelegation X included l i link parent g p = .ok () ↔ parent.fields.grantee = g ∧
      ∃ token, CapabilityToken.fromEntity X link.entity = .ok token ∧
      ∃ above, CapabilityToken.fromEntity X parent.entity = .ok above ∧
      ∃ frame, parentFrame X included l parent.fields.granter = .ok frame ∧
        isAttenuatedFramed X token above id frame l = true ∧
        checkDelegationCaveats above token i = true := by
  simp [verifyDelegation,hid]

theorem delegated_of_level {i : ℕ} (hd : Delegates X included l link parent)
    (hl : verifyLevel X included l i link (some parent) = .ok ()) :
    link.DelegatedBy X included l i parent := by
  obtain ⟨g,hg⟩ := hd.single
  simp only [verifyLevel,hg,bind_ok] at hl
  obtain ⟨p,hp,hdel⟩ := hl
  obtain ⟨e,id,he,hpe,hid⟩ := verifySingle_ok hp
  obtain ⟨hgrantee,token,htoken,above,habove,frame,hframe,hatt,hcav⟩ :=
    (verifyDelegation_ok hid).mp hdel
  refine ⟨by rw [hg,hgrantee],token,above,id,frame,htoken,habove,?_,parentFrame_eq hd.above hframe,
    hatt,hcav⟩
  rw [hg,resolve_single he hpe,hid]

theorem parentFrame_of_resolve {g : Granter} {f : Str}
    (h : resolveGranterPeerId X g l included.get = some f) :
    parentFrame X included l g = .ok f := by
  cases g with
  | multi m => simpa [resolveGranterPeerId,parentFrame] using h
  | single g =>
    simp only [resolveGranterPeerId,Option.bind_eq_bind,Option.bind_eq_some_iff,
      Option.ite_none_left_eq_some] at h
    obtain ⟨e,he,-,p,hp,hid⟩ := h
    have hpe : PeerData.fromEntity X e = .ok p := by
      cases hc : PeerData.fromEntity X e with
      | error err => simp [hc,Except.toOption] at hp
      | ok q => simpa [hc,Except.toOption] using hp
    simp only [parentFrame,bind_ok,okOr_ok,mapErr_ok,pure_ok]
    exact ⟨e,he,p,hpe,by rw [hid]; rfl⟩

theorem level_of_delegated {i : ℕ} (hs : link.Signed X included l)
    (hd : link.DelegatedBy X included l i parent) :
    verifyLevel X included l i link (some parent) = .ok () := by
  have hg := hd.granter
  obtain ⟨token,above,frame,frameAbove,htoken,habove,hframe,hframeAbove,hatt,hcav⟩ := hd.narrows
  simp only [Link.Signed,hg] at hs
  obtain ⟨sig,data,identity,p,hf⟩ := hs
  rw [hg,resolve_of_first hf] at hframe
  simp only [verifyLevel,hg,bind_ok]
  refine ⟨p,verifySingle_iff.mpr ⟨sig,data,identity,hf⟩,(verifyDelegation_ok hframe).mpr ?_⟩
  exact ⟨rfl,token,htoken,above,habove,frameAbove,parentFrame_of_resolve hframeAbove,hatt,hcav⟩

theorem level_of_root {i : ℕ} (hs : link.Signed X included l)
    (hr : ∀ g, link.fields.granter = .single g →
      resolveGranterPeerId X (.single g) l included.get = some l) :
    verifyLevel X included l i link none = .ok () := by
  unfold Link.Signed at hs
  unfold verifyLevel
  cases hg : link.fields.granter with
  | multi m =>
    simp only [hg] at hs
    exact (verifyMulti_iff hs.2.2.2.1).mpr hs.2.2.2.2
  | single g =>
    simp only [hg] at hs
    obtain ⟨sig,data,identity,p,hf⟩ := hs
    have hlocal := hr g hg
    rw [resolve_of_first hf] at hlocal
    simp only [bind_ok,ensure_ok,decide_eq_true_eq]
    exact ⟨p,verifySingle_iff.mpr ⟨sig,data,identity,hf⟩,hlocal⟩

/-- From the links of a chain back to the two passes over levels. -/
theorem levels_of_attested {h : Hash} (hp : ParentLinks X included h chain)
    (hs : ∀ link ∈ chain, link.Signed X included l) :
    ∀ {i : ℕ}, (∀ j link parent, chain[j]? = some link → chain[j+1]? = some parent →
        link.DelegatedBy X included l (i+j) parent) →
      (∀ link g, chain.getLast? = some link → link.fields.granter = .single g →
        resolveGranterPeerId X (.single g) l included.get = some l) →
      checkMultiPositions chain = .ok () ∧ verifyLevels X included l i chain = .ok () := by
  induction hp with
  | @root h link present decoded parentless =>
    intro i _ hr
    have hlink := hs link List.mem_cons_self
    have hpos : checkMultiPosition link [] = .ok () := position_of_signed hlink fun _ => rfl
    have hlevel := level_of_root (i := i) hlink fun g hg => hr link g rfl hg
    simp [checkMultiPositions,verifyLevels,hpos,hlevel]
  | @link h p link rest present decoded parent above ih =>
    intro i hd hr
    have hlink := hs link List.mem_cons_self
    have hpos : checkMultiPosition link rest = .ok () := by
      apply position_of_signed hlink
      intro hnone
      rw [parent] at hnone
      cases hnone
    cases rest with
    | nil => cases above
    | cons next rest =>
      have hbelow := ih (fun link hm => hs link (List.mem_cons_of_mem _ hm)) (i := i+1)
        (fun j link parent hj hj' => by
          have hh := hd (j+1) link parent hj hj'
          rwa [show i+(j+1) = i+1+j by omega] at hh)
        (fun link g hlast hg => hr link g (by simpa using hlast) hg)
      have hlevel := level_of_delegated hlink (hd 0 link next rfl rfl)
      refine ⟨?_,verifyLevels_cons.mpr ⟨hlevel,hbelow.2⟩⟩
      simp only [checkMultiPositions,seq_ok]
      exact ⟨hpos,by simpa only [checkMultiPositions,seq_ok] using hbelow.1⟩

theorem signed_of_levels {i : ℕ} (hm : checkMultiPositions chain = .ok ())
    (hl : verifyLevels X included l i chain = .ok ()) :
    ∀ link ∈ chain, link.Signed X included l := by
  induction chain generalizing i with
  | nil => simp
  | cons link rest ih =>
    rw [verifyLevels_cons] at hl
    simp only [checkMultiPositions,seq_ok] at hm
    exact List.forall_mem_cons.mpr ⟨signed_of_level hm.1 hl.1,ih hm.2 hl.2⟩

theorem delegated_of_levels {i : ℕ} (hd : chain.IsChain (Delegates X included l))
    (hl : verifyLevels X included l i chain = .ok ()) :
    ∀ j link parent, chain[j]? = some link → chain[j+1]? = some parent →
      link.DelegatedBy X included l (i+j) parent := by
  induction chain generalizing i with
  | nil => simp
  | cons first rest ih =>
    rw [verifyLevels_cons] at hl
    intro j link parent hj hj'
    cases j with
    | zero =>
      obtain rfl : first = link := by simpa using hj
      have hnext : rest.head? = some parent := by simpa [List.head?_eq_getElem?] using hj'
      rw [hnext] at hl
      exact delegated_of_level (List.isChain_cons.mp hd |>.1 parent hnext) hl.1
    | succ j =>
      have hh := ih (List.isChain_cons.mp hd).2 hl.2 j link parent (by simpa using hj)
        (by simpa using hj')
      rwa [show i+1+j = i+(j+1) by omega] at hh

/-- A chain that is collected is accepted when it is attested. -/
theorem verifies_collected_iff {leaf : Hash} (haddressed : ContentAddressed included)
    (hc : collectAuthorityChain X leaf included.get = .ok chain) :
    verifyCapabilityChain X leaf included l now = .ok () ↔
      Attested X included l now leaf chain := by
  rw [verifyCapabilityChain_ok]
  constructor
  · rintro ⟨-,chain',hwalk,hformat,hgrantee,htime,hscope,hmulti,hlevels⟩
    obtain rfl : chain = chain' := Except.ok.inj (hc.symm.trans hwalk)
    obtain ⟨hlinks,hlen⟩ := parentLinks_of_collect hwalk
    have hdel := verifyLevels_delegates hlinks.decoded hmulti hlevels
    refine ⟨hlinks,hlen,(checkFormats_ok chain).mp hformat,?_,signed_of_levels hmulti hlevels,?_,?_⟩
    · intro link hm
      exact (sound_iff link).mpr ⟨hgrantee link hm,htime link hm,hscope link hm⟩
    · have hall := delegated_of_levels hdel hlevels
      simpa only [Nat.zero_add] using hall
    · intro link g hlast hg
      rw [← hg]
      exact verifyLevels_root hlevels link hlast
  · intro h
    have hsound := fun link hm => (sound_iff link).mp (h.sound link hm)
    have hlevels := levels_of_attested h.reached h.signed (i := 0)
      (by simpa only [Nat.zero_add] using h.delegated) h.rooted
    exact ⟨(keyBinding_ok included).mpr haddressed,chain,hc,(checkFormats_ok chain).mpr h.oneFormat,
      fun link hm => (hsound link hm).1,fun link hm => (hsound link hm).2.1,
      fun link hm => (hsound link hm).2.2,hlevels⟩

end Passes

/-- The verifier accepts a capability exactly when it is attested. -/
theorem verifyCapabilityChain_iff_attested (X : Platform) (included : Included)
    (haddressed : ContentAddressed included) (leaf : Hash) (localPeerId : Str) (now : ℕ) :
    verifyCapabilityChain X leaf included localPeerId now = .ok () ↔
      ∃ chain, Attested X included localPeerId now leaf chain := by
  constructor
  · intro h
    obtain ⟨-,chain,hwalk,-⟩ := verifyCapabilityChain_ok.mp h
    exact ⟨chain,(verifies_collected_iff haddressed hwalk).mp h⟩
  · rintro ⟨chain,h⟩
    exact (verifies_collected_iff haddressed (h.reached.collect h.short)).mpr h

namespace Sample

/-- The chain is accepted as it comes. -/
theorem evaluated_included : verifyIncludedKeyBinding included = .ok () ∧
    verifyCapabilityChain carolCrates leaf.contentHash included aliceId 10 = .ok () := by
  decide +kernel

end Sample

open Sample in
theorem verifyCapabilityChain_iff_attested_sample : ContentAddressed included ∧
    ∃ chain, Attested carolCrates included aliceId 10 leaf.contentHash chain := by
  have haddressed : ContentAddressed included := (keyBinding_ok included).mp evaluated_included.1
  exact ⟨haddressed,(verifyCapabilityChain_iff_attested carolCrates included haddressed leaf.contentHash
    aliceId 10).mp evaluated_included.2⟩

end EntityCore
