import EntityCore.Pattern
import EntityCore.Identity
import EntityCore.Narrowing

/-! Capability tokens: scopes and grants, what a token authorizes in its granter's
frame, and attenuation of one token by another. -/
namespace EntityCore

open Ecf Outcome

inductive CapabilityError where
  | denied (message : String)
  | invalid (message : String)
  | delegationError (message : String)
  | entityError (message : String)
  | expired
  deriving DecidableEq

structure PathScope where
  includes : List Str
  excludes : List Str
  deriving DecidableEq

structure IdScope where
  includes : List Str
  excludes : List Str
  deriving DecidableEq

/-- One grant: all four dimensions must match at once. -/
structure GrantEntry where
  handlers : PathScope
  resources : PathScope
  operations : IdScope
  /-- Absent means the local peer only. -/
  peers : Option IdScope
  constraints : Option (OrderedMap Str Value)
  allowances : Option (OrderedMap Str Value)

structure ResourceTarget where
  targets : List Str
  excludes : List Str
  deriving DecidableEq

structure MultiGranter where
  signers : List Hash
  threshold : ℕ
  deriving DecidableEq

def MultiGranter.validate (m : MultiGranter) : Except CapabilityError Unit :=
  let n := m.signers.length
  if n < 2 then .error (.invalid ("multi-granter must have N ≥ 2 signers, got "++toString n))
  else if m.threshold < 2 then
    .error (.invalid ("multi-granter threshold K must be ≥ 2, got "++toString m.threshold))
  else if m.threshold > n then
    .error (.invalid ("multi-granter threshold K ("++toString m.threshold++ ") exceeds N ("++
      toString n++ ")"))
  else if ¬ m.signers.Nodup then .error (.invalid "multi-granter contains duplicate signers")
  else .ok ()

inductive Granter where
  | single (hash : Hash)
  | multi (m : MultiGranter)
  deriving DecidableEq

structure DelegationCaveats where
  noDelegation : Option Bool
  maxDelegationDepth : Option ℕ
  maxDelegationTtl : Option ℕ
  deriving DecidableEq

structure CapabilityToken where
  grants : List GrantEntry
  granter : Granter
  grantee : Hash
  parent : Option Hash
  createdAt : ℕ
  expiresAt : Option ℕ
  notBefore : Option ℕ
  delegationCaveats : Option DelegationCaveats

/-! What a token authorizes. -/

/-- The targets left after the caller's own exclusions, as the caller wrote them. -/
def effectiveTargets (resourceTarget : Option ResourceTarget) (localPeerId : Str) : List Str :=
  match resourceTarget with
  | none => []
  | some rt => rt.targets.filter fun target =>
    !isCoveredBy (canonicalize target localPeerId) rt.excludes localPeerId

/-- A pattern names a set of paths, so it survives a grant exclude it may meet only
where the caller has carved that exclude out. -/
def patternSubjectSurvivesGrantExcludes (canonicalSubject : Str)
    (grantExclude callerExclude : List Str) (localPeerId granterPeerId : Str) : Bool :=
  grantExclude.all fun ge =>
    let cge := canonicalize ge granterPeerId
    cge ≠ neverMatch &&
      (!patternsOverlap canonicalSubject cge || isCoveredBy cge callerExclude localPeerId)

/-- The request is read in the local frame, the grant in its granter's. -/
def checkResourceScope (resourceTarget : ResourceTarget) (grantResources : PathScope)
    (localPeerId granterPeerId : Str) : Bool :=
  (effectiveTargets (some resourceTarget) localPeerId).all fun target =>
    let ct := canonicalize target localPeerId
    (isPattern ct || (EntityUri.validateAbsolutePath ct).isOk) &&
    isCoveredBy ct grantResources.includes granterPeerId &&
    if isPattern ct then
      patternSubjectSurvivesGrantExcludes ct grantResources.excludes resourceTarget.excludes
        localPeerId granterPeerId
    else grantResources.excludes.all fun ge =>
      let cge := canonicalize ge granterPeerId
      cge ≠ neverMatch && !matchesPattern ct cge

def peersOrLocal (peers : Option IdScope) (localPeerId : Str) : IdScope :=
  peers.getD ⟨[localPeerId],[]⟩

def grantAuthorizes (operation handlerPattern targetPeer : Str)
    (resourceTarget : Option ResourceTarget) (localPeerId granterPeerId : Str)
    (grant : GrantEntry) : Bool :=
  matchesIdScope operation grant.operations.includes grant.operations.excludes &&
  matchesScope handlerPattern grant.handlers.includes grant.handlers.excludes localPeerId &&
  matchesIdScope targetPeer (peersOrLocal grant.peers localPeerId).includes
    (peersOrLocal grant.peers localPeerId).excludes &&
  match resourceTarget with
  | some rt => checkResourceScope rt grant.resources localPeerId granterPeerId
  | none => true

/-- The first grant that covers the request, if any. -/
def checkPermissionWithGrant (operation handlerPattern targetPeer : Str)
    (resourceTarget : Option ResourceTarget) (capability : CapabilityToken)
    (localPeerId granterPeerId : Str) : Option GrantEntry :=
  capability.grants.find?
    (grantAuthorizes operation handlerPattern targetPeer resourceTarget localPeerId granterPeerId)

/-- The peer in whose namespace a token's relative resource patterns lie. -/
def resolveGranterPeerId (X : Platform) (granter : Granter) (localPeerId : Str)
    (lookup : Hash → Option Entity) : Option Str :=
  match granter with
  | .multi _ => some localPeerId
  | .single granterHash => do
    let granterEntity ← lookup granterHash
    if granterEntity.entityType ≠ typePeer then none
    else
      let peer ← (PeerData.fromEntity X granterEntity).toOption
      peer.canonicalPeerId X

def pathScopeAdmitsSubject (canonicalSubject : Str) (scope : PathScope)
    (localPeerId granterPeerId : Str) : Bool :=
  if !isPattern canonicalSubject then
    matchesScope canonicalSubject scope.includes scope.excludes granterPeerId
  else isCoveredBy canonicalSubject scope.includes granterPeerId &&
    patternSubjectSurvivesGrantExcludes canonicalSubject scope.excludes [] localPeerId granterPeerId

def checkPathPermission (operation path : Str) (authority : CapabilityToken)
    (handlerPattern localPeerId granterPeerId : Str) : Bool :=
  let canonicalPath := canonicalize path localPeerId
  authority.grants.any fun grant =>
    matchesScope handlerPattern grant.handlers.includes grant.handlers.excludes localPeerId &&
    matchesIdScope operation grant.operations.includes grant.operations.excludes &&
    pathScopeAdmitsSubject canonicalPath grant.resources localPeerId granterPeerId

/-- The first scope pattern that can match nothing; the frame does not matter. -/
def unmatchableScopePattern (grants : List GrantEntry) : Option Str :=
  let anyFrame := "unused-frame-see-doc-comment".toList
  (grants.flatMap fun grant => [grant.handlers,grant.resources].flatMap fun scope =>
    scope.includes++scope.excludes).find? fun pattern => canonicalize pattern anyFrame = neverMatch

/-! Attenuation. -/

def scopeSubsetPath (child parent : PathScope) (childCanonPeerId parentCanonPeerId : Str) : Bool :=
  (child.includes.all fun ci =>
    isCoveredBy (canonicalize ci childCanonPeerId) parent.includes parentCanonPeerId) &&
  parent.excludes.all fun pe =>
    isCoveredBy (canonicalize pe parentCanonPeerId) child.excludes childCanonPeerId

def scopeSubsetId (child parent : IdScope) : Bool :=
  (child.includes.all fun ci => parent.includes.any (matchesIdPattern ci)) &&
  parent.excludes.all fun pe => child.excludes.any (matchesIdPattern pe)

/-- Only resources are relative to a granter. -/
def grantAxesSubset (child parent : GrantEntry)
    (childGranterPeerId parentGranterPeerId localPeerId : Str) : Bool :=
  scopeSubsetPath child.handlers parent.handlers localPeerId localPeerId &&
  scopeSubsetId child.operations parent.operations &&
  scopeSubsetPath child.resources parent.resources childGranterPeerId parentGranterPeerId &&
  scopeSubsetId (peersOrLocal child.peers localPeerId) (peersOrLocal parent.peers localPeerId)

def cborBytesEqual (X : Platform) (a b : Value) : Bool :=
  match X.intoWriter a, X.intoWriter b with
  | .ok x, .ok y => x = y
  | _, _ => false

/-- Every entry of `keep` is in `have'` with an identical value. -/
def fieldsKept (X : Platform) (keep have' : Option (OrderedMap Str Value)) : Bool :=
  (keep.getD OrderedMap.empty).entries.all fun kv =>
    match (have'.getD OrderedMap.empty).get kv.1 with
    | none => false
    | some v => cborBytesEqual X kv.2 v

/-- Constraints narrow, so a child keeps all of its parent's; allowances widen, so
a child has only its parent's. -/
def grantSubset (X : Platform) (child parent : GrantEntry)
    (childGranterPeerId parentGranterPeerId localPeerId : Str) : Bool :=
  grantAxesSubset child parent childGranterPeerId parentGranterPeerId localPeerId &&
  fieldsKept X parent.constraints child.constraints &&
  fieldsKept X child.allowances parent.allowances

def grantCoveredBy (X : Platform) (childGrant : GrantEntry) (parentGrants : List GrantEntry)
    (childGranterPeerId parentGranterPeerId localPeerId : Str) : Bool :=
  parentGrants.any fun pg =>
    grantSubset X childGrant pg childGranterPeerId parentGranterPeerId localPeerId

def isAttenuatedInner (X : Platform) (child parent : CapabilityToken)
    (childGranterPeerId parentGranterPeerId localPeerId : Str) : Bool :=
  (child.grants.all fun childGrant => grantCoveredBy X childGrant parent.grants
    childGranterPeerId parentGranterPeerId localPeerId) &&
  match parent.expiresAt with
  | none => true
  | some parentExp => match child.expiresAt with
    | none => false
    | some childExp => childExp ≤ parentExp

def isAttenuated (X : Platform) (child parent : CapabilityToken) (localPeerId : Str) : Bool :=
  isAttenuatedInner X child parent localPeerId localPeerId localPeerId

def isAttenuatedFramed (X : Platform) (child parent : CapabilityToken)
    (childGranterPeerId parentGranterPeerId localPeerId : Str) : Bool :=
  isAttenuatedInner X child parent childGranterPeerId parentGranterPeerId localPeerId

def checkDelegationCaveats (parent child : CapabilityToken) (depth : ℕ) : Bool :=
  match parent.delegationCaveats with
  | none => true
  | some caveats =>
    if caveats.noDelegation = some true then false
    else if caveats.maxDelegationDepth.any (fun maxDepth => depth ≥ maxDepth) then false
    else match caveats.maxDelegationTtl with
      | none => true
      | some maxTtl => match child.expiresAt with
        | none => false
        | some exp => exp-child.createdAt ≤ maxTtl

/-! Attenuation narrows: each dimension is a scope inside a scope. -/

open Narrowing

theorem matchesIdScope_iff (v : Str) (inc exc : List Str) : matchesIdScope v inc exc = true ↔
    Admits (fun v p => matchesIdPattern v p = true) inc exc v := by
  simp [matchesIdScope,Admits]

theorem scopeSubsetId_iff (c p : IdScope) : scopeSubsetId c p = true ↔
    Inside (fun x y => matchesIdPattern x y = true) (fun x y => matchesIdPattern x y = true)
      c.includes c.excludes p.includes p.excludes := by
  simp only [scopeSubsetId,Bool.and_eq_true,List.all_eq_true,List.any_eq_true]
  exact ⟨fun h => ⟨h.1,h.2⟩,fun h => ⟨h.includes,h.excludes⟩⟩

variable {cf pf l v : Str} {c p : PathScope}

theorem matchesIdScope_of_subset {c p : IdScope} (h : scopeSubsetId c p = true)
    (hc : matchesIdScope v c.includes c.excludes = true) :
    matchesIdScope v p.includes p.excludes = true := by
  rw [matchesIdScope_iff] at hc ⊢
  exact ((scopeSubsetId_iff c p).mp h).admits _ _ (fun _ _ => matchesId_trans)
    (fun _ _ => matchesId_trans) hc

/-- `pattern`, read in `frame`, matches the canonical path `v`. -/
def Hits (frame v pattern : Str) : Prop := matchesPattern v (canonicalize pattern frame) = true

theorem scopeSubsetPath_iff (c p : PathScope) (cf pf : Str) : scopeSubsetPath c p cf pf = true ↔
    Inside (fun x => Hits pf (canonicalize x cf)) (fun y => Hits cf (canonicalize y pf))
      c.includes c.excludes p.includes p.excludes := by
  simp only [scopeSubsetPath,isCoveredBy,Bool.and_eq_true,List.all_eq_true,List.any_eq_true]
  exact ⟨fun h => ⟨h.1,h.2⟩,fun h => ⟨h.includes,h.excludes⟩⟩

/-- No exclude of an outer scope is unmatchable: something lies above it. -/
theorem excludes_ne_never_of_subset
    (h : scopeSubsetPath c p cf pf = true) : ∀ pe ∈ p.excludes, canonicalize pe pf ≠ neverMatch := by
  intro pe hpe
  obtain ⟨ce,_,hce⟩ := ((scopeSubsetPath_iff c p cf pf).mp h).excludes pe hpe
  exact ne_never_of_matches hce

theorem admits_of_subset (hv : NoEmptySegment v)
    (h : scopeSubsetPath c p cf pf = true) (hc : Admits (Hits cf) c.includes c.excludes v) :
    Admits (Hits pf) p.includes p.excludes v :=
  ((scopeSubsetPath_iff c p cf pf).mp h).admits (Hits cf) (Hits pf) (fun _ _ => matches_trans hv)
    (fun _ _ => matches_trans hv) hc

theorem matchesScope_iff (v : Str) (inc exc : List Str) (l : Str) :
    matchesScope v inc exc l = true ↔ Admits (Hits l) inc exc (canonicalize v l) ∧
      ∀ e ∈ exc, canonicalize e l ≠ neverMatch := by
  simp only [matchesScope,Bool.and_eq_true,List.any_eq_true,List.all_eq_true,
    Bool.not_eq_true',Admits,Hits,Bool.not_eq_true,ne_eq,decide_not]
  constructor
  · rintro ⟨hi,he⟩
    exact ⟨⟨hi,fun e hm => (he e hm).2⟩,fun e hm => by simpa using (he e hm).1⟩
  · rintro ⟨⟨hi,he⟩,hn⟩
    exact ⟨hi,fun e hm => ⟨by simpa using hn e hm,he e hm⟩⟩

theorem matchesScope_of_subset (hv : NoEmptySegment (canonicalize v l))
    (h : scopeSubsetPath c p l l = true) (hc : matchesScope v c.includes c.excludes l = true) :
    matchesScope v p.includes p.excludes l = true := by
  rw [matchesScope_iff] at hc ⊢
  exact ⟨admits_of_subset hv h hc.1,excludes_ne_never_of_subset h⟩

/-- A concrete target fits a grant when it is a valid path the grant's scope admits. -/
theorem checkResourceScope_concrete {rt : ResourceTarget}
    (hc : ∀ t ∈ effectiveTargets (some rt) l, isPattern (canonicalize t l) = false)
    (scope : PathScope) (g : Str) : checkResourceScope rt scope l g = true ↔
      ∀ t ∈ effectiveTargets (some rt) l,
        (EntityUri.validateAbsolutePath (canonicalize t l)).isOk = true ∧
        Admits (Hits g) scope.includes scope.excludes (canonicalize t l) ∧
        ∀ e ∈ scope.excludes, canonicalize e g ≠ neverMatch := by
  simp only [checkResourceScope,List.all_eq_true]
  refine forall₂_congr fun t ht => ?_
  simp only [hc t ht,Bool.false_or,Bool.and_eq_true,Bool.false_eq_true,if_false,isCoveredBy,
    List.any_eq_true,List.all_eq_true,Admits,Hits,Bool.not_eq_true',Bool.not_eq_true,
    ne_eq,decide_not]
  constructor
  · rintro ⟨⟨hv,hi⟩,he⟩
    exact ⟨hv,⟨hi,fun e hm => (he e hm).2⟩,fun e hm => by simpa using (he e hm).1⟩
  · rintro ⟨hv,⟨hi,he⟩,hn⟩
    exact ⟨⟨hv,hi⟩,fun e hm => ⟨by simpa using hn e hm,he e hm⟩⟩

/-- A request as the dispatch check sees it. -/
structure Request where
  operation : Str
  handlerPattern : Str
  targetPeer : Str
  resourceTarget : Option ResourceTarget

/-- The handler pattern has no empty segment and every effective target is a path. -/
structure Request.Concrete (q : Request) (l : Str) : Prop where
  handler : NoEmptySegment (canonicalize q.handlerPattern l)
  targets : ∀ t ∈ effectiveTargets q.resourceTarget l, isPattern (canonicalize t l) = false

def CapabilityToken.Authorizes (token : CapabilityToken) (q : Request) (l g : Str) : Prop :=
  (checkPermissionWithGrant q.operation q.handlerPattern q.targetPeer q.resourceTarget token
    l g).isSome = true

theorem authorizes_iff (token : CapabilityToken) (q : Request) (l g : Str) :
    token.Authorizes q l g ↔ ∃ grant ∈ token.grants,
      grantAuthorizes q.operation q.handlerPattern q.targetPeer q.resourceTarget l g grant = true := by
  simp [CapabilityToken.Authorizes,checkPermissionWithGrant]

theorem grantAuthorizes_of_subset {q : Request} {c p : GrantEntry}
    (hq : q.Concrete l) (h : grantAxesSubset c p cf pf l = true)
    (hc : grantAuthorizes q.operation q.handlerPattern q.targetPeer q.resourceTarget l cf c = true) :
    grantAuthorizes q.operation q.handlerPattern q.targetPeer q.resourceTarget l pf p = true := by
  simp only [grantAxesSubset,Bool.and_eq_true] at h
  obtain ⟨⟨⟨hh,ho⟩,hr⟩,hp⟩ := h
  simp only [grantAuthorizes,Bool.and_eq_true] at hc ⊢
  obtain ⟨⟨⟨co,ch⟩,cp⟩,cr⟩ := hc
  refine ⟨⟨⟨matchesIdScope_of_subset ho co,matchesScope_of_subset hq.handler hh ch⟩,
    matchesIdScope_of_subset hp cp⟩,?_⟩
  cases hrt : q.resourceTarget with
  | none => rfl
  | some rt =>
    have ht := hq.targets
    simp only [hrt] at cr ht ⊢
    rw [checkResourceScope_concrete ht] at cr ⊢
    intro t hm
    obtain ⟨hv,ha,_⟩ := cr t hm
    exact ⟨hv,admits_of_subset ((validateAbsolutePath_ok _).mp hv).2 hr ha,
      excludes_ne_never_of_subset hr⟩

/-- One link of a chain: the parent authorizes whatever the child does. -/
theorem authorizes_of_attenuated {X : Platform} {q : Request}
    {child parent : CapabilityToken} (hq : q.Concrete l)
    (h : isAttenuatedInner X child parent cf pf l = true) (hc : child.Authorizes q l cf) :
    parent.Authorizes q l pf := by
  rw [authorizes_iff] at hc ⊢
  obtain ⟨c,hcm,hca⟩ := hc
  simp only [isAttenuatedInner,grantCoveredBy,grantSubset,Bool.and_eq_true,List.all_eq_true,
    List.any_eq_true] at h
  obtain ⟨p,hpm,⟨haxes,_⟩,_⟩ := h.1 c hcm
  exact ⟨p,hpm,grantAuthorizes_of_subset hq haxes hca⟩

end EntityCore
