import EntityCore.RoleEffects

/-! The operations of the role handler act by act. A request is planned from the state it
meets: what it writes, mints, unbinds and sweeps, in the order in which it does. -/
namespace EntityCore

open Ecf Outcome Strings

variable {q context role : Str} {callerCap : Option CapabilityToken}

/-- A request, with the readings of the clock that it takes. -/
inductive RoleCall where
  | define (ctx : RoleContext) (nowMs : ℕ) (clock : ℕ → ℕ)
  | assign (ctx : RoleContext) (nowMs issuedAt : ℕ)
  | reDerive (ctx : RoleContext) (nowMs : ℕ) (clock : ℕ → ℕ)
  | exclude (ctx : RoleContext) (nowMs : ℕ)
  | unexclude (ctx : RoleContext)
  | unassign (ctx : RoleContext)
  | delegate (ctx : RoleContext) (nowMs : ℕ)

inductive RoleAct where
  | write (path : Str) (entity : Entity)
  | mint (issue : RoleIssue) (issuedAt : ℕ) (cap sig link : Entity)
  | reissue (issue : RoleIssue) (issuedAt : ℕ) (cap sig link : Entity)
  | pass (context peer : Str) (issuedAt : ℕ) (cap sig : Entity)
  | unbind (path : Str)
  | sweep (context peer : Str)
  | revoke (context peer role : Str)

/-- A token that was minted, and what for; a delegation is for no role. -/
structure RoleRecord where
  context : Str
  peer : Str
  role : Option Str
  createdAt : ℕ
  cap : Entity

namespace RoleAct

def records : RoleAct → List RoleRecord
  | mint issue issuedAt cap _ _ => [⟨issue.context,issue.assignee,some issue.role,issuedAt,cap⟩]
  | reissue issue issuedAt cap _ _ => [⟨issue.context,issue.assignee,some issue.role,issuedAt,cap⟩]
  | pass context peer issuedAt cap _ => [⟨context,peer,none,issuedAt,cap⟩]
  | _ => []

def entities : RoleAct → List Entity
  | write _ entity => [entity]
  | mint _ _ cap sig link => [cap,sig,link]
  | reissue _ _ cap sig link => [cap,sig,link]
  | pass _ _ _ cap sig => [cap,sig]
  | _ => []

end RoleAct

namespace RoleHandler

section Model

variable (X : Platform) (R : RoleHandler)

def perform (s : PeerState) : RoleCall → PeerState
  | .define ctx nowMs clock => (R.handleDefine X ctx nowMs clock s).2
  | .assign ctx nowMs issuedAt => (R.handleAssign X ctx nowMs issuedAt s).2
  | .reDerive ctx nowMs clock => (R.handleReDerive X ctx nowMs clock s).2
  | .exclude ctx nowMs => (R.handleExclude X ctx nowMs s).2
  | .unexclude ctx => (R.handleUnexclude ctx s).2
  | .unassign ctx => (R.handleUnassign X ctx s).2
  | .delegate ctx nowMs => (R.handleDelegate X ctx nowMs s).2

/-- A delegation has no linkage. -/
def bindPassed (context peer : Str) (cap sig : Entity) (s : PeerState) : PeerState :=
  (((s.put cap).put sig).set (R.tokenPathOf context peer cap.contentHash) cap.contentHash).set
    (R.signaturePath cap.contentHash) sig.contentHash

/-- One listed path goes, and the signature of a capability with it. -/
def sweepOne (s : PeerState) (entry : Str × Hash) : PeerState :=
  match s.locationIndex.get entry.1 with
  | some h =>
    if (s.contentStore.get entry.2).any fun e => e.entityType = typeCapToken then
      (s.remove entry.1).remove (R.signaturePath h)
    else s.remove entry.1
  | none => s.remove entry.1

/-- Everything below the prefix of a peer goes but one path. -/
def sweepBeside (context peer newPath : Str) (s : PeerState) : PeerState :=
  ((s.locationIndex.list (R.qualify (prefixRoleDerivedPeer context peer))).filter
    fun entry => entry.1 ≠ newPath).foldl R.sweepOne s

def act (s : PeerState) : RoleAct → PeerState
  | .write path entity => (s.put entity).set path entity.contentHash
  | .mint issue _ cap sig link => R.bindMinted issue cap sig link s
  | .reissue issue _ cap sig link => R.sweepBeside issue.context issue.assignee
      (R.tokenPath issue cap.contentHash) (R.bindMinted issue cap sig link s)
  | .pass context peer _ cap sig => R.bindPassed context peer cap sig s
  | .unbind path => s.remove path
  | .sweep context peer => (R.sweepRoleDerived context peer s).2
  | .revoke context peer role => (R.revokeViaLinkage X context peer role s).2

/-! Plans. -/

def mintedEntities (issue : RoleIssue) (issuedAt : ℕ) : Option (Entity × Entity × Entity) := do
  let cap ← ((R.derivedToken issue issuedAt).toEntity X).toOption
  let sig ← (Entity.new X typeSignature (R.signatureData cap.contentHash)).toOption
  let link ← (derivedTokenLinkEntity X cap.contentHash issuedAt).toOption
  return (cap,sig,link)

/-- What a re-derivation decides to issue, with the readings for it. -/
def issuesFrom (callerCap : Option CapabilityToken) (context role : Str) (roleDef : RoleData)
    (parentExpires : Option ℕ) (nowMs : ℕ) (clock : ℕ → ℕ) (s : PeerState) :
    ℕ → List (Str × Hash) → List (RoleIssue × ℕ)
  | _, [] => []
  | n, (path,_)::rest =>
    let later := issuesFrom callerCap context role roleDef parentExpires nowMs clock s (n+1) rest
    match R.decideReDerive X callerCap context role roleDef parentExpires nowMs path s with
    | .issue issue => (issue,clock n)::later
    | _ => later

def reDerivedIssues (context role : Str) (callerCap : Option CapabilityToken) (nowMs : ℕ)
    (clock : ℕ → ℕ) (s : PeerState) : List (RoleIssue × ℕ) :=
  match R.readRole X s context role with
  | .error _ => []
  | .ok roleDef => R.issuesFrom X callerCap context role roleDef (R.handlerGrantExpiry X s) nowMs
      clock s 0 (s.locationIndex.list (R.qualify (prefixRoleAssignment context)))

def reissues (issues : List (RoleIssue × ℕ)) : List RoleAct :=
  issues.flatMap fun i => (R.mintedEntities X i.1 i.2).toList.map fun m =>
    .reissue i.1 i.2 m.1 m.2.1 m.2.2

def lastSegment (path : Str) : Str := ((segments '/' path).getLast?).getD []

def plan (s : PeerState) : RoleCall → List RoleAct
  | .define ctx nowMs clock => match R.approveDefine X ctx with
    | .error _ => []
    | .ok (parsed,role) => match role.toEntity X with
      | .error _ => []
      | .ok entity =>
        let write := .write (R.qualify (pathRoleDefinition parsed.context parsed.roleName)) entity
        write::R.reissues X (R.reDerivedIssues X parsed.context parsed.roleName
          ctx.callerCapability nowMs clock (R.act X s write))
  | .assign ctx nowMs issuedAt => match R.approveAssign X ctx nowMs s with
    | .error _ => []
    | .ok issue => match assignmentEntity X issue.role (ctx.author.getD Hash.zero) nowMs with
      | .error _ => []
      | .ok assignment => .write (R.assignmentPathOf issue) assignment::
          (R.mintedEntities X issue issuedAt).toList.map fun m =>
            .mint issue issuedAt m.1 m.2.1 m.2.2
  | .reDerive ctx nowMs clock => match R.approveReDerive X ctx s with
    | .error _ => []
    | .ok parsed => R.reissues X (R.reDerivedIssues X parsed.context parsed.roleName
        ctx.callerCapability nowMs clock s)
  | .exclude ctx nowMs => match R.approveExclusionPath ctx with
    | .error _ => []
    | .ok (path,parsed) =>
      let reason := do
        let map ← (Role.decodeMap X ctx.params.data).toOption
        (getField map "reason").bind Value.asText
      match exclusionEntity X (ctx.author.getD Hash.zero) nowMs reason with
      | .error _ => []
      | .ok entity =>
        [.write (R.exclusionTarget path) entity,.sweep parsed.context parsed.peerId]
  | .unexclude ctx => match R.approveExclusionPath ctx with
    | .error _ => []
    | .ok (path,_) => [.unbind path]
  | .unassign ctx => match R.approveUnassign ctx with
    | .error _ => []
    | .ok (_,⟨context,peer,some role⟩) =>
      [.unbind (R.qualify (pathRoleAssignment context peer role)),.revoke context peer role]
    | .ok (_,⟨context,peer,none⟩) =>
      let revokes := (s.locationIndex.list
        (R.qualify (prefixRoleDerivedLinksPeer context peer))).map fun entry =>
          RoleAct.revoke context peer (lastSegment entry.1)
      revokes++((revokes.foldl (R.act X) s).locationIndex.list
        (R.qualify (prefixRoleAssignmentPeer context peer))).map fun entry => .unbind entry.1
  | .delegate ctx nowMs => match R.approveDelegate X ctx nowMs s with
    | .error _ => []
    | .ok d => match (R.delegationToken d nowMs).toEntity X with
      | .error _ => []
      | .ok cap => match Entity.new X typeSignature (R.signatureData cap.contentHash) with
        | .error _ => []
        | .ok sig => [.pass d.context (peerSegmentFromHash d.delegate) nowMs cap sig]

def run (calls : List RoleCall) (s : PeerState) : PeerState := calls.foldl (R.perform X) s

/-- Every act of a run. -/
def acts : List RoleCall → PeerState → List RoleAct
  | [], _ => []
  | call::calls, s => R.plan X s call++acts calls (R.perform X s call)

end Model

variable {X : Platform} {R : RoleHandler}

/-! Sweeps. -/

theorem sweepPrior_state (newPath : Str) (summary : ReDeriveSummary) (s : PeerState)
    (entries : List (Str × Hash)) : (R.sweepPrior newPath summary s entries).2 =
      (entries.filter fun entry => entry.1 ≠ newPath).foldl R.sweepOne s := by
  induction entries generalizing summary s with
  | nil => rfl
  | cons entry entries ih =>
    obtain ⟨path,hash⟩ := entry
    unfold sweepPrior
    by_cases hpath : path = newPath
    · simp [hpath,ih]
    · have hremove : (s.locationIndex.remove path).1 = s.locationIndex.get path := rfl
      rw [if_neg hpath,List.filter_cons_of_pos (by simpa using hpath),List.foldl_cons,hremove]
      unfold sweepOne
      cases hget : s.locationIndex.get path with
      | none => exact ih _ _
      | some h =>
        simp only
        split_ifs
        · exact ih _ _
        · exact ih _ _

theorem sweepListed_state (entries : List (Str × Hash)) (acc : List Hash × PeerState) :
    (R.sweepListed entries acc).2 = entries.foldl R.sweepOne acc.2 := by
  induction entries generalizing acc with
  | nil => rfl
  | cons entry entries ih =>
    obtain ⟨path,hash⟩ := entry
    obtain ⟨revoked,s⟩ := acc
    have hremove : (s.locationIndex.remove path).1 = s.locationIndex.get path := rfl
    unfold sweepListed
    rw [List.foldl_cons,hremove]
    simp only [sweepOne]
    cases hget : s.locationIndex.get path with
    | none => exact ih _
    | some h =>
      simp only
      split_ifs
      · exact ih _
      · exact ih _

@[simp] theorem sweepOne_contentStore (s : PeerState) (entry : Str × Hash) :
    (R.sweepOne s entry).contentStore = s.contentStore := by
  unfold sweepOne
  split
  · split_ifs <;> rfl
  · rfl

theorem get_sweepOne (hq : ∀ token, q ≠ R.signaturePath token) (s : PeerState)
    (entry : Str × Hash) : (R.sweepOne s entry).locationIndex.get q =
      if q = entry.1 then none else s.locationIndex.get q := by
  unfold sweepOne
  split
  · split_ifs <;> simp_all
  · simp

@[simp] theorem foldl_sweepOne_contentStore (entries : List (Str × Hash)) (s : PeerState) :
    (entries.foldl R.sweepOne s).contentStore = s.contentStore := by
  induction entries generalizing s with
  | nil => rfl
  | cons entry entries ih => simp [ih]

/-- A sweep unbinds what is listed; of the rest only signatures are concerned. -/
theorem get_foldl_sweepOne (hq : ∀ token, q ≠ R.signaturePath token)
    (entries : List (Str × Hash)) (s : PeerState) :
    (entries.foldl R.sweepOne s).locationIndex.get q =
      if q ∈ entries.map Prod.fst then none else s.locationIndex.get q := by
  induction entries generalizing s with
  | nil => simp
  | cons entry entries ih =>
    rw [List.foldl_cons,ih,get_sweepOne hq]
    by_cases hqe : q = entry.1
    · simp [hqe]
    · simp only [hqe,if_false,List.map_cons,List.mem_cons,false_or]

theorem mem_listed (s : PeerState) (start q : Str) : q ∈ (s.locationIndex.list start).map Prod.fst ↔
      (s.locationIndex.get q).isSome ∧ start <+: q := by
  constructor
  · intro h
    obtain ⟨⟨path,hash⟩,hmem,rfl⟩ := List.mem_map.mp h
    have hget := (MemoryLocationIndex.mem_list _ _ _ _).mp hmem
    exact ⟨by rw [hget.1]; rfl,hget.2⟩
  · rintro ⟨hbound,hstart⟩
    obtain ⟨hash,hget⟩ := Option.isSome_iff_exists.mp hbound
    exact List.mem_map.mpr ⟨(q,hash),(MemoryLocationIndex.mem_list _ _ _ _).mpr ⟨hget,hstart⟩,rfl⟩

theorem get_sweepBeside (hq : ∀ token, q ≠ R.signaturePath token) (c p newPath : Str)
    (s : PeerState) : (R.sweepBeside c p newPath s).locationIndex.get q =
      if q ≠ newPath ∧ R.qualify (prefixRoleDerivedPeer c p) <+: q then none
      else s.locationIndex.get q := by
  have hmem : q ∈ ((s.locationIndex.list (R.qualify (prefixRoleDerivedPeer c p))).filter
      fun entry => entry.1 ≠ newPath).map Prod.fst ↔ q ≠ newPath ∧
        ((s.locationIndex.get q).isSome ∧ R.qualify (prefixRoleDerivedPeer c p) <+: q) := by
    rw [← mem_listed]
    simp only [List.mem_map,List.mem_filter,decide_eq_true_eq]
    constructor
    · rintro ⟨entry,⟨hmem,hne⟩,rfl⟩
      exact ⟨hne,entry,hmem,rfl⟩
    · rintro ⟨hne,entry,hmem,rfl⟩
      exact ⟨entry,⟨hmem,hne⟩,rfl⟩
  rw [sweepBeside,get_foldl_sweepOne hq]
  simp only [hmem]
  cases hget : s.locationIndex.get q with
  | none => simp
  | some h => simp

theorem get_sweepRoleDerived (hq : ∀ token, q ≠ R.signaturePath token) (c p : Str)
    (s : PeerState) : (R.sweepRoleDerived c p s).2.locationIndex.get q =
      if R.qualify (prefixRoleDerivedPeer c p) <+: q then none else s.locationIndex.get q := by
  rw [sweepRoleDerived,sweepListed_state,get_foldl_sweepOne hq]
  simp only [mem_listed]
  cases hget : s.locationIndex.get q with
  | none => simp
  | some h => simp

/-! Plans are what is performed. -/

/-- The exclusions of a context, as the decisions see them. -/
def SameExclusions (R : RoleHandler) (context : Str) (s s' : PeerState) : Prop :=
  ∀ peer, R.isExcluded s' context peer = R.isExcluded s context peer

theorem decideReDerive_same
    {roleDef : RoleData} {parentExpires : Option ℕ} {nowMs : ℕ} {path : Str} {s s' : PeerState}
    (h : R.SameExclusions context s s') :
    R.decideReDerive X callerCap context role roleDef parentExpires nowMs path s' =
      R.decideReDerive X callerCap context role roleDef parentExpires nowMs path s := by
  unfold decideReDerive
  simp only [h _]

theorem sameExclusions_reissue (issue : RoleIssue) (issuedAt : ℕ) (cap sig link : Entity)
    (s : PeerState) :
    R.SameExclusions issue.context s (R.act X s (.reissue issue issuedAt cap sig link)) := by
  intro peer
  have hrole := role_exclusion (R := R) issue.context peer
  have hunder : ¬ R.qualify (prefixRoleDerivedPeer issue.context issue.assignee) <+:
      R.qualify (pathRoleExclusion issue.context peer) :=
    fun h => role_ne_derived hrole ((derived_peer _ _).trans h) rfl
  rw [← isExcluded_bindMinted issue cap sig link s peer,isExcluded,isExcluded,act,
    get_sweepBeside (role_ne_signature hrole),if_neg (fun h => hunder h.2)]

theorem mintedEntities_minted {issue : RoleIssue} {issuedAt : ℕ} {cap sig link : Entity}
    (h : Minted X R issue issuedAt cap sig link) :
    R.mintedEntities X issue issuedAt = some (cap,sig,link) := by
  simp [mintedEntities,h.token,h.signature,h.linkage,Except.toOption]

theorem minted_of_mintedEntities {issue : RoleIssue} {issuedAt : ℕ} {m : Entity × Entity × Entity}
    (h : R.mintedEntities X issue issuedAt = some m) :
    Minted X R issue issuedAt m.1 m.2.1 m.2.2 := by
  cases hcap : (R.derivedToken issue issuedAt).toEntity X with
  | error e => simp [mintedEntities,hcap,Except.toOption] at h
  | ok cap =>
    cases hsig : Entity.new X typeSignature (R.signatureData cap.contentHash) with
    | error e => simp [mintedEntities,hcap,hsig,Except.toOption] at h
    | ok sig =>
      cases hlink : derivedTokenLinkEntity X cap.contentHash issuedAt with
      | error e => simp [mintedEntities,hcap,hsig,hlink,Except.toOption] at h
      | ok link =>
        obtain rfl : (cap,sig,link) = m := by
          simpa [mintedEntities,hcap,hsig,hlink,Except.toOption] using h
        exact ⟨hcap,hsig,hlink⟩

/-- A decision to issue is made for a peer that is not excluded. -/
theorem decideReDerive_checked
    {roleDef : RoleData} {parentExpires : Option ℕ} {nowMs : ℕ} {path : Str} {s : PeerState}
    {issue : RoleIssue} (h : R.decideReDerive X callerCap context role roleDef parentExpires nowMs
      path s = .issue issue) : issue.context = context ∧ issue.role = role ∧
      (∃ c, parseAssignmentPath path = some ⟨c,issue.assignee,some role⟩) ∧
      hashFromPeerSegment issue.assignee = some issue.grantee ∧ issue.grantee.isZero = false ∧
      R.isExcluded s issue.context issue.assignee = false := by
  unfold decideReDerive at h
  split at h
  · cases h
  · rename_i parsed hparsed
    split_ifs at h with hrole hexcl
    split at h
    · cases h
    · rename_i grantee hgrantee
      simp only at h
      split_ifs at h with hzero hcovered
      cases h
      obtain ⟨c,p,r⟩ := parsed
      simp only [ne_eq,not_not] at hrole
      subst hrole
      exact ⟨rfl,rfl,⟨c,hparsed⟩,hgrantee,by simpa using hzero,by simpa using hexcl⟩

theorem reIssue_state (hX : X.FormatAllocated) {issue : RoleIssue} {s : PeerState}
    (hexcl : R.isExcluded s issue.context issue.assignee = false) (issuedAt : ℕ)
    (summary : ReDeriveSummary) : (R.reIssue X issue issuedAt summary s).2 =
      (R.reissues X [(issue,issuedAt)]).foldl (R.act X) s := by
  obtain ⟨cap,sig,link,hm,hd⟩ := deriveAndPersistToken_minted (R := R) hX issue issuedAt s
  have hafter : R.isExcluded (R.bindMinted issue cap sig link s) issue.context issue.assignee =
      false := by rw [isExcluded_bindMinted,hexcl]
  simp only [reIssue,hd,hafter,Bool.false_eq_true,if_false,sweepPrior_state,reissues,
    List.flatMap_cons,List.flatMap_nil,mintedEntities_minted hm]
  rfl

theorem reDeriveFrom_state (hX : X.FormatAllocated)
    {roleDef : RoleData} {parentExpires : Option ℕ} {nowMs : ℕ}
    {clock : ℕ → ℕ} {start : PeerState} (listed : List (Str × Hash)) (n : ℕ)
    (summary : ReDeriveSummary) (s : PeerState) (hs : R.SameExclusions context start s) :
    (R.reDeriveFrom X callerCap context role roleDef parentExpires nowMs clock n listed
      (summary,s)).2 = (R.reissues X (R.issuesFrom X callerCap context role roleDef parentExpires
        nowMs clock start n listed)).foldl (R.act X) s := by
  induction listed generalizing n summary s with
  | nil => rfl
  | cons entry listed ih =>
    obtain ⟨path,hash⟩ := entry
    rw [reDeriveFrom,issuesFrom,decideReDerive_same hs]
    cases hd : R.decideReDerive X callerCap context role roleDef parentExpires nowMs path start with
    | pass => exact ih _ _ _ hs
    | excluded => exact ih _ _ _ hs
    | uncovered grantee => exact ih _ _ _ hs
    | issue issue =>
      obtain ⟨rfl,_,_,_,_,hexcl⟩ := decideReDerive_checked hd
      have hone := reIssue_state hX (R := R) ((hs _).trans hexcl) (clock n) summary
      have hsplit : R.reissues X ((issue,clock n)::R.issuesFrom X callerCap issue.context role
          roleDef parentExpires nowMs clock start (n+1) listed) =
          R.reissues X [(issue,clock n)]++R.reissues X (R.issuesFrom X callerCap issue.context role
            roleDef parentExpires nowMs clock start (n+1) listed) := by
        simp [reissues]
      simp only [hsplit,List.foldl_append,← hone]
      generalize hr : R.reIssue X issue (clock n) summary s = next at hone
      obtain ⟨summary',s'⟩ := next
      refine ih _ _ _ fun peer => ?_
      obtain ⟨cap,sig,link,hm,_⟩ := deriveAndPersistToken_minted (R := R) hX issue (clock n) s
      have hstate : s' = R.act X s (.reissue issue (clock n) cap sig link) := by
        rw [show s' = (summary',s').2 from rfl,hone]
        simp [reissues,mintedEntities_minted hm]
      rw [hstate,sameExclusions_reissue issue (clock n) cap sig link s peer]
      exact hs peer

theorem reDeriveRoleAssignees_state (hX : X.FormatAllocated) (context role : Str)
    (callerCap : Option CapabilityToken) (nowMs : ℕ) (clock : ℕ → ℕ) (s : PeerState) :
    (R.reDeriveRoleAssignees X context role callerCap nowMs clock s).2 =
      (R.reissues X (R.reDerivedIssues X context role callerCap nowMs clock s)).foldl
        (R.act X) s := by
  unfold reDeriveRoleAssignees reDerivedIssues
  cases R.readRole X s context role with
  | error e => rfl
  | ok roleDef => exact reDeriveFrom_state hX _ _ _ _ fun _ => rfl

theorem revokeListed_state (context peer : Str) (entries : List (Str × Hash))
    (acc : List Hash × PeerState) : (R.revokeListed X context peer entries acc).2 =
      (entries.map fun entry => RoleAct.revoke context peer (lastSegment entry.1)).foldl
        (R.act X) acc.2 := by
  induction entries generalizing acc with
  | nil => rfl
  | cons entry entries ih =>
    obtain ⟨path,hash⟩ := entry
    exact ih _

theorem removeListed_state (entries : List (Str × Hash)) (s : PeerState) :
    removeListed entries s = (entries.map fun entry => RoleAct.unbind entry.1).foldl (R.act X) s := by
  rw [removeListed,List.foldl_map]
  rfl

theorem isExcluded_bindPassed (c p : Str) (cap sig : Entity) (s : PeerState) (peer : Str) :
    R.isExcluded (R.bindPassed c p cap sig s) c peer = R.isExcluded s c peer := by
  have hrole := role_exclusion (R := R) c peer
  have htoken : R.qualify (pathRoleExclusion c peer) ≠ R.tokenPathOf c p cap.contentHash :=
    role_ne_derived hrole (derived_tokenPath _ _ _)
  simp only [isExcluded,bindPassed,PeerState.get_set,PeerState.put_locationIndex,htoken,
    role_ne_signature hrole,false_and,if_false]

theorem approveDelegate_checked {ctx : RoleContext} {nowMs : ℕ} {s : PeerState} {d : RoleDelegation}
    (h : R.approveDelegate X ctx nowMs s = .ok d) :
    R.isExcluded s d.context (peerSegmentFromHash d.delegate) = false := by
  simp only [approveDelegate,bind_ok,okOr_ok,mapErr_ok,pure_ok] at h
  obtain ⟨_,_,_,_,_,_,_,_,_,_,_,_,_,_,_,_,_,_,_,_,_,_,_,hexcl,_,_,_,_,_,_,_,_,_,_,_,_,_,_,rfl⟩ := h
  simpa using (ensure_ok _ _).mp hexcl

/-- A request does what its plan says, act by act. -/
theorem perform_plan (hX : X.FormatAllocated) (s : PeerState) (call : RoleCall) :
    R.perform X s call = (R.plan X s call).foldl (R.act X) s := by
  cases call with
  | define ctx nowMs clock =>
    simp only [perform,plan,handleDefine]
    cases R.approveDefine X ctx with
    | error e => rfl
    | ok p =>
      obtain ⟨parsed,role⟩ := p
      simp only
      cases role.toEntity X with
      | error e => rfl
      | ok entity => exact reDeriveRoleAssignees_state hX _ _ _ _ _ _
  | assign ctx nowMs issuedAt =>
    simp only [perform,plan]
    cases happ : R.approveAssign X ctx nowMs s with
    | error e => simp [handleAssign,happ]
    | ok issue =>
      obtain ⟨assignment,cap,sig,link,ha,hm,hstate⟩ := handleAssign_approved hX happ issuedAt
      rw [hstate]
      simp only [ha,mintedEntities_minted hm]
      rfl
  | reDerive ctx nowMs clock =>
    simp only [perform,plan,handleReDerive]
    cases R.approveReDerive X ctx s with
    | error e => rfl
    | ok parsed => exact reDeriveRoleAssignees_state hX _ _ _ _ _ _
  | exclude ctx nowMs =>
    simp only [perform,plan,handleExclude]
    cases R.approveExclusionPath ctx with
    | error e => rfl
    | ok p =>
      obtain ⟨path,parsed⟩ := p
      simp only
      split <;> simp_all [act]
  | unexclude ctx =>
    simp only [perform,plan,handleUnexclude]
    cases R.approveExclusionPath ctx with
    | error e => rfl
    | ok p => rfl
  | unassign ctx =>
    simp only [perform,plan,handleUnassign]
    cases R.approveUnassign ctx with
    | error e => rfl
    | ok p =>
      obtain ⟨path,context,peer,role⟩ := p
      cases role with
      | some role => rfl
      | none =>
        rw [List.foldl_append,← revokeListed_state context peer _ ([],s)]
        exact removeListed_state _ _
  | delegate ctx nowMs =>
    simp only [perform,plan,handleDelegate]
    cases happ : R.approveDelegate X ctx nowMs s with
    | error e => rfl
    | ok d =>
      obtain ⟨cap,hcap⟩ := token_toEntity hX (R.delegationToken d nowMs)
      have hnew : ∃ sig, Entity.new X typeSignature (R.signatureData cap.contentHash) = .ok sig :=
        Entity.new_ok hX (by decide) (by decide) (toEcf_map_ne_nil _)
      obtain ⟨sig,hsig⟩ := hnew
      have hexcl : R.isExcluded (R.bindPassed d.context (peerSegmentFromHash d.delegate) cap sig s)
          d.context (peerSegmentFromHash d.delegate) = false := by
        rw [isExcluded_bindPassed,approveDelegate_checked happ]
      rw [bindPassed] at hexcl
      simp only [hcap,hsig,hexcl,Bool.false_eq_true,if_false]
      rfl

theorem run_acts (hX : X.FormatAllocated) (calls : List RoleCall) (s : PeerState) :
    R.run X calls s = (R.acts X calls s).foldl (R.act X) s := by
  induction calls generalizing s with
  | nil => rfl
  | cons call calls ih =>
    rw [acts,List.foldl_append,← perform_plan hX,← ih]
    rfl

end RoleHandler
end EntityCore
