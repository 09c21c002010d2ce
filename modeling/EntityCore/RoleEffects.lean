import EntityCore.RoleOperations

/-! What the operations of the role handler leave behind: the three subtrees they write in,
what an accepted request has been checked for, and what a minted token binds. -/
namespace EntityCore

open Ecf Outcome Strings

namespace PeerState

variable (s : PeerState)

@[simp] theorem put_locationIndex (e : Entity) : (s.put e).locationIndex = s.locationIndex := rfl

@[simp] theorem set_contentStore (path : Str) (hash : Hash) :
    (s.set path hash).contentStore = s.contentStore := rfl

@[simp] theorem remove_contentStore (path : Str) :
    (s.remove path).contentStore = s.contentStore := rfl

@[simp] theorem get_put (e : Entity) (h : Hash) : (s.put e).contentStore.get h =
    if h = e.contentHash then some e else s.contentStore.get h := by simp [put]

@[simp] theorem get_set (path : Str) (hash : Hash) (q : Str) : (s.set path hash).locationIndex.get q =
    if q = path ∧ pathIsStorable path then some hash else s.locationIndex.get q :=
  MemoryLocationIndex.get_set _ _ _ _

@[simp] theorem get_remove (path q : Str) : (s.remove path).locationIndex.get q =
    if q = path then none else s.locationIndex.get q := by
  simp [remove,MemoryLocationIndex.remove,MemoryLocationIndex.get]

end PeerState

/-! The subtrees. -/

theorem ne_of_prefix {p q a b : Str} (ha : p <+: a) (hb : q <+: b) (hpq : ¬ p <+: q)
    (hqp : ¬ q <+: p) : a ≠ b := by
  rintro rfl
  rcases Nat.le_total p.length q.length with hlen | hlen
  · exact hpq (List.prefix_of_prefix_length_le ha hb hlen)
  · exact hqp (List.prefix_of_prefix_length_le hb ha hlen)

def signaturePrefix : Str := "system/signature/".toList

namespace RoleHandler

variable {X : Platform} {R : RoleHandler}

theorem qualified_within (a b : Str) : R.qualify a <+: R.qualify b ↔ a <+: b := by
  simp [qualify,List.prefix_append_right_inj]

theorem qualify_inj {a b : Str} : R.qualify a = R.qualify b ↔ a = b := by
  simp [qualify]

theorem role_definition (c r : Str) : R.qualify rolePrefix <+: R.qualify (pathRoleDefinition c r) := by
  rw [qualified_within]
  exact ⟨c++ '/'::r,by simp [pathRoleDefinition]⟩

theorem role_assignment (c p r : Str) :
    R.qualify rolePrefix <+: R.qualify (pathRoleAssignment c p r) := by
  rw [qualified_within]
  exact ⟨c++ ("/assignment/".toList++ (p++ '/'::r)),by simp only [pathRoleAssignment,List.append_assoc]⟩

theorem role_exclusion (c p : Str) :
    R.qualify rolePrefix <+: R.qualify (pathRoleExclusion c p) := by
  rw [qualified_within]
  exact ⟨c++ ("/excluded/".toList++p),by simp only [pathRoleExclusion,List.append_assoc]⟩

theorem role_link (c p r : Str) : R.qualify rolePrefix <+: R.linkPathOf c p r := by
  rw [linkPathOf,qualified_within]
  exact ⟨c++ ("/derived-tokens/".toList++ (p++ '/'::r)),
    by simp only [pathRoleDerivedLink,List.append_assoc]⟩

theorem derived_peer (c p : Str) :
    R.qualify roleDerivedPrefix <+: R.qualify (prefixRoleDerivedPeer c p) := by
  rw [qualified_within]
  exact ⟨c++ ('/'::p++['/']),by simp only [prefixRoleDerivedPeer,List.append_assoc]⟩

theorem derived_token (c p : Str) (token : Hash) :
    R.qualify (prefixRoleDerivedPeer c p) <+: R.tokenPathOf c p token := by
  rw [tokenPathOf,qualified_within]
  exact List.prefix_append _ _

theorem signaturePath_eq (token : Hash) :
    R.signaturePath token = R.qualify (signaturePrefix++token.toHex) := by
  have hslash : "/system/signature/".toList = '/'::signaturePrefix := by decide +kernel
  simp only [signaturePath,CapabilityHandler.invariantSignaturePath,qualify,hslash,
    List.cons_append,List.append_assoc]

theorem signature_path (token : Hash) : R.qualify signaturePrefix <+: R.signaturePath token := by
  rw [signaturePath_eq,qualified_within]
  exact List.prefix_append _ _

theorem subtrees_apart : ¬ R.qualify rolePrefix <+: R.qualify roleDerivedPrefix ∧
    ¬ R.qualify roleDerivedPrefix <+: R.qualify rolePrefix ∧
    ¬ R.qualify rolePrefix <+: R.qualify signaturePrefix ∧
    ¬ R.qualify signaturePrefix <+: R.qualify rolePrefix ∧
    ¬ R.qualify roleDerivedPrefix <+: R.qualify signaturePrefix ∧
    ¬ R.qualify signaturePrefix <+: R.qualify roleDerivedPrefix := by
  simp only [qualified_within]
  decide +kernel

theorem role_ne_derived {a b : Str} (ha : R.qualify rolePrefix <+: a)
    (hb : R.qualify roleDerivedPrefix <+: b) : a ≠ b :=
  ne_of_prefix ha hb subtrees_apart.1 subtrees_apart.2.1

theorem role_ne_signature {a : Str} (ha : R.qualify rolePrefix <+: a) (token : Hash) :
    a ≠ R.signaturePath token :=
  ne_of_prefix ha (signature_path token) subtrees_apart.2.2.1 subtrees_apart.2.2.2.1

theorem derived_ne_signature {a : Str} (ha : R.qualify roleDerivedPrefix <+: a) (token : Hash) :
    a ≠ R.signaturePath token :=
  ne_of_prefix ha (signature_path token) subtrees_apart.2.2.2.2.1 subtrees_apart.2.2.2.2.2

theorem derived_tokenPath (c p : Str) (token : Hash) :
    R.qualify roleDerivedPrefix <+: R.tokenPathOf c p token :=
  (derived_peer c p).trans (derived_token c p token)

/-! Assigning. -/

/-- What an accepted assignment has been checked for. -/
theorem approveAssign_checked {ctx : RoleContext} {nowMs : ℕ} {s : PeerState} {issue : RoleIssue}
    (h : R.approveAssign X ctx nowMs s = .ok issue) :
    (∃ path, requireSingleResourcePath ctx.resourceTarget R.localPeerId
        (ctx.operation++ " (the assignment path)") = .ok path ∧
      parseAssignmentPath path = some ⟨issue.context,issue.assignee,some issue.role⟩) ∧
    R.isExcluded s issue.context issue.assignee = false ∧
    hashFromPeerSegment issue.assignee = some issue.grantee ∧ issue.grantee.isZero = false := by
  simp only [approveAssign,bind_ok,okOr_ok,mapErr_ok,pure_ok] at h
  obtain ⟨path,hpath,⟨c,p,r⟩,hparsed,role,hrole,_,_,role',_,_,hsame,_,_,_,hexcl,_,_,_,_,grantee,
    hgrantee,_,hzero,rfl⟩ := h
  obtain rfl : r = some role := hrole
  obtain rfl : role' = role := by simpa using (ensure_ok _ _).mp hsame
  exact ⟨⟨path,hpath,hparsed⟩,by simpa using (ensure_ok _ _).mp hexcl,hgrantee,
    by simpa using (ensure_ok _ _).mp hzero⟩

/-- A token, its signature and its linkage, as they are stored. -/
structure Minted (X : Platform) (R : RoleHandler) (issue : RoleIssue) (issuedAt : ℕ)
    (cap sig link : Entity) : Prop where
  token : (R.derivedToken issue issuedAt).toEntity X = .ok cap
  signature : Entity.new X typeSignature (R.signatureData cap.contentHash) = .ok sig
  linkage : derivedTokenLinkEntity X cap.contentHash issuedAt = .ok link

/-- Everything one token adds to a peer. -/
def bindMinted (R : RoleHandler) (issue : RoleIssue) (cap sig link : Entity) (s : PeerState) :
    PeerState :=
  let s := ((s.put cap).put sig).set (R.tokenPath issue cap.contentHash) cap.contentHash
  let s := s.set (R.signaturePath cap.contentHash) sig.contentHash
  (s.put link).set (R.linkPath issue) link.contentHash

theorem token_toEntity (hX : X.FormatAllocated) (t : CapabilityToken) :
    ∃ e, t.toEntity X = .ok e := by
  have hnew : ∃ e, Entity.new X typeCapToken t.toEcf = .ok e :=
    Entity.new_ok hX (by decide) (by decide) (toEcf_map_ne_nil _)
  obtain ⟨e,he⟩ := hnew
  exact ⟨e,by rw [CapabilityToken.toEntity,he]; rfl⟩

/-- Where the default format is allocated, nothing of a token fails to be encoded. -/
theorem deriveAndPersistToken_minted (hX : X.FormatAllocated) (issue : RoleIssue) (issuedAt : ℕ)
    (s : PeerState) : ∃ cap sig link, Minted X R issue issuedAt cap sig link ∧
      R.deriveAndPersistToken X issue issuedAt s =
        (.ok cap.contentHash,R.bindMinted issue cap sig link s) := by
  obtain ⟨cap,hcap⟩ := token_toEntity hX (R.derivedToken issue issuedAt)
  have hnew : ∃ sig, Entity.new X typeSignature (R.signatureData cap.contentHash) = .ok sig :=
    Entity.new_ok hX (by decide +kernel) (by decide +kernel) (toEcf_map_ne_nil _)
  obtain ⟨sig,hsig⟩ := hnew
  obtain ⟨link,hlink⟩ : ∃ link, derivedTokenLinkEntity X cap.contentHash issuedAt = .ok link := by
    have hnew : ∃ e, Entity.new X Role.typeDerivedTokenLink
        (toEcf (.map [field "issued_at" (integerI64 issuedAt),
          field "token_hash" (hashVal cap.contentHash)])) = .ok e :=
      Entity.new_ok hX (by decide +kernel) (by decide +kernel) (toEcf_map_ne_nil _)
    obtain ⟨e,he⟩ := hnew
    exact ⟨e,by rw [derivedTokenLinkEntity,he]; rfl⟩
  refine ⟨cap,sig,link,⟨hcap,hsig,hlink⟩,?_⟩
  simp only [deriveAndPersistToken,hcap,hsig,hlink,bindMinted]

/-- A token is bound in its own place, its linkage in its own, and its signature. -/
theorem get_bindMinted (issue : RoleIssue) (cap sig link : Entity) (s : PeerState) (q : Str) :
    (R.bindMinted issue cap sig link s).locationIndex.get q =
      if q = R.linkPath issue ∧ pathIsStorable (R.linkPath issue) then some link.contentHash
      else if q = R.signaturePath cap.contentHash ∧
        pathIsStorable (R.signaturePath cap.contentHash) then some sig.contentHash
      else if q = R.tokenPath issue cap.contentHash ∧
        pathIsStorable (R.tokenPath issue cap.contentHash) then some cap.contentHash
      else s.locationIndex.get q := by
  simp only [bindMinted,PeerState.get_set,PeerState.put_locationIndex]

theorem isExcluded_bindMinted (issue : RoleIssue) (cap sig link : Entity) (s : PeerState) (p : Str) :
    R.isExcluded (R.bindMinted issue cap sig link s) issue.context p =
      R.isExcluded s issue.context p := by
  have hlink : R.qualify (pathRoleExclusion issue.context p) ≠ R.linkPath issue := by
    intro h
    have h := qualify_inj.mp h
    simp only [pathRoleExclusion,pathRoleDerivedLink,List.append_assoc,List.append_cancel_left_eq]
      at h
    exact absurd (congrArg (List.take 2) h) (by simp)
  have hrole := role_exclusion (R := R) issue.context p
  have htoken : R.qualify (pathRoleExclusion issue.context p) ≠
      R.tokenPath issue cap.contentHash := role_ne_derived hrole (derived_tokenPath _ _ _)
  simp only [isExcluded,get_bindMinted,hlink,role_ne_signature hrole,htoken,false_and,if_false]

def assignmentPathOf (R : RoleHandler) (issue : RoleIssue) : Str :=
  R.qualify (pathRoleAssignment issue.context issue.assignee issue.role)

/-- An accepted assignment binds itself and its token; nothing is rolled back. -/
theorem handleAssign_approved (hX : X.FormatAllocated) {ctx : RoleContext} {nowMs : ℕ}
    {s : PeerState} {issue : RoleIssue} (h : R.approveAssign X ctx nowMs s = .ok issue)
    (issuedAt : ℕ) : ∃ assignment cap sig link,
      assignmentEntity X issue.role (ctx.author.getD Hash.zero) nowMs = .ok assignment ∧
      Minted X R issue issuedAt cap sig link ∧ R.handleAssign X ctx nowMs issuedAt s =
        (.assigned (R.assignmentPathOf issue) cap.contentHash,R.bindMinted issue cap sig link
          ((s.put assignment).set (R.assignmentPathOf issue) assignment.contentHash)) := by
  obtain ⟨assignment,ha⟩ : ∃ e,
      assignmentEntity X issue.role (ctx.author.getD Hash.zero) nowMs = .ok e := by
    have hnew : ∃ e, Entity.new X Role.typeAssignment
        (toEcf (.map [field "assigned_at" (integerI64 nowMs),
          field "assigned_by" (hashVal (ctx.author.getD Hash.zero)),
          field "role" (textVal issue.role)])) = .ok e :=
      Entity.new_ok hX (by decide) (by decide) (toEcf_map_ne_nil _)
    obtain ⟨e,he⟩ := hnew
    exact ⟨e,by rw [assignmentEntity,he]; rfl⟩
  obtain ⟨cap,sig,link,hm,hd⟩ := deriveAndPersistToken_minted (R := R) hX issue issuedAt
    ((s.put assignment).set (R.assignmentPathOf issue) assignment.contentHash)
  have hne : R.qualify (pathRoleExclusion issue.context issue.assignee) ≠
      R.assignmentPathOf issue := by
    intro heq
    have heq := qualify_inj.mp heq
    simp only [pathRoleExclusion,pathRoleAssignment,List.append_assoc,List.append_cancel_left_eq]
      at heq
    exact absurd (congrArg (List.take 2) heq) (by simp)
  have hexcl : R.isExcluded ((s.put assignment).set (R.assignmentPathOf issue)
      assignment.contentHash) issue.context issue.assignee = false := by
    rw [isExcluded,PeerState.get_set,if_neg (fun hh => hne hh.1)]
    exact (approveAssign_checked h).2.1
  refine ⟨assignment,cap,sig,link,ha,hm,?_⟩
  simp only [handleAssign,h,ha]
  simp only [assignmentPathOf] at hd hexcl ⊢
  simp only [hd,isExcluded_bindMinted,hexcl,Bool.false_eq_true,if_false]

end RoleHandler
end EntityCore
