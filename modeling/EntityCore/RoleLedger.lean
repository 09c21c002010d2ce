import EntityCore.RoleActs

/-! The ledger of a run: the tokens that were minted, which of them are still bound and which
of these the linkage of their role names. -/
namespace EntityCore

open Ecf Outcome Strings

/-- A linkage as it is written. -/
def linkDocument (token : Hash) (issuedAt : ℕ) : Value :=
  .map [field "issued_at" (integerI64 issuedAt),field "token_hash" (hashVal token)]

namespace RoleHandler

section Ledger

variable (X : Platform) (R : RoleHandler)

def recordPath (ρ : RoleRecord) : Str := R.tokenPathOf ρ.context ρ.peer ρ.cap.contentHash

/-- The token is still bound in its place. -/
def Bound (s : PeerState) (ρ : RoleRecord) : Prop :=
  s.locationIndex.get (R.recordPath ρ) = some ρ.cap.contentHash

instance (s : PeerState) (ρ : RoleRecord) : Decidable (R.Bound s ρ) :=
  inferInstanceAs (Decidable (_ = _))

def linkOf (ρ : RoleRecord) : Option Str := ρ.role.map (R.linkPathOf ρ.context ρ.peer)

/-- The linkage of the role names the token. -/
def Linked (s : PeerState) (ρ : RoleRecord) : Prop := ∃ path hash entity link,
  R.linkOf ρ = some path ∧ s.locationIndex.get path = some hash ∧
    s.contentStore.get hash = some entity ∧ RoleDerivedTokenLink.fromEntity X entity = .ok link ∧
    link.tokenHash = ρ.cap.contentHash

def records (calls : List RoleCall) (s : PeerState) : List RoleRecord :=
  (R.acts X calls s).flatMap RoleAct.records

/-- Every entity that a run puts. -/
def written (calls : List RoleCall) (s : PeerState) : List Entity :=
  (R.acts X calls s).flatMap RoleAct.entities

/-- The path of the role subtree that an act binds or unbinds. -/
def touched : RoleAct → Option Str
  | .write path _ => some path
  | .mint issue _ _ _ _ => some (R.linkPath issue)
  | .reissue issue _ _ _ _ => some (R.linkPath issue)
  | .unbind path => some path
  | .revoke context peer role => some (R.linkPathOf context peer role)
  | .pass _ _ _ _ _ => none
  | .sweep _ _ => none

/-- What an act takes away everything below. -/
def swept : RoleAct → Option Str
  | .reissue issue _ _ _ _ => some (R.qualify (prefixRoleDerivedPeer issue.context issue.assignee))
  | .sweep context peer => some (R.qualify (prefixRoleDerivedPeer context peer))
  | _ => none

end Ledger

end RoleHandler

/-- The context, the peer and the role that a token is for. -/
def RoleRecord.triple (ρ : RoleRecord) : Option (Str × Str × Str) :=
  ρ.role.map fun role => (ρ.context,ρ.peer,role)

/-- The triple whose own linkage an act replaces or takes away together with its tokens. -/
def RoleAct.owner : RoleAct → Option (Str × Str × Str)
  | .reissue issue _ _ _ _ => some (issue.context,issue.assignee,issue.role)
  | .revoke context peer role => some (context,peer,role)
  | _ => none

/-! Stores without collisions. -/

/-- None of the entities has the hash of another, or of a different one in the store. -/
def PeerState.CollisionFree (s : PeerState) (entities : List Entity) : Prop :=
  ∀ e ∈ entities, (∀ e' ∈ entities, e'.contentHash = e.contentHash → e' = e) ∧
    ∀ e', s.contentStore.get e.contentHash = some e' → e' = e

namespace PeerState

variable {s : PeerState} {entities : List Entity}

theorem CollisionFree.put (h : s.CollisionFree entities) {e : Entity} (he : e ∈ entities) :
    (s.put e).CollisionFree entities := by
  intro x hx
  refine ⟨(h x hx).1,fun e' hget => ?_⟩
  rw [get_put] at hget
  split_ifs at hget with heq
  · cases hget
    exact (h x hx).1 e he heq.symm
  · exact (h x hx).2 e' hget

theorem CollisionFree.get_put_eq (h : s.CollisionFree entities) {e : Entity} (he : e ∈ entities)
    {k : Hash} {x : Entity} (hget : s.contentStore.get k = some x) :
    (s.put e).contentStore.get k = some x := by
  rw [get_put]
  split_ifs with hk
  · subst hk
    rw [(h e he).2 x hget]
  · exact hget

theorem CollisionFree.foldl_put (h : s.CollisionFree entities) (l : List Entity)
    (hl : ∀ e ∈ l, e ∈ entities) : (l.foldl PeerState.put s).CollisionFree entities ∧
      ∀ k x, s.contentStore.get k = some x →
        (l.foldl PeerState.put s).contentStore.get k = some x := by
  induction l generalizing s with
  | nil => exact ⟨h,fun _ _ hget => hget⟩
  | cons e l ih =>
    have he := hl e List.mem_cons_self
    have hrest := ih (h.put he) fun e he => hl e (List.mem_cons_of_mem _ he)
    exact ⟨hrest.1,fun k x hget => hrest.2 k x (h.get_put_eq he hget)⟩

end PeerState

namespace RoleHandler

variable {X : Platform} {R : RoleHandler}

theorem revokeViaLinkage_contentStore (c p r : Str) (s : PeerState) :
    (R.revokeViaLinkage X c p r s).2.contentStore = s.contentStore := by
  simp only [revokeViaLinkage]
  split
  · rfl
  · split
    · rfl
    · split <;> rfl

theorem act_contentStore (s : PeerState) (a : RoleAct) :
    (R.act X s a).contentStore = (a.entities.foldl PeerState.put s).contentStore := by
  cases a with
  | write path e => rfl
  | mint issue issuedAt cap sig link => rfl
  | reissue issue issuedAt cap sig link =>
    rw [act,sweepBeside,foldl_sweepOne_contentStore]
    rfl
  | pass c p issuedAt cap sig => rfl
  | unbind path => rfl
  | sweep c p =>
    rw [act,sweepRoleDerived,sweepListed_state,foldl_sweepOne_contentStore]
    rfl
  | revoke c p r => exact revokeViaLinkage_contentStore c p r s

/-- What an act puts hides nothing. -/
theorem collisionFree_act {s : PeerState} {entities : List Entity} (h : s.CollisionFree entities)
    {a : RoleAct} (ha : ∀ e ∈ a.entities, e ∈ entities) :
    (R.act X s a).CollisionFree entities ∧ ∀ k x, s.contentStore.get k = some x →
      (R.act X s a).contentStore.get k = some x := by
  have hput := h.foldl_put a.entities ha
  unfold PeerState.CollisionFree at hput ⊢
  rw [act_contentStore]
  exact hput

theorem collisionFree_foldl {s : PeerState} {entities : List Entity} (h : s.CollisionFree entities)
    (as : List RoleAct) (has : ∀ a ∈ as, ∀ e ∈ a.entities, e ∈ entities) :
    (as.foldl (R.act X) s).CollisionFree entities := by
  induction as generalizing s with
  | nil => exact h
  | cons a as ih =>
    have hone := (collisionFree_act (R := R) (X := X) h (has a List.mem_cons_self)).1
    exact ih hone fun a ha => has a (List.mem_cons_of_mem _ ha)

theorem linked_of_get {s s' : PeerState} {ρ : RoleRecord} (h : R.Linked X s ρ)
    (hindex : ∀ path, R.linkOf ρ = some path → s'.locationIndex.get path = s.locationIndex.get path)
    (hstore : ∀ k x, s.contentStore.get k = some x → s'.contentStore.get k = some x) :
    R.Linked X s' ρ := by
  obtain ⟨path,hash,entity,link,hpath,hget,hentity,hlink,htoken⟩ := h
  exact ⟨path,hash,entity,link,hpath,(hindex path hpath).trans hget,hstore _ _ hentity,hlink,htoken⟩

theorem derived_record (ρ : RoleRecord) : R.qualify roleDerivedPrefix <+: R.recordPath ρ :=
  derived_tokenPath _ _ _

theorem role_linkOf {ρ : RoleRecord} {path : Str} (h : R.linkOf ρ = some path) :
    R.qualify rolePrefix <+: path := by
  obtain ⟨role,_,rfl⟩ := Option.map_eq_some_iff.mp h
  exact role_link _ _ _

/-! What a mint and a re-issue show outside the signatures. -/

theorem get_bindMinted_role {q : Str} (hq : R.qualify rolePrefix <+: q) (issue : RoleIssue)
    (cap sig link : Entity) (s : PeerState) :
    (R.bindMinted issue cap sig link s).locationIndex.get q =
      if q = R.linkPath issue ∧ pathIsStorable (R.linkPath issue) then some link.contentHash
      else s.locationIndex.get q := by
  have htoken : q ≠ R.tokenPath issue cap.contentHash :=
    role_ne_derived hq (derived_tokenPath _ _ _)
  rw [get_bindMinted]
  simp only [role_ne_signature hq,htoken,false_and,if_false]

theorem get_bindMinted_derived {q : Str} (hq : R.qualify roleDerivedPrefix <+: q) (issue : RoleIssue)
    (cap sig link : Entity) (s : PeerState) :
    (R.bindMinted issue cap sig link s).locationIndex.get q =
      if q = R.tokenPath issue cap.contentHash ∧
        pathIsStorable (R.tokenPath issue cap.contentHash) then some cap.contentHash
      else s.locationIndex.get q := by
  have hlink : q ≠ R.linkPath issue := fun h => role_ne_derived (role_link _ _ _) hq h.symm
  rw [get_bindMinted]
  simp only [derived_ne_signature hq,hlink,false_and,if_false]

theorem get_reissue_role {q : Str} (hq : R.qualify rolePrefix <+: q) (issue : RoleIssue)
    (issuedAt : ℕ) (cap sig link : Entity) (s : PeerState) :
    (R.act X s (.reissue issue issuedAt cap sig link)).locationIndex.get q =
      if q = R.linkPath issue ∧ pathIsStorable (R.linkPath issue) then some link.contentHash
      else s.locationIndex.get q := by
  have hunder : ¬ R.qualify (prefixRoleDerivedPeer issue.context issue.assignee) <+: q :=
    fun h => role_ne_derived hq ((derived_peer _ _).trans h) rfl
  rw [act,get_sweepBeside (role_ne_signature hq),if_neg fun h => hunder h.2,get_bindMinted_role hq]

theorem get_reissue_derived {q : Str} (hq : R.qualify roleDerivedPrefix <+: q) (issue : RoleIssue)
    (issuedAt : ℕ) (cap sig link : Entity) (s : PeerState) :
    (R.act X s (.reissue issue issuedAt cap sig link)).locationIndex.get q =
      if q = R.tokenPath issue cap.contentHash ∧
        pathIsStorable (R.tokenPath issue cap.contentHash) then some cap.contentHash
      else if q ≠ R.tokenPath issue cap.contentHash ∧
        R.qualify (prefixRoleDerivedPeer issue.context issue.assignee) <+: q then none
      else s.locationIndex.get q := by
  rw [act,get_sweepBeside (derived_ne_signature hq),get_bindMinted_derived hq]
  by_cases hnew : q = R.tokenPath issue cap.contentHash
  · simp [hnew]
  · simp [hnew]

/-! What an act leaves of the role subtree. -/

theorem get_bindPassed {q : Str} (hq : ∀ token, q ≠ R.signaturePath token) (c p : Str)
    (cap sig : Entity) (s : PeerState) : (R.bindPassed c p cap sig s).locationIndex.get q =
      if q = R.tokenPathOf c p cap.contentHash ∧ pathIsStorable (R.tokenPathOf c p cap.contentHash)
      then some cap.contentHash else s.locationIndex.get q := by
  simp only [bindPassed,PeerState.get_set,PeerState.put_locationIndex,hq,false_and,if_false]

/-- A revocation takes one token and one linkage, outside of the signatures. -/
theorem get_revoke {q : Str} (hq : ∀ token, q ≠ R.signaturePath token) (c p r : Str)
    (s : PeerState) : (R.revokeViaLinkage X c p r s).2.locationIndex.get q = s.locationIndex.get q ∨
      (R.revokeViaLinkage X c p r s).2.locationIndex.get q = none ∧
        (q = R.linkPathOf c p r ∨ ∃ token, q = R.tokenPathOf c p token) := by
  simp only [revokeViaLinkage]
  split
  · exact .inl rfl
  · split
    · by_cases hlink : q = R.linkPathOf c p r
      · exact .inr ⟨by simp [hlink],.inl hlink⟩
      · exact .inl (by simp [hlink])
    · split
      · by_cases hlink : q = R.linkPathOf c p r
        · exact .inr ⟨by simp [hlink],.inl hlink⟩
        · exact .inl (by simp [hlink])
      · rename_i link _
        by_cases hlink : q = R.linkPathOf c p r
        · exact .inr ⟨by simp [hlink],.inl hlink⟩
        · by_cases htoken : q = R.tokenPathOf c p link.tokenHash
          · exact .inr ⟨by simp [htoken],.inr ⟨_,htoken⟩⟩
          · exact .inl (by simp [hlink,htoken,hq])

/-- An act leaves every path of the role subtree but one. -/
theorem act_role {path : Str} (hrole : R.qualify rolePrefix <+: path) {a : RoleAct}
    (ha : R.touched a ≠ some path) (s : PeerState) :
    (R.act X s a).locationIndex.get path = s.locationIndex.get path := by
  have hsig := role_ne_signature hrole
  have hother : ∀ q, R.touched a = some q → path ≠ q := by
    rintro q hq rfl
    exact ha hq
  cases a with
  | write q entity => simp [act,hother q rfl]
  | mint issue issuedAt cap sig link =>
    rw [act,get_bindMinted_role hrole,if_neg fun h => hother _ rfl h.1]
  | reissue issue issuedAt cap sig link =>
    rw [get_reissue_role hrole,if_neg fun h => hother _ rfl h.1]
  | pass c p issuedAt cap sig =>
    rw [act,get_bindPassed hsig,if_neg fun h => role_ne_derived hrole (derived_tokenPath _ _ _) h.1]
  | unbind q => simp [act,hother q rfl]
  | sweep c p =>
    have hunder : ¬ R.qualify (prefixRoleDerivedPeer c p) <+: path :=
      fun h => role_ne_derived hrole ((derived_peer _ _).trans h) rfl
    rw [act,get_sweepRoleDerived hsig,if_neg hunder]
  | revoke c p r =>
    rcases get_revoke (X := X) hsig c p r s with h | ⟨-,h | ⟨token,h⟩⟩
    · exact h
    · exact absurd h (hother _ rfl)
    · exact absurd h (role_ne_derived hrole (derived_tokenPath _ _ _))

end RoleHandler
end EntityCore
