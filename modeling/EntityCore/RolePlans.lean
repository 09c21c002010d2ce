import EntityCore.ExclusionSpelling
import EntityCore.RoleLedger

/-! What the acts of a plan have in common: a write goes to the role subtree of some peer, a
token is minted without a start and without caveats, and where its linkage goes is storable,
since the definition of the role was found. -/
namespace EntityCore

open Ecf HexText Outcome Strings List

/-! Storable paths. -/

/-- A path stays storable with plain segments put in between. -/
theorem storable_between {a m b : Str} (h : pathIsStorable (a++ '/'::b) = true)
    (hslash : ¬ "//".toList <:+: m) (hfirst : m.head? ≠ some '/') (hlast : m.getLast? ≠ some '/')
    (hne : m ≠ []) (hchar : ∀ c ∈ m, isControl c = false ∧ c ≠ '.') :
    pathIsStorable (a++ '/'::(m++ '/'::b)) = true := by
  have hslashes : "//".toList = ['/','/'] := rfl
  have hnever : a++ '/'::(m++ '/'::b) ≠ neverMatch := by
    intro heq
    have hcount := congrArg (count '/') heq
    have hone : neverMatch.count '/' = 1 := by decide
    simp only [count_append,count_cons_self,hone] at hcount
    omega
  unfold pathIsStorable at h ⊢
  split_ifs at h with hempty hbad
  simp only [Bool.or_eq_true,containsText_iff,any_eq_true,not_or,not_exists,not_and,
    Bool.not_eq_true] at hbad
  simp only [segments_append,any_append,Bool.not_eq_true',Bool.or_eq_false_iff] at h
  obtain ⟨hdouble,hcontrol⟩ := hbad
  rw [hslashes] at hdouble hslash
  have hcons : ∀ t : Str, '/'::t = ['/']++t := fun t => rfl
  rw [double_append] at hdouble
  simp only [not_or,not_and,head?_cons,not_true_eq_false,imp_false] at hdouble
  obtain ⟨ha,hb,hseam⟩ := hdouble
  have hinside : ¬ ['/','/'] <:+: a++ '/'::(m++ '/'::b) := by
    rw [double_append,hcons (m++_),double_append,double_append]
    have hhead : (m++ '/'::b).head? = m.head? := by
      cases m with
      | nil => exact absurd rfl hne
      | cons c m => rfl
    rw [hhead]
    rintro (h | (h | (h | h | h) | h) | h)
    · exact ha h
    · exact absurd h.length_le (by simp)
    · exact hslash h
    · exact hb h
    · exact hlast h.1
    · exact hfirst h.2
    · exact hseam h.1
  have hplain : (segments '/' m).any
      (fun segment => segment = ".".toList || segment = "..".toList) = false := by
    rw [any_eq_false]
    intro seg hseg hdot
    have hdots : '.' ∈ seg := by
      rcases Bool.or_eq_true_iff.mp hdot with h | h
      · rw [of_decide_eq_true h]
        simp
      · rw [of_decide_eq_true h]
        simp
    exact (hchar _ (mem_of_mem_segments hseg hdots)).2 rfl
  rw [if_neg (by simp [hnever]),if_neg]
  · simp only [segments_append,any_append,h.1,h.2,hplain,Bool.or_false,Bool.not_false]
  · simp only [Bool.or_eq_true,containsText_iff,any_eq_true,not_or,not_exists,not_and,
      Bool.not_eq_true]
    refine ⟨hinside,fun c hc => ?_⟩
    simp only [mem_append,mem_cons] at hc
    rcases hc with hc | hc | hc | hc | hc
    · exact hcontrol c (by simp [hc])
    · exact hcontrol c (by simp [hc])
    · exact (hchar c hc).1
    · exact hcontrol c (by simp [hc])
    · exact hcontrol c (by simp [hc])

/-- Nothing is bound at a malformed path. -/
def PeerState.Storable (s : PeerState) : Prop :=
  ∀ path, (s.locationIndex.get path).isSome → pathIsStorable path = true

namespace PeerState

variable {s : PeerState}

theorem Storable.put (h : s.Storable) (e : Entity) : (s.put e).Storable := h

theorem Storable.set (h : s.Storable) (path : Str) (hash : Hash) : (s.set path hash).Storable := by
  intro q hq
  rw [get_set] at hq
  split_ifs at hq with hpath
  · rw [hpath.1]
    exact hpath.2
  · exact h q hq

theorem Storable.remove (h : s.Storable) (path : Str) : (s.remove path).Storable := by
  intro q hq
  rw [get_remove] at hq
  split_ifs at hq with hpath
  · cases hq
  · exact h q hq

end PeerState

variable {s : PeerState}

namespace RoleHandler

variable {X : Platform} {R : RoleHandler}

theorem storable_sweepOne (h : s.Storable) (entry : Str × Hash) :
    (R.sweepOne s entry).Storable := by
  unfold sweepOne
  split
  · split_ifs
    · exact (h.remove _).remove _
    · exact h.remove _
  · exact h.remove _

theorem storable_foldl_sweepOne (h : s.Storable) (entries : List (Str × Hash)) :
    (entries.foldl R.sweepOne s).Storable := by
  induction entries generalizing s with
  | nil => exact h
  | cons entry entries ih => exact ih (storable_sweepOne h entry)

theorem storable_bindMinted (h : s.Storable) (issue : RoleIssue)
    (cap sig link : Entity) : (R.bindMinted issue cap sig link s).Storable :=
  (((((h.put cap).put sig).set _ _).set _ _).put link).set _ _

theorem storable_act (h : s.Storable) (a : RoleAct) : (R.act X s a).Storable := by
  cases a with
  | write path entity => exact (h.put entity).set _ _
  | mint issue issuedAt cap sig link => exact storable_bindMinted h _ _ _ _
  | reissue issue issuedAt cap sig link =>
    exact storable_foldl_sweepOne (storable_bindMinted h _ _ _ _) _
  | pass context peer issuedAt cap sig => exact (((h.put cap).put sig).set _ _).set _ _
  | unbind path => exact h.remove _
  | sweep context peer =>
    rw [act,sweepRoleDerived,sweepListed_state]
    exact storable_foldl_sweepOne h _
  | revoke context peer role =>
    simp only [act,revokeViaLinkage]
    split
    · exact h
    · split
      · exact h.remove _
      · split
        · exact h.remove _
        · exact ((h.remove _).remove _).remove _

theorem storable_foldl (h : s.Storable) (as : List RoleAct) : (as.foldl (R.act X) s).Storable := by
  induction as generalizing s with
  | nil => exact h
  | cons a as ih => exact ih (storable_act h a)

/-- Where the definition of a role may be bound, so may its linkages. -/
theorem storable_link {c p r : Str} {bytes : Bytes} (hp : ReadsHex p bytes) (hne : p ≠ [])
    (h : pathIsStorable (R.qualify (pathRoleDefinition c r)) = true) :
    pathIsStorable (R.linkPathOf c p r) = true := by
  obtain ⟨hslash,-,hchar⟩ := hp.pathLike
  have hword : "/derived-tokens/".toList = '/'::"derived-tokens/".toList := by decide +kernel
  have hslashes : "//".toList = ['/','/'] := rfl
  have hsplit : R.linkPathOf c p r =
      ('/'::R.localPeerId++ '/'::(rolePrefix++c))++ '/'::(("derived-tokens/".toList++p)++ '/'::r) := by
    simp only [linkPathOf,qualify,pathRoleDerivedLink,hword,append_assoc,cons_append]
  have hdefined : R.qualify (pathRoleDefinition c r) =
      ('/'::R.localPeerId++ '/'::(rolePrefix++c))++ '/'::r := by
    simp only [qualify,pathRoleDefinition,append_assoc,cons_append]
  rw [hdefined] at h
  rw [hsplit]
  refine storable_between h ?_ (by simp) ?_ (by simp) ?_
  · rw [hslashes,double_append]
    rintro (h | h | h)
    · exact absurd (by rwa [← hslashes] at h) (show ¬ "//".toList <:+: "derived-tokens/".toList by
        decide)
    · exact hslash (h.subset (by simp))
    · exact hslash (mem_of_head? h.2)
  · rw [getLast?_append_of_ne_nil _ hne]
    exact fun h => hslash (mem_of_getLast? h)
  · have hfront : ∀ c ∈ "derived-tokens/".toList, isControl c = false ∧ c ≠ '.' :=
      plain_of_all (by decide +kernel)
    intro c hc
    rcases mem_append.mp hc with hc | hc
    · exact hfront c hc
    · exact hchar c hc

/-! Where an exclusion is written. -/

/-- The peer id is one segment of a path. -/
def LocalSegment (R : RoleHandler) : Prop := R.localPeerId ≠ [] ∧ '/' ∉ R.localPeerId

theorem stripPrefix_derived (rest : Str) :
    stripPrefix (roleDerivedPrefix++rest) rolePrefix = none := by
  have hstart : startsWith (roleDerivedPrefix++rest) rolePrefix = false := rfl
  simp [stripPrefix,hstart]

theorem stripPeerQualifier_derived (rest : Str) :
    stripPeerQualifier (roleDerivedPrefix++rest) = roleDerivedPrefix++rest := by
  have hsplit : splitOnce '/' (roleDerivedPrefix++rest) =
      some ("system".toList,"capability/grants/role-derived/".toList++rest) := by
    refine (splitOnce_eq_some _ _ _ _).mpr ⟨?_,by decide +kernel⟩
    have hstart : roleDerivedPrefix =
        "system".toList++ '/'::"capability/grants/role-derived/".toList := by decide +kernel
    rw [hstart]
    simp
  have hfirst : (roleDerivedPrefix++rest).dropWhile (· = '/') = roleDerivedPrefix++rest := rfl
  have hrole : startsWith ("capability/grants/role-derived/".toList++rest) rolePrefix = false := rfl
  have hderived : startsWith ("capability/grants/role-derived/".toList++rest) roleDerivedPrefix =
    false := rfl
  simp only [stripPeerQualifier,hfirst,hsplit,hrole,hderived]
  rfl

theorem parseExclusionPath_derived (hR : R.LocalSegment) (rest : Str) :
    parseExclusionPath (roleDerivedPrefix++rest) = none ∧
      parseExclusionPath (R.qualify (roleDerivedPrefix++rest)) = none := by
  have hunder : roleDerivedPrefix <+: roleDerivedPrefix++rest := prefix_append _ _
  have hqualified : stripPeerQualifier (R.qualify (roleDerivedPrefix++rest)) =
      roleDerivedPrefix++rest := by
    rw [qualify,stripPeerQualifier_qualified hR.2 hR.1 (.inr hunder)]
  simp only [parseExclusionPath,stripPeerQualifier_derived,hqualified,stripPrefix_derived]
  exact ⟨rfl,rfl⟩

/-- An exclusion is not written where tokens are. -/
theorem exclusionTarget_not_derived (hR : R.LocalSegment) {path : Str} {parsed : ParsedExclusionPath}
    (h : parseExclusionPath path = some parsed) :
    ¬ R.qualify roleDerivedPrefix <+: R.exclusionTarget path := by
  rintro ⟨rest,hrest⟩
  have hnone := parseExclusionPath_derived hR rest
  have hqualified : R.qualify roleDerivedPrefix++rest = R.qualify (roleDerivedPrefix++rest) := by
    simp only [qualify,cons_append,append_assoc]
  rw [hqualified] at hrest
  unfold exclusionTarget at hrest
  split_ifs at hrest
  · rw [hrest,h] at hnone
    cases hnone.2
  · rw [qualify_inj.mp hrest,h] at hnone
    cases hnone.1

/-! What is known of an act. -/

/-- A root token or a delegation, created at some time. -/
structure Stamped (X : Platform) (createdAt : ℕ) (cap : Entity) (token : CapabilityToken) : Prop where
  notBefore : token.notBefore = none
  caveats : token.delegationCaveats = none
  createdAt : token.createdAt = createdAt
  entity : token.toEntity X = .ok cap

def Planned (X : Platform) (R : RoleHandler) : RoleAct → Prop
  | .write path _ => ¬ R.qualify roleDerivedPrefix <+: path
  | .mint issue issuedAt cap sig link =>
    Minted X R issue issuedAt cap sig link ∧ pathIsStorable (R.linkPath issue) = true
  | .reissue issue issuedAt cap sig link =>
    Minted X R issue issuedAt cap sig link ∧ pathIsStorable (R.linkPath issue) = true
  | .pass _ _ issuedAt cap _ => ∃ token, Stamped X issuedAt cap token
  | _ => True

theorem stamped_record {a : RoleAct} (ha : Planned X R a) {ρ : RoleRecord} (hρ : ρ ∈ a.records) :
    ∃ token, Stamped X ρ.createdAt ρ.cap token := by
  cases a with
  | mint issue issuedAt cap sig link =>
    obtain rfl := mem_singleton.mp hρ
    exact ⟨R.derivedToken issue issuedAt,rfl,rfl,rfl,ha.1.token⟩
  | reissue issue issuedAt cap sig link =>
    obtain rfl := mem_singleton.mp hρ
    exact ⟨R.derivedToken issue issuedAt,rfl,rfl,rfl,ha.1.token⟩
  | pass context peer issuedAt cap sig =>
    obtain rfl := mem_singleton.mp hρ
    exact ha
  | _ => cases hρ

/-- An issue for a peer in hex, whose role is defined. -/
structure Issuable (R : RoleHandler) (s : PeerState) (issue : RoleIssue) : Prop where
  assignee : hashFromPeerSegment issue.assignee = some issue.grantee
  defined : (s.locationIndex.get
    (R.qualify (pathRoleDefinition issue.context issue.role))).isSome

theorem Issuable.storable {issue : RoleIssue} (h : R.Issuable s issue)
    (hs : s.Storable) : pathIsStorable (R.linkPath issue) = true := by
  obtain ⟨bytes,hr,-⟩ := (hashFromPeerSegment_iff _ _).mp h.assignee
  refine storable_link hr ?_ (hs _ h.defined)
  intro hnil
  have hgrantee := h.assignee
  rw [hnil] at hgrantee
  cases hgrantee

theorem readRole_defined {c r : Str} {roleDef : RoleData} (h : R.readRole X s c r = .ok roleDef) :
    (s.locationIndex.get (R.qualify (pathRoleDefinition c r))).isSome := by
  simp only [readRole,bind_ok,okOr_ok] at h
  obtain ⟨hash,hget,-⟩ := h
  rw [hget]
  rfl

theorem approveAssign_issuable {ctx : RoleContext} {nowMs : ℕ} {issue : RoleIssue}
    (h : R.approveAssign X ctx nowMs s = .ok issue) : R.Issuable s issue := by
  refine ⟨(approveAssign_checked h).2.2.1,?_⟩
  simp only [approveAssign,bind_ok,okOr_ok,mapErr_ok,pure_ok] at h
  obtain ⟨_,_,_,_,_,_,_,_,_,_,_,_,_,hrole,_,_,_,_,_,_,_,_,_,_,rfl⟩ := h
  exact readRole_defined hrole

theorem issuesFrom_issuable {callerCap : Option CapabilityToken} {context role : Str}
    {roleDef : RoleData} {parentExpires : Option ℕ} {nowMs : ℕ} {clock : ℕ → ℕ}
    (hdef : (s.locationIndex.get (R.qualify (pathRoleDefinition context role))).isSome) {n : ℕ}
    {listed : List (Str × Hash)} {i : RoleIssue × ℕ}
    (h : i ∈ R.issuesFrom X callerCap context role roleDef parentExpires nowMs clock s n listed) :
    R.Issuable s i.1 := by
  induction listed generalizing n with
  | nil => cases h
  | cons entry listed ih =>
    obtain ⟨path,hash⟩ := entry
    simp only [issuesFrom] at h
    split at h
    · rename_i issue hd
      obtain ⟨hcontext,hrole,-,hgrantee,-,-⟩ := decideReDerive_checked hd
      rcases mem_cons.mp h with rfl | h
      · exact ⟨hgrantee,by rw [hcontext,hrole]; exact hdef⟩
      · exact ih h
    · exact ih h

theorem reissues_planned {context role : Str} {callerCap : Option CapabilityToken} {nowMs : ℕ}
    {clock : ℕ → ℕ} (hs : s.Storable) {a : RoleAct}
    (h : a ∈ R.reissues X (R.reDerivedIssues X context role callerCap nowMs clock s)) :
    Planned X R a := by
  obtain ⟨i,hi,ha⟩ := mem_flatMap.mp h
  obtain ⟨m,hm,rfl⟩ := mem_map.mp ha
  unfold reDerivedIssues at hi
  split at hi
  · cases hi
  · rename_i roleDef hrole
    exact ⟨minted_of_mintedEntities (Option.mem_toList.mp hm),
      (issuesFrom_issuable (readRole_defined hrole) hi).storable hs⟩

theorem plan_planned (hR : R.LocalSegment) (hs : s.Storable) (call : RoleCall) :
    ∀ a ∈ R.plan X s call, Planned X R a := by
  intro a ha
  cases call with
  | define ctx nowMs clock =>
    simp only [plan] at ha
    split at ha
    · cases ha
    · split at ha
      · cases ha
      · rcases mem_cons.mp ha with rfl | ha
        · exact fun h => role_ne_derived (role_definition _ _) h rfl
        · exact reissues_planned (storable_act hs _) ha
  | assign ctx nowMs issuedAt =>
    simp only [plan] at ha
    split at ha
    · cases ha
    · rename_i issue happ
      split at ha
      · cases ha
      · rcases mem_cons.mp ha with rfl | ha
        · exact fun h => role_ne_derived (role_assignment _ _ _) h rfl
        · obtain ⟨m,hm,rfl⟩ := mem_map.mp ha
          exact ⟨minted_of_mintedEntities (Option.mem_toList.mp hm),
            (approveAssign_issuable happ).storable hs⟩
  | reDerive ctx nowMs clock =>
    simp only [plan] at ha
    split at ha
    · cases ha
    · exact reissues_planned hs ha
  | exclude ctx nowMs =>
    simp only [plan] at ha
    split at ha
    · cases ha
    · rename_i path parsed happ
      simp only [approveExclusionPath,bind_ok,okOr_ok,pure_ok] at happ
      obtain ⟨path',-,parsed',hparsed,hsame⟩ := happ
      obtain ⟨rfl,rfl⟩ := Prod.mk.inj hsame
      split at ha
      · cases ha
      · rcases mem_cons.mp ha with rfl | ha
        · exact exclusionTarget_not_derived hR hparsed
        · obtain rfl := mem_singleton.mp ha
          trivial
  | unexclude ctx =>
    simp only [plan] at ha
    split at ha
    · cases ha
    · obtain rfl := mem_singleton.mp ha
      trivial
  | unassign ctx =>
    simp only [plan] at ha
    split at ha
    · cases ha
    · simp only [mem_cons,not_mem_nil,or_false] at ha
      rcases ha with rfl | rfl <;> trivial
    · rcases mem_append.mp ha with ha | ha
      · obtain ⟨entry,-,rfl⟩ := mem_map.mp ha
        trivial
      · obtain ⟨entry,-,rfl⟩ := mem_map.mp ha
        trivial
  | delegate ctx nowMs =>
    simp only [plan] at ha
    split at ha
    · cases ha
    · split at ha
      · cases ha
      · rename_i cap hcap
        split at ha
        · cases ha
        · obtain rfl := mem_singleton.mp ha
          exact ⟨_,rfl,rfl,rfl,hcap⟩

theorem acts_planned (hX : X.FormatAllocated) (hR : R.LocalSegment) (calls : List RoleCall)
    (hs : s.Storable) : ∀ a ∈ R.acts X calls s, Planned X R a := by
  induction calls generalizing s with
  | nil => exact nofun
  | cons call calls ih =>
    intro a ha
    rcases mem_append.mp ha with ha | ha
    · exact plan_planned hR hs call a ha
    · have hnext : (R.perform X s call).Storable := by
        rw [perform_plan hX]
        exact storable_foldl hs _
      exact ih hnext a ha

end RoleHandler
end EntityCore
