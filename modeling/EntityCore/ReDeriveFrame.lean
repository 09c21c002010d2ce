import EntityCore.RoleLedger

/-! What a re-derivation leaves alone. The sweep after a token is issued again takes
everything that is bound below the prefix of the peer, for whatever it was minted. -/
namespace EntityCore

open Ecf Outcome Strings

/-- A definition is followed by a re-derivation. -/
def RoleCall.ReDerives : RoleCall → Prop
  | .define _ _ _ => True
  | .reDerive _ _ _ => True
  | _ => False

namespace RoleHandler

variable {X : Platform} {R : RoleHandler}

/-- Minted for none of the triples that are issued again: for another role, another peer or a
delegation. -/
def Foreign (as : List RoleAct) (ρ : RoleRecord) : Prop :=
  ∀ a ∈ as, a.owner.isSome → a.owner ≠ ρ.triple

/-- An act of a re-derivation keeps off a token: it sweeps another prefix, and it touches
another path than its linkage. -/
structure KeepsOff (R : RoleHandler) (a : RoleAct) (ρ : RoleRecord) : Prop where
  sweep : ∀ start ∈ R.swept a, ¬ start <+: R.recordPath ρ
  linkage : ρ.role.isSome → R.touched a ≠ R.linkOf ρ

instance (as : List RoleAct) (ρ : RoleRecord) : Decidable (Foreign as ρ) :=
  inferInstanceAs (Decidable (∀ a ∈ as, _ → _))

instance (a : RoleAct) (ρ : RoleRecord) : Decidable (KeepsOff R a ρ) :=
  decidable_of_iff ((∀ start ∈ R.swept a, ¬ start <+: R.recordPath ρ) ∧
    (ρ.role.isSome → R.touched a ≠ R.linkOf ρ))
    ⟨fun h => ⟨h.1,h.2⟩,fun h => ⟨h.sweep,h.linkage⟩⟩

/-- An act of a re-derivation: the definition is written, or a token is issued again. -/
def RederivingAct (R : RoleHandler) (a : RoleAct) : Prop :=
  (∃ context role entity, a = .write (R.qualify (pathRoleDefinition context role)) entity) ∨
    ∃ issue issuedAt cap sig link, a = .reissue issue issuedAt cap sig link

theorem reissues_rederiving {issues : List (RoleIssue × ℕ)} {a : RoleAct}
    (h : a ∈ R.reissues X issues) : RederivingAct R a := by
  obtain ⟨i,_,ha⟩ := List.mem_flatMap.mp h
  obtain ⟨m,_,rfl⟩ := List.mem_map.mp ha
  exact .inr ⟨_,_,_,_,_,rfl⟩

theorem plan_rederiving {call : RoleCall} (hcall : call.ReDerives) {s : PeerState} {a : RoleAct}
    (h : a ∈ R.plan X s call) : RederivingAct R a := by
  cases call with
  | define ctx nowMs clock =>
    simp only [plan] at h
    split at h
    · cases h
    · split at h
      · cases h
      · rcases List.mem_cons.mp h with rfl | h
        · exact .inl ⟨_,_,_,rfl⟩
        · exact reissues_rederiving h
  | reDerive ctx nowMs clock =>
    simp only [plan] at h
    split at h
    · cases h
    · exact reissues_rederiving h
  | _ => cases hcall

/-- A token that an act keeps off stays bound. -/
theorem bound_act {a : RoleAct} (ha : RederivingAct R a) {ρ : RoleRecord} (hoff : KeepsOff R a ρ)
    {s : PeerState} (h : R.Bound s ρ) : R.Bound (R.act X s a) ρ := by
  have hderived := derived_record (R := R) ρ
  unfold Bound at h ⊢
  rcases ha with ⟨context,role,entity,rfl⟩ | ⟨issue,issuedAt,cap,sig,link,rfl⟩
  · have hne : R.recordPath ρ ≠ R.qualify (pathRoleDefinition context role) :=
      fun heq => role_ne_derived (role_definition _ _) hderived heq.symm
    simp [act,hne,h]
  · have hunder := hoff.sweep _ rfl
    have hne : R.recordPath ρ ≠ R.tokenPath issue cap.contentHash :=
      fun heq => hunder (heq ▸ derived_token _ _ _)
    rw [get_reissue_derived hderived,if_neg fun hh => hne hh.1,if_neg fun hh => hunder hh.2,h]

/-- A token that an act sweeps and does not mint is not bound any more. -/
theorem unbound_of_swept {a : RoleAct} (ha : RederivingAct R a) {ρ : RoleRecord}
    (hsweep : ∃ start ∈ R.swept a, start <+: R.recordPath ρ)
    (hnew : ∀ ν ∈ a.records, R.recordPath ν ≠ R.recordPath ρ) (s : PeerState) :
    ¬ R.Bound (R.act X s a) ρ := by
  rcases ha with ⟨context,role,entity,rfl⟩ | ⟨issue,issuedAt,cap,sig,link,rfl⟩
  · obtain ⟨start,hstart,-⟩ := hsweep
    cases hstart
  · obtain ⟨start,hstart,hunder⟩ := hsweep
    cases hstart
    have hne : R.recordPath ρ ≠ R.tokenPath issue cap.contentHash :=
      fun heq => hnew _ List.mem_cons_self heq.symm
    rw [Bound,get_reissue_derived (derived_record ρ),if_neg fun hh => hne hh.1,if_pos ⟨hne,hunder⟩]
    nofun

theorem linked_act {a : RoleAct} {ρ : RoleRecord} (hoff : KeepsOff R a ρ) {s : PeerState}
    {entities : List Entity} (hfree : s.CollisionFree entities) (he : ∀ e ∈ a.entities, e ∈ entities)
    (h : R.Linked X s ρ) : R.Linked X (R.act X s a) ρ := by
  refine linked_of_get h (fun path hpath => act_role (role_linkOf hpath) ?_ s)
    (collisionFree_act hfree he).2
  obtain ⟨role,hrole,-⟩ := Option.map_eq_some_iff.mp hpath
  rw [← hpath]
  exact hoff.linkage (by rw [hrole]; rfl)

/-- Over all acts, by induction: what they keep off does not depend on the state. -/
theorem foldl_keeps {as : List RoleAct} (has : ∀ a ∈ as, RederivingAct R a) {ρ : RoleRecord}
    (hoff : ∀ a ∈ as, KeepsOff R a ρ) {s : PeerState} {entities : List Entity}
    (hfree : s.CollisionFree entities) (he : ∀ a ∈ as, ∀ e ∈ a.entities, e ∈ entities)
    (hbound : R.Bound s ρ) : R.Bound (as.foldl (R.act X) s) ρ ∧
      (R.Linked X s ρ → R.Linked X (as.foldl (R.act X) s) ρ) := by
  induction as generalizing s with
  | nil => exact ⟨hbound,id⟩
  | cons a as ih =>
    have ha := has a List.mem_cons_self
    have hoffa := hoff a List.mem_cons_self
    have hea := he a List.mem_cons_self
    have hone := (collisionFree_act (R := R) (X := X) hfree hea).1
    have hrest := ih (fun a ha => has a (List.mem_cons_of_mem _ ha))
      (fun a ha => hoff a (List.mem_cons_of_mem _ ha)) hone
      (fun a ha => he a (List.mem_cons_of_mem _ ha)) (bound_act ha hoffa hbound)
    exact ⟨hrest.1,fun h => hrest.2 (linked_act hoffa hfree hea h)⟩

theorem acts_append (calls : List RoleCall) (call : RoleCall) (s : PeerState) :
    R.acts X (calls++[call]) s = R.acts X calls s++R.plan X (R.run X calls s) call := by
  induction calls generalizing s with
  | nil => simp [acts,run]
  | cons first calls ih =>
    rw [List.cons_append,acts,acts,ih,List.append_assoc]
    rfl

section Planned

variable (X : Platform) (R : RoleHandler)

/-- The state that the plan of a call leads to. -/
def afterPlan (s : PeerState) (call : RoleCall) : PeerState :=
  (R.plan X s call).foldl (R.act X) s

/-- The acts of a run, planned from call to call. -/
def plannedActs : List RoleCall → PeerState → List RoleAct
  | [], _ => []
  | call::calls, s => R.plan X s call++plannedActs calls (R.afterPlan X s call)

end Planned

theorem run_eq_foldl_plans (hX : X.FormatAllocated) (calls : List RoleCall) (s : PeerState) :
    R.run X calls s = calls.foldl (R.afterPlan X) s := by
  have hstep : R.perform X = R.afterPlan X := funext fun s => funext fun call => perform_plan hX s call
  rw [run,hstep]

theorem acts_eq_plannedActs (hX : X.FormatAllocated) (calls : List RoleCall) (s : PeerState) :
    R.acts X calls s = R.plannedActs X calls s := by
  induction calls generalizing s with
  | nil => rfl
  | cons call calls ih => rw [acts,plannedActs,ih,perform_plan hX,afterPlan]

/-- In the state that a run leaves, a re-derivation leaves every foreign token bound that is,
and its linkage naming it. -/
def TouchesOnly (X : Platform) (R : RoleHandler) (calls : List RoleCall) (start : PeerState)
    (call : RoleCall) : Prop :=
  ∀ ρ ∈ R.records X calls start,
    Foreign (R.plan X (R.run X calls start) call) ρ → R.Bound (R.run X calls start) ρ →
      R.Bound (R.perform X (R.run X calls start) call) ρ ∧ (R.Linked X (R.run X calls start) ρ →
          R.Linked X (R.perform X (R.run X calls start) call) ρ)

theorem re_derive_touches_only (hX : X.FormatAllocated) (calls : List RoleCall) (start : PeerState)
    (call : RoleCall) (hcall : call.ReDerives)
    (hfree : start.CollisionFree (R.written X (calls++[call]) start))
    (hoff : ∀ ρ ∈ R.records X calls start,
      Foreign (R.plan X (R.run X calls start) call) ρ → R.Bound (R.run X calls start) ρ →
        ∀ a ∈ R.plan X (R.run X calls start) call, KeepsOff R a ρ) :
    TouchesOnly X R calls start call := by
  intro ρ hρ hforeign hbound
  have hwritten : ∀ a ∈ R.acts X (calls++[call]) start, ∀ e ∈ a.entities,
      e ∈ R.written X (calls++[call]) start :=
    fun a ha e he => List.mem_flatMap.mpr ⟨a,ha,he⟩
  rw [acts_append] at hwritten
  have hrun : (R.run X calls start).CollisionFree (R.written X (calls++[call]) start) := by
    rw [run_acts hX]
    exact collisionFree_foldl hfree _ fun a ha => hwritten a (List.mem_append_left _ ha)
  rw [perform_plan hX]
  exact foldl_keeps (fun a ha => plan_rederiving hcall ha) (hoff ρ hρ hforeign hbound) hrun
    (fun a ha => hwritten a (List.mem_append_right _ ha)) hbound

end RoleHandler

/-! A team with an editor and a viewer. -/
namespace TeamSample

open Sample

def handler : RoleHandler := ⟨aliceId,alice.contentHash,"ed25519".toList,fun _ => []⟩

def team : Str := "team".toList

/-- Whatever is written, with its digest. -/
structure Document where
  type : String
  value : Value
  digest : ℕ

def Document.entity (d : Document) : Entity := Sample.entity d.type d.value d.digest

def role (name : String) : ℕ → Document :=
  .mk "system/role" (.map [(txt "grants",.array []),(txt "name",txt name)])

def assignment (name : String) (time : Fin (2^63)) : ℕ → Document :=
  .mk "system/role/assignment" (.map [(txt "assigned_at",uint time),
    (txt "assigned_by",.bytes Hash.zero.toBytes),(txt "role",txt name)])

/-- A token, its signature and its linkage. -/
def issued (peer : Entity) (time : Fin (2^63)) (token signature linkage : ℕ) : List Document :=
  [⟨"system/capability/token",tokenValue time alice.contentHash peer.contentHash [] [],token⟩,
    ⟨"system/signature",sigValue (sha256Hash token) alice.contentHash [],signature⟩,
    ⟨"system/role/derived-token-link",linkDocument (sha256Hash token) time,linkage⟩]

def editor := role "editor" 0x6665455c284c3937c49ed534bf875718676b0a07248e5ec5880c8d4e620314ef
def viewer := role "viewer" 0xbe45d90868b0a8df350dc03d5e839bab27bfd39e271aab4061eee41b36f73baf
def firstEditor := assignment "editor" 1
  0x56ab1e845ea62e85092f292302eb51fe1cb6a37dfc53b0c87452688dd96f421c
def secondEditor := assignment "editor" 2
  0x75f566f9d2b6ac4811d82429eaea732fa14fb8db45bfab9048e0d2379f63006e
def secondViewer := assignment "viewer" 2
  0x0515def60d46e2a7a7235f7991e7142ca3089508a699a25b55ba0e633514723f

def bobFirst := issued bob 1 0x760a77c268aadcbe842d2c57314c432633dfea9cd2b420da980bf176959b2ec5
  0x87b90345773ba602be2752cc69eb4cd497d5344e7716359f288b3d3a9b17998c
  0x302dddca052bfa88b5f171437acd39bf2a64ce1434ffab58e97d12f7770ceb3d
def bobSecond := issued bob 2 0x23141749e8a025baea720bb8359017289d8337646dd0c10b9a8e7ced74f36295
  0xca8b2054fcfa62bee4f5015d3fd9e75c02faef50407cbb711c52025e7bacc2c2
  0xd5465f67d36d0f46f4b8764536d7182acb8ea2f20a0361c7c1dcffa4fc29be8a
def carolSecond := issued carol 2 0x3a0ebb60c447bacc92e1b3afa0786ee8c838ea328ee8197eb294f1b6296a1590
  0xd0a05c0991c47e54661b898006566935ac49745232a1c16ad69e79edbf50a3b0
  0xd5f6389ab5dbcdf6f34e543f5bebbe3ccbf56d5c00fa09d3520dcaa99938c4b0
def bobThird := issued bob 3 0x72b4436388e927c62827260f08ccc12584fcdaa601164c7e3625677b6916018e
  0xed8d0d9db50993db3bac42d86eb3c987c342485a76a7fd11078c765938481467
  0xf6ed9b1bbade42ef30dd2c8a22199bb374ea40e7eef3cb01016b0b476cc03cdc

def documents : List Document := [editor,viewer,firstEditor,secondEditor,secondViewer]++bobFirst++
  bobSecond++carolSecond++bobThird

def grantsValue : Value := .map [(txt "grants",.array [])]
def namingValue (name : String) : Value := .map [(txt "role",txt name)]

def crates : Platform := platform
  (grantsValue::namingValue "editor"::namingValue "viewer"::documents.map Document.value)
  (documents.map fun d => (ecfForHash d.type.toList (toEcf d.value),d.digest)) []

theorem allocated : crates.FormatAllocated := by decide

def callerCap : CapabilityToken :=
  ⟨[],.single alice.contentHash,alice.contentHash,none,0,none,none,none⟩

def request (operation : String) (path : Str) (params : Value) : RoleContext :=
  ⟨operation,some callerCap,none,none,some ⟨[handler.qualify path],[]⟩,
    entity "primitive/any" params 1⟩

def defining (name : String) : RoleCall :=
  .define (request "define" (pathRoleDefinition team name.toList) grantsValue) 0 fun _ => 0

def assignPath (peer : Entity) (name : String) : Str :=
  pathRoleAssignment team (peerSegmentFromHash peer.contentHash) name.toList

def assigning (peer : Entity) (name : String) (time : ℕ) : RoleCall :=
  .assign (request "assign" (assignPath peer name) (namingValue name)) time time

def reDeriving (name : String) (time : ℕ) : RoleCall :=
  .reDerive (request "re-derive" (pathRoleDefinition team name.toList) grantsValue) time
    fun _ => time

def start : PeerState := ⟨.empty,⟨.empty⟩⟩

/-- The editor is derived again where another peer is the viewer. -/
def twoPeers : List RoleCall :=
  [defining "editor",defining "viewer",assigning bob "editor" 1,assigning carol "viewer" 2]

/-- And where the same peer is. -/
def twoRoles : List RoleCall :=
  [defining "editor",defining "viewer",assigning bob "editor" 1,assigning bob "viewer" 2]

/-- The state after the plans, and the plan of the re-derivation there. -/
def planned (calls : List RoleCall) : PeerState := calls.foldl (handler.afterPlan crates) start
def reDerivation (calls : List RoleCall) : List RoleAct :=
  handler.plan crates (planned calls) (reDeriving "editor" 3)

/-- What the run writes is apart, and the plan keeps off the token of the viewer, which is bound.
For one peer with both roles the plan is one act, and it sweeps the token of the viewer. -/
theorem evaluated :
    ((((handler.plannedActs crates (twoPeers++[reDeriving "editor" 3]) start).flatMap
      RoleAct.entities).map Entity.contentHash).Nodup ∧
    (∀ ρ ∈ (handler.plannedActs crates twoPeers start).flatMap RoleAct.records,
      RoleHandler.Foreign (reDerivation twoPeers) ρ → handler.Bound (planned twoPeers) ρ →
        ∀ a ∈ reDerivation twoPeers, handler.KeepsOff a ρ) ∧
    ∃ ρ ∈ (handler.plannedActs crates twoPeers start).flatMap RoleAct.records,
      ρ.peer = peerSegmentFromHash carol.contentHash ∧ handler.Bound (planned twoPeers) ρ) ∧
    (reDerivation twoRoles).length = 1 ∧
    ∃ ρ ∈ (handler.plannedActs crates twoRoles start).flatMap RoleAct.records,
      RoleHandler.Foreign (reDerivation twoRoles) ρ ∧ handler.Bound (planned twoRoles) ρ ∧
      ∀ a ∈ reDerivation twoRoles, (∃ start ∈ handler.swept a, start <+: handler.recordPath ρ) ∧
        ∀ ν ∈ a.records, handler.recordPath ν ≠ handler.recordPath ρ := by decide +kernel

theorem run_eq_planned (calls : List RoleCall) : handler.run crates calls start = planned calls :=
  RoleHandler.run_eq_foldl_plans allocated calls start

theorem collisionFree_twoPeers :
    start.CollisionFree (handler.written crates (twoPeers++[reDeriving "editor" 3]) start) := by
  obtain ⟨⟨happart,-,-⟩,-⟩ := evaluated
  rw [RoleHandler.written,RoleHandler.acts_eq_plannedActs allocated]
  exact fun e he => ⟨fun e' he' h => List.inj_on_of_nodup_map happart he' he h,
    fun e' hget => by cases hget⟩

theorem re_derive_touches_only_sample : RoleHandler.TouchesOnly crates handler twoPeers start
      (reDeriving "editor" 3) ∧
    ∃ ρ ∈ handler.records crates twoPeers start, ρ.peer = peerSegmentFromHash carol.contentHash ∧
      handler.Bound (handler.run crates twoPeers start) ρ := by
  obtain ⟨⟨-,hoff,hbound⟩,-⟩ := evaluated
  refine ⟨RoleHandler.re_derive_touches_only allocated twoPeers start _ trivial
    collisionFree_twoPeers ?_,?_⟩
  · rw [RoleHandler.records,RoleHandler.acts_eq_plannedActs allocated,run_eq_planned]
    exact hoff
  · rw [RoleHandler.records,RoleHandler.acts_eq_plannedActs allocated,run_eq_planned]
    exact hbound

/-- The token of the viewer goes with that of the editor. -/
theorem other_role_swept : ¬ RoleHandler.TouchesOnly crates handler twoRoles start
    (reDeriving "editor" 3) := by
  obtain ⟨-,hone,ρ,hρ,hforeign,hbound,hsweep⟩ := evaluated
  obtain ⟨a,ha⟩ := List.length_eq_one_iff.mp hone
  have hmem : a ∈ reDerivation twoRoles := by rw [ha]; exact List.mem_singleton_self a
  intro h
  rw [RoleHandler.TouchesOnly,RoleHandler.records,RoleHandler.acts_eq_plannedActs allocated,
    run_eq_planned] at h
  have hafter := (h ρ hρ hforeign hbound).1
  rw [RoleHandler.perform_plan allocated] at hafter
  rw [show handler.plan crates (planned twoRoles) (reDeriving "editor" 3) = [a] from ha] at hafter
  have hre : RoleHandler.RederivingAct handler a :=
    RoleHandler.plan_rederiving (show (reDeriving "editor" 3).ReDerives from trivial) hmem
  exact RoleHandler.unbound_of_swept hre (hsweep a hmem).1 (hsweep a hmem).2 _ hafter

end TeamSample
end EntityCore
