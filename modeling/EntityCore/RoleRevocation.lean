import EntityCore.CapturedScopes
import EntityCore.ReDeriveFrame
import EntityCore.RolePlans
import EntityCore.TokenStamps

/-! Revocation through the linkage. A triple has one linkage, which names the token minted
last; so long as no act touches the linkage of another bound token, every bound token is
named by its linkage, and unassigning takes it. -/
namespace EntityCore

open Ecf Outcome Strings List

variable {s : PeerState} {L : List RoleRecord}

/-! The linkage read back. -/

theorem integerI64_small {n : ℕ} (h : n < 2^63) : ∃ i, integerI64 n = .integer i ∧ i.val = n := by
  unfold integerI64
  refine ⟨_,rfl,?_⟩
  simp only
  apply Int.bmod_eq_of_le
  · norm_num
  · norm_num
    omega

theorem link_read {X : Platform} {token : Hash} {issuedAt : ℕ} (ht : issuedAt < 2^63)
    (hread : ReadsBack X (linkDocument token issuedAt)) {e : Entity}
    (h : derivedTokenLinkEntity X token issuedAt = .ok e) :
    RoleDerivedTokenLink.fromEntity X e = .ok ⟨token,issuedAt⟩ := by
  obtain ⟨htype,hdata,-⟩ := Entity.newWithFormat_ok X ((mapErr_ok _ _ _).mp h)
  obtain ⟨w,hw,hsame⟩ := hread
  have hnames : ([field "issued_at" (integerI64 issuedAt),field "token_hash" (hashVal token)].map
      fun kv => kv.1.asText).Nodup := by simp [field,Value.asText]
  obtain ⟨i,hi,hval⟩ := integerI64_small ht
  cases w with
  | map m =>
    have hhash := getField_rel hsame hnames "token_hash"
    have htime := getField_rel hsame hnames "issued_at"
    have hgiven : getField [field "issued_at" (integerI64 issuedAt),
          field "token_hash" (hashVal token)] "token_hash" = some (.bytes token.toBytes) ∧
        getField [field "issued_at" (integerI64 issuedAt),
          field "token_hash" (hashVal token)] "issued_at" = some (.integer i) := by
      simp [getField,field,Value.asText,hashVal,hi]
    rw [hgiven.1] at hhash
    rw [hgiven.2] at htime
    generalize hm : getField m "token_hash" = a at hhash
    generalize hn : getField m "issued_at" = b at htime
    cases hhash with
    | some hhash =>
      cases hhash
      cases htime with
      | some htime =>
        cases htime
        have hmap : Role.decodeMap X e.data = .ok m := by
          have hw : X.fromReader e.data = .ok (.map m) := hdata ▸ hw
          simp [Role.decodeMap,hw,mapErr,Value.asMap,okOr,bind,Except.bind]
        have hneg : ¬ i.val < 0 := by omega
        have htime : i.val.toNat = issuedAt := by omega
        simp only [RoleDerivedTokenLink.fromEntity,htype,ensure,decide_true,if_true,hmap,
          Role.fieldHash,Role.fieldU64,Role.nonNegative,hm,hn,okOr,Value.asBytes,Value.asInteger,
          Hash.fromBytes_toBytes,mapErr,bind,Except.bind,pure,Except.pure,hneg,if_false,htime]
  | _ => cases hsame

namespace RoleHandler

variable {X : Platform} {R : RoleHandler}

/-! The ledger. -/

/-- An act spares a ledger: the one path of the role subtree that it touches is the linkage
of no bound token, unless of the triple that it is about. -/
def Spares (R : RoleHandler) (L : List RoleRecord) (s : PeerState) (a : RoleAct) : Prop :=
  ∀ ρ ∈ L, R.Bound s ρ → ρ.role.isSome → R.touched a = R.linkOf ρ → a.owner = ρ.triple

instance (L : List RoleRecord) (s : PeerState) (a : RoleAct) : Decidable (Spares R L s a) :=
  inferInstanceAs (Decidable (∀ ρ ∈ L, _ → _ → _ → _))

/-- Every binding of a token is recorded, and its linkage names it. -/
structure Ledger (X : Platform) (R : RoleHandler) (L : List RoleRecord) (s : PeerState) : Prop where
  recorded : ∀ q h, R.qualify roleDerivedPrefix <+: q → s.locationIndex.get q = some h →
    ∃ ρ ∈ L, q = R.recordPath ρ ∧ h = ρ.cap.contentHash
  linked : ∀ ρ ∈ L, ρ.role.isSome → R.Bound s ρ → R.Linked X s ρ

/-- Tokens appear with a record only. -/
theorem act_derived {q : Str} (hq : R.qualify roleDerivedPrefix <+: q) {a : RoleAct}
    (ha : Planned X R a) {h : Hash}
    (hget : (R.act X s a).locationIndex.get q = some h) : s.locationIndex.get q = some h ∨
      ∃ ρ ∈ a.records, q = R.recordPath ρ ∧ h = ρ.cap.contentHash := by
  have hsig := derived_ne_signature hq
  cases a with
  | write path entity =>
    have hne : q ≠ path := by
      rintro rfl
      exact ha hq
    rw [act,PeerState.get_set,if_neg fun hh => hne hh.1] at hget
    exact .inl hget
  | mint issue issuedAt cap sig link =>
    rw [act,get_bindMinted_derived hq] at hget
    split_ifs at hget with hpath
    · exact .inr ⟨_,mem_singleton_self _,hpath.1,(Option.some.inj hget).symm⟩
    · exact .inl hget
  | reissue issue issuedAt cap sig link =>
    rw [get_reissue_derived hq] at hget
    split_ifs at hget with hpath
    · exact .inr ⟨_,mem_singleton_self _,hpath.1,(Option.some.inj hget).symm⟩
    · exact .inl hget
  | pass c p issuedAt cap sig =>
    rw [act,get_bindPassed hsig] at hget
    split_ifs at hget with hpath
    · exact .inr ⟨_,mem_singleton_self _,hpath.1,(Option.some.inj hget).symm⟩
    · exact .inl hget
  | unbind path =>
    rw [act,PeerState.get_remove] at hget
    split_ifs at hget
    exact .inl hget
  | sweep c p =>
    rw [act,get_sweepRoleDerived hsig] at hget
    split_ifs at hget
    exact .inl hget
  | revoke c p r =>
    rcases get_revoke (X := X) hsig c p r s with heq | ⟨hnone,-⟩
    · exact .inl (heq ▸ hget)
    · rw [show (R.act X s (.revoke c p r)).locationIndex.get q = none from hnone] at hget
      cases hget

theorem revoked_of_linked {ρ : RoleRecord} {c p r : Str}
    (htriple : ρ.triple = some (c,p,r)) (h : R.Linked X s ρ) :
    ¬ R.Bound (R.revokeViaLinkage X c p r s).2 ρ := by
  obtain ⟨role,hrole,htriple⟩ := Option.map_eq_some_iff.mp htriple
  obtain ⟨rfl,rfl,rfl⟩ : ρ.context = c ∧ ρ.peer = p ∧ role = r := by simpa using htriple
  obtain ⟨path,hash,entity,link,hpath,hget,hentity,hlink,htoken⟩ := h
  rw [linkOf,hrole] at hpath
  obtain rfl := Option.some.inj hpath
  simp only [Bound,revokeViaLinkage,hget,hentity,hlink,recordPath,htoken]
  simp

theorem owned_taken {a : RoleAct} {ρ : RoleRecord} (hrole : ρ.role.isSome)
    (howner : a.owner = ρ.triple) (h : R.Linked X s ρ)
    (hnew : ∀ ρ' ∈ a.records, ρ.cap.contentHash ≠ ρ'.cap.contentHash) :
    ¬ R.Bound (R.act X s a) ρ := by
  obtain ⟨role,hρ⟩ := Option.isSome_iff_exists.mp hrole
  have htriple : ρ.triple = some (ρ.context,ρ.peer,role) := by rw [RoleRecord.triple,hρ]; rfl
  rw [htriple] at howner
  cases a with
  | reissue issue issuedAt cap sig link =>
    obtain ⟨hc,hp,-⟩ : issue.context = ρ.context ∧ issue.assignee = ρ.peer ∧ issue.role = role := by
      simpa [RoleAct.owner] using howner
    have hother : R.recordPath ρ ≠ R.tokenPath issue cap.contentHash := by
      intro heq
      rw [recordPath,tokenPath,hc,hp] at heq
      have hhex := append_cancel_left (qualify_inj.mp heq)
      exact hnew _ (mem_singleton_self _) (Hash.toHex_inj hhex)
    have hunder : R.qualify (prefixRoleDerivedPeer issue.context issue.assignee) <+:
        R.recordPath ρ := by
      rw [hc,hp]
      exact derived_token _ _ _
    rw [Bound,get_reissue_derived (derived_record ρ),if_neg fun hh => hother hh.1,
      if_pos ⟨hother,hunder⟩]
    exact fun h => by cases h
  | revoke c p r =>
    have howner := howner.symm
    exact revoked_of_linked (htriple.trans howner) h
  | _ => cases howner

/-- The linkages of the records can be read: their times fit, and their documents read back. -/
def LinksRead (X : Platform) (L : List RoleRecord) : Prop :=
  ∀ ρ ∈ L, ρ.role.isSome →
    ρ.createdAt < 2^63 ∧ ReadsBack X (linkDocument ρ.cap.contentHash ρ.createdAt)

theorem linked_minted {issue : RoleIssue} {issuedAt : ℕ} {cap sig link : Entity}
    (hm : Minted X R issue issuedAt cap sig link) (ht : issuedAt < 2^63)
    (hread : ReadsBack X (linkDocument cap.contentHash issuedAt))
    (hindex : s.locationIndex.get (R.linkPath issue) = some link.contentHash)
    (hstore : s.contentStore.get link.contentHash = some link) :
    R.Linked X s ⟨issue.context,issue.assignee,some issue.role,issuedAt,cap⟩ :=
  ⟨_,_,_,_,rfl,hindex,hstore,link_read ht hread hm.linkage,rfl⟩

theorem linked_record {a : RoleAct} (ha : Planned X R a) (hread : LinksRead X a.records)
    (s : PeerState) {ρ : RoleRecord} (hρ : ρ ∈ a.records) (hrole : ρ.role.isSome) :
    R.Linked X (R.act X s a) ρ := by
  have hlast : ∀ cap sig link : Entity,
      ((((s.put cap).put sig).put link).contentStore.get link.contentHash) = some link := by simp
  have hstore := act_contentStore (R := R) (X := X) s a
  have hρread := hread ρ hρ hrole
  cases a with
  | mint issue issuedAt cap sig link =>
    obtain rfl := mem_singleton.mp hρ
    have hunder : R.qualify rolePrefix <+: R.linkPath issue := role_link _ _ _
    refine linked_minted ha.1 hρread.1 hρread.2 ?_ (by rw [hstore]; exact hlast cap sig link)
    rw [act,get_bindMinted_role hunder,if_pos ⟨rfl,ha.2⟩]
  | reissue issue issuedAt cap sig link =>
    obtain rfl := mem_singleton.mp hρ
    have hunder : R.qualify rolePrefix <+: R.linkPath issue := role_link _ _ _
    refine linked_minted ha.1 hρread.1 hρread.2 ?_ (by rw [hstore]; exact hlast cap sig link)
    rw [get_reissue_role hunder,if_pos ⟨rfl,ha.2⟩]
  | pass c p issuedAt cap sig =>
    obtain rfl := mem_singleton.mp hρ
    cases hrole
  | _ => cases hρ

theorem Ledger.act (h : Ledger X R L s) {a : RoleAct}
    (ha : Planned X R a) (hspares : Spares R L s a) {entities : List Entity}
    (hfree : s.CollisionFree entities) (he : ∀ e ∈ a.entities, e ∈ entities)
    (hnew : ∀ ρ ∈ L, ∀ ρ' ∈ a.records, ρ.cap.contentHash ≠ ρ'.cap.contentHash)
    (hread : LinksRead X a.records) : Ledger X R (L++a.records) (R.act X s a) where
  recorded q hash hq hget := by
    rcases act_derived hq ha hget with hold | ⟨ρ,hρ,hboth⟩
    · obtain ⟨ρ,hρ,hboth⟩ := h.recorded q hash hq hold
      exact ⟨ρ,mem_append_left _ hρ,hboth⟩
    · exact ⟨ρ,mem_append_right _ hρ,hboth⟩
  linked ρ hρ hrole hbound := by
    rcases mem_append.mp hρ with hρ | hρ
    · have hbefore : R.Bound s ρ := by
        rcases act_derived (derived_record ρ) ha hbound with hold | ⟨ρ',hρ',-,hsame⟩
        · exact hold
        · exact absurd hsame (hnew ρ hρ ρ' hρ')
      have hlinked := h.linked ρ hρ hrole hbefore
      -- where the linkage is touched, the token is the act's own and is gone
      have htouched : R.touched a ≠ R.linkOf ρ := fun htouched =>
        owned_taken hrole (hspares ρ hρ hbefore hrole htouched) hlinked (hnew ρ hρ) hbound
      refine linked_of_get hlinked (fun path hpath => ?_) (collisionFree_act hfree he).2
      exact act_role (role_linkOf hpath) (hpath ▸ htouched) s
    · exact linked_record ha hread s hρ hrole

/-- Every act of a run spares what is recorded when its turn comes. -/
def RunSpares (X : Platform) (R : RoleHandler) : List RoleAct → List RoleRecord → PeerState → Prop
  | [], _, _ => True
  | a::as, L, s => Spares R L s a ∧ RunSpares X R as (L++a.records) (R.act X s a)

instance decidableRunSpares : ∀ as L s, Decidable (RunSpares X R as L s)
  | [], _, _ => isTrue trivial
  | a::as, L, s =>
    have := decidableRunSpares as (L++a.records) (R.act X s a)
    inferInstanceAs (Decidable (_ ∧ _))

/-- A whole run keeps the ledger, by induction over its acts. -/
theorem Ledger.foldl {as : List RoleAct}
    (h : Ledger X R L s) (has : ∀ a ∈ as, Planned X R a) (hspares : RunSpares X R as L s)
    {entities : List Entity} (hfree : s.CollisionFree entities)
    (he : ∀ a ∈ as, ∀ e ∈ a.entities, e ∈ entities)
    (hnew : (L++as.flatMap RoleAct.records).Pairwise
      fun ρ ρ' => ρ.cap.contentHash ≠ ρ'.cap.contentHash)
    (hread : LinksRead X (as.flatMap RoleAct.records)) :
    Ledger X R (L++as.flatMap RoleAct.records) (as.foldl (R.act X) s) := by
  induction as generalizing L s with
  | nil => simpa using h
  | cons a as ih =>
    rw [flatMap_cons,← append_assoc] at hnew ⊢
    have hea := he a mem_cons_self
    have hsplit := pairwise_append.mp (pairwise_append.mp hnew).1
    have hfirst := h.act (has a mem_cons_self) hspares.1 hfree hea hsplit.2.2
      fun ρ hρ => hread ρ (by simp [hρ])
    exact ih hfirst (fun a ha => has a (mem_cons_of_mem _ ha)) hspares.2
      (collisionFree_act hfree hea).1 (fun a ha => he a (mem_cons_of_mem _ ha)) hnew
      fun ρ hρ => hread ρ (mem_append_right _ hρ)

theorem distinct_of_clock (hclock : (L.map RoleRecord.createdAt).Pairwise (· < ·))
    (hstamped : ∀ ρ ∈ L, ρ.createdAt < 2^64 ∧ ∃ token, Stamped X ρ.createdAt ρ.cap token)
    {entities : List Entity} (hfree : s.CollisionFree entities) (hcap : ∀ ρ ∈ L, ρ.cap ∈ entities) :
    L.Pairwise fun ρ ρ' => ρ.cap.contentHash ≠ ρ'.cap.contentHash := by
  refine (pairwise_map.mp hclock).imp_of_mem ?_
  intro ρ ρ' hρ hρ' hlt heq
  obtain ⟨hfits,token,htoken⟩ := hstamped ρ hρ
  obtain ⟨hfits',token',htoken'⟩ := hstamped ρ' hρ'
  have hsame : ρ.cap = ρ'.cap := (hfree _ (hcap ρ' hρ')).1 _ (hcap ρ hρ) heq
  have hbytes : ∀ {e : Entity} {t : CapabilityToken}, t.toEntity X = .ok e → e.data = t.toEcf :=
    fun he => (Entity.newWithFormat_ok X ((mapErr_ok _ _ _).mp he)).2.1
  have hdata : token.toEcf = token'.toEcf := by
    rw [← hbytes htoken.entity,← hbytes htoken'.entity,hsame]
  have hstamp := stamp_of_same_bytes htoken.notBefore htoken.caveats htoken'.notBefore
    htoken'.caveats (by rw [htoken.createdAt]; exact hfits) (by rw [htoken'.createdAt]; exact hfits')
    hdata
  rw [htoken.createdAt,htoken'.createdAt] at hstamp
  omega

/-- No role operation has been performed: no token is bound, and nothing at a malformed path. -/
structure Fresh (R : RoleHandler) (s : PeerState) : Prop where
  storable : s.Storable
  unbound : ∀ q, R.qualify roleDerivedPrefix <+: q → s.locationIndex.get q = none

/-- After a triple has been unassigned, none of its recorded tokens is bound for the peer. -/
def Revokes (X : Platform) (R : RoleHandler) (L : List RoleRecord) (s : PeerState)
    (ctx : RoleContext) : Prop :=
  ∀ path c p r, R.approveUnassign ctx = .ok (path,⟨c,p,some r⟩) →
    ∀ ρ ∈ L, ρ.triple = some (c,p,r) → ∀ q, R.qualify (prefixRoleDerivedPeer c p) <+: q →
      (R.handleUnassign X ctx s).2.locationIndex.get q ≠ some ρ.cap.contentHash

theorem assignment_ne_link (c p r : Str) :
    R.linkPathOf c p r ≠ R.qualify (pathRoleAssignment c p r) := by
  intro h
  have h := qualify_inj.mp h
  simp only [pathRoleAssignment,pathRoleDerivedLink,append_assoc,append_cancel_left_eq] at h
  exact absurd (congrArg (take 2) h) (by simp)

theorem Ledger.revokes (h : Ledger X R L s)
    (hnew : L.Pairwise fun ρ ρ' => ρ.cap.contentHash ≠ ρ'.cap.contentHash) (ctx : RoleContext) :
    Revokes X R L s ctx := by
  intro path c p r happ ρ hρ htriple q hq hget
  have hderived : R.qualify roleDerivedPrefix <+: q := (derived_peer c p).trans hq
  have hrole : ρ.role.isSome := by
    obtain ⟨role,hrole,-⟩ := Option.map_eq_some_iff.mp htriple
    rw [hrole]
    rfl
  have hstate : (R.handleUnassign X ctx s).2 =
      (R.revokeViaLinkage X c p r (s.remove (R.qualify (pathRoleAssignment c p r)))).2 := by
    simp only [handleUnassign,happ,unassignRole]
  rw [hstate] at hget
  -- only removals lie behind, so the binding was there, and is the token's own
  have hbefore : s.locationIndex.get q = some ρ.cap.contentHash := by
    have hother : q ≠ R.qualify (pathRoleAssignment c p r) :=
      (role_ne_derived (role_assignment c p r) hderived).symm
    rcases get_revoke (X := X) (derived_ne_signature hderived) c p r
      (s.remove (R.qualify (pathRoleAssignment c p r))) with heq | ⟨hnone,-⟩
    · rw [heq,PeerState.get_remove,if_neg hother] at hget
      exact hget
    · rw [hnone] at hget
      cases hget
  obtain ⟨ρ',hρ',hplace,hsame⟩ := h.recorded q _ hderived hbefore
  have hnodup : (L.map fun ρ => ρ.cap.contentHash).Nodup := pairwise_map.mpr hnew
  obtain rfl : ρ = ρ' := inj_on_of_nodup_map hnodup hρ hρ' hsame
  have hlinked := h.linked ρ hρ hrole (by rw [Bound,← hplace,hbefore])
  have hkept : R.Linked X (s.remove (R.qualify (pathRoleAssignment c p r))) ρ := by
    refine linked_of_get hlinked (fun path hpath => ?_) fun _ _ h => h
    have hlink : path = R.linkPathOf c p r := by
      obtain ⟨role,hrole,hsome⟩ := Option.map_eq_some_iff.mp htriple
      obtain ⟨rfl,rfl,rfl⟩ : ρ.context = c ∧ ρ.peer = p ∧ role = r := by simpa using hsome
      rw [linkOf,hrole] at hpath
      exact (Option.some.inj hpath).symm
    rw [PeerState.get_remove,if_neg (hlink ▸ assignment_ne_link c p r)]
  exact revoked_of_linked htriple hkept (by rw [Bound,← hplace,hget])

/-- In every run whose acts spare the linkages of other bound tokens, unassigning a triple
takes every token that was minted for it. -/
theorem unassign_revokes (hX : X.FormatAllocated) (hR : R.LocalSegment) (calls : List RoleCall)
    (start : PeerState) (hstart : Fresh R start)
    (hclock : ((R.records X calls start).map RoleRecord.createdAt).Pairwise (· < ·))
    (hfits : ∀ ρ ∈ R.records X calls start, ρ.createdAt < 2^63)
    (hread : ∀ ρ ∈ R.records X calls start,
      ReadsBack X (linkDocument ρ.cap.contentHash ρ.createdAt))
    (hfree : start.CollisionFree (R.written X calls start))
    (hspares : RunSpares X R (R.acts X calls start) [] start) (ctx : RoleContext) :
    Revokes X R (R.records X calls start) (R.run X calls start) ctx := by
  have hplanned := acts_planned hX hR calls hstart.storable
  have hcap : ∀ ρ ∈ R.records X calls start, ρ.cap ∈ R.written X calls start := by
    intro ρ hρ
    obtain ⟨a,ha,hρ⟩ := List.mem_flatMap.mp hρ
    refine List.mem_flatMap.mpr ⟨a,ha,?_⟩
    cases a <;> simp_all [RoleAct.records,RoleAct.entities]
  have hnew := distinct_of_clock hclock (fun ρ hρ => by
    obtain ⟨a,ha,hmem⟩ := List.mem_flatMap.mp hρ
    have hsmall := hfits ρ hρ
    exact ⟨by omega,stamped_record (hplanned a ha) hmem⟩) hfree hcap
  have hempty : Ledger X R [] start :=
    ⟨fun q hash hq hget => absurd hget (by simp [hstart.unbound q hq]),nofun⟩
  have hledger := hempty.foldl hplanned hspares hfree
    (fun a ha e he => List.mem_flatMap.mpr ⟨a,ha,he⟩) hnew fun ρ hρ _ => ⟨hfits ρ hρ,hread ρ hρ⟩
  rw [run_acts hX]
  exact hledger.revokes hnew ctx

end RoleHandler

/-! The editor role of one peer, derived again or assigned twice, and then unassigned. -/
namespace TeamSample

open Compute Sample

def unassigning : RoleContext := request "unassign" (assignPath bob "editor") grantsValue

def derivedAgain : List RoleCall :=
  [defining "editor",assigning bob "editor" 1,reDeriving "editor" 3]

def assignedTwice : List RoleCall :=
  [defining "editor",assigning bob "editor" 1,assigning bob "editor" 2]

theorem links_read {token : Hash} {issuedAt : ℕ}
    (h : linkDocument token issuedAt ∈ documents.map Document.value) :
    ReadsBack crates (linkDocument token issuedAt) := by
  have hn : ((grantsValue::namingValue "editor"::namingValue "viewer"::
      documents.map Document.value).map toEcf).Nodup := by decide +kernel
  have htag : Tagless (linkDocument token issuedAt) := by
    apply tagless_entries
    simp [field,hashVal,integerI64,Tagless.text,Tagless.bytes,Tagless.integer]
  exact ⟨_,reads_document hn (by simp [h]),same_self htag⟩

def issuedTimes : List (Hash × ℕ) :=
  [(sha256Hash 0x760a77c268aadcbe842d2c57314c432633dfea9cd2b420da980bf176959b2ec5,1),
    (sha256Hash 0x72b4436388e927c62827260f08ccc12584fcdaa601164c7e3625677b6916018e,3)]

theorem issuedTimes_documents : ∀ i ∈ issuedTimes,
    linkDocument i.1 i.2 ∈ documents.map Document.value := by
  have hfirst : linkDocument
      (sha256Hash 0x760a77c268aadcbe842d2c57314c432633dfea9cd2b420da980bf176959b2ec5) 1 ∈
        bobFirst.map Document.value := by simp [bobFirst,issued]
  have hthird : linkDocument
      (sha256Hash 0x72b4436388e927c62827260f08ccc12584fcdaa601164c7e3625677b6916018e) 3 ∈
        bobThird.map Document.value := by simp [bobThird,issued]
  intro i hi
  simp only [issuedTimes,mem_cons,not_mem_nil,or_false] at hi
  rw [documents,map_append,map_append,map_append,map_append]
  rcases hi with rfl | rfl
  · simp only [mem_append,hfirst,true_or,or_true]
  · simp only [mem_append,hthird,or_true]

/-- What the run with two tokens of a role writes is apart. Where the role is assigned twice, the
first token stays at its path. -/
theorem evaluated_unassigning :
    ((((handler.plannedActs crates derivedAgain start).flatMap RoleAct.entities).map
      Entity.contentHash).Nodup ∧
    ((handler.plannedActs crates derivedAgain start).flatMap RoleAct.records).map
      (fun ρ => (ρ.cap.contentHash,ρ.createdAt)) = issuedTimes ∧
    RoleHandler.RunSpares crates handler (handler.plannedActs crates derivedAgain start) [] start) ∧
    (handler.approveUnassign unassigning).toOption =
      some (handler.qualify (assignPath bob "editor"),
        ⟨team,peerSegmentFromHash bob.contentHash,some "editor".toList⟩) ∧
    ∃ ρ ∈ (handler.plannedActs crates assignedTwice start).flatMap RoleAct.records,
      ρ.triple = some (team,peerSegmentFromHash bob.contentHash,"editor".toList) ∧
      (handler.handleUnassign crates unassigning (planned assignedTwice)).2.locationIndex.get
        (handler.recordPath ρ) = some ρ.cap.contentHash ∧
      handler.qualify (prefixRoleDerivedPeer team (peerSegmentFromHash bob.contentHash)) <+:
        handler.recordPath ρ := by decide +kernel

theorem fresh_start : RoleHandler.Fresh handler start := ⟨nofun,fun _ _ => rfl⟩

theorem unassign_revokes_sample : RoleHandler.Revokes crates handler
      (handler.records crates derivedAgain start) (handler.run crates derivedAgain start)
      unassigning ∧ (handler.records crates derivedAgain start).length = 2 := by
  obtain ⟨⟨happart,hissued,hspares⟩,-⟩ := evaluated_unassigning
  rw [← RoleHandler.acts_eq_plannedActs allocated] at happart hissued hspares
  have hmem : ∀ ρ ∈ handler.records crates derivedAgain start,
      (ρ.cap.contentHash,ρ.createdAt) ∈ issuedTimes := by
    rw [← hissued]
    exact fun ρ hρ => List.mem_map_of_mem hρ
  have htimes : (handler.records crates derivedAgain start).map RoleRecord.createdAt = [1,3] := by
    have h := congrArg (List.map Prod.snd) hissued
    rwa [List.map_map] at h
  have hread : ∀ ρ ∈ handler.records crates derivedAgain start,
      ReadsBack crates (linkDocument ρ.cap.contentHash ρ.createdAt) := by
    intro ρ hρ
    exact links_read (issuedTimes_documents (ρ.cap.contentHash,ρ.createdAt) (hmem ρ hρ))
  have hsmall : ∀ i ∈ issuedTimes, i.2 < 2^63 := by simp [issuedTimes]
  refine ⟨RoleHandler.unassign_revokes allocated ⟨by decide,by decide⟩ derivedAgain
    start fresh_start (by rw [htimes]; decide) (fun ρ hρ => hsmall _ (hmem ρ hρ)) hread
    ?_ hspares unassigning,by simpa using congrArg List.length htimes⟩
  exact fun e he => ⟨fun e' he' h => List.inj_on_of_nodup_map happart he' he h,
    fun e' hget => by cases hget⟩

/-- Of two tokens of a role the first stays bound. -/
theorem first_token_stays : ¬ RoleHandler.Revokes crates handler
    (handler.records crates assignedTwice start) (handler.run crates assignedTwice start)
    unassigning := by
  obtain ⟨-,happ,ρ,hρ,htriple,hget,hunder⟩ := evaluated_unassigning
  rw [← RoleHandler.acts_eq_plannedActs allocated] at hρ
  rw [← run_eq_planned] at hget
  intro h
  cases hres : handler.approveUnassign unassigning with
  | error failure => simp [hres,Except.toOption] at happ
  | ok found =>
    obtain rfl : found = _ := by simpa [hres,Except.toOption] using happ
    exact h _ _ _ _ hres ρ hρ htriple _ hunder hget

end TeamSample
end EntityCore
