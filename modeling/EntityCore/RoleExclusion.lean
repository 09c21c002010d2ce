import EntityCore.CapabilityHandler
import EntityCore.Recognition
import EntityCore.Schedule

/-! Exclusion of a peer from a role context. An exclusion is bound and then swept for;
a role-derived token is bound and then checked for an exclusion. No lock is held between,
so the operations on one context and peer interleave index access by index access. -/
namespace EntityCore

open Strings

def roleDerivedPrefix : Str := "system/capability/grants/role-derived/".toList

/-! Paths, for a peer spelled as the hex of its identity hash. -/

def pathRoleAssignment (context peerHex role : Str) : Str :=
  rolePrefix++context++ "/assignment/".toList++peerHex++ '/'::role

def pathRoleExclusion (context peerHex : Str) : Str :=
  rolePrefix++context++ "/excluded/".toList++peerHex

def pathRoleDerivedLink (context peerHex role : Str) : Str :=
  rolePrefix++context++ "/derived-tokens/".toList++peerHex++ '/'::role

def prefixRoleDerivedPeer (context peerHex : Str) : Str :=
  roleDerivedPrefix++context++ '/'::peerHex++['/']

def pathRoleDerivedToken (context peerHex tokenHex : Str) : Str :=
  prefixRoleDerivedPeer context peerHex++tokenHex

/-- The context and the peer that the operations are about, at one local peer. -/
structure RoleScope where
  localPeerId : Str
  context : Str
  peer : Hash

namespace RoleScope

variable (R : RoleScope)

def qualify (path : Str) : Str := '/'::R.localPeerId++ '/'::path

def exclusionPath : Str := R.qualify (pathRoleExclusion R.context R.peer.toHex)
def derivedPrefix : Str := R.qualify (prefixRoleDerivedPeer R.context R.peer.toHex)
def tokenPath (token : Hash) : Str :=
  R.qualify (pathRoleDerivedToken R.context R.peer.toHex token.toHex)
def linkPath (role : Str) : Str := R.qualify (pathRoleDerivedLink R.context R.peer.toHex role)
def assignmentPath (role : Str) : Str := R.qualify (pathRoleAssignment R.context R.peer.toHex role)
def signaturePath (token : Hash) : Str :=
  CapabilityHandler.invariantSignaturePath R.localPeerId token

def excluded (index : MemoryLocationIndex) : Bool := (index.get R.exclusionPath).isSome

/-! Only the token paths are under the swept prefix, and only the exclusion path is the
one that is looked up. -/

theorem qualify_prefix_iff (a b : Str) : R.qualify a <+: R.qualify b ↔ a <+: b := by
  simp [qualify,List.prefix_append_right_inj]

theorem derivedPrefix_tokenPath (token : Hash) : R.derivedPrefix <+: R.tokenPath token := by
  unfold derivedPrefix tokenPath
  rw [qualify_prefix_iff]
  unfold pathRoleDerivedToken
  exact List.prefix_append _ _

theorem not_derivedPrefix {a : Str} (ha : 8 ≤ a.length) (hne : a.take 8 ≠ "system/c".toList)
    (rest : Str) : ¬ R.derivedPrefix <+: R.qualify (a++rest) := by
  unfold derivedPrefix
  rw [qualify_prefix_iff]
  unfold prefixRoleDerivedPeer
  simp only [List.append_assoc]
  have hd : 8 ≤ roleDerivedPrefix.length := by decide +kernel
  have htake : roleDerivedPrefix.take 8 = "system/c".toList := by decide +kernel
  exact not_prefix_append hd ha (by rw [htake]; exact hne.symm) _ _

theorem not_derivedPrefix_role (rest : Str) : ¬ R.derivedPrefix <+: R.qualify (rolePrefix++rest) :=
  R.not_derivedPrefix (by decide) (by decide) rest

theorem not_derivedPrefix_exclusionPath : ¬ R.derivedPrefix <+: R.exclusionPath := by
  unfold exclusionPath pathRoleExclusion
  simp only [List.append_assoc]
  exact R.not_derivedPrefix_role _

theorem not_derivedPrefix_assignmentPath (role : Str) :
    ¬ R.derivedPrefix <+: R.assignmentPath role := by
  unfold assignmentPath pathRoleAssignment
  simp only [List.append_assoc]
  exact R.not_derivedPrefix_role _

theorem not_derivedPrefix_linkPath (role : Str) : ¬ R.derivedPrefix <+: R.linkPath role := by
  unfold linkPath pathRoleDerivedLink
  simp only [List.append_assoc]
  exact R.not_derivedPrefix_role _

theorem signaturePath_eq (token : Hash) :
    R.signaturePath token = R.qualify ("system/signature/".toList++token.toHex) := by
  have hslash : "/system/signature/".toList = '/'::"system/signature/".toList := by decide
  simp only [signaturePath,CapabilityHandler.invariantSignaturePath,qualify,hslash,
    List.cons_append,List.append_assoc]

theorem not_derivedPrefix_signaturePath (token : Hash) :
    ¬ R.derivedPrefix <+: R.signaturePath token := by
  rw [signaturePath_eq]
  exact R.not_derivedPrefix (by decide) (by decide) _

/-- Paths of a context that differ right after it. -/
theorem role_ne {a b : Str} (ha : 2 ≤ a.length) (hb : 2 ≤ b.length) (hne : a.take 2 ≠ b.take 2)
    (x y : Str) :
    R.qualify (rolePrefix++(R.context++(a++x))) ≠ R.qualify (rolePrefix++(R.context++(b++y))) := by
  intro h
  have hp : R.qualify (rolePrefix++(R.context++(a++x))) <+:
      R.qualify (rolePrefix++(R.context++(b++y))) := by rw [h]
  rw [qualify_prefix_iff,List.prefix_append_right_inj,List.prefix_append_right_inj] at hp
  exact not_prefix_append ha hb hne x y hp

theorem assignmentPath_ne (role : Str) : R.assignmentPath role ≠ R.exclusionPath := by
  unfold assignmentPath exclusionPath pathRoleAssignment pathRoleExclusion
  simp only [List.append_assoc]
  exact R.role_ne (by decide) (by decide) (by decide) _ _

theorem linkPath_ne (role : Str) : R.linkPath role ≠ R.exclusionPath := by
  unfold linkPath exclusionPath pathRoleDerivedLink pathRoleExclusion
  simp only [List.append_assoc]
  exact R.role_ne (by decide) (by decide) (by decide) _ _

theorem signaturePath_ne (token : Hash) : R.signaturePath token ≠ R.exclusionPath := by
  rw [signaturePath_eq]
  intro h
  have hp : R.qualify ("system/signature/".toList++token.toHex) <+: R.exclusionPath := by rw [h]
  unfold exclusionPath pathRoleExclusion at hp
  rw [qualify_prefix_iff] at hp
  simp only [List.append_assoc] at hp
  have hl : 8 ≤ "system/signature/".toList.length := by decide
  have hr : 8 ≤ rolePrefix.length := by decide
  exact not_prefix_append hl hr (by decide) _ _ hp

theorem tokenPath_ne (token : Hash) : R.tokenPath token ≠ R.exclusionPath := by
  intro h
  apply R.not_derivedPrefix_exclusionPath
  rw [← h]
  exact R.derivedPrefix_tokenPath token

end RoleScope

/-- A token to issue under a role, with its signature. -/
structure Issuing where
  role : Str
  token : Entity
  signature : Entity
  deriving DecidableEq

/-- The operations of the handler on one context and peer. -/
inductive RoleOp where
  | exclude (exclusion : Entity)
  | unexclude
  | assign (new : Issuing) (link assignment : Entity)
  | delegate (new : Issuing)
  | reDerive (new : Issuing) (link : Entity)

namespace RoleOp

/-- A delegated token has no linkage entity. -/
def link : RoleOp → Option Entity
  | .assign _ link _ => some link
  | .reDerive _ link => some link
  | _ => none

end RoleOp

inductive RoleResult where
  | excluded (revoked : List Hash)
  | unexcluded
  | refused
  | issued (token : Hash)
  | reDerived (token : Hash) (revoked : List Hash)
  | rolledBack
  deriving DecidableEq

/-- Where an operation stands. A sweep keeps the path it is given, if any. -/
inductive RolePhase where
  | waiting
  | listing
  | sweeping (kept : Option Hash) (revoked : List Hash) (left : List (Str × Hash))
  | unsigning (kept : Option Hash) (token : Hash) (revoked : List Hash) (left : List (Str × Hash))
  | assigning (new : Issuing) (assignment : Entity)
  | binding (new : Issuing)
  | signing (new : Issuing)
  | linking (new : Issuing) (link : Entity)
  | rechecking (new : Issuing)
  | unbinding (new : Issuing)
  | unbindingSignature (new : Issuing)
  | unlinking (new : Issuing)
  | unassigning (new : Issuing)
  | reListing (new : Issuing)
  | finished (result : RoleResult)
  deriving DecidableEq

structure RoleRun (ι : Type) where
  index : MemoryLocationIndex
  store : ContentStore
  phase : ι → RolePhase

section Run

variable {ι : Type} [DecidableEq ι] (R : RoleScope) (ops : ι → RoleOp)

namespace RoleRun

def moveTo (s : RoleRun ι) (i : ι) (p : RolePhase) : RoleRun ι :=
  { s with phase := Function.update s.phase i p }

/-- Store an entity and bind it. -/
def bind (s : RoleRun ι) (path : Str) (e : Entity) : RoleRun ι :=
  { s with index := s.index.set path e.contentHash, store := s.store.put e }

def unbind (s : RoleRun ι) (path : Str) : RoleRun ι :=
  { s with index := (s.index.remove path).2 }

end RoleRun

/-- Remove the next listed binding; a capability's signature goes with it. -/
def sweepNext (i : ι) (kept : Option Hash) (revoked : List Hash) (s : RoleRun ι) :
    List (Str × Hash) → RoleRun ι
  | [] => s.moveTo i (.finished (match kept with
    | none => .excluded revoked
    | some token => .reDerived token revoked))
  | (path,hash)::left =>
    if kept.map R.tokenPath = some path then s.moveTo i (.sweeping kept revoked left)
    else
      let isCap := (s.store.get hash).any fun e => e.entityType = typeCapToken
      match (s.index.remove path).1 with
      | some token => (s.unbind path).moveTo i
          (if isCap then .unsigning kept token (revoked++[token]) left
            else .sweeping kept revoked left)
      | none => (s.unbind path).moveTo i (.sweeping kept revoked left)

/-- The check before a token is issued. -/
def checkFirst (i : ι) (s : RoleRun ι) (next : RolePhase) : RoleRun ι :=
  s.moveTo i (if R.excluded s.index then .finished .refused else next)

/-- The next index access of one operation. -/
def roleStep (i : ι) (s : RoleRun ι) : RoleRun ι :=
  match s.phase i with
  | .waiting => match ops i with
    | .exclude exclusion => (s.bind R.exclusionPath exclusion).moveTo i .listing
    | .unexclude => (s.unbind R.exclusionPath).moveTo i (.finished .unexcluded)
    | .assign new _ assignment => checkFirst R i s (.assigning new assignment)
    | .delegate new => checkFirst R i s (.binding new)
    | .reDerive new _ => checkFirst R i s (.binding new)
  | .listing => s.moveTo i (.sweeping none [] (s.index.list R.derivedPrefix))
  | .sweeping kept revoked left => sweepNext R i kept revoked s left
  | .unsigning kept token revoked left =>
    (s.unbind (R.signaturePath token)).moveTo i (.sweeping kept revoked left)
  | .assigning new assignment =>
    (s.bind (R.assignmentPath new.role) assignment).moveTo i (.binding new)
  | .binding new => (s.bind (R.tokenPath new.token.contentHash) new.token).moveTo i (.signing new)
  | .signing new => (s.bind (R.signaturePath new.token.contentHash) new.signature).moveTo i
      (match (ops i).link with
        | some link => .linking new link
        | none => .rechecking new)
  | .linking new link => (s.bind (R.linkPath new.role) link).moveTo i (.rechecking new)
  | .rechecking new =>
    if R.excluded s.index then s.moveTo i (.unbinding new)
    else match ops i with
      | .reDerive _ _ => s.moveTo i (.reListing new)
      | _ => s.moveTo i (.finished (.issued new.token.contentHash))
  | .unbinding new =>
    (s.unbind (R.tokenPath new.token.contentHash)).moveTo i (.unbindingSignature new)
  | .unbindingSignature new => (s.unbind (R.signaturePath new.token.contentHash)).moveTo i
      (if (ops i).link.isSome then .unlinking new else .finished .rolledBack)
  | .unlinking new => (s.unbind (R.linkPath new.role)).moveTo i (match ops i with
    | .assign _ _ _ => .unassigning new
    | _ => .finished .rolledBack)
  | .unassigning new =>
    (s.unbind (R.assignmentPath new.role)).moveTo i (.finished .rolledBack)
  | .reListing new => s.moveTo i
      (.sweeping (some new.token.contentHash) [] (s.index.list R.derivedPrefix))
  | .finished _ => s

def runRoles (schedule : List ι) (s : RoleRun ι) : RoleRun ι :=
  Schedule.run (roleStep R ops) schedule s

/-! Every token that is bound while the peer is excluded is still awaited: by a sweep that
has it listed or has yet to list, or by the operation that bound it, which looks for the
exclusion before it ends. -/

variable {R : RoleScope} {ops : ι → RoleOp}

/-- Whether an operation has yet to remove a path, or to find out that it must. -/
def awaits (R : RoleScope) (op : RoleOp) : RolePhase → Str → Prop
  | .waiting, _ => ∃ exclusion, op = .exclude exclusion
  | .listing, _ => True
  | .sweeping none _ left, path => path ∈ left.map Prod.fst
  | .unsigning none _ _ left, path => path ∈ left.map Prod.fst
  | .signing new, path => path = R.tokenPath new.token.contentHash
  | .linking new _, path => path = R.tokenPath new.token.contentHash
  | .rechecking new, path => path = R.tokenPath new.token.contentHash
  | .unbinding new, path => path = R.tokenPath new.token.contentHash
  | _, _ => False

def RoleRun.Covered (R : RoleScope) (ops : ι → RoleOp) (s : RoleRun ι) : Prop :=
  R.excluded s.index = true → ∀ path hash, s.index.get path = some hash →
    R.derivedPrefix <+: path → ∃ i, awaits R (ops i) (s.phase i) path

namespace RoleRun

variable {s : RoleRun ι} {i : ι} {p : RolePhase}

/-- What a step has to keep: it excludes the peer only to list, binds only what it
awaits, and lets go of a path only when that is unbound. -/
theorem Covered.move (h : s.Covered R ops) {t : RoleRun ι} (hphase : t.phase = s.phase)
    (hexcluded : R.excluded t.index = true → R.excluded s.index = true ∨ p = .listing)
    (hbound : ∀ path hash, t.index.get path = some hash → R.derivedPrefix <+: path →
      (∃ old, s.index.get path = some old) ∨ awaits R (ops i) p path)
    (hkept : ∀ path hash, t.index.get path = some hash → R.derivedPrefix <+: path →
      awaits R (ops i) (s.phase i) path → awaits R (ops i) p path) :
    (t.moveTo i p).Covered R ops := by
  intro hex path hash hget hunder
  have hi : (t.moveTo i p).phase i = p := by simp [moveTo]
  have hmine : awaits R (ops i) p path →
      ∃ j, awaits R (ops j) ((t.moveTo i p).phase j) path := by
    intro ha
    refine ⟨i,?_⟩
    rw [hi]
    exact ha
  rcases hexcluded hex with hold | hlisting
  · rcases hbound path hash hget hunder with ⟨old,hold'⟩ | ha
    · obtain ⟨j,hj⟩ := h hold path old hold' hunder
      by_cases hji : j = i
      · subst hji
        exact hmine (hkept path hash hget hunder hj)
      · refine ⟨j,?_⟩
        simpa [moveTo,hphase,hji] using hj
    · exact hmine ha
  · apply hmine
    rw [hlisting]
    trivial

theorem Covered.read (h : s.Covered R ops)
    (hkept : ∀ path hash, s.index.get path = some hash → R.derivedPrefix <+: path →
      awaits R (ops i) (s.phase i) path → awaits R (ops i) p path) : (s.moveTo i p).Covered R ops :=
  h.move rfl Or.inl (fun _ hash hget _ => Or.inl ⟨hash,hget⟩) hkept

omit [DecidableEq ι] in
theorem get_unbind (s : RoleRun ι) (path q : Str) :
    (s.unbind path).index.get q = if q = path then none else s.index.get q := by
  simp [unbind,MemoryLocationIndex.remove,MemoryLocationIndex.get]

omit [DecidableEq ι] in
theorem get_bind (s : RoleRun ι) (path : Str) (e : Entity) (q : Str) : (s.bind path e).index.get q =
      if q = path ∧ pathIsStorable path then some e.contentHash else s.index.get q :=
  MemoryLocationIndex.get_set _ _ _ _

theorem Covered.unbind (h : s.Covered R ops) {target : Str}
    (hkept : ∀ path, path ≠ target → R.derivedPrefix <+: path →
      awaits R (ops i) (s.phase i) path → awaits R (ops i) p path) :
    ((s.unbind target).moveTo i p).Covered R ops := by
  have hget : ∀ path hash, (s.unbind target).index.get path = some hash →
      path ≠ target ∧ s.index.get path = some hash := by
    intro path hash hg
    rw [get_unbind] at hg
    split_ifs at hg with hne
    exact ⟨hne,hg⟩
  refine h.move (t := s.unbind target) rfl ?_ ?_ ?_
  · intro hex
    left
    obtain ⟨hash,hh⟩ := Option.isSome_iff_exists.mp hex
    exact Option.isSome_iff_exists.mpr ⟨hash,(hget _ _ hh).2⟩
  · intro path hash hg _
    exact Or.inl ⟨hash,(hget _ _ hg).2⟩
  · intro path hash hg hunder ha
    exact hkept path (hget _ _ hg).1 hunder ha

theorem Covered.bind (h : s.Covered R ops) {target : Str} {e : Entity}
    (hne : target ≠ R.exclusionPath)
    (hfresh : R.derivedPrefix <+: target → awaits R (ops i) p target)
    (hkept : ∀ path, R.derivedPrefix <+: path →
      awaits R (ops i) (s.phase i) path → awaits R (ops i) p path) :
    ((s.bind target e).moveTo i p).Covered R ops := by
  refine h.move (t := s.bind target e) rfl ?_ ?_ ?_
  · intro hex
    left
    unfold RoleScope.excluded at hex ⊢
    rwa [get_bind,if_neg (fun hc => hne hc.1.symm)] at hex
  · intro path hash hg hunder
    rw [get_bind] at hg
    by_cases hp : path = target
    · subst hp
      exact Or.inr (hfresh hunder)
    · rw [if_neg (fun hc => hp hc.1)] at hg
      exact Or.inl ⟨hash,hg⟩
  · intro path hash _ hunder ha
    exact hkept path hunder ha

omit [DecidableEq ι] in
/-- Where the peer is not excluded, nothing has to be awaited. -/
theorem Covered.of_not_excluded {t : RoleRun ι} (h : R.excluded t.index = false) :
    t.Covered R ops := by
  intro hex
  rw [h] at hex
  cases hex

end RoleRun

open RoleRun

/-- A sweep step removes the listed path that it lets go of, unless it keeps another's. -/
theorem covered_sweepNext {s : RoleRun ι} (h : s.Covered R ops) {i : ι} {kept : Option Hash}
    {revoked : List Hash} {left : List (Str × Hash)}
    (hi : s.phase i = .sweeping kept revoked left) :
    (sweepNext R i kept revoked s left).Covered R ops := by
  cases left with
  | nil =>
    apply h.read
    intro path hash _ _ ha
    rw [hi] at ha
    cases kept with
    | none => simp [awaits] at ha
    | some token => exact ha.elim
  | cons e left =>
    obtain ⟨path,hash⟩ := e
    -- what the rest of the sweep still awaits, once the head is gone
    have hrest : ∀ (other : Str), other ≠ path →
        awaits R (ops i) (s.phase i) other → kept = none ∧ other ∈ left.map Prod.fst := by
      intro other hne ha
      rw [hi] at ha
      cases kept with
      | none => simpa [awaits,hne] using ha
      | some token => exact ha.elim
    simp only [sweepNext]
    by_cases hkept : kept.map R.tokenPath = some path
    · rw [if_pos hkept]
      apply h.read
      intro other g _ _ ha
      rw [hi] at ha
      cases kept with
      | none => simp at hkept
      | some token => exact ha.elim
    · rw [if_neg hkept]
      have hnext : ∀ (q : RolePhase), (∀ other, kept = none → other ∈ left.map Prod.fst →
          awaits R (ops i) q other) → ((s.unbind path).moveTo i q).Covered R ops := by
        intro q hq
        apply h.unbind
        intro other hne _ ha
        obtain ⟨hk,hmem⟩ := hrest other hne ha
        exact hq other hk hmem
      have hsweeping : ∀ revoked' other, kept = none → other ∈ left.map Prod.fst →
          awaits R (ops i) (.sweeping kept revoked' left) other := by
        intro revoked' other hk hmem
        subst hk
        exact hmem
      cases hremoved : (s.index.remove path).1 with
      | none => exact hnext _ (hsweeping _)
      | some token =>
        simp only
        split_ifs
        · apply hnext
          intro other hk hmem
          subst hk
          exact hmem
        · exact hnext _ (hsweeping _)

theorem covered_checkFirst {s : RoleRun ι} (h : s.Covered R ops) {i : ι} {next : RolePhase}
    (hi : s.phase i = .waiting) (hop : ∀ exclusion, ops i ≠ .exclude exclusion) :
    (checkFirst R i s next).Covered R ops := by
  apply h.read
  intro path hash _ _ ha
  rw [hi] at ha
  obtain ⟨exclusion,he⟩ := ha
  exact (hop exclusion he).elim

theorem covered_roleStep (i : ι) {s : RoleRun ι} (h : s.Covered R ops) :
    (roleStep R ops i s).Covered R ops := by
  -- the token of the operation is awaited on both sides, other paths are not
  have hsame : ∀ {q : RolePhase}, s.phase i = q → ∀ {q' : RolePhase},
      (∀ path, awaits R (ops i) q path → awaits R (ops i) q' path) →
      ∀ path, awaits R (ops i) (s.phase i) path → awaits R (ops i) q' path := by
    intro q hq q' hle path ha
    rw [hq] at ha
    exact hle path ha
  cases hi : s.phase i with
  | waiting =>
    cases hop : ops i with
    | exclude exclusion =>
      simp only [roleStep,hi,hop]
      refine h.move (t := s.bind R.exclusionPath exclusion) rfl ?_ ?_ ?_
      · exact fun _ => Or.inr rfl
      · exact fun _ _ _ _ => Or.inr trivial
      · exact fun _ _ _ _ _ => trivial
    | unexclude =>
      simp only [roleStep,hi,hop]
      apply Covered.of_not_excluded
      have hgone : (s.unbind R.exclusionPath).index.get R.exclusionPath = none := by
        simp [get_unbind]
      exact Option.isSome_eq_false_iff.mpr (Option.isNone_iff_eq_none.mpr hgone)
    | assign new link assignment =>
      simp only [roleStep,hi,hop]
      exact covered_checkFirst h hi (by simp [hop])
    | delegate new =>
      simp only [roleStep,hi,hop]
      exact covered_checkFirst h hi (by simp [hop])
    | reDerive new link =>
      simp only [roleStep,hi,hop]
      exact covered_checkFirst h hi (by simp [hop])
  | listing =>
    simp only [roleStep,hi]
    apply h.read
    intro path hash hget hunder _
    exact List.mem_map.mpr ⟨(path,hash),(s.index.mem_list _ _ _).mpr ⟨hget,hunder⟩,rfl⟩
  | sweeping kept revoked left =>
    simp only [roleStep,hi]
    exact covered_sweepNext h hi
  | unsigning kept token revoked left =>
    simp only [roleStep,hi]
    apply h.unbind
    intro path _ _
    apply hsame hi
    intro path ha
    cases kept with
    | none => exact ha
    | some token => exact ha
  | assigning new assignment =>
    simp only [roleStep,hi]
    apply h.bind (R.assignmentPath_ne _)
    · exact fun hunder => (R.not_derivedPrefix_assignmentPath _ hunder).elim
    · exact fun path _ => hsame hi (fun _ ha => ha.elim) path
  | binding new =>
    simp only [roleStep,hi]
    apply h.bind (R.tokenPath_ne _)
    · exact fun _ => rfl
    · exact fun path _ => hsame hi (fun _ ha => ha.elim) path
  | signing new =>
    simp only [roleStep,hi]
    apply h.bind (R.signaturePath_ne _)
    · exact fun hunder => (R.not_derivedPrefix_signaturePath _ hunder).elim
    · intro path _
      apply hsame hi
      intro path ha
      cases (ops i).link with
      | none => exact ha
      | some link => exact ha
  | linking new link =>
    simp only [roleStep,hi]
    apply h.bind (R.linkPath_ne _)
    · exact fun hunder => (R.not_derivedPrefix_linkPath _ hunder).elim
    · exact fun path _ => hsame hi (fun _ ha => ha) path
  | rechecking new =>
    simp only [roleStep,hi]
    cases hex : R.excluded s.index with
    | true =>
      rw [if_pos rfl]
      apply h.read
      exact fun path _ _ _ => hsame hi (fun _ ha => ha) path
    | false =>
      rw [if_neg Bool.false_ne_true]
      cases ops i <;> exact Covered.of_not_excluded hex
  | unbinding new =>
    simp only [roleStep,hi]
    apply h.unbind
    intro path hne _ ha
    rw [hi] at ha
    exact (hne ha).elim
  | unbindingSignature new =>
    simp only [roleStep,hi]
    apply h.unbind
    exact fun path _ _ => hsame hi (fun _ ha => ha.elim) path
  | unlinking new =>
    simp only [roleStep,hi]
    apply h.unbind
    exact fun path _ _ => hsame hi (fun _ ha => ha.elim) path
  | unassigning new =>
    simp only [roleStep,hi]
    apply h.unbind
    exact fun path _ _ => hsame hi (fun _ ha => ha.elim) path
  | reListing new =>
    simp only [roleStep,hi]
    apply h.read
    exact fun path _ _ _ => hsame hi (fun _ ha => ha.elim) path
  | finished result =>
    simp only [roleStep,hi]
    exact h

/-- Whichever way assignments, delegations, re-derivations and exclusions of one peer in
one context interleave, an exclusion that is bound when all of them have ended has won: no
role-derived token of the peer is bound. An exclusion that is there before the first of
them must have been swept for, or one of them excludes. -/
theorem exclusion_wins (schedule : List ι) {s : RoleRun ι} (hwaiting : ∀ i, s.phase i = .waiting)
    (hstart : (∃ i exclusion, ops i = .exclude exclusion) ∨
      (R.excluded s.index = true → ∀ path hash, s.index.get path = some hash →
        ¬ R.derivedPrefix <+: path))
    (hfinished : ∀ i, ∃ result, (runRoles R ops schedule s).phase i = .finished result)
    (hexcluded : R.excluded (runRoles R ops schedule s).index = true) :
    ∀ path hash, (runRoles R ops schedule s).index.get path = some hash →
      ¬ R.derivedPrefix <+: path := by
  have hcovered : s.Covered R ops := by
    intro hex path hash hget hunder
    rcases hstart with ⟨i,exclusion,hop⟩ | hswept
    · refine ⟨i,?_⟩
      rw [hwaiting i]
      exact ⟨exclusion,hop⟩
    · exact (hswept hex path hash hget hunder).elim
  have hrun : (runRoles R ops schedule s).Covered R ops :=
    Schedule.run_keeps (fun i _ h => covered_roleStep i h) hcovered
  intro path hash hget hunder
  obtain ⟨i,ha⟩ := hrun hexcluded path hash hget hunder
  obtain ⟨result,hi⟩ := hfinished i
  rw [hi] at ha
  exact ha

end Run

namespace RoleSample

open Sample

def scope : RoleScope := ⟨aliceId,"team".toList,bob.contentHash⟩

def exclusion := entity "system/role/exclusion"
  (.map [(txt "excluded_at",uint 0),(txt "excluded_by",.bytes alice.contentHash.toBytes)])
  0x4fe0d502ed1a6a54075390b696932fbe0222da81749bc8d0e7990ee68fd511e8
def link := entity "system/role/derived-token-link"
  (.map [(txt "issued_at",uint 0),(txt "token_hash",.bytes root.contentHash.toBytes)])
  0xea692e1bd6ae2e269396e7ad7787c280033115ecb63fa9bbf24940f62c278be8
def assignment := entity "system/role/assignment"
  (.map [(txt "assigned_at",uint 0),(txt "assigned_by",.bytes alice.contentHash.toBytes),
    (txt "role",txt "editor")])
  0xa1f2da8d7e7c90da4eba644d8808bc436bd58d7d70cd1596a75363b0e9c08bdc

def editor : Issuing := ⟨"editor".toList,root,rootSigEntity⟩

def operations : Bool → RoleOp
  | true => .assign editor link assignment
  | false => .exclude exclusion

def idle : RoleRun Bool := ⟨⟨.empty⟩,⟨[]⟩,fun _ => .waiting⟩

def after (schedule : List Bool) : RoleRun Bool := runRoles scope operations schedule idle

/-- The exclusion lists between the check of the assignment and its binding. -/
def rolledBack : List Bool :=
  [true,true,false,false,false,true,true,true,true,true,true,true,true]

/-- It lists after the binding, and before the linkage is there. -/
def swept : List Bool :=
  [true,true,true,true,false,false,false,false,false,true,true,true,true,true,true]

/-- How the two schedules end, and that the exclusion is bound then. -/
theorem evaluated_schedules :
    ((after rolledBack).phase true = .finished .rolledBack ∧
      (after rolledBack).phase false = .finished (.excluded [])) ∧
    ((after swept).phase true = .finished .rolledBack ∧
      (after swept).phase false = .finished (.excluded [Sample.root.contentHash])) ∧
    scope.excluded (after rolledBack).index = true ∧ scope.excluded (after swept).index = true := by
  decide +kernel

end RoleSample

open RoleSample in
theorem exclusion_wins_sample : (after rolledBack).phase true = .finished .rolledBack ∧
    (after swept).phase false = .finished (.excluded [Sample.root.contentHash]) ∧
    (∀ path hash, (after rolledBack).index.get path = some hash → ¬ scope.derivedPrefix <+: path) ∧
    ∀ path hash, (after swept).index.get path = some hash → ¬ scope.derivedPrefix <+: path := by
  obtain ⟨⟨hrolled,hdone⟩,⟨hback,hswept⟩,hexcluded⟩ := evaluated_schedules
  rw [after] at hrolled hdone hback hswept
  rw [after,after] at hexcluded ⊢
  refine ⟨hrolled,hswept,?_,?_⟩
  · apply exclusion_wins rolledBack (fun _ => rfl) (Or.inl ⟨false,exclusion,rfl⟩) _ hexcluded.1
    intro i
    cases i with
    | true => exact ⟨_,hrolled⟩
    | false => exact ⟨_,hdone⟩
  · apply exclusion_wins swept (fun _ => rfl) (Or.inl ⟨false,exclusion,rfl⟩) _ hexcluded.2
    intro i
    cases i with
    | true => exact ⟨_,hback⟩
    | false => exact ⟨_,hswept⟩

end EntityCore
