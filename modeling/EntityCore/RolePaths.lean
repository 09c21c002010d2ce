import EntityCore.RoleHandler
import EntityCore.Segments

/-! The paths of the role handler, read back. A reader finds its keyword by first occurrence,
or takes the last segment for the name; contexts are any number of segments, and a reserved
word inside of one makes a definition's path that of an assignment, of an exclusion or of a
linkage. -/
namespace EntityCore

open Strings List Option

structure ParsedExclusionPath where
  context : Str
  peerId : Str
  deriving DecidableEq

def parseExclusionPath (path : Str) : Option ParsedExclusionPath := do
  let rest ← stripPrefix (stripPeerQualifier path) rolePrefix
  let segs := segments '/' rest
  let idx ← segs.findIdx? (· = "excluded".toList)
  if idx = 0 then none
  else if segs.length ≠ idx+2 then none
  else
    let peerId ← segs[idx+1]?
    if peerId = [] then none else return ⟨joinSegments (segs.take idx),peerId⟩

/-- The segments of a role path below the prefix. -/
def roleSegments (path : Str) : Option (List Str) :=
  (stripPrefix (stripPeerQualifier path) rolePrefix).map (segments '/')

theorem stripPeerQualifier_role (rest : Str) :
    stripPeerQualifier (rolePrefix++rest) = rolePrefix++rest := by
  have hstart : rolePrefix = "system".toList++ '/'::("role".toList++['/']) := by decide
  have hfirst : (rolePrefix++rest).dropWhile (· = '/') = rolePrefix++rest := rfl
  have hsplit : splitOnce '/' (rolePrefix++rest) = some ("system".toList,"role/".toList++rest) := by
    refine (splitOnce_eq_some _ _ _ _).mpr ⟨?_,by decide⟩
    rw [hstart]
    simp
  have hrole : startsWith ("role/".toList++rest) rolePrefix = false := rfl
  have hderived : startsWith ("role/".toList++rest) roleDerivedPrefix = false := rfl
  simp only [stripPeerQualifier,hfirst,hsplit,hrole,hderived]
  rfl

@[simp] theorem roleSegments_role (rest : Str) :
    roleSegments (rolePrefix++rest) = some (segments '/' rest) := by
  rw [roleSegments,stripPeerQualifier_role,(stripPrefix_eq_some _ _ rest).mpr rfl]
  rfl

theorem stripPeerQualifier_qualified {l : Str} (hl : '/' ∉ l) (hne : l ≠ []) {path : Str}
    (hpath : rolePrefix <+: path ∨ roleDerivedPrefix <+: path) :
    stripPeerQualifier ('/'::l++ '/'::path) = path := by
  have hfirst : ('/'::l++ '/'::path).dropWhile (· = '/') = l++ '/'::path := by
    cases l with
    | nil => exact absurd rfl hne
    | cons c l =>
      have hc : c ≠ '/' := fun h => hl (by simp [h])
      simp [hc]
  have hsplit : splitOnce '/' (l++ '/'::path) = some (l,path) :=
    (splitOnce_eq_some _ _ _ _).mpr ⟨rfl,hl⟩
  have hbelow : (startsWith path rolePrefix || startsWith path roleDerivedPrefix) = true := by
    rw [Bool.or_eq_true,startsWith_iff,startsWith_iff]
    exact hpath
  simp only [stripPeerQualifier,hfirst,hsplit,hbelow,if_true]

theorem roleSegments_qualified {l path : Str} (hl : '/' ∉ l) (hne : l ≠ [])
    (hpath : rolePrefix <+: path) : roleSegments ('/'::l++ '/'::path) = roleSegments path := by
  obtain ⟨rest,rfl⟩ := hpath
  rw [roleSegments,roleSegments,stripPeerQualifier_qualified hl hne (.inl (prefix_append _ _)),
    stripPeerQualifier_role]

theorem slash_notMem_of_roleSegments {path : Str} {segs : List Str}
    (h : roleSegments path = some segs) : ∀ seg ∈ segs, '/' ∉ seg := by
  obtain ⟨rest,-,rfl⟩ := map_eq_some_iff.mp h
  exact fun seg hseg => notMem_of_mem_segments hseg

/-! What each reader accepts. -/

/-- What remains of an assignment's path is its role, if it is not empty. -/
def roleOfTail (tail : List Str) : Option Str :=
  if joinSegments tail = [] then none else some (joinSegments tail)

/-- What stands around a keyword of a path. -/
theorem around_keyword (a : List Str) (w p : Str) (tail : List Str) :
    (a++w::p::tail)[a.length+1]? = some p ∧ (a++w::p::tail).take a.length = a ∧
      (a++w::p::tail).drop (a.length+2) = tail := by
  refine ⟨?_,take_left' rfl,?_⟩
  · rw [getElem?_append_right (by omega),Nat.add_sub_cancel_left]
    rfl
  · rw [← drop_drop,drop_left' rfl]
    rfl

theorem parseAssignmentPath_iff (path c p : Str) (role : Option Str) :
    parseAssignmentPath path = some ⟨c,p,role⟩ ↔ ∃ a tail,
      roleSegments path = some (a++"assignment".toList::p::tail) ∧ "assignment".toList ∉ a ∧
      a ≠ [] ∧ p ≠ [] ∧ c = joinSegments a ∧ role = roleOfTail tail := by
  unfold parseAssignmentPath roleSegments
  cases stripPrefix (stripPeerQualifier path) rolePrefix with
  | none => simp
  | some rest =>
    simp only [bind_eq_bind,bind_some,map_some,some.injEq, bind_eq_some_iff,findIdx?_eq_some_iff]
    constructor
    · rintro ⟨idx,⟨a,b,hseg,ha,rfl⟩,h⟩
      by_cases hzero : a.length = 0
      · rw [if_pos hzero] at h
        cases h
      · rw [if_neg hzero,hseg] at h
        cases b with
        | nil =>
          rw [getElem?_eq_none (by rw [length_append]; exact Nat.le_refl _)] at h
          cases h
        | cons q tail =>
          obtain ⟨hpeer,htake,hdrop⟩ := around_keyword a "assignment".toList q tail
          rw [hpeer,htake,hdrop,bind_some] at h
          by_cases hq : q = []
          · rw [if_pos hq] at h
            cases h
          · rw [if_neg hq] at h
            obtain ⟨hc,hp,hrole⟩ := ParsedAssignmentPath.mk.inj (some.inj h)
            subst hp
            exact ⟨a,tail,hseg,ha,fun hnil => hzero (by rw [hnil]; rfl),hq,hc.symm,hrole.symm⟩
    · rintro ⟨a,tail,hseg,ha,hne,hp,rfl,rfl⟩
      obtain ⟨hpeer,htake,hdrop⟩ := around_keyword a "assignment".toList p tail
      refine ⟨a.length,⟨a,_,hseg,ha,rfl⟩,?_⟩
      rw [if_neg (fun h => hne (length_eq_zero_iff.mp h)),hseg,hpeer,htake,hdrop,
        bind_some,if_neg hp]
      rfl

theorem parseExclusionPath_iff (path c p : Str) : parseExclusionPath path = some ⟨c,p⟩ ↔ ∃ a,
      roleSegments path = some (a++["excluded".toList,p]) ∧ "excluded".toList ∉ a ∧ a ≠ [] ∧
      p ≠ [] ∧ c = joinSegments a := by
  unfold parseExclusionPath roleSegments
  cases stripPrefix (stripPeerQualifier path) rolePrefix with
  | none => simp
  | some rest =>
    simp only [bind_eq_bind,bind_some,map_some,some.injEq, bind_eq_some_iff,findIdx?_eq_some_iff]
    constructor
    · rintro ⟨idx,⟨a,b,hseg,ha,rfl⟩,h⟩
      by_cases hzero : a.length = 0
      · rw [if_pos hzero] at h
        cases h
      · rw [if_neg hzero,hseg] at h
        by_cases hlen : (a++"excluded".toList::b).length = a.length+2
        · rw [if_neg (not_not.mpr hlen)] at h
          obtain ⟨q,rfl⟩ : ∃ q, b = [q] := by
            apply length_eq_one_iff.mp
            simp only [length_append,length_cons] at hlen
            omega
          obtain ⟨hpeer,htake,-⟩ := around_keyword a "excluded".toList q []
          rw [hpeer,htake,bind_some] at h
          by_cases hq : q = []
          · rw [if_pos hq] at h
            cases h
          · rw [if_neg hq] at h
            obtain ⟨hc,hp⟩ := ParsedExclusionPath.mk.inj (some.inj h)
            subst hp
            exact ⟨a,hseg,ha,fun hnil => hzero (by rw [hnil]; rfl),hq,hc.symm⟩
        · rw [if_pos hlen] at h
          cases h
    · rintro ⟨a,hseg,ha,hne,hp,rfl⟩
      obtain ⟨hpeer,htake,-⟩ := around_keyword a "excluded".toList p []
      refine ⟨a.length,⟨a,_,hseg,ha,rfl⟩,?_⟩
      rw [if_neg (fun h => hne (length_eq_zero_iff.mp h)),hseg,
        if_neg (not_not.mpr (by rw [length_append]; rfl)),hpeer,htake,bind_some,
        if_neg hp]
      rfl

theorem parseRoleDefinitionPath_iff (path c r : Str) :
    parseRoleDefinitionPath path = some ⟨c,r⟩ ↔ ∃ a,
      roleSegments path = some (a++[r]) ∧ a ≠ [] ∧ r ≠ [] ∧ r ∉ reservedRoleNames ∧
      c = joinSegments a ∧ c ≠ [] := by
  unfold parseRoleDefinitionPath roleSegments
  cases stripPrefix (stripPeerQualifier path) rolePrefix with
  | none => simp
  | some rest =>
    simp only [bind_eq_bind,bind_some,map_some,some.injEq]
    -- a text has a last segment
    obtain ⟨a,last,hseg⟩ : ∃ a last, segments '/' rest = a++[last] :=
      ⟨_,_,(dropLast_append_getLast (segments_ne_nil '/' rest)).symm⟩
    rw [hseg,getLast?_append,dropLast_concat]
    simp only [getLast?_singleton,some_or,bind_some,length_append, length_singleton]
    constructor
    · intro h
      split_ifs at h with hlen hr hres hc
      obtain ⟨rfl,rfl⟩ := ParsedRoleDefPath.mk.inj (some.inj h)
      exact ⟨a,rfl,fun hnil => hlen (by rw [hnil]; exact Nat.le_refl _),hr,hres,rfl,hc⟩
    · rintro ⟨b,hb,hne,hr,hres,rfl,hc⟩
      obtain ⟨rfl,hlast⟩ := append_inj' hb rfl
      obtain ⟨rfl,-⟩ := cons.inj hlast
      have hpos := length_pos_iff.mpr hne
      rw [if_neg (by omega),if_neg hr,if_neg hres,if_neg hc]

/-! The writers. -/

theorem roleSegments_definition (c r : Str) :
    roleSegments (pathRoleDefinition c r) = some (segments '/' c++segments '/' r) := by
  rw [pathRoleDefinition,append_assoc,roleSegments_role,segments_append]

theorem roleSegments_assignment {p : Str} (hp : '/' ∉ p) (c role : Str) :
    roleSegments (pathRoleAssignment c p role) =
      some (segments '/' c++"assignment".toList::p::segments '/' role) := by
  have hword : "/assignment/".toList = '/'::("assignment".toList++['/']) := by decide
  have hplain : '/' ∉ "assignment".toList := by decide
  have hpath : pathRoleAssignment c p role =
      rolePrefix++(c++ '/'::("assignment".toList++ '/'::(p++ '/'::role))) := by
    simp only [pathRoleAssignment,hword,cons_append,append_assoc,nil_append]
  rw [hpath,roleSegments_role,segments_append,segments_append,segments_append,
    segments_eq_singleton hplain,segments_eq_singleton hp]
  rfl

theorem roleSegments_exclusion {p : Str} (hp : '/' ∉ p) (c : Str) :
    roleSegments (pathRoleExclusion c p) = some (segments '/' c++["excluded".toList,p]) := by
  have hword : "/excluded/".toList = '/'::("excluded".toList++['/']) := by decide
  have hplain : '/' ∉ "excluded".toList := by decide
  have hpath : pathRoleExclusion c p = rolePrefix++(c++ '/'::("excluded".toList++ '/'::p)) := by
    simp only [pathRoleExclusion,hword,cons_append,append_assoc,nil_append]
  rw [hpath,roleSegments_role,segments_append,segments_append,segments_eq_singleton hplain,
    segments_eq_singleton hp]
  rfl

theorem roleSegments_link {p : Str} (hp : '/' ∉ p) (c role : Str) :
    roleSegments (pathRoleDerivedLink c p role) =
      some (segments '/' c++"derived-tokens".toList::p::segments '/' role) := by
  have hword : "/derived-tokens/".toList = '/'::("derived-tokens".toList++['/']) := by
    decide
  have hplain : '/' ∉ "derived-tokens".toList := by decide
  have hpath : pathRoleDerivedLink c p role =
      rolePrefix++(c++ '/'::("derived-tokens".toList++ '/'::(p++ '/'::role))) := by
    simp only [pathRoleDerivedLink,hword,cons_append,append_assoc,nil_append]
  rw [hpath,roleSegments_role,segments_append,segments_append,segments_append,
    segments_eq_singleton hplain,segments_eq_singleton hp]
  rfl

/-- A text is told by the segments of its role path. -/
theorem role_inj {s t : Str} (h : roleSegments (rolePrefix++s) = roleSegments (rolePrefix++t)) :
    s = t := by
  rw [roleSegments_role,roleSegments_role] at h
  exact segments_inj (some.inj h)

theorem segments_joinSegments {segs : List Str} (hne : segs ≠ []) (h : ∀ seg ∈ segs, '/' ∉ seg) :
    segments '/' (joinSegments segs) = segs := segments_intercalate hne h

/-! Which definition paths are something else as well. -/

/-- A linkage path of some context, peer segment and role. -/
def LinkagePath (path : Str) : Prop :=
  ∃ c p role, '/' ∉ p ∧ path = pathRoleDerivedLink c p role

/-- The path is nothing but the path of a definition. -/
def Unambiguous (path : Str) : Prop :=
  parseAssignmentPath path = none ∧ parseExclusionPath path = none ∧ ¬ LinkagePath path

/-- The first `assignment` of the context has a context before it, and no empty segment
behind it. -/
def NamesAssignment (context : Str) : Prop :=
  ∃ a b, segments '/' context = a++"assignment".toList::b ∧ "assignment".toList ∉ a ∧ a ≠ [] ∧
    b.head? ≠ some []

/-- The first `excluded` of the context has a context before it, and is its last segment. -/
def NamesExclusion (context : Str) : Prop :=
  ∃ a, segments '/' context = a++["excluded".toList] ∧ "excluded".toList ∉ a ∧ a ≠ []

/-- A `derived-tokens` of the context has a context before it, and a peer behind it. -/
def NamesLinkage (context : Str) : Prop :=
  ∃ a p b, segments '/' context = a++"derived-tokens".toList::p::b ∧ a ≠ []

section Definition

variable {c r : Str} (hr : '/' ∉ r) (hne : r ≠ [])
include hr hne

theorem parseAssignmentPath_definition (hres : r ≠ "assignment".toList) :
    parseAssignmentPath (pathRoleDefinition c r) = none ↔ ¬ NamesAssignment c := by
  rw [← not_iff_not,not_not,← ne_eq,ne_none_iff_exists']
  have hsegs := roleSegments_definition c r
  rw [segments_eq_singleton hr] at hsegs
  constructor
  · rintro ⟨⟨c',p,role⟩,h⟩
    obtain ⟨a,tail,hs,ha,hnil,hp,-,-⟩ := (parseAssignmentPath_iff _ _ _ _).mp h
    rw [hsegs,some.injEq] at hs
    -- the name is the last segment, so the keyword is in the context
    rcases append_eq_append_iff.mp hs with ⟨d,rfl,hd⟩ | ⟨d,hd,hrest⟩
    · cases d with
      | nil =>
        obtain ⟨hr',-⟩ := cons.inj (show [r] = "assignment".toList::p::tail from hd)
        exact absurd hr' hres
      | cons x d => simp at hd
    · cases d with
      | nil =>
        obtain ⟨hr',-⟩ := cons.inj (show "assignment".toList::p::tail = [r] from hrest)
        exact absurd hr'.symm hres
      | cons x d =>
        obtain ⟨hx,htail⟩ := cons.inj hrest
        subst hx
        refine ⟨a,d,hd,ha,hnil,?_⟩
        cases d with
        | nil => exact nofun
        | cons y d =>
          rw [(cons.inj htail).1] at hp
          simpa using hp
  · rintro ⟨a,b,hs,ha,hnil,hb⟩
    obtain ⟨p,tail,hp,htail⟩ : ∃ p tail, p ≠ [] ∧ b++[r] = p::tail := by
      cases b with
      | nil => exact ⟨r,[],hne,rfl⟩
      | cons p b => exact ⟨p,b++[r],by simpa using hb,rfl⟩
    refine ⟨⟨joinSegments a,p,roleOfTail tail⟩,(parseAssignmentPath_iff _ _ _ _).mpr
      ⟨a,tail,?_,ha,hnil,hp,rfl,rfl⟩⟩
    rw [hsegs,hs,append_assoc,cons_append,htail]

theorem parseExclusionPath_definition :
    parseExclusionPath (pathRoleDefinition c r) = none ↔ ¬ NamesExclusion c := by
  rw [← not_iff_not,not_not,← ne_eq,ne_none_iff_exists']
  have hsegs := roleSegments_definition c r
  rw [segments_eq_singleton hr] at hsegs
  constructor
  · rintro ⟨⟨c',p⟩,h⟩
    obtain ⟨a,hs,ha,hnil,hp,-⟩ := (parseExclusionPath_iff _ _ _).mp h
    rw [hsegs,some.injEq,show a++["excluded".toList,p] = (a++["excluded".toList])++[p] by
      simp] at hs
    exact ⟨a,(append_inj' hs rfl).1,ha,hnil⟩
  · rintro ⟨a,hs,ha,hnil⟩
    refine ⟨⟨joinSegments a,r⟩,(parseExclusionPath_iff _ _ _).mpr ⟨a,?_,ha,hnil,hne,rfl⟩⟩
    rw [hsegs,hs,append_assoc]
    rfl

omit hne in
theorem linkagePath_definition : LinkagePath (pathRoleDefinition c r) ↔ NamesLinkage c := by
  have hsegs := roleSegments_definition c r
  rw [segments_eq_singleton hr] at hsegs
  constructor
  · rintro ⟨c',p,role,hp,hpath⟩
    rw [hpath,roleSegments_link hp,some.injEq] at hsegs
    obtain ⟨more,last,hlast⟩ : ∃ more last, segments '/' role = more++[last] :=
      ⟨_,_,(dropLast_append_getLast (segments_ne_nil '/' role)).symm⟩
    rw [hlast,show segments '/' c'++"derived-tokens".toList::p::(more++[last]) =
      (segments '/' c'++"derived-tokens".toList::p::more)++[last] by simp] at hsegs
    exact ⟨_,p,more,(append_inj' hsegs rfl).1.symm,segments_ne_nil _ _⟩
  · rintro ⟨a,p,b,hs,hnil⟩
    have hplain : ∀ seg ∈ a++"derived-tokens".toList::p::b, '/' ∉ seg := by
      rw [← hs]
      exact fun seg hseg => notMem_of_mem_segments hseg
    have hp : '/' ∉ p := hplain p (by simp)
    refine ⟨joinSegments a,p,joinSegments (b++[r]),hp,?_⟩
    have ha := segments_joinSegments hnil fun seg hseg => hplain seg (by simp [hseg])
    have hb : segments '/' (joinSegments (b++[r])) = b++[r] := by
      apply segments_joinSegments (by simp)
      intro seg hseg
      rcases mem_append.mp hseg with h | h
      · exact hplain seg (by simp [h])
      · rw [mem_singleton.mp h]
        exact hr
    have hlink := roleSegments_link hp (joinSegments a) (joinSegments (b++[r]))
    rw [ha,hb] at hlink
    have hsame : roleSegments (pathRoleDefinition c r) =
        roleSegments (pathRoleDerivedLink (joinSegments a) p (joinSegments (b++[r]))) := by
      rw [hsegs,hlink,hs]
      simp
    simp only [pathRoleDefinition,pathRoleDerivedLink,append_assoc] at hsame ⊢
    rw [role_inj hsame]

end Definition

/-- A definition's path is nothing else exactly if its context names no assignment, exclusion
or linkage; the readers of assignments and exclusions take back what they gave. -/
theorem role_paths_unambiguous_iff (path c r : Str) : (parseRoleDefinitionPath path = some ⟨c,r⟩ →
      (Unambiguous (pathRoleDefinition c r) ↔
        ¬ NamesAssignment c ∧ ¬ NamesExclusion c ∧ ¬ NamesLinkage c)) ∧
    (∀ path c p r, parseAssignmentPath path = some ⟨c,p,some r⟩ →
      parseAssignmentPath (pathRoleAssignment c p r) = some ⟨c,p,some r⟩) ∧
    ∀ path c p, parseExclusionPath path = some ⟨c,p⟩ →
      parseExclusionPath (pathRoleExclusion c p) = some ⟨c,p⟩ := by
  refine ⟨fun h => ?_,fun path c p r h => ?_,fun path c p h => ?_⟩
  · obtain ⟨a,hs,-,hne,hres,-,-⟩ := (parseRoleDefinitionPath_iff _ _ _).mp h
    have hr := slash_notMem_of_roleSegments hs r (by simp)
    have hwords : r ≠ "assignment".toList ∧ r ≠ "excluded".toList := by
      simpa [reservedRoleNames] using hres
    rw [Unambiguous,parseAssignmentPath_definition hr hne hwords.1,
      parseExclusionPath_definition hr hne,linkagePath_definition hr]
  · obtain ⟨a,tail,hs,ha,hnil,hp,rfl,hrole⟩ := (parseAssignmentPath_iff _ _ _ _).mp h
    have hplain := slash_notMem_of_roleSegments hs
    have hjoin : r = joinSegments tail ∧ r ≠ [] := by
      rw [roleOfTail] at hrole
      split_ifs at hrole with htail
      exact ⟨Option.some.inj hrole,by rw [Option.some.inj hrole]; exact htail⟩
    have htail : tail ≠ [] := by
      rintro rfl
      exact hjoin.2 hjoin.1
    have hback := segments_joinSegments htail fun seg hseg => hplain seg (by simp [hseg])
    refine (parseAssignmentPath_iff _ _ _ _).mpr ⟨a,tail,?_,ha,hnil,hp,rfl,hrole⟩
    rw [roleSegments_assignment (hplain p (by simp)),hjoin.1,hback,
      segments_joinSegments hnil fun seg hseg => hplain seg (by simp [hseg])]
  · obtain ⟨a,hs,ha,hnil,hp,rfl⟩ := (parseExclusionPath_iff _ _ _).mp h
    have hplain := slash_notMem_of_roleSegments hs
    refine (parseExclusionPath_iff _ _ _).mpr ⟨a,?_,ha,hnil,hp,rfl⟩
    rw [roleSegments_exclusion (hplain p (by simp)),
      segments_joinSegments hnil fun seg hseg => hplain seg (by simp [hseg])]

theorem role_paths_unambiguous_iff_sample :
    Unambiguous (pathRoleDefinition "group/team".toList "leader".toList) ↔
      ¬ NamesAssignment "group/team".toList ∧ ¬ NamesExclusion "group/team".toList ∧
        ¬ NamesLinkage "group/team".toList :=
  (role_paths_unambiguous_iff "/peer/system/role/group/team/leader".toList _ _).1 (by decide +kernel)

/-- A definition below an assignment's path is that assignment. -/
theorem definition_creates_assignment : ¬ ∀ path c r,
    parseRoleDefinitionPath path = some ⟨c,r⟩ → Unambiguous (pathRoleDefinition c r) := by
  intro h
  have hnone := (h "system/role/team/assignment/bob/editor".toList
    "team/assignment/bob".toList "editor".toList (by decide +kernel)).1
  revert hnone
  decide +kernel

end EntityCore
