import EntityCore.ConfigCoordination

/-! Which events auto-version passes over. The excludes of a config are analysed once,
when it is written, for the subtrees auto-version itself writes; each event is matched
later against the patterns alone. -/
namespace EntityCore

open Strings

namespace RevisionConfig

/-- Whether auto-version fires for a path relative to the peer. -/
def configMatches (eventBarePath : Str) (cfg : RevisionConfig) : Bool :=
  let canonical := canonicalizePrefix cfg.barePrefix
  let relative := if canonical.isEmpty then some eventBarePath
    else match stripPrefix eventBarePath (canonical++['/']) with
      | some r => some r
      | none => if eventBarePath = canonical then some [] else none
  match relative with
  | none => false
  | some relative => !cfg.exclude.any (globMatch · relative)

end RevisionConfig

/-! Paths below a prefix. -/

theorem prefixEncompasses_iff (canonical target : Str) : prefixEncompasses canonical target = true ↔
      canonical = [] ∨ target = canonical ∨ canonical++['/'] <+: target := by
  simp [prefixEncompasses,or_assoc]

@[simp] theorem relativeTo_nil (target : Str) : relativeTo [] target = target := by
  simp [relativeTo]

@[simp] theorem relativeTo_self {canonical : Str} (h : canonical ≠ []) :
    relativeTo canonical canonical = [] := by
  simp [relativeTo,h]

theorem relativeTo_append {canonical : Str} (h : canonical ≠ []) (rest : Str) :
    relativeTo canonical (canonical++ '/'::rest) = rest := by
  have hstrip : stripPrefix (canonical++ '/'::rest) (canonical++['/']) = some rest := by
    rw [stripPrefix_eq_some]
    simp
  simp [relativeTo,h,hstrip]

/-- A path strictly below another is below it from every prefix of both, by as much. -/
theorem relativeTo_below {canonical node path : Str}
    (hnode : prefixEncompasses canonical node = true) (hpath : node++['/'] <+: path)
    (hne : canonical = [] ∨ canonical ≠ node) :
    relativeTo canonical node++['/'] <+: relativeTo canonical path := by
  rcases (prefixEncompasses_iff canonical node).1 hnode with rfl | rfl | hbelow
  · simpa using hpath
  · have hnil : node = [] := by simpa using hne
    subst hnil
    simpa using hpath
  · by_cases hempty : canonical = []
    · subst hempty
      simpa using hpath
    obtain ⟨rest,rfl⟩ := hbelow
    obtain ⟨deeper,rfl⟩ := hpath
    have hpathRest : canonical++['/']++rest++['/']++deeper = canonical++ '/'::(rest++ '/'::deeper) := by
      simp
    have hnodeRest : canonical++['/']++rest = canonical++ '/'::rest := by simp
    rw [hpathRest,hnodeRest,relativeTo_append hempty,relativeTo_append hempty]
    exact ⟨deeper,by simp⟩

/-! What a list of patterns covers. -/

@[simp] theorem globMatch_star (subject : Str) : globMatch ['*'] subject = true := by
  simp [globMatch]

theorem globMatch_subtree (literal subject : Str) :
    globMatch (literal++['/','*']) subject = startsWith subject (literal++['/']) := by
  have hne : literal++['/','*'] ≠ ['*'] := by
    intro h
    have := congrArg List.length h
    simp at this
  have hlength : (literal++['/','*']).take ((literal++['/','*']).length-1) = literal++['/'] := by
    simp [List.take_append]
  have hends : endsWith (literal++['/','*']) ['/','*'] = true := by simp
  simp only [globMatch,hne,if_false,hends,if_true,hlength]

/-- Coverage is by the star or by a subtree pattern at the target or above it. -/
theorem excludeListCovers_iff (excludes : List Str) (canonical target : Str) :
    excludeListCovers excludes canonical target = true ↔ ['*'] ∈ excludes ∨
      ∃ literal, literal++['/','*'] ∈ excludes ∧ relativeTo canonical target ≠ [] ∧
        literal++['/'] <+: relativeTo canonical target++['/'] := by
  rw [excludeListCovers,List.any_eq_true]
  constructor
  · rintro ⟨pattern,hmem,hcovers⟩
    by_cases hstar : pattern = ['*']
    · exact .inl (hstar ▸ hmem)
    rw [if_neg hstar] at hcovers
    cases hstrip : stripSuffix pattern ['*'] with
    | none => simp [hstrip] at hcovers
    | some withSlash =>
      simp only [hstrip,Bool.and_eq_true,endsWith_iff,startsWith_iff] at hcovers
      obtain ⟨⟨literal,rfl⟩,hbelow⟩ := hcovers
      have hpattern := (stripSuffix_eq_some _ _ _).1 hstrip
      by_cases hrel : relativeTo canonical target = []
      · simp [hrel] at hbelow
      · refine .inr ⟨literal,?_,hrel,by simpa [hrel] using hbelow⟩
        rw [hpattern] at hmem
        simpa using hmem
  · rintro (hstar | ⟨literal,hmem,hrel,hbelow⟩)
    · exact ⟨['*'],hstar,by simp⟩
    · refine ⟨_,hmem,?_⟩
      have hne : literal++['/','*'] ≠ ['*'] := by
        intro h
        have := congrArg List.length h
        simp at this
      have hstrip : stripSuffix (literal++['/','*']) ['*'] = some (literal++['/']) := by
        rw [stripSuffix_eq_some]
        simp
      rw [if_neg hne,hstrip]
      simpa [hrel] using hbelow

/-- Covered patterns match everything strictly below the target. -/
theorem excludes_below {excludes : List Str} {canonical target path : Str}
    (hcovers : excludeListCovers excludes canonical target = true)
    (hbelow : relativeTo canonical target++['/'] <+: relativeTo canonical path) :
    ∃ pattern ∈ excludes, globMatch pattern (relativeTo canonical path) = true := by
  rcases (excludeListCovers_iff excludes canonical target).1 hcovers with hstar | ⟨literal,hmem,-,hl⟩
  · exact ⟨['*'],hstar,globMatch_star _⟩
  · refine ⟨_,hmem,?_⟩
    rw [globMatch_subtree,startsWith_iff]
    exact hl.trans hbelow

/-- A prefix that is itself a required path is covered by the star alone. -/
theorem star_of_covers_self {excludes : List Str} {canonical : Str} (hne : canonical ≠ [])
    (hcovers : excludeListCovers excludes canonical canonical = true) : ['*'] ∈ excludes := by
  rcases (excludeListCovers_iff excludes canonical canonical).1 hcovers with hstar | ⟨-,-,hrel,-⟩
  · exact hstar
  · exact absurd (relativeTo_self hne) hrel

/-! What validation comes to for an event. -/

/-- The validated excludes cover every required path the prefix encompasses. -/
theorem covers_of_valid {cfg : RevisionConfig} (hvalid : validateRevisionConfig cfg = none)
    (hauto : cfg.autoVersion = true) {required : Str} (hreq : required ∈ requiredExcludes)
    (hinside : prefixEncompasses (canonicalizePrefix cfg.barePrefix) required = true) :
    excludeListCovers cfg.exclude (canonicalizePrefix cfg.barePrefix) required = true := by
  have hon : ¬(!cfg.autoVersion) = true := by simp [hauto]
  simp only [validateRevisionConfig,if_neg hon] at hvalid
  -- the rules before the last one, in the order they are tried
  iterate 6
    split at hvalid
    · cases hvalid
  simp only [Option.map_eq_none_iff,List.find?_eq_none] at hvalid
  have := hvalid required hreq
  simpa [hinside] using this

namespace RevisionConfig

theorem configMatches_eq_false (path : Str) (cfg : RevisionConfig) :
    configMatches path cfg = false ↔
      prefixEncompasses (canonicalizePrefix cfg.barePrefix) path = false ∨ ∃ pattern ∈ cfg.exclude,
        globMatch pattern (relativeTo (canonicalizePrefix cfg.barePrefix) path) = true := by
  unfold configMatches
  generalize canonicalizePrefix cfg.barePrefix = canonical
  by_cases hempty : canonical = []
  · subst hempty
    simp [prefixEncompasses]
  by_cases hself : path = canonical
  · subst hself
    have hstrip : stripPrefix path (path++['/']) = none := by
      cases h : stripPrefix path (path++['/']) with
      | none => rfl
      | some rest =>
        have := congrArg List.length ((stripPrefix_eq_some _ _ _).1 h)
        simp at this
    simp [hempty,hstrip,prefixEncompasses]
  · cases hstrip : stripPrefix path (canonical++['/']) with
    | none =>
      have hnot : startsWith path (canonical++['/']) = false := by
        rw [Bool.eq_false_iff,ne_eq,startsWith_iff]
        rintro ⟨rest,hrest⟩
        rw [(stripPrefix_eq_some _ _ _).2 hrest.symm] at hstrip
        cases hstrip
      simp [hempty,hself,hstrip,prefixEncompasses,hnot]
    | some rest =>
      have hpath := (stripPrefix_eq_some _ _ _).1 hstrip
      have hbelow : canonical++['/'] <+: path := ⟨rest,hpath.symm⟩
      simp [hempty,hself,hstrip,prefixEncompasses,hbelow,relativeTo]

end RevisionConfig

/-- What keeps an event at or below a required path from auto-version: the prefix stands
at the required path or above it with the event strictly below, or is the required path;
or the prefix is elsewhere; or a pattern of the config happens to match. -/
def KeptFromAutoVersion (cfg : RevisionConfig) (required path : Str) : Prop :=
  let canonical := canonicalizePrefix cfg.barePrefix
  (prefixEncompasses canonical required = true ∧ (path ≠ required ∨ canonical = required)) ∨
    prefixEncompasses canonical path = false ∨
    ∃ pattern ∈ cfg.exclude, globMatch pattern (relativeTo canonical path) = true

theorem requiredExcludes_ne_nil {required : Str} (h : required ∈ requiredExcludes) :
    required ≠ [] := by
  rintro rfl
  revert h
  decide +kernel

/-- Validation is enough below a required path, and at it for the prefix that is the
path; at the node itself under a prefix above it, and for a prefix inside a required path,
nothing but a pattern that matches there keeps the event out. -/
theorem required_event_kept_iff {cfg : RevisionConfig}
    (hvalid : validateRevisionConfig cfg = none) (hauto : cfg.autoVersion = true)
    {required path : Str} (hreq : required ∈ requiredExcludes)
    (hpath : prefixEncompasses required path = true) :
    RevisionConfig.configMatches path cfg = false ↔ KeptFromAutoVersion cfg required path := by
  rw [RevisionConfig.configMatches_eq_false]
  have hne := requiredExcludes_ne_nil hreq
  constructor
  · intro h
    exact .inr h
  · rintro (⟨hencompasses,hplace⟩ | h)
    · right
      have hcovers := covers_of_valid hvalid hauto hreq hencompasses
      generalize canonicalizePrefix cfg.barePrefix = canonical at *
      by_cases hself : canonical = required
      · subst hself
        exact ⟨['*'],star_of_covers_self hne hcovers,globMatch_star _⟩
      · have hstrict : path ≠ required := hplace.resolve_right hself
        have hbelow : required++['/'] <+: path := by
          have := (prefixEncompasses_iff required path).1 hpath
          exact (this.resolve_left hne).resolve_left hstrict
        exact excludes_below hcovers (relativeTo_below hencompasses hbelow (.inr hself))
    · exact h

namespace ReentrancySample

/-- The whole tree, with the excludes the validation itself proposes. -/
def universal : RevisionConfig where
  barePrefix := "/".toList
  autoVersion := true
  mergeOrder := defaultMergeOrder
  oscillationDepth := none
  exclude := requiredExcludes.map (defaultExcludePattern [])
  excludeTypes := []
  checkoutUnderAutoVersion := defaultCheckoutPolicy

end ReentrancySample

open ReentrancySample

theorem required_event_kept_iff_sample :
    (validateRevisionConfig universal = none ∧ universal.autoVersion = true ∧
      "system/history".toList ∈ requiredExcludes ∧
      prefixEncompasses "system/history".toList "system/history/a".toList = true) ∧
    (RevisionConfig.configMatches "system/history/a".toList universal = false ↔
      KeptFromAutoVersion universal "system/history".toList "system/history/a".toList) :=
  ⟨⟨by decide +kernel,rfl,by decide +kernel,by decide +kernel⟩,
    required_event_kept_iff (by decide +kernel) rfl (by decide +kernel) (by decide +kernel)⟩

/-- The patterns the validation proposes leave the required node itself versioned. -/
theorem required_node_matches :
    ¬∀ (cfg : RevisionConfig) (required path : Str), validateRevisionConfig cfg = none →
      cfg.autoVersion = true → required ∈ requiredExcludes →
      prefixEncompasses required path = true → RevisionConfig.configMatches path cfg = false := by
  intro h
  have := h universal "system/revision".toList "system/revision".toList (by decide +kernel) rfl
    (by decide +kernel) (by decide +kernel)
  revert this
  decide +kernel

end EntityCore
