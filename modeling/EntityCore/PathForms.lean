import EntityCore.PatternTarget
import EntityCore.TreeHandler

/-! The two normal forms of a path, the one the authorizer matches and the one a handler
opens, and the inputs on which they are one. -/
namespace EntityCore
namespace EntityUri

open Strings

/-- Neither absolute nor one of the reserved shapes. -/
def Bare (path : Str) : Prop :=
  ∀ s ∈ ["/".toList,"./".toList,"../".toList,"*/".toList], startsWith path s = false

/-- A URI names an authority, and something below it if it goes on; a bare path has no
empty segment and does not start with a peer. -/
def OneForm (path : Str) : Prop :=
  match stripPrefix path uriScheme with
  | some rest => NoEmptySegment rest → match splitOnce '/' rest with
    | some (authority,below) => authority ≠ [] ∧ below ≠ []
    | none => rest ≠ []
  | none => Bare path → NoEmptySegment path ∧ isPeerId (firstSegment path) = false

instance : DecidablePred Bare := fun _ => List.decidableBAll _ _

instance : DecidablePred OneForm := fun path => by
  unfold OneForm
  split
  · haveI : ∀ rest : Str, Decidable (match splitOnce '/' rest with
        | some (authority,below) => authority ≠ [] ∧ below ≠ []
        | none => rest ≠ []) := fun rest => by split <;> infer_instance
    infer_instance
  · infer_instance

/-! Collapsing. -/

theorem noEmptySegment_cons (c : Char) (t : Str) :
    NoEmptySegment (c::t) ↔ NoEmptySegment t ∧ ¬ (c = '/' ∧ t.head? = some '/') := by
  have h := double_append '/' [c] t
  have hsingle : ¬ ['/','/'] <:+: [c] := fun hi => by simpa using hi.length_le
  simp only [List.singleton_append,hsingle,false_or,List.getLast?_singleton,Option.some.injEq] at h
  show ¬ ['/','/'] <:+: c::t ↔ ¬ ['/','/'] <:+: t ∧ _
  rw [h]
  tauto

theorem collapseSlashes_spec (t : Str) (prevSlash : Bool) :
    NoEmptySegment (collapseSlashes prevSlash t) ∧
      (prevSlash = true → (collapseSlashes prevSlash t).head? ≠ some '/') := by
  induction t generalizing prevSlash with
  | nil =>
    have hnil : NoEmptySegment [] := by decide
    exact ⟨hnil,by simp [collapseSlashes]⟩
  | cons c t ih =>
    have hafter := ih true
    have hfresh := ih false
    by_cases hc : c = '/'
    · subst hc
      cases prevSlash with
      | true => simpa [collapseSlashes] using hafter
      | false => simp [collapseSlashes,noEmptySegment_cons,hafter.1,hafter.2 rfl]
    · simp [collapseSlashes,hc,noEmptySegment_cons,hfresh.1]

theorem collapseSlashes_eq {t : Str} (h : NoEmptySegment t) (prevSlash : Bool)
    (hhead : prevSlash = true → t.head? ≠ some '/') : collapseSlashes prevSlash t = t := by
  induction t generalizing prevSlash with
  | nil => rfl
  | cons c t ih =>
    have ht := (noEmptySegment_cons c t).mp h
    by_cases hc : c = '/'
    · subst hc
      have hprev : prevSlash = false := by simpa using hhead
      have hih := ih ht.1 true (fun _ hs => ht.2 ⟨rfl,hs⟩)
      simp [collapseSlashes,hprev,hih]
    · have hih := ih ht.1 false (by simp)
      simp [collapseSlashes,hc,hih]

theorem stripScheme_absolute (t : Str) : stripPrefix ('/'::t) uriScheme = none := by
  have hscheme : uriScheme = 'e'::"ntity://".toList := rfl
  rw [hscheme]
  simp [stripPrefix,startsWith,List.isPrefixOf]

theorem cleanPath_absolute (t : Str) : cleanPath ('/'::t) = '/'::collapseSlashes true t := by
  have hstrip := stripScheme_absolute t
  show cleanPath.go (t.length+1) ('/'::t) = _
  simp [cleanPath.go,hstrip,collapseSlashes]

theorem cleanPath_noEmptySegment (t : Str) : NoEmptySegment (cleanPath ('/'::t)) := by
  have h := collapseSlashes_spec t true
  rw [cleanPath_absolute,noEmptySegment_cons]
  exact ⟨h.1,fun hs => h.2 rfl hs.2⟩

theorem cleanPath_eq_self_iff (t : Str) :
    cleanPath ('/'::t) = '/'::t ↔ NoEmptySegment ('/'::t) := by
  constructor
  · intro h
    rw [← h]
    exact cleanPath_noEmptySegment t
  · intro h
    have ht := (noEmptySegment_cons '/' t).mp h
    rw [cleanPath_absolute,collapseSlashes_eq ht.1 true fun _ hs => ht.2 ⟨rfl,hs⟩]

/-! Qualifying. -/

theorem qualifyPath_absolute (t localPeerId : Str) :
    qualifyPath ('/'::t) localPeerId = cleanPath ('/'::t) := by
  have hstrip := stripScheme_absolute t
  unfold qualifyPath
  rw [hstrip]
  simp [startsWith]

/-- An absolute result is qualified once and for all when it has no empty segment. -/
theorem qualifyPath_fixed_iff (t localPeerId : Str) :
    qualifyPath ('/'::t) localPeerId = '/'::t ↔ NoEmptySegment ('/'::t) := by
  rw [qualifyPath_absolute,cleanPath_eq_self_iff]

/-! The cases of the two forms. -/

theorem accepted_iff (path : Str) : validatePathInput path = .ok () ↔
    startsWith path "./".toList = false ∧ startsWith path "../".toList = false ∧
      path ≠ ".".toList ∧ path ≠ "..".toList ∧
      NoEmptySegment ((stripPrefix path uriScheme).getD path) := by
  have hsegment : containsText ((stripPrefix path uriScheme).getD path) "//".toList = true ↔
      ¬ NoEmptySegment ((stripPrefix path uriScheme).getD path) := by
    rw [containsText_iff,NoEmptySegment,not_not]
  unfold validatePathInput
  split_ifs with h₁ h₂ h₃
  · simp only [Bool.or_eq_true,decide_eq_true_eq] at h₁
    simp only [false_iff]
    rintro ⟨hdot,-,hone,-⟩
    rcases h₁ with h | h
    · rw [hdot] at h
      cases h
    · exact hone h
  · simp only [Bool.or_eq_true,decide_eq_true_eq] at h₂
    simp only [false_iff]
    rintro ⟨-,hdots,-,htwo,-⟩
    rcases h₂ with h | h
    · rw [hdots] at h
      cases h
    · exact htwo h
  · simp only [false_iff]
    exact fun h => hsegment.mp h₃ h.2.2.2.2
  · simp only [Bool.or_eq_true,decide_eq_true_eq,not_or,Bool.not_eq_true] at h₁ h₂
    have hno := (not_congr hsegment).mp h₃
    rw [not_not] at hno
    exact ⟨fun _ => ⟨h₁.1,h₂.1,h₁.2,h₂.2,hno⟩,fun _ => rfl⟩

theorem scheme_forms (rest localPeerId : Str) :
    canonicalize (uriScheme++rest) localPeerId = (match splitOnce '/' rest with
      | some (authority,below) =>
        if authority = [] then '/'::localPeerId++ '/'::(uriScheme++rest)
        else if below = [] then '/'::authority else '/'::authority++ '/'::below
      | none => if rest = [] then '/'::localPeerId++ '/'::(uriScheme++rest) else '/'::rest) ∧
    qualifyPath (uriScheme++rest) localPeerId = cleanPath ('/'::rest) := by
  have hscheme : uriScheme = 'e'::"ntity://".toList := rfl
  have hstrip : stripPrefix (uriScheme++rest) uriScheme = some rest :=
    (stripPrefix_eq_some _ _ _).mpr rfl
  refine ⟨?_,?_⟩
  · have hdot : startsWith (uriScheme++rest) "./".toList = false := rfl
    have hdots : startsWith (uriScheme++rest) "../".toList = false := rfl
    have hstar : startsWith (uriScheme++rest) "*/".toList = false := rfl
    have hslash : startsWith (uriScheme++rest) ['/'] = false := rfl
    have hne : uriScheme++rest ≠ ['*'] := by
      rw [hscheme]
      simp
    unfold canonicalize parse
    rw [hdot,hdots,hstar,hslash,hstrip]
    cases hsplit : splitOnce '/' rest with
    | some r => by_cases ha : r.1 = [] <;> simp [hsplit,Except.toOption,Option.filter,ha,hne]
    | none =>
      by_cases ha : rest = []
      · subst ha
        rfl
      · simp [hsplit,Except.toOption,Option.filter,ha]
  · unfold qualifyPath
    rw [hstrip]

theorem bare_forms {path : Str} (hscheme : stripPrefix path uriScheme = none) (hbare : Bare path)
    (localPeerId : Str) :
    canonicalize path localPeerId = '/'::localPeerId++ '/'::path ∧
    qualifyPath path localPeerId = if isPeerId (firstSegment path) = true then '/'::path
      else '/'::localPeerId++ '/'::path := by
  have hslash := hbare "/".toList (by simp)
  have hdot := hbare "./".toList (by simp)
  have hdots := hbare "../".toList (by simp)
  have hstar := hbare "*/".toList (by simp)
  have hparse : (parse path).toOption = none := by
    unfold parse
    rw [hscheme]
    rfl
  refine ⟨?_,?_⟩
  · unfold canonicalize
    rw [hdot,hdots,hstar,hparse]
    by_cases hany : path = ['*']
    · subst hany
      rfl
    · simp [hany,show startsWith path ['/'] = false from hslash]
  · unfold qualifyPath firstSegment
    rw [hscheme,hdot,hdots,hstar,show startsWith path ['/'] = false from hslash]
    by_cases hany : path = ['*']
    · subst hany
      rfl
    · cases hsplit : splitOnce '/' path with
      | some r => simp [hany]
      | none => simp [hany]

theorem reserved_forms {path : Str} (hscheme : stripPrefix path uriScheme = none)
    (hslash : startsWith path "/".toList = false) (hbare : ¬ Bare path) (localPeerId : Str) :
    canonicalize path localPeerId = neverMatch ∧ qualifyPath path localPeerId = neverMatch := by
  have hreserved : startsWith path "./".toList = true ∨ startsWith path "../".toList = true ∨
      startsWith path "*/".toList = true := by
    by_contra h
    apply hbare
    simp only [not_or,Bool.not_eq_true] at h
    intro s hs
    simp only [List.mem_cons,List.not_mem_nil,or_false] at hs
    rcases hs with rfl | rfl | rfl | rfl
    · exact hslash
    · exact h.1
    · exact h.2.1
    · exact h.2.2
  unfold canonicalize qualifyPath
  rw [hscheme]
  rcases hreserved with h | h | h
  · rw [h]
    exact ⟨rfl,rfl⟩
  · rw [h]
    cases startsWith path "./".toList <;> exact ⟨rfl,rfl⟩
  · rw [h]
    cases startsWith path "./".toList <;> cases startsWith path "../".toList <;> exact ⟨rfl,rfl⟩

/-! One form. -/

theorem one_form_scheme (rest localPeerId : Str) (hrest : NoEmptySegment rest) :
    canonicalize (uriScheme++rest) localPeerId = cleanPath ('/'::rest) ↔
      match splitOnce '/' rest with
      | some (authority,below) => authority ≠ [] ∧ below ≠ []
      | none => rest ≠ [] := by
  have hlocal : ∀ t : Str, t.length ≤ rest.length →
      '/'::localPeerId++ '/'::(uriScheme++rest) ≠ '/'::t := by
    intro t ht h
    have hlength := congrArg List.length h
    simp only [List.length_cons,List.length_append] at hlength
    omega
  have hself : rest.head? ≠ some '/' → cleanPath ('/'::rest) = '/'::rest := by
    intro hhead
    rw [cleanPath_eq_self_iff,noEmptySegment_cons]
    exact ⟨hrest,fun hs => hhead hs.2⟩
  rw [(scheme_forms rest localPeerId).1]
  cases hsplit : splitOnce '/' rest with
  | some r =>
    obtain ⟨authority,below⟩ := r
    have hparts := (splitOnce_eq_some _ _ _ _).mp hsplit
    by_cases ha : authority = []
    · have hslash : rest = '/'::below := by simpa [ha] using hparts.1
      have hbelow := (noEmptySegment_cons '/' below).mp (hslash ▸ hrest)
      have hcollapse : cleanPath ('/'::rest) = '/'::below := by
        rw [cleanPath_absolute,hslash]
        show '/'::collapseSlashes true below = _
        rw [collapseSlashes_eq hbelow.1 true fun _ hs => hbelow.2 ⟨rfl,hs⟩]
      have hne := hlocal below (by simp [hslash])
      rw [hcollapse]
      simp only [ha,if_true,hne,ne_eq,not_true_eq_false,false_and]
    · have hhead : rest.head? ≠ some '/' := by
        rw [hparts.1,List.head?_append_of_ne_nil _ ha]
        exact fun hs => hparts.2 (List.mem_of_head? hs)
      rw [hself hhead,hparts.1]
      by_cases hb : below = []
      · simp [ha,hb]
      · simp [ha,hb]
  | none =>
    have hno := (splitOnce_eq_none _ _).mp hsplit
    rw [hself fun hs => hno (List.mem_of_head? hs)]
    by_cases hr : rest = []
    · have hne := hlocal rest le_rfl
      simp only [hr] at hne ⊢
      simp only [if_true,hne,ne_eq,not_true_eq_false]
    · simp [hr]

theorem one_form_bare {path localPeerId : Str} (hl : isPeerId localPeerId = true)
    (hscheme : stripPrefix path uriScheme = none) (hbare : Bare path) :
    ((validatePathInput path = .ok () →
        canonicalize path localPeerId = qualifyPath path localPeerId) ∧
      qualifyPath (qualifyPath path localPeerId) localPeerId = qualifyPath path localPeerId) ↔
    NoEmptySegment path ∧ isPeerId (firstSegment path) = false := by
  have hpeer : '/' ∉ localPeerId := slash_notMem_of_base58 ((isPeerId_iff _).mp hl).2
  have hhead : path.head? ≠ some '/' := by
    intro hs
    cases path with
    | nil => cases hs
    | cons c path =>
      obtain rfl : c = '/' := by simpa using hs
      have hslash := hbare "/".toList (by simp)
      cases hslash
  have hbelow : NoEmptySegment ('/'::path) ↔ NoEmptySegment path := by
    simp [noEmptySegment_cons,hhead]
  obtain ⟨hcanonical,hqualified⟩ := bare_forms hscheme hbare localPeerId
  rw [hqualified,hcanonical]
  by_cases hfirst : isPeerId (firstSegment path) = true
  · -- accepted, the two forms differ; refused, the qualified one is collapsed further
    have haccept : NoEmptySegment path → validatePathInput path = .ok () := by
      intro hno
      rw [accepted_iff,hscheme]
      refine ⟨hbare _ (by simp),hbare _ (by simp),?_,?_,hno⟩
      · rintro rfl
        cases hfirst
      · rintro rfl
        cases hfirst
    have hne : '/'::localPeerId++ '/'::path ≠ '/'::path := by
      intro h
      have hlength := congrArg List.length h
      simp at hlength
      omega
    rw [if_pos hfirst,qualifyPath_fixed_iff,hbelow]
    constructor
    · rintro ⟨hsame,hno⟩
      exact absurd (hsame (haccept hno)) hne
    · rintro ⟨-,hno⟩
      rw [hfirst] at hno
      cases hno
  · have hpre : localPeerId ≠ [] := by
      rintro rfl
      cases hl
    have hseam : NoEmptySegment (localPeerId++ '/'::path) ↔ NoEmptySegment ('/'::path) := by
      have hinside : ¬ ['/','/'] <:+: localPeerId := fun h => hpeer (h.subset (by simp))
      have hlast : localPeerId.getLast? ≠ some '/' := fun h => hpeer (List.mem_of_getLast? h)
      have h := double_append '/' localPeerId ('/'::path)
      simp only [hinside,hlast,false_and,false_or,or_false] at h
      exact not_congr h
    have hstart : (localPeerId++ '/'::path).head? ≠ some '/' := by
      rw [List.head?_append_of_ne_nil _ hpre]
      exact fun h => hpeer (List.mem_of_head? h)
    have hjoin : NoEmptySegment ('/'::(localPeerId++ '/'::path)) ↔ NoEmptySegment path := by
      rw [noEmptySegment_cons,hseam,hbelow]
      exact and_iff_left fun hs => hstart hs.2
    rw [if_neg hfirst,List.cons_append,qualifyPath_fixed_iff,hjoin]
    simp [hfirst]

/-- The two forms of a path agree where a boundary accepts it, and the qualified one is
final, exactly when the path has one form. -/
theorem one_form_iff (localPeerId : Str) (hl : isPeerId localPeerId = true) (path : Str) :
    ((validatePathInput path = .ok () →
        canonicalize path localPeerId = qualifyPath path localPeerId) ∧
      qualifyPath (qualifyPath path localPeerId) localPeerId = qualifyPath path localPeerId) ↔
    OneForm path := by
  have hclean : ∀ t, qualifyPath (cleanPath ('/'::t)) localPeerId = cleanPath ('/'::t) := by
    intro t
    have h := cleanPath_noEmptySegment t
    rw [cleanPath_absolute] at h ⊢
    exact (qualifyPath_fixed_iff _ _).mpr h
  cases hscheme : stripPrefix path uriScheme with
  | some rest =>
    obtain rfl := (stripPrefix_eq_some _ _ _).mp hscheme
    have haccept : validatePathInput (uriScheme++rest) = .ok () ↔ NoEmptySegment rest := by
      have hdot : uriScheme++rest ≠ ".".toList := fun h =>
        absurd (List.cons.inj (show 'e'::("ntity://".toList++rest) = '.'::[] from h)).1 (by decide)
      have hdots : uriScheme++rest ≠ "..".toList := fun h =>
        absurd (List.cons.inj (show 'e'::("ntity://".toList++rest) = '.'::['.'] from h)).1
          (by decide)
      rw [accepted_iff,hscheme]
      exact ⟨fun h => h.2.2.2.2,fun h => ⟨rfl,rfl,hdot,hdots,h⟩⟩
    rw [(scheme_forms rest localPeerId).2,hclean,haccept,OneForm,hscheme]
    simp only [and_true]
    exact imp_congr_right (one_form_scheme rest localPeerId)
  | none =>
    rw [OneForm,hscheme]
    by_cases hslash : startsWith path "/".toList = true
    · obtain ⟨t,ht⟩ := (startsWith_iff _ _).mp hslash
      obtain rfl : path = '/'::t := ht.symm
      have hnotBare : ¬ Bare ('/'::t) := fun h => by
        have hs := h "/".toList (by simp)
        rw [hslash] at hs
        cases hs
      rw [qualifyPath_absolute,canonicalize_of_absolute,hclean]
      simp only [hnotBare,false_implies,iff_true,and_true]
      intro haccept
      have hno := ((accepted_iff _).mp haccept).2.2.2.2
      rw [hscheme] at hno
      exact ((cleanPath_eq_self_iff t).mpr hno).symm
    · rw [Bool.not_eq_true] at hslash
      by_cases hbare : Bare path
      · simp only [hbare,true_implies]
        exact one_form_bare hl hscheme hbare
      · obtain ⟨hcanonical,hqualified⟩ := reserved_forms hscheme hslash hbare localPeerId
        have hfixed : qualifyPath neverMatch localPeerId = neverMatch := by
          have hno : NoEmptySegment neverMatch := by decide
          exact (qualifyPath_fixed_iff "never-match".toList localPeerId).mpr hno
        simp [hcanonical,hqualified,hfixed,hbare]

end EntityUri

section Sample

open EntityUri Sample

theorem one_form_iff_sample : EntityUri.isPeerId aliceId = true ∧ OneForm "system/tree".toList ∧
    canonicalize "system/tree".toList aliceId = qualifyPath "system/tree".toList aliceId := by
  have ⟨hone,haccept⟩ : OneForm "system/tree".toList ∧
      validatePathInput "system/tree".toList = .ok () := by decide +kernel
  exact ⟨aliceId_isPeerId,hone,
    ((one_form_iff aliceId aliceId_isPeerId "system/tree".toList).mpr hone).1 haccept⟩

/-- A path that starts with a peer is matched below the local peer and opened below that
one; an empty segment survives the first qualification and not the second. -/
theorem two_forms_of_one_path :
    validatePathInput (aliceId++ "/app/x".toList) = .ok () ∧
    canonicalize (aliceId++ "/app/x".toList) aliceId ≠
      qualifyPath (aliceId++ "/app/x".toList) aliceId ∧
    qualifyPath (qualifyPath "app//x".toList aliceId) aliceId ≠
      qualifyPath "app//x".toList aliceId := by
  decide +kernel

end Sample

end EntityCore
