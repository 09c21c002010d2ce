import EntityCore.Entity

/-! Path patterns: the canonical form of a path in a peer's frame, the matcher
with its subtree and peer wildcards, and the order the matcher induces. -/
namespace EntityCore

open Strings List

/-- Absolute form of a path or pattern in the frame of `localPeerId`. -/
def canonicalize (path localPeerId : Str) : Str :=
  if startsWith path "./".toList || startsWith path "../".toList then neverMatch
  else if startsWith path "*/".toList then neverMatch
  else
    match (EntityUri.parse path).toOption.filter fun uri => uri.peerId ≠ [] with
    | some uri => if uri.path = [] then '/'::uri.peerId else '/'::uri.peerId++ '/'::uri.path
    | none =>
      if startsWith path ['/'] then path
      else if path = ['*'] then '/'::localPeerId++ "/*".toList
      else '/'::localPeerId++ '/'::path

/-- `path` lies strictly below `pre`. -/
def inSubtree (path pre : Str) : Bool :=
  startsWith path pre && path.length > pre.length && path[pre.length]? = some '/'

/-- What follows the peer segment of an absolute path. -/
def afterPeer : Str → Option Str
  | '/'::afterSlash => (splitOnce '/' afterSlash).map Prod.snd
  | _ => none

def matchesPattern (path pattern : Str) : Bool :=
  if path = neverMatch || pattern = neverMatch then false
  else if pattern = ['*'] then true
  else match pattern with
    -- peer wildcard: both sides continue below their first segment
    | '/':: '*':: '/'::remainder => match afterPeer path with
      | some pathRest => matchesPattern pathRest remainder
      | none => false
    | pattern => match stripSuffix pattern "/*".toList with
      | some pre => inSubtree path pre
      | none => path = pattern
termination_by structural pattern

def matchesIdPattern (value pattern : Str) : Bool :=
  if pattern = ['*'] then true
  else match stripSuffix pattern "/*".toList with
    | some pre => inSubtree value pre
    | none => value = pattern

def matchesIdScope (value : Str) (includes excludes : List Str) : Bool :=
  includes.any (matchesIdPattern value) && !excludes.any (matchesIdPattern value)

/-- In an exclude list an unmatchable pattern excludes everything. -/
def matchesScope (value : Str) (includes excludes : List Str) (localPeerId : Str) : Bool :=
  let cv := canonicalize value localPeerId
  includes.any (fun pattern => matchesPattern cv (canonicalize pattern localPeerId)) &&
    excludes.all fun pattern =>
      let cp := canonicalize pattern localPeerId
      cp ≠ neverMatch && !matchesPattern cv cp

def isCoveredBy (path : Str) (patternSet : List Str) (localPeerId : Str) : Bool :=
  patternSet.any fun p => matchesPattern path (canonicalize p localPeerId)

def isPattern (path : Str) : Bool := path.contains '*'

def stripWildcard (pattern : Str) : Str :=
  match stripSuffix pattern "/*".toList with
  | some pre => pre
  | none => if pattern = ['*'] then [] else pattern

def patternsOverlap (a b : Str) : Bool :=
  startsWith (stripWildcard a) (stripWildcard b) || startsWith (stripWildcard b) (stripWildcard a)

/-- The four shapes of a pattern, in the order the matcher tries them. -/
inductive Shape : Str → Prop
  | any : Shape ['*']
  | peer (rest) : Shape ('/':: '*':: '/'::rest)
  | subtree (pre) (h : ¬ "/*/".toList <+: pre++ "/*".toList) : Shape (pre++ "/*".toList)
  | exact (r) (hstar : r ≠ ['*']) (hpeer : ¬ "/*/".toList <+: r) (htree : ¬ "/*".toList <:+ r) : Shape r

theorem shape (r : Str) : Shape r := by
  by_cases hstar : r = ['*']
  · exact hstar ▸ .any
  · by_cases hpeer : "/*/".toList <+: r
    · obtain ⟨rest,rfl⟩ := hpeer
      exact .peer rest
    · by_cases htree : "/*".toList <:+ r
      · obtain ⟨pre,rfl⟩ := htree
        exact .subtree pre hpeer
      · exact .exact r hstar hpeer htree

theorem star_notMem_neverMatch : '*' ∉ neverMatch := by decide +kernel

theorem subtree_ne_star (pre : Str) : pre++ "/*".toList ≠ ['*'] := by
  intro h
  have hl := congrArg length h
  simp at hl

theorem subtree_ne_neverMatch (pre : Str) : pre++ "/*".toList ≠ neverMatch := fun h =>
  star_notMem_neverMatch (h ▸ by simp)

theorem inSubtree_iff (path pre : Str) : inSubtree path pre = true ↔ ∃ t, path = pre++ '/'::t := by
  simp only [inSubtree,Bool.and_eq_true,startsWith_iff,decide_eq_true_eq,gt_iff_lt]
  constructor
  · rintro ⟨⟨⟨u,rfl⟩,hl⟩,hc⟩
    cases u with
    | nil => simp at hl
    | cons c u =>
      simp only [getElem?_append_right (Nat.le_refl _),Nat.sub_self,getElem?_cons_zero,
        Option.some.injEq] at hc
      exact ⟨u,by rw [hc]⟩
  · rintro ⟨t,rfl⟩
    simp

/-! What the matcher says for each shape. -/

theorem matchesPattern_eq (p r : Str) : matchesPattern p r =
    if p = neverMatch || r = neverMatch then false
    else if r = ['*'] then true
    else match r with
      | '/':: '*':: '/'::remainder => match afterPeer p with
        | some rest => matchesPattern rest remainder
        | none => false
      | r => match stripSuffix r "/*".toList with
        | some pre => inSubtree p pre
        | none => p = r := by
  conv_lhs => unfold matchesPattern

theorem matchesPattern_never (r : Str) : matchesPattern neverMatch r = false := by
  rw [matchesPattern_eq]
  simp

theorem ne_never_of_matches {p r : Str} (h : matchesPattern p r = true) : p ≠ neverMatch := by
  rintro rfl
  rw [matchesPattern_never] at h
  cases h

theorem pattern_ne_never_of_matches {p r : Str} (h : matchesPattern p r = true) :
    r ≠ neverMatch := by
  rintro rfl
  rw [matchesPattern_eq] at h
  simp at h

theorem matches_any (p : Str) : matchesPattern p ['*'] = true ↔ p ≠ neverMatch := by
  rw [matchesPattern_eq]
  have hn : ['*'] ≠ neverMatch := by decide +kernel
  by_cases hp : p = neverMatch <;> simp [hp,hn]

theorem afterPeer_eq_some (p rest : Str) :
    afterPeer p = some rest ↔ ∃ a, p = '/'::a++ '/'::rest ∧ '/' ∉ a := by
  unfold afterPeer
  split
  · rename_i s
    simp only [Option.map_eq_some_iff,Prod.exists,exists_eq_right,splitOnce_eq_some,
      cons_append,cons.injEq,true_and]
  · rename_i h
    refine ⟨fun he => (by cases he),?_⟩
    rintro ⟨a,rfl,_⟩
    exact (h _ rfl).elim

theorem matches_peer (p t : Str) : matchesPattern p ('/':: '*':: '/'::t) = true ↔
    p ≠ neverMatch ∧ ∃ rest, afterPeer p = some rest ∧ matchesPattern rest t = true := by
  have hn : '/':: '*':: '/'::t ≠ neverMatch := fun h => star_notMem_neverMatch (h ▸ by simp)
  by_cases hp : p = neverMatch
  · simp [hp,matchesPattern_never]
  · rw [matchesPattern_eq,if_neg (by simpa [hp] using hn),if_neg (by simp)]
    cases afterPeer p <;> simp [hp]

theorem matches_subtree {pre : Str} (hpeer : ¬ "/*/".toList <+: pre++ "/*".toList) (p : Str) :
    matchesPattern p (pre++ "/*".toList) = true ↔ p ≠ neverMatch ∧ ∃ t, p = pre++ '/'::t := by
  have hs : stripSuffix (pre++ "/*".toList) "/*".toList = some pre :=
    (stripSuffix_eq_some _ _ _).mpr rfl
  by_cases hp : p = neverMatch
  · simp [hp,matchesPattern_never]
  · rw [matchesPattern_eq,if_neg (by simpa [hp] using subtree_ne_neverMatch pre),if_neg (subtree_ne_star pre)]
    split
    · rename_i rest heq
      exact (hpeer ⟨rest,heq.symm⟩).elim
    · rw [hs]
      simp only [inSubtree_iff,hp,ne_eq,not_false_eq_true,true_and]

theorem matches_exact {r : Str} (hstar : r ≠ ['*']) (hpeer : ¬ "/*/".toList <+: r)
    (htree : ¬ "/*".toList <:+ r) (p : Str) :
    matchesPattern p r = true ↔ p ≠ neverMatch ∧ p = r := by
  have hs : stripSuffix r "/*".toList = none := by
    unfold stripSuffix
    rw [if_neg (by simpa using htree)]
  by_cases hp : p = neverMatch
  · simp [hp,matchesPattern_never]
  · by_cases hr : r = neverMatch
    · subst hr
      rw [matchesPattern_eq]
      simp [hp]
    · rw [matchesPattern_eq,if_neg (by simp [hp,hr]),if_neg hstar]
      split
      · exact (hpeer ⟨_,rfl⟩).elim
      · rw [hs]
        simp [hp]

/-! Matching as an order: what a pattern matches, every pattern above it matches. -/

def NoEmptySegment (p : Str) : Prop := ¬ "//".toList <:+: p

instance : DecidablePred NoEmptySegment := fun p =>
  decidable_of_iff (containsText p "//".toList = false) (containsText_false p _)

theorem validateAbsolutePath_ok (p : Str) : (EntityUri.validateAbsolutePath p).isOk = true ↔
    (∃ t, p = '/'::t ∧ EntityUri.isPeerId (EntityUri.firstSegment t) = true) ∧ NoEmptySegment p := by
  have herr : ∀ e, (Except.error e : Except String Unit).isOk = false := fun _ => rfl
  have hok : (Except.ok () : Except String Unit).isOk = true := rfl
  unfold EntityUri.validateAbsolutePath
  by_cases hs : startsWith p ['/'] = true
  · obtain ⟨t,rfl⟩ := (startsWith_iff p ['/']).mp hs
    by_cases hn : containsText (['/']++t) "//".toList = true
    · have he : ¬ NoEmptySegment (['/']++t) := fun h => h ((containsText_iff _ _).mp hn)
      rw [if_neg (by simp),if_pos hn,herr]
      simp only [Bool.false_eq_true,false_iff]
      exact fun h => he h.2
    · have he : NoEmptySegment (['/']++t) := fun h => hn ((containsText_iff _ _).mpr h)
      rw [if_neg (by simp),if_neg hn]
      by_cases hf : EntityUri.isPeerId (EntityUri.firstSegment t) = true
      · simp only [cons_append,nil_append,drop_succ_cons,drop_zero] at he ⊢
        rw [if_neg (by simp [hf]),hok]
        simp [he,hf]
      · simp only [cons_append,nil_append,drop_succ_cons,drop_zero]
        rw [if_pos (by simpa using hf),herr]
        simp [hf]
  · rw [if_pos (by rw [Bool.not_eq_true] at hs; rw [hs]; rfl),herr]
    simp only [Bool.false_eq_true,false_iff,not_and]
    rintro ⟨t,rfl,_⟩
    exact (hs ((startsWith_iff _ _).mpr ⟨t,rfl⟩)).elim

theorem NoEmptySegment.of_infix {p s : Str} (h : NoEmptySegment p) (hs : s <:+: p) :
    NoEmptySegment s := fun he => h (he.trans hs)

theorem NoEmptySegment.not_slash_slash (a b : Str) : ¬ NoEmptySegment (a++ '/':: '/'::b) :=
  fun h => h ⟨a,b,by simp⟩

theorem NoEmptySegment.afterPeer {p rest : Str} (h : NoEmptySegment p)
    (hr : afterPeer p = some rest) : NoEmptySegment rest := by
  obtain ⟨a,rfl,_⟩ := (afterPeer_eq_some _ _).mp hr
  exact h.of_infix ⟨'/'::a++['/'],[],by simp⟩

theorem star_tail_split {c y : Str} (h : "/*".toList = c++ '/'::y) : c = [] ∧ y = ['*'] := by
  match c, h with
  | [], h => exact ⟨rfl,(cons.inj h).2.symm⟩
  | [_], h => simp at h
  | _::_::_, h => simp at h

/-- A subtree below which another subtree's pattern lies holds all of that subtree. -/
theorem subtree_below {pre pre' y : Str} (h : pre++ '/'::y = pre'++ "/*".toList) (x : Str) :
    ∃ t, pre'++ '/'::x = pre++ '/'::t := by
  rcases append_eq_append_iff.mp h with ⟨c,hc,ht⟩ | ⟨c,hc,ht⟩
  · cases c with
    | nil => exact ⟨x,by rw [hc,append_nil]⟩
    | cons d c =>
      simp only [cons_append,cons.injEq] at ht
      exact ⟨c++ '/'::x,by rw [hc,← ht.1]; simp⟩
  · obtain ⟨rfl,_⟩ := star_tail_split ht
    exact ⟨x,by rw [hc,append_nil]⟩

/-- A subtree pattern below a peer segment, seen from that segment. -/
theorem subtree_afterPeer {pre rest x : Str} (hp : NoEmptySegment (pre++ '/'::x))
    (hr : afterPeer (pre++ "/*".toList) = some rest) :
    ∃ prest, afterPeer (pre++ '/'::x) = some prest ∧
      ((rest = ['*'] ∧ prest = x ∧ x ≠ neverMatch) ∨ matchesPattern prest rest = true) := by
  obtain ⟨a,he,ha⟩ := (afterPeer_eq_some _ _).mp hr
  have hsplit : (pre = '/'::a ∧ rest = ['*']) ∨
      ∃ c, pre = '/'::a++ '/'::c ∧ rest = c++ "/*".toList := by
    rcases append_eq_append_iff.mp he with ⟨c,hc,ht⟩ | ⟨c,hc,ht⟩
    · obtain ⟨rfl,rfl⟩ := star_tail_split ht
      exact .inl ⟨by simpa using hc.symm,rfl⟩
    · cases c with
      | nil => exact .inl ⟨by simpa using hc,by simpa using ht⟩
      | cons d c =>
        simp only [cons_append,cons.injEq] at ht
        exact .inr ⟨c,by rw [hc,← ht.1],ht.2⟩
  rcases hsplit with ⟨rfl,rfl⟩ | ⟨c,rfl,rfl⟩
  · refine ⟨x,(afterPeer_eq_some _ _).mpr ⟨a,rfl,ha⟩,.inl ⟨rfl,rfl,?_⟩⟩
    rintro rfl
    exact NoEmptySegment.not_slash_slash _ _ hp
  · refine ⟨c++ '/'::x,(afterPeer_eq_some _ _).mpr ⟨a,by simp,ha⟩,.inr ?_⟩
    -- an empty segment would be needed for `c` to start a peer wildcard
    obtain ⟨d,c,rfl,hd⟩ : ∃ d c', c = d::c' ∧ d ≠ '/' := by
      cases c with
      | nil => exact (NoEmptySegment.not_slash_slash ('/'::a) x (by simpa using hp)).elim
      | cons d c =>
        refine ⟨d,c,rfl,?_⟩
        rintro rfl
        exact NoEmptySegment.not_slash_slash ('/'::a) (c++ '/'::x) (by simpa using hp)
    have hpeer : ¬ "/*/".toList <+: d::c++ "/*".toList := by
      rintro ⟨u,hu⟩
      exact hd (cons.inj hu).1.symm
    refine (matches_subtree hpeer _).mpr ⟨?_,x,rfl⟩
    intro hn
    exact hd (cons.inj hn).1

theorem matches_trans {p q r : Str} (hp : NoEmptySegment p) (hpq : matchesPattern p q = true)
    (hqr : matchesPattern q r = true) : matchesPattern p r = true := by
  -- the matcher recurses on the outer pattern, and so does the argument
  induction hn : r.length using Nat.strong_induction_on generalizing p q r with
  | _ n ih =>
    cases shape r with
    | any => exact (matches_any p).mpr (ne_never_of_matches hpq)
    | peer t =>
      obtain ⟨hq,rest,hrest,hm⟩ := (matches_peer q t).mp hqr
      have step : ∀ {prest}, afterPeer p = some prest → matchesPattern prest rest = true →
          matchesPattern p ('/':: '*':: '/'::t) = true := by
        intro prest hprest hpr
        refine (matches_peer p t).mpr ⟨ne_never_of_matches hpq,prest,hprest,?_⟩
        exact ih t.length (by simp at hn; omega) (hp.afterPeer hprest) hpr hm rfl
      cases shape q with
      | any => simp [afterPeer] at hrest
      | peer t' =>
        have ht : rest = t' := by
          have hh := (afterPeer_eq_some ('/':: '*':: '/'::t') t').mpr ⟨['*'],rfl,by simp⟩
          rw [hh] at hrest
          exact (Option.some.inj hrest).symm
        subst ht
        obtain ⟨_,prest,hprest,hpr⟩ := (matches_peer p rest).mp hpq
        exact step hprest hpr
      | subtree pre hpeer =>
        obtain ⟨hpn,x,rfl⟩ := (matches_subtree hpeer p).mp hpq
        obtain ⟨prest,hprest,⟨rfl,rfl,hx⟩ | hpr⟩ := subtree_afterPeer hp hrest
        · exact step hprest ((matches_any _).mpr hx)
        · exact step hprest hpr
      | exact _ hstar hpeer htree =>
        rw [((matches_exact hstar hpeer htree p).mp hpq).2]
        exact hqr
    | subtree pre hpeer =>
      obtain ⟨_,y,rfl⟩ := (matches_subtree hpeer q).mp hqr
      refine (matches_subtree hpeer p).mpr ⟨ne_never_of_matches hpq,?_⟩
      generalize hg : pre++ '/'::y = q at hpq
      cases shape q with
      | any =>
        have hm : '/' ∈ ['*'] := hg ▸ by simp
        simp at hm
      | peer t' =>
        obtain ⟨_,prest,hprest,_⟩ := (matches_peer p t').mp hpq
        obtain ⟨a,rfl,_⟩ := (afterPeer_eq_some _ _).mp hprest
        have hnil : pre = [] := by
          match pre, hg with
          | [], _ => rfl
          | [_], hg => simp at hg
          | [_,_], hg =>
            simp only [cons_append,nil_append,cons.injEq] at hg
            exact (hpeer ⟨['*'],by simp [hg.1,hg.2.1]⟩).elim
          | _::_::_::pre', hg =>
            simp only [cons_append,cons.injEq] at hg
            exact (hpeer ⟨pre'++ "/*".toList,by simp [hg.1,hg.2.1,hg.2.2.1]⟩).elim
        exact ⟨_,by rw [hnil]; rfl⟩
      | subtree pre' hpeer' =>
        obtain ⟨_,x,rfl⟩ := (matches_subtree hpeer' p).mp hpq
        exact subtree_below hg x
      | exact _ hstar hpeer' htree =>
        obtain ⟨_,rfl⟩ := (matches_exact hstar hpeer' htree p).mp hpq
        exact ⟨y,hg.symm⟩
    | exact _ hstar hpeer htree =>
      rw [← ((matches_exact hstar hpeer htree q).mp hqr).2]
      exact hpq

/-- A pattern that matches something matches itself. -/
theorem matches_self_of_matches {v r : Str} (h : matchesPattern v r = true) :
    matchesPattern r r = true := by
  induction hn : r.length using Nat.strong_induction_on generalizing v r with
  | _ n ih =>
    have hr := pattern_ne_never_of_matches h
    cases shape r with
    | any => exact (matches_any _).mpr hr
    | peer t =>
      obtain ⟨_,rest,_,hm⟩ := (matches_peer v t).mp h
      refine (matches_peer _ t).mpr ⟨hr,t,(afterPeer_eq_some _ _).mpr ⟨['*'],rfl,by simp⟩,?_⟩
      exact ih t.length (by simp at hn; omega) hm rfl
    | subtree pre hpeer => exact (matches_subtree hpeer _).mpr ⟨hr,['*'],rfl⟩
    | exact _ hstar hpeer htree => exact (matches_exact hstar hpeer htree _).mpr ⟨hr,rfl⟩

theorem matchesId_iff (v r : Str) : matchesIdPattern v r = true ↔
    r = ['*'] ∨ (∃ pre t, r = pre++ "/*".toList ∧ v = pre++ '/'::t) ∨
      (¬ "/*".toList <:+ r ∧ v = r) := by
  unfold matchesIdPattern
  by_cases hr : r = ['*']
  · simp [hr]
  · rw [if_neg hr]
    by_cases ht : "/*".toList <:+ r
    · obtain ⟨pre,rfl⟩ := ht
      have hs := (stripSuffix_eq_some (pre++ "/*".toList) "/*".toList pre).mpr rfl
      rw [hs]
      simp only [inSubtree_iff,subtree_ne_star,append_cancel_right_eq,suffix_append,
        not_true_eq_false,false_and,false_or,or_false]
      exact ⟨fun ⟨t,h⟩ => ⟨pre,t,rfl,h⟩,fun ⟨_,t,he,h⟩ => ⟨t,he ▸ h⟩⟩
    · have hs : stripSuffix r "/*".toList = none := by
        unfold stripSuffix
        rw [if_neg (by simpa using ht)]
      rw [hs]
      simp only [decide_eq_true_eq,hr,ht,not_false_eq_true,true_and,false_or]
      refine ⟨Or.inr,?_⟩
      rintro (⟨pre,t,rfl,_⟩ | h)
      · exact (ht (suffix_append _ _)).elim
      · exact h

theorem matchesId_trans {v p r : Str} (hvp : matchesIdPattern v p = true)
    (hpr : matchesIdPattern p r = true) : matchesIdPattern v r = true := by
  rw [matchesId_iff] at hpr ⊢
  rcases hpr with rfl | ⟨pre,y,rfl,rfl⟩ | ⟨htree,rfl⟩
  · exact .inl rfl
  · refine .inr (.inl ⟨pre,?_⟩)
    rcases (matchesId_iff _ _).mp hvp with hstar | ⟨pre',x,hp,rfl⟩ | ⟨_,rfl⟩
    · have hm : '/' ∈ ['*'] := hstar ▸ by simp
      simp at hm
    · obtain ⟨t,ht⟩ := subtree_below hp x
      exact ⟨t,rfl,ht⟩
    · exact ⟨y,rfl,rfl⟩
  · exact (matchesId_iff _ _).mp hvp

end EntityCore
