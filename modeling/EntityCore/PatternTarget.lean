import EntityCore.Capability

/-! Pattern targets against grant excludes. A pattern target is let through when its
stem and the exclude's stem are not prefixes of one another. That over-approximates
intersection for patterns of one kind and misses it when just one of the two has a
peer wildcard. -/
namespace EntityCore

open Strings Narrowing List EntityUri

def peerWild (p : Str) : Bool := startsWith p "/*/".toList

/-- What a peer wildcard and a pattern of one peer have in common: the latter, or the
wildcard read for that peer, if one of the two lies below the other. -/
def meetPeer (w n : Str) : Option Str :=
  if matchesPattern n w then some n
  else
    let wp := '/'::EntityUri.firstSegment (n.drop 1)++w.drop 2
    if matchesPattern wp n then some wp else none

/-- The common part of two patterns just one of which has a peer wildcard. -/
def mixedMeet (a b : Str) : Option Str :=
  match peerWild a, peerWild b with
  | true, false => meetPeer a b
  | false, true => meetPeer b a
  | _, _ => none

/-- The simplest path below a pattern. -/
def simplest (i : Str) : Str :=
  match stripSuffix i "/*".toList with
  | some pre => pre++ "/a".toList
  | none => i

/-- The pattern has a path below it that is valid and free of stars. -/
def hasPath (i : Str) : Bool :=
  !isPattern (simplest i) && (EntityUri.validateAbsolutePath (simplest i)).isOk

/-- No grant exclude meets the subject across the peer wildcard outside of what the
caller excludes. -/
def noMixedMeet (subject : Str) (grantExclude callerExclude : List Str)
    (localPeerId granterPeerId : Str) : Bool :=
  grantExclude.all fun ge =>
    (mixedMeet subject (canonicalize ge granterPeerId)).all fun i =>
      !hasPath i || isCoveredBy i callerExclude localPeerId

/-- A path as a request names it: valid and without a star. -/
structure ConcretePath (v : Str) : Prop where
  starFree : '*' ∉ v
  valid : (EntityUri.validateAbsolutePath v).isOk = true

variable {v t r p l i rest g pre x a b : Str}

theorem ConcretePath.noEmpty (h : ConcretePath v) : NoEmptySegment v :=
  ((validateAbsolutePath_ok v).mp h.valid).2

theorem isPattern_iff (p : Str) : isPattern p = true ↔ '*' ∈ p := by simp [isPattern]

theorem hasPath_iff (i : Str) : hasPath i = true ↔ ConcretePath (simplest i) := by
  simp only [hasPath,Bool.and_eq_true,Bool.not_eq_true',isPattern,contains_eq_mem,
    decide_eq_false_iff_not]
  exact ⟨fun h => ⟨h.1,h.2⟩,fun h => ⟨h.1,h.2⟩⟩

/-- The peer of a valid path, and what follows it. -/
theorem ConcretePath.split (h : ConcretePath v) (hr : afterPeer v = some rest) :
    ∃ p, v = '/'::p++ '/'::rest ∧ '/' ∉ p ∧ p ≠ ['*'] := by
  obtain ⟨p,rfl,hp⟩ := (afterPeer_eq_some _ _).mp hr
  refine ⟨p,rfl,hp,?_⟩
  rintro rfl
  exact h.starFree (by simp)

theorem canonicalize_absolute (p f : Str) : ∃ t, canonicalize p f = '/'::t := by
  have hn : neverMatch = '/'::neverMatch.tail := rfl
  unfold canonicalize
  cases huri : (parse p).toOption.filter fun uri => uri.peerId ≠ [] with
  | some uri =>
    dsimp only
    split_ifs with _ _ hp
    · exact ⟨_,hn⟩
    · exact ⟨_,hn⟩
    · exact ⟨_,rfl⟩
    · exact ⟨_,rfl⟩
  | none =>
    dsimp only
    split_ifs with _ _ h
    · exact ⟨_,hn⟩
    · exact ⟨_,hn⟩
    · obtain ⟨t,ht⟩ := (startsWith_iff _ _).mp h
      exact ⟨t,ht.symm⟩
    · exact ⟨_,rfl⟩
    · exact ⟨_,rfl⟩

theorem canonicalize_of_absolute (f : Str) : canonicalize ('/'::t) f = '/'::t := by
  have hp : parse ('/'::t) = .error (.invalidUri "expected 'entity://' prefix") := by
    have hs : stripPrefix ('/'::t) uriScheme = none := by
      unfold stripPrefix
      rw [if_neg]
      intro h
      obtain ⟨u,hu⟩ := (startsWith_iff _ _).mp h
      have hscheme : uriScheme = 'e'::"ntity://".toList := rfl
      rw [hscheme] at hu
      exact absurd (cons.inj hu).1 (by decide)
    simp [parse,hs]
  unfold canonicalize
  rw [hp]
  have h₁ : startsWith ('/'::t) "./".toList = false := rfl
  have h₂ : startsWith ('/'::t) "../".toList = false := rfl
  have h₃ : startsWith ('/'::t) "*/".toList = false := rfl
  have h₄ : startsWith ('/'::t) ['/'] = true := by simp
  rw [h₁,h₂,h₃,h₄]
  rfl

/-! Stems. -/

theorem stripWildcard_subtree (pre : Str) : stripWildcard (pre++ "/*".toList) = pre := by
  have hs : stripSuffix (pre++ "/*".toList) "/*".toList = some pre :=
    (stripSuffix_eq_some _ _ _).mpr rfl
  unfold stripWildcard
  rw [hs]

theorem stripWildcard_exact (hstar : r ≠ ['*']) (htree : ¬ "/*".toList <:+ r) :
    stripWildcard r = r := by
  have hs : stripSuffix r "/*".toList = none := by
    unfold stripSuffix
    rw [if_neg (by simpa using htree)]
  unfold stripWildcard
  rw [hs]
  exact if_neg hstar

/-- Without a peer wildcard, what a pattern matches starts with its stem. -/
theorem stem_prefix_of_matches (hw : peerWild r = false) (hr : r ≠ ['*'])
    (h : matchesPattern v r = true) : stripWildcard r <+: v := by
  have hnp : ¬ "/*/".toList <+: r := fun h' => by
    rw [peerWild,(startsWith_iff _ _).mpr h'] at hw
    cases hw
  cases shape r with
  | any => exact absurd rfl hr
  | peer t => exact absurd ⟨t,rfl⟩ hnp
  | subtree pre hpeer =>
    obtain ⟨_,x,rfl⟩ := (matches_subtree hpeer v).mp h
    rw [stripWildcard_subtree]
    exact ⟨'/'::x,rfl⟩
  | exact _ hstar hpeer htree =>
    rw [stripWildcard_exact hstar htree,((matches_exact hstar hpeer htree v).mp h).2]

theorem suffix_star_cons (h : "/*".toList <:+ '/':: '*':: '/'::t) :
    t = ['*'] ∨ "/*".toList <:+ t := by
  obtain ⟨u,hu⟩ := h
  match u, hu with
  | [], hu => simp at hu
  | [_], hu => simp at hu
  | [a,b], hu =>
    obtain ⟨_,_,ht⟩ : a = '/' ∧ b = '*' ∧ ['*'] = t := by simpa [eq_comm] using hu
    exact Or.inl ht.symm
  | _::_::_::u, hu =>
    simp only [cons_append,cons.injEq] at hu
    exact Or.inr ⟨u,hu.2.2.2⟩

/-- With one, what follows the peer segment does. -/
theorem stem_prefix_of_matches_peer (hrest : ¬ ['/'] <+: rest) (h : matchesPattern rest t = true) :
    stripWildcard ('/':: '*':: '/'::t) <+: '/':: '*':: '/'::rest := by
  cases shape t with
  | any =>
    have hs := stripWildcard_subtree ['/','*']
    exact hs ▸ ⟨'/'::rest,rfl⟩
  | peer t' =>
    obtain ⟨_,rest',hr,_⟩ := (matches_peer rest t').mp h
    obtain ⟨a,rfl,_⟩ := (afterPeer_eq_some _ _).mp hr
    exact absurd ⟨_,rfl⟩ hrest
  | subtree pre hpeer =>
    obtain ⟨_,x,rfl⟩ := (matches_subtree hpeer rest).mp h
    have hs := stripWildcard_subtree ('/':: '*':: '/'::pre)
    simp only [cons_append] at hs
    rw [hs]
    exact ⟨'/'::x,by simp⟩
  | exact _ hstar hpeer htree =>
    obtain ⟨_,rfl⟩ := (matches_exact hstar hpeer htree rest).mp h
    rw [stripWildcard_exact (by simp) fun hsuf => (suffix_star_cons hsuf).elim hstar htree]

/-- Two patterns of one kind that share a path are seen to overlap. -/
theorem overlap_of_same_kind (hv : ConcretePath v) (ha : a ≠ ['*']) (hb : b ≠ ['*'])
    (hk : peerWild a = peerWild b) (hva : matchesPattern v a = true)
    (hvb : matchesPattern v b = true) : patternsOverlap a b = true := by
  have hcomparable : ∀ {u : Str}, stripWildcard a <+: u → stripWildcard b <+: u →
      patternsOverlap a b = true := by
    intro u hau hbu
    simp only [patternsOverlap,Bool.or_eq_true,startsWith_iff]
    exact (List.prefix_or_prefix_of_prefix hbu hau)
  by_cases hw : peerWild a = true
  · obtain ⟨t,rfl⟩ := (startsWith_iff _ _).mp hw
    obtain ⟨t',rfl⟩ := (startsWith_iff _ _).mp (hk ▸ hw)
    obtain ⟨_,rest,hrest,hm⟩ := (matches_peer v t).mp hva
    obtain ⟨_,rest',hrest',hm'⟩ := (matches_peer v t').mp hvb
    obtain rfl : rest = rest' := Option.some.inj (hrest.symm.trans hrest')
    have hslash : ¬ ['/'] <+: rest := by
      rintro ⟨u,rfl⟩
      obtain ⟨p,rfl,_⟩ := (afterPeer_eq_some _ _).mp hrest
      exact NoEmptySegment.not_slash_slash ('/'::p) u hv.noEmpty
    exact hcomparable (stem_prefix_of_matches_peer hslash hm)
      (stem_prefix_of_matches_peer hslash hm')
  · have hwa : peerWild a = false := by simpa using hw
    have hwb : peerWild b = false := hk ▸ hwa
    exact hcomparable (stem_prefix_of_matches hwa ha hva) (stem_prefix_of_matches hwb hb hvb)

/-! A path that both match lies below the common part. -/

theorem matches_self_of_starFree (hs : '*' ∉ v) (hn : v ≠ neverMatch) :
    matchesPattern v v = true := by
  cases shape v with
  | any => simp at hs
  | peer t => simp at hs
  | subtree pre hpeer => simp at hs
  | exact _ hstar hpeer htree => exact (matches_exact hstar hpeer htree _).mpr ⟨hn,rfl⟩

theorem ConcretePath.ne_never (h : ConcretePath v) : v ≠ neverMatch := by
  rintro rfl
  exact absurd h.valid (by decide)

theorem firstSegment_append (hp : '/' ∉ p) (x : Str) : firstSegment (p++ '/'::x) = p := by
  have hs : splitOnce '/' (p++ '/'::x) = some (p,x) := (splitOnce_eq_some _ _ _ _).mpr ⟨rfl,hp⟩
  unfold firstSegment
  rw [hs]

/-- The last segment of a path below a subtree may be anything plain. -/
theorem ConcretePath.below (h : ConcretePath (pre++ '/'::x)) (hpre : pre ≠ [])
    {s : Str} (hstar : '*' ∉ s) (hslash : '/' ∉ s) : ConcretePath (pre++ '/'::s) := by
  obtain ⟨⟨t,ht,hpeer⟩,hno⟩ := (validateAbsolutePath_ok _).mp h.valid
  obtain ⟨c,pre,rfl⟩ := exists_cons_of_ne_nil hpre
  simp only [cons_append,cons.injEq] at ht
  obtain ⟨rfl,rfl⟩ := ht
  refine ⟨?_,(validateAbsolutePath_ok _).mpr ⟨⟨pre++ '/'::s,rfl,?_⟩,?_⟩⟩
  · intro hm
    have hstarPre := h.starFree
    simp only [cons_append,mem_cons,mem_append] at hm hstarPre
    tauto
  · -- the first segment ends before the change
    cases hsp : splitOnce '/' pre with
    | none =>
      have hp := (splitOnce_eq_none _ _).mp hsp
      rw [firstSegment_append hp] at hpeer ⊢
      exact hpeer
    | some ab =>
      obtain ⟨rfl,ha⟩ := (splitOnce_eq_some _ _ _ _).mp hsp
      simp only [append_assoc,cons_append] at hpeer ⊢
      rw [firstSegment_append ha] at hpeer ⊢
      exact hpeer
  · have hsplit : '/'::pre++ '/'::s = ('/'::pre++['/'])++s := by simp
    have hslashes : "//".toList = ['/','/'] := rfl
    rw [NoEmptySegment,hsplit,hslashes,double_append]
    rintro (hi | hi | ⟨_,hi⟩)
    · exact hno (hi.trans ⟨[],x,by simp⟩)
    · exact hslash (hi.subset (by simp))
    · exact hslash (mem_of_mem_head? hi)

theorem simplest_subtree (pre : Str) : simplest (pre++ "/*".toList) = pre++ "/a".toList := by
  have hs : stripSuffix (pre++ "/*".toList) "/*".toList = some pre :=
    (stripSuffix_eq_some _ _ _).mpr rfl
  unfold simplest
  rw [hs]

theorem simplest_exact (htree : ¬ "/*".toList <:+ r) : simplest r = r := by
  have hs : stripSuffix r "/*".toList = none := by
    unfold stripSuffix
    rw [if_neg (by simpa using htree)]
  unfold simplest
  rw [hs]

theorem simplest_concrete (hv : ConcretePath v) (hw : peerWild i = false)
    (hstem : stripWildcard i ≠ []) (h : matchesPattern v i = true) : ConcretePath (simplest i) := by
  cases shape i with
  | any => exact absurd rfl hstem
  | peer t => exact absurd hw (by simp [peerWild])
  | subtree pre hpeer =>
    obtain ⟨_,x,rfl⟩ := (matches_subtree hpeer v).mp h
    rw [stripWildcard_subtree] at hstem
    rw [simplest_subtree]
    exact hv.below hstem (s := ['a']) (by simp) (by simp)
  | exact _ hstar hpeer htree =>
    rw [simplest_exact htree,← ((matches_exact hstar hpeer htree v).mp h).2]
    exact hv

/-- Where a valid path leaves the stem of a subtree. -/
theorem stem_split (hp : '/' ∉ p) (hpre : pre ≠ []) (h : '/'::p++ '/'::rest = pre++ '/'::x) :
    (pre = '/'::p ∧ rest = x) ∨ ∃ m, pre = '/'::p++ '/'::m ∧ rest = m++ '/'::x := by
  obtain ⟨c,pre,rfl⟩ := exists_cons_of_ne_nil hpre
  simp only [cons_append,cons.injEq] at h
  obtain ⟨rfl,h⟩ := h
  rcases append_eq_append_iff.mp h with ⟨u,hu,ht⟩ | ⟨u,hu,ht⟩
  · cases u with
    | nil => exact Or.inl ⟨by simpa using hu,by simpa using ht⟩
    | cons d u =>
      simp only [cons_append,cons.injEq] at ht
      obtain ⟨rfl,rfl⟩ := ht
      exact Or.inr ⟨u,by rw [hu]; simp,rfl⟩
  · cases u with
    | nil => exact Or.inl ⟨by simpa using hu.symm,by simpa using ht.symm⟩
    | cons d u =>
      simp only [cons_append,cons.injEq] at ht
      obtain ⟨rfl,_⟩ := ht
      exact absurd (by rw [hu]; simp) hp

theorem peerWild_false_of_starFree (hp : '*' ∉ p) (hne : p ≠ []) :
    peerWild ('/'::p++x) = false := by
  obtain ⟨c,p,rfl⟩ := exists_cons_of_ne_nil hne
  apply Bool.eq_false_iff.mpr
  intro h
  obtain ⟨u,hu⟩ := (startsWith_iff _ _).mp h
  have hc : '*' = c := (cons.inj (cons.inj hu).2).1
  exact hp (by rw [hc]; exact mem_cons_self)

theorem slash_star_ne_never (m : Str) : m++ "/*".toList ≠ neverMatch ∧ ['*'] ≠ neverMatch :=
  ⟨subtree_ne_neverMatch m,by decide⟩

theorem stem_nil (h : stripWildcard r = []) : r = [] ∨ r = ['*'] ∨ r = "/*".toList := by
  unfold stripWildcard at h
  cases hs : stripSuffix r "/*".toList with
  | some pre =>
    simp only [hs] at h
    have hr := (stripSuffix_eq_some _ _ _).mp hs
    rw [h] at hr
    exact Or.inr (Or.inr hr)
  | none =>
    simp only [hs] at h
    split_ifs at h with hstar
    · exact Or.inr (Or.inl hstar)
    · exact Or.inl h

theorem stem_ne_nil_of_starFree (hp : '*' ∉ p) (hne : p ≠ []) : stripWildcard ('/'::p++x) ≠ [] := by
  obtain ⟨c,p,rfl⟩ := exists_cons_of_ne_nil hne
  intro h
  rcases stem_nil h with h | h | h
  · simp at h
  · simp at h
  · have hc : c = '*' := (cons.inj (cons.inj h).2).1
    exact hp (by rw [hc]; exact mem_cons_self)

/-- A subtree of one peer below a wildcard, seen from its peer segment. -/
theorem subtree_matches_peer {m : Str} (hp : '/' ∉ p)
    (h : matchesPattern (m++ "/*".toList) t = true) :
    matchesPattern ('/'::p++ '/'::m++ "/*".toList) ('/':: '*':: '/'::t) = true := by
  refine (matches_peer _ t).mpr ⟨?_,m++ "/*".toList,?_,h⟩
  · exact subtree_ne_neverMatch _
  · exact (afterPeer_eq_some _ _).mpr ⟨p,by simp,hp⟩

/-- Read for the peer of a path, a wildcard still matches the path. -/
theorem matches_instance (hv : ConcretePath ('/'::p++ '/'::rest)) (hpne : p ≠ [])
    (hm : matchesPattern rest t = true) :
    matchesPattern ('/'::p++ '/'::rest) ('/'::p++ '/'::t) = true := by
  have hpstar : '*' ∉ p := fun h => hv.starFree (by simp [h])
  have hnp : ∀ x, ¬ "/*/".toList <+: '/'::p++x := by
    intro x h
    have hw := peerWild_false_of_starFree (x := x) hpstar hpne
    rw [peerWild,(startsWith_iff _ _).mpr h] at hw
    cases hw
  cases shape t with
  | any =>
    have hh := (matches_subtree (hnp "/*".toList) ('/'::p++ '/'::rest)).mpr ⟨hv.ne_never,rest,rfl⟩
    exact hh
  | peer t' =>
    obtain ⟨_,rest',hr,_⟩ := (matches_peer rest t').mp hm
    obtain ⟨a,rfl,_⟩ := (afterPeer_eq_some _ _).mp hr
    exact absurd hv.noEmpty (NoEmptySegment.not_slash_slash ('/'::p) _)
  | subtree pt hpeer =>
    obtain ⟨_,y,rfl⟩ := (matches_subtree hpeer rest).mp hm
    have hnp' : ¬ "/*/".toList <+: ('/'::p++ '/'::pt)++ "/*".toList := by
      simpa using hnp ('/'::pt++ "/*".toList)
    have hh := (matches_subtree hnp' ('/'::p++ '/'::(pt++ '/'::y))).mpr
      ⟨hv.ne_never,y,by simp⟩
    simpa using hh
  | exact _ hstar hpeer htree =>
    obtain ⟨_,rfl⟩ := (matches_exact hstar hpeer htree rest).mp hm
    exact matches_self_of_starFree hv.starFree hv.ne_never

/-- A subtree of one peer and a wildcard that share a path: the subtree lies below the
wildcard, or the wildcard read for the peer lies below the subtree. -/
theorem subtree_or_instance (hv : ConcretePath ('/'::p++ '/'::rest))
    (hp : '/' ∉ p) (hpre : pre ≠ []) (hpeer : ¬ "/*/".toList <+: pre++ "/*".toList)
    (hm : matchesPattern rest t = true)
    (hvn : matchesPattern ('/'::p++ '/'::rest) (pre++ "/*".toList) = true) :
    matchesPattern (pre++ "/*".toList) ('/':: '*':: '/'::t) = true ∨
      matchesPattern ('/'::p++ '/'::t) (pre++ "/*".toList) = true := by
  obtain ⟨_,x,hx⟩ := (matches_subtree hpeer _).mp hvn
  cases shape t with
  | any =>
    refine Or.inl ((matches_peer _ _).mpr ⟨subtree_ne_neverMatch _,?_⟩)
    rcases stem_split hp hpre hx with ⟨rfl,_⟩ | ⟨m,rfl,_⟩
    · exact ⟨['*'],(afterPeer_eq_some _ _).mpr ⟨p,rfl,hp⟩,
        (matches_any _).mpr (slash_star_ne_never []).2⟩
    · exact ⟨m++ "/*".toList,(afterPeer_eq_some _ _).mpr ⟨p,by simp,hp⟩,
        (matches_any _).mpr (slash_star_ne_never m).1⟩
  | peer t' =>
    obtain ⟨_,rest',hr,_⟩ := (matches_peer rest t').mp hm
    obtain ⟨a,rfl,_⟩ := (afterPeer_eq_some _ _).mp hr
    exact absurd hv.noEmpty (NoEmptySegment.not_slash_slash ('/'::p) _)
  | subtree pt hpeer' =>
    obtain ⟨_,y,rfl⟩ := (matches_subtree hpeer' rest).mp hm
    have hne := subtree_ne_neverMatch ('/'::p++ '/'::pt)
    rcases stem_split hp hpre hx with ⟨rfl,_⟩ | ⟨m,rfl,hrest⟩
    · refine Or.inr ((matches_subtree hpeer _).mpr ⟨?_,pt++ "/*".toList,by simp⟩)
      simpa using hne
    · -- two stems of one path: one continues the other
      have hbelow : ∀ c, m = pt++c → (c = [] ∨ ∃ c', c = '/'::c') →
          matchesPattern ('/'::p++ '/'::m++ "/*".toList)
            ('/':: '*':: '/'::(pt++ "/*".toList)) = true := by
        intro c hc hcc
        refine subtree_matches_peer hp ((matches_subtree hpeer' _).mpr
          ⟨subtree_ne_neverMatch _,?_⟩)
        rcases hcc with rfl | ⟨c',rfl⟩
        · exact ⟨['*'],by rw [hc]; simp⟩
        · exact ⟨c'++ "/*".toList,by rw [hc]; simp⟩
      rcases append_eq_append_iff.mp hrest with ⟨c,hc,hy⟩ | ⟨c,hc,hy⟩
      · refine Or.inl (hbelow c hc ?_)
        cases c with
        | nil => exact Or.inl rfl
        | cons d c =>
          simp only [cons_append,cons.injEq] at hy
          exact Or.inr ⟨c,by rw [← hy.1]⟩
      · cases c with
        | nil => exact Or.inl (hbelow [] (by rw [hc]; simp) (Or.inl rfl))
        | cons d c =>
          simp only [cons_append,cons.injEq] at hy
          refine Or.inr ((matches_subtree hpeer _).mpr ⟨?_,c++ "/*".toList,?_⟩)
          · simpa using hne
          · rw [hc,← hy.1]
            simp
  | exact _ hstar hpeer' htree =>
    obtain ⟨_,rfl⟩ := (matches_exact hstar hpeer' htree rest).mp hm
    exact Or.inr hvn

theorem meetPeer_of_matches {n : Str} (hv : ConcretePath v) (hn : peerWild n = false)
    (hstar : n ≠ ['*']) (hstem : stripWildcard n ≠ [])
    (hvw : matchesPattern v ('/':: '*':: '/'::t) = true) (hvn : matchesPattern v n = true) :
    ∃ i, meetPeer ('/':: '*':: '/'::t) n = some i ∧ matchesPattern v i = true ∧
      ConcretePath (simplest i) := by
  unfold meetPeer
  by_cases hnw : matchesPattern n ('/':: '*':: '/'::t) = true
  · exact ⟨n,if_pos hnw,hvn,simplest_concrete hv hn hstem hvn⟩
  · rw [if_neg hnw]
    obtain ⟨_,rest,hrest,hm⟩ := (matches_peer v t).mp hvw
    obtain ⟨p,rfl,hp,_⟩ := hv.split hrest
    have hpstar : '*' ∉ p := fun h => hv.starFree (by simp [h])
    have hpne : p ≠ [] := by
      rintro rfl
      exact NoEmptySegment.not_slash_slash [] rest hv.noEmpty
    have hslash : ¬ ['/'] <+: rest := by
      rintro ⟨u,rfl⟩
      exact NoEmptySegment.not_slash_slash ('/'::p) u hv.noEmpty
    -- it is enough that the wildcard read for this peer lies below the other pattern
    have hwp : firstSegment (n.drop 1) = p → matchesPattern ('/'::p++ '/'::t) n = true →
        matchesPattern ('/'::p++ '/'::rest) ('/'::p++ '/'::t) = true →
        ∃ i, (let wp := '/'::firstSegment (n.drop 1)++('/':: '*':: '/'::t).drop 2
          if matchesPattern wp n then some wp else none) = some i ∧
          matchesPattern ('/'::p++ '/'::rest) i = true ∧ ConcretePath (simplest i) := by
      intro hfirst hbelow hmatch
      refine ⟨'/'::p++ '/'::t,?_,hmatch,?_⟩
      · simp only [hfirst,drop_succ_cons,drop_zero]
        exact if_pos hbelow
      · exact simplest_concrete hv (peerWild_false_of_starFree hpstar hpne)
          (stem_ne_nil_of_starFree hpstar hpne) hmatch
    cases shape n with
    | any => exact absurd rfl hstar
    | peer t' => exact absurd hn (by simp [peerWild])
    | exact _ hstar' hpeer htree =>
      rw [((matches_exact hstar' hpeer htree _).mp hvn).2] at hvw
      exact absurd hvw hnw
    | subtree pre hpeer =>
      rw [stripWildcard_subtree] at hstem
      obtain ⟨_,x,hx⟩ := (matches_subtree hpeer _).mp hvn
      have hfirst : firstSegment ((pre++ "/*".toList).drop 1) = p := by
        rcases stem_split hp hstem hx with ⟨rfl,_⟩ | ⟨m,rfl,_⟩
        · exact firstSegment_append hp ['*']
        · have hh := firstSegment_append hp (m++ "/*".toList)
          simpa using hh
      rcases subtree_or_instance hv hp hstem hpeer hm hvn with hbelow | hbelow
      · exact absurd hbelow hnw
      · exact hwp hfirst hbelow (matches_instance hv hpne hm)

/-! The common part lies below both patterns, and some path of it is free. -/

theorem simplest_keeps_slashes (a b : Str) : "//".toList <:+: simplest (a++ '/':: '/'::b) := by
  unfold simplest
  cases hs : stripSuffix (a++ '/':: '/'::b) "/*".toList with
  | none => exact ⟨a,b,by simp⟩
  | some pre =>
    have he : (a++['/'])++ '/'::b = pre++ "/*".toList := by
      simpa using (stripSuffix_eq_some _ _ _).mp hs
    have hpre : ∃ c, pre = a++ '/'::c ∧ (c = [] ∨ ∃ c', c = '/'::c') := by
      rcases append_eq_append_iff.mp he with ⟨c,hc,ht⟩ | ⟨c,hc,ht⟩
      · refine ⟨c,by simpa using hc,?_⟩
        cases c with
        | nil => exact Or.inl rfl
        | cons d c =>
          simp only [cons_append,cons.injEq] at ht
          exact Or.inr ⟨c,by rw [← ht.1]⟩
      · obtain ⟨rfl,_⟩ := star_tail_split ht
        exact ⟨[],by simpa using hc.symm,Or.inl rfl⟩
    obtain ⟨c,rfl,rfl | ⟨c',rfl⟩⟩ := hpre
    · exact ⟨a,['a'],by simp⟩
    · exact ⟨a,c'++ "/a".toList,by simp⟩

theorem star_mem_simplest_of_peerWild (h : peerWild i = true) : '*' ∈ simplest i := by
  obtain ⟨t,rfl⟩ := (startsWith_iff _ _).mp h
  unfold simplest
  cases hs : stripSuffix ("/*/".toList++t) "/*".toList with
  | none => simp
  | some pre =>
    have he := (stripSuffix_eq_some _ _ _).mp hs
    match pre, he with
    | [], he => simp at he
    | [_], he => simp at he
    | _::c::pre, he =>
      have hc : '*' = c := (cons.inj (cons.inj he).2).1
      simp [← hc]

theorem firstSegment_noSlash (s : Str) : '/' ∉ firstSegment s := by
  unfold firstSegment
  cases hs : splitOnce '/' s with
  | none => exact (splitOnce_eq_none _ _).mp hs
  | some ab => exact ((splitOnce_eq_some _ _ _ _).mp hs).2

theorem matches_self_of_plain (hw : peerWild r = false) (hn : r ≠ neverMatch) :
    matchesPattern r r = true := by
  cases shape r with
  | any => exact (matches_any _).mpr hn
  | peer t => exact absurd hw (by simp [peerWild])
  | subtree pre hpeer => exact (matches_subtree hpeer _).mpr ⟨hn,['*'],rfl⟩
  | exact _ hstar hpeer htree => exact (matches_exact hstar hpeer htree _).mpr ⟨hn,rfl⟩

theorem meetPeer_below {n : Str} (hn : peerWild n = false)
    (h : meetPeer ('/':: '*':: '/'::t) n = some i) (hi : ConcretePath (simplest i)) :
    matchesPattern i ('/':: '*':: '/'::t) = true ∧ matchesPattern i n = true := by
  unfold meetPeer at h
  split_ifs at h with hnw
  · obtain rfl := Option.some.inj h
    exact ⟨hnw,matches_self_of_plain hn (ne_never_of_matches hnw)⟩
  · simp only [drop_succ_cons,drop_zero] at h
    split_ifs at h with hbelow
    obtain rfl := Option.some.inj h
    refine ⟨(matches_peer _ t).mpr ⟨ne_never_of_matches hbelow,t,
      (afterPeer_eq_some _ _).mpr ⟨_,rfl,firstSegment_noSlash _⟩,?_⟩,hbelow⟩
    -- a remainder that starts with a slash would make an empty segment
    have hslash : ∀ u, t ≠ '/'::u := by
      rintro u rfl
      exact hi.noEmpty (simplest_keeps_slashes ('/'::firstSegment (n.drop 1)) u)
    have hw : peerWild t = false := by
      apply Bool.eq_false_iff.mpr
      intro h
      obtain ⟨u,hu⟩ := (startsWith_iff _ _).mp h
      exact hslash _ hu.symm
    exact matches_self_of_plain hw (hslash _)

/-- A pattern shorter than a fresh last segment cannot tell it from a wildcard. -/
theorem matches_of_fresh_segment {n : ℕ} (hn : r.length < n)
    (h : matchesPattern (replicate n 'a') r = true) : matchesPattern ['*'] r = true := by
  have hslash : '/' ∉ replicate n 'a' := by simp
  cases shape r with
  | any => exact (matches_any _).mpr (slash_star_ne_never []).2
  | peer t =>
    obtain ⟨_,rest,hr,_⟩ := (matches_peer _ t).mp h
    obtain ⟨a,ha,_⟩ := (afterPeer_eq_some _ _).mp hr
    exact absurd (by rw [ha]; simp) hslash
  | subtree pre hpeer =>
    obtain ⟨_,x,hx⟩ := (matches_subtree hpeer _).mp h
    exact absurd (by rw [hx]; simp) hslash
  | exact _ hstar hpeer htree =>
    have he := congrArg length ((matches_exact hstar hpeer htree _).mp h).2
    rw [length_replicate] at he
    omega

theorem matches_of_fresh {n : ℕ} (hn : r.length < n)
    (h : matchesPattern (pre++ '/'::replicate n 'a') r = true) :
    matchesPattern (pre++ "/*".toList) r = true := by
  have hslash : '/' ∉ replicate n 'a' := by simp
  have hnever := subtree_ne_neverMatch pre
  induction hlen : r.length using Nat.strong_induction_on generalizing pre r with
  | _ k ih =>
    cases shape r with
    | any => exact (matches_any _).mpr hnever
    | peer t =>
      obtain ⟨_,rest,hr,hm⟩ := (matches_peer _ t).mp h
      obtain ⟨p,hp,hpslash⟩ := (afterPeer_eq_some _ _).mp hr
      have hpre : pre ≠ [] := by
        rintro rfl
        have hh : replicate n 'a' = p++ '/'::rest := by simpa using hp
        exact hslash (by rw [hh]; simp)
      simp only [length_cons] at hlen hn
      refine (matches_peer _ t).mpr ⟨hnever,?_⟩
      rcases stem_split hpslash hpre hp.symm with ⟨rfl,rfl⟩ | ⟨m,rfl,rfl⟩
      · exact ⟨['*'],(afterPeer_eq_some _ _).mpr ⟨p,rfl,hpslash⟩,
          matches_of_fresh_segment (by omega) hm⟩
      · exact ⟨m++ "/*".toList,(afterPeer_eq_some _ _).mpr ⟨p,by simp,hpslash⟩,
          ih t.length (by omega) (by omega) hm (subtree_ne_neverMatch m) rfl⟩
    | subtree pre' hpeer =>
      obtain ⟨_,x,hx⟩ := (matches_subtree hpeer _).mp h
      refine (matches_subtree hpeer _).mpr ⟨hnever,?_⟩
      rcases append_eq_append_iff.mp hx with ⟨c,hc,ht⟩ | ⟨c,hc,ht⟩
      · cases c with
        | nil => exact ⟨['*'],by rw [hc]; simp⟩
        | cons d c =>
          simp only [cons_append,cons.injEq] at ht
          exact absurd (by rw [ht.2]; simp) hslash
      · cases c with
        | nil => exact ⟨['*'],by rw [hc]; simp⟩
        | cons d c =>
          simp only [cons_append,cons.injEq] at ht
          exact ⟨c++ "/*".toList,by rw [hc,← ht.1]; simp⟩
    | exact _ hstar hpeer htree =>
      have he := congrArg length ((matches_exact hstar hpeer htree _).mp h).2
      simp only [length_append,length_cons,length_replicate] at he
      omega

/-- If no exclude lies above a pattern with a path, some path of it is left. -/
theorem exists_path_outside {excludes : List Str} (hi : ConcretePath (simplest i))
    (hfree : isCoveredBy i excludes l = false) : ∃ v, ConcretePath v ∧ matchesPattern v i = true ∧
      ∀ e ∈ excludes, matchesPattern v (canonicalize e l) = false := by
  have hnot : ∀ e ∈ excludes, matchesPattern i (canonicalize e l) = false := by
    intro e he
    apply Bool.eq_false_iff.mpr
    intro h
    have hc : isCoveredBy i excludes l = true := any_eq_true.mpr ⟨e,he,h⟩
    rw [hfree] at hc
    cases hc
  have hw : peerWild i = false :=
    Bool.eq_false_iff.mpr fun h => hi.starFree (star_mem_simplest_of_peerWild h)
  cases shape i with
  | any => exact absurd hi.starFree (by decide)
  | peer t => exact absurd hw (by simp [peerWild])
  | subtree pre hpeer =>
    rw [simplest_subtree] at hi
    have hpre : pre ≠ [] := by
      rintro rfl
      exact absurd hi.valid (by decide)
    let n := (excludes.map fun e => (canonicalize e l).length).sum+1
    have hlen : ∀ e ∈ excludes, (canonicalize e l).length < n := by
      intro e he
      have hle := single_le_sum (l := excludes.map fun e => (canonicalize e l).length)
        (by simp) _ (mem_map_of_mem he)
      exact Nat.lt_succ_of_le hle
    have hv : ConcretePath (pre++ '/'::replicate n 'a') :=
      ConcretePath.below (x := ['a']) hi hpre (by simp) (by simp)
    refine ⟨_,hv,(matches_subtree hpeer _).mpr ⟨hv.ne_never,_,rfl⟩,?_⟩
    intro e he
    apply Bool.eq_false_iff.mpr
    intro h
    have hm := matches_of_fresh (hlen e he) h
    rw [hnot e he] at hm
    cases hm
  | exact _ hstar hpeer htree =>
    rw [simplest_exact htree] at hi
    exact ⟨i,hi,matches_self_of_starFree hi.starFree hi.ne_never,hnot⟩

theorem mixedMeet_of_matches (hv : ConcretePath v) (ha : a ≠ ['*']) (hb : b ≠ ['*'])
    (hva : matchesPattern v a = true) (hvb : matchesPattern v b = true)
    (hdisjoint : patternsOverlap a b = false) :
    ∃ i, mixedMeet a b = some i ∧ matchesPattern v i = true ∧ ConcretePath (simplest i) := by
  have hstems : stripWildcard a ≠ [] ∧ stripWildcard b ≠ [] := by
    constructor
    · intro h
      simp [patternsOverlap,h,startsWith] at hdisjoint
    · intro h
      simp [patternsOverlap,h,startsWith] at hdisjoint
  cases hwa : peerWild a with
  | true =>
    cases hwb : peerWild b with
    | true =>
      rw [overlap_of_same_kind hv ha hb (hwa.trans hwb.symm) hva hvb] at hdisjoint
      cases hdisjoint
    | false =>
      obtain ⟨t,rfl⟩ := (startsWith_iff _ _).mp hwa
      obtain ⟨i,hi,hrest⟩ := meetPeer_of_matches (t := t) hv hwb hb hstems.2 hva hvb
      refine ⟨i,?_,hrest⟩
      rw [mixedMeet,hwa,hwb]
      exact hi
  | false =>
    cases hwb : peerWild b with
    | true =>
      obtain ⟨t,rfl⟩ := (startsWith_iff _ _).mp hwb
      obtain ⟨i,hi,hrest⟩ := meetPeer_of_matches (t := t) hv hwa ha hstems.1 hvb hva
      refine ⟨i,?_,hrest⟩
      rw [mixedMeet,hwa,hwb]
      exact hi
    | false =>
      rw [overlap_of_same_kind hv ha hb (hwa.trans hwb.symm) hva hvb] at hdisjoint
      cases hdisjoint

theorem mixedMeet_below (h : mixedMeet a b = some i)
    (hi : ConcretePath (simplest i)) : matchesPattern i a = true ∧ matchesPattern i b = true := by
  unfold mixedMeet at h
  cases hwa : peerWild a with
  | true =>
    cases hwb : peerWild b with
    | true => simp [hwa,hwb] at h
    | false =>
      simp only [hwa,hwb] at h
      obtain ⟨t,rfl⟩ := (startsWith_iff _ _).mp hwa
      exact meetPeer_below (t := t) hwb h hi
  | false =>
    cases hwb : peerWild b with
    | true =>
      simp only [hwa,hwb] at h
      obtain ⟨t,rfl⟩ := (startsWith_iff _ _).mp hwb
      exact (meetPeer_below (t := t) hwa h hi).symm
    | false => simp [hwa,hwb] at h

theorem canonicalize_ne_star (p f : Str) : canonicalize p f ≠ ['*'] := by
  obtain ⟨t,ht⟩ := canonicalize_absolute p f
  rw [ht]
  intro h
  exact absurd (cons.inj h).1 (by decide)

theorem ConcretePath.canonicalize (h : ConcretePath v) (f : Str) : canonicalize v f = v := by
  obtain ⟨t,rfl,-⟩ := ((validateAbsolutePath_ok v).mp h.valid).1
  exact canonicalize_of_absolute f

theorem matches_of_covered {patterns : List Str} (hv : NoEmptySegment v)
    (hvi : matchesPattern v i = true) (h : isCoveredBy i patterns l = true) :
    ∃ p ∈ patterns, matchesPattern v (EntityCore.canonicalize p l) = true := by
  obtain ⟨p,hp,hip⟩ := any_eq_true.mp h
  exact ⟨p,hp,matches_trans hv hvi hip⟩

/-- Every path of a pattern subject that passed the exclude rule is admitted, unless a
grant exclude meets the subject across the peer wildcard. -/
theorem instances_admitted_iff {ct : Str} {scope : PathScope} {callerExclude : List Str}
    (hct : ct ≠ ['*']) (hinc : isCoveredBy ct scope.includes g = true)
    (hsurvives : patternSubjectSurvivesGrantExcludes ct scope.excludes callerExclude l g = true) :
    (∀ v, ConcretePath v → matchesPattern v ct = true →
      (∀ ce ∈ callerExclude, matchesPattern v (canonicalize ce l) = false) →
      Admits (Hits g) scope.includes scope.excludes v) ↔
    noMixedMeet ct scope.excludes callerExclude l g = true := by
  constructor
  · intro h
    simp only [noMixedMeet,all_eq_true,Option.all_eq_true,Bool.or_eq_true,Bool.not_eq_true']
    intro ge hge i hi
    by_contra hno
    rw [not_or,Bool.not_eq_false,Bool.not_eq_true] at hno
    have hpath := (hasPath_iff i).mp hno.1
    obtain ⟨v,hv,hvi,hout⟩ := exists_path_outside hpath hno.2
    have hbelow := mixedMeet_below hi hpath
    have hvt := matches_trans hv.noEmpty hvi hbelow.1
    exact (h v hv hvt hout).2 ge hge (matches_trans hv.noEmpty hvi hbelow.2)
  · intro h v hv hvt hout
    refine ⟨matches_of_covered hv.noEmpty hvt hinc,?_⟩
    intro ge hge hhit
    have hge' : matchesPattern v (canonicalize ge g) = true := hhit
    -- a pattern above v that the caller excludes would exclude v
    have huncovered : ∀ i, matchesPattern v i = true →
        isCoveredBy i callerExclude l = false := by
      intro i hvi
      apply Bool.eq_false_iff.mpr
      intro hc
      obtain ⟨ce,hce,hm⟩ := matches_of_covered hv.noEmpty hvi hc
      rw [hout ce hce] at hm
      cases hm
    have hrule := all_eq_true.mp hsurvives ge hge
    simp only [Bool.and_eq_true,Bool.or_eq_true,Bool.not_eq_true',huncovered _ hge',
      Bool.false_eq_true,or_false] at hrule
    obtain ⟨i,hi,hvi,hpath⟩ :=
      mixedMeet_of_matches hv hct (canonicalize_ne_star ge g) hvt hge' hrule.2
    simp only [noMixedMeet,all_eq_true,Option.all_eq_true] at h
    have hcond := h ge hge i hi
    rw [(hasPath_iff i).mpr hpath,huncovered i hvi] at hcond
    cases hcond

theorem checkResourceScope_pattern {rt : ResourceTarget} {scope : PathScope} {T : Str}
    (hT : T ∈ effectiveTargets (some rt) l) (hp : isPattern (canonicalize T l) = true)
    (h : checkResourceScope rt scope l g = true) :
    isCoveredBy (canonicalize T l) scope.includes g = true ∧
    patternSubjectSurvivesGrantExcludes (canonicalize T l) scope.excludes rt.excludes l g = true := by
  have hone := all_eq_true.mp h T hT
  simp only [hp,Bool.true_or,Bool.true_and,if_true,Bool.and_eq_true] at hone
  exact hone

theorem survives_ne_never {ct : Str} {grantExclude callerExclude : List Str}
    (h : patternSubjectSurvivesGrantExcludes ct grantExclude callerExclude l g = true) :
    ∀ ge ∈ grantExclude, canonicalize ge g ≠ neverMatch := by
  intro ge hge
  have hone := all_eq_true.mp h ge hge
  simp only [Bool.and_eq_true,decide_eq_true_eq] at hone
  exact hone.1

/-- A request for one path the caller does not exclude. -/
theorem checkResourceScope_path {callerExclude : List Str} {scope : PathScope} (hv : ConcretePath v)
    (hout : ∀ ce ∈ callerExclude, matchesPattern v (canonicalize ce l) = false) :
    checkResourceScope ⟨[v],callerExclude⟩ scope l g = true ↔
      Admits (Hits g) scope.includes scope.excludes v ∧
        ∀ e ∈ scope.excludes, canonicalize e g ≠ neverMatch := by
  have hfree : isCoveredBy v callerExclude l = false := by
    simpa [isCoveredBy] using hout
  have heff : effectiveTargets (some ⟨[v],callerExclude⟩) l = [v] := by
    simp [effectiveTargets,hv.canonicalize l,hfree]
  have hplain : isPattern v = false :=
    Bool.eq_false_iff.mpr fun h => hv.starFree ((isPattern_iff v).mp h)
  rw [checkResourceScope_concrete]
  · simp [heff,hv.canonicalize l,hv.valid]
  · simp [heff,hv.canonicalize l,hplain]

theorem pathScopeAdmitsSubject_path {scope : PathScope} (hv : ConcretePath v) :
    pathScopeAdmitsSubject v scope l g = true ↔ Admits (Hits g) scope.includes scope.excludes v ∧
        ∀ e ∈ scope.excludes, canonicalize e g ≠ neverMatch := by
  have hplain : isPattern v = false :=
    Bool.eq_false_iff.mpr fun h => hv.starFree ((isPattern_iff v).mp h)
  rw [pathScopeAdmitsSubject,hplain,Bool.not_false,if_pos rfl,matchesScope_iff,hv.canonicalize g]

/-- An accepted pattern target stands for accepted paths exactly when no grant exclude
meets it across the peer wildcard; and the same for a pattern subject on its own. -/
theorem pattern_instances_accepted_iff (rt : ResourceTarget) (scope : PathScope) (l g T : Str)
    (hT : isPattern (canonicalize T l) = true) :
    (T ∈ effectiveTargets (some rt) l → checkResourceScope rt scope l g = true →
      ((∀ v, ConcretePath v → matchesPattern v (canonicalize T l) = true →
          (∀ ce ∈ rt.excludes, matchesPattern v (canonicalize ce l) = false) →
          checkResourceScope ⟨[v],rt.excludes⟩ scope l g = true) ↔
        noMixedMeet (canonicalize T l) scope.excludes rt.excludes l g = true)) ∧
    (pathScopeAdmitsSubject (canonicalize T l) scope l g = true →
      ((∀ v, ConcretePath v → matchesPattern v (canonicalize T l) = true →
          pathScopeAdmitsSubject v scope l g = true) ↔
        noMixedMeet (canonicalize T l) scope.excludes [] l g = true)) := by
  constructor
  · intro hmem hok
    have hparts := checkResourceScope_pattern hmem hT hok
    have hnever := survives_ne_never hparts.2
    rw [← instances_admitted_iff (canonicalize_ne_star T l) hparts.1 hparts.2]
    constructor
    · intro h v hv hvt hout
      exact ((checkResourceScope_path hv hout).mp (h v hv hvt hout)).1
    · intro h v hv hvt hout
      exact (checkResourceScope_path hv hout).mpr ⟨h v hv hvt hout,hnever⟩
  · intro hok
    rw [pathScopeAdmitsSubject,hT,Bool.not_true,if_neg (by decide),Bool.and_eq_true] at hok
    have hnever := survives_ne_never hok.2
    rw [← instances_admitted_iff (canonicalize_ne_star T l) hok.1 hok.2]
    constructor
    · intro h v hv hvt _
      exact ((pathScopeAdmitsSubject_path hv).mp (h v hv hvt)).1
    · intro h v hv hvt
      exact (pathScopeAdmitsSubject_path hv).mpr ⟨h v hv hvt (by simp),hnever⟩

namespace PatternSample

def peer : Str := List.replicate 46 'A'

def target : Str := '/'::peer++ "/app/*".toList

def secret : Str := '/'::peer++ "/app/secret".toList

/-- All peers' trees less the secret of each. -/
def scope : PathScope := ⟨["/*/*".toList],["/*/app/secret".toList]⟩

end PatternSample

open PatternSample

theorem pattern_instances_accepted_iff_sample : isPattern (canonicalize target peer) = true ∧
    target ∈ effectiveTargets (some ⟨[target],["app/secret".toList]⟩) peer ∧
    checkResourceScope ⟨[target],["app/secret".toList]⟩ scope peer peer = true ∧
    (∀ v, ConcretePath v → matchesPattern v (canonicalize target peer) = true →
      (∀ ce ∈ ["app/secret".toList], matchesPattern v (canonicalize ce peer) = false) →
      checkResourceScope ⟨[v],["app/secret".toList]⟩ scope peer peer = true) ∧
    pathScopeAdmitsSubject (canonicalize target peer) ⟨["/*/*".toList],["sys/x".toList]⟩ peer peer
      = true ∧
    ∀ v, ConcretePath v → matchesPattern v (canonicalize target peer) = true →
      pathScopeAdmitsSubject v ⟨["/*/*".toList],["sys/x".toList]⟩ peer peer = true := by
  have hT : isPattern (canonicalize target peer) = true := by decide +kernel
  have hmem : target ∈ effectiveTargets (some ⟨[target],["app/secret".toList]⟩) peer := by
    decide +kernel
  have hok : checkResourceScope ⟨[target],["app/secret".toList]⟩ scope peer peer = true := by
    decide +kernel
  have hsub : pathScopeAdmitsSubject (canonicalize target peer)
      ⟨["/*/*".toList],["sys/x".toList]⟩ peer peer = true := by decide +kernel
  exact ⟨hT,hmem,hok,
    ((pattern_instances_accepted_iff _ _ _ _ _ hT).1 hmem hok).mpr (by decide +kernel),hsub,
    ((pattern_instances_accepted_iff ⟨[],[]⟩ _ _ _ _ hT).2 hsub).mpr (by decide +kernel)⟩

/-- The pattern target is accepted and the secret below it is refused. -/
theorem pattern_target_covers_excluded : target ∈ effectiveTargets (some ⟨[target],[]⟩) peer ∧
    isPattern (canonicalize target peer) = true ∧
    checkResourceScope ⟨[target],[]⟩ scope peer peer = true ∧
    pathScopeAdmitsSubject (canonicalize target peer) scope peer peer = true ∧
    ('*' ∉ secret ∧ (EntityUri.validateAbsolutePath secret).isOk = true) ∧
    matchesPattern secret (canonicalize target peer) = true ∧
    checkResourceScope ⟨[secret],[]⟩ scope peer peer = false ∧
    pathScopeAdmitsSubject secret scope peer peer = false := by
  decide +kernel

end EntityCore
