import EntityCore.HashDisplay
import EntityCore.HashWire
import EntityCore.PatternTarget
import EntityCore.RoleEffects

/-! One identity, several segments. An exclusion is looked up by the text of the segment, and
the grantee of a role is what the segment is read as; the reader takes capital digits, signs
and a padded format code as well. -/
namespace EntityCore

open Ecf HexText Outcome Strings List

/-! What a segment is read as. -/

variable {segment : Str} {bytes : Bytes}

theorem mapM_pairs (heven : byteLength segment%2 = 0) :
    (pairs segment).mapM hexU8 = some bytes ↔ ReadsHex segment bytes := by
  induction segment using pairs.induct generalizing bytes with
  | case1 =>
    simp only [pairs,mapM_nil]
    constructor
    · intro h
      obtain rfl := Option.some.inj h
      exact .nil
    · rintro ⟨⟩
      rfl
  | case2 a =>
    -- a last character alone is read only if it has one byte
    constructor
    · intro h
      obtain ⟨byte,hbyte,-⟩ : ∃ byte, hexU8 [a] = some byte ∧ bytes = [byte] := by
        simp only [pairs,mapM_cons,mapM_nil,Option.bind_eq_bind,Option.bind_eq_some_iff,
          Option.pure_def,Option.some.injEq] at h
        obtain ⟨byte,hbyte,_,rfl,rfl⟩ := h
        exact ⟨byte,hbyte,rfl⟩
      exact absurd heven (by simp [ascii_of_hexU8_single hbyte])
    · rintro ⟨⟩
  | case3 a b rest ih =>
    have hsize : ∀ {byte : UInt8}, hexU8 [a,b] = some byte → byteLength rest%2 = 0 := by
      intro byte hbyte
      obtain ⟨ha,hb⟩ := ascii_of_hexU8 hbyte
      rw [byteLength_cons,byteLength_cons,ha,hb] at heven
      omega
    simp only [pairs,mapM_cons,Option.bind_eq_bind,Option.bind_eq_some_iff,Option.pure_def,
      Option.some.injEq]
    constructor
    · rintro ⟨byte,hbyte,more,hmore,rfl⟩
      exact .cons hbyte ((ih (hsize hbyte)).mp hmore)
    · intro h
      cases h with
      | cons hbyte hrest => exact ⟨_,hbyte,_,(ih (hsize hbyte)).mpr hrest,rfl⟩

theorem hashFromPeerSegment_iff (segment : Str) (h : Hash) : hashFromPeerSegment segment = some h ↔
    ∃ bytes, ReadsHex segment bytes ∧ Hash.fromBytes bytes = .ok h := by
  have htake : ∀ bytes, (Hash.fromBytes bytes).toOption = some h ↔ Hash.fromBytes bytes = .ok h := by
    intro bytes
    cases Hash.fromBytes bytes <;> simp [Except.toOption]
  unfold hashFromPeerSegment
  split_ifs with hodd
  · simp only [false_iff]
    rintro ⟨bytes,hr,-⟩
    have hlen : byteLength segment = 2*bytes.length := hr.byteLength
    exact hodd (show byteLength segment%2 = 0 by omega)
  · simp only [Option.bind_eq_some_iff,htake,mapM_pairs (not_not.mp hodd)]

/-- What is read holds digits and signs only. -/
theorem HexText.ReadsHex.chars (h : ReadsHex segment bytes) :
    ∀ c ∈ segment, c = '+' ∨ ∃ x, hexDigitValue c = some x := by
  induction h with
  | nil => simp
  | @cons a b byte text bytes hab _ ih =>
    have hb : ∃ y, hexDigitValue b = some y := by
      rw [hexU8_pair] at hab
      split_ifs at hab
      · obtain ⟨y,hy,-⟩ := Option.map_eq_some_iff.mp hab
        exact ⟨y,hy⟩
      · obtain ⟨x,-,hab⟩ := Option.bind_eq_some_iff.mp hab
        obtain ⟨y,hy,-⟩ := Option.map_eq_some_iff.mp hab
        exact ⟨y,hy⟩
    have ha : a = '+' ∨ ∃ x, hexDigitValue a = some x := by
      rw [hexU8_pair] at hab
      split_ifs at hab with hplus
      · exact .inl hplus
      · obtain ⟨x,hx,-⟩ := Option.bind_eq_some_iff.mp hab
        exact .inr ⟨x,hx⟩
    intro c hc
    rcases mem_cons.mp hc with rfl | hc
    · exact ha
    rcases mem_cons.mp hc with rfl | hc
    · exact .inr hb
    · exact ih c hc

theorem HexText.ReadsHex.pathLike (h : ReadsHex segment bytes) :
    '/' ∉ segment ∧ '*' ∉ segment ∧ ∀ c ∈ segment, isControl c = false ∧ c ≠ '.' := by
  have hnone : hexDigitValue '/' = none ∧ hexDigitValue '*' = none ∧ hexDigitValue '.' = none := by
    decide
  refine ⟨fun hc => ?_,fun hc => ?_,fun c hc => ⟨?_,?_⟩⟩
  · rcases h.chars _ hc with hp | ⟨x,hx⟩
    · exact absurd hp (by decide)
    · simp [hnone.1] at hx
  · rcases h.chars _ hc with hp | ⟨x,hx⟩
    · exact absurd hp (by decide)
    · simp [hnone.2.1] at hx
  · rcases h.chars _ hc with rfl | ⟨x,hx⟩
    · decide
    · have hrange := hexDigitValue_range hx
      simp only [isControl,Bool.or_eq_false_iff,Bool.and_eq_false_iff,decide_eq_false_iff_not]
      omega
  · rintro rfl
    rcases h.chars _ hc with hp | ⟨x,hx⟩
    · exact absurd hp (by decide)
    · simp [hnone.2.2] at hx

/-- Plain characters of a text, decided. -/
theorem plain_of_all {t : Str} (h : t.all (fun c => !isControl c && c ≠ '.') = true) :
    ∀ c ∈ t, isControl c = false ∧ c ≠ '.' := by
  simpa using h

/-! The writer's spelling. -/

def lowerDigits : Str := "0123456789abcdef".toList

/-- Lowercase digits, the first of them a zero: a format code in one byte. -/
def PlainSegment (segment : Str) : Prop :=
  (∀ c ∈ segment, c ∈ lowerDigits) ∧ segment.head? = some '0'

instance (segment : Str) : Decidable (PlainSegment segment) :=
  inferInstanceAs (Decidable (_ ∧ _))

theorem mem_lowerDigits {c : Char} : c ∈ lowerDigits ↔ ∃ n : Fin 16, Hash.hexDigit n = c := by
  have hlist : lowerDigits = ofFn fun n : Fin 16 => Hash.hexDigit n := by decide
  rw [hlist,mem_ofFn]

/-- Lowercase digits are written back as they were read. -/
theorem HexText.ReadsHex.hexStr_of_lower (h : ReadsHex segment bytes)
    (hlow : ∀ c ∈ segment, c ∈ lowerDigits) : Hash.hexStr bytes = segment := by
  induction h with
  | nil => rfl
  | @cons a b byte text bytes hab _ ih =>
    obtain ⟨x,rfl⟩ := mem_lowerDigits.mp (hlow a (by simp))
    obtain ⟨y,rfl⟩ := mem_lowerDigits.mp (hlow b (by simp))
    have hx := Hash.hexDigit_value x
    have hplus : Hash.hexDigit x ≠ '+' := by
      intro hp
      rw [hp,hexDigitValue_plus] at hx
      cases hx
    rw [hexU8_pair,if_neg hplus,hx,Hash.hexDigit_value y] at hab
    obtain rfl := Option.some.inj hab
    have hbyte : (UInt8.ofNat (16*x.val+y.val)).toNat = 16*x.val+y.val := by
      rw [UInt8.toNat_ofNat',Nat.mod_eq_of_lt (by omega)]
    have hdigits : (16*x.val+y.val)/16 = x.val ∧ (16*x.val+y.val)%16 = y.val := by omega
    have htail := ih fun c hc => hlow c (by simp [hc])
    rw [Hash.hexStr,flatMap_cons,hbyte,hdigits.1,hdigits.2]
    exact congrArg (fun t => Hash.hexDigit x::Hash.hexDigit y::t) htail

theorem mem_hexStr {c : Char} (hc : c ∈ Hash.hexStr bytes) : c ∈ lowerDigits := by
  obtain ⟨b,-,hb⟩ := mem_flatMap.mp hc
  have hlt := b.toNat_lt
  simp only [mem_cons,not_mem_nil,or_false] at hb
  rcases hb with rfl | rfl
  · exact mem_lowerDigits.mpr ⟨⟨b.toNat/16,by omega⟩,rfl⟩
  · exact mem_lowerDigits.mpr ⟨⟨b.toNat%16,by omega⟩,rfl⟩

theorem plainSegment_peerSegmentFromHash (h : Hash) : PlainSegment (peerSegmentFromHash h) := by
  refine ⟨fun c hc => mem_hexStr hc,?_⟩
  rw [peerSegmentFromHash,Hash.toBytes_eq]
  rcases h.algorithm_cases with ⟨ha,-⟩ | ⟨ha,-⟩
  · rw [ha]
    rfl
  · rw [ha]
    rfl

/-- A hash is spelled in one way by plain segments, and in no other by the writer. -/
theorem eq_peerSegmentFromHash_iff {h : Hash} (hseg : hashFromPeerSegment segment = some h) :
    segment = peerSegmentFromHash h ↔ PlainSegment segment := by
  constructor
  · intro heq
    rw [heq]
    exact plainSegment_peerSegmentFromHash h
  · rintro ⟨hlow,hzero⟩
    obtain ⟨bytes,hr,hh⟩ := (hashFromPeerSegment_iff segment h).mp hseg
    obtain ⟨digits,hbytes,hterm,-,hcode⟩ := (Hash.fromBytes_ok bytes h).mp hh
    -- the first byte is below sixteen, so it is the whole format code
    obtain ⟨d,hd,rfl⟩ : ∃ d : UInt8, d.toNat < 16 ∧ digits = [d] := by
      cases hr with
      | nil => cases hzero
      | @cons a b byte text rest hab _ =>
        obtain rfl : a = '0' := by simpa using hzero
        have hzero : hexDigitValue '0' = some 0 := by decide
        rw [hexU8_pair,if_neg (by decide),hzero] at hab
        obtain ⟨y,hy,rfl⟩ := Option.map_eq_some_iff.mp hab
        have hlt := hexDigitValue_lt hy
        cases digits with
        | nil => exact hterm.elim
        | cons d digits =>
          have hd : d = UInt8.ofNat (16*0+y) := (cons.inj hbytes).1.symm
          have hsmall : d.toNat < 16 := by
            rw [hd,UInt8.toNat_ofNat',Nat.mod_eq_of_lt (by omega)]
            omega
          refine ⟨d,hsmall,?_⟩
          by_contra hmore
          have hne : digits ≠ [] := by
            rintro rfl
            exact hmore rfl
          have hbig := ((Leb128.terminated_cons hne).mp hterm).1
          omega
    rw [Leb128.value_singleton,Nat.mod_eq_of_lt (by omega),Nat.mod_eq_of_lt (by omega)] at hcode
    have hback : h.toBytes = bytes := by
      rw [Hash.toBytes_eq,UInt8.toNat_inj.mp hcode,hbytes]
      rfl
    rw [peerSegmentFromHash,hback,hr.hexStr_of_lower hlow]

/-! Assigning to whoever is excluded. -/

/-- Nothing is newly bound below the role-derived subtree. -/
def RoleHandler.MintsNothing (R : RoleHandler) (s s' : PeerState) : Prop :=
  ∀ path hash, R.qualify roleDerivedPrefix <+: path → s'.locationIndex.get path = some hash →
    s.locationIndex.get path = some hash

/-- Where a hash is excluded under the writer's segment, no request that spells it this way is
given a token. -/
def StaysExcluded (segment : Str) (h : Hash) : Prop :=
  ∀ (X : Platform) (R : RoleHandler) (ctx : RoleContext) (nowMs issuedAt : ℕ) (s : PeerState)
    (path context : Str) (role : Option Str),
    requireSingleResourcePath ctx.resourceTarget R.localPeerId
      (ctx.operation++ " (the assignment path)") = .ok path →
    parseAssignmentPath path = some ⟨context,segment,role⟩ →
    R.isExcluded s context (peerSegmentFromHash h) = true →
    R.MintsNothing s (R.handleAssign X ctx nowMs issuedAt s).2

theorem handleAssign_refused {X : Platform} {R : RoleHandler} {ctx : RoleContext} {nowMs issuedAt : ℕ}
    {s : PeerState} (h : ∀ issue, R.approveAssign X ctx nowMs s ≠ .ok issue) :
    (R.handleAssign X ctx nowMs issuedAt s).2 = s := by
  unfold RoleHandler.handleAssign
  cases happ : R.approveAssign X ctx nowMs s with
  | error failure => rfl
  | ok issue => exact absurd happ (h issue)

theorem staysExcluded_of_plain {h : Hash} (hseg : hashFromPeerSegment segment = some h)
    (hsafe : PlainSegment segment ∨ h.isZero = true) : StaysExcluded segment h := by
  intro X R ctx nowMs issuedAt s path context role hpath hparsed hexcl
  rw [handleAssign_refused]
  · exact fun _ _ _ hget => hget
  intro issue happ
  obtain ⟨⟨path',hpath',hparsed'⟩,hnot,hgrantee,hzero⟩ := RoleHandler.approveAssign_checked happ
  obtain rfl := Except.ok.inj (hpath.symm.trans hpath')
  obtain ⟨rfl,rfl,-⟩ : context = issue.context ∧ segment = issue.assignee ∧
      role = some issue.role := by simpa using hparsed.symm.trans hparsed'
  rcases hsafe with hplain | hz
  · rw [← (eq_peerSegmentFromHash_iff hseg).mpr hplain,hnot] at hexcl
    cases hexcl
  · rw [Option.some.inj (hgrantee.symm.trans hseg),hz] at hzero
    cases hzero

/-! A peer at which somebody is excluded, and a request that spells the hash differently. -/
namespace SpellingSample

open Sample

def params : Value := .map [(txt "role",txt "editor")]

def definition : Value := .map [(txt "grants",.array []),(txt "name",txt "editor")]

def crates : Platform := platform [params,definition] [] []

def handler : RoleHandler := ⟨aliceId,alice.contentHash,"ed25519".toList,fun _ => []⟩

def role : Entity := entity "system/role" definition 1

def definitionPath : Str := handler.qualify (pathRoleDefinition "team".toList "editor".toList)

def exclusionPath (segment : Str) : Str := handler.qualify (pathRoleExclusion "team".toList segment)

/-- The editor of the team is defined, and `h` is excluded from the team. -/
def peer (h : Hash) : PeerState :=
  ((PeerState.mk .empty ⟨.empty⟩).put role).set definitionPath role.contentHash
    |>.set (exclusionPath (peerSegmentFromHash h)) bob.contentHash

def assignPath (segment : Str) : Str :=
  handler.qualify (pathRoleAssignment "team".toList segment "editor".toList)

def callerCap : CapabilityToken :=
  ⟨[],.single alice.contentHash,alice.contentHash,none,0,none,none,none⟩

def request (segment : Str) : RoleContext :=
  ⟨"assign",some callerCap,none,none,some ⟨[assignPath segment],[]⟩,entity "primitive/any" params 2⟩

def issue (segment : Str) (h : Hash) : RoleIssue :=
  ⟨"team".toList,segment,"editor".toList,h,[],none⟩

theorem role_read : RoleData.fromEntity crates role = .ok ⟨"editor".toList,[],none⟩ := by
  rfl

theorem allocated : crates.FormatAllocated := by decide

theorem exclusionPath_inj {a b : Str} (h : exclusionPath a = exclusionPath b) : a = b := by
  have h := RoleHandler.qualify_inj.mp h
  simpa only [pathRoleExclusion,append_cancel_left_eq] using h

theorem definition_ne_exclusion (segment : Str) : definitionPath ≠ exclusionPath segment := by
  intro h
  have h := RoleHandler.qualify_inj.mp h
  simp only [pathRoleDefinition,pathRoleExclusion,append_assoc,append_cancel_left_eq] at h
  exact absurd (congrArg (take 3) h) (by simp)

theorem params_read : Role.decodeMap crates (toEcf params) = .ok [(txt "role",txt "editor")] := by
  rfl

theorem approved {h : Hash} (hseg : hashFromPeerSegment segment = some h)
    (hne : segment ≠ peerSegmentFromHash h) (hzero : h.isZero = false) :
    handler.approveAssign crates (request segment) 0 (peer h) = .ok (issue segment h) := by
  obtain ⟨bytes,hr,-⟩ := (hashFromPeerSegment_iff segment h).mp hseg
  obtain ⟨hslash,hstar,-⟩ := hr.pathLike
  have hparsed : parseAssignmentPath (assignPath segment) =
      some ⟨"team".toList,segment,some "editor".toList⟩ := by
    refine (parseAssignmentPath_iff _ _ _ _).mpr ⟨["team".toList],["editor".toList],?_,
      by decide +kernel,by simp,?_,rfl,rfl⟩
    · have hrole : rolePrefix <+: pathRoleAssignment "team".toList segment "editor".toList :=
        (RoleHandler.qualified_within (R := handler) _ _).mp (RoleHandler.role_assignment _ _ _)
      have hsame := roleSegments_qualified (l := aliceId) (by decide +kernel) (by decide +kernel) hrole
      exact hsame.trans (roleSegments_assignment hslash _ _)
    · rintro rfl
      cases hr
      cases hseg
  have hstars : '*' ∉ assignPath segment := by
    have hfront : '*' ∉ handler.qualify (rolePrefix++"team/assignment/".toList) := by decide +kernel
    have hsplit : assignPath segment = handler.qualify (rolePrefix++"team/assignment/".toList)++
        (segment++"/editor".toList) := by
      simp only [assignPath,RoleHandler.qualify,pathRoleAssignment,append_assoc]
      rfl
    rw [hsplit,mem_append,mem_append]
    rintro (hc | hc | hc)
    · exact hfront hc
    · exact hstar hc
    · exact absurd hc (by decide +kernel)
  have hpath : requireSingleResourcePath (request segment).resourceTarget handler.localPeerId
      ((request segment).operation++ " (the assignment path)") = .ok (assignPath segment) := by
    have hcanon : canonicalize (assignPath segment) handler.localPeerId = assignPath segment :=
      canonicalize_of_absolute _
    have htargets : effectiveTargets (request segment).resourceTarget handler.localPeerId =
        [assignPath segment] := rfl
    simp only [requireSingleResourcePath,optionalSingleResourcePath,singleEffectiveTarget,htargets,
      hcanon]
    simp [hstars,bind,Except.bind,okOr]
  have hread : handler.readRole crates (peer h) "team".toList "editor".toList =
      .ok ⟨"editor".toList,[],none⟩ := by
    have hbound : (peer h).locationIndex.get definitionPath = some role.contentHash := by
      have hstorable : pathIsStorable definitionPath = true := by decide +kernel
      simp [peer,definition_ne_exclusion,hstorable]
    have hstored : (peer h).contentStore.get role.contentHash = some role := by simp [peer]
    have hpath : handler.qualify (pathRoleDefinition "team".toList "editor".toList) =
      definitionPath := rfl
    simp only [RoleHandler.readRole,hpath,hbound,okOr,bind,Except.bind,hstored,role_read,mapErr]
  have hexcl : handler.isExcluded (peer h) "team".toList segment = false := by
    have hother : exclusionPath segment ≠ exclusionPath (peerSegmentFromHash h) :=
      fun heq => hne (exclusionPath_inj heq)
    show ((peer h).locationIndex.get (exclusionPath segment)).isSome = false
    simp [peer,hother,(definition_ne_exclusion segment).symm]
  have hatten : isAttenuated crates (buildHypotheticalToken [] callerCap none) callerCap
    aliceId = true := by decide +kernel
  simp only [RoleHandler.approveAssign,bind_ok,okOr_ok,mapErr_ok,pure_ok]
  exact ⟨_,hpath,_,hparsed,_,rfl,_,params_read,_,rfl,⟨⟩,rfl,_,hread,⟨⟩,
    (ensure_ok _ _).mpr (by rw [hexcl]; rfl),callerCap,rfl,⟨⟩,(ensure_ok _ _).mpr hatten,h,hseg,⟨⟩,
    (ensure_ok _ _).mpr (by rw [hzero]; rfl),rfl⟩

/-- Any path of plain segments below the peer is storable. -/
theorem storable_below {front rest : Str} (hf : ¬ "//".toList <:+: front)
    (hr : ¬ "//".toList <:+: rest) (hslash : '/' ∉ segment) (hne : segment ≠ [])
    (hchar : ∀ c ∈ front++ (segment++rest), isControl c = false ∧ c ≠ '.') :
    pathIsStorable ('/'::aliceId++ (front++ (segment++rest))) = true := by
  refine storable_of_peer aliceId_isPeerId ?_ hchar
  have hslashes : "//".toList = ['/','/'] := rfl
  rw [hslashes] at hf hr ⊢
  have hmem : ∀ c, segment.head? = some c ∨ segment.getLast? = some c → c ≠ '/' := by
    rintro c (hc | hc) rfl
    · exact hslash (mem_of_head? hc)
    · exact hslash (mem_of_getLast? hc)
  have hinner : ¬ ['/','/'] <:+: segment := by
    intro h
    exact hslash (h.subset (by simp))
  have hhead : (segment++rest).head? = segment.head? := by
    cases segment with
    | nil => exact absurd rfl hne
    | cons c segment => rfl
  rw [double_append,double_append,hhead]
  rintro (h | (h | h | h) | h)
  · exact hf h
  · exact hinner h
  · exact hr h
  · exact hmem _ (.inr h.1) rfl
  · exact hmem _ (.inl h.2) rfl

theorem lowerDigits_pathLike : ∀ c ∈ lowerDigits, isControl c = false ∧ c ≠ '.' ∧ c ≠ '/' := by
  have hslash : '/' ∉ lowerDigits := by decide
  have hplain := plain_of_all (t := lowerDigits) (by decide)
  rintro c hc
  refine ⟨(hplain c hc).1,(hplain c hc).2,?_⟩
  rintro rfl
  exact hslash hc

theorem token_storable (hr : ReadsHex segment bytes) (hne : segment ≠ []) (h token : Hash) :
    pathIsStorable (handler.tokenPath (issue segment h) token) = true := by
  obtain ⟨hslash,-,hchar⟩ := hr.pathLike
  have hhex : ∀ c ∈ token.toHex, isControl c = false ∧ c ≠ '.' ∧ c ≠ '/' :=
    fun c hc => lowerDigits_pathLike c (mem_hexStr hc)
  have hpath : handler.tokenPath (issue segment h) token =
      '/'::aliceId++ ("/system/capability/grants/role-derived/team/".toList++
        (segment++ '/'::token.toHex)) := by
    simp only [RoleHandler.tokenPath,RoleHandler.qualify,issue,pathRoleDerivedToken,
      prefixRoleDerivedPeer,append_assoc]
    rfl
  rw [hpath]
  refine storable_below (by decide +kernel) ?_ hslash hne ?_
  · have hslashes : "//".toList = ['/','/'] := rfl
    rw [hslashes,infix_cons_iff]
    rintro (⟨t,ht⟩ | hin)
    · have hfirst : '/' ∈ token.toHex := by
        rw [← (cons.inj ht).2]
        simp
      exact (hhex _ hfirst).2.2 rfl
    · exact (hhex _ (hin.subset (by simp))).2.2 rfl
  · have hfront : ∀ c ∈ "/system/capability/grants/role-derived/team/".toList,
        isControl c = false ∧ c ≠ '.' := plain_of_all (by decide +kernel)
    intro c hc
    simp only [mem_append,mem_cons] at hc
    rcases hc with hc | hc | rfl | hc
    · exact hfront c hc
    · exact hchar c hc
    · decide +kernel
    · exact ⟨(hhex c hc).1,(hhex c hc).2.1⟩

theorem excluded (h : Hash) :
    handler.isExcluded (peer h) "team".toList (peerSegmentFromHash h) = true := by
  have hstorable : pathIsStorable (exclusionPath (peerSegmentFromHash h)) = true := by
    have hhex : ∀ c ∈ peerSegmentFromHash h, isControl c = false ∧ c ≠ '.' ∧ c ≠ '/' :=
      fun c hc => lowerDigits_pathLike c (mem_hexStr hc)
    have hpath : exclusionPath (peerSegmentFromHash h) =
        '/'::aliceId++ ("/system/role/team/excluded/".toList++ (peerSegmentFromHash h++[])) := by
      simp only [exclusionPath,RoleHandler.qualify,pathRoleExclusion,append_assoc,append_nil]
      rfl
    rw [hpath]
    refine storable_below (by decide +kernel) (by decide +kernel) (fun hc => (hhex _ hc).2.2 rfl)
      ?_ ?_
    · intro hnil
      have hplain := (plainSegment_peerSegmentFromHash h).2
      rw [hnil] at hplain
      cases hplain
    · have hfront : ∀ c ∈ "/system/role/team/excluded/".toList, isControl c = false ∧ c ≠ '.' :=
        plain_of_all (by decide +kernel)
      intro c hc
      simp only [mem_append,append_nil] at hc
      rcases hc with hc | hc
      · exact hfront c hc
      · exact ⟨(hhex c hc).1,(hhex c hc).2.1⟩
  show ((peer h).locationIndex.get (exclusionPath (peerSegmentFromHash h))).isSome = true
  simp [peer,hstorable]

/-- Under another spelling the excluded peer is given a token. -/
theorem minted_anyway {h : Hash} (hseg : hashFromPeerSegment segment = some h)
    (hne : segment ≠ peerSegmentFromHash h) (hzero : h.isZero = false) :
    ¬ handler.MintsNothing (peer h) (handler.handleAssign crates (request segment) 0 0 (peer h)).2 := by
  intro hnone
  have happ := approved hseg hne hzero
  obtain ⟨bytes,hr,-⟩ := (hashFromPeerSegment_iff segment h).mp hseg
  have hfilled : segment ≠ [] := by
    rintro rfl
    cases hr
    cases hseg
  obtain ⟨assignment,cap,sig,link,-,-,hrun⟩ :=
    RoleHandler.handleAssign_approved allocated happ 0
  have hderived : handler.qualify roleDerivedPrefix <+:
      handler.tokenPath (issue segment h) cap.contentHash :=
    RoleHandler.derived_tokenPath _ _ _
  have hlink : handler.tokenPath (issue segment h) cap.contentHash ≠
      handler.linkPath (issue segment h) :=
    (RoleHandler.role_ne_derived (RoleHandler.role_link _ _ _) hderived).symm
  have hbefore := hnone _ cap.contentHash hderived (by
    rw [hrun,RoleHandler.get_bindMinted,if_neg fun hh => hlink hh.1,
      if_neg fun hh => RoleHandler.derived_ne_signature hderived _ hh.1,
      if_pos ⟨rfl,token_storable hr hfilled h _⟩])
  have hdef := RoleHandler.role_ne_derived
    (RoleHandler.role_definition (R := handler) "team".toList "editor".toList) hderived
  have hexcl := RoleHandler.role_ne_derived
    (RoleHandler.role_exclusion (R := handler) "team".toList (peerSegmentFromHash h)) hderived
  rw [peer,PeerState.get_set,if_neg fun hh => hexcl hh.1.symm,PeerState.get_set,
    if_neg fun hh => hdef hh.1.symm] at hbefore
  cases hbefore

theorem spelling_request {h : Hash} (hseg : hashFromPeerSegment segment = some h)
    (hne : segment ≠ peerSegmentFromHash h) (hzero : h.isZero = false) :
    ¬ StaysExcluded segment h := by
  intro hstays
  have happ := approved hseg hne hzero
  obtain ⟨⟨path,hpath,hparsed⟩,-⟩ := RoleHandler.approveAssign_checked happ
  exact minted_anyway hseg hne hzero
    (hstays crates handler (request segment) 0 0 (peer h) path _ _ hpath hparsed (excluded h))

end SpellingSample

open SpellingSample

/-- A hash that is excluded stays excluded under a segment exactly if the segment is the
writer's, or names the zero hash, which is never given a role. -/
theorem exclusion_spelling_iff (segment : Str) (h : Hash)
    (hseg : hashFromPeerSegment segment = some h) :
    (segment = peerSegmentFromHash h ↔ PlainSegment segment) ∧
      (StaysExcluded segment h ↔ PlainSegment segment ∨ h.isZero = true) := by
  refine ⟨eq_peerSegmentFromHash_iff hseg,fun hstays => ?_,staysExcluded_of_plain hseg⟩
  by_contra hunsafe
  rw [not_or] at hunsafe
  exact spelling_request hseg (fun heq => hunsafe.1 ((eq_peerSegmentFromHash_iff hseg).mp heq))
    (by simpa using hunsafe.2) hstays

/-- A SHA-384 hash of ones, in capital letters. -/
def capitalSegment : Str := "01".toList++List.replicate 96 'A'

theorem evaluated_capitals : (hashFromPeerSegment capitalSegment).isSome = true ∧
    (hashFromPeerSegment capitalSegment).all (fun h => !h.isZero) = true := by
  decide +kernel

theorem exclusion_spelling_iff_sample : ∃ h, hashFromPeerSegment capitalSegment = some h ∧
    (StaysExcluded capitalSegment h ↔ PlainSegment capitalSegment ∨ h.isZero = true) := by
  obtain ⟨h,hseg⟩ := Option.isSome_iff_exists.mp evaluated_capitals.1
  exact ⟨h,hseg,(exclusion_spelling_iff capitalSegment h hseg).2⟩

/-- In capital letters an excluded hash is given a role. -/
theorem capitals_evade_exclusion :
    (¬ ∀ segment h, hashFromPeerSegment segment = some h → segment = peerSegmentFromHash h) ∧
      ¬ ∀ segment h, hashFromPeerSegment segment = some h → StaysExcluded segment h := by
  obtain ⟨h,hseg⟩ := Option.isSome_iff_exists.mp evaluated_capitals.1
  have hne : capitalSegment ≠ peerSegmentFromHash h := fun heq =>
    absurd (((eq_peerSegmentFromHash_iff hseg).mp heq).1 'A' (by simp [capitalSegment]))
      (by decide)
  have hzero : h.isZero = false := by
    have hall := evaluated_capitals.2
    rw [hseg] at hall
    simpa using hall
  exact ⟨fun hall => hne (hall _ _ hseg),fun hall => spelling_request hseg hne hzero (hall _ _ hseg)⟩

end EntityCore
