import EntityCore.RoleOperations

/-! Tokens minted at different times are different documents. In the canonical order the
creation time and the expiry stand last, so both are read off the end of the bytes, whatever
the grants before them hold. -/
namespace EntityCore

open Ecf ByteCode

/-- Two texts that end in a marked name of one length and something short agree on the rest,
the name and what is short. -/
theorem marked_end {m : UInt8} {a a' t t' u u' : Bytes} (ht : m ∉ t) (ht' : m ∉ t')
    (hlen : t.length = t'.length) (hu : u.length ≤ t'.length) (hu' : u'.length ≤ t.length)
    (h : a++m::(t++u) = a'++m::(t'++u')) : a = a' ∧ t = t' ∧ u = u' := by
  -- a mark that is shifted falls inside the other name
  have hshift : ∀ {b t t' u u' : Bytes}, m ∉ t → u.length ≤ t'.length → t.length = t'.length →
      m::(t++u) = b++m::(t'++u') → b = [] := by
    intro b t t' u u' ht hu hlen h
    cases b with
    | nil => rfl
    | cons x b =>
      simp only [List.cons_append,List.cons.injEq] at h
      have hl := congrArg List.length h.2
      simp only [List.length_append,List.length_cons] at hl
      have hb : b.length < t.length := by omega
      have hget : (t++u)[b.length]? = (b++m::(t'++u'))[b.length]? := by rw [h.2]
      rw [List.getElem?_append_left hb,List.getElem?_append_right le_rfl,Nat.sub_self] at hget
      exact absurd (List.mem_of_getElem? hget) ht
  have hsame : a = a' := by
    rcases List.append_eq_append_iff.mp h with ⟨b,rfl,hb⟩ | ⟨b,rfl,hb⟩
    · rw [hshift ht hu hlen hb,List.append_nil]
    · rw [hshift ht' hu' hlen.symm hb,List.append_nil]
  subst hsame
  have htail := List.cons.inj (List.append_cancel_left h)
  exact ⟨rfl,List.append_inj htail.2 hlen⟩

/-- A name of ten letters under its head. -/
def stampMark : UInt8 := 0x6A

def createdAtName : Bytes := utf8 "created_at".toList
def expiresAtName : Bytes := utf8 "expires_at".toList

def word (n : ℕ) : Bytes := encodeValue (uinteger n)

theorem names_marked : stampMark ∉ createdAtName ∧ stampMark ∉ expiresAtName ∧
    createdAtName.length = 10 ∧ expiresAtName.length = 10 ∧ createdAtName ≠ expiresAtName := by
  decide +kernel

theorem names_encoded : encodeCborText "created_at".toList = stampMark::createdAtName ∧
    encodeCborText "expires_at".toList = stampMark::expiresAtName := by
  decide

theorem word_length (n : ℕ) : (word n).length ≤ 10 := by
  rw [word,uinteger,encodeValue,encodeInteger_eq]
  split_ifs <;> unfold encodeHead <;> split_ifs <;> simp

theorem word_inj {m n : ℕ} (hm : m < 2^64) (hn : n < 2^64) (h : word m = word n) : m = n := by
  have hsame : ∀ i j : Integer, encodeValue (.integer i) = encodeValue (.integer j) → i = j := by
    intro i j h
    cases (toEcf_identifies _ _ (.integer i) (.integer j)).1.mp h
    rfl
  have hval : ((m%2^64 : ℕ) : ℤ) = (n%2^64 : ℕ) := congrArg Integer.val (hsame _ _ h)
  have hmod := Int.ofNat_inj.mp hval
  rwa [Nat.mod_eq_of_lt hm,Nat.mod_eq_of_lt hn] at hmod

/-- The bytes of the expiry, if there is one. -/
def expiryBytes (expiresAt : Option ℕ) : Bytes :=
  match expiresAt with
  | some e => stampMark::(expiresAtName++word e)
  | none => []

theorem stamped_end {a a' : Bytes} {createdAt createdAt' : ℕ} {expiresAt expiresAt' : Option ℕ}
    (h : a++stampMark::(createdAtName++word createdAt)++expiryBytes expiresAt =
      a'++stampMark::(createdAtName++word createdAt')++expiryBytes expiresAt') :
    a = a' ∧ word createdAt = word createdAt' ∧ expiresAt.isSome = expiresAt'.isSome := by
  obtain ⟨hc,he,hcl,hel,hne⟩ := names_marked
  cases expiresAt with
  | none =>
    cases expiresAt' with
    | none =>
      simp only [expiryBytes,List.append_nil] at h
      have hend := marked_end hc hc rfl (by rw [hcl]; exact word_length _)
        (by rw [hcl]; exact word_length _) h
      exact ⟨hend.1,hend.2.2,rfl⟩
    | some e' =>
      simp only [expiryBytes,List.append_nil] at h
      have hend := marked_end hc he (by rw [hcl,hel]) (by rw [hel]; exact word_length _)
        (by rw [hcl]; exact word_length _) h
      exact absurd hend.2.1 hne
  | some e =>
    cases expiresAt' with
    | none =>
      simp only [expiryBytes,List.append_nil] at h
      have hend := marked_end he hc (by rw [hcl,hel]) (by rw [hcl]; exact word_length _)
        (by rw [hel]; exact word_length _) h
      exact absurd hend.2.1.symm hne
    | some e' =>
      simp only [expiryBytes] at h
      have hlast := marked_end he he rfl (by rw [hel]; exact word_length _)
        (by rw [hel]; exact word_length _) h
      have hend := marked_end hc hc rfl (by rw [hcl]; exact word_length _)
        (by rw [hcl]; exact word_length _) hlast.1
      exact ⟨hend.1,hend.2.2,rfl⟩

/-- Everything of a token that comes before its times. -/
def tokenFront (t : CapabilityToken) : List (Value × Value) :=
  [field "grants" (.array (t.grants.map encodeGrantEntry))]++
    (t.parent.toList.map fun p => field "parent" (hashVal p))++
    [field "grantee" (hashVal t.grantee),field "granter" (encodeGranter t.granter)]

theorem tokenKeys_sorted :
    keyLe (encodeCborText "grants".toList) (encodeCborText "parent".toList) ∧
    ¬ keyLe (encodeCborText "grantee".toList) (encodeCborText "grants".toList) ∧
    ¬ keyLe (encodeCborText "grantee".toList) (encodeCborText "parent".toList) ∧
    keyLe (encodeCborText "grantee".toList) (encodeCborText "granter".toList) ∧
    ¬ keyLe (encodeCborText "granter".toList) (encodeCborText "grants".toList) ∧
    ¬ keyLe (encodeCborText "granter".toList) (encodeCborText "parent".toList) ∧
    ¬ keyLe (encodeCborText "expires_at".toList) (encodeCborText "grants".toList) ∧
    ¬ keyLe (encodeCborText "expires_at".toList) (encodeCborText "parent".toList) ∧
    ¬ keyLe (encodeCborText "expires_at".toList) (encodeCborText "grantee".toList) ∧
    ¬ keyLe (encodeCborText "expires_at".toList) (encodeCborText "granter".toList) ∧
    ¬ keyLe (encodeCborText "created_at".toList) (encodeCborText "grants".toList) ∧
    ¬ keyLe (encodeCborText "created_at".toList) (encodeCborText "parent".toList) ∧
    ¬ keyLe (encodeCborText "created_at".toList) (encodeCborText "grantee".toList) ∧
    ¬ keyLe (encodeCborText "created_at".toList) (encodeCborText "granter".toList) ∧
    keyLe (encodeCborText "created_at".toList) (encodeCborText "expires_at".toList) := by
  decide +kernel

theorem toEcf_stamped {t : CapabilityToken} (hnb : t.notBefore = none)
    (hdc : t.delegationCaveats = none) : t.toEcf =
      encodeHead majorMap ((tokenFront t).length+1+t.expiresAt.toList.length)++
        (flatten (tokenFront t)).flatMap encodeValue++
        stampMark::(createdAtName++word t.createdAt)++expiryBytes t.expiresAt := by
  have hk := tokenKeys_sorted
  have hn := names_encoded
  obtain ⟨grants,granter,grantee,parent,createdAt,expiresAt,notBefore,caveats⟩ := t
  obtain rfl : notBefore = none := hnb
  obtain rfl : caveats = none := hdc
  cases parent <;> cases expiresAt
  all_goals
    rw [CapabilityToken.toEcf,Ecf.toEcf,encodeValue,encodeMap_eq]
    simp only [Option.toList_none,Option.toList_some,List.map_nil,List.map_cons,List.append_nil,
      List.nil_append,List.cons_append,field,tokenFront,List.insertionSort_cons,
      List.insertionSort_nil,List.orderedInsert,encodedLe,encodeValue,hk,if_true,if_false]
    simp only [flatten,List.flatMap_cons,List.flatMap_nil,List.append_nil,List.nil_append,
      List.cons_append,List.append_assoc,encodeValue,hn,expiryBytes,word,List.length_cons,
      List.length_nil]

/-- A token without a start and without caveats shows when it was created and whether it
has a parent. -/
theorem stamp_of_same_bytes {t t' : CapabilityToken} (hnb : t.notBefore = none)
    (hdc : t.delegationCaveats = none) (hnb' : t'.notBefore = none)
    (hdc' : t'.delegationCaveats = none) (hc : t.createdAt < 2^64) (hc' : t'.createdAt < 2^64)
    (h : t.toEcf = t'.toEcf) : t.createdAt = t'.createdAt ∧ t.parent.isSome = t'.parent.isSome := by
  rw [toEcf_stamped hnb hdc,toEcf_stamped hnb' hdc'] at h
  obtain ⟨hfront,hword,hexpiry⟩ := stamped_end h
  have hfront' : ∀ t : CapabilityToken, (tokenFront t).length = t.parent.toList.length+3 := by
    intro t
    simp only [tokenFront,List.length_append,List.length_map,List.length_cons,List.length_nil]
    omega
  have hone : ∀ {α : Type} (o : Option α), o.toList.length = o.isSome.toNat := by
    rintro α (_ | a) <;> rfl
  have hsmall : ∀ t : CapabilityToken,
      (tokenFront t).length+1+t.expiresAt.toList.length < 2^64 := by
    intro t
    have hp := Bool.toNat_le t.parent.isSome
    have he := Bool.toNat_le t.expiresAt.isSome
    rw [hfront' t,hone,hone]
    omega
  have hcount := (encodeHead_split IsMajor.map (hsmall t) (hsmall t') hfront).1
  rw [hfront',hfront',hone,hone,hone,hone,hexpiry] at hcount
  refine ⟨word_inj hc hc' hword,?_⟩
  cases hp : t.parent.isSome <;> cases hp' : t'.parent.isSome <;> simp_all

end EntityCore
