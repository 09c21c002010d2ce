import EntityCore.TokenDecoders

/-! What of the restrictions on the wire a decoded token has. The decoders pass over what
they cannot read, and a later entry of a field stands for all entries before it. -/
namespace EntityCore

open Ecf Outcome

variable {map : List (Value × Value)} {v : Value} {acc : TokenFields}

/-! The last member with a property decides what a scan leaves. -/

namespace Outcome

section LastMember

variable {α β γ ε : Type} (p : α → Bool)

def lastWhere (l : List α) : Option α := l.reverse.find? p

theorem lastWhere_cons (a : α) (l : List α) :
    lastWhere p (a::l) = (lastWhere p l).or (if p a = true then some a else none) := by
  simp only [lastWhere,List.reverse_cons,List.find?_append]
  cases hp : p a <;> simp [hp]

theorem mem_of_lastWhere {l : List α} {a : α} (h : lastWhere p l = some a) : a ∈ l ∧ p a = true :=
  ⟨List.mem_reverse.mp (List.mem_of_find?_eq_some h),List.find?_some h⟩

variable {p}

/-- What a fold that succeeds leaves of a field that only the members with `p` set. -/
theorem foldE_last {f : β → α → Except ε β} (field : β → γ) (dec : α → γ) {l : List α}
    (hstep : ∀ b, ∀ a ∈ l, ∀ b', f b a = .ok b' →
      field b' = if p a = true then dec a else field b) {b b' : β} (h : foldE f b l = .ok b') :
    field b' = ((lastWhere p l).map dec).getD (field b) := by
  induction l generalizing b with
  | nil =>
    obtain rfl := Except.ok.inj h
    rfl
  | cons a l ih =>
    simp only [foldE,bind_ok] at h
    obtain ⟨b₁,hb,h⟩ := h
    have hrest := ih (fun b a ha => hstep b a (List.mem_cons_of_mem _ ha)) h
    rw [hrest,lastWhere_cons,hstep b a List.mem_cons_self b₁ hb]
    cases lastWhere p l with
    | some c => rfl
    | none => cases p a <;> rfl

theorem foldE_pure (f : β → α → β) (l : List α) (b : β) :
    foldE (fun b a => .ok (f b a)) b l = (.ok (l.foldl f b) : Except ε β) := by
  induction l generalizing b with
  | nil => rfl
  | cons a l ih => simp [foldE,ih]

end LastMember

end Outcome

/-! The wire. -/

/-- Which values a map has for a name. -/
abbrev Reading : Type := List (Value × Value) → Str → Value → Prop

def Occurs : Reading := fun map name v => ∃ k, (k,v) ∈ map ∧ k.asText = some name

def Last : Reading := fun map name v =>
  ∃ k, lastWhere (fun kv => decide (kv.1.asText = some name)) map = some (k,v)

inductive ScopeName where
  | handlers
  | resources
  | operations
  | peers

def ScopeName.label : ScopeName → String
  | .handlers => "handlers"
  | .resources => "resources"
  | .operations => "operations"
  | .peers => "peers"

inductive Restriction where
  | excluded (grant : ℕ) (scope : ScopeName) (pattern : Str)
  | constrained (grant : ℕ) (name : Str) (value : Value)
  | noDelegation (b : Bool)
  | maxDelegationDepth (n : ℕ)
  | maxDelegationTtl (n : ℕ)

def GrantOnWire (R : Reading) (map : List (Value × Value)) (i : ℕ) (grant : List (Value × Value)) :
    Prop := ∃ grants, R map "grants".toList (.array grants) ∧ grants[i]? = some (.map grant)

/-- A restriction among what a token's map says, with the fields read as `R` does. The lists
of a scope are always read together. -/
def OnWire (R : Reading) (map : List (Value × Value)) : Restriction → Prop
  | .excluded i scope pattern => ∃ grant lists items, GrantOnWire R map i grant ∧
      R grant scope.label.toList (.map lists) ∧ Occurs lists "exclude".toList (.array items) ∧
      .text pattern ∈ items
  | .constrained i name value => ∃ grant entries, GrantOnWire R map i grant ∧
      R grant "constraints".toList (.map entries) ∧ R entries name value
  | .noDelegation b => ∃ caveats, R map "delegation_caveats".toList (.map caveats) ∧
      R caveats "no_delegation".toList (.bool b)
  | .maxDelegationDepth n => ∃ caveats v, R map "delegation_caveats".toList (.map caveats) ∧
      R caveats "max_delegation_depth".toList v ∧ v.asU64 = some n
  | .maxDelegationTtl n => ∃ caveats v, R map "delegation_caveats".toList (.map caveats) ∧
      R caveats "max_delegation_ttl".toList v ∧ v.asU64 = some n

/-- Every restriction has the type of its field; only a caveat may be null. -/
structure WellTyped (map : List (Value × Value)) : Prop where
  excludes : ∀ i grant (scope : ScopeName) lists v, GrantOnWire Occurs map i grant →
    Occurs grant scope.label.toList (.map lists) → Occurs lists "exclude".toList v →
    ∃ items, v = .array items ∧ ∀ x ∈ items, ∃ pattern, x = .text pattern
  constraints : ∀ i grant v, GrantOnWire Occurs map i grant →
    Occurs grant "constraints".toList v →
    ∃ entries, v = .map entries ∧ ∀ e ∈ entries, ∃ name, e.1 = .text name
  noDelegation : ∀ caveats v, Occurs map "delegation_caveats".toList (.map caveats) →
    Occurs caveats "no_delegation".toList v → v ≠ .null → ∃ b, v = .bool b
  limits : ∀ caveats v, ∀ name ∈ ["max_delegation_depth","max_delegation_ttl"],
    Occurs map "delegation_caveats".toList (.map caveats) → Occurs caveats name.toList v →
    v ≠ .null → ∃ n, v.asU64 = some n

def GrantEntry.excludes (g : GrantEntry) : ScopeName → List Str
  | .handlers => g.handlers.excludes
  | .resources => g.resources.excludes
  | .operations => g.operations.excludes
  | .peers => (g.peers.map (·.excludes)).getD []

/-- The restriction is in the decoded token, with its value. -/
def CapabilityToken.Keeps (token : CapabilityToken) : Restriction → Prop
  | .excluded i scope pattern => ∃ g, token.grants[i]? = some g ∧ pattern ∈ g.excludes scope
  | .constrained i name value => ∃ g c, token.grants[i]? = some g ∧ g.constraints = some c ∧
      c.get name = some value
  | .noDelegation b => token.delegationCaveats.bind (·.noDelegation) = some b
  | .maxDelegationDepth n => token.delegationCaveats.bind (·.maxDelegationDepth) = some n
  | .maxDelegationTtl n => token.delegationCaveats.bind (·.maxDelegationTtl) = some n

/-! What the decoders read. -/

@[simp]
theorem occurs_nil (name : Str) (v : Value) : ¬ Occurs [] name v := by
  simp [Occurs]

@[simp]
theorem occurs_cons (kv : Value × Value) (map : List (Value × Value)) (name : Str) (v : Value) :
    Occurs (kv::map) name v ↔ (kv.1.asText = some name ∧ kv.2 = v) ∨ Occurs map name v := by
  simp only [Occurs,List.mem_cons,or_and_right,exists_or,Prod.ext_iff]
  apply or_congr_left
  constructor
  · rintro ⟨k,⟨rfl,rfl⟩,hk⟩
    exact ⟨hk,rfl⟩
  · rintro ⟨hk,rfl⟩
    exact ⟨kv.1,⟨rfl,rfl⟩,hk⟩

/-- Where no name stands twice an entry is the last with its name. -/
theorem Occurs.last {name : Str}
    (honce : (map.map fun kv => kv.1.asText).Nodup) (h : Occurs map name v) :
    Last map name v := by
  induction map with
  | nil => exact absurd h (occurs_nil name v)
  | cons kv map ih =>
    rw [List.map_cons,List.nodup_cons] at honce
    unfold Last
    rw [lastWhere_cons]
    rcases (occurs_cons kv map name v).mp h with ⟨hname,rfl⟩ | hmap
    · have hnone : lastWhere (fun kv : Value × Value => decide (kv.1.asText = some name)) map =
          none := by
        cases hl : lastWhere (fun kv : Value × Value => decide (kv.1.asText = some name)) map with
        | none => rfl
        | some kv' =>
          have hmem := mem_of_lastWhere _ hl
          have hname' : kv'.1.asText = kv.1.asText :=
            (of_decide_eq_true hmem.2).trans hname.symm
          exact absurd (List.mem_map.mpr ⟨kv',hmem.1,hname'⟩) honce.1
      rw [hnone]
      exact ⟨kv.1,by simp [hname]⟩
    · obtain ⟨k,hk⟩ := ih honce.2 hmap
      exact ⟨k,by rw [hk]; rfl⟩

theorem Last.unique {name : Str} {v' : Value} (h : Last map name v)
    (h' : Last map name v') : v = v' := by
  obtain ⟨k,hk⟩ := h
  obtain ⟨k',hk'⟩ := h'
  exact (Prod.mk.inj (Option.some.inj (hk.symm.trans hk'))).2

section Scan

variable {β γ ε : Type} (field : β → Option γ) (name : Str) (dec : Value → Option γ)
variable {map : List (Value × Value)} {b : β}

/-- The last entry of a field, as a scan of the map leaves it. -/
theorem last_of_scan {f : β → Value × Value → Except ε β}
    (hstep : ∀ b, ∀ kv ∈ map, ∀ b', f b kv = .ok b' →
      field b' = if kv.1.asText = some name then dec kv.2 else field b)
    {b' : β} (hb : field b = none) (h : foldE f b map = .ok b') (c : γ) :
    field b' = some c ↔ ∃ v, Last map name v ∧ dec v = some c := by
  have hlast := foldE_last (p := fun kv => decide (kv.1.asText = some name)) field
    (fun kv => dec kv.2) (fun b kv hkv b' hf => by simpa using hstep b kv hkv b' hf) h
  rw [hlast,hb]
  unfold Last
  cases lastWhere (fun kv : Value × Value => decide (kv.1.asText = some name)) map with
  | none => simp
  | some kv =>
    constructor
    · intro hc
      exact ⟨kv.2,⟨kv.1,rfl⟩,hc⟩
    · rintro ⟨v,⟨k,hk⟩,hc⟩
      rw [Option.some.inj hk]
      exact hc

theorem last_of_fold {f : β → Value × Value → β}
    (hstep : ∀ b kv, field (f b kv) = if kv.1.asText = some name then dec kv.2 else field b)
    (hb : field b = none) (c : γ) :
    field (map.foldl f b) = some c ↔ ∃ v, Last map name v ∧ dec v = some c := by
  have hpure : foldE (fun b kv => .ok (f b kv)) b map = (.ok (map.foldl f b) : Except Unit β) :=
    foldE_pure f map b
  apply last_of_scan field name dec _ hb hpure
  intro b kv _ b' h
  rw [← Except.ok.inj h]
  exact hstep b kv

end Scan

theorem mem_textItems {pattern : Str} :
    pattern ∈ textItems v ↔ ∃ items, v = .array items ∧ .text pattern ∈ items := by
  unfold textItems
  cases v with
  | array items =>
    have hitem : ∀ x : Value, x.asText = some pattern ↔ x = .text pattern := by
      intro x
      cases x <;> simp [Value.asText]
    simp [Value.asArray,hitem]
  | _ => simp [Value.asArray]

theorem mem_scanned (lists : List (Value × Value)) (acc : List Str × List Str) (pattern : Str) :
    pattern ∈ (lists.foldl scanScopeField acc).2 ↔
      pattern ∈ acc.2 ∨ ∃ v, Occurs lists "exclude".toList v ∧ pattern ∈ textItems v := by
  induction lists generalizing acc with
  | nil => simp [Occurs]
  | cons kv lists ih =>
    rw [List.foldl_cons,ih]
    simp only [occurs_cons,or_and_right,exists_or]
    rw [← or_assoc]
    apply or_congr_left
    unfold scanScopeField
    by_cases hinclude : kv.1.asText = key "include"
    · simp [hinclude,key]
    · by_cases hexclude : kv.1.asText = key "exclude"
      · rw [if_neg hinclude,if_pos hexclude]
        have hname : kv.1.asText = some "exclude".toList := hexclude
        simp only [List.mem_append,hname,true_and,exists_eq_left']
      · have hname : kv.1.asText ≠ some "exclude".toList := hexclude
        simp only [if_neg hinclude,if_neg hexclude,hname,false_and,exists_false,or_false]

theorem get_decodeStringKeyedMap (v : Value) (name : Str) (w : Value) :
    (decodeStringKeyedMap v).get name = some w ↔
      ∃ entries, v = .map entries ∧ Last entries name w := by
  have hentries : ∀ entries, (decodeStringKeyedMap (.map entries)).get name = some w ↔
      ∃ v, Last entries name v ∧ some v = some w := by
    intro entries
    apply last_of_fold (fun m : OrderedMap Str Value => m.get name)
    · intro b kv
      cases hkey : kv.1.asText with
      | none => simp
      | some k =>
        by_cases hk : k = name
        · simp [hk]
        · simp [hk,Ne.symm hk]
    · simp
  cases v with
  | map entries => simp [hentries]
  | _ => simp [decodeStringKeyedMap,Value.asMap]

theorem asMap_eq : v.asMap = some map ↔ v = .map map := by
  cases v <;> simp [Value.asMap]

theorem asArray_eq {items : List Value} : v.asArray = some items ↔ v = .array items := by
  cases v <;> simp [Value.asArray]

theorem asBool_eq {b : Bool} : v.asBool = some b ↔ v = .bool b := by
  cases v <;> simp [Value.asBool]

/-! A grant. -/

/-- Two names of fields are one only as strings. -/
theorem key_inj {a b : String} : key a = key b ↔ a = b := by
  simp [key,String.toList_inj]

def GrantFields.excludes (acc : GrantFields) : ScopeName → Option (List Str)
  | .handlers => acc.handlers.map (·.excludes)
  | .resources => acc.resources.map (·.excludes)
  | .operations => acc.operations.map (·.excludes)
  | .peers => acc.peers.map (·.excludes)

def excludesOf (v : Value) : Option (List Str) := (decodeScopeLists v).toOption.map Prod.snd

/-- The excludes of a scope are those of all its lists. -/
theorem mem_excludesOf {excludes : List Str} (h : excludesOf v = some excludes) :
    ∃ lists, v = .map lists ∧ ∀ pattern, pattern ∈ excludes ↔
      ∃ items, Occurs lists "exclude".toList (.array items) ∧ .text pattern ∈ items := by
  cases v with
  | map lists =>
    have hscan : (lists.foldl scanScopeField ([],[])).2 = excludes := Option.some.inj h
    refine ⟨lists,rfl,fun pattern => ?_⟩
    rw [← hscan,mem_scanned]
    simp only [List.not_mem_nil,false_or,mem_textItems]
    constructor
    · rintro ⟨_,hw,items,rfl,hitem⟩
      exact ⟨items,hw,hitem⟩
    · rintro ⟨items,hw,hitem⟩
      exact ⟨_,hw,items,rfl,hitem⟩
  | _ => cases h

theorem exists_excludesOf (lists : List (Value × Value)) :
    ∃ excludes, excludesOf (.map lists) = some excludes := ⟨_,rfl⟩

theorem excludesOf_path (v : Value) :
    excludesOf v = (decodePathScope v).toOption.map (·.excludes) := by
  unfold excludesOf decodePathScope
  cases decodeScopeLists v <;> rfl

theorem excludesOf_id (v : Value) : excludesOf v = (decodeIdScope v).toOption.map (·.excludes) := by
  unfold excludesOf decodeIdScope
  cases decodeScopeLists v <;> rfl

/-- What an entry does to the fields of a grant: it sets the one it names. -/
structure GrantStep (acc acc' : GrantFields) (kv : Value × Value) : Prop where
  handlers : acc'.handlers =
    if kv.1.asText = key "handlers" then (decodePathScope kv.2).toOption else acc.handlers
  resources : acc'.resources =
    if kv.1.asText = key "resources" then (decodePathScope kv.2).toOption else acc.resources
  operations : acc'.operations =
    if kv.1.asText = key "operations" then (decodeIdScope kv.2).toOption else acc.operations
  peers : acc'.peers =
    if kv.1.asText = key "peers" then (decodeIdScope kv.2).toOption else acc.peers
  constraints : acc'.constraints =
    if kv.1.asText = key "constraints" then some (decodeStringKeyedMap kv.2) else acc.constraints
  allowances : acc'.allowances =
    if kv.1.asText = key "allowances" then some (decodeStringKeyedMap kv.2) else acc.allowances

theorem scanGrantField_step {acc acc' : GrantFields} {kv : Value × Value}
    (h : scanGrantField acc kv = .ok acc') : GrantStep acc acc' kv := by
  unfold scanGrantField at h
  split_ifs at h with hh hr ho hp hc ha
  · simp only [bind_ok,pure_ok] at h
    obtain ⟨s,hs,rfl⟩ := h
    constructor <;> simp [hh,hs,key_inj,Except.toOption]
  · simp only [bind_ok,pure_ok] at h
    obtain ⟨s,hs,rfl⟩ := h
    constructor <;> simp [hr,hs,key_inj,Except.toOption]
  · simp only [bind_ok,pure_ok] at h
    obtain ⟨s,hs,rfl⟩ := h
    constructor <;> simp [ho,hs,key_inj,Except.toOption]
  · simp only [bind_ok,pure_ok] at h
    obtain ⟨s,hs,rfl⟩ := h
    constructor <;> simp [hp,hs,key_inj,Except.toOption]
  · rw [← Except.ok.inj h]
    constructor <;> simp [hc,key_inj]
  · rw [← Except.ok.inj h]
    constructor <;> simp [ha,key_inj]
  · rw [← Except.ok.inj h]
    constructor <;> simp [hh,hr,ho,hp,hc,ha]

theorem GrantStep.excludes {acc acc' : GrantFields} {kv : Value × Value}
    (h : GrantStep acc acc' kv) (scope : ScopeName) : acc'.excludes scope =
      if kv.1.asText = key scope.label then excludesOf kv.2 else acc.excludes scope := by
  cases scope with
  | handlers => rw [excludesOf_path,GrantFields.excludes,h.handlers,apply_ite (Option.map _)]; rfl
  | resources => rw [excludesOf_path,GrantFields.excludes,h.resources,apply_ite (Option.map _)]; rfl
  | operations => rw [excludesOf_id,GrantFields.excludes,h.operations,apply_ite (Option.map _)]; rfl
  | peers => rw [excludesOf_id,GrantFields.excludes,h.peers,apply_ite (Option.map _)]; rfl

theorem decodeGrantEntry_keeps {value : Value} {g : GrantEntry}
    (h : decodeGrantEntry value = .ok g) : ∃ grant, value = .map grant ∧
      (∀ scope pattern, pattern ∈ g.excludes scope ↔ ∃ lists items,
        Last grant scope.label.toList (.map lists) ∧
        Occurs lists "exclude".toList (.array items) ∧ .text pattern ∈ items) ∧
      ∀ name w, (∃ c, g.constraints = some c ∧ c.get name = some w) ↔
        ∃ entries, Last grant "constraints".toList (.map entries) ∧ Last entries name w := by
  simp only [decodeGrantEntry,bind_ok,okOr_ok,pure_ok] at h
  obtain ⟨grant,hgrant,acc,hscan,handlers,hh,resources,hr,operations,ho,rfl⟩ := h
  refine ⟨grant,asMap_eq.mp hgrant,?_,?_⟩
  · intro scope pattern
    have hlast := last_of_scan (·.excludes scope) scope.label.toList excludesOf
      (fun b kv _ b' hf => (scanGrantField_step hf).excludes scope) (by cases scope <;> rfl) hscan
    have hfields : (GrantEntry.mk handlers resources operations acc.peers acc.constraints
        acc.allowances).excludes scope = (acc.excludes scope).getD [] := by
      cases scope <;> simp [GrantEntry.excludes,GrantFields.excludes,hh,hr,ho]
    rw [hfields]
    constructor
    · intro hp
      cases he : acc.excludes scope with
      | none => simp [he] at hp
      | some excludes =>
        obtain ⟨v,hv,hv'⟩ := (hlast excludes).mp he
        obtain ⟨lists,rfl,hmem⟩ := mem_excludesOf hv'
        rw [he] at hp
        obtain ⟨items,hitems⟩ := (hmem pattern).mp hp
        exact ⟨lists,items,hv,hitems⟩
    · rintro ⟨lists,items,hlists,hitems⟩
      obtain ⟨excludes,he⟩ := exists_excludesOf lists
      obtain ⟨_,hm,hmem⟩ := mem_excludesOf he
      obtain rfl := Value.map.inj hm
      rw [(hlast excludes).mpr ⟨_,hlists,he⟩]
      exact (hmem pattern).mpr ⟨items,hitems⟩
  · intro name w
    have hlast := last_of_scan GrantFields.constraints "constraints".toList
      (fun v => some (decodeStringKeyedMap v))
      (fun b kv _ b' hf => (scanGrantField_step hf).constraints) rfl hscan
    constructor
    · rintro ⟨c,hc,hget⟩
      obtain ⟨v,hv,hv'⟩ := (hlast c).mp hc
      rw [← Option.some.inj hv'] at hget
      obtain ⟨entries,rfl,hentries⟩ := (get_decodeStringKeyedMap v name w).mp hget
      exact ⟨entries,hv,hentries⟩
    · rintro ⟨entries,hlists,hentries⟩
      refine ⟨decodeStringKeyedMap (.map entries),(hlast _).mpr ⟨_,hlists,rfl⟩,?_⟩
      exact (get_decodeStringKeyedMap _ name w).mpr ⟨entries,rfl,hentries⟩

/-! The caveats. -/

theorem scanCaveatField_fields (acc : DelegationCaveats) (kv : Value × Value) :
    (scanCaveatField acc kv).noDelegation =
      (if kv.1.asText = key "no_delegation" then kv.2.asBool else acc.noDelegation) ∧
    (scanCaveatField acc kv).maxDelegationDepth =
      (if kv.1.asText = key "max_delegation_depth" then kv.2.asU64 else acc.maxDelegationDepth) ∧
    (scanCaveatField acc kv).maxDelegationTtl =
      if kv.1.asText = key "max_delegation_ttl" then kv.2.asU64 else acc.maxDelegationTtl := by
  unfold scanCaveatField
  split_ifs with hn hd ht <;> simp_all [key_inj]

theorem decodeDelegationCaveats_keeps {value : Value} {c : DelegationCaveats}
    (h : decodeDelegationCaveats value = .ok c) : ∃ caveats, value = .map caveats ∧
      (∀ b, c.noDelegation = some b ↔ Last caveats "no_delegation".toList (.bool b)) ∧
      (∀ n, c.maxDelegationDepth = some n ↔
        ∃ v, Last caveats "max_delegation_depth".toList v ∧ v.asU64 = some n) ∧
      ∀ n, c.maxDelegationTtl = some n ↔
        ∃ v, Last caveats "max_delegation_ttl".toList v ∧ v.asU64 = some n := by
  simp only [decodeDelegationCaveats,bind_ok,okOr_ok,pure_ok] at h
  obtain ⟨caveats,hcaveats,rfl⟩ := h
  refine ⟨caveats,asMap_eq.mp hcaveats,fun b => ?_,fun n => ?_,fun n => ?_⟩
  · rw [last_of_fold DelegationCaveats.noDelegation "no_delegation".toList Value.asBool
      (fun acc kv => (scanCaveatField_fields acc kv).1) rfl b]
    simp [asBool_eq]
  · exact last_of_fold DelegationCaveats.maxDelegationDepth "max_delegation_depth".toList
      Value.asU64 (fun acc kv => (scanCaveatField_fields acc kv).2.1) rfl n
  · exact last_of_fold DelegationCaveats.maxDelegationTtl "max_delegation_ttl".toList
      Value.asU64 (fun acc kv => (scanCaveatField_fields acc kv).2.2) rfl n

/-! The token. -/

theorem getElem?_mapM {α β ε : Type} {f : α → Except ε β} {l : List α} {r : List β}
    (h : l.mapM f = .ok r) (i : ℕ) (b : β) :
    r[i]? = some b ↔ ∃ a, l[i]? = some a ∧ f a = .ok b := by
  induction l generalizing r i with
  | nil =>
    obtain rfl := Except.ok.inj h
    simp
  | cons a l ih =>
    simp only [List.mapM_cons,bind_ok,pure_ok] at h
    obtain ⟨b₁,hb,bs,hbs,rfl⟩ := h
    cases i with
    | zero => simp [hb]
    | succ i => simpa using ih hbs i

theorem ok_of_mapM {α β ε : Type} {f : α → Except ε β} {l : List α} {r : List β}
    (h : l.mapM f = .ok r) {i : ℕ} {a : α} (ha : l[i]? = some a) : ∃ b, f a = .ok b := by
  induction l generalizing r i with
  | nil => simp at ha
  | cons a' l ih =>
    simp only [List.mapM_cons,bind_ok] at h
    obtain ⟨b,hb,bs,hbs,-⟩ := h
    cases i with
    | zero =>
      simp only [List.getElem?_cons_zero,Option.some.injEq] at ha
      rw [← ha]
      exact ⟨b,hb⟩
    | succ i => exact ih hbs (by simpa using ha)

/-- What an entry does to the fields of a token: it sets the one it names. -/
structure TokenStep (acc acc' : TokenFields) (kv : Value × Value) : Prop where
  grants : acc'.grants = if kv.1.asText = key "grants" then
    kv.2.asArray.bind fun arr => (arr.mapM decodeGrantEntry).toOption else acc.grants
  granter : acc'.granter =
    if kv.1.asText = key "granter" then (decodeGranter kv.2).toOption else acc.granter
  grantee : .ok acc'.grantee =
    if kv.1.asText = key "grantee" then tokenHashField kv.2 acc.grantee else .ok acc.grantee
  parent : .ok acc'.parent =
    if kv.1.asText = key "parent" then tokenHashField kv.2 acc.parent else .ok acc.parent
  createdAt : .ok acc'.createdAt = if kv.1.asText = key "created_at" then
    decodeTemporalField kv.2 "created_at" else .ok acc.createdAt
  expiresAt : .ok acc'.expiresAt = if kv.1.asText = key "expires_at" then
    decodeTemporalField kv.2 "expires_at" else .ok acc.expiresAt
  notBefore : .ok acc'.notBefore = if kv.1.asText = key "not_before" then
    decodeTemporalField kv.2 "not_before" else .ok acc.notBefore
  delegationCaveats : acc'.delegationCaveats = if kv.1.asText = key "delegation_caveats" then
    (decodeDelegationCaveats kv.2).toOption else acc.delegationCaveats

theorem scanTokenField_step {acc' : TokenFields} {kv : Value × Value}
    (h : scanTokenField acc kv = .ok acc') : TokenStep acc acc' kv := by
  unfold scanTokenField at h
  split_ifs at h with hgrants hgranter hgrantee hparent hcreated hexpires hbefore hcaveats
  · simp only [bind_ok,pure_ok,okOr_ok] at h
    obtain ⟨arr,harr,gs,hgs,rfl⟩ := h
    constructor <;> simp [hgrants,key_inj,harr,hgs,Except.toOption]
  · simp only [bind_ok,pure_ok] at h
    obtain ⟨x,hx,rfl⟩ := h
    constructor <;> simp [hgranter,key_inj,hx,Except.toOption]
  · simp only [bind_ok,pure_ok] at h
    obtain ⟨x,hx,rfl⟩ := h
    constructor <;> simp [hgrantee,key_inj,hx]
  · simp only [bind_ok,pure_ok] at h
    obtain ⟨x,hx,rfl⟩ := h
    constructor <;> simp [hparent,key_inj,hx]
  · simp only [bind_ok,pure_ok] at h
    obtain ⟨x,hx,rfl⟩ := h
    constructor <;> simp [hcreated,key_inj,hx]
  · simp only [bind_ok,pure_ok] at h
    obtain ⟨x,hx,rfl⟩ := h
    constructor <;> simp [hexpires,key_inj,hx]
  · simp only [bind_ok,pure_ok] at h
    obtain ⟨x,hx,rfl⟩ := h
    constructor <;> simp [hbefore,key_inj,hx]
  · simp only [bind_ok,pure_ok] at h
    obtain ⟨x,hx,rfl⟩ := h
    constructor <;> simp [hcaveats,key_inj,hx,Except.toOption]
  · rw [← Except.ok.inj h]
    constructor <;>
      simp [hgrants,hgranter,hgrantee,hparent,hcreated,hexpires,hbefore,hcaveats]

/-- The grants a scan of a token's map leaves are those of the last list of grants. -/
theorem decoded_grants {grants : List GrantEntry}
    (hscan : foldE scanTokenField ⟨none,none,none,none,none,none,none,none⟩ map = .ok acc)
    (hg : acc.grants = some grants) :
    ∃ arr, Last map "grants".toList (.array arr) ∧ arr.mapM decodeGrantEntry = .ok grants := by
  have hlast := last_of_scan TokenFields.grants "grants".toList
    (fun v => v.asArray.bind fun arr => (arr.mapM decodeGrantEntry).toOption)
    (fun b kv _ b' hf => (scanTokenField_step hf).grants) rfl hscan grants
  obtain ⟨v,hv,hv'⟩ := hlast.mp hg
  obtain ⟨arr,harr,hgs⟩ := Option.bind_eq_some_iff.mp hv'
  rw [asArray_eq] at harr
  rw [harr] at hv
  exact ⟨arr,hv,toOption_eq.mp hgs⟩

theorem decoded_caveats
    (hscan : foldE scanTokenField ⟨none,none,none,none,none,none,none,none⟩ map = .ok acc)
    (c : DelegationCaveats) : acc.delegationCaveats = some c ↔
      ∃ v, Last map "delegation_caveats".toList v ∧ decodeDelegationCaveats v = .ok c := by
  have hlast := last_of_scan TokenFields.delegationCaveats "delegation_caveats".toList
    (fun v => (decodeDelegationCaveats v).toOption)
    (fun b kv _ b' hf => (scanTokenField_step hf).delegationCaveats) rfl hscan c
  simpa [toOption_eq] using hlast

theorem decoded_caveat
    (hscan : foldE scanTokenField ⟨none,none,none,none,none,none,none,none⟩ map = .ok acc)
    {γ : Type} (field : DelegationCaveats → Option γ) (P : List (Value × Value) → γ → Prop)
    (hfield : ∀ caveats c x, decodeDelegationCaveats (.map caveats) = .ok c →
      (field c = some x ↔ P caveats x)) (x : γ) : acc.delegationCaveats.bind field = some x ↔
      ∃ caveats, Last map "delegation_caveats".toList (.map caveats) ∧ P caveats x := by
  rw [Option.bind_eq_some_iff]
  constructor
  · rintro ⟨c,hc,hx⟩
    obtain ⟨v,hv,hdecode⟩ := (decoded_caveats hscan c).mp hc
    obtain ⟨caveats,rfl,-⟩ := decodeDelegationCaveats_keeps hdecode
    exact ⟨caveats,hv,(hfield caveats c x hdecode).mp hx⟩
  · rintro ⟨caveats,hv,hx⟩
    have hdecode : decodeDelegationCaveats (.map caveats) =
        .ok (caveats.foldl scanCaveatField ⟨none,none,none⟩) := rfl
    exact ⟨_,(decoded_caveats hscan _).mpr ⟨_,hv,hdecode⟩,(hfield _ _ x hdecode).mpr hx⟩

theorem decoded_grant {grants : List GrantEntry}
    (hscan : foldE scanTokenField ⟨none,none,none,none,none,none,none,none⟩ map = .ok acc)
    (hg : acc.grants = some grants) (i : ℕ) {P : GrantEntry → Prop}
    {Q : List (Value × Value) → Prop}
    (hfield : ∀ grant g, decodeGrantEntry (.map grant) = .ok g → (P g ↔ Q grant)) :
    (∃ g, grants[i]? = some g ∧ P g) ↔ ∃ grant, GrantOnWire Last map i grant ∧ Q grant := by
  obtain ⟨arr,harr,hgs⟩ := decoded_grants hscan hg
  constructor
  · rintro ⟨g,hi,hp⟩
    obtain ⟨v,hv,hdecode⟩ := (getElem?_mapM hgs i g).mp hi
    obtain ⟨grant,rfl,-⟩ := decodeGrantEntry_keeps hdecode
    exact ⟨grant,⟨arr,harr,hv⟩,(hfield grant g hdecode).mp hp⟩
  · rintro ⟨grant,⟨arr',harr',hv⟩,hq⟩
    obtain rfl := Value.array.inj (harr.unique harr')
    obtain ⟨g,hdecode⟩ := ok_of_mapM hgs hv
    exact ⟨g,(getElem?_mapM hgs i g).mpr ⟨_,hv,hdecode⟩,(hfield grant g hdecode).mpr hq⟩

/-- What a token keeps is what the last entries of its map say. -/
theorem keeps_iff {X : Platform} {entity : Entity} {token : CapabilityToken}
    (hread : X.fromReader entity.data = .ok (.map map))
    (h : CapabilityToken.fromEntity X entity = .ok token) (r : Restriction) :
    token.Keeps r ↔ OnWire Last map r := by
  simp only [CapabilityToken.fromEntity,bind_ok,mapErr_ok,okOr_ok,pure_ok] at h
  obtain ⟨_,_,value,hv,m,hm,acc,hacc,grants,hgrants,granter,_,grantee,_,createdAt,_,rfl⟩ := h
  obtain rfl := Except.ok.inj (hread.symm.trans hv)
  obtain rfl := Option.some.inj hm
  cases r with
  | excluded i scope pattern =>
    have hgrant := decoded_grant hacc hgrants i (P := fun g => pattern ∈ g.excludes scope)
      (fun grant g hdecode => by
        obtain ⟨_,hmap,hexcludes,-⟩ := decodeGrantEntry_keeps hdecode
        obtain rfl := Value.map.inj hmap
        exact hexcludes scope pattern)
    simpa [CapabilityToken.Keeps,OnWire] using hgrant
  | constrained i name w =>
    have hgrant := decoded_grant hacc hgrants i
      (P := fun g => ∃ c, g.constraints = some c ∧ c.get name = some w)
      (fun grant g hdecode => by
        obtain ⟨_,hmap,-,hconstraints⟩ := decodeGrantEntry_keeps hdecode
        obtain rfl := Value.map.inj hmap
        exact hconstraints name w)
    simpa [CapabilityToken.Keeps,OnWire] using hgrant
  | noDelegation b =>
    apply decoded_caveat hacc DelegationCaveats.noDelegation
      (fun caveats b => Last caveats "no_delegation".toList (.bool b))
    intro caveats c x hdecode
    obtain ⟨_,hmap,hno,-⟩ := decodeDelegationCaveats_keeps hdecode
    obtain rfl := Value.map.inj hmap
    exact hno x
  | maxDelegationDepth n =>
    have hcaveat := decoded_caveat hacc DelegationCaveats.maxDelegationDepth
      (fun caveats n => ∃ v, Last caveats "max_delegation_depth".toList v ∧ v.asU64 = some n)
      (fun caveats c x hdecode => by
        obtain ⟨_,hmap,-,hdepth,-⟩ := decodeDelegationCaveats_keeps hdecode
        obtain rfl := Value.map.inj hmap
        exact hdepth x) n
    simpa [CapabilityToken.Keeps,OnWire] using hcaveat
  | maxDelegationTtl n =>
    have hcaveat := decoded_caveat hacc DelegationCaveats.maxDelegationTtl
      (fun caveats n => ∃ v, Last caveats "max_delegation_ttl".toList v ∧ v.asU64 = some n)
      (fun caveats c x hdecode => by
        obtain ⟨_,hmap,-,-,httl⟩ := decodeDelegationCaveats_keeps hdecode
        obtain rfl := Value.map.inj hmap
        exact httl x) n
    simpa [CapabilityToken.Keeps,OnWire] using hcaveat

/-- Every restriction on the wire is in the token, and a map with one of the wrong type is
refused. -/
structure RestrictionsKept (X : Platform) (entity : Entity) (map : List (Value × Value)) :
    Prop where
  keeps : ∀ token, CapabilityToken.fromEntity X entity = .ok token →
    ∀ r, OnWire Occurs map r → token.Keeps r
  refused : ¬ WellTyped map → ∃ e, CapabilityToken.fromEntity X entity = .error e

/-- An accepted map restricts in full what it says, if and only if every restriction in it is
of the right type and none is said by earlier entries of a field alone. -/
theorem restrictions_kept_iff (X : Platform) (entity : Entity) (token : CapabilityToken)
    (map : List (Value × Value)) (hread : X.fromReader entity.data = .ok (.map map))
    (h : CapabilityToken.fromEntity X entity = .ok token) : RestrictionsKept X entity map ↔
      WellTyped map ∧ ∀ r, OnWire Occurs map r → OnWire Last map r := by
  have hkeeps := keeps_iff hread h
  constructor
  · intro hkept
    constructor
    · by_contra hwell
      obtain ⟨e,he⟩ := hkept.refused hwell
      rw [h] at he
      cases he
    · intro r hr
      exact (hkeeps r).mp (hkept.keeps token h r hr)
  · rintro ⟨hwell,hlast⟩
    constructor
    · intro token' h' r hr
      obtain rfl := Except.ok.inj (h.symm.trans h')
      exact (hkeeps r).mpr (hlast r hr)
    · intro hill
      exact absurd hwell hill

/-! Alice lets Bob do everything outside `secret/*`. The list of exclusions is well formed, or
a bare pattern. -/
namespace Sample

def guardedGrant (exclude : Value) : List (Value × Value) :=
  [(txt "handlers",.map [(txt "include",texts ["*"])]),
    (txt "resources",.map [(txt "exclude",exclude),(txt "include",texts ["*"])]),
    (txt "operations",.map [(txt "include",texts ["*"])])]

def guardedMap (exclude : Value) : List (Value × Value) :=
  [(txt "grants",.array [.map (guardedGrant exclude)]),
    (txt "grantee",.bytes bob.contentHash.toBytes),
    (txt "granter",.bytes alice.contentHash.toBytes),(txt "created_at",uint 1),
    (txt "delegation_caveats",.map [(txt "no_delegation",.bool true)])]

def guarded (exclude : Value) (digest : ℕ) :=
  entity "system/capability/token" (.map (guardedMap exclude)) digest

def listedToken := guarded (texts ["secret/*"])
  0xae37b9f09a3974742a413fdb6a58b1de71dc72a82637c85f44ee800124666a39
def bareToken := guarded (txt "secret/*")
  0x730409e1a0f9ed3f5b63d306a2293eeb90c6b2fc37ad5b81668aca33db70d8b9

def guardedCrates (exclude : Value) := platform [.map (guardedMap exclude)] [] []

theorem guarded_read (exclude : Value) (digest : ℕ) :
    (guardedCrates exclude).fromReader (guarded exclude digest).data =
      .ok (.map (guardedMap exclude)) := by
  simp [guardedCrates,guarded,platform,entity,okOr]

theorem guarded_accepted : (∃ token,
      CapabilityToken.fromEntity (guardedCrates (texts ["secret/*"])) listedToken = .ok token) ∧
    ∃ token, CapabilityToken.fromEntity (guardedCrates (txt "secret/*")) bareToken = .ok token := by
  have hok : (CapabilityToken.fromEntity (guardedCrates (texts ["secret/*"]))
        listedToken).toOption.any (fun t => t.parent = none) = true ∧
      (CapabilityToken.fromEntity (guardedCrates (txt "secret/*")) bareToken).toOption.any
        (fun t => t.parent = none) = true := by decide +kernel
  obtain ⟨t,ht,-⟩ := exists_ok_of_any hok.1
  obtain ⟨t',ht',-⟩ := exists_ok_of_any hok.2
  exact ⟨⟨t,ht⟩,t',ht'⟩

theorem guarded_grant {exclude : Value} {i : ℕ} {grant : List (Value × Value)} :
    GrantOnWire Occurs (guardedMap exclude) i grant ↔ i = 0 ∧ grant = guardedGrant exclude := by
  have hgrants : GrantOnWire Occurs (guardedMap exclude) i grant ↔
      [Value.map (guardedGrant exclude)][i]? = some (.map grant) := by
    simp [GrantOnWire,guardedMap,txt,Value.asText]
  rw [hgrants]
  cases i with
  | zero => simpa using eq_comm
  | succ i => simp

theorem guarded_caveats {exclude : Value} :
    Occurs (guardedMap exclude) "delegation_caveats".toList v ↔
      .map [(txt "no_delegation",.bool true)] = v := by
  simp [guardedMap,txt,Value.asText]

end Sample

open Sample

/-- A bare pattern is passed over, and the grant has no exclusions. -/
theorem bare_pattern_unrestricted : ¬ ∀ (X : Platform) (entity : Entity)
    (map : List (Value × Value)), X.fromReader entity.data = .ok (.map map) →
    RestrictionsKept X entity map := by
  intro h
  have hkept := h (guardedCrates (txt "secret/*")) bareToken _ (guarded_read _ _)
  obtain ⟨token,htoken⟩ := guarded_accepted.2
  have hwell : WellTyped (guardedMap (txt "secret/*")) := by
    by_contra hill
    obtain ⟨e,he⟩ := hkept.refused hill
    rw [htoken] at he
    cases he
  obtain ⟨items,hitems,-⟩ := hwell.excludes 0 (guardedGrant (txt "secret/*")) .resources
    [(txt "exclude",txt "secret/*"),(txt "include",texts ["*"])] (txt "secret/*")
    (guarded_grant.mpr ⟨rfl,rfl⟩) (by simp [guardedGrant,ScopeName.label,txt,Value.asText])
    (by simp [txt,Value.asText])
  cases hitems

theorem restrictions_kept_iff_sample : RestrictionsKept (guardedCrates (texts ["secret/*"]))
    listedToken (guardedMap (texts ["secret/*"])) := by
  obtain ⟨token,htoken⟩ := guarded_accepted.1
  refine (restrictions_kept_iff _ listedToken token _ (guarded_read _ _) htoken).mpr
    ⟨⟨?_,?_,?_,?_⟩,?_⟩
  · intro i grant scope lists v hgrant hlists hv
    obtain ⟨rfl,rfl⟩ := guarded_grant.mp hgrant
    have hexclude : v = texts ["secret/*"] := by
      cases scope <;>
        simp [guardedGrant,ScopeName.label,txt,Value.asText] at hlists <;>
        simp [← hlists,Value.asText] at hv
      exact hv.symm
    exact ⟨_,hexclude,by simp [txt]⟩
  · intro i grant v hgrant hv
    obtain ⟨rfl,rfl⟩ := guarded_grant.mp hgrant
    simp [guardedGrant,txt,Value.asText] at hv
  · intro caveats v hcaveats hv _
    obtain rfl := Value.map.inj (guarded_caveats.mp hcaveats).symm
    simp [txt,Value.asText] at hv
    exact ⟨true,hv.symm⟩
  · intro caveats v name hname hcaveats hv
    obtain rfl := Value.map.inj (guarded_caveats.mp hcaveats).symm
    simp only [List.mem_cons,List.not_mem_nil,or_false] at hname
    rcases hname with rfl | rfl <;> simp [txt,Value.asText] at hv
  · have honce : ((guardedMap (texts ["secret/*"])).map fun kv => kv.1.asText).Nodup := by
      decide
    have hgrants : ∀ i grant, GrantOnWire Occurs (guardedMap (texts ["secret/*"])) i grant →
        GrantOnWire Last (guardedMap (texts ["secret/*"])) i grant ∧
          grant = guardedGrant (texts ["secret/*"]) := by
      intro i grant hgrant
      have hshape := (guarded_grant.mp hgrant).2
      obtain ⟨grants,hg,hi⟩ := hgrant
      exact ⟨⟨grants,hg.last honce,hi⟩,hshape⟩
    intro r hr
    cases r with
    | excluded i scope pattern =>
      obtain ⟨grant,lists,items,hgrant,hlists,hitems⟩ := hr
      obtain ⟨hlast,rfl⟩ := hgrants i grant hgrant
      exact ⟨_,lists,items,hlast,hlists.last (by decide),hitems⟩
    | constrained i name value =>
      obtain ⟨grant,entries,hgrant,hentries,-⟩ := hr
      obtain ⟨-,rfl⟩ := hgrants i grant hgrant
      simp [guardedGrant,txt,Value.asText] at hentries
    | noDelegation b =>
      obtain ⟨caveats,hcaveats,hb⟩ := hr
      refine ⟨caveats,hcaveats.last honce,?_⟩
      obtain rfl := Value.map.inj (guarded_caveats.mp hcaveats).symm
      exact hb.last (by decide)
    | maxDelegationDepth n =>
      obtain ⟨caveats,v,hcaveats,hv,-⟩ := hr
      obtain rfl := Value.map.inj (guarded_caveats.mp hcaveats).symm
      simp [txt,Value.asText] at hv
    | maxDelegationTtl n =>
      obtain ⟨caveats,v,hcaveats,hv,-⟩ := hr
      obtain rfl := Value.map.inj (guarded_caveats.mp hcaveats).symm
      simp [txt,Value.asText] at hv

end EntityCore
