import EntityCore.Documents
import EntityCore.ScopeTags
import EntityCore.Transparency

/-! Closing over a scope. What is captured goes into the store, binding by binding, and
loading the hash of the capture brings back what each binding stands for. -/
namespace EntityCore

open Ecf List OrderedMap

/-- Values in which no tag occurs. -/
inductive Ecf.Tagless : Value → Prop
  | null : Tagless .null
  | bool (b) : Tagless (.bool b)
  | integer (i) : Tagless (.integer i)
  | float (f) : Tagless (.float f)
  | bytes (b) : Tagless (.bytes b)
  | text (s) : Tagless (.text s)
  | array {vs} (h : ∀ v ∈ vs, Tagless v) : Tagless (.array vs)
  | map {m} (hk : ∀ e ∈ m, Tagless e.1) (hv : ∀ e ∈ m, Tagless e.2) : Tagless (.map m)

/-- The decoder returns what was encoded. -/
def ReadsBack (X : Platform) (v : Value) : Prop := ∃ w, X.fromReader (toEcf v) = .ok w ∧ Same w v

namespace Compute

open Program

/-! What a capture makes of its bindings. -/

section Capture

variable (X : Platform) (scope : Scope)

/-- The entity that stands for a binding in the store. -/
def boundEntity : ComputeValue → Option Entity
  | .entity e => some e
  | .closure c => c.toEntity X
  | .error err => err.toEntity X
  | _ => none

def boundForm : ComputeValue → Value
  | .primitive v => kindValueBinding v
  | .uint u => kindValueBinding (integer u.toNat)
  | v => ((boundEntity X v).map fun e => kindEntityBinding e.contentHash).getD .null

def boundEntries : List (Value × Value) :=
  (canonicalSortedPairs scope.entries).map fun b => (.text b.1,boundForm X b.2)

def scopeDocument : Value := .map [entry "bindings" (.map (boundEntries X scope))]

def scopeEntity : Option Entity := (Entity.new X typeScope (toEcf (scopeDocument X scope))).toOption

def closureDocument (c : ClosureValue) : Value :=
  .map ([entry "body" (hashRef c.body),entry "params" (.array (c.params.map .text))]++
    c.env.toList.map fun env => entry "env" (hashRef env))

def errorDocument (err : ComputeError) : Value := .map [entry "code" (.text err.code.toList)]

/-- The entities a capture makes resident. -/
inductive Captured : Entity → Prop
  | bound {name v e} (h : scope.get name = some v) (he : boundEntity X v = some e) : Captured e
  | scope {e} (h : scopeEntity X scope = some e) : Captured e

/-- The documents it encodes. -/
inductive CapturedDocument : Value → Prop
  | scope : CapturedDocument (scopeDocument X scope)
  | closure {name c} (h : scope.get name = some (.closure c)) : CapturedDocument (closureDocument c)
  | error {name err} (h : scope.get name = some (.error err)) : CapturedDocument (errorDocument err)

/-- No other entity goes by the hash of a captured one, in the request or in the scope. -/
structure Addressed (included : OrderedMap Hash Entity) : Prop where
  included : ∀ e x, Captured X scope e → included.get e.contentHash = some x → x = e
  apart : ∀ e x, Captured X scope e → Captured X scope x → e.contentHash = x.contentHash → e = x

/-- What a binding is loaded as. The entity of a closure comes back as that closure. -/
inductive Restored : ComputeValue → ComputeValue → Prop
  | primitive {v w} (h : Same w v) : Restored (.primitive v) (.primitive w)
  | entity {e} (h : e.entityType = typeClosure → parseClosureEntity X e = none) :
      Restored (.entity e) (.entity e)
  | reconstructed {e c} (htype : e.entityType = typeClosure)
      (h : parseClosureEntity X e = some c) : Restored (.entity e) (.closure c)
  | closure (c) : Restored (.closure c) (.closure c)
  | error {err e} (htype : e.entityType = typeError)
      (h : (ComputeValue.entity e).errorCode X = some err.code.toList) :
      Restored (.error err) (.entity e)

end Capture

variable {X : Platform} {scope : Scope}

/-! Documents. -/

theorem tagless_entries {m : List (Value × Value)} (h : ∀ e ∈ m, Tagless e.1 ∧ Tagless e.2) :
    Tagless (.map m) :=
  .map (fun e he => (h e he).1) fun e he => (h e he).2

/-- Without tags a value is the same as itself. -/
theorem same_self {v : Value} (h : Tagless v) : Same v v := by
  induction h with
  | null => exact .null
  | bool b => exact .bool b
  | integer i => exact .integer i
  | float f => exact .float (Or.inl rfl)
  | bytes b => exact .bytes b
  | text s => exact .text s
  | array h ih => exact .array (forall₂_same.mpr ih)
  | map hk hv ihk ihv =>
    refine .map (List.Perm.refl _) (forall₂_same.mpr ?_) (forall₂_same.mpr ?_)
    · intro k hkey
      have ⟨e,he,hek⟩ := mem_map.mp hkey
      exact hek ▸ ihk e he
    · intro v hvalue
      have ⟨e,he,hev⟩ := mem_map.mp hvalue
      exact hev ▸ ihv e he

theorem tagless_kindEntityBinding (hash : Hash) : Tagless (kindEntityBinding hash) := by
  apply tagless_entries
  simp [entry,hashRef,Tagless.text,Tagless.bytes]

theorem tagless_boundForm {v : ComputeValue} (hv : ∀ p, v = .primitive p → Tagless p) :
    Tagless (boundForm X v) := by
  have hentity : Tagless (((boundEntity X v).map fun e =>
      kindEntityBinding e.contentHash).getD .null) := by
    cases boundEntity X v with
    | none => exact .null
    | some e => exact tagless_kindEntityBinding e.contentHash
  cases v with
  | primitive p =>
    apply tagless_entries
    simp [entry,Tagless.text,hv p rfl]
  | uint u =>
    apply tagless_entries
    simp [entry,integer,Tagless.text,Tagless.integer]
  | entity e => exact hentity
  | closure c => exact hentity
  | error err => exact hentity

theorem tagless_scopeDocument (htags : ∀ name p, scope.get name = some (.primitive p) → Tagless p) :
    Tagless (scopeDocument X scope) := by
  apply tagless_entries
  intro e he
  have hone := mem_singleton.mp he
  subst hone
  refine ⟨.text _,tagless_entries fun b hb => ?_⟩
  have ⟨binding,hmem,hb⟩ := mem_map.mp hb
  subst hb
  refine ⟨.text _,tagless_boundForm fun p hp => htags binding.1 p ?_⟩
  rw [← hp]
  exact (mem_entries scope _ _).mp ((perm_insertionSort _ _).mem_iff.mp hmem)

theorem tagless_closureDocument (c : ClosureValue) : Tagless (closureDocument c) := by
  apply tagless_entries
  intro e he
  simp only [cons_append,nil_append,mem_cons,mem_map,Option.mem_toList] at he
  rcases he with rfl | rfl | ⟨env,_,rfl⟩
  · exact ⟨.text _,.bytes _⟩
  · refine ⟨.text _,.array fun v hv => ?_⟩
    have ⟨p,_,hp⟩ := mem_map.mp hv
    subst hp
    exact .text p
  · exact ⟨.text _,.bytes _⟩

theorem tagless_errorDocument (err : ComputeError) : Tagless (errorDocument err) := by
  apply tagless_entries
  simp [entry,Tagless.text]

/-- A field of a document that was read back. -/
theorem get_same {w : Value} {m : List (Value × Value)} (h : Same w (.map m))
    (hn : (m.map fun kv => kv.1.asText).Nodup) (key : String) :
    Option.Rel Same (w.get key.toList) (getField m key) := by
  cases w with
  | map m' => exact getField_rel h hn key
  | _ => cases h

theorem dataStr_same {w : Value} {m : List (Value × Value)} (h : Same w (.map m))
    (hn : (m.map fun kv => kv.1.asText).Nodup) (key : String) :
    dataStr w key = (getField m key).bind Value.asText := by
  have hrel := get_same h hn key
  rw [dataStr]
  generalize w.get key.toList = a at hrel
  generalize getField m key = b at hrel
  cases hrel with
  | none => rfl
  | some hvw => exact hvw.asText_eq

theorem dataHash_same {w : Value} {m : List (Value × Value)} (h : Same w (.map m))
    (hn : (m.map fun kv => kv.1.asText).Nodup) (key : String) :
    dataHash w key = (getField m key).bind hashField := by
  have hrel := get_same h hn key
  rw [dataHash]
  generalize w.get key.toList = a at hrel
  generalize getField m key = b at hrel
  cases hrel with
  | none => rfl
  | some hvw => exact hvw.hashField_eq

theorem mapM_texts {ws : List Value} {texts : List Str}
    (h : List.Forall₂ Same ws (texts.map Value.text)) : ws.mapM Value.asText = some texts := by
  induction texts generalizing ws with
  | nil =>
    cases h
    rfl
  | cons t texts ih =>
    cases h with
    | cons hone hrest =>
      have htext : Value.asText _ = some t := hone.asText_eq
      simp [htext,ih hrest]

theorem parseClosure_reads {c : ClosureValue} {e : Entity} (hdata : e.data = toEcf (closureDocument c))
    (h : ReadsBack X (closureDocument c)) : parseClosureEntity X e = some c := by
  have ⟨w,hread,hsame⟩ := h
  have hdecode : decodeData X e = some w := by
    rw [decodeData,hdata,hread]
    rfl
  have hn : (([entry "body" (hashRef c.body),entry "params" (.array (c.params.map .text))]++
      c.env.toList.map fun env => entry "env" (hashRef env)).map fun kv => kv.1.asText).Nodup := by
    cases c.env <;> simp [entry,Value.asText]
  have hbody : dataHash w "body" = some c.body := by
    rw [dataHash_same hsame hn]
    simp [getField_cons,entry,Value.asText,hashRef,hashField_toBytes]
  have henv : dataHash w "env" = c.env := by
    rw [dataHash_same hsame hn]
    cases c.env <;> simp [getField,entry,Value.asText,hashRef,hashField_toBytes]
  have hparams : dataStrArray w "params" = some c.params := by
    have hrel := get_same hsame hn "params"
    have hfield : getField ([entry "body" (hashRef c.body),
        entry "params" (.array (c.params.map .text))]++
          c.env.toList.map fun env => entry "env" (hashRef env)) "params" =
        some (.array (c.params.map .text)) := by
      simp [getField_cons,entry,Value.asText]
    rw [hfield] at hrel
    rw [dataStrArray]
    generalize w.get "params".toList = a at hrel
    cases hrel with
    | some hvw =>
      cases hvw with
      | array hitems => exact mapM_texts hitems
  simp [parseClosureEntity,hdecode,hbody,henv,hparams]

theorem errorCode_reads {err : ComputeError} {e : Entity} (htype : e.entityType = typeError)
    (hdata : e.data = toEcf (errorDocument err)) (h : ReadsBack X (errorDocument err)) :
    (ComputeValue.entity e).errorCode X = some err.code.toList := by
  have ⟨w,hread,hsame⟩ := h
  have hdecode : decodeData X e = some w := by
    rw [decodeData,hdata,hread]
    rfl
  have hcode : dataStr w "code" = some err.code.toList := by
    rw [dataStr_same hsame (by simp)]
    simp [getField_cons,entry,Value.asText]
  simp [ComputeValue.errorCode,htype,hdecode,hcode]

/-! The capture. -/

theorem new_entity (hX : X.FormatAllocated) {t : Str} (htype : t ≠ []) (hpeer : t ≠ typePeer)
    (m : List (Value × Value)) : ∃ e, (Entity.new X t (toEcf (.map m))).toOption = some e ∧
      e.entityType = t ∧ e.data = toEcf (.map m) := by
  have ⟨e,he⟩ := Entity.new_ok hX htype hpeer (toEcf_map_ne_nil m)
  have hfields := Entity.newWithFormat_ok X he
  exact ⟨e,by rw [he]; rfl,hfields.1,hfields.2.1⟩

theorem closure_entity (hX : X.FormatAllocated) (c : ClosureValue) :
    ∃ e, c.toEntity X = some e ∧ e.entityType = typeClosure ∧ e.data = toEcf (closureDocument c) :=
  new_entity hX (by decide) (by decide) _

theorem error_entity (hX : X.FormatAllocated) (err : ComputeError) :
    ∃ e, err.toEntity X = some e ∧ e.entityType = typeError ∧ e.data = toEcf (errorDocument err) :=
  new_entity hX (by decide) (by decide) _

theorem scope_entity (hX : X.FormatAllocated) (scope : Scope) :
    ∃ e, scopeEntity X scope = some e ∧ e.data = toEcf (scopeDocument X scope) := by
  have ⟨e,he,_,hdata⟩ := new_entity (X := X) (t := typeScope) hX (by decide)
    (by decide) [entry "bindings" (.map (boundEntries X scope))]
  exact ⟨e,he,hdata⟩

section Runs

variable {W : Type} {host : Host W} {env : EvalEnv}
  {eval : Entity → Scope → EvalState W → Option ComputeValue × EvalState W}

theorem bindResident_run (hhost : host.Stores) (e : Entity) (s : EvalState W) :
    ∃ s', (bindResident e).run (performCommand host env eval) s =
        (.done (kindEntityBinding e.contentHash),s') ∧ ∀ h, host.contentGet s'.world h =
        if h = e.contentHash then some e else host.contentGet s.world h := by
  refine ⟨(s.put host e).2,rfl,fun h => ?_⟩
  rw [(put_fields s e).2.2,hhost.get_put]

/-- Only the entity of the binding is stored. -/
theorem encodeScopeBinding_run (hX : X.FormatAllocated) (hhost : host.Stores) (v : ComputeValue)
    (s : EvalState W) : ∃ s', (encodeScopeBinding X v).run (performCommand host env eval) s =
        (.done (boundForm X v),s') ∧
      (∀ e, boundEntity X v = some e → host.contentGet s'.world e.contentHash = some e) ∧
      ∀ h, (∀ e, boundEntity X v = some e → h ≠ e.contentHash) →
        host.contentGet s'.world h = host.contentGet s.world h := by
  have hresident (e : Entity) (hform : boundForm X v = kindEntityBinding e.contentHash)
      (hbound : boundEntity X v = some e)
      (hprogram : encodeScopeBinding X v = bindResident e) : ∃ s',
        (encodeScopeBinding X v).run (performCommand host env eval) s = (.done (boundForm X v),s') ∧
      (∀ e, boundEntity X v = some e → host.contentGet s'.world e.contentHash = some e) ∧
      ∀ h, (∀ e, boundEntity X v = some e → h ≠ e.contentHash) →
        host.contentGet s'.world h = host.contentGet s.world h := by
    have ⟨s',hrun,hget⟩ := @bindResident_run _ host env eval hhost e s
    refine ⟨s',by rw [hprogram,hform,hrun],fun x hx => ?_,fun h hh => ?_⟩
    · have hsame := Option.some.inj (hbound.symm.trans hx)
      subst hsame
      rw [hget,if_pos rfl]
    · rw [hget,if_neg (hh e hbound)]
  cases v with
  | primitive p => exact ⟨s,rfl,(fun _ h => nomatch h),fun _ _ => rfl⟩
  | uint u => exact ⟨s,rfl,(fun _ h => nomatch h),fun _ _ => rfl⟩
  | entity e => exact hresident e rfl rfl rfl
  | closure c =>
    have ⟨e,he,_⟩ := closure_entity hX c
    exact hresident e (by simp [boundForm,boundEntity,he]) he (by simp [encodeScopeBinding,he]; rfl)
  | error err =>
    have ⟨e,he,_⟩ := error_entity hX err
    exact hresident e (by simp [boundForm,boundEntity,he]) he (by simp [encodeScopeBinding,he]; rfl)

/-- One binding after the other; what a binding has stored is not replaced by a later one. -/
theorem encodeBindings_run (hX : X.FormatAllocated) (hhost : host.Stores)
    (hapart : ∀ e x, Captured X scope e → Captured X scope x →
      e.contentHash = x.contentHash → e = x) (bindings : List (Str × ComputeValue))
    (hmem : ∀ b ∈ bindings, scope.get b.1 = some b.2) (s : EvalState W) :
    ∃ s', (mapEach (fun b : Str × ComputeValue => do
          return (Value.text b.1,← encodeScopeBinding X b.2)) bindings).run
          (performCommand host env eval) s =
        (.done (bindings.map fun b => (.text b.1,boundForm X b.2)),s') ∧
      (∀ e, Captured X scope e → host.contentGet s.world e.contentHash = some e →
        host.contentGet s'.world e.contentHash = some e) ∧
      ∀ b ∈ bindings, ∀ e, boundEntity X b.2 = some e →
        host.contentGet s'.world e.contentHash = some e := by
  induction bindings generalizing s with
  | nil => exact ⟨s,rfl,fun _ _ h => h,fun _ h => nomatch h⟩
  | cons b bindings ih =>
    have ⟨s₁,hone,hstored,hother⟩ :=
      @encodeScopeBinding_run X _ host env eval hX hhost b.2 s
    have ⟨s₂,hrest,hkept,hall⟩ := ih (fun c hc => hmem c (mem_cons_of_mem _ hc)) s₁
    have hcaptured : ∀ e, boundEntity X b.2 = some e → Captured X scope e := fun e he =>
      .bound (hmem b mem_cons_self) he
    have hkeep : ∀ e, Captured X scope e → host.contentGet s.world e.contentHash = some e →
        host.contentGet s₁.world e.contentHash = some e := by
      intro e he hget
      by_cases hsame : ∃ x, boundEntity X b.2 = some x ∧ e.contentHash = x.contentHash
      · have ⟨x,hx,hhash⟩ := hsame
        have heq := hapart e x he (hcaptured x hx) hhash
        subst heq
        exact hstored e hx
      · rw [hother _ fun x hx hhash => hsame ⟨x,hx,hhash⟩]
        exact hget
    refine ⟨s₂,?_,fun e he hget => hkept e he (hkeep e he hget),fun c hc e he => ?_⟩
    · have hfirst : (do return (Value.text b.1,← encodeScopeBinding X b.2) : Eval _).run
          (performCommand host env eval) s = (.done (.text b.1,boundForm X b.2),s₁) := by
        rw [run_andThen,hone]
        rfl
      rw [mapEach,run_andThen,hfirst]
      dsimp only
      rw [run_andThen,hrest]
      rfl
    · cases hc with
      | head => exact hkept e (hcaptured e he) (hstored e he)
      | tail _ hc => exact hall c hc e he

/-- After the capture every captured entity is in the store. -/
theorem captureScope_run (hX : X.FormatAllocated) (hhost : host.Stores)
    (hapart : ∀ e x, Captured X scope e → Captured X scope x →
      e.contentHash = x.contentHash → e = x) (hentries : scope.entries ≠ []) (s : EvalState W) :
    ∃ e s', scopeEntity X scope = some e ∧ e.data = toEcf (scopeDocument X scope) ∧
      (captureScope X scope).run (performCommand host env eval) s = (.done (some e.contentHash),s') ∧
      ∀ x, Captured X scope x → host.contentGet s'.world x.contentHash = some x := by
  have hmem : ∀ b ∈ canonicalSortedPairs scope.entries, scope.get b.1 = some b.2 := fun b hb =>
    (mem_entries scope b.1 b.2).mp ((perm_insertionSort _ _).mem_iff.mp hb)
  have ⟨s₁,hbindings,_,hall⟩ :=
    @encodeBindings_run X _ _ host env eval hX hhost hapart _ hmem s
  have ⟨e,he,hdata⟩ := scope_entity hX scope
  have hnonempty : scope.entries.isEmpty = false := by simpa using hentries
  refine ⟨e,{(s₁.put host e).2 with
    encountered := (s₁.put host e).2.encountered.insert e.contentHash e},he,hdata,?_,?_⟩
  · have hexpect : (Entity.new X typeScope (toEcf (.map [entry "bindings" (.map
        ((canonicalSortedPairs scope.entries).map fun b =>
          (.text b.1,boundForm X b.2)))]))).toOption = some e := he
    simp only [captureScope,hnonempty,Bool.false_eq_true,if_false,run_andThen,hbindings,hexpect]
    rfl
  · intro x hx
    show host.contentGet (s₁.put host e).2.world x.contentHash = some x
    rw [(put_fields s₁ e).2.2,hhost.get_put]
    by_cases hhash : x.contentHash = e.contentHash
    · rw [if_pos hhash,hapart x e hx (.scope he) hhash]
    · rw [if_neg hhash]
      cases hx with
      | @bound name v _ hget hv =>
        have hentry : (name,v) ∈ canonicalSortedPairs scope.entries :=
          (perm_insertionSort _ _).mem_iff.mpr ((mem_entries scope name v).mpr hget)
        exact hall (name,v) hentry x hv
      | scope hscope =>
        have hsame := Option.some.inj (he.symm.trans hscope)
        subst hsame
        exact absurd rfl hhash

/-! The load. -/

theorem orEarly_some_bind {α β : Type} (a : α) (v : ComputeValue) (f : α → Eval β) :
    (orEarly (some a) v >>= f) = f a := rfl

/-- What is in reach of a load is met. -/
theorem resolveScopeEntity_run {hash : Hash} {e : Entity} {t : EvalState W}
    (h : (env.included.get hash <|> host.contentGet t.world hash) = some e) :
    (resolveScopeEntity hash).run (performCommand host env eval) t =
      (.done (some e),{t with encountered := t.encountered.insert hash e}) := by
  have hcommand : performCommand host env eval (.resolveScopeEntity hash) t =
      (some (some e),{t with encountered := t.encountered.insert hash e}) := by
    simp only [performCommand,h]
    rfl
  show (Program.step (Command.resolveScopeEntity hash) .done).run (performCommand host env eval) t = _
  rw [run_step,hcommand]
  rfl

theorem decodeScopeBinding_value {b v : Value} (h : Same b (kindValueBinding v)) (t : EvalState W) :
    ∃ w, (decodeScopeBinding X b).run (performCommand host env eval) t = (.done (.primitive w),t) ∧
      Same w v := by
  have hn : ([entry "kind" (.text "value".toList),entry "value" v].map fun kv =>
      kv.1.asText).Nodup := by simp [entry,Value.asText]
  have hkind : dataStr b "kind" = some "value".toList := by
    rw [dataStr_same h hn]
    simp [getField_cons,entry,Value.asText]
  have hrel := get_same h hn "value"
  have hfield : getField [entry "kind" (.text "value".toList),entry "value" v] "value" = some v := by
    simp [getField_cons,entry,Value.asText]
  rw [hfield] at hrel
  cases hvalue : b.get "value".toList with
  | none =>
    rw [hvalue] at hrel
    cases hrel
  | some w =>
    rw [hvalue] at hrel
    cases hrel with
    | some hsame =>
      refine ⟨w,?_,hsame⟩
      have hother : ¬ "value".toList = "entity".toList := by decide
      rw [decodeScopeBinding,hkind,orEarly_some_bind,if_neg hother,if_pos rfl,hvalue,orEarly_some_bind]
      rfl

theorem decodeScopeBinding_entity {b : Value} {e : Entity}
    (h : Same b (kindEntityBinding e.contentHash)) {t : EvalState W}
    (hfound : (env.included.get e.contentHash <|> host.contentGet t.world e.contentHash) = some e) :
    (decodeScopeBinding X b).run (performCommand host env eval) t =
      (.done (match if e.entityType = typeClosure then parseClosureEntity X e else none with
        | some closure => .closure closure
        | none => .entity e),{t with encountered := t.encountered.insert e.contentHash e}) := by
  have hn : ([entry "kind" (.text "entity".toList),entry "entity_hash"
      (hashRef e.contentHash)].map fun kv => kv.1.asText).Nodup := by simp [entry,Value.asText]
  have hkind : dataStr b "kind" = some "entity".toList := by
    rw [dataStr_same h hn]
    simp [getField_cons,entry,Value.asText]
  have hbytes : (b.get "entity_hash".toList).bind Value.asBytes = some e.contentHash.toBytes := by
    have hrel := get_same h hn "entity_hash"
    have hfield : getField [entry "kind" (.text "entity".toList),entry "entity_hash"
        (hashRef e.contentHash)] "entity_hash" = some (.bytes e.contentHash.toBytes) := by
      simp [getField_cons,entry,Value.asText,hashRef]
    rw [hfield] at hrel
    generalize b.get "entity_hash".toList = a at hrel
    cases hrel with
    | some hsame =>
      cases hsame
      rfl
  have hhash : (Hash.fromBytes e.contentHash.toBytes).toOption = some e.contentHash := by
    rw [Hash.fromBytes_toBytes]
    rfl
  rw [decodeScopeBinding,hkind,orEarly_some_bind,if_pos rfl,hbytes,orEarly_some_bind,hhash,orEarly_some_bind,
    run_andThen,resolveScopeEntity_run hfound]
  dsimp only
  rw [orEarly_some_bind]
  cases (if e.entityType = typeClosure then parseClosureEntity X e else none) <;> rfl

theorem decodeScopeBinding_run (hX : X.FormatAllocated) {v : ComputeValue}
    (hv : v.isUintTagged = false)
    (hclosure : ∀ c, v = .closure c → ReadsBack X (closureDocument c))
    (herror : ∀ err, v = .error err → ReadsBack X (errorDocument err)) {b : Value}
    (h : Same b (boundForm X v)) {t : EvalState W}
    (hfound : ∀ e, boundEntity X v = some e →
      (env.included.get e.contentHash <|> host.contentGet t.world e.contentHash) = some e) :
    ∃ w t', (decodeScopeBinding X b).run (performCommand host env eval) t = (.done w,t') ∧
      t'.world = t.world ∧ Restored X v w := by
  cases v with
  | uint u => simp [ComputeValue.isUintTagged] at hv
  | primitive p =>
    have hvalue : ∃ w, (decodeScopeBinding X b).run (performCommand host env eval) t =
        (.done (.primitive w),t) ∧ Same w p := decodeScopeBinding_value h t
    have ⟨w,hrun,hsame⟩ := hvalue
    exact ⟨_,t,hrun,rfl,.primitive hsame⟩
  | entity e =>
    refine ⟨_,_,decodeScopeBinding_entity h (hfound e rfl),rfl,?_⟩
    by_cases htype : e.entityType = typeClosure
    · rw [if_pos htype]
      cases hparse : parseClosureEntity X e with
      | none => exact .entity fun _ => hparse
      | some c => exact .reconstructed htype hparse
    · rw [if_neg htype]
      exact .entity fun h => absurd h htype
  | closure c =>
    have ⟨e,he,htype,hdata⟩ := closure_entity hX c
    have hform : boundForm X (.closure c) = kindEntityBinding e.contentHash := by
      simp [boundForm,boundEntity,he]
    rw [hform] at h
    refine ⟨_,_,decodeScopeBinding_entity h (hfound e he),rfl,?_⟩
    rw [if_pos htype,parseClosure_reads hdata (hclosure c rfl)]
    exact .closure c
  | error err =>
    have ⟨e,he,htype,hdata⟩ := error_entity hX err
    have hform : boundForm X (.error err) = kindEntityBinding e.contentHash := by
      simp [boundForm,boundEntity,he]
    rw [hform] at h
    refine ⟨_,_,decodeScopeBinding_entity h (hfound e he),rfl,?_⟩
    have hother : ¬ e.entityType = typeClosure := by
      rw [htype]
      decide
    rw [if_neg hother]
    exact .error htype (errorCode_reads htype hdata (herror err rfl))

/-- What a load takes for granted of a scope that was captured. -/
structure Loads (X : Platform) (host : Host W) (env : EvalEnv) (scope : Scope) (w : W) : Prop where
  untagged : Untagged scope
  closure : ∀ name c, scope.get name = some (.closure c) → ReadsBack X (closureDocument c)
  error : ∀ name err, scope.get name = some (.error err) → ReadsBack X (errorDocument err)
  found : ∀ e, Captured X scope e →
    (env.included.get e.contentHash <|> host.contentGet w e.contentHash) = some e

/-- Every entry that is read back sets its name to what the binding is loaded as. -/
theorem loadBindings_run (hX : X.FormatAllocated) (entries : List (Value × Value))
    (hentries : ∀ b ∈ entries, ∃ name v, b.1 = .text name ∧ scope.get name = some v ∧
      Same b.2 (boundForm X v)) (acc : Scope) {t : EvalState W}
    (hloads : Loads X host env scope t.world) :
    ∃ loaded t', (foldEach (loadBinding X) acc entries).run (performCommand host env eval) t =
        (.done loaded,t') ∧ ∀ name, (Value.text name ∈ entries.map Prod.fst →
          ∃ v w, scope.get name = some v ∧ loaded.get name = some w ∧ Restored X v w) ∧
        (Value.text name ∉ entries.map Prod.fst → loaded.get name = acc.get name) := by
  induction entries generalizing acc t with
  | nil =>
    refine ⟨acc,t,rfl,fun name => ⟨?_,fun _ => rfl⟩⟩
    simp
  | cons b entries ih =>
    have ⟨name,v,hname,hget,hsame⟩ := hentries b mem_cons_self
    have ⟨w,t₁,hdecode,hworld,hrestored⟩ := @decodeScopeBinding_run X _ host env eval hX v
      (hloads.untagged name v hget) (fun c hc => hloads.closure name c (hc ▸ hget))
      (fun err herr => hloads.error name err (herr ▸ hget)) b.2 hsame t
      fun e he => hloads.found e (.bound hget he)
    have hone : (loadBinding X acc b).run (performCommand host env eval) t =
        (.done (acc.insert name w),t₁) := by
      have htext : b.1.asText = some name := by rw [hname]; rfl
      rw [loadBinding,htext]
      dsimp only
      rw [run_andThen,hdecode]
      rfl
    have ⟨loaded,t₂,hrest,hall⟩ := ih (fun c hc => hentries c (mem_cons_of_mem _ hc))
      (acc.insert name w) (hworld ▸ hloads)
    refine ⟨loaded,t₂,?_,fun other => ?_⟩
    · rw [foldEach,run_andThen,hone]
      exact hrest
    · have ⟨hlater,hno⟩ := hall other
      rw [map_cons,hname]
      by_cases hin : Value.text other ∈ entries.map Prod.fst
      · exact ⟨fun _ => hlater hin,fun h => absurd (mem_cons_of_mem _ hin) h⟩
      · have hvalue := hno hin
        rw [get_insert] at hvalue
        by_cases hother : other = name
        · subst hother
          rw [if_pos rfl] at hvalue
          exact ⟨fun _ => ⟨v,w,hget,hvalue,hrestored⟩,fun h => absurd mem_cons_self h⟩
        · rw [if_neg hother] at hvalue
          refine ⟨fun h => ?_,fun _ => hvalue⟩
          cases h with
          | head => exact absurd rfl hother
          | tail _ h => exact absurd h hin

/-- The entries of maps that are the same pair up. -/
theorem entries_same {m n : List (Value × Value)} (h : Same (.map m) (.map n)) :
    (∀ b ∈ m, ∃ c ∈ n, Same b.1 c.1 ∧ Same b.2 c.2) ∧
      ∀ c ∈ n, ∃ b ∈ m, Same b.1 c.1 ∧ Same b.2 c.2 := by
  cases h with
  | @map _ m' _ hp hk hv =>
    have hzip : ∀ (m n : List (Value × Value)), List.Forall₂ Same (m.map Prod.fst) (n.map Prod.fst) →
        List.Forall₂ Same (m.map Prod.snd) (n.map Prod.snd) →
        (∀ b ∈ m, ∃ c ∈ n, Same b.1 c.1 ∧ Same b.2 c.2) ∧
          ∀ c ∈ n, ∃ b ∈ m, Same b.1 c.1 ∧ Same b.2 c.2 := by
      intro m
      induction m with
      | nil =>
        intro n hk _
        cases n with
        | nil => simp
        | cons c n => cases hk
      | cons b m ih =>
        intro n hk hv
        cases n with
        | nil => cases hk
        | cons c n =>
          simp only [map_cons,forall₂_cons] at hk hv
          have ⟨hleft,hright⟩ := ih n hk.2 hv.2
          constructor
          · intro x hx
            cases hx with
            | head => exact ⟨c,mem_cons_self,hk.1,hv.1⟩
            | tail _ hx =>
              have ⟨y,hy,hsame⟩ := hleft x hx
              exact ⟨y,mem_cons_of_mem _ hy,hsame⟩
          · intro y hy
            cases hy with
            | head => exact ⟨b,mem_cons_self,hk.1,hv.1⟩
            | tail _ hy =>
              have ⟨x,hx,hsame⟩ := hright y hy
              exact ⟨x,mem_cons_of_mem _ hx,hsame⟩
    have ⟨hleft,hright⟩ := hzip m' n hk hv
    refine ⟨fun b hb => hleft b (hp.mem_iff.mp hb),fun c hc => ?_⟩
    have ⟨b,hb,hsame⟩ := hright c hc
    exact ⟨b,hp.mem_iff.mpr hb,hsame⟩

theorem loadScope_run (hX : X.FormatAllocated) {e : Entity} (hcaptured : scopeEntity X scope = some e)
    (hdata : e.data = toEcf (scopeDocument X scope)) (hreads : ReadsBack X (scopeDocument X scope))
    {t : EvalState W} (hloads : Loads X host env scope t.world) :
    ∃ loaded t', (loadScope X (some e.contentHash)).run (performCommand host env eval) t =
        (.done loaded,t') ∧ ∀ name, Option.Rel (Restored X) (scope.get name) (loaded.get name) := by
  obtain ⟨w,hread,hsame⟩ := hreads
  have hdecode : decodeData X e = some w := by
    rw [decodeData,hdata,hread]
    rfl
  obtain ⟨entries,hbindings,hentries⟩ : ∃ entries, (w.get "bindings".toList).bind Value.asMap =
      some entries ∧ Same (.map entries) (.map (boundEntries X scope)) := by
    have hrel := get_same hsame (by simp) "bindings"
    have hfield : getField [entry "bindings" (.map (boundEntries X scope))] "bindings" =
        some (.map (boundEntries X scope)) := by simp [getField_cons,entry,Value.asText]
    rw [hfield] at hrel
    generalize w.get "bindings".toList = a at hrel
    cases hrel with
    | @some v _ h =>
      cases v with
      | map entries => exact ⟨entries,rfl,h⟩
      | _ => cases h
  obtain ⟨hleft,hright⟩ := entries_same hentries
  have hbound : ∀ c ∈ boundEntries X scope, ∃ name v, c.1 = .text name ∧
      scope.get name = some v ∧ c.2 = boundForm X v := by
    intro c hc
    obtain ⟨b,hb,hbc⟩ := mem_map.mp hc
    subst hbc
    exact ⟨b.1,b.2,rfl,(mem_entries scope _ _).mp
      ((perm_insertionSort _ _).mem_iff.mp hb),rfl⟩
  have hload : ∀ b ∈ entries, ∃ name v, b.1 = .text name ∧ scope.get name = some v ∧
      Same b.2 (boundForm X v) := by
    intro b hb
    obtain ⟨c,hc,hkey,hvalue⟩ := hleft b hb
    obtain ⟨name,v,hname,hget,hform⟩ := hbound c hc
    rw [hname] at hkey
    rw [hform] at hvalue
    refine ⟨name,v,?_,hget,hvalue⟩
    generalize b.1 = key at hkey
    cases hkey
    rfl
  obtain ⟨loaded,t₁,hrun,hall⟩ := @loadBindings_run X _ _ host env eval hX entries hload .empty
    {t with encountered := t.encountered.insert e.contentHash e} hloads
  refine ⟨loaded,t₁,?_,fun name => ?_⟩
  · rw [loadScope,run_andThen,resolveScopeEntity_run (hloads.found e (.scope hcaptured))]
    simp only [hdecode,Option.bind_some,hbindings]
    exact hrun
  · obtain ⟨hin,hout⟩ := hall name
    cases hget : scope.get name with
    | none =>
      have hnot : Value.text name ∉ entries.map Prod.fst := by
        intro h
        obtain ⟨b,hb,hkey⟩ := mem_map.mp h
        obtain ⟨other,v,hother,hsome,_⟩ := hload b hb
        have hnames := Value.text.inj (hkey.symm.trans hother)
        rw [← hnames,hget] at hsome
        cases hsome
      rw [hout hnot]
      exact .none
    | some v =>
      have hmem : (Value.text name,boundForm X v) ∈ boundEntries X scope :=
        mem_map.mpr ⟨(name,v),(perm_insertionSort _ _).mem_iff.mpr
          ((mem_entries scope name v).mpr hget),rfl⟩
      obtain ⟨b,hb,hkey,_⟩ := hright _ hmem
      have htext : b.1 = .text name := by
        generalize b.1 = key at hkey
        cases hkey
        rfl
      obtain ⟨v',w',hv',hw',hrestored⟩ := hin (mem_map.mpr ⟨b,hb,htext⟩)
      have hsame := Option.some.inj (hget.symm.trans hv')
      subst hsame
      rw [hw']
      exact .some hrestored

end Runs

/-! A note, an error, a closure and a number, captured together; and the entity of a closure. -/
namespace ComputeSample

open Sample

def constantYes : ClosureValue := ⟨["x".toList],yes.entity.contentHash,none⟩
def constantDoc : Doc := ⟨"compute/closure",closureDocument constantYes,
  0xe7d23e3dd2e32a2e6e6fb1632b41972e5fa3def33baf1bbcb6b609ed4d5b7e18⟩
def divisionDoc : Doc := ⟨"compute/error",errorDocument .divisionByZero,
  0xd98caf6563b0027cc05fabf3fa936d44545c1d4834b5203c8ef31de69559b168⟩

def kindEntity (d : Doc) : Value := kindEntityBinding d.entity.contentHash
def mixedDoc : Doc := ⟨"compute/scope",.map [(txt "bindings",.map [(txt "c",kindEntity note),
  (txt "e",kindEntity divisionDoc),(txt "f",kindEntity constantDoc),
  (txt "n",kindValueBinding (integer 1))])],
  0x9bca54d2e4f8ef49ef5fbfe89af2eb195f590f62f7ab42d7ee4771225c4ebd83⟩
def storedDoc : Doc := ⟨"compute/scope",.map [(txt "bindings",.map [(txt "f",kindEntity constantDoc)])],
  0xa8466a73bf743f9a884afebf776d867a181835a3321f8dd82d296a8744a6a467⟩

def scopeDocs : List Doc := [note,constantDoc,divisionDoc,mixedDoc,storedDoc]

def mixed : List (Str × ComputeValue) := [("c".toList,.entity note.entity),
  ("e".toList,.error .divisionByZero),("f".toList,.closure constantYes),
  ("n".toList,.primitive (integer 1))]

theorem mixed_cases {name : Str} {v : ComputeValue} (h : (ofList mixed).get name = some v) :
    v = .entity note.entity ∨ v = .error .divisionByZero ∨ v = .closure constantYes ∨
      v = .primitive (integer 1) := by
  simp only [ofList,mixed,foldl_cons,foldl_nil,get_insert] at h
  split_ifs at h <;> simp_all

/-- The entities of the capture. -/
theorem evaluated_capture :
    ((scopeDocs.map Doc.value).map toEcf).Nodup ∧
    (boundEntity (crates scopeDocs) (.error .divisionByZero) = some divisionDoc.entity ∧
      boundEntity (crates scopeDocs) (.closure constantYes) = some constantDoc.entity ∧
      scopeEntity (crates scopeDocs) (ofList mixed) = some mixedDoc.entity) ∧
    ∀ e ∈ [note,constantDoc,divisionDoc,mixedDoc].map Doc.entity,
      ∀ x ∈ [note,constantDoc,divisionDoc,mixedDoc].map Doc.entity,
        e.contentHash = x.contentHash → e = x := by
  decide +kernel

theorem mixed_captured {e : Entity} (h : Captured (crates scopeDocs) (ofList mixed) e) :
    e ∈ [note,constantDoc,divisionDoc,mixedDoc].map Doc.entity := by
  obtain ⟨-,hbound,-⟩ := evaluated_capture
  cases h with
  | bound hget he =>
    rcases mixed_cases hget with rfl | rfl | rfl | rfl
    · simp [← Option.some.inj he]
    · simp [← Option.some.inj (hbound.1.symm.trans he)]
    · simp [← Option.some.inj (hbound.2.1.symm.trans he)]
    · cases he
  | scope h => simp [← Option.some.inj (hbound.2.2.symm.trans h)]

end ComputeSample

open ComputeSample Sample

end Compute
end EntityCore
