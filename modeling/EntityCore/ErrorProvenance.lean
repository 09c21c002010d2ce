import EntityCore.CapturedScopes
import EntityCore.Relational

/-! Errors in their two forms, minted and as an entity. The forms and the builtins do not
tell the two apart, but for the resource and the capability of an application. -/
namespace EntityCore
namespace Compute

open Ecf Strings Program

/-- A minted error and the entity of its code, which reads back. -/
structure TwoForms (X : Platform) where
  minted : ComputeError
  stored : Entity
  built : minted.toEntity X = some stored
  reads : ReadsBack X (errorDocument minted)

theorem toEntity_fields {X : Platform} {err : ComputeError} {e : Entity} (h : err.toEntity X = some e) :
    e.entityType = typeError ∧ e.data = toEcf (errorDocument err) := by
  rw [ComputeError.toEntity,errorEntity] at h
  cases hnew : Entity.new X typeError (toEcf (.map [entry "code" (.text err.code.toList)])) with
  | error message =>
    rw [hnew] at h
    cases h
  | ok made =>
    rw [hnew] at h
    have hsame : made = e := Option.some.inj h
    subst hsame
    have hfields := Entity.newWithFormat_ok X hnew
    exact ⟨hfields.1,hfields.2.1⟩

namespace TwoForms

variable {X : Platform} (T : TwoForms X)

/-- Equal, or the minted error here and its entity there. -/
inductive Alike : ComputeValue → ComputeValue → Prop
  | refl (v : ComputeValue) : Alike v v
  | error : Alike (.error T.minted) (.entity T.stored)

def ScopesAlike (s t : Scope) : Prop :=
  List.Forall₂ (fun a b => a.1 = b.1 ∧ T.Alike a.2 b.2) s.entries t.entries

/-- Sub-expressions are evaluated in scopes that are alike, and all else is asked for alike. -/
inductive Matched : (c d : Command) → (Answer c → Answer d → Prop) → Prop
  | evaluate (e : Entity) {s t : Scope} (h : T.ScopesAlike s t) :
    Matched (.evaluate e s) (.evaluate e t) T.Alike
  | other (c : Command) (h : ∀ e s, c ≠ .evaluate e s) : Matched c c Eq

abbrev Matches {α β : Type} (done : α → β → Prop) (p : Eval α) (q : Eval β) : Prop :=
  Corresponds T.Matched T.Alike done p q

inductive ResultsAlike : EvalResult → EvalResult → Prop
  | value {v w : ComputeValue} (h : T.Alike v w) : ResultsAlike (.value v) (.value w)
  | tailCall (e : Entity) {s t : Scope} (strip : Bool) (h : T.ScopesAlike s t) :
    ResultsAlike (.tailCall e s strip) (.tailCall e t strip)

/-! Values. -/

theorem stored_type : T.stored.entityType = typeError := (toEntity_fields T.built).1

theorem stored_code : (ComputeValue.entity T.stored).errorCode X = some T.minted.code.toList :=
  errorCode_reads T.stored_type (toEntity_fields T.built).2 T.reads

theorem materialized : materializeErrorValue X T.stored = some T.stored := by
  have hcode := T.stored_code
  rw [ComputeValue.errorCode,if_pos T.stored_type] at hcode
  rw [materializeErrorValue,hcode]
  exact T.built

variable {T} {v w : ComputeValue}

theorem Alike.isError (h : T.Alike v w) : v.isError = w.isError := by
  cases h with
  | refl v => rfl
  | error => simp [ComputeValue.isError,T.stored_type]

theorem Alike.errorCode (h : T.Alike v w) : v.errorCode X = w.errorCode X := by
  cases h with
  | refl v => rfl
  | error => exact T.stored_code.symm

theorem Alike.isSharedResourceError (h : T.Alike v w) :
    v.isSharedResourceError X = w.isSharedResourceError X := by
  rw [ComputeValue.isSharedResourceError,ComputeValue.isSharedResourceError,h.errorCode]

theorem Alike.eq (h : T.Alike v w) (hv : v.isError = false) : v = w := by
  cases h with
  | refl v => rfl
  | error => cases hv

theorem Alike.stripCastTag (h : T.Alike v w) : T.Alike (stripCastTag v) (stripCastTag w) := by
  cases h with
  | refl v => exact .refl _
  | error => exact .error

theorem Alike.stripIf (strip : Bool) (h : T.Alike v w) : T.Alike (stripIf strip v) (stripIf strip w) := by
  cases strip with
  | false => exact h
  | true => exact h.stripCastTag

/-- What places a value without reading it makes the same of both. -/
theorem Alike.contained (h : T.Alike v w) : containedElement X v = containedElement X w := by
  cases h with
  | refl v => rfl
  | error =>
    show (expect (T.minted.toEntity X) >>= storeRef) =
      if T.stored.entityType = typeError then expect (materializeErrorValue X T.stored) >>= storeRef
        else storeRef T.stored
    rw [if_pos T.stored_type,T.built,T.materialized]

theorem Alike.storedForm (h : T.Alike v w) : storedForm X v = storedForm X w := by
  cases h with
  | refl v => rfl
  | error =>
    show expect (T.minted.toEntity X) = if T.stored.entityType = typeError then
      expect (materializeErrorValue X T.stored) else pure T.stored
    rw [if_pos T.stored_type,T.built,T.materialized]

theorem Alike.encoded (h : T.Alike v w) : encodeScopeBinding X v = encodeScopeBinding X w := by
  cases h with
  | refl v => rfl
  | error =>
    show (expect (T.minted.toEntity X) >>= bindResident) = bindResident T.stored
    rw [T.built]
    rfl

/-! Scopes. -/

variable {s t : Scope}

theorem ScopesAlike.refl (s : Scope) : T.ScopesAlike s s :=
  List.forall₂_same.mpr fun b _ => ⟨rfl,.refl b.2⟩

theorem ScopesAlike.get (h : T.ScopesAlike s t) (name : Str) :
    Option.Rel T.Alike (s.get name) (t.get name) := by
  have hlookup : ∀ {l m : List (Str × ComputeValue)},
      List.Forall₂ (fun a b => a.1 = b.1 ∧ T.Alike a.2 b.2) l m →
        Option.Rel T.Alike (OrderedMap.lookup name l) (OrderedMap.lookup name m) := by
    intro l m hlm
    induction hlm with
    | nil => exact .none
    | @cons a b l m hab _ ih =>
      simp only [OrderedMap.lookup,hab.1]
      by_cases hname : b.1 = name
      · rw [if_pos hname,if_pos hname]
        exact .some hab.2
      · rw [if_neg hname,if_neg hname]
        exact ih
  exact hlookup h

theorem ScopesAlike.insert (h : T.ScopesAlike s t) (name : Str) (hv : T.Alike v w) :
    T.ScopesAlike (s.insert name v) (t.insert name w) := by
  have hinsert : ∀ {l m : List (Str × ComputeValue)},
      List.Forall₂ (fun a b => a.1 = b.1 ∧ T.Alike a.2 b.2) l m →
        List.Forall₂ (fun a b => a.1 = b.1 ∧ T.Alike a.2 b.2)
          (OrderedMap.insertEntry name v l) (OrderedMap.insertEntry name w m) := by
    intro l m hlm
    induction hlm with
    | nil => exact .cons ⟨rfl,hv⟩ .nil
    | @cons a b l m hab hrest ih =>
      simp only [OrderedMap.insertEntry,hab.1]
      by_cases hlt : name < b.1
      · rw [if_pos hlt,if_pos hlt]
        exact .cons ⟨rfl,hv⟩ (.cons ⟨rfl,hab.2⟩ hrest)
      · rw [if_neg hlt,if_neg hlt]
        by_cases hname : b.1 = name
        · rw [if_pos hname,if_pos hname]
          exact .cons ⟨rfl,hv⟩ hrest
        · rw [if_neg hname,if_neg hname]
          exact .cons ⟨rfl,hab.2⟩ ih
  exact hinsert h

/-! Helpers of the forms. -/

variable {F : Runtime} {env : EvalEnv}

theorem orEarly_matches {α : Type} (o : Option α) (v : ComputeValue) :
    T.Matches Eq (orEarly o v) (orEarly o v) := .orEarly o (.refl v)

theorem early_matches {α β : Type} {done : α → β → Prop} (v : ComputeValue) :
    T.Matches done (.early v) (.early v) := .early (.refl v)

theorem perform_matches (c : Command) (h : ∀ e s, c ≠ Command.evaluate e s) :
    T.Matches Eq (perform c) (perform c) := .perform (.other c h)

theorem evaluateSub_matches (e : Entity) (h : T.ScopesAlike s t) :
    T.Matches T.Alike (evaluateSub e s) (evaluateSub e t) := by
  have hmatched : T.Matched (.evaluate e s) (.evaluate e t) T.Alike := .evaluate e h
  exact Corresponds.step hmatched fun _ _ hvw => .done hvw

theorem resolveOrError_matches (hash : Hash) (label : String) :
    T.Matches Eq (resolveOrError hash label) (resolveOrError hash label) :=
  (perform_matches _ (by nofun)).bind_eq fun _ => orEarly_matches _ _

theorem consumed_matches (h : T.Alike v w) : T.Matches Eq (consumed v) (consumed w) := by
  rw [consumed,consumed,← h.isError]
  by_cases herror : v.isError = true
  · rw [if_pos herror,if_pos herror]
    exact .early h
  · rw [if_neg herror,if_neg herror]
    exact .done (h.eq (by simpa using herror))

theorem evalHashRef_matches (data : Value) (key label : String) (h : T.ScopesAlike s t) :
    T.Matches T.Alike (evalHashRef data key label s) (evalHashRef data key label t) :=
  (orEarly_matches _ _).bind_eq fun hash => (resolveOrError_matches hash label).bind_eq fun target =>
    evaluateSub_matches target h

theorem operand_matches (data : Value) (key label : String) (h : T.ScopesAlike s t) :
    T.Matches Eq (operand data key label s) (operand data key label t) :=
  (evalHashRef_matches data key label h).bind fun _ _ => consumed_matches

theorem evaluateConsumed_matches {α β : Type} {done : α → β → Prop} (e : Entity)
    (h : T.ScopesAlike s t) {f : ComputeValue → Eval α} {g : ComputeValue → Eval β}
    (hf : ∀ v, T.Matches done (f v) (g v)) :
    T.Matches done (evaluateSub e s >>= fun v => consumed v >>= f)
      (evaluateSub e t >>= fun v => consumed v >>= g) :=
  (evaluateSub_matches e h).bind fun _ _ hvw => (consumed_matches hvw).bind_eq hf

theorem storeRef_matches (e : Entity) : T.Matches Eq (storeRef e) (storeRef e) :=
  (perform_matches _ (by nofun)).bind_eq fun _ => .done rfl

theorem computeValueToCbor_matches (v : ComputeValue) :
    T.Matches Eq (computeValueToCbor X v) (computeValueToCbor X v) := by
  cases v with
  | closure c => exact (Corresponds.expect _).bind_eq fun _ => .done rfl
  | error e => exact (Corresponds.expect _).bind_eq fun _ => .done rfl
  | _ => exact .done rfl

/-! Scopes of closures. -/

theorem bindResident_matches (e : Entity) : T.Matches Eq (bindResident e) (bindResident e) :=
  (perform_matches _ (by nofun)).bind_eq fun _ => .done rfl

theorem encodeScopeBinding_matches (v : ComputeValue) :
    T.Matches Eq (encodeScopeBinding X v) (encodeScopeBinding X v) := by
  cases v with
  | entity e => exact bindResident_matches e
  | closure c => exact (Corresponds.expect _).bind_eq bindResident_matches
  | error e => exact (Corresponds.expect _).bind_eq bindResident_matches
  | _ => exact .done rfl

/-- The order of the bindings is that of their names. -/
theorem orderedInsert_alike {a b : Str × ComputeValue} {l m : List (Str × ComputeValue)}
    (hab : a.1 = b.1 ∧ T.Alike a.2 b.2)
    (h : List.Forall₂ (fun a b => a.1 = b.1 ∧ T.Alike a.2 b.2) l m) :
    List.Forall₂ (fun a b => a.1 = b.1 ∧ T.Alike a.2 b.2)
      (l.orderedInsert (fun a b => keyLe (toEcf (.text a.1)) (toEcf (.text b.1))) a)
      (m.orderedInsert (fun a b => keyLe (toEcf (.text a.1)) (toEcf (.text b.1))) b) := by
  induction h with
  | nil => exact .cons hab .nil
  | @cons c d l m hcd hrest ih =>
    simp only [List.orderedInsert,hab.1,hcd.1]
    by_cases hle : keyLe (toEcf (.text b.1)) (toEcf (.text d.1))
    · rw [if_pos hle,if_pos hle]
      exact .cons hab (.cons hcd hrest)
    · rw [if_neg hle,if_neg hle]
      exact .cons hcd ih

theorem canonicalSortedPairs_alike {l m : List (Str × ComputeValue)}
    (h : List.Forall₂ (fun a b => a.1 = b.1 ∧ T.Alike a.2 b.2) l m) :
    List.Forall₂ (fun a b => a.1 = b.1 ∧ T.Alike a.2 b.2) (canonicalSortedPairs l)
      (canonicalSortedPairs m) := by
  induction h with
  | nil => exact .nil
  | cons hab _ ih => exact orderedInsert_alike hab ih

theorem captureScope_matches (h : T.ScopesAlike s t) :
    T.Matches Eq (captureScope X s) (captureScope X t) := by
  have hempty : s.entries.isEmpty = t.entries.isEmpty := by
    have hlength := h.length_eq
    cases hs : s.entries <;> cases ht : t.entries <;> simp_all
  rw [captureScope,captureScope,← hempty]
  by_cases hs : s.entries.isEmpty = true
  · rw [if_pos hs,if_pos hs]
    exact .done rfl
  · rw [if_neg hs,if_neg hs]
    refine Corresponds.bind_eq ?_ fun entries => (Corresponds.expect _).bind_eq fun e =>
      (perform_matches _ fun _ _ h => by cases h).bind_eq fun _ => .done rfl
    have hsorted := canonicalSortedPairs_alike h
    generalize canonicalSortedPairs s.entries = l at hsorted ⊢
    generalize canonicalSortedPairs t.entries = m at hsorted ⊢
    induction hsorted with
    | nil => exact .done rfl
    | @cons a b l m hab _ ih =>
      refine Corresponds.bind_eq ?_ fun b => ih.bind_eq fun bs => .done rfl
      dsimp only
      rw [hab.1,hab.2.encoded]
      exact (encodeScopeBinding_matches _).bind_eq fun _ => .done rfl

theorem decodeScopeBinding_matches (binding : Value) :
    T.Matches Eq (decodeScopeBinding X binding) (decodeScopeBinding X binding) := by
  refine (orEarly_matches _ _).bind_eq fun kind => ?_
  split
  · refine (orEarly_matches _ _).bind_eq fun bytes => (orEarly_matches _ _).bind_eq fun hash =>
      (perform_matches _ (by nofun)).bind_eq fun found => (orEarly_matches _ _).bind_eq fun e => ?_
    split <;> exact .done rfl
  · split
    · exact (orEarly_matches _ _).bind_eq fun _ => .done rfl
    · exact early_matches _

theorem loadScope_matches (envHash : Option Hash) :
    T.Matches Eq (loadScope X envHash) (loadScope X envHash) := by
  cases envHash with
  | none => exact .done rfl
  | some hash =>
    refine (perform_matches (.resolveScopeEntity hash) (by nofun)).bind_eq fun found => ?_
    cases found with
    | none => exact .done rfl
    | some e =>
      dsimp only
      split
      · refine Corresponds.foldEach (fun a b kv hab => ?_) _ rfl
        subst hab
        unfold loadBinding
        split
        · exact .done rfl
        · exact (decodeScopeBinding_matches kv.2).bind_eq fun _ => .done rfl
      · exact .done rfl

/-! The inline forms. -/

theorem evalLookupScope_alike (data : Value) (h : T.ScopesAlike s t) :
    T.Alike (evalLookupScope data s) (evalLookupScope data t) := by
  unfold evalLookupScope
  split
  · exact .refl _
  · rename_i name hname
    have hget := h.get name
    cases hs : s.get name <;> cases ht : t.get name <;> rw [hs,ht] at hget <;> cases hget
    · exact .refl _
    · assumption

theorem evalLookupTree_matches (data : Value) (h : T.ScopesAlike s t) :
    T.Matches T.ResultsAlike (evalLookupTree env data s) (evalLookupTree env data t) := by
  refine (orEarly_matches _ _).bind_eq fun path => ?_
  dsimp only
  generalize (if dataBool data "relative" = some true then
    resolveRelativePath env.subgraphRoot path else path) = resolvedPath
  cases env.capability with
  | none => exact early_matches _
  | some cap =>
    dsimp only
    split
    · exact early_matches _
    · exact (perform_matches _ (by nofun)).bind_eq fun _ => (perform_matches _ (by nofun)).bind_eq
        fun _ => (orEarly_matches _ _).bind_eq fun hash => (perform_matches _ (by nofun)).bind_eq
          fun _ => (orEarly_matches _ _).bind_eq fun e => .done (.tailCall e false h)

theorem evalLookupHash_matches (data : Value) (h : T.ScopesAlike s t) :
    T.Matches T.ResultsAlike (evalLookupHash data s) (evalLookupHash data t) :=
  (orEarly_matches _ _).bind_eq fun hash => (resolveOrError_matches hash _).bind_eq fun e =>
    .done (.tailCall e false h)

theorem evalIf_matches (data : Value) (h : T.ScopesAlike s t) :
    T.Matches T.ResultsAlike (evalIf data s) (evalIf data t) := by
  refine (orEarly_matches _ _).bind_eq fun condHash => (resolveOrError_matches condHash _).bind_eq
    fun target => evaluateConsumed_matches target h fun condition => ?_
  split
  · exact (orEarly_matches _ _).bind_eq fun hash => (resolveOrError_matches hash _).bind_eq fun e =>
      .done (.tailCall e true h)
  · split
    · exact (resolveOrError_matches _ _).bind_eq fun e => .done (.tailCall e true h)
    · exact .done (.value (.refl _))

theorem bindLet_matches (binding : Value) (h : T.ScopesAlike s t) :
    T.Matches T.ScopesAlike (bindLet s binding) (bindLet t binding) :=
  (orEarly_matches _ _).bind_eq fun name => (orEarly_matches _ _).bind_eq fun _ =>
    (orEarly_matches _ _).bind_eq fun hash => (resolveOrError_matches hash _).bind_eq fun target =>
      evaluateConsumed_matches target h fun _ => .done (h.insert name (.refl _))

theorem evalLet_matches (data : Value) (h : T.ScopesAlike s t) :
    T.Matches T.ResultsAlike (evalLet data s) (evalLet data t) :=
  (orEarly_matches _ _).bind_eq fun bindings => (orEarly_matches _ _).bind_eq fun bodyHash =>
    (Corresponds.foldEach (fun _ _ binding hab => bindLet_matches binding hab) bindings h).bind
      fun _ _ hscopes => (resolveOrError_matches bodyHash _).bind_eq fun e =>
        .done (.tailCall e false hscopes)

theorem evalLambda_matches (data : Value) (h : T.ScopesAlike s t) :
    T.Matches T.Alike (evalLambda X data s) (evalLambda X data t) :=
  (orEarly_matches _ _).bind_eq fun _ => (orEarly_matches _ _).bind_eq fun _ =>
    (captureScope_matches h).bind_eq fun _ => .done (.refl _)

theorem evalArithmetic_matches (data : Value) (h : T.ScopesAlike s t) :
    T.Matches Eq (evalArithmetic F data s) (evalArithmetic F data t) :=
  (orEarly_matches _ _).bind_eq fun _ => (operand_matches data _ _ h).bind_eq fun _ =>
    (operand_matches data _ _ h).bind_eq fun _ => .expect _

theorem evalCompare_matches (data : Value) (h : T.ScopesAlike s t) :
    T.Matches Eq (evalCompare F data s) (evalCompare F data t) :=
  (orEarly_matches _ _).bind_eq fun _ => (operand_matches data _ _ h).bind_eq fun _ =>
    (operand_matches data _ _ h).bind_eq fun _ => .done rfl

theorem evalLogic_matches (data : Value) (h : T.ScopesAlike s t) :
    T.Matches Eq (evalLogic data s) (evalLogic data t) := by
  refine (orEarly_matches _ _).bind_eq fun op => (operand_matches data _ _ h).bind_eq fun left => ?_
  split
  · exact .done rfl
  · split
    · exact (operand_matches data _ _ h).bind_eq fun _ => .done rfl
    · split
      · exact (operand_matches data _ _ h).bind_eq fun _ => .done rfl
      · exact .done rfl

theorem evalNumericCast_matches (data : Value) (h : T.ScopesAlike s t) :
    T.Matches Eq (evalNumericCast F data s) (evalNumericCast F data t) :=
  (orEarly_matches _ _).bind_eq fun _ => (operand_matches data _ _ h).bind_eq fun _ => .done rfl

theorem inFlightField_matches (hash : Hash) (name : Str) :
    T.Matches Eq (inFlightField hash name) (inFlightField hash name) :=
  (perform_matches _ (by nofun)).bind_eq fun _ => .done rfl

theorem extractField_matches (name : Str) (target : ComputeValue) :
    T.Matches Eq (extractField X name target) (extractField X name target) := by
  unfold extractField
  dsimp only
  split
  · exact (inFlightField_matches _ _).bind_eq fun typed => by cases typed <;> exact .done rfl
  · split
    · exact (inFlightField_matches _ _).bind_eq fun typed => by cases typed <;> exact .done rfl
    · exact .done rfl
  · exact .done rfl

theorem evalField_matches (data : Value) (h : T.ScopesAlike s t) :
    T.Matches Eq (evalField X data s) (evalField X data t) :=
  (orEarly_matches _ _).bind_eq fun name => (operand_matches data _ _ h).bind_eq fun target =>
    extractField_matches name target

theorem evalIndex_matches (data : Value) (h : T.ScopesAlike s t) :
    T.Matches Eq (evalIndex data s) (evalIndex data t) := by
  refine (operand_matches data _ _ h).bind_eq fun _ => (operand_matches data _ _ h).bind_eq fun _ =>
    (orEarly_matches _ _).bind_eq fun items => (orEarly_matches _ _).bind_eq fun idx => ?_
  split
  · exact early_matches _
  · exact (orEarly_matches _ _).bind_eq fun _ => .done rfl

theorem evalLength_matches (data : Value) (h : T.ScopesAlike s t) :
    T.Matches Eq (evalLength data s) (evalLength data t) :=
  (operand_matches data _ _ h).bind_eq fun _ => (orEarly_matches _ _).bind_eq fun _ => .done rfl

theorem constructField_matches (f : Str × Hash) (h : T.ScopesAlike s t) :
    T.Matches Eq (constructField X s f) (constructField X t f) := by
  refine (resolveOrError_matches f.2 _).bind_eq fun target => evaluateConsumed_matches target h
    fun value => Corresponds.bind_eq ?_ fun _ => .done rfl
  cases value with
  | entity e => exact storeRef_matches e
  | closure c => exact (Corresponds.expect _).bind_eq storeRef_matches
  | error e => exact (Corresponds.expect _).bind_eq storeRef_matches
  | _ => exact .done rfl

theorem evalConstruct_matches (data : Value) (h : T.ScopesAlike s t) :
    T.Matches Eq (evalConstruct X data s) (evalConstruct X data t) := by
  refine (orEarly_matches _ _).bind_eq fun entityType => (orEarly_matches _ _).bind_eq fun fields =>
    (Corresponds.mapEach (fun f => constructField_matches f h) _).bind_eq fun built => ?_
  split
  · exact early_matches _
  · exact (perform_matches _ (by nofun)).bind_eq fun _ => (perform_matches _ (by nofun)).bind_eq fun _ =>
      .done rfl

/-! The builtins. -/

theorem resolveStringArg_matches (args : Args) (key : String) (h : T.ScopesAlike s t) :
    T.Matches Eq (resolveStringArg args key s) (resolveStringArg args key t) := by
  unfold resolveStringArg
  split
  · exact .done rfl
  · rename_i hash _
    refine (perform_matches (.resolve hash) fun _ _ h => by cases h).bind_eq fun found => ?_
    cases found with
    | none => exact .done rfl
    | some target => exact evaluateConsumed_matches target h fun _ => .done rfl

theorem evalRef_matches (data : Value) (key label : String) (h : T.ScopesAlike s t) :
    T.Matches T.Alike (evalRef data key label s) (evalRef data key label t) :=
  (orEarly_matches _ _).bind_eq fun hash => (resolveOrError_matches hash label).bind_eq fun target =>
    evaluateSub_matches target h

theorem consumedArg_matches (data : Value) (key label : String) (h : T.ScopesAlike s t) :
    T.Matches Eq (consumedArg data key label s) (consumedArg data key label t) :=
  (evalRef_matches data key label h).bind fun _ _ => consumed_matches

theorem consumedCollection_matches (data : Value) (key label op : String) (h : T.ScopesAlike s t) :
    T.Matches Eq (consumedCollection data key label op s) (consumedCollection data key label op t) :=
  (consumedArg_matches data key label h).bind_eq fun _ => orEarly_matches _ _

theorem evaluateAlias_matches (form : Form) (label : String) (data : Value)
    (h : T.ScopesAlike s t) :
    T.Matches T.Alike (evaluateAlias X form label data s) (evaluateAlias X form label data t) :=
  (orEarly_matches _ _).bind_eq fun e => evaluateSub_matches e h

theorem aliasBinary_matches (form : Form) (label : String) (args : Args) (h : T.ScopesAlike s t) :
    T.Matches T.Alike (aliasBinary X form label args s) (aliasBinary X form label args t) :=
  (resolveStringArg_matches args _ h).bind_eq fun _ => (orEarly_matches _ _).bind_eq fun _ =>
    (orEarly_matches _ _).bind_eq fun _ => evaluateAlias_matches form label _ h

theorem aliasLogic_matches (args : Args) (h : T.ScopesAlike s t) :
    T.Matches T.Alike (aliasLogic X args s) (aliasLogic X args t) :=
  (resolveStringArg_matches args _ h).bind_eq fun _ => (orEarly_matches _ _).bind_eq fun _ =>
    evaluateAlias_matches _ _ _ h

theorem aliasField_matches (args : Args) (h : T.ScopesAlike s t) :
    T.Matches T.Alike (aliasField X args s) (aliasField X args t) :=
  (resolveStringArg_matches args _ h).bind_eq fun _ => (orEarly_matches _ _).bind_eq fun _ =>
    evaluateAlias_matches _ _ _ h

theorem aliasConstruct_matches (args : Args) (h : T.ScopesAlike s t) :
    T.Matches T.Alike (aliasConstruct X args s) (aliasConstruct X args t) := by
  refine (resolveStringArg_matches args _ h).bind_eq fun entityType => ?_
  split
  · exact early_matches _
  · exact evaluateAlias_matches _ _ _ h

/-- The body of a closure in its own scope, with arguments that are alike. -/
theorem applyClosureBody_matches (closure : ClosureValue) {left right : List (Str × ComputeValue)}
    (h : List.Forall₂ (fun a b => a.1 = b.1 ∧ T.Alike a.2 b.2) left right) :
    T.Matches T.Alike (applyClosureBody X closure left) (applyClosureBody X closure right) := by
  refine (loadScope_matches closure.env).bind_eq fun scope => (perform_matches _ (by nofun)).bind_eq
    fun found => (orEarly_matches _ _).bind_eq fun body => evaluateSub_matches body ?_
  have hfold : ∀ {s t : Scope}, T.ScopesAlike s t → T.ScopesAlike
      (left.foldl (fun m b => m.insert b.1 b.2) s) (right.foldl (fun m b => m.insert b.1 b.2) t) := by
    induction h with
    | nil => exact fun hst => hst
    | cons hab _ ih =>
      intro s t hst
      rw [List.foldl_cons,List.foldl_cons,hab.1]
      exact ih (hst.insert _ hab.2)
  exact hfold (.refl scope)

theorem applyClosureToValue_matches (closure : ClosureValue) (item : Value) :
    T.Matches T.Alike (applyClosureToValue X closure item) (applyClosureToValue X closure item) := by
  unfold applyClosureToValue
  split
  · exact (applyClosureBody_matches closure (.cons ⟨rfl,.refl _⟩ .nil)).answer
  · exact .done (.refl _)

theorem applyClosureToTwoValues_matches (closure : ClosureValue) (h : T.Alike v w)
    (item : ComputeValue) : T.Matches T.Alike (applyClosureToTwoValues X closure v item)
      (applyClosureToTwoValues X closure w item) := by
  unfold applyClosureToTwoValues
  split
  · refine (applyClosureBody_matches closure ?_).answer
    exact .cons ⟨rfl,h⟩ (.cons ⟨rfl,.refl _⟩ .nil)
  · exact .done (.refl _)

theorem containedElement_matches (v : ComputeValue) :
    T.Matches Eq (containedElement X v) (containedElement X v) := by
  cases v with
  | error e => exact (Corresponds.expect _).bind_eq storeRef_matches
  | entity e =>
    show T.Matches Eq
      (if e.entityType = typeError then expect (materializeErrorValue X e) >>= storeRef
        else storeRef e)
      (if e.entityType = typeError then expect (materializeErrorValue X e) >>= storeRef
        else storeRef e)
    split
    · exact (Corresponds.expect _).bind_eq storeRef_matches
    · exact storeRef_matches e
  | closure c => exact (Corresponds.expect _).bind_eq storeRef_matches
  | _ => exact .done rfl

theorem elementReferent_matches (v : Value) :
    T.Matches Eq (elementReferent v) (elementReferent v) := by
  unfold elementReferent
  split
  · rename_i hash _
    exact perform_matches (.referent hash) (by nofun)
  · exact .done rfl

theorem elementTypeTag_matches (v : Value) :
    T.Matches Eq (elementTypeTag v) (elementTypeTag v) := by
  cases v with
  | bytes b =>
    refine (elementReferent_matches (.bytes b)).bind_eq fun found => ?_
    cases found <;> exact .done rfl
  | _ => exact .done rfl

theorem collectionAndClosure_matches (data : Value) (op : String) (h : T.ScopesAlike s t) :
    T.Matches Eq (collectionAndClosure data op s) (collectionAndClosure data op t) :=
  (consumedArg_matches data _ _ h).bind_eq fun _ =>
    (consumedArg_matches data _ _ h).bind_eq fun _ => .done rfl

theorem dispatchMap_matches (data : Value) (h : T.ScopesAlike s t) :
    T.Matches Eq (dispatchMap X data s) (dispatchMap X data t) := by
  refine (collectionAndClosure_matches data _ h).bind_eq fun found => (orEarly_matches _ _).bind_eq
    fun items => (orEarly_matches _ _).bind_eq fun closure => Corresponds.bind_eq
      (Corresponds.mapEach (fun item => ?_) _) fun _ => .done rfl
  refine (applyClosureToValue_matches closure item).bind fun v w hvw => ?_
  rw [hvw.isSharedResourceError,hvw.contained]
  split
  · exact .early hvw
  · exact containedElement_matches w

theorem dispatchFilter_matches (data : Value) (h : T.ScopesAlike s t) :
    T.Matches Eq (dispatchFilter X data s) (dispatchFilter X data t) := by
  refine (collectionAndClosure_matches data _ h).bind_eq fun found => (orEarly_matches _ _).bind_eq
    fun items => (orEarly_matches _ _).bind_eq fun closure => Corresponds.bind_eq
      (Corresponds.mapEach (fun item => ?_) _) fun _ => .done rfl
  exact (applyClosureToValue_matches closure item).bind fun _ _ hvw =>
    (consumed_matches hvw).bind_eq fun _ => .done rfl

theorem dispatchFold_matches (data : Value) (h : T.ScopesAlike s t) :
    T.Matches T.Alike (dispatchFold X data s) (dispatchFold X data t) := by
  refine (collectionAndClosure_matches data _ h).bind_eq fun found =>
    (evalRef_matches data _ _ h).answer.bind fun v w hvw => ?_
  rw [hvw.isSharedResourceError]
  split
  · exact .early hvw
  · refine (orEarly_matches _ _).bind_eq fun items => (orEarly_matches _ _).bind_eq fun closure => ?_
    split
    · exact early_matches _
    · refine Corresponds.foldEach (fun a b item hab => ?_) items hvw
      refine (applyClosureToTwoValues_matches closure hab _).bind fun v w hvw => ?_
      rw [hvw.isSharedResourceError]
      split
      · exact .early hvw
      · exact .done hvw

theorem dispatchRange_matches (data : Value) (h : T.ScopesAlike s t) :
    T.Matches Eq (dispatchRange data s) (dispatchRange data t) := by
  refine (consumedArg_matches data _ _ h).bind_eq fun nVal => (orEarly_matches _ _).bind_eq
    fun n => ?_
  split
  · exact early_matches _
  · refine (perform_matches (.charge n.toNat) (by nofun)).bind_eq fun paid => ?_
    split
    · exact .done rfl
    · exact early_matches _

theorem dispatchGroupBy_matches (data : Value) (h : T.ScopesAlike s t) :
    T.Matches Eq (dispatchGroupBy X data s) (dispatchGroupBy X data t) := by
  refine (consumedCollection_matches data _ _ _ h).bind_eq fun items =>
    (consumedArg_matches data _ _ h).bind_eq fun fn => (orEarly_matches _ _).bind_eq fun closure =>
      Corresponds.bind_eq (Corresponds.foldEach (fun groups groups' item hgroups => ?_) _ rfl)
        fun groups => Corresponds.bind_eq (Corresponds.mapEach (fun g => ?_) _) fun _ => .done rfl
  · subst hgroups
    exact (applyClosureToValue_matches closure item).bind fun _ _ hvw =>
      (consumed_matches hvw).bind_eq fun key => (containedElement_matches key).bind_eq
        fun _ => .done rfl
  · split
    · exact storeRef_matches _
    · exact early_matches _

theorem concatCollection_matches (v : Value) :
    T.Matches Eq (concatCollection v) (concatCollection v) := by
  unfold concatCollection
  split
  · exact .done rfl
  · refine (elementReferent_matches _).bind_eq fun found => ?_
    split
    · exact early_matches _
    · exact (elementTypeTag_matches _).bind_eq fun _ => early_matches _

theorem concatElement_matches (acc : Option Str × List Value) (element : Value) :
    T.Matches Eq (concatElement F acc element) (concatElement F acc element) := by
  have hisError : T.Matches Eq (elementIsError element) (elementIsError element) :=
    (elementReferent_matches element).bind_eq fun _ => .done rfl
  refine hisError.bind_eq fun isError => ?_
  split
  · exact .done rfl
  · refine (elementTypeTag_matches element).bind_eq fun tag => ?_
    split
    · exact .done rfl
    · exact early_matches _

theorem dispatchConcat_matches (data : Value) (h : T.ScopesAlike s t) :
    T.Matches Eq (dispatchConcat F data s) (dispatchConcat F data t) := by
  unfold dispatchConcat
  split
  · exact early_matches _
  · refine (consumedArg_matches data _ _ h).bind_eq fun _ => (orEarly_matches _ _).bind_eq fun _ =>
      (Corresponds.mapEach concatCollection_matches _).bind_eq fun _ =>
        Corresponds.bind_eq (Corresponds.foldEach (fun a b element hab => ?_) _ rfl) fun _ => .done rfl
    subst hab
    exact concatElement_matches a element

theorem dispatchAssoc_matches (data : Value) (h : T.ScopesAlike s t) :
    T.Matches Eq (dispatchAssoc X data s) (dispatchAssoc X data t) := by
  refine (consumedCollection_matches data _ _ _ h).bind_eq fun items =>
    (consumedArg_matches data _ _ h).bind_eq fun indexVal => (orEarly_matches _ _).bind_eq
      fun idx => ?_
  split
  · exact early_matches _
  · refine (evalRef_matches data _ _ h).answer.bind fun v w hvw => ?_
    rw [hvw.contained]
    exact (containedElement_matches w).bind_eq fun _ => .done rfl

theorem storedForm_matches (v : ComputeValue) : T.Matches Eq (storedForm X v) (storedForm X v) := by
  cases v with
  | error e => exact .expect _
  | entity e =>
    show T.Matches Eq
      (if e.entityType = typeError then expect (materializeErrorValue X e) else pure e)
      (if e.entityType = typeError then expect (materializeErrorValue X e) else pure e)
    split
    · exact .expect _
    · exact .done rfl
  | closure c => exact .expect _
  | primitive v =>
    dsimp only [storedForm]
    exact orEarly_matches _ _
  | uint u =>
    dsimp only [storedForm]
    exact orEarly_matches _ _

theorem dispatchStore_matches (data : Value) (h : T.ScopesAlike s t) :
    T.Matches Eq (dispatchStore X env data s) (dispatchStore X env data t) := by
  refine (orEarly_matches _ _).bind_eq fun path => ?_
  split
  · exact early_matches _
  · refine (orEarly_matches _ _).bind_eq fun valueHash => (resolveOrError_matches valueHash _).bind_eq
      fun e => (evaluateSub_matches e h).bind fun v w hvw => ?_
    rw [hvw.storedForm]
    exact (storedForm_matches w).bind_eq fun _ => (perform_matches _ (by nofun)).bind_eq fun _ =>
      (orEarly_matches _ _).bind_eq fun _ => (perform_matches _ (by nofun)).bind_eq fun _ =>
        .done rfl

theorem aliasStore_matches (args : Args) (h : T.ScopesAlike s t) :
    T.Matches Eq (aliasStore X env args s) (aliasStore X env args t) := by
  refine (resolveStringArg_matches args _ h).bind_eq fun path => ?_
  split
  · exact early_matches _
  · exact (orEarly_matches _ _).bind_eq fun _ => (orEarly_matches _ _).bind_eq fun _ =>
      (orEarly_matches _ _).bind_eq fun data => dispatchStore_matches data h

theorem dispatchCollection_matches (b : Builtin) {dispatch : Value → Scope → Eval ComputeValue}
    {done : ComputeValue → ComputeValue → Prop}
    (hdispatch : ∀ data, T.Matches done (dispatch data s) (dispatch data t)) (args : Args) :
    T.Matches done (dispatchCollection X b dispatch args s) (dispatchCollection X b dispatch args t) := by
  unfold dispatchCollection
  split
  · exact early_matches _
  · exact (orEarly_matches _ _).bind_eq hdispatch

theorem dispatch_matches (b : Builtin) (args : Args) (h : T.ScopesAlike s t) :
    T.Matches T.Alike (b.dispatch X F env args s) (b.dispatch X F env args t) := by
  have heq : ∀ v w : ComputeValue, v = w → T.Alike v w := by
    intro v w hvw
    exact hvw ▸ .refl v
  cases b with
  | arithmetic => exact aliasBinary_matches .arithmetic "arithmetic" args h
  | compare => exact aliasBinary_matches .compare "compare" args h
  | logic => exact aliasLogic_matches args h
  | field => exact aliasField_matches args h
  | construct => exact aliasConstruct_matches args h
  | store => exact (aliasStore_matches args h).mono heq
  | map => exact dispatchCollection_matches .map (fun data => (dispatchMap_matches data h).mono heq) args
  | filter =>
    exact dispatchCollection_matches .filter (fun data => (dispatchFilter_matches data h).mono heq) args
  | fold => exact dispatchCollection_matches .fold (fun data => dispatchFold_matches data h) args
  | range =>
    exact dispatchCollection_matches .range (fun data => (dispatchRange_matches data h).mono heq) args
  | groupBy =>
    exact dispatchCollection_matches .groupBy (fun data => (dispatchGroupBy_matches data h).mono heq) args
  | concat =>
    exact dispatchCollection_matches .concat (fun data => (dispatchConcat_matches data h).mono heq) args
  | assoc =>
    exact dispatchCollection_matches .assoc (fun data => (dispatchAssoc_matches data h).mono heq) args

/-! Application. -/

theorem applicableClosure_matches (v : ComputeValue) :
    T.Matches Eq (applicableClosure X v) (applicableClosure X v) := by
  unfold applicableClosure
  split
  · exact .done rfl
  · split
    · exact orEarly_matches _ _
    · exact early_matches _
  · exact early_matches _

theorem evalApplyClosure_matches (data : Value) (h : T.ScopesAlike s t) :
    T.Matches T.ResultsAlike (evalApplyClosure X data s) (evalApplyClosure X data t) := by
  refine (orEarly_matches _ _).bind_eq fun fnHash => (resolveOrError_matches fnHash _).bind_eq
    fun target => evaluateConsumed_matches target h fun fnValue =>
      (applicableClosure_matches fnValue).bind_eq fun closure => (loadScope_matches closure.env).bind_eq
        fun captured => Corresponds.bind (Corresponds.foldEach (fun a b param hab => ?_) _
          (.refl captured)) fun _ _ hscopes => (resolveOrError_matches closure.body _).bind_eq
            fun e => .done (.tailCall e false hscopes)
  exact (orEarly_matches _ _).bind_eq fun argHash => (resolveOrError_matches argHash _).bind_eq
    fun target => evaluateConsumed_matches target h fun _ => .done (hab.insert param (.refl _))

theorem resolveHandlerEntityInTree_matches (paths : List Str) :
    T.Matches Eq (resolveHandlerEntityInTree paths) (resolveHandlerEntityInTree paths) := by
  induction paths with
  | nil => exact .done rfl
  | cons path shorter ih =>
    refine (perform_matches (.manifestGet path) (by nofun)).bind_eq fun found => ?_
    cases found with
    | none => exact .done rfl
    | some hash =>
      refine (perform_matches (.contentGet hash) (by nofun)).bind_eq fun e => ?_
      split
      · exact .done rfl
      · exact ih

theorem resolveOperationInputType_matches (path operation : Str) :
    T.Matches Eq (resolveOperationInputType X env path operation)
      (resolveOperationInputType X env path operation) := by
  refine (resolveHandlerEntityInTree_matches _).bind_eq fun found => ?_
  cases found with
  | none => exact .done rfl
  | some handlerEntity =>
    dsimp only
    split
    · exact .done rfl
    · rename_i interfacePath _
      refine (perform_matches (.manifestGet (qualifyPath interfacePath env.localPeerId))
        (by nofun)).bind_eq fun found => ?_
      cases found with
      | none => exact .done rfl
      | some hash => exact (perform_matches _ (by nofun)).bind_eq fun _ => .done rfl

theorem resolveArg_matches (arg : Str × Hash) (h : T.ScopesAlike s t) :
    T.Matches Eq (resolveArg X s arg) (resolveArg X t arg) :=
  (resolveOrError_matches arg.2 _).bind_eq fun target => evaluateConsumed_matches target h
    fun v => (computeValueToCbor_matches v).bind_eq fun _ => .done rfl

end TwoForms

end Compute
end EntityCore
