import EntityCore.ComputeEval
import EntityCore.TrieCanonical

/-! The handler forms of the builtins, and the operations that can be written inline, as an
alias and for a handler. An alias rebuilds the inline expression. -/
namespace EntityCore

open List
namespace Compute

open Ecf Strings Program ByteCode

/-! The handler forms. -/

section Handlers

variable (X : Platform) (F : Runtime) (env : EvalEnv)

def dispatchBinary (label : String)
    (apply : Str → ComputeValue → ComputeValue → Eval ComputeValue) (data : Value)
    (scope : Scope) : Eval ComputeValue := do
  let op ← orEarly (dataStr data "op") (invalid (label++ ": missing 'op'"))
  let left ← consumedArg data "left" (label++ " left") scope
  let right ← consumedArg data "right" (label++ " right") scope
  apply op left right

def dispatchArithmetic : Value → Scope → Eval ComputeValue :=
  dispatchBinary "arithmetic" fun op left right => expect (applyArithmetic F op left right)

def dispatchCompare : Value → Scope → Eval ComputeValue :=
  dispatchBinary "compare" fun op left right => return applyCompare F op left right

def dispatchLogic (data : Value) (scope : Scope) : Eval ComputeValue := do
  let op ← orEarly (dataStr data "op") (invalid "logic: missing 'op'")
  let left ← consumedArg data "left" "logic left" scope
  if op = "not".toList then return .primitive (.bool (!left.isTruthy))
  else if op = "and".toList then do
    let right ← consumedArg data "right" "logic right" scope
    return .primitive (.bool (left.isTruthy && right.isTruthy))
  else if op = "or".toList then do
    let right ← consumedArg data "right" "logic right" scope
    return .primitive (.bool (left.isTruthy || right.isTruthy))
  else return invalid ("Unknown logic op: "++String.ofList op)

/-- The bare data; what was constructed in the same evaluation is not asked. -/
def handlerField (name : Str) (target : ComputeValue) : ComputeValue :=
  let found (data : Value) := match data.get name with
    | some v => .primitive v
    | none => .error (.notFound ("Field not found: "++String.ofList name))
  match target with
  | .entity e => match decodeData X e with
    | some data => found data
    | none => .error (.typeMismatch "Field access requires decodable entity data")
  | .primitive (.map entries) => found (.map entries)
  | _ => .error (.typeMismatch "Field access requires entity or map")

def dispatchField (data : Value) (scope : Scope) : Eval ComputeValue := do
  let name ← orEarly (dataStr data "name") (invalid "field: missing 'name'")
  let target ← consumedArg data "entity" "field target" scope
  return handlerField X name target

/-- Evaluates the inline form. -/
def dispatchConstruct (data : Value) (scope : Scope) : Eval ComputeValue := do
  let entityType ← orEarly (dataStr data "entity_type") (invalid "construct: missing 'entity_type'")
  let fields ← orEarly (dataHashMap data "fields") (invalid "construct: missing 'fields'")
  let expression ← orEarly (Entity.new X Form.construct.typeName.toList
    (toEcf (.map [entry "entity_type" (.text entityType),
      entry "fields" (.map (argsFields fields))]))).toOption
    (invalid "construct: failed to build construct entity")
  evaluateSub expression scope

def Builtin.handle (b : Builtin) : Value → Scope → Eval ComputeValue :=
  match b with
  | .arithmetic => dispatchArithmetic F
  | .compare => dispatchCompare F
  | .logic => dispatchLogic
  | .field => dispatchField X
  | .construct => dispatchConstruct X
  | .map => dispatchMap X
  | .filter => dispatchFilter X
  | .fold => dispatchFold X
  | .store => dispatchStore X env
  | .range => dispatchRange
  | .groupBy => dispatchGroupBy X
  | .concat => dispatchConcat F
  | .assoc => dispatchAssoc X

/-- The parameters are decoded before the name is looked up. -/
def dispatchBuiltin (path : Str) (params : Entity) (scope : Scope) : Option (Eval ComputeValue) :=
  (extractBareBuiltin path).bind fun bare => match decodeData X params with
    | none => some (.early (invalid "Cannot decode builtin params"))
    | some data => (Builtin.ofName bare).map fun b => b.handle X F env data scope

end Handlers

/-! Arguments by name. -/

theorem toEcf_text_inj {s t : Str} (h : toEcf (.text s) = toEcf (.text t)) : s = t := by
  simp only [toEcf,encodeValue,encodeCborText,encodeHead_eq,cons_append,cons.injEq] at h
  obtain ⟨hbyte,hrest⟩ := h
  have hinfo : headInfo (utf8 s).length = headInfo (utf8 t).length := by
    have hsame := congrArg UInt8.toNat hbyte
    have hs := headInfo_lt (utf8 s).length
    have ht := headInfo_lt (utf8 t).length
    rw [IsMajor.text.firstByte (by omega),IsMajor.text.firstByte (by omega)] at hsame
    exact Nat.add_left_cancel hsame
  rw [hinfo] at hrest
  exact utf8_inj (append_split (by simp) hrest).2

theorem toEcf_map_perm {l l' : List (Value × Value)} (hp : l.Perm l')
    (hd : (l.map fun e => toEcf e.1).Nodup) : toEcf (.map l) = toEcf (.map l') := by
  show encodeMap (encodeEntries l) = encodeMap (encodeEntries l')
  rw [encodeEntries_eq,encodeEntries_eq]
  apply encodeMap_perm (hp.map _)
  rw [map_map]
  exact hd

section Arguments

variable {α : Type}

def nameLe (a b : Str × α) : Prop := keyLe (toEcf (.text a.1)) (toEcf (.text b.1))

instance : DecidableRel (nameLe (α := α)) := fun a b =>
  inferInstanceAs (Decidable (keyLe (toEcf (.text a.1)) (toEcf (.text b.1))))

instance : Std.Total (nameLe (α := α)) := ⟨fun _ _ => keyLe_total _ _⟩
instance : IsTrans (Str × α) nameLe := ⟨fun _ _ _ => keyLe_trans⟩

theorem canonicalSortedPairs_perm (pairs : List (Str × α)) :
    (canonicalSortedPairs pairs).Perm pairs := perm_insertionSort nameLe pairs

/-- With distinct names the sorted pairs do not depend on the given order. -/
theorem canonicalSortedPairs_of_perm {pairs pairs' : List (Str × α)} (hp : pairs.Perm pairs')
    (hd : (pairs.map Prod.fst).Nodup) :
    canonicalSortedPairs pairs = canonicalSortedPairs pairs' := by
  have hleft := canonicalSortedPairs_perm pairs
  have hright := canonicalSortedPairs_perm pairs'
  refine (hleft.trans (hp.trans hright.symm)).eq_of_pairwise ?_
    (pairwise_insertionSort nameLe pairs) (pairwise_insertionSort nameLe pairs')
  intro a b ha hb hab hba
  have hb' : b ∈ pairs := hp.mem_iff.mpr (hright.mem_iff.mp hb)
  exact inj_on_of_nodup_map hd (hleft.mem_iff.mp ha) hb'
    (toEcf_text_inj (keyLe_antisymm hab hba))

end Arguments

theorem argsHash_of_mem {args : Args} {key : String} {hash : Hash}
    (hd : (args.map Prod.fst).Nodup) (hmem : (key.toList,hash) ∈ args) :
    argsHash args key = some hash := by
  unfold argsHash
  cases hfound : args.find? fun kv => kv.1 = key.toList with
  | none =>
    have hno := find?_eq_none.mp hfound _ hmem
    simp at hno
  | some kv =>
    have hkey : kv.1 = key.toList := by simpa using find?_some hfound
    have hsame := inj_on_of_nodup_map hd (mem_of_find?_eq_some hfound) hmem hkey
    rw [hsame]
    rfl

theorem argsHash_eq_none {args : Args} {key : String} (h : key.toList ∉ args.map Prod.fst) :
    argsHash args key = none := by
  unfold argsHash
  rw [Option.map_eq_none_iff,find?_eq_none]
  intro kv hmem hkey
  exact h (mem_map.mpr ⟨kv,hmem,by simpa using hkey⟩)

/-- The arguments are read back in their canonical order. -/
theorem argsFields_filterMap (args : Args) :
    ((argsFields args).filterMap fun kv => do return (← kv.1.asText,← hashField kv.2)) =
      canonicalSortedPairs args := by
  unfold argsFields
  rw [filterMap_map]
  have hread : ((fun kv : Value × Value => do return (← kv.1.asText,← hashField kv.2)) ∘
      fun kv : Str × Hash => (Value.text kv.1,hashRef kv.2)) = some := by
    funext kv
    simp [Value.asText,hashRef,hashField_toBytes]
  rw [hread]
  exact filterMap_some

/-! Operations in their three forms. -/

/-- An operation that has an inline form, an alias and a handler form. -/
inductive Operation where
  | arithmetic (op : Str) (left right : Hash)
  | compare (op : Str) (left right : Hash)
  /-- Negation has one operand. -/
  | logic (op : Str) (left : Hash) (right : Option Hash)
  | field (name : Str) (entity : Hash)
  | construct (entityType : Str) (fields : List (Str × Hash))

namespace Operation

def form : Operation → Form
  | .arithmetic .. => .arithmetic
  | .compare .. => .compare
  | .logic .. => .logic
  | .field .. => .field
  | .construct .. => .construct

def builtin : Operation → Builtin
  | .arithmetic .. => .arithmetic
  | .compare .. => .compare
  | .logic .. => .logic
  | .field .. => .field
  | .construct .. => .construct

/-- The text that steers an operation: inline it is in the data, an alias evaluates it. -/
def steer : Operation → Str
  | .arithmetic op _ _ => op
  | .compare op _ _ => op
  | .logic op _ _ => op
  | .field name _ => name
  | .construct entityType _ => entityType

def steerKey : Operation → String
  | .arithmetic .. => "op"
  | .compare .. => "op"
  | .logic .. => "op"
  | .field .. => "name"
  | .construct .. => "entity_type"

def operands : Operation → Args
  | .arithmetic _ left right => [("left".toList,left),("right".toList,right)]
  | .compare _ left right => [("left".toList,left),("right".toList,right)]
  | .logic _ left right => ("left".toList,left)::right.toList.map fun h => ("right".toList,h)
  | .field _ entity => [("entity".toList,entity)]
  | .construct _ fields => fields

/-- The data of the inline form, which is that of the parameters of the handler form. -/
def data (op : Operation) : Value :=
  match op with
  | .construct entityType fields => .map [entry "fields" (.map (argsFields fields)),
      entry "entity_type" (.text entityType)]
  | _ => .map (entry op.steerKey (.text op.steer)::
      op.operands.map fun kv => (.text kv.1,hashRef kv.2))

/-- The arguments of the alias; `steering` is the hash of an expression. -/
def args (op : Operation) (steering : Hash) : Args := (op.steerKey.toList,steering)::op.operands

/-- The data of the application of the builtin at a path. -/
def application (op : Operation) (path : Str) (steering : Hash) : Value :=
  .map [entry "args" (.map (argsFields (op.args steering))),entry "path" (.text path),
    entry "operation" (.text "eval".toList)]

end Operation

/-- An operation written inline and as an application; the inline expression is also what
the handler form takes as its parameters. -/
structure Operation.Forms (X : Platform) (op : Operation) where
  expression : Entity
  expression_new : Entity.new X op.form.typeName.toList (toEcf op.data) = .ok expression
  expression_data : decodeData X expression = some op.data
  path : Str
  path_builtin : extractBareBuiltin path = some op.builtin.name.toList
  steering : Hash
  distinct : ((op.args steering).map Prod.fst).Nodup
  applied : Entity
  applied_type : applied.entityType = Form.apply.typeName.toList
  applied_data : decodeData X applied = some (op.application path steering)
  literal : Entity
  literal_type : literal.entityType = Form.literal.typeName.toList
  literal_data : decodeData X literal = some (.map [entry "value" (.text op.steer)])

/-! Reading the forms. -/

theorem get_entry_self (key : String) (v : Value) (entries : List (Value × Value)) :
    (Value.map (entry key v::entries)).get key.toList = some v := by
  simp [Value.get,entry,Value.asText]

theorem get_entry_of_ne {key key' : String} (h : key'.toList ≠ key.toList) (v : Value)
    (entries : List (Value × Value)) :
    (Value.map (entry key' v::entries)).get key.toList = (Value.map entries).get key.toList := by
  simp [Value.get,entry,Value.asText,h]

namespace Operation

theorem data_steer (op : Operation) : dataStr op.data op.steerKey = some op.steer := by
  cases op with
  | construct entityType fields =>
    have hne : "fields".toList ≠ "entity_type".toList := by decide
    simp only [dataStr,data,steerKey]
    rw [get_entry_of_ne hne,get_entry_self]
    rfl
  | _ =>
    unfold dataStr data
    rw [get_entry_self]
    rfl

theorem application_path (op : Operation) (path : Str) (steering : Hash) :
    dataStr (op.application path steering) "path" = some path := by
  unfold dataStr application
  rw [get_entry_of_ne (by decide),get_entry_self]
  rfl

theorem application_operation (op : Operation) (path : Str) (steering : Hash) :
    dataStr (op.application path steering) "operation" = some "eval".toList := by
  unfold dataStr application
  rw [get_entry_of_ne (by decide),get_entry_of_ne (by decide),get_entry_self]
  rfl

theorem application_args (op : Operation) (path : Str) (steering : Hash) :
    dataHashMap (op.application path steering) "args" =
      some (canonicalSortedPairs (op.args steering)) := by
  unfold dataHashMap application
  rw [get_entry_self]
  exact congrArg some (argsFields_filterMap _)

/-- An application of a builtin names no closure, capability or resource. -/
theorem application_get_none (op : Operation) (path : Str) (steering : Hash) {key : String}
    (hargs : "args".toList ≠ key.toList) (hpath : "path".toList ≠ key.toList)
    (hoperation : "operation".toList ≠ key.toList) :
    (op.application path steering).get key.toList = none := by
  unfold application
  rw [get_entry_of_ne hargs,get_entry_of_ne hpath,get_entry_of_ne hoperation]
  rfl

end Operation

theorem Builtin.ofName_name (b : Builtin) : Builtin.ofName b.name.toList = some b := by
  cases b <;> decide

theorem isBuiltinPath_of_extract {path bare : Str} (h : extractBareBuiltin path = some bare) :
    isBuiltinPath path = true := by
  unfold extractBareBuiltin at h
  unfold isBuiltinPath
  rw [Bool.or_eq_true]
  cases hstrip : stripPrefix path builtinPrefix with
  | some rest =>
    left
    have hpath := (stripPrefix_eq_some _ _ _).mp hstrip
    rw [startsWith_iff,hpath]
    exact prefix_append _ _
  | none =>
    right
    rw [hstrip] at h
    obtain ⟨t,htail,ht⟩ := exists_of_findSome?_eq_some h
    have hsuffix := (mem_tails _ _).mp htail
    have hstart := (stripPrefix_eq_some _ _ _).mp ht
    rw [containsText_iff]
    exact (hstart ▸ prefix_append _ _ : '/'::builtinPrefix <+: t).isInfix.trans hsuffix.isInfix

@[simp] theorem orEarly_some {α : Type} (a : α) (v : ComputeValue) :
    (orEarly (some a) v : Eval α) = pure a := rfl

theorem inner_form {X : Platform} {F : Runtime} {env : EvalEnv} {e : Entity} {form : Form}
    {data : Value} (htype : e.entityType = form.typeName.toList) (hdata : decodeData X e = some data)
    (scope : Scope) : evaluateInner X F env e scope = evaluateForm X F env form data scope := by
  unfold evaluateInner
  rw [hdata,htype,Form.ofType_typeName]
  rfl

theorem isExpression_of_type {e : Entity} {form : Form}
    (htype : e.entityType = form.typeName.toList) : isComputeExpression e = true := by
  unfold isComputeExpression
  rw [htype,Form.ofType_typeName]
  rfl

namespace Operation

def inlineForm (X : Platform) (F : Runtime) (op : Operation) (scope : Scope) : Eval ComputeValue :=
  match op with
  | .arithmetic .. => evalArithmetic F op.data scope
  | .compare .. => evalCompare F op.data scope
  | .logic .. => evalLogic op.data scope
  | .field .. => evalField X op.data scope
  | .construct .. => evalConstruct X op.data scope

namespace Forms

variable {X : Platform} {F : Runtime} {env : EvalEnv} {op : Operation} (f : op.Forms X)
  (scope : Scope)

theorem expression_type : f.expression.entityType = op.form.typeName.toList :=
  (Entity.newWithFormat_ok X f.expression_new).1

theorem inner_expression : evaluateInner X F env f.expression scope =
    .value <$> op.inlineForm X F scope := by
  rw [inner_form f.expression_type f.expression_data]
  cases op <;> rfl

theorem inner_literal : evaluateInner X F env f.literal scope =
    .value <$> (pure (.primitive (.text op.steer)) : Eval ComputeValue) := by
  rw [inner_form f.literal_type f.literal_data]
  unfold evaluateForm evalLiteral
  rw [get_entry_self]
  rfl

theorem inner_applied : evaluateInner X F env f.applied scope =
    .value <$> op.builtin.dispatch X F env (canonicalSortedPairs (op.args f.steering)) scope := by
  have hpath : ((op.application f.path f.steering).get "path".toList).isSome = true := by
    unfold application
    rw [get_entry_of_ne (by decide),get_entry_self]
    rfl
  have hfn : ((op.application f.path f.steering).get "fn".toList).isSome = false := by
    rw [op.application_get_none f.path f.steering (by decide) (by decide)
      (by decide)]
    rfl
  have hcapability : dataHash (op.application f.path f.steering) "capability" = none := by
    unfold dataHash
    rw [op.application_get_none f.path f.steering (by decide) (by decide)
      (by decide)]
    rfl
  have hresource : dataHash (op.application f.path f.steering) "resource" = none := by
    unfold dataHash
    rw [op.application_get_none f.path f.steering (by decide) (by decide)
      (by decide)]
    rfl
  have hdispatch : dispatchBuiltinAlias X F env f.path "eval".toList
      (canonicalSortedPairs (op.args f.steering)) scope =
        some (op.builtin.dispatch X F env (canonicalSortedPairs (op.args f.steering)) scope) := by
    unfold dispatchBuiltinAlias
    rw [if_neg (by simp),f.path_builtin]
    simp only [Option.bind_some,Builtin.ofName_name,Option.map_some]
  rw [inner_form f.applied_type f.applied_data]
  simp only [evaluateForm,evalApply,hpath,hfn]
  unfold evalApplyHandler
  rw [op.application_path,op.application_operation,op.application_args,hcapability,hresource]
  simp only [orEarly_some,pure_bind,isBuiltinPath_of_extract f.path_builtin,if_true,
    Option.isSome_none,Bool.or_self,Bool.false_eq_true,if_false,Option.getD_some]
  rw [hdispatch]

/-! What an alias does once it has its text. -/

theorem args_hash {key : String} {hash : Hash} (hmem : (key.toList,hash) ∈ op.args f.steering) :
    argsHash (canonicalSortedPairs (op.args f.steering)) key = some hash := by
  have hperm := canonicalSortedPairs_perm (op.args f.steering)
  have hd : ((canonicalSortedPairs (op.args f.steering)).map Prod.fst).Nodup :=
    (hperm.map Prod.fst).nodup_iff.mpr f.distinct
  exact argsHash_of_mem hd (hperm.mem_iff.mpr hmem)

theorem args_hash_none {key : String} (h : key.toList ∉ (op.args f.steering).map Prod.fst) :
    argsHash (canonicalSortedPairs (op.args f.steering)) key = none := by
  have hperm := canonicalSortedPairs_perm (op.args f.steering)
  exact argsHash_eq_none fun hmem => h ((hperm.map Prod.fst).mem_iff.mp hmem)

/-- Rebuilt with the same entries it is the inline expression. -/
theorem evaluateAlias_eq {data : Value} (label : String) (h : toEcf data = toEcf op.data) :
    evaluateAlias X op.form label data scope = evaluateSub f.expression scope := by
  unfold evaluateAlias
  rw [h,f.expression_new]
  rfl

end Forms

/-- A construction without a type. -/
def NoType : Operation → Bool
  | .construct entityType _ => entityType.isEmpty
  | _ => false

theorem toEcf_binary (op : Str) (left right : Hash) :
    toEcf (.map [entry "left" (hashRef left),entry "op" (.text op),entry "right" (hashRef right)]) =
      toEcf (.map [entry "op" (.text op),entry "left" (hashRef left),
        entry "right" (hashRef right)]) := by
  apply toEcf_map_perm (List.Perm.swap _ _ _)
  show [toEcf (.text "left".toList),toEcf (.text "op".toList),toEcf (.text "right".toList)].Nodup
  decide

theorem toEcf_unary (op : Str) (left : Hash) :
    toEcf (.map [entry "left" (hashRef left),entry "op" (.text op)]) =
      toEcf (.map [entry "op" (.text op),entry "left" (hashRef left)]) := by
  apply toEcf_map_perm (List.Perm.swap _ _ _)
  show [toEcf (.text "left".toList),toEcf (.text "op".toList)].Nodup
  decide

theorem toEcf_construct (entityType : Str) (fields : Value) :
    toEcf (.map [entry "entity_type" (.text entityType),entry "fields" fields]) =
      toEcf (.map [entry "fields" fields,entry "entity_type" (.text entityType)]) := by
  apply toEcf_map_perm (List.Perm.swap _ _ _)
  show [toEcf (.text "entity_type".toList),toEcf (.text "fields".toList)].Nodup
  decide

namespace Forms

variable {X : Platform} {F : Runtime} {env : EvalEnv} {op : Operation} (f : op.Forms X)
  (scope : Scope)

/-- The arguments but the type, sorted again, are the sorted fields. -/
theorem fields_sorted {entityType : Str} {fields : List (Str × Hash)}
    (f : (Operation.construct entityType fields).Forms X) :
    canonicalSortedPairs ((canonicalSortedPairs
      ((Operation.construct entityType fields).args f.steering)).filter
        fun kv => kv.1 ≠ "entity_type".toList) = canonicalSortedPairs fields := by
  have hd := f.distinct
  have hperm := canonicalSortedPairs_perm ((Operation.construct entityType fields).args f.steering)
  simp only [args,operands,steerKey,map_cons,nodup_cons] at hd hperm ⊢
  obtain ⟨hnew,hfields⟩ := hd
  have hrest : fields.filter (fun kv => kv.1 ≠ "entity_type".toList) = fields := by
    apply filter_eq_self.mpr
    intro kv hmem
    by_cases heq : kv.1 = "entity_type".toList
    · exact absurd (mem_map.mpr ⟨kv,hmem,heq⟩) hnew
    · exact decide_eq_true heq
  have hfiltered := hperm.filter fun kv => decide (kv.1 ≠ "entity_type".toList)
  rw [filter_cons_of_neg (by simp),hrest] at hfiltered
  exact canonicalSortedPairs_of_perm hfiltered ((hfiltered.map Prod.fst).nodup_iff.mpr hfields)

theorem dispatch_resolves : ∃ rest : Str → Eval ComputeValue,
    op.builtin.dispatch X F env (canonicalSortedPairs (op.args f.steering)) scope =
        (resolveStringArg (canonicalSortedPairs (op.args f.steering)) op.steerKey scope >>= rest) ∧
      rest op.steer = if op.NoType = true then
          .early (invalid "construct alias: missing or empty 'entity_type'")
        else evaluateSub f.expression scope := by
  cases op with
  | arithmetic op left right =>
    refine ⟨_,rfl,?_⟩
    have hleft := f.args_hash (mem_cons_of_mem _ mem_cons_self)
    have hright := f.args_hash (mem_cons_of_mem _ (mem_cons_of_mem _ mem_cons_self))
    rw [hleft,hright]
    exact f.evaluateAlias_eq scope "arithmetic" (toEcf_binary op left right)
  | compare op left right =>
    refine ⟨_,rfl,?_⟩
    have hleft := f.args_hash (mem_cons_of_mem _ mem_cons_self)
    have hright := f.args_hash (mem_cons_of_mem _ (mem_cons_of_mem _ mem_cons_self))
    rw [hleft,hright]
    exact f.evaluateAlias_eq scope "compare" (toEcf_binary op left right)
  | logic op left right =>
    refine ⟨_,rfl,?_⟩
    have hleft := f.args_hash (mem_cons_of_mem _ mem_cons_self)
    rw [hleft]
    cases right with
    | some right =>
      have hright := f.args_hash
        (mem_cons_of_mem _ (mem_cons_of_mem _ mem_cons_self))
      rw [hright]
      exact f.evaluateAlias_eq scope "logic" (toEcf_binary op left right)
    | none =>
      have hkey : "right".toList ∉ ((Operation.logic op left none).args f.steering).map Prod.fst := by
        simp [args,operands,steerKey]
      rw [f.args_hash_none hkey]
      exact f.evaluateAlias_eq scope "logic" (toEcf_unary op left)
  | field name entity =>
    refine ⟨_,rfl,?_⟩
    have hentity := f.args_hash (mem_cons_of_mem _ mem_cons_self)
    rw [hentity]
    exact f.evaluateAlias_eq scope "field" rfl
  | construct entityType fields =>
    refine ⟨_,rfl,?_⟩
    by_cases htype : entityType.isEmpty = true
    · simp only [steer,NoType,htype,if_true]
    · simp only [steer,NoType,htype,if_false,Bool.false_eq_true]
      apply f.evaluateAlias_eq scope "construct"
      unfold argsFields
      rw [f.fields_sorted]
      exact toEcf_construct entityType _

end Forms

end Operation

end Compute
end EntityCore
