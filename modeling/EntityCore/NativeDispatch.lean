import EntityCore.ComputeGuards
import EntityCore.Trampoline

/-! Entity-native handlers. A handler that is an expression is evaluated under its own
grant, while the capability that its applications are sent with is by default the
caller's. -/
namespace EntityCore
namespace Compute

open Ecf Program

structure HandlerResult where
  status : ℕ
  result : Entity
  included : OrderedMap Hash Entity

/-- What an application sends. -/
structure ExecuteRequest where
  path : Str
  operation : Str
  params : Entity
  resource : Option ResourceTarget
  capability : Option Entity

/-- The request that a handler serves. -/
structure HandlerContext (W : Type) where
  operation : Str
  params : Entity
  resourceTarget : Option ResourceTarget
  callerCapability : Option CapabilityToken
  matchingGrant : Option GrantEntry
  boundsBudget : Option ℕ
  included : OrderedMap Hash Entity
  /-- The dispatch of the peer, absent where none is wired. -/
  executeFn : Option (W → ExecuteRequest → Except String HandlerResult × W)

def peerDefaultMaxOps : ℕ := 100000
def peerDefaultMaxDepth : ℕ := 1024

section Budget

def extractComputeConstraints (grant : Option GrantEntry) : ℕ × ℕ :=
  let compute := (grant.bind GrantEntry.constraints).bind fun c => c.get "system/compute".toList
  let limit (name : String) (default : ℕ) : ℕ :=
    ((compute.bind fun c => c.get name.toList).bind Value.asU64).getD default
  (limit "max_compute_operations" peerDefaultMaxOps,limit "max_compute_depth" peerDefaultMaxDepth)

/-- The operations and the depth of an evaluation. -/
def initBudget (paramsData : Option Value) (matchingGrant : Option GrantEntry)
    (boundsBudget : Option ℕ) : ℕ × ℕ :=
  let requestBudget := ((paramsData.bind fun d => d.get "budget".toList).bind Value.asU64).getD
    (2^64-1)
  let (capOps,capDepth) := extractComputeConstraints matchingGrant
  (min (min requestBudget (boundsBudget.getD peerDefaultMaxOps)) capOps,capDepth)

end Budget

section Dispatch

variable {W : Type} (X : Platform) (F : Runtime) (host : Host W)

/-- The code and the message of an error body. -/
def errorText (data : Value) : String :=
  String.ofList ((dataStr data "code").getD [])++ ": "++
    String.ofList ((dataStr data "message").getD [])

def unwrapHandlerResult (r : HandlerResult) : ComputeValue :=
  if r.status ≥ 400 then match decodeData X r.result with
    | some data => invalid (errorText data)
    | none => invalid ("Handler dispatch failed: status "++toString r.status)
  else if r.result.entityType = typeResult then
    match (decodeData X r.result).bind fun data => data.get "value".toList with
    | some v => .primitive v
    | none => .entity r.result
  else if r.result.entityType = typeError then match decodeData X r.result with
    | some data => invalid (errorText data)
    | none => .entity r.result
  else .entity r.result

/-- The capability that an application is sent with where it names none. -/
def HandlerContext.defaultCapability (ctx : HandlerContext W) : Option Entity :=
  ctx.callerCapability.bind fun c => (c.toEntity X).toOption

def HandlerContext.request (ctx : HandlerContext W) (localPeerId path operation : Str)
    (resource : Option ResourceTarget) (params : Entity) (capOverride : Option Entity) :
    ExecuteRequest where
  path := qualifyPath path localPeerId
  operation := operation
  params := params
  resource := resource
  capability := capOverride <|> ctx.defaultCapability X

/-- The entities that come with a result are made resident. -/
def absorb (included : OrderedMap Hash Entity) (w : W) : W :=
  included.entries.foldl (fun w e => (host.contentPut w e.2).2) w

def buildDispatchExecute (ctx : HandlerContext W) (localPeerId : Str) :
    Option (W → Str → Str → Option ResourceTarget → Entity → Option Entity → ComputeValue × W) :=
  ctx.executeFn.map fun executeFn w path operation resource params capOverride =>
    match executeFn w (ctx.request X localPeerId path operation resource params capOverride) with
    | (.ok r,w') => (unwrapHandlerResult X r,absorb host r.included w')
    | (.error e,w') => (invalid ("Handler dispatch error: "++e),w')

/-! The reply. -/

def HandlerResult.ok (result : Entity) : HandlerResult := ⟨200,result,.empty⟩

def HandlerResult.error (status : ℕ) (code message : String) : Option HandlerResult :=
  (Entity.new X "system/protocol/error".toList (toEcf (.map
    [entry "code" (.text code.toList),entry "message" (.text message.toList)]))).toOption.map
      fun e => ⟨status,e,.empty⟩

def wrapPrimitive (v : Value) (outputType : Option Str) : Option Entity :=
  (Entity.new X ((outputType.filter fun s => !s.isEmpty).getD "primitive/any".toList)
    (toEcf v)).toOption

def unwrapComputeResultEntity (e : Entity) (outputType : Option Str) : Option HandlerResult :=
  match (decodeData X e).bind fun data => data.get "value".toList with
  | some v => (wrapPrimitive X v outputType).map HandlerResult.ok
  | none => some (.ok e)

def unwrapNativeDispatchResult (v : ComputeValue) (outputType : Option Str) :
    Option HandlerResult :=
  match v with
  | .error err => (err.toEntity X).map HandlerResult.ok
  | .entity e => if e.entityType = typeResult then unwrapComputeResultEntity X e outputType
      else some (.ok e)
  | .primitive p => (wrapPrimitive X p outputType).map HandlerResult.ok
  | .uint u => (wrapPrimitive X (unsignedInteger u) outputType).map HandlerResult.ok
  | .closure _ => HandlerResult.error X 400 "invalid_expression"
      "Entity-native handler returned a closure — closures have no wire representation"

/-! The dispatch. -/

def resourceTargetToEntity (rt : ResourceTarget) : Option Entity :=
  (Entity.new X "system/protocol/resource-target".toList (toEcf (.map
    [entry "exclude" (.array (rt.excludes.map .text)),
      entry "targets" (.array (rt.targets.map .text))]))).toOption

def resourceBinding (resourceTarget : Option ResourceTarget) : Option ComputeValue :=
  match resourceTarget with
  | some rt => (resourceTargetToEntity X rt).map .entity
  | none => some (.primitive .null)

/-- The four bindings of the request. -/
def nativeScope (ctx : HandlerContext W) : Option Scope := do
  let resource ← resourceBinding X ctx.resourceTarget
  return (((OrderedMap.empty.insert "operation".toList (.primitive (.text ctx.operation))).insert
    "params".toList (.entity ctx.params)).insert "resource".toList resource).insert
    "caller_capability".toList
      (((ctx.defaultCapability X).map ComputeValue.entity).getD (.primitive .null))

/-- The authority of the evaluation is the grant of the handler. -/
def nativeEnv (expressionPath localPeerId : Str) (handlerGrant : CapabilityToken)
    (ctx : HandlerContext W) : EvalEnv where
  included := ctx.included
  localPeerId := localPeerId
  capability := some handlerGrant
  authorizedDataHashes := []
  subgraphRoot := some expressionPath

def nativeHost (localPeerId : Str) (ctx : HandlerContext W) : Host W :=
  {host with dispatchExecute := buildDispatchExecute X host ctx localPeerId}

def nativeStart (ctx : HandlerContext W) (w : W) : EvalState W where
  operations := (initBudget none ctx.matchingGrant ctx.boundsBudget).1
  depth := (initBudget none ctx.matchingGrant ctx.boundsBudget).2
  encountered := .empty
  constructedInFlight := .empty
  dependencyPaths := none
  world := w
  log := []

/-- The reply, where building it does not panic, and the context the evaluation leaves. -/
def dispatchEntityNative (expressionPath : Str) (handlerGrant : CapabilityToken) (localPeerId : Str)
    (ctx : HandlerContext W) (outputType : Option Str) (w : W) :
    Option HandlerResult × EvalState W :=
  let start := nativeStart ctx w
  match host.indexGet w (qualifyPath expressionPath localPeerId) with
  | none => (HandlerResult.error X 404 "handler_expression_missing"
      ("No expression at expression_path: "++String.ofList expressionPath),start)
  | some exprHash => match host.contentGet w exprHash with
    | none => (HandlerResult.error X 404 "handler_expression_missing"
        ("Expression entity missing in content store: "++String.ofList expressionPath),start)
    | some expression =>
      if !isComputeExpression expression then (HandlerResult.error X 400 "invalid_expression"
        ("Entity at expression_path is not a compute expression (type: "++
          String.ofList expression.entityType++ ")"),start)
      else match nativeScope X ctx with
        | none => (none,start)
        | some scope =>
          let (v,s) := evaluate X F (nativeHost X host localPeerId ctx)
            (nativeEnv expressionPath localPeerId handlerGrant ctx) expression scope start
          (v.bind fun v => unwrapNativeDispatchResult X v outputType,s)

end Dispatch

/-! What is sent. -/

section Sent

variable {W : Type} (X : Platform)

/-- The requests of a log. -/
def HandlerContext.sent (ctx : HandlerContext W) (localPeerId : Str) (log : List Event) :
    List ExecuteRequest :=
  log.filterMap fun event => match event with
    | .executed path operation resource params capability =>
      some (ctx.request X localPeerId path operation resource params capability)
    | _ => none

theorem mem_sent {ctx : HandlerContext W} {localPeerId : Str} {log : List Event}
    {r : ExecuteRequest} : r ∈ ctx.sent X localPeerId log ↔ ∃ path operation resource params
      capability, .executed path operation resource params capability ∈ log ∧
        r = ctx.request X localPeerId path operation resource params capability := by
  rw [HandlerContext.sent,List.mem_filterMap]
  constructor
  · rintro ⟨event,hmem,hr⟩
    cases event with
    | executed path operation resource params capability =>
      exact ⟨path,operation,resource,params,capability,hmem,(Option.some.inj hr).symm⟩
    | _ => exact absurd hr (by simp)
  · rintro ⟨path,operation,resource,params,capability,hmem,rfl⟩
    exact ⟨_,hmem,rfl⟩

end Sent

/-- Whether a grant passes the check for what a request names. -/
def ExecuteRequest.coveredBy (r : ExecuteRequest) (grant : CapabilityToken) (localPeerId : Str) :
    Bool :=
  checkPermission r.operation r.path (EntityUri.extractPeer r.path localPeerId) r.resource grant
    localPeerId

section Native

variable {W : Type} {X : Platform} {F : Runtime} {host : Host W} {expressionPath localPeerId : Str}
  {handlerGrant : CapabilityToken} {ctx : HandlerContext W}

/-- What a handler did was checked against its grant. -/
theorem dispatchEntityNative_checked (outputType : Option Str) (w : W) :
    ∀ e ∈ (dispatchEntityNative X F host expressionPath handlerGrant localPeerId ctx outputType
      w).2.log, Checked (nativeEnv expressionPath localPeerId handlerGrant ctx) e := by
  have hstart : ∀ e ∈ (nativeStart ctx w).log,
      Checked (nativeEnv expressionPath localPeerId handlerGrant ctx) e := by
    intro e he
    exact absurd he List.not_mem_nil
  unfold dispatchEntityNative
  split
  · exact hstart
  · split
    · exact hstart
    · split
      · exact hstart
      · split
        · exact hstart
        · exact evaluate_checked _ _ _ hstart

end Native

/-- A request of a handler exceeds its grant only where the application names no
capability. -/
theorem native_requests_within_grant_iff {W : Type} (X : Platform) (F : Runtime) (host : Host W)
    (expressionPath localPeerId : Str) (handlerGrant : CapabilityToken) (ctx : HandlerContext W)
    (outputType : Option Str) (w : W) :
    (∀ r ∈ ctx.sent X localPeerId (dispatchEntityNative X F host expressionPath handlerGrant
        localPeerId ctx outputType w).2.log,
      r.capability.isSome ∧ r.coveredBy handlerGrant localPeerId) ↔
    (∀ path operation resource params, .executed path operation resource params none ∈
        (dispatchEntityNative X F host expressionPath handlerGrant localPeerId ctx outputType
          w).2.log → (ctx.defaultCapability X).isSome ∧
        coversTarget (nativeEnv expressionPath localPeerId handlerGrant ctx) handlerGrant path
          operation resource) := by
  constructor
  · intro hall path operation resource params hmem
    have hsent := hall _ ((mem_sent X).mpr ⟨path,operation,resource,params,none,hmem,rfl⟩)
    exact ⟨by simpa [HandlerContext.request] using hsent.1,hsent.2⟩
  · intro hunnamed r hr
    obtain ⟨path,operation,resource,params,capability,hmem,rfl⟩ := (mem_sent X).mp hr
    cases capability with
    | none =>
      obtain ⟨hdefault,hcovers⟩ := hunnamed path operation resource params hmem
      exact ⟨by simpa [HandlerContext.request] using hdefault,hcovers⟩
    | some capability =>
      have hchecked := dispatchEntityNative_checked outputType w _ hmem
      obtain ⟨cap,hcap,hcovers⟩ := hchecked rfl
      have hgrant : handlerGrant = cap := Option.some.inj hcap
      rw [← hgrant] at hcovers
      exact ⟨by simp [HandlerContext.request],hcovers⟩

namespace NativeSample

open Sample ComputeSample

/-- A write to the tree that names no capability. -/
def putApply : Doc := ⟨"compute/apply",.map [(txt "operation",txt "put"),
  (txt "path",txt "system/tree")],0xfabf827d5afe728d59e04e4c752dead98190811e371c97947574938d02cd856d⟩

def emptyParams : Doc := ⟨"primitive/map",.map [],
  0xb8391570472e7b0dc368e14a1ca6669997ab9816e10944fcbb7f5177d3b1a2ea⟩

def wideDoc : Doc := ⟨"system/capability/token",rootValue,
  0xbdda300eb9790dbe07c8c3cda4a4c2df8b44ba86f0b4974c0c59efeab0e886fa⟩

def token (grants : List GrantEntry) : CapabilityToken where
  grants := grants
  granter := .single alice.contentHash
  grantee := bob.contentHash
  parent := none
  createdAt := 1
  expiresAt := none
  notBefore := none
  delegationCaveats := none

def wide : CapabilityToken :=
  token [⟨⟨["*".toList],[]⟩,⟨["*".toList],[]⟩,⟨["*".toList],[]⟩,none,none,none⟩]

/-- A handler without authority of its own is a valid one. -/
def narrow : CapabilityToken := token []

def request : HandlerContext (ContentStore × MemoryLocationIndex) where
  operation := "run".toList
  params := emptyParams.entity
  resourceTarget := none
  callerCapability := some wide
  matchingGrant := none
  boundsBudget := some 100
  included := .empty
  executeFn := some fun w r => (.ok (.ok r.params),w)

def log : List Event := (dispatchEntityNative (crates [putApply,emptyParams,wideDoc]) words
  (Host.memory none) "app/run".toList narrow aliceId request none
  (⟨[putApply.entity]⟩,⟨.ofList [('/'::aliceId++ "/app/run".toList,putApply.entity.contentHash)]⟩)).2.log

end NativeSample

open NativeSample ComputeSample in
theorem unnamed_capability_exceeds_grant : ∃ r ∈ request.sent (crates [putApply,emptyParams,wideDoc])
    Sample.aliceId log, r.capability = some wideDoc.entity ∧
      r.coveredBy wide Sample.aliceId = true ∧ r.coveredBy narrow Sample.aliceId = false := by
  have hany : (request.sent (crates [putApply,emptyParams,wideDoc]) Sample.aliceId log).any
      (fun r => r.capability = some wideDoc.entity && r.coveredBy wide Sample.aliceId &&
        !r.coveredBy narrow Sample.aliceId) = true := by decide +kernel
  obtain ⟨r,hr,hp⟩ := List.any_eq_true.mp hany
  exact ⟨r,hr,by simpa [and_assoc] using hp⟩

end Compute

end EntityCore
