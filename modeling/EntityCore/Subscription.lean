import EntityCore.CapabilityHandler
import EntityCore.Documents

/-! Subscriptions. The handler admits a pattern against the caller's capability and files
the subscription in the tree and in the engine; the engine matches every later tree event
against the filed patterns and queues a notification for each subscription it reaches. -/
namespace EntityCore

open Ecf Outcome Strings

def typeSubscription : Str := "system/subscription".toList

structure SubscriptionLimits where
  maxEvents : Option ℕ
  maxDurationMs : Option ℕ
  rateLimit : Option ℕ
  deriving DecidableEq

structure SubscriptionData where
  subscriptionId : Str
  pattern : Str
  events : List Str
  deliverUri : Str
  deliverOperation : Str
  subscriberIdentity : Hash
  deliverToken : Hash
  createdAt : ℕ
  limits : Option SubscriptionLimits
  includePayload : Bool
  deriving DecidableEq

/-! The stored form. -/

def decodeLimits (v : Value) : Option SubscriptionLimits :=
  v.asMap.map fun map => map.foldl (fun acc kv =>
    let word := kv.2.asInteger.map (·.lowWord)
    if kv.1.asText = some "max_events".toList then { acc with maxEvents := word }
    else if kv.1.asText = some "max_duration_ms".toList then { acc with maxDurationMs := word }
    else if kv.1.asText = some "rate_limit".toList then { acc with rateLimit := word }
    else acc) ⟨none,none,none⟩

def limitsValue (limits : SubscriptionLimits) : Value :=
  .map ([("max_events",limits.maxEvents),("max_duration_ms",limits.maxDurationMs),
    ("rate_limit",limits.rateLimit)].filterMap fun e =>
      e.2.map fun max : ℕ => field e.1 (integerI64 max))

def subscriptionValue (sub : SubscriptionData) : Value :=
  .map ([field "created_at" (integerI64 sub.createdAt),
    field "deliver_operation" (textVal sub.deliverOperation),
    field "deliver_token" (hashVal sub.deliverToken),
    field "deliver_uri" (textVal sub.deliverUri),
    field "events" (.array (sub.events.map textVal)),
    field "pattern" (textVal sub.pattern),
    field "subscriber_identity" (hashVal sub.subscriberIdentity),
    field "subscription_id" (textVal sub.subscriptionId)]++
    (sub.limits.map fun limits => field "limits" (limitsValue limits)).toList++
    if sub.includePayload then [field "include_payload" (.bool true)] else [])

def encodeSubscriptionEntity (X : Platform) (sub : SubscriptionData) : Except EntityError Entity :=
  Entity.new X typeSubscription (toEcf (subscriptionValue sub))

/-- The first field of that name in an entity's data. -/
def entityField (X : Platform) (entity : Entity) (name : String) : Option Value := do
  let value ← (X.fromReader entity.data).toOption
  getField (← value.asMap) name

def extractPatternFromSubEntity (X : Platform) (entity : Entity) : Option Str :=
  (entityField X entity "pattern").bind Value.asText

def extractDeliverUriFromEntity (X : Platform) (entity : Entity) : Option Str :=
  (entityField X entity "deliver_uri").bind Value.asText

/-- The first such field that holds bytes decides. -/
def extractSubscriberFromEntity (X : Platform) (entity : Entity) : Option Hash := do
  let value ← (X.fromReader entity.data).toOption
  let bytes ← (← value.asMap).findSome? fun kv =>
    if kv.1.asText = some "subscriber_identity".toList then kv.2.asBytes else none
  (Hash.fromBytes bytes).toOption

/-! The engine: its registry, and the index from patterns to the subscriptions they route
to. -/

structure ActiveSubscription where
  data : SubscriptionData
  deliveredCount : ℕ
  lastDelivery : Option ℕ
  createdAt : ℕ
  deriving DecidableEq

structure SubscriptionEngine where
  subscriptions : OrderedMap Str ActiveSubscription
  pathIndex : OrderedMap Str (List Str)

def patternMatches (pattern path : Str) : Bool :=
  if pattern = ['*'] then true
  else match stripSuffix pattern "/*".toList with
    | some pre => startsWith path pre && path.length > pre.length
    | none => pattern = path

inductive LimitAction where
  | allow
  | deny (reason : String)
  | terminate (reason : String)

/-- `instant` is the clock of the elapsed times, in milliseconds. -/
def checkLimits (limits : Option SubscriptionLimits) (deliveredCount createdAt : ℕ)
    (lastDelivery : Option ℕ) (instant : ℕ) : LimitAction :=
  match limits with
  | none => .allow
  | some limits =>
    if limits.maxEvents.any fun max => max ≤ deliveredCount then .terminate "max_events_reached"
    else if limits.maxDurationMs.any fun max => max ≤ (instant-createdAt)%2^64 then
      .terminate "max_duration_reached"
    else if limits.rateLimit.any fun rate => 0 < rate ∧
        lastDelivery.any fun last => instant-last < 60000/rate then .deny "rate_limited"
    else .allow

namespace SubscriptionEngine

variable (E : SubscriptionEngine)

def routes (pattern : Str) : List Str := (E.pathIndex.get pattern).getD []

def register (sub : SubscriptionData) (instant : ℕ) : SubscriptionEngine :=
  ⟨E.subscriptions.insert sub.subscriptionId ⟨sub,0,none,instant⟩,
    E.pathIndex.insert sub.pattern (E.routes sub.pattern++[sub.subscriptionId])⟩

/-- A pattern that routes nowhere any more is dropped. -/
def remove (subscriptionId : Str) : SubscriptionEngine :=
  ⟨E.subscriptions.erase subscriptionId,
    OrderedMap.ofList ((E.pathIndex.entries.map fun e =>
      (e.1,e.2.filter (· ≠ subscriptionId))).filter fun e => e.2 ≠ [])⟩

/-- The same subscriber, pattern and delivery address. -/
def findRenewal (subscriber : Hash) (pattern deliverUri : Str) : Option Str :=
  (E.subscriptions.entries.find? fun e => e.2.data.subscriberIdentity = subscriber ∧
    e.2.data.pattern = pattern ∧ e.2.data.deliverUri = deliverUri).map Prod.fst

def matchSubscriptions (path : Str) : List Str :=
  E.pathIndex.entries.flatMap fun e => if patternMatches e.1 path then e.2 else []

end SubscriptionEngine

/-! Chain-error markers: what a notification that is not delivered leaves in the tree. -/

def isSafePathSegment (s : Str) : Bool :=
  !(s.isEmpty || s = ".".toList || s = "..".toList) && !s.contains '/' &&
    !s.any fun c => c.toNat < 32 || c.toNat = 127

def sanitizePathSegment (s : Str) (sentinel : String) : Str :=
  if isSafePathSegment s then s else sentinel.toList

def peerIdFromUri (uri : Str) : Option Str :=
  match stripPrefix uri uriScheme with
  | some rest => some (EntityUri.firstSegment rest)
  | none => (stripPrefix uri ['/']).map EntityUri.firstSegment

/-- What a marker is written about. -/
structure LostNotification where
  chainId : Str
  subscriptionId : Str
  deliverUri : Str
  reason : String
  status : ℕ
  timestampMs : ℕ

namespace LostNotification

def chainIdOriginal (m : LostNotification) : Str :=
  if m.chainId = [] then m.subscriptionId else m.chainId

def safeReason (m : LostNotification) : Str :=
  sanitizePathSegment m.reason.toList "unspecified_error"

def entity (X : Platform) (m : LostNotification) : Except EntityError Entity :=
  Entity.new X "system/runtime/chain-error-lost".toList (toEcf (.map [
    field "chain_id" (textVal m.chainIdOriginal),field "code" (textVal m.reason.toList),
    field "reason" (textVal m.safeReason),field "status" (integerI64 m.status),
    field "step_index" (textVal m.subscriptionId),
    field "target_peer_id" (textVal ((peerIdFromUri m.deliverUri).getD [])),
    field "target_uri" (textVal m.deliverUri),field "timestamp" (integerI64 m.timestampMs)]))

def markerPath (m : LostNotification) (localPeerId : Str) (marker : Hash) : Str :=
  '/'::localPeerId++ "/system/runtime/chain-errors/lost/".toList++
    sanitizePathSegment m.chainIdOriginal "unspecified_chain_id"++ '/'::
    sanitizePathSegment m.subscriptionId "unspecified_step_index"++ '/'::
    m.safeReason++ '/'::marker.toHex

end LostNotification

/-! The hook. -/

/-- What the engine hands to its delivery workers. -/
structure DeliveryWork where
  subscriptionId : Str
  requestId : Str
  deliverUri : Str
  deliverToken : Entity
  params : Entity
  included : OrderedMap Hash Entity
  chainId : Str

/-- The clocks an operation reads, once each. -/
structure ClockReading where
  nanos : ℕ
  instant : ℕ

namespace ClockReading

def nowNanos (c : ClockReading) : ℕ := c.nanos%2^64
def nowMs (c : ClockReading) : ℕ := c.nanos/1000000%2^64

end ClockReading

structure SubscriptionWorld where
  store : ContentStore
  index : MemoryLocationIndex
  engine : SubscriptionEngine
  queue : List DeliveryWork

namespace SubscriptionWorld

def put (w : SubscriptionWorld) (e : Entity) : SubscriptionWorld :=
  { w with store := w.store.put e }

def bind (w : SubscriptionWorld) (path : Str) (e : Entity) : SubscriptionWorld :=
  { w with store := w.store.put e, index := w.index.set path e.contentHash }

def unbind (w : SubscriptionWorld) (path : Str) : SubscriptionWorld :=
  { w with index := (w.index.remove path).2 }

def drop (w : SubscriptionWorld) (subscriptionId : Str) : SubscriptionWorld :=
  { w with engine := w.engine.remove subscriptionId }

def register (w : SubscriptionWorld) (sub : SubscriptionData) (instant : ℕ) : SubscriptionWorld :=
  { w with engine := w.engine.register sub instant }

def enqueue (w : SubscriptionWorld) (work : DeliveryWork) : SubscriptionWorld :=
  { w with queue := w.queue++[work] }

end SubscriptionWorld

def subscriptionPrefix (localPeerId : Str) : Str :=
  '/'::localPeerId++ "/system/subscription/".toList

def subscriptionPath (localPeerId subscriptionId : Str) : Str :=
  subscriptionPrefix localPeerId++subscriptionId

def cascadeDepthSubscriptionSuppress : ℕ := 8

def eventName : ChangeType → Str
  | .created => "created".toList
  | .modified => "updated".toList
  | .deleted => "deleted".toList

section Hook

variable (X : Platform) (localPeerId : Str)

def buildNotification (subscriptionId event uri : Str) (hash : Hash) (previousHash : Option Hash) :
    Option Entity :=
  (Entity.new X "system/subscription/notification".toList (toEcf (.map ([
    field "event" (textVal event),field "hash" (hashVal hash),
    field "subscription_id" (textVal subscriptionId),field "uri" (textVal uri)]++
    (previousHash.map fun prev => field "previous_hash" (hashVal prev)).toList)))).toOption

/-- A marker that cannot be built is not written. -/
def writeLostErrorMarker (m : LostNotification) (w : SubscriptionWorld) : SubscriptionWorld :=
  match m.entity X with
  | .ok e => w.bind (m.markerPath localPeerId e.contentHash) e
  | .error _ => w

/-- Remove the subscription from the engine and from the tree. -/
def terminateSubscription (id : Str) (w : SubscriptionWorld) : SubscriptionWorld :=
  (w.drop id).unbind (subscriptionPath localPeerId id)

/-- The entity a payload subscriber gets along with the notification. -/
def deliveryIncluded (sub : SubscriptionData) (newHash : Option Hash) (store : ContentStore) :
    OrderedMap Hash Entity :=
  if sub.includePayload then
    match newHash.bind fun h => (store.get h).map fun e => (h,e) with
    | some (h,e) => OrderedMap.empty.insert h e
    | none => .empty
  else .empty

def tokenExpired (token : Entity) (nowMs : ℕ) : Bool :=
  match CapabilityToken.fromEntity X token with
  | .ok cap => cap.expiresAt.any fun expires => expires < nowMs
  | .error _ => false

/-- One matched subscription; the second component lists the subscriptions to end. -/
def notify (event : TreeChangeEvent) (ctx : ExecutionContext) (now : ClockReading) (id : Str)
    (s : SubscriptionWorld × List Str) : SubscriptionWorld × List Str :=
  match s.1.engine.subscriptions.get id with
  | none => s
  | some sub =>
    if eventName event.changeType ∉ sub.data.events then s
    else
      let chainId := ctx.chainId.getD []
      let lost (subId : Str) (reason : String) (status : ℕ) : SubscriptionWorld :=
        writeLostErrorMarker X localPeerId
          ⟨chainId,subId,sub.data.deliverUri,reason,status,now.nowMs⟩ s.1
      match checkLimits sub.data.limits sub.deliveredCount sub.createdAt sub.lastDelivery
          now.instant with
      | .terminate reason =>
        (lost sub.data.subscriptionId reason 0,s.2++[sub.data.subscriptionId])
      | .deny reason => (lost sub.data.subscriptionId reason 0,s.2)
      | .allow => match s.1.store.get sub.data.deliverToken with
        | none => (lost id "capability_denied" 403,s.2++[id])
        | some token =>
          if tokenExpired X token now.nowMs then (lost id "capability_denied" 403,s.2++[id])
          else match buildNotification X sub.data.subscriptionId (eventName event.changeType)
              event.path event.hash event.previousHash with
            | none => s
            | some notification => (s.1.enqueue ⟨id,
                "notif-".toList++id++ '-'::Nat.toDigits 10 now.nowNanos,sub.data.deliverUri,token,
                notification,deliveryIncluded sub.data event.newHash s.1.store,chainId⟩,s.2)

/-- Writes below the subscriptions' own prefix notify nobody. -/
def onTreeChange (event : TreeChangeEvent) (ctx : ExecutionContext) (now : ClockReading)
    (w : SubscriptionWorld) : SubscriptionWorld :=
  if cascadeDepthSubscriptionSuppress ≤ ctx.cascadeDepth then w
  else if startsWith event.path (subscriptionPrefix localPeerId) then w
  else
    let s := (w.engine.matchSubscriptions event.path).foldl
      (fun s id => notify X localPeerId event ctx now id s) (w,[])
    s.2.foldl (fun w id => terminateSubscription localPeerId id w) s.1

/-- A delivery that went through counts against the limits. -/
def delivered (id : Str) (instant : ℕ) (w : SubscriptionWorld) : SubscriptionWorld :=
  match w.engine.subscriptions.get id with
  | none => w
  | some sub =>
    let counted := ⟨sub.data,sub.deliveredCount+1,some instant,sub.createdAt⟩
    { w with engine := ⟨w.engine.subscriptions.insert id counted,w.engine.pathIndex⟩ }

end Hook

/-! Admission. -/

structure SubscribeRequest where
  events : List Str
  deliverUri : Str
  deliverOperation : Str
  deliverToken : Hash
  limits : Option SubscriptionLimits
  includePayload : Bool

inductive SubscriptionRejection where
  | refused (failure : Failure)
  | invalidParams (message : String)

inductive SubscriptionReply where
  | subscribed (id pattern : Str) (events : List Str) (limits : Option SubscriptionLimits)
  | renewed (id pattern : Str) (events : List Str)
  | removed
  | redirected (capacity : ℕ) (pattern : Str)
  | rejected (rejection : SubscriptionRejection)
  | internal (message : String)

/-- The subscription that the caller ends up with. -/
def SubscriptionReply.subscription : SubscriptionReply → Option Str
  | .subscribed id _ _ _ => some id
  | .renewed id _ _ => some id
  | _ => none

/-- What the handler reads of a request. -/
structure SubscriptionContext where
  params : Entity
  author : Option Hash
  included : Included
  resourceTarget : Option ResourceTarget
  capabilityHash : Option Hash
  callerCapability : Option CapabilityToken

structure SubscriptionHandler where
  localPeerId : Str
  identityHash : Hash

def patternIsSensitive (pattern : Str) : Bool :=
  let sensitiveFamilies := ["capability".toList,"runtime".toList,"continuation".toList]
  let segments := (segments '/' pattern).filter (· ≠ [])
  (segments.head? = some "system".toList && segments[1]?.any (· ∈ sensitiveFamilies)) ||
    (segments[1]? = some "system".toList && segments[2]?.any (· ∈ sensitiveFamilies))

/-- Does an include pattern cover the value? A subtree covers its base. -/
def scopeIncludes (includes : List Str) (value : Str) : Bool :=
  includes.any fun pattern => pattern = ['*'] || pattern = value ||
    (endsWith pattern ['*'] && pattern.length > 1 &&
      (let pre := pattern.dropLast
      value = (stripSuffix pre ['/']).getD pre || startsWith value pre))

def validateDeliveryTokenScope (cap : CapabilityToken) (deliverUri deliverOperation : Str) : Bool :=
  cap.grants.any fun grant => scopeIncludes grant.handlers.includes "system/inbox".toList &&
    scopeIncludes grant.resources.includes deliverUri &&
    scopeIncludes grant.operations.includes deliverOperation

section Admission

variable (X : Platform)

/-- A wildcard never enumerates. -/
def explicitlyEnumerates (resourcePattern target : Str) : Bool :=
  !resourcePattern.contains '*' && (resourcePattern = target ||
    startsWith target (if endsWith resourcePattern ['/'] then resourcePattern
      else resourcePattern++['/']))

/-- A chain rooted at the identity, each of whose links names the target. -/
def isOperatorClassFor (leafHash : Hash) (targetPattern : Str) (rootIdentityHash : Hash)
    (resolve : Hash → Option Entity) : Bool :=
  match collectAuthorityChain X leafHash resolve with
  | .error _ => false
  | .ok chain => match chain.getLast? with
    | none => false
    | some root => root.fields.parent = none && root.fields.granter = .single rootIdentityHash &&
      chain.all fun link => match CapabilityToken.fromEntity X link.entity with
        | .error _ => false
        | .ok token => token.grants.any fun grant =>
          grant.resources.includes.any fun pattern => explicitlyEnumerates pattern targetPattern

/-- Did the identity take part in the link? A listed signer must have signed. -/
def linkGrantedBy (identity : Hash) (included : Included) (resolve : Hash → Option Entity)
    (link : Link) : Bool :=
  match link.fields.granter with
  | .single granter => granter = identity
  | .multi m => identity ∈ m.signers && (do
      let sig ← findSignatureBySigner X included.values link.entity.contentHash identity
      let sigData ← (SignatureData.fromEntity X sig).toOption
      let writerEntity ← resolve identity
      let writer ← (PeerData.fromEntity X writerEntity).toOption
      return peerDataSigOk X writer link.entity.contentHash.toBytes sigData.signature).getD false

/-- Whether the identity is in the chain, with the chain. -/
def checkCreatorAuthority (capHash identity : Hash) (included : Included)
    (resolve : Hash → Option Entity) : Except ChainWalkError (Bool × List Entity) := do
  let chain ← collectAuthorityChain X capHash resolve
  return (chain.any (linkGrantedBy X identity included resolve),chain.map (·.entity))

def scanSubscribeField (acc : SubscribeRequest) (kv : Value × Value) : SubscribeRequest :=
  if kv.1.asText = some "include_payload".toList then match kv.2.asBool with
    | some b => { acc with includePayload := b }
    | none => acc
  else if kv.1.asText = some "events".toList then match kv.2.asArray with
    | some arr => { acc with events := arr.filterMap Value.asText }
    | none => acc
  else if kv.1.asText = some "deliver_to".toList then
    (kv.2.asMap.getD []).foldl (fun acc d =>
      if d.1.asText = some "uri".toList then { acc with deliverUri := d.2.asText.getD [] }
      else if d.1.asText = some "operation".toList then
        { acc with deliverOperation := d.2.asText.getD [] }
      else acc) acc
  else if kv.1.asText = some "deliver_token".toList then match kv.2.asBytes with
    | some b => { acc with deliverToken := (Hash.fromBytes b).toOption.getD Hash.zero }
    | none => acc
  else if kv.1.asText = some "limits".toList then { acc with limits := decodeLimits kv.2 }
  else acc

def decodeParams (params : Entity) : Except SubscriptionRejection (List (Value × Value)) := do
  let value ← mapErr (fun e => .invalidParams ("decode params: "++e)) (X.fromReader params.data)
  okOr value.asMap (.invalidParams "params not a map")

def decodeSubscribeRequest (params : Entity) : Except SubscriptionRejection SubscribeRequest := do
  return (← decodeParams X params).foldl scanSubscribeField ⟨[],[],[],Hash.zero,none,false⟩

def decodeUnsubscribeRequest (params : Entity) : Except SubscriptionRejection Str := do
  match getField (← decodeParams X params) "subscription_id" with
  | some v => okOr v.asText (.invalidParams "subscription_id not a string")
  | none => .error (.invalidParams "missing subscription_id")

end Admission

def refuse (status : ℕ) (code message : String) : SubscriptionRejection :=
  .refused ⟨status,code,message⟩

/-- What a subscribe request comes to once it is admitted. -/
structure AdmittedSubscription where
  request : SubscribeRequest
  tokenEntity : Entity
  authChain : List Entity
  events : List Str
  pattern : Str

section Handler

variable (X : Platform) (H : SubscriptionHandler)

namespace SubscriptionHandler

/-- The single target of the request, in canonical form. A pattern is a subject here. -/
def singleEffectiveTarget (ctx : SubscriptionContext) : Except SubscriptionRejection Str :=
  match effectiveTargets ctx.resourceTarget H.localPeerId with
  | [target] => .ok (canonicalize target H.localPeerId)
  | [] => if ctx.resourceTarget.any fun rt => rt.targets ≠ [] then
      .error (refuse 400 "path_required" ("system/subscription:subscribe: every resource target "++
        "this request named is covered by its own exclude — the effective set is empty"))
    else .error (refuse 400 "path_required"
      "system/subscription:subscribe requires a resource target (the subscription pattern)")
  | targets => .error (refuse 400 "ambiguous_resource"
      ("system/subscription:subscribe (the subscription pattern) requires exactly one resource "++
        "target, got "++toString targets.length))

/-- The subscriber must be in the authority chain of the token that deliveries will use. -/
def checkAuthority (ctx : SubscriptionContext) (deliverToken : Hash) (store : ContentStore) :
    Except SubscriptionRejection (List Entity) :=
  match ctx.author with
  | none => .ok []
  | some author => match checkCreatorAuthority X deliverToken author ctx.included
      (fun h => (ctx.included.get h).or (store.get h)) with
    | .error _ => .error (refuse 404 "chain_unreachable"
        "deliver_token authority chain has unreachable links")
    | .ok (found,chain) => if found then .ok chain else .error (refuse 403
        "embedded_cap_unauthorized" "subscriber identity not in deliver_token authority chain")

/-- Does the caller's capability chain name the pattern as an operator's does? -/
def operatorClass (ctx : SubscriptionContext) (pattern : Str) (store : ContentStore) : Bool :=
  ctx.capabilityHash.any fun cap => isOperatorClassFor X cap pattern H.identityHash store.get

def checkSensitivity (ctx : SubscriptionContext) (pattern : Str) (store : ContentStore) :
    Except SubscriptionRejection Unit :=
  ensure (!patternIsSensitive pattern || H.operatorClass X ctx pattern store)
    (refuse 403 "sensitive_path" ("subscriptions to system/capability/, system/runtime/, "++
      "or system/continuation/ require operator-class authority"))

/-- The read permission that bundled entities need. -/
def payloadCovered (ctx : SubscriptionContext) (pattern : Str) : Bool :=
  ctx.callerCapability.any fun cap => (checkPermissionWithGrant "get".toList
    "system/tree".toList H.localPeerId (some ⟨[pattern],[]⟩) cap H.localPeerId
    H.localPeerId).isSome

/-- Everything that is checked before a subscription is looked up or filed. -/
def admitSubscribe (ctx : SubscriptionContext) (store : ContentStore) :
    Except SubscriptionRejection AdmittedSubscription := do
  let request ← decodeSubscribeRequest X ctx.params
  ensure (request.deliverToken ≠ Hash.zero)
    (refuse 400 "missing_deliver_token" "deliver_token is required")
  let tokenEntity ← okOr (ctx.included.get request.deliverToken)
    (refuse 400 "missing_deliver_token" "deliver_token entity not in included")
  let deliverOp := if request.deliverOperation = [] then "receive".toList
    else request.deliverOperation
  let cap ← mapErr (fun e => refuse 400 "invalid_deliver_token"
    ("could not decode delivery token: "++CapabilityError.display e))
    (CapabilityToken.fromEntity X tokenEntity)
  ensure (validateDeliveryTokenScope cap request.deliverUri deliverOp)
    (refuse 403 "deliver_token_insufficient"
      "delivery token does not grant access to delivery URI")
  let authChain ← checkAuthority X ctx request.deliverToken store
  let events := if request.events = [] then
    ["created".toList,"updated".toList,"deleted".toList] else request.events
  let pattern ← H.singleEffectiveTarget ctx
  H.checkSensitivity X ctx pattern store
  ensure (!request.includePayload || H.payloadCovered ctx pattern)
    (refuse 403 "payload_unauthorized" "include_payload requires tree:get on the subscribed resource")
  return ⟨request,tokenEntity,authChain,events,pattern⟩

/-! Lookups in the tree. -/

/-- The stored subscriptions, in path order. -/
def storedSubscriptions (w : SubscriptionWorld) : List (Str × Entity) :=
  (w.index.list (subscriptionPrefix H.localPeerId)).filterMap fun entry =>
    ((w.store.get entry.2).filter fun e => e.entityType = typeSubscription).map fun e => (entry.1,e)

/-- The first stored subscription with that pattern and delivery address, whoever's. -/
def findTreeDuplicate (pattern deliverUri : Str) (w : SubscriptionWorld) : Option Str :=
  ((H.storedSubscriptions w).find? fun e => extractPatternFromSubEntity X e.2 = some pattern ∧
    extractDeliverUriFromEntity X e.2 = some deliverUri).bind fun e =>
      stripPrefix e.1 (subscriptionPrefix H.localPeerId)

def countSubscriptionsForPrefix (pattern : Str) (w : SubscriptionWorld) : ℕ :=
  (H.storedSubscriptions w).countP fun e => extractPatternFromSubEntity X e.2 = some pattern

def maxSubscribersPerPrefix (w : SubscriptionWorld) : Option ℕ := do
  let hash ← w.index.get ('/'::H.localPeerId++ "/system/config/subscription".toList)
  let entity ← w.store.get hash
  let v ← entityField X entity "max_subscribers_per_prefix"
  return (← v.asInteger).lowWord

/-- The capacity that is used up, if one is configured. -/
def checkCapacity (pattern : Str) (w : SubscriptionWorld) : Option ℕ :=
  (H.maxSubscribersPerPrefix X w).filter fun max =>
    max ≤ H.countSubscriptionsForPrefix X pattern w

/-! The operations. -/

def putAll (entities : List Entity) (w : SubscriptionWorld) : SubscriptionWorld :=
  entities.foldl SubscriptionWorld.put w

def subscriptionData (id : Str) (author : Hash) (createdAt : ℕ) (a : AdmittedSubscription) :
    SubscriptionData :=
  ⟨id,a.pattern,a.events,a.request.deliverUri,a.request.deliverOperation,author,
    a.tokenEntity.contentHash,createdAt,a.request.limits,a.request.includePayload⟩

/-- What is found is replaced under its id, by the caller's own data. -/
def handleRenewal (existingId : Str) (author : Hash) (a : AdmittedSubscription)
    (included : Included) (now : ClockReading) (w : SubscriptionWorld) :
    SubscriptionReply × SubscriptionWorld :=
  let w := (w.drop existingId).unbind (subscriptionPath H.localPeerId existingId)
  let sub := subscriptionData existingId author now.nowMs a
  match encodeSubscriptionEntity X sub with
  | .error e => (.internal e.display,w)
  | .ok subEntity =>
    let w := (w.bind (subscriptionPath H.localPeerId existingId) subEntity).put a.tokenEntity
    (.renewed existingId a.pattern a.events, (putAll included.values w).register sub now.instant)

def newSubscriptionId (now : ClockReading) : Str := "sub-".toList++Nat.toDigits 10 now.nowNanos

def handleNew (author : Hash) (a : AdmittedSubscription) (included : Included)
    (now : ClockReading) (w : SubscriptionWorld) : SubscriptionReply × SubscriptionWorld :=
  let id := newSubscriptionId now
  let sub := subscriptionData id author (now.nowNanos/1000000) a
  match encodeSubscriptionEntity X sub with
  | .error e => (.internal e.display,w)
  | .ok subEntity =>
    let w := (w.bind (subscriptionPath H.localPeerId id) subEntity).put a.tokenEntity
    (.subscribed id a.pattern a.events a.request.limits,
      (putAll included.values (putAll a.authChain w)).register sub now.instant)

/-- The caller's own entry in the engine, else a stored subscription that looks the same. -/
def existingId (author : Hash) (a : AdmittedSubscription) (w : SubscriptionWorld) : Option Str :=
  (w.engine.findRenewal author a.pattern a.request.deliverUri).or
    (H.findTreeDuplicate X a.pattern a.request.deliverUri w)

def handleSubscribe (ctx : SubscriptionContext) (now : ClockReading) (w : SubscriptionWorld) :
    SubscriptionReply × SubscriptionWorld :=
  match H.admitSubscribe X ctx w.store with
  | .error rejection => (.rejected rejection,w)
  | .ok a =>
    let author := ctx.author.getD Hash.zero
    match H.existingId X author a w with
    | some id => H.handleRenewal X id author a ctx.included now w
    | none => match H.checkCapacity X a.pattern w with
      | some max => (.redirected max a.pattern,w)
      | none => H.handleNew X author a ctx.included now w

/-- Is it another's, as far as the stored entity tells? -/
def ownedByOther (ctx : SubscriptionContext) (entity : Option Entity) : Bool :=
  (entity.bind (extractSubscriberFromEntity X)).any fun owner =>
    ctx.author.any fun author => owner ≠ author

def handleUnsubscribe (ctx : SubscriptionContext) (w : SubscriptionWorld) :
    SubscriptionReply × SubscriptionWorld :=
  match decodeUnsubscribeRequest X ctx.params with
  | .error rejection => (.rejected rejection,w)
  | .ok id =>
    let path := subscriptionPath H.localPeerId id
    match w.index.get path with
    | none => (.rejected (refuse 404 "subscription_not_found"
        ("subscription "++String.ofList id++ " not found")),w)
    | some hash =>
      if ownedByOther X ctx (w.store.get hash) then
        (.rejected (refuse 403 "not_subscription_owner"
          "only the subscription owner can unsubscribe"),w)
      else (.removed,(w.unbind path).drop id)

end SubscriptionHandler

end Handler

end EntityCore
