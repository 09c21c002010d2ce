import EntityCore.SubscriberIsolation

/-! The limit on the number of notifications. An event is checked against what has been delivered
when it is matched; the notification is delivered later, and a restart begins to count anew from
the subscriptions in the tree. -/
namespace EntityCore

open Ecf Outcome Strings

/-! The engine after a restart. -/

structure SubscriptionFields where
  subscriptionId : Option Str
  pattern : Option Str
  events : List Str
  deliverUri : Option Str
  deliverOperation : Option Str
  subscriberIdentity : Option Hash
  deliverToken : Option Hash
  createdAt : Option ℕ
  limits : Option SubscriptionLimits
  includePayload : Bool

def SubscriptionFields.none : SubscriptionFields :=
  ⟨.none,.none,[],.none,.none,.none,.none,.none,.none,false⟩

def scanSubscriptionField (acc : SubscriptionFields) (kv : Value × Value) : SubscriptionFields :=
  let named (name : String) : Bool := kv.1.asText = some name.toList
  if named "include_payload" then { acc with includePayload := kv.2.asBool.getD acc.includePayload }
  else if named "subscription_id" then { acc with subscriptionId := kv.2.asText }
  else if named "pattern" then { acc with pattern := kv.2.asText }
  else if named "events" then
    { acc with events := (kv.2.asArray.map (·.filterMap Value.asText)).getD acc.events }
  else if named "deliver_uri" then { acc with deliverUri := kv.2.asText }
  else if named "deliver_operation" then { acc with deliverOperation := kv.2.asText }
  else if named "subscriber_identity" then match kv.2.asBytes with
    | some b => { acc with subscriberIdentity := (Hash.fromBytes b).toOption }
    | none => acc
  else if named "deliver_token" then match kv.2.asBytes with
    | some b => { acc with deliverToken := (Hash.fromBytes b).toOption }
    | none => acc
  else if named "created_at" then { acc with createdAt := kv.2.asInteger.map (·.lowWord) }
  else if named "limits" then { acc with limits := decodeLimits kv.2 }
  else acc

section Engine

variable (X : Platform) (localPeerId : Str)

def decodeSubscriptionEntity (entity : Entity) : Option SubscriptionData :=
  if entity.entityType ≠ typeSubscription then none
  else do
    let val ← (X.fromReader entity.data).toOption
    let fields := (← val.asMap).foldl scanSubscriptionField .none
    return {
      subscriptionId := ← fields.subscriptionId
      pattern := ← fields.pattern
      events := fields.events
      deliverUri := ← fields.deliverUri
      deliverOperation := ← fields.deliverOperation
      subscriberIdentity := ← fields.subscriberIdentity
      deliverToken := ← fields.deliverToken
      createdAt := ← fields.createdAt
      limits := fields.limits
      includePayload := fields.includePayload }

/-- The routing index rebuilt from the subscriptions in the tree, none of them delivered to. -/
def SubscriptionEngine.load (store : ContentStore) (index : MemoryLocationIndex) (instant : ℕ) :
    SubscriptionEngine :=
  (index.list (subscriptionPrefix localPeerId)).foldl (fun E entry =>
    match (store.get entry.2).bind (decodeSubscriptionEntity X) with
    | some sub => E.register sub instant
    | none => E) ⟨.empty,.empty⟩

/-! Steps. -/

/-- How the call of a delivery worker ends; without a delivery function nothing is called. -/
inductive DeliveryOutcome where
  | succeeded
  | failed (reason : String)
  | unconfigured

inductive NotifierStep where
  | treeChange (event : TreeChangeEvent) (ctx : ExecutionContext) (now : ClockReading)
  /-- A worker takes the notification at that place of the queue. -/
  | deliver (place : ℕ) (outcome : DeliveryOutcome) (now : ClockReading)
  | restart (now : ClockReading)
  /-- Somebody binds an entity in the tree, or removes a binding. -/
  | write (path : Str) (entity : Option Entity)

/-- The peer, and the subscriptions of the notifications that were delivered, one by one. -/
structure NotifierRun where
  world : SubscriptionWorld
  deliveries : List Str

def deliverNotification (work : DeliveryWork) (outcome : DeliveryOutcome) (now : ClockReading)
    (s : NotifierRun) : NotifierRun :=
  match outcome with
  | .succeeded =>
    ⟨delivered work.subscriptionId now.instant s.world,s.deliveries++[work.subscriptionId]⟩
  | .failed reason => { s with
      world := writeLostErrorMarker X localPeerId
        ⟨work.chainId,work.subscriptionId,work.deliverUri,reason,0,now.nowMs⟩ s.world }
  | .unconfigured => s

def notifierStep (step : NotifierStep) (s : NotifierRun) : NotifierRun :=
  match step with
  | .treeChange event ctx now => { s with world := onTreeChange X localPeerId event ctx now s.world }
  | .deliver place outcome now => match s.world.queue[place]? with
    | none => s
    | some work => deliverNotification X localPeerId work outcome now
        { s with world := { s.world with queue := s.world.queue.eraseIdx place } }
  | .restart now => { s with
      world := { s.world with
        engine := .load X localPeerId s.world.store s.world.index now.instant
        queue := [] } }
  | .write path (some entity) => { s with world := s.world.bind path entity }
  | .write path none => { s with world := s.world.unbind path }

end Engine

/-! The condition. -/

def inFlight (id : Str) (w : SubscriptionWorld) : ℕ :=
  w.queue.countP fun work => work.subscriptionId = id

def LimitAction.allows : LimitAction → Bool
  | .allow => true
  | _ => false

/-- The subscription listens to the event and its limits allow another notification. -/
def passesLimits (event : TreeChangeEvent) (now : ClockReading) (sub : ActiveSubscription) : Bool :=
  eventName event.changeType ∈ sub.data.events && (checkLimits sub.data.limits sub.deliveredCount
    sub.createdAt sub.lastDelivery now.instant).allows

def SubscriptionData.maxEvents (sub : SubscriptionData) : Option ℕ :=
  sub.limits.bind (·.maxEvents)

/-- An event that passes the limits of the subscription leaves room for itself: what has been
delivered, what is in flight and what the event adds stay within the maximum. Nobody files the
subscription with another maximum. -/
def LeavesRoom (X : Platform) (id : Str) (n : ℕ) (step : NotifierStep) (s : NotifierRun) : Prop :=
  match step with
  | .treeChange event _ now => ∀ sub, s.world.engine.subscriptions.get id = some sub →
      passesLimits event now sub = true → ∀ max, sub.data.maxEvents = some max →
      s.deliveries.count id+inFlight id s.world+
        (s.world.engine.matchSubscriptions event.path).count id ≤ max
  | .write _ (some entity) => ∀ sub, decodeSubscriptionEntity X entity = some sub →
      sub.subscriptionId = id → sub.maxEvents = some n
  | _ => True

/-- The maximum of the subscription, in the engine and wherever the tree files it. -/
structure LimitedTo (X : Platform) (localPeerId id : Str) (n : ℕ) (w : SubscriptionWorld) :
    Prop where
  registered : ∀ sub, w.engine.subscriptions.get id = some sub → sub.data.maxEvents = some n
  filed : ∀ path hash, w.index.get path = some hash → subscriptionPrefix localPeerId <+: path →
    ∀ entity, w.store.get hash = some entity → ∀ sub, decodeSubscriptionEntity X entity = some sub →
    sub.subscriptionId = id → sub.maxEvents = some n

section Steps

variable {X : Platform} {localPeerId id : Str} {n : ℕ} {w : SubscriptionWorld}

/-! What keeps the maximum. -/

namespace LimitedTo

theorem of_engine (h : LimitedTo X localPeerId id n w) {w' : SubscriptionWorld}
    (hstore : w'.store = w.store) (hindex : w'.index = w.index)
    (hengine : ∀ sub, w'.engine.subscriptions.get id = some sub → sub.data.maxEvents = some n) :
    LimitedTo X localPeerId id n w' := by
  refine ⟨hengine,?_⟩
  rw [hstore,hindex]
  exact h.filed

/-- An entity goes in that does not file the subscription with another maximum. -/
theorem bind (h : LimitedTo X localPeerId id n w) (path : Str) {e : Entity}
    (he : ∀ sub, decodeSubscriptionEntity X e = some sub → sub.subscriptionId = id →
      sub.maxEvents = some n) : LimitedTo X localPeerId id n (w.bind path e) := by
  refine ⟨h.registered,fun p hash hp hunder entity hentity sub hsub hid => ?_⟩
  have hget : (w.store.put e).get hash = some entity := hentity
  have hbound : (w.index.set path e.contentHash).get p = some hash := hp
  rw [ContentStore.get_put] at hget
  split_ifs at hget with hhash
  · cases hget
    exact he sub hsub hid
  · rw [MemoryLocationIndex.get_set] at hbound
    split_ifs at hbound with hpath
    · exact (hhash (Option.some.inj hbound)).elim
    · exact h.filed p hash hbound hunder entity hget sub hsub hid

theorem unbind (h : LimitedTo X localPeerId id n w) (path : Str) :
    LimitedTo X localPeerId id n (w.unbind path) := by
  refine ⟨h.registered,fun p hash hp => ?_⟩
  have hbound : (w.index.paths.erase path).get p = some hash := hp
  rw [OrderedMap.get_erase] at hbound
  split_ifs at hbound
  exact h.filed p hash hbound

theorem drop (h : LimitedTo X localPeerId id n w) (other : Str) :
    LimitedTo X localPeerId id n (w.drop other) := by
  refine h.of_engine rfl rfl fun sub hsub => ?_
  have hget : (w.engine.remove other).subscriptions.get id = some sub := hsub
  rw [SubscriptionEngine.get_remove] at hget
  split_ifs at hget
  exact h.registered sub hget

theorem marker (h : LimitedTo X localPeerId id n w) (m : LostNotification) :
    LimitedTo X localPeerId id n (writeLostErrorMarker X localPeerId m w) := by
  unfold writeLostErrorMarker
  cases he : m.entity X with
  | error err => exact h
  | ok e =>
    apply h.bind
    intro sub hsub
    unfold LostNotification.entity at he
    have htype := (Entity.newWithFormat_ok X he).1
    have hne : e.entityType ≠ typeSubscription := by
      rw [htype]
      decide +kernel
    rw [decodeSubscriptionEntity,if_pos hne] at hsub
    cases hsub

theorem delivered (h : LimitedTo X localPeerId id n w) (other : Str) (instant : ℕ) :
    LimitedTo X localPeerId id n (delivered other instant w) := by
  unfold EntityCore.delivered
  cases hother : w.engine.subscriptions.get other with
  | none => exact h
  | some sub =>
    refine h.of_engine rfl rfl fun sub' hsub' => ?_
    have hget : (w.engine.subscriptions.insert other
      ⟨sub.data,sub.deliveredCount+1,some instant,sub.createdAt⟩).get id = some sub' := hsub'
    rw [OrderedMap.get_insert] at hget
    split_ifs at hget with hid
    · cases hget
      exact h.registered sub (hid ▸ hother)
    · exact h.registered sub' hget

/-- What is filed under the id has the maximum, so what is loaded does. -/
theorem load (h : LimitedTo X localPeerId id n w) (instant : ℕ) :
    LimitedTo X localPeerId id n { w with
      engine := .load X localPeerId w.store w.index instant
      queue := [] } := by
  refine h.of_engine rfl rfl ?_
  show ∀ sub, (SubscriptionEngine.load X localPeerId w.store w.index instant).subscriptions.get id =
    some sub → sub.data.maxEvents = some n
  unfold SubscriptionEngine.load
  have hfiled : ∀ entry ∈ w.index.list (subscriptionPrefix localPeerId), ∀ sub,
      (w.store.get entry.2).bind (decodeSubscriptionEntity X) = some sub →
      sub.subscriptionId = id → sub.maxEvents = some n := by
    intro entry hentry sub hsub
    obtain ⟨hget,hunder⟩ := (w.index.mem_list _ _ _).mp hentry
    obtain ⟨entity,hentity,hdecode⟩ := Option.bind_eq_some_iff.mp hsub
    exact h.filed entry.1 entry.2 hget hunder entity hentity sub hdecode
  have hstart : ∀ sub, (⟨.empty,.empty⟩ : SubscriptionEngine).subscriptions.get id = some sub →
      sub.data.maxEvents = some n := by
    intro sub hsub
    cases hsub
  generalize (⟨.empty,.empty⟩ : SubscriptionEngine) = E at hstart ⊢
  generalize w.index.list (subscriptionPrefix localPeerId) = entries at hfiled ⊢
  induction entries generalizing E with
  | nil => exact hstart
  | cons entry entries ih =>
    have hrest := fun e he => hfiled e (List.mem_cons_of_mem _ he)
    rw [List.foldl_cons]
    cases hsub : (w.store.get entry.2).bind (decodeSubscriptionEntity X) with
    | none => exact ih E hstart hrest
    | some loaded =>
      refine ih _ ?_ hrest
      intro sub hget
      rw [SubscriptionEngine.get_register] at hget
      split_ifs at hget with hid
      · cases hget
        exact hfiled entry List.mem_cons_self loaded hsub hid.symm
      · exact hstart sub hget

end LimitedTo

/-! What an event adds to the queue. -/

variable {event : TreeChangeEvent} {ctx : ExecutionContext} {now : ClockReading}

theorem inFlight_append (w : SubscriptionWorld) (new : List DeliveryWork) :
    inFlight id { w with queue := w.queue++new } =
      inFlight id w+new.countP fun work => work.subscriptionId = id := by
  simp [inFlight]

theorem inFlight_marker (m : LostNotification) (w : SubscriptionWorld) :
    inFlight id (writeLostErrorMarker X localPeerId m w) = inFlight id w := by
  rw [inFlight,writeLostErrorMarker_queue,inFlight]

/-- The notifications of an event that passes the limits of the subscription, one a match. -/
def passing (event : TreeChangeEvent) (now : ClockReading) (id : Str) (w : SubscriptionWorld)
    (matched : List Str) : ℕ :=
  if (w.engine.subscriptions.get id).any (passesLimits event now) then matched.count id else 0

/-- A matched subscription gets at most one notification, and none when its limits do not pass. -/
theorem notify_inFlight (other : Str) (s : SubscriptionWorld × List Str) :
    inFlight id (notify X localPeerId event ctx now other s).1 ≤
      inFlight id s.1+passing event now id s.1 [other] := by
  have hkeep : ∀ t : SubscriptionWorld, inFlight id t = inFlight id s.1 →
      inFlight id t ≤ inFlight id s.1+passing event now id s.1 [other] := by
    intro t ht
    omega
  unfold notify
  cases hsub : s.1.engine.subscriptions.get other with
  | none => exact hkeep _ rfl
  | some sub =>
    simp only
    by_cases hevent : eventName event.changeType ∉ sub.data.events
    · rw [if_pos hevent]
      exact hkeep _ rfl
    · rw [if_neg hevent]
      cases hlimits : checkLimits sub.data.limits sub.deliveredCount sub.createdAt sub.lastDelivery
          now.instant with
      | terminate reason => exact hkeep _ (inFlight_marker _ _)
      | deny reason => exact hkeep _ (inFlight_marker _ _)
      | allow =>
        simp only
        cases s.1.store.get sub.data.deliverToken with
        | none => exact hkeep _ (inFlight_marker _ _)
        | some token =>
          simp only
          split_ifs
          · exact hkeep _ (inFlight_marker _ _)
          · cases buildNotification X sub.data.subscriptionId (eventName event.changeType)
                event.path event.hash event.previousHash with
            | none => exact hkeep _ rfl
            | some notification =>
              show inFlight id { s.1 with queue := s.1.queue++[_] } ≤ _
              rw [inFlight_append]
              by_cases hid : other = id
              · subst hid
                have hpass : passesLimits event now sub = true := by
                  simp only [not_not] at hevent
                  simp [passesLimits,hevent,hlimits,LimitAction.allows]
                simp [passing,hsub,hpass]
              · simp [passing,hid]

theorem notify_limited (h : LimitedTo X localPeerId id n w) (other : Str) (ended : List Str) :
    LimitedTo X localPeerId id n (notify X localPeerId event ctx now other (w,ended)).1 := by
  unfold notify
  cases w.engine.subscriptions.get other with
  | none => exact h
  | some sub =>
    simp only
    by_cases hevent : eventName event.changeType ∉ sub.data.events
    · rw [if_pos hevent]
      exact h
    · rw [if_neg hevent]
      cases checkLimits sub.data.limits sub.deliveredCount sub.createdAt sub.lastDelivery
          now.instant with
      | terminate reason => exact h.marker _
      | deny reason => exact h.marker _
      | allow =>
        simp only
        cases w.store.get sub.data.deliverToken with
        | none => exact h.marker _
        | some token =>
          simp only
          split_ifs
          · exact h.marker _
          · cases buildNotification X sub.data.subscriptionId (eventName event.changeType)
                event.path event.hash event.previousHash with
            | none => exact h
            | some notification => exact h.of_engine rfl rfl h.registered

theorem passing_congr {w' : SubscriptionWorld} (h : w'.engine = w.engine) (matched : List Str) :
    passing event now id w' matched = passing event now id w matched := by
  rw [passing,h,passing]

theorem notifyAll_inFlight (matched : List Str) (s : SubscriptionWorld × List Str) :
    inFlight id (matched.foldl (fun s id => notify X localPeerId event ctx now id s) s).1 ≤
      inFlight id s.1+passing event now id s.1 matched := by
  induction matched generalizing s with
  | nil => exact Nat.le_add_right _ _
  | cons other matched ih =>
    rw [List.foldl_cons]
    have hrest := ih (notify X localPeerId event ctx now other s)
    have hone := @notify_inFlight X localPeerId id event ctx now other s
    rw [passing_congr (notify_frame X localPeerId event ctx now other s).1] at hrest
    have hsum : passing event now id s.1 (other::matched) =
        passing event now id s.1 [other]+passing event now id s.1 matched := by
      unfold passing
      split_ifs
      · rw [← List.count_append]
        rfl
      · rfl
    omega

theorem notifyAll_limited (matched : List Str) {s : SubscriptionWorld × List Str}
    (h : LimitedTo X localPeerId id n s.1) : LimitedTo X localPeerId id n
      (matched.foldl (fun s id => notify X localPeerId event ctx now id s) s).1 := by
  induction matched generalizing s with
  | nil => exact h
  | cons other matched ih => exact ih (notify_limited h other s.2)

theorem terminateAll_limited (ended : List Str) (h : LimitedTo X localPeerId id n w) :
    LimitedTo X localPeerId id n
      (ended.foldl (fun w id => terminateSubscription localPeerId id w) w) := by
  induction ended generalizing w with
  | nil => exact h
  | cons other ended ih => exact ih ((h.drop other).unbind _)

theorem onTreeChange_limited (h : LimitedTo X localPeerId id n w) :
    LimitedTo X localPeerId id n (onTreeChange X localPeerId event ctx now w) := by
  unfold onTreeChange
  split_ifs
  · exact h
  · exact h
  · exact terminateAll_limited _ (notifyAll_limited _ h)

theorem onTreeChange_inFlight : inFlight id (onTreeChange X localPeerId event ctx now w) ≤
      inFlight id w+passing event now id w (w.engine.matchSubscriptions event.path) := by
  unfold onTreeChange
  split_ifs
  · exact Nat.le_add_right _ _
  · exact Nat.le_add_right _ _
  · have hall := @notifyAll_inFlight X localPeerId id event ctx now
      (w.engine.matchSubscriptions event.path) (w,[])
    rw [inFlight,terminateAll_queue]
    exact hall

/-! Runs. -/

/-- What has been delivered and what is in flight stay within the maximum. -/
structure WithinLimit (X : Platform) (localPeerId id : Str) (n : ℕ) (s : NotifierRun) : Prop where
  limited : LimitedTo X localPeerId id n s.world
  within : s.deliveries.count id+inFlight id s.world ≤ n

/-- A notification that has been taken is delivered or lost. -/
theorem deliver_within {s : NotifierRun} (hlimited : LimitedTo X localPeerId id n s.world)
    (work : DeliveryWork) (hroom : s.deliveries.count id+inFlight id s.world+
      [work.subscriptionId].count id ≤ n) (outcome : DeliveryOutcome) :
    WithinLimit X localPeerId id n (deliverNotification X localPeerId work outcome now s) := by
  cases outcome with
  | succeeded =>
    refine ⟨hlimited.delivered _ _,?_⟩
    show (s.deliveries++[work.subscriptionId]).count id+
      inFlight id (delivered work.subscriptionId now.instant s.world) ≤ n
    have hqueue : (delivered work.subscriptionId now.instant s.world).queue = s.world.queue := by
      unfold delivered
      cases s.world.engine.subscriptions.get work.subscriptionId <;> rfl
    rw [List.count_append,inFlight,hqueue]
    unfold inFlight at hroom
    omega
  | failed reason =>
    refine ⟨hlimited.marker _,?_⟩
    show s.deliveries.count id+inFlight id (writeLostErrorMarker X localPeerId _ s.world) ≤ n
    rw [inFlight_marker]
    omega
  | unconfigured =>
    refine ⟨hlimited,?_⟩
    show s.deliveries.count id+inFlight id s.world ≤ n
    omega

theorem inFlight_take {place : ℕ} {work : DeliveryWork} (h : w.queue[place]? = some work) :
    inFlight id { w with queue := w.queue.eraseIdx place }+[work.subscriptionId].count id =
      inFlight id w := by
  obtain ⟨hlt,hget⟩ := List.getElem?_eq_some_iff.mp h
  have hperm := List.getElem_cons_eraseIdx_perm hlt
  have hcount := hperm.countP_eq fun work => decide (work.subscriptionId = id)
  rw [List.countP_cons,hget] at hcount
  show (w.queue.eraseIdx place).countP _+_ = w.queue.countP _
  rw [← hcount,List.count_singleton]
  simp

theorem notifierStep_within {step : NotifierStep} {s : NotifierRun}
    (h : WithinLimit X localPeerId id n s) (hroom : LeavesRoom X id n step s) :
    WithinLimit X localPeerId id n (notifierStep X localPeerId step s) := by
  have hwithin := h.within
  cases step with
  | treeChange event ctx now =>
    refine ⟨onTreeChange_limited h.limited,?_⟩
    show s.deliveries.count id+inFlight id (onTreeChange X localPeerId event ctx now s.world) ≤ n
    have hadded := @onTreeChange_inFlight X localPeerId id s.world event ctx now
    by_cases hpass : (s.world.engine.subscriptions.get id).any (passesLimits event now) = true
    · obtain ⟨sub,hsub,hsubpass⟩ := (Option.any_eq_true _ _).mp hpass
      have hleft := hroom sub hsub hsubpass n (h.limited.registered sub hsub)
      rw [passing,if_pos hpass] at hadded
      omega
    · rw [passing,if_neg hpass] at hadded
      omega
  | deliver place outcome now =>
    simp only [notifierStep]
    cases hwork : s.world.queue[place]? with
    | none => exact h
    | some work =>
      let taken : NotifierRun :=
        { s with world := { s.world with queue := s.world.queue.eraseIdx place } }
      have htake : inFlight id taken.world+[work.subscriptionId].count id = inFlight id s.world :=
        inFlight_take hwork
      have hlimited : LimitedTo X localPeerId id n taken.world :=
        h.limited.of_engine rfl rfl h.limited.registered
      have hleft : taken.deliveries.count id+inFlight id taken.world+
          [work.subscriptionId].count id ≤ n := by
        show s.deliveries.count id+inFlight id taken.world+_ ≤ n
        omega
      exact deliver_within hlimited work hleft outcome
  | restart now =>
    refine ⟨h.limited.load now.instant,?_⟩
    show s.deliveries.count id+0 ≤ n
    omega
  | write path entity =>
    cases entity with
    | none => exact ⟨h.limited.unbind path,hwithin⟩
    | some entity => exact ⟨h.limited.bind path hroom,hwithin⟩

/-- In a run in which every event that passes the limits leaves room for itself, a new
subscription gets at most its maximum of notifications. -/
theorem deliveries_within_limit {schedule : List NotifierStep} {s : NotifierRun}
    (hlimited : LimitedTo X localPeerId id n s.world)
    (hnew : s.deliveries.count id = 0 ∧ inFlight id s.world = 0)
    (hroom : Schedule.Admissible (notifierStep X localPeerId) (LeavesRoom X id n) schedule s) :
    (Schedule.run (notifierStep X localPeerId) schedule s).deliveries.count id ≤ n := by
  have hstart : WithinLimit X localPeerId id n s := ⟨hlimited,by omega⟩
  have hend : WithinLimit X localPeerId id n
      (Schedule.run (notifierStep X localPeerId) schedule s) :=
    Schedule.run_invariant (fun _ _ h hsafe => notifierStep_within h hsafe) hstart hroom
  exact (Nat.le_add_right _ _).trans hend.within

end Steps

namespace SubscriptionSample

open Sample

/-- The subscription to `app/*`, for one notification. -/
def limited : SubscriptionData :=
  { stored appSubtree bobToken bob false 1000 with limits := some ⟨some 1,none,none⟩ }

def limitedEntity : Entity := entity "system/subscription" (subscriptionValue limited)
  0x913f97a9a885eb9395158fae7be3c76e7fc69b978c28194cf5da76f40c6d3b0e

def notesPath : Str := '/'::aliceId++ "/app/notes".toList

def limitedCrates : Platform := platform [deliveryTokenValue bob,subscriptionValue limited] [
  (ecfForHash "system/subscription/notification".toList (toEcf (notificationValue notesPath)),
    0x8ead8649b8959d5978385185ee02c4386e3d03c23032f7ff7873c9f511e54fc2)] []

/-- The peer with that subscription in its tree and loaded from there. -/
def limitedStart : NotifierRun :=
  let store : ContentStore := ⟨[limitedEntity,bobToken,secret]⟩
  let index : MemoryLocationIndex :=
    ⟨OrderedMap.empty.insert (subscriptionPath aliceId firstId) limitedEntity.contentHash⟩
  ⟨⟨store,index,.load limitedCrates aliceId store index 0,[]⟩,[]⟩

def noted : NotifierStep := .treeChange (secretAt notesPath) {} nextSecond

def arrives : NotifierStep := .deliver 0 .succeeded nextSecond

def afterSteps (steps : List NotifierStep) : NotifierRun :=
  Schedule.run (notifierStep limitedCrates aliceId) steps limitedStart

/-- The subscription as it is loaded, and what goes out of it in three runs. -/
theorem evaluated_limits :
    (limitedStart.world.engine.subscriptions.get firstId = some ⟨limited,0,none,0⟩ ∧
      limitedStart.world.store.get limitedEntity.contentHash = some limitedEntity ∧
      decodeSubscriptionEntity limitedCrates limitedEntity = some limited) ∧
    ((afterSteps [noted,noted,arrives,arrives]).deliveries = [firstId,firstId] ∧
      (afterSteps [noted,arrives,.restart nextSecond,noted,arrives]).deliveries = [firstId,firstId]) ∧
    limitedStart.deliveries.count firstId+inFlight firstId limitedStart.world+
      (limitedStart.world.engine.matchSubscriptions (secretAt notesPath).path).count firstId ≤ 1 ∧
    ((afterSteps [noted,arrives]).world.engine.subscriptions.get firstId).any
      (passesLimits (secretAt notesPath) nextSecond) = false := by decide +kernel

theorem limitedStart_limitedTo : LimitedTo limitedCrates aliceId firstId 1 limitedStart.world := by
  obtain ⟨⟨hget,hstored,hdecode⟩,-⟩ := evaluated_limits
  refine ⟨fun sub hsub => ?_,fun path hash hp hunder entity hentity sub hsub hid => ?_⟩
  · rw [hget] at hsub
    cases hsub
    rfl
  · have hbound : (OrderedMap.empty.insert (subscriptionPath aliceId firstId)
        limitedEntity.contentHash).get path = some hash := hp
    rw [OrderedMap.get_insert] at hbound
    split_ifs at hbound
    · cases hbound
      rw [hstored] at hentity
      cases hentity
      rw [hdecode] at hsub
      cases hsub
      rfl
    · cases hbound

/-- Two events before the first delivery, or a restart after it: two notifications go out of a
subscription for one. -/
theorem second_notification_delivered :
    LimitedTo limitedCrates aliceId firstId 1 limitedStart.world ∧
    (afterSteps [noted,noted,arrives,arrives]).deliveries = [firstId,firstId] ∧
    (afterSteps [noted,arrives,.restart nextSecond,noted,arrives]).deliveries = [firstId,firstId] :=
  ⟨limitedStart_limitedTo,evaluated_limits.2.1⟩

/-- An event, its delivery and another event: the second ends the subscription. -/
theorem deliveries_within_limit_sample :
    (afterSteps [noted,arrives,noted,arrives]).deliveries.count firstId ≤ 1 := by
  obtain ⟨-,-,hroom,hnone⟩ := evaluated_limits
  refine deliveries_within_limit limitedStart_limitedTo ⟨by decide,by decide⟩ ?_
  have hfirst : LeavesRoom limitedCrates firstId 1 noted limitedStart := by
    intro sub hsub _ max hmax
    rw [limitedStart_limitedTo.registered sub hsub] at hmax
    cases hmax
    exact hroom
  have hsecond : LeavesRoom limitedCrates firstId 1 noted
      (notifierStep limitedCrates aliceId arrives
        (notifierStep limitedCrates aliceId noted limitedStart)) := by
    intro sub hsub hpass
    rw [afterSteps,Schedule.run_cons,Schedule.run_cons,Schedule.run_nil,hsub] at hnone
    exact (Bool.false_ne_true (hnone.symm.trans hpass)).elim
  simp only [Schedule.admissible_cons,Schedule.admissible_nil,and_true]
  exact ⟨hfirst,trivial,hsecond,trivial⟩

end SubscriptionSample

end EntityCore
