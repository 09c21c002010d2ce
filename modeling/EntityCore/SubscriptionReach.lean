import EntityCore.Schedule
import EntityCore.Subscription
import EntityCore.PatternTarget

/-! Which events reach a subscription. A pattern is admitted with the matcher of the
capabilities and delivered by with the engine's own; the two differ on siblings that share
a prefix, and the gate on the sensitive families reads only the first segments. -/
namespace EntityCore

open Ecf Outcome Strings List EntityUri

/-! The registry. -/

namespace SubscriptionEngine

variable (E : SubscriptionEngine)

theorem routes_register (sub : SubscriptionData) (instant : ℕ) (pattern : Str) :
    (E.register sub instant).routes pattern =
      if pattern = sub.pattern then E.routes pattern++[sub.subscriptionId]
      else E.routes pattern := by
  unfold register
  by_cases hp : pattern = sub.pattern
  · subst hp
    simp [routes]
  · simp [routes,hp]

theorem get_register (sub : SubscriptionData) (instant : ℕ) (id : Str) :
    (E.register sub instant).subscriptions.get id =
      if id = sub.subscriptionId then some ⟨sub,0,none,instant⟩ else E.subscriptions.get id := by
  simp [register]

theorem get_remove (subscriptionId id : Str) : (E.remove subscriptionId).subscriptions.get id =
      if id = subscriptionId then none else E.subscriptions.get id := by
  simp [remove]

/-- A removal takes the id out of every route. -/
theorem routes_remove (subscriptionId pattern : Str) :
    (E.remove subscriptionId).routes pattern = (E.routes pattern).filter (· ≠ subscriptionId) := by
  let l := (E.pathIndex.entries.map fun e => (e.1,e.2.filter (· ≠ subscriptionId)))
  have hkeys : (l.map Prod.fst).Nodup := by
    have hfst : l.map Prod.fst = E.pathIndex.entries.map Prod.fst := by
      rw [map_map]
      rfl
    rw [hfst]
    exact E.pathIndex.keys_nodup
  have hmap : OrderedMap.lookup pattern l =
      (E.pathIndex.get pattern).map fun ids => ids.filter (· ≠ subscriptionId) := by
    unfold OrderedMap.get
    show OrderedMap.lookup pattern (E.pathIndex.entries.map _) = _
    induction E.pathIndex.entries with
    | nil => rfl
    | cons e rest ih =>
      rw [map_cons,OrderedMap.lookup,OrderedMap.lookup,ih]
      split_ifs <;> rfl
  have hget : (E.remove subscriptionId).pathIndex.get pattern =
      (OrderedMap.lookup pattern l).filter fun ids => ids ≠ [] := by
    unfold remove OrderedMap.ofList
    rw [OrderedMap.get_foldl_insert _ ((filter_sublist.map _).nodup hkeys),
      OrderedMap.lookup_filter hkeys,OrderedMap.get_empty,Option.or_none]
  unfold routes
  rw [hget,hmap]
  cases E.pathIndex.get pattern with
  | none => rfl
  | some ids =>
    simp only [Option.map_some,Option.getD_some]
    by_cases hids : ids.filter (· ≠ subscriptionId) = []
    · rw [Option.filter_eq_none_iff.mpr (by simpa using hids),hids]
      rfl
    · rw [Option.filter_eq_some_iff.mpr ⟨rfl,by simpa using hids⟩]
      rfl

theorem mem_matchSubscriptions {path id : Str} (h : id ∈ E.matchSubscriptions path) :
    ∃ pattern, id ∈ E.routes pattern ∧ patternMatches pattern path = true := by
  obtain ⟨⟨pattern,ids⟩,hmem,hid⟩ := mem_flatMap.mp h
  split_ifs at hid with hmatch
  · refine ⟨pattern,?_,hmatch⟩
    rw [routes,(E.pathIndex.mem_entries _ _).mp hmem]
    exact hid
  · cases hid

end SubscriptionEngine

/-! What the hook queues. -/

section Queue

variable {X : Platform} {localPeerId : Str} {event : TreeChangeEvent} {ctx : ExecutionContext}
  {now : ClockReading}

/-- The notifications that an event adds to the queue. -/
def queuedBy (X : Platform) (localPeerId : Str) (event : TreeChangeEvent) (ctx : ExecutionContext)
    (now : ClockReading) (w : SubscriptionWorld) : List DeliveryWork :=
  (onTreeChange X localPeerId event ctx now w).queue.drop w.queue.length

@[simp] theorem writeLostErrorMarker_engine (m : LostNotification) (w : SubscriptionWorld) :
    (writeLostErrorMarker X localPeerId m w).engine = w.engine := by
  unfold writeLostErrorMarker
  cases m.entity X <;> rfl

@[simp] theorem writeLostErrorMarker_queue (m : LostNotification) (w : SubscriptionWorld) :
    (writeLostErrorMarker X localPeerId m w).queue = w.queue := by
  unfold writeLostErrorMarker
  cases m.entity X <;> rfl

variable (X localPeerId event ctx now)

/-- A matched subscription is only read; at most a notification for it is added. -/
theorem notify_frame (id : Str) (s : SubscriptionWorld × List Str) :
    (notify X localPeerId event ctx now id s).1.engine = s.1.engine ∧
    ∃ new, (notify X localPeerId event ctx now id s).1.queue = s.1.queue++new ∧
      ∀ work ∈ new, work.subscriptionId = id := by
  have hnone : ∀ t : SubscriptionWorld, t.engine = s.1.engine → t.queue = s.1.queue →
      t.engine = s.1.engine ∧ ∃ new, t.queue = s.1.queue++new ∧
        ∀ work ∈ new, work.subscriptionId = id := by
    intro t he hq
    exact ⟨he,[],by simp [hq],by simp⟩
  unfold notify
  cases s.1.engine.subscriptions.get id with
  | none => exact hnone _ rfl rfl
  | some sub =>
    simp only
    by_cases hevent : eventName event.changeType ∉ sub.data.events
    · rw [if_pos hevent]
      exact hnone _ rfl rfl
    · rw [if_neg hevent]
      cases checkLimits sub.data.limits sub.deliveredCount sub.createdAt sub.lastDelivery
          now.instant with
      | terminate reason => exact hnone _ (by simp) (by simp)
      | deny reason => exact hnone _ (by simp) (by simp)
      | allow =>
        simp only
        cases s.1.store.get sub.data.deliverToken with
        | none => exact hnone _ (by simp) (by simp)
        | some token =>
          simp only
          split_ifs
          · exact hnone _ (by simp) (by simp)
          · cases buildNotification X sub.data.subscriptionId (eventName event.changeType)
                event.path event.hash event.previousHash with
            | none => exact hnone _ rfl rfl
            | some notification =>
              refine ⟨rfl,_,rfl,?_⟩
              simp

theorem notifyAll_frame (ids : List Str) (s : SubscriptionWorld × List Str) :
    ∃ new, (ids.foldl (fun s id => notify X localPeerId event ctx now id s) s).1.queue =
        s.1.queue++new ∧ ∀ work ∈ new, work.subscriptionId ∈ ids := by
  induction ids generalizing s with
  | nil => exact ⟨[],by simp,by simp⟩
  | cons id ids ih =>
    obtain ⟨-,first,hfirst,hid⟩ := notify_frame X localPeerId event ctx now id s
    obtain ⟨rest,hrest,hids⟩ := ih (notify X localPeerId event ctx now id s)
    refine ⟨first++rest,?_,?_⟩
    · rw [foldl_cons,hrest,hfirst,append_assoc]
    · intro work hwork
      rcases mem_append.mp hwork with h | h
      · rw [hid work h]
        exact mem_cons_self
      · exact mem_cons_of_mem _ (hids work h)

variable {X localPeerId event ctx now}

theorem terminateAll_queue (ids : List Str) (w : SubscriptionWorld) :
    (ids.foldl (fun w id => terminateSubscription localPeerId id w) w).queue = w.queue := by
  induction ids generalizing w with
  | nil => rfl
  | cons id ids ih => exact ih _

theorem route_of_queued {w : SubscriptionWorld} {work : DeliveryWork}
    (h : work ∈ queuedBy X localPeerId event ctx now w) :
    ∃ pattern, work.subscriptionId ∈ w.engine.routes pattern ∧
      patternMatches pattern event.path = true := by
  unfold queuedBy onTreeChange at h
  split_ifs at h
  · simp at h
  · simp at h
  · obtain ⟨new,hnew,hids⟩ := notifyAll_frame X localPeerId event ctx now
      (w.engine.matchSubscriptions event.path) (w,[])
    simp only [terminateAll_queue,hnew,drop_left] at h
    exact w.engine.mem_matchSubscriptions (hids work h)

end Queue

/-! The two matchers. -/

section Matchers

variable {pattern path : Str}

/-- The path goes on within the last segment of the stem of a subtree pattern, as a
sibling that shares a prefix does. -/
def ContinuesSegment (pattern path : Str) : Prop :=
  ∃ pre c rest, pattern = pre++ "/*".toList ∧ path = pre++c::rest ∧ c ≠ '/'

theorem not_star_of_valid (h : validateAbsolutePath path = .ok ()) : ¬ "/*".toList <+: path := by
  have hok : (validateAbsolutePath path).isOk = true := by rw [h]; rfl
  obtain ⟨⟨t,rfl,hpeer⟩,-⟩ := (validateAbsolutePath_ok _).mp hok
  rintro ⟨u,hu⟩
  have ht : t = '*'::u := (cons.inj hu).2.symm
  subst ht
  have hmem : '*' ∈ firstSegment ('*'::u) := by
    unfold firstSegment
    have hsplit : splitOnce '/' ('*'::u) = (splitOnce '/' u).map fun r => ('*'::r.1,r.2) := by
      rw [splitOnce,if_neg (by decide)]
    rw [hsplit]
    cases splitOnce '/' u with
    | none => exact mem_cons_self
    | some r => exact mem_cons_self
  exact star_notMem_of_base58 ((isPeerId_iff _).mp hpeer).2 hmem

theorem ne_never_of_valid (h : validateAbsolutePath path = .ok ()) : path ≠ neverMatch := by
  rintro rfl
  have hok : (validateAbsolutePath neverMatch).isOk = true := by rw [h]; rfl
  have hbad : (validateAbsolutePath neverMatch).isOk = false := by decide
  rw [hbad] at hok
  cases hok

theorem patternMatches_subtree (pre path : Str) :
    patternMatches (pre++ "/*".toList) path = true ↔ ∃ c rest, path = pre++c::rest := by
  have hs : stripSuffix (pre++ "/*".toList) "/*".toList = some pre :=
    (stripSuffix_eq_some _ _ _).mpr rfl
  unfold patternMatches
  rw [if_neg (subtree_ne_star pre),hs]
  simp only [Bool.and_eq_true,startsWith_iff,decide_eq_true_eq]
  constructor
  · rintro ⟨⟨t,rfl⟩,hlen⟩
    cases t with
    | nil => simp at hlen
    | cons c rest => exact ⟨c,rest,rfl⟩
  · rintro ⟨c,rest,rfl⟩
    exact ⟨prefix_append _ _,by simp⟩

theorem patternMatches_exact (hstar : pattern ≠ ['*']) (htree : ¬ "/*".toList <:+ pattern)
    (path : Str) : patternMatches pattern path = true ↔ pattern = path := by
  have hs : stripSuffix pattern "/*".toList = none := by
    unfold stripSuffix
    rw [if_neg (by simpa using htree)]
  unfold patternMatches
  rw [if_neg hstar,hs,decide_eq_true_eq]

/-- A peer wildcard reaches no valid path through the engine's matcher. -/
theorem not_peerWild_of_subtree {pre rest : Str} {c : Char}
    (h : validateAbsolutePath (pre++c::rest) = .ok ()) : ¬ "/*/".toList <+: pre++ "/*".toList := by
  rintro ⟨u,hu⟩
  apply not_star_of_valid h
  match pre,hu with
  | [],hu => exact absurd (congrArg length hu) (by simp)
  | [x],hu =>
    have h2 := congrArg (fun l : Str => l[1]?) hu
    simp at h2
  | x::y::pre,hu =>
    have hx : '/' = x := (cons.inj hu).1
    have hy : '*' = y := (cons.inj (cons.inj hu).2).1
    subst hx hy
    exact ⟨pre++c::rest,rfl⟩

/-- On a path outside the siblings, what the engine matches the capabilities match. -/
theorem matchesPattern_of_patternMatches (hpath : validateAbsolutePath path = .ok ())
    (hstar : pattern ≠ ['*']) (h : patternMatches pattern path = true)
    (hc : ¬ ContinuesSegment pattern path) : matchesPattern path pattern = true := by
  by_cases htree : "/*".toList <:+ pattern
  · obtain ⟨pre,rfl⟩ := htree
    obtain ⟨c,rest,rfl⟩ := (patternMatches_subtree pre path).mp h
    have hslash : c = '/' := by
      by_contra hne
      exact hc ⟨pre,c,rest,rfl,rfl,hne⟩
    subst hslash
    exact (matches_subtree (not_peerWild_of_subtree hpath) _).mpr
      ⟨ne_never_of_valid hpath,rest,rfl⟩
  · have heq := (patternMatches_exact hstar htree path).mp h
    subst heq
    have hwild : ¬ "/*/".toList <+: pattern := by
      intro hw
      have hhead : "/*".toList <+: "/*/".toList := ⟨['/'],by decide⟩
      exact not_star_of_valid hpath (hhead.trans hw)
    exact (matches_exact hstar hwild htree _).mpr ⟨ne_never_of_valid hpath,rfl⟩

theorem sibling_not_matched (hpath : validateAbsolutePath path = .ok ())
    (hc : ContinuesSegment pattern path) :
    patternMatches pattern path = true ∧ matchesPattern path pattern = false := by
  obtain ⟨pre,c,rest,rfl,rfl,hne⟩ := hc
  refine ⟨(patternMatches_subtree pre _).mpr ⟨c,rest,rfl⟩,?_⟩
  rw [Bool.eq_false_iff]
  intro hm
  obtain ⟨-,t,ht⟩ := (matches_subtree (not_peerWild_of_subtree hpath) _).mp hm
  exact hne (cons.inj (append_cancel_left ht)).1

end Matchers

/-! Admission. -/

section Admission

variable {X : Platform} {H : SubscriptionHandler} {ctx : SubscriptionContext}
  {store : ContentStore} {a : AdmittedSubscription}

theorem admitSubscribe_ok (h : H.admitSubscribe X ctx store = .ok a) :
    H.singleEffectiveTarget ctx = .ok a.pattern ∧
    (!patternIsSensitive a.pattern || H.operatorClass X ctx a.pattern store) = true ∧
    (!a.request.includePayload || H.payloadCovered ctx a.pattern) = true := by
  unfold SubscriptionHandler.admitSubscribe at h
  simp only [bind_ok,okOr_ok,mapErr_ok,pure_ok,SubscriptionHandler.checkSensitivity] at h
  obtain ⟨_,_,_,_,_,_,_,_,_,_,_,_,_,hpattern,_,hsensitive,_,hpayload,rfl⟩ := h
  exact ⟨hpattern,(ensure_ok _ _).mp hsensitive,(ensure_ok _ _).mp hpayload⟩

theorem admitted_canonical (h : H.admitSubscribe X ctx store = .ok a) :
    ∃ target, a.pattern = canonicalize target H.localPeerId := by
  have hpattern := (admitSubscribe_ok h).1
  unfold SubscriptionHandler.singleEffectiveTarget at hpattern
  split at hpattern
  · exact ⟨_,(Except.ok.inj hpattern).symm⟩
  · split_ifs at hpattern
  · cases hpattern

theorem admitted_absolute (h : H.admitSubscribe X ctx store = .ok a) : ∃ t, a.pattern = '/'::t := by
  obtain ⟨target,ht⟩ := admitted_canonical h
  obtain ⟨t,habs⟩ := canonicalize_absolute target H.localPeerId
  exact ⟨t,ht.trans habs⟩

theorem admitted_ne_star (h : H.admitSubscribe X ctx store = .ok a) : a.pattern ≠ ['*'] := by
  obtain ⟨t,ht⟩ := admitted_absolute h
  rw [ht]
  intro hstar
  exact absurd (cons.inj hstar).1 (by decide)

theorem canonicalize_admitted (h : H.admitSubscribe X ctx store = .ok a) :
    canonicalize a.pattern H.localPeerId = a.pattern := by
  obtain ⟨t,ht⟩ := admitted_absolute h
  rw [ht]
  exact canonicalize_of_absolute _

end Admission

/-! A registry in which a subscription is reached only by its own pattern. -/

namespace SubscriptionEngine

variable {E : SubscriptionEngine}

def Routed (E : SubscriptionEngine) : Prop :=
  ∀ pattern id sub, id ∈ E.routes pattern → E.subscriptions.get id = some sub →
    sub.data.pattern = pattern

theorem Routed.register (h : E.Routed) {sub : SubscriptionData} (instant : ℕ)
    (hfresh : ∀ pattern, sub.subscriptionId ∉ E.routes pattern) :
    (E.register sub instant).Routed := by
  intro pattern id found hroute hget
  rw [routes_register] at hroute
  rw [get_register] at hget
  by_cases hid : id = sub.subscriptionId
  · subst hid
    rw [if_pos rfl] at hget
    obtain rfl := Option.some.inj hget
    by_cases hp : pattern = sub.pattern
    · exact hp.symm
    · rw [if_neg hp] at hroute
      exact (hfresh pattern hroute).elim
  · rw [if_neg hid] at hget
    apply h pattern id found ?_ hget
    split_ifs at hroute with hp
    · rcases mem_append.mp hroute with hin | hin
      · exact hin
      · exact (hid (mem_singleton.mp hin)).elim
    · exact hroute

theorem not_mem_routes_remove (E : SubscriptionEngine) (id pattern : Str) :
    id ∉ (E.remove id).routes pattern := by
  rw [routes_remove]
  simp

end SubscriptionEngine

/-- Whatever the registry and the event at the path, a notified subscription of that
pattern has a pattern that the capabilities' matcher matches with the path. -/
def HearsOnlyPattern (X : Platform) (localPeerId pattern path : Str) : Prop :=
  ∀ (w : SubscriptionWorld) (event : TreeChangeEvent) (ctx : ExecutionContext)
    (now : ClockReading) (work : DeliveryWork) (sub : ActiveSubscription),
    event.path = path → w.engine.Routed → work ∈ queuedBy X localPeerId event ctx now w →
    w.engine.subscriptions.get work.subscriptionId = some sub → sub.data.pattern = pattern →
    matchesPattern path (canonicalize pattern localPeerId) = true

/-- The registry that holds a single subscription. -/
def aloneInRegistry (pattern : Str) (token : Entity) : SubscriptionWorld :=
  ⟨⟨[token]⟩,⟨.empty⟩,(⟨.empty,.empty⟩ : SubscriptionEngine).register
    ⟨[],pattern,["created".toList],[],[],Hash.zero,token.contentHash,0,none,false⟩ 0,[]⟩

def createdAt (path : Str) : TreeChangeEvent := ⟨path,Hash.zero,none,none,.created,none⟩

theorem aloneInRegistry_routed (pattern : Str) (token : Entity) :
    (aloneInRegistry pattern token).engine.Routed := by
  apply SubscriptionEngine.Routed.register
  · intro p id sub hroute
    cases hroute
  · intro p hroute
    cases hroute

theorem aloneInRegistry_notified {X : Platform} (hX : X.FormatAllocated) {localPeerId pattern path : Str}
    (token : Entity) (hown : startsWith path (subscriptionPrefix localPeerId) = false)
    (hmatch : patternMatches pattern path = true) :
    ∃ work ∈ queuedBy X localPeerId (createdAt path) {} ⟨0,0⟩ (aloneInRegistry pattern token),
      work.subscriptionId = [] := by
  have hids : (aloneInRegistry pattern token).engine.matchSubscriptions path = [[]] := by
    show (if patternMatches pattern path then [[]] else []) ++ [] = [[]]
    rw [hmatch]
    rfl
  have hfresh : tokenExpired X token (ClockReading.nowMs ⟨0,0⟩) = false := by
    have hzero : ClockReading.nowMs ⟨0,0⟩ = 0 := by decide +kernel
    unfold tokenExpired
    rw [hzero]
    cases CapabilityToken.fromEntity X token with
    | error e => rfl
    | ok cap => cases h : cap.expiresAt <;> simp [h]
  have hget : (aloneInRegistry pattern token).store.get token.contentHash = some token := by
    simp [aloneInRegistry,ContentStore.get]
  have hnotify : ∃ notification, buildNotification X [] (eventName .created) path Hash.zero none =
      some notification := by
    have htype : "system/subscription/notification".toList ≠ [] := by decide +kernel
    have hpeer : "system/subscription/notification".toList ≠ typePeer := by decide +kernel
    obtain ⟨e,he⟩ := Entity.new_ok (X := X) hX htype hpeer (toEcf_map_ne_nil ([
        field "event" (textVal (eventName .created)),field "hash" (hashVal Hash.zero),
        field "subscription_id" (textVal []),field "uri" (textVal path)]++[]))
    refine ⟨e,?_⟩
    unfold buildNotification
    rw [show (Option.map (fun prev => field "previous_hash" (hashVal prev)) none).toList =
      ([] : List (Value × Value)) from rfl,he]
    rfl
  obtain ⟨notification,hnotification⟩ := hnotify
  have hsub : (aloneInRegistry pattern token).engine.subscriptions.get [] = some
      ⟨⟨[],pattern,["created".toList],[],[],Hash.zero,token.contentHash,0,none,false⟩,0,none,0⟩ := by
    simp [aloneInRegistry,SubscriptionEngine.get_register]
  have hevent : ¬ eventName .created ∉ ["created".toList] := by decide +kernel
  unfold queuedBy onTreeChange
  rw [if_neg (by decide +kernel),if_neg (by simp [createdAt,hown]),
    show (createdAt path).path = path from rfl,hids]
  simp only [foldl_cons,foldl_nil,terminateAll_queue]
  unfold notify
  simp only [hsub,createdAt,hevent,if_false,checkLimits,hget,hfresh,hnotification,
    Bool.false_eq_true]
  exact ⟨_,mem_singleton_self _,rfl⟩

/-- A notified subscriber's pattern is matched by the capabilities' matcher, for every
registry and every event at a path, exactly where the path does not go on within the
pattern's last segment or lies below the subscriptions' own prefix. -/
theorem subscription_hears_iff {X : Platform} (hX : X.FormatAllocated) {H : SubscriptionHandler}
    {ctx : SubscriptionContext} {store : ContentStore} {a : AdmittedSubscription}
    (hadmitted : H.admitSubscribe X ctx store = .ok a) {path : Str}
    (hpath : EntityUri.validateAbsolutePath path = .ok ()) :
    HearsOnlyPattern X H.localPeerId a.pattern path ↔ ¬ ContinuesSegment a.pattern path ∨
        startsWith path (subscriptionPrefix H.localPeerId) = true := by
  constructor
  · intro hhears
    by_contra hnot
    obtain ⟨hc,hown⟩ := not_or.mp hnot
    have hc := not_not.mp hc
    obtain ⟨hmatch,hcap⟩ := sibling_not_matched hpath hc
    obtain ⟨work,hwork,hid⟩ := aloneInRegistry_notified hX a.tokenEntity
      (Bool.not_eq_true _ ▸ hown) hmatch
    have hget : (aloneInRegistry a.pattern a.tokenEntity).engine.subscriptions.get
        work.subscriptionId = some ⟨⟨[],a.pattern,["created".toList],[],[],Hash.zero,
          a.tokenEntity.contentHash,0,none,false⟩,0,none,0⟩ := by
      rw [hid]
      simp [aloneInRegistry,SubscriptionEngine.get_register]
    have hheard := hhears _ _ _ _ work _ rfl (aloneInRegistry_routed _ _) hwork hget rfl
    rw [canonicalize_admitted hadmitted,hcap] at hheard
    cases hheard
  · intro hwhen w event ctx' now work sub hevent hrouted hwork hget hpattern
    rw [canonicalize_admitted hadmitted]
    have hroute := route_of_queued hwork
    rcases hwhen with hc | hown
    · obtain ⟨pattern,hroute,hmatch⟩ := hroute
      have hp := hrouted pattern work.subscriptionId sub hroute hget
      rw [← hp,hpattern,hevent] at hmatch
      exact matchesPattern_of_patternMatches hpath (admitted_ne_star hadmitted) hmatch hc
    · have hnone : queuedBy X H.localPeerId event ctx' now w = [] := by
        unfold queuedBy onTreeChange
        rw [hevent,hown,if_pos rfl]
        split_ifs <;> simp
      rw [hnone] at hwork
      cases hwork

namespace SubscriptionSample

open Sample

def bobsPeer : Str := "2K4YyYVWUbVppAkBNM7iQ5TBNx2nM3c3r5skxACout9hE8".toList

def deliverUri : Str := '/'::bobsPeer++ "/system/inbox/notes".toList

def deliveryTokenValue (granter : Entity) : Value := tokenValue 1 granter.contentHash
  alice.contentHash [grantValue ["system/inbox"] ["*"] ["receive"]] []

def bobToken := entity "system/capability/token" (deliveryTokenValue bob)
  0x5ea1b0f30719f9dbd694df3169a3ade3096c689fb9f6daf760c126a88f8b2442
def carolToken := entity "system/capability/token" (deliveryTokenValue carol)
  0x229b639a7b9b58b3a41ed4954a02d5b77ec68d2b518ce891b7d99f8b846fd088

def secret := entity "app/note" (txt "secret")
  0xa9547577f656025075d93e9ed84e4539eee7455e44bf8b5a4c94c3ca61f14d94

def requestValue (token : Entity) (payload : Bool) : Value := .map [
  (txt "deliver_to",.map [(txt "uri",.text deliverUri),(txt "operation",txt "receive")]),
  (txt "deliver_token",.bytes token.contentHash.toBytes),
  (txt "include_payload",.bool payload)]

/-- The caller may read below `app` and nothing else. -/
def readsApp : CapabilityToken := ⟨[⟨⟨["system/tree".toList],[]⟩,⟨["app/*".toList],[]⟩,
  ⟨["get".toList],[]⟩,none,none,none⟩],.single alice.contentHash,bob.contentHash,none,1,none,none,
  none⟩

def request (author token : Entity) (payload : Bool) (target : String) : SubscriptionContext :=
  ⟨⟨"system/subscription/request".toList,toEcf (requestValue token payload),sha256Hash 0⟩,
    some author.contentHash,OrderedMap.empty.insert token.contentHash token,
    some ⟨[target.toList],[]⟩,none,some readsApp⟩

def handler : SubscriptionHandler := ⟨aliceId,alice.contentHash⟩

def appSubtree : Str := '/'::aliceId++ "/app/*".toList

def firstSecond : ClockReading := ⟨1000000000,0⟩
def nextSecond : ClockReading := ⟨2000000000,1000⟩

def firstId : Str := "sub-1000000000".toList

def stored (pattern : Str) (token author : Entity) (payload : Bool) (createdAt : ℕ) :
    SubscriptionData := ⟨firstId,pattern,["created".toList,"updated".toList,"deleted".toList],
  deliverUri,"receive".toList,author.contentHash,token.contentHash,createdAt,none,payload⟩

def bobsApp := stored appSubtree bobToken bob true 1000
def bobsAppRenewed := stored appSubtree bobToken bob true 2000
def bobsAll := stored ('/'::aliceId++ "/*".toList) bobToken bob false 1000
def carolsApp := stored appSubtree carolToken carol false 2000

def notificationValue (path : Str) : Value := .map [field "event" (txt "created"),
  field "hash" (hashVal secret.contentHash),field "subscription_id" (.text firstId),
  field "uri" (.text path)]

def sibling : Str := '/'::aliceId++ "/apple/secret".toList
def grantPath : Str := '/'::aliceId++ "/system/capability/grants/x".toList

def crates : Platform := platform [deliveryTokenValue bob,deliveryTokenValue carol,
    requestValue bobToken true,requestValue bobToken false,requestValue carolToken false,
    subscriptionValue bobsApp,subscriptionValue bobsAppRenewed,subscriptionValue bobsAll,
    subscriptionValue carolsApp] [
  (ecfForHash typeSubscription (toEcf (subscriptionValue bobsApp)),
    0x9621f625dc03671ace718758d0656245d092d1ae71b7a4cd5fec0249ca26bbd9),
  (ecfForHash typeSubscription (toEcf (subscriptionValue bobsAppRenewed)),
    0x31c519d059ba95fc7f944c4cf218f813729721c2cd76fe57aa888f901acc96c4),
  (ecfForHash typeSubscription (toEcf (subscriptionValue bobsAll)),
    0xd6c8a03aeb656681bbd2d7519601cee344e0602667f0ae2b871a64ab1cc21c23),
  (ecfForHash typeSubscription (toEcf (subscriptionValue carolsApp)),
    0x4b4dad157a7c74856dcfe8e585548d666ccaee55863c21af95c25082f8e48bc2),
  (ecfForHash "system/subscription/notification".toList (toEcf (notificationValue sibling)),
    0xb859600985c04bcf2bee5b9ba677496fcbf830975fb09786885d82a4efc48427),
  (ecfForHash "system/subscription/notification".toList (toEcf (notificationValue grantPath)),
    0xdf18130ec8621204cbc8feadf1c7634f17192db8b807e72de8c6ec926e8a5808)] []

def fresh : SubscriptionWorld := ⟨⟨[secret]⟩,⟨.empty⟩,⟨.empty,.empty⟩,[]⟩

def secretAt (path : Str) : TreeChangeEvent :=
  ⟨path,secret.contentHash,none,some secret.contentHash,.created,none⟩

/-- What is admitted, and a path below `app`. -/
theorem evaluated_reach :
    (handler.admitSubscribe crates (request bob bobToken true "app/*")
      fresh.store).toOption.any (fun a => a.pattern = appSubtree) = true ∧
    EntityUri.validateAbsolutePath ('/'::aliceId++ "/app/notes".toList) = .ok () ∧
    appSubtree = ('/'::aliceId++ "/app".toList)++ "/*".toList ∧
    '/'::aliceId++ "/app/notes".toList = ('/'::aliceId++ "/app".toList)++ '/'::"notes".toList := by
  decide +kernel

end SubscriptionSample

open SubscriptionSample Sample

theorem subscription_hears_iff_sample :
    HearsOnlyPattern crates aliceId appSubtree ('/'::aliceId++ "/app/notes".toList) := by
  have hX : crates.FormatAllocated := by decide
  obtain ⟨hpattern,hpath,hsplit,hpath'⟩ := evaluated_reach
  obtain ⟨a,hadmitted,hp⟩ := exists_ok_of_any hpattern
  have hp : a.pattern = appSubtree := by simpa using hp
  have hiff := subscription_hears_iff hX hadmitted hpath
  rw [hp] at hiff
  apply hiff.mpr
  left
  rintro ⟨pre,c,rest,hsub,hcont,hne⟩
  have hpre : pre = '/'::aliceId++ "/app".toList :=
    List.append_inj_left' (hsub.symm.trans hsplit) rfl
  rw [hpath',hpre] at hcont
  exact hne (List.cons.inj (List.append_cancel_left hcont)).1.symm

/-- The subscriber to `app/*` may read below `app` only, and gets the entity at a path
below `apple`. -/
theorem subscription_hears_sibling :
    (handler.handleSubscribe crates (request bob bobToken true "app/*") firstSecond
      fresh).1.subscription = some firstId ∧
    ((queuedBy crates aliceId (secretAt sibling) {} nextSecond
      (handler.handleSubscribe crates (request bob bobToken true "app/*") firstSecond fresh).2).map
        fun work => (work.subscriptionId,work.included.get secret.contentHash)) =
      [(firstId,some secret)] ∧
    matchesPattern sibling (canonicalize appSubtree aliceId) = false ∧
    (checkPermissionWithGrant "get".toList "system/tree".toList aliceId (some ⟨[sibling],[]⟩)
      readsApp aliceId aliceId).isSome = false := by
  decide +kernel

end EntityCore
