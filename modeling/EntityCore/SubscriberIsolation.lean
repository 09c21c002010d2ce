import EntityCore.SubscriptionGate

/-! Isolation of subscribers. A request acts on the id that the engine finds for its
author, on the id of a stored subscription that looks the same, or on a clock reading; only
the first of these knows whose subscription it is. -/
namespace EntityCore

open Outcome Strings

/-! Whose a subscription is. -/

section Owners

variable (X : Platform) (H : SubscriptionHandler) (w : SubscriptionWorld)

def engineOwner (id : Str) : Option Hash :=
  (w.engine.subscriptions.get id).map fun sub => sub.data.subscriberIdentity

def storedOwner (id : Str) : Option Hash :=
  ((w.index.get (subscriptionPath H.localPeerId id)).bind w.store.get).bind
    (extractSubscriberFromEntity X)

def Owns (subscriber : Hash) (id : Str) : Prop :=
  engineOwner w id = some subscriber ∨ storedOwner X H w id = some subscriber

/-- The binding, the entry and the routes of a subscription stay. -/
structure KeptAs (w' : SubscriptionWorld) (id : Str) : Prop where
  bound : w'.index.get (subscriptionPath H.localPeerId id) =
    w.index.get (subscriptionPath H.localPeerId id)
  entry : w'.engine.subscriptions.get id = w.engine.subscriptions.get id
  routed : ∀ pattern, (w'.engine.routes pattern).count id = (w.engine.routes pattern).count id

/-- A request leaves the subscriptions of everybody but its author alone, and its author
ends up with none of their ids. -/
def Isolates (step : SubscriptionStep) (w : SubscriptionWorld) : Prop :=
  match step with
  | .subscribe ctx now => ∀ author, ctx.author = some author → ∀ other ≠ author, ∀ id,
      Owns X H w other id → KeptAs H w (H.handleSubscribe X ctx now w).2 id ∧
        (H.handleSubscribe X ctx now w).1.subscription ≠ some id
  | .unsubscribe ctx => ∀ author, ctx.author = some author → ∀ other ≠ author, ∀ id,
      Owns X H w other id → KeptAs H w (H.handleUnsubscribe X ctx w).2 id
  | _ => True

/-- Where the owner is not looked at, it is the author. -/
def OwnerAgrees (step : SubscriptionStep) (w : SubscriptionWorld) : Prop :=
  match step with
  | .subscribe ctx now => ∀ author, ctx.author = some author → ∀ a,
      H.admitSubscribe X ctx w.store = .ok a →
      match w.engine.findRenewal author a.pattern a.request.deliverUri with
      | some id => ∀ owner, storedOwner X H w id = some owner → owner = author
      | none => match H.findTreeDuplicate X a.pattern a.request.deliverUri w with
        | some id => ∀ owner, Owns X H w owner id → owner = author
        | none => H.checkCapacity X a.pattern w = none →
          ∀ owner, Owns X H w owner (SubscriptionHandler.newSubscriptionId now) → owner = author
  | .unsubscribe ctx => ∀ author, ctx.author = some author → ∀ id,
      decodeUnsubscribeRequest X ctx.params = .ok id →
      (w.index.get (subscriptionPath H.localPeerId id)).isSome →
      (∀ owner, storedOwner X H w id = some owner → owner = author) →
      ∀ owner, engineOwner w id = some owner → owner = author
  | _ => True

end Owners

variable {id other : Str}

section Frame

variable {X : Platform} {H : SubscriptionHandler} {w : SubscriptionWorld}

theorem subscriptionPath_inj {localPeerId a b : Str}
    (h : subscriptionPath localPeerId a = subscriptionPath localPeerId b) : a = b :=
  List.append_cancel_left h

theorem KeptAs.refl (w : SubscriptionWorld) (id : Str) : KeptAs H w w id := ⟨rfl,rfl,fun _ => rfl⟩

theorem KeptAs.trans {w' w'' : SubscriptionWorld} (h : KeptAs H w w' id)
    (h' : KeptAs H w' w'' id) : KeptAs H w w'' id :=
  ⟨h'.bound.trans h.bound,h'.entry.trans h.entry,fun p => (h'.routed p).trans (h.routed p)⟩

/-! What concerns one id keeps every other. -/

theorem keptAs_unbind (hne : id ≠ other) :
    KeptAs H w (w.unbind (subscriptionPath H.localPeerId other)) id := by
  refine ⟨?_,rfl,fun _ => rfl⟩
  have hpath : subscriptionPath H.localPeerId id ≠ subscriptionPath H.localPeerId other :=
    fun h => hne (subscriptionPath_inj h)
  simp [SubscriptionWorld.unbind,MemoryLocationIndex.remove,MemoryLocationIndex.get,hpath]

theorem keptAs_bind (hne : id ≠ other) (e : Entity) :
    KeptAs H w (w.bind (subscriptionPath H.localPeerId other) e) id := by
  refine ⟨?_,rfl,fun _ => rfl⟩
  have hpath : subscriptionPath H.localPeerId id ≠ subscriptionPath H.localPeerId other :=
    fun h => hne (subscriptionPath_inj h)
  simp [SubscriptionWorld.bind,MemoryLocationIndex.get_set,hpath]

theorem keptAs_drop (hne : id ≠ other) : KeptAs H w (w.drop other) id := by
  refine ⟨rfl,?_,?_⟩
  · show (w.engine.remove other).subscriptions.get id = _
    rw [SubscriptionEngine.get_remove,if_neg hne]
  · intro pattern
    show ((w.engine.remove other).routes pattern).count id = _
    rw [SubscriptionEngine.routes_remove]
    exact List.count_filter (by simpa using hne)

theorem keptAs_register {sub : SubscriptionData} (hne : id ≠ sub.subscriptionId)
    (instant : ℕ) : KeptAs H w (w.register sub instant) id := by
  refine ⟨rfl,?_,?_⟩
  · show (w.engine.register sub instant).subscriptions.get id = _
    rw [SubscriptionEngine.get_register,if_neg hne]
  · intro pattern
    show ((w.engine.register sub instant).routes pattern).count id = _
    rw [SubscriptionEngine.routes_register]
    split_ifs
    · simp [List.count_append,Ne.symm hne]
    · rfl

theorem keptAs_putAll (entities : List Entity) (id : Str) :
    KeptAs H w (SubscriptionHandler.putAll entities w) id := by
  refine ⟨?_,?_,?_⟩
  · rw [putAll_index]
  · rw [putAll_engine]
  · intro pattern
    rw [putAll_engine]

theorem keptAs_put (e : Entity) (id : Str) : KeptAs H w (w.put e) id :=
  ⟨rfl,rfl,fun _ => rfl⟩

variable {ctx : SubscriptionContext} {now : ClockReading}

theorem keptAs_handleRenewal {renewed : Str} (hne : id ≠ renewed) (author : Hash)
    (a : AdmittedSubscription) (included : Included) :
    KeptAs H w (H.handleRenewal X renewed author a included now w).2 id := by
  have hgone : KeptAs H w
      ((w.drop renewed).unbind (subscriptionPath H.localPeerId renewed)) id :=
    (keptAs_drop hne).trans (keptAs_unbind hne)
  simp only [SubscriptionHandler.handleRenewal]
  cases encodeSubscriptionEntity X
      (SubscriptionHandler.subscriptionData renewed author now.nowMs a) with
  | error e => exact hgone
  | ok e =>
    have hput := (hgone.trans (keptAs_bind hne e)).trans (keptAs_put a.tokenEntity id)
    exact (hput.trans (keptAs_putAll _ id)).trans (keptAs_register hne _)

theorem keptAs_handleNew (hne : id ≠ SubscriptionHandler.newSubscriptionId now)
    (author : Hash) (a : AdmittedSubscription) (included : Included) :
    KeptAs H w (SubscriptionHandler.handleNew X H author a included now w).2 id := by
  simp only [SubscriptionHandler.handleNew]
  cases encodeSubscriptionEntity X (SubscriptionHandler.subscriptionData
      (SubscriptionHandler.newSubscriptionId now) author (now.nowNanos/1000000) a) with
  | error e => exact KeptAs.refl w id
  | ok e =>
    have hput := (keptAs_bind (H := H) (w := w) hne e).trans (keptAs_put a.tokenEntity id)
    exact ((hput.trans (keptAs_putAll _ id)).trans (keptAs_putAll _ id)).trans
      (keptAs_register hne _)

/-- The engine finds only entries of the subscriber it is asked for. -/
theorem findRenewal_owner {subscriber : Hash} {pattern deliverUri : Str}
    (h : w.engine.findRenewal subscriber pattern deliverUri = some id) :
    engineOwner w id = some subscriber := by
  obtain ⟨e,hfind,rfl⟩ := Option.map_eq_some_iff.mp h
  have hprop := List.find?_some hfind
  simp only [decide_eq_true_eq] at hprop
  have hget := (w.engine.subscriptions.mem_entries e.1 e.2).mp (List.mem_of_find?_eq_some hfind)
  unfold engineOwner
  rw [hget,Option.map_some,hprop.1]

/-- With an allocated hash format every subscription can be stored. -/
theorem encodeSubscriptionEntity_ok (hX : X.FormatAllocated) (sub : SubscriptionData) :
    ∃ e, encodeSubscriptionEntity X sub = .ok e := by
  have htype : typeSubscription ≠ [] := by decide
  have hpeer : typeSubscription ≠ typePeer := by decide
  exact Entity.new_ok hX htype hpeer (toEcf_map_ne_nil _)

theorem subscription_handleRenewal (hX : X.FormatAllocated) (renewed : Str) (author : Hash)
    (a : AdmittedSubscription) (included : Included) :
    (H.handleRenewal X renewed author a included now w).1.subscription = some renewed := by
  obtain ⟨e,he⟩ := encodeSubscriptionEntity_ok hX
    (SubscriptionHandler.subscriptionData renewed author now.nowMs a)
  simp only [SubscriptionHandler.handleRenewal,he]
  rfl

theorem subscription_handleNew (hX : X.FormatAllocated) (author : Hash)
    (a : AdmittedSubscription) (included : Included) :
    (SubscriptionHandler.handleNew X H author a included now w).1.subscription =
      some (SubscriptionHandler.newSubscriptionId now) := by
  obtain ⟨e,he⟩ := encodeSubscriptionEntity_ok hX (SubscriptionHandler.subscriptionData
    (SubscriptionHandler.newSubscriptionId now) author (now.nowNanos/1000000) a)
  simp only [SubscriptionHandler.handleNew,he]
  rfl

theorem Owns.eq_of_all {owner author : Hash} (h : Owns X H w owner id)
    (hengine : ∀ o, engineOwner w id = some o → o = author)
    (hstored : ∀ o, storedOwner X H w id = some o → o = author) : owner = author :=
  h.elim (hengine owner) (hstored owner)

/-- A subscribe request isolates exactly where the id it acts on is not another's. -/
theorem isolates_subscribe_iff (hX : X.FormatAllocated) (ctx : SubscriptionContext)
    (now : ClockReading) (w : SubscriptionWorld) :
    Isolates X H (.subscribe ctx now) w ↔ OwnerAgrees X H (.subscribe ctx now) w := by
  constructor
  · intro h author hauthor a hadmitted
    have hD : ctx.author.getD Hash.zero = author := by rw [hauthor]; rfl
    -- no other can own what the author ends up with
    have hown : ∀ id, (H.handleSubscribe X ctx now w).1.subscription = some id →
        ∀ owner, Owns X H w owner id → owner = author := by
      intro id hid owner howner
      by_contra hne
      exact (h author hauthor owner hne id howner).2 hid
    have hrenewed : ∀ id, H.existingId X author a w = some id →
        ∀ owner, Owns X H w owner id → owner = author := by
      intro id hid
      apply hown id
      have hrun : H.handleSubscribe X ctx now w =
          H.handleRenewal X id author a ctx.included now w := by
        simp only [SubscriptionHandler.handleSubscribe,hadmitted,hD,hid]
      rw [hrun]
      exact subscription_handleRenewal hX _ _ _ _
    cases hfind : w.engine.findRenewal author a.pattern a.request.deliverUri with
    | some id =>
      intro owner hstored
      apply hrenewed id ?_ owner (.inr hstored)
      rw [SubscriptionHandler.existingId,hfind]
      rfl
    | none =>
      simp only
      cases hdup : H.findTreeDuplicate X a.pattern a.request.deliverUri w with
      | some id =>
        apply hrenewed id
        rw [SubscriptionHandler.existingId,hfind,hdup]
        rfl
      | none =>
        intro hmax
        apply hown
        have hnone : H.existingId X author a w = none := by
          rw [SubscriptionHandler.existingId,hfind,hdup]
          rfl
        have hrun : H.handleSubscribe X ctx now w =
            SubscriptionHandler.handleNew X H author a ctx.included now w := by
          simp only [SubscriptionHandler.handleSubscribe,hadmitted,hD,hnone,hmax]
        rw [hrun]
        exact subscription_handleNew hX _ _ _
  · intro h author hauthor other hother id howns
    have hD : ctx.author.getD Hash.zero = author := by rw [hauthor]; rfl
    rcases handleSubscribe_cases X H ctx now w with
      ⟨hsame,hnone⟩ | ⟨a,renewed,hadmitted,hid,hrun⟩ | ⟨a,hadmitted,hid,hmax,hrun⟩
    · rw [hsame,hnone]
      exact ⟨KeptAs.refl w id,by simp⟩
    · have hagrees := h author hauthor a hadmitted
      rw [hD] at hid hrun
      have hne : id ≠ renewed := by
        rintro rfl
        apply hother
        unfold SubscriptionHandler.existingId at hid
        cases hfind : w.engine.findRenewal author a.pattern a.request.deliverUri with
        | some found =>
          rw [hfind] at hid hagrees
          obtain rfl := Option.some.inj hid
          apply howns.eq_of_all ?_ hagrees
          intro owner howner
          rw [findRenewal_owner hfind] at howner
          exact (Option.some.inj howner).symm
        | none =>
          rw [hfind] at hid hagrees
          simp only [Option.none_or] at hid
          simp only [hid] at hagrees
          exact hagrees other howns
      rw [hrun]
      refine ⟨keptAs_handleRenewal hne _ _ _,?_⟩
      rw [subscription_handleRenewal hX]
      exact fun hc => hne (Option.some.inj hc).symm
    · have hagrees := h author hauthor a hadmitted
      rw [hD] at hid hrun
      have hne : id ≠ SubscriptionHandler.newSubscriptionId now := by
        rintro rfl
        apply hother
        unfold SubscriptionHandler.existingId at hid
        obtain ⟨hfind,hdup⟩ := Option.or_eq_none_iff.mp hid
        simp only [hfind,hdup] at hagrees
        exact hagrees hmax other howns
      rw [hrun]
      refine ⟨keptAs_handleNew hne _ _ _,?_⟩
      rw [subscription_handleNew hX]
      exact fun hc => hne (Option.some.inj hc).symm

theorem keptAs_handleUnsubscribe
    (hother : ∀ removed, decodeUnsubscribeRequest X ctx.params = .ok removed →
      (w.index.get (subscriptionPath H.localPeerId removed)).isSome →
      SubscriptionHandler.ownedByOther X ctx
        ((w.index.get (subscriptionPath H.localPeerId removed)).bind w.store.get) = false →
      id ≠ removed) : KeptAs H w (H.handleUnsubscribe X ctx w).2 id := by
  unfold SubscriptionHandler.handleUnsubscribe
  cases hdec : decodeUnsubscribeRequest X ctx.params with
  | error rejection => exact KeptAs.refl w id
  | ok removed =>
    simp only
    cases hget : w.index.get (subscriptionPath H.localPeerId removed) with
    | none => exact KeptAs.refl w id
    | some hash =>
      simp only
      split_ifs with hforeign
      · exact KeptAs.refl w id
      · have hne : id ≠ removed := by
          apply hother removed hdec (by rw [hget]; rfl)
          rw [hget]
          exact Bool.not_eq_true _ ▸ hforeign
        exact (keptAs_unbind hne).trans (keptAs_drop hne)

/-- The handler takes a subscription for another's where the stored owner can be read. -/
theorem ownedByOther_false {author : Hash} (hauthor : ctx.author = some author) (id : Str) :
    SubscriptionHandler.ownedByOther X ctx
        ((w.index.get (subscriptionPath H.localPeerId id)).bind w.store.get) = false ↔
      ∀ owner, storedOwner X H w id = some owner → owner = author := by
  unfold SubscriptionHandler.ownedByOther storedOwner
  rw [hauthor]
  simp only [Option.any_some,Option.any_eq_false,ne_eq,decide_eq_false_iff_not,not_not]

theorem isolates_unsubscribe_iff (ctx : SubscriptionContext) (w : SubscriptionWorld) :
    Isolates X H (.unsubscribe ctx) w ↔ OwnerAgrees X H (.unsubscribe ctx) w := by
  constructor
  · intro h author hauthor id hdec hbound hstored owner howner
    by_contra hne
    have hkept := (h author hauthor owner hne id (.inl howner)).entry
    have hforeign := (ownedByOther_false hauthor id).mpr hstored
    obtain ⟨hash,hget⟩ := Option.isSome_iff_exists.mp hbound
    rw [hget] at hforeign
    have hgone : (H.handleUnsubscribe X ctx w).2.engine.subscriptions.get id = none := by
      simp only [SubscriptionHandler.handleUnsubscribe,hdec,hget]
      rw [if_neg (by simpa using hforeign)]
      show (w.engine.remove id).subscriptions.get id = none
      rw [SubscriptionEngine.get_remove,if_pos rfl]
    rw [hgone] at hkept
    unfold engineOwner at howner
    rw [← hkept] at howner
    cases howner
  · intro h author hauthor other hother id howns
    apply keptAs_handleUnsubscribe
    rintro removed hdec hbound hforeign rfl
    have hstored := (ownedByOther_false hauthor id).mp hforeign
    exact hother (howns.eq_of_all (h author hauthor id hdec hbound hstored) hstored)

/-- A subscriber who renews what is stored as its own. -/
theorem ownerAgrees_of_renewal {author : Hash} (hauthor : ctx.author = some author)
    (hfind : ∀ a, H.admitSubscribe X ctx w.store = .ok a →
      w.engine.findRenewal author a.pattern a.request.deliverUri = some id)
    (hstored : storedOwner X H w id = some author) : OwnerAgrees X H (.subscribe ctx now) w := by
  intro other hother a hadmitted
  obtain rfl : author = other := Option.some.inj (hauthor.symm.trans hother)
  rw [hfind a hadmitted]
  intro owner howner
  exact (Option.some.inj (hstored.symm.trans howner)).symm

/-- A subscriber of something new, under an id that nobody has. -/
theorem ownerAgrees_of_new (hfind : ∀ author a, H.admitSubscribe X ctx w.store = .ok a →
      w.engine.findRenewal author a.pattern a.request.deliverUri = none)
    (hdup : ∀ a, H.admitSubscribe X ctx w.store = .ok a →
      H.findTreeDuplicate X a.pattern a.request.deliverUri w = none)
    (hengine : engineOwner w (SubscriptionHandler.newSubscriptionId now) = none)
    (hstored : storedOwner X H w (SubscriptionHandler.newSubscriptionId now) = none) :
    OwnerAgrees X H (.subscribe ctx now) w := by
  intro author hauthor a hadmitted
  rw [hfind author a hadmitted,hdup a hadmitted]
  intro _ owner howner
  rcases howner with howner | howner
  · rw [hengine] at howner
    cases howner
  · rw [hstored] at howner
    cases howner

/-- In every run of requests, events, deliveries and writes of others, from any state:
each request isolates its author from everybody else exactly where the owner agrees
wherever the handler does not look at it. -/
theorem subscribers_isolated_iff (hX : X.FormatAllocated) (schedule : List SubscriptionStep)
    (w : SubscriptionWorld) : Schedule.Admissible (subscriptionStep X H) (Isolates X H) schedule w ↔
      Schedule.Admissible (subscriptionStep X H) (OwnerAgrees X H) schedule w := by
  apply Schedule.admissible_congr
  intro step w
  cases step with
  | subscribe ctx now => exact isolates_subscribe_iff hX ctx now w
  | unsubscribe ctx => exact isolates_unsubscribe_iff ctx w
  | treeChange event ctx now => exact Iff.rfl
  | delivered id instant => exact Iff.rfl
  | write store index => exact Iff.rfl

end Frame

namespace SubscriptionSample

open Sample

def bobsRequest : SubscriptionContext := request bob bobToken true "app/*"
def carolsRequest : SubscriptionContext := request carol carolToken false "app/*"

def subscribed : SubscriptionWorld := (handler.handleSubscribe crates bobsRequest firstSecond fresh).2

def afterSubscribing (w : SubscriptionWorld) : SubscriptionWorld :=
  subscriptionStep crates handler (.subscribe bobsRequest firstSecond) w

/-- Bob subscribes and renews, and Carol asks for the same. -/
theorem evaluated_subscribers :
    (∀ store ∈ [fresh.store,(afterSubscribing fresh).store],
      (handler.admitSubscribe crates bobsRequest store).toOption.any (fun a =>
        a.pattern = appSubtree ∧ a.request.deliverUri = deliverUri) = true) ∧
    (handler.findTreeDuplicate crates appSubtree deliverUri fresh = none ∧
      engineOwner fresh (SubscriptionHandler.newSubscriptionId firstSecond) = none ∧
      storedOwner crates handler fresh (SubscriptionHandler.newSubscriptionId firstSecond) = none) ∧
    ((afterSubscribing fresh).engine.findRenewal bob.contentHash appSubtree deliverUri =
        some firstId ∧
      storedOwner crates handler (afterSubscribing fresh) firstId = some bob.contentHash) ∧
    storedOwner crates handler subscribed firstId = some bob.contentHash ∧
    engineOwner subscribed firstId = some bob.contentHash ∧
    (handler.handleSubscribe crates carolsRequest nextSecond subscribed).1.subscription =
      some firstId ∧
    engineOwner (handler.handleSubscribe crates carolsRequest nextSecond subscribed).2 firstId =
      some carol.contentHash ∧
    storedOwner crates handler (handler.handleSubscribe crates carolsRequest nextSecond subscribed).2
      firstId = some carol.contentHash ∧
    bob.contentHash ≠ carol.contentHash := by decide +kernel

end SubscriptionSample

open SubscriptionSample Sample

/-- A subscriber who subscribes and renews. -/
theorem subscribers_isolated_iff_sample :
    Schedule.Admissible (subscriptionStep crates handler) (Isolates crates handler)
      [.subscribe bobsRequest firstSecond,.subscribe bobsRequest nextSecond] fresh := by
  have hX : crates.FormatAllocated := by decide
  obtain ⟨hpassed,⟨hdup,hengine,hnew⟩,⟨hfind,hstored⟩,-⟩ := evaluated_subscribers
  have hfields : ∀ store ∈ [fresh.store,(afterSubscribing fresh).store], ∀ a,
      handler.admitSubscribe crates bobsRequest store = .ok a →
        a.pattern = appSubtree ∧ a.request.deliverUri = deliverUri := by
    intro store hstore a hadmitted
    have hany := hpassed store hstore
    rw [hadmitted] at hany
    simpa [Except.toOption] using hany
  apply (subscribers_isolated_iff hX _ _).mpr
  refine ⟨?_,?_,trivial⟩
  · apply ownerAgrees_of_new
    · exact fun _ _ _ => rfl
    · intro a hadmitted
      have hboth := hfields fresh.store List.mem_cons_self a hadmitted
      rw [hboth.1,hboth.2]
      exact hdup
    · exact hengine
    · exact hnew
  · have hmem : (afterSubscribing fresh).store ∈ [fresh.store,(afterSubscribing fresh).store] :=
      List.mem_cons_of_mem _ (List.mem_singleton_self _)
    have hauthor : bobsRequest.author = some bob.contentHash := rfl
    have hall := hfields _ hmem
    show OwnerAgrees crates handler (.subscribe bobsRequest nextSecond) (afterSubscribing fresh)
    generalize afterSubscribing fresh = w at hfind hstored hall ⊢
    refine ownerAgrees_of_renewal hauthor (fun a hadmitted => ?_) hstored
    rw [(hall a hadmitted).1,(hall a hadmitted).2]
    exact hfind

/-- Carol asks for the same pattern at the same delivery address and gets Bob's id, entry
and stored entity. -/
theorem subscription_taken_over : engineOwner subscribed firstId = some bob.contentHash ∧
    storedOwner crates handler subscribed firstId = some bob.contentHash ∧
    (handler.handleSubscribe crates carolsRequest nextSecond subscribed).1.subscription =
      some firstId ∧
    engineOwner (handler.handleSubscribe crates carolsRequest nextSecond subscribed).2 firstId =
      some carol.contentHash ∧ storedOwner crates handler
      (handler.handleSubscribe crates carolsRequest nextSecond subscribed).2 firstId =
        some carol.contentHash ∧
    ¬ Isolates crates handler (.subscribe carolsRequest nextSecond) subscribed := by
  obtain ⟨-,-,-,hstored,howner,hid,htaken,hfiled,hne⟩ := evaluated_subscribers
  refine ⟨howner,hstored,hid,htaken,hfiled,?_⟩
  intro h
  exact (h carol.contentHash rfl bob.contentHash hne firstId (.inl howner)).2 hid

end EntityCore
