import EntityCore.Segments
import EntityCore.SubscriptionReach

/-! The gate on the sensitive families, over whole runs: what the subscriptions of callers
without operator-class authority can hear of, while subscriptions are made, renewed and
ended, events are delivered and others write to the tree. -/
namespace EntityCore

open Outcome Strings

/-! Runs. -/

inductive SubscriptionStep where
  | subscribe (ctx : SubscriptionContext) (now : ClockReading)
  | unsubscribe (ctx : SubscriptionContext)
  | treeChange (event : TreeChangeEvent) (ctx : ExecutionContext) (now : ClockReading)
  | delivered (id : Str) (instant : ℕ)
  /-- What others write to the store and to the tree. -/
  | write (store : ContentStore) (index : MemoryLocationIndex)

section Steps

variable (X : Platform) (H : SubscriptionHandler)

def subscriptionStep (step : SubscriptionStep) (w : SubscriptionWorld) : SubscriptionWorld :=
  match step with
  | .subscribe ctx now => (H.handleSubscribe X ctx now w).2
  | .unsubscribe ctx => (H.handleUnsubscribe X ctx w).2
  | .treeChange event ctx now => onTreeChange X H.localPeerId event ctx now w
  | .delivered id instant => delivered id instant w
  | .write store index => { w with store := store, index := index }

end Steps

/-! What a request does to the engine. -/

section Requests

variable {X : Platform} {H : SubscriptionHandler} {ctx : SubscriptionContext} {now : ClockReading}
  {w : SubscriptionWorld}

@[simp] theorem putAll_engine (entities : List Entity) (w : SubscriptionWorld) :
    (SubscriptionHandler.putAll entities w).engine = w.engine := by
  unfold SubscriptionHandler.putAll
  induction entities generalizing w with
  | nil => rfl
  | cons e entities ih => exact ih (w.put e)

@[simp] theorem putAll_index (entities : List Entity) (w : SubscriptionWorld) :
    (SubscriptionHandler.putAll entities w).index = w.index := by
  unfold SubscriptionHandler.putAll
  induction entities generalizing w with
  | nil => rfl
  | cons e entities ih => exact ih (w.put e)

/-- A request is answered without a change, renews what it finds, or files a new
subscription. -/
theorem handleSubscribe_cases (X : Platform) (H : SubscriptionHandler) (ctx : SubscriptionContext)
    (now : ClockReading) (w : SubscriptionWorld) : ((H.handleSubscribe X ctx now w).2 = w ∧
      (H.handleSubscribe X ctx now w).1.subscription = none) ∨
    (∃ a id, H.admitSubscribe X ctx w.store = .ok a ∧
      H.existingId X (ctx.author.getD Hash.zero) a w = some id ∧ H.handleSubscribe X ctx now w =
        H.handleRenewal X id (ctx.author.getD Hash.zero) a ctx.included now w) ∨
    (∃ a, H.admitSubscribe X ctx w.store = .ok a ∧
      H.existingId X (ctx.author.getD Hash.zero) a w = none ∧ H.checkCapacity X a.pattern w = none ∧
      H.handleSubscribe X ctx now w =
        SubscriptionHandler.handleNew X H (ctx.author.getD Hash.zero) a ctx.included now w) := by
  unfold SubscriptionHandler.handleSubscribe
  cases hadmitted : H.admitSubscribe X ctx w.store with
  | error rejection => exact .inl ⟨rfl,rfl⟩
  | ok a =>
    simp only
    cases hid : H.existingId X (ctx.author.getD Hash.zero) a w with
    | some id => exact .inr (.inl ⟨a,id,rfl,hid,rfl⟩)
    | none =>
      simp only
      cases hmax : H.checkCapacity X a.pattern w with
      | some max => exact .inl ⟨rfl,rfl⟩
      | none => exact .inr (.inr ⟨a,rfl,hid,hmax,rfl⟩)

variable (X H now w)

theorem handleRenewal_engine (id : Str) (author : Hash) (a : AdmittedSubscription)
    (included : Included) : ((H.handleRenewal X id author a included now w).1.subscription = none ∧
      (H.handleRenewal X id author a included now w).2.engine = w.engine.remove id) ∨
    ((H.handleRenewal X id author a included now w).1.subscription = some id ∧
      (H.handleRenewal X id author a included now w).2.engine = (w.engine.remove id).register
          (SubscriptionHandler.subscriptionData id author now.nowMs a) now.instant) := by
  simp only [SubscriptionHandler.handleRenewal]
  cases encodeSubscriptionEntity X
      (SubscriptionHandler.subscriptionData id author now.nowMs a) with
  | error e => exact .inl ⟨rfl,rfl⟩
  | ok e =>
    right
    refine ⟨rfl,?_⟩
    simp only [SubscriptionWorld.register,putAll_engine]
    rfl

theorem handleNew_engine (author : Hash) (a : AdmittedSubscription) (included : Included) :
    ((SubscriptionHandler.handleNew X H author a included now w).1.subscription = none ∧
      (SubscriptionHandler.handleNew X H author a included now w).2.engine = w.engine) ∨
    ((SubscriptionHandler.handleNew X H author a included now w).1.subscription =
        some (SubscriptionHandler.newSubscriptionId now) ∧
      (SubscriptionHandler.handleNew X H author a included now w).2.engine =
        w.engine.register (SubscriptionHandler.subscriptionData
          (SubscriptionHandler.newSubscriptionId now) author (now.nowNanos/1000000) a)
            now.instant) := by
  simp only [SubscriptionHandler.handleNew]
  cases encodeSubscriptionEntity X (SubscriptionHandler.subscriptionData
      (SubscriptionHandler.newSubscriptionId now) author (now.nowNanos/1000000) a) with
  | error e => exact .inl ⟨rfl,rfl⟩
  | ok e =>
    right
    refine ⟨rfl,?_⟩
    simp only [SubscriptionWorld.register,putAll_engine]
    rfl

theorem handleUnsubscribe_engine (ctx : SubscriptionContext) :
    (H.handleUnsubscribe X ctx w).2.engine = w.engine ∨
      ∃ id, (H.handleUnsubscribe X ctx w).2.engine = w.engine.remove id := by
  unfold SubscriptionHandler.handleUnsubscribe
  cases decodeUnsubscribeRequest X ctx.params with
  | error rejection => exact .inl rfl
  | ok id =>
    simp only
    cases w.index.get (subscriptionPath H.localPeerId id) with
    | none => exact .inl rfl
    | some hash =>
      simp only
      split_ifs
      · exact .inl rfl
      · exact .inr ⟨id,rfl⟩

end Requests

/-! Routes. Only a registration adds one. -/

section Routes

variable {X : Platform} {localPeerId : Str}

theorem routes_remove_subset (E : SubscriptionEngine) (id pattern : Str) :
    (E.remove id).routes pattern ⊆ E.routes pattern := by
  rw [SubscriptionEngine.routes_remove]
  exact List.filter_sublist.subset

theorem notifyAll_engine {event : TreeChangeEvent} {ctx : ExecutionContext} {now : ClockReading}
    (ids : List Str) (s : SubscriptionWorld × List Str) :
    (ids.foldl (fun s id => notify X localPeerId event ctx now id s) s).1.engine = s.1.engine := by
  induction ids generalizing s with
  | nil => rfl
  | cons id ids ih =>
    rw [List.foldl_cons,ih,(notify_frame X localPeerId event ctx now id s).1]

theorem routes_terminateAll (localPeerId : Str) (ids : List Str) (w : SubscriptionWorld) (pattern : Str) :
    (ids.foldl (fun w id => terminateSubscription localPeerId id w) w).engine.routes pattern ⊆
      w.engine.routes pattern := by
  induction ids generalizing w with
  | nil => exact List.Subset.refl _
  | cons id ids ih => exact List.Subset.trans (ih _) (routes_remove_subset w.engine id pattern)

theorem routes_onTreeChange (event : TreeChangeEvent) (ctx : ExecutionContext)
    (now : ClockReading) (w : SubscriptionWorld) (pattern : Str) :
    (onTreeChange X localPeerId event ctx now w).engine.routes pattern ⊆
      w.engine.routes pattern := by
  unfold onTreeChange
  split_ifs
  · exact List.Subset.refl _
  · exact List.Subset.refl _
  · have hsub := routes_terminateAll localPeerId
      ((w.engine.matchSubscriptions event.path).foldl
        (fun s id => notify X localPeerId event ctx now id s) (w,[])).2
      ((w.engine.matchSubscriptions event.path).foldl
        (fun s id => notify X localPeerId event ctx now id s) (w,[])).1 pattern
    rwa [notifyAll_engine] at hsub

theorem routes_delivered (id : Str) (instant : ℕ) (w : SubscriptionWorld) (pattern : Str) :
    (delivered id instant w).engine.routes pattern = w.engine.routes pattern := by
  unfold delivered
  cases w.engine.subscriptions.get id <;> rfl

end Routes

/-! The gate. -/

/-- The families that the gate is about, at one peer. -/
def sensitiveStems (localPeerId : Str) : List Str :=
  ["capability".toList,"runtime".toList,"continuation".toList].map fun family =>
    '/'::localPeerId++ "/system/".toList++family

def SensitivePath (localPeerId path : Str) : Prop :=
  ∃ stem ∈ sensitiveStems localPeerId, ∃ rest, path = stem++ '/'::rest

/-- A subtree pattern whose stem stops short of a sensitive family on the way to it. -/
def StopsShort (localPeerId pattern : Str) : Prop :=
  ∃ stem ∈ sensitiveStems localPeerId, ∃ pre, pattern = pre++ "/*".toList ∧ pre <+: stem ∧
    pre ≠ stem

/-- Below a family, the first segments name it. -/
theorem sensitive_of_below {localPeerId stem rest : Str}
    (hl : EntityUri.isPeerId localPeerId = true) (hstem : stem ∈ sensitiveStems localPeerId) :
    patternIsSensitive (stem++ '/'::rest) = true := by
  obtain ⟨family,hfamily,rfl⟩ := List.mem_map.mp hstem
  obtain ⟨hlen,hb⟩ := (EntityUri.isPeerId_iff localPeerId).mp hl
  have hpeer : localPeerId ≠ [] := by
    rintro rfl
    simp at hlen
  have hplain : ∀ f ∈ ["capability".toList,"runtime".toList,"continuation".toList],
      '/' ∉ f ∧ f ≠ [] := by decide +kernel
  obtain ⟨hslash,hne⟩ := hplain family hfamily
  have hsystem : "/system/".toList = '/'::("system".toList++['/']) := by decide +kernel
  have hshape : '/'::localPeerId++ "/system/".toList++family++ '/'::rest =
      []++ '/'::(localPeerId++ '/'::("system".toList++ '/'::(family++ '/'::rest))) := by
    rw [hsystem]
    simp only [List.cons_append,List.append_assoc,List.nil_append]
  have hsegments : segments '/' ('/'::localPeerId++ "/system/".toList++family++ '/'::rest) =
      []::localPeerId::"system".toList::family::segments '/' rest := by
    rw [hshape,segments_append,segments_append,segments_append,segments_append,
      segments_eq_singleton (EntityUri.slash_notMem_of_base58 hb),segments_eq_singleton hslash,
      segments_eq_singleton (c := '/') (s := "system".toList) (by decide +kernel)]
    rfl
  have hfilter : (segments '/' ('/'::localPeerId++ "/system/".toList++family++ '/'::rest)).filter
      (· ≠ []) = localPeerId::"system".toList::family::(segments '/' rest).filter (· ≠ []) := by
    rw [hsegments]
    simp [hpeer,hne]
  unfold patternIsSensitive
  simp only [hfilter,List.getElem?_cons_succ,List.getElem?_cons_zero,Option.any_some,hfamily,
    decide_true,Bool.and_self,Bool.or_true]

/-- A pattern that the gate lets pass and that does not stop short of a family matches no
path of one. -/
theorem harmless_of_passed {localPeerId pattern path : Str}
    (hl : EntityUri.isPeerId localPeerId = true) (hstar : pattern ≠ ['*'])
    (hpass : patternIsSensitive pattern = false) (hshort : ¬ StopsShort localPeerId pattern)
    (hpath : SensitivePath localPeerId path) : patternMatches pattern path = false := by
  obtain ⟨stem,hstem,rest,rfl⟩ := hpath
  have hbelow : ∀ tail, pattern ≠ stem++ '/'::tail := by
    rintro tail rfl
    rw [sensitive_of_below hl hstem] at hpass
    cases hpass
  rw [Bool.eq_false_iff]
  intro hmatch
  by_cases htree : "/*".toList <:+ pattern
  · obtain ⟨pre,rfl⟩ := htree
    obtain ⟨c,tail,hsplit⟩ := (patternMatches_subtree pre _).mp hmatch
    have hpre : pre <+: stem++ '/'::rest := ⟨c::tail,hsplit.symm⟩
    rcases List.prefix_or_prefix_of_prefix hpre (List.prefix_append stem _) with h | ⟨more,rfl⟩
    · by_cases heq : pre = stem
      · exact hbelow ['*'] (by rw [heq]; rfl)
      · exact hshort ⟨stem,hstem,pre,rfl,h,heq⟩
    · cases more with
      | nil => exact hbelow ['*'] (by rw [List.append_nil]; rfl)
      | cons x more =>
        rw [List.append_assoc] at hsplit
        have hx := (List.cons.inj (List.append_cancel_left hsplit)).1
        subst hx
        exact hbelow (more++ "/*".toList) (by simp)
  · exact hbelow rest ((patternMatches_exact hstar htree _).mp hmatch)

/-! Runs with the subscriptions that callers without the authority have made. -/

structure GatedRun where
  world : SubscriptionWorld
  /-- The ids whose last registration such a caller made. -/
  made : List Str

variable {E : SubscriptionEngine} {sub : SubscriptionData}

section Gate

variable (X : Platform) (H : SubscriptionHandler)

/-- The caller's chain is not operator-class for what the request names. -/
def lacksAuthority (ctx : SubscriptionContext) (store : ContentStore) : Bool :=
  match H.singleEffectiveTarget ctx with
  | .ok pattern => !H.operatorClass X ctx pattern store
  | .error _ => true

def madeAfter (step : SubscriptionStep) (s : GatedRun) : List Str :=
  match step with
  | .subscribe ctx now =>
    match (H.handleSubscribe X ctx now s.world).1.subscription with
    | none => s.made
    | some id => if lacksAuthority X H ctx s.world.store then id::s.made
      else s.made.filter (· ≠ id)
  | _ => s.made

def gatedStep (step : SubscriptionStep) (s : GatedRun) : GatedRun :=
  ⟨subscriptionStep X H step s.world,madeAfter X H step s⟩

/-- A caller without the authority names no pattern that stops short of a family, and a
new subscription gets an id that is routed nowhere. -/
def GateSuffices (step : SubscriptionStep) (s : GatedRun) : Prop :=
  match step with
  | .subscribe ctx now => lacksAuthority X H ctx s.world.store = true →
      ∀ a, H.admitSubscribe X ctx s.world.store = .ok a → ¬ StopsShort H.localPeerId a.pattern ∧
        (H.existingId X (ctx.author.getD Hash.zero) a s.world = none → ∀ pattern,
          SubscriptionHandler.newSubscriptionId now ∉ s.world.engine.routes pattern)
  | _ => True

/-- What those callers have made is routed by patterns that match no sensitive path. -/
def Unreached (E : SubscriptionEngine) (made : List Str) : Prop :=
  ∀ id ∈ made, ∀ pattern, id ∈ E.routes pattern → ∀ path, SensitivePath H.localPeerId path →
    patternMatches pattern path = false

variable {X H}

theorem Unreached.shrink {E' : SubscriptionEngine} {made made' : List Str}
    (h : Unreached H E made) (hroutes : ∀ pattern, E'.routes pattern ⊆ E.routes pattern)
    (hmade : made' ⊆ made) : Unreached H E' made' :=
  fun id hid pattern hroute => h id (hmade hid) pattern (hroutes pattern hroute)

/-- A registration under an id that is routed nowhere, by such a caller or by another. -/
theorem Unreached.register {made : List Str} (h : Unreached H E made) {instant : ℕ}
    (hfresh : ∀ pattern, sub.subscriptionId ∉ E.routes pattern)
    (hpattern : ∀ path, SensitivePath H.localPeerId path →
      patternMatches sub.pattern path = false) :
    Unreached H (E.register sub instant) (sub.subscriptionId::made) := by
  intro id hid pattern hroute path hpath
  rw [SubscriptionEngine.routes_register] at hroute
  by_cases hp : pattern = sub.pattern
  · rw [hp]
    exact hpattern path hpath
  · rw [if_neg hp] at hroute
    rcases List.mem_cons.mp hid with rfl | hmade
    · exact (hfresh pattern hroute).elim
    · exact h id hmade pattern hroute path hpath

theorem Unreached.registerOther {made : List Str} (h : Unreached H E made) {instant : ℕ} :
    Unreached H (E.register sub instant) (made.filter (· ≠ sub.subscriptionId)) := by
  intro id hid pattern hroute path hpath
  obtain ⟨hmade,hne⟩ := List.mem_filter.mp hid
  have hne : id ≠ sub.subscriptionId := by simpa using hne
  rw [SubscriptionEngine.routes_register] at hroute
  have hold : id ∈ E.routes pattern := by
    split_ifs at hroute
    · rcases List.mem_append.mp hroute with hin | hin
      · exact hin
      · exact (hne (List.mem_singleton.mp hin)).elim
    · exact hroute
  exact h id hmade pattern hold path hpath

theorem Unreached.admitted {made : List Str} (h : Unreached H E made)
    (hl : EntityUri.isPeerId H.localPeerId = true) {ctx : SubscriptionContext}
    {store : ContentStore} {a : AdmittedSubscription}
    (hadmitted : H.admitSubscribe X ctx store = .ok a)
    (hsub : sub.pattern = a.pattern) {instant : ℕ}
    (hlacks : lacksAuthority X H ctx store = true → ¬ StopsShort H.localPeerId a.pattern ∧
      ∀ pattern, sub.subscriptionId ∉ E.routes pattern) :
    Unreached H (E.register sub instant) (if lacksAuthority X H ctx store
      then sub.subscriptionId::made else made.filter (· ≠ sub.subscriptionId)) := by
  by_cases hgate : lacksAuthority X H ctx store = true
  · rw [if_pos hgate]
    obtain ⟨hshort,hfresh⟩ := hlacks hgate
    apply h.register hfresh
    intro path hpath
    rw [hsub]
    obtain ⟨htarget,hsensitive,-⟩ := admitSubscribe_ok hadmitted
    have hpass : patternIsSensitive a.pattern = false := by
      unfold lacksAuthority at hgate
      rw [htarget] at hgate
      simp only [Bool.not_eq_true'] at hgate
      rw [hgate,Bool.or_false,Bool.not_eq_true'] at hsensitive
      exact hsensitive
    exact harmless_of_passed hl (admitted_ne_star hadmitted) hpass hshort hpath
  · rw [if_neg hgate]
    exact h.registerOther

theorem gatedStep_unreached (hl : EntityUri.isPeerId H.localPeerId = true)
    (step : SubscriptionStep) (s : GatedRun) (h : Unreached H s.world.engine s.made)
    (hsafe : GateSuffices X H step s) :
    Unreached H (gatedStep X H step s).world.engine (gatedStep X H step s).made := by
  cases step with
  | subscribe ctx now =>
    simp only [gatedStep,subscriptionStep,madeAfter]
    rcases handleSubscribe_cases X H ctx now s.world with
      ⟨hsame,hnone⟩ | ⟨a,id,hadmitted,hid,hrenew⟩ | ⟨a,hadmitted,hid,-,hnew⟩
    · rw [hsame,hnone]
      exact h
    · rw [hrenew]
      have hremoved : Unreached H (s.world.engine.remove id) s.made :=
        h.shrink (routes_remove_subset _ id) (List.Subset.refl _)
      rcases handleRenewal_engine X H now s.world id
        (ctx.author.getD Hash.zero) a ctx.included with ⟨hnone,hengine⟩ | ⟨hsome,hengine⟩
      · rw [hnone,hengine]
        exact hremoved
      · rw [hsome,hengine]
        exact hremoved.admitted hl hadmitted rfl fun hlacks => ⟨(hsafe hlacks a hadmitted).1,
          SubscriptionEngine.not_mem_routes_remove _ id⟩
    · rw [hnew]
      rcases handleNew_engine X H now s.world
        (ctx.author.getD Hash.zero) a ctx.included with ⟨hnone,hengine⟩ | ⟨hsome,hengine⟩
      · rw [hnone,hengine]
        exact h
      · rw [hsome,hengine]
        exact h.admitted hl hadmitted rfl fun hlacks =>
          ⟨(hsafe hlacks a hadmitted).1,(hsafe hlacks a hadmitted).2 hid⟩
  | unsubscribe ctx =>
    rcases handleUnsubscribe_engine X H s.world ctx with hengine | ⟨id,hengine⟩
    · show Unreached H (H.handleUnsubscribe X ctx s.world).2.engine s.made
      rw [hengine]
      exact h
    · show Unreached H (H.handleUnsubscribe X ctx s.world).2.engine s.made
      rw [hengine]
      exact h.shrink (routes_remove_subset _ id) (List.Subset.refl _)
  | treeChange event ctx now =>
    exact h.shrink (routes_onTreeChange event ctx now s.world) (List.Subset.refl _)
  | delivered id instant =>
    refine h.shrink (fun pattern => ?_) (List.Subset.refl _)
    show (delivered id instant s.world).engine.routes pattern ⊆ _
    rw [routes_delivered]
    exact List.Subset.refl _
  | write store index => exact h

/-- From any state of the engine, whatever the steps: where no caller without the
authority has named a pattern that stops short of a sensitive family, and no id that was
routed already is given out again, no event at a sensitive path is queued for a
subscription that such a caller has made. -/
theorem sensitive_paths_not_queued (hl : EntityUri.isPeerId H.localPeerId = true)
    (schedule : List SubscriptionStep) (w : SubscriptionWorld)
    (hsafe : Schedule.Admissible (gatedStep X H) (GateSuffices X H) schedule ⟨w,[]⟩)
    (event : TreeChangeEvent) (ctx : ExecutionContext) (now : ClockReading)
    (hpath : SensitivePath H.localPeerId event.path) :
    ∀ work ∈ queuedBy X H.localPeerId event ctx now
        (Schedule.run (gatedStep X H) schedule ⟨w,[]⟩).world,
      work.subscriptionId ∉ (Schedule.run (gatedStep X H) schedule ⟨w,[]⟩).made := by
  have hstart : Unreached H w.engine [] := fun id hid => (List.not_mem_nil hid).elim
  have hrun : Unreached H (Schedule.run (gatedStep X H) schedule ⟨w,[]⟩).world.engine
      (Schedule.run (gatedStep X H) schedule ⟨w,[]⟩).made :=
    Schedule.run_invariant (fun step s h hi => gatedStep_unreached hl step s h hi) hstart hsafe
  intro work hwork hmade
  obtain ⟨pattern,hroute,hmatch⟩ := route_of_queued hwork
  have hnone := hrun work.subscriptionId hmade pattern hroute event.path hpath
  rw [hmatch] at hnone
  cases hnone

end Gate

namespace SubscriptionSample

open Sample

/-- One caller without the authority, one request. -/
def afterRequest (target : String) : GatedRun := Schedule.run (gatedStep crates handler)
  [.subscribe (request bob bobToken false target) firstSecond] ⟨fresh,[]⟩

/-- What the subtree and the bare star leave behind, and what the gate says of each. -/
theorem evaluated_gate :
    (grantPath = ('/'::aliceId++ "/system/".toList++ "capability".toList)++
        '/'::"grants/x".toList ∧
      appSubtree = ('/'::aliceId++ "/app".toList)++ "/*".toList ∧
      ∀ stem ∈ sensitiveStems aliceId, ¬ '/'::aliceId++ "/app".toList <+: stem) ∧
    ((afterRequest "app/*").made = [firstId] ∧
      (handler.admitSubscribe crates (request bob bobToken false "app/*")
        fresh.store).toOption.any (fun a => a.pattern = appSubtree) = true) ∧
    lacksAuthority crates handler (request bob bobToken false "*") fresh.store = true ∧
    (afterRequest "*").made = [firstId] ∧
    (queuedBy crates aliceId (secretAt grantPath) {} nextSecond (afterRequest "*").world).map
      (fun work => work.subscriptionId) = [firstId] := by
  decide +kernel

theorem grantPath_sensitive : SensitivePath aliceId grantPath :=
  ⟨_,by simp [sensitiveStems],_,evaluated_gate.1.1⟩

end SubscriptionSample

open SubscriptionSample Sample

theorem sensitive_paths_not_queued_sample : (afterRequest "app/*").made = [firstId] ∧
    ∀ work ∈ queuedBy crates aliceId (secretAt grantPath) {} nextSecond
      (afterRequest "app/*").world, work.subscriptionId ∉ (afterRequest "app/*").made := by
  obtain ⟨⟨-,hsplit,hnone⟩,⟨hmade,hpattern⟩,-⟩ := evaluated_gate
  refine ⟨hmade,?_⟩
  rw [afterRequest]
  apply sensitive_paths_not_queued (H := handler) aliceId_isPeerId
  · refine ⟨?_,trivial⟩
    intro hlacks a hadmitted
    have hp : a.pattern = appSubtree := by
      rw [hadmitted] at hpattern
      simpa [Except.toOption] using hpattern
    refine ⟨?_,fun _ pattern => List.not_mem_nil⟩
    rintro ⟨stem,hstem,pre,hsub,hpre,-⟩
    have heq : pre = '/'::aliceId++ "/app".toList :=
      List.append_inj_left' ((hp.symm.trans hsub).symm.trans hsplit) rfl
    rw [heq] at hpre
    exact hnone stem hstem hpre
  · exact grantPath_sensitive

/-- The bare star passes the gate and hears of a capability grant. -/
theorem star_hears_grants :
    lacksAuthority crates handler (request bob bobToken false "*") fresh.store = true ∧
    SensitivePath aliceId (secretAt grantPath).path ∧ (afterRequest "*").made = [firstId] ∧
    (queuedBy crates aliceId (secretAt grantPath) {} nextSecond (afterRequest "*").world).map
      (fun work => work.subscriptionId) = [firstId] :=
  let ⟨_,_,hlacks,hmade,hqueued⟩ := evaluated_gate
  ⟨hlacks,grantPath_sensitive,hmade,hqueued⟩

end EntityCore
