import EntityCore.ConfigCoordination
import EntityCore.EmitSteps

/-! Auto-version needs tracking. Over a run of config operations and direct config writes,
every stored config with auto-version has the tracking config it needs, as long as no
two configs contend for one tracking entry. -/
namespace EntityCore

open Ecf Outcome Strings NotifyingLocationIndex List EntityUri

variable {cfg : RevisionConfig} {path c p canonical : Str} {s : ConfigIndex}

/-! States that differ in the chain counters alone. -/

def Alike {σ : Type} (s s' : NotifyingLocationIndex σ) : Prop :=
  ∃ m, s' = { s with chainCascadeDepths := m }

namespace Alike

variable {σ : Type} {s s' s'' : NotifyingLocationIndex σ}

theorem refl (s : NotifyingLocationIndex σ) : Alike s s := ⟨s.chainCascadeDepths,rfl⟩

theorem trans (h : Alike s s') (h' : Alike s' s'') : Alike s s'' := by
  obtain ⟨m,rfl⟩ := h
  obtain ⟨m',rfl⟩ := h'
  exact ⟨m',rfl⟩

theorem noteChain (s : NotifyingLocationIndex σ) (ctx : ExecutionContext) :
    Alike s (s.noteChain ctx) := by
  unfold NotifyingLocationIndex.noteChain
  cases ctx.chainId with
  | none => exact refl s
  | some chain => exact ⟨_,rfl⟩

theorem shallower (h : Alike s.deeper s') : Alike s s'.shallower := by
  obtain ⟨m,rfl⟩ := h
  exact ⟨m,rfl⟩

end Alike

/-! Writes no consumer takes an interest in. -/

section PassedOver

variable {σ : Type}

structure PassesOver (c : Consumers σ) (path : Str) : Prop where
  hooks : ∀ hook ∈ c.syncHooks, ∀ event : TreeChangeEvent, event.path = path →
    ∀ ctx s, hook.onTreeChange event ctx s = (.ok (),ctx,s)
  broadcast : ∀ event s, c.onChangeBroadcast event s = s

theorem runHooks_passed (event : TreeChangeEvent) {hooks : List (SyncTreeHook σ)}
    (h : ∀ hook ∈ hooks, ∀ ctx s, hook.onTreeChange event ctx s = (.ok (),ctx,s))
    (completed : List Str) (ctx : ExecutionContext) (s : NotifyingLocationIndex σ) :
    (runHooks event hooks completed ctx s).halted = none ∧
      (runHooks event hooks completed ctx s).state = s := by
  induction hooks generalizing completed ctx with
  | nil => exact ⟨rfl,rfl⟩
  | cons hook rest ih =>
    have hhook := h hook mem_cons_self (enterHook hook ctx) s
    have hrest := ih (fun k hk => h k (mem_cons_of_mem _ hk)) (completed++[hook.name])
      (leaveHook ctx (enterHook hook ctx))
    simp only [runHooks,hhook]
    exact hrest

theorem dispatchEvent_passed {c : Consumers σ} (hc : PassesOver c path) (hash : Hash)
    (previousHash newHash : Option Hash) (changeType : ChangeType)
    (context : Option ExecutionContext) (s : NotifyingLocationIndex σ) :
    Alike s (dispatchEvent c path hash previousHash newHash changeType context s).state := by
  simp only [dispatchEvent]
  split
  · exact (Alike.noteChain _ _).shallower
  · apply Alike.shallower
    have hr := runHooks_passed ⟨path,hash,previousHash,newHash,changeType,
        some ((context.getD {}).atDepth s.deeper.cascadeDepth)⟩
      (fun hook hk => hc.hooks hook hk _ rfl) [] ((context.getD {}).atDepth s.deeper.cascadeDepth)
      (s.deeper.noteChain ((context.getD {}).atDepth s.deeper.cascadeDepth))
    simp only [deliver,hr.1,hr.2,hc.broadcast]
    exact Alike.noteChain _ _

theorem set_same {m : MemoryLocationIndex} {hash : Hash} (h : m.get path = some hash) :
    m.set path hash = m := by
  apply MemoryLocationIndex.ext_get
  intro p
  rw [MemoryLocationIndex.get_set]
  split_ifs with hp
  · rw [hp.1,h]
  · rfl

theorem setImpl_passed {c : Consumers σ} (hc : PassesOver c path)
    (hpath : pathIsStorable path = true → validateAbsolutePath path = .ok ())
    (hash : Hash) (context : Option ExecutionContext) {s : NotifyingLocationIndex σ}
    (hd : s.cascadeDepth < cascadeDepthLimit) :
    Alike { s with inner := s.inner.set path hash } (setImpl c path hash context s).state := by
  unfold setImpl
  split
  · rename_i e he
    have hs : pathIsStorable path = false := by
      rw [Bool.eq_false_iff]
      intro h
      rw [hpath h] at he
      cases he
    rw [MemoryLocationIndex.set_of_not_storable hs]
    exact Alike.refl s
  · rw [if_neg hd.not_ge]
    dsimp only
    split
    · split
      · exact Alike.refl _
      · exact dispatchEvent_passed hc _ _ _ _ _ _
    · exact dispatchEvent_passed hc _ _ _ _ _ _

theorem removeImpl_passed {c : Consumers σ} (hc : PassesOver c path)
    (context : Option ExecutionContext) (s : NotifyingLocationIndex σ) :
    Alike s (removeImpl c path context s).state ∨
      Alike { s with inner := (s.inner.remove path).2 } (removeImpl c path context s).state := by
  unfold removeImpl
  split
  · exact .inl (Alike.refl s)
  · split
    · exact .inl (Alike.refl s)
    · dsimp only [MemoryLocationIndex.remove]
      split
      · exact .inr (dispatchEvent_passed hc _ _ _ _ _ _)
      · exact .inr (Alike.refl _)

end PassedOver

/-! Where configs and tracking configs are. -/

section Paths

variable {pid : Str}

theorem isPrefixConfigPath_form
    (h : isPrefixConfigPath path (revisionSubtree pid) = true) :
    ∃ hash, path = '/'::pid++("/system/revision/".toList++hash++ "/config".toList) ∧
      hash ≠ [] ∧ ∀ c ∈ hash, isAsciiHexdigit c = true := by
  unfold isPrefixConfigPath at h
  split at h
  · rename_i hash hhash
    obtain ⟨rest,hrest,hsuffix⟩ := Option.bind_eq_some_iff.mp hhash
    rw [stripPrefix_eq_some] at hrest
    rw [stripSuffix_eq_some] at hsuffix
    refine ⟨hash,?_,?_,?_⟩
    · rw [hrest,hsuffix,revisionSubtree]
      simp only [append_assoc,cons_append]
    · rintro rfl
      exact absurd (Bool.and_eq_true_iff.mp h).2 (by decide)
    · exact all_eq_true.mp (Bool.and_eq_true_iff.mp h).1
  · cases h

theorem isAsciiHexdigit_plain {c : Char} (h : isAsciiHexdigit c = true) :
    isControl c = false ∧ c ≠ '.' ∧ c ≠ '/' := by
  have hrange : 48 ≤ c.toNat ∧ c.toNat ≤ 102 := by
    simp only [isAsciiHexdigit,Bool.or_eq_true,Bool.and_eq_true,decide_eq_true_eq,Char.le_def,
      UInt32.le_iff_toNat_le] at h
    have h0 : '0'.val.toNat = 48 := rfl
    have h9 : '9'.val.toNat = 57 := rfl
    have ha : 'a'.val.toNat = 97 := rfl
    have hf : 'f'.val.toNat = 102 := rfl
    have hA : 'A'.val.toNat = 65 := rfl
    have hF : 'F'.val.toNat = 70 := rfl
    have hc : c.toNat = c.val.toNat := rfl
    omega
  refine ⟨?_,?_,?_⟩
  · simp only [isControl,Bool.or_eq_false_iff,Bool.and_eq_false_iff,decide_eq_false_iff_not]
    omega
  · rintro rfl
    exact absurd hrange.1 (by decide)
  · rintro rfl
    exact absurd hrange.1 (by decide)

theorem configPath_storable (hl : isPeerId pid = true)
    (h : isPrefixConfigPath path (revisionSubtree pid) = true) : pathIsStorable path = true := by
  obtain ⟨hash,rfl,hne,hhex⟩ := isPrefixConfigPath_form h
  have hplain := fun c hc => isAsciiHexdigit_plain (hhex c hc)
  have hfixed : ("/system/revision/".toList++ "/config".toList).all
      (fun c => !isControl c && c ≠ '.') = true := by decide
  simp only [all_append,Bool.and_eq_true,all_eq_true,Bool.not_eq_true', decide_eq_true_eq] at hfixed
  apply storable_of_peer hl
  · have hslashes : "//".toList = ['/','/'] := rfl
    rw [hslashes,double_append,double_append]
    rintro ((hh | hh | ⟨-,hh⟩) | hh | ⟨hh,-⟩)
    · revert hh; decide
    · exact (hplain '/' (hh.subset (by simp))).2.2 rfl
    · exact (hplain '/' (mem_of_mem_head? hh)).2.2 rfl
    · revert hh; decide
    · rw [getLast?_append_of_ne_nil _ hne] at hh
      exact (hplain '/' (mem_of_getLast? hh)).2.2 rfl
  · intro c hc
    simp only [mem_append] at hc
    rcases hc with (hc | hc) | hc
    · exact hfixed.1 c hc
    · exact ⟨(hplain c hc).1,(hplain c hc).2.1⟩
    · exact hfixed.2 c hc

theorem configPath_valid (hl : isPeerId pid = true)
    (h : isPrefixConfigPath path (revisionSubtree pid) = true) :
    validateAbsolutePath path = .ok () := by
  have hs := configPath_storable hl h
  obtain ⟨hash,rfl,-,-⟩ := isPrefixConfigPath_form h
  exact valid_of_storable hl hs

theorem trackingConfigPath_valid (hl : isPeerId pid = true) (canonical : Str)
    (hs : pathIsStorable (trackingConfigPath pid canonical) = true) :
    validateAbsolutePath (trackingConfigPath pid canonical) = .ok () := by
  have hform : trackingConfigPath pid canonical = '/'::pid++ '/'::("system/tree/tracking-config/".toList++
      (if canonical.isEmpty then "root".toList else canonical)) := by
    simp [trackingConfigPath]
  rw [hform] at hs ⊢
  exact valid_of_storable hl hs

theorem trackingConfigPath_not_config (canonical : Str) :
    isPrefixConfigPath (trackingConfigPath pid canonical) (revisionSubtree pid) = false := by
  rw [Bool.eq_false_iff]
  intro h
  obtain ⟨hash,hform,-,-⟩ := isPrefixConfigPath_form h
  rw [trackingConfigPath,append_assoc] at hform
  have htail := append_cancel_left hform
  simp at htail

theorem hexStr_hexdigits (b : Bytes) : ∀ c ∈ Hash.hexStr b, isAsciiHexdigit c = true := by
  have hdigit : ∀ n : Fin 16, isAsciiHexdigit (Hash.hexDigit n) = true := by decide
  intro c hc
  simp only [Hash.hexStr,mem_flatMap,mem_cons,not_mem_nil,or_false] at hc
  obtain ⟨x,_,rfl | rfl⟩ := hc
  · exact hdigit ⟨x.toNat/16,by have := x.toNat_lt; omega⟩
  · exact hdigit ⟨x.toNat%16,by omega⟩

theorem hexStr_length (b : Bytes) : (Hash.hexStr b).length = 2*b.length := by
  induction b with
  | nil => rfl
  | cons x b ih =>
    have hcons : Hash.hexStr (x::b) =
        Hash.hexDigit (x.toNat/16)::Hash.hexDigit (x.toNat%16)::Hash.hexStr b := rfl
    rw [hcons,length_cons,length_cons,length_cons,ih]
    omega

/-- The config operation writes where the hook looks. -/
theorem revConfigPath_config (X : Platform) (absolutePrefix : Str) :
    isPrefixConfigPath (revConfigPath pid (prefixHash X absolutePrefix)) (revisionSubtree pid) =
      true := by
  have hhex : prefixHash X absolutePrefix = Hash.hexStr (0::X.sha256 (ecfForHash
      "system/tree/path".toList (toEcf (.text absolutePrefix)))) := by
    rw [prefixHash,Hash.toHex,Hash.toBytes_eq]
    rfl
  have hpre : stripPrefix (revConfigPath pid (prefixHash X absolutePrefix)) (revisionSubtree pid) =
      some (prefixHash X absolutePrefix++ "/config".toList) := by
    rw [stripPrefix_eq_some]
    simp only [revConfigPath,revisionPath,revisionSubtree,append_assoc,cons_append]
  have hsuf : stripSuffix (prefixHash X absolutePrefix++ "/config".toList) "/config".toList =
      some (prefixHash X absolutePrefix) := (stripSuffix_eq_some _ _ _).mpr rfl
  unfold isPrefixConfigPath
  rw [hpre,Option.bind_some,hsuf,hhex]
  dsimp only
  rw [Bool.and_eq_true_iff]
  constructor
  · exact all_eq_true.mpr (hexStr_hexdigits _)
  · have hlen := X.sha256_length (ecfForHash "system/tree/path".toList (toEcf (.text absolutePrefix)))
    have hcons : ∀ b : Bytes, Hash.hexStr (0::b) = '0' :: '0' :: Hash.hexStr b := fun _ => rfl
    have hzero : Hash.digestLenForFormat (UInt8.ofNat (16*hexValue '0'+hexValue '0')) = some 32 := by
      decide
    rw [hcons]
    simp only [hexWidthMatchesItsFormatByte,hzero,length_cons,hexStr_length,hlen]
    decide

end Paths

/-! What the writes do to the tree and the store. -/

section Effects

variable (X : Platform) (pid : Str)

def bindPath (path : Str) (hash : Hash) (s : ConfigIndex) : ConfigIndex :=
  { s with inner := s.inner.set path hash }

def unbindPath (path : Str) (s : ConfigIndex) : ConfigIndex :=
  { s with inner := (s.inner.remove path).2 }

/-- The tracking config of a prefix, in the store and in the tree. -/
def withTracking (canonical : Str) (enabled : Bool) (s : ConfigIndex) : ConfigIndex :=
  match buildTrackingConfigEntity X canonical enabled with
  | none => s
  | some e => bindPath (trackingConfigPath pid canonical) e.contentHash (putContent s e)

/-- What the hook does once a config is bound. -/
def afterBinding (hash : Hash) (s : ConfigIndex) : ConfigIndex :=
  match decodeConfigAt X s.world hash with
  | none => s
  | some cfg => match validateRevisionConfig cfg with
    | some _ => s
    | none => withTracking X pid (canonicalizePrefix cfg.barePrefix) cfg.autoVersion s

/-- What the hook does once a config is unbound. -/
def afterUnbinding (hash : Hash) (s : ConfigIndex) : ConfigIndex :=
  match decodeConfigAt X s.world hash with
  | none => s
  | some cfg => withTracking X pid (canonicalizePrefix cfg.barePrefix) false s

variable {X pid}

theorem unheard_passes (path : Str) : PassesOver unheard path where
  hooks _ h := absurd h not_mem_nil
  broadcast _ _ := rfl

theorem coordinated_passes (h : isPrefixConfigPath path (revisionSubtree pid) = false) :
    PassesOver (coordinated X pid) path where
  hooks hook hhook event hpath ctx s := by
    have heq : hook = coordinationHook X pid := mem_singleton.mp hhook
    subst heq
    show onConfigChange X pid event ctx s = _
    unfold onConfigChange
    rw [hpath,h]
    rfl
  broadcast _ _ := rfl

theorem writeTrackingConfig_alike (hl : isPeerId pid = true) (canonical : Str)
    (enabled : Bool) (ctx : ExecutionContext) (hd : s.cascadeDepth < cascadeDepthLimit) :
    Alike (withTracking X pid canonical enabled s)
      (writeTrackingConfig X pid canonical enabled ctx s) := by
  unfold withTracking writeTrackingConfig
  cases buildTrackingConfigEntity X canonical enabled with
  | none => exact Alike.refl s
  | some e => exact setImpl_passed (unheard_passes _) (trackingConfigPath_valid hl canonical) _ _ hd

/-- A state at another depth and with other counters. -/
def shifted (depth : ℕ) (m : OrderedMap Str ℕ) (s : ConfigIndex) : ConfigIndex :=
  { s with cascadeDepth := depth, chainCascadeDepths := m }

theorem withTracking_shifted (canonical : Str) (enabled : Bool) (depth : ℕ) (m : OrderedMap Str ℕ)
    (s : ConfigIndex) : withTracking X pid canonical enabled (shifted depth m s) =
      shifted depth m (withTracking X pid canonical enabled s) := by
  unfold withTracking
  cases buildTrackingConfigEntity X canonical enabled <;> rfl

theorem afterBinding_shifted (hash : Hash) (depth : ℕ) (m : OrderedMap Str ℕ) (s : ConfigIndex) :
    afterBinding X pid hash (shifted depth m s) = shifted depth m (afterBinding X pid hash s) := by
  have hworld : (shifted depth m s).world = s.world := rfl
  unfold afterBinding
  rw [hworld]
  cases decodeConfigAt X s.world hash with
  | none => rfl
  | some cfg =>
    dsimp only
    cases validateRevisionConfig cfg with
    | some v => rfl
    | none => exact withTracking_shifted _ _ _ _ _

theorem afterUnbinding_shifted (hash : Hash) (depth : ℕ) (m : OrderedMap Str ℕ)
    (s : ConfigIndex) : afterUnbinding X pid hash (shifted depth m s) =
      shifted depth m (afterUnbinding X pid hash s) := by
  have hworld : (shifted depth m s).world = s.world := rfl
  unfold afterUnbinding
  rw [hworld]
  cases decodeConfigAt X s.world hash with
  | none => rfl
  | some cfg => exact withTracking_shifted _ _ _ _ _

/-- The dispatcher runs the hook on the state the write left, unless the chain is too deep. -/
theorem dispatchEvent_hooked (path : Str) (hash : Hash) (previousHash newHash : Option Hash)
    (changeType : ChangeType) (context : Option ExecutionContext) (s : ConfigIndex)
    {after : ConfigIndex → ConfigIndex}
    (hshift : ∀ depth m, after (shifted depth m s) = shifted depth m (after s))
    (hafter : ∀ ctx' ctx s', s'.cascadeDepth = s.cascadeDepth+1 →
      Alike (after s') (onConfigChange X pid ⟨path,hash,previousHash,newHash,changeType,
        ctx'⟩ ctx s').2.2) :
    (OverLimit s (context.getD {}) ∧ Alike s (dispatchEvent (coordinated X pid) path hash
        previousHash newHash changeType context s).state) ∨
      (¬OverLimit s (context.getD {}) ∧ Alike (after s) (dispatchEvent (coordinated X pid) path hash
        previousHash newHash changeType context s).state) := by
  have hover := chainExceeded_iff s (context.getD {})
  simp only [dispatchEvent]
  split
  · rename_i he
    exact .inl ⟨hover.mp he,(Alike.noteChain _ _).shallower⟩
  · rename_i he
    refine .inr ⟨fun h => he (hover.mpr h),?_⟩
    apply Alike.shallower
    generalize hctx : (context.getD {}).atDepth s.deeper.cascadeDepth = ctx
    obtain ⟨m,hm⟩ := Alike.noteChain s.deeper ctx
    have hs' : s.deeper.noteChain ctx = shifted (s.cascadeDepth+1) m s := hm
    have hrun : ∀ event, (deliver (coordinated X pid) event ctx (s.deeper.noteChain ctx)).state =
        (onConfigChange X pid event (enterHook (coordinationHook X pid) ctx)
          (s.deeper.noteChain ctx)).2.2 := by
      intro event
      have hhook : ∀ c t, (coordinationHook X pid).onTreeChange event c t =
          onConfigChange X pid event c t := fun _ _ => rfl
      simp only [deliver,coordinated,runHooks,hhook]
      rcases onConfigChange X pid event (enterHook (coordinationHook X pid) ctx)
        (s.deeper.noteChain ctx) with ⟨result,left,s'⟩
      cases result <;> rfl
    rw [hrun]
    have hdone := hafter (some ctx) (enterHook (coordinationHook X pid) ctx)
      (s.deeper.noteChain ctx) (by rw [hs']; rfl)
    rw [hs',hshift] at hdone
    have hdepth : (after s).cascadeDepth = s.cascadeDepth :=
      congrArg (·.cascadeDepth) (hshift s.cascadeDepth s.chainCascadeDepths)
    have hstart : Alike (after s).deeper (shifted (s.cascadeDepth+1) m (after s)) := by
      refine ⟨m,?_⟩
      unfold deeper shifted
      rw [hdepth]
    rw [hs']
    exact hstart.trans hdone

theorem hooked_binding (hl : isPeerId pid = true)
    (hp : isPrefixConfigPath path (revisionSubtree pid) = true) (hash : Hash)
    (previousHash newHash : Option Hash) {changeType : ChangeType} (hc : changeType ≠ .deleted)
    (ctx' : Option ExecutionContext) (ctx : ExecutionContext)
    (hd : s.cascadeDepth < cascadeDepthLimit) :
    Alike (afterBinding X pid hash s) (onConfigChange X pid ⟨path,hash,previousHash,newHash,
      changeType,ctx'⟩ ctx s).2.2 := by
  unfold onConfigChange afterBinding
  rw [if_neg (by simp [hp])]
  dsimp only
  have hbinding : Alike (afterBinding X pid hash s)
      (match decodeConfigAt X s.world hash with
      | none => ((.ok (),ctx,s) : Except CascadeHalt Unit × ExecutionContext × ConfigIndex)
      | some cfg => match validateRevisionConfig cfg with
        | some violation => (.error (coordinationHalt violation),ctx,s)
        | none => (.ok (),ctx,coordinateFromConfig X pid cfg ctx s)).2.2 := by
    unfold afterBinding
    cases decodeConfigAt X s.world hash with
    | none => exact Alike.refl s
    | some cfg =>
      dsimp only
      cases hv : validateRevisionConfig cfg with
      | some violation => exact Alike.refl s
      | none =>
        show Alike _ (coordinateFromConfig X pid cfg ctx s)
        unfold coordinateFromConfig
        rw [hv]
        exact writeTrackingConfig_alike hl _ _ _ hd
  cases changeType with
  | deleted => exact absurd rfl hc
  | created => exact hbinding
  | modified => exact hbinding

theorem hooked_unbinding (hl : isPeerId pid = true)
    (hp : isPrefixConfigPath path (revisionSubtree pid) = true) (hash : Hash)
    (newHash : Option Hash) (ctx' : Option ExecutionContext) (ctx : ExecutionContext)
    (hd : s.cascadeDepth < cascadeDepthLimit) :
    Alike (afterUnbinding X pid hash s) (onConfigChange X pid ⟨path,hash,some hash,newHash,
      .deleted,ctx'⟩ ctx s).2.2 := by
  unfold onConfigChange afterUnbinding
  rw [if_neg (by simp [hp])]
  dsimp only [Option.bind_some]
  cases decodeConfigAt X s.world hash with
  | none => exact Alike.refl s
  | some cfg => exact writeTrackingConfig_alike hl _ _ _ hd

/-- A config write: nothing new, cut off by the chain limit, or followed by the hook. -/
theorem setImpl_config (hl : isPeerId pid = true)
    (hp : isPrefixConfigPath path (revisionSubtree pid) = true) (hash : Hash)
    (context : Option ExecutionContext) (hd : s.cascadeDepth = 0) :
    let s' := (setImpl (coordinated X pid) path hash context s).state
    (s.inner.get path = some hash ∧ Alike s s') ∨
      (s.inner.get path ≠ some hash ∧ OverLimit s (context.getD {}) ∧
        Alike (bindPath path hash s) s') ∨
      (s.inner.get path ≠ some hash ∧ ¬OverLimit s (context.getD {}) ∧
        Alike (afterBinding X pid hash (bindPath path hash s)) s') := by
  have hdispatch : ∀ previousHash changeType, changeType ≠ ChangeType.deleted →
      s.inner.get path ≠ some hash →
      let s' := (dispatchEvent (coordinated X pid) path hash previousHash (some hash) changeType
        context (bindPath path hash s)).state
      (s.inner.get path ≠ some hash ∧ OverLimit s (context.getD {}) ∧
        Alike (bindPath path hash s) s') ∨
      (s.inner.get path ≠ some hash ∧ ¬OverLimit s (context.getD {}) ∧
        Alike (afterBinding X pid hash (bindPath path hash s)) s') := by
    intro previousHash changeType hc hne
    have hrun := dispatchEvent_hooked (X := X) path hash previousHash (some hash) changeType
      context (bindPath path hash s) (fun depth m => afterBinding_shifted hash depth m _)
      (fun ctx' ctx s' hdepth => hooked_binding hl hp hash previousHash (some hash) hc ctx' ctx
        (by rw [hdepth]; show s.cascadeDepth+1 < 32; omega))
    rcases hrun with ⟨ho,h⟩ | ⟨ho,h⟩
    · exact .inl ⟨hne,ho,h⟩
    · exact .inr ⟨hne,ho,h⟩
  have hlimit : ¬s.cascadeDepth ≥ cascadeDepthLimit := by
    rw [hd]
    decide
  unfold setImpl
  rw [configPath_valid hl hp]
  dsimp only
  rw [if_neg hlimit]
  cases hg : s.inner.get path with
  | none =>
    rw [hg] at hdispatch
    exact .inr (hdispatch none .created (by decide) (by simp))
  | some prev =>
    dsimp only
    by_cases hprev : prev = hash
    · subst hprev
      rw [if_pos rfl,set_same hg]
      exact .inl ⟨rfl,Alike.refl s⟩
    · rw [if_neg hprev]
      rw [hg] at hdispatch
      exact .inr (hdispatch (some prev) .modified (by decide) (by simpa using hprev))

theorem removeImpl_config (hl : isPeerId pid = true)
    (hp : isPrefixConfigPath path (revisionSubtree pid) = true)
    (context : Option ExecutionContext) (hd : s.cascadeDepth = 0) :
    let s' := (removeImpl (coordinated X pid) path context s).state
    Alike (unbindPath path s) s' ∨ ∃ hash, s.inner.get path = some hash ∧
        Alike (afterUnbinding X pid hash (unbindPath path s)) s' := by
  have hlimit : ¬s.cascadeDepth ≥ cascadeDepthLimit := by
    rw [hd]
    decide
  unfold removeImpl
  rw [configPath_valid hl hp]
  dsimp only [MemoryLocationIndex.remove]
  rw [if_neg hlimit]
  have hg : s.inner.paths.get path = s.inner.get path := rfl
  rw [hg]
  cases hprev : s.inner.get path with
  | none => exact .inl (Alike.refl _)
  | some prev =>
    have hrun := dispatchEvent_hooked (X := X) path prev (some prev) none .deleted context
      (unbindPath path s) (fun depth m => afterUnbinding_shifted prev depth m _)
      (fun ctx' ctx s' hdepth => hooked_unbinding hl hp prev none ctx' ctx
        (by rw [hdepth]; show s.cascadeDepth+1 < 32; omega))
    rcases hrun with ⟨-,h⟩ | ⟨-,h⟩
    · exact .inl h
    · exact .inr ⟨prev,rfl,h⟩

end Effects

/-! The invariant. -/

section Coordination

variable (X : Platform) (pid : Str)

/-- A revision config as the hook finds it. -/
def StoredConfig (s : ConfigIndex) (path : Str) (cfg : RevisionConfig) : Prop :=
  isPrefixConfigPath path (revisionSubtree pid) = true ∧
    ∃ hash, s.inner.get path = some hash ∧ decodeConfigAt X s.world hash = some cfg

/-- The tracking config of a canonical prefix is there, enabled, and names the prefix. -/
def HasTracking (s : ConfigIndex) (canonical : Str) : Prop :=
  ∃ e, buildTrackingConfigEntity X canonical true = some e ∧
    s.inner.get (trackingConfigPath pid canonical) = some e.contentHash ∧
    s.world.get e.contentHash = some e

/-- Every stored config with auto-version has its tracking config. -/
def AutoVersionTracked (s : ConfigIndex) : Prop :=
  ∀ path cfg, StoredConfig X pid s path cfg → cfg.autoVersion = true →
    HasTracking X pid s (canonicalizePrefix cfg.barePrefix)

/-- What is bound at a config path is in the store. -/
def ConfigsHeld (s : ConfigIndex) : Prop :=
  ∀ path hash, isPrefixConfigPath path (revisionSubtree pid) = true →
    s.inner.get path = some hash → (s.world.get hash).isSome

structure ConfigsSettled (s : ConfigIndex) : Prop where
  tracked : AutoVersionTracked X pid s
  held : ConfigsHeld pid s
  idle : s.cascadeDepth = 0

/-- The prefixes that configs at other paths need tracked. -/
def neededBeside (s : ConfigIndex) (path : Str) : Set Str :=
  {c | ∃ p cfg, p ≠ path ∧ StoredConfig X pid s p cfg ∧ cfg.autoVersion = true ∧
    canonicalizePrefix cfg.barePrefix = c}

/-- The invariant in the middle of a step at one path: the configs elsewhere need no more
than `needed`, and all of it is tracked. -/
structure SoundBeside (path : Str) (needed : Set Str) (s : ConfigIndex) : Prop where
  within : neededBeside X pid s path ⊆ needed
  tracked : ∀ c ∈ needed, HasTracking X pid s c
  held : ConfigsHeld pid s
  idle : s.cascadeDepth = 0

variable {X pid} {s s' : ConfigIndex} {path : Str} {needed : Set Str}

theorem ConfigsSettled.soundBeside (h : ConfigsSettled X pid s) (path : Str) :
    SoundBeside X pid path (neededBeside X pid s path) s where
  within := le_rfl
  tracked := by
    rintro c ⟨p,cfg,-,hstored,hauto,rfl⟩
    exact h.tracked p cfg hstored hauto
  held := h.held
  idle := h.idle

theorem HasTracking.alike (h : HasTracking X pid s c) (ha : Alike s s') :
    HasTracking X pid s' c := by
  obtain ⟨m,rfl⟩ := ha
  exact h

theorem StoredConfig.of_alike (ha : Alike s s')
    (h : StoredConfig X pid s' p cfg) : StoredConfig X pid s p cfg := by
  obtain ⟨m,rfl⟩ := ha
  exact h

namespace SoundBeside

theorem alike (h : SoundBeside X pid path needed s) (ha : Alike s s') :
    SoundBeside X pid path needed s' := by
  obtain ⟨m,rfl⟩ := ha
  exact ⟨h.within,h.tracked,h.held,h.idle⟩

theorem settled (h : SoundBeside X pid path needed s)
    (hown : ∀ cfg, StoredConfig X pid s path cfg → cfg.autoVersion = true →
      HasTracking X pid s (canonicalizePrefix cfg.barePrefix)) : ConfigsSettled X pid s where
  tracked := by
    intro p cfg hstored hauto
    by_cases hp : p = path
    · subst hp
      exact hown cfg hstored hauto
    · exact h.tracked _ (h.within ⟨p,cfg,hp,hstored,hauto,rfl⟩)
  held := h.held
  idle := h.idle

end SoundBeside

/-! Each write against the invariant. -/

section Put

variable {entities : List Entity} (hfree : s.world.CollisionFree entities) {e : Entity}
  (he : e ∈ entities)

include hfree he

theorem decodeConfigAt_put {hash : Hash} (h : decodeConfigAt X s.world hash = some cfg) :
    decodeConfigAt X (s.world.put e) hash = some cfg := by
  unfold decodeConfigAt at h ⊢
  obtain ⟨entity,hget,hrest⟩ := Option.bind_eq_some_iff.mp h
  rw [hfree.get_put_eq he hget]
  exact hrest

theorem HasTracking.put (h : HasTracking X pid s c) : HasTracking X pid (putContent s e) c := by
  obtain ⟨tracking,hbuild,hbound,hheld⟩ := h
  exact ⟨tracking,hbuild,hbound,hfree.get_put_eq he hheld⟩

/-- A put stores no config that was not stored: every bound hash has its entity already. -/
theorem StoredConfig.of_put (hheld : ConfigsHeld pid s)
    (h : StoredConfig X pid (putContent s e) p cfg) : StoredConfig X pid s p cfg := by
  obtain ⟨hp,hash,hbound,hdecode⟩ := h
  obtain ⟨entity,hget⟩ := Option.isSome_iff_exists.mp (hheld p hash hp hbound)
  refine ⟨hp,hash,hbound,?_⟩
  have hput : (s.world.put e).get hash = s.world.get hash := by
    rw [hget,hfree.get_put_eq he hget]
  unfold decodeConfigAt at hdecode ⊢
  rw [← hput]
  exact hdecode

theorem SoundBeside.put (h : SoundBeside X pid path needed s) :
    SoundBeside X pid path needed (putContent s e) where
  within := by
    rintro c ⟨p,cfg,hne,hstored,hauto,rfl⟩
    exact h.within ⟨p,cfg,hne,hstored.of_put hfree he h.held,hauto,rfl⟩
  tracked := fun c hc => (h.tracked c hc).put hfree he
  held := by
    intro p hash hp hbound
    obtain ⟨entity,hget⟩ := Option.isSome_iff_exists.mp (h.held p hash hp hbound)
    have hput : (s.world.put e).get hash = some entity := hfree.get_put_eq he hget
    exact Option.isSome_iff_exists.mpr ⟨entity,hput⟩
  idle := h.idle

end Put

theorem get_bindPath (p : Str) (hash : Hash) (q : Str) : (bindPath p hash s).inner.get q =
      if q = p ∧ pathIsStorable p = true then some hash else s.inner.get q :=
  MemoryLocationIndex.get_set _ _ _ _

theorem get_unbindPath (p q : Str) :
    (unbindPath p s).inner.get q = if q = p then none else s.inner.get q := by
  show (s.inner.paths.erase p).get q = _
  rw [OrderedMap.get_erase]
  split_ifs <;> rfl

theorem tracking_ne_config (hp : isPrefixConfigPath p (revisionSubtree pid) = true) :
    trackingConfigPath pid c ≠ p := by
  rintro rfl
  rw [trackingConfigPath_not_config] at hp
  cases hp

/-- A change at one path that is not the tracking path of a prefix leaves it tracked. -/
theorem HasTracking.of_get (h : HasTracking X pid s c)
    (hget : s'.inner.get (trackingConfigPath pid c) = s.inner.get (trackingConfigPath pid c))
    (hworld : s'.world = s.world) : HasTracking X pid s' c := by
  obtain ⟨e,hbuild,hbound,hheld⟩ := h
  exact ⟨e,hbuild,by rw [hget]; exact hbound,by rw [hworld]; exact hheld⟩

namespace SoundBeside

theorem own (h : SoundBeside X pid path needed s)
    (hp : isPrefixConfigPath path (revisionSubtree pid) = true) (hworld : s'.world = s.world)
    (hdepth : s'.cascadeDepth = s.cascadeDepth)
    (hget : ∀ q, q ≠ path → s'.inner.get q = s.inner.get q)
    (hbound : ∀ hash, s'.inner.get path = some hash → (s.world.get hash).isSome) :
    SoundBeside X pid path needed s' where
  within := by
    rintro c ⟨p,cfg,hne,⟨hcfg,hash,hg,hdecode⟩,hauto,rfl⟩
    rw [hget p hne] at hg
    rw [hworld] at hdecode
    exact h.within ⟨p,cfg,hne,⟨hcfg,hash,hg,hdecode⟩,hauto,rfl⟩
  tracked := by
    intro c hc
    exact (h.tracked c hc).of_get (hget _ (tracking_ne_config hp)) hworld
  held := by
    intro p hash hcfg hg
    rw [hworld]
    by_cases hne : p = path
    · subst hne
      exact hbound hash hg
    · rw [hget p hne] at hg
      exact h.held p hash hcfg hg
  idle := by rw [hdepth]; exact h.idle

/-- A change at a tracking path that keeps the needed prefixes tracked. -/
theorem atTracking (h : SoundBeside X pid path needed s) {t : Str} (hworld : s'.world = s.world)
    (hdepth : s'.cascadeDepth = s.cascadeDepth)
    (hget : ∀ q, q ≠ trackingConfigPath pid t → s'.inner.get q = s.inner.get q)
    (htracked : ∀ c ∈ needed, trackingConfigPath pid c = trackingConfigPath pid t →
      HasTracking X pid s' c) : SoundBeside X pid path needed s' where
  within := by
    rintro c ⟨p,cfg,hne,⟨hcfg,hash,hg,hdecode⟩,hauto,rfl⟩
    rw [hget p (tracking_ne_config hcfg).symm] at hg
    rw [hworld] at hdecode
    exact h.within ⟨p,cfg,hne,⟨hcfg,hash,hg,hdecode⟩,hauto,rfl⟩
  tracked := by
    intro c hc
    by_cases ht : trackingConfigPath pid c = trackingConfigPath pid t
    · exact htracked c hc ht
    · exact (h.tracked c hc).of_get (hget _ ht) hworld
  held := by
    intro p hash hcfg hg
    rw [hget p (tracking_ne_config hcfg).symm] at hg
    rw [hworld]
    exact h.held p hash hcfg hg
  idle := by rw [hdepth]; exact h.idle

end SoundBeside

/-! The tracking config of one prefix is rewritten. -/

variable (X) in
def trackingEntities (canonical : Str) (enabled : Bool) : List Entity :=
  (buildTrackingConfigEntity X canonical enabled).toList

variable (pid) in
/-- Rewriting the tracking config of a prefix takes nothing from the prefixes needed: a
prefix with the same entry is the same prefix, and it stays enabled. -/
def Spares (needed : Set Str) (canonical : Str) (enabled : Bool) : Prop :=
  ∀ c ∈ needed, trackingConfigPath pid c = trackingConfigPath pid canonical →
    enabled = true ∧ c = canonical

section Rewrite

variable {canonical : Str} {enabled : Bool} {entities : List Entity}
  (hfree : s.world.CollisionFree entities)
  (hsub : ∀ e ∈ trackingEntities X canonical enabled, e ∈ entities)

include hfree hsub

theorem StoredConfig.of_withTracking (hheld : ConfigsHeld pid s)
    (h : StoredConfig X pid (withTracking X pid canonical enabled s) p cfg) :
    StoredConfig X pid s p cfg := by
  unfold withTracking at h
  cases hb : buildTrackingConfigEntity X canonical enabled with
  | none =>
    rw [hb] at h
    exact h
  | some e =>
    rw [hb] at h
    have he : e ∈ entities := hsub e (by simp [trackingEntities,hb])
    obtain ⟨hp,hash,hbound,hdecode⟩ := h
    rw [get_bindPath,if_neg (fun hq => tracking_ne_config hp hq.1.symm)] at hbound
    exact StoredConfig.of_put hfree he hheld ⟨hp,hash,hbound,hdecode⟩

theorem SoundBeside.withTracking (h : SoundBeside X pid path needed s)
    (hspares : Spares pid needed canonical enabled) :
    SoundBeside X pid path needed (withTracking X pid canonical enabled s) := by
  unfold EntityCore.withTracking
  cases hb : buildTrackingConfigEntity X canonical enabled with
  | none => exact h
  | some e =>
    have he : e ∈ entities := hsub e (by simp [trackingEntities,hb])
    have hput := h.put hfree he
    refine hput.atTracking (t := canonical) rfl rfl ?_ ?_
    · intro q hq
      rw [get_bindPath,if_neg (fun hq' => hq hq'.1)]
    · intro c hc ht
      obtain ⟨rfl,rfl⟩ := hspares c hc ht
      by_cases hs : pathIsStorable (trackingConfigPath pid c) = true
      · refine ⟨e,hb,?_,?_⟩
        · rw [get_bindPath,if_pos ⟨rfl,hs⟩]
        · show (s.world.put e).get e.contentHash = some e
          rw [ContentStore.get_put,if_pos rfl]
      · refine (hput.tracked c hc).of_get ?_ rfl
        rw [get_bindPath,if_neg (fun hq => hs hq.2)]

end Rewrite

theorem tracked_withTracking (hX : X.FormatAllocated)
    (hs : pathIsStorable (trackingConfigPath pid canonical) = true) (s : ConfigIndex) :
    HasTracking X pid (withTracking X pid canonical true s) canonical := by
  have hnew : ∃ e, Entity.new X typeTrackingConfig (toEcf (.map [(.text "enabled".toList,.bool true),
      (.text "prefix".toList,.text (trackingPrefixField canonical))])) = .ok e :=
    Entity.new_ok hX (by decide +kernel) (by decide +kernel) (toEcf_map_ne_nil _)
  obtain ⟨e,he⟩ := hnew
  have hb : buildTrackingConfigEntity X canonical true = some e := by
    unfold buildTrackingConfigEntity
    rw [he]
    rfl
  unfold withTracking
  rw [hb]
  refine ⟨e,hb,?_,?_⟩
  · rw [get_bindPath,if_pos ⟨rfl,hs⟩]
  · show (s.world.put e).get e.contentHash = some e
    rw [ContentStore.get_put,if_pos rfl]

theorem SoundBeside.unbindTracking (h : SoundBeside X pid path needed s)
    (hspares : Spares pid needed canonical false) :
    SoundBeside X pid path needed (unbindPath (trackingConfigPath pid canonical) s) := by
  refine h.atTracking (t := canonical) rfl rfl ?_ ?_
  · intro q hq
    rw [get_unbindPath,if_neg hq]
  · intro c hc ht
    exact absurd (hspares c hc ht).1 (by simp)

theorem StoredConfig.of_unbindTracking
    (h : StoredConfig X pid (unbindPath (trackingConfigPath pid canonical) s) p cfg) :
    StoredConfig X pid s p cfg := by
  obtain ⟨hp,hash,hbound,hdecode⟩ := h
  rw [get_unbindPath,if_neg (fun hq => tracking_ne_config hp hq.symm)] at hbound
  exact ⟨hp,hash,hbound,hdecode⟩

/-- The operation's own removal of a tracking config; the hook passes it over. -/
theorem SoundBeside.removeTracking (h : SoundBeside X pid path needed s)
    (hspares : Spares pid needed canonical false) (context : Option ExecutionContext) :
    let s' := (removeImpl (coordinated X pid) (trackingConfigPath pid canonical) context s).state
    SoundBeside X pid path needed s' ∧
      ∀ p cfg, StoredConfig X pid s' p cfg → StoredConfig X pid s p cfg := by
  have hpass := removeImpl_passed (coordinated_passes (X := X) (@trackingConfigPath_not_config
    pid canonical)) context s
  dsimp only
  rcases hpass with ha | ha
  · exact ⟨h.alike ha,fun p cfg hstored => hstored.of_alike ha⟩
  · exact ⟨(h.unbindTracking hspares).alike ha,
      fun p cfg hstored => (hstored.of_alike ha).of_unbindTracking⟩

/-! A config is bound or unbound. -/

section OwnPath

variable (hl : isPeerId pid = true)
  (hp : isPrefixConfigPath path (revisionSubtree pid) = true)
  (h : SoundBeside X pid path needed s) {hash : Hash}

include hl hp h

theorem SoundBeside.bindOwn (hheld : (s.world.get hash).isSome) :
    SoundBeside X pid path needed (bindPath path hash s) := by
  have hs := configPath_storable hl hp
  refine h.own hp rfl rfl ?_ ?_
  · intro q hq
    rw [get_bindPath,if_neg (fun hq' => hq hq'.1)]
  · intro k hk
    rw [get_bindPath,if_pos ⟨rfl,hs⟩] at hk
    rw [← Option.some.inj hk]
    exact hheld

omit h in
theorem decode_of_bound (hstored : StoredConfig X pid (bindPath path hash s) path cfg) :
    decodeConfigAt X s.world hash = some cfg := by
  obtain ⟨-,k,hbound,hdecode⟩ := hstored
  rw [get_bindPath,if_pos ⟨rfl,configPath_storable hl hp⟩] at hbound
  rw [Option.some.inj hbound]
  exact hdecode

/-- The hook's write goes with the config just bound. -/
theorem SoundBeside.afterBinding (hheld : (s.world.get hash).isSome)
    (hfree : ∀ cfg, decodeConfigAt X s.world hash = some cfg → s.world.CollisionFree
      (trackingEntities X (canonicalizePrefix cfg.barePrefix) cfg.autoVersion))
    (hspares : ∀ cfg, decodeConfigAt X s.world hash = some cfg → validateRevisionConfig cfg = none →
      Spares pid needed (canonicalizePrefix cfg.barePrefix) cfg.autoVersion) :
    SoundBeside X pid path needed (afterBinding X pid hash (bindPath path hash s)) ∧
      ∀ cfg, StoredConfig X pid (EntityCore.afterBinding X pid hash (bindPath path hash s)) path
        cfg → decodeConfigAt X s.world hash = some cfg := by
  have hbound := h.bindOwn hl hp hheld
  have hworld : (bindPath path hash s).world = s.world := rfl
  unfold EntityCore.afterBinding
  rw [hworld]
  cases hdecode : decodeConfigAt X s.world hash with
  | none =>
    refine ⟨hbound,fun cfg hstored => ?_⟩
    rw [← hdecode]
    exact decode_of_bound hl hp hstored
  | some cfg =>
    dsimp only
    cases hvalid : validateRevisionConfig cfg with
    | some violation =>
      refine ⟨hbound,fun cfg' hstored => ?_⟩
      rw [← hdecode]
      exact decode_of_bound hl hp hstored
    | none =>
      have hf : (bindPath path hash s).world.CollisionFree _ := hfree cfg hdecode
      refine ⟨hbound.withTracking hf (fun _ he => he) (hspares cfg hdecode hvalid),
        fun cfg' hstored => ?_⟩
      rw [← hdecode]
      exact decode_of_bound hl hp (hstored.of_withTracking hf (fun _ he => he) hbound.held)

omit hl in
theorem SoundBeside.unbindOwn : SoundBeside X pid path needed (unbindPath path s) := by
  refine h.own hp rfl rfl ?_ ?_
  · intro q hq
    rw [get_unbindPath,if_neg hq]
  · intro k hk
    rw [get_unbindPath,if_pos rfl] at hk
    cases hk

omit h hl hp in
theorem not_stored_unbound : ¬StoredConfig X pid (unbindPath path s) path cfg := by
  rintro ⟨-,k,hbound,-⟩
  rw [get_unbindPath,if_pos rfl] at hbound
  cases hbound

omit hl in
theorem SoundBeside.afterUnbinding
    (hfree : ∀ cfg, decodeConfigAt X s.world hash = some cfg → s.world.CollisionFree
      (trackingEntities X (canonicalizePrefix cfg.barePrefix) false))
    (hspares : ∀ cfg, decodeConfigAt X s.world hash = some cfg →
      Spares pid needed (canonicalizePrefix cfg.barePrefix) false) :
    SoundBeside X pid path needed (afterUnbinding X pid hash (unbindPath path s)) ∧
      ∀ cfg, ¬StoredConfig X pid (EntityCore.afterUnbinding X pid hash (unbindPath path s)) path
        cfg := by
  have hunbound := h.unbindOwn hp
  have hworld : (unbindPath path s).world = s.world := rfl
  unfold EntityCore.afterUnbinding
  rw [hworld]
  cases hdecode : decodeConfigAt X s.world hash with
  | none => exact ⟨hunbound,fun cfg => not_stored_unbound⟩
  | some cfg =>
    have hf : (unbindPath path s).world.CollisionFree _ := hfree cfg hdecode
    refine ⟨hunbound.withTracking hf (fun _ he => he) (hspares cfg hdecode),fun cfg' hstored => ?_⟩
    exact not_stored_unbound (hstored.of_withTracking hf (fun _ he => he) hunbound.held)

theorem SoundBeside.setConfig (hX : X.FormatAllocated) (hheld : (s.world.get hash).isSome)
    (context : Option ExecutionContext)
    (hfree : ∀ cfg, decodeConfigAt X s.world hash = some cfg → s.world.CollisionFree
      (trackingEntities X (canonicalizePrefix cfg.barePrefix) cfg.autoVersion))
    (hspares : ∀ cfg, decodeConfigAt X s.world hash = some cfg → validateRevisionConfig cfg = none →
      s.inner.get path ≠ some hash →
      Spares pid needed (canonicalizePrefix cfg.barePrefix) cfg.autoVersion)
    (hidle : s.inner.get path = some hash → ∀ cfg, decodeConfigAt X s.world hash = some cfg →
      cfg.autoVersion = true → HasTracking X pid s (canonicalizePrefix cfg.barePrefix))
    (htrack : ∀ cfg, decodeConfigAt X s.world hash = some cfg → cfg.autoVersion = true →
      s.inner.get path ≠ some hash → canonicalizePrefix cfg.barePrefix ∈ needed ∨
        (¬OverLimit s (context.getD {}) ∧ validateRevisionConfig cfg = none ∧
          pathIsStorable (trackingConfigPath pid (canonicalizePrefix cfg.barePrefix)) = true)) :
    let s' := (setImpl (coordinated X pid) path hash context s).state
    SoundBeside X pid path needed s' ∧ ∀ cfg, StoredConfig X pid s' path cfg →
      decodeConfigAt X s.world hash = some cfg ∧
        (cfg.autoVersion = true → HasTracking X pid s' (canonicalizePrefix cfg.barePrefix)) := by
  have hcases := setImpl_config (X := X) hl hp hash context h.idle
  dsimp only at hcases ⊢
  generalize (setImpl (coordinated X pid) path hash context s).state = s' at hcases ⊢
  rcases hcases with ⟨hg,ha⟩ | ⟨hg,hover,ha⟩ | ⟨hg,hunder,ha⟩
  · refine ⟨h.alike ha,fun cfg hstored => ?_⟩
    obtain ⟨-,k,hbound,hdecode⟩ := hstored.of_alike ha
    rw [hg] at hbound
    have hk : decodeConfigAt X s.world hash = some cfg := by
      rw [Option.some.inj hbound]
      exact hdecode
    exact ⟨hk,fun hauto => (hidle hg cfg hk hauto).alike ha⟩
  · have hbound := h.bindOwn hl hp hheld
    refine ⟨hbound.alike ha,fun cfg hstored => ?_⟩
    have hk := decode_of_bound hl hp (hstored.of_alike ha)
    refine ⟨hk,fun hauto => ?_⟩
    rcases htrack cfg hk hauto hg with hneeded | ⟨hunder,-,-⟩
    · exact (hbound.tracked _ hneeded).alike ha
    · exact absurd hover hunder
  · obtain ⟨hsound,hown⟩ := h.afterBinding hl hp hheld hfree
      (fun cfg hk hvalid => hspares cfg hk hvalid hg)
    refine ⟨hsound.alike ha,fun cfg hstored => ?_⟩
    have hk := hown cfg (hstored.of_alike ha)
    refine ⟨hk,fun hauto => ?_⟩
    rcases htrack cfg hk hauto hg with hneeded | ⟨-,hvalid,hstorable⟩
    · exact (hsound.tracked _ hneeded).alike ha
    · have hafter : EntityCore.afterBinding X pid hash (bindPath path hash s) =
          EntityCore.withTracking X pid (canonicalizePrefix cfg.barePrefix) true
            (bindPath path hash s) := by
        have hworld : (bindPath path hash s).world = s.world := rfl
        unfold EntityCore.afterBinding
        rw [hworld,hk]
        dsimp only
        rw [hvalid,hauto]
      rw [hafter] at ha
      exact (tracked_withTracking hX hstorable _).alike ha

theorem SoundBeside.removeConfig (context : Option ExecutionContext)
    (hfree : ∀ cfg, StoredConfig X pid s path cfg → s.world.CollisionFree
      (trackingEntities X (canonicalizePrefix cfg.barePrefix) false))
    (hspares : ∀ cfg, StoredConfig X pid s path cfg →
      Spares pid needed (canonicalizePrefix cfg.barePrefix) false) :
    let s' := (removeImpl (coordinated X pid) path context s).state
    SoundBeside X pid path needed s' ∧ ∀ cfg, ¬StoredConfig X pid s' path cfg := by
  have hcases := removeImpl_config (X := X) hl hp context h.idle
  dsimp only at hcases ⊢
  generalize (removeImpl (coordinated X pid) path context s).state = s' at hcases ⊢
  rcases hcases with ha | ⟨k,hbound,ha⟩
  · exact ⟨(h.unbindOwn hp).alike ha,fun cfg hstored => not_stored_unbound (hstored.of_alike ha)⟩
  · obtain ⟨hsound,hnone⟩ := h.afterUnbinding hp
      (fun cfg hk => hfree cfg ⟨hp,k,hbound,hk⟩) (fun cfg hk => hspares cfg ⟨hp,k,hbound,hk⟩)
    exact ⟨hsound.alike ha,fun cfg hstored => hnone cfg (hstored.of_alike ha)⟩

end OwnPath

/-! Steps. -/

variable (X pid) in
/-- A config bound at a path leaves the configs elsewhere their tracking, and its own
tracking config has a place to go. -/
def SafeBinding (s : ConfigIndex) (path : Str) (cfg : RevisionConfig) : Prop :=
  Spares pid (neededBeside X pid s path) (canonicalizePrefix cfg.barePrefix) cfg.autoVersion ∧
    (cfg.autoVersion = true →
      pathIsStorable (trackingConfigPath pid (canonicalizePrefix cfg.barePrefix)) = true)

variable (X pid) in
def SafeUnbinding (s : ConfigIndex) (path : Str) (cfg : RevisionConfig) : Prop :=
  Spares pid (neededBeside X pid s path) (canonicalizePrefix cfg.barePrefix) false ∧
    s.world.CollisionFree (trackingEntities X (canonicalizePrefix cfg.barePrefix) false)

variable (X pid) in
/-- What a step may find and do: no other config contends for the tracking entry it
rewrites, auto-version is asked for by valid configs with storable tracking paths and
within the chain limit, and content hashes do not collide. -/
def ConfigStep.Safe (s : ConfigIndex) : ConfigStep → Prop
  | .set params ctx => ∀ data cfg entity, params.configData = some data →
      decodeRevisionConfig X data = some cfg → validateRevisionConfig cfg = none →
      Entity.new X typeRevisionConfig data = .ok entity →
      let path := revConfigPath pid (prefixHash X (resolvePrefix cfg.barePrefix pid))
      s.world.CollisionFree (entity::trackingEntities X (canonicalizePrefix cfg.barePrefix)
        cfg.autoVersion) ∧
      (s.inner.get path ≠ some entity.contentHash → SafeBinding X pid s path cfg ∧
        (cfg.autoVersion = true → wasAutoVersion X s.world (s.inner.get path) = true →
          ¬OverLimit s ctx))
  | .delete params _ => ∀ hash entity cfg,
      let path := revConfigPath pid (prefixHash X (resolvePrefix params.name pid))
      s.inner.get path = some hash → s.world.get hash = some entity →
      decodeRevisionConfig X entity.data = some cfg → SafeUnbinding X pid s path cfg
  | .write path entity ctx => isPrefixConfigPath path (revisionSubtree pid) = true ∧
      s.world.CollisionFree [entity] ∧
      ∀ cfg, entity.entityType = typeRevisionConfig → decodeRevisionConfig X entity.data = some cfg →
        s.world.CollisionFree (entity::trackingEntities X (canonicalizePrefix cfg.barePrefix)
          cfg.autoVersion) ∧
        (s.inner.get path ≠ some entity.contentHash →
          (validateRevisionConfig cfg = none → SafeBinding X pid s path cfg) ∧
          (cfg.autoVersion = true → validateRevisionConfig cfg = none ∧ ¬OverLimit s (ctx.getD {})))
  | .remove path _ => isPrefixConfigPath path (revisionSubtree pid) = true ∧
      ∀ cfg, StoredConfig X pid s path cfg → SafeUnbinding X pid s path cfg

theorem decodeConfigAt_self {store : ContentStore} {e : Entity} :
    decodeConfigAt X (store.put e) e.contentHash = some cfg ↔
      e.entityType = typeRevisionConfig ∧ decodeRevisionConfig X e.data = some cfg := by
  have hget : (store.put e).get e.contentHash = some e := by
    rw [ContentStore.get_put,if_pos rfl]
  unfold decodeConfigAt
  rw [hget]
  show (if e.entityType ≠ typeRevisionConfig then none else decodeRevisionConfig X e.data) =
    some cfg ↔ _
  by_cases ht : e.entityType = typeRevisionConfig
  · simp [ht]
  · simp [ht]

theorem ContentStore.CollisionFree.subset {store : ContentStore} {l l' : List Entity}
    (h : store.CollisionFree l) (hsub : ∀ e ∈ l', e ∈ l) : store.CollisionFree l' := by
  intro e he e' he' hhash
  rcases he' with he' | he'
  · exact h e (hsub e he) e' (.inl (hsub e' he')) hhash
  · exact h e (hsub e he) e' (.inr he') hhash

section Steps

variable (hX : X.FormatAllocated) (hl : isPeerId pid = true)
  (h : ConfigsSettled X pid s)

include hX hl h

omit hX hl in
/-- What is bound already was tracked already. -/
theorem ConfigsSettled.tracked_put {entities : List Entity}
    (hfree : s.world.CollisionFree entities) {e : Entity} (he : e ∈ entities)
    (hp : isPrefixConfigPath path (revisionSubtree pid) = true) {hash : Hash}
    (hg : s.inner.get path = some hash)
    (hk : decodeConfigAt X (s.world.put e) hash = some cfg) (hauto : cfg.autoVersion = true) :
    HasTracking X pid (putContent s e) (canonicalizePrefix cfg.barePrefix) := by
  have hstored : StoredConfig X pid (putContent s e) path cfg := ⟨hp,hash,hg,hk⟩
  exact (h.tracked path cfg (hstored.of_put hfree he h.held) hauto).put hfree he

theorem ConfigStep.settled_write {entity : Entity} {context : Option ExecutionContext}
    (hsafe : (ConfigStep.write path entity context).Safe X pid s) :
    ConfigsSettled X pid ((ConfigStep.write path entity context).run X pid s) := by
  obtain ⟨hp,hfree,hconfig⟩ := hsafe
  have hmem : entity ∈ [entity] := mem_singleton_self entity
  have hput := (h.soundBeside path).put hfree hmem
  have hself : (s.world.put entity).get entity.contentHash = some entity := by
    rw [ContentStore.get_put,if_pos rfl]
  have hset := hput.setConfig hl hp hX (Option.isSome_iff_exists.mpr ⟨entity,hself⟩) context
    (fun cfg hk => by
      obtain ⟨ht,hd⟩ := decodeConfigAt_self.mp hk
      exact ((hconfig cfg ht hd).1.put mem_cons_self).subset fun e he =>
        mem_cons_of_mem _ he)
    (fun cfg hk hvalid hg => by
      obtain ⟨ht,hd⟩ := decodeConfigAt_self.mp hk
      exact (((hconfig cfg ht hd).2 hg).1 hvalid).1)
    (fun hg cfg hk hauto => h.tracked_put hfree hmem hp hg hk hauto)
    (fun cfg hk hauto hg => by
      obtain ⟨ht,hd⟩ := decodeConfigAt_self.mp hk
      obtain ⟨hbinding,hhook⟩ := (hconfig cfg ht hd).2 hg
      obtain ⟨hvalid,hunder⟩ := hhook hauto
      exact .inr ⟨hunder,hvalid,(hbinding hvalid).2 hauto⟩)
  exact hset.1.settled fun cfg hstored => (hset.2 cfg hstored).2

omit hX in
theorem ConfigStep.settled_remove {context : Option ExecutionContext}
    (hsafe : (ConfigStep.remove path context).Safe X pid s) :
    ConfigsSettled X pid ((ConfigStep.remove path context).run X pid s) := by
  obtain ⟨hp,hconfig⟩ := hsafe
  have hrun := (h.soundBeside path).removeConfig hl hp context
    (fun cfg hstored => (hconfig cfg hstored).2) (fun cfg hstored => (hconfig cfg hstored).1)
  exact hrun.1.settled fun cfg hstored => absurd hstored (hrun.2 cfg)

omit hX in
theorem ConfigStep.settled_delete {params : ConfigParams} {ctx : ExecutionContext}
    (hsafe : (ConfigStep.delete params ctx).Safe X pid s) :
    ConfigsSettled X pid ((ConfigStep.delete params ctx).run X pid s) := by
  show ConfigsSettled X pid (handleConfigDelete X pid params ctx s).2
  have hp := @revConfigPath_config pid X (resolvePrefix params.name pid)
  unfold ConfigStep.Safe at hsafe
  unfold handleConfigDelete
  dsimp only at hsafe ⊢
  generalize revConfigPath pid (prefixHash X (resolvePrefix params.name pid)) = path at hp hsafe ⊢
  cases hg : s.inner.get path with
  | none => exact h
  | some hash =>
    dsimp only
    split
    · exact h
    · have hunbind : ∀ cfg, StoredConfig X pid s path cfg → SafeUnbinding X pid s path cfg := by
        rintro cfg ⟨-,k,hk,hdecode⟩
        unfold decodeConfigAt at hdecode
        obtain ⟨entity,hentity,hrest⟩ := Option.bind_eq_some_iff.mp hdecode
        split_ifs at hrest
        exact hsafe k entity cfg hk hentity hrest
      have hrun := (h.soundBeside path).removeConfig hl hp (some ctx)
        (fun cfg hstored => (hunbind cfg hstored).2) (fun cfg hstored => (hunbind cfg hstored).1)
      dsimp only at hrun
      split
      · -- the operation takes the tracking config of the removed config out as well
        rename_i cfg hcfg
        obtain ⟨hprev,-⟩ := Option.filter_eq_some_iff.mp hcfg
        obtain ⟨entity,hentity,hdecode⟩ := Option.bind_eq_some_iff.mp hprev
        have hspares := (hsafe hash entity cfg hg hentity hdecode).1
        have htracking := hrun.1.removeTracking hspares (some ctx)
        dsimp only at htracking
        exact htracking.1.settled fun cfg' hstored =>
          absurd (htracking.2 path cfg' hstored) (hrun.2 cfg')
      · exact hrun.1.settled fun cfg hstored => absurd hstored (hrun.2 cfg)

omit h in
/-- The last part of a set, on a state that has the config in the store. -/
theorem settled_setConfigBinding {hash : Hash}
    (hp : isPrefixConfigPath path (revisionSubtree pid) = true)
    (hsound : SoundBeside X pid path needed s') (hk : decodeConfigAt X s'.world hash = some cfg)
    (hheld : (s'.world.get hash).isSome) (previousHash : Option Hash) (was : Bool)
    (action : Option String) (ctx : ExecutionContext) (hfree : s'.world.CollisionFree
      (trackingEntities X (canonicalizePrefix cfg.barePrefix) cfg.autoVersion))
    (hvalid : validateRevisionConfig cfg = none) (hspares : s'.inner.get path ≠ some hash →
      Spares pid needed (canonicalizePrefix cfg.barePrefix) cfg.autoVersion)
    (hidle : s'.inner.get path = some hash → cfg.autoVersion = true →
      HasTracking X pid s' (canonicalizePrefix cfg.barePrefix))
    (hwas : s'.inner.get path = some hash → was = true → cfg.autoVersion = true)
    (htrack : cfg.autoVersion = true → s'.inner.get path ≠ some hash →
      canonicalizePrefix cfg.barePrefix ∈ needed ∨ (¬OverLimit s' ctx ∧
        pathIsStorable (trackingConfigPath pid (canonicalizePrefix cfg.barePrefix)) = true)) :
    ConfigsSettled X pid (setConfigBinding X pid cfg hash path previousHash was action ctx s').2 := by
  have hset := hsound.setConfig hl hp hX hheld (some ctx)
    (fun cfg' hk' => by rw [hk] at hk'; cases hk'; exact hfree)
    (fun cfg' hk' _ hg => by rw [hk] at hk'; cases hk'; exact hspares hg)
    (fun hg cfg' hk' hauto => by rw [hk] at hk'; cases hk'; exact hidle hg hauto)
    (fun cfg' hk' hauto hg => by
      rw [hk] at hk'
      cases hk'
      rcases htrack hauto hg with hneeded | ⟨hunder,hstorable⟩
      · exact .inl hneeded
      · exact .inr ⟨hunder,hvalid,hstorable⟩)
  dsimp only at hset
  have hsettled := hset.1.settled fun cfg' hstored => (hset.2 cfg' hstored).2
  unfold setConfigBinding
  dsimp only
  split_ifs with hcommitted hremove
  · exact hsettled
  · -- auto-version ends here
    simp only [Bool.and_eq_true,Bool.not_eq_true'] at hremove
    have hne : s'.inner.get path ≠ some hash := by
      intro hg
      have hauto := hwas hg hremove.2
      rw [hremove.1] at hauto
      cases hauto
    have hs := hspares hne
    rw [hremove.1] at hs
    have htracking := hset.1.removeTracking hs (some ctx)
    dsimp only at htracking
    refine htracking.1.settled fun cfg' hstored hauto => ?_
    have hk' := (hset.2 cfg' (htracking.2 path cfg' hstored)).1
    rw [hk] at hk'
    cases hk'
    rw [hremove.1] at hauto
    cases hauto
  · exact hsettled

omit hX h in
theorem enable_alike {tracking : Entity}
    (hb : buildTrackingConfigEntity X canonical true = some tracking) (ctx : ExecutionContext)
    (hd : s.cascadeDepth = 0) :
    Alike (withTracking X pid canonical true s) (setImpl (coordinated X pid)
      (trackingConfigPath pid canonical) tracking.contentHash (some ctx)
      (putContent s tracking)).state := by
  unfold withTracking
  rw [hb]
  refine setImpl_passed (coordinated_passes (trackingConfigPath_not_config canonical))
    (trackingConfigPath_valid hl canonical) _ _ ?_
  show s.cascadeDepth < 32
  omega

omit hX hl h in
theorem SoundBeside.insert (hsound : SoundBeside X pid path needed s)
    (hc : HasTracking X pid s c) : SoundBeside X pid path (insert c needed) s where
  within := hsound.within.trans (Set.subset_insert c needed)
  tracked := by
    rintro d (rfl | hd)
    · exact hc
    · exact hsound.tracked d hd
  held := hsound.held
  idle := hsound.idle

omit hX hl h in
theorem Spares.insert (hs : Spares pid needed c true) : Spares pid (insert c needed) c true := by
  rintro d (rfl | hd) ht
  · exact ⟨rfl,rfl⟩
  · exact hs d hd ht

omit hX hl in
/-- Where the config to set is bound already, what was there asks for the same. -/
theorem ConfigsSettled.was_idle {entity : Entity} {entities : List Entity}
    (hfree : s.world.CollisionFree entities) (he : entity ∈ entities)
    (hp : isPrefixConfigPath path (revisionSubtree pid) = true)
    (hdecode : decodeRevisionConfig X entity.data = some cfg)
    (hg : s.inner.get path = some entity.contentHash) :
    wasAutoVersion X s.world (s.inner.get path) = cfg.autoVersion := by
  obtain ⟨e,hget⟩ := Option.isSome_iff_exists.mp (h.held path _ hp hg)
  have heq : e = entity := hfree entity he e (.inr hget) (ContentStore.contentHash_of_get hget)
  subst heq
  simp [wasAutoVersion,hg,hget,hdecode]

omit hX hl h in
/-- A config that did not ask for auto-version leaves nothing to track at its path. -/
theorem not_auto_of_not_was (hwas : wasAutoVersion X s.world (s.inner.get path) = false)
    (hstored : StoredConfig X pid s path cfg) : cfg.autoVersion = false := by
  obtain ⟨-,hash,hg,hdecode⟩ := hstored
  unfold decodeConfigAt at hdecode
  obtain ⟨e,hget,hrest⟩ := Option.bind_eq_some_iff.mp hdecode
  split_ifs at hrest
  simpa [wasAutoVersion,hg,hget,hrest] using hwas

/-- Auto-version begins: the tracking config goes in first, so the config may follow
whatever the chain counters say. -/
theorem ConfigsSettled.begin {entity tracking : Entity}
    (hp : isPrefixConfigPath path (revisionSubtree pid) = true) (hauto : cfg.autoVersion = true)
    (hvalid : validateRevisionConfig cfg = none)
    (hb : buildTrackingConfigEntity X (canonicalizePrefix cfg.barePrefix) true = some tracking)
    (hfree : s.world.CollisionFree
      (entity::trackingEntities X (canonicalizePrefix cfg.barePrefix) true))
    (hdecode : decodeConfigAt X (putContent s entity).world entity.contentHash = some cfg)
    (hbinding : SafeBinding X pid s path cfg)
    (hwas : wasAutoVersion X s.world (s.inner.get path) = false) (previousHash : Option Hash)
    (action : Option String) (ctx : ExecutionContext) : let enabled := (setImpl (coordinated X pid)
      (trackingConfigPath pid (canonicalizePrefix cfg.barePrefix)) tracking.contentHash (some ctx)
      (putContent (putContent s entity) tracking)).state
    ConfigsSettled X pid enabled ∧ ConfigsSettled X pid (setConfigBinding X pid cfg
      entity.contentHash path previousHash false action ctx enabled).2 := by
  obtain ⟨hspares,hstorable⟩ := hbinding
  rw [hauto] at hspares
  have hmem : entity ∈ entity::trackingEntities X (canonicalizePrefix cfg.barePrefix) true :=
    mem_cons_self
  have hput := (h.soundBeside path).put hfree hmem
  have hfree' : (putContent s entity).world.CollisionFree _ := hfree.put hmem
  have hsub : ∀ e ∈ trackingEntities X (canonicalizePrefix cfg.barePrefix) true,
      e ∈ entity::trackingEntities X (canonicalizePrefix cfg.barePrefix) true :=
    fun e he => mem_cons_of_mem _ he
  have ha := enable_alike hl hb ctx hput.idle
  have hsound := (hput.withTracking hfree' hsub hspares).alike ha
  have hneeded := hsound.insert ((tracked_withTracking hX (hstorable hauto) _).alike ha)
  have hmemTracking : tracking ∈ entity::trackingEntities X (canonicalizePrefix cfg.barePrefix)
    true := hsub tracking (by simp [trackingEntities,hb])
  -- the index keeps everything but its tracking path, the store everything
  have hworld : (setImpl (coordinated X pid) (trackingConfigPath pid
      (canonicalizePrefix cfg.barePrefix)) tracking.contentHash (some ctx)
      (putContent (putContent s entity) tracking)).state.world = (s.world.put entity).put tracking := by
    obtain ⟨m,hm⟩ := ha
    rw [hm]
    unfold withTracking
    rw [hb]
    rfl
  dsimp only
  generalize (setImpl (coordinated X pid) (trackingConfigPath pid (canonicalizePrefix
    cfg.barePrefix)) tracking.contentHash (some ctx) (putContent (putContent s entity)
      tracking)).state = enabled at ha hsound hneeded hworld ⊢
  constructor
  · refine hsound.settled fun cfg' hstored hauto' => ?_
    have hbefore := (hstored.of_alike ha).of_withTracking hfree' hsub hput.held
    have hnot := not_auto_of_not_was hwas (hbefore.of_put hfree hmem h.held)
    rw [hnot] at hauto'
    cases hauto'
  · have hk : decodeConfigAt X enabled.world entity.contentHash = some cfg := by
      rw [hworld]
      exact decodeConfigAt_put (s := putContent s entity) hfree' hmemTracking hdecode
    have hheld : (enabled.world.get entity.contentHash).isSome := by
      unfold decodeConfigAt at hk
      obtain ⟨e,hget,-⟩ := Option.bind_eq_some_iff.mp hk
      exact Option.isSome_iff_exists.mpr ⟨e,hget⟩
    refine settled_setConfigBinding hX hl hp hneeded hk hheld _ _ _ _ ?_ hvalid (fun _ => ?_)
      (fun _ _ => hneeded.tracked _ (Set.mem_insert _ _)) (fun _ hw => by cases hw)
      (fun _ _ => .inl (Set.mem_insert _ _))
    · rw [hworld,hauto]
      exact (hfree'.put hmemTracking).subset hsub
    · rw [hauto]
      exact hspares.insert

theorem ConfigStep.settled_set {params : ConfigParams} {ctx : ExecutionContext}
    (hsafe : (ConfigStep.set params ctx).Safe X pid s) :
    ConfigsSettled X pid ((ConfigStep.set params ctx).run X pid s) := by
  show ConfigsSettled X pid (handleConfigSet X pid params ctx s).2
  unfold handleConfigSet
  cases hdata : params.configData with
  | none => exact h
  | some data =>
    dsimp only
    cases hcfg : decodeRevisionConfig X data with
    | none => exact h
    | some cfg =>
      dsimp only
      cases hvalid : validateRevisionConfig cfg with
      | some violation => exact h
      | none =>
        dsimp only
        split
        · exact h
        · cases hnew : Entity.new X typeRevisionConfig data with
          | error e => exact h
          | ok entity =>
            obtain ⟨hfree,hbinding⟩ := hsafe data cfg entity hdata hcfg hvalid hnew
            have hp := @revConfigPath_config pid X (resolvePrefix cfg.barePrefix pid)
            obtain ⟨htype,hentity,-⟩ := Entity.newWithFormat_ok X hnew
            rw [← hentity] at hcfg
            dsimp only
            generalize revConfigPath pid (prefixHash X (resolvePrefix cfg.barePrefix pid)) = path
              at hp hbinding ⊢
            have hmem : entity ∈ entity::trackingEntities X (canonicalizePrefix cfg.barePrefix)
              cfg.autoVersion := mem_cons_self
            have hput := (h.soundBeside path).put hfree hmem
            have hdecode : decodeConfigAt X (putContent s entity).world entity.contentHash = some cfg :=
              decodeConfigAt_self.mpr ⟨htype,hcfg⟩
            have hself : (putContent s entity).world.get entity.contentHash = some entity := by
              show (s.world.put entity).get _ = _
              rw [ContentStore.get_put,if_pos rfl]
            have hfree' := hfree.put hmem
            split
            · rename_i hbegin
              simp only [Bool.and_eq_true,Bool.not_eq_true'] at hbegin
              rw [hbegin.1] at hfree hmem
              have hne : s.inner.get path ≠ some entity.contentHash := by
                intro hg
                have hwas := h.was_idle hfree hmem hp hcfg hg
                rw [hbegin.1,hbegin.2] at hwas
                cases hwas
              cases hb : buildTrackingConfigEntity X (canonicalizePrefix cfg.barePrefix) true with
              | none =>
                refine hput.settled fun cfg' hstored hauto => ?_
                have hnot := not_auto_of_not_was hbegin.2 (hstored.of_put hfree hmem h.held)
                rw [hnot] at hauto
                cases hauto
              | some tracking =>
                have hdone := h.begin hX hl hp hbegin.1 hvalid hb hfree hdecode (hbinding hne).1
                  hbegin.2 (s.inner.get path) (some (if (s.inner.get path).isSome then "updated"
                    else "created")) ctx
                dsimp only at hdone ⊢
                rw [hbegin.2]
                split
                · exact hdone.1
                · exact hdone.2
            · rename_i hbegin
              refine settled_setConfigBinding hX hl hp hput hdecode
                (Option.isSome_iff_exists.mpr ⟨entity,hself⟩) _ _ _ _
                (hfree'.subset fun e he => mem_cons_of_mem _ he) hvalid
                (fun hg => (hbinding hg).1.1)
                (fun hg hauto => h.tracked_put hfree hmem hp hg hdecode hauto)
                (fun hg hwas => ?_) (fun hauto hg => ?_)
              · rw [← h.was_idle hfree hmem hp hcfg hg]
                exact hwas
              · simp only [hauto,Bool.true_and,Bool.not_eq_true',Bool.not_eq_false] at hbegin
                exact .inr ⟨(hbinding hg).2 hauto hbegin,(hbinding hg).1.2 hauto⟩

theorem ConfigStep.settled_run {step : ConfigStep} (hsafe : step.Safe X pid s) :
    ConfigsSettled X pid (step.run X pid s) := by
  cases step with
  | set params ctx => exact ConfigStep.settled_set hX hl h hsafe
  | delete params ctx => exact ConfigStep.settled_delete hl h hsafe
  | write path entity context => exact ConfigStep.settled_write hX hl h hsafe
  | remove path context => exact ConfigStep.settled_remove hl h hsafe

end Steps

variable (X pid) in
/-- Every step of a run is safe in the state it finds. -/
def SafeConfigRun : List ConfigStep → ConfigIndex → Prop
  | [], _ => True
  | step::steps, s => step.Safe X pid s ∧ SafeConfigRun steps (step.run X pid s)

theorem SafeConfigRun.take {steps : List ConfigStep} (h : SafeConfigRun X pid steps s) (n : ℕ) :
    SafeConfigRun X pid (steps.take n) s := by
  induction steps generalizing s n with
  | nil => simp [SafeConfigRun]
  | cons step steps ih => cases n with
    | zero => trivial
    | succ n => exact ⟨h.1,ih h.2 n⟩

theorem SafeConfigRun.settled (hX : X.FormatAllocated) (hl : isPeerId pid = true)
    {steps : List ConfigStep} (hsafe : SafeConfigRun X pid steps s) (h : ConfigsSettled X pid s) :
    ConfigsSettled X pid (runConfig X pid steps s) := by
  induction steps generalizing s with
  | nil => exact h
  | cons step steps ih => exact ih hsafe.2 (ConfigStep.settled_run hX hl h hsafe.1)

/-- Along every safe run, every stored config with auto-version has its tracking config. -/
theorem auto_version_stays_tracked (X : Platform) (hX : X.FormatAllocated) (pid : Str)
    (hl : EntityUri.isPeerId pid = true) (s : ConfigIndex) (hs : ConfigsSettled X pid s)
    (steps : List ConfigStep) (hsafe : SafeConfigRun X pid steps s) (n : ℕ) :
    AutoVersionTracked X pid (runConfig X pid (steps.take n) s) :=
  ((hsafe.take n).settled hX hl hs).tracked

end Coordination

/-! Two configs that spell one prefix with and without its slash: two config paths, one
tracking entry. -/
namespace TrackingSample

open Sample ByteCode

def pid : Str := List.replicate 46 'A'

def configDoc (barePrefix : String) (autoVersion : Bool) : Value :=
  .map [(txt "prefix",txt barePrefix),(txt "auto_version",.bool autoVersion)]

def trackingDoc (enabled : Bool) : Value :=
  .map [(txt "enabled",.bool enabled),(txt "prefix",txt "project/")]

def crates : Platform := platform [configDoc "project/" true,configDoc "project" false] [
  (ecfForHash "system/tree/path".toList (toEcf (.text (resolvePrefix "project/".toList pid))),
    0x4434f23addb89b2376c646d266c542ce4da11f89bd529074f2a207f05363cf28),
  (ecfForHash "system/tree/path".toList (toEcf (.text (resolvePrefix "project".toList pid))),
    0xbe0c5dfdd1498a8f6601142994104b112f81085b2abfb728171861613230d628),
  (ecfForHash typeRevisionConfig (toEcf (configDoc "project/" true)),
    0x5a3403d22664a3990e01b4f1c7defdef0e856be56a633608e61cb56d758fdc1e),
  (ecfForHash typeRevisionConfig (toEcf (configDoc "project" false)),
    0x0e39a22fd980a287fb4477f0f67e11384c3748d2ed0e34645aaf4646ab5b7740),
  (ecfForHash typeTrackingConfig (toEcf (trackingDoc true)),
    0xedeeb5ae24b8c1f06897650c79d14e04db679ec779881a579b66038dc50b84a8),
  (ecfForHash typeTrackingConfig (toEcf (trackingDoc false)),
    0x00f71387ff358f765fe669ce36690067504954dedcd8de9dedeeec8be2049955)] []

def autoConfig : RevisionConfig :=
  ⟨"project/".toList,true,defaultMergeOrder,none,[],[],defaultCheckoutPolicy⟩

def autoEntity : Entity := entity "system/revision/config" (configDoc "project/" true)
  0x5a3403d22664a3990e01b4f1c7defdef0e856be56a633608e61cb56d758fdc1e

def enabledEntity : Entity := entity "system/tree/tracking-config" (trackingDoc true)
  0xedeeb5ae24b8c1f06897650c79d14e04db679ec779881a579b66038dc50b84a8

def disabledEntity : Entity := entity "system/tree/tracking-config" (trackingDoc false)
  0x00f71387ff358f765fe669ce36690067504954dedcd8de9dedeeec8be2049955

def setTo (barePrefix : String) (autoVersion : Bool) : ConfigStep :=
  .set ⟨barePrefix.toList,some (toEcf (configDoc barePrefix autoVersion)),none⟩ {}

def fresh : ConfigIndex := ⟨⟨.empty⟩,0,.empty,⟨[]⟩⟩

theorem crates_allocated : crates.FormatAllocated := by decide

theorem not_stored_fresh : ¬StoredConfig crates pid fresh p cfg := by
  rintro ⟨-,hash,hg,-⟩
  cases hg

theorem fresh_settled : ConfigsSettled crates pid fresh where
  tracked _ _ hstored := absurd hstored not_stored_fresh
  held _ _ _ hg := by cases hg
  idle := rfl

def configPath (barePrefix : String) : Str :=
  revConfigPath pid (prefixHash crates (resolvePrefix barePrefix.toList pid))

def trackingPath : Str := trackingConfigPath pid "project".toList

def contended : ConfigIndex := runConfig crates pid [setTo "project/" true,setTo "project" false] fresh

/-- One config set, and then another for the other spelling of its prefix. -/
theorem evaluated_tracking :
    (decodeRevisionConfig crates (toEcf (configDoc "project/" true)) = some autoConfig ∧
      (Entity.new crates typeRevisionConfig (toEcf (configDoc "project/" true))).toOption =
        some autoEntity ∧
      trackingEntities crates (canonicalizePrefix autoConfig.barePrefix) autoConfig.autoVersion =
        [enabledEntity] ∧
      ∀ a ∈ [autoEntity,enabledEntity], ∀ b ∈ [autoEntity,enabledEntity],
        b.contentHash = a.contentHash → b = a) ∧
    (isPrefixConfigPath (configPath "project/") (revisionSubtree pid) = true ∧
      contended.inner.get (configPath "project/") = some autoEntity.contentHash ∧
      decodeConfigAt crates contended.world autoEntity.contentHash = some autoConfig) ∧
    contended.inner.get trackingPath = some disabledEntity.contentHash ∧
    (runConfig crates pid [setTo "project/" true] fresh).inner.get trackingPath =
      some enabledEntity.contentHash ∧
    trackingConfigPath pid (canonicalizePrefix autoConfig.barePrefix) = trackingPath ∧
    buildTrackingConfigEntity crates (canonicalizePrefix autoConfig.barePrefix) true =
      some enabledEntity ∧
    disabledEntity.contentHash ≠ enabledEntity.contentHash := by decide +kernel

theorem set_safe : SafeConfigRun crates pid [setTo "project/" true] fresh := by
  obtain ⟨⟨hcfg',hnew',htracking,hdistinct⟩,-⟩ := evaluated_tracking
  refine ⟨?_,trivial⟩
  intro data cfg entity hdata hcfg _ hnew
  have hdata' : data = toEcf (configDoc "project/" true) := (Option.some.inj hdata).symm
  subst hdata'
  rw [hcfg] at hcfg'
  cases hcfg'
  rw [hnew] at hnew'
  cases hnew'
  refine ⟨?_,fun _ => ⟨⟨?_,fun _ => by decide +kernel⟩,fun _ hwas => ?_⟩⟩
  · rw [htracking]
    intro e he e' he' hhash
    rcases he' with he' | he'
    · exact hdistinct e he e' he' hhash
    · cases he'
  · rintro c ⟨p,other,-,hstored,-,-⟩
    exact absurd hstored not_stored_fresh
  · cases hwas

end TrackingSample

open TrackingSample

theorem auto_version_stays_tracked_sample :
    crates.FormatAllocated ∧ EntityUri.isPeerId pid = true ∧ ConfigsSettled crates pid fresh ∧
    SafeConfigRun crates pid [setTo "project/" true] fresh ∧
    AutoVersionTracked crates pid (runConfig crates pid [setTo "project/" true] fresh) :=
  ⟨crates_allocated,by decide +kernel,fresh_settled,set_safe,
    auto_version_stays_tracked crates crates_allocated pid (by decide +kernel) fresh fresh_settled
      [setTo "project/" true] set_safe 1⟩

/-- A config without auto-version for the other spelling turns the tracking off. -/
theorem contended_tracking_lost : ConfigsSettled crates pid fresh ∧
    (runConfig crates pid [setTo "project/" true] fresh).inner.get trackingPath =
      some enabledEntity.contentHash ∧
    StoredConfig crates pid contended (configPath "project/") autoConfig ∧
    autoConfig.autoVersion = true ∧
    contended.inner.get trackingPath = some disabledEntity.contentHash ∧
    ¬AutoVersionTracked crates pid contended := by
  obtain ⟨-,⟨hpath,hget,hdecode⟩,hdisabled,hkept,hname,henabled,hne⟩ := evaluated_tracking
  have hstored : StoredConfig crates pid contended (configPath "project/") autoConfig :=
    ⟨hpath,_,hget,hdecode⟩
  refine ⟨fresh_settled,hkept,hstored,rfl,hdisabled,?_⟩
  intro htracked
  obtain ⟨e,hbuild,hbound,-⟩ := htracked _ _ hstored rfl
  rw [henabled] at hbuild
  cases hbuild
  rw [hname,hdisabled] at hbound
  exact hne (Option.some.inj hbound)

end EntityCore
