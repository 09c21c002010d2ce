import EntityCore.ComputeAuthority

/-! What an evaluation owes to the ones before it in the same context. Two registries
outlive an evaluation, of the entities it met and of those it constructed, and the store
keeps what it made resident. An evaluation that looks up nothing in vain that an earlier
one has left there yields what it yields in a fresh context. -/
namespace EntityCore
variable {log l l' : List Event}

namespace Compute

open Program

/-! Stores and logs. -/

/-- A content store returns what was put under the hash it was put under. -/
structure Host.Stores {W : Type} (host : Host W) : Prop where
  put : ∀ w e, (host.contentPut w e).1 = some e.contentHash
  get_hash : ∀ w h e, host.contentGet w h = some e → e.contentHash = h
  get_put : ∀ w e h, host.contentGet (host.contentPut w e).2 h =
    if h = e.contentHash then some e else host.contentGet w h

theorem Host.memory_stores (dispatchExecute : Option (ContentStore × MemoryLocationIndex → Str →
    Str → Option ResourceTarget → Entity → Option Entity →
      ComputeValue × (ContentStore × MemoryLocationIndex))) :
    (Host.memory dispatchExecute).Stores where
  put _ _ := rfl
  get_hash w h e hget := by
    have hfound := List.find?_some hget
    simpa using hfound
  get_put w e h := by
    show (w.1.put e).get h = _
    by_cases heq : h = e.contentHash
    · simp [ContentStore.put,ContentStore.get,heq]
    · rw [if_neg heq]
      simp [ContentStore.put,ContentStore.get,Ne.symm heq,Host.memory]

namespace Event

/-- Of an access of the tree or a dispatch. -/
def isImpure : Event → Bool
  | .read _ _ => true
  | .wrote _ _ => true
  | .manifest _ => true
  | .executed _ _ _ _ _ => true
  | _ => false

/-- Of a budget that ran out or of two entities under one hash. -/
def isTrouble : Event → Bool
  | .exhausted => true
  | .tooDeep => true
  | .replaced _ => true
  | _ => false

def isReplaced : Event → Bool
  | .replaced _ => true
  | _ => false

/-- Of a lookup that a context with other contents might have answered. -/
def isAnswered {W : Type} (host : Host W) (known : EvalState W) : Event → Bool
  | .missedField hash => (known.constructedInFlight.get hash).isSome
  | .missedReferent hash => (known.encountered.get hash).isSome
  | .missedEntity hash => (host.contentGet known.world hash).isSome
  | _ => false

end Event

/-- No event of a kind. -/
def Without (kind : Event → Bool) (log : List Event) : Prop := ∀ e ∈ log, kind e = false

instance (kind : Event → Bool) (log : List Event) : Decidable (Without kind log) :=
  inferInstanceAs (Decidable (∀ e ∈ log, kind e = false))

theorem Without.of_suffix {kind : Event → Bool} (h : Without kind l')
    (hl : l <:+ l') : Without kind l := fun e he => h e (hl.subset he)

theorem Without.not_mem {kind : Event → Bool} {e : Event}
    (h : Without kind log) (he : kind e = true) : e ∉ log := fun hmem => by
  have hfalse := h e hmem
  rw [he] at hfalse
  cases hfalse

/-! Contexts with more behind them. -/

section Contexts

variable {W : Type} {X : Platform} {F : Runtime} {host : Host W} {env : EvalEnv}
  {known s t : EvalState W}

/-- What was met is still in reach. -/
def Resident (host : Host W) (env : EvalEnv) (s : EvalState W) : Prop :=
  ∀ h e, s.encountered.get h = some e → env.included.get h = none →
    host.contentGet s.world h = some e

/-- `s` is `t` with `known` behind it. -/
structure Beyond (host : Host W) (known s t : EvalState W) : Prop where
  encountered : ∀ h, s.encountered.get h = (t.encountered.get h).or (known.encountered.get h)
  inFlight : ∀ h, s.constructedInFlight.get h =
    (t.constructedInFlight.get h).or (known.constructedInFlight.get h)
  content : ∀ h, host.contentGet s.world h =
    (host.contentGet t.world h).or (host.contentGet known.world h)
  kept : ∀ h e, host.contentGet known.world h = some e → host.contentGet s.world h = some e

/-- Only what an evaluation may change of the budget, the log and the dependencies. -/
theorem Beyond.congr {s' t' : EvalState W} (h : Beyond host known s t)
    (hs : s'.encountered = s.encountered ∧ s'.constructedInFlight = s.constructedInFlight ∧
      s'.world = s.world)
    (ht : t'.encountered = t.encountered ∧ t'.constructedInFlight = t.constructedInFlight ∧
      t'.world = t.world) : Beyond host known s' t' := by
  constructor
  · rw [hs.1,ht.1]
    exact h.encountered
  · rw [hs.2.1,ht.2.1]
    exact h.inFlight
  · rw [hs.2.2,ht.2.2]
    exact h.content
  · rw [hs.2.2]
    exact h.kept

theorem Beyond.meet (h : Beyond host known s t) (hash : Hash) (e : Entity) :
    Beyond host known {s with encountered := s.encountered.insert hash e}
      {t with encountered := t.encountered.insert hash e} where
  encountered k := by
    by_cases hk : k = hash
    · simp [hk]
    · simpa [hk] using h.encountered k
  inFlight := h.inFlight
  content := h.content
  kept := h.kept

theorem answer_fields {α β : Type} (s : EvalState W) (found : Option α) (missed : Event) (b : β) :
    (s.answer found missed b).2.encountered = s.encountered ∧
      (s.answer found missed b).2.constructedInFlight = s.constructedInFlight ∧
      (s.answer found missed b).2.world = s.world := by
  dsimp only [EvalState.answer]
  split <;> exact ⟨rfl,rfl,rfl⟩

theorem put_fields (s : EvalState W) (e : Entity) : (s.put host e).2.encountered = s.encountered ∧
      (s.put host e).2.constructedInFlight = s.constructedInFlight ∧
      (s.put host e).2.world = (host.contentPut s.world e).2 := by
  dsimp only [EvalState.put]
  split <;> exact ⟨rfl,rfl,rfl⟩

theorem put_keeps (hhost : host.Stores) {e : Entity}
    (hlog : Without Event.isReplaced (s.put host e).2.log) {h : Hash} {e' : Entity}
    (hget : host.contentGet s.world h = some e') :
    host.contentGet (s.put host e).2.world h = some e' := by
  rw [(put_fields s e).2.2,hhost.get_put]
  by_cases heq : h = e.contentHash
  · rw [if_pos heq]
    by_contra hne
    have hall : ((host.contentGet s.world e.contentHash).all fun e₁ => decide (e₁ = e)) = false := by
      rw [← heq,hget]
      simp only [Option.all_some,decide_eq_false_iff_not]
      exact fun hsame => hne (congrArg some hsame.symm)
    refine hlog.not_mem (e := .replaced e.contentHash) rfl ?_
    simp [EvalState.put,hall]
  · rw [if_neg heq,hget]

theorem Beyond.put (hhost : host.Stores) (h : Beyond host known s t) (e : Entity)
    (hlog : Without Event.isReplaced (s.put host e).2.log) :
    Beyond host known (s.put host e).2 (t.put host e).2 where
  encountered k := by
    rw [(put_fields s e).1,(put_fields t e).1]
    exact h.encountered k
  inFlight k := by
    rw [(put_fields s e).2.1,(put_fields t e).2.1]
    exact h.inFlight k
  content k := by
    rw [(put_fields s e).2.2,(put_fields t e).2.2,hhost.get_put,hhost.get_put]
    by_cases hk : k = e.contentHash
    · simp [hk]
    · simp only [if_neg hk]
      exact h.content k
  kept k e' hget := put_keeps hhost hlog (h.kept k e' hget)

/-- What is in reach of `t`, or in vain looked for by both, is the same for `s`. -/
theorem Beyond.inReach_eq (h : Beyond host known s t) (hresident : Resident host env known)
    {hash : Hash} (hmissed : t.inReach host env hash = none →
      host.contentGet known.world hash = none) :
    s.inReach host env hash = t.inReach host env hash := by
  unfold EvalState.inReach at hmissed ⊢
  simp only [Option.orElse_eq_orElse,Option.orElse_eq_or] at hmissed ⊢
  cases hincluded : env.included.get hash with
  | some e => simp
  | none =>
    rw [hincluded] at hmissed
    simp only [Option.none_or] at hmissed ⊢
    rw [h.encountered,h.content]
    cases hmet : t.encountered.get hash with
    | some e => simp
    | none =>
      rw [hmet] at hmissed
      simp only [Option.none_or] at hmissed ⊢
      cases hknown : known.encountered.get hash with
      | none =>
        cases hstored : host.contentGet t.world hash with
        | some e => simp
        | none => simp [hmissed hstored]
      | some e =>
        have hbehind := hresident hash e hknown hincluded
        have hkept := h.kept hash e hbehind
        rw [h.content] at hkept
        cases hstored : host.contentGet t.world hash with
        | some e' =>
          rw [hstored] at hkept
          simpa using hkept.symm
        | none =>
          rw [hmissed hstored] at hbehind
          cases hbehind

/-! Two contexts evaluate alike. -/

/-- The log of an evaluation with enough budget and without colliding hashes. -/
abbrev Untroubled (log : List Event) : Prop := Without Event.isTrouble log

/-- The log of an evaluation that touches nothing outside of its context. -/
abbrev IsPure (log : List Event) : Prop := Without Event.isImpure log

/-- The log of an evaluation that looks up nothing in vain that `known` would have
answered. -/
abbrev Unanswered (host : Host W) (known : EvalState W) (log : List Event) : Prop :=
  Without (Event.isAnswered host known) log

/-- What the evaluation in the smaller context has to be. -/
structure Own (host : Host W) (known : EvalState W) (log : List Event) : Prop where
  untroubled : Untroubled log
  pure : IsPure log
  unanswered : Unanswered host known log

theorem Own.of_suffix (h : Own host known l') (hl : l <:+ l') : Own host known l :=
  ⟨h.untroubled.of_suffix hl,h.pure.of_suffix hl,h.unanswered.of_suffix hl⟩

theorem Without.of_isTrouble (h : Untroubled log) : Without Event.isReplaced log := by
  intro e he
  have htrouble := h e he
  cases e with
  | replaced hash => cases htrouble
  | _ => rfl

theorem answer_missed {α β : Type} {found : Option α} {missed : Event} {b : β}
    (h : Own host known (t.answer found missed b).2.log) (hfound : found = none) :
    missed.isAnswered host known = false := by
  refine h.unanswered missed ?_
  simp [EvalState.answer,hfound,EvalState.note]

theorem Beyond.answer {α β : Type} (h : Beyond host known s t) (found found' : Option α)
    (missed : Event) (b b' : β) :
    Beyond host known (s.answer found missed b).2 (t.answer found' missed b').2 :=
  h.congr (answer_fields s found missed b) (answer_fields t found' missed b')

variable {eval eval' : Entity → Scope → EvalState W → Option ComputeValue × EvalState W}

theorem command_beyond (hhost : host.Stores) (hresident : Resident host env known)
    (heval : ∀ e scope s t, Beyond host known s t → Untroubled (eval e scope s).2.log →
      Own host known (eval' e scope t).2.log → (eval e scope s).1 = (eval' e scope t).1 ∧
        Beyond host known (eval e scope s).2 (eval' e scope t).2)
    (c : Command) (s t : EvalState W) (hst : Beyond host known s t)
    (hs : Untroubled (performCommand host env eval c s).2.log)
    (ht : Own host known (performCommand host env eval' c t).2.log) :
    (performCommand host env eval c s).1 = (performCommand host env eval' c t).1 ∧
      Beyond host known (performCommand host env eval c s).2
        (performCommand host env eval' c t).2 := by
  have hhead : ∀ {event : Event} {log : List Event}, event.isTrouble = true →
      ¬ Untroubled (event::log) :=
    fun htrouble h => h.not_mem htrouble List.mem_cons_self
  have himpure : ∀ {event : Event} {log : List Event}, event.isImpure = true →
      ¬ Own host known (event::log) :=
    fun himp h => h.pure.not_mem himp List.mem_cons_self
  have hmissed : ∀ {event : Event} {log : List Event}, Own host known (event::log) →
      event.isAnswered host known = false :=
    fun h => h.unanswered _ List.mem_cons_self
  cases c with
  | evaluate e scope => exact heval e scope s t hst hs ht
  | charge n =>
    dsimp only [performCommand] at hs ht ⊢
    split at hs
    · exact absurd hs (hhead rfl)
    · split at ht
      · exact absurd ht.untroubled (hhead rfl)
      · rename_i hn hm
        rw [if_neg hn,if_neg hm]
        exact ⟨rfl,hst.congr ⟨rfl,rfl,rfl⟩ ⟨rfl,rfl,rfl⟩⟩
  | resolve hash =>
    have hsame : s.inReach host env hash = t.inReach host env hash :=
      hst.inReach_eq hresident fun hnone => by
        simpa [Event.isAnswered] using answer_missed ht hnone
    refine ⟨?_,hst.answer _ _ _ _ _⟩
    show some (s.resolve host env hash) = some (t.resolve host env hash)
    rw [EvalState.resolve,EvalState.resolve,hsame]
  | resolveScopeEntity hash =>
    dsimp only [performCommand] at hs ht ⊢
    have hsame : (env.included.get hash <|> host.contentGet s.world hash) =
        (env.included.get hash <|> host.contentGet t.world hash) := by
      simp only [Option.orElse_eq_orElse,Option.orElse_eq_or] at ht ⊢
      rw [hst.content]
      cases hincluded : env.included.get hash with
      | some e => simp
      | none =>
        rw [hincluded] at ht
        cases hstored : host.contentGet t.world hash with
        | some e => simp
        | none =>
          rw [hstored] at ht
          have hknown := hmissed ht
          simpa [Event.isAnswered] using hknown
    rw [hsame]
    cases (env.included.get hash <|> host.contentGet t.world hash) with
    | some e => exact ⟨rfl,hst.meet hash e⟩
    | none => exact ⟨rfl,hst.congr ⟨rfl,rfl,rfl⟩ ⟨rfl,rfl,rfl⟩⟩
  | meet hash =>
    dsimp only [performCommand] at hs ht ⊢
    have hsame : host.contentGet s.world hash = host.contentGet t.world hash := by
      rw [hst.content]
      cases hstored : host.contentGet t.world hash with
      | some e => simp
      | none =>
        rw [hstored] at ht
        have hknown := hmissed ht
        simpa [Event.isAnswered] using hknown
    rw [hsame]
    cases host.contentGet t.world hash with
    | some e => exact ⟨rfl,hst.meet e.contentHash e⟩
    | none => exact ⟨rfl,hst.congr ⟨rfl,rfl,rfl⟩ ⟨rfl,rfl,rfl⟩⟩
  | keep entity =>
    have hput := hst.put hhost entity (Without.of_isTrouble hs)
    exact ⟨rfl,hput.meet entity.contentHash entity⟩
  | referent hash =>
    refine ⟨?_,hst.answer _ _ _ _ _⟩
    show some (s.encountered.get hash <|> env.included.get hash) =
      some (t.encountered.get hash <|> env.included.get hash)
    rw [hst.encountered]
    cases hmet : t.encountered.get hash with
    | some e => simp
    | none =>
      have hknown : known.encountered.get hash = none := by
        simpa [Event.isAnswered] using answer_missed ht hmet
      simp [hknown]
  | inFlight hash =>
    refine ⟨?_,hst.answer _ _ _ _ _⟩
    show some (s.constructedInFlight.get hash) = some (t.constructedInFlight.get hash)
    rw [hst.inFlight]
    cases hmet : t.constructedInFlight.get hash with
    | some fields => simp
    | none =>
      have hknown : known.constructedInFlight.get hash = none := by
        simpa [Event.isAnswered] using answer_missed ht hmet
      simp [hknown]
  | recordConstructed hash fields =>
    refine ⟨rfl,hst.encountered,fun k => ?_,hst.content,hst.kept⟩
    by_cases hk : k = hash
    · simp [performCommand,hk]
    · simpa [performCommand,hk] using hst.inFlight k
  | contentGet hash =>
    refine ⟨?_,hst.answer _ _ _ _ _⟩
    show some (host.contentGet s.world hash) = some (host.contentGet t.world hash)
    rw [hst.content]
    cases hstored : host.contentGet t.world hash with
    | some e => simp
    | none =>
      have hknown : host.contentGet known.world hash = none := by
        simpa [Event.isAnswered] using answer_missed ht hstored
      simp [hknown]
  | contentPut entity =>
    refine ⟨?_,hst.put hhost entity (Without.of_isTrouble hs)⟩
    show some (host.contentPut s.world entity).1 = some (host.contentPut t.world entity).1
    rw [hhost.put,hhost.put]
  | depend path => exact ⟨rfl,hst.congr ⟨rfl,rfl,rfl⟩ ⟨rfl,rfl,rfl⟩⟩
  | treeGet path key => exact absurd ht (himpure rfl)
  | treeSet path key hash => exact absurd ht (himpure rfl)
  | manifestGet key => exact absurd ht (himpure rfl)
  | execute path operation resource params capability =>
    dsimp only [performCommand] at hs ht ⊢
    cases hdispatch : host.dispatchExecute with
    | none => exact ⟨rfl,hst⟩
    | some dispatch =>
      rw [hdispatch] at ht
      exact absurd ht (himpure rfl)

theorem round_log {rounds : ℕ} (strip : Bool) (e : Entity) (scope : Scope)
    (hops : s.operations-1 ≠ 0) : ((evaluateInner X F env e scope).run
        (performCommand host env (enter (trampoline X F host env rounds)))
        {s with operations := s.operations-1}).2.log <:+
      (trampoline X F host env (rounds+1) strip e scope s).2.log := by
  rw [trampoline_succ strip e scope s hops]
  split
  all_goals rename_i hended; rw [hended]
  split
  · exact trampoline_log rounds _ _ _ _
  · exact List.suffix_refl _

theorem spend_troubled (s : EvalState W) : ¬ Untroubled s.spend.log :=
  fun h => h.not_mem (e := .exhausted) rfl List.mem_cons_self

theorem operations_of_untroubled {rounds : ℕ} {strip : Bool} {e : Entity} {scope : Scope}
    (h : Untroubled (trampoline X F host env (rounds+1) strip e scope s).2.log) :
    s.operations-1 ≠ 0 := by
  intro hops
  simp only [trampoline,hops,if_true] at h
  exact spend_troubled _ h

/-- Two loops keep contexts this close and yield the same. -/
def LoopsBeyond (host : Host W) (known : EvalState W)
    (loop loop' : Bool → Entity → Scope → EvalState W → Option ComputeValue × EvalState W) : Prop :=
  ∀ strip e scope (s t : EvalState W), Beyond host known s t →
    Untroubled (loop strip e scope s).2.log → Own host known (loop' strip e scope t).2.log →
    (loop strip e scope s).1 = (loop' strip e scope t).1 ∧
      Beyond host known (loop strip e scope s).2 (loop' strip e scope t).2

theorem enter_beyond
    {loop loop' : Bool → Entity → Scope → EvalState W → Option ComputeValue × EvalState W}
    (hloop : LoopsBeyond host known loop loop') (e : Entity) (scope : Scope) (s t : EvalState W)
    (hst : Beyond host known s t) (hs : Untroubled (enter loop e scope s).2.log)
    (ht : Own host known (enter loop' e scope t).2.log) :
    (enter loop e scope s).1 = (enter loop' e scope t).1 ∧
      Beyond host known (enter loop e scope s).2 (enter loop' e scope t).2 := by
  unfold enter at hs ht ⊢
  split at hs
  · rename_i hexpr
    rw [if_pos hexpr,if_pos hexpr]
    exact ⟨rfl,hst⟩
  · rename_i hexpr
    split at hs
    · exact absurd List.mem_cons_self (hs.not_mem (e := .tooDeep) rfl)
    · rename_i hdepth
      rw [if_neg hexpr] at ht ⊢
      rw [if_neg hexpr]
      split at ht
      · exact absurd List.mem_cons_self (ht.untroubled.not_mem (e := .tooDeep) rfl)
      · rename_i hdepth'
        rw [if_neg hdepth,if_neg hdepth']
        have hstart : Beyond host known {s with depth := s.depth-1} {t with depth := t.depth-1} :=
          hst.congr ⟨rfl,rfl,rfl⟩ ⟨rfl,rfl,rfl⟩
        obtain ⟨hvalue,hstate⟩ := hloop false e scope _ _ hstart hs ht
        exact ⟨hvalue,hstate.congr ⟨rfl,rfl,rfl⟩ ⟨rfl,rfl,rfl⟩⟩

/-- The rounds of the two evaluations differ in number, as their budgets do. -/
theorem trampoline_beyond (hhost : host.Stores) (hresident : Resident host env known) (rounds : ℕ) :
    ∀ rounds', LoopsBeyond host known (trampoline X F host env rounds)
      (trampoline X F host env rounds') := by
  induction rounds with
  | zero =>
    intro rounds' strip e scope s t _ hs _
    exact absurd hs (spend_troubled s)
  | succ rounds ih =>
    intro rounds' strip e scope s t hst hs ht
    cases rounds' with
    | zero => exact absurd ht.untroubled (spend_troubled t)
    | succ rounds' =>
      have hops := operations_of_untroubled hs
      have hops' := operations_of_untroubled ht.untroubled
      have hround : Untroubled _ := hs.of_suffix (round_log strip e scope hops)
      have hround' : Own host known _ := ht.of_suffix (round_log strip e scope hops')
      have hlog : ∀ e scope (s : EvalState W),
          s.log <:+ (enter (trampoline X F host env rounds) e scope s).2.log := enter_log rounds
      have hlog' : ∀ e scope (s : EvalState W),
          s.log <:+ (enter (trampoline X F host env rounds') e scope s).2.log := enter_log rounds'
      have hstart : Beyond host known {s with operations := s.operations-1}
          {t with operations := t.operations-1} := hst.congr ⟨rfl,rfl,rfl⟩ ⟨rfl,rfl,rfl⟩
      obtain ⟨hending,hstate⟩ := run_alike (S := Beyond host known)
        (G := fun s => Untroubled s.log) (J := fun t => Own host known t.log)
        (fun c s h => h.of_suffix (command_log hlog c s))
        (fun c t h => h.of_suffix (command_log hlog' c t))
        (command_beyond hhost hresident (enter_beyond (ih rounds')))
        (evaluateInner X F env e scope) hstart hround hround'
      rw [trampoline_succ strip e scope s hops] at hs ⊢
      rw [trampoline_succ strip e scope t hops'] at ht ⊢
      generalize (evaluateInner X F env e scope).run
        (performCommand host env (enter (trampoline X F host env rounds)))
        {s with operations := s.operations-1} = ended at hs hending hstate ⊢
      generalize (evaluateInner X F env e scope).run
        (performCommand host env (enter (trampoline X F host env rounds')))
        {t with operations := t.operations-1} = ended' at ht hending hstate ⊢
      obtain ⟨ending,s'⟩ := ended
      obtain ⟨ending',t'⟩ := ended'
      obtain rfl : ending = ending' := hending
      cases ending with
      | early v => exact ⟨rfl,hstate⟩
      | fault => exact ⟨rfl,hstate⟩
      | done result =>
        cases result with
        | value v => exact ⟨rfl,hstate⟩
        | tailCall next nextScope tail =>
          dsimp only at hs ht ⊢
          by_cases hnext : isComputeExpression next = true
          · rw [if_pos hnext] at hs ht ⊢
            rw [if_pos hnext]
            exact ih rounds' (strip || tail) next nextScope s' t' hstate hs ht
          · rw [if_neg hnext,if_neg hnext]
            exact ⟨rfl,hstate⟩

/-- The evaluation in the larger context yields what the one in the smaller context does. -/
theorem evaluate_beyond (hhost : host.Stores) (hresident : Resident host env known) (e : Entity)
    (scope : Scope) (hst : Beyond host known s t)
    (hs : Untroubled (evaluate X F host env e scope s).2.log)
    (ht : Own host known (evaluate X F host env e scope t).2.log) :
    (evaluate X F host env e scope s).1 = (evaluate X F host env e scope t).1 :=
  (enter_beyond (trampoline_beyond hhost hresident s.operations t.operations) e scope s t hst hs
    ht).1

/-! What a context keeps of its past. -/

/-- The log of evaluations that touch nothing outside and replace nothing. -/
structure Clean (log : List Event) : Prop where
  pure : IsPure log
  unreplaced : Without Event.isReplaced log

theorem Clean.of_cons {event : Event} (h : Clean (event::log)) : Clean log :=
  ⟨h.pure.of_suffix (List.suffix_cons _ _),h.unreplaced.of_suffix (List.suffix_cons _ _)⟩

/-- What was met is in reach, and what was stored at the start still is. -/
structure Kept (host : Host W) (env : EvalEnv) (w : W) (s : EvalState W) : Prop where
  resident : Resident host env s
  stored : ∀ h e, host.contentGet w h = some e → host.contentGet s.world h = some e

theorem Kept.congr {w : W} {s' : EvalState W} (h : Kept host env w s)
    (hs : s'.encountered = s.encountered ∧ s'.world = s.world) : Kept host env w s' := by
  constructor
  · unfold Resident
    rw [hs.1,hs.2]
    exact h.resident
  · rw [hs.2]
    exact h.stored

theorem Kept.put (hhost : host.Stores) {w : W} (h : Kept host env w s) {e : Entity}
    (hlog : Without Event.isReplaced (s.put host e).2.log) : Kept host env w (s.put host e).2 where
  resident k e' hmet hincluded := by
    rw [(put_fields s e).1] at hmet
    exact put_keeps hhost hlog (h.resident k e' hmet hincluded)
  stored k e' hget := put_keeps hhost hlog (h.stored k e' hget)

theorem Kept.meet {w : W} (h : Kept host env w s) {hash : Hash} {e : Entity}
    (hreach : env.included.get hash = none → host.contentGet s.world hash = some e) :
    Kept host env w {s with encountered := s.encountered.insert hash e} where
  resident k e' hmet hincluded := by
    by_cases hk : k = hash
    · rw [hk] at hmet hincluded ⊢
      have hsame : e = e' := by simpa using hmet
      exact hsame ▸ hreach hincluded
    · exact h.resident k e' (by simpa [hk] using hmet) hincluded
  stored := h.stored

theorem commands_kept (hhost : host.Stores) (w : W) : CommandsKeep host env (fun _ => True)
    fun s => Clean s.log → Kept host env w s where
  command eval heval c s _ hs hclean := by
    have hbefore : (∃ e scope, c = .evaluate e scope) ∨ Clean s.log := by
      have hlog : _ ∨ (performCommand host env eval c s).2.log = s.log ∨ ∃ event, _ ∧
          (performCommand host env eval c s).2.log = event::s.log := performCommand_log c s
      obtain hsub | hsame | ⟨event,-,hlog⟩ := hlog
      · exact Or.inl hsub
      · exact Or.inr (hsame ▸ hclean)
      · exact Or.inr (hlog ▸ hclean).of_cons
    obtain ⟨e,scope,rfl⟩ | hbefore := hbefore
    · exact heval e scope s hs hclean
    have hkept := hs hbefore
    have himpure : ∀ {event : Event} {log : List Event}, event.isImpure = true →
        ¬ Clean (event::log) := fun himp h => h.pure.not_mem himp List.mem_cons_self
    cases c with
    | evaluate e scope => exact heval e scope s hs hclean
    | charge n =>
      dsimp only [performCommand]
      split <;> exact hkept.congr ⟨rfl,rfl⟩
    | resolve hash => exact hkept.congr ⟨(answer_fields _ _ _ _).1,(answer_fields _ _ _ _).2.2⟩
    | referent hash => exact hkept.congr ⟨(answer_fields _ _ _ _).1,(answer_fields _ _ _ _).2.2⟩
    | inFlight hash => exact hkept.congr ⟨(answer_fields _ _ _ _).1,(answer_fields _ _ _ _).2.2⟩
    | contentGet hash => exact hkept.congr ⟨(answer_fields _ _ _ _).1,(answer_fields _ _ _ _).2.2⟩
    | resolveScopeEntity hash =>
      dsimp only [performCommand]
      split
      · rename_i e hfound
        refine hkept.meet fun hincluded => ?_
        simpa [hincluded] using hfound
      · exact hkept.congr ⟨rfl,rfl⟩
    | meet hash =>
      dsimp only [performCommand]
      split
      · rename_i e hfound
        refine hkept.meet fun _ => ?_
        rw [hhost.get_hash _ _ _ hfound]
        exact hfound
      · exact hkept.congr ⟨rfl,rfl⟩
    | keep entity =>
      refine (hkept.put hhost (e := entity) hclean.unreplaced).meet fun _ => ?_
      rw [(put_fields s entity).2.2,hhost.get_put,if_pos rfl]
    | recordConstructed hash fields => exact hkept.congr ⟨rfl,rfl⟩
    | contentPut entity => exact hkept.put hhost hclean.unreplaced
    | depend path => exact hkept.congr ⟨rfl,rfl⟩
    | treeGet path key => exact absurd hclean (himpure rfl)
    | treeSet path key hash => exact absurd hclean (himpure rfl)
    | manifestGet key => exact absurd hclean (himpure rfl)
    | execute path operation resource params capability =>
      dsimp only [performCommand] at hclean ⊢
      cases hdispatch : host.dispatchExecute with
      | none => exact hkept
      | some dispatch =>
        rw [hdispatch] at hclean
        exact absurd hclean (himpure rfl)
  budget s _ _ hs hclean := (hs hclean).congr ⟨rfl,rfl⟩
  spent s hs hclean := (hs hclean.of_cons).congr ⟨rfl,rfl⟩
  tooDeep s hs hclean := (hs hclean.of_cons).congr ⟨rfl,rfl⟩

end Contexts

/-! Histories. -/

/-- An expression, its scope and its budget. -/
structure Evaluation where
  entity : Entity
  scope : Scope
  operations : ℕ
  depth : ℕ

section Histories

variable {W : Type} (X : Platform) (F : Runtime) (host : Host W) (env : EvalEnv)

/-- A fresh context over a store. -/
def EvalState.fresh (w : W) : EvalState W := ⟨0,0,.empty,.empty,none,w,[]⟩

/-- An evaluation with a budget of its own in a context. -/
def Evaluation.run (ev : Evaluation) (s : EvalState W) : Option ComputeValue × EvalState W :=
  evaluate X F host env ev.entity ev.scope {s with operations := ev.operations, depth := ev.depth}

/-- One evaluation after the other in one context. -/
def evaluateAll : List Evaluation → EvalState W → EvalState W
  | [], s => s
  | first::rest, s => evaluateAll rest (first.run X F host env s).2

/-- The log of what follows only. -/
def EvalState.forget (s : EvalState W) : EvalState W := {s with log := []}

variable {X F host env}

theorem evaluateAll_kept (hhost : host.Stores) {w : W} {history : List Evaluation}
    {s : EvalState W} (hs : Clean s.log → Kept host env w s) :
    Clean (evaluateAll X F host env history s).log →
      Kept host env w (evaluateAll X F host env history s) := by
  induction history generalizing s with
  | nil => exact hs
  | cons first rest ih =>
    refine ih ?_
    exact evaluate_keeps (commands_kept hhost w) (fun _ _ => all_true _) first.entity first.scope _
      fun hclean => (hs hclean).congr ⟨rfl,rfl⟩

theorem fresh_kept (w : W) : Kept host env w (EvalState.fresh w) where
  resident h e hmet _ := by simp [EvalState.fresh] at hmet
  stored _ _ hget := hget

/-- A context that keeps its past is a fresh one with its past behind it. -/
theorem Kept.beyond_fresh {w w' : W} {s : EvalState W} (h : Kept host env w s)
    (hw : w' = w ∨ w' = s.world) : Beyond host s s (EvalState.fresh w') where
  encountered k := by simp [EvalState.fresh]
  inFlight k := by simp [EvalState.fresh]
  content k := by
    show host.contentGet s.world k = (host.contentGet w' k).or (host.contentGet s.world k)
    rcases hw with rfl | rfl
    · cases hget : host.contentGet w' k with
      | none => simp
      | some e => simpa using h.stored k e hget
    · simp
  kept _ _ hget := hget

/-- Evaluated after a history, a pure expression yields what it yields in a fresh context. -/
theorem run_after_history (hhost : host.Stores) {history : List Evaluation} {w w' : W}
    {ev alone : Evaluation} (he : alone.entity = ev.entity ∧ alone.scope = ev.scope)
    (hclean : Clean (evaluateAll X F host env history (.fresh w)).log)
    (hw : w' = w ∨ w' = (evaluateAll X F host env history (.fresh w)).world) (hafter : Untroubled
      (ev.run X F host env (evaluateAll X F host env history (.fresh w)).forget).2.log)
    (halone : Own host (evaluateAll X F host env history (.fresh w))
      (alone.run X F host env (.fresh w')).2.log) :
    (ev.run X F host env (evaluateAll X F host env history (.fresh w)).forget).1 =
      (alone.run X F host env (.fresh w')).1 := by
  have hkept := evaluateAll_kept hhost (fun _ => fresh_kept w) hclean
  have hbeyond := hkept.beyond_fresh hw
  unfold Evaluation.run at hafter halone ⊢
  rw [he.1,he.2] at halone ⊢
  exact evaluate_beyond hhost hkept.resident ev.entity ev.scope
    (hbeyond.congr ⟨rfl,rfl,rfl⟩ ⟨rfl,rfl,rfl⟩) hafter halone

/-- A fresh context over a store, with a budget. -/
def EvalState.begin (w : W) (operations depth : ℕ) : EvalState W :=
  {EvalState.fresh w with operations := operations, depth := depth}

/-- An operand yields after the other one what it yields before it. -/
theorem operand_after_other (hhost : host.Stores) {w : W} {operations depth : ℕ} {l r : Entity}
    {scope : Scope}
    (hleft : Clean (evaluate X F host env l scope (.begin w operations depth)).2.log)
    (hafter : Untroubled (evaluate X F host env r scope
      (evaluate X F host env l scope (.begin w operations depth)).2).2.log)
    (halone : Own host (evaluate X F host env l scope (.begin w operations depth)).2
      (evaluate X F host env r scope (.begin w operations depth)).2.log) :
    (evaluate X F host env r scope
        (evaluate X F host env l scope (.begin w operations depth)).2).1 =
      (evaluate X F host env r scope (.begin w operations depth)).1 := by
  have hkept : Kept host env w (evaluate X F host env l scope (.begin w operations depth)).2 :=
    evaluate_keeps (commands_kept hhost w) (fun _ _ => all_true _) l scope _
      (fun _ => (fresh_kept w).congr ⟨rfl,rfl⟩) hleft
  exact evaluate_beyond hhost hkept.resident r scope
    ((hkept.beyond_fresh (Or.inl rfl)).congr ⟨rfl,rfl,rfl⟩ ⟨rfl,rfl,rfl⟩) hafter halone

theorem Own.clean {known : EvalState W} (h : Own host known log) : Clean log :=
  ⟨h.pure,Without.of_isTrouble h.untroubled⟩

end Histories

/-- A pure expression yields the same value after any history of pure evaluations as in a
fresh context over the same store, and operands may be evaluated in either order, as long
as the evaluation alone looks up nothing in vain that the others have left behind. -/
theorem pure_evaluation_transparent {W : Type} (X : Platform) (F : Runtime) (host : Host W)
    (hhost : host.Stores) (env : EvalEnv) :
    (∀ (history : List Evaluation) (w w' : W) (ev : Evaluation) (operations depth : ℕ),
      Clean (evaluateAll X F host env history (.fresh w)).log →
      (w' = w ∨ w' = (evaluateAll X F host env history (.fresh w)).world) →
      Untroubled (ev.run X F host env (evaluateAll X F host env history (.fresh w)).forget).2.log →
      Own host (evaluateAll X F host env history (.fresh w))
        (Evaluation.run X F host env ⟨ev.entity,ev.scope,operations,depth⟩ (.fresh w')).2.log →
      (ev.run X F host env (evaluateAll X F host env history (.fresh w)).forget).1 =
        (Evaluation.run X F host env ⟨ev.entity,ev.scope,operations,depth⟩ (.fresh w')).1) ∧
    (∀ (w : W) (operations depth : ℕ) (left right : Entity) (scope : Scope),
      Untroubled (evaluate X F host env right scope
        (evaluate X F host env left scope (.begin w operations depth)).2).2.log →
      Untroubled (evaluate X F host env left scope
        (evaluate X F host env right scope (.begin w operations depth)).2).2.log →
      Own host (evaluate X F host env left scope (.begin w operations depth)).2
        (evaluate X F host env right scope (.begin w operations depth)).2.log →
      Own host (evaluate X F host env right scope (.begin w operations depth)).2
        (evaluate X F host env left scope (.begin w operations depth)).2.log →
      (evaluate X F host env left scope (.begin w operations depth)).1 =
          (evaluate X F host env left scope
            (evaluate X F host env right scope (.begin w operations depth)).2).1 ∧
        (evaluate X F host env right scope
            (evaluate X F host env left scope (.begin w operations depth)).2).1 =
          (evaluate X F host env right scope (.begin w operations depth)).1) := by
  constructor
  · intro history w w' ev operations depth hclean hw hafter halone
    exact run_after_history hhost ⟨rfl,rfl⟩ hclean hw hafter halone
  · intro w operations depth left right scope hright hleft hright' hleft'
    exact ⟨(operand_after_other hhost hright'.clean hleft hleft').symm,
      operand_after_other hhost hleft'.clean hright hright'⟩

namespace ComputeSample

open Ecf Sample

def note : Doc := ⟨"app/note",.map [(txt "x",integer 1)],
  0xa15d6bb7b8a935392eed82c97cf98c126055ca736956ce9f795044ce858bc4ea⟩

def makeNote : Doc := ⟨"compute/construct",.map [(txt "entity_type",txt "app/note"),
    (txt "fields",.map [(txt "x",one.ref)])],
  0x4cb6c3462df08ee59763cae98540b1256657d8d4c42d7cd6cf99d3925ad6d8da⟩

def noteRef : Doc := literal note.ref
  0x9e0dcec2e6631c1c698adf6166ec06eb430f65ac8c82b924681c5cec25241acf

def readRef : Doc := ⟨"compute/field",.map [(txt "entity",noteRef.ref),(txt "name",txt "x")],
  0x5037e21a51a4521a9b9d29c8cd04d93a098828f3c889812d385572995f1f498f⟩

def readMade : Doc := ⟨"compute/field",.map [(txt "entity",makeNote.ref),(txt "name",txt "x")],
  0x6ad49be3c1bbb9d93433bd1d6ca2b5246f10ee2500a8fa0c3e086a846da56996⟩

def noteDocs : List Doc := [one,note,makeNote,noteRef,readRef,readMade]

def noteStore : ContentStore × MemoryLocationIndex :=
  (⟨[one,makeNote,noteRef,readRef,readMade].map Doc.entity⟩,⟨.empty⟩)

def evaluation (d : Doc) : Evaluation := ⟨d.entity,.empty,100,10⟩

def afterNote : EvalState (ContentStore × MemoryLocationIndex) :=
  evaluateAll (crates noteDocs) words (Host.memory none) (environment none) [evaluation makeNote]
    (.fresh noteStore)

def reading (e : Evaluation) (s : EvalState (ContentStore × MemoryLocationIndex)) :=
  Evaluation.run (crates noteDocs) words (Host.memory none) (environment none) e s

/-- What is left of the construction, and what the two readers find. -/
theorem evaluated_reads :
    ((IsPure afterNote.log ∧ Without Event.isReplaced afterNote.log) ∧
      Untroubled (reading (evaluation readMade) afterNote.forget).2.log ∧
      let own := reading ⟨(evaluation readMade).entity,(evaluation readMade).scope,50,5⟩ (.fresh noteStore)
      Untroubled own.2.log ∧ IsPure own.2.log ∧ Unanswered (Host.memory none) afterNote own.2.log) ∧
    (reading (evaluation readRef) afterNote.forget).1.bind ComputeValue.asI128 = some 1 ∧
    let fresh := reading (evaluation readRef) (.fresh afterNote.world)
    fresh.1.bind ComputeValue.asI128 = none ∧ Untroubled fresh.2.log ∧ IsPure fresh.2.log := by
  decide +kernel

end ComputeSample

open ComputeSample

theorem pure_evaluation_transparent_sample :
    (Evaluation.run (crates noteDocs) words (Host.memory none) (environment none)
        (evaluation readMade) afterNote.forget).1 =
      (Evaluation.run (crates noteDocs) words (Host.memory none) (environment none)
        ⟨readMade.entity,.empty,50,5⟩ (.fresh noteStore)).1 := by
  obtain ⟨⟨⟨hpure,hkept⟩,huntroubled,hown⟩,-⟩ := evaluated_reads
  rw [afterNote] at hpure hkept huntroubled hown ⊢
  exact (pure_evaluation_transparent (crates noteDocs) words (Host.memory none) (Host.memory_stores none)
    (environment none)).1 [evaluation makeNote] noteStore noteStore (evaluation readMade) 50 5
      ⟨hpure,hkept⟩ (.inl rfl) huntroubled ⟨hown.1,hown.2.1,hown.2.2⟩

/-- A literal that is the hash of an entity constructed earlier. -/
theorem literal_reads_history :
    (Evaluation.run (crates noteDocs) words (Host.memory none) (environment none)
        (evaluation readRef) afterNote.forget).1.bind ComputeValue.asI128 = some 1 ∧
      (Evaluation.run (crates noteDocs) words (Host.memory none) (environment none)
        (evaluation readRef) (.fresh afterNote.world)).1.bind ComputeValue.asI128 = none ∧
      Untroubled (Evaluation.run (crates noteDocs) words (Host.memory none) (environment none)
        (evaluation readRef) (.fresh afterNote.world)).2.log ∧
      IsPure (Evaluation.run (crates noteDocs) words (Host.memory none) (environment none)
        (evaluation readRef) (.fresh afterNote.world)).2.log ∧ Clean afterNote.log :=
  let ⟨⟨⟨hpure,hkept⟩,_⟩,hone,hnone,huntroubled,hread⟩ := evaluated_reads
  ⟨hone,hnone,huntroubled,hread,⟨hpure,hkept⟩⟩

end Compute

end EntityCore
