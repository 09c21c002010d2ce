import EntityCore.EmitSteps

/-! What a failed comparison tells its caller, and which keys the index may come to hold. The
inner index answers with the binding it saw; the refusals above it answer with the caller's own
expectation, and of the writes only a plain set asks for a storable path. -/
namespace EntityCore
namespace NotifyingLocationIndex

variable {σ : Type}

/-- The next attempt of a caller that has read the path again. -/
def Write.again (held : Option Hash) : Write → Option Write
  | .compareAndSwap _ newHash | .compareAndCreate newHash =>
    some (held.elim (.compareAndCreate newHash) (.compareAndSwap · newHash))
  | .compareAndRemove _ => held.map .compareAndRemove
  | _ => none

/-- A failure reports the binding, and the next attempt gets through if nobody writes between. -/
def FailsUsefully (c : Consumers σ) (path : Str) (ctx : ExecutionContext) (w : Write)
    (s : NotifyingLocationIndex σ) : Prop :=
  let r := w.run c path ctx s
  ∀ e, r.reply = .error e → SaysWhatItSaw (s.inner.get path) w.expected e ∧
    ∀ w' ∈ w.again (r.state.inner.get path), ∃ result, (w'.run c path ctx r.state).reply = .ok result

def KeysStorable (m : MemoryLocationIndex) : Prop :=
  ∀ path, m.get path ≠ none → pathIsStorable path = true

/-- One call, whoever makes it: the counters and what the consumers keep are those of its moment,
the index is the one that the calls before it left. -/
structure Call (σ : Type) where
  path : Str
  ctx : ExecutionContext
  write : Write
  around : NotifyingLocationIndex σ

def Call.meets (call : Call σ) (m : MemoryLocationIndex) : NotifyingLocationIndex σ :=
  { call.around with inner := m }

/-- The calls in the order in which they reach the index. What a consumer writes while a call is
delivered is a call of its own, behind the write that is delivered. -/
def Sound (c : Consumers σ) : List (Call σ) → MemoryLocationIndex → Prop
  | [], m => KeysStorable m
  | call::calls, m => KeysStorable m ∧
    FailsUsefully c call.path call.ctx call.write (call.meets m) ∧
    Sound c calls (call.write.enter call.path call.ctx (call.meets m)).2.inner

/-- A comparison gets past the two refusals, and creates a binding only at a storage key. -/
def Call.Fits (call : Call σ) : Prop :=
  (call.write.compares = true → ¬ Refused call.path call.around) ∧
    ∀ newHash, call.write = .compareAndCreate newHash → pathIsStorable call.path = true

/-! One call. -/

section Reply

variable {path : Str} {s : NotifyingLocationIndex σ} (c : Consumers σ) (ctx : ExecutionContext)

/-- Past the refusals a failure is that of the inner index, and leaves everything as it was. -/
theorem run_failed (h : ¬ Refused path s) {w : Write} {e : CasError}
    (he : (w.run c path ctx s).reply = .error e) :
    SaysWhatItSaw (s.inner.get path) w.expected e ∧ w.expected ≠ s.inner.get path ∧
      (w.run c path ctx s).state = s := by
  rw [run_change h] at he ⊢
  by_cases hidle : Idle (s.inner.get path) w
  · obtain ⟨hnone,hsettled⟩ := idle_settled hidle
    rw [hnone] at he ⊢
    rw [show w.settled path s.inner = .error e from he] at hsettled
    exact ⟨hsettled.2.1,hsettled.2.2,congrArg (fun m => { s with inner := m }) hsettled.1⟩
  · obtain ⟨⟨change,hchange,-⟩,-⟩ := busy_changes hidle
    rw [hchange] at he
    cases he

/-- An attempt with what the path really holds is not turned down by the index. -/
theorem again_succeeds (h : ¬ Refused path s) (w : Write) :
    ∀ w' ∈ w.again (s.inner.get path), ∃ result, (w'.run c path ctx s).reply = .ok result := by
  intro w' hw'
  have hexpects : w'.expected = s.inner.get path := by
    cases hp : s.inner.get path <;> cases w <;> rw [hp] at hw' <;> cases hw' <;> rfl
  cases hr : (w'.run c path ctx s).reply with
  | ok result => exact ⟨result,rfl⟩
  | error e => exact absurd hexpects (run_failed c ctx h hr).2.1

theorem failsUsefully_iff (w : Write) :
    FailsUsefully c path ctx w s ↔ (w.compares = true → ¬ Refused path s) := by
  constructor
  · intro hf hw hr
    obtain ⟨hstate,-,hreply⟩ := run_refused hr c ctx w
    cases he : (w.run c path ctx s).reply with
    | ok result =>
      rw [he] at hreply
      rw [hreply.1] at hw
      cases hw
    | error e =>
      rw [he] at hreply
      obtain ⟨-,rfl⟩ := hreply
      obtain ⟨⟨hheld,hne⟩,hagain⟩ := hf _ he
      rw [hstate,hheld] at hagain
      cases w with
      | set hash => cases hw
      | remove => cases hw
      | compareAndSwap expected newHash => exact hne rfl
      | compareAndRemove expected => exact hne rfl
      | compareAndCreate newHash =>
        -- whatever is there, the swap that follows is refused as well
        obtain ⟨result,hresult⟩ := hagain _ rfl
        have hrefused := (run_refused hr c ctx (.compareAndSwap Hash.zero newHash)).2.2
        replace hresult : (Write.run c path ctx s (.compareAndSwap Hash.zero newHash)).reply =
          .ok result := hresult
        rw [hresult] at hrefused
        cases hrefused.1
  · intro hw e he
    have hnot : ¬ Refused path s := by
      cases w with
      | set hash => cases he
      | remove => cases he
      | _ => exact hw rfl
    obtain ⟨hsaw,-,hstate⟩ := run_failed c ctx hnot he
    rw [hstate]
    exact ⟨hsaw,again_succeeds c ctx hnot w⟩

end Reply

theorem keysStorable_change {m : MemoryLocationIndex} (hm : KeysStorable m) (w : Write)
    (path : Str) : KeysStorable (w.change path m).1 ↔
      ∀ newHash, w = .compareAndCreate newHash → pathIsStorable path = true := by
  constructor
  · rintro h newHash rfl
    refine h path ?_
    simp only [Write.change,MemoryLocationIndex.compareAndCreate]
    cases hp : m.paths.get path with
    | none => simp
    | some current => simp [MemoryLocationIndex.get,hp]
  · intro h p hp
    by_cases hpath : p = path
    · subst hpath
      by_cases hget : m.paths.get p = none
      · -- an unbound path is bound by a set or by a creation only
        cases w with
        | set hash =>
          by_contra hs
          have hsame : m.set p hash = m :=
            MemoryLocationIndex.set_of_not_storable (Bool.eq_false_iff.mpr hs) m hash
          exact hp ((congrArg (·.get p) hsame).trans hget)
        | remove => simp [Write.change,MemoryLocationIndex.remove] at hp
        | compareAndSwap expected newHash =>
          simp [Write.change,MemoryLocationIndex.compareAndSwap,MemoryLocationIndex.get,hget] at hp
        | compareAndRemove expected =>
          simp [Write.change,MemoryLocationIndex.compareAndRemove,MemoryLocationIndex.get,hget] at hp
        | compareAndCreate newHash => exact h newHash rfl
      · exact hm p hget
    · rw [change_get_ne hpath] at hp
      exact hm p hp

theorem fits_iff (c : Consumers σ) (call : Call σ) {m : MemoryLocationIndex} (hm : KeysStorable m) :
    FailsUsefully c call.path call.ctx call.write (call.meets m) ∧
      KeysStorable (call.write.enter call.path call.ctx (call.meets m)).2.inner ↔ call.Fits := by
  rw [failsUsefully_iff,enter_inner,Call.Fits]
  refine and_congr_right fun hw => ?_
  by_cases hr : Refused call.path (call.meets m)
  · rw [if_neg fun h => admits_iff.mp h hr]
    refine iff_of_true hm fun newHash he => absurd hr (hw ?_)
    rw [he]
    rfl
  · rw [if_pos (admits_iff.mpr hr)]
    exact keysStorable_change hm call.write call.path

/-! Runs. -/

theorem Sound.keys {c : Consumers σ} {calls : List (Call σ)} {m : MemoryLocationIndex}
    (h : Sound c calls m) : KeysStorable m := by
  cases calls with
  | nil => exact h
  | cons call calls => exact h.1

theorem sound_from (c : Consumers σ) (calls : List (Call σ)) {m : MemoryLocationIndex}
    (hm : KeysStorable m) : Sound c calls m ↔ ∀ call ∈ calls, call.Fits := by
  induction calls generalizing m with
  | nil => simp [Sound,hm]
  | cons call calls ih =>
    rw [List.forall_mem_cons,← fits_iff c call hm]
    constructor
    · rintro ⟨-,huse,hrest⟩
      exact ⟨⟨huse,hrest.keys⟩,(ih hrest.keys).mp hrest⟩
    · rintro ⟨⟨huse,hkeys⟩,hrest⟩
      exact ⟨hm,huse,(ih hkeys).mpr hrest⟩

/-- Every failed comparison reports the binding and the next attempt succeeds, and every key is
storable at all times, exactly if the comparisons pass the two refusals and the creations among
them are at storable paths. -/
theorem failures_useful_iff (c : Consumers σ) (calls : List (Call σ)) :
    Sound c calls ⟨.empty⟩ ↔ ∀ call ∈ calls, call.Fits :=
  sound_from c calls fun _ hpath => absurd rfl hpath

namespace WriteSample

def unwritten : NotifyingLocationIndex Unit := ⟨⟨.empty⟩,0,.empty,()⟩

def relativeSwap : Call Unit := ⟨"a".toList,{},.compareAndSwap Hash.zero Hash.zero,unwritten⟩

/-- The tree-path check lets a parent segment through. -/
def dottedCreate : Call Unit := ⟨treePath "a/../b",{},.compareAndCreate Hash.zero,unwritten⟩

end WriteSample

open WriteSample in
/-- A swap at an unbound path is told that the path holds what it expects; a creation makes a
key that is not storable. -/
theorem failures_mislead : ¬ Sound WriteSample.quiet [relativeSwap] ⟨.empty⟩ ∧
      ¬ Sound WriteSample.quiet [dottedCreate] ⟨.empty⟩ := by
  constructor
  · rintro ⟨-,huse,-⟩
    obtain ⟨⟨hheld,-⟩,-⟩ := huse (.mismatch Hash.zero) rfl
    cases hheld
  · rintro ⟨hempty,huse,hkeys⟩
    have hs := ((fits_iff WriteSample.quiet dottedCreate hempty).mp ⟨huse,hkeys⟩).2 _ rfl
    revert hs
    decide

end NotifyingLocationIndex
end EntityCore
