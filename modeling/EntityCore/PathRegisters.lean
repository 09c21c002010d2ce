import EntityCore.CascadeVolume
import EntityCore.EmitSteps

/-! The tree as registers, one for each path: under any run of writes from outside a path holds
what its own writes make of it, whichever of them a chain limit turns down. -/
namespace EntityCore
namespace NotifyingLocationIndex

variable {σ : Type}

/-- What a write makes of what its path holds. -/
def Write.onHeld (path : Str) (held : Option Hash) : Write → Option Hash
  | .set hash => if pathIsStorable path then some hash else held
  | .remove => none
  | .compareAndSwap expected newHash => if held = some expected then some newHash else held
  | .compareAndRemove expected => if held = some expected then none else held
  | .compareAndCreate newHash => held.or (some newHash)

/-- Writes to an invalid path are refused, one and all. -/
def registerAfter (path : Str) (ops : List TopWrite) (held : Option Hash) : Option Hash :=
  ops.foldl (fun held op =>
    if op.path = path ∧ (EntityUri.validateAbsolutePath path).isOk then op.write.onHeld path held
    else held) held

theorem change_get_self (path : Str) (w : Write) (m : MemoryLocationIndex) :
    (w.change path m).1.get path = w.onHeld path (m.get path) := by
  cases w with
  | set hash =>
    show (m.set path hash).get path = _
    rw [MemoryLocationIndex.get_set]
    simp [Write.onHeld]
  | remove => simp [Write.change,Write.onHeld,MemoryLocationIndex.remove,MemoryLocationIndex.get]
  | compareAndSwap expected newHash =>
    simp only [Write.change,MemoryLocationIndex.compareAndSwap]
    cases hp : m.paths.get path with
    | none => simp [Write.onHeld,MemoryLocationIndex.get,hp]
    | some current =>
      by_cases hc : current = expected <;> simp [Write.onHeld,MemoryLocationIndex.get,hp,hc]
  | compareAndRemove expected =>
    simp only [Write.change,MemoryLocationIndex.compareAndRemove]
    cases hp : m.paths.get path with
    | none => simp [Write.onHeld,MemoryLocationIndex.get,hp]
    | some current =>
      by_cases hc : current = expected <;> simp [Write.onHeld,MemoryLocationIndex.get,hp,hc]
  | compareAndCreate newHash =>
    simp only [Write.change,MemoryLocationIndex.compareAndCreate]
    cases hp : m.paths.get path <;> simp [Write.onHeld,MemoryLocationIndex.get,hp]

theorem step_register {c : Consumers σ} (hq : Quiet c) (op : TopWrite)
    {s : NotifyingLocationIndex σ} (hd : s.cascadeDepth = 0) (path : Str) :
    (op.write.run c op.path op.ctx s).state.cascadeDepth = 0 ∧
      (op.write.run c op.path op.ctx s).state.inner.get path =
        registerAfter path [op] (s.inner.get path) := by
  simp only [registerAfter,List.foldl_cons,List.foldl_nil]
  cases hv : EntityUri.validateAbsolutePath op.path with
  | error e =>
    rw [(run_refused (.inl ⟨e,hv⟩) c op.ctx op.write).1,if_neg]
    · exact ⟨hd,rfl⟩
    · rintro ⟨rfl,hok⟩
      rw [hv] at hok
      cases hok
  | ok _ =>
    have hstep := topStep_run hq hv hd
    rw [hstep.inner,apply_eq]
    refine ⟨hstep.depth,?_⟩
    by_cases hpath : op.path = path
    · subst hpath
      rw [if_pos ⟨rfl,by rw [hv]; rfl⟩,change_get_self]
    · rw [if_neg fun h => hpath h.1,change_get_ne (Ne.symm hpath)]

/-- Whatever the writes, their order and their chains, and whichever of them are turned down. -/
theorem run_keeps_registers {c : Consumers σ} (hq : Quiet c) (ops : List TopWrite)
    (s : NotifyingLocationIndex σ) (hd : s.cascadeDepth = 0) (path : Str) :
    (runWrites c ops s).2.inner.get path = registerAfter path ops (s.inner.get path) := by
  induction ops generalizing s with
  | nil => rfl
  | cons op ops ih =>
    obtain ⟨hdepth,hone⟩ := step_register hq op hd path
    rw [runWrites,ih _ hdepth,hone]
    rfl

open WriteSample in
theorem run_keeps_registers_sample : (runWrites quiet (rounds 2) fresh).2.inner.get (treePath "a") =
    registerAfter (treePath "a") (rounds 2) none :=
  run_keeps_registers (c := quiet) quiet_writes_nothing (rounds 2) fresh rfl (treePath "a")

end NotifyingLocationIndex
end EntityCore
