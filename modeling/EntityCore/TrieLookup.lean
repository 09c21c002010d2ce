import EntityCore.UntrustedTrie

/-! A trie that was built by puts and removes, as a map: what a lookup in it finds. -/
namespace EntityCore

open Outcome

variable {X : Platform}

theorem get_part (level : ℕ) (m : OrderedMap Str Hash) (key : Str) :
    (part X level m (slot X level key)).get key = m.get key := by
  rw [part,OrderedMap.get_filterKeys]
  simp

theorem find_entries (m : OrderedMap Str Hash) (key : Str) :
    (m.entries.find? fun t => t.1 = key).map Prod.snd = m.get key := by
  cases hfind : m.entries.find? fun t => t.1 = key with
  | none =>
    refine (OrderedMap.lookup_eq_none fun hmem => ?_).symm
    obtain ⟨t,ht,hkey⟩ := List.mem_map.mp hmem
    simpa [hkey] using List.find?_eq_none.mp hfind t ht
  | some t =>
    obtain rfl : t.1 = key := by simpa using List.find?_some hfind
    exact ((m.mem_entries t.1 t.2).mp (List.mem_of_find?_eq_some hfind)).symm

/-- A lookup goes down from part to part and ends in the bucket of its key. -/
theorem trieGetLoop_canon {s t : ContentStore} (ht : t.Faithful X) (hst : s ≤ t) (key : Str)
    {left level : ℕ} {keys : Set Str} (hleft : level+left = levels) (hlevel : level < levels)
    (hkin : Kin X level keys) {m : OrderedMap Str Hash} (hm : Within m keys)
    (hs : SubsStored X s left level m) :
    trieGetLoop X s key left (canon X left level m) level = .ok (m.get key) := by
  induction left generalizing level keys m with
  | zero => omega
  | succ left ih =>
    have hp := (bitSliceAt_ok (X := X) hlevel key).2
    have hpos := position_ofSlots (canonSlots X left level m) hp
    have hset : occupied X key (level,canon X (left+1) level m) =
        (canonSlots X left level m (slot X level key)).isSome := by
      rw [occupied,canon_succ,hpos]
    have hentry : ∀ e, canonSlots X left level m (slot X level key) = some e →
        trieStep X key (canon X (left+1) level m) level = .ok (entryStep key e) := by
      intro e he
      have hget := (holds_ofSlots (canonSlots X left level m)).get hp he
      refine trieStep_entry (p := (level,canon X (left+1) level m)) hlevel (by simp [hset,he]) ?_
      rw [place,canon_succ,hpos]
      exact hget
    rw [← get_part level m key]
    set sub := part X level m (slot X level key) with hsub
    by_cases hbig : bucketSize < sub.entries.length
    · obtain ⟨hnode,hsubs⟩ := hs _ hbig
      have hlt := (hkin.part (slot X level key)).level_lt (hm.part level _) hbig
      rw [trieGetLoop,hentry _ (canonEntry_link hbig)]
      have hdown := ih (by omega) (by unfold levels; omega) (hkin.part _) (hm.part level _) hsubs
      simpa [entryStep,load_of_storedIn ht hst hnode] using hdown
    · by_cases h0 : sub.entries.length = 0
      · have hnone : sub.get key = none := by
          rw [← find_entries,List.eq_nil_of_length_eq_zero h0]
          rfl
        have hstep : trieStep X key (canon X (left+1) level m) level = .ok .absent := by
          refine trieStep_empty (p := (level,canon X (left+1) level m)) hlevel ?_
          rw [hset,canonSlots,canonEntry_eq_none.mpr h0]
          rfl
        simp [trieGetLoop,hstep,hnone]
      · rw [trieGetLoop,hentry _ (canonEntry_bucket h0 (not_lt.mp hbig)),← find_entries]
        cases hfind : sub.entries.find? fun t => t.1 = key <;> simp [entryStep,← hsub,hfind]

/-- What the last operation on a key leaves there. -/
def lastWritten (key : Str) (ops : List TrieOp) : Option Hash :=
  ops.foldl (fun held op => if op.key = key then (match op with
    | .put _ v => some v
    | .remove _ => none) else held) none

theorem get_finalBindings (key : Str) (ops : List TrieOp) :
    (finalBindings ops).get key = lastWritten key ops := by
  refine (List.foldl_hom (fun m : OrderedMap Str Hash => m.get key) fun m op => ?_).symm
  cases op <;> simp [TrieOp.key,TrieOp.apply,eq_comm]

/-- After any run a lookup finds what the last operation on its key left. -/
theorem run_looked_up (X : Platform) (hX : X.FormatAllocated) (fuel : ℕ) (hfuel : levels ≤ fuel)
    (ops : List TrieOp) (start : Option Hash) (s : ContentStore) (h : TrieRun X fuel ops start s) :
    ∃ root, (runTrie X fuel ops start s).1 = .ok (some root) ∧
      ∀ key, trieGet X (runTrie X fuel ops start s).2 key root = .ok (lastWritten key ops) := by
  obtain ⟨s₁,hrun,hs₁,hwithin⟩ := h.rooted hX hfuel
  have hf := h.faithful
  rw [hrun] at hf ⊢
  refine ⟨rootHashOf X (finalBindings ops),rfl,fun key => ?_⟩
  rw [trieGet,rootHashOf,load_of_storedIn hf le_rfl hs₁.root,← get_finalBindings]
  exact trieGetLoop_canon hf le_rfl key (Nat.zero_add levels) (by decide) h.spread.kin hwithin hs₁.subs

open TrieSample in
theorem run_looked_up_sample : ∃ root, (runTrie crates levels ops none ⟨[]⟩).1 = .ok (some root) ∧
    ∀ key, trieGet crates finalStore key root = .ok (lastWritten key ops) := by
  rw [finalStore_eq]
  exact run_looked_up crates (by decide) levels le_rfl ops none ⟨[]⟩
    ⟨.inl ⟨rfl,by decide⟩,run_spread,run_faithful⟩

end EntityCore
