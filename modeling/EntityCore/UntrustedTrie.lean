import EntityCore.TrieHistory

/-! Walks over a trie that somebody else has built. A node that decodes need not have an
entry for every bit of its bitmap, nor need its links end before the slices of a key do. -/
namespace EntityCore

open Outcome Relation Action

variable {s : ContentStore} {α β : Type} {p q : ℕ × SnapshotNodeData} {level left : ℕ}
  {m : Action ContentStore TrieFailure α} {f : α → Action ContentStore TrieFailure β}

inductive TrieStep where
  | found (hash : Hash)
  | descend (hash : Hash)
  | absent

variable (X : Platform) (s : ContentStore) (key : Str)

/-- Where an entry leads the lookup. -/
def entryStep : Entry → TrieStep
  | .bucket tuples =>
    ((tuples.find? fun t => t.1 = key).map fun t => TrieStep.found t.2).getD .absent
  | .link subHash => .descend subHash

def trieStep (node : SnapshotNodeData) (level : ℕ) : Except TrieFailure TrieStep := do
  let p ← bitSliceAt (keyHash X key) level
  if !(position node.map p).1 then return .absent
  else do
    let entry ← entryAt node (position node.map p).2
    return entryStep key entry

/-- The loop of `trie_get`; with no levels left a step has panicked. -/
def trieGetLoop : ℕ → SnapshotNodeData → ℕ → Except TrieFailure (Option Hash)
  | 0, _, _ => .error (.panicked "index out of bounds")
  | left+1, node, level => do
    let step ← trieStep X key node level
    match step with
    | .found h => return some h
    | .absent => return none
    | .descend sub => match loadTrieNode X s sub with
      | none => return none
      | some node' => trieGetLoop left node' (level+1)

def trieGet (rootHash : Hash) : Except TrieFailure (Option Hash) :=
  match loadTrieNode X s rootHash with
  | none => .ok none
  | some node => trieGetLoop X s key levels node 0

/-! The path of a key. -/

/-- A node at a level has the key's position set. -/
def occupied (p : ℕ × SnapshotNodeData) : Bool := (position p.2.map (slot X p.1 key)).1

/-- Where the entry for the key stands. -/
def place (p : ℕ × SnapshotNodeData) : ℕ := (position p.2.map (slot X p.1 key)).2

/-- From a node to the one that its entry for the key links to. -/
def Below (p q : ℕ × SnapshotNodeData) : Prop :=
  p.1 < levels ∧ occupied X key p = true ∧ q.1 = p.1+1 ∧
    ∃ h, p.2.data[place X key p]? = some (.link h) ∧ loadTrieNode X s h = some q.2

def OnPath (rootHash : Hash) (level : ℕ) (node : SnapshotNodeData) : Prop :=
  ∃ top, loadTrieNode X s rootHash = some top ∧ ReflTransGen (Below X s key) (0,top) (level,node)

/-- The key has a slice for the level, and a set position has its entry. -/
def Entered (p : ℕ × SnapshotNodeData) : Prop :=
  p.1 < levels ∧ (occupied X key p = true → place X key p < p.2.data.length)

/-- And where the path ends the key can be put: there is room to insert, and a full bucket
and the key can be told apart by the slices left. -/
def Puttable (p : ℕ × SnapshotNodeData) : Prop :=
  Entered X key p ∧ (occupied X key p = false → place X key p ≤ p.2.data.length) ∧
    ∀ tuples : List (Str × Hash), occupied X key p = true →
      p.2.data[place X key p]? = some (.bucket tuples) → key ∉ tuples.map Prod.fst →
      bucketSize ≤ tuples.length →
      p.1+1 < levels ∧ Apart X (p.1+1) {k | k = key ∨ k ∈ tuples.map Prod.fst}

/-- Neither a panic nor a run without end. -/
def Returns {α : Type} (r : Except TrieFailure α) : Prop :=
  ∀ failure, r = .error failure → ∃ text, failure = .message text

variable {X s key}

/-! What holds along a path holds at its start and along the rest. -/

theorem Below.unique {q' : ℕ × SnapshotNodeData} (h : Below X s key p q)
    (h' : Below X s key p q') : q = q' := by
  obtain ⟨-,-,hlevel,k,hk,hload⟩ := h
  obtain ⟨-,-,hlevel',k',hk',hload'⟩ := h'
  obtain rfl := Entry.link.inj (Option.some.inj (hk.symm.trans hk'))
  exact Prod.ext (hlevel.trans hlevel'.symm) (Option.some.inj (hload.symm.trans hload'))

section Along

variable {P : ℕ × SnapshotNodeData → Prop} {p q : ℕ × SnapshotNodeData}

theorem along_end (h : ∀ q, ¬Below X s key p q) :
    (∀ q, ReflTransGen (Below X s key) p q → P q) ↔ P p := by
  constructor
  · intro hall
    exact hall p .refl
  · intro hp q hq
    rcases hq.cases_head with rfl | ⟨r,hr,-⟩
    · exact hp
    · exact absurd hr (h r)

theorem along_below (h : Below X s key p q) : (∀ r, ReflTransGen (Below X s key) p r → P r) ↔
      P p ∧ ∀ r, ReflTransGen (Below X s key) q r → P r := by
  constructor
  · intro hall
    exact ⟨hall p .refl,fun r hr => hall r (hr.head h)⟩
  · rintro ⟨hp,hall⟩ r hr
    rcases hr.cases_head with rfl | ⟨q',hq',hr⟩
    · exact hp
    · exact hall r (h.unique hq' ▸ hr)

end Along

theorem not_below_empty (h : occupied X key p = false) : ¬Below X s key p q := by
  rintro ⟨-,hset,-⟩
  rw [h] at hset
  cases hset

theorem not_below_entry {e : Entry} (h : p.2.data[place X key p]? = some e)
    (he : ∀ k, e = .link k → loadTrieNode X s k = none) : ¬Below X s key p q := by
  rintro ⟨-,-,-,k,hk,hload⟩
  rw [he k (Option.some.inj (h.symm.trans hk))] at hload
  cases hload

theorem entered_of_get {e : Entry} (hlevel : p.1 < levels)
    (h : p.2.data[place X key p]? = some e) : Entered X key p :=
  ⟨hlevel,fun _ => (List.getElem?_eq_some_iff.mp h).1⟩

theorem not_entered (hset : occupied X key p = true)
    (h : p.2.data[place X key p]? = none) : ¬Entered X key p := by
  rintro ⟨-,hplace⟩
  have := hplace hset
  have := List.getElem?_eq_none_iff.mp h
  omega

theorem bitSliceAt_past (h : levels ≤ level) :
    ∃ text, bitSliceAt (keyHash X key) level = .error (.panicked text) := by
  have hlen : (keyHash X key).length = 32 := X.sha256_length _
  have hbyte : (keyHash X key)[level*bitWidth/8]? = none := by
    rw [List.getElem?_eq_none_iff,hlen]
    unfold bitWidth
    unfold levels at h
    omega
  refine ⟨"index out of bounds",?_⟩
  unfold bitSliceAt
  dsimp only
  rw [hbyte]
  rfl

/-! A lookup. -/

section Lookup

variable {p : ℕ × SnapshotNodeData} (hlevel : p.1 < levels)

include hlevel

theorem trieStep_at : trieStep X key p.2 p.1 = if (!occupied X key p) = true then .ok .absent
    else (entryAt p.2 (place X key p)).map (entryStep key) := by
  unfold trieStep
  rw [(bitSliceAt_ok (X := X) hlevel key).1]
  show (if (!occupied X key p) = true then pure TrieStep.absent
    else entryAt p.2 (place X key p) >>= _) = _
  split_ifs
  · rfl
  · cases entryAt p.2 (place X key p) <;> rfl

theorem trieStep_empty (hset : occupied X key p = false) :
    trieStep X key p.2 p.1 = .ok .absent := by
  simp [trieStep_at hlevel,hset]

theorem trieStep_entry (hset : occupied X key p = true) {e : Entry}
    (h : p.2.data[place X key p]? = some e) : trieStep X key p.2 p.1 = .ok (entryStep key e) := by
  simp [trieStep_at hlevel,hset,entryAt,h,okOr,Except.map]

end Lookup

theorem trieStep_ok (p : ℕ × SnapshotNodeData) :
    (∃ step, trieStep X key p.2 p.1 = .ok step) ↔ Entered X key p := by
  by_cases hlevel : p.1 < levels
  · cases hset : occupied X key p with
    | false => simp [trieStep_empty hlevel hset,Entered,hlevel,hset]
    | true =>
      cases hentry : p.2.data[place X key p]? with
      | none =>
        have hno := not_entered hset hentry
        simp [trieStep_at hlevel,hset,entryAt,hentry,okOr,hno,Except.map]
      | some e =>
        have hyes := entered_of_get hlevel hentry
        simp [trieStep_entry hlevel hset hentry,hyes]
  · obtain ⟨text,hpast⟩ : ∃ text, bitSliceAt (keyHash X key) p.1 = .error (.panicked text) :=
      bitSliceAt_past (not_lt.mp hlevel)
    have hno : ¬Entered X key p := fun h => hlevel h.1
    simp [trieStep,hpast,hno,bind,Except.bind]

theorem trieGetLoop_ok (left : ℕ) : ∀ p : ℕ × SnapshotNodeData, p.1+left = levels →
    ((∃ r, trieGetLoop X s key left p.2 p.1 = .ok r) ↔
      ∀ q, ReflTransGen (Below X s key) p q → Entered X key q) := by
  induction left with
  | zero =>
    intro p hp
    have hno : ¬Entered X key p := fun h => absurd h.1 (by omega)
    constructor
    · rintro ⟨r,hr⟩
      cases hr
    · intro h
      exact absurd (h p .refl) hno
  | succ left ih =>
    intro p hp
    have hlevel : p.1 < levels := by omega
    cases hset : occupied X key p with
    | false =>
      rw [along_end fun q => not_below_empty hset]
      simp [trieGetLoop,trieStep_empty hlevel hset,Entered,hlevel,hset]
    | true =>
      cases hentry : p.2.data[place X key p]? with
      | none =>
        have hno := not_entered hset hentry
        constructor
        · rintro ⟨r,hr⟩
          rw [trieGetLoop,bind_ok] at hr
          obtain ⟨step,hstep,-⟩ := hr
          exact absurd ((trieStep_ok p).mp ⟨step,hstep⟩) hno
        · intro h
          exact absurd (h p .refl) hno
      | some e =>
        have hyes := entered_of_get hlevel hentry
        have hstep := trieStep_entry hlevel hset hentry
        cases e with
        | bucket tuples =>
          rw [along_end fun q => not_below_entry hentry (by nofun)]
          cases hfind : tuples.find? fun t => t.1 = key with
          | none => simp [trieGetLoop,hstep,entryStep,hfind,hyes]
          | some t => simp [trieGetLoop,hstep,entryStep,hfind,hyes]
        | link h =>
          cases hload : loadTrieNode X s h with
          | none =>
            rw [along_end fun q => not_below_entry hentry (by simp [hload])]
            simp [trieGetLoop,hstep,entryStep,hload,hyes]
          | some sub =>
            have hbelow : Below X s key p (p.1+1,sub) := ⟨hlevel,hset,rfl,h,hentry,hload⟩
            rw [along_below hbelow,← ih (p.1+1,sub) (by dsimp only; omega)]
            simp [trieGetLoop,hstep,entryStep,hload,hyes]

/-! Computations that return. -/

theorem returns_ok (a : α) : Returns (.ok a) := fun _ h => by cases h

theorem returns_message (text : String) : Returns (α := α) (.error (.message text)) := by
  intro failure h
  exact ⟨text,(Except.error.inj h).symm⟩

theorem not_returns_panicked (text : String) : ¬Returns (α := α) (.error (.panicked text)) := by
  intro h
  obtain ⟨text',hpanic⟩ := h _ rfl
  cases hpanic

theorem returns_bind :
    Returns ((m >>= f) s).1 ↔ Returns (m s).1 ∧ ∀ a s', m s = (.ok a,s') → Returns (f a s').1 := by
  show Returns (andThen m f s).1 ↔ _
  unfold andThen
  cases hm : m s with
  | mk r s₁ => cases r with
    | ok a => simp [returns_ok]
    | error e =>
      simp only [reduceCtorEq,Prod.mk.injEq,false_and,false_implies,implies_true,and_true]
      constructor
      · intro h failure hfailure
        exact h failure (by rw [Except.error.inj hfailure])
      · intro h failure hfailure
        exact h failure (by rw [Except.error.inj hfailure])

theorem loadSub_found {X : Platform} {h : Hash} {sub : SnapshotNodeData}
    (hload : loadTrieNode X s h = some sub) : loadSub X h s = (.ok sub,s) := by
  rw [loadSub,reading_apply,hload]
  rfl

theorem returns_missing {X : Platform} {h : Hash}
    (hload : loadTrieNode X s h = none) (f : SnapshotNodeData → Action ContentStore TrieFailure β) :
    Returns ((loadSub X h >>= f) s).1 := by
  refine returns_bind.mpr ⟨?_,?_⟩
  · rw [loadSub,reading_apply,hload]
    exact returns_message _
  · intro a s' ha
    rw [loadSub,reading_apply,hload] at ha
    cases ha

theorem returns_bind_of (hf : ∀ a s, Returns (f a s).1) :
    Returns ((m >>= f) s).1 ↔ Returns (m s).1 :=
  returns_bind.trans (and_iff_left fun a s' _ => hf a s')

theorem returns_store (n : SnapshotNodeData) (s : ContentStore) :
    Returns (storeTrieNode X n s).1 := by
  unfold storeTrieNode
  cases n.toEntity X with
  | ok e => exact returns_ok _
  | error e => exact returns_message _

theorem returns_link (n : SnapshotNodeData) (s : ContentStore) : Returns ((do
    let h ← storeTrieNode X n
    pure (Entry.link h) : Action ContentStore TrieFailure Entry) s).1 :=
  (returns_bind_of fun _ _ => returns_ok _).mpr (returns_store n s)

theorem foldlM_snoc (f : β → α → Action ContentStore TrieFailure β) (l : List α) (a : α)
    (b : β) (s : ContentStore) : (l++[a]).foldlM f b s = (l.foldlM f b >>= fun b' => f b' a) s := by
  induction l generalizing b s with
  | nil =>
    show andThen (f b a) pure s = f b a s
    unfold andThen
    cases f b a s with
    | mk r s' => cases r <;> rfl
  | cons c l ih =>
    show andThen (f b c) (fun b' => (l++[a]).foldlM f b') s =
      andThen (andThen (f b c) fun b' => l.foldlM f b') (fun b' => f b' a) s
    unfold andThen
    cases f b c s with
    | mk r s' => cases r with
      | ok b' => exact ih b' s'
      | error e => rfl

/-! Bindings put again below a full bucket. -/

def boundKeys (m : OrderedMap Str Hash) : Set Str := {k | m.get k ≠ none}

theorem within_boundKeys (m : OrderedMap Str Hash) : Within m (boundKeys m) := by
  intro t ht
  have hget := (m.mem_entries t.1 t.2).mp ht
  show m.get t.1 ≠ none
  rw [hget]
  nofun

theorem boundKeys_insert (m : OrderedMap Str Hash) (k : Str) (v : Hash) :
    boundKeys (m.insert k v) = insert k (boundKeys m) := by
  ext j
  by_cases hj : j = k <;> simp [boundKeys,hj]

theorem boundKeys_part (level : ℕ) (m : OrderedMap Str Hash) (p : ℕ) :
    boundKeys (part X level m p) = {k ∈ boundKeys m | slot X level k = p} := by
  ext j
  by_cases hj : slot X level j = p <;> simp [boundKeys,part,hj]

theorem mem_entries_of_bound {m : OrderedMap Str Hash} {k : Str} (h : k ∈ boundKeys m) :
    k ∈ m.entries.map Prod.fst := by
  obtain ⟨v,hv⟩ := Option.ne_none_iff_exists'.mp h
  exact List.mem_map.mpr ⟨(k,v),(m.mem_entries k v).mpr hv,rfl⟩

theorem Apart.subset {keys keys' : Set Str} (h : Apart X level keys)
    (hsub : keys' ⊆ keys) : Apart X level keys' :=
  fun ks hnodup hlen hmem => h ks hnodup hlen fun k hk => hsub (hmem k hk)

theorem apart_empty (level : ℕ) : Apart X level (boundKeys .empty) := by
  intro ks _ hlen hmem
  obtain ⟨k,hk⟩ := List.exists_mem_of_length_pos (l := ks) (by omega)
  exact absurd (OrderedMap.get_empty k) (hmem k hk)

/-- Where a key is one too many, it shares its position with three others, and is one too
many there. -/
theorem crowded_slot {m : OrderedMap Str Hash} {k : Str} (hlevel : level < levels)
    (hm : Apart X level (boundKeys m)) (hbad : ¬Apart X level (insert k (boundKeys m))) :
    m.get k = none ∧ bucketSize ≤ (part X level m (slot X level k)).entries.length ∧
      ¬Apart X (level+1) (insert k (boundKeys (part X level m (slot X level k)))) := by
  have hnone : m.get k = none := by
    by_contra hsome
    exact hbad (by rwa [Set.insert_eq_of_mem hsome])
  unfold Apart at hbad
  push Not at hbad
  obtain ⟨ks,hnodup,hlen,hmem,hsame⟩ := hbad
  have hk : k ∈ ks := by
    by_contra hk
    obtain ⟨j,hj,hlt,a,ha,b,hb,hne⟩ := hm ks hnodup hlen fun a ha =>
      (hmem a ha).resolve_left (by rintro rfl; exact hk ha)
    exact hne (hsame j hj hlt a ha b hb)
  have hpart : ∀ a ∈ ks, a ≠ k → a ∈ boundKeys (part X level m (slot X level k)) := by
    intro a ha hne
    rw [boundKeys_part]
    exact ⟨(hmem a ha).resolve_left hne,hsame level le_rfl hlevel a ha k hk⟩
  refine ⟨hnone,?_,?_⟩
  · have hsub : ks.erase k ⊆ (part X level m (slot X level k)).entries.map Prod.fst := by
      intro a ha
      have hne : a ≠ k := fun h => (hnodup.not_mem_erase) (h ▸ ha)
      exact mem_entries_of_bound (hpart a (List.mem_of_mem_erase ha) hne)
    have hle := ((hnodup.erase k).subperm hsub).length_le
    rw [List.length_erase_of_mem hk,hlen,List.length_map] at hle
    exact hle
  · intro hgood
    obtain ⟨j,hj,hlt,a,ha,b,hb,hne⟩ := hgood ks hnodup hlen fun a ha => by
      by_cases hak : a = k
      · exact .inl hak
      · exact .inr (hpart a ha hak)
    exact hne (hsame j (by omega) hlt a ha b hb)

theorem putAtNode_at (hlevel : p.1 < levels) (left : ℕ) (v : Hash) :
    putAtNode X (left+1) p.2 (keyHash X key) p.1 key v =
      if (!occupied X key p) = true then (do
        let newData ← .lift (insertAt p.2 (place X key p) (.bucket [(key,v)]))
        pure ⟨p.2.map ||| 1#32 <<< slot X p.1 key,newData⟩)
      else (do
        let entry ← .lift (entryAt p.2 (place X key p))
        let newEntry ← putEntry X (fun sub hb k v => putAtNode X left sub hb (p.1+1) k v)
          (keyHash X key) key v entry
        pure ⟨p.2.map,p.2.data.set (place X key p) newEntry⟩) := by
  have hlift : ∀ s, (lift (bitSliceAt (keyHash X key) p.1) :
      Action ContentStore TrieFailure ℕ) s = (.ok (slot X p.1 key),s) := by
    intro s
    rw [(bitSliceAt_ok (X := X) hlevel key).1]
    rfl
  funext s
  rw [putAtNode,bind_of_ok (hlift s)]
  rfl

theorem grows_rest (f : Entry → SnapshotNodeData) (e : Entry) : Action.Grows
    (pure (f e) : Action ContentStore TrieFailure SnapshotNodeData) := grows_pure _

section Rebuild

variable {t : ContentStore} (hX : X.FormatAllocated) (ht : t.Faithful X)

include hX ht

/-- Into a node of bindings that part a key goes that does not: the put runs past the last
slice. The induction follows the key down. -/
theorem put_stuck (left : ℕ) : ∀ (level : ℕ) (m : OrderedMap Str Hash) (k : Str) (v : Hash)
    (s : ContentStore), level+left = levels → Apart X level (boundKeys m) →
    ¬Apart X level (insert k (boundKeys m)) → SubsStored X s left level m →
    (putAtNode X left (canon X left level m) (keyHash X k) level k v s).2 ≤ t →
    ¬Returns (putAtNode X left (canon X left level m) (keyHash X k) level k v s).1 := by
  induction left with
  | zero =>
    intro level m k v s _ _ _ _ _
    exact not_returns_panicked _
  | succ left ih =>
    intro level m k v s hleft hm hbad hs hle
    have hlevel : level < levels := by omega
    obtain ⟨hnone,hthree,hbelow⟩ := crowded_slot hlevel hm hbad
    have happart : Apart X (level+1) (boundKeys (part X level m (slot X level k))) := by
      rw [boundKeys_part]
      exact hm.part _
    have hnonePart : (part X level m (slot X level k)).get k = none := by simp [part,hnone]
    have hp := (bitSliceAt_ok (X := X) hlevel k).2
    have hpos := position_ofSlots (canonSlots X left level m) hp
    rw [canon_succ] at hle ⊢
    rw [putAtNode_at (p := (level,ofSlots (canonSlots X left level m))) hlevel] at hle ⊢
    obtain ⟨e,he⟩ : ∃ e, canonSlots X left level m (slot X level k) = some e := by
      apply Option.ne_none_iff_exists'.mp
      intro hn
      have h0 := canonEntry_eq_none.mp hn
      unfold bucketSize at hthree
      omega
    have hset : occupied X k (level,ofSlots (canonSlots X left level m)) = true := by
      simp [occupied,hpos,he]
    have hentry : (lift (entryAt (ofSlots (canonSlots X left level m))
        (place X k (level,ofSlots (canonSlots X left level m)))) :
        Action ContentStore TrieFailure Entry) s = (.ok e,s) := by
      rw [place,hpos,entryAt,(holds_ofSlots _).get hp he]
      rfl
    simp only [hset,Bool.not_true,Bool.false_eq_true,if_false] at hle ⊢
    rw [bind_of_ok hentry] at hle ⊢
    have hle := (Action.Grows.le_bind (grows_rest _) s).trans hle
    rw [returns_bind,not_and_or]
    left
    -- what is there is a full bucket or a link to the node of the bindings that share it
    by_cases hbig : bucketSize < (part X level m (slot X level k)).entries.length
    · obtain ⟨hnode,hsubs⟩ := hs _ hbig
      obtain rfl := Option.some.inj (he.symm.trans (canonEntry_link hbig))
      have hst : s ≤ t := (grows_putEntry
        (fun n b k v => grows_putAtNode left n b (level+1) k v) _ k v _ s).trans hle
      have hload : loadSub X (nodeHash X (canon X left (level+1)
          (part X level m (slot X level k)))) s =
          (.ok (canon X left (level+1) (part X level m (slot X level k))),s) := by
        simp [loadSub,load_of_storedIn ht hst hnode,okOr]
      unfold putEntry at hle ⊢
      dsimp only at hle ⊢
      rw [bind_of_ok hload] at hle ⊢
      rw [returns_bind,not_and_or]
      left
      have hle := (Action.Grows.le_bind (fun n => (grows_storeTrieNode n).bind fun _ =>
        grows_pure _) s).trans hle
      exact ih (level+1) _ k v s (by omega) happart hbelow hsubs hle
    · have hne : (part X level m (slot X level k)).entries.length ≠ 0 := by
        unfold bucketSize at hthree
        omega
      obtain rfl := Option.some.inj (he.symm.trans (canonEntry_bucket hne (not_lt.mp hbig)))
      have hfind : ((part X level m (slot X level k)).entries.findIdx? fun t => t.1 = k) = none := by
        cases hf : (part X level m (slot X level k)).entries.findIdx? fun t => t.1 = k with
        | none => rfl
        | some i =>
          obtain ⟨w,hw⟩ := OrderedMap.get_of_findIdx (fun _ => decide_eq_true_iff) hf
          rw [hnonePart] at hw
          cases hw
      unfold putEntry at hle ⊢
      dsimp only at hle ⊢
      rw [hfind] at hle ⊢
      simp only [if_neg (not_lt.mpr hthree)] at hle ⊢
      rw [returns_bind]
      rintro ⟨hfold,hrest⟩
      cases left with
      | zero =>
        obtain ⟨e,es,hes⟩ := List.exists_cons_of_length_pos (Nat.pos_of_ne_zero hne)
        rw [hes,List.foldlM_cons,returns_bind] at hfold
        exact not_returns_panicked _ hfold.1
      | succ left =>
        have hspec := (putAtNode_canon hX ht (by omega) (by omega) happart).foldlM
          (part X level m (slot X level k)).entries
          (fun e he => within_boundKeys _ e he) .empty s (fun e he => by cases he)
          (subsStored_empty s (left+1) (level+1))
        rw [canon_empty] at hspec
        have hgrow : ∀ sub : SnapshotNodeData, Action.Grows (do
            let sub ← putAtNode X (left+1) sub (keyHash X k) (level+1) k v
            let h ← storeTrieNode X sub
            pure (Entry.link h) : Action ContentStore TrieFailure Entry) :=
          fun sub => (grows_putAtNode (left+1) sub _ (level+1) k v).bind fun n =>
            (grows_storeTrieNode n).bind fun _ => grows_pure _
        obtain ⟨s₁,hrun,hs₁⟩ := hspec ((Action.Grows.le_bind hgrow s).trans hle)
        have hall : (part X level m (slot X level k)).entries.foldl
            (fun m e => m.insert e.1 e.2) .empty = part X level m (slot X level k) :=
          OrderedMap.ofList_entries _
        rw [hall] at hrun hs₁
        have hput := hrest _ _ hrun
        rw [bind_of_ok hrun] at hle
        rw [returns_bind] at hput
        have hle := (Action.Grows.le_bind (fun n => (grows_storeTrieNode n).bind fun _ =>
          grows_pure _) s₁).trans hle
        exact ih (level+1) _ k v s₁ (by omega) happart hbelow hs₁ hle hput.1

/-- Bindings put one after the other return exactly if all of them part. -/
theorem puts_return (hleft : level+left = levels) (hlevel : level < levels)
    (l : List (Str × Hash)) : ∀ (m : OrderedMap Str Hash) (s : ContentStore),
    Apart X level (boundKeys m) → SubsStored X s left level m →
    (l.foldlM (fun n e => putAtNode X left n (keyHash X e.1) level e.1 e.2)
      (canon X left level m) s).2 ≤ t →
    (Returns (l.foldlM (fun n e => putAtNode X left n (keyHash X e.1) level e.1 e.2)
      (canon X left level m) s).1 ↔ Apart X level ({k | k ∈ l.map Prod.fst} ∪ boundKeys m)) := by
  induction l with
  | nil =>
    intro m s hm _ _
    exact iff_of_true (returns_ok _) (by simpa using hm)
  | cons e l ih =>
    intro m s hm hs hle
    have hset : ({k | k ∈ (e::l).map Prod.fst} ∪ boundKeys m : Set Str) =
        {k | k ∈ l.map Prod.fst} ∪ insert e.1 (boundKeys m) := by
      ext k
      simp [or_assoc]
    rw [hset,List.foldlM_cons,returns_bind]
    rw [List.foldlM_cons] at hle
    have hrest : ∀ n, Action.Grows (l.foldlM (fun n e =>
        putAtNode X left n (keyHash X e.1) level e.1 e.2) n) :=
      fun n => Action.Grows.foldlM (fun n e => grows_putAtNode left n _ level e.1 e.2) l n
    have hput := (Action.Grows.le_bind hrest s).trans hle
    by_cases happart : Apart X level (insert e.1 (boundKeys m))
    · obtain ⟨s₁,hrun,hs₁⟩ := putAtNode_canon hX ht hleft hlevel happart m e.1 e.2 s
        (fun x hx => .inr (within_boundKeys m x hx)) (.inl rfl) hs hput
      rw [bind_of_ok hrun] at hle
      rw [← boundKeys_insert m e.1 e.2] at happart ⊢
      rw [← ih (m.insert e.1 e.2) s₁ happart hs₁ hle,hrun]
      constructor
      · intro h
        exact h.2 _ _ rfl
      · intro h
        refine ⟨returns_ok _,?_⟩
        intro a s' heq
        obtain ⟨ha,rfl⟩ := Prod.mk.inj heq
        obtain rfl := Except.ok.inj ha
        exact h
    · have hstuck := put_stuck hX ht left level m e.1 e.2 s hleft hm happart hs hput
      exact iff_of_false (fun h => hstuck h.1) fun h => happart (h.subset Set.subset_union_right)

/-- What a full bucket overflows into. -/
theorem overflow_returns (hleft : level+left = levels)
    (tuples : List (Str × Hash)) (hne : tuples ≠ []) (k : Str) (v : Hash) (s : ContentStore)
    (hle : ((do
      let sub ← tuples.foldlM (fun n e => putAtNode X left n (keyHash X e.1) level e.1 e.2) .empty
      let sub ← putAtNode X left sub (keyHash X k) level k v
      let h ← storeTrieNode X sub
      pure (Entry.link h) : Action ContentStore TrieFailure Entry) s).2 ≤ t) :
    Returns ((do
      let sub ← tuples.foldlM (fun n e => putAtNode X left n (keyHash X e.1) level e.1 e.2) .empty
      let sub ← putAtNode X left sub (keyHash X k) level k v
      let h ← storeTrieNode X sub
      pure (Entry.link h) : Action ContentStore TrieFailure Entry) s).1 ↔
    level < levels ∧ Apart X level {j | j = k ∨ j ∈ tuples.map Prod.fst} := by
  cases left with
  | zero =>
    obtain ⟨e,es,rfl⟩ := List.exists_cons_of_ne_nil hne
    refine iff_of_false ?_ fun h => absurd h.1 (by omega)
    rw [returns_bind,List.foldlM_cons,returns_bind]
    rintro ⟨⟨hfirst,-⟩,-⟩
    exact not_returns_panicked _ hfirst
  | succ left =>
    have hlevel : level < levels := by omega
    have hlink : ∀ n : SnapshotNodeData, Action.Grows (do
        let h ← storeTrieNode X n
        pure (Entry.link h) : Action ContentStore TrieFailure Entry) :=
      fun n => (grows_storeTrieNode n).bind fun _ => grows_pure _
    have hkeys : {j | j = k ∨ j ∈ tuples.map Prod.fst} =
        ({j | j ∈ (tuples++[(k,v)]).map Prod.fst} ∪ boundKeys .empty : Set Str) := by
      ext j
      simp [boundKeys,or_comm]
    have hall := puts_return hX ht hleft hlevel (tuples++[(k,v)]) .empty s
      (apart_empty level) (subsStored_empty s (left+1) level)
    rw [canon_empty,← hkeys,foldlM_snoc] at hall
    rw [and_iff_right hlevel,← hall]
    · rw [returns_bind,returns_bind]
      apply and_congr_right
      intro _
      exact forall_congr' fun n => forall_congr' fun s' => imp_congr_right fun _ =>
        returns_bind_of returns_link
    · cases hfold : tuples.foldlM (fun n e =>
          putAtNode X (left+1) n (keyHash X e.1) level e.1 e.2) SnapshotNodeData.empty s with
      | mk r s' => cases r with
        | ok n =>
          rw [bind_of_ok hfold] at hle ⊢
          exact (Action.Grows.le_bind hlink s').trans hle
        | error e =>
          have hstop : ∀ {β : Type} (f : SnapshotNodeData → Action ContentStore TrieFailure β),
              ((tuples.foldlM (fun n e => putAtNode X (left+1) n (keyHash X e.1) level e.1 e.2)
                SnapshotNodeData.empty >>= f) s).2 = s' := by
            intro β f
            show (andThen _ f s).2 = s'
            rw [andThen,hfold]
          rw [hstop] at hle ⊢
          exact hle

theorem putAtNode_returns (v : Hash) (left : ℕ) : ∀ (p : ℕ × SnapshotNodeData) (s : ContentStore),
    p.1+left = levels → (putAtNode X left p.2 (keyHash X key) p.1 key v s).2 ≤ t →
    (Returns (putAtNode X left p.2 (keyHash X key) p.1 key v s).1 ↔
      ∀ q, ReflTransGen (Below X s key) p q → Puttable X key q) := by
  induction left with
  | zero =>
    intro p s hp _
    refine iff_of_false (not_returns_panicked _) fun h => ?_
    exact absurd (h p .refl).1.1 (by omega)
  | succ left ih =>
    intro p s hp hle
    have hlevel : p.1 < levels := by omega
    rw [putAtNode_at hlevel] at hle ⊢
    cases hset : occupied X key p with
    | false =>
      rw [along_end fun q => not_below_empty hset]
      by_cases hroom : place X key p ≤ p.2.data.length
      · refine iff_of_true ?_ ⟨⟨hlevel,by simp [hset]⟩,fun _ => hroom,by simp [hset]⟩
        simp only [Bool.not_false,if_true,insertAt,if_pos hroom]
        exact returns_bind.mpr ⟨returns_ok _,fun _ _ _ => returns_ok _⟩
      · refine iff_of_false ?_ fun h => hroom (h.2.1 hset)
        simp only [Bool.not_false,if_true,insertAt,if_neg hroom]
        rw [returns_bind]
        exact fun h => not_returns_panicked _ h.1
    | true =>
      simp only [hset,Bool.not_true,Bool.false_eq_true,if_false] at hle ⊢
      cases hentry : p.2.data[place X key p]? with
      | none =>
        refine iff_of_false ?_ fun h => not_entered hset hentry (h p .refl).1
        rw [returns_bind,entryAt,hentry]
        exact fun h => not_returns_panicked _ h.1
      | some e =>
        have hyes := entered_of_get hlevel hentry
        rw [bind_of_ok (entryAt_found hentry s)] at hle ⊢
        have hle := (Action.Grows.le_bind (grows_rest _) s).trans hle
        rw [returns_bind_of fun _ _ => returns_ok _]
        cases e with
        | bucket tuples =>
          rw [along_end fun q => not_below_entry hentry fun _ h => by cases h]
          have hput : Puttable X key p ↔ (key ∉ tuples.map Prod.fst → bucketSize ≤ tuples.length →
              p.1+1 < levels ∧ Apart X (p.1+1) {k | k = key ∨ k ∈ tuples.map Prod.fst}) := by
            constructor
            · intro h
              exact h.2.2 tuples hset hentry
            · intro h
              refine ⟨hyes,by simp [hset],fun tuples' _ hentry' => ?_⟩
              obtain rfl := Entry.bucket.inj (Option.some.inj (hentry.symm.trans hentry'))
              exact h
          rw [hput]
          unfold putEntry at hle ⊢
          dsimp only at hle ⊢
          cases hfind : tuples.findIdx? fun t => t.1 = key with
          | some i =>
            obtain ⟨hi,hk,-⟩ := List.findIdx?_eq_some_iff_getElem.mp hfind
            have hmem : key ∈ tuples.map Prod.fst :=
              List.mem_map.mpr ⟨tuples[i],List.getElem_mem hi,of_decide_eq_true hk⟩
            exact iff_of_true (returns_ok _) fun h => absurd hmem h
          | none =>
            have hnot : key ∉ tuples.map Prod.fst := by
              intro hmem
              obtain ⟨t,ht,hk⟩ := List.mem_map.mp hmem
              have := List.findIdx?_eq_none_iff.mp hfind t ht
              simp [hk] at this
            rw [hfind] at hle
            dsimp only at hle ⊢
            by_cases hroom : tuples.length < bucketSize
            · rw [if_pos hroom]
              exact iff_of_true (returns_ok _) fun _ h => absurd hroom (by omega)
            · rw [if_neg hroom] at hle ⊢
              have hne : tuples ≠ [] := by
                rintro rfl
                exact hroom (by decide)
              rw [overflow_returns hX ht (by omega) tuples hne key v s hle]
              exact ⟨fun h _ _ => h,fun h => h hnot (not_lt.mp hroom)⟩
        | link h =>
          have hput : Puttable X key p := by
            refine ⟨hyes,by simp [hset],fun tuples _ hentry' => ?_⟩
            cases hentry.symm.trans hentry'
          unfold putEntry at hle ⊢
          dsimp only at hle ⊢
          cases hload : loadTrieNode X s h with
          | none =>
            rw [along_end fun q => not_below_entry hentry (by simp [hload])]
            exact iff_of_true (returns_missing hload _) hput
          | some sub =>
            have hbelow : Below X s key p (p.1+1,sub) := ⟨hlevel,hset,rfl,h,hentry,hload⟩
            rw [bind_of_ok (loadSub_found hload)] at hle ⊢
            have hle := (Action.Grows.le_bind (fun n => (grows_storeTrieNode n).bind fun _ =>
              grows_pure _) s).trans hle
            rw [along_below hbelow,and_iff_right hput,
              ← ih (p.1+1,sub) s (by dsimp only; omega) hle]
            exact returns_bind_of returns_link

end Rebuild

/-! Counting below a node ends where no node is below itself. -/

def LinkedFrom (X : Platform) (s : ContentStore) (below above : Hash) : Prop :=
  ∃ n, loadTrieNode X s above = some n ∧ Entry.link below ∈ n.data

/-- A store keyed by content: it returns what was put, the decoder reads back what the
encoder wrote, and no node is below itself. -/
structure ContentStore.KeyedByContent (X : Platform) (s : ContentStore) : Prop
    extends s.Faithful X where
  acyclic : ∀ h, ¬TransGen (LinkedFrom X s) h h

/-- Links lead so many levels down. -/
def Deep (X : Platform) (s : ContentStore) : ℕ → SnapshotNodeData → Prop
  | 0, _ => True
  | n+1, node => ∃ h sub, Entry.link h ∈ node.data ∧ loadTrieNode X s h = some sub ∧ Deep X s n sub

theorem loadTrieNode_mono {t : ContentStore} (ht : t.Faithful X) (hst : s ≤ t) {h : Hash}
    {n : SnapshotNodeData} (hn : loadTrieNode X s h = some n) : loadTrieNode X t h = some n := by
  obtain ⟨e,he,hdec⟩ := Option.bind_eq_some_iff.mp hn
  have hmem := List.mem_of_find?_eq_some he
  have hhash := ContentStore.contentHash_of_get he
  have hget := ht.returns e (List.IsSuffix.mem hmem hst)
  rw [loadTrieNode,← hhash,hget]
  exact hdec

theorem ContentStore.KeyedByContent.anti {t : ContentStore} (ht : t.KeyedByContent X)
    (hst : s ≤ t) (h : Hash) : ¬TransGen (LinkedFrom X s) h h := by
  intro hcycle
  refine ht.acyclic h (TransGen.mono ?_ h h hcycle)
  rintro a b ⟨n,hn,hlink⟩
  exact ⟨n,loadTrieNode_mono ht.toFaithful hst hn,hlink⟩

/-- The hashes on the way down are different ones of the store. -/
theorem deep_chain (hacyclic : ∀ h, ¬TransGen (LinkedFrom X s) h h) (n : ℕ) :
    ∀ {h : Hash} {node : SnapshotNodeData}, loadTrieNode X s h = some node → Deep X s n node →
      ∃ l : List Hash, l.length = n ∧ l.Nodup ∧ ∀ k ∈ l, TransGen (LinkedFrom X s) k h ∧
        k ∈ s.puts.map Entity.contentHash := by
  induction n with
  | zero =>
    intro h node _ _
    exact ⟨[],rfl,List.nodup_nil,by simp⟩
  | succ n ih =>
    rintro h node hload ⟨k,sub,hlink,hsub,hdeep⟩
    obtain ⟨l,hlen,hnodup,hl⟩ := ih hsub hdeep
    have hk : LinkedFrom X s k h := ⟨node,hload,hlink⟩
    have hstored : k ∈ s.puts.map Entity.contentHash := by
      obtain ⟨e,he,-⟩ := Option.bind_eq_some_iff.mp hsub
      exact List.mem_map.mpr
        ⟨e,List.mem_of_find?_eq_some he,ContentStore.contentHash_of_get he⟩
    refine ⟨k::l,by rw [List.length_cons,hlen],List.nodup_cons.mpr ⟨?_,hnodup⟩,?_⟩
    · intro hmem
      exact hacyclic k (hl k hmem).1
    · intro j hj
      rcases List.mem_cons.mp hj with rfl | hj
      · exact ⟨.single hk,hstored⟩
      · exact ⟨(hl j hj).1.tail hk,(hl j hj).2⟩

theorem not_deep (hacyclic : ∀ h, ¬TransGen (LinkedFrom X s) h h)
    (node : SnapshotNodeData) {n : ℕ} (hn : s.puts.length+2 ≤ n) : ¬Deep X s n node := by
  obtain ⟨n,rfl⟩ : ∃ m, n = m+1 := ⟨n-1,by omega⟩
  rintro ⟨h,sub,-,hload,hdeep⟩
  obtain ⟨l,hlen,hnodup,hl⟩ := deep_chain hacyclic n hload hdeep
  have hle := (hnodup.subperm fun k hk => (hl k hk).2).length_le
  rw [hlen,List.length_map] at hle
  omega

theorem returns_foldlM {f : β → α → Except TrieFailure β} (l : List α)
    (h : ∀ a ∈ l, ∀ b, Returns (f b a)) (b : β) : Returns (l.foldlM f b) := by
  induction l generalizing b with
  | nil => exact returns_ok b
  | cons a l ih =>
    rw [List.foldlM_cons]
    cases hb : f b a with
    | ok b' => exact ih (fun c hc => h c (List.mem_cons_of_mem a hc)) b'
    | error e =>
      intro failure hfailure
      exact h a List.mem_cons_self b failure (by rw [hb,← Except.error.inj hfailure])

/-- Counting and flattening return unless links lead down as far as they may go. -/
theorem walks_return (s : ContentStore) (fuel : ℕ) :
    ∀ node : SnapshotNodeData, ¬Deep X s fuel node → Returns (countEntries X s fuel node) ∧
      ∀ out, Returns (flattenEntriesInto X s fuel node out) := by
  induction fuel with
  | zero =>
    intro node h
    exact absurd trivial h
  | succ fuel ih =>
    intro node h
    have hbelow : ∀ k sub, Entry.link k ∈ node.data → loadTrieNode X s k = some sub →
        ¬Deep X s fuel sub := fun k sub hk hload hdeep => h ⟨k,sub,hk,hload,hdeep⟩
    constructor
    · refine returns_foldlM _ (fun e he total => ?_) 0
      cases e with
      | bucket b => exact returns_ok _
      | link k =>
        cases hload : loadTrieNode X s k with
        | none =>
          simp only [countStep,hload]
          exact returns_message _
        | some sub =>
          have hsub := (ih sub (hbelow k sub he hload)).1
          simp only [countStep,hload]
          show Returns (countEntries X s fuel sub >>= _)
          cases hc : countEntries X s fuel sub with
          | ok n => exact returns_ok _
          | error e =>
            rw [hc] at hsub
            intro failure hfailure
            exact hsub failure (by rw [← Except.error.inj hfailure])
    · refine fun out => returns_foldlM _ (fun e he out => ?_) out
      cases e with
      | bucket b => exact returns_ok _
      | link k =>
        cases hload : loadTrieNode X s k with
        | none =>
          simp only [flattenStep,hload]
          exact returns_message _
        | some sub =>
          simp only [flattenStep,hload]
          exact (ih sub (hbelow k sub he hload)).2 out

/-! A removal. -/

theorem removeAtNode_at (hlevel : p.1 < levels) (fuel left : ℕ)
    (isRoot : Bool) : removeAtNode X fuel (left+1) p.2 (keyHash X key) p.1 key isRoot =
      if (!occupied X key p) = true then pure .unchanged
      else (do
        let entry ← .lift (entryAt p.2 (place X key p))
        let step ← removeEntry X
          (fun sub => removeAtNode X fuel left sub (keyHash X key) (p.1+1) key false) key entry
        applyStep X fuel isRoot p.2 (slot X p.1 key) (place X key p) step) := by
  have hlift : ∀ s, (lift (bitSliceAt (keyHash X key) p.1) :
      Action ContentStore TrieFailure ℕ) s = (.ok (slot X p.1 key),s) := by
    intro s
    rw [(bitSliceAt_ok (X := X) hlevel key).1]
    rfl
  funext s
  rw [removeAtNode,bind_of_ok (hlift s)]
  rfl

section Removal

variable {t : ContentStore} {fuel : ℕ} (ht : t.KeyedByContent X) (hfuel : t.puts.length+2 ≤ fuel)

include ht hfuel

theorem returns_applyStep (isRoot : Bool) (node : SnapshotNodeData) (p idx : ℕ) (step : RemoveStep)
    (hst : s ≤ t) : Returns (applyStep X fuel isRoot node p idx step s).1 := by
  have hbound : ∀ n : SnapshotNodeData, Returns (enforceBound X fuel isRoot n s).1 := by
    intro n
    have hlen := List.IsSuffix.length_le hst
    have hwalks := walks_return s fuel n (not_deep (ht.anti hst) n (by omega))
    unfold enforceBound
    cases isRoot with
    | true => exact returns_ok _
    | false =>
      simp only [Bool.false_eq_true,if_false,reading_apply]
      cases hc : countEntries X s fuel n with
      | error e =>
        intro failure hfailure
        exact hwalks.1 failure (by rw [hc]; exact congrArg Except.error (Except.error.inj hfailure))
      | ok branch =>
        show Returns (if branch < bucketSize+1 then _ else _)
        split_ifs
        · have hf := hwalks.2 []
          unfold flattenEntries
          cases hl : flattenEntriesInto X s fuel n [] with
          | ok l => exact returns_ok _
          | error e =>
            rw [hl] at hf
            intro failure hfailure
            exact hf failure (congrArg Except.error (Except.error.inj hfailure))
        · exact returns_ok _
  cases step with
  | keep => exact returns_ok _
  | drop => exact hbound _
  | replace e => exact hbound _

theorem removeAtNode_returns (left : ℕ) : ∀ (p : ℕ × SnapshotNodeData) (isRoot : Bool)
    (s : ContentStore), p.1+left = levels →
    (removeAtNode X fuel left p.2 (keyHash X key) p.1 key isRoot s).2 ≤ t →
    (Returns (removeAtNode X fuel left p.2 (keyHash X key) p.1 key isRoot s).1 ↔
      ∀ q, ReflTransGen (Below X s key) p q → Entered X key q) := by
  induction left with
  | zero =>
    intro p isRoot s hp _
    refine iff_of_false (not_returns_panicked _) fun h => ?_
    exact absurd (h p .refl).1 (by omega)
  | succ left ih =>
    intro p isRoot s hp hle
    have hlevel : p.1 < levels := by omega
    rw [removeAtNode_at hlevel] at hle ⊢
    cases hset : occupied X key p with
    | false =>
      rw [along_end fun q => not_below_empty hset]
      exact iff_of_true (returns_ok _) ⟨hlevel,by simp [hset]⟩
    | true =>
      simp only [hset,Bool.not_true,Bool.false_eq_true,if_false] at hle ⊢
      cases hentry : p.2.data[place X key p]? with
      | none =>
        refine iff_of_false ?_ fun h => not_entered hset hentry (h p .refl)
        rw [returns_bind,entryAt,hentry]
        exact fun h => not_returns_panicked _ h.1
      | some e =>
        have hyes := entered_of_get hlevel hentry
        rw [bind_of_ok (entryAt_found hentry s)] at hle ⊢
        have hgrow := fun step => grows_applyStep (X := X) fuel isRoot p.2 (slot X p.1 key)
          (place X key p) step
        have hstep : Returns ((removeEntry X (fun sub => removeAtNode X fuel left sub (keyHash X key)
              (p.1+1) key false) key e >>= fun step =>
              applyStep X fuel isRoot p.2 (slot X p.1 key) (place X key p) step) s).1 ↔
            Returns (removeEntry X (fun sub => removeAtNode X fuel left sub (keyHash X key)
              (p.1+1) key false) key e s).1 := by
          rw [returns_bind]
          refine and_iff_left fun step s' hrun => ?_
          rw [bind_of_ok hrun] at hle
          exact returns_applyStep ht hfuel isRoot _ _ _ step ((hgrow step s').trans hle)
        rw [hstep]
        have hle := (Action.Grows.le_bind hgrow s).trans hle
        cases e with
        | bucket tuples =>
          rw [along_end fun q => not_below_entry hentry fun _ h => by cases h]
          refine iff_of_true ?_ hyes
          unfold removeEntry
          dsimp only
          cases tuples.findIdx? fun t => t.1 = key with
          | none => exact returns_ok _
          | some i => exact returns_ok _
        | link h =>
          unfold removeEntry at hle ⊢
          dsimp only at hle ⊢
          cases hload : loadTrieNode X s h with
          | none =>
            rw [along_end fun q => not_below_entry hentry (by simp [hload])]
            exact iff_of_true (returns_missing hload _) hyes
          | some sub =>
            have hbelow : Below X s key p (p.1+1,sub) := ⟨hlevel,hset,rfl,h,hentry,hload⟩
            have hrelink : ∀ o s, Returns (relink X o s).1 := by
              intro o s
              cases o with
              | unchanged => exact returns_ok _
              | modified n => exact (returns_bind_of fun _ _ => returns_ok _).mpr (returns_store n s)
              | inlined l => exact returns_ok _
            rw [bind_of_ok (loadSub_found hload)] at hle ⊢
            rw [along_below hbelow,and_iff_right hyes,returns_bind_of hrelink]
            exact ih (p.1+1,sub) false s (by dsimp only; omega)
              ((Action.Grows.le_bind grows_relink s).trans hle)

end Removal

theorem root_not_inlined {fuel : ℕ} {node : SnapshotNodeData} {b : Bytes}
    {s' : ContentStore} {l : List (Str × Hash)} :
    removeAtNode X fuel left node b level key true s ≠ (.ok (.inlined l),s') := by
  intro h
  cases left with
  | zero => cases h
  | succ left =>
    rw [removeAtNode,bind_eq_ok] at h
    obtain ⟨p,s₁,-,h⟩ := h
    split_ifs at h
    · cases h
    · rw [bind_eq_ok] at h
      obtain ⟨e,s₂,-,h⟩ := h
      rw [bind_eq_ok] at h
      obtain ⟨step,s₃,-,h⟩ := h
      cases step <;> cases h

/-! A removal puts at most one node a level. -/

def PutsAtMost {α : Type} (m : Action ContentStore TrieFailure α) (k : ℕ) : Prop :=
  ∀ s, (m s).2.puts.length ≤ s.puts.length+k

theorem PutsAtMost.bind {j k : ℕ} (hm : PutsAtMost m j)
    (hf : ∀ a, PutsAtMost (f a) k) : PutsAtMost (m >>= f) (j+k) := by
  intro s
  have hms := hm s
  show (andThen m f s).2.puts.length ≤ _
  unfold andThen
  cases h : m s with
  | mk r s' =>
    rw [h] at hms
    cases r with
    | ok a =>
      have hfs := hf a s'
      dsimp only at hms hfs ⊢
      omega
    | error e =>
      dsimp only at hms ⊢
      omega

theorem putsAtMost_reading (f : ContentStore → Except TrieFailure α) (k : ℕ) :
    PutsAtMost (reading f) k := fun s => Nat.le_add_right s.puts.length k

theorem putsAtMost_pure (a : α) (k : ℕ) :
    PutsAtMost (pure a : Action ContentStore TrieFailure α) k :=
  fun s => Nat.le_add_right s.puts.length k

theorem putsAtMost_store (n : SnapshotNodeData) : PutsAtMost (storeTrieNode X n) 1 := by
  intro s
  unfold storeTrieNode
  cases n.toEntity X with
  | ok e => exact le_rfl
  | error e => exact Nat.le_add_right s.puts.length 1

theorem putsAtMost_applyStep (fuel : ℕ) (isRoot : Bool) (node : SnapshotNodeData) (p idx : ℕ)
    (step : RemoveStep) : PutsAtMost (applyStep X fuel isRoot node p idx step) 0 := by
  have hbound : ∀ n : SnapshotNodeData, PutsAtMost (enforceBound X fuel isRoot n) 0 := by
    intro n
    unfold enforceBound
    split_ifs
    · exact putsAtMost_pure _ 0
    · exact putsAtMost_reading _ 0
  cases step with
  | keep => exact putsAtMost_pure _ 0
  | drop => exact hbound _
  | replace e => exact hbound _

theorem putsAtMost_remove (fuel left : ℕ) : ∀ (node : SnapshotNodeData) (b : Bytes) (level : ℕ)
    (isRoot : Bool), PutsAtMost (removeAtNode X fuel left node b level key isRoot) left := by
  induction left with
  | zero =>
    intro node b level isRoot
    exact putsAtMost_reading _ 0
  | succ left ih =>
    intro node b level isRoot
    have hentry : ∀ e, PutsAtMost (removeEntry X
        (fun sub => removeAtNode X fuel left sub b (level+1) key false) key e) (left+1) := by
      intro e
      cases e with
      | bucket tuples =>
        unfold removeEntry
        dsimp only
        cases tuples.findIdx? fun t => t.1 = key <;> exact putsAtMost_pure _ _
      | link h =>
        have hrelink : ∀ o, PutsAtMost (relink X o) 1 := by
          intro o
          cases o with
          | unchanged => exact putsAtMost_pure _ 1
          | modified n => exact (putsAtMost_store n).bind fun _ => putsAtMost_pure _ 0
          | inlined l => exact putsAtMost_pure _ 1
        have hall := (putsAtMost_reading (fun s => okOr (loadTrieNode X s h) missingSubNode) 0).bind
          fun sub => (ih sub b (level+1) false).bind hrelink
        rw [Nat.zero_add] at hall
        exact hall
    rw [removeAtNode]
    have hrest : PutsAtMost (lift (bitSliceAt b level) >>= fun p =>
        if (!(position node.map p).1) = true then pure RemoveOutcome.unchanged
        else (do
          let entry ← .lift (entryAt node (position node.map p).2)
          let step ← removeEntry X
            (fun sub => removeAtNode X fuel left sub b (level+1) key false) key entry
          applyStep X fuel isRoot node p (position node.map p).2 step :
          Action ContentStore TrieFailure RemoveOutcome)) (0+(0+(left+1+0))) := by
      refine (putsAtMost_reading _ 0).bind fun p => ?_
      split_ifs
      · exact putsAtMost_pure _ _
      · exact (putsAtMost_reading _ 0).bind fun e => (hentry e).bind fun step =>
          putsAtMost_applyStep fuel isRoot node p _ step
    simpa using hrest

/-- What `trie_remove` does with the outcome at the root. -/
def storeOutcome (X : Platform) (root : SnapshotNodeData) :
    RemoveOutcome → Action ContentStore TrieFailure Hash
  | .unchanged => storeTrieNode X root
  | .modified newRoot => storeTrieNode X newRoot
  | .inlined _ => .lift (.error (.panicked "root never reports Inline"))

theorem trieRemove_eq (fuel : ℕ) (root : Option Hash) (s : ContentStore) :
    trieRemove X fuel root key s = (removeAtNode X fuel levels (loadOrEmpty X s root)
      (keyHash X key) 0 key true >>= storeOutcome X (loadOrEmpty X s root)) s := by
  have hread : (reading (fun s => Except.ok (loadOrEmpty X s root)) :
      Action ContentStore TrieFailure SnapshotNodeData) s = (.ok (loadOrEmpty X s root),s) := rfl
  have hrest : ∀ o, storeOutcome X (loadOrEmpty X s root) o = (match o with
      | .unchanged => storeTrieNode X (loadOrEmpty X s root)
      | .modified newRoot => storeTrieNode X newRoot
      | .inlined _ => .lift (.error (.panicked "root never reports Inline"))) := by
    intro o
    cases o <;> rfl
  rw [trieRemove,bind_of_ok hread]
  exact congrArg (fun f => (removeAtNode X fuel levels (loadOrEmpty X s root) (keyHash X key) 0
    key true >>= f) s) (funext hrest).symm

theorem triePut_eq (root : Option Hash) (v : Hash) (s : ContentStore) :
    triePut X root key v s = (putAtNode X levels (loadOrEmpty X s root) (keyHash X key) 0 key v >>=
      storeTrieNode X) s := by
  have hread : (reading (fun s => Except.ok (loadOrEmpty X s root)) :
      Action ContentStore TrieFailure SnapshotNodeData) s = (.ok (loadOrEmpty X s root),s) := rfl
  rw [triePut,bind_of_ok hread]

theorem grows_storeOutcome (root : SnapshotNodeData) (o : RemoveOutcome) :
    Action.Grows (storeOutcome X root o) := by
  cases o with
  | unchanged => exact grows_storeTrieNode root
  | modified n => exact grows_storeTrieNode n
  | inlined l => exact grows_lift _

theorem occupied_empty : occupied X key (0,SnapshotNodeData.empty) = false := by
  simp [occupied,position,SnapshotNodeData.empty]

theorem puttable_empty : Puttable X key (0,.empty) := by
  have hset : occupied X key (0,SnapshotNodeData.empty) = false := occupied_empty
  have hplace : place X key (0,SnapshotNodeData.empty) = 0 := by
    simp [place,position,SnapshotNodeData.empty,SparseArray.countOnes]
  exact ⟨⟨by decide,by simp [hset]⟩,fun _ => by rw [hplace]; exact Nat.zero_le _,by simp [hset]⟩

theorem triePut_returns (hX : X.FormatAllocated) (root : Option Hash) (v : Hash) (s : ContentStore)
    (hput : (triePut X root key v s).2.Faithful X) : Returns (triePut X root key v s).1 ↔
      ∀ q, ReflTransGen (Below X s key) (0,loadOrEmpty X s root) q → Puttable X key q := by
  have hle := Action.Grows.le_bind (grows_storeTrieNode (X := X))
    (m := putAtNode X levels (loadOrEmpty X s root) (keyHash X key) 0 key v) s
  rw [← triePut_eq] at hle
  rw [← putAtNode_returns hX hput v levels (0,loadOrEmpty X s root) s rfl hle,triePut_eq]
  exact returns_bind_of returns_store

theorem trieRemove_returns (root : Option Hash) (s : ContentStore)
    (hremove : ∀ fuel, (trieRemove X fuel root key s).2.KeyedByContent X) (fuel : ℕ)
    (hfuel : s.puts.length+levels+3 ≤ fuel) : Returns (trieRemove X fuel root key s).1 ↔
      ∀ q, ReflTransGen (Below X s key) (0,loadOrEmpty X s root) q → Entered X key q := by
  have hputs : (trieRemove X fuel root key s).2.puts.length ≤ s.puts.length+(levels+1) := by
    have hoc : ∀ o, PutsAtMost (storeOutcome X (loadOrEmpty X s root) o) 1 := by
      intro o
      cases o with
      | unchanged => exact putsAtMost_store _
      | modified n => exact putsAtMost_store n
      | inlined l => exact putsAtMost_reading _ 1
    rw [trieRemove_eq]
    exact (putsAtMost_remove fuel levels _ _ 0 true).bind hoc s
  have hle := Action.Grows.le_bind (grows_storeOutcome (X := X) (loadOrEmpty X s root))
    (m := removeAtNode X fuel levels (loadOrEmpty X s root) (keyHash X key) 0 key true) s
  rw [← trieRemove_eq] at hle
  rw [← removeAtNode_returns (hremove fuel) (by omega) levels (0,loadOrEmpty X s root) true s rfl
    hle,trieRemove_eq,returns_bind]
  refine and_iff_left fun o s' hrun => ?_
  cases o with
  | unchanged => exact returns_store _ s'
  | modified n => exact returns_store n s'
  | inlined l => exact absurd hrun root_not_inlined

/-- The operations on a trie return exactly when every node on the path of the key has an
entry where its bitmap says so, stands where the key has a slice, and has room for the key
where the path ends. -/
theorem untrusted_trie_iff (X : Platform) (hX : X.FormatAllocated) (s : ContentStore)
    (rootHash : Hash) (key : Str) (valueHash : Hash)
    (hput : (triePut X (some rootHash) key valueHash s).2.Faithful X)
    (hremove : ∀ fuel, (trieRemove X fuel (some rootHash) key s).2.KeyedByContent X) :
    ((∃ r, trieGet X s key rootHash = .ok r) ∧ (∀ level node, OnPath X s key rootHash level node →
        ∃ step, trieStep X key node level = .ok step) ∧
      Returns (triePut X (some rootHash) key valueHash s).1 ∧
      ∃ rounds, ∀ fuel, rounds ≤ fuel → Returns (trieRemove X fuel (some rootHash) key s).1) ↔
    ∀ level node, OnPath X s key rootHash level node → Puttable X key (level,node) := by
  have hrounds : (∃ rounds, ∀ fuel, rounds ≤ fuel →
      Returns (trieRemove X fuel (some rootHash) key s).1) ↔
      ∀ q, ReflTransGen (Below X s key) (0,loadOrEmpty X s (some rootHash)) q →
        Entered X key q := by
    constructor
    · rintro ⟨rounds,h⟩
      have hlarge := le_max_right rounds (s.puts.length+levels+3)
      exact (trieRemove_returns _ s hremove _ hlarge).mp (h _ (le_max_left _ _))
    · intro h
      exact ⟨_,fun fuel hfuel => (trieRemove_returns _ s hremove fuel hfuel).mpr h⟩
  rw [triePut_returns hX _ _ s hput,hrounds]
  unfold OnPath trieGet loadOrEmpty
  rw [Option.bind_some]
  cases hload : loadTrieNode X s rootHash with
  | none =>
    have hall : ∀ q, ReflTransGen (Below X s key) (0,SnapshotNodeData.empty) q →
        Puttable X key q :=
      (along_end fun q => not_below_empty occupied_empty).mpr puttable_empty
    exact iff_of_true ⟨⟨none,rfl⟩,by simp,hall,fun q hq => (hall q hq).1⟩ (by simp)
  | some top =>
    have hpath : (∀ level node, (∃ top', some top = some top' ∧
        ReflTransGen (Below X s key) (0,top') (level,node)) → Puttable X key (level,node)) ↔
        ∀ q, ReflTransGen (Below X s key) (0,top) q → Puttable X key q := by
      constructor
      · intro h q hq
        exact h q.1 q.2 ⟨top,rfl,hq⟩
      · rintro h level node ⟨top',htop,hreach⟩
        obtain rfl := Option.some.inj htop
        exact h _ hreach
    rw [hpath,trieGetLoop_ok levels (0,top) rfl]
    constructor
    · intro h
      exact h.2.2.1
    · intro h
      have hentered := fun q hq => (h q hq).1
      refine ⟨hentered,?_,h,hentered⟩
      rintro level node ⟨top',htop,hreach⟩
      obtain rfl := Option.some.inj htop
      exact (trieStep_ok (level,node)).mpr (hentered _ hreach)

/-- Removing a key that the bucket on its path does not have counts nothing. -/
theorem trieRemove_absent {root : Option Hash} {tuples : List (Str × Hash)}
    (hset : occupied X key (0,loadOrEmpty X s root) = true)
    (hentry : (loadOrEmpty X s root).data[place X key (0,loadOrEmpty X s root)]? =
      some (.bucket tuples)) (hfind : (tuples.findIdx? fun t => t.1 = key) = none) (fuel : ℕ) :
    trieRemove X fuel root key s = storeTrieNode X (loadOrEmpty X s root) s := by
  have hkeep : removeAtNode X fuel levels (loadOrEmpty X s root) (keyHash X key) 0 key true s =
      (.ok .unchanged,s) := by
    rw [show levels = 51+1 from rfl,removeAtNode_at (p := (0,loadOrEmpty X s root))
      (show 0 < levels by decide),hset,if_neg (by decide),
      bind_of_ok (entryAt_found hentry s)]
    simp only [removeEntry,hfind]
    rfl
  rw [trieRemove_eq,bind_of_ok hkeep]
  rfl

namespace TrieSample

open Sample

/-- A full bucket of a root, and a fourth key of its position. -/
def fullRoot : SnapshotNodeData := ⟨0x8#32,[.bucket [("d".toList,sha256Hash 1),
  ("j".toList,sha256Hash 2),("n".toList,sha256Hash 3)]]⟩

def fullHash : Hash := sha256Hash 0x97657d05b43d8f75ac20cee8fc0d1c10e4e6058e68e697a1955ca5ac62088b35

def fullStore : ContentStore := ⟨[⟨typeTreeSnapshotNode,fullRoot.toEcfBytes,fullHash⟩]⟩

def afterPut : ContentStore :=
  (triePut crates (some fullHash) "bc".toList (sha256Hash 4) fullStore).2

def afterRemove : ContentStore := (storeTrieNode crates fullRoot fullStore).2

theorem full_runs : (∀ x ∈ nodes, x.1.toEcfBytes.length < 2^63) ∧
    loadTrieNode crates fullStore fullHash = some fullRoot ∧
    (∀ e ∈ afterPut.puts, afterPut.get e.contentHash = some e ∧
      ∃ n ∈ nodes, n.1.toEcfBytes = e.data) ∧
    (∀ e ∈ afterRemove.puts, afterRemove.get e.contentHash = some e ∧
      ∃ n ∈ nodes, n.1.toEcfBytes = e.data) ∧
    (∀ e ∈ afterRemove.puts, SnapshotNodeData.fromCbor crates e.data = some fullRoot) ∧
    loadOrEmpty crates fullStore (some fullHash) = fullRoot ∧
    occupied crates "bc".toList (0,fullRoot) = true ∧
    place crates "bc".toList (0,fullRoot) = 0 ∧
    (triePut crates (some fullHash) "bc".toList (sha256Hash 4) fullStore).1 =
      .ok (sha256Hash 0x197deee487ee89b52007f8d4f68fb965df22a56968d4f09922f68cd576a4e6ca) ∧
    trieGet crates fullStore "bc".toList fullHash = .ok none := by
  decide +kernel

theorem afterRemove_keyed : afterRemove.KeyedByContent crates := by
  obtain ⟨hlen,-,-,hremove,hdecode,-⟩ := full_runs
  refine ⟨faithful_of_nodes hlen hremove,fun h hcycle => ?_⟩
  obtain ⟨k,-,n,hload,hlink⟩ := Relation.TransGen.tail'_iff.mp hcycle
  obtain ⟨e,he,hdec⟩ := Option.bind_eq_some_iff.mp hload
  have hfull := hdecode e (List.mem_of_find?_eq_some he)
  obtain rfl := Option.some.inj (hfull.symm.trans hdec)
  simp [fullRoot] at hlink

/-- A node that claims an entry it does not have. -/
def hollow : SnapshotNodeData := ⟨0x8#32,[]⟩

def hollowHash : Hash :=
  sha256Hash 0x684ce22674de3a2cd40af45bad2cc2c22f9117d70aac5027e173223f8561d7f1

end TrieSample

open TrieSample Sample

theorem untrusted_trie_iff_sample : loadTrieNode crates fullStore fullHash = some fullRoot ∧
    ∀ level node, OnPath crates fullStore "bc".toList fullHash level node →
      Puttable crates "bc".toList (level,node) := by
  have hX : crates.FormatAllocated := by decide
  obtain ⟨hlen,hload,hput,-,-,hroot,hset,hplace,hputs,hget⟩ := full_runs
  have hentry : fullRoot.data[place crates "bc".toList (0,fullRoot)]? = some (.bucket
      [("d".toList,sha256Hash 1),("j".toList,sha256Hash 2),("n".toList,sha256Hash 3)]) := by
    rw [hplace]
    rfl
  have hremove : ∀ fuel, trieRemove crates fuel (some fullHash) "bc".toList fullStore =
      storeTrieNode crates fullRoot fullStore := by
    intro fuel
    have habsent : trieRemove crates fuel (some fullHash) "bc".toList fullStore =
        storeTrieNode crates (loadOrEmpty crates fullStore (some fullHash)) fullStore :=
      trieRemove_absent (by rw [hroot]; exact hset) (by rw [hroot]; exact hentry)
        (by decide) fuel
    rw [habsent,hroot]
  have hsteps : ∀ q, Relation.ReflTransGen (Below crates fullStore "bc".toList) (0,fullRoot) q →
      ∃ step, trieStep crates "bc".toList q.2 q.1 = .ok step :=
    (along_end fun q => not_below_entry hentry (by nofun)).mpr
      ⟨_,trieStep_entry (show 0 < levels by decide) hset hentry⟩
  have hfaithful : afterPut.Faithful crates := faithful_of_nodes hlen hput
  refine ⟨hload,?_⟩
  apply (untrusted_trie_iff crates hX fullStore fullHash "bc".toList (sha256Hash 4) hfaithful
    fun fuel => by
      rw [hremove fuel]
      exact afterRemove_keyed).mp
  refine ⟨⟨none,hget⟩,?_,?_,0,fun fuel _ => ?_⟩
  · rintro level node ⟨top,htop,hreach⟩
    obtain rfl := Option.some.inj (hload.symm.trans htop)
    exact hsteps (level,node) hreach
  · rw [hputs]
    exact returns_ok _
  · rw [hremove fuel]
    exact returns_store _ _

/-- A lookup in the hollow node reads past the end of its array. -/
theorem hollow_node_panics : ¬ ∀ (X : Platform) (s : ContentStore) (key : Str) (rootHash : Hash),
    ∃ r, trieGet X s key rootHash = .ok r := by
  intro h
  have hpanic : trieGet (platform [hollow.toValue] keyDigests [])
      ⟨[⟨typeTreeSnapshotNode,hollow.toEcfBytes,hollowHash⟩]⟩ "d".toList hollowHash =
      .error (.panicked "index out of bounds") := by decide +kernel
  obtain ⟨r,hr⟩ := h _ _ _ _
  rw [hpanic] at hr
  cases hr

end EntityCore
