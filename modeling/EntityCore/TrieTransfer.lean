import EntityCore.TrieHistory

/-! Sending the difference of two tries: the hashes the receiver has already, and the
entities it is sent beyond them. -/
namespace EntityCore

open Ecf Outcome ByteCode List

section Walks

variable (X : Platform) (s : ContentStore)

def reachStep (below : Hash → Finset Hash → Except TrieFailure (Finset Hash))
    (collected : Finset Hash) : Entry → Except TrieFailure (Finset Hash)
  | .bucket b => pure (b.foldl (fun collected t => insert t.2 collected) collected)
  | .link h => below h collected

/-- Every node and every value met from a hash on, one set for both. -/
def collectReachableHashes : ℕ → Hash → Finset Hash → Except TrieFailure (Finset Hash)
  | 0, _, _ => .error .outOfFuel
  | fuel+1, nodeHash, collected =>
    if nodeHash ∈ collected then pure collected
    else match loadTrieNode X s nodeHash with
      | none => pure (insert nodeHash collected)
      | some node =>
        node.data.foldlM (reachStep (collectReachableHashes fuel)) (insert nodeHash collected)

variable (skip : Finset Hash)

def collectValue (collected : OrderedMap Hash Entity) (hash : Hash) : OrderedMap Hash Entity :=
  if hash ∉ skip ∧ (collected.get hash).isNone then
    match s.get hash with
    | some entity => collected.insert hash entity
    | none => collected
  else collected

def exceptStep
    (below : Hash → OrderedMap Hash Entity → Except TrieFailure (OrderedMap Hash Entity))
    (collected : OrderedMap Hash Entity) : Entry → Except TrieFailure (OrderedMap Hash Entity)
  | .bucket b => pure (b.foldl (fun collected t => collectValue s skip collected t.2) collected)
  | .link h => below h collected

/-- The entities of a trie that are not skipped. A hash that has been collected, as a
node or as a value, is not looked at again. -/
def collectTrieEntitiesExcept :
    ℕ → Hash → OrderedMap Hash Entity → Except TrieFailure (OrderedMap Hash Entity)
  | 0, _, _ => .error .outOfFuel
  | fuel+1, nodeHash, collected =>
    if nodeHash ∈ skip ∨ (collected.get nodeHash).isSome then pure collected
    else match s.get nodeHash with
      | none => pure collected
      | some entity => match SnapshotNodeData.fromCbor X entity.data with
        | none => pure (collected.insert nodeHash entity)
        | some node => node.data.foldlM (exceptStep s skip (collectTrieEntitiesExcept fuel))
            (collected.insert nodeHash entity)

/-! What a trie consists of. -/

/-- A node links to another. -/
def LinksTo (a b : Hash) : Prop := ∃ n, loadTrieNode X s a = some n ∧ Entry.link b ∈ n.data

/-- A node binds a value. -/
def Binds (a v : Hash) : Prop :=
  ∃ n b, loadTrieNode X s a = some n ∧ Entry.bucket b ∈ n.data ∧ ∃ k, (k,v) ∈ b

def NodeOf (root h : Hash) : Prop := Relation.ReflTransGen (LinksTo X s) root h

def ValueOf (root v : Hash) : Prop := ∃ h, NodeOf X s root h ∧ Binds X s h v

/-- A trie of some depth, with all its nodes and all the values they bind. -/
def FullTrie : ℕ → Hash → Prop
  | 0, _ => False
  | d+1, h => ∃ n, loadTrieNode X s h = some n ∧
      (∀ b, Entry.bucket b ∈ n.data → ∀ t ∈ b, (s.get t.2).isSome) ∧
      ∀ l, Entry.link l ∈ n.data → FullTrie d l

inductive Occurrence where
  | node (h : Hash)
  | value (h : Hash)
  deriving DecidableEq

def entryOccurrences (below : Hash → List Occurrence) : Entry → List Occurrence
  | .bucket b => b.map fun t => .value t.2
  | .link l => below l

/-- Nodes and values in the order a walk that skips nothing meets them. -/
def occurrences : ℕ → Hash → List Occurrence
  | 0, h => [.node h]
  | d+1, h => .node h::match loadTrieNode X s h with
    | some n => n.data.flatMap (entryOccurrences (occurrences d))
    | none => []

/-- What an occurrence has to do with a root. -/
def OccursIn (root : Hash) : Occurrence → Prop
  | .node h => NodeOf X s root h
  | .value v => ValueOf X s root v

/-- No node of the target that the base lacks is met as a value first, and what target
and base share they share in the same role. -/
structure RolesApart (depth : ℕ) (base target : Hash) : Prop where
  nodes : ∀ h, NodeOf X s target h → ValueOf X s base h → NodeOf X s base h
  values : ∀ v, ValueOf X s target v → NodeOf X s base v → ValueOf X s base v
  order : ∀ before h after, occurrences X s depth target = before++Occurrence.node h::after →
    Occurrence.value h ∈ before → Occurrence.node h ∈ before ∨ NodeOf X s base h

/-- A receiver has the base and what it was sent. -/
structure Received (base : Hash) (sent : OrderedMap Hash Entity) (r : ContentStore) : Prop where
  nodes : ∀ h, NodeOf X s base h → r.get h = s.get h
  values : ∀ v, ValueOf X s base v → r.get v = s.get v
  sent : ∀ h e, sent.get h = some e → r.get h = some e

/-- All of the target is in the base in the same role or is sent, and can be read back. -/
structure DiffComplete (fuel : ℕ) (base target : Hash) (sent : OrderedMap Hash Entity) : Prop where
  nodes : ∀ h, NodeOf X s target h → NodeOf X s base h ∨ (sent.get h).isSome
  values : ∀ v, ValueOf X s target v → ValueOf X s base v ∨ (sent.get v).isSome
  readable : ∃ m, collectAllBindings X s fuel target = .ok m ∧
    ∀ r, Received X s base sent r → collectAllBindings X r fuel target = .ok m

end Walks

variable {h : Hash} {d fuel : ℕ} {o : Occurrence}

section Structure

variable {X : Platform} {s : ContentStore}

/-- A full trie does not come back to a node. -/
theorem FullTrie.acyclic (hf : FullTrie X s d h) : ¬Relation.TransGen (LinksTo X s) h h := by
  induction d generalizing h with
  | zero => exact hf.elim
  | succ d ih =>
    intro hcycle
    obtain ⟨l,hl,hback⟩ := Relation.TransGen.head'_iff.mp hcycle
    obtain ⟨n,hn,-,hlinks⟩ := hf
    obtain ⟨n',hn',hmem⟩ := hl
    rw [hn] at hn'
    obtain rfl := Option.some.inj hn'
    exact ih (hlinks l hmem) (Relation.TransGen.tail' hback ⟨n,hn,hmem⟩)

theorem OccursIn.trans {root : Hash} (hroot : NodeOf X s root h)
    (ho : OccursIn X s h o) : OccursIn X s root o := by
  cases o with
  | node x => exact Relation.ReflTransGen.trans hroot ho
  | value v =>
    obtain ⟨x,hx,hv⟩ := ho
    exact ⟨x,Relation.ReflTransGen.trans hroot hx,hv⟩

/-- The occurrences of a node are its own, its values and those of the nodes it links to. -/
theorem mem_occurrences_succ {n : SnapshotNodeData} (hn : loadTrieNode X s h = some n) :
    o ∈ occurrences X s (d+1) h ↔ o = .node h ∨ (∃ v, o = .value v ∧ Binds X s h v) ∨
      ∃ l, Entry.link l ∈ n.data ∧ o ∈ occurrences X s d l := by
  simp only [occurrences,hn,mem_cons,mem_flatMap]
  refine or_congr_right ?_
  constructor
  · rintro ⟨e,he,ho⟩
    cases e with
    | bucket b =>
      obtain ⟨t,ht,rfl⟩ := mem_map.mp ho
      exact .inl ⟨t.2,rfl,n,b,hn,he,t.1,ht⟩
    | link l => exact .inr ⟨l,he,ho⟩
  · rintro (⟨v,rfl,n',b,hn',hb,k,hk⟩ | ⟨l,hl,ho⟩)
    · rw [hn] at hn'
      obtain rfl := Option.some.inj hn'
      exact ⟨_,hb,mem_map.mpr ⟨(k,v),hk,rfl⟩⟩
    · exact ⟨_,hl,ho⟩

/-- A full trie is listed whole. -/
theorem mem_occurrences_iff (hf : FullTrie X s d h) (o : Occurrence) :
    o ∈ occurrences X s d h ↔ OccursIn X s h o := by
  induction d generalizing h with
  | zero => exact hf.elim
  | succ d ih =>
    obtain ⟨n,hn,-,hlinks⟩ := hf
    rw [mem_occurrences_succ hn]
    constructor
    · rintro (rfl | ⟨v,rfl,hv⟩ | ⟨l,hl,ho⟩)
      · exact Relation.ReflTransGen.refl
      · exact ⟨h,Relation.ReflTransGen.refl,hv⟩
      · exact OccursIn.trans (Relation.ReflTransGen.single ⟨n,hn,hl⟩) ((ih (hlinks l hl)).mp ho)
    · -- the first link on the way, if there is one
      have hfirst : ∀ {x}, NodeOf X s h x → x = h ∨ ∃ l, Entry.link l ∈ n.data ∧ NodeOf X s l x := by
        intro x hx
        rcases Relation.ReflTransGen.cases_head hx with rfl | ⟨l,⟨n',hn',hl⟩,hrest⟩
        · exact .inl rfl
        · rw [hn] at hn'
          obtain rfl := Option.some.inj hn'
          exact .inr ⟨l,hl,hrest⟩
      intro ho
      cases o with
      | node x =>
        rcases hfirst ho with rfl | ⟨l,hl,hx⟩
        · exact .inl rfl
        · exact .inr (.inr ⟨l,hl,(ih (hlinks l hl)).mpr hx⟩)
      | value v =>
        obtain ⟨x,hx,hv⟩ := ho
        rcases hfirst hx with rfl | ⟨l,hl,hx⟩
        · exact .inr (.inl ⟨v,rfl,hv⟩)
        · exact .inr (.inr ⟨l,hl,(ih (hlinks l hl)).mpr ⟨x,hx,hv⟩⟩)

def Occurrence.hash : Occurrence → Hash
  | .node h => h
  | .value h => h

/-- Roles keep apart where no hash has two. -/
theorem rolesApart_of_single {depth : ℕ} {base target : Hash} (hbase : FullTrie X s depth base)
    (htarget : FullTrie X s depth target)
    (h : ∀ o ∈ occurrences X s depth base++occurrences X s depth target,
      ∀ o' ∈ occurrences X s depth base++occurrences X s depth target, o.hash = o'.hash → o = o') :
    RolesApart X s depth base target := by
  have hclash : ∀ x, .node x ∈ occurrences X s depth base++occurrences X s depth target →
      .value x ∉ occurrences X s depth base++occurrences X s depth target := by
    intro x hnode hvalue
    cases h _ hnode _ hvalue rfl
  refine ⟨?_,?_,?_⟩
  · intro x hnode hvalue
    refine absurd (mem_append_left _ ?_) (hclash x (mem_append_right _ ?_))
    · exact (mem_occurrences_iff hbase _).mpr hvalue
    · exact (mem_occurrences_iff htarget _).mpr hnode
  · intro v hvalue hnode
    refine absurd (mem_append_right _ ?_) (hclash v (mem_append_left _ ?_))
    · exact (mem_occurrences_iff htarget _).mpr hvalue
    · exact (mem_occurrences_iff hbase _).mpr hnode
  · intro before x after hsplit hvalue
    refine absurd (mem_append_right _ ?_) (hclash x (mem_append_right _ ?_))
    · rw [hsplit]
      exact mem_append_left _ hvalue
    · rw [hsplit]
      simp

def EntryFull (s : ContentStore) (below : Hash → Prop) : Entry → Prop
  | .bucket b => ∀ t ∈ b, (s.get t.2).isSome
  | .link l => below l

instance (s : ContentStore) (below : Hash → Prop) [DecidablePred below] (e : Entry) :
    Decidable (EntryFull s below e) :=
  match e with
  | .bucket b => inferInstanceAs (Decidable (∀ t ∈ b, (s.get t.2).isSome))
  | .link l => inferInstanceAs (Decidable (below l))

theorem fullTrie_succ : FullTrie X s (d+1) h ↔
    ∃ n, loadTrieNode X s h = some n ∧ ∀ e ∈ n.data, EntryFull s (FullTrie X s d) e := by
  refine exists_congr fun n => and_congr_right fun _ => ⟨?_,?_⟩
  · rintro ⟨hvalues,hlinks⟩ e he
    cases e with
    | bucket b => exact hvalues b he
    | link l => exact hlinks l he
  · intro h
    exact ⟨fun b hb => h _ hb,fun l hl => h _ hl⟩

instance decidableFullTrie (X : Platform) (s : ContentStore) : ∀ d, DecidablePred (FullTrie X s d)
  | 0, _ => .isFalse id
  | d+1, h =>
    haveI := decidableFullTrie X s d
    match hn : loadTrieNode X s h with
    | none => .isFalse fun hf => by
        obtain ⟨n,hn',-⟩ := hf
        rw [hn] at hn'
        cases hn'
    | some n => decidable_of_iff (∀ e ∈ n.data, EntryFull s (FullTrie X s d) e) (by
        rw [fullTrie_succ,hn]
        simp)

end Structure

/-! The walks. -/

section Send

variable {X : Platform} {s : ContentStore}

/-- Nothing is put among the hashes the receiver has that is not in the base. -/
theorem collectReachableHashes_spec (hle : d ≤ fuel) (hf : FullTrie X s d h) (c : Finset Hash) :
    ∃ c', collectReachableHashes X s fuel h c = .ok c' ∧
      ∀ x ∈ c', x ∈ c ∨ NodeOf X s h x ∨ ValueOf X s h x := by
  induction d generalizing fuel h c with
  | zero => exact hf.elim
  | succ d ih =>
    obtain ⟨n,hn,-,hlinks⟩ := hf
    obtain ⟨fuel,rfl⟩ := Nat.exists_eq_add_of_le' (Nat.one_le_of_lt hle)
    unfold collectReachableHashes
    by_cases hmem : h ∈ c
    · rw [if_pos hmem]
      exact ⟨c,rfl,fun x hx => .inl hx⟩
    · rw [if_neg hmem,hn]
      dsimp only
      apply foldlM_ok fun c' : Finset Hash => ∀ x ∈ c', x ∈ c ∨ NodeOf X s h x ∨ ValueOf X s h x
      · intro x hx
        rcases Finset.mem_insert.mp hx with rfl | hx
        · exact .inr (.inl Relation.ReflTransGen.refl)
        · exact .inl hx
      · intro c₁ hc₁ e he
        cases e with
        | bucket b =>
          refine ⟨_,rfl,?_⟩
          have hfold : ∀ (ts : List (Str × Hash)) (c₂ : Finset Hash) (x : Hash),
              x ∈ ts.foldl (fun c t => insert t.2 c) c₂ → x ∈ c₂ ∨ ∃ t ∈ ts, t.2 = x := by
            intro ts
            induction ts with
            | nil => exact fun c₂ x hx => .inl hx
            | cons t ts iht =>
              intro c₂ x hx
              rcases iht _ x hx with hx | ⟨u,hu,rfl⟩
              · rcases Finset.mem_insert.mp hx with rfl | hx
                · exact .inr ⟨t,mem_cons_self,rfl⟩
                · exact .inl hx
              · exact .inr ⟨u,mem_cons_of_mem _ hu,rfl⟩
          intro x hx
          rcases hfold b c₁ x hx with hx | ⟨t,ht,rfl⟩
          · exact hc₁ x hx
          · exact .inr (.inr ⟨h,Relation.ReflTransGen.refl,n,b,hn,he,t.1,ht⟩)
        | link l =>
          obtain ⟨c₂,hrun,hc₂⟩ := ih (Nat.le_of_succ_le_succ hle) (hlinks l he) c₁
          refine ⟨c₂,hrun,?_⟩
          have hl : NodeOf X s h l := Relation.ReflTransGen.single ⟨n,hn,he⟩
          intro x hx
          rcases hc₂ x hx with hx | hx | hx
          · exact hc₁ x hx
          · exact .inr (.inl (OccursIn.trans (o := .node x) hl hx))
          · exact .inr (.inr (OccursIn.trans (o := .value x) hl hx))

variable (X s) in
/-- In the base in the same role, or sent. -/
def Covered (base : Hash) (sent : OrderedMap Hash Entity) : Occurrence → Prop
  | .node h => NodeOf X s base h ∨ (sent.get h).isSome
  | .value v => ValueOf X s base v ∨ (sent.get v).isSome

variable (X s) in
/-- What has been met so far is covered, and a node met is met with all below it unless
the walk is still in it. -/
structure SendInv (base : Hash) (before : List Occurrence) (above : Hash → Prop)
    (sent : OrderedMap Hash Entity) : Prop where
  met : ∀ x, (sent.get x).isSome → .node x ∈ before ∨ .value x ∈ before
  covered : ∀ o ∈ before, Covered X s base sent o
  whole : ∀ x, .node x ∈ before → above x ∨ ∀ o, OccursIn X s x o → o ∈ before
  stored : ∀ x e, sent.get x = some e → s.get x = some e

variable {base target : Hash} {before : List Occurrence} {above : Hash → Prop}
  {sent : OrderedMap Hash Entity}

theorem Covered.insert (h : Covered X s base sent o) (x : Hash) (e : Entity) :
    Covered X s base (sent.insert x e) o := by
  have hsome : ∀ y, (sent.get y).isSome → ((sent.insert x e).get y).isSome := by
    intro y hy
    rw [OrderedMap.get_insert]
    split_ifs
    · rfl
    · exact hy
  cases o with
  | node h' => exact h.imp_right (hsome h')
  | value v => exact h.imp_right (hsome v)

theorem covered_of_base (hbase : NodeOf X s base h)
    (ho : OccursIn X s h o) : Covered X s base sent o := by
  have hin := OccursIn.trans hbase ho
  cases o with
  | node x => exact .inl hin
  | value v => exact .inl hin

theorem SendInv.pass (hinv : SendInv X s base before above sent)
    (hf : FullTrie X s d h) (hcov : ∀ o, OccursIn X s h o → Covered X s base sent o) :
    SendInv X s base (before++occurrences X s d h) above sent := by
  refine ⟨?_,?_,?_,hinv.stored⟩
  · intro x hx
    exact (hinv.met x hx).imp (mem_append_left _) (mem_append_left _)
  · intro o ho
    rcases mem_append.mp ho with ho | ho
    · exact hinv.covered o ho
    · exact hcov o ((mem_occurrences_iff hf o).mp ho)
  · intro x hx
    rcases mem_append.mp hx with hx | hx
    · exact (hinv.whole x hx).imp_right fun hall o ho => mem_append_left _ (hall o ho)
    · refine .inr fun o ho => mem_append_right _ ?_
      rw [mem_occurrences_iff hf] at hx ⊢
      exact OccursIn.trans hx ho

theorem SendInv.enter (hinv : SendInv X s base before above sent) {e : Entity}
    (he : s.get h = some e) :
    SendInv X s base (before++[.node h]) (fun x => above x ∨ x = h) (sent.insert h e) := by
  refine ⟨?_,?_,?_,?_⟩
  · intro x hx
    rw [OrderedMap.get_insert] at hx
    split_ifs at hx with hxh
    · exact .inl (by rw [hxh]; simp)
    · exact (hinv.met x hx).imp (mem_append_left _) (mem_append_left _)
  · intro o ho
    rcases mem_append.mp ho with ho | ho
    · exact (hinv.covered o ho).insert h e
    · obtain rfl := mem_singleton.mp ho
      exact .inr (by simp)
  · intro x hx
    rcases mem_append.mp hx with hx | hx
    · rcases hinv.whole x hx with ha | hall
      · exact .inl (.inl ha)
      · exact .inr fun o ho => mem_append_left _ (hall o ho)
    · exact .inl (.inr (Occurrence.node.inj (mem_singleton.mp hx)))
  · intro x e' hx
    rw [OrderedMap.get_insert] at hx
    split_ifs at hx with hxh
    · rw [hxh,he]
      exact hx
    · exact hinv.stored x e' hx

theorem SendInv.leave (hinv : SendInv X s base before (fun x => above x ∨ x = h) sent)
    (hall : ∀ o, OccursIn X s h o → o ∈ before) : SendInv X s base before above sent := by
  refine ⟨hinv.met,hinv.covered,?_,hinv.stored⟩
  intro x hx
  rcases hinv.whole x hx with (ha | rfl) | hwhole
  · exact .inl ha
  · exact .inr hall
  · exact .inr hwhole

variable {skip : Finset Hash} (hskip : ∀ h ∈ skip, NodeOf X s base h ∨ ValueOf X s base h)
  {depth : ℕ} (hroles : RolesApart X s depth base target)

include hskip hroles

theorem SendInv.value (hinv : SendInv X s base before above sent) {v : Hash}
    (htarget : ValueOf X s target v) (hstored : (s.get v).isSome) :
    SendInv X s base (before++[.value v]) above (collectValue s skip sent v) := by
  obtain ⟨e,he⟩ := Option.isSome_iff_exists.mp hstored
  have hkeep : Covered X s base sent (.value v) →
      SendInv X s base (before++[.value v]) above sent := by
    intro hcov
    refine ⟨?_,?_,?_,hinv.stored⟩
    · intro x hx
      exact (hinv.met x hx).imp (mem_append_left _) (mem_append_left _)
    · intro o ho
      rcases mem_append.mp ho with ho | ho
      · exact hinv.covered o ho
      · obtain rfl := mem_singleton.mp ho
        exact hcov
    · intro x hx
      have hx' : .node x ∈ before := by simpa using hx
      exact (hinv.whole x hx').imp_right fun hall o ho => mem_append_left _ (hall o ho)
  unfold collectValue
  split_ifs with hnew
  · rw [he]
    dsimp only
    refine ⟨?_,?_,?_,?_⟩
    · intro x hx
      rw [OrderedMap.get_insert] at hx
      split_ifs at hx with hxv
      · exact .inr (by rw [hxv]; simp)
      · exact (hinv.met x hx).imp (mem_append_left _) (mem_append_left _)
    · intro o ho
      rcases mem_append.mp ho with ho | ho
      · exact (hinv.covered o ho).insert v e
      · obtain rfl := mem_singleton.mp ho
        exact .inr (by simp)
    · intro x hx
      have hx' : .node x ∈ before := by simpa using hx
      exact (hinv.whole x hx').imp_right fun hall o ho => mem_append_left _ (hall o ho)
    · intro x e' hx
      rw [OrderedMap.get_insert] at hx
      split_ifs at hx with hxv
      · rw [hxv,he]
        exact hx
      · exact hinv.stored x e' hx
  · apply hkeep
    by_cases hin : v ∈ skip
    · refine .inl ?_
      rcases hskip v hin with hnode | hvalue
      · exact hroles.values v htarget hnode
      · exact hvalue
    · refine .inr ?_
      cases hs : sent.get v with
      | some e' => rfl
      | none => exact absurd ⟨hin,by simp [hs]⟩ hnew

theorem SendInv.values (hinv : SendInv X s base before above sent) (ts : List (Str × Hash))
    (hts : ∀ t ∈ ts, ValueOf X s target t.2 ∧ (s.get t.2).isSome) :
    SendInv X s base (before++ts.map fun t => .value t.2) above
      (ts.foldl (fun sent t => collectValue s skip sent t.2) sent) := by
  induction ts generalizing before sent with
  | nil => simpa using hinv
  | cons t ts ih =>
    obtain ⟨htarget,hstored⟩ := hts t mem_cons_self
    have hnext := ih (hinv.value hskip hroles htarget hstored) fun t ht =>
      hts t (mem_cons_of_mem _ ht)
    rw [append_assoc] at hnext
    exact hnext

/-- The walk of a node meets all below it, or passes over what is covered. -/
theorem collectTrieEntitiesExcept_spec (hle : d ≤ fuel)
    (hf : FullTrie X s d h) (htarget : NodeOf X s target h) {after : List Occurrence}
    (hsplit : occurrences X s depth target = before++occurrences X s d h++after)
    (habove : ∀ a, above a → Relation.TransGen (LinksTo X s) a h)
    (hinv : SendInv X s base before above sent) :
    ∃ sent', collectTrieEntitiesExcept X s skip fuel h sent = .ok sent' ∧
      SendInv X s base (before++occurrences X s d h) above sent' := by
  induction d generalizing fuel h before above sent after with
  | zero => exact hf.elim
  | succ d ih =>
    have hfull := hf
    obtain ⟨n,hn,hvalues,hlinks⟩ := hf
    obtain ⟨fuel,rfl⟩ := Nat.exists_eq_add_of_le' (Nat.one_le_of_lt hle)
    have hocc : occurrences X s (d+1) h =
        .node h::n.data.flatMap (entryOccurrences (occurrences X s d)) := by
      simp only [occurrences,hn]
    unfold collectTrieEntitiesExcept
    by_cases hpass : h ∈ skip ∨ (sent.get h).isSome
    · rw [if_pos hpass]
      refine ⟨sent,rfl,hinv.pass hfull ?_⟩
      rcases hpass with hin | hsome
      · have hbase : NodeOf X s base h := by
          rcases hskip h hin with hnode | hvalue
          · exact hnode
          · exact hroles.nodes h htarget hvalue
        exact fun o ho => covered_of_base hbase ho
      · -- collected before, so it was walked before or the base has it
        have hmet : .node h ∈ before ∨ NodeOf X s base h := by
          rcases hinv.met h hsome with hnode | hvalue
          · exact .inl hnode
          · refine hroles.order before h
              (n.data.flatMap (entryOccurrences (occurrences X s d))++after) ?_ hvalue
            rw [hsplit,hocc]
            simp
        rcases hmet with hnode | hbase
        · rcases hinv.whole h hnode with ha | hall
          · exact absurd (habove h ha) hfull.acyclic
          · exact fun o ho => hinv.covered o (hall o ho)
        · exact fun o ho => covered_of_base hbase ho
    · rw [if_neg hpass]
      obtain ⟨e,he,hcbor⟩ := Option.bind_eq_some_iff.mp hn
      rw [he]
      dsimp only
      rw [hcbor]
      dsimp only
      have habove' : ∀ l, Entry.link l ∈ n.data → ∀ a, above a ∨ a = h →
          Relation.TransGen (LinksTo X s) a l := by
        rintro l hl a (ha | rfl)
        · exact (habove a ha).tail ⟨n,hn,hl⟩
        · exact Relation.TransGen.single ⟨n,hn,hl⟩
      -- the entries one after the other
      have hentries : ∀ (es : List Entry), (∀ x ∈ es, x ∈ n.data) →
          ∀ (before' after' : List Occurrence) (sent' : OrderedMap Hash Entity),
          occurrences X s depth target =
            before'++es.flatMap (entryOccurrences (occurrences X s d))++after' →
          SendInv X s base before' (fun x => above x ∨ x = h) sent' →
          ∃ sent'', es.foldlM (exceptStep s skip (collectTrieEntitiesExcept X s skip fuel)) sent' =
              .ok sent'' ∧
            SendInv X s base (before'++es.flatMap (entryOccurrences (occurrences X s d)))
              (fun x => above x ∨ x = h) sent'' := by
        intro es
        induction es with
        | nil =>
          intro _ before' after' sent' _ hinv'
          exact ⟨sent',rfl,by simpa using hinv'⟩
        | cons x es ihes =>
          intro hes before' after' sent' hsplit' hinv'
          have hx : x ∈ n.data := hes x mem_cons_self
          have hrest : ∀ y ∈ es, y ∈ n.data := fun y hy => hes y (mem_cons_of_mem _ hy)
          rw [flatMap_cons] at hsplit' ⊢
          have hone : ∃ sent₁, exceptStep s skip (collectTrieEntitiesExcept X s skip fuel) sent' x =
              .ok sent₁ ∧ SendInv X s base (before'++entryOccurrences (occurrences X s d) x)
                (fun x => above x ∨ x = h) sent₁ := by
            cases x with
            | bucket b =>
              refine ⟨_,rfl,hinv'.values hskip hroles b fun t ht => ⟨?_,hvalues b hx t ht⟩⟩
              exact ⟨h,htarget,n,b,hn,hx,t.1,ht⟩
            | link l =>
              apply ih (Nat.le_of_succ_le_succ hle) (hlinks l hx) (htarget.tail ⟨n,hn,hx⟩) _ (habove' l hx) hinv'
              · exact es.flatMap (entryOccurrences (occurrences X s d))++after'
              · rw [hsplit']
                simp [entryOccurrences]
          obtain ⟨sent₁,hstep,hinv₁⟩ := hone
          obtain ⟨sent₂,hrun,hinv₂⟩ := ihes hrest _ after' sent₁
            (by rw [hsplit']; simp) hinv₁
          refine ⟨sent₂,?_,?_⟩
          · rw [foldlM_cons,hstep]
            exact hrun
          · rw [append_assoc] at hinv₂
            exact hinv₂
      obtain ⟨sent',hrun,hinv'⟩ := hentries n.data (fun _ hx => hx) (before++[.node h]) after
        (sent.insert h e) (by rw [hsplit,hocc]; simp) (hinv.enter he)
      refine ⟨sent',hrun,?_⟩
      have hlist : before++[.node h]++n.data.flatMap (entryOccurrences (occurrences X s d)) =
          before++occurrences X s (d+1) h := by
        rw [hocc]
        simp
      rw [hlist] at hinv'
      apply hinv'.leave
      intro o ho
      exact mem_append_right _ ((mem_occurrences_iff hfull o).mpr ho)

end Send

/-! Reading back. -/

/-- A store that has the nodes of a full trie reads the same bindings from it. -/
theorem collectBindingsInto_agree {X : Platform} {s r : ContentStore} (hle : d ≤ fuel)
    {n : SnapshotNodeData} (hf : FullTrie X s d h) (hn : loadTrieNode X s h = some n)
    (hr : ∀ x, NodeOf X s h x → r.get x = s.get x) (out : OrderedMap Str Hash) :
    ∃ m, collectBindingsInto X s fuel n out = .ok m ∧ collectBindingsInto X r fuel n out = .ok m := by
  induction d generalizing fuel h n out with
  | zero => exact hf.elim
  | succ d ih =>
    obtain ⟨n',hn',-,hlinks⟩ := hf
    rw [hn] at hn'
    obtain rfl := Option.some.inj hn'
    obtain ⟨fuel,rfl⟩ := Nat.exists_eq_add_of_le' (Nat.one_le_of_lt hle)
    unfold collectBindingsInto
    have hentries : ∀ (es : List Entry), (∀ x ∈ es, x ∈ n.data) → ∀ out : OrderedMap Str Hash,
        ∃ m, es.foldlM (collectStep X s (collectBindingsInto X s fuel)) out = .ok m ∧
          es.foldlM (collectStep X r (collectBindingsInto X r fuel)) out = .ok m := by
      intro es
      induction es with
      | nil => exact fun _ out => ⟨out,rfl,rfl⟩
      | cons x es ihes =>
        intro hes out
        have hx : x ∈ n.data := hes x mem_cons_self
        have hone : ∃ out', collectStep X s (collectBindingsInto X s fuel) out x = .ok out' ∧
            collectStep X r (collectBindingsInto X r fuel) out x = .ok out' := by
          cases x with
          | bucket b => exact ⟨_,rfl,rfl⟩
          | link l =>
            have hl : LinksTo X s h l := ⟨n,hn,hx⟩
            have hfull := hlinks l hx
            have hload : ∃ sub, loadTrieNode X s l = some sub := by
              cases d with
              | zero => exact hfull.elim
              | succ d =>
                obtain ⟨sub,hsub,-⟩ := hfull
                exact ⟨sub,hsub⟩
            obtain ⟨sub,hsub⟩ := hload
            have hsub' : loadTrieNode X r l = some sub := by
              rw [loadTrieNode,hr l (Relation.ReflTransGen.single hl)]
              exact hsub
            simp only [collectStep,hsub,hsub']
            exact ih (Nat.le_of_succ_le_succ hle) hfull hsub
              (fun x hx => hr x (Relation.ReflTransGen.head hl hx)) out
        obtain ⟨out',hs,hr'⟩ := hone
        obtain ⟨m,hms,hmr⟩ := ihes (fun y hy => hes y (mem_cons_of_mem _ hy)) out'
        refine ⟨m,?_,?_⟩
        · rw [foldlM_cons,hs]
          exact hms
        · rw [foldlM_cons,hr']
          exact hmr
    exact hentries n.data (fun _ hx => hx) out

theorem collectAllBindings_agree {X : Platform} {s : ContentStore} (hle : d ≤ fuel)
    (hf : FullTrie X s d h) : ∃ m, collectAllBindings X s fuel h = .ok m ∧
      ∀ r : ContentStore, (∀ x, NodeOf X s h x → r.get x = s.get x) →
        collectAllBindings X r fuel h = .ok m := by
  have hload : ∃ n, loadTrieNode X s h = some n := by
    cases d with
    | zero => exact hf.elim
    | succ d =>
      obtain ⟨n,hn,-⟩ := hf
      exact ⟨n,hn⟩
  obtain ⟨n,hn⟩ := hload
  obtain ⟨m,hm,-⟩ := collectBindingsInto_agree hle hf hn (fun _ _ => rfl) .empty
  refine ⟨m,?_,?_⟩
  · unfold collectAllBindings
    rw [hn]
    exact hm
  · intro r hr
    obtain ⟨m',hm',hmr⟩ := collectBindingsInto_agree hle hf hn hr .empty
    obtain rfl : m = m' := Except.ok.inj (hm.symm.trans hm')
    have hn' : loadTrieNode X r h = some n := by
      rw [loadTrieNode,hr h Relation.ReflTransGen.refl]
      exact hn
    unfold collectAllBindings
    rw [hn']
    exact hmr

/-- Where nodes and values keep apart, what is sent completes the base to the target. -/
theorem diff_transfer_complete (X : Platform) (s : ContentStore) (depth fuel : ℕ)
    (hfuel : depth ≤ fuel) (base target : Hash) (hbase : FullTrie X s depth base)
    (htarget : FullTrie X s depth target) (hroles : RolesApart X s depth base target) :
    ∃ skip sent, collectReachableHashes X s fuel base ∅ = .ok skip ∧
      collectTrieEntitiesExcept X s skip fuel target .empty = .ok sent ∧
      DiffComplete X s fuel base target sent := by
  obtain ⟨skip,hskip,hsound⟩ := collectReachableHashes_spec hfuel hbase ∅
  have hin : ∀ h ∈ skip, NodeOf X s base h ∨ ValueOf X s base h := by
    intro h hh
    exact (hsound h hh).resolve_left (Finset.notMem_empty h)
  have hstart : SendInv X s base [] (fun _ => False) .empty :=
    ⟨fun x hx => (by cases hx),fun o ho => (by cases ho),fun x hx => (by cases hx),
      fun x e hx => (by cases hx)⟩
  have hsplit : occurrences X s depth target = []++occurrences X s depth target++[] := by simp
  obtain ⟨sent,hsent,hinv⟩ := collectTrieEntitiesExcept_spec hin hroles hfuel htarget
    Relation.ReflTransGen.refl hsplit (fun a ha => ha.elim) hstart
  have hcovered : ∀ o, OccursIn X s target o → Covered X s base sent o := fun o ho =>
    hinv.covered o ((mem_occurrences_iff htarget o).mpr ho)
  obtain ⟨m,hm,hread⟩ := collectAllBindings_agree hfuel htarget
  refine ⟨skip,sent,hskip,hsent,fun h hh => hcovered (.node h) hh,
    fun v hv => hcovered (.value v) hv,m,hm,?_⟩
  intro r hr
  apply hread
  intro x hx
  rcases hcovered (.node x) hx with hnode | hsome
  · exact hr.nodes x hnode
  · obtain ⟨e,he⟩ := Option.isSome_iff_exists.mp hsome
    rw [hr.sent x e he,hinv.stored x e he]

namespace TransferSample

open Sample

def note (text : String) (digest : ℕ) : Entity := entity "app/note" (txt text) digest

def one : Entity := note "one" 0xa98b78e5059e329654170d2592cabd73feb6428b81e31a423f0b781b3e4a76f3
def two : Entity := note "two" 0xbd80b2f7c4de929a1078df89d78a7fdd0b30c0acb24c28c2dee2f898e2626be9
def three : Entity := note "three" 0x3f4fc8d9af512d6e88bbfa9ae1426fd9e7285f0cac0685a2773cc69746b653a0
def four : Entity := note "four" 0x638b53b836f7b5c2669df3eed1e8e07c52b094a4b0e889dcd46bbf1c30eeb5d4
def five : Entity := note "five" 0xd5a6ab6a161fcd5c99cd06656ce9fde0366b8291b16b64214ed8adcc1e1651ba

def nodeEntity (n : SnapshotNodeData) (digest : ℕ) : Entity :=
  ⟨typeTreeSnapshotNode,n.toEcfBytes,sha256Hash digest⟩

/-- Four keys of one position, one level down. -/
def subNode : SnapshotNodeData :=
  ⟨0x1001004#32,[.bucket [("d".toList,one.contentHash),("j".toList,two.contentHash)],
    .bucket [("n".toList,three.contentHash)],.bucket [("bc".toList,four.contentHash)]]⟩
def sub : Entity := nodeEntity subNode
  0x7677348a9f99f91ef13a999f65b71f3edde17541038c75020f784ddb220c6be1

def fourNode : SnapshotNodeData := ⟨0x8#32,[.link sub.contentHash]⟩
def fourRoot : Entity := nodeEntity fourNode
  0x0f881412773e92cafbbfb966e4678493a3a54a99e4ec31ee22c909900248153c

/-- The four and a fifth. -/
def fiveNode : SnapshotNodeData :=
  ⟨0xc#32,[.bucket [("p".toList,five.contentHash)],.link sub.contentHash]⟩
def fiveRoot : Entity := nodeEntity fiveNode
  0x4aa6a55beb75bdf9791922579ddbf46d7a8bf073d85dfba8937a192cb645ad32

/-- A tree that binds the root of the other as a value, as a tracked root is bound. -/
def holderNode : SnapshotNodeData := ⟨0x4#32,[.bucket [("p".toList,fourRoot.contentHash)]]⟩
def holderRoot : Entity := nodeEntity holderNode
  0x906d4789828c23f554fefb005064c199cbcf8b219386ad1fcb92ddc0557bdc02

def crates : Platform := platform (([subNode,fourNode,fiveNode,holderNode] : List SnapshotNodeData).map
  SnapshotNodeData.toValue) [] []

def store : ContentStore :=
  ⟨[one,two,three,four,five,sub,fourRoot,fiveRoot,holderRoot]⟩

/-- The three tries, the one on the other, and what is sent of the root that one binds. -/
theorem evaluated_transfers :
    (FullTrie crates store 2 fourRoot.contentHash ∧ FullTrie crates store 2 fiveRoot.contentHash ∧
      ∀ o ∈ occurrences crates store 2 fourRoot.contentHash++
          occurrences crates store 2 fiveRoot.contentHash,
        ∀ o' ∈ occurrences crates store 2 fourRoot.contentHash++
            occurrences crates store 2 fiveRoot.contentHash, o.hash = o'.hash → o = o') ∧
    (FullTrie crates store 2 holderRoot.contentHash ∧
      (∀ o ∈ occurrences crates store 2 holderRoot.contentHash,
        o = .node holderRoot.contentHash ∨ o = .value fourRoot.contentHash) ∧
      .node sub.contentHash ∈ occurrences crates store 2 fourRoot.contentHash) ∧
    (collectReachableHashes crates store 2 holderRoot.contentHash ∅ =
        .ok {fourRoot.contentHash,holderRoot.contentHash} ∧
      collectTrieEntitiesExcept crates store {fourRoot.contentHash,holderRoot.contentHash} 2
        fourRoot.contentHash .empty = .ok .empty) ∧
    collectAllBindings crates ⟨[holderRoot,fourRoot]⟩ 2 fourRoot.contentHash = .ok .empty ∧
    (∀ h ∈ [holderRoot.contentHash,fourRoot.contentHash],
      (⟨[holderRoot,fourRoot]⟩ : ContentStore).get h = store.get h) ∧
    sub.contentHash ≠ holderRoot.contentHash := by
  decide +kernel

end TransferSample

open TransferSample

theorem diff_transfer_complete_sample :
    FullTrie crates store 2 fourRoot.contentHash ∧ FullTrie crates store 2 fiveRoot.contentHash ∧
    RolesApart crates store 2 fourRoot.contentHash fiveRoot.contentHash ∧
    ∃ skip sent, collectReachableHashes crates store 2 fourRoot.contentHash ∅ = .ok skip ∧
      collectTrieEntitiesExcept crates store skip 2 fiveRoot.contentHash .empty = .ok sent ∧
      DiffComplete crates store 2 fourRoot.contentHash fiveRoot.contentHash sent := by
  obtain ⟨⟨hfour,hfive,hsingle⟩,-⟩ := evaluated_transfers
  have hroles := rolesApart_of_single hfour hfive hsingle
  exact ⟨hfour,hfive,hroles,
    diff_transfer_complete crates store 2 2 le_rfl _ _ hfour hfive hroles⟩

/-- The base binds the target's root as a value, so nothing of the target is sent; a
receiver with the base finds the root and nothing below it. -/
theorem diff_transfer_sends_nothing :
    FullTrie crates store 2 holderRoot.contentHash ∧ FullTrie crates store 2 fourRoot.contentHash ∧
    ∃ skip, collectReachableHashes crates store 2 holderRoot.contentHash ∅ = .ok skip ∧
      collectTrieEntitiesExcept crates store skip 2 fourRoot.contentHash .empty = .ok .empty ∧
      Received crates store holderRoot.contentHash .empty ⟨[holderRoot,fourRoot]⟩ ∧
      collectAllBindings crates ⟨[holderRoot,fourRoot]⟩ 2 fourRoot.contentHash = .ok .empty ∧
      ¬DiffComplete crates store 2 holderRoot.contentHash fourRoot.contentHash .empty := by
  obtain ⟨⟨hfour,-⟩,⟨hholder,hall,hsub⟩,⟨hskip,hsent⟩,hread,hsame,hne⟩ := evaluated_transfers
  have hnodes : ∀ h, NodeOf crates store holderRoot.contentHash h → h = holderRoot.contentHash := by
    intro h hh
    rcases hall _ ((mem_occurrences_iff hholder (.node h)).mpr hh) with ho | ho
    · exact Occurrence.node.inj ho
    · cases ho
  have hvalues : ∀ v, ValueOf crates store holderRoot.contentHash v → v = fourRoot.contentHash := by
    intro v hv
    rcases hall _ ((mem_occurrences_iff hholder (.value v)).mpr hv) with ho | ho
    · cases ho
    · exact Occurrence.value.inj ho
  refine ⟨hholder,hfour,{fourRoot.contentHash,holderRoot.contentHash},hskip,hsent,
    ⟨?_,?_,fun h e he => (by cases he)⟩,hread,?_⟩
  · intro h hh
    rw [hnodes h hh]
    exact hsame _ List.mem_cons_self
  · intro v hv
    rw [hvalues v hv]
    exact hsame _ (List.mem_cons_of_mem _ List.mem_cons_self)
  · intro hcomplete
    rcases hcomplete.nodes _ ((mem_occurrences_iff hfour (.node sub.contentHash)).mp hsub) with
      hnode | hsent
    · exact hne (hnodes _ hnode)
    · cases hsent

end EntityCore
