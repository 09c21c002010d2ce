import EntityCore.Delegation
import EntityCore.TrieCanonical

/-! History independence: after any sequence of puts and removes the root of the trie
is the root built from the bindings that are left. -/
namespace EntityCore

open Ecf Outcome ByteCode Action

variable {X : Platform}

def rootHashOf (X : Platform) (m : OrderedMap Str Hash) : Hash := nodeHash X (canon X levels 0 m)

/-- The store holds the whole trie of some bindings. -/
structure TrieStored (X : Platform) (s : ContentStore) (m : OrderedMap Str Hash) : Prop where
  root : (canon X levels 0 m).StoredIn X s
  subs : SubsStored X s levels 0 m

variable {s t : ContentStore} {m : OrderedMap Str Hash}

theorem TrieStored.of_subset (hst : s.puts ⊆ t.puts)
    (h : TrieStored X s m) : TrieStored X t m := ⟨h.root.of_subset hst,h.subs.of_subset hst⟩

theorem TrieStored.mono (hst : s ≤ t)
    (h : TrieStored X s m) : TrieStored X t m := h.of_subset (List.IsSuffix.subset hst)

/-- An optional root stands for some bindings; no root stands for none. -/
def Rooted (X : Platform) (s : ContentStore) (root : Option Hash) (m : OrderedMap Str Hash) : Prop :=
  (root = none ∧ m = .empty) ∨ (root = some (rootHashOf X m) ∧ TrieStored X s m)

theorem Spread.kin {keys : Set Str} (h : Spread X keys) : Kin X 0 keys :=
  ⟨h,fun _ _ _ _ j hj => absurd hj (Nat.not_lt_zero j)⟩

section Root

variable {s t : ContentStore} {keys : Set Str} {root : Option Hash} {m : OrderedMap Str Hash}

theorem loadOrEmpty_rooted (ht : t.Faithful X) (hst : s ≤ t) (h : Rooted X s root m) :
    loadOrEmpty X s root = canon X levels 0 m ∧ SubsStored X s levels 0 m := by
  rcases h with ⟨rfl,rfl⟩ | ⟨rfl,hs⟩
  · rw [canon_empty]
    exact ⟨rfl,subsStored_empty s levels 0⟩
  · refine ⟨?_,hs.subs⟩
    have hload := load_of_storedIn ht hst hs.root
    simp only [loadOrEmpty,Option.bind_some,rootHashOf,hload,Option.getD_some]

/-- Storing the canonical root completes the trie. -/
theorem storeTrieNode_root (hX : X.FormatAllocated) (hs : SubsStored X s levels 0 m) :
    ∃ s', storeTrieNode X (canon X levels 0 m) s = (.ok (rootHashOf X m),s') ∧
      TrieStored X s' m := by
  obtain ⟨s',hstore,hle,hnode⟩ := storeTrieNode_spec hX (canon X levels 0 m) s
  exact ⟨s',hstore,hnode,hs.mono hle⟩

theorem grows_finish (n : SnapshotNodeData) (o : RemoveOutcome) : Action.Grows (match o with
    | .unchanged => storeTrieNode X n
    | .modified newRoot => storeTrieNode X newRoot
    | .inlined _ => .lift (.error (.panicked "root never reports Inline"))) := by
  cases o with
  | unchanged => exact grows_storeTrieNode n
  | modified newRoot => exact grows_storeTrieNode newRoot
  | inlined l => exact grows_lift _

variable (hX : X.FormatAllocated) (ht : t.Faithful X) (hkeys : Spread X keys)

include hX ht hkeys

theorem triePut_spec {k : Str} (v : Hash) (hm : Within m keys) (hk : k ∈ keys)
    (h : Rooted X s root m) (hle : (triePut X root k v s).2 ≤ t) :
    ∃ s', triePut X root k v s = (.ok (rootHashOf X (m.insert k v)),s') ∧
      TrieStored X s' (m.insert k v) := by
  have hgrow : ∀ n, Action.Grows (putAtNode X levels n (keyHash X k) 0 k v >>= storeTrieNode X) :=
    fun n => (grows_putAtNode levels n _ 0 k v).bind grows_storeTrieNode
  have hst : s ≤ t := ((grows_reading _).bind hgrow s).trans hle
  obtain ⟨hload,hs⟩ := loadOrEmpty_rooted ht hst h
  have hread : (reading fun s => .ok (loadOrEmpty X s root) :
      Action ContentStore TrieFailure SnapshotNodeData) s = (.ok (canon X levels 0 m),s) := by
    rw [reading_apply,hload]
  unfold triePut at hle ⊢
  rw [bind_of_ok hread] at hle ⊢
  obtain ⟨s₁,hput,hs₁⟩ := putAtNode_canon hX ht (Nat.zero_add levels) (by decide)
    hkeys.kin.apart m k v s
    hm hk hs ((Action.Grows.le_bind grows_storeTrieNode s).trans hle)
  rw [bind_of_ok hput]
  exact storeTrieNode_root hX hs₁

theorem trieRemove_spec {fuel : ℕ} (hfuel : levels ≤ fuel) (k : Str) (hm : Within m keys)
    (h : Rooted X s root m) (hle : (trieRemove X fuel root k s).2 ≤ t) :
    ∃ s', trieRemove X fuel root k s = (.ok (rootHashOf X (m.erase k)),s') ∧
      TrieStored X s' (m.erase k) := by
  have hst : s ≤ t := ((grows_reading _).bind (fun n =>
    (grows_removeAtNode fuel levels n _ 0 k true).bind (grows_finish n)) s).trans hle
  obtain ⟨hload,hs⟩ := loadOrEmpty_rooted ht hst h
  have hread : (reading fun s => .ok (loadOrEmpty X s root) :
      Action ContentStore TrieFailure SnapshotNodeData) s = (.ok (canon X levels 0 m),s) := by
    rw [reading_apply,hload]
  unfold trieRemove at hle ⊢
  rw [bind_of_ok hread] at hle ⊢
  obtain ⟨habsent,hpresent⟩ := removeAtNode_canon hX ht (Nat.zero_add levels) (by decide) hfuel
    hkeys.kin m k true s hm hs ((Action.Grows.le_bind (grows_finish _) s).trans hle)
  cases hget : m.get k with
  | none =>
    rw [bind_of_ok (habsent hget),OrderedMap.erase_of_get_none hget]
    exact storeTrieNode_root hX hs
  | some v =>
    obtain ⟨o,s₁,hrun,hsettled,hs₁⟩ := hpresent v hget
    rw [Settled,if_pos (.inl rfl)] at hsettled
    subst hsettled
    rw [bind_of_ok hrun]
    exact storeTrieNode_root hX hs₁

theorem buildTrie_spec (hm : Within m keys) (hle : (buildTrie X m s).2 ≤ t) :
    ∃ s', buildTrie X m s = (.ok (rootHashOf X m),s') ∧ TrieStored X s' m := by
  have hfold := (putAtNode_canon hX ht (Nat.zero_add levels) (by decide) hkeys.kin.apart).foldlM
    m.entries (fun e he => hm e he) .empty s (fun e he => by cases he)
    (subsStored_empty s levels 0)
  rw [canon_empty] at hfold
  unfold buildTrie at hle ⊢
  obtain ⟨s₁,hrun,hs₁⟩ := hfold ((Action.Grows.le_bind grows_storeTrieNode s).trans hle)
  rw [show m.entries.foldl (fun m e => m.insert e.1 e.2) .empty = m from m.ofList_entries]
    at hrun hs₁
  rw [bind_of_ok hrun]
  exact storeTrieNode_root hX hs₁

omit hX in
theorem collectAllBindings_spec {fuel : ℕ} (hfuel : levels ≤ fuel) (hst : s ≤ t)
    (hm : Within m keys) (h : TrieStored X s m) :
    collectAllBindings X s fuel (rootHashOf X m) = .ok m := by
  obtain ⟨l,hl,hw⟩ := walks_canon ht hst (Nat.zero_add levels) (by decide) hkeys.kin hm h.subs hfuel
  unfold collectAllBindings
  rw [rootHashOf,load_of_storedIn ht hst h.root]
  dsimp only
  rw [hw.collect,insertAll,OrderedMap.foldl_insert_perm hl]

end Root

/-! Runs. -/

inductive TrieOp where
  | put (key : Str) (value : Hash)
  | remove (key : Str)

namespace TrieOp

def key : TrieOp → Str
  | .put k _ => k
  | .remove k => k

def run (X : Platform) (fuel : ℕ) (root : Option Hash) :
    TrieOp → Action ContentStore TrieFailure Hash
  | .put k v => triePut X root k v
  | .remove k => trieRemove X fuel root k

def apply (m : OrderedMap Str Hash) : TrieOp → OrderedMap Str Hash
  | .put k v => m.insert k v
  | .remove k => m.erase k

end TrieOp

def runTrie (X : Platform) (fuel : ℕ) : List TrieOp → Option Hash →
    Action ContentStore TrieFailure (Option Hash)
  | [], root => pure root
  | op::ops, root => do
    let newRoot ← op.run X fuel root
    runTrie X fuel ops (some newRoot)

/-- The map the operations leave. -/
def finalBindings (ops : List TrieOp) : OrderedMap Str Hash := ops.foldl TrieOp.apply .empty

/-- A run from the empty root over a store that returns what was put, with keys whose
hashes tell them apart. The empty root is no root at all or the stored empty node. -/
structure TrieRun (X : Platform) (fuel : ℕ) (ops : List TrieOp) (start : Option Hash)
    (s : ContentStore) : Prop where
  starts : (start = none ∧ ops ≠ []) ∨
    (start = some (nodeHash X .empty) ∧ SnapshotNodeData.empty.StoredIn X s)
  spread : Spread X {k | ∃ op ∈ ops, op.key = k}
  faithful : (runTrie X fuel ops start s).2.Faithful X

theorem grows_trieOp (fuel : ℕ) (root : Option Hash) (op : TrieOp) :
    Action.Grows (op.run X fuel root) := by
  cases op with
  | put k v => exact (grows_reading _).bind fun n =>
      (grows_putAtNode levels n _ 0 k v).bind grows_storeTrieNode
  | remove k =>
    refine (grows_reading _).bind fun n =>
      (grows_removeAtNode fuel levels n _ 0 k true).bind fun o => ?_
    cases o with
    | unchanged => exact grows_storeTrieNode n
    | modified newRoot => exact grows_storeTrieNode newRoot
    | inlined l => exact grows_lift _

theorem grows_runTrie (fuel : ℕ) (ops : List TrieOp) (root : Option Hash) :
    Action.Grows (runTrie X fuel ops root) := by
  induction ops generalizing root with
  | nil => exact grows_pure _
  | cons op ops ih => exact (grows_trieOp fuel root op).bind fun h => ih (some h)

theorem Within.apply {keys : Set Str} (h : Within m keys) {op : TrieOp}
    (hop : op.key ∈ keys) : Within (op.apply m) keys := by
  cases op with
  | put k v => exact h.insert hop v
  | remove k => exact h.erase k

theorem trieOp_spec (hX : X.FormatAllocated) (ht : t.Faithful X)
    {keys : Set Str} (hkeys : Spread X keys) {fuel : ℕ} (hfuel : levels ≤ fuel)
    {root : Option Hash} (hm : Within m keys) {op : TrieOp}
    (hop : op.key ∈ keys) (h : Rooted X s root m) (hle : (op.run X fuel root s).2 ≤ t) :
    ∃ s', op.run X fuel root s = (.ok (rootHashOf X (op.apply m)),s') ∧
      TrieStored X s' (op.apply m) := by
  cases op with
  | put k v => exact triePut_spec hX ht hkeys v hm hop h hle
  | remove k => exact trieRemove_spec hX ht hkeys hfuel k hm h hle

/-- The invariant along a run: the root stands for the bindings so far. -/
theorem runTrie_rooted (hX : X.FormatAllocated) (ht : t.Faithful X)
    {keys : Set Str} (hkeys : Spread X keys) {fuel : ℕ} (hfuel : levels ≤ fuel)
    (ops : List TrieOp) (hops : ∀ op ∈ ops, op.key ∈ keys) {root : Option Hash}
    (hm : Within m keys) (h : Rooted X s root m) (hle : (runTrie X fuel ops root s).2 ≤ t) :
    ∃ root' s', runTrie X fuel ops root s = (.ok root',s') ∧
      Rooted X s' root' (ops.foldl TrieOp.apply m) ∧ Within (ops.foldl TrieOp.apply m) keys ∧
      (ops ≠ [] → root' ≠ none) := by
  induction ops generalizing s root m with
  | nil => exact ⟨root,s,rfl,h,hm,fun hne => absurd rfl hne⟩
  | cons op ops ih =>
    obtain ⟨hop,hops⟩ := List.forall_mem_cons.mp hops
    unfold runTrie at hle ⊢
    have hrest : ∀ h, Action.Grows (runTrie X fuel ops (some h)) :=
      fun h => grows_runTrie fuel ops (some h)
    obtain ⟨s₁,hrun,hs₁⟩ := trieOp_spec hX ht hkeys hfuel hm hop h
      ((Action.Grows.le_bind hrest s).trans hle)
    rw [bind_of_ok hrun] at hle ⊢
    obtain ⟨root',s',hrun',hrooted,hwithin,hsome⟩ :=
      ih hops (hm.apply hop) (.inr ⟨rfl,hs₁⟩) hle
    refine ⟨root',s',hrun',hrooted,hwithin,fun _ => ?_⟩
    cases ops with
    | nil =>
      obtain rfl := Except.ok.inj (Prod.mk.inj hrun').1
      exact Option.some_ne_none _
    | cons op' ops' => exact hsome (List.cons_ne_nil _ _)

theorem TrieRun.rooted {fuel : ℕ} {ops : List TrieOp} {start : Option Hash}
    (hX : X.FormatAllocated) (hfuel : levels ≤ fuel) (h : TrieRun X fuel ops start s) :
    ∃ s', runTrie X fuel ops start s = (.ok (some (rootHashOf X (finalBindings ops))),s') ∧
      TrieStored X s' (finalBindings ops) ∧
      Within (finalBindings ops) {k | ∃ op ∈ ops, op.key = k} := by
  have hempty : canon X levels 0 .empty = .empty := canon_empty levels 0
  have hstart : Rooted X s start .empty := by
    rcases h.starts with ⟨rfl,-⟩ | ⟨rfl,hs⟩
    · exact .inl ⟨rfl,rfl⟩
    · refine .inr ⟨by rw [rootHashOf,hempty],?_,subsStored_empty s levels 0⟩
      rw [hempty]
      exact hs
  obtain ⟨root',s',hrun,hrooted,hwithin,hsome⟩ := runTrie_rooted hX h.faithful h.spread hfuel ops
    (fun op hop => ⟨op,hop,rfl⟩) (fun e he => by cases he) hstart le_rfl
  rcases hrooted with ⟨rfl,hm⟩ | ⟨rfl,hs'⟩
  · -- no root is left only where nothing was done, and then the run started from a root
    by_cases hops : ops = []
    · subst hops
      rcases h.starts with ⟨-,hne⟩ | ⟨rfl,-⟩
      · exact absurd rfl hne
      · cases hrun
    · exact absurd rfl (hsome hops)
  · exact ⟨s',hrun,hs',hwithin⟩

/-- Keys that fall apart at one level. -/
theorem spread_of_level {keys : List Str} {j : ℕ} (hj : j < 51)
    (h : ∀ k ∈ keys, (keys.filter fun k' => slot X j k' = slot X j k).length ≤ 3) :
    Spread X {k | k ∈ keys} := by
  intro ks hnodup hlen hmem
  by_contra hno
  push Not at hno
  cases ks with
  | nil => simp at hlen
  | cons k ks =>
    have hk : k ∈ keys := hmem k List.mem_cons_self
    have hsub : (k::ks) ⊆ keys.filter fun k' => slot X j k' = slot X j k := by
      intro k' hk'
      exact List.mem_filter.mpr ⟨hmem k' hk',by simpa using hno j hj k' hk' k List.mem_cons_self⟩
    have hle := (hnodup.subperm hsub).length_le
    have hthree := h k hk
    omega

/-- The root after a run is the root built from the final bindings, its bindings are the
final bindings, and any other run with the same final bindings ends in the same root. -/
theorem trie_history_independent (X : Platform) (hX : X.FormatAllocated) (fuel : ℕ)
    (hfuel : levels ≤ fuel) (ops : List TrieOp) (start : Option Hash) (s : ContentStore)
    (h : TrieRun X fuel ops start s) : ∃ root, (runTrie X fuel ops start s).1 = .ok (some root) ∧
      collectAllBindings X (runTrie X fuel ops start s).2 fuel root = .ok (finalBindings ops) ∧
      (∀ s', (buildTrie X (finalBindings ops) s').2.Faithful X →
        (buildTrie X (finalBindings ops) s').1 = .ok root) ∧
      ∀ ops' start' s', TrieRun X fuel ops' start' s' → finalBindings ops' = finalBindings ops →
        (runTrie X fuel ops' start' s').1 = .ok (some root) := by
  obtain ⟨s₁,hrun,hs₁,hwithin⟩ := h.rooted hX hfuel
  refine ⟨rootHashOf X (finalBindings ops),by rw [hrun],?_,?_,?_⟩
  · have hf := h.faithful
    rw [hrun] at hf ⊢
    exact collectAllBindings_spec hf h.spread hfuel le_rfl hwithin hs₁
  · intro s' hf
    obtain ⟨s₂,hbuild,-⟩ := buildTrie_spec hX hf h.spread hwithin le_rfl
    rw [hbuild]
  · intro ops' start' s' h' hsame
    obtain ⟨s₂,hrun',-⟩ := h'.rooted hX hfuel
    rw [hrun',hsame]

namespace TrieSample

open Sample

/-- A node is determined by its document, so a decoder that knows the nodes of a store
reads each back. -/
theorem faithful_of_nodes {nodes : List (SnapshotNodeData × ℕ)} {digests : List (Bytes × ℕ)}
    (hlen : ∀ x ∈ nodes, x.1.toEcfBytes.length < 2^63)
    (hret : ∀ e ∈ s.puts, s.get e.contentHash = some e ∧ ∃ n ∈ nodes, n.1.toEcfBytes = e.data) :
    s.Faithful (platform (nodes.map fun n => n.1.toValue) digests []) := by
  refine ⟨fun e he => (hret e he).1,?_⟩
  intro e he n hn
  obtain ⟨x,hx,hdoc⟩ := (hret e he).2
  have hfind : ∃ v, (nodes.map fun n => n.1.toValue).find? (fun v => toEcf v = e.data) = some v := by
    rw [← Option.isSome_iff_exists,List.find?_isSome]
    exact ⟨x.1.toValue,List.mem_map_of_mem (f := fun n => n.1.toValue) hx,decide_eq_true hdoc⟩
  obtain ⟨v,hv⟩ := hfind
  obtain ⟨y,hy,rfl⟩ := List.mem_map.mp (List.mem_of_find?_eq_some hv)
  have hsame : y.1.toEcfBytes = n.toEcfBytes := by
    have hfound := List.find?_some hv
    rw [← hn]
    exact of_decide_eq_true hfound
  have hyn : y.1 = n := toEcfBytes_inj (hlen y hy) hsame
  show okOr _ _ = _
  rw [hv,hyn]
  rfl

/-- The nodes of a run and their digests. -/
def nodes : List (SnapshotNodeData × ℕ) := [
  (⟨0x8#32,[.bucket [("d".toList,sha256Hash 1)]]⟩,
    0x3bcdc02d6cce95671edc68d9c567ad99784cb89fc4cec72e4ffa6ef733c668e7),
  (⟨0x8#32,[.bucket [("d".toList,sha256Hash 1),("j".toList,sha256Hash 2)]]⟩,
    0x44789258d3469599ccb8b6f4b9e265d540744f060e317add944e68c79b37d6f2),
  (⟨0x8#32,[.bucket [("d".toList,sha256Hash 1),("j".toList,sha256Hash 2),
      ("n".toList,sha256Hash 3)]]⟩,
    0x97657d05b43d8f75ac20cee8fc0d1c10e4e6058e68e697a1955ca5ac62088b35),
  (⟨0x1001004#32,[.bucket [("d".toList,sha256Hash 1),("j".toList,sha256Hash 2)],
      .bucket [("n".toList,sha256Hash 3)],.bucket [("bc".toList,sha256Hash 4)]]⟩,
    0x4b8f2f3b0bf00a64e267d61e3ff3093f7b8607946f545c94776bb617204c1f32),
  (⟨0x8#32,[.link (sha256Hash 0x4b8f2f3b0bf00a64e267d61e3ff3093f7b8607946f545c94776bb617204c1f32)]⟩,
    0x197deee487ee89b52007f8d4f68fb965df22a56968d4f09922f68cd576a4e6ca),
  (⟨0x1001004#32,[.bucket [("d".toList,sha256Hash 5),("j".toList,sha256Hash 2)],
      .bucket [("n".toList,sha256Hash 3)],.bucket [("bc".toList,sha256Hash 4)]]⟩,
    0x95008ca809b5c1c73965857cc90bc671cae3c06d46c83d15403013888bd93efb),
  (⟨0x8#32,[.link (sha256Hash 0x95008ca809b5c1c73965857cc90bc671cae3c06d46c83d15403013888bd93efb)]⟩,
    0x660000bd4b013f13b4710556293af12d2135c9676a65c3e53106f5037c0f97cf),
  (⟨0x8#32,[.bucket [("bc".toList,sha256Hash 4),("d".toList,sha256Hash 5),
      ("n".toList,sha256Hash 3)]]⟩,
    0x0ec8108ed1dcf03a7fdba84c0ca60955e55c2442d8bd03e4fa24d612d529d5a8)]

def keyDigests : List (Bytes × ℕ) := [
  (utf8 "d".toList,0x18ac3e7343f016890c510e93f935261169d9e3f565436429830faf0934f4f8e4),
  (utf8 "j".toList,0x189f40034be7a199f1fa9891668ee3ab6049f82d38c68be70f596eab2e1857b7),
  (utf8 "n".toList,0x1b16b1df538ba12dc3f97edbb85caa7050d46c148134290feba80f8236c83db9),
  (utf8 "bc".toList,0x1e0bbd6c686ba050b8eb03ffeedc64fdc9d80947fce821abbe5d6dc8d252c5ac),
  (utf8 "s".toList,0x043a718774c572bd8a25adbeb1bfcd5c0256ae11cecf9f9c3f925d0e52beaf89)]

def crates : Platform := platform (nodes.map fun n => n.1.toValue)
  (keyDigests++nodes.map fun n => (ecfForHash typeTreeSnapshotNode n.1.toEcfBytes,n.2)) []

/-- Four keys of one position, so that the fourth overflows its bucket and a removal
brings the node below back. -/
def ops : List TrieOp := [.put "d".toList (sha256Hash 1),.put "j".toList (sha256Hash 2),
  .put "n".toList (sha256Hash 3),.put "bc".toList (sha256Hash 4),.put "d".toList (sha256Hash 5),
  .remove "j".toList,.remove "s".toList]

def finalStore : ContentStore := (runTrie crates levels ops none ⟨[]⟩).2

/-- What the run stores, and where its keys fall. -/
theorem evaluated_run :
    ((∀ x ∈ nodes, x.1.toEcfBytes.length < 2^63) ∧
      ∀ e ∈ (runTrie crates levels ops none ⟨[]⟩).2.puts,
        (runTrie crates levels ops none ⟨[]⟩).2.get e.contentHash = some e ∧
        ∃ n ∈ nodes, n.1.toEcfBytes = e.data) ∧
    finalStore.puts = (runTrie crates levels ops none ⟨[]⟩).2.puts ∧
    ∀ k ∈ (ops.map TrieOp.key).dedup,
      ((ops.map TrieOp.key).dedup.filter fun k' => slot crates 1 k' = slot crates 1 k).length ≤ 3 := by
  decide +kernel

theorem eq_of_puts {s t : ContentStore} (h : s.puts = t.puts) : s = t := by
  cases s
  cases t
  cases h
  rfl

theorem finalStore_eq : finalStore = (runTrie crates levels ops none ⟨[]⟩).2 :=
  eq_of_puts evaluated_run.2.1

theorem run_faithful : (runTrie crates levels ops none ⟨[]⟩).2.Faithful crates :=
  faithful_of_nodes evaluated_run.1.1 evaluated_run.1.2

theorem run_spread : Spread crates {k | ∃ op ∈ ops, op.key = k} := by
  have hkeys : {k | ∃ op ∈ ops, op.key = k} = {k | k ∈ (ops.map TrieOp.key).dedup} := by
    ext k
    simp
  rw [hkeys]
  exact spread_of_level (j := 1) (by decide) evaluated_run.2.2

end TrieSample

open TrieSample in
theorem trie_history_independent_sample :
    crates.FormatAllocated ∧ TrieRun crates levels ops none ⟨[]⟩ ∧
    ∃ root, (runTrie crates levels ops none ⟨[]⟩).1 = .ok (some root) ∧
      collectAllBindings crates finalStore levels root = .ok (finalBindings ops) ∧
      (∀ s', (buildTrie crates (finalBindings ops) s').2.Faithful crates →
        (buildTrie crates (finalBindings ops) s').1 = .ok root) ∧
      ∀ ops' start' s', TrieRun crates levels ops' start' s' →
        finalBindings ops' = finalBindings ops →
        (runTrie crates levels ops' start' s').1 = .ok (some root) := by
  have hX : crates.FormatAllocated := by decide
  have hrun : TrieRun crates levels ops none ⟨[]⟩ :=
    ⟨.inl ⟨rfl,by decide⟩,run_spread,run_faithful⟩
  rw [finalStore_eq]
  exact ⟨hX,hrun,trie_history_independent crates hX levels le_rfl ops none ⟨[]⟩ hrun⟩

end EntityCore
