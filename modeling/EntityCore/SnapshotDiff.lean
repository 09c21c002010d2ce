import EntityCore.TreeHandler

/-! What a diff says. The two snapshots are looked up in the store and among what came with the
request, the nodes of their tries in the store alone, and nodes that are not there are stepped
over. The diff is exact where what was stepped over makes no difference. -/
namespace EntityCore

open Ecf Outcome TreeHandler

/-! Applying a diff. -/

def TreeHandler.TreeDiff.applyTo (d : TreeDiff) (base : OrderedMap Str Hash) : OrderedMap Str Hash :=
  let kept := d.removed.entries.foldl (fun m kv => m.erase kv.1) base
  let grown := d.added.entries.foldl (fun m kv => m.insert kv.1 kv.2) kept
  d.changed.entries.foldl (fun m kv => m.insert kv.1 kv.2.2) grown

variable {m out : OrderedMap Str Hash} {load : Hash → Option SnapshotNodeData}

section Applying

open OrderedMap

variable {base target : OrderedMap Str Hash}

theorem get_foldl_erase (l : List (Str × Hash)) (m : OrderedMap Str Hash) (p : Str) :
    (l.foldl (fun m kv => m.erase kv.1) m).get p = if p ∈ l.map Prod.fst then none else m.get p := by
  induction l generalizing m with
  | nil => rfl
  | cons kv l ih =>
    rw [List.foldl_cons,ih,get_erase]
    by_cases hp : p = kv.1
    · simp only [hp,List.map_cons,List.mem_cons,true_or,if_true,ite_self]
    · simp only [hp,List.map_cons,List.mem_cons,false_or,if_false]

theorem get_foldl_second (l : List (Str × Hash × Hash)) (hs : (l.map Prod.fst).Nodup)
    (m : OrderedMap Str Hash) (p : Str) :
    (l.foldl (fun m kv => m.insert kv.1 kv.2.2) m).get p =
      ((lookup p l).map Prod.snd).or (m.get p) := by
  induction l generalizing m with
  | nil => rfl
  | cons kv l ih =>
    obtain ⟨hfirst,hrest⟩ := List.nodup_cons.mp hs
    rw [List.foldl_cons,ih hrest,get_insert,lookup]
    by_cases hp : kv.1 = p
    · subst hp
      simp [lookup_eq_none hfirst]
    · simp [hp,Ne.symm hp]

theorem compareBinding_added (d : TreeDiff) (kv : Str × Hash) (p : Str) :
    (compareBinding base d kv).added.get p =
      if base.get kv.1 = none ∧ p = kv.1 then some kv.2 else d.added.get p := by
  unfold compareBinding
  cases base.get kv.1 with
  | none => simp
  | some b => by_cases hb : b = kv.2 <;> simp [hb]

theorem get_added (l : List (Str × Hash)) (hs : (l.map Prod.fst).Nodup) (d : TreeDiff) (p : Str) :
    (l.foldl (compareBinding base) d).added.get p =
      if base.get p = none then (lookup p l).or (d.added.get p) else d.added.get p := by
  induction l generalizing d with
  | nil => simp [lookup]
  | cons kv l ih =>
    obtain ⟨hfirst,hrest⟩ := List.nodup_cons.mp hs
    rw [List.foldl_cons,ih hrest,lookup,compareBinding_added]
    by_cases hp : kv.1 = p
    · subst hp
      by_cases hb : base.get kv.1 = none
      · simp [hb,lookup_eq_none hfirst]
      · simp [hb]
    · simp [hp,Ne.symm hp]

theorem get_changed (l : List (Str × Hash)) (hs : (l.map Prod.fst).Nodup) (d : TreeDiff) (p : Str) :
    (l.foldl (compareBinding base) d).changed.get p =
      match base.get p,lookup p l with
      | some b,some t => if b ≠ t then some (b,t) else d.changed.get p
      | _,_ => d.changed.get p := by
  induction l generalizing d with
  | nil => cases base.get p <;> rfl
  | cons kv l ih =>
    obtain ⟨hfirst,hrest⟩ := List.nodup_cons.mp hs
    rw [List.foldl_cons,ih hrest,lookup]
    unfold compareBinding
    by_cases hp : kv.1 = p
    · subst hp
      rw [lookup_eq_none hfirst]
      cases hb : base.get kv.1 with
      | none => simp
      | some b => by_cases hbt : b = kv.2 <;> simp [hbt]
    · cases hb : base.get kv.1 with
      | none => simp [hp]
      | some b => by_cases hbt : b = kv.2 <;> simp [hbt,hp,Ne.symm hp]

theorem get_removed (l : List (Str × Hash)) (hs : (l.map Prod.fst).Nodup)
    (removed : OrderedMap Str Hash) (p : Str) :
    (l.foldl (fun removed kv => if (target.get kv.1).isNone then removed.insert kv.1 kv.2
      else removed) removed).get p =
      if target.get p = none then (lookup p l).or (removed.get p) else removed.get p := by
  induction l generalizing removed with
  | nil => simp [lookup]
  | cons kv l ih =>
    obtain ⟨hfirst,hrest⟩ := List.nodup_cons.mp hs
    rw [List.foldl_cons,ih hrest,lookup]
    by_cases hp : kv.1 = p
    · subst hp
      cases ht : target.get kv.1 with
      | none => simp [lookup_eq_none hfirst]
      | some t => simp
    · cases ht : target.get kv.1 with
      | none => simp [hp,Ne.symm hp]
      | some t => simp [hp]

theorem mem_keys_iff {p : Str} : p ∈ m.entries.map Prod.fst ↔ m.get p ≠ none := by
  constructor
  · intro hp hnone
    obtain ⟨kv,hkv,rfl⟩ := List.mem_map.mp hp
    rw [(m.mem_entries kv.1 kv.2).mp hkv] at hnone
    cases hnone
  · intro hsome
    by_contra hp
    exact hsome (lookup_eq_none hp)

/-- Applied to a map, a comparison leaves the paths at which its operands agree as they are and
takes the others from its target. -/
theorem get_applyTo (m : OrderedMap Str Hash) (p : Str) :
    ((compareBindings base target).applyTo m).get p =
      if base.get p = target.get p then m.get p else target.get p := by
  have hadded : lookup p (compareBindings base target).added.entries =
      if base.get p = none then (target.get p).or none else none :=
    @get_added base target.entries target.keys_nodup ⟨.empty,.empty,.empty,0⟩ p
  have hchanged : lookup p (compareBindings base target).changed.entries =
      match base.get p,target.get p with
      | some b,some t => if b ≠ t then some (b,t) else none
      | _,_ => none :=
    @get_changed base target.entries target.keys_nodup ⟨.empty,.empty,.empty,0⟩ p
  have hremoved : (compareBindings base target).removed.get p =
      if target.get p = none then (base.get p).or none else none :=
    @get_removed target base.entries base.keys_nodup .empty p
  unfold TreeDiff.applyTo
  dsimp only
  rw [get_foldl_second _ (keys_nodup _),get_foldl_insert _ (keys_nodup _),get_foldl_erase,hadded,
    hchanged]
  simp only [mem_keys_iff,hremoved]
  cases base.get p with
  | none => cases target.get p <;> simp
  | some b =>
    cases target.get p with
    | none => simp
    | some t => by_cases hbt : b = t <;> simp [hbt]

end Applying

/-! Complete reads. -/

section Reading

variable (load : Hash → Option SnapshotNodeData)

/-- The bindings below the entries of a node, where every node is there. -/
inductive ReadInto : List Entry → OrderedMap Str Hash → OrderedMap Str Hash → Prop
  | nil {out : OrderedMap Str Hash} : ReadInto [] out out
  | bucket {b : List (Str × Hash)} {rest : List Entry} {out out' : OrderedMap Str Hash}
      (later : ReadInto rest (b.foldl (fun out t => out.insert t.1 t.2) out) out') :
      ReadInto (.bucket b::rest) out out'
  | link {h : Hash} {sub : SnapshotNodeData} {rest : List Entry} {out mid out' : OrderedMap Str Hash}
      (loaded : load h = some sub) (below : ReadInto sub.data out mid)
      (later : ReadInto rest mid out') : ReadInto (.link h::rest) out out'

/-- The bindings of a whole trie. -/
def ReadsTrie (root : Hash) (m : OrderedMap Str Hash) : Prop :=
  ∃ node, load root = some node ∧ ReadInto load node.data .empty m

/-- The bindings of a snapshot; the flat form lists its own. -/
def ReadsSnapshot (X : Platform) (data : Bytes) (m : OrderedMap Str Hash) : Prop :=
  ∃ map, (X.fromReader data).toOption.bind Value.asMap = some map ∧
    match (getField map "root").bind hashField with
    | some root => ReadsTrie load root m
    | none => ∃ bindings l, (getField map "bindings").bind Value.asMap = some bindings ∧
        bindings.mapM flatBinding = some l ∧ m = .ofList l

end Reading

/-- What the request can draw on: the store, then what came with it. -/
def availableNode (X : Platform) (ctx : TreeContext) (s : ContentStore) (h : Hash) :
    Option SnapshotNodeData :=
  (resolveSnapshot ctx s h).bind fun e => SnapshotNodeData.fromCbor X e.data

section Collecting

variable {X : Platform} {ctx : TreeContext} {s : ContentStore}

theorem loadTrieNode_available {h : Hash} {node : SnapshotNodeData}
    (hload : loadTrieNode X s h = some node) : availableNode X ctx s h = some node := by
  obtain ⟨e,he,hnode⟩ := Option.bind_eq_some_iff.mp hload
  unfold availableNode resolveSnapshot
  rw [he]
  exact hnode

theorem ReadInto.mono {load' : Hash → Option SnapshotNodeData}
    (hload : ∀ h node, load h = some node → load' h = some node) {entries : List Entry}
    {out' : OrderedMap Str Hash} (h : ReadInto load entries out out') :
    ReadInto load' entries out out' := by
  induction h with
  | nil => exact .nil
  | bucket _ ih => exact .bucket ih
  | link loaded _ _ ihbelow ihlater => exact .link (hload _ _ loaded) ihbelow ihlater

/-- Where the store alone has every node, the collector reads completely. -/
theorem collect_of_readInto {entries : List Entry}
    (h : ReadInto (loadTrieNode X s) entries out m) {fuel : ℕ} {r : OrderedMap Str Hash}
    (hr : entries.foldlM (collectStep X s (collectBindingsInto X s fuel)) out = .ok r) : r = m := by
  induction h generalizing fuel r with
  | nil => exact (Except.ok.inj hr).symm
  | bucket _ ih =>
    rw [List.foldlM_cons] at hr
    exact ih hr
  | @link h sub rest out mid out' loaded _ _ ihbelow ihlater =>
    rw [List.foldlM_cons,bind_ok] at hr
    obtain ⟨found,hfound,hr⟩ := hr
    unfold collectStep at hfound
    dsimp only at hfound
    rw [loaded] at hfound
    cases fuel with
    | zero => cases hfound
    | succ fuel =>
      obtain rfl := ihbelow hfound
      exact ihlater hr

theorem decode_of_readsSnapshot {fuel : ℕ} {data : Bytes} {r : OrderedMap Str Hash}
    (h : ReadsSnapshot (loadTrieNode X s) X data m)
    (hr : decodeSnapshotBindings X fuel s data = .ok (some r)) : r = m := by
  obtain ⟨map,hmap,hform⟩ := h
  unfold decodeSnapshotBindings at hr
  rw [hmap] at hr
  dsimp only at hr
  cases hroot : (getField map "root").bind hashField with
  | some root =>
    rw [hroot] at hform hr
    obtain ⟨node,hload,hread⟩ := hform
    dsimp only at hr
    unfold collectAllBindings at hr
    rw [hload] at hr
    cases fuel with
    | zero => cases hr
    | succ fuel =>
      cases hcollect : collectBindingsInto X s (fuel+1) node .empty with
      | error e =>
        simp [hcollect] at hr
      | ok found =>
        simp only [hcollect] at hr
        obtain rfl : found = r := Option.some.inj (Except.ok.inj hr)
        exact collect_of_readInto hread hcollect
  | none =>
    rw [hroot] at hform hr
    obtain ⟨bindings,l,hbindings,hl,rfl⟩ := hform
    obtain ⟨v,hv,hasMap⟩ := Option.bind_eq_some_iff.mp hbindings
    simp only [hv,hasMap,hl,Option.bind_eq_bind,Option.bind_some,Option.pure_def,pure_ok,
      Option.some.injEq] at hr
    exact hr.symm

/-- Complete reads from the store alone are complete, and what the diff compares. -/
theorem readsSnapshot_available {data : Bytes} (h : ReadsSnapshot (loadTrieNode X s) X data m) :
    ReadsSnapshot (availableNode X ctx s) X data m := by
  obtain ⟨map,hmap,hform⟩ := h
  refine ⟨map,hmap,?_⟩
  cases hroot : (getField map "root").bind hashField with
  | some root =>
    rw [hroot] at hform
    obtain ⟨node,hload,hread⟩ := hform
    exact ⟨node,loadTrieNode_available hload,hread.mono fun h node => loadTrieNode_available⟩
  | none =>
    rw [hroot] at hform
    exact hform

/-- The snapshots a request names. -/
def diffOperands (X : Platform) (ctx : TreeContext) : Except TreeFailure (Hash × Hash) := do
  let map ← paramsMap X ctx "diff"
  let baseBytes ← bytesParam map "base"
  let targetBytes ← bytesParam map "target"
  return (← hashParam baseBytes,← hashParam targetBytes)

theorem handleDiff_ok {fuel : ℕ} {e : Entity} (h : handleDiff X ctx fuel s = .ok e) :
    ∃ baseHash targetHash base target stored stored',
      diffOperands X ctx = .ok (baseHash,targetHash) ∧ resolveSnapshot ctx s baseHash = some base ∧
      resolveSnapshot ctx s targetHash = some target ∧
      decodeSnapshotBindings X fuel s base.data = .ok (some stored) ∧
      decodeSnapshotBindings X fuel s target.data = .ok (some stored') ∧
      diffEntity X baseHash targetHash (compareBindings stored stored') = .ok e := by
  have hoperand : ∀ name x m, operandBindings X fuel s name x = .ok m →
      decodeSnapshotBindings X fuel s x.data = .ok (some m) := by
    intro name x m hm
    simp only [operandBindings,bind_ok,mapErr_ok,okOr_ok] at hm
    obtain ⟨found,hfound,rfl⟩ := hm
    exact hfound
  simp only [handleDiff,bind_ok,okOr_ok] at h
  obtain ⟨map,hmap,baseBytes,hbaseBytes,targetBytes,htargetBytes,baseHash,hbaseHash,targetHash,
    htargetHash,base,hbase,target,htarget,stored,hstored,stored',hstored',hentity⟩ := h
  have hoperands : diffOperands X ctx = .ok (baseHash,targetHash) := by
    simp only [diffOperands,bind_ok,pure_ok]
    exact ⟨map,hmap,baseBytes,hbaseBytes,targetBytes,htargetBytes,baseHash,hbaseHash,targetHash,
      htargetHash,rfl⟩
  exact ⟨baseHash,targetHash,base,target,stored,stored',hoperands,hbase,htarget,hoperand _ _ _ hstored,
    hoperand _ _ _ hstored',hentity⟩

end Collecting

/-- What a stepped-over node held makes no difference: where the store's parts of the two tries
agree the whole tries do, and where they do not the store has what the whole target binds. -/
def NoneMissed (stored stored' base target : OrderedMap Str Hash) : Prop :=
  ∀ p, if stored.get p = stored'.get p then base.get p = target.get p
    else stored'.get p = target.get p

/-- A diff that succeeds takes the whole base to the whole target precisely when both can be read
completely from what is available and the nodes missing from the store make no difference. -/
theorem diff_exact_iff (X : Platform) (ctx : TreeContext) (s : ContentStore) (fuel : ℕ) (e : Entity)
    (h : handleDiff X ctx fuel s = .ok e) : ∃ baseHash targetHash base target stored stored',
      diffOperands X ctx = .ok (baseHash,targetHash) ∧ resolveSnapshot ctx s baseHash = some base ∧
      resolveSnapshot ctx s targetHash = some target ∧
      decodeSnapshotBindings X fuel s base.data = .ok (some stored) ∧
      decodeSnapshotBindings X fuel s target.data = .ok (some stored') ∧
      diffEntity X baseHash targetHash (compareBindings stored stored') = .ok e ∧
      ((∃ b t, ReadsSnapshot (availableNode X ctx s) X base.data b ∧
          ReadsSnapshot (availableNode X ctx s) X target.data t ∧
          (compareBindings stored stored').applyTo b = t) ↔
        ∃ b t, ReadsSnapshot (availableNode X ctx s) X base.data b ∧
          ReadsSnapshot (availableNode X ctx s) X target.data t ∧
          NoneMissed stored stored' b t) := by
  obtain ⟨baseHash,targetHash,base,target,stored,stored',hoperands,hbase,htarget,hstored,hstored',
    hentity⟩ := handleDiff_ok h
  refine ⟨baseHash,targetHash,base,target,stored,stored',hoperands,hbase,htarget,hstored,hstored',
    hentity,?_⟩
  have happlied : ∀ b t, (compareBindings stored stored').applyTo b = t ↔
      NoneMissed stored stored' b t := by
    intro b t
    constructor
    · rintro rfl p
      rw [get_applyTo]
      split_ifs <;> rfl
    · intro hnone
      apply OrderedMap.ext_get
      intro p
      have hp := hnone p
      rw [get_applyTo]
      split_ifs at hp ⊢ <;> exact hp
  simp only [happlied]

/-- Where the store has every node the diff is exact. -/
theorem diff_exact_of_stored {X : Platform} {ctx : TreeContext} {s : ContentStore} {fuel : ℕ}
    {base target : Entity} {stored stored' b t : OrderedMap Str Hash}
    (hstored : decodeSnapshotBindings X fuel s base.data = .ok (some stored))
    (hstored' : decodeSnapshotBindings X fuel s target.data = .ok (some stored'))
    (hb : ReadsSnapshot (loadTrieNode X s) X base.data b)
    (ht : ReadsSnapshot (loadTrieNode X s) X target.data t) :
    ReadsSnapshot (availableNode X ctx s) X base.data b ∧
      ReadsSnapshot (availableNode X ctx s) X target.data t ∧ NoneMissed stored stored' b t := by
  obtain rfl := decode_of_readsSnapshot hb hstored
  obtain rfl := decode_of_readsSnapshot ht hstored'
  refine ⟨readsSnapshot_available hb,readsSnapshot_available ht,?_⟩
  intro p
  split_ifs with hp
  · exact hp
  · rfl

/-! A target whose node came with the request. -/

namespace DiffSample

open Sample

def notes : Str := "app/notes".toList

/-- The root of a trie that binds the notes alone. -/
def nodeOf (h : Hash) : SnapshotNodeData := ⟨1#32 <<< 8,[.bucket [(notes,h)]]⟩

def before : Hash := sha256Hash 0xa98b78e5059e329654170d2592cabd73feb6428b81e31a423f0b781b3e4a76f3
def after : Hash := sha256Hash 0xbd80b2f7c4de929a1078df89d78a7fdd0b30c0acb24c28c2dee2f898e2626be9

def baseRoot : Entity := entity "system/tree/snapshot/node" (nodeOf before).toValue 0x223384f01b4a3faf4c21f577c8c3a41dd5ce7ce9ceffc177f5fdcd9259701f70
def targetRoot : Entity := entity "system/tree/snapshot/node" (nodeOf after).toValue 0x5f650f0763f93355fcd91e5e6a6ebf8300f5da7ca414a38e12acfe76c2bcba20

def rootValue (root : Entity) : Value := .map [field "root" (hashVal root.contentHash)]

def baseSnapshot : Entity := entity "system/tree/snapshot" (rootValue baseRoot) 0x2a9bf66cd77279ea04a6a635c5e0d23c01bda3cfb328b4beaf1f775098477b6f
def targetSnapshot : Entity := entity "system/tree/snapshot" (rootValue targetRoot) 0x3a78036ceaaaf8cd0e0aad4256d9a0bf51209b6a93b616834327fb0cb0000b6f

def request : Value :=
  .map [field "base" (hashVal baseSnapshot.contentHash),
    field "target" (hashVal targetSnapshot.contentHash)]

def crates : Platform := platform [request,rootValue baseRoot,rootValue targetRoot,
  (nodeOf before).toValue,(nodeOf after).toValue] [] []

/-- The target and its node travel with the request. -/
def asked : TreeContext where
  isExternal := false
  callerCapability := none
  pattern := []
  resourceTarget := none
  params := entity "system/tree/diff-request" request 0x96637e69bcb8c0e1dbc335a5dfec11e8bb10533f1b8fca5a25adc93e03e3d156
  included := (OrderedMap.empty.insert targetSnapshot.contentHash targetSnapshot).insert
    targetRoot.contentHash targetRoot

def ownStore : ContentStore := ⟨[baseSnapshot,baseRoot]⟩
def fullStore : ContentStore := ⟨[targetSnapshot,targetRoot,baseSnapshot,baseRoot]⟩

theorem reads_bucket {key : Str} {h : Hash} (hm : ReadInto load [.bucket [(key,h)]] out m) :
    m.get key = some h := by
  cases hm with
  | bucket later =>
    cases later
    simp

theorem root_field (root : Entity) :
    (getField [field "root" (hashVal root.contentHash)] "root").bind hashField =
      some root.contentHash := by
  simp [getField,field,Value.asText,hashField_toBytes,hashVal]

theorem reads_notes {root : Entity} {h : Hash} (hload : load root.contentHash = some (nodeOf h))
    (hroot : (crates.fromReader (toEcf (rootValue root))).toOption = some (rootValue root))
    (hm : ReadsSnapshot load crates (toEcf (rootValue root)) m) : m.get notes = some h := by
  obtain ⟨map,hmap,hform⟩ := hm
  rw [hroot] at hmap
  obtain rfl := Option.some.inj hmap
  rw [root_field] at hform
  obtain ⟨node,hnode,hread⟩ := hform
  rw [hload] at hnode
  rw [← Option.some.inj hnode] at hread
  exact reads_bucket hread

theorem snapshot_reads {r : Entity} {h : Hash} (hload : load r.contentHash = some (nodeOf h))
    (hroot : (crates.fromReader (toEcf (rootValue r))).toOption = some (rootValue r)) :
    ReadsSnapshot load crates (toEcf (rootValue r)) (OrderedMap.empty.insert notes h) := by
  refine ⟨[field "root" (hashVal r.contentHash)],by rw [hroot]; rfl,?_⟩
  rw [root_field]
  exact ⟨nodeOf h,hload,.bucket .nil⟩

theorem snapshots_known :
    (crates.fromReader (toEcf (rootValue baseRoot))).toOption = some (rootValue baseRoot) ∧
      (crates.fromReader (toEcf (rootValue targetRoot))).toOption = some (rootValue targetRoot) := by
  have hrequest : toEcf request ≠ toEcf (rootValue baseRoot) := by decide
  have hrequest' : toEcf request ≠ toEcf (rootValue targetRoot) := by decide
  have hother : toEcf (rootValue baseRoot) ≠ toEcf (rootValue targetRoot) := by decide
  constructor
  · simp [crates,platform,okOr,Except.toOption,hrequest]
  · simp [crates,platform,okOr,Except.toOption,hrequest',hother]

theorem operands : diffOperands crates asked =
    .ok (baseSnapshot.contentHash,targetSnapshot.contentHash) :=
  toOption_eq.mp (by decide +kernel)

end DiffSample

open DiffSample

/-- The target's node is at hand, and its binding is reported removed. -/
theorem included_nodes_missed :
    ¬∀ (X : Platform) (ctx : TreeContext) (s : ContentStore) (fuel : ℕ) (e : Entity),
      handleDiff X ctx fuel s = .ok e → ∀ baseHash targetHash base target stored stored',
        diffOperands X ctx = .ok (baseHash,targetHash) →
        resolveSnapshot ctx s baseHash = some base → resolveSnapshot ctx s targetHash = some target →
        decodeSnapshotBindings X fuel s base.data = .ok (some stored) →
        decodeSnapshotBindings X fuel s target.data = .ok (some stored') →
        ∃ b t, ReadsSnapshot (availableNode X ctx s) X base.data b ∧
          ReadsSnapshot (availableNode X ctx s) X target.data t ∧
          (compareBindings stored stored').applyTo b = t := by
  intro h
  obtain ⟨e,he,-⟩ := exists_ok_of_any (x := handleDiff crates asked 1 ownStore)
    (p := fun _ => true) (by decide +kernel)
  have hstored : decodeSnapshotBindings crates 1 ownStore baseSnapshot.data =
      .ok (some (OrderedMap.empty.insert notes before)) := toOption_eq.mp (by decide +kernel)
  have hstored' : decodeSnapshotBindings crates 1 ownStore targetSnapshot.data =
      .ok (some .empty) := toOption_eq.mp (by decide +kernel)
  obtain ⟨b,t,-,ht,happlied⟩ := h crates asked ownStore 1 e he _ _ baseSnapshot targetSnapshot _ _
    operands (by decide +kernel) (by decide +kernel) hstored hstored'
  have hwhole := reads_notes (h := after) (by decide +kernel) snapshots_known.2 ht
  have hdiff := @get_applyTo (OrderedMap.empty.insert notes before) .empty b notes
  rw [happlied,hwhole] at hdiff
  simp at hdiff

theorem diff_exact_iff_sample : ∃ base target stored stored' b t,
    resolveSnapshot asked fullStore baseSnapshot.contentHash = some base ∧
    resolveSnapshot asked fullStore targetSnapshot.contentHash = some target ∧
    ReadsSnapshot (availableNode crates asked fullStore) crates base.data b ∧
    ReadsSnapshot (availableNode crates asked fullStore) crates target.data t ∧
    (compareBindings stored stored').applyTo b = t := by
  obtain ⟨e,he,-⟩ := exists_ok_of_any (x := handleDiff crates asked 1 fullStore)
    (p := fun _ => true) (by decide +kernel)
  obtain ⟨baseHash,targetHash,base,target,stored,stored',hoperands,hbase,htarget,hstored,hstored',-,
    hexact⟩ := diff_exact_iff crates asked fullStore 1 e he
  rw [operands] at hoperands
  obtain ⟨rfl,rfl⟩ := Prod.mk.inj (Except.ok.inj hoperands)
  have hfound : resolveSnapshot asked fullStore baseSnapshot.contentHash = some baseSnapshot ∧
      resolveSnapshot asked fullStore targetSnapshot.contentHash = some targetSnapshot := by
    decide +kernel
  obtain rfl := Option.some.inj (hfound.1.symm.trans hbase)
  obtain rfl := Option.some.inj (hfound.2.symm.trans htarget)
  have hreads := @diff_exact_of_stored _ asked _ _ _ _ _ _ _ _ hstored hstored'
    (snapshot_reads (r := baseRoot) (h := before) (by decide +kernel) snapshots_known.1)
    (snapshot_reads (r := targetRoot) (h := after) (by decide +kernel) snapshots_known.2)
  obtain ⟨b,t,hb,ht,happlied⟩ := hexact.mpr ⟨_,_,hreads⟩
  exact ⟨_,_,stored,stored',b,t,hbase,htarget,hb,ht,happlied⟩

end EntityCore
