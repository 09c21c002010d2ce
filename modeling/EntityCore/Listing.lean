import EntityCore.TreeHandler

/-! Reads of the tree. A path that ends with a slash is listed: what lies below is grouped under
the names of the immediate children, and then the names the caller may not read are dropped. A
group sums up everything below its name, readable or not. -/
namespace EntityCore

open Ecf Outcome Strings TreeHandler

def typeTreeListing : Str := "system/tree/listing".toList

/-! Listings. -/

structure ChildInfo where
  hash : Option Hash
  hasChildren : Bool
  deriving DecidableEq

namespace Listing

/-- What is known of a child, from nothing. -/
def child (children : OrderedMap Str ChildInfo) (name : Str) : ChildInfo :=
  (children.get name).getD ⟨none,false⟩

/-- One entry goes to the child whose name is the first segment below the prefix. -/
def group (start : Str) (children : OrderedMap Str ChildInfo) (entry : Str × Hash) :
    OrderedMap Str ChildInfo :=
  let rel := TreeHandler.relativeTo start entry.1
  if rel.isEmpty then children
  else match splitOnce '/' rel with
    | some (name,_) =>
      children.insert name { child children name with hasChildren := true }
    | none => children.insert rel { child children rel with hash := some entry.2 }

def children (start : Str) (entries : List (Str × Hash)) : OrderedMap Str ChildInfo :=
  entries.foldl (group start) .empty

/-- A binding of a deletion marker is hidden. -/
def suppress (s : ContentStore) (info : ChildInfo) : ChildInfo :=
  { info with hash := info.hash.filter fun h =>
      !(s.get h).any fun e => e.entityType = typeDeletionMarker }

def ChildInfo.shows (info : ChildInfo) : Bool := info.hash.isSome || info.hasChildren

/-- The children that show, among those `allowed` lets through. -/
def shown (s : ContentStore) (allowed : Str → Bool) (found : OrderedMap Str ChildInfo) :
    OrderedMap Str ChildInfo :=
  .ofList (found.entries.filterMap fun e =>
    let info := suppress s e.2
    if ChildInfo.shows info && allowed e.1 then some (e.1,info) else none)

def entryValue (info : ChildInfo) : Value :=
  .map [field "has_children" (.bool info.hasChildren),
    field "hash" ((info.hash.map hashVal).getD .null)]

def toValue (path : Str) (found : OrderedMap Str ChildInfo) : Value :=
  .map [field "count" (integerI64 found.entries.length),
    field "entries" (.map (found.entries.map fun e => (.text e.1,entryValue e.2))),
    field "offset" (integerI64 0),field "path" (textVal path)]

end Listing

/-! The read. -/

/-- What a read gives: a listing of a path, or the entity bound there. -/
inductive TreeRead where
  | listing (path : Str) (found : OrderedMap Str ChildInfo)
  | entity (e : Entity)

def TreeRead.toEntity (X : Platform) : TreeRead → Except EntityError Entity
  | .listing path found => Entity.new X typeTreeListing (toEcf (Listing.toValue path found))
  | .entity e => .ok e

namespace TreeHandler

variable (X : Platform) (H : TreeHandler) (ctx : TreeContext)

def get (s : TreeState) (path : Str) : Option Entity := (s.index.get path).bind s.store.get

def handleListingFiltered (path : Str) (s : TreeState) : OrderedMap Str ChildInfo :=
  Listing.shown s.store (fun name => H.pathAllowed X ctx permissionGet (path++name))
    (Listing.children path (s.index.list path))

/-- The path that is read. Without a resource it is the handler's pattern and what the request
adds to it. -/
def readTarget (suffix : Str) : Except Failure Str := do
  match ← singleEffectiveTarget ctx.resourceTarget H.localPeerId "system/tree:get" with
  | .one p => .ok p
  | .selfExcluded => .error (selfExcludedRefusal "system/tree:get")
  | .absent => .ok (ctx.pattern++suffix)

def handleGet (suffix : Str) (s : TreeState) : Except Failure TreeRead := do
  let path ← H.readTarget ctx suffix
  H.authorizePath X ctx permissionGet path
  if path.isEmpty || endsWith path ['/'] then
    return .listing path (H.handleListingFiltered X ctx path s)
  else match get s path with
    | some e => return .entity e
    | none => .error ⟨404,"not_found","path not found: "++String.ofList path⟩

end TreeHandler

/-! Entries that keep their keys. -/

namespace OrderedMap

section FilterMap

variable {α β γ : Type} [LinearOrder α] {f : α × β → Option (α × γ)}

omit [LinearOrder α] in
theorem keys_filterMap (hf : ∀ e e', f e = some e' → e'.1 = e.1) (l : List (α × β)) :
    ((l.filterMap f).map Prod.fst).Sublist (l.map Prod.fst) := by
  induction l with
  | nil => simp
  | cons e r ih =>
    rw [List.filterMap_cons]
    cases he : f e with
    | none => exact ih.cons _
    | some e' =>
      simp only [List.map_cons,hf e e' he]
      exact ih.cons_cons _

theorem lookup_filterMap (hf : ∀ e e', f e = some e' → e'.1 = e.1) {l : List (α × β)}
    (hs : (l.map Prod.fst).Nodup) (k : α) :
    lookup k (l.filterMap f) = (lookup k l).bind fun v => (f (k,v)).map Prod.snd := by
  induction l with
  | nil => rfl
  | cons e r ih =>
    obtain ⟨hx,hr⟩ := List.nodup_cons.mp hs
    obtain ⟨a,b⟩ := e
    rw [List.filterMap_cons]
    by_cases hk : a = k
    · subst hk
      have hrest : lookup a (r.filterMap f) = none := by rw [ih hr,lookup_eq_none hx]; rfl
      cases he : f (a,b) with
      | none => simp [lookup,hrest,he]
      | some e' => simp [lookup,he,hf _ _ he]
    · cases he : f (a,b) with
      | none => simp [lookup,hk,ih hr]
      | some e' => simp [lookup,hk,hf _ _ he,ih hr]

theorem get_ofList_filterMap (hf : ∀ e e', f e = some e' → e'.1 = e.1) (m : OrderedMap α β)
    (k : α) : (ofList (m.entries.filterMap f)).get k =
      (m.get k).bind fun v => (f (k,v)).map Prod.snd := by
  unfold ofList
  rw [get_foldl_insert _ (m.keys_nodup.sublist (keys_filterMap hf _)),get_empty,Option.or_none]
  exact lookup_filterMap hf m.keys_nodup k

end FilterMap

end OrderedMap

/-! What a group sums up. -/

namespace Listing

section Groups

open OrderedMap

variable {start : Str}

/-- Something is bound below a child. -/
def HasBelow (start name : Str) (entries : List (Str × Hash)) : Prop :=
  '/' ∉ name ∧ ∃ e ∈ entries, ∃ rest, e.1 = start++name++ '/'::rest

theorem relativeTo_append (start rel : Str) : TreeHandler.relativeTo start (start++rel) = rel := by
  unfold TreeHandler.relativeTo
  rw [(stripPrefix_eq_some _ _ _).mpr rfl]
  rfl

theorem child_insert (m : OrderedMap Str ChildInfo) (k : Str) (info : ChildInfo) (name : Str) :
    child (m.insert k info) name = if name = k then info else child m name := by
  unfold child
  rw [get_insert]
  split_ifs <;> rfl

/-- A direct binding gives its child a hash, a deeper one a descendant. -/
theorem child_group (m : OrderedMap Str ChildInfo) (rel : Str) (h : Hash) (name : Str) :
    (child (group start m (start++rel,h)) name).hash =
        (if name ≠ [] ∧ '/' ∉ name ∧ rel = name then some h else (child m name).hash) ∧
      ((child (group start m (start++rel,h)) name).hasChildren = true ↔
        ('/' ∉ name ∧ ∃ rest, rel = name++ '/'::rest) ∨ (child m name).hasChildren = true) := by
  unfold group
  simp only [relativeTo_append]
  by_cases hrel : rel.isEmpty
  · obtain rfl := List.isEmpty_iff.mp hrel
    rw [if_neg fun hn : name ≠ [] ∧ '/' ∉ name ∧ [] = name => hn.1 hn.2.2.symm]
    simp
  · have hrel' : rel ≠ [] := fun h => hrel (by simp [h])
    cases hsplit : splitOnce '/' rel with
    | none =>
      have hno := (splitOnce_eq_none _ _).mp hsplit
      simp only [hrel,Bool.false_eq_true,if_false,child_insert]
      by_cases hname : name = rel
      · subst hname
        simp [hrel',hno]
      · have hdeep : ¬ ∃ rest, rel = name++ '/'::rest := fun ⟨rest,hr⟩ => hno (by simp [hr])
        simp [hname,Ne.symm hname,hdeep]
    | some parts =>
      obtain ⟨first,rest⟩ := parts
      obtain ⟨rfl,hfirst⟩ := (splitOnce_eq_some _ _ _ _).mp hsplit
      simp only [hrel,Bool.false_eq_true,if_false,child_insert]
      have hdirect : ¬ (name ≠ [] ∧ '/' ∉ name ∧ first++ '/'::rest = name) := by
        rintro ⟨-,hn,rfl⟩
        exact hn (by simp)
      rw [if_neg hdirect]
      by_cases hname : name = first
      · subst hname
        simp [hfirst]
      · have hdeep : ¬ ('/' ∉ name ∧ ∃ r, first++ '/'::rest = name++ '/'::r) := by
          rintro ⟨hn,r,hr⟩
          have heq := (splitOnce_eq_some '/' _ name r).mpr ⟨hr,hn⟩
          rw [hsplit] at heq
          exact hname (congrArg Prod.fst (Option.some.inj heq)).symm
        simp [hname,hdeep]

/-- The hash of a child is that of its own binding. -/
theorem child_children_hash (l : List (Str × Hash)) (hl : ∀ e ∈ l, start <+: e.1)
    (hs : (l.map Prod.fst).Nodup) (m : OrderedMap Str ChildInfo) (name : Str) :
    (child (l.foldl (group start) m) name).hash =
      (if name ≠ [] ∧ '/' ∉ name then lookup (start++name) l else none).or
        (child m name).hash := by
  induction l generalizing m with
  | nil => simp [lookup]
  | cons e r ih =>
    obtain ⟨hx,hr⟩ := List.nodup_cons.mp hs
    obtain ⟨⟨rel,hrel⟩,hl'⟩ := List.forall_mem_cons.mp hl
    obtain ⟨p,h⟩ := e
    simp only at hrel hx
    subst hrel
    rw [List.foldl_cons,ih hl' hr,(child_group m rel h name).1]
    by_cases hn : name ≠ [] ∧ '/' ∉ name
    · by_cases heq : rel = name
      · subst heq
        simp [hn,lookup,lookup_eq_none hx]
      · simp [hn,lookup,heq]
    · simp [hn,← and_assoc]

/-- A child has descendants when something is bound below it. -/
theorem child_children_nested (l : List (Str × Hash)) (hl : ∀ e ∈ l, start <+: e.1)
    (m : OrderedMap Str ChildInfo) (name : Str) :
    (child (l.foldl (group start) m) name).hasChildren = true ↔
      HasBelow start name l ∨ (child m name).hasChildren = true := by
  induction l generalizing m with
  | nil => simp [HasBelow]
  | cons e r ih =>
    obtain ⟨⟨rel,hrel⟩,hl'⟩ := List.forall_mem_cons.mp hl
    obtain ⟨p,h⟩ := e
    simp only at hrel
    subst hrel
    rw [List.foldl_cons,ih hl',(child_group m rel h name).2]
    simp only [HasBelow,List.exists_mem_cons_iff,List.append_assoc,List.append_cancel_left_eq]
    by_cases hn : '/' ∈ name
    · simp [hn]
    · simp [hn,or_left_comm,or_assoc]

theorem get_shown (s : ContentStore) (allowed : Str → Bool) (found : OrderedMap Str ChildInfo)
    (name : Str) :
    (shown s allowed found).get name =
      if ChildInfo.shows (suppress s (child found name)) && allowed name then
        some (suppress s (child found name)) else none := by
  have hf (e e' : Str × ChildInfo) (h : (let info := suppress s e.2
      if ChildInfo.shows info && allowed e.1 then some (e.1,info) else none) = some e') :
      e'.1 = e.1 := by
    dsimp only at h
    split_ifs at h
    rw [← Option.some.inj h]
  unfold shown child
  rw [get_ofList_filterMap hf]
  cases found.get name with
  | none => simp [suppress,ChildInfo.shows]
  | some info => split_ifs <;> simp_all

end Groups

end Listing

/-! What a caller learns from a listing. -/

namespace TreeHandler

open Listing

section TwoTrees

variable {X : Platform} {H : TreeHandler} {ctx : TreeContext}

/-- Two trees look the same where the caller may read. -/
def ReadableSame (X : Platform) (H : TreeHandler) (ctx : TreeContext) (s s' : TreeState) : Prop :=
  ∀ p, H.pathAllowed X ctx permissionGet p = true → s.index.get p = s'.index.get p ∧
    ∀ h, s.index.get p = some h → s.store.get h = s'.store.get h

/-- The names a caller may read have the same below them, seen or not. -/
def SameBelow (X : Platform) (H : TreeHandler) (ctx : TreeContext) (path : Str)
    (s s' : TreeState) : Prop :=
  ∀ name, H.pathAllowed X ctx permissionGet (path++name) = true →
    (HasBelow path name (s.index.list path) ↔ HasBelow path name (s'.index.list path))

theorem prefix_of_mem_list {m : MemoryLocationIndex} {start : Str} {e : Str × Hash}
    (h : e ∈ m.list start) : start <+: e.1 :=
  ((MemoryLocationIndex.mem_list m start e.1 e.2).mp h).2

theorem lookup_list (m : MemoryLocationIndex) (start rel : Str) :
    OrderedMap.lookup (start++rel) (m.list start) = m.get (start++rel) := by
  apply Option.ext
  intro h
  have hs : ((m.list start).map Prod.fst).Nodup := by
    rw [MemoryLocationIndex.list_eq]
    exact OrderedMap.keys_nodup _
  have hmem : (start++rel,h) ∈ m.list start ↔ m.get (start++rel) = some h := by
    simp [MemoryLocationIndex.mem_list]
  rw [← hmem]
  exact ⟨OrderedMap.mem_of_lookup,OrderedMap.lookup_of_mem hs⟩

/-- The hash shown for a name. -/
def shownHash (s : TreeState) (path name : Str) : Option Hash :=
  (if name ≠ [] ∧ '/' ∉ name then s.index.get (path++name) else none).filter fun h =>
    !(s.store.get h).any fun e => e.entityType = typeDeletionMarker

theorem child_listed (s : TreeState) (path name : Str) :
    (suppress s.store (child (Listing.children path (s.index.list path)) name)).hash =
        shownHash s path name ∧
      ((child (Listing.children path (s.index.list path)) name).hasChildren = true ↔
        HasBelow path name (s.index.list path)) := by
  have hl : ∀ e ∈ s.index.list path, path <+: e.1 := fun e he => prefix_of_mem_list he
  have hs : ((s.index.list path).map Prod.fst).Nodup := by
    rw [MemoryLocationIndex.list_eq]
    exact OrderedMap.keys_nodup _
  constructor
  · simp only [suppress,shownHash,Listing.children]
    rw [child_children_hash _ hl hs,lookup_list]
    simp [child]
  · rw [Listing.children,child_children_nested _ hl]
    simp [child]

theorem shownHash_same {s s' : TreeState} (h : ReadableSame X H ctx s s') {path name : Str}
    (hn : H.pathAllowed X ctx permissionGet (path++name) = true) :
    shownHash s path name = shownHash s' path name := by
  obtain ⟨hindex,hstore⟩ := h _ hn
  unfold shownHash
  rw [← hindex]
  split_ifs with hname
  · cases hg : s.index.get (path++name) with
    | none => rfl
    | some hash => simp [Option.filter,hstore hash hg]
  · rfl

/-- With the same hash, a name is shown the same when its directory flag is. -/
theorem shows_same_iff {info info' : ChildInfo} (h : info.hash = info'.hash) :
    (if ChildInfo.shows info then some info else none) =
        (if ChildInfo.shows info' then some info' else none) ↔
      (info.hasChildren = true ↔ info'.hasChildren = true) := by
  obtain ⟨hash,nested⟩ := info
  obtain ⟨hash',nested'⟩ := info'
  obtain rfl : hash = hash' := h
  cases nested <;> cases nested' <;> cases hash <;> simp [ChildInfo.shows]

/-- Where readable paths agree, the listing is the same when what lies below each shown name is. -/
theorem handleListingFiltered_eq_iff {s s' : TreeState} (h : ReadableSame X H ctx s s')
    (path : Str) : H.handleListingFiltered X ctx path s = H.handleListingFiltered X ctx path s' ↔
      SameBelow X H ctx path s s' := by
  have hget (t : TreeState) (name : Str) :=
    get_shown t.store (fun name => H.pathAllowed X ctx permissionGet (path++name))
      (Listing.children path (t.index.list path)) name
  have hname (name : Str) (hn : H.pathAllowed X ctx permissionGet (path++name) = true) :
      (H.handleListingFiltered X ctx path s).get name =
          (H.handleListingFiltered X ctx path s').get name ↔
        (HasBelow path name (s.index.list path) ↔ HasBelow path name (s'.index.list path)) := by
    have hhash := (child_listed s path name).1.trans
      ((shownHash_same h hn).trans (child_listed s' path name).1.symm)
    rw [← (child_listed s path name).2,← (child_listed s' path name).2]
    simp only [handleListingFiltered,hget,hn,Bool.and_true]
    exact shows_same_iff hhash
  constructor
  · intro heq name hn
    exact (hname name hn).mp (by rw [heq])
  · intro hbelow
    apply OrderedMap.ext_get
    intro name
    cases hn : H.pathAllowed X ctx permissionGet (path++name) with
    | false => simp [handleListingFiltered,hget,hn]
    | true => exact (hname name hn).mpr (hbelow name hn)

/-- A listing tells two trees apart that agree wherever the caller may read when, below a name the
caller may read, something is bound in one and nothing in the other. -/
theorem listing_same_iff (X : Platform) (H : TreeHandler) (ctx : TreeContext) (suffix path : Str)
    (s s' : TreeState) (htarget : H.readTarget ctx suffix = .ok path)
    (hlisted : path.isEmpty || endsWith path ['/']) (hsame : ReadableSame X H ctx s s') :
    H.handleGet X ctx suffix s = H.handleGet X ctx suffix s' ↔
      (H.pathAllowed X ctx permissionGet path = true → SameBelow X H ctx path s s') := by
  unfold handleGet pathAllowed
  rw [htarget]
  cases hauth : H.authorizePath X ctx permissionGet path with
  | error refusal => simp [bind,Except.bind,hauth,Except.isOk,Except.toBool]
  | ok u =>
    rw [← handleListingFiltered_eq_iff hsame]
    simp [bind,Except.bind,pure,Except.pure,hauth,Except.isOk,Except.toBool,hlisted]

end TwoTrees

end TreeHandler

/-! A grant that leaves out one subtree. -/

namespace SealedSubtree

open Sample

def closed : Platform := platform [] [] []

def handler : TreeHandler := ⟨"bob".toList⟩

/-- The caller may read below `app`, but not what lies below the name `sealed`. -/
def readsApp : CapabilityToken :=
  ⟨[⟨⟨["system/tree".toList],[]⟩,⟨["app/*".toList],["app/sealed/*".toList]⟩,
    ⟨["get".toList],[]⟩,none,none,none⟩],.multi ⟨[sha256Hash 2,sha256Hash 3],2⟩,sha256Hash 0,none,1,none,none,none⟩

def lists : TreeContext where
  isExternal := true
  callerCapability := some readsApp
  pattern := "system/tree".toList
  resourceTarget := some ⟨["/bob/app/".toList],[]⟩
  params := ⟨[],[],sha256Hash 0⟩
  included := .empty

def bare : TreeState := ⟨⟨[]⟩,⟨.empty⟩⟩

def keeping : TreeState := { bare with
  index := bare.index.set "/bob/app/sealed/plan".toList (sha256Hash 1) }

def namesListed : Except Failure TreeRead → ℕ
  | .ok (.listing _ found) => found.entries.length
  | _ => 0

def below : Str := "/bob/app/sealed/plan".toList

theorem lists_app : handler.readTarget lists [] = .ok "/bob/app/".toList := by
  have h : effectiveTargets lists.resourceTarget handler.localPeerId = ["/bob/app/".toList] := by
    decide +kernel
  have hpath : canonicalize "/bob/app/".toList handler.localPeerId = "/bob/app/".toList := by
    decide +kernel
  simp only [readTarget,singleEffectiveTarget,h,hpath]
  rfl

theorem keeping_get (p : Str) (hp : p ≠ below) : keeping.index.get p = none := by
  have h := MemoryLocationIndex.get_set bare.index below (sha256Hash 1) p
  rwa [if_neg fun hn => hp hn.1] at h

/-- Nothing below `sealed` is readable, so the two trees look the same. -/
theorem bare_keeping_same : ReadableSame closed handler lists bare keeping := by
  intro p hp
  have hne : p ≠ below := by
    rintro rfl
    revert hp
    decide +kernel
  exact ⟨(keeping_get p hne).symm,fun _ _ => rfl⟩

theorem listing_same_iff_sample :
    handler.handleGet closed lists [] bare = handler.handleGet closed lists [] keeping ↔
      (handler.pathAllowed closed lists permissionGet "/bob/app/".toList = true →
        SameBelow closed handler lists "/bob/app/".toList bare keeping) :=
  listing_same_iff closed handler lists [] "/bob/app/".toList bare keeping lists_app (by decide)
    bare_keeping_same

/-- The directory entry of a readable name tells of what lies below it. -/
theorem sealed_subtree_shows :
    ¬∀ (X : Platform) (H : TreeHandler) (ctx : TreeContext) (suffix path : Str)
      (s s' : TreeState), ctx.isExternal = true → ctx.callerCapability.isSome = true →
      H.readTarget ctx suffix = .ok path → (path.isEmpty || endsWith path ['/']) = true →
      ReadableSame X H ctx s s' →
      H.handleGet X ctx suffix s = H.handleGet X ctx suffix s' := by
  intro h
  have hsame := h closed handler lists [] "/bob/app/".toList bare keeping rfl rfl lists_app
    (by decide)
    bare_keeping_same
  have hcount := congrArg namesListed hsame
  revert hcount
  decide +kernel

end SealedSubtree
end EntityCore
