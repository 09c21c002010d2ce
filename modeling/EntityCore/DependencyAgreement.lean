import EntityCore.CapturedScopes
import EntityCore.GrantExpiry
import EntityCore.SubgraphInstall

/-! The dependency index against the one that a rebuild would give. -/
namespace EntityCore

open Option
variable {w : EngineWorld} {s s' : EngineState} {subgraphPath path : Str} {entry : DependencyEntry}
  {steps : List EngineStep}

namespace Compute

open ByteCode Ecf Strings

/-! The operations of the index. -/

namespace DependencyIndex

theorem lookup_add (d : DependencyIndex) (path : Str) (entry : DependencyEntry) (p : Str) :
    (d.add path entry).lookup p = if p = path then d.lookup path++[entry] else d.lookup p := by
  rw [add,lookup,OrderedMap.get_insert]
  by_cases h : p = path
  · simp [h,lookup]
  · simp [h,lookup]

theorem lookup_foldl_add (paths : List Str) (entry : DependencyEntry) (d : DependencyIndex) (p : Str) :
    (paths.foldl (fun d path => d.add path entry) d).lookup p =
      d.lookup p++(paths.filter (· = p)).map fun _ => entry := by
  induction paths generalizing d with
  | nil => simp
  | cons path paths ih =>
    rw [List.foldl_cons,ih,lookup_add]
    by_cases h : p = path
    · subst h
      simp
    · have hne : ¬ path = p := fun heq => h heq.symm
      simp [h,hne]

theorem lookup_removeSubgraph (d : DependencyIndex) (subgraphPath p : Str) :
    (d.removeSubgraph subgraphPath).lookup p =
      (d.lookup p).filter fun entry => entry.subgraphPath ≠ subgraphPath := by
  let kept (l : List DependencyEntry) : List DependencyEntry :=
    l.filter fun entry => entry.subgraphPath ≠ subgraphPath
  have hfold : ∀ (l : List (Str × List DependencyEntry)), (l.map Prod.fst).Nodup →
      ∀ d : DependencyIndex, (∀ e ∈ l, d.get e.1 = none) →
      ∀ p, ((l.foldl (fun d e => if (kept e.2).isEmpty then d else d.insert e.1 (kept e.2)) d).get
          p).getD [] = ((OrderedMap.lookup p l).map kept).getD ((d.get p).getD []) := by
    intro l
    induction l with
    | nil => exact fun _ d _ p => rfl
    | cons e l ih =>
      intro hnodup d hnone p
      have ⟨he,hl⟩ := List.nodup_cons.mp hnodup
      have hself : d.get e.1 = none := hnone e List.mem_cons_self
      have hnext : ∀ c ∈ l, (if (kept e.2).isEmpty then d else d.insert e.1 (kept e.2)).get c.1 =
          none := by
        intro c hc
        have hne : c.1 ≠ e.1 := fun heq => he (heq ▸ List.mem_map_of_mem hc)
        by_cases hempty : (kept e.2).isEmpty = true
        · rw [if_pos hempty]
          exact hnone c (List.mem_cons_of_mem _ hc)
        · rw [if_neg hempty,OrderedMap.get_insert,if_neg hne]
          exact hnone c (List.mem_cons_of_mem _ hc)
      rw [List.foldl_cons,ih hl _ hnext]
      by_cases hp : e.1 = p
      · subst hp
        rw [OrderedMap.lookup_eq_none he]
        by_cases hempty : (kept e.2).isEmpty = true
        · rw [if_pos hempty,hself]
          simp [OrderedMap.lookup,List.isEmpty_iff.mp hempty]
        · rw [if_neg hempty]
          simp [OrderedMap.lookup]
      · have hlookup : OrderedMap.lookup p (e::l) = OrderedMap.lookup p l := by
          simp [OrderedMap.lookup,hp]
        have hother : (if (kept e.2).isEmpty then d else d.insert e.1 (kept e.2)).get p = d.get p := by
          by_cases hempty : (kept e.2).isEmpty = true
          · rw [if_pos hempty]
          · rw [if_neg hempty,OrderedMap.get_insert,if_neg fun h => hp h.symm]
        rw [hlookup,hother]
  have hall := hfold d.entries d.keys_nodup .empty (fun _ _ => rfl) p
  show ((d.removeSubgraph subgraphPath).get p).getD [] = kept ((d.get p).getD [])
  rw [removeSubgraph]
  refine hall.trans ?_
  show ((d.get p).map kept).getD [] = _
  cases d.get p <;> rfl

end DependencyIndex

section Agreement

variable {X : Platform} {F : Runtime} {localPeerId : Str}

/-- A subgraph is listed for a path. -/
def Lists (d : DependencyIndex) (path subgraphPath : Str) : Prop :=
  subgraphPath ∈ (d.lookup path).map DependencyEntry.subgraphPath

theorem lists_foldl_add {paths : List Str} {d : DependencyIndex}
    :
    Lists (paths.foldl (fun d path => d.add path entry) d) path subgraphPath ↔
      Lists d path subgraphPath ∨ path ∈ paths ∧ subgraphPath = entry.subgraphPath := by
  simp only [Lists,DependencyIndex.lookup_foldl_add,List.map_append,List.mem_append,List.map_map,
    List.mem_map,List.mem_filter,decide_eq_true_eq,Function.comp]
  constructor
  · rintro (h | ⟨p,⟨hp,rfl⟩,h⟩)
    · exact Or.inl h
    · exact Or.inr ⟨hp,h.symm⟩
  · rintro (h | ⟨hp,h⟩)
    · exact Or.inl h
    · exact Or.inr ⟨path,⟨hp,rfl⟩,h.symm⟩

theorem lists_removeSubgraph {d : DependencyIndex} {removed : Str} :
    Lists (d.removeSubgraph removed) path subgraphPath ↔
      Lists d path subgraphPath ∧ subgraphPath ≠ removed := by
  simp only [Lists,DependencyIndex.lookup_removeSubgraph,List.mem_map,List.mem_filter,ne_eq,
    decide_eq_true_eq]
  constructor
  · rintro ⟨e,⟨he,hne⟩,rfl⟩
    exact ⟨⟨e,he,rfl⟩,hne⟩
  · rintro ⟨⟨e,he,rfl⟩,hne⟩
    exact ⟨e,⟨he,hne⟩,rfl⟩

variable (X localPeerId)

/-- The tree has an active subgraph under a path. -/
def IsActive (w : EngineWorld) (subgraphPath : Str) : Prop :=
  ∃ subgraph data, (w.index.get (qualifyPath subgraphPath localPeerId)).bind w.store.get =
      some subgraph ∧ subgraph.entityType = typeSubgraph ∧ decodeData X subgraph = some data ∧
    dataStr data "status" = some "active".toList

/-- The paths that a rebuild registers for a subgraph. -/
def registeredPaths (w : EngineWorld) (subgraphPath : Str) : List Str :=
  match (w.index.get (qualifyPath subgraphPath localPeerId)).bind (activeSubgraph X localPeerId w) with
  | some (rootPath,expression) => dependencyPaths X localPeerId w.store rootPath expression
  | none => []

/-- Of the active subgraphs the index lists what a rebuild would, and each of them once. -/
structure AgreesWithRebuild (s : EngineState) : Prop where
  lists : ∀ path subgraphPath,
    Lists s.dependencyIndex path subgraphPath ∧ IsActive X localPeerId s.world subgraphPath ↔
      Lists (rebuildIndex X localPeerId s.world) path subgraphPath
  once : ∀ path, ((s.dependencyIndex.lookup path).map DependencyEntry.subgraphPath).Nodup

variable {X localPeerId}

/-- What a rebuild reads of a subgraph that it registers. -/
theorem activeSubgraph_eq_some {hash : Hash} {rootPath : Str} {expression : Entity} :
    activeSubgraph X localPeerId w hash = some (rootPath,expression) ↔
      ∃ subgraph data, w.store.get hash = some subgraph ∧ subgraph.entityType = typeSubgraph ∧
        decodeData X subgraph = some data ∧ dataStr data "status" = some "active".toList ∧
        dataStr data "root_expression_path" = some rootPath ∧
        (w.index.get (qualifyPath rootPath localPeerId)).bind w.store.get = some expression ∧
        isComputeExpression expression = true := by
  have hstatus : ∀ o : Option Str, o.getD [] = "active".toList ↔ o = some "active".toList := by
    intro o
    cases o with
    | none => simp
    | some t => simp
  constructor
  · intro h
    have ⟨subgraph,hsubgraph,h⟩ := bind_eq_some_iff.mp h
    by_cases htype : subgraph.entityType = typeSubgraph
    · rw [if_neg (not_not_intro htype)] at h
      have ⟨data,hdata,h⟩ := bind_eq_some_iff.mp h
      by_cases hactive : (dataStr data "status").getD [] = "active".toList
      · rw [if_neg (not_not_intro hactive)] at h
        have ⟨root,hroot,h⟩ := bind_eq_some_iff.mp h
        have ⟨e,he,h⟩ := bind_eq_some_iff.mp h
        by_cases hexpr : isComputeExpression e = true
        · rw [if_neg (by simp [hexpr])] at h
          cases h
          exact ⟨subgraph,data,hsubgraph,htype,hdata,(hstatus _).mp hactive,hroot,he,hexpr⟩
        · rw [if_pos (by simp [hexpr])] at h
          cases h
      · rw [if_pos hactive] at h
        cases h
    · rw [if_pos htype] at h
      cases h
  · intro ⟨subgraph,data,hsubgraph,htype,hdata,hactive,hroot,he,hexpr⟩
    rw [activeSubgraph,hsubgraph]
    show (if subgraph.entityType ≠ typeSubgraph then none else _) = _
    rw [if_neg (not_not_intro htype),hdata]
    show (if (dataStr data "status").getD [] ≠ "active".toList then none else _) = _
    rw [if_neg (not_not_intro ((hstatus _).mpr hactive)),hroot]
    show ((w.index.get (qualifyPath rootPath localPeerId)).bind w.store.get).bind _ = _
    rw [he]
    show (if (!isComputeExpression expression) = true then none else _) = _
    rw [if_neg (by simp [hexpr])]
    rfl

theorem isActive_of_activeSubgraph {hash : Hash}
    {found : Str × Entity} (hget : w.index.get (qualifyPath subgraphPath localPeerId) = some hash)
    (h : activeSubgraph X localPeerId w hash = some found) : IsActive X localPeerId w subgraphPath := by
  have ⟨subgraph,data,hsubgraph,htype,hdata,hactive,_⟩ := activeSubgraph_eq_some.mp h
  exact ⟨subgraph,data,by rw [hget]; exact hsubgraph,htype,hdata,hactive⟩

theorem isActive_of_registered (h : path ∈ registeredPaths X localPeerId w subgraphPath) :
    IsActive X localPeerId w subgraphPath := by
  rw [registeredPaths] at h
  cases hget : w.index.get (qualifyPath subgraphPath localPeerId) with
  | none =>
    rw [hget] at h
    cases h
  | some hash =>
    rw [hget,bind_some] at h
    cases hfound : activeSubgraph X localPeerId w hash with
    | none =>
      rw [hfound] at h
      cases h
    | some found => exact isActive_of_activeSubgraph hget hfound

/-! The rebuild. -/

theorem qualifyPath_process (rest : Str) : qualifyPath (processesPath++rest) localPeerId =
    ('/'::localPeerId++ "/".toList)++(processesPath++rest) := by
  have hbare : startsWith (processesPath++rest) ['/'] = false := rfl
  rw [qualifyPath,if_neg (by simp [hbare])]
  simp

/-- What a listed entry adds, under the path it is listed at. -/
def entryPaths (X : Platform) (localPeerId : Str) (w : EngineWorld) (hash : Hash) : List Str :=
  match activeSubgraph X localPeerId w hash with
  | some (rootPath,expression) => dependencyPaths X localPeerId w.store rootPath expression
  | none => []

def barePath (localPeerId path : Str) : Str :=
  (stripPrefix path ('/'::localPeerId++ "/".toList)).getD path

theorem barePath_append (rest : Str) :
    barePath localPeerId (('/'::localPeerId++ "/".toList)++rest) = rest := by
  have hstrip : stripPrefix (('/'::localPeerId++ "/".toList)++rest)
      ('/'::localPeerId++ "/".toList) = some rest := (stripPrefix_eq_some _ _ _).mpr rfl
  rw [barePath,hstrip]
  rfl

theorem lookup_rebuildIndex (w : EngineWorld) (path : Str) :
    ((rebuildIndex X localPeerId w).lookup path).map DependencyEntry.subgraphPath =
      (w.index.list ('/'::localPeerId++ "/".toList++processesPath)).flatMap fun e =>
        ((entryPaths X localPeerId w e.2).filter (· = path)).map fun _ => barePath localPeerId e.1 := by
  have hfold : ∀ (l : List (Str × Hash)) (d : DependencyIndex),
      ((l.foldl (fun d e => match activeSubgraph X localPeerId w e.2 with
          | some (rootPath,expression) => registerSubgraphDependencies X localPeerId
              (barePath localPeerId e.1) rootPath expression w.store d
          | none => d) d).lookup path).map DependencyEntry.subgraphPath =
        (d.lookup path).map DependencyEntry.subgraphPath++l.flatMap fun e =>
          ((entryPaths X localPeerId w e.2).filter (· = path)).map fun _ =>
            barePath localPeerId e.1 := by
    intro l
    induction l with
    | nil => simp
    | cons e l ih =>
      intro d
      rw [List.foldl_cons,ih,List.flatMap_cons,← List.append_assoc]
      congr 1
      cases hfound : activeSubgraph X localPeerId w e.2 with
      | none => simp [entryPaths,hfound]
      | some found => simp [entryPaths,hfound,registerSubgraphDependencies,
          DependencyIndex.lookup_foldl_add]
  exact (hfold _ .empty).trans (List.nil_append _)

theorem registeredPaths_eq {hash : Hash}
    (h : w.index.get (qualifyPath subgraphPath localPeerId) = some hash) :
    registeredPaths X localPeerId w subgraphPath = entryPaths X localPeerId w hash := by
  rw [registeredPaths,h]
  rfl

/-- The entries under the processes are those of the qualified paths. -/
theorem list_processes {e : Str × Hash}
    (he : e ∈ w.index.list ('/'::localPeerId++ "/".toList++processesPath)) :
    ∃ rest, barePath localPeerId e.1 = processesPath++rest ∧
      e.1 = qualifyPath (processesPath++rest) localPeerId ∧
      w.index.get (qualifyPath (processesPath++rest) localPeerId) = some e.2 := by
  have ⟨hget,rest,hrest⟩ := (MemoryLocationIndex.mem_list _ _ _ _).mp he
  rw [List.append_assoc] at hrest
  have hpath : e.1 = qualifyPath (processesPath++rest) localPeerId :=
    hrest.symm.trans (qualifyPath_process rest).symm
  refine ⟨rest,?_,hpath,hpath ▸ hget⟩
  rw [← hrest,barePath_append]

theorem lists_rebuildIndex : Lists (rebuildIndex X localPeerId w) path subgraphPath ↔
      processesPath <+: subgraphPath ∧ path ∈ registeredPaths X localPeerId w subgraphPath := by
  rw [Lists,lookup_rebuildIndex]
  simp only [List.mem_flatMap,List.mem_map,List.mem_filter,decide_eq_true_eq]
  constructor
  · rintro ⟨e,he,p,⟨hp,rfl⟩,rfl⟩
    have ⟨rest,hbare,_,hget⟩ := list_processes he
    rw [hbare,registeredPaths_eq hget]
    exact ⟨List.prefix_append _ _,hp⟩
  · rintro ⟨⟨rest,rfl⟩,hpath⟩
    cases hget : w.index.get (qualifyPath (processesPath++rest) localPeerId) with
    | none =>
      rw [registeredPaths,hget] at hpath
      cases hpath
    | some hash =>
      rw [registeredPaths_eq hget] at hpath
      refine ⟨(qualifyPath (processesPath++rest) localPeerId,hash),?_,path,⟨hpath,rfl⟩,?_⟩
      · refine (MemoryLocationIndex.mem_list _ _ _ _).mpr ⟨hget,rest,?_⟩
        rw [qualifyPath_process,List.append_assoc]
      · rw [qualifyPath_process,barePath_append]

theorem nodup_once {l : List Str} (h : l.Nodup) (p c : Str) :
    ((l.filter (· = p)).map fun _ => c).Nodup := by
  induction l with
  | nil => simp
  | cons a l ih =>
    have ⟨ha,hl⟩ := List.nodup_cons.mp h
    by_cases hap : a = p
    · subst hap
      have hnone : l.filter (· = a) = [] := by
        apply List.filter_eq_nil_iff.mpr
        intro b hb hba
        exact ha (of_decide_eq_true hba ▸ hb)
      simp [hnone]
    · simpa [hap] using ih hl

/-- A rebuild lists a subgraph once for a path if its walk meets no path twice. -/
theorem once_rebuildIndex
    (h : ∀ subgraphPath, (registeredPaths X localPeerId w subgraphPath).Nodup) (path : Str) :
    (((rebuildIndex X localPeerId w).lookup path).map DependencyEntry.subgraphPath).Nodup := by
  rw [lookup_rebuildIndex,List.nodup_flatMap]
  constructor
  · intro e he
    have ⟨rest,_,_,hget⟩ := list_processes he
    have hone := h (processesPath++rest)
    rw [registeredPaths_eq hget] at hone
    exact nodup_once hone path _
  · have hkeys : ((w.index.list ('/'::localPeerId++ "/".toList++processesPath)).map
        Prod.fst).Nodup := by
      rw [MemoryLocationIndex.list_eq]
      exact OrderedMap.keys_nodup _
    refine (List.pairwise_map.mp hkeys).imp_of_mem fun {a b} ha hb hne => ?_
    intro subgraphPath hleft hright
    have ⟨_,_,hbare⟩ := List.mem_map.mp hleft
    have ⟨_,_,hbare'⟩ := List.mem_map.mp hright
    have ⟨rest,hrest,hpath,_⟩ := list_processes ha
    have ⟨rest',hrest',hpath',_⟩ := list_processes hb
    apply hne
    rw [hpath,hpath',← hrest,← hrest',hbare,hbare']

/-! What the steps keep. -/

/-- Between two states no subgraph has become active, and of those that are active a rebuild
registers the same paths; `except` is the one that is being installed. -/
def Undisturbed (X : Platform) (localPeerId : Str) (except : Option Str) (w w' : EngineWorld) : Prop :=
  ∀ subgraphPath, processesPath <+: subgraphPath → some subgraphPath ≠ except →
    IsActive X localPeerId w' subgraphPath →
    IsActive X localPeerId w subgraphPath ∧
    ∀ path, path ∈ registeredPaths X localPeerId w' subgraphPath ↔
      path ∈ registeredPaths X localPeerId w subgraphPath

theorem Undisturbed.refl (except : Option Str) (w : EngineWorld) :
    Undisturbed X localPeerId except w w := fun _ _ _ h => ⟨h,fun _ => Iff.rfl⟩

/-- Entries of subgraphs that are not active may be out of date. -/
structure IndexInv (X : Platform) (localPeerId : Str) (s : EngineState) : Prop where
  below : ∀ path subgraphPath, Lists s.dependencyIndex path subgraphPath →
    processesPath <+: subgraphPath
  exact : ∀ path subgraphPath, processesPath <+: subgraphPath →
    IsActive X localPeerId s.world subgraphPath →
    (Lists s.dependencyIndex path subgraphPath ↔
      path ∈ registeredPaths X localPeerId s.world subgraphPath)
  once : ∀ path, ((s.dependencyIndex.lookup path).map DependencyEntry.subgraphPath).Nodup

namespace IndexInv

variable {s : EngineState} {w : EngineWorld}

theorem rebuilt (h : ∀ subgraphPath, (registeredPaths X localPeerId w subgraphPath).Nodup) :
    IndexInv X localPeerId ⟨w,rebuildIndex X localPeerId w⟩ where
  below _ _ hlists := (lists_rebuildIndex.mp hlists).1
  exact _ _ hbelow _ := lists_rebuildIndex.trans (and_iff_right hbelow)
  once := once_rebuildIndex h

theorem agrees (h : IndexInv X localPeerId s) : AgreesWithRebuild X localPeerId s where
  lists path subgraphPath := by
    rw [lists_rebuildIndex]
    constructor
    · intro ⟨hlists,hactive⟩
      have hbelow := h.below path subgraphPath hlists
      exact ⟨hbelow,(h.exact path subgraphPath hbelow hactive).mp hlists⟩
    · intro ⟨hbelow,hpath⟩
      have hactive := isActive_of_registered hpath
      exact ⟨(h.exact path subgraphPath hbelow hactive).mpr hpath,hactive⟩
  once := h.once

theorem of_world (h : IndexInv X localPeerId s) (hw : Undisturbed X localPeerId none s.world w) :
    IndexInv X localPeerId { s with world := w } where
  below := h.below
  exact path subgraphPath hbelow hactive := by
    have ⟨hbefore,hpaths⟩ := hw subgraphPath hbelow nofun hactive
    rw [hpaths]
    exact h.exact path subgraphPath hbelow hbefore
  once := h.once

/-- Removing a subgraph is right if a rebuild would not register it. -/
theorem remove (h : IndexInv X localPeerId s) {removed : Str}
    (hw : Undisturbed X localPeerId (some removed) s.world w)
    (hnone : registeredPaths X localPeerId w removed = []) :
    IndexInv X localPeerId ⟨w,s.dependencyIndex.removeSubgraph removed⟩ where
  below path subgraphPath hlists := h.below path subgraphPath (lists_removeSubgraph.mp hlists).1
  exact path subgraphPath hbelow hactive := by
    rw [lists_removeSubgraph]
    by_cases hsame : subgraphPath = removed
    · subst hsame
      simp [hnone]
    · have ⟨hbefore,hpaths⟩ := hw subgraphPath hbelow (fun heq => hsame (some.inj heq)) hactive
      rw [hpaths,← h.exact path subgraphPath hbelow hbefore]
      exact and_iff_left hsame
  once path := by
    have hlookup := DependencyIndex.lookup_removeSubgraph s.dependencyIndex removed path
    show (((s.dependencyIndex.removeSubgraph removed).lookup path).map _).Nodup
    rw [hlookup]
    exact (List.filter_sublist.map _).nodup (h.once path)

/-- Registering a subgraph is right if nothing of it is listed and no path is met twice. -/
theorem register (h : IndexInv X localPeerId s) {installed rootPath : Str} {paths : List Str}
    (hbelow : processesPath <+: installed)
    (hw : Undisturbed X localPeerId (some installed) s.world w)
    (hunlisted : ∀ path, ¬ Lists s.dependencyIndex path installed)
    (hpaths : ∀ path, path ∈ registeredPaths X localPeerId w installed ↔ path ∈ paths)
    (hnodup : paths.Nodup) :
    IndexInv X localPeerId ⟨w,paths.foldl (fun d path => d.add path ⟨rootPath,installed⟩)
      s.dependencyIndex⟩ where
  below path subgraphPath hlists := by
    rcases lists_foldl_add.mp hlists with hold | ⟨_,rfl⟩
    · exact h.below path subgraphPath hold
    · exact hbelow
  exact path subgraphPath hprocess hactive := by
    show Lists (paths.foldl _ _) path subgraphPath ↔ _
    rw [lists_foldl_add]
    by_cases hsame : subgraphPath = installed
    · subst hsame
      rw [hpaths]
      simp [hunlisted path]
    · have ⟨hbefore,hsamePaths⟩ := hw subgraphPath hprocess
        (fun heq => hsame (some.inj heq)) hactive
      rw [hsamePaths,← h.exact path subgraphPath hprocess hbefore]
      simp [hsame]
  once path := by
    show (((paths.foldl _ s.dependencyIndex).lookup path).map _).Nodup
    rw [DependencyIndex.lookup_foldl_add,List.map_append,List.map_map]
    refine List.nodup_append'.mpr ⟨h.once path,nodup_once hnodup path installed,?_⟩
    intro subgraphPath hold hnew
    have ⟨_,_,hinstalled⟩ := List.mem_map.mp hnew
    have hlisted : Lists s.dependencyIndex path installed := by
      have hname : installed = subgraphPath := hinstalled
      rw [hname]
      exact hold
    exact hunlisted path hlisted

end IndexInv

/-! Single steps. -/

theorem isComputeExpression_subgraph {e : Entity} (h : e.entityType = typeSubgraph) :
    isComputeExpression e = false := by
  have hnone : Form.ofType typeSubgraph = none := by decide +kernel
  rw [isComputeExpression,h,hnone]
  rfl

/-- Unbinding a subgraph disturbs no other. -/
theorem undisturbed_unbind {key : Str} {subgraph : Entity}
    (hbound : (w.index.get key).bind w.store.get = some subgraph)
    (htype : subgraph.entityType = typeSubgraph) (except : Option Str) :
    Undisturbed X localPeerId except w { w with index := (w.index.remove key).2 } := by
  have hget : ∀ p, ((w.index.remove key).2).get p = if p = key then none else w.index.get p := by
    intro p
    show (w.index.paths.erase key).get p = _
    by_cases hp : p = key
    · simp [hp]
    · simp [hp,MemoryLocationIndex.get]
  have hsame : activeSubgraph X localPeerId { w with index := (w.index.remove key).2 } =
      activeSubgraph X localPeerId w := by
    funext hash
    refine ext fun found => ?_
    obtain ⟨root,e⟩ := found
    rw [activeSubgraph_eq_some,activeSubgraph_eq_some]
    simp only [hget]
    by_cases hkey : qualifyPath root localPeerId = key
    · -- the root path is bound to the subgraph, which is no expression
      have hexpr : isComputeExpression subgraph = false := isComputeExpression_subgraph htype
      rw [if_pos hkey,hkey,hbound]
      constructor
      · rintro ⟨_,_,_,_,_,_,_,hnone,_⟩
        cases hnone
      · rintro ⟨_,_,_,_,_,_,_,hsome,htrue⟩
        cases hsome
        rw [hexpr] at htrue
        cases htrue
    · rw [if_neg hkey]
  intro subgraphPath _ _ hactive
  have hne : qualifyPath subgraphPath localPeerId ≠ key := by
    intro heq
    obtain ⟨_,_,hnone,_⟩ := hactive
    rw [hget,if_pos heq] at hnone
    cases hnone
  constructor
  · obtain ⟨subgraph',data,hfound,hrest⟩ := hactive
    rw [hget,if_neg hne] at hfound
    exact ⟨subgraph',data,hfound,hrest⟩
  · intro path
    rw [registeredPaths,registeredPaths,hsame,hget,if_neg hne]

theorem registeredPaths_of_none {hash : Hash}
    (hget : w.index.get (qualifyPath subgraphPath localPeerId) = some hash)
    (h : activeSubgraph X localPeerId w hash = none) :
    registeredPaths X localPeerId w subgraphPath = [] := by
  rw [registeredPaths_eq hget,entryPaths,h]

theorem subgraphFields_root {subgraph : Entity} {fields : SubgraphFields}
    (h : subgraphFields X subgraph = some fields) : ∃ data, decodeData X subgraph = some data ∧
      dataStr data "root_expression_path" = some fields.rootPath := by
  by_cases htype : subgraph.entityType = typeSubgraph
  · rw [subgraphFields,if_neg (not_not_intro htype)] at h
    have ⟨data,hdata,h⟩ := bind_eq_some_iff.mp h
    have ⟨root,hroot,h⟩ := bind_eq_some_iff.mp h
    have ⟨result,_,h⟩ := bind_eq_some_iff.mp h
    cases h
    exact ⟨data,hdata,hroot⟩
  · rw [subgraphFields,if_pos htype] at h
    cases h

/-- A re-evaluation removes a subgraph only where a rebuild would not register it. -/
theorem reEvaluate_index {nowMs : ℕ} (h : reEvaluate X F localPeerId nowMs entry s = some s') :
    s'.dependencyIndex = s.dependencyIndex ∨ s' = s.removeSubgraph entry.subgraphPath ∧
      registeredPaths X localPeerId s.world entry.subgraphPath = [] := by
  have hworld : ∀ o : Option EngineWorld,
      o.map (fun w => ({ s with world := w } : EngineState)) = some s' →
        s'.dependencyIndex = s.dependencyIndex := by
    intro o ho
    obtain ⟨w,_,hw⟩ := map_eq_some_iff.mp ho
    subst hw
    rfl
  rw [reEvaluate] at h
  cases hget : s.world.index.get (qualifyPath entry.subgraphPath localPeerId) with
  | none =>
    rw [hget] at h
    refine Or.inr ⟨(some.inj h).symm,?_⟩
    rw [registeredPaths,hget]
    rfl
  | some subgraphHash =>
    rw [hget] at h
    dsimp only at h
    cases hfields : (s.world.store.get subgraphHash).bind (subgraphFields X) with
    | none =>
      rw [hfields] at h
      exact Or.inl (congrArg EngineState.dependencyIndex (some.inj h).symm)
    | some fields =>
      rw [hfields] at h
      dsimp only at h
      by_cases hinvalid : grantInvalid nowMs fields.grantHash
          (grantToken X s.world.store fields.grantHash) = true
      · rw [if_pos hinvalid] at h
        exact Or.inl (hworld _ h)
      rw [if_neg hinvalid] at h
      cases hroot : s.world.index.get (qualifyPath fields.rootPath localPeerId) with
      | none =>
        rw [hroot] at h
        refine Or.inr ⟨(some.inj h).symm,registeredPaths_of_none hget ?_⟩
        by_contra hactive
        obtain ⟨⟨root,e⟩,hfound⟩ := ne_none_iff_exists'.mp hactive
        obtain ⟨subgraph,data,hsubgraph,_,hdata,_,hrootPath,hbound,_⟩ :=
          activeSubgraph_eq_some.mp hfound
        rw [hsubgraph] at hfields
        obtain ⟨data',hdata',hrootPath'⟩ := subgraphFields_root hfields
        have hsame := some.inj (hdata.symm.trans hdata')
        subst hsame
        have hroots := some.inj (hrootPath.symm.trans hrootPath')
        rw [hroots,hroot] at hbound
        cases hbound
      | some expressionHash =>
        rw [hroot] at h
        dsimp only at h
        cases hexpression : s.world.store.get expressionHash with
        | none =>
          rw [hexpression] at h
          exact Or.inl (congrArg EngineState.dependencyIndex (some.inj h).symm)
        | some expression =>
          rw [hexpression] at h
          dsimp only at h
          split at h
          · cases h
          · exact Or.inl (hworld _ h)

theorem reactTo_index {nowMs cascadeDepth : ℕ}
    (h : reactTo X F localPeerId nowMs cascadeDepth s entry = some s') :
    s'.dependencyIndex = s.dependencyIndex ∨ s' = s.removeSubgraph entry.subgraphPath ∧
      registeredPaths X localPeerId s.world entry.subgraphPath = [] := by
  have hstay : ∀ {t : EngineState}, some s = some t → t.dependencyIndex = s.dependencyIndex :=
    fun heq => congrArg EngineState.dependencyIndex (some.inj heq).symm
  rw [reactTo] at h
  split at h
  · exact Or.inl (hstay h)
  · split at h
    · exact Or.inl (hstay h)
    · split at h
      · exact Or.inl (hstay h)
      · split at h
        · have ⟨w,_,hw⟩ := map_eq_some_iff.mp h
          subst hw
          exact Or.inl rfl
        · exact reEvaluate_index h

/-- The expression that an install finds. -/
def installExpression (localPeerId : Str) (r : InstallRequest) (s : EngineState) : Option Entity :=
  ((s.world.index.get (qualifyPath r.rootPath localPeerId)).bind s.world.store.get).filter
    isComputeExpression

theorem handleInstall_eq {r : InstallRequest}
    (h : handleInstall X localPeerId r s = some s') :
    s' = s ∨ ∃ expression metadata, installExpression localPeerId r s = some expression ∧
      (Entity.new X typeSubgraph (toEcf (.map (r.metadata expression)))).toOption = some metadata ∧
      s'.world = (r.capability.elim (fun _ => s.world) s.world.put).bind
        (qualifyPath (subgraphPathOf X r.rootPath) localPeerId) metadata ∧
      s'.dependencyIndex = (dependencyPaths X localPeerId s'.world.store r.rootPath
        expression).foldl (fun d path => d.add path ⟨r.rootPath,subgraphPathOf X r.rootPath⟩)
          s.dependencyIndex := by
  rw [handleInstall] at h
  cases hbound : (s.world.index.get (qualifyPath r.rootPath localPeerId)).bind s.world.store.get with
  | none =>
    rw [hbound] at h
    exact Or.inl (some.inj h).symm
  | some expression =>
    rw [hbound] at h
    dsimp only at h
    by_cases hexpr : isComputeExpression expression = true
    · rw [if_neg (by simp [hexpr])] at h
      have ⟨metadata,hmetadata,hend⟩ := bind_eq_some_iff.mp h
      cases hend
      refine Or.inr ⟨expression,metadata,?_,hmetadata,rfl,rfl⟩
      simp [installExpression,hbound,hexpr]
    · rw [if_pos (by simp [hexpr])] at h
      exact Or.inl (some.inj h).symm

/-- What is taken for granted of an install: the metadata are read back, the path they go to
is one that the index takes, and what is stored does not replace the expression. -/
structure InstallGranted (X : Platform) (localPeerId : Str) (r : InstallRequest)
    (s s' : EngineState) (expression : Entity) : Prop where
  reads : ReadsBack X (.map (r.metadata expression))
  storable : pathIsStorable (qualifyPath (subgraphPathOf X r.rootPath) localPeerId) = true
  kept : (s.world.index.get (qualifyPath r.rootPath localPeerId)).bind s'.world.store.get =
    some expression

/-- After an install a rebuild would register what the expression reads. -/
theorem registeredPaths_install {r : InstallRequest} {expression metadata : Entity}
    (hexpression : installExpression localPeerId r s = some expression)
    (hmetadata : (Entity.new X typeSubgraph (toEcf (.map (r.metadata expression)))).toOption =
      some metadata)
    (hworld : s'.world = (r.capability.elim (fun _ => s.world) s.world.put).bind
      (qualifyPath (subgraphPathOf X r.rootPath) localPeerId) metadata)
    (hgranted : InstallGranted X localPeerId r s s' expression)
    (hapart : qualifyPath r.rootPath localPeerId ≠
      qualifyPath (subgraphPathOf X r.rootPath) localPeerId) :
    registeredPaths X localPeerId s'.world (subgraphPathOf X r.rootPath) =
      dependencyPaths X localPeerId s'.world.store r.rootPath expression := by
  have hindex : s'.world.index = s.world.index.set
      (qualifyPath (subgraphPathOf X r.rootPath) localPeerId) metadata.contentHash := by
    rw [hworld]
    cases r.capability <;> rfl
  have hget : s'.world.index.get (qualifyPath (subgraphPathOf X r.rootPath) localPeerId) =
      some metadata.contentHash := by
    rw [hindex,MemoryLocationIndex.get_set,if_pos ⟨rfl,hgranted.storable⟩]
  have hroot : s'.world.index.get (qualifyPath r.rootPath localPeerId) =
      s.world.index.get (qualifyPath r.rootPath localPeerId) := by
    rw [hindex,MemoryLocationIndex.get_set,if_neg fun h => hapart h.1]
  have hstored : s'.world.store.get metadata.contentHash = some metadata := by
    rw [hworld]
    show ((_ : EngineWorld).store.put metadata).get metadata.contentHash = _
    simp [ContentStore.put,ContentStore.get]
  obtain ⟨e,he⟩ : ∃ e, Entity.new X typeSubgraph (toEcf (.map (r.metadata expression))) = .ok e := by
    cases hnew : Entity.new X typeSubgraph (toEcf (.map (r.metadata expression))) with
    | error err =>
      rw [hnew] at hmetadata
      cases hmetadata
    | ok e => exact ⟨e,rfl⟩
  have hsame : e = metadata := by
    rw [he] at hmetadata
    exact some.inj hmetadata
  subst hsame
  have hentity := Entity.newWithFormat_ok X he
  obtain ⟨data,hread,hback⟩ := hgranted.reads
  have hdecode : decodeData X e = some data := by
    rw [decodeData,hentity.2.1,hread]
    rfl
  have hn : ((r.metadata expression).map fun kv => kv.1.asText).Nodup := by
    simp [InstallRequest.metadata,entry,Value.asText]
  have hstatus : dataStr data "status" = some "active".toList := by
    rw [dataStr_same hback hn]
    simp [InstallRequest.metadata,getField_cons,entry,Value.asText]
  have hrootPath : dataStr data "root_expression_path" = some r.rootPath := by
    rw [dataStr_same hback hn]
    simp [InstallRequest.metadata,getField_cons,entry,Value.asText]
  have hexpr : isComputeExpression expression = true := (filter_eq_some_iff.mp hexpression).2
  have hactive : activeSubgraph X localPeerId s'.world e.contentHash =
      some (r.rootPath,expression) :=
    activeSubgraph_eq_some.mpr ⟨e,data,hstored,hentity.1,hdecode,hstatus,hrootPath,
      by rw [hroot]; exact hgranted.kept,hexpr⟩
  rw [registeredPaths_eq hget,entryPaths,hactive]

/-! The run. -/

/-- An install of a subgraph that is not listed, at a root path of its own, of an expression
that reads no path twice; no other subgraph is disturbed. -/
structure InstallMeets (X : Platform) (localPeerId : Str) (r : InstallRequest)
    (s s' : EngineState) (expression : Entity) : Prop where
  unlisted : ∀ path, ¬ Lists s.dependencyIndex path (subgraphPathOf X r.rootPath)
  apart : qualifyPath r.rootPath localPeerId ≠ qualifyPath (subgraphPathOf X r.rootPath) localPeerId
  once : (dependencyPaths X localPeerId s'.world.store r.rootPath expression).Nodup
  undisturbed : Undisturbed X localPeerId (some (subgraphPathOf X r.rootPath)) s.world s'.world

variable (X F localPeerId)

def StepGranted (s : EngineState) : EngineStep → Prop
  | .install r => ∀ s' expression, handleInstall X localPeerId r s = some s' →
    installExpression localPeerId r s = some expression →
      InstallGranted X localPeerId r s s' expression
  | _ => True

/-- Installs are as above, uninstalls are free, and what else happens disturbs no subgraph. -/
def StepMeets (s : EngineState) : EngineStep → Prop
  | .install r => ∀ s' expression, handleInstall X localPeerId r s = some s' →
    installExpression localPeerId r s = some expression →
      InstallMeets X localPeerId r s s' expression
  | .uninstall _ => True
  | step => ∀ s', engineStep X F localPeerId s step = some s' →
    Undisturbed X localPeerId none s.world s'.world

/-- What holds of every step of a run in the state it is taken in. -/
def AlongRun (P : EngineState → EngineStep → Prop) : List EngineStep → EngineState → Prop
  | [], _ => True
  | step::steps, s => P s step ∧ ∀ s', engineStep X F localPeerId s step = some s' →
    AlongRun P steps s'

variable {X F localPeerId}

theorem IndexInv.step {step : EngineStep} (h : IndexInv X localPeerId s)
    (hgranted : StepGranted X localPeerId s step) (hmeets : StepMeets X F localPeerId s step)
    (hstep : engineStep X F localPeerId s step = some s') : IndexInv X localPeerId s' := by
  cases step with
  | install r =>
    rcases handleInstall_eq hstep with rfl | ⟨expression,metadata,hexpression,hmetadata,hworld,hindex⟩
    · exact h
    · have hin := hgranted s' expression hstep hexpression
      have hok := hmeets s' expression hstep hexpression
      have hpaths := registeredPaths_install hexpression hmetadata hworld hin hok.apart
      have hend : s' = ⟨s'.world,(dependencyPaths X localPeerId s'.world.store r.rootPath
          expression).foldl (fun d path => d.add path ⟨r.rootPath,subgraphPathOf X r.rootPath⟩)
            s.dependencyIndex⟩ := by
        rw [← hindex]
      rw [hend]
      exact h.register (List.prefix_append _ _) hok.undisturbed hok.unlisted
        (fun path => by rw [hpaths]) hok.once
  | uninstall subgraphPath =>
    have hend := some.inj hstep
    subst hend
    rw [handleUninstall]
    cases hbound : (s.world.index.get (qualifyPath subgraphPath localPeerId)).bind
        s.world.store.get with
    | none => exact h
    | some subgraph =>
      dsimp only
      by_cases htype : subgraph.entityType = typeSubgraph
      · rw [if_neg (not_not_intro htype)]
        refine h.remove (undisturbed_unbind hbound htype _) ?_
        have hnone : ((s.world.index.remove (qualifyPath subgraphPath localPeerId)).2).get
            (qualifyPath subgraphPath localPeerId) = none := by
          show (s.world.index.paths.erase _).get _ = none
          simp
        rw [registeredPaths,hnone]
        rfl
      · rw [if_pos htype]
        exact h
  | react nowMs cascadeDepth entry =>
    have hw := hmeets s' hstep
    rcases reactTo_index hstep with hsame | ⟨rfl,hnone⟩
    · have hend : s' = { s with world := s'.world } := by
        rw [← hsame]
      rw [hend]
      exact h.of_world hw
    · exact h.remove (Undisturbed.refl _ _) hnone
  | put entity =>
    have hw := hmeets s' hstep
    have hend := some.inj hstep
    subst hend
    exact h.of_world hw
  | bind path hash =>
    have hw := hmeets s' hstep
    have hend := some.inj hstep
    subst hend
    exact h.of_world hw
  | unbind path =>
    have hw := hmeets s' hstep
    have hend := some.inj hstep
    subst hend
    exact h.of_world hw

theorem IndexInv.run (h : IndexInv X localPeerId s)
    (hgranted : AlongRun X F localPeerId (StepGranted X localPeerId) steps s)
    (hmeets : AlongRun X F localPeerId (StepMeets X F localPeerId) steps s)
    (hrun : engineRun X F localPeerId s steps = some s') : IndexInv X localPeerId s' := by
  induction steps generalizing s with
  | nil =>
    have hend := some.inj hrun
    exact hend ▸ h
  | cons step steps ih =>
    have ⟨t,hstep,hrest⟩ := bind_eq_some_iff.mp hrun
    exact ih (h.step hgranted.1 hmeets.1 hstep) (hgranted.2 t hstep) (hmeets.2 t hstep) hrest

theorem engineRun_cons {step : EngineStep} {t : EngineState}
    (h : engineStep X F localPeerId s step = some t) :
    engineRun X F localPeerId s (step::steps) = engineRun X F localPeerId t steps := by
  rw [engineRun,List.foldlM_cons,h]
  rfl

theorem AlongRun.cons {P : EngineState → EngineStep → Prop} {step : EngineStep}
    {t : EngineState} (hstep : engineStep X F localPeerId s step = some t)
    (h : P s step) (hrest : AlongRun X F localPeerId P steps t) :
    AlongRun X F localPeerId P (step::steps) s := by
  refine ⟨h,fun s' hs' => ?_⟩
  have hsame := some.inj (hstep.symm.trans hs')
  exact hsame ▸ hrest

/-- In every run from a start whose steps all meet the condition, the index lists of the
active subgraphs what a rebuild from the tree would, and none of them twice for a path. -/
theorem dependency_index_agrees (X : Platform) (F : Runtime) (localPeerId : Str) (w : EngineWorld)
    (hstart : ∀ subgraphPath, (registeredPaths X localPeerId w subgraphPath).Nodup)
    (steps : List EngineStep) (s' : EngineState)
    (hrun : engineRun X F localPeerId ⟨w,rebuildIndex X localPeerId w⟩ steps = some s')
    (hgranted : AlongRun X F localPeerId (StepGranted X localPeerId) steps
      ⟨w,rebuildIndex X localPeerId w⟩)
    (hmeets : AlongRun X F localPeerId (StepMeets X F localPeerId) steps
      ⟨w,rebuildIndex X localPeerId w⟩) : AgreesWithRebuild X localPeerId s' :=
  ((IndexInv.rebuilt hstart).run hgranted hmeets hrun).agrees

end Agreement

theorem tagless_metadata (r : InstallRequest) (expression : Entity) :
    Tagless (.map (r.metadata expression)) := by
  have hauthorized : Tagless (.array (r.authorizedDataHashes.map hashRef)) := by
    refine .array fun v hv => ?_
    have ⟨hash,_,href⟩ := List.mem_map.mp hv
    rw [← href]
    exact .bytes _
  apply tagless_entries
  simp [InstallRequest.metadata,entry,hauthorized,hashRef,Tagless.text,Tagless.bytes]

deriving instance DecidableEq for ContentStore, MemoryLocationIndex, EngineWorld, EngineState

/-! Bob's subgraph reads a path of the tree, or another one. -/
namespace ComputeSample

open Sample

def readsInput : Doc := ⟨"compute/lookup/tree",.map [(txt "path",txt "app/input")],
  0x1c742a89ba377cbb6ef58f114790290f6c8888e412f1e310148e5ef67f316a46⟩
def readsOther : Doc := ⟨"compute/lookup/tree",.map [(txt "path",txt "app/other")],
  0x66bcc328b1f4cf42050069be2a6cb270b326c47fcbfcc936f7ced8b4edbeecb1⟩

def installRule : InstallRequest := ⟨"app/rule".toList,"app/result".toList,[],bob.contentHash,
  .inl lapsing.entity.contentHash⟩

def inputRule : Doc := ⟨"system/compute/subgraph",.map (installRule.metadata readsInput.entity),
  0x9cfc6610b47daa36b34a0b8cf5cda9474076f984c12a39980e25e10ed620cf51⟩
def otherRule : Doc := ⟨"system/compute/subgraph",.map (installRule.metadata readsOther.entity),
  0xb63ca6a9919d6d766097a14731b64aae37722c2505a248bc92565038b6aeaf8d⟩

def dependencyDocs : List Doc := [readsInput,readsOther,inputRule,otherRule]

def dependencyCrates : Platform := platform (dependencyDocs.map Doc.value)
  ((utf8 "app/rule".toList,0x93719c797d419ee01e641bd8a162ed49591f1f5bdd2432faaae2c4176dd72b7a)::
    dependencyDocs.map fun d => (ecfForHash d.type.toList (toEcf d.value),d.digest)) []

def rulePath : Str := subgraphPathOf dependencyCrates "app/rule".toList
def ruleKey : Str := qualifyPath rulePath aliceId
def ruleRoot : Str := qualifyPath "app/rule".toList aliceId
def inputPath : Str := qualifyPath "app/input".toList aliceId

/-- The expression is in place, and both are stored. -/
def uninstalled : EngineWorld :=
  ⟨⟨[readsInput,readsOther].map Doc.entity⟩,
    (⟨.empty⟩ : MemoryLocationIndex).set ruleRoot readsInput.entity.contentHash,[]⟩

def installed : EngineWorld := uninstalled.bind ruleKey inputRule.entity

def rebuilt (w : EngineWorld) : EngineState := ⟨w,rebuildIndex dependencyCrates aliceId w⟩

def ruleEntries (paths : List String) : DependencyIndex :=
  paths.foldl (fun d path => d.add (qualifyPath path.toList aliceId) ⟨"app/rule".toList,rulePath⟩) .empty

def uninstalledRule : EngineState := ⟨{ installed with index := uninstalled.index },.empty⟩
def reinstalledRule : EngineState :=
  ⟨uninstalledRule.world.bind ruleKey inputRule.entity,ruleEntries ["app/input"]⟩

/-- An install, another expression at the root path, and another install. -/
def firstInstall : EngineState := ⟨installed,ruleEntries ["app/input"]⟩
def replacedRule : EngineState :=
  { firstInstall with world := installed.set ruleRoot readsOther.entity.contentHash }
def secondInstall : EngineState :=
  ⟨replacedRule.world.bind ruleKey otherRule.entity,ruleEntries ["app/input","app/other"]⟩

/-- What the two runs come to. In the first two paths are bound, the root path to an expression that
meets no path twice; after the second the subgraph is listed for a path that it no longer reads. -/
theorem evaluated_rule :
    (engineStep dependencyCrates words aliceId (rebuilt installed) (.uninstall rulePath) =
        some uninstalledRule ∧
      engineStep dependencyCrates words aliceId uninstalledRule (.install installRule) =
        some reinstalledRule ∧
      engineStep dependencyCrates words aliceId (rebuilt uninstalled) (.install installRule) =
        some firstInstall ∧
      engineStep dependencyCrates words aliceId replacedRule (.install installRule) =
        some secondInstall) ∧
    (installed.index.paths.entries = [(ruleRoot,readsInput.entity.contentHash),
        (ruleKey,inputRule.entity.contentHash)] ∧
      reinstalledRule.world.index.paths.entries = installed.index.paths.entries ∧
      reinstalledRule.world.store.get readsInput.entity.contentHash = some readsInput.entity ∧
      readsInput.entity.entityType ≠ typeSubgraph ∧
      (∀ hash ∈ installed.index.paths.entries.map Prod.snd,
        (entryPaths dependencyCrates aliceId installed hash).Nodup) ∧
      pathIsStorable (qualifyPath (subgraphPathOf dependencyCrates installRule.rootPath) aliceId) =
        true ∧ qualifyPath installRule.rootPath aliceId ≠
        qualifyPath (subgraphPathOf dependencyCrates installRule.rootPath) aliceId ∧
      installExpression aliceId installRule uninstalledRule = some readsInput.entity ∧
      (uninstalledRule.world.index.get (qualifyPath installRule.rootPath aliceId)).bind
        reinstalledRule.world.store.get = some readsInput.entity ∧
      (dependencyPaths dependencyCrates aliceId reinstalledRule.world.store installRule.rootPath
        readsInput.entity).Nodup) ∧
    ((dependencyDocs.map Doc.value).map toEcf).Nodup ∧
    (reinstalledRule.dependencyIndex.lookup inputPath).map DependencyEntry.subgraphPath = [rulePath] ∧
    rulePath ∈ (secondInstall.dependencyIndex.lookup inputPath).map DependencyEntry.subgraphPath ∧
    (secondInstall.world.index.get ruleKey).bind secondInstall.world.store.get =
      some otherRule.entity ∧
    dataStr otherRule.value "status" = some "active".toList ∧
    rulePath ∉ ((rebuildIndex dependencyCrates aliceId secondInstall.world).lookup
      inputPath).map DependencyEntry.subgraphPath := by decide +kernel

theorem rule_reads {d : Doc} (h : d ∈ dependencyDocs) :
    dependencyCrates.fromReader d.entity.data = .ok d.value :=
  reads_document evaluated_rule.2.2.1 (List.mem_map_of_mem h)

theorem rule_granted : InstallGranted dependencyCrates aliceId installRule uninstalledRule
    reinstalledRule readsInput.entity := by
  obtain ⟨-,⟨-,-,-,-,-,hstorable,-,-,hkept,-⟩,-⟩ := evaluated_rule
  have hread := rule_reads (d := inputRule) (by simp [dependencyDocs])
  exact ⟨⟨_,hread,same_self (tagless_metadata _ _)⟩,hstorable,hkept⟩

theorem rule_undisturbed : Undisturbed dependencyCrates aliceId (some rulePath)
    uninstalledRule.world reinstalledRule.world := by
  obtain ⟨-,⟨hpaths,hsame,hexpr,htypes,-⟩,-⟩ := evaluated_rule
  intro subgraphPath ⟨rest,hrest⟩ hother ⟨subgraph,data,hfound,htype,_⟩
  subst hrest
  have ⟨hash,hhash,hstored⟩ := bind_eq_some_iff.mp hfound
  have hmem := (OrderedMap.mem_entries _ _ _).mpr hhash
  rw [hsame,hpaths] at hmem
  exfalso
  rcases List.mem_pair.mp hmem with hroot | hkey
  · rw [(Prod.mk.inj hroot).2,hexpr] at hstored
    have hentity := some.inj hstored
    rw [← hentity] at htype
    exact htypes htype
  · apply hother
    have hpath := (Prod.mk.inj hkey).1
    rw [ruleKey,rulePath,subgraphPathOf,qualifyPath_process,qualifyPath_process] at hpath
    exact congrArg some (List.append_cancel_left hpath)

theorem rule_meets : InstallMeets dependencyCrates aliceId installRule uninstalledRule
    reinstalledRule readsInput.entity := by
  obtain ⟨-,⟨-,-,-,-,-,-,hapart,-,-,honce⟩,-⟩ := evaluated_rule
  refine ⟨fun path => ?_,hapart,honce,rule_undisturbed⟩
  show rulePath ∉ []
  exact List.not_mem_nil

end ComputeSample

open ComputeSample Sample

/-- The subgraph is uninstalled and installed again. -/
theorem dependency_index_agrees_sample :
    (reinstalledRule.dependencyIndex.lookup inputPath).map DependencyEntry.subgraphPath =
      [rulePath] ∧ AgreesWithRebuild dependencyCrates aliceId reinstalledRule := by
  obtain ⟨⟨huninstall,hinstall,-⟩,⟨-,-,-,-,hnodup,-,-,hexpression,-⟩,-,hlisted,-⟩ := evaluated_rule
  refine ⟨hlisted,dependency_index_agrees dependencyCrates words aliceId installed ?_
    [.uninstall rulePath,.install installRule] reinstalledRule ?_ ?_ ?_⟩
  · intro subgraphPath
    cases hget : installed.index.get (qualifyPath subgraphPath aliceId) with
    | none =>
      rw [registeredPaths,hget]
      exact List.nodup_nil
    | some hash =>
      rw [registeredPaths_eq hget]
      have hmem := (OrderedMap.mem_entries _ _ _).mpr hget
      exact hnodup hash (List.mem_map_of_mem hmem)
  · exact (engineRun_cons huninstall).trans (engineRun_cons hinstall)
  · refine AlongRun.cons huninstall trivial (AlongRun.cons hinstall ?_ trivial)
    intro s' expression hend hfound
    have hs := Option.some.inj (hinstall.symm.trans hend)
    have he := Option.some.inj (hexpression.symm.trans hfound)
    subst hs he
    exact rule_granted
  · refine AlongRun.cons huninstall trivial (AlongRun.cons hinstall ?_ trivial)
    intro s' expression hend hfound
    have hs := Option.some.inj (hinstall.symm.trans hend)
    have he := Option.some.inj (hexpression.symm.trans hfound)
    subst hs he
    exact rule_meets

/-- The subgraph stays listed for the path that only the first expression reads. -/
theorem replaced_expression_listed :
    engineRun dependencyCrates words aliceId (rebuilt uninstalled) [.install installRule,
      .bind ruleRoot readsOther.entity.contentHash,.install installRule] = some secondInstall ∧
    ¬ AgreesWithRebuild dependencyCrates aliceId secondInstall := by
  obtain ⟨⟨-,-,hfirst,hsecond⟩,-,-,-,hlisted,hbound,hstatus,hnone⟩ := evaluated_rule
  refine ⟨(engineRun_cons hfirst).trans ((engineRun_cons rfl).trans (engineRun_cons hsecond)),
    fun h => ?_⟩
  have hread := rule_reads (d := otherRule) (by simp [dependencyDocs])
  have hactive : IsActive dependencyCrates aliceId secondInstall.world rulePath :=
    ⟨otherRule.entity,otherRule.value,hbound,rfl,congrArg Except.toOption hread,hstatus⟩
  exact hnone ((h.lists inputPath rulePath).mp ⟨hlisted,hactive⟩)

end Compute
end EntityCore
