import EntityCore.TrieTransfer

/-! Building a trie over a store that already holds something. What is built depends on
the bindings alone: the build reads back only nodes it has put itself, so the nodes it
leaves are the same over every store. -/
namespace EntityCore

open Ecf Outcome ByteCode List Action

variable {h : Hash} {p : ContentStore} {n : SnapshotNodeData} {post : α → ContentStore → Prop}

namespace ContentStore

/-- One store on top of another. -/
def onto (p s : ContentStore) : ContentStore := ⟨p.puts++s.puts⟩

def Has (p : ContentStore) (h : Hash) : Prop := ∃ e ∈ p.puts, e.contentHash = h

/-- The decoder reads back the nodes among what was put. -/
def ReadsNodes (X : Platform) (s : ContentStore) : Prop :=
  ∀ e ∈ s.puts, ∀ n : SnapshotNodeData, e.data = n.toEcfBytes → X.fromReader e.data = .ok n.toValue

theorem Faithful.readsNodes {X : Platform} {s : ContentStore} (h : s.Faithful X) :
    s.ReadsNodes X := h.decodes

@[simp] theorem empty_onto (s : ContentStore) : onto ⟨[]⟩ s = s := rfl

theorem Has.mono {q : ContentStore} (hh : p.Has h) (hpq : p ≤ q) : q.Has h := by
  obtain ⟨e,he,hc⟩ := hh
  exact ⟨e,List.IsSuffix.mem he hpq,hc⟩

theorem Has.get (hh : p.Has h) : ∃ e ∈ p.puts, e.contentHash = h ∧ p.get h = some e := by
  obtain ⟨x,hx,hc⟩ := hh
  cases hg : p.get h with
  | none =>
    have hn := find?_eq_none.mp hg x hx
    simp [hc] at hn
  | some e => exact ⟨e,mem_of_find?_eq_some hg,by simpa using find?_some hg,rfl⟩

/-- What the upper store has it answers for. -/
theorem get_onto (hh : p.Has h) (s : ContentStore) : (p.onto s).get h = p.get h := by
  obtain ⟨e,-,-,hg⟩ := hh.get
  rw [hg]
  show find? _ (p.puts++s.puts) = some e
  rw [find?_append]
  show (p.get h).or _ = some e
  rw [hg,Option.some_or]

/-- What the upper store does not have the lower one answers for. -/
theorem get_onto_of_not (hh : ¬ p.Has h) (s : ContentStore) : (p.onto s).get h = s.get h := by
  have hn : p.get h = none := by
    apply find?_eq_none.mpr
    intro e he hc
    exact hh ⟨e,he,by simpa using hc⟩
  show find? _ (p.puts++s.puts) = _
  rw [find?_append]
  show (p.get h).or _ = _
  rw [hn,Option.none_or]
  rfl

end ContentStore

theorem loadTrieNode_onto {X : Platform} (hh : p.Has h)
    (s : ContentStore) : loadTrieNode X (p.onto s) h = loadTrieNode X p h := by
  rw [loadTrieNode,ContentStore.get_onto hh,loadTrieNode]

/-! Nodes whose links stay inside a store and whose values lie in a set. -/

def EntryInside (V : Set Hash) (p : ContentStore) : Entry → Prop
  | .bucket b => ∀ t ∈ b, t.2 ∈ V
  | .link h => p.Has h

def SnapshotNodeData.Inside (V : Set Hash) (p : ContentStore) (n : SnapshotNodeData) : Prop :=
  ∀ e ∈ n.data, EntryInside V p e

/-- A store of trie nodes closed under links, each under the hash it has. -/
structure ContentStore.Contained (X : Platform) (V : Set Hash) (p : ContentStore) : Prop where
  inside : ∀ e ∈ p.puts, ∀ n, SnapshotNodeData.fromCbor X e.data = some n → n.Inside V p
  made : ∀ e ∈ p.puts, ∃ n : SnapshotNodeData, n.toEntity X = .ok e

section Inside

variable {X : Platform} {V : Set Hash} {p q : ContentStore}

theorem EntryInside.mono {e : Entry} (h : EntryInside V p e) (hpq : p ≤ q) : EntryInside V q e := by
  cases e with
  | bucket b => exact h
  | link l => exact ContentStore.Has.mono h hpq

theorem SnapshotNodeData.Inside.mono (h : n.Inside V p) (hpq : p ≤ q) :
    n.Inside V q := fun e he => (h e he).mono hpq

theorem inside_empty : SnapshotNodeData.empty.Inside V p := by
  intro e he
  cases he

theorem contained_empty : ContentStore.Contained X V ⟨[]⟩ := by
  constructor <;>
    · intro e he
      cases he

theorem ContentStore.Contained.load (hp : p.Contained X V)
    (hh : p.Has h) (hn : loadTrieNode X p h = some n) : n.Inside V p := by
  obtain ⟨e,he,-,hg⟩ := hh.get
  rw [loadTrieNode,hg] at hn
  exact hp.inside e he n hn

end Inside

/-! Computations that read no deeper than what they have put. -/

/-- Over a store `s` the computation does what it does without it, and ends as stated. -/
structure Framed {α : Type} (s p : ContentStore) (m : Action ContentStore TrieFailure α)
    (post : α → ContentStore → Prop) : Prop where
  frame : m (p.onto s) = ((m p).1,(m p).2.onto s)
  post : ∀ a, (m p).1 = .ok a → post a (m p).2

/-- Framed in every run that ends in a part of `t`. -/
def Builds {α : Type} (s t p : ContentStore) (m : Action ContentStore TrieFailure α)
    (post : α → ContentStore → Prop) : Prop := (m (p.onto s)).2 ≤ t → Framed s p m post

section Builds

variable {α β : Type} {s t p : ContentStore}

theorem builds_pure {a : α} {post : α → ContentStore → Prop} (h : post a p) :
    Builds s t p (pure a) post := by
  intro _
  refine ⟨rfl,?_⟩
  intro b hb
  obtain rfl : a = b := Except.ok.inj hb
  exact h

theorem builds_lift {r : Except TrieFailure α} {post : α → ContentStore → Prop}
    (h : ∀ a, r = .ok a → post a p) : Builds s t p (lift r) post :=
  fun _ => ⟨rfl,h⟩

theorem Builds.bind {m : Action ContentStore TrieFailure α} {f : α → Action ContentStore TrieFailure β}
    {post : α → ContentStore → Prop} {post' : β → ContentStore → Prop}
    (hm : Builds s t p m post) (hg : ∀ a, Action.Grows (f a))
    (hf : ∀ a q, post a q → Builds s t q (f a) post') : Builds s t p (m >>= f) post' := by
  intro hle
  obtain ⟨hframe,hpost⟩ := hm ((Action.Grows.le_bind hg _).trans hle)
  cases hr : m p with
  | mk r q =>
    rw [hr] at hframe hpost
    cases r with
    | ok a =>
      have hs : (m >>= f) (p.onto s) = f a (q.onto s) := bind_of_ok hframe
      have hp : (m >>= f) p = f a q := bind_of_ok hr
      rw [hs] at hle
      obtain ⟨hframe',hpost'⟩ := hf a q (hpost a rfl) hle
      exact ⟨by rw [hs,hp]; exact hframe',by rw [hp]; exact hpost'⟩
    | error e =>
      have hs : (m >>= f) (p.onto s) = (.error e,q.onto s) := by
        show andThen m f _ = _
        rw [andThen,hframe]
      have hp : (m >>= f) p = (.error e,q) := by
        show andThen m f _ = _
        rw [andThen,hr]
      refine ⟨by rw [hs,hp],?_⟩
      intro b hb
      rw [hp] at hb
      cases hb

theorem Builds.foldlM {f : β → α → Action ContentStore TrieFailure β}
    {inv : β → ContentStore → Prop} (hg : ∀ b a, Action.Grows (f b a)) (as : List α)
    (hf : ∀ a ∈ as, ∀ b q, inv b q → Builds s t q (f b a) inv) {b : β} (hb : inv b p) :
    Builds s t p (as.foldlM f b) inv := by
  induction as generalizing b p with
  | nil => exact builds_pure hb
  | cons a as ih =>
    have hhead := hf a mem_cons_self b p hb
    refine hhead.bind (fun b' => Action.Grows.foldlM hg as b') ?_
    intro b' q hb'
    exact ih (fun a ha => hf a (mem_cons_of_mem _ ha)) hb'

theorem Builds.mono {m : Action ContentStore TrieFailure α} {post post' : α → ContentStore → Prop}
    (hm : Builds s t p m post) (h : ∀ a q, post a q → post' a q) : Builds s t p m post' := by
  intro hle
  obtain ⟨hframe,hpost⟩ := hm hle
  exact ⟨hframe,fun a ha => h a _ (hpost a ha)⟩

end Builds

/-! The build. -/

section Trie

variable {X : Platform} {V : Set Hash} {s t p : ContentStore}

/-- A node whose links stay in a store that was grown from another. -/
structure SoundNode (X : Platform) (V : Set Hash) (p : ContentStore) (n : SnapshotNodeData)
    (q : ContentStore) : Prop where
  contained : q.Contained X V
  inside : n.Inside V q
  grown : p ≤ q

theorem builds_storeTrieNode (ht : t.ReadsNodes X) (hp : p.Contained X V)
    (hn : n.Inside V p) : Builds s t p (storeTrieNode X n) fun h q =>
      q.Contained X V ∧ q.Has h ∧ loadTrieNode X q h = some n ∧ p ≤ q := by
  intro hle
  unfold storeTrieNode at hle ⊢
  cases he : n.toEntity X with
  | error e => exact ⟨rfl,fun h hh => by cases hh⟩
  | ok e =>
    rw [he] at hle
    have hput : e ∈ ((p.onto s).put e).puts := mem_cons_self
    have hmem : e ∈ t.puts := List.IsSuffix.mem hput hle
    have hnew : Entity.newWithFormat X typeTreeSnapshotNode n.toEcfBytes X.defaultHashFormat =
        .ok e := he
    have hdata : e.data = n.toEcfBytes := (Entity.newWithFormat_ok X hnew).2.1
    have hread : SnapshotNodeData.fromCbor X e.data = some n :=
      fromCbor_of_fromReader (ht e hmem n hdata)
    have hgrown : p ≤ p.put e := suffix_cons e p.puts
    have hcontained : (p.put e).Contained X V := by
      constructor
      · intro x hx m hm
        rcases mem_cons.mp hx with rfl | hx
        · obtain rfl : n = m := Option.some.inj (hread.symm.trans hm)
          exact hn.mono hgrown
        · exact (hp.inside x hx m hm).mono hgrown
      · intro x hx
        rcases mem_cons.mp hx with rfl | hx
        · exact ⟨n,he⟩
        · exact hp.made x hx
    refine ⟨rfl,?_⟩
    intro h hh
    obtain rfl : e.contentHash = h := Except.ok.inj hh
    refine ⟨hcontained,⟨e,mem_cons_self,rfl⟩,?_,hgrown⟩
    have hget : (p.put e).get e.contentHash = some e := by
      simp [ContentStore.get,ContentStore.put]
    rw [loadTrieNode,hget]
    exact hread

theorem builds_loadSub (hp : p.Contained X V) (hh : p.Has h) :
    Builds s t p (loadSub X h) (SoundNode X V p) := by
  intro _
  have hload : loadTrieNode X (p.onto s) h = loadTrieNode X p h := loadTrieNode_onto hh s
  refine ⟨?_,?_⟩
  · show (okOr (loadTrieNode X (p.onto s) h) missingSubNode,p.onto s) = _
    rw [hload]
    rfl
  · intro n hn
    have hl : loadTrieNode X p h = some n := (okOr_ok _ _ _).mp hn
    exact ⟨hp,hp.load hh hl,le_rfl⟩

/-- The put one level below, as far as an entry needs it. -/
def DownSound (X : Platform) (V : Set Hash) (s t : ContentStore) (down : SnapshotNodeData → Bytes →
    Str → Hash → Action ContentStore TrieFailure SnapshotNodeData) : Prop :=
  ∀ n b k v p, v ∈ V → p.Contained X V → n.Inside V p →
    Builds s t p (down n b k v) (SoundNode X V p)

theorem mem_modify_snd {l : List (Str × Hash)} {i : ℕ} {v : Hash} {x : Str × Hash}
    (h : x ∈ l.modify i fun t => (t.1,v)) : x ∈ l ∨ x.2 = v := by
  induction l generalizing i with
  | nil => simp at h
  | cons a l ih =>
    cases i with
    | zero =>
      simp only [modify_zero_cons,mem_cons] at h
      rcases h with rfl | h
      · exact .inr rfl
      · exact .inl (mem_cons_of_mem _ h)
    | succ i =>
      simp only [modify_succ_cons,mem_cons] at h
      rcases h with rfl | h
      · exact .inl mem_cons_self
      · exact (ih h).imp_left (mem_cons_of_mem _)

/-- Storing what was put below and linking to it. -/
theorem builds_link (ht : t.ReadsNodes X) {q : ContentStore}
    (hn : SoundNode X V p n q) : Builds s t q (do
      let subHash ← storeTrieNode X n
      pure (Entry.link subHash)) fun e q => q.Contained X V ∧ EntryInside V q e ∧ p ≤ q := by
  refine (builds_storeTrieNode ht hn.contained hn.inside).bind (fun _ => grows_pure _) ?_
  rintro h r ⟨hr,hhas,-,hqr⟩
  exact builds_pure ⟨hr,hhas,hn.grown.trans hqr⟩

theorem builds_putEntry (ht : t.ReadsNodes X) {down : SnapshotNodeData → Bytes → Str → Hash →
    Action ContentStore TrieFailure SnapshotNodeData}
    (hg : ∀ n b k v, Action.Grows (down n b k v)) (hdown : DownSound X V s t down)
    {hashBytes : Bytes} {key : Str} {v : Hash} (hv : v ∈ V) (hp : p.Contained X V) {e : Entry}
    (he : EntryInside V p e) : Builds s t p (putEntry X down hashBytes key v e)
      fun e q => q.Contained X V ∧ EntryInside V q e ∧ p ≤ q := by
  have hgs : ∀ n : SnapshotNodeData, Action.Grows (do
      let subHash ← storeTrieNode X n
      pure (Entry.link subHash) : Action ContentStore TrieFailure Entry) :=
    fun n => (grows_storeTrieNode n).bind fun _ => grows_pure _
  cases e with
  | link h =>
    unfold putEntry
    refine (builds_loadSub hp he).bind (fun n => (hg n _ _ _).bind hgs) ?_
    intro n q hn
    refine (hdown n _ _ _ q hv hn.contained hn.inside).bind hgs ?_
    intro n' r hn'
    exact builds_link ht ⟨hn'.contained,hn'.inside,hn.grown.trans hn'.grown⟩
  | bucket tuples =>
    have hvalues : ∀ t ∈ tuples, t.2 ∈ V := he
    unfold putEntry
    dsimp only
    cases tuples.findIdx? fun t => t.1 = key with
    | some pos =>
      refine builds_pure ⟨hp,?_,le_rfl⟩
      intro x hx
      rcases mem_modify_snd hx with hx | hx
      · exact hvalues x hx
      · rw [hx]
        exact hv
    | none =>
      dsimp only
      by_cases hfull : tuples.length < bucketSize
      · rw [if_pos hfull]
        refine builds_pure ⟨hp,?_,le_rfl⟩
        intro x hx
        have hx' : x ∈ tuples++[(key,v)] := (perm_insertionSort _ _).mem_iff.mp hx
        rcases mem_append.mp hx' with hx | hx
        · exact hvalues x hx
        · obtain rfl := mem_singleton.mp hx
          exact hv
      · rw [if_neg hfull]
        have hfold : Builds s t p (tuples.foldlM (fun sub t => down sub (keyHash X t.1) t.1 t.2)
            SnapshotNodeData.empty) (SoundNode X V p) := by
          refine Builds.foldlM (fun b c => hg b _ _ _) tuples ?_ ⟨hp,inside_empty,le_rfl⟩
          intro c hc n q hn
          refine (hdown n _ _ _ q (hvalues c hc) hn.contained hn.inside).mono ?_
          intro n' r hn'
          exact ⟨hn'.contained,hn'.inside,hn.grown.trans hn'.grown⟩
        refine hfold.bind (fun n => (hg n _ _ _).bind hgs) ?_
        intro n q hn
        refine (hdown n _ _ _ q hv hn.contained hn.inside).bind hgs ?_
        intro n' r hn'
        exact builds_link ht ⟨hn'.contained,hn'.inside,hn.grown.trans hn'.grown⟩

theorem builds_putAtNode (ht : t.ReadsNodes X) (left level : ℕ) :
    DownSound X V s t fun n b k v => putAtNode X left n b level k v := by
  induction left generalizing level with
  | zero =>
    intro n b k v p _ _ _
    exact builds_lift (fun a ha => by cases ha)
  | succ left ih =>
    intro n b k v p hv hp hn
    have hgput := grows_putAtNode (X := X) left
    show Builds s t p (putAtNode X (left+1) n b level k v) _
    unfold putAtNode
    refine (@builds_lift _ s t p _ (fun _ q => q = p) fun _ _ => rfl).bind ?_ ?_
    · intro i
      dsimp only
      split_ifs
      · exact (grows_lift _).bind fun _ => grows_pure _
      · exact (grows_lift _).bind fun e =>
          (grows_putEntry (fun n b k v => hgput n b (level+1) k v) b k v e).bind fun _ =>
            grows_pure _
    · rintro i q rfl
      dsimp only
      by_cases hfree : (!(position n.map i).1) = true
      · rw [if_pos hfree]
        refine (@builds_lift _ s t q _ (fun d r => r = q ∧ insertAt n (position n.map i).2
          (.bucket [(k,v)]) = .ok d) fun d hd => ⟨rfl,hd⟩).bind (fun _ => grows_pure _) ?_
        rintro d r ⟨rfl,hd⟩
        refine builds_pure ⟨hp,?_,le_rfl⟩
        intro e he
        unfold insertAt at hd
        split_ifs at hd
        obtain rfl := Except.ok.inj hd
        rcases eq_or_mem_of_mem_insertIdx he with rfl | he
        · intro x hx
          obtain rfl := mem_singleton.mp hx
          exact hv
        · exact hn e he
      · rw [if_neg hfree]
        refine (@builds_lift _ s t q _ (fun e r => r = q ∧ e ∈ n.data) ?_).bind
          (fun e => (grows_putEntry (fun n b k v => hgput n b (level+1) k v) b k v e).bind fun _ =>
            grows_pure _) ?_
        · intro e he
          exact ⟨rfl,mem_of_getElem? ((okOr_ok _ _ _).mp he)⟩
        · rintro e r ⟨rfl,he⟩
          have hdown := ih (level+1)
          refine (builds_putEntry ht (fun n b k v => hgput n b (level+1) k v) hdown hv hp
            (hn e he)).bind (fun _ => grows_pure _) ?_
          rintro e' r' ⟨hr',he',hgrown⟩
          refine builds_pure ⟨hr',?_,hgrown⟩
          intro x hx
          rcases mem_or_eq_of_mem_set hx with hx | rfl
          · exact (hn x hx).mono hgrown
          · exact he'

/-- What a build leaves: its own nodes, closed under links, with the root among them. -/
structure Built (X : Platform) (V : Set Hash) (root : Hash) (q : ContentStore) : Prop where
  contained : q.Contained X V
  root : q.Has root

theorem builds_buildTrie {bindings : OrderedMap Str Hash} (hV : ∀ v ∈ bindings.values, v ∈ V)
    (ht : t.ReadsNodes X) : Builds s t ⟨[]⟩ (buildTrie X bindings) (Built X V) := by
  have hfold : Builds s t ⟨[]⟩ (bindings.entries.foldlM (fun root kv =>
      putAtNode X levels root (keyHash X kv.1) 0 kv.1 kv.2) SnapshotNodeData.empty)
      (SoundNode X V ⟨[]⟩) := by
    refine Builds.foldlM (fun n kv => grows_putAtNode _ _ _ _ _ _) _ ?_
      ⟨contained_empty,inside_empty,le_rfl⟩
    intro kv hkv n q hn
    have hv : kv.2 ∈ V := hV kv.2 (mem_map_of_mem (f := Prod.snd) hkv)
    refine (builds_putAtNode ht levels 0 n _ _ _ q hv hn.contained hn.inside).mono ?_
    intro n' r hn'
    exact ⟨hn'.contained,hn'.inside,hn.grown.trans hn'.grown⟩
  refine hfold.bind (fun n => grows_storeTrieNode n) ?_
  intro n q hn
  refine (builds_storeTrieNode ht hn.contained hn.inside).mono ?_
  rintro h r ⟨hr,hhas,-,-⟩
  exact ⟨hr,hhas⟩

end Trie

end EntityCore
