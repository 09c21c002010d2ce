import EntityCore.Clock

/-! The comparison of the clock handler: what two clock values say about the order of the
events they stamp. -/
namespace EntityCore

inductive ClockValue where
  | timestamp (ms : ℕ)
  | logical (counter : ℕ)
  | vector (entries : OrderedMap Str ℕ)
  | hlc (stamp : ClockHlc)

inductive ClockOrder where
  | equal
  | before
  | after
  | concurrent
  deriving DecidableEq

def compareTimestamps (aMs bMs : ℕ) : ClockOrder :=
  if aMs < bMs then .before else if aMs > bMs then .after else .equal

def compareLogical (aCounter bCounter : ℕ) : ClockOrder :=
  if aCounter < bCounter then .before else if aCounter > bCounter then .after else .equal

def allPeers (a b : OrderedMap Str ℕ) : List Str :=
  a.entries.map Prod.fst++(b.entries.map Prod.fst).filter fun k => (a.get k).isNone

def counterOf (entries : OrderedMap Str ℕ) (peer : Str) : ℕ := (entries.get peer).getD 0

def compareVector (a b : OrderedMap Str ℕ) : ClockOrder :=
  let leq := (allPeers a b).foldl (fun (leq : Bool × Bool) peer =>
    (if counterOf a peer > counterOf b peer then false else leq.1,
      if counterOf b peer > counterOf a peer then false else leq.2)) (true,true)
  if leq.1 && leq.2 then .equal
  else if leq.1 then .before
  else if leq.2 then .after
  else .concurrent

def compareHlc (a b : ClockHlc) : ClockOrder :=
  if a.physical < b.physical then .before
  else if a.physical > b.physical then .after
  else if a.logical < b.logical then .before
  else if a.logical > b.logical then .after
  else if a.peer < b.peer then .before
  else if a.peer > b.peer then .after
  else .equal

def compareClocks : ClockValue → ClockValue → Except String ClockOrder
  | .timestamp a, .timestamp b => .ok (compareTimestamps a b)
  | .logical a, .logical b => .ok (compareLogical a b)
  | .vector a, .vector b => .ok (compareVector a b)
  | .hlc a, .hlc b => .ok (compareHlc a b)
  | _, _ => .error "a and b must be the same clock type"

/-! What is compared. -/

def ClockHlc.reading (h : ClockHlc) : ℕ ×ₗ ℕ ×ₗ Hash :=
  toLex (h.physical,toLex (h.logical,h.peer))

/-- Clocks of different kinds stay apart; in a vector a missing peer counts zero. -/
def ClockValue.reading : ClockValue → ℕ ⊕ ℕ ⊕ (Str → ℕ) ⊕ ℕ ×ₗ ℕ ×ₗ Hash
  | .timestamp ms => .inl ms
  | .logical counter => .inr (.inl counter)
  | .vector entries => .inr (.inr (.inl (counterOf entries)))
  | .hlc h => .inr (.inr (.inr h.reading))

/-- At or before: what the first stamps may be known where the second is. -/
instance : Preorder ClockValue := Preorder.lift ClockValue.reading

def ClockValue.SameKind : ClockValue → ClockValue → Prop
  | .timestamp _, .timestamp _ | .logical _, .logical _ | .vector _, .vector _
  | .hlc _, .hlc _ => True
  | _, _ => False

namespace ClockOrder

variable {α : Type} [Preorder α] {a b : α} {o o' : ClockOrder}

/-- What an order says of two of its elements. -/
def Of (a b : α) : ClockOrder → Prop
  | equal => a ≤ b ∧ b ≤ a
  | before => a < b
  | after => b < a
  | concurrent => ¬a ≤ b ∧ ¬b ≤ a

theorem of_unique (h : o.Of a b) (h' : o'.Of a b) : o = o' := by
  cases o <;> cases o' <;> simp_all [Of,lt_iff_le_not_ge]

theorem of_congr {β : Type} [Preorder β] {c d : β} (h : a ≤ b ↔ c ≤ d) (h' : b ≤ a ↔ d ≤ c) :
    o.Of a b ↔ o.Of c d := by
  cases o <;> simp [Of,lt_iff_le_not_ge,h,h']

theorem of_inl {β : Type} [Preorder β] : o.Of (.inl a : α ⊕ β) (.inl b) ↔ o.Of a b :=
  of_congr Sum.inl_le_inl_iff Sum.inl_le_inl_iff

theorem of_inr {β : Type} [Preorder β] : o.Of (.inr a : β ⊕ α) (.inr b) ↔ o.Of a b :=
  of_congr Sum.inr_le_inr_iff Sum.inr_le_inr_iff

theorem of_leq (a b : α) (p q : Bool) (hp : p = true ↔ a ≤ b) (hq : q = true ↔ b ≤ a) :
    (if p && q then equal else if p then before else if q then after else concurrent).Of a b := by
  cases p <;> cases q <;> simp_all [Of,lt_iff_le_not_ge]

theorem of_linear {α : Type} [LinearOrder α] (a b : α) :
    (if a < b then before else if a > b then after else equal).Of a b := by
  split_ifs with h h'
  · exact h
  · exact h'
  · exact ⟨not_lt.mp h',not_lt.mp h⟩

end ClockOrder

open ClockOrder

theorem of_reading {a b : ClockValue} {o : ClockOrder} : o.Of a b ↔ o.Of a.reading b.reading :=
  of_congr Iff.rfl Iff.rfl

theorem fold_leq (a b : OrderedMap Str ℕ) (peers : List Str) (p q : Bool) :
    peers.foldl (fun (leq : Bool × Bool) peer =>
      (if counterOf a peer > counterOf b peer then false else leq.1,
        if counterOf b peer > counterOf a peer then false else leq.2)) (p,q) =
      (p && peers.all fun peer => counterOf a peer ≤ counterOf b peer,
        q && peers.all fun peer => counterOf b peer ≤ counterOf a peer) := by
  induction peers generalizing p q with
  | nil => simp
  | cons peer peers ih =>
    rw [List.foldl_cons,ih]
    by_cases h : counterOf a peer ≤ counterOf b peer <;>
      by_cases h' : counterOf b peer ≤ counterOf a peer <;> simp [h,h',not_lt.mpr,not_le.mp]

/-- A peer that is met in neither vector counts zero in both. -/
theorem leq_all_peers {a b c d : OrderedMap Str ℕ}
    (h : ∀ peer, peer ∉ allPeers a b → counterOf c peer = counterOf d peer) :
    ((allPeers a b).all fun peer => counterOf c peer ≤ counterOf d peer) = true ↔
      counterOf c ≤ counterOf d := by
  simp only [List.all_eq_true,decide_eq_true_eq]
  constructor
  · intro hall peer
    by_cases hpeer : peer ∈ allPeers a b
    · exact hall peer hpeer
    · exact (h peer hpeer).le
  · exact fun hle peer _ => hle peer

theorem unmet_peer {a b : OrderedMap Str ℕ} {peer : Str} (h : peer ∉ allPeers a b) :
    a.get peer = none ∧ b.get peer = none := by
  simp only [allPeers,List.mem_append,List.mem_filter,not_or,not_and] at h
  have ha := OrderedMap.lookup_eq_none h.1
  refine ⟨ha,OrderedMap.lookup_eq_none fun hb => h.2 hb ?_⟩
  rw [show a.get peer = none from ha]
  rfl

theorem compareVector_of (a b : OrderedMap Str ℕ) :
    (compareVector a b).Of (counterOf a) (counterOf b) := by
  have hzero : ∀ peer, peer ∉ allPeers a b → counterOf a peer = counterOf b peer := by
    intro peer h
    rw [counterOf,counterOf,(unmet_peer h).1,(unmet_peer h).2]
  unfold compareVector
  rw [fold_leq]
  dsimp only
  rw [Bool.true_and,Bool.true_and]
  exact of_leq _ _ _ _ (leq_all_peers hzero) (leq_all_peers fun peer h => (hzero peer h).symm)

theorem compareHlc_of (a b : ClockHlc) : (compareHlc a b).Of a.reading b.reading := by
  have hcascade : compareHlc a b = if a.reading < b.reading then before
      else if a.reading > b.reading then after else equal := by
    unfold compareHlc ClockHlc.reading
    simp only [gt_iff_lt,Prod.Lex.toLex_lt_toLex]
    split_ifs <;> first | rfl | (exfalso; grind)
  rw [hcascade]
  exact of_linear _ _

theorem compared_of {a b : ClockValue} (h : a.SameKind b) :
    ∃ o, compareClocks a b = .ok o ∧ o.Of a b := by
  simp only [of_reading]
  cases a with
  | timestamp ms =>
    cases b with
    | timestamp ms' => exact ⟨_,rfl,of_inl.mpr (of_linear ms ms')⟩
    | _ => cases h
  | logical counter =>
    cases b with
    | logical counter' => exact ⟨_,rfl,of_inr.mpr (of_inl.mpr (of_linear counter counter'))⟩
    | _ => cases h
  | vector entries =>
    cases b with
    | vector entries' => exact ⟨_,rfl,of_inr.mpr (of_inr.mpr (of_inl.mpr (compareVector_of _ _)))⟩
    | _ => cases h
  | hlc stamp =>
    cases b with
    | hlc stamp' => exact ⟨_,rfl,of_inr.mpr (of_inr.mpr (of_inr.mpr (compareHlc_of _ _)))⟩
    | _ => cases h

/-- The answer is the place of the two in the order of the clocks. -/
theorem compareClocks_ok_iff (a b : ClockValue) (o : ClockOrder) :
    compareClocks a b = .ok o ↔ a.SameKind b ∧ o.Of a b := by
  constructor
  · intro h
    have hkind : a.SameKind b := by
      cases a <;> cases b <;> simp_all [compareClocks,ClockValue.SameKind]
    obtain ⟨o',ho',hof⟩ := compared_of hkind
    obtain rfl := Except.ok.inj (h.symm.trans ho')
    exact ⟨hkind,hof⟩
  · rintro ⟨hkind,hof⟩
    obtain ⟨o',ho',hof'⟩ := compared_of hkind
    rw [ho',of_unique hof' hof]

/-! The hybrid clock over a run of local events. -/

def hlcRun (localPeerId : Hash) : List ℕ → ClockHlc → List ClockHlc
  | [], _ => []
  | wall::walls, h =>
    hlcLocalEvent wall h localPeerId::hlcRun localPeerId walls (hlcLocalEvent wall h localPeerId)

theorem hlcLocalEvent_lt {h : ClockHlc} (hroom : h.logical+1 < 2^64) (wall : ℕ) (peer : Hash) :
    h.reading < (hlcLocalEvent wall h peer).reading ∧
      (hlcLocalEvent wall h peer).logical ≤ h.logical+1 := by
  simp only [ClockHlc.reading,hlcLocalEvent,Prod.Lex.toLex_lt_toLex]
  split_ifs with heq
  · rw [Nat.mod_eq_of_lt hroom]
    exact ⟨.inr ⟨heq.symm,.inl (Nat.lt_succ_self _)⟩,le_rfl⟩
  · exact ⟨.inl (lt_of_le_of_ne (le_max_right _ _) (Ne.symm heq)),Nat.zero_le _⟩

theorem hlcRun_lt {walls : List ℕ} {h : ClockHlc} (hroom : h.logical+walls.length < 2^64)
    (peer : Hash) : (h::hlcRun peer walls h).Pairwise fun a b => a.reading < b.reading := by
  induction walls generalizing h with
  | nil => exact List.pairwise_singleton _ _
  | cons wall walls ih =>
    rw [List.length_cons] at hroom
    obtain ⟨hlt,hlogical⟩ := hlcLocalEvent_lt (h := h) (by omega) wall peer
    have hrest := ih (h := hlcLocalEvent wall h peer) (by omega)
    refine List.pairwise_cons.mpr ⟨?_,hrest⟩
    rintro b hb
    rcases List.mem_cons.mp hb with rfl | hb
    · exact hlt
    · exact hlt.trans (List.rel_of_pairwise_cons hrest hb)

/-- However the wall clock jumps, a stamp compares before every later one. -/
theorem hlcRun_increases (peer : Hash) (walls : List ℕ) (h : ClockHlc)
    (hroom : h.logical+walls.length < 2^64) : (h::hlcRun peer walls h).Pairwise fun a b =>
      compareClocks (.hlc a) (.hlc b) = .ok .before := by
  refine (hlcRun_lt hroom peer).imp fun hlt => congrArg Except.ok (of_unique (compareHlc_of _ _) ?_)
  exact hlt

theorem hlcRun_increases_sample : (⟨2,0,Hash.zero⟩::hlcRun Hash.zero [5,3,5] ⟨2,0,Hash.zero⟩).Pairwise
    fun a b => compareClocks (.hlc a) (.hlc b) = .ok .before :=
  hlcRun_increases Hash.zero [5,3,5] ⟨2,0,Hash.zero⟩ (by decide)

end EntityCore
