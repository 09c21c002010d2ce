import EntityCore.History
import EntityCore.CapabilityHandler
import EntityCore.ComputeForms

/-! Queries of a path's history. The walk goes from the newest transition back, stops at one
the caller has seen, passes over what the filters leave out and ends when the page is full. -/
namespace EntityCore

open Ecf Outcome Strings

def typeHistoryQueryResult : Str := "system/history/query-result".toList

/-! Parameters. -/

structure QueryParams where
  path : Str
  limit : Option ℕ
  since : Option Hash
  before : Option ℕ
  events : Option (List Str)
  deriving DecidableEq

def QueryParams.decode (X : Platform) (data : Bytes) : Except String QueryParams := do
  let value ← mapErr ("invalid CBOR: "++·) (X.fromReader data)
  let map ← okOr value.asMap "params must be a map"
  let path ← okOr ((getField map "path").bind (·.asText)) "path is required"
  return {
    path := path
    limit := (getField map "limit").bind (·.asU64)
    since := (getField map "since").bind hashField
    before := (getField map "before").bind (·.asU64)
    events := ((getField map "events").bind (·.asArray)).map (·.filterMap (·.asText)) }

def QueryParams.pageLimit (params : QueryParams) : ℕ := params.limit.getD 50

/-! The walk. -/

/-- What the loop leaves: the page, where it stood and whether the page was full. -/
structure QueryScan where
  transitions : List (Hash × Entity)
  current : Option Hash
  full : Bool

def HistoryQuery.scan (X : Platform) (s : ContentStore) (params : QueryParams) :
    ℕ → Option Hash → List (Hash × Entity) → Option QueryScan
  | _, none, page => some ⟨page,none,false⟩
  | 0, some _, _ => none
  | n+1, some h, page => match s.get h with
    | none => some ⟨page,some h,false⟩
    | some entity => match decodeTransition X entity with
      | none => some ⟨page,some h,false⟩
      | some d =>
        if params.since = some h then some ⟨page,some h,false⟩
        else if params.before.any (· ≤ d.timestamp) then
          HistoryQuery.scan X s params n d.previous page
        else if params.events.any (d.event ∉ ·) then HistoryQuery.scan X s params n d.previous page
        else if params.pageLimit ≤ page.length then some ⟨page,some h,true⟩
        else HistoryQuery.scan X s params n d.previous (page++[(h,entity)])

/-- Wherever the loop stopped short of the end, there is said to be more. -/
def QueryScan.hasMore (q : QueryScan) : Bool := q.full || q.current.isSome

/-! The reply. -/

structure QueryResult where
  path : Str
  head : Option Hash
  transitions : List Value
  hasMore : Bool

def QueryResult.toValue (r : QueryResult) : Value :=
  .map ([field "path" (textVal r.path)]++(r.head.map fun h => field "head" (hashVal h)).toList++
    [field "transitions" (.array r.transitions),field "has_more" (.bool r.hasMore)])

def QueryResult.toEntity (X : Platform) (r : QueryResult) : Except EntityError Entity :=
  Entity.new X typeHistoryQueryResult (toEcf r.toValue)

inductive QueryReply where
  | refused (failure : Failure)
  | page (result : QueryResult) (included : OrderedMap Hash Entity)

/-- The transitions inline, and as entities beside the result. -/
def buildQueryReply (X : Platform) (path : Str) (head : Option Hash)
    (transitions : List (Hash × Entity)) (hasMore : Bool) : QueryReply :=
  .page ⟨path,head,transitions.filterMap fun t => (X.fromReader t.2.data).toOption,hasMore⟩
    (OrderedMap.ofList transitions)

structure HistoryHandler where
  localPeerId : Str

namespace HistoryHandler

variable (X : Platform) (H : HistoryHandler) (ctx : HandlerContext)
  (tree : NotifyingLocationIndex ContentStore)

def canonicalizePath (path : Str) : Str := canonicalizeHistoryPattern path H.localPeerId

/-- The caller may read the path whose history is asked for. -/
def mayGet (path : Str) : Bool :=
  ctx.callerCapability.all fun cap => Compute.treePermission "get" path cap H.localPeerId

/-- The query, if the chain is no longer than the fuel. -/
def handleQuery (fuel : ℕ) : Except String (Option QueryReply) := do
  let params ← QueryParams.decode X ctx.params.data
  let path := H.canonicalizePath params.path
  if !H.mayGet ctx path then
    return some (.refused ⟨403,"access_denied","insufficient capability for target path"⟩)
  else match tree.inner.get (headPointerPath H.localPeerId path) with
    | none => return some (buildQueryReply X path none [] false)
    | some head => return (HistoryQuery.scan X tree.world params fuel (some head) []).map fun q =>
        buildQueryReply X path (some head) q.transitions q.hasMore

end HistoryHandler

/-! What is asked for. -/

/-- One link of a chain: a transition with the entity that holds it. -/
structure HistoryLink where
  hash : Hash
  entity : Entity
  data : TransitionData

/-- The whole chain from a hash is in the store. -/
inductive CompleteChain (X : Platform) (s : ContentStore) : Option Hash → List HistoryLink → Prop
  | done : CompleteChain X s none []
  | link {h : Hash} {e : Entity} {d : TransitionData} {rest : List HistoryLink}
      (stored : s.get h = some e) (decoded : decodeTransition X e = some d)
      (later : CompleteChain X s d.previous rest) : CompleteChain X s (some h) (⟨h,e,d⟩::rest)

namespace QueryParams

variable (params : QueryParams)

/-- The links strictly newer than what the caller has seen, or all. -/
def newer (chain : List HistoryLink) : List HistoryLink :=
  chain.takeWhile fun l => params.since ≠ some l.hash

def passes (l : HistoryLink) : Bool :=
  params.before.all (l.data.timestamp < ·) && params.events.all (l.data.event ∈ ·)

/-- The links that answer the query, newest first. -/
def wanted (chain : List HistoryLink) : List HistoryLink :=
  (params.newer chain).filter params.passes

/-- The walk does not come to a transition the caller has seen. -/
def NotReached (chain : List HistoryLink) : Prop :=
  (∀ l ∈ chain, params.since ≠ some l.hash) ∨ params.pageLimit < (params.wanted chain).length

end QueryParams

section Paging

variable {X : Platform} {s : ContentStore} {params : QueryParams}

theorem wanted_cons {l : HistoryLink} {chain : List HistoryLink} (h : params.since ≠ some l.hash) :
    params.wanted (l::chain) =
      if params.passes l then l::params.wanted chain else params.wanted chain := by
  unfold QueryParams.wanted QueryParams.newer
  simp only [List.takeWhile_cons,h,ne_eq,not_false_eq_true,decide_true,if_true,List.filter_cons]

theorem passes_iff {l : HistoryLink} : params.passes l = true ↔
    params.before.any (· ≤ l.data.timestamp) = false ∧
      params.events.any (l.data.event ∉ ·) = false := by
  unfold QueryParams.passes
  cases params.before <;> cases params.events <;> simp

/-- From a page on, the loop fills it with what is wanted; it is left standing at a link when one
more is wanted or when the caller has seen that link. -/
theorem scan_chain {head : Option Hash} {chain : List HistoryLink}
    (hchain : CompleteChain X s head chain) {fuel : ℕ} (hfuel : chain.length ≤ fuel)
    {page : List (Hash × Entity)} (hpage : page.length ≤ params.pageLimit) :
    ∃ q, HistoryQuery.scan X s params fuel head page = some q ∧
      q.transitions = page++((params.wanted chain).take (params.pageLimit-page.length)).map
        (fun l => (l.hash,l.entity)) ∧
      (q.hasMore = true ↔ params.pageLimit < page.length+(params.wanted chain).length ∨
        ∃ l ∈ chain, params.since = some l.hash) := by
  induction hchain generalizing fuel page with
  | done =>
    refine ⟨⟨page,none,false⟩,by cases fuel <;> rfl,by simp [QueryParams.wanted,QueryParams.newer],?_⟩
    simp [QueryScan.hasMore,QueryParams.wanted,QueryParams.newer,hpage]
  | @link h e d rest stored decoded later ih =>
    obtain ⟨n,rfl⟩ : ∃ n, fuel = n+1 := ⟨fuel-1,by simp at hfuel; omega⟩
    replace hfuel : rest.length ≤ n := by simpa using hfuel
    unfold HistoryQuery.scan
    rw [stored]
    dsimp only
    rw [decoded]
    dsimp only
    by_cases hsince : params.since = some h
    · -- the caller has seen this one
      rw [if_pos hsince]
      have hnone : params.wanted (⟨h,e,d⟩::rest) = [] := by
        simp [QueryParams.wanted,QueryParams.newer,hsince]
      refine ⟨_,rfl,by simp [hnone],?_⟩
      simp [QueryScan.hasMore,hsince]
    · rw [if_neg hsince,wanted_cons (l := ⟨h,e,d⟩) hsince]
      have hseen : (∃ l ∈ (⟨h,e,d⟩::rest : List HistoryLink), params.since = some l.hash) ↔
          ∃ l ∈ rest, params.since = some l.hash := by simp [hsince]
      rw [hseen]
      cases hpasses : params.passes ⟨h,e,d⟩ with
      | false =>
        -- one of the filters leaves it out
        have hskip : (if params.before.any (· ≤ d.timestamp) then
              HistoryQuery.scan X s params n d.previous page
            else if params.events.any (d.event ∉ ·) then
              HistoryQuery.scan X s params n d.previous page
            else if params.pageLimit ≤ page.length then some ⟨page,some h,true⟩
            else HistoryQuery.scan X s params n d.previous (page++[(h,e)])) =
              HistoryQuery.scan X s params n d.previous page := by
          have hnot := mt passes_iff.mpr (by simpa using hpasses)
          split_ifs with hbefore hevents
          · rfl
          · rfl
          · exact absurd ⟨by simpa using hbefore,by simpa using hevents⟩ hnot
          · exact absurd ⟨by simpa using hbefore,by simpa using hevents⟩ hnot
        rw [hskip]
        exact ih hfuel hpage
      | true =>
        obtain ⟨hbefore,hevents⟩ := passes_iff.mp hpasses
        rw [if_neg (by simpa using hbefore),if_neg (by simpa using hevents),if_pos rfl]
        by_cases hfull : params.pageLimit ≤ page.length
        · rw [if_pos hfull]
          refine ⟨_,rfl,by simp [Nat.sub_eq_zero_of_le hfull],?_⟩
          simp only [QueryScan.hasMore,Bool.true_or,true_iff,List.length_cons]
          left
          omega
        · rw [if_neg hfull]
          have hroom : (page++[(h,e)]).length ≤ params.pageLimit := by
            simp
            omega
          obtain ⟨q,hscan,htransitions,hmore⟩ := ih hfuel hroom
          refine ⟨q,hscan,?_,?_⟩
          · obtain ⟨k,hk⟩ : ∃ k, params.pageLimit-page.length = k+1 :=
              ⟨params.pageLimit-page.length-1,by omega⟩
            have hk' : params.pageLimit-(page++[(h,e)]).length = k := by
              simp
              omega
            rw [htransitions,hk,hk']
            simp
          · rw [hmore]
            simp only [List.length_append,List.length_cons,List.length_nil]
            constructor <;> rintro (hmany | hlast)
            · exact .inl (by omega)
            · exact .inr hlast
            · exact .inl (by omega)
            · exact .inr hlast

end Paging

/-- Over a complete chain the page is the first wanted links, whatever the fuel beyond its
length; the flag says whether more are wanted precisely when the walk does not come to a
transition the caller has seen. -/
theorem query_pages_iff (X : Platform) (H : HistoryHandler) (ctx : HandlerContext)
    (tree : NotifyingLocationIndex ContentStore) (params : QueryParams) (chain : List HistoryLink)
    (fuel : ℕ) (hparams : QueryParams.decode X ctx.params.data = .ok params)
    (hallowed : H.mayGet ctx (H.canonicalizePath params.path) = true)
    (hchain : CompleteChain X tree.world
      (tree.inner.get (headPointerPath H.localPeerId (H.canonicalizePath params.path))) chain)
    (hfuel : chain.length ≤ fuel) :
    ∃ result included, H.handleQuery X ctx tree fuel = .ok (some (.page result included)) ∧
      result.path = H.canonicalizePath params.path ∧
      result.head = chain.head?.map HistoryLink.hash ∧
      result.transitions = ((params.wanted chain).take params.pageLimit).filterMap
        (fun l => (X.fromReader l.entity.data).toOption) ∧
      included = OrderedMap.ofList (((params.wanted chain).take params.pageLimit).map
        fun l => (l.hash,l.entity)) ∧
      ((result.hasMore = true ↔ params.pageLimit < (params.wanted chain).length) ↔
        params.NotReached chain) := by
  have hreply : H.handleQuery X ctx tree fuel =
      match tree.inner.get (headPointerPath H.localPeerId (H.canonicalizePath params.path)) with
      | none => .ok (some (buildQueryReply X (H.canonicalizePath params.path) none [] false))
      | some head => .ok ((HistoryQuery.scan X tree.world params fuel (some head) []).map fun q =>
          buildQueryReply X (H.canonicalizePath params.path) (some head) q.transitions q.hasMore) := by
    unfold HistoryHandler.handleQuery
    rw [hparams]
    simp only [bind,Except.bind,hallowed,Bool.not_true]
    rfl
  have hmatter : ∀ more : Bool, (more = true ↔ params.pageLimit < (params.wanted chain).length ∨
      ∃ l ∈ chain, params.since = some l.hash) →
      ((more = true ↔ params.pageLimit < (params.wanted chain).length) ↔ params.NotReached chain) := by
    intro more hmore
    have hseen : (∀ l ∈ chain, params.since ≠ some l.hash) ↔
        ¬∃ l ∈ chain, params.since = some l.hash := by simp
    unfold QueryParams.NotReached
    rw [hmore,hseen]
    by_cases hlast : ∃ l ∈ chain, params.since = some l.hash
    · simp only [hlast,or_true,true_iff,not_true_eq_false,false_or]
    · simp only [hlast,or_false,not_false_eq_true,true_or]
  obtain ⟨q,hscan,htransitions,hmore⟩ := @scan_chain _ _ params _ _ hchain _ hfuel []
    (Nat.zero_le _)
  simp only [List.nil_append,List.length_nil,Nat.sub_zero,Nat.zero_add] at htransitions hmore
  rw [hreply]
  generalize tree.inner.get (headPointerPath H.localPeerId (H.canonicalizePath params.path)) =
    head at hchain hscan ⊢
  cases hchain with
  | done =>
    have hnone : params.wanted [] = [] := rfl
    refine ⟨_,_,rfl,rfl,rfl,by simp [hnone],by simp [hnone],?_⟩
    exact hmatter false (by simp [hnone])
  | link stored decoded later =>
    dsimp only
    rw [hscan]
    refine ⟨_,_,rfl,rfl,rfl,?_,?_,hmatter q.hasMore hmore⟩
    · rw [htransitions,List.filterMap_map]
      rfl
    · rw [htransitions]

namespace HistorySample

open Sample

def createdEntity : Entity := ⟨typeHistoryTransition,toEcf created,createdHash⟩
def updatedHash : Hash :=
  sha256Hash 0xe33802d47b6312448df1f226a3bc2b427d641f3f6c0bb2be0de7fb313b14bbd9
def updatedEntity : Entity := ⟨typeHistoryTransition,toEcf updated,updatedHash⟩

/-- One transition at a time. -/
def firstPage : Value := .map [(txt "limit",uint 1),(txt "path",txt "app/notes")]

/-- What is newer than the first transition. -/
def newsSince : Value :=
  .map [(txt "limit",uint 10),(txt "path",txt "app/notes"),(txt "since",.bytes createdHash.toBytes)]

def queryCrates : Platform := platform [created,updated,firstPage,newsSince] [] []

def asking (query : Value) (digest : ℕ) : HandlerContext :=
  ⟨none,none,entity "system/history/query-params" query digest⟩

def askFirst := asking firstPage 0x369d04b4799dd45602997e270cd9b1c227e91363ebbc0c16cad21e576e22f732
def askNews := asking newsSince 0xcbdc2d6ba8f393412ae4be2522b28426ac8395b68e0bdad8b2cc027c2c3b132e

def recorded : NotifyingLocationIndex ContentStore :=
  ⟨⟨OrderedMap.empty.insert (headPointerPath aliceId notes) updatedHash⟩,0,.empty,
    ⟨[createdEntity,updatedEntity]⟩⟩

def links : List HistoryLink :=
  [⟨updatedHash,updatedEntity,⟨"updated".toList,some two,some one,0,some createdHash⟩⟩,
    ⟨createdHash,createdEntity,⟨"created".toList,some one,none,0,none⟩⟩]

def flagOf : Except String (Option QueryReply) → Option Bool
  | .ok (some (.page result _)) => some result.hasMore
  | _ => none

/-- The recorded chain, the two queries, and the flag of the second. -/
theorem evaluated_queries :
    (recorded.inner.get (headPointerPath aliceId
        (HistoryHandler.canonicalizePath ⟨aliceId⟩ "app/notes".toList)) = some updatedHash ∧
      ∀ link ∈ links, recorded.world.get link.hash = some link.entity ∧
        decodeTransition queryCrates link.entity = some link.data) ∧
    ((QueryParams.decode queryCrates askFirst.params.data).toOption =
        some ⟨"app/notes".toList,some 1,none,none,none⟩ ∧
      (1 : ℕ) < ((⟨"app/notes".toList,some 1,none,none,none⟩ : QueryParams).wanted links).length) ∧
    (QueryParams.decode queryCrates askNews.params.data).toOption =
      some ⟨"app/notes".toList,some 10,some createdHash,none,none⟩ ∧
    flagOf (HistoryHandler.handleQuery queryCrates ⟨aliceId⟩ askNews recorded 2) = some true ∧
    ¬ (10 : ℕ) < ((⟨"app/notes".toList,some 10,some createdHash,none,none⟩ :
      QueryParams).wanted links).length := by
  decide +kernel

theorem complete : CompleteChain queryCrates recorded.world (recorded.inner.get
    (headPointerPath aliceId (HistoryHandler.canonicalizePath ⟨aliceId⟩ "app/notes".toList))) links := by
  obtain ⟨⟨hhead,hlinks⟩,-⟩ := evaluated_queries
  have hupdated := hlinks _ List.mem_cons_self
  have hcreated := hlinks _ (List.mem_cons_of_mem _ List.mem_cons_self)
  rw [hhead]
  exact .link hupdated.1 hupdated.2 (.link hcreated.1 hcreated.2 .done)

end HistorySample

open HistorySample Sample

/-- Everything newer is on the page, and there is said to be more. -/
theorem seen_transition_counts_as_more :
    ¬∀ (X : Platform) (H : HistoryHandler) (ctx : HandlerContext)
      (tree : NotifyingLocationIndex ContentStore) (params : QueryParams)
      (chain : List HistoryLink) (fuel : ℕ), QueryParams.decode X ctx.params.data = .ok params →
      H.mayGet ctx (H.canonicalizePath params.path) = true → CompleteChain X tree.world
        (tree.inner.get (headPointerPath H.localPeerId (H.canonicalizePath params.path))) chain →
      chain.length ≤ fuel →
      ∃ result included, H.handleQuery X ctx tree fuel = .ok (some (.page result included)) ∧
        (result.hasMore = true ↔ params.pageLimit < (params.wanted chain).length) := by
  intro h
  obtain ⟨-,-,hparams,hflag,hfew⟩ := evaluated_queries
  obtain ⟨result,included,hreply,hmore⟩ := h queryCrates ⟨aliceId⟩ askNews recorded _ links 2
    (toOption_eq.mp hparams) rfl complete (by decide)
  rw [hreply] at hflag
  exact hfew (hmore.mp (Option.some.inj hflag))

theorem query_pages_iff_sample : ∃ result included,
    HistoryHandler.handleQuery queryCrates ⟨aliceId⟩ askFirst recorded 2 =
      .ok (some (.page result included)) ∧ result.head = some updatedHash ∧ result.hasMore = true := by
  obtain ⟨-,⟨hparams,hmany⟩,-⟩ := evaluated_queries
  obtain ⟨result,included,hreply,-,hhead,-,-,hexact⟩ := query_pages_iff queryCrates ⟨aliceId⟩
    askFirst recorded _ links 2 (toOption_eq.mp hparams) rfl complete (by decide)
  refine ⟨result,included,hreply,hhead,?_⟩
  exact (hexact.mpr (.inl (by simp))).mpr hmany

end EntityCore
