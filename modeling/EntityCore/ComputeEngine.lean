import EntityCore.NativeDispatch

/-! The reactive engine: which subgraphs hang on which tree paths, and what a change of
the tree makes it do. The tree is the plain index; the events that its own writes raise
are changes of their own. -/
namespace EntityCore
namespace Compute

open Ecf Strings

def cascadeDepthComputeFreeze : ℕ := 16

/-! What subgraphs hang on. -/

structure DependencyEntry where
  expressionUri : Str
  subgraphPath : Str
  deriving DecidableEq

abbrev DependencyIndex : Type := OrderedMap Str (List DependencyEntry)

namespace DependencyIndex

def add (d : DependencyIndex) (path : Str) (entry : DependencyEntry) : DependencyIndex :=
  d.insert path ((d.get path).getD []++[entry])

def lookup (d : DependencyIndex) (path : Str) : List DependencyEntry := (d.get path).getD []

/-- The entries of a subgraph go, and with them the paths that have no others. -/
def removeSubgraph (d : DependencyIndex) (subgraphPath : Str) : DependencyIndex :=
  d.entries.foldl (fun d e =>
    let kept := e.2.filter fun entry => entry.subgraphPath ≠ subgraphPath
    if kept.isEmpty then d else d.insert e.1 kept) .empty

end DependencyIndex

/-! The state of the engine. -/

/-- The stores, with the calls that set a path of the tree, the last first. -/
structure EngineWorld where
  store : ContentStore
  index : MemoryLocationIndex
  writes : List (Str × Hash)

namespace EngineWorld

def put (w : EngineWorld) (entity : Entity) : EngineWorld := { w with store := w.store.put entity }

def set (w : EngineWorld) (path : Str) (hash : Hash) : EngineWorld :=
  { w with index := w.index.set path hash, writes := (path,hash)::w.writes }

/-- An entity goes into the store and under a path. -/
def bind (w : EngineWorld) (path : Str) (entity : Entity) : EngineWorld :=
  (w.put entity).set path entity.contentHash

@[simp] theorem bind_writes (w : EngineWorld) (path : Str) (e : Entity) :
    (w.bind path e).writes = (path,e.contentHash)::w.writes := rfl

end EngineWorld

structure EngineState where
  world : EngineWorld
  dependencyIndex : DependencyIndex

def EngineState.removeSubgraph (s : EngineState) (subgraphPath : Str) : EngineState :=
  { s with dependencyIndex := s.dependencyIndex.removeSubgraph subgraphPath }

/-- An evaluation of the engine has no handlers to dispatch to. -/
def engineHost : Host EngineWorld where
  contentGet w hash := w.store.get hash
  contentPut w entity := (some entity.contentHash,w.put entity)
  indexGet w key := w.index.get key
  indexSet w key hash := w.set key hash
  dispatchExecute := none

/-! Subgraphs. -/

/-- A field replaced, at the end. -/
def mapInsert (data : Value) (key : String) (value : Value) : Value :=
  match data with
  | .map entries => .map ((entries.filter fun kv => kv.1.asText ≠ some key.toList)++
      [(.text key.toList,value)])
  | other => other

def loadAuthorizedHashes (subgraphData : Value) : List Hash :=
  (((subgraphData.get "authorized_data_hashes".toList).bind Value.asArray).getD []).filterMap hashField

structure Budget where
  operations : ℕ
  depth : ℕ

def Budget.default : Budget := ⟨peerDefaultMaxOps,peerDefaultMaxDepth⟩

/-- The budget of the first grant with constraints for compute. -/
def reactiveBudget (grantToken : Option CapabilityToken) : Budget :=
  let limits := grantToken.bind fun token => token.grants.findSome? fun grant =>
    grant.constraints.bind fun c => c.get "system/compute".toList
  match limits with
  | none => .default
  | some compute =>
    let limit (key : String) (fallback : ℕ) :=
      ((compute.get key.toList).bind Value.asU64).getD fallback
    ⟨limit "max_compute_operations" peerDefaultMaxOps,limit "max_compute_depth" peerDefaultMaxDepth⟩

/-- Building the entity of a result is unwrapped. -/
def ComputeValue.toResultEntity (X : Platform) (expressionHash : Hash) : ComputeValue → Option Entity
  | .entity e => some e
  | .error err => err.toEntity X
  | .primitive v => (Entity.new X typeResult (toEcf (.map [
      entry "expression" (hashRef expressionHash),entry "value" v]))).toOption
  | .closure c => c.toEntity X
  | .uint u => (Entity.new X typeResult (toEcf (.map [
      entry "expression" (hashRef expressionHash),entry "value" (unsignedInteger u)]))).toOption

section Engine

variable (X : Platform) (F : Runtime) (localPeerId : Str)

/-- The data of a subgraph with its status replaced, as an entity if it builds. -/
def frozenSubgraph (data : Value) : Option Entity :=
  (Entity.new X typeSubgraph (toEcf (mapInsert data "status" (.text "frozen".toList)))).toOption

/-- The error at the result path, and the status of the subgraph if it is there to read. -/
def freezeSubgraph (subgraphPath resultPath : Str) (errorCode : String) (w : EngineWorld) :
    Option EngineWorld := do
  let errorEntity ← errorEntity X errorCode.toList
  let w := w.bind (qualifyPath resultPath localPeerId) errorEntity
  let qualifiedSubgraph := qualifyPath subgraphPath localPeerId
  match ((w.index.get qualifiedSubgraph).bind w.store.get).bind fun e =>
      (decodeData X e).bind (frozenSubgraph X) with
  | some updated => return w.bind qualifiedSubgraph updated
  | none => return w

/-- What a subgraph says of itself; a field that is not there ends its re-evaluation. -/
structure SubgraphFields where
  rootPath : Str
  resultPath : Str
  grantHash : Option Hash
  authorizedHashes : List Hash
  deriving DecidableEq

def subgraphFields (subgraph : Entity) : Option SubgraphFields := do
  if subgraph.entityType ≠ typeSubgraph then none
  let data ← decodeData X subgraph
  let rootPath ← dataStr data "root_expression_path"
  let resultPath ← dataStr data "result_path"
  return ⟨rootPath,resultPath,dataHash data "installation_grant",loadAuthorizedHashes data⟩

def grantToken (store : ContentStore) (grantHash : Option Hash) : Option CapabilityToken :=
  (grantHash.bind store.get).bind fun e => (CapabilityToken.fromEntity X e).toOption

/-- The clock is read in seconds. A grant that is recorded and not there is no grant. -/
def grantInvalid (nowMs : ℕ) (grantHash : Option Hash) (token : Option CapabilityToken) : Bool :=
  match token with
  | some token => match token.expiresAt with
    | some expiresAt => nowMs/1000 > expiresAt
    | none => false
  | none => grantHash.isSome

/-- The stored form of a result. -/
def resultEntity (expressionHash : Hash) (v : ComputeValue) : Option Entity :=
  match v with
  | .entity e => if e.entityType = typeError then materializeErrorValue X e
      else v.toResultEntity X expressionHash
  | _ => v.toResultEntity X expressionHash

/-- An error is written each time, another result if it is not there already. -/
def writeResult (resultKey : Str) (expressionHash : Hash) (v : ComputeValue) (w : EngineWorld) :
    Option EngineWorld :=
  match v with
  | .error err => (err.toEntity X).map (w.bind resultKey)
  | v => (resultEntity X expressionHash v).map fun e =>
    if w.index.get resultKey = some e.contentHash then w else w.bind resultKey e

/-- The evaluation of an expression under the authority of an installation. -/
def evaluateReactively (fields : SubgraphFields) (token : Option CapabilityToken)
    (expression : Entity) (w : EngineWorld) : Option ComputeValue × EvalState EngineWorld :=
  let budget := reactiveBudget token
  evaluate X F engineHost ⟨.empty,localPeerId,token,fields.authorizedHashes,some fields.rootPath⟩
    expression .empty ⟨budget.operations,budget.depth,.empty,.empty,none,w,[]⟩

def reEvaluate (nowMs : ℕ) (entry : DependencyEntry) (s : EngineState) : Option EngineState :=
  match s.world.index.get (qualifyPath entry.subgraphPath localPeerId) with
  | none => some (s.removeSubgraph entry.subgraphPath)
  | some subgraphHash => match (s.world.store.get subgraphHash).bind (subgraphFields X) with
    | none => some s
    | some fields =>
      let token := grantToken X s.world.store fields.grantHash
      if grantInvalid nowMs fields.grantHash token then
        (freezeSubgraph X localPeerId entry.subgraphPath fields.resultPath
          "installation_grant_invalid" s.world).map fun w => { s with world := w }
      else match s.world.index.get (qualifyPath fields.rootPath localPeerId) with
        | none => some (s.removeSubgraph entry.subgraphPath)
        | some expressionHash => match s.world.store.get expressionHash with
          | none => some s
          | some expression =>
            match evaluateReactively X F localPeerId fields token expression s.world with
            | (none,_) => none
            | (some v,after) => (writeResult X (qualifyPath fields.resultPath localPeerId)
                expression.contentHash v after.world).map fun w => { s with world := w }

/-- One subgraph that hangs on the changed path. -/
def reactTo (nowMs cascadeDepth : ℕ) (s : EngineState) (entry : DependencyEntry) :
    Option EngineState :=
  let data := ((s.world.index.get (qualifyPath entry.subgraphPath localPeerId)).bind
    s.world.store.get).bind (decodeData X)
  match data with
  | none => some s
  | some data =>
    if (dataStr data "status").getD [] = "frozen".toList then some s
    else match dataStr data "result_path" with
      | none => some s
      | some resultPath =>
        if cascadeDepth ≥ cascadeDepthComputeFreeze then
          (freezeSubgraph X localPeerId entry.subgraphPath resultPath "cascade_limit"
            s.world).map fun w => { s with world := w }
        else reEvaluate X F localPeerId nowMs entry s

def computePathPrefix : Str := '/'::localPeerId++ "/system/compute/".toList

/-- Writes below the engine's own subtree are passed over. -/
def onTreeChange (nowMs cascadeDepth : ℕ) (path : Str) (s : EngineState) : Option EngineState :=
  if startsWith path (computePathPrefix localPeerId) then some s
  else (s.dependencyIndex.lookup path).foldlM (reactTo X F localPeerId nowMs cascadeDepth) s

end Engine

end Compute
end EntityCore
