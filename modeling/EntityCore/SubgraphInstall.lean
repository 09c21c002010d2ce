import EntityCore.ComputeEngine

/-! Installing subgraphs: the walk that finds the tree paths an expression reads, and the
dependency index as it is kept by installs, uninstalls and re-evaluations, and as a start
rebuilds it from the tree. -/
namespace EntityCore
namespace Compute

open ByteCode Ecf Strings

/-! The walk. -/

/-- What has been visited, and the tree paths that were met, in their order. -/
structure Walk where
  visited : List Hash
  paths : List Str

section Fields

variable (visit : Hash → Walk → Walk)

mutual
/-- Every byte string that reads as a hash is followed. -/
def walkHashFields : Value → Walk → Walk
  | .bytes b, w => match Hash.fromBytes b with
    | .ok hash => visit hash w
    | .error _ => w
  | .map entries, w => walkHashEntries entries w
  | .array items, w => walkHashItems items w
  | _, w => w

def walkHashItems : List Value → Walk → Walk
  | [], w => w
  | item::items, w => walkHashItems items (walkHashFields item w)

def walkHashEntries : List (Value × Value) → Walk → Walk
  | [], w => w
  | (_,v)::entries, w => walkHashEntries entries (walkHashFields v w)
end

end Fields

section Walker

variable (X : Platform) (store : ContentStore) (rootPath : Option Str)

/-- `levels` bounds how deep the graph is entered. -/
def walkRecursive : ℕ → Entity → Walk → Walk
  | 0, _, w => w
  | levels+1, entity, w =>
    if entity.contentHash ∈ w.visited then w
    else
      let w := {w with visited := entity.contentHash::w.visited}
      let follow (hash : Hash) (w : Walk) : Walk := match store.get hash with
        | some e => walkRecursive levels e w
        | none => w
      let followField (data : Value) (key : String) (w : Walk) : Walk := match dataHash data key with
        | some hash => follow hash w
        | none => w
      match decodeData X entity with
      | none => w
      | some data =>
        if Form.ofType entity.entityType = some .lookupTree then match dataStr data "path" with
          | some path => {w with paths := w.paths++[if dataBool data "relative" = some true then
              resolveRelativePath rootPath path else path]}
          | none => w
        else if Form.ofType entity.entityType = some .lookupHash then w
        else if entity.entityType = typeClosure then followField data "body" (followField data "env" w)
        else walkHashFields follow data w

/-- A level is entered with a hash that is new, and all but the first are stored. -/
def walkTreeLookups (entity : Entity) : List Str :=
  (walkRecursive X store rootPath (store.puts.length+1) entity ⟨[],[]⟩).paths

end Walker

/-! Names of subgraphs. -/

def base32Alphabet : Str := "abcdefghijklmnopqrstuvwxyz234567".toList

/-- Five bits a letter, the last ones filled up with zeros. -/
def base32Letters : List Bool → Str
  | [] => []
  | a::b::c::d::e::bits => base32Alphabet.getD (16*a.toNat+8*b.toNat+4*c.toNat+2*d.toNat+e.toNat) 'a'::
      base32Letters bits
  | a::bits => [base32Alphabet.getD (16*a.toNat+8*(bits.getD 0 false).toNat+
      4*(bits.getD 1 false).toNat+2*(bits.getD 2 false).toNat) 'a']

def base32Lower (bytes : Bytes) : Str :=
  base32Letters (bytes.flatMap fun b => (List.range 8).map fun i => b.toNat.testBit (7-i))

def deterministicId (X : Platform) (rootPath : Str) : Str := base32Lower (X.sha256 (utf8 rootPath))

def processesPath : Str := "system/compute/processes/".toList

def subgraphPathOf (X : Platform) (rootPath : Str) : Str := processesPath++deterministicId X rootPath

section Engine

variable (X : Platform) (F : Runtime) (localPeerId : Str)

/-! Registration. -/

/-- The paths that an expression hangs on, in full. -/
def dependencyPaths (store : ContentStore) (rootPath : Str) (expression : Entity) : List Str :=
  (walkTreeLookups X store (some rootPath) expression).map fun path => qualifyPath path localPeerId

def registerSubgraphDependencies (subgraphPath rootPath : Str) (expression : Entity)
    (store : ContentStore) (d : DependencyIndex) : DependencyIndex :=
  (dependencyPaths X localPeerId store rootPath expression).foldl
    (fun d path => d.add path ⟨rootPath,subgraphPath⟩) d

/-- An active subgraph whose expression is in place: its root path and the expression. -/
def activeSubgraph (w : EngineWorld) (subgraphHash : Hash) : Option (Str × Entity) := do
  let subgraph ← w.store.get subgraphHash
  if subgraph.entityType ≠ typeSubgraph then none
  let data ← decodeData X subgraph
  if (dataStr data "status").getD [] ≠ "active".toList then none
  let rootPath ← dataStr data "root_expression_path"
  let expression ← (w.index.get (qualifyPath rootPath localPeerId)).bind w.store.get
  if !isComputeExpression expression then none
  return (rootPath,expression)

def rebuildIndex (w : EngineWorld) : DependencyIndex :=
  (w.index.list ('/'::localPeerId++ "/".toList++processesPath)).foldl (fun d e =>
    match activeSubgraph X localPeerId w e.2 with
    | some (rootPath,expression) => registerSubgraphDependencies X localPeerId
        ((stripPrefix e.1 ('/'::localPeerId++ "/".toList)).getD e.1) rootPath expression w.store d
    | none => d) .empty

/-! The operations of the handler. -/

/-- What the checks of an install hand over. -/
structure InstallRequest where
  rootPath : Str
  resultPath : Str
  authorizedDataHashes : List Hash
  author : Hash
  /-- The capability that is to be stored, or the hash that is recorded without one. -/
  capability : Hash ⊕ Entity

def InstallRequest.capabilityHash (r : InstallRequest) : Hash :=
  r.capability.elim id Entity.contentHash

def InstallRequest.metadata (r : InstallRequest) (expression : Entity) : List (Value × Value) :=
  [entry "authorized_data_hashes" (.array (r.authorizedDataHashes.map hashRef)),
    entry "installation_grant" (hashRef r.capabilityHash),
    entry "installed_by" (hashRef r.author),
    entry "result_path" (.text r.resultPath),
    entry "root_expression" (hashRef expression.contentHash),
    entry "root_expression_path" (.text r.rootPath),
    entry "status" (.text "active".toList)]

/-- An install whose checks have passed; without an expression at the root path they fail. -/
def handleInstall (r : InstallRequest) (s : EngineState) : Option EngineState :=
  match (s.world.index.get (qualifyPath r.rootPath localPeerId)).bind s.world.store.get with
  | none => some s
  | some expression =>
    if !isComputeExpression expression then some s
    else do
      let w := r.capability.elim (fun _ => s.world) s.world.put
      let metadata ← (Entity.new X typeSubgraph (toEcf (.map (r.metadata expression)))).toOption
      let w := w.bind (qualifyPath (subgraphPathOf X r.rootPath) localPeerId) metadata
      return ⟨w,registerSubgraphDependencies X localPeerId (subgraphPathOf X r.rootPath) r.rootPath
        expression w.store s.dependencyIndex⟩

/-- What is not there, or is no subgraph, is not uninstalled. -/
def handleUninstall (subgraphPath : Str) (s : EngineState) : EngineState :=
  match (s.world.index.get (qualifyPath subgraphPath localPeerId)).bind s.world.store.get with
  | none => s
  | some subgraph =>
    if subgraph.entityType ≠ typeSubgraph then s
    else ⟨{ s.world with index := (s.world.index.remove (qualifyPath subgraphPath localPeerId)).2 },
      s.dependencyIndex.removeSubgraph subgraphPath⟩

/-! Runs. -/

/-- What may happen between two restarts. Others put entities, bind paths and unbind them. -/
inductive EngineStep where
  | install (request : InstallRequest)
  | uninstall (subgraphPath : Str)
  | react (nowMs cascadeDepth : ℕ) (entry : DependencyEntry)
  | put (entity : Entity)
  | bind (path : Str) (hash : Hash)
  | unbind (path : Str)

def engineStep (s : EngineState) : EngineStep → Option EngineState
  | .install r => handleInstall X localPeerId r s
  | .uninstall subgraphPath => some (handleUninstall localPeerId subgraphPath s)
  | .react nowMs cascadeDepth entry => reactTo X F localPeerId nowMs cascadeDepth s entry
  | .put entity => some { s with world := s.world.put entity }
  | .bind path hash => some { s with world := s.world.set path hash }
  | .unbind path =>
    some { s with world := { s.world with index := (s.world.index.remove path).2 } }

def engineRun (s : EngineState) (steps : List EngineStep) : Option EngineState :=
  steps.foldlM (engineStep X F localPeerId) s

variable {X F localPeerId}

end Engine

end Compute
end EntityCore
