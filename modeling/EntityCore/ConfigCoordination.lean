import EntityCore.RevisionOps

/-! Revision configs and the tracking configs that go with them. The config operation and
a synchronous hook both keep the tracking config of a prefix in step with the revision
config of the prefix. -/
namespace EntityCore

open Ecf Outcome Strings

/-! What a valid config is. -/

inductive ConfigViolation where
  | invalidPrefix
  | invalidExcludePattern (field : String) (pattern : Str)
  | invalidMergeOrder (value : Str)
  | oscillationDepthBelowMinimum (depth : ℕ)
  | invalidCheckoutPolicy (value : Str)
  | missingRequiredExclude (barePrefix required pattern : Str)
  deriving DecidableEq

def ConfigViolation.code : ConfigViolation → String
  | .invalidPrefix => "config/invalid-prefix"
  | .invalidExcludePattern _ _ => "config/invalid-exclude-pattern"
  | .invalidMergeOrder _ => "config/invalid-merge-order"
  | .oscillationDepthBelowMinimum _ => "config/oscillation-depth-below-minimum"
  | .invalidCheckoutPolicy _ => "config/invalid-checkout-policy"
  | .missingRequiredExclude _ _ _ => "config/missing-required-exclude"

/-- The patterns of the four forms: at most one star, alone, last after a slash or first. -/
def validExcludePattern (pattern : Str) : Bool :=
  match pattern.count '*' with
  | 0 => true
  | 1 => pattern = ['*'] || endsWith pattern ['/','*'] || startsWith pattern ['*']
  | _ => false

def requiredExcludes : List Str := ["system/revision".toList,"system/tree/root".toList,
  "system/tree/tracking-config".toList,"system/history".toList,"system/clock".toList]

def prefixEncompasses (canonical target : Str) : Bool :=
  canonical.isEmpty || target = canonical || startsWith target (canonical++['/'])

/-- A path relative to a canonical prefix. -/
def relativeTo (canonical target : Str) : Str :=
  if canonical.isEmpty then target
  else if target = canonical then []
  else (stripPrefix target (canonical++['/'])).getD target

def excludeListCovers (excludes : List Str) (canonical target : Str) : Bool :=
  let relative := relativeTo canonical target
  let subtree := if relative.isEmpty then [] else relative++['/']
  excludes.any fun pattern =>
    if pattern = ['*'] then true
    else match stripSuffix pattern ['*'] with
      | some literal => endsWith literal ['/'] && startsWith subtree literal
      | none => false

def defaultExcludePattern (canonical target : Str) : Str :=
  let relative := relativeTo canonical target
  if relative.isEmpty then ['*'] else relative++['/','*']

/-- The first rule a config breaks. -/
def validateRevisionConfig (cfg : RevisionConfig) : Option ConfigViolation :=
  if cfg.barePrefix.isEmpty then some .invalidPrefix
  else match cfg.exclude.find? (!validExcludePattern ·) with
    | some pattern => some (.invalidExcludePattern "exclude" pattern)
    | none => match cfg.excludeTypes.find? (!validExcludePattern ·) with
      | some pattern => some (.invalidExcludePattern "exclude_types" pattern)
      | none =>
        if cfg.mergeOrder ∉ ["deterministic".toList,"caller-perspective".toList] then
          some (.invalidMergeOrder cfg.mergeOrder)
        else match cfg.oscillationDepth.filter (· < 2) with
          | some depth => some (.oscillationDepthBelowMinimum depth)
          | none =>
            if cfg.checkoutUnderAutoVersion ∉ ["allow".toList,"warn".toList,"deny".toList] then
              some (.invalidCheckoutPolicy cfg.checkoutUnderAutoVersion)
            else if !cfg.autoVersion then none
            else
              let canonical := canonicalizePrefix cfg.barePrefix
              (requiredExcludes.find? fun required => prefixEncompasses canonical required &&
                !excludeListCovers cfg.exclude canonical required).map fun required =>
                  .missingRequiredExclude cfg.barePrefix required
                    (defaultExcludePattern canonical required)

/-! Where configs are. -/

def isAsciiHexdigit (c : Char) : Bool :=
  ('0' ≤ c && c ≤ '9') || ('a' ≤ c && c ≤ 'f') || ('A' ≤ c && c ≤ 'F')

def hexValue (c : Char) : ℕ :=
  if c ≤ '9' then c.toNat-48 else if c ≤ 'F' then c.toNat-55 else c.toNat-87

/-- As long as the format its first byte names. -/
def hexWidthMatchesItsFormatByte (hex : Str) : Bool :=
  match hex with
  | a::b::_ => match Hash.digestLenForFormat (UInt8.ofNat (16*hexValue a+hexValue b)) with
    | some digest => hex.length = 2+digest*2
    | none => false
  | _ => false

def revisionSubtree (localPeerId : Str) : Str := '/'::localPeerId++ "/system/revision/".toList

def isPrefixConfigPath (path revisionPrefix : Str) : Bool :=
  match (stripPrefix path revisionPrefix).bind (stripSuffix · "/config".toList) with
  | some hash => hash.all isAsciiHexdigit && hexWidthMatchesItsFormatByte hash
  | none => false

/-- The universal prefix has a segment of its own. -/
def trackingConfigPath (localPeerId canonical : Str) : Str :=
  '/'::localPeerId++ "/system/tree/tracking-config/".toList++
    (if canonical.isEmpty then "root".toList else canonical)

def typeRevisionConfig : Str := "system/revision/config".toList

section Coordination

variable (X : Platform) (localPeerId : Str)

def buildTrackingConfigEntity (canonical : Str) (enabled : Bool) : Option Entity :=
  (Entity.new X typeTrackingConfig (toEcf (.map [(.text "enabled".toList,.bool enabled),
    (.text "prefix".toList,.text (trackingPrefixField canonical))]))).toOption

/-- The tree with the content store beside it. -/
abbrev ConfigIndex : Type := NotifyingLocationIndex ContentStore

def putContent (s : ConfigIndex) (entity : Entity) : ConfigIndex :=
  { s with world := s.world.put entity }

/-- The hook's own writes are at tracking paths, which it passes over itself. -/
def unheard : Consumers ContentStore := ⟨[],fun _ s => s⟩

def writeTrackingConfig (canonical : Str) (enabled : Bool) (ctx : ExecutionContext)
    (s : ConfigIndex) : ConfigIndex :=
  match buildTrackingConfigEntity X canonical enabled with
  | none => s
  | some entity => (NotifyingLocationIndex.setImpl unheard (trackingConfigPath localPeerId canonical)
      entity.contentHash (some ctx) (putContent s entity)).state

def coordinateFromConfig (cfg : RevisionConfig) (ctx : ExecutionContext) (s : ConfigIndex) :
    ConfigIndex :=
  match validateRevisionConfig cfg with
  | some _ => s
  | none => writeTrackingConfig X localPeerId (canonicalizePrefix cfg.barePrefix) cfg.autoVersion
      ctx s

/-- A revision config by its hash; entities of other types are none. -/
def decodeConfigAt (store : ContentStore) (hash : Hash) : Option RevisionConfig := do
  let entity ← store.get hash
  if entity.entityType ≠ typeRevisionConfig then none
  else decodeRevisionConfig X entity.data

def coordinationHalt (violation : ConfigViolation) : CascadeHalt :=
  ⟨"revision/config-coordination".toList,400,violation.code,false⟩

def onConfigChange (event : TreeChangeEvent) (ctx : ExecutionContext) (s : ConfigIndex) :
    Except CascadeHalt Unit × ExecutionContext × ConfigIndex :=
  if !isPrefixConfigPath event.path (revisionSubtree localPeerId) then (.ok (),ctx,s)
  else match event.changeType with
    | .deleted => match event.previousHash.bind (decodeConfigAt X s.world) with
      | some cfg => (.ok (),ctx,
          writeTrackingConfig X localPeerId (canonicalizePrefix cfg.barePrefix) false ctx s)
      | none => (.ok (),ctx,s)
    | _ => match decodeConfigAt X s.world event.hash with
      | none => (.ok (),ctx,s)
      | some cfg => match validateRevisionConfig cfg with
        | some violation => (.error (coordinationHalt violation),ctx,s)
        | none => (.ok (),ctx,coordinateFromConfig X localPeerId cfg ctx s)

def coordinationHook : SyncTreeHook ContentStore where
  name := "revision/config-coordination".toList
  handlerPattern := "system/revision/config".toList
  onTreeChange := onConfigChange X localPeerId

def coordinated : Consumers ContentStore := ⟨[coordinationHook X localPeerId],fun _ s => s⟩

/-! The config operation. -/

structure ConfigParams where
  name : Str
  configData : Option Bytes
  expectedHash : Option Hash

inductive ConfigReply where
  | invalid (violation : ConfigViolation)
  | concurrentModification (expected : Hash) (actual : Option Hash)
  | notFound (name : Str)
  | trackingConfigWriteFailed
  | configWriteFailed
  | done (configPath : Str) (configHash previousHash : Option Hash)
      (tracking : Option (Str × String))

/-- Whether the config at a hash asks for auto-version, whatever its entity's type. -/
def wasAutoVersion (store : ContentStore) (previous : Option Hash) : Bool :=
  ((previous.bind store.get).bind fun e => decodeRevisionConfig X e.data).any (·.autoVersion)

/-- The last part of a set: the config goes in, then the tracking config out if
auto-version ends. -/
def setConfigBinding (cfg : RevisionConfig) (configHash : Hash) (configPath : Str)
    (previousHash : Option Hash) (was : Bool) (action : Option String) (ctx : ExecutionContext)
    (s : ConfigIndex) : ConfigReply × ConfigIndex :=
  let trackingPath := trackingConfigPath localPeerId (canonicalizePrefix cfg.barePrefix)
  let written := NotifyingLocationIndex.setImpl (coordinated X localPeerId) configPath configHash
    (some ctx) s
  if !written.reply.bindingCommitted then (.configWriteFailed,written.state)
  else if !cfg.autoVersion && was then
    let removed := NotifyingLocationIndex.removeImpl (coordinated X localPeerId) trackingPath
      (some ctx) written.state
    (.done configPath (some configHash) previousHash (some (trackingPath,"deleted")),removed.state)
  else (.done configPath (some configHash) previousHash (action.map fun a => (trackingPath,a)),
    written.state)

def handleConfigSet (params : ConfigParams) (ctx : ExecutionContext) (s : ConfigIndex) :
    Except HandlerError ConfigReply × ConfigIndex :=
  match params.configData with
  | none => (.error (.invalidParams "config field required for action \"set\""),s)
  | some data => match decodeRevisionConfig X data with
    | none => (.error (.invalidParams "invalid revision config entity data"),s)
    | some cfg => match validateRevisionConfig cfg with
      | some violation => (.ok (.invalid violation),s)
      | none =>
        let canonical := canonicalizePrefix cfg.barePrefix
        let configPath := revConfigPath localPeerId
          (prefixHash X (resolvePrefix cfg.barePrefix localPeerId))
        let previousHash := s.inner.get configPath
        match params.expectedHash.filter fun expected => previousHash ≠ some expected with
        | some expected => (.ok (.concurrentModification expected previousHash),s)
        | none =>
          let was := wasAutoVersion X s.world previousHash
          match Entity.new X typeRevisionConfig data with
          | .error e => (.error (.internal e.display),s)
          | .ok configEntity =>
            let stored := putContent s configEntity
            if cfg.autoVersion && !was then
              match buildTrackingConfigEntity X canonical true with
              | none => (.error (.internal "failed to build tracking-config"),stored)
              | some tracking =>
                let enabled := NotifyingLocationIndex.setImpl (coordinated X localPeerId)
                  (trackingConfigPath localPeerId canonical) tracking.contentHash (some ctx)
                  (putContent stored tracking)
                if !enabled.reply.bindingCommitted then
                  (.ok .trackingConfigWriteFailed,enabled.state)
                else
                  let r := setConfigBinding X localPeerId cfg configEntity.contentHash configPath
                    previousHash was
                    (some (if previousHash.isSome then "updated" else "created")) ctx enabled.state
                  (.ok r.1,r.2)
            else
              let r := setConfigBinding X localPeerId cfg configEntity.contentHash configPath
                previousHash was none ctx stored
              (.ok r.1,r.2)

def handleConfigDelete (params : ConfigParams) (ctx : ExecutionContext) (s : ConfigIndex) :
    Except HandlerError ConfigReply × ConfigIndex :=
  let configPath := revConfigPath localPeerId (prefixHash X (resolvePrefix params.name localPeerId))
  match s.inner.get configPath with
  | none => (.ok (.notFound params.name),s)
  | some previousHash =>
    match params.expectedHash.filter (· ≠ previousHash) with
    | some expected => (.ok (.concurrentModification expected (some previousHash)),s)
    | none =>
      let previous := (s.world.get previousHash).bind fun e => decodeRevisionConfig X e.data
      let removed := NotifyingLocationIndex.removeImpl (coordinated X localPeerId) configPath
        (some ctx) s
      match previous.filter (·.autoVersion) with
      | some cfg =>
        let trackingPath := trackingConfigPath localPeerId (canonicalizePrefix cfg.barePrefix)
        let untracked := NotifyingLocationIndex.removeImpl (coordinated X localPeerId) trackingPath
          (some ctx) removed.state
        (.ok (.done configPath none (some previousHash) (some (trackingPath,"deleted"))),
          untracked.state)
      | none => (.ok (.done configPath none (some previousHash) none),removed.state)

/-! Runs. -/

inductive ConfigStep where
  | set (params : ConfigParams) (ctx : ExecutionContext)
  | delete (params : ConfigParams) (ctx : ExecutionContext)
  | write (path : Str) (entity : Entity) (ctx : Option ExecutionContext)
  | remove (path : Str) (ctx : Option ExecutionContext)

/-- A direct write goes through the index alone. -/
def ConfigStep.run (step : ConfigStep) (s : ConfigIndex) : ConfigIndex :=
  match step with
  | .set params ctx => (handleConfigSet X localPeerId params ctx s).2
  | .delete params ctx => (handleConfigDelete X localPeerId params ctx s).2
  | .write path entity ctx => (NotifyingLocationIndex.setImpl (coordinated X localPeerId) path
      entity.contentHash ctx (putContent s entity)).state
  | .remove path ctx =>
    (NotifyingLocationIndex.removeImpl (coordinated X localPeerId) path ctx s).state

def runConfig (steps : List ConfigStep) (s : ConfigIndex) : ConfigIndex :=
  steps.foldl (fun s step => step.run X localPeerId s) s

end Coordination

end EntityCore
