import EntityCore.Capability

/-! The wire form of capability tokens. Every decoder is one pass over a map's
entries in which a later entry for a field replaces an earlier one. -/
namespace EntityCore

open Ecf Outcome

def typeCapToken : Str := "system/capability/token".toList

def key (name : String) : Option Str := some name.toList

def CapabilityError.display : CapabilityError → String
  | .denied m => "capability denied: "++m
  | .invalid m => "invalid capability: "++m
  | .delegationError m => "delegation error: "++m
  | .entityError m => "entity error: "++m
  | .expired => "expired capability"

def hashOrInvalid (b : Bytes) : Except CapabilityError Hash :=
  mapErr (fun e => .invalid e.display) (Hash.fromBytes b)

/-! Decoding. -/

def decodeSigner (item : Value) : Except CapabilityError Hash := do
  let bytes ← okOr item.asBytes (.invalid "multi-granter signer entries must be byte strings")
  hashOrInvalid bytes

structure MultiFields where
  signers : Option (List Hash)
  threshold : Option ℕ

def scanMultiField (acc : MultiFields) (kv : Value × Value) : Except CapabilityError MultiFields :=
  if kv.1.asText = key "signers" then do
    let arr ← okOr kv.2.asArray (.invalid "multi-granter signers must be an array")
    return { acc with signers := some (← arr.mapM decodeSigner) }
  else if kv.1.asText = key "threshold" then .ok { acc with threshold := kv.2.asU64 }
  else .ok acc

/-- Bytes are one granter, a map is several; tags are refused. -/
def decodeGranter (value : Value) : Except CapabilityError Granter :=
  match value with
  | .tag _ _ =>
    .error (.invalid "granter MUST NOT be CBOR-tagged (ENTITY-CBOR-ENCODING.md §11)")
  | .bytes b => do return .single (← hashOrInvalid b)
  | .map entries => do
    let acc ← foldE scanMultiField ⟨none,none⟩ entries
    let signers ← okOr acc.signers (.invalid "multi-granter missing signers")
    let threshold ← okOr acc.threshold (.invalid "multi-granter missing threshold")
    return .multi ⟨signers,threshold⟩
  | _ => .error (.invalid "granter must be a byte string (single-sig) or map (multi-sig)")

/-- The text members of an array; everything else in it is skipped. -/
def textItems (v : Value) : List Str := (v.asArray.getD []).filterMap Value.asText

def scanScopeField (acc : List Str × List Str) (kv : Value × Value) : List Str × List Str :=
  if kv.1.asText = key "include" then (acc.1++textItems kv.2,acc.2)
  else if kv.1.asText = key "exclude" then (acc.1,acc.2++textItems kv.2)
  else acc

def decodeScopeLists (value : Value) : Except CapabilityError (List Str × List Str) := do
  let map ← okOr value.asMap (.invalid "scope must be a map")
  return map.foldl scanScopeField ([],[])

def decodePathScope (value : Value) : Except CapabilityError PathScope := do
  let (includes,excludes) ← decodeScopeLists value
  return ⟨includes,excludes⟩

def decodeIdScope (value : Value) : Except CapabilityError IdScope := do
  let (includes,excludes) ← decodeScopeLists value
  return ⟨includes,excludes⟩

def decodeStringKeyedMap (value : Value) : OrderedMap Str Value :=
  (value.asMap.getD []).foldl (fun result kv => match kv.1.asText with
    | some k => result.insert k kv.2
    | none => result) OrderedMap.empty

structure GrantFields where
  handlers : Option PathScope
  resources : Option PathScope
  operations : Option IdScope
  peers : Option IdScope
  constraints : Option (OrderedMap Str Value)
  allowances : Option (OrderedMap Str Value)

def scanGrantField (acc : GrantFields) (kv : Value × Value) : Except CapabilityError GrantFields :=
  if kv.1.asText = key "handlers" then do
    return { acc with handlers := some (← decodePathScope kv.2) }
  else if kv.1.asText = key "resources" then do
    return { acc with resources := some (← decodePathScope kv.2) }
  else if kv.1.asText = key "operations" then do
    return { acc with operations := some (← decodeIdScope kv.2) }
  else if kv.1.asText = key "peers" then do
    return { acc with peers := some (← decodeIdScope kv.2) }
  else if kv.1.asText = key "constraints" then
    .ok { acc with constraints := some (decodeStringKeyedMap kv.2) }
  else if kv.1.asText = key "allowances" then
    .ok { acc with allowances := some (decodeStringKeyedMap kv.2) }
  else .ok acc

def decodeGrantEntry (value : Value) : Except CapabilityError GrantEntry := do
  let map ← okOr value.asMap (.invalid "grant entry must be a map")
  let acc ← foldE scanGrantField ⟨none,none,none,none,none,none⟩ map
  let handlers ← okOr acc.handlers (.invalid "missing handlers in grant")
  let resources ← okOr acc.resources (.invalid "missing resources in grant")
  let operations ← okOr acc.operations (.invalid "missing operations in grant")
  return ⟨handlers,resources,operations,acc.peers,acc.constraints,acc.allowances⟩

def scanCaveatField (acc : DelegationCaveats) (kv : Value × Value) : DelegationCaveats :=
  if kv.1.asText = key "no_delegation" then { acc with noDelegation := kv.2.asBool }
  else if kv.1.asText = key "max_delegation_depth" then
    { acc with maxDelegationDepth := kv.2.asU64 }
  else if kv.1.asText = key "max_delegation_ttl" then { acc with maxDelegationTtl := kv.2.asU64 }
  else acc

def decodeDelegationCaveats (value : Value) : Except CapabilityError DelegationCaveats := do
  let map ← okOr value.asMap (.invalid "delegation_caveats must be a map")
  return map.foldl scanCaveatField ⟨none,none,none⟩

/-- A time that does not fit a machine word is malformed, not absent. -/
def decodeTemporalField (v : Value) (field : String) : Except CapabilityError (Option ℕ) :=
  match v with
  | .null => .ok none
  | .integer i =>
    if 0 ≤ i.val ∧ i.val < 2^64 then .ok (some i.val.toNat)
    else .error (.invalid (field++ " does not fit primitive/uint — an unrepresentable temporal "++
      "value MUST be absent on the wire, never carried at arbitrary precision, wrapped, or "++
      "saturated"))
  | _ => .error (.invalid (field++ " must be an integer (primitive/uint)"))

structure TokenFields where
  grants : Option (List GrantEntry)
  granter : Option Granter
  grantee : Option Hash
  parent : Option Hash
  createdAt : Option ℕ
  expiresAt : Option ℕ
  notBefore : Option ℕ
  delegationCaveats : Option DelegationCaveats

/-- Bytes must be a hash; any other value leaves the field as it was. -/
def tokenHashField (v : Value) (old : Option Hash) : Except CapabilityError (Option Hash) :=
  match v.asBytes with
  | some b => do return some (← hashOrInvalid b)
  | none => .ok old

def scanTokenField (acc : TokenFields) (kv : Value × Value) : Except CapabilityError TokenFields :=
  if kv.1.asText = key "grants" then do
    let arr ← okOr kv.2.asArray (.invalid "grants must be an array")
    return { acc with grants := some (← arr.mapM decodeGrantEntry) }
  else if kv.1.asText = key "granter" then do
    return { acc with granter := some (← decodeGranter kv.2) }
  else if kv.1.asText = key "grantee" then do
    return { acc with grantee := ← tokenHashField kv.2 acc.grantee }
  else if kv.1.asText = key "parent" then do
    return { acc with parent := ← tokenHashField kv.2 acc.parent }
  else if kv.1.asText = key "created_at" then do
    return { acc with createdAt := ← decodeTemporalField kv.2 "created_at" }
  else if kv.1.asText = key "expires_at" then do
    return { acc with expiresAt := ← decodeTemporalField kv.2 "expires_at" }
  else if kv.1.asText = key "not_before" then do
    return { acc with notBefore := ← decodeTemporalField kv.2 "not_before" }
  else if kv.1.asText = key "delegation_caveats" then do
    return { acc with delegationCaveats := some (← decodeDelegationCaveats kv.2) }
  else .ok acc

def CapabilityToken.fromEntity (X : Platform) (entity : Entity) :
    Except CapabilityError CapabilityToken := do
  ensure (entity.entityType = typeCapToken)
    (.invalid ("expected system/capability/token, got "++String.ofList entity.entityType))
  let value ← mapErr CapabilityError.invalid (X.fromReader entity.data)
  let map ← okOr value.asMap (.invalid "capability data must be a map")
  let acc ← foldE scanTokenField ⟨none,none,none,none,none,none,none,none⟩ map
  let grants ← okOr acc.grants (.invalid "missing grants")
  let granter ← okOr acc.granter (.invalid "missing granter")
  let grantee ← okOr acc.grantee (.invalid "missing grantee")
  let createdAt ← okOr acc.createdAt (.invalid "missing created_at")
  return ⟨grants,granter,grantee,acc.parent,createdAt,acc.expiresAt,acc.notBefore,
    acc.delegationCaveats⟩

/-! Encoding. -/

def textVal (s : Str) : Value := .text s

def field (name : String) (v : Value) : Value × Value := (.text name.toList,v)

/-- An unsigned machine word. -/
def uinteger (n : ℕ) : Value := .integer ⟨(n%2^64 : ℕ),by omega⟩

theorem signedWord_bounds (n : ℤ) : -(2:ℤ)^64 ≤ n.bmod (2^64) ∧ n.bmod (2^64) < 2^64 := by
  have h₁ := Int.le_bmod (x := n) (m := 2^64) (by norm_num)
  have h₂ := Int.bmod_lt (x := n) (m := 2^64) (by norm_num)
  norm_num at h₁ h₂
  constructor <;> norm_num <;> omega

/-- Read as a signed machine word, as a cast does. -/
def integerI64 (n : ℤ) : Value := .integer ⟨n.bmod (2^64),signedWord_bounds n⟩

def hashVal (h : Hash) : Value := .bytes h.toBytes

mutual
/-- Integers pass through a signed machine word; tags are dropped. -/
def ciboriumToEcf : Value → Value
  | .null => .null
  | .bool b => .bool b
  | .integer i => integerI64 i.val
  | .text s => .text s
  | .bytes b => .bytes b
  | .array items => .array (ciboriumItems items)
  | .map entries => .map (ciboriumEntries entries)
  | .float f => .float f
  | .tag _ _ => .null

def ciboriumItems : List Value → List Value
  | [] => []
  | v::vs => ciboriumToEcf v::ciboriumItems vs

def ciboriumEntries : List (Value × Value) → List (Value × Value)
  | [] => []
  | (k,v)::r => (ciboriumToEcf k,ciboriumToEcf v)::ciboriumEntries r
end

def stringMapToEcf (map : OrderedMap Str Value) : Value :=
  .map (map.entries.map fun kv => (textVal kv.1,ciboriumToEcf kv.2))

def scopeToValue (includes excludes : List Str) : Value :=
  .map ((if excludes = [] then [] else [field "exclude" (.array (excludes.map textVal))])++
    [field "include" (.array (includes.map textVal))])

def encodeGrantEntry (g : GrantEntry) : Value :=
  .map ((g.allowances.toList.map fun a => field "allowances" (stringMapToEcf a))++
    (g.constraints.toList.map fun c => field "constraints" (stringMapToEcf c))++
    [field "handlers" (scopeToValue g.handlers.includes g.handlers.excludes),
      field "operations" (scopeToValue g.operations.includes g.operations.excludes)]++
    (g.peers.toList.map fun p => field "peers" (scopeToValue p.includes p.excludes))++
    [field "resources" (scopeToValue g.resources.includes g.resources.excludes)])

def encodeGranter : Granter → Value
  | .single h => hashVal h
  | .multi m => .map [field "signers" (.array (m.signers.map hashVal)),
      field "threshold" (integerI64 m.threshold)]

def DelegationCaveats.toValue (dc : DelegationCaveats) : Value :=
  .map ((dc.maxDelegationDepth.toList.map fun d => field "max_delegation_depth" (integerI64 d))++
    (dc.maxDelegationTtl.toList.map fun t => field "max_delegation_ttl" (integerI64 t))++
    (dc.noDelegation.toList.map fun nd => field "no_delegation" (.bool nd)))

def CapabilityToken.toEcf (t : CapabilityToken) : Bytes :=
  Ecf.toEcf (.map ([field "created_at" (uinteger t.createdAt)]++
    (t.delegationCaveats.toList.map fun dc => field "delegation_caveats" dc.toValue)++
    (t.expiresAt.toList.map fun e => field "expires_at" (uinteger e))++
    [field "grantee" (hashVal t.grantee),field "granter" (encodeGranter t.granter),
      field "grants" (.array (t.grants.map encodeGrantEntry))]++
    (t.notBefore.toList.map fun nb => field "not_before" (uinteger nb))++
    (t.parent.toList.map fun p => field "parent" (hashVal p))))

def EntityError.display : EntityError → String
  | .invalidType m => "invalid entity type: "++m
  | .hashMismatch e a =>
    "hash mismatch: expected "++HashError.displayHash e++ ", got "++HashError.displayHash a
  | .missingField f => "missing required field: "++f
  | .invalidUri m => "invalid URI: "++m

def CapabilityToken.toEntity (X : Platform) (t : CapabilityToken) : Except CapabilityError Entity :=
  mapErr (fun e => CapabilityError.entityError e.display) (Entity.new X typeCapToken t.toEcf)

end EntityCore
