import EntityCore.Delegation
import EntityCore.CapabilityHandler

/-! Minting on request. The handler compares what is asked for with the caller's
capability in its own frame; the dispatcher later reads that capability in its
granter's. A request widens exactly when the two readings differ. -/
namespace EntityCore

open Ecf Outcome Strings Narrowing

/-! What depends on the frame, and the part of a grant a request can ask for. -/

theorem framed_ne_never (f p : Str) : '/'::f++ '/'::p ≠ neverMatch := by
  intro h
  have hs : '/' ∈ f++ '/'::p := by simp
  have ht : f++ '/'::p = neverMatch.tail := by rw [← h]; rfl
  rw [ht] at hs
  exact absurd hs (by decide)

/-- Whether a pattern can match anything does not depend on the frame. -/
theorem canonicalize_never {p f : Str} (g : Str) (h : canonicalize p f = neverMatch) :
    canonicalize p g = neverMatch := by
  unfold canonicalize at h ⊢
  cases huri : (EntityUri.parse p).toOption.filter fun uri => uri.peerId ≠ [] with
  | some uri =>
    simp only [huri] at h ⊢
    exact h
  | none =>
    simp only [huri] at h ⊢
    split_ifs at h ⊢
    · rfl
    · rfl
    · exact h
    · exact absurd h (framed_ne_never f ['*'])
    · exact absurd h (framed_ne_never f p)

def selfMatching (l p : Str) : Bool := matchesPattern (canonicalize p l) (canonicalize p l)

/-- The part of a scope a request can ask for: includes that match something. -/
def PathScope.askable (l : Str) (scope : PathScope) : PathScope :=
  ⟨scope.includes.filter (selfMatching l),scope.excludes⟩

def GrantEntry.askable (l : Str) (c : GrantEntry) : GrantEntry :=
  { c with handlers := c.handlers.askable l, resources := c.resources.askable l }

/-- Every exclude of the grant can be inherited: it lies below itself. -/
def GrantEntry.Inheritable (l : Str) (c : GrantEntry) : Prop :=
  ∀ e ∈ c.handlers.excludes++c.resources.excludes, selfMatching l e = true

theorem admits_askable {l v : Str} {scope : PathScope}
    (h : Admits (Hits l) scope.includes scope.excludes v) :
    Admits (Hits l) (scope.askable l).includes (scope.askable l).excludes v := by
  obtain ⟨⟨p,hp,hv⟩,hex⟩ := h
  exact ⟨⟨p,List.mem_filter.mpr ⟨hp,matches_self_of_matches hv⟩,hv⟩,hex⟩

theorem scopeSubsetPath_askable {l : Str} {s : PathScope}
    (h : ∀ e ∈ s.excludes, selfMatching l e = true) :
    scopeSubsetPath (s.askable l) s l l = true := by
  rw [scopeSubsetPath_iff]
  constructor
  · intro p hp
    obtain ⟨hm,hs⟩ := List.mem_filter.mp hp
    exact ⟨p,hm,hs⟩
  · intro e he
    exact ⟨e,he,h e he⟩

theorem scopeSubsetId_refl (scope : IdScope) : scopeSubsetId scope scope = true := by
  have hself : ∀ v : Str, matchesIdPattern v v = true := by
    intro v
    rw [matchesId_iff]
    by_cases hv : v = ['*']
    · exact Or.inl hv
    · by_cases ht : "/*".toList <:+ v
      · obtain ⟨pre,rfl⟩ := ht
        exact Or.inr (Or.inl ⟨pre,['*'],rfl,rfl⟩)
      · exact Or.inr (Or.inr ⟨ht,rfl⟩)
  rw [scopeSubsetId_iff]
  exact ⟨fun p hp => ⟨p,hp,hself p⟩,fun p hp => ⟨p,hp,hself p⟩⟩

theorem fieldsKept_refl {X : Platform} (hw : ∀ v, ∃ b, X.intoWriter v = .ok b)
    (m : Option (OrderedMap Str Value)) : fieldsKept X m m = true := by
  simp only [fieldsKept,List.all_eq_true]
  rintro ⟨k,v⟩ hm
  rw [OrderedMap.mem_entries] at hm
  obtain ⟨b,hb⟩ := hw v
  simp [hm,cborBytesEqual,hb]

theorem grantSubset_askable {X : Platform} (hw : ∀ v, ∃ b, X.intoWriter v = .ok b) {l : Str}
    {c : GrantEntry} (h : c.Inheritable l) : grantSubset X (c.askable l) c l l l = true := by
  have hh := scopeSubsetPath_askable (l := l) (s := c.handlers)
    fun e he => h e (List.mem_append_left _ he)
  have hr := scopeSubsetPath_askable (l := l) (s := c.resources)
    fun e he => h e (List.mem_append_right _ he)
  simp [grantSubset,grantAxesSubset,GrantEntry.askable,hh,hr,scopeSubsetId_refl, fieldsKept_refl hw]

theorem grantAuthorizes_askable {q : Request} {l : Str} {c : GrantEntry} (hq : q.Concrete l)
    (h : grantAuthorizes q.operation q.handlerPattern q.targetPeer q.resourceTarget l l c = true) :
    grantAuthorizes q.operation q.handlerPattern q.targetPeer q.resourceTarget l l
      (c.askable l) = true := by
  simp only [grantAuthorizes,Bool.and_eq_true,GrantEntry.askable] at h ⊢
  obtain ⟨⟨⟨ho,hh⟩,hp⟩,hr⟩ := h
  refine ⟨⟨⟨ho,?_⟩,hp⟩,?_⟩
  · rw [matchesScope_iff] at hh ⊢
    exact ⟨admits_askable hh.1,hh.2⟩
  · cases hrt : q.resourceTarget with
    | none => rfl
    | some rt =>
      have ht := hq.targets
      simp only [hrt] at hr ht ⊢
      rw [checkResourceScope_concrete ht] at hr ⊢
      intro t hm
      obtain ⟨hv,ha,hn⟩ := hr t hm
      exact ⟨hv,admits_askable ha,hn⟩

theorem askable_matchable {l : Str} {c : GrantEntry} (h : c.Inheritable l) :
    unmatchableScopePattern [c.askable l] = none := by
  have hself : ∀ p : Str, selfMatching l p = true →
      canonicalize p "unused-frame-see-doc-comment".toList ≠ neverMatch := by
    intro p hp hn
    exact ne_never_of_matches hp (canonicalize_never l hn)
  simp only [unmatchableScopePattern,List.find?_eq_none,decide_eq_true_eq]
  intro p hp
  simp only [List.flatMap_cons,List.flatMap_nil,List.append_nil,List.mem_append,
    GrantEntry.askable,PathScope.askable,List.mem_filter] at hp
  rcases hp with (hp | hp) | (hp | hp)
  · exact hself p hp.2
  · exact hself p (h p (List.mem_append_left _ hp))
  · exact hself p hp.2
  · exact hself p (h p (List.mem_append_right _ hp))

/-! Requests that spell a grant, read back. -/

/-- A string-keyed map as a document. -/
def mapDoc (m : OrderedMap Str Value) : Value := .map (m.entries.map fun kv => (textVal kv.1,kv.2))

/-- A grant as a request spells it. -/
def grantDoc (g : GrantEntry) : Value :=
  .map ((g.allowances.toList.map fun a => field "allowances" (mapDoc a))++
    (g.constraints.toList.map fun c => field "constraints" (mapDoc c))++
    [field "handlers" (scopeToValue g.handlers.includes g.handlers.excludes),
      field "operations" (scopeToValue g.operations.includes g.operations.excludes)]++
    (g.peers.toList.map fun p => field "peers" (scopeToValue p.includes p.excludes))++
    [field "resources" (scopeToValue g.resources.includes g.resources.excludes)])

def requestDoc (g : GrantEntry) : Value := .map [field "grants" (.array [grantDoc g])]

theorem decodeStringKeyedMap_mapDoc (m : OrderedMap Str Value) :
    decodeStringKeyedMap (mapDoc m) = m := by
  have hh := OrderedMap.ofList_entries m
  rw [OrderedMap.ofList] at hh
  simpa [decodeStringKeyedMap,mapDoc,Value.asMap,List.foldl_map,textVal,Value.asText] using hh

theorem textItems_texts (l : List Str) : textItems (.array (l.map textVal)) = l := by
  simp [textItems,Value.asArray,List.filterMap_map,Function.comp_def,textVal,Value.asText]

theorem decodeScopeLists_scopeToValue (inc exc : List Str) :
    decodeScopeLists (scopeToValue inc exc) = .ok (inc,exc) := by
  unfold decodeScopeLists scopeToValue
  by_cases hx : exc = []
  · simp [hx,okOr,Value.asMap,scanScopeField,field,key,Value.asText,textItems_texts,bind,
      Except.bind,pure,Except.pure]
  · simp [hx,okOr,Value.asMap,scanScopeField,field,key,Value.asText,textItems_texts,bind,
      Except.bind,pure,Except.pure]

theorem decodePathScope_scopeToValue (scope : PathScope) :
    decodePathScope (scopeToValue scope.includes scope.excludes) = .ok scope := by
  simp [decodePathScope,decodeScopeLists_scopeToValue,bind,Except.bind,pure,Except.pure]

theorem decodeIdScope_scopeToValue (scope : IdScope) :
    decodeIdScope (scopeToValue scope.includes scope.excludes) = .ok scope := by
  simp [decodeIdScope,decodeScopeLists_scopeToValue,bind,Except.bind,pure,Except.pure]

theorem decodeGrantEntry_grantDoc (g : GrantEntry) : decodeGrantEntry (grantDoc g) = .ok g := by
  obtain ⟨handlers,resources,operations,peers,constraints,allowances⟩ := g
  unfold decodeGrantEntry grantDoc
  cases peers <;> cases constraints <;> cases allowances <;>
    simp [okOr,Value.asMap,foldE,scanGrantField,field,key,Value.asText,
      decodePathScope_scopeToValue,decodeIdScope_scopeToValue,decodeStringKeyedMap_mapDoc,bind,
      Except.bind,pure,Except.pure]

theorem decodeCapabilityRequest_requestDoc {X : Platform} {params : Entity} {g : GrantEntry}
    (h : X.fromReader params.data = .ok (requestDoc g)) :
    decodeCapabilityRequest X params = .ok ⟨[g],none⟩ := by
  simp [decodeCapabilityRequest,h,requestDoc,mapErr,okOr,Value.asMap,foldE,scanRequestField,field,
    key,Value.asText,Value.asArray,decodeGrantEntry_grantDoc,bind,Except.bind,pure,Except.pure]

/-! What the handler decides. -/

namespace CapabilityHandler

variable {X : Platform} {H : CapabilityHandler}

/-- `request` succeeds and `t` is the token it mints. -/
def Mints (X : Platform) (H : CapabilityHandler) (ctx : HandlerContext) (nowMs : ℕ) (s : PeerState)
    (t : CapabilityToken) : Prop :=
  (H.approveRequest X ctx nowMs s).1 = .ok t ∧ (H.handleRequest X ctx nowMs s).1.isOk = true

theorem admitRequest_caller {ctx : HandlerContext} {cap : CapabilityToken} {author : Hash}
    {req : CapabilityRequest} (h : admitRequest X ctx = .ok (cap,author,req)) :
    ctx.callerCapability = some cap := by
  simp only [admitRequest,bind_ok,okOr_ok] at h
  obtain ⟨c,hc,a,_,r,_,_,_,hrest⟩ := h
  split at hrest
  · cases hrest
  · simp only [pure_ok,Prod.mk.injEq] at hrest
    rw [hc,hrest.1]

theorem approveRequest_ok {ctx : HandlerContext} {nowMs : ℕ} {s : PeerState} {t : CapabilityToken}
    (h : (H.approveRequest X ctx nowMs s).1 = .ok t) :
    ∃ cap, ctx.callerCapability = some cap ∧ isAttenuated X t cap H.localPeerId = true ∧
      t = H.rootToken t.grants t.grantee t.createdAt t.expiresAt := by
  unfold approveRequest at h
  cases ha : admitRequest X ctx with
  | error failure => simp [ha] at h
  | ok admitted =>
    obtain ⟨cap,author,req⟩ := admitted
    simp only [ha] at h
    split_ifs at h with h₁ h₂
    obtain rfl := Except.ok.inj h
    exact ⟨cap,admitRequest_caller ha,by simpa using h₁,rfl⟩

theorem Entity.new_of_format (hf : X.defaultHashFormat = Hash.hashAlgorithmSha256 ∨
    X.defaultHashFormat = Hash.hashAlgorithmSha384) {t : Str} {d : Bytes} (ht : t ≠ [])
    (hp : t ≠ typePeer) (hd : d ≠ []) : ∃ e, Entity.new X t d = .ok e := by
  unfold Entity.new Entity.newWithFormat Hash.computeFormat
  rcases hf with hf | hf
  · simp [ht,hp,hd,hf]
  · simp [ht,hp,hd,hf,Hash.hashAlgorithmSha256,Hash.hashAlgorithmSha384]

theorem toEcf_map_ne_nil (entries : List (Value × Value)) : Ecf.toEcf (.map entries) ≠ [] := by
  simp only [Ecf.toEcf,encodeValue,encodeMap,encodeHead]
  split_ifs <;> simp

/-- With no policy entry, a caller whose grant can be inherited gets it on request. -/
theorem mints_own_grant {cap : CapabilityToken} {c : GrantEntry} (hc : c ∈ cap.grants)
    (hi : c.Inheritable H.localPeerId) (hw : ∀ v, ∃ b, X.intoWriter v = .ok b)
    (hf : X.defaultHashFormat = Hash.hashAlgorithmSha256 ∨
      X.defaultHashFormat = Hash.hashAlgorithmSha384) {p : Entity}
    (hr : X.fromReader p.data = .ok (requestDoc (c.askable H.localPeerId))) :
    Mints X H ⟨some cap,some cap.grantee,p⟩ 0 ⟨.empty,⟨.empty⟩⟩
      (H.rootToken [c.askable H.localPeerId] cap.grantee 0 cap.expiresAt) := by
  have hentry : admitRequest X ⟨some cap,some cap.grantee,p⟩ =
      .ok (cap,cap.grantee,⟨[c.askable H.localPeerId],none⟩) := by
    simp [admitRequest,okOr,decodeCapabilityRequest_requestDoc hr,mapErr,ensure,
      askable_matchable hi,bind,Except.bind,pure,Except.pure]
  have hpolicy : H.lookupPolicyEntry X cap.grantee ⟨.empty,⟨.empty⟩⟩ =
      (none,⟨.empty,⟨.empty⟩⟩) := by
    have hnone : ∀ path, readPolicyEntry X ⟨.empty,⟨.empty⟩⟩ path = none := fun path => rfl
    simp [lookupPolicyEntry,hnone,lookupPeerCanonicalBase58]
  have hexp : clampMintExpiry 0 cap.expiresAt none none = cap.expiresAt := by
    cases cap.expiresAt <;> simp [clampMintExpiry]
  have hatt : isAttenuated X (H.rootToken [c.askable H.localPeerId] cap.grantee 0 cap.expiresAt)
      cap H.localPeerId = true := by
    have hcov : grantCoveredBy X (c.askable H.localPeerId) cap.grants H.localPeerId
        H.localPeerId H.localPeerId = true := by
      simp only [grantCoveredBy,List.any_eq_true]
      exact ⟨c,hc,grantSubset_askable hw hi⟩
    cases he : cap.expiresAt <;> simp [isAttenuated,isAttenuatedInner,rootToken,hcov,he]
  have happ : H.approveRequest X ⟨some cap,some cap.grantee,p⟩ 0 ⟨.empty,⟨.empty⟩⟩ =
      (.ok (H.rootToken [c.askable H.localPeerId] cap.grantee 0 cap.expiresAt),
        ⟨.empty,⟨.empty⟩⟩) := by
    simp [approveRequest,hentry,hpolicy,hexp,hatt]
  refine ⟨by rw [happ],?_⟩
  obtain ⟨e,he⟩ := Entity.new_of_format hf (t := typeCapToken) (by decide +kernel)
    (by decide +kernel) (toEcf_map_ne_nil _)
  have he : (H.rootToken [c.askable H.localPeerId] cap.grantee 0 cap.expiresAt).toEntity X =
      .ok e := by
    rw [CapabilityToken.toEntity,CapabilityToken.toEcf,he]
    rfl
  obtain ⟨sig,hsig⟩ := Entity.new_of_format hf (t := typeSignature) (by decide +kernel)
    (by decide +kernel) (toEcf_map_ne_nil _)
  obtain ⟨grant,hg⟩ := Entity.new_of_format hf (t := typeCapGrant) (by decide +kernel)
    (by decide +kernel) (toEcf_map_ne_nil [field "token" (hashVal e.contentHash)])
  have hsig : Entity.new X typeSignature (H.signatureData e.contentHash) = .ok sig := hsig
  rw [handleRequest,happ]
  simp only [mintAndReturn]
  simp only [rootToken] at he ⊢
  simp [he,hsig,hg,HandlerResult.isOk]

end CapabilityHandler

/-! The two readings of the caller's capability. -/

/-- Whatever the capability authorizes read in the frame `l`, it authorizes read in `g`. -/
def FrameSafe (cap : CapabilityToken) (l g : Str) : Prop :=
  ∀ q : Request, q.Concrete l → cap.Authorizes q l l → cap.Authorizes q l g

/-- No request of a caller with this capability mints more than the capability,
read in its granter's frame `g`, authorizes. -/
def NeverWidens (X : Platform) (H : CapabilityHandler) (cap : CapabilityToken) (g : Str) : Prop :=
  ∀ ctx nowMs s t, ctx.callerCapability = some cap → H.Mints X ctx nowMs s t →
    ∀ q : Request, q.Concrete H.localPeerId → t.Authorizes q H.localPeerId H.localPeerId →
      cap.Authorizes q H.localPeerId g

/-- Requests widen unless the local reading of the caller's capability lies within its
granter's reading; for capabilities whose excludes can be inherited, exactly then. -/
theorem request_widens_unless_frameSafe (X : Platform) (H : CapabilityHandler)
    (cap : CapabilityToken) (g : Str) : (FrameSafe cap H.localPeerId g → NeverWidens X H cap g) ∧
    ((∀ c ∈ cap.grants, c.Inheritable H.localPeerId) → (∀ v, ∃ b, X.intoWriter v = .ok b) →
      (X.defaultHashFormat = Hash.hashAlgorithmSha256 ∨
        X.defaultHashFormat = Hash.hashAlgorithmSha384) →
      (∀ c ∈ cap.grants, ∃ b, X.fromReader b = .ok (requestDoc (c.askable H.localPeerId))) →
      NeverWidens X H cap g → FrameSafe cap H.localPeerId g) := by
  constructor
  · intro hsafe ctx nowMs s t hcaller hmint q hq ht
    obtain ⟨cap',hcap,hatt,_⟩ := CapabilityHandler.approveRequest_ok hmint.1
    obtain rfl : cap = cap' := Option.some.inj (hcaller.symm.trans hcap)
    exact hsafe q hq (authorizes_of_attenuated hq hatt ht)
  · intro hinherit hwrite hformat hread hnever q hq hauth
    obtain ⟨c,hc,hca⟩ := (authorizes_iff cap q _ _).mp hauth
    obtain ⟨b,hb⟩ := hread c hc
    have hmint := CapabilityHandler.mints_own_grant (p := ⟨[],b,Hash.zero⟩) hc
      (hinherit c hc) hwrite hformat hb
    refine hnever _ 0 _ _ rfl hmint q hq ((authorizes_iff _ q _ _).mpr ⟨_,?_,
      grantAuthorizes_askable hq hca⟩)
    exact List.mem_singleton.mpr rfl

/-! Alice grants Bob every peer's paths, Bob passes his own `app` on to Carol, and
Carol asks Alice for `app`. -/
namespace Sample

open ByteCode

def bobId : Str := "2K4YyYVWUbVppAkBNM7iQ5TBNx2nM3c3r5skxACout9hE8".toList

def wideValue := tokenValue 1 alice.contentHash bob.contentHash [grantValue ["*"] ["/*/*"] ["*"]] []
def wide := entity "system/capability/token" wideValue
  0xdc2584a743c874f430bf6d4cbc0d01bd5b94d346a1282b4c57c8db725e2ec55c

def appGrant := grantValue ["system/tree"] ["app/*"] ["get"]
def bobAppValue := tokenValue 2 bob.contentHash carol.contentHash [appGrant] [wide.contentHash]
def bobApp := entity "system/capability/token" bobAppValue
  0x02927263047b256d436e983c3b136f2cc5abbeb94878f89a0feae4e0175c395f

def wideSig := beBytes 64
  0x36abb3502c0b7f965564013302ecf80059a2b2fa4c02b1fa610e55e081acac3381499a3d4f4aba03f060e29bc08b27733a4357e1b9f2168a0be04cece035e304
def bobAppSig := beBytes 64
  0x69e3e07ec8d98f48228a79d87cd0488f55e02235ba47356b3fd34d0e62d4234677e74c63fa6b8a428d3ed712dc980b8cfc33231038c2e3cdda03d8be88bc5708
def wideSigValue := sigValue wide.contentHash alice.contentHash wideSig
def bobAppSigValue := sigValue bobApp.contentHash bob.contentHash bobAppSig

def carried : Included := OrderedMap.ofList ([alice,bob,carol,wide,bobApp,
  entity "system/signature" wideSigValue
    0xa931f03ed97ef954c18085a6feb41d286c61624d846554cc36d8ac9de435b5d2,
  entity "system/signature" bobAppSigValue
    0xe8dd936db6fe8a865ac95cb997f341fc362d4be20e5d5ec74ac6f95e16219485].map
  fun e => (e.contentHash,e))

def askValue := Value.map [(txt "grants",.array [appGrant])]
def ask := entity "system/capability/request" askValue
  0x210ed9629a31f6fc9e0c67f27b512e8ec2d01ba04babf3a3f7f67e41c5f0afa4

def mintedValue := tokenValue 20 alice.contentHash carol.contentHash [appGrant] []
def minted := entity "system/capability/token" mintedValue
  0x2ac330041bbcc59676c2ff4b59236e1524bb3620bc40ddd3bad0176c01ad6ebf
def mintedSig := beBytes 64
  0xa87c20f042bdd175800a936a57ba0a072c6a99ff037368b5959ad6d57803e552806fa8294397867b304b54d7b5b1ba9c5e3af3936a30c473b5b9353486a2a30a

def mintCrates := platform
  [peerValue aliceKey,peerValue bobKey,peerValue carolKey,wideValue,bobAppValue,wideSigValue,
    bobAppSigValue,askValue]
  [(ecfForHash typeCapToken (toEcf mintedValue),
      0x2ac330041bbcc59676c2ff4b59236e1524bb3620bc40ddd3bad0176c01ad6ebf),
    (ecfForHash typeSignature (toEcf (sigValue minted.contentHash alice.contentHash mintedSig)),
      0xf0e62c52b108a23858d34c451a6496624f2f90dd9378774c0851c3b770f22a3f),
    (ecfForHash typeCapGrant (toEcf (.map [(txt "token",.bytes minted.contentHash.toBytes)])),
      0xba0a50103b376916ee2246c04fb714ae78c8ef41486f4ba6e238ebe57de15d65)]
  [(aliceKey,wide.contentHash.toBytes,wideSig),(bobKey,bobApp.contentHash.toBytes,bobAppSig)]

def aliceMints : CapabilityHandler := ⟨aliceId,alice.contentHash,alice,"ed25519".toList,
  fun m => if m = minted.contentHash.toBytes then mintedSig else []⟩

def carolAsks (cap : CapabilityToken) : HandlerContext := ⟨some cap,some carol.contentHash,ask⟩

def peerWithout : PeerState := ⟨.empty,⟨.empty⟩⟩

def appScope : GrantEntry :=
  ⟨⟨["system/tree".toList],[]⟩,⟨["app/*".toList],[]⟩,⟨["get".toList],[]⟩,none,none,none⟩

def bobAppToken : CapabilityToken :=
  ⟨[appScope],.single bob.contentHash,carol.contentHash,some wide.contentHash,2,none,none,none⟩

def askCrates := platform [requestDoc (appScope.askable aliceId)] [] []

/-- What is minted for a capability, and what it and the minted token cover. -/
def widens (cap : CapabilityToken) : Bool :=
  decide (resolveGranterPeerId mintCrates cap.granter aliceId carried.get = some bobId) &&
  (aliceMints.handleRequest mintCrates (carolAsks cap) 20 peerWithout).1.isOk &&
  ((aliceMints.approveRequest mintCrates (carolAsks cap) 20 peerWithout).1.toOption.any
    fun t => (checkPermissionWithGrant readApp.operation readApp.handlerPattern
      readApp.targetPeer readApp.resourceTarget t aliceId aliceId).isSome) &&
  !(checkPermissionWithGrant readApp.operation readApp.handlerPattern readApp.targetPeer
    readApp.resourceTarget cap aliceId bobId).isSome

theorem evaluated_mint :
    (CapabilityToken.fromEntity mintCrates bobApp).toOption.any widens = true ∧
    verifyCapabilityChain mintCrates bobApp.contentHash carried aliceId 10 = .ok () ∧
    carried.get bobApp.contentHash = some bobApp ∧
    (checkPermissionWithGrant readApp.operation readApp.handlerPattern readApp.targetPeer
      readApp.resourceTarget bobAppToken aliceId aliceId).isSome = true ∧
    (checkPermissionWithGrant readApp.operation readApp.handlerPattern readApp.targetPeer
      readApp.resourceTarget bobAppToken aliceId bobId).isSome = false := by decide +kernel

end Sample

open Sample

/-- Carol's chain verifies, her capability covers Bob's `app`, and the token Alice mints
for her covers Alice's. -/
theorem request_widens : ¬ ∀ (X : Platform) (H : CapabilityHandler) (included : Included)
    (leafHash : Hash) (leaf : Entity) (cap t : CapabilityToken) (frame : Str)
    (chainNow nowMs : ℕ) (ctx : HandlerContext) (s : PeerState) (q : Request),
    verifyCapabilityChain X leafHash included H.localPeerId chainNow = .ok () →
    included.get leafHash = some leaf → CapabilityToken.fromEntity X leaf = .ok cap →
    resolveGranterPeerId X cap.granter H.localPeerId included.get = some frame →
    ctx.callerCapability = some cap → H.Mints X ctx nowMs s t → q.Concrete H.localPeerId →
    t.Authorizes q H.localPeerId H.localPeerId → cap.Authorizes q H.localPeerId frame := by
  intro h
  obtain ⟨hwidens,hchain,hget,-⟩ := evaluated_mint
  obtain ⟨cap,hcap,hfacts⟩ := exists_ok_of_any hwidens
  simp only [widens,Bool.and_eq_true,decide_eq_true_eq,Bool.not_eq_true'] at hfacts
  obtain ⟨⟨⟨hframe,hok⟩,happ⟩,hbad⟩ := hfacts
  obtain ⟨t,ht,hauth⟩ := exists_ok_of_any happ
  have hgood := h mintCrates aliceMints carried bobApp.contentHash bobApp cap t bobId 10 20
    (carolAsks cap) peerWithout readApp hchain hget hcap hframe rfl
    ⟨ht,hok⟩ ⟨by decide +kernel,by decide +kernel⟩ hauth
  have hgood : (checkPermissionWithGrant readApp.operation readApp.handlerPattern
    readApp.targetPeer readApp.resourceTarget cap aliceId bobId).isSome = true := hgood
  rw [hbad] at hgood
  cases hgood

theorem request_widens_unless_frameSafe_sample :
    NeverWidens askCrates aliceMints bobAppToken aliceId ∧
      ¬ NeverWidens askCrates aliceMints bobAppToken bobId := by
  refine ⟨(request_widens_unless_frameSafe askCrates aliceMints bobAppToken aliceId).1
    fun q _ hq => hq,fun hnever => ?_⟩
  obtain ⟨-,-,-,hown,hother⟩ := evaluated_mint
  have hsafe := (request_widens_unless_frameSafe askCrates aliceMints bobAppToken bobId).2
    (by intro c hc; obtain rfl := List.mem_singleton.mp hc; intro e he; cases he)
    (fun v => ⟨_,rfl⟩) (Or.inl rfl)
    (by
      intro c hc
      obtain rfl := List.mem_singleton.mp hc
      exact ⟨toEcf (requestDoc (appScope.askable aliceId)),by simp [askCrates,platform,okOr,
        aliceMints]⟩) hnever
  have hgood : (checkPermissionWithGrant readApp.operation readApp.handlerPattern
      readApp.targetPeer readApp.resourceTarget bobAppToken aliceId bobId).isSome = true :=
    hsafe readApp ⟨by decide +kernel,by decide +kernel⟩ hown
  rw [hother] at hgood
  cases hgood

end EntityCore
