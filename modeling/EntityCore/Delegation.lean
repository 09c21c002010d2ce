import EntityCore.Chain

/-! Authority along a verified chain: every token above an authorizing leaf
authorizes the same request, each in the namespace of its own granter. -/
namespace EntityCore

open Ecf Outcome

variable {X : Platform}

/-- Both readings of a capability's data see the same granter. -/
theorem granter_eq {e : Entity} {token : CapabilityToken} {fields : CapabilityChainFields}
    (ht : CapabilityToken.fromEntity X e = .ok token)
    (hf : decodeCapabilityChainFields X e.data = .ok fields) : token.granter = fields.granter := by
  simp only [CapabilityToken.fromEntity,bind_ok,mapErr_ok,okOr_ok,pure_ok] at ht
  obtain ⟨_,_,value,hv,map,hm,acc,hacc,_,_,granter,hg,_,_,_,_,rfl⟩ := ht
  simp only [decodeCapabilityChainFields,bind_ok,mapErr_ok,okOr_ok,pure_ok] at hf
  obtain ⟨value',hv',map',hm',acc',hacc',granter',hg',_,_,rfl⟩ := hf
  obtain rfl : value = value' := Except.ok.inj (hv.symm.trans hv')
  obtain rfl : map = map' := Option.some.inj (hm.symm.trans hm')
  have hsame : acc.granter = acc'.granter := by
    refine foldE_rel (fun a b => a.granter = b.granter) _ _ ?_ map _ _ _ _ rfl hacc hacc'
    intro a b kv a' b' hab ha hb
    by_cases hk : kv.1.asText = key "granter"
    · have hne : kv.1.asText ≠ key "grants" := by rw [hk]; decide
      simp only [scanTokenField,if_neg hne,if_pos hk,bind_ok,pure_ok] at ha
      simp only [scanChainField,if_pos hk,bind_ok,mapErr_ok,pure_ok] at hb
      obtain ⟨g,hg,rfl⟩ := ha
      obtain ⟨g',hg',rfl⟩ := hb
      obtain rfl : g = g' := Except.ok.inj (hg.symm.trans hg')
      rfl
    · have ha' : a'.granter = a.granter := by
        simp only [scanTokenField,if_neg hk] at ha
        split_ifs at ha <;> simp only [bind_ok,pure_ok,Except.ok.injEq] at ha
        all_goals
          obtain ⟨_,_,_,_,rfl⟩ := ha
          rfl
      have hb' : b'.granter = b.granter := by
        simp only [scanChainField,if_neg hk] at hb
        split_ifs at hb <;> simp only [Except.ok.injEq] at hb <;> (subst hb; rfl)
      rw [ha',hb',hab]
  rw [hg,hg'] at hsame
  exact Option.some.inj hsame

/-- The token a link's entity holds and the namespace of its resource patterns. -/
structure Reads (X : Platform) (included : Included) (l : Str) (link : Link)
    (token : CapabilityToken) (frame : Str) : Prop where
  decoded : CapabilityToken.fromEntity X link.entity = .ok token
  framed : resolveGranterPeerId X token.granter l included.get = some frame

/-- A link whose fields its data decode to and whose level was verified. -/
structure Verified (X : Platform) (included : Included) (l : Str) (link : Link) : Prop where
  decoded : decodeCapabilityChainFields X link.entity.data = .ok link.fields
  level : ∃ i parent, verifyLevel X included l i link parent = .ok ()

/-- Consecutive links of an accepted chain. -/
structure Delegates (X : Platform) (included : Included) (l : Str) (link parent : Link) : Prop where
  child : Verified X included l link
  above : Verified X included l parent
  single : ∃ g, link.fields.granter = .single g
  checked : ∃ i, verifyLevel X included l i link (some parent) = .ok ()

theorem fromEntity_type {e : Entity} {p : PeerData} (h : PeerData.fromEntity X e = .ok p) :
    e.entityType = typePeer := by
  simp only [PeerData.fromEntity,seq_ok,ensure_ok,decide_eq_true_eq] at h
  exact h.1

theorem resolve_single {included : Included} {l : Str} {g : Hash} {e : Entity} {p : PeerData}
    (hg : included.get g = some e) (hp : PeerData.fromEntity X e = .ok p) :
    resolveGranterPeerId X (.single g) l included.get = p.canonicalPeerId X := by
  simp [resolveGranterPeerId,hg,fromEntity_type hp,hp,Except.toOption]

/-- The frame the walk reads a parent in is the frame the dispatch check uses. -/
theorem parentFrame_eq {included : Included} {l f : Str} {link : Link}
    (hv : Verified X included l link) (hf : parentFrame X included l link.fields.granter = .ok f) :
    resolveGranterPeerId X link.fields.granter l included.get = some f := by
  obtain ⟨i,parent,hl⟩ := hv.level
  cases hg : link.fields.granter with
  | multi m =>
    simp only [hg,parentFrame,Except.ok.injEq] at hf
    simp [resolveGranterPeerId,hf]
  | single g =>
    simp only [verifyLevel,hg,bind_ok] at hl
    obtain ⟨p,hp,_⟩ := hl
    obtain ⟨e,id,he,hpe,hid⟩ := verifySingle_ok hp
    simp only [hg,parentFrame,bind_ok,okOr_ok,mapErr_ok,pure_ok] at hf
    obtain ⟨e',he',p',hp',rfl⟩ := hf
    obtain rfl : e = e' := Option.some.inj (he.symm.trans he')
    obtain rfl : p = p' := Except.ok.inj (hpe.symm.trans hp')
    rw [resolve_single he hpe,hid]
    rfl

theorem authorizes_step {included : Included} {l : Str} {q : Request} {link parent : Link}
    (hq : q.Concrete l) (hd : Delegates X included l link parent)
    (ha : ∃ t f, Reads X included l link t f ∧ t.Authorizes q l f) :
    ∃ t f, Reads X included l parent t f ∧ t.Authorizes q l f := by
  obtain ⟨token,frame,hread,hauth⟩ := ha
  obtain ⟨g,hg⟩ := hd.single
  obtain ⟨i,hl⟩ := hd.checked
  simp only [verifyLevel,hg,bind_ok] at hl
  obtain ⟨p,hp,hdel⟩ := hl
  obtain ⟨e,id,he,hpe,hid⟩ := verifySingle_ok hp
  simp only [verifyDelegation,bind_ok,mapErr_ok] at hdel
  obtain ⟨_,_,child,hchild,pt,hpt,pf,hpf,_,hatt,_⟩ := hdel
  obtain rfl : token = child := Except.ok.inj (hread.decoded.symm.trans hchild)
  have hframe : frame = id := by
    have hh := hread.framed
    rw [granter_eq hread.decoded hd.child.decoded,hg,resolve_single he hpe,hid] at hh
    exact (Option.some.inj hh).symm
  subst hframe
  simp only [hid,Option.getD_some] at hatt
  refine ⟨pt,pf,⟨hpt,?_⟩,?_⟩
  · rw [granter_eq hpt hd.above.decoded]
    exact parentFrame_eq hd.above hpf
  · exact authorizes_of_attenuated hq ((ensure_ok _ _).mp hatt) hauth

theorem verifyLevels_verified {included : Included} {l : Str} {i : ℕ} {chain : List Link}
    (hf : ∀ link ∈ chain, decodeCapabilityChainFields X link.entity.data = .ok link.fields)
    (hl : verifyLevels X included l i chain = .ok ()) :
    ∀ link ∈ chain, Verified X included l link := by
  induction chain generalizing i with
  | nil => simp
  | cons link rest ih =>
    rw [verifyLevels_cons] at hl
    simp only [List.forall_mem_cons] at hf ⊢
    exact ⟨⟨hf.1,i,_,hl.1⟩,ih hf.2 hl.2⟩

theorem verifyLevels_delegates {included : Included} {l : Str} {i : ℕ} {chain : List Link}
    (hf : ∀ link ∈ chain, decodeCapabilityChainFields X link.entity.data = .ok link.fields)
    (hm : checkMultiPositions chain = .ok ()) (hl : verifyLevels X included l i chain = .ok ()) :
    chain.IsChain (Delegates X included l) := by
  induction chain generalizing i with
  | nil => exact .nil
  | cons link rest ih =>
    have hv := verifyLevels_verified hf hl
    obtain ⟨hroot,hm'⟩ := checkMultiPositions_cons hm
    rw [verifyLevels_cons] at hl
    simp only [List.forall_mem_cons] at hf
    have hrest := ih hf.2 hm' hl.2
    cases rest with
    | nil => exact .singleton link
    | cons parent rest =>
      refine .cons_cons ⟨hv link (by simp),hv parent (by simp),?_,i,hl.1⟩ hrest
      cases hg : link.fields.granter with
      | single g => exact ⟨g,rfl⟩
      | multi m => exact absurd (hroot m hg) (by simp)

/-- The last link was granted by the local peer. -/
theorem verifyLevels_root {included : Included} {l : Str} {i : ℕ} {chain : List Link}
    (hl : verifyLevels X included l i chain = .ok ()) (link : Link)
    (hlast : chain.getLast? = some link) :
    resolveGranterPeerId X link.fields.granter l included.get = some l := by
  induction chain generalizing i with
  | nil => simp at hlast
  | cons first rest ih =>
    rw [verifyLevels_cons] at hl
    cases rest with
    | cons second rest => exact ih hl.2 (by simpa using hlast)
    | nil =>
      obtain rfl : first = link := by simpa using hlast
      have hroot := hl.1
      simp only [verifyLevel,List.head?_nil] at hroot
      cases hg : first.fields.granter with
      | multi m => rfl
      | single g =>
        simp only [hg,bind_ok,ensure_ok,decide_eq_true_eq] at hroot
        obtain ⟨p,hp,hlocal⟩ := hroot
        obtain ⟨e,id,he,hpe,_⟩ := verifySingle_ok hp
        rw [resolve_single he hpe,hlocal]

/-- Authority never grows down a delegation chain. -/
theorem delegation_never_amplifies (X : Platform) (included : Included) (capabilityHash : Hash)
    (localPeerId : Str) (nowMs : ℕ) (q : Request) (leaf : Entity) (token : CapabilityToken)
    (frame : Str)
    (hacc : verifyCapabilityChain X capabilityHash included localPeerId nowMs = .ok ())
    (hleaf : included.get capabilityHash = some leaf)
    (htoken : CapabilityToken.fromEntity X leaf = .ok token)
    (hframe : resolveGranterPeerId X token.granter localPeerId included.get = some frame)
    (hq : q.Concrete localPeerId) (hauth : token.Authorizes q localPeerId frame) :
    ∃ chain, collectAuthorityChain X capabilityHash included.get = .ok chain ∧
      (∀ link ∈ chain, ∃ t f, Reads X included localPeerId link t f ∧
        t.Authorizes q localPeerId f) ∧
      ∃ root ∈ chain.getLast?, ∃ t, Reads X included localPeerId root t localPeerId ∧
        t.Authorizes q localPeerId localPeerId := by
  obtain ⟨_,chain,hwalk,_,_,_,_,hm,hl⟩ := verifyCapabilityChain_ok.mp hacc
  obtain ⟨⟨first,rest,hcons,hfirst⟩,hf⟩ := collectFrom_links hwalk
  have hall : ∀ link ∈ chain, ∃ t f, Reads X included localPeerId link t f ∧
      t.Authorizes q localPeerId f := by
    refine (verifyLevels_delegates hf hm hl).induction _ chain
      (fun _ _ hd => authorizes_step hq hd) fun hne => ?_
    have he : leaf = first.entity := Option.some.inj (hleaf.symm.trans hfirst)
    subst he
    exact ⟨token,frame,by simp only [hcons,List.head_cons]; exact ⟨htoken,hframe⟩,hauth⟩
  refine ⟨chain,hwalk,hall,?_⟩
  obtain ⟨root,hroot⟩ : ∃ root, chain.getLast? = some root := by
    rw [hcons]; exact ⟨_,List.getLast?_eq_getLast_of_ne_nil (by simp)⟩
  obtain ⟨t,f,hr,ha⟩ := hall root (List.mem_of_getLast? hroot)
  have hlocal : f = localPeerId := by
    have hh := hr.framed
    rw [granter_eq hr.decoded (hf root (List.mem_of_getLast? hroot)),
      verifyLevels_root hl root hroot] at hh
    exact (Option.some.inj hh).symm
  subst hlocal
  exact ⟨root,hroot,t,hr,ha⟩

/-! A chain of two links: Alice, the local peer, grants Bob everything she has, and
Bob passes reading below `app` on to Carol. -/
namespace Sample

open ByteCode

def txt (s : String) : Value := .text s.toList
instance instNeZeroWord : NeZero (2^63) := ⟨by decide⟩

def uint (n : Fin (2^63)) : Value := .integer ⟨n,by have := n.isLt; omega⟩
def texts (l : List String) : Value := .array (l.map txt)

/-- Crates that know a few documents, digests and signatures. -/
def platform (documents : List Value) (digests : List (Bytes × ℕ))
    (signatures : List (Bytes × Bytes × Bytes)) : Platform where
  fromReader b := okOr (documents.find? fun v => toEcf v = b) "unknown document"
  intoWriter v := .ok (toEcf v)
  sha256 b := beBytes 32 (((digests.find? fun d => d.1 = b).map Prod.snd).getD 0)
  sha384 _ := beBytes 48 0
  sha256_length _ := beBytes_length _ _
  sha384_length _ := beBytes_length _ _
  ed25519Verify k m s := (k,m,s) ∈ signatures
  ed448Verify _ _ _ := false
  defaultHashFormat := 0

def sha256Hash (digest : ℕ) : Hash := ⟨0,beBytes 32 digest,by rw [beBytes_length]; rfl⟩

def entity (type : String) (v : Value) (digest : ℕ) : Entity :=
  ⟨type.toList,toEcf v,sha256Hash digest⟩

def peerValue (publicKey : Bytes) : Value :=
  .map [(txt "key_type",txt "ed25519"),(txt "public_key",.bytes publicKey)]

def sigValue (target signer : Hash) (signature : Bytes) : Value :=
  .map [(txt "algorithm",txt "ed25519"),(txt "signature",.bytes signature),
    (txt "signer",.bytes signer.toBytes),(txt "target",.bytes target.toBytes)]

def grantValue (handlers resources operations : List String) : Value :=
  .map [(txt "handlers",.map [(txt "include",texts handlers)]),
    (txt "operations",.map [(txt "include",texts operations)]),
    (txt "resources",.map [(txt "include",texts resources)])]

def tokenValue (createdAt : Fin (2^63)) (granter grantee : Hash) (grants : List Value)
    (parent : List Hash) : Value :=
  .map ([(txt "created_at",uint createdAt),(txt "grantee",.bytes grantee.toBytes),
    (txt "granter",.bytes granter.toBytes),(txt "grants",.array grants)]++
    parent.map fun p => (txt "parent",.bytes p.toBytes))

def aliceKey := beBytes 32 0xfa99a2253e31a5331daffb995bb0674e4468c0f5807b7f3ad62f4edf997938cd
def bobKey := beBytes 32 0x0b7ff875c8cb3f7c20f0cd290330c31eb2b815e48a41dc070b1f4bc18f6b8e89
def carolKey := beBytes 32 0xe85885381e8b70e2b4aa8605a5fa14dc994a94b5d096cc2166bbcdc27b0bbced

def aliceId : Str := "2KLeKgPNCREZfM5XY9MPVcZA61Xz8d8e7wb5LCaCf3Hz68".toList

theorem aliceId_isPeerId : EntityUri.isPeerId aliceId = true := by
  decide +kernel

def alice := entity "system/peer" (peerValue aliceKey)
  0xe4340f44218088e53b25904c9032e240effbaeb5aed2be9c71ba90903770c2ea
def bob := entity "system/peer" (peerValue bobKey)
  0x57c37ed017f17531fa2cda9700c88b6ee58dee59e90817c5d0be0ddcae72907b
def carol := entity "system/peer" (peerValue carolKey)
  0x96b186711e86da61e415b41cf8f7c485d30e89bf27e1f841f85dbbbf88325071

def rootValue := tokenValue 1 alice.contentHash bob.contentHash [grantValue ["*"] ["*"] ["*"]] []
def root := entity "system/capability/token" rootValue
  0xbdda300eb9790dbe07c8c3cda4a4c2df8b44ba86f0b4974c0c59efeab0e886fa

def leafValue := tokenValue 2 bob.contentHash carol.contentHash [grantValue ["system/tree"]
  ["/2KLeKgPNCREZfM5XY9MPVcZA61Xz8d8e7wb5LCaCf3Hz68/app/*"] ["get"]] [root.contentHash]
def leaf := entity "system/capability/token" leafValue
  0x80db7a1f4d2c3306a5e3bbda3dc9b1f2930b71a5ca50a80ce9ab2ce126096c23

def rootSig := beBytes 64
  0x5248275b4b1b273b06d41b8eb2779a43f07f6575352543265df228421d49a0f7f66e7b77fc17899707a636dda87ddc410800690637d85c0de4dbc8ee9eb20201
def leafSig := beBytes 64
  0x98235ba87ce4040cba364dd7d38c15361e16692f2757c5937eaec3c86642899624efed677fdc4d3bfa45038fb265a022f6c6f34e137b269d5d75ab2d016bde0d

def rootSigValue := sigValue root.contentHash alice.contentHash rootSig
def leafSigValue := sigValue leaf.contentHash bob.contentHash leafSig
def rootSigEntity := entity "system/signature" rootSigValue
  0xefe77f6de975e0325e746f59e595ed6d6da89c015dcedaac3707dff3de2de88c
def leafSigEntity := entity "system/signature" leafSigValue
  0x22a6c1ff047bbb2c54dc5d499681438a864fc2bdf1aa76a7e5ab99b278540994

def documents : List Value := [peerValue aliceKey,peerValue bobKey,peerValue carolKey,rootValue,
  leafValue,rootSigValue,leafSigValue]

def signatures : List (Bytes × Bytes × Bytes) :=
  [(aliceKey,root.contentHash.toBytes,rootSig),(bobKey,leaf.contentHash.toBytes,leafSig)]

def included : Included := OrderedMap.ofList
  ([alice,bob,carol,root,leaf,rootSigEntity,leafSigEntity].map fun e => (e.contentHash,e))

def readApp : Request := ⟨"get".toList,"system/tree".toList,aliceId,
  some ⟨["app/notes".toList],[]⟩⟩

/-- The namespace of bob, who granted the leaf. -/
def bobFrame : Str := "2K4YyYVWUbVppAkBNM7iQ5TBNx2nM3c3r5skxACout9hE8".toList

/-- The chain is accepted, and its leaf authorizes the request in the namespace of bob. -/
theorem evaluated_delegation :
    (CapabilityToken.fromEntity (platform documents [] signatures) leaf).toOption.any (fun t =>
      decide (resolveGranterPeerId (platform documents [] signatures) t.granter aliceId
        included.get = some bobFrame) &&
      (checkPermissionWithGrant readApp.operation readApp.handlerPattern readApp.targetPeer
        readApp.resourceTarget t aliceId bobFrame).isSome) = true ∧
    verifyCapabilityChain (platform documents [] signatures) leaf.contentHash included aliceId 10 =
      .ok () ∧
    included.get leaf.contentHash = some leaf := by decide +kernel

end Sample

open Sample in
theorem delegation_never_amplifies_sample : ∃ chain,
    collectAuthorityChain (platform documents [] signatures) leaf.contentHash included.get =
      .ok chain ∧ ∃ top ∈ chain.getLast?, ∃ t,
        Reads (platform documents [] signatures) included aliceId top t aliceId ∧
        t.Authorizes readApp aliceId aliceId := by
  obtain ⟨hany,haccepted,hleaf⟩ := evaluated_delegation
  obtain ⟨token,htoken,hauth⟩ := exists_ok_of_any hany
  rw [Bool.and_eq_true,decide_eq_true_eq] at hauth
  obtain ⟨chain,hc,_,hroot⟩ := delegation_never_amplifies (platform documents [] signatures)
    included leaf.contentHash aliceId 10 readApp leaf token _ haccepted hleaf htoken hauth.1
    ⟨by decide +kernel,by decide +kernel⟩ hauth.2
  exact ⟨chain,hc,hroot⟩

end EntityCore
