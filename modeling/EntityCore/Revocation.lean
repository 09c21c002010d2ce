import EntityCore.Delegation
import EntityCore.Verify
import EntityCore.CapabilityHandler

/-! Revocation across the two crates that implement it: the handler marks the token
it is given, the verifier looks for a mark on the root of the chain it walks. -/
namespace EntityCore

open ByteCode Strings

/-- How the connection resolves the links of a chain: the store first, then the envelope. -/
def PeerState.resolve (s : PeerState) (included : Included) (h : Hash) : Option Entity :=
  (s.contentStore.get h).or (included.get h)

/-- The revocation check as the connection runs it against the peer's own state. -/
def PeerState.revoked (X : Platform) (s : PeerState) (localPeerId : Str) (included : Included)
    (leafHash : Hash) : Bool :=
  isRevoked X leafHash localPeerId (s.resolve included) s.locationIndex.get
    fun h => capabilityPathForScan h localPeerId s.locationIndex.list

def PeerState.verifyRequest (X : Platform) (s : PeerState) (localPeerId : Str)
    (included : Included) (env : Envelope) (nowMs chainNowMs : ℕ) :
    Except ProtocolError VerifiedRequest :=
  verifyRequestWithCtx X env ⟨localPeerId,true⟩ nowMs chainNowMs (s.resolve included)
    s.locationIndex.get fun h => capabilityPathForScan h localPeerId s.locationIndex.list

def PeerState.marked (s : PeerState) (localPeerId : Str) (h : Hash) : Bool :=
  (s.locationIndex.get (revocationMarkerPath localPeerId h)).isSome

/-! What the verifier reads. -/

theorem revoked_iff {X : Platform} {s : PeerState} {included : Included} {leafHash : Hash}
    {chain : List Link} {root : Link}
    (hwalk : collectAuthorityChain X leafHash (s.resolve included) = .ok chain)
    (hroot : chain.getLast? = some root) (l : Str) :
    s.revoked X l included leafHash = s.marked l root.entity.contentHash := by
  simp only [PeerState.revoked,isRevoked,hwalk,hroot,PeerState.marked]
  -- a scanned path is bound to what was scanned for, so the path check never fires
  cases hp : capabilityPathForScan root.entity.contentHash l s.locationIndex.list with
  | none => simp
  | some p => simp [(MemoryLocationIndex.find_list hp).1]

/-! What the handler writes. -/

namespace CapabilityHandler

variable {X : Platform} {H : CapabilityHandler}

theorem revocationPath_eq (h : Hash) :
    H.revocationPath h = revocationMarkerPath H.localPeerId h := by
  rw [revocationPath,revocationMarkerPath,hexOf_eq_toHex]

theorem revocationMarkerPath_inj {l : Str} {g h : Hash}
    (he : revocationMarkerPath l g = revocationMarkerPath l h) : g = h := by
  unfold revocationMarkerPath at he
  exact Hash.toHex_inj (List.append_cancel_left he)

theorem hexStr_plain (b : Bytes) : ∀ c ∈ Hash.hexStr b, isControl c = false ∧ c ≠ '.' ∧ c ≠ '/' := by
  have hdigit : ∀ n : Fin 16, isControl (Hash.hexDigit n) = false ∧ Hash.hexDigit n ≠ '.' ∧
      Hash.hexDigit n ≠ '/' := by decide
  intro c hc
  simp only [Hash.hexStr,List.mem_flatMap,List.mem_cons,List.not_mem_nil,or_false] at hc
  obtain ⟨x,_,rfl | rfl⟩ := hc
  · exact hdigit ⟨x.toNat/16,by have := x.toNat_lt; omega⟩
  · exact hdigit ⟨x.toNat%16,by omega⟩

theorem marker_storable (hl : EntityUri.isPeerId H.localPeerId = true) (h : Hash) :
    pathIsStorable (revocationMarkerPath H.localPeerId h) = true := by
  have hfixed : "/system/capability/revocations/".toList.all
      (fun c => !isControl c && c ≠ '.') = true := by decide +kernel
  simp only [List.all_eq_true,Bool.and_eq_true,Bool.not_eq_true',decide_eq_true_eq] at hfixed
  rw [revocationMarkerPath,List.append_assoc]
  apply storable_of_peer hl
  · have hslashes : "//".toList = ['/','/'] := rfl
    rw [hslashes,double_append]
    rintro (hh | hh | ⟨_,hh⟩)
    · revert hh; decide
    · exact (hexStr_plain _ '/' (hh.subset (by simp))).2.2 rfl
    · exact (hexStr_plain _ '/' (List.mem_of_mem_head? hh)).2.2 rfl
  · intro c hc
    rcases List.mem_append.mp hc with hc | hc
    · exact hfixed c hc
    · exact ⟨(hexStr_plain _ c hc).1,(hexStr_plain _ c hc).2.1⟩

/-- The path a revocation unbinds is a grant path, never a marker. -/
theorem capabilityPathFor_ne_marker {s : PeerState} {token : Hash} {path : Str}
    (h : H.capabilityPathFor s token = some path) (root : Hash) :
    revocationMarkerPath H.localPeerId root ≠ path := by
  rintro rfl
  have hpre := (MemoryLocationIndex.find_list h).2
  rw [grantsPrefix,revocationMarkerPath,List.append_assoc,List.prefix_append_right_inj] at hpre
  revert hpre
  simp [List.cons_prefix_cons]

theorem unbindGrant_marked (s : PeerState) (token root : Hash) :
    (H.unbindGrant s token).marked H.localPeerId root = s.marked H.localPeerId root := by
  unfold unbindGrant
  cases hp : H.capabilityPathFor s token with
  | none => rfl
  | some path =>
    have hne := capabilityPathFor_ne_marker hp root
    simp [PeerState.marked,PeerState.remove,MemoryLocationIndex.remove,hne,MemoryLocationIndex.get]

/-- A revocation that succeeds marks its token and leaves every other mark as it was. -/
theorem handleRevoke_marks (hl : EntityUri.isPeerId H.localPeerId = true) {ctx : HandlerContext}
    {nowMs : ℕ} {s s' : PeerState} {result : Entity} {out : OrderedMap Hash Entity}
    (h : H.handleRevoke X ctx nowMs s = (.ok result out,s')) :
    ∃ rv, decodeCapabilityRevocation X ctx.params = .ok rv ∧ rv.token.isZero = false ∧
      ∀ root, s'.marked H.localPeerId root = (decide (root = rv.token) || s.marked H.localPeerId root) := by
  unfold handleRevoke at h
  cases hd : decodeCapabilityRevocation X ctx.params with
  | error msg => simp [hd] at h
  | ok rv =>
    simp only [hd] at h
    by_cases hz : rv.token.isZero = true
    · simp [hz] at h
    · rw [if_neg hz] at h
      cases he : buildRevocationEntity X rv nowMs with
      | error msg => simp [he] at h
      | ok revEntity =>
        simp only [he,Prod.mk.injEq] at h
        refine ⟨rv,rfl,by simpa using hz,fun root => ?_⟩
        rw [← h.2,← unbindGrant_marked (H := H) s rv.token root]
        simp only [PeerState.marked,PeerState.set,PeerState.put]
        rw [MemoryLocationIndex.get_set,revocationPath_eq]
        by_cases hr : root = rv.token
        · simp [hr,marker_storable hl]
        · have hne : revocationMarkerPath H.localPeerId root ≠
              revocationMarkerPath H.localPeerId rv.token := fun h' =>
            hr (revocationMarkerPath_inj h')
          simp [hr,hne]

end CapabilityHandler

/-- After a successful revocation of `T`, for every leaf, wherever `T` stands in its
chain: the leaf is revoked exactly when `T` is the root of the chain or the root was
marked before, and so is every request that rests on the leaf. -/
theorem revocation_effective_iff (X : Platform) (H : CapabilityHandler)
    (hl : EntityUri.isPeerId H.localPeerId = true) (ctx : HandlerContext) (nowMs : ℕ)
    (s s' : PeerState) (result : Entity) (out : OrderedMap Hash Entity) (T : Hash)
    (hT : (decodeCapabilityRevocation X ctx.params).toOption.map (·.token) = some T)
    (hok : H.handleRevoke X ctx nowMs s = (.ok result out,s')) (included : Included)
    (leafHash : Hash) (chain : List Link)
    (hwalk : collectAuthorityChain X leafHash (s'.resolve included) = .ok chain) :
    ∃ root ∈ chain.getLast?, (s'.revoked X H.localPeerId included leafHash = true ↔
        T = root.entity.contentHash ∨ s.marked H.localPeerId root.entity.contentHash = true) ∧
      ∀ env now chainNow verified, verifyRequest X env H.localPeerId now chainNow = .ok verified →
        verified.capabilityHash = leafHash →
        (s'.verifyRequest X H.localPeerId included env now chainNow = .error .capabilityRevoked ↔
          T = root.entity.contentHash ∨ s.marked H.localPeerId root.entity.contentHash = true) := by
  obtain ⟨rv,hd,_,hmarks⟩ := CapabilityHandler.handleRevoke_marks hl hok
  have hrv : rv.token = T := by simpa [hd,Except.toOption] using hT
  obtain ⟨⟨first,rest,hcons,_⟩,_⟩ := collectFrom_links hwalk
  obtain ⟨root,hroot⟩ : ∃ root, chain.getLast? = some root := by
    rw [hcons]; exact ⟨_,List.getLast?_eq_getLast_of_ne_nil (by simp)⟩
  have hrevoked : s'.revoked X H.localPeerId included leafHash = true ↔
      T = root.entity.contentHash ∨ s.marked H.localPeerId root.entity.contentHash = true := by
    rw [revoked_iff hwalk hroot,hmarks,hrv,Bool.or_eq_true,decide_eq_true_eq]
    exact or_congr_left eq_comm
  refine ⟨root,hroot,hrevoked,?_⟩
  intro env now chainNow verified hver hleaf
  rw [← hrevoked,← hleaf]
  simp only [PeerState.verifyRequest,verifyRequestWithCtx,hver,PeerState.revoked]
  cases hr : isRevoked X verified.capabilityHash H.localPeerId (s'.resolve included)
    s'.locationIndex.get fun h => capabilityPathForScan h H.localPeerId s'.locationIndex.list with
  | true => simp [bind,Except.bind,hr]
  | false => simp [bind,Except.bind,hr,pure,Except.pure]

namespace Sample

open Ecf

def aliceHandler : CapabilityHandler :=
  ⟨aliceId,alice.contentHash,alice,"ed25519".toList,fun _ => []⟩

def revokeValue := Value.map [(txt "token",.bytes leaf.contentHash.toBytes)]
/-- Somebody asks Alice to revoke what Bob gave Carol. -/
def revokeLeaf : HandlerContext := ⟨none,none,entity "system/capability/revoke-request" revokeValue
  0xf379e3c76657b402645b0f9d4c38708cabf527f1d67f37a386191c4551787184⟩

def markValue := Value.map [(txt "token",.bytes leaf.contentHash.toBytes),(txt "revoked_at",uint 20)]

def revocationCrates := platform (revokeValue::documents)
  [(ecfForHash typeCapRevocation (toEcf markValue),
    0xcce3f39d6a1329009b3a6f26dd673d66788316636d7d115d1762a9156bd7dead)] signatures

def emptyPeer : PeerState := ⟨.empty,⟨.empty⟩⟩

/-- Alice's state once the revocation has been accepted. -/
def afterRevoke : PeerState := (aliceHandler.handleRevoke revocationCrates revokeLeaf 20 emptyPeer).2

def sampleChain : List Link :=
  [⟨leaf,⟨.single bob.contentHash,carol.contentHash,some root.contentHash,none,none⟩⟩,
    ⟨root,⟨.single alice.contentHash,bob.contentHash,none,none,none⟩⟩]

theorem evaluated_revocation :
    (aliceHandler.handleRevoke revocationCrates revokeLeaf 20 emptyPeer).1.isOk = true ∧
    (decodeCapabilityRevocation revocationCrates revokeLeaf.params).toOption.map (·.token) =
      some leaf.contentHash ∧
    collectAuthorityChain revocationCrates leaf.contentHash (afterRevoke.resolve included) =
      .ok sampleChain ∧
    afterRevoke.revoked revocationCrates aliceId included leaf.contentHash = false := by
  decide +kernel

theorem revokeLeaf_accepted : ∃ result out,
    aliceHandler.handleRevoke revocationCrates revokeLeaf 20 emptyPeer =
      (.ok result out,afterRevoke) := by
  have hok := evaluated_revocation.1
  rcases ho : aliceHandler.handleRevoke revocationCrates revokeLeaf 20 emptyPeer with ⟨reply,s'⟩
  have hs : afterRevoke = s' := by rw [afterRevoke,ho]
  rw [ho] at hok
  cases reply with
  | ok result out => exact ⟨result,out,by rw [hs]⟩
  | error failure => cases hok

end Sample

open Sample

/-- The revocation of the leaf is accepted, the leaf's chain goes through it, and the
verifier does not see it. -/
theorem revocation_of_leaf_inert : ¬ ∀ (X : Platform) (H : CapabilityHandler) (ctx : HandlerContext)
    (nowMs : ℕ) (s s' : PeerState) (result : Entity) (out : OrderedMap Hash Entity) (T : Hash)
    (included : Included) (leafHash : Hash) (chain : List Link),
    EntityUri.isPeerId H.localPeerId = true →
    (decodeCapabilityRevocation X ctx.params).toOption.map (·.token) = some T →
    H.handleRevoke X ctx nowMs s = (.ok result out,s') →
    collectAuthorityChain X leafHash (s'.resolve included) = .ok chain →
    (∃ link ∈ chain, link.entity.contentHash = T) →
    s'.revoked X H.localPeerId included leafHash = true := by
  intro h
  obtain ⟨result,out,hok⟩ := revokeLeaf_accepted
  obtain ⟨-,htoken,hwalk,hbad⟩ := evaluated_revocation
  have hgood := h revocationCrates aliceHandler revokeLeaf 20 emptyPeer afterRevoke result out
    leaf.contentHash included leaf.contentHash sampleChain aliceId_isPeerId htoken
    hok hwalk ⟨_,List.mem_cons_self,rfl⟩
  have hgood : afterRevoke.revoked revocationCrates aliceId included leaf.contentHash = true := hgood
  rw [hbad] at hgood
  cases hgood

theorem revocation_effective_iff_sample :
    ¬ (leaf.contentHash = root.contentHash ∨ emptyPeer.marked aliceId root.contentHash = true) := by
  obtain ⟨result,out,hok⟩ := revokeLeaf_accepted
  obtain ⟨-,htoken,hwalk,hbad⟩ := evaluated_revocation
  obtain ⟨top,htop,hiff,_⟩ := revocation_effective_iff revocationCrates aliceHandler
    aliceId_isPeerId revokeLeaf 20 emptyPeer afterRevoke result out leaf.contentHash htoken hok included
    leaf.contentHash sampleChain hwalk
  obtain rfl : ⟨root,⟨.single alice.contentHash,bob.contentHash,none,none,none⟩⟩ = top :=
    Option.some.inj htop
  intro hc
  have hgood : afterRevoke.revoked revocationCrates aliceId included leaf.contentHash = true :=
    hiff.mpr hc
  rw [hbad] at hgood
  cases hgood

end EntityCore
