import EntityCore.CapabilityDelegate
import EntityCore.Revocation

/-! Revocations over whole runs of the capability handler: no request and no delegation makes
or clears a mark, so what the verifier calls revoked is what has been revoked. -/
namespace EntityCore

open Strings

namespace CapabilityHandler

inductive CapabilityCall where
  | request (ctx : HandlerContext) (nowMs : ℕ)
  | delegate (ctx : HandlerContext) (nowMs : ℕ)
  | revoke (ctx : HandlerContext) (nowMs : ℕ)

section Runs

variable (X : Platform) (H : CapabilityHandler)

def CapabilityCall.run (s : PeerState) : CapabilityCall → HandlerResult × PeerState
  | .request ctx nowMs => H.handleRequest X ctx nowMs s
  | .delegate ctx nowMs => H.handleDelegate X ctx nowMs s
  | .revoke ctx nowMs => H.handleRevoke X ctx nowMs s

def runCalls (calls : List CapabilityCall) (s : PeerState) : PeerState :=
  calls.foldl (fun s call => (call.run X H s).2) s

/-- The token whose revocation the call reports. -/
def CapabilityCall.revoked (s : PeerState) : CapabilityCall → Option Hash
  | .revoke ctx nowMs => if (H.handleRevoke X ctx nowMs s).1.isOk
    then (decodeCapabilityRevocation X ctx.params).toOption.map (·.token) else none
  | _ => none

def revokedBy : List CapabilityCall → PeerState → List Hash
  | [], _ => []
  | call::calls, s => (call.revoked X H s).toList++revokedBy calls (call.run X H s).2

end Runs

variable {X : Platform} {H : CapabilityHandler}

/-- What stands behind the local peer tells the marks and the other entries apart. -/
theorem marker_ne {rest : Str} (h : ¬ "/system/capability/revocations/".toList <+: rest) (root : Hash) :
    revocationMarkerPath H.localPeerId root ≠ '/'::H.localPeerId++rest := by
  intro he
  rw [revocationMarkerPath,List.append_assoc] at he
  exact h ⟨_,List.append_cancel_left he⟩

section Elsewhere

variable {rest : Str} (h : ¬ "/system/capability/revocations/".toList <+: rest) (s : PeerState)
  (root : Hash)

include h

theorem set_marked (hash : Hash) : (s.set ('/'::H.localPeerId++rest) hash).marked H.localPeerId root =
    s.marked H.localPeerId root := by
  simp only [PeerState.marked,PeerState.set]
  rw [MemoryLocationIndex.get_set,if_neg fun he => marker_ne h root he.1]

theorem remove_marked : (s.remove ('/'::H.localPeerId++rest)).marked H.localPeerId root =
    s.marked H.localPeerId root := by
  simp only [PeerState.marked,PeerState.remove,MemoryLocationIndex.remove,MemoryLocationIndex.get,
    OrderedMap.get_erase,if_neg (marker_ne h root)]

end Elsewhere

theorem not_marker_policy (segment : Str) :
    ¬ "/system/capability/revocations/".toList <+: "/system/capability/policy/".toList++segment := by
  simp [List.cons_prefix_cons]

theorem not_marker_signature (target : Hash) :
    ¬ "/system/capability/revocations/".toList <+: "/system/signature/".toList++target.toHex := by
  simp [List.cons_prefix_cons]

theorem policy_marked (b58 hex : Str) (s : PeerState) (root : Hash) :
    (canonicalizePolicyEntry (H.policyPath b58) (H.policyPath hex) s).marked H.localPeerId root =
      s.marked H.localPeerId root := by
  unfold canonicalizePolicyEntry
  split
  · rfl
  · simp only [policyPath,List.append_assoc]
    rw [remove_marked (not_marker_policy b58),set_marked (not_marker_policy hex)]

theorem lookup_marked (author : Hash) (s : PeerState) (root : Hash) :
    (H.lookupPolicyEntry X author s).2.marked H.localPeerId root = s.marked H.localPeerId root := by
  unfold lookupPolicyEntry
  dsimp only
  split
  · rfl
  · split
    · rename_i entry path hfound
      obtain ⟨b58,-,hfound⟩ := Option.bind_eq_some_iff.mp hfound
      obtain ⟨e,-,hpair⟩ := Option.bind_eq_some_iff.mp hfound
      cases hpair
      exact policy_marked b58 (hexOf author) s root
    · rfl

theorem mint_marked (s : PeerState) (target hash root : Hash) (a b e : Entity) :
    ((((s.put a).put b).put e).set (invariantSignaturePath H.localPeerId target) hash).marked
      H.localPeerId root = s.marked H.localPeerId root := by
  rw [invariantSignaturePath,List.append_assoc,set_marked (not_marker_signature target)]
  rfl

theorem approve_marked (ctx : HandlerContext) (nowMs : ℕ) (s : PeerState) (root : Hash) :
    (H.approveRequest X ctx nowMs s).2.marked H.localPeerId root = s.marked H.localPeerId root := by
  unfold approveRequest
  split
  · rfl
  · rename_i callerCap author req _
    have hlookup := lookup_marked (X := X) (H := H) author s root
    generalize H.lookupPolicyEntry X author s = looked at hlookup ⊢
    obtain ⟨policy,s'⟩ := looked
    dsimp only at hlookup ⊢
    split_ifs <;> exact hlookup

theorem request_marked (ctx : HandlerContext) (nowMs : ℕ) (s : PeerState) (root : Hash) :
    (H.handleRequest X ctx nowMs s).2.marked H.localPeerId root = s.marked H.localPeerId root := by
  have happrove := approve_marked (X := X) (H := H) ctx nowMs s root
  unfold handleRequest
  generalize H.approveRequest X ctx nowMs s = approved at happrove ⊢
  obtain ⟨result,s'⟩ := approved
  cases result with
  | error failure => exact happrove
  | ok child =>
    dsimp only at happrove ⊢
    rw [← happrove]
    unfold mintAndReturn
    split
    · rfl
    · split
      · rfl
      · dsimp only
        split <;> exact mint_marked ..

theorem delegate_marked (ctx : HandlerContext) (nowMs : ℕ) (s : PeerState) (root : Hash) :
    (H.handleDelegate X ctx nowMs s).2.marked H.localPeerId root = s.marked H.localPeerId root := by
  unfold handleDelegate mintChildAndReturn
  split
  · rfl
  · split
    · rfl
    · split
      · rfl
      · dsimp only
        split <;> exact mint_marked ..

theorem handleRevoke_fails {ctx : HandlerContext} {nowMs : ℕ} {s s' : PeerState} {failure : Failure}
    (h : H.handleRevoke X ctx nowMs s = (.error failure,s')) (root : Hash) :
    s'.marked H.localPeerId root = s.marked H.localPeerId root := by
  unfold handleRevoke at h
  split at h
  · rw [← (Prod.mk.inj h).2]
  · split at h
    · rw [← (Prod.mk.inj h).2]
    · dsimp only at h
      split at h
      · -- the grant of the token is unbound all the same
        rw [← (Prod.mk.inj h).2,unbindGrant_marked]
      · cases (Prod.mk.inj h).1

/-- One call marks the token whose revocation it reports and nothing else. -/
theorem call_marked (hl : EntityUri.isPeerId H.localPeerId = true) (call : CapabilityCall)
    (s : PeerState) (root : Hash) : (call.run X H s).2.marked H.localPeerId root = true ↔
      call.revoked X H s = some root ∨ s.marked H.localPeerId root = true := by
  cases call with
  | request ctx nowMs => simp [CapabilityCall.run,CapabilityCall.revoked,request_marked]
  | delegate ctx nowMs => simp [CapabilityCall.run,CapabilityCall.revoked,delegate_marked]
  | revoke ctx nowMs =>
    simp only [CapabilityCall.run,CapabilityCall.revoked]
    rcases hrun : H.handleRevoke X ctx nowMs s with ⟨result | failure,s'⟩
    · obtain ⟨rv,hrv,-,hmarks⟩ := handleRevoke_marks hl hrun
      simp only [HandlerResult.isOk,if_true,hrv,Except.toOption,Option.map_some,Option.some.injEq,
        hmarks,Bool.or_eq_true,decide_eq_true_eq]
      exact or_congr_left eq_comm
    · simp [HandlerResult.isOk,handleRevoke_fails hrun]

/-- After any run a token is revoked for the verifier exactly when the root of its chain was
marked before the run or a call of the run reports its revocation. -/
theorem revoked_after_run_iff (X : Platform) (H : CapabilityHandler)
    (hl : EntityUri.isPeerId H.localPeerId = true) (calls : List CapabilityCall) (s : PeerState)
    (included : Included) (leafHash : Hash) (chain : List Link) (root : Link)
    (hwalk : collectAuthorityChain X leafHash ((runCalls X H calls s).resolve included) = .ok chain)
    (hroot : chain.getLast? = some root) :
    (runCalls X H calls s).revoked X H.localPeerId included leafHash = true ↔
      root.entity.contentHash ∈ revokedBy X H calls s ∨
        s.marked H.localPeerId root.entity.contentHash = true := by
  rw [revoked_iff hwalk hroot]
  clear hwalk
  induction calls generalizing s with
  | nil => simp [runCalls,revokedBy]
  | cons call calls ih =>
    rw [show runCalls X H (call::calls) s = runCalls X H calls (call.run X H s).2 from rfl,ih,
      call_marked hl,revokedBy]
    simp
    tauto

open Sample in
theorem revoked_after_run_iff_sample :
    (runCalls revocationCrates aliceHandler [.revoke revokeLeaf 20] emptyPeer).revoked
        revocationCrates aliceId included leaf.contentHash = true ↔
      root.contentHash ∈ revokedBy revocationCrates aliceHandler [.revoke revokeLeaf 20] emptyPeer ∨
        emptyPeer.marked aliceId root.contentHash = true :=
  revoked_after_run_iff revocationCrates aliceHandler aliceId_isPeerId _ _ included leaf.contentHash
    sampleChain ⟨root,⟨.single alice.contentHash,bob.contentHash,none,none,none⟩⟩
    (by decide +kernel) rfl

end CapabilityHandler
end EntityCore
