import EntityCore.Delegation

/-! The two decoders of a capability token. The chain walk reads linkage and times with one
of its own; on what the token decoder accepts it reads the same. -/
namespace EntityCore

open Ecf Outcome

namespace Outcome

/-- A fold that succeeds is followed by one that simulates its steps. -/
theorem foldE_simulates {ε ε' α β γ : Type} (R : β → γ → Prop) (f : β → α → Except ε β)
    (g : γ → α → Except ε' γ)
    (hstep : ∀ b c a b', R b c → f b a = .ok b' → ∃ c', g c a = .ok c' ∧ R b' c')
    (as : List α) (b b' : β) (c : γ) (h : R b c) (hf : foldE f b as = .ok b') :
    ∃ c', foldE g c as = .ok c' ∧ R b' c' := by
  induction as generalizing b c with
  | nil =>
    obtain rfl := Except.ok.inj hf
    exact ⟨c,rfl,h⟩
  | cons a as ih =>
    simp only [foldE,bind_ok] at hf ⊢
    obtain ⟨b₁,hb,hf⟩ := hf
    obtain ⟨c₁,hc,h₁⟩ := hstep b c a b₁ h hb
    obtain ⟨c',hg,h'⟩ := ih b₁ c₁ h₁ hf
    exact ⟨c',⟨c₁,hc,hg⟩,h'⟩

end Outcome

/-- What both decoders have read so far is the same. -/
structure ScansAgree (acc : TokenFields) (scan : ChainFieldScan) : Prop where
  granter : scan.granter = acc.granter
  grantee : scan.grantee = acc.grantee
  parent : scan.parent = acc.parent
  notBefore : scan.notBefore = acc.notBefore
  expiresAt : scan.expiresAt = acc.expiresAt

theorem chainHashField_of_token {v : Value} {old new : Option Hash}
    (h : tokenHashField v old = .ok new) : chainHashField v old = new := by
  unfold tokenHashField at h
  unfold chainHashField
  cases hv : v.asBytes with
  | none => simpa [hv] using h
  | some b =>
    simp only [hv,bind_ok,pure_ok,hashOrInvalid,mapErr_ok] at h
    obtain ⟨hash,hb,rfl⟩ := h
    simp [hb,Except.toOption]

theorem asU64_of_temporal {v : Value} {name : String} {o : Option ℕ}
    (h : decodeTemporalField v name = .ok o) : v.asU64 = o := by
  unfold decodeTemporalField at h
  split at h
  · obtain rfl := Except.ok.inj h
    rfl
  · rename_i i
    split_ifs at h with hi
    obtain rfl := Except.ok.inj h
    have hfit : (Value.integer i).asU64 = some i.val.toNat := if_pos hi
    exact hfit
  · cases h

theorem scanChainField_other {scan : ChainFieldScan} {kv : Value × Value}
    (h : ∀ name ∈ ["granter","grantee","parent","not_before","expires_at"],
      kv.1.asText ≠ key name) : scanChainField scan kv = .ok scan := by
  unfold scanChainField
  rw [if_neg (h _ (by simp)),if_neg (h _ (by simp)),if_neg (h _ (by simp)),if_neg (h _ (by simp)),
    if_neg (h _ (by simp))]

theorem scan_agrees {acc acc' : TokenFields} {scan : ChainFieldScan} {kv : Value × Value}
    (h : ScansAgree acc scan) (hstep : scanTokenField acc kv = .ok acc') :
    ∃ scan', scanChainField scan kv = .ok scan' ∧ ScansAgree acc' scan' := by
  unfold scanTokenField at hstep
  split_ifs at hstep with hgrants hgranter hgrantee hparent hcreated hexpires hbefore hcaveats
  · simp only [bind_ok,pure_ok] at hstep
    obtain ⟨_,_,_,_,rfl⟩ := hstep
    exact ⟨scan,scanChainField_other (by rw [hgrants]; decide),{ h with }⟩
  · simp only [bind_ok,pure_ok] at hstep
    obtain ⟨granter,hdecode,rfl⟩ := hstep
    refine ⟨{ scan with granter := some granter },?_,{ h with granter := rfl }⟩
    simp [scanChainField,hgranter,hdecode,mapErr]
  · simp only [bind_ok,pure_ok] at hstep
    obtain ⟨grantee,hdecode,rfl⟩ := hstep
    refine ⟨{ scan with grantee := grantee },?_,{ h with grantee := rfl }⟩
    have hfield := chainHashField_of_token hdecode
    simp only [scanChainField,if_neg hgranter,if_pos hgrantee,h.grantee,hfield]
  · simp only [bind_ok,pure_ok] at hstep
    obtain ⟨parent,hdecode,rfl⟩ := hstep
    refine ⟨{ scan with parent := parent },?_,{ h with parent := rfl }⟩
    have hfield := chainHashField_of_token hdecode
    simp only [scanChainField,if_neg hgranter,if_neg hgrantee,if_pos hparent,h.parent,hfield]
  · simp only [bind_ok,pure_ok] at hstep
    obtain ⟨_,_,rfl⟩ := hstep
    exact ⟨scan,scanChainField_other (by rw [hcreated]; decide),{ h with }⟩
  · simp only [bind_ok,pure_ok] at hstep
    obtain ⟨expiresAt,hdecode,rfl⟩ := hstep
    refine ⟨{ scan with expiresAt := expiresAt },?_,{ h with expiresAt := rfl }⟩
    have hlater : kv.1.asText ≠ key "not_before" := by rw [hexpires]; decide
    simp only [scanChainField,if_neg hgranter,if_neg hgrantee,if_neg hparent,if_neg hlater,
      if_pos hexpires,asU64_of_temporal hdecode]
  · simp only [bind_ok,pure_ok] at hstep
    obtain ⟨notBefore,hdecode,rfl⟩ := hstep
    refine ⟨{ scan with notBefore := notBefore },?_,{ h with notBefore := rfl }⟩
    simp only [scanChainField,if_neg hgranter,if_neg hgrantee,if_neg hparent,if_pos hbefore,
      asU64_of_temporal hdecode]
  · simp only [bind_ok,pure_ok] at hstep
    obtain ⟨_,_,rfl⟩ := hstep
    exact ⟨scan,scanChainField_other (by rw [hcaveats]; decide),{ h with }⟩
  · obtain rfl := Except.ok.inj hstep
    refine ⟨scan,scanChainField_other ?_,h⟩
    intro name hname
    simp only [List.mem_cons,List.not_mem_nil,or_false] at hname
    rcases hname with rfl | rfl | rfl | rfl | rfl
    · exact hgranter
    · exact hgrantee
    · exact hparent
    · exact hbefore
    · exact hexpires

/-- The chain decoder's pass over the data of a token. -/
theorem chain_scan_of_token {X : Platform} {entity : Entity} {token : CapabilityToken}
    (h : CapabilityToken.fromEntity X entity = .ok token) :
    ∃ value map scan, X.fromReader entity.data = .ok value ∧ value.asMap = some map ∧
      foldE scanChainField ⟨none,none,none,none,none⟩ map = .ok scan ∧
      scan = ⟨some token.granter,some token.grantee,token.parent,token.notBefore,
        token.expiresAt⟩ := by
  simp only [CapabilityToken.fromEntity,bind_ok,mapErr_ok,okOr_ok,pure_ok] at h
  obtain ⟨_,_,value,hv,map,hm,acc,hacc,_,_,granter,hgranter,grantee,hgrantee,_,_,rfl⟩ := h
  obtain ⟨scan,hscan,hsame⟩ := foldE_simulates ScansAgree scanTokenField scanChainField
    (fun _ _ _ _ => scan_agrees) map ⟨none,none,none,none,none,none,none,none⟩ acc
    ⟨none,none,none,none,none⟩ ⟨rfl,rfl,rfl,rfl,rfl⟩ hacc
  refine ⟨value,map,scan,hv,hm,hscan,?_⟩
  cases scan
  simp only [ChainFieldScan.mk.injEq]
  exact ⟨hsame.granter.trans hgranter,hsame.grantee.trans hgrantee,hsame.parent,hsame.notBefore,
    hsame.expiresAt⟩

theorem fields_of_token {X : Platform} {entity : Entity} {token : CapabilityToken}
    {fields : CapabilityChainFields} (ht : CapabilityToken.fromEntity X entity = .ok token)
    (hf : decodeCapabilityChainFields X entity.data = .ok fields) :
    fields = ⟨token.granter,token.grantee,token.parent,token.notBefore,token.expiresAt⟩ := by
  obtain ⟨value,map,_,hv,hm,hscan,rfl⟩ := chain_scan_of_token ht
  simp only [decodeCapabilityChainFields,bind_ok,mapErr_ok,okOr_ok,pure_ok] at hf
  obtain ⟨value',hv',map',hm',scan,hscan',granter,hgranter,grantee,hgrantee,rfl⟩ := hf
  obtain rfl : value = value' := Except.ok.inj (hv.symm.trans hv')
  obtain rfl : map = map' := Option.some.inj (hm.symm.trans hm')
  obtain rfl := Except.ok.inj (hscan.symm.trans hscan')
  obtain rfl := Option.some.inj hgranter
  obtain rfl := Option.some.inj hgrantee
  rfl

/-- What the token decoder accepts the chain decoder accepts, with the same linkage and
the same times. -/
theorem decoders_agree (X : Platform) (entity : Entity) (token : CapabilityToken)
    (h : CapabilityToken.fromEntity X entity = .ok token) :
    decodeCapabilityChainFields X entity.data =
      .ok ⟨token.granter,token.grantee,token.parent,token.notBefore,token.expiresAt⟩ := by
  obtain ⟨value,map,_,hv,hm,hscan,rfl⟩ := chain_scan_of_token h
  simp [decodeCapabilityChainFields,hv,hm,hscan,mapErr,okOr]

open Sample in
theorem decoders_agree_sample : ∃ token,
    CapabilityToken.fromEntity (platform documents [] []) leaf = .ok token ∧
    decodeCapabilityChainFields (platform documents [] []) leaf.data =
      .ok ⟨token.granter,token.grantee,token.parent,token.notBefore,token.expiresAt⟩ := by
  obtain ⟨token,htoken,-⟩ := exists_ok_of_any (x := CapabilityToken.fromEntity
    (platform documents [] []) leaf) (p := fun t => decide (t.parent = some root.contentHash))
    (by decide +kernel)
  exact ⟨token,htoken,decoders_agree _ leaf token htoken⟩

end EntityCore
