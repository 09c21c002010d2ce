import EntityCore.ComputeEngine

/-! A subgraph whose installation grant has run out. Chains are verified on a clock of
milliseconds, and the engine reads its own in seconds. -/
namespace EntityCore
namespace Compute

open Ecf Strings

section Expiry

variable (X : Platform) (F : Runtime) (localPeerId : Str) (entry : DependencyEntry)
  (fields : SubgraphFields) (token : CapabilityToken)

/-- The subgraph of an entry is in the tree, with a grant that can be read. -/
structure InstalledUnder (w : EngineWorld) : Prop where
  bound : ((w.index.get (qualifyPath entry.subgraphPath localPeerId)).bind w.store.get).bind
    (subgraphFields X) = some fields
  granted : grantToken X w.store fields.grantHash = some token

def resultKey : Str := qualifyPath fields.resultPath localPeerId

/-- The error of a grant that does not hold goes to the result path, or the subgraph, as it
then stands, to its own path with the status replaced. -/
def Freezes (w : EngineWorld) (write : Str × Hash) : Prop :=
  ∃ error, errorEntity X "installation_grant_invalid".toList = some error ∧
    (write = (resultKey localPeerId fields,error.contentHash) ∨
      ∃ updated, ((((w.bind (resultKey localPeerId fields) error).index.get
          (qualifyPath entry.subgraphPath localPeerId)).bind
            (w.bind (resultKey localPeerId fields) error).store.get).bind fun e =>
              (decodeData X e).bind (frozenSubgraph X)) = some updated ∧
        write = (qualifyPath entry.subgraphPath localPeerId,updated.contentHash))

/-- What has been set since is set to freeze the subgraph. -/
def OnlyFreezes (w w' : EngineWorld) : Prop :=
  ∃ own, w'.writes = own++w.writes ∧ ∀ write ∈ own, Freezes X localPeerId entry fields w write

/-- There is nothing else to write: evaluating the expression sets no path of its own, and
it comes to the entity that the result path binds already. -/
def Settled (w : EngineWorld) (expression : Entity) : Prop :=
  ∀ v after, evaluateReactively X F localPeerId fields (some token) expression w = (some v,after) →
    OnlyFreezes X localPeerId entry fields w after.world ∧
    ∀ e, resultEntity X expression.contentHash v = some e →
      Freezes X localPeerId entry fields w (resultKey localPeerId fields,e.contentHash) ∨
      (∀ err, v ≠ .error err) ∧
        after.world.index.get (resultKey localPeerId fields) = some e.contentHash

variable {X F localPeerId entry fields token} {w w' : EngineWorld}

theorem OnlyFreezes.refl : OnlyFreezes X localPeerId entry fields w w :=
  ⟨[],rfl,fun _ h => nomatch h⟩

/-- Evaluations set paths on top of what has been set. -/
theorem evaluate_writes (env : EvalEnv) (e : Entity) (scope : Scope) (s : EvalState EngineWorld) :
    s.world.writes <:+ (evaluate X F engineHost env e scope s).2.world.writes := by
  have hkeeps : CommandsKeep engineHost env (fun _ => True)
      fun t : EvalState EngineWorld => s.world.writes <:+ t.world.writes := by
    constructor
    case command =>
      intro eval heval c t _ ht
      have hput (entity : Entity) : (t.put engineHost entity).2.world.writes = t.world.writes := by
        simp only [EvalState.put]
        split <;> rfl
      have hanswer {α β : Type} (found : Option α) (missed : Event) (b : β) :
          (t.answer found missed b).2.world.writes = t.world.writes := by
        simp only [EvalState.answer]
        split <;> rfl
      cases c with
      | evaluate e scope => exact heval e scope t ht
      | charge n =>
        simp only [performCommand]
        split <;> exact ht
      | resolve hash => exact (hanswer _ _ _).symm ▸ ht
      | resolveScopeEntity hash =>
        simp only [performCommand]
        split <;> exact ht
      | meet hash =>
        simp only [performCommand]
        split <;> exact ht
      | keep entity => exact (hput entity).symm ▸ ht
      | referent hash => exact (hanswer _ _ _).symm ▸ ht
      | inFlight hash => exact (hanswer _ _ _).symm ▸ ht
      | contentGet hash => exact (hanswer _ _ _).symm ▸ ht
      | contentPut entity => exact (hput entity).symm ▸ ht
      | treeSet path key hash => exact ht.trans (List.suffix_cons _ _)
      | _ => exact ht
    case budget => exact fun _ _ _ ht => ht
    case spent => exact fun _ ht => ht
    case tooDeep => exact fun _ ht => ht
  exact evaluate_keeps hkeeps (fun e scope => Program.all_true _) e scope s (List.suffix_refl _)

theorem onlyFreezes_bind (hw : w.writes <:+ w'.writes) (key : Str) (e : Entity) :
    OnlyFreezes X localPeerId entry fields w (w'.bind key e) ↔
      OnlyFreezes X localPeerId entry fields w w' ∧
        Freezes X localPeerId entry fields w (key,e.contentHash) := by
  obtain ⟨own,hown⟩ := hw
  have heq : (w'.bind key e).writes = ((key,e.contentHash)::own)++w.writes := by
    rw [EngineWorld.bind_writes,← hown]
    rfl
  constructor
  · intro ⟨all,hall,hfreezes⟩
    have hcancel : all = (key,e.contentHash)::own :=
      List.append_cancel_right (hall.symm.trans heq)
    subst hcancel
    exact ⟨⟨own,hown.symm,fun write h => hfreezes write (List.mem_cons_of_mem _ h)⟩,
      hfreezes _ List.mem_cons_self⟩
  · intro ⟨⟨all,hall,hfreezes⟩,hlast⟩
    have hcancel : all = own := List.append_cancel_right (hall.symm.trans hown.symm)
    subst hcancel
    refine ⟨_,heq,fun write h => ?_⟩
    cases h with
    | head => exact hlast
    | tail _ h => exact hfreezes write h

theorem freezeSubgraph_eq {subgraphPath resultPath : Str} {code : String}
    (h : freezeSubgraph X localPeerId subgraphPath resultPath code w = some w') :
    ∃ error, errorEntity X code.toList = some error ∧
      (w' = w.bind (qualifyPath resultPath localPeerId) error ∨
        ∃ updated, ((((w.bind (qualifyPath resultPath localPeerId) error).index.get
            (qualifyPath subgraphPath localPeerId)).bind
              (w.bind (qualifyPath resultPath localPeerId) error).store.get).bind fun e =>
                (decodeData X e).bind (frozenSubgraph X)) = some updated ∧
          w' = (w.bind (qualifyPath resultPath localPeerId) error).bind
            (qualifyPath subgraphPath localPeerId) updated) := by
  have ⟨error,herror,hrun⟩ := Option.bind_eq_some_iff.mp h
  dsimp only at hrun
  refine ⟨error,herror,?_⟩
  split at hrun
  · rename_i updated hupdated
    exact Or.inr ⟨updated,hupdated,(Option.some.inj hrun).symm⟩
  · exact Or.inl (Option.some.inj hrun).symm

theorem freezeSubgraph_onlyFreezes
    (h : freezeSubgraph X localPeerId entry.subgraphPath fields.resultPath
      "installation_grant_invalid" w = some w') : OnlyFreezes X localPeerId entry fields w w' := by
  have ⟨error,herror,hend⟩ := freezeSubgraph_eq h
  have hfirst : OnlyFreezes X localPeerId entry fields w
      (w.bind (qualifyPath fields.resultPath localPeerId) error) :=
    (onlyFreezes_bind (List.suffix_refl _) _ error).mpr
      ⟨OnlyFreezes.refl,error,herror,Or.inl rfl⟩
  rcases hend with rfl | ⟨updated,hupdated,rfl⟩
  · exact hfirst
  · exact (onlyFreezes_bind (List.suffix_cons _ _) _ updated).mpr
      ⟨hfirst,error,herror,Or.inr ⟨updated,hupdated,rfl⟩⟩

/-- A result is written unless the path binds it; an error is written in any case. -/
theorem writeResult_onlyFreezes {after : EngineWorld} {expressionHash : Hash} {v : ComputeValue}
    {key : Str} (hw : w.writes <:+ after.writes)
    (h : writeResult X key expressionHash v after = some w') :
    OnlyFreezes X localPeerId entry fields w w' ↔ OnlyFreezes X localPeerId entry fields w after ∧
      ∀ e, resultEntity X expressionHash v = some e →
        Freezes X localPeerId entry fields w (key,e.contentHash) ∨
        (∀ err, v ≠ .error err) ∧ after.index.get key = some e.contentHash := by
  have hcases : ∃ e, resultEntity X expressionHash v = some e ∧
      (w' = after.bind key e ∧ ¬ ((∀ err, v ≠ .error err) ∧
          after.index.get key = some e.contentHash) ∨
        w' = after ∧ (∀ err, v ≠ .error err) ∧ after.index.get key = some e.contentHash) := by
    by_cases hv : ∃ err, v = .error err
    · have ⟨err,herr⟩ := hv
      subst herr
      have ⟨e,he,hend⟩ := Option.map_eq_some_iff.mp h
      exact ⟨e,he,Or.inl ⟨hend.symm,fun hne => hne.1 err rfl⟩⟩
    · have hrun : (resultEntity X expressionHash v).map (fun e =>
          if after.index.get key = some e.contentHash then after else after.bind key e) =
            some w' := by
        cases v with
        | error err => exact absurd ⟨err,rfl⟩ hv
        | _ => exact h
      have hne : ∀ err, v ≠ .error err := fun err herr => hv ⟨err,herr⟩
      have ⟨e,he,hend⟩ := Option.map_eq_some_iff.mp hrun
      by_cases hbound : after.index.get key = some e.contentHash
      · rw [if_pos hbound] at hend
        exact ⟨e,he,Or.inr ⟨hend.symm,hne,hbound⟩⟩
      · rw [if_neg hbound] at hend
        exact ⟨e,he,Or.inl ⟨hend.symm,fun h => hbound h.2⟩⟩
  have ⟨e,he,hend⟩ := hcases
  have hall (P : Entity → Prop) :
      (∀ e, resultEntity X expressionHash v = some e → P e) ↔ P e := by
    simp [he]
  rw [hall]
  rcases hend with ⟨rfl,hunbound⟩ | ⟨rfl,hbound⟩
  · rw [onlyFreezes_bind hw,or_iff_left hunbound]
  · exact ⟨fun h => ⟨h,Or.inr hbound⟩,fun h => h.1⟩

theorem grantInvalid_iff {nowMs expiresAt : ℕ} (hexpires : token.expiresAt = some expiresAt)
    (grantHash : Option Hash) :
    grantInvalid nowMs grantHash (some token) = true ↔ expiresAt < nowMs/1000 := by
  simp [grantInvalid,hexpires]

/-- A grant that ran out at a millisecond stops the engine once the clock's seconds have
passed the number of these milliseconds; until then only a subgraph with nothing to write
writes nothing. -/
theorem expired_grant_stops_iff {nowMs expiresAt : ℕ} {s s' : EngineState}
    (hinstalled : InstalledUnder X localPeerId entry fields token s.world)
    (hexpires : token.expiresAt = some expiresAt)
    (hrun : reEvaluate X F localPeerId nowMs entry s = some s') :
    OnlyFreezes X localPeerId entry fields s.world s'.world ↔ expiresAt < nowMs/1000 ∨
      ∀ expressionHash expression,
        s.world.index.get (qualifyPath fields.rootPath localPeerId) = some expressionHash →
        s.world.store.get expressionHash = some expression →
        Settled X F localPeerId entry fields token s.world expression := by
  have hbound := hinstalled.bound
  cases hsubgraph : s.world.index.get (qualifyPath entry.subgraphPath localPeerId) with
  | none => simp [hsubgraph] at hbound
  | some subgraphHash =>
    rw [hsubgraph,Option.bind_some] at hbound
    rw [reEvaluate,hsubgraph] at hrun
    simp only [hbound,hinstalled.granted] at hrun
    by_cases hseconds : expiresAt < nowMs/1000
    · rw [if_pos ((grantInvalid_iff hexpires _).mpr hseconds)] at hrun
      obtain ⟨w,hfreeze,hend⟩ := Option.map_eq_some_iff.mp hrun
      subst hend
      exact iff_of_true (freezeSubgraph_onlyFreezes hfreeze) (Or.inl hseconds)
    · rw [if_neg fun h => hseconds ((grantInvalid_iff hexpires _).mp h)] at hrun
      rw [or_iff_right hseconds]
      cases hroot : s.world.index.get (qualifyPath fields.rootPath localPeerId) with
      | none =>
        rw [hroot] at hrun
        have hend := Option.some.inj hrun
        subst hend
        exact iff_of_true OnlyFreezes.refl fun _ _ h => by cases h
      | some expressionHash =>
        rw [hroot] at hrun
        dsimp only at hrun
        cases hexpression : s.world.store.get expressionHash with
        | none =>
          rw [hexpression] at hrun
          have hend := Option.some.inj hrun
          subst hend
          refine iff_of_true OnlyFreezes.refl fun hash e hhash he => ?_
          have hsame := Option.some.inj hhash
          subst hsame
          simp [hexpression] at he
        | some expression =>
          rw [hexpression] at hrun
          dsimp only at hrun
          have hone : (∀ hash e, some expressionHash = some hash → s.world.store.get hash = some e →
              Settled X F localPeerId entry fields token s.world e) ↔
              Settled X F localPeerId entry fields token s.world expression := by
            constructor
            · exact fun h => h expressionHash expression rfl hexpression
            · intro h hash e hhash he
              have hsame := Option.some.inj hhash
              subst hsame
              have hentity := Option.some.inj (hexpression.symm.trans he)
              subst hentity
              exact h
          rw [hone]
          have hwrites : s.world.writes <:+
              (evaluateReactively X F localPeerId fields (some token) expression
                s.world).2.world.writes := evaluate_writes _ expression _ ⟨_,_,.empty,.empty,none,s.world,[]⟩
          cases heval : evaluateReactively X F localPeerId fields (some token) expression
              s.world with
          | mk value after =>
            rw [heval] at hrun hwrites
            cases value with
            | none => simp at hrun
            | some v =>
              obtain ⟨w,hwrite,hend⟩ := Option.map_eq_some_iff.mp hrun
              subst hend
              show OnlyFreezes X localPeerId entry fields s.world w ↔ _
              rw [writeResult_onlyFreezes hwrites hwrite]
              constructor
              · intro h v' after' heval'
                have hsame := heval.symm.trans heval'
                simp only [Prod.mk.injEq,Option.some.injEq] at hsame
                rw [← hsame.1,← hsame.2]
                exact h
              · exact fun h => h v after heval

end Expiry

/-! Bob's subgraph, installed under a grant for some time. -/
namespace ComputeSample

open Sample

def lapse : Fin (2^63) := 1700000000000

def lapsing : Doc := ⟨"system/capability/token",.map [(txt "created_at",uint 1),
  (txt "expires_at",uint lapse),(txt "grantee",.bytes bob.contentHash.toBytes),
  (txt "granter",.bytes alice.contentHash.toBytes),
  (txt "grants",.array [grantValue ["*"] ["*"] ["*"]])],
  0xe17c783111129362924994d0cf73de55db995900bb2e9c2530ed837bb30b5900⟩

def ruleValue (status : String) : Value := .map [(txt "authorized_data_hashes",.array []),
  (txt "installation_grant",lapsing.ref),(txt "installed_by",.bytes bob.contentHash.toBytes),
  (txt "result_path",txt "app/result"),(txt "root_expression",yes.ref),
  (txt "root_expression_path",txt "app/rule"),(txt "status",txt status)]

def activeRule : Doc := ⟨"system/compute/subgraph",ruleValue "active",
  0xc160b6cd46e08707df891d0fd4ce1931b02292279e5768fc0d311df84d6563c2⟩
def frozenRule : Doc := ⟨"system/compute/subgraph",ruleValue "frozen",
  0x6773e6a59674fc6fd296ff3a7484db8d114ec0840947b45e4c680f8d673ba653⟩

def invalidGrant : Doc := ⟨"compute/error",.map [(txt "code",txt "installation_grant_invalid")],
  0x4a8919b0c8f4345ba3485af971346045f442b868cb47267837f9d7360442e04a⟩
def ruleResult : Doc := ⟨"compute/result",.map [(txt "expression",yes.ref),(txt "value",.bool true)],
  0x4c7ae6925c31e44efe643a65a662ed13fe5d5d4e8a5e8668871cf526fd156bd2⟩

def ruleCrates : Platform := crates [yes,lapsing,activeRule,frozenRule,invalidGrant,ruleResult]

def ruleEntry : DependencyEntry :=
  ⟨"app/rule".toList,"system/compute/processes/app-rule".toList⟩
def ruleFields : SubgraphFields :=
  ⟨"app/rule".toList,"app/result".toList,some lapsing.entity.contentHash,[]⟩

def ruleState : EngineState :=
  ⟨⟨⟨[yes,lapsing,activeRule].map Doc.entity⟩,
    ((⟨.empty⟩ : MemoryLocationIndex).set (qualifyPath "app/rule".toList aliceId)
      yes.entity.contentHash).set (qualifyPath ruleEntry.subgraphPath aliceId)
        activeRule.entity.contentHash,[]⟩,.empty⟩

def lapsingToken : CapabilityToken :=
  (grantToken ruleCrates ruleState.world.store ruleFields.grantHash).get (by decide +kernel)

/-- What the engine makes of an event at some millisecond. -/
def ruleAfter (nowMs : ℕ) : EngineState :=
  (reEvaluate ruleCrates words aliceId nowMs ruleEntry ruleState).getD ruleState

theorem ruleAfter_eq {nowMs : ℕ}
    (h : (reEvaluate ruleCrates words aliceId nowMs ruleEntry ruleState).isSome) :
    reEvaluate ruleCrates words aliceId nowMs ruleEntry ruleState = some (ruleAfter nowMs) := by
  have ⟨s,hs⟩ := Option.isSome_iff_exists.mp h
  rw [ruleAfter,hs]
  rfl

/-- The event after the grant has run out, and the one an hour later. -/
theorem evaluated_lapse :
    (((ruleState.world.index.get (qualifyPath ruleEntry.subgraphPath aliceId)).bind
        ruleState.world.store.get).bind (subgraphFields ruleCrates) = some ruleFields ∧
      lapsingToken.expiresAt = some lapse.val) ∧
    ((reEvaluate ruleCrates words aliceId ((lapse.val+1)*1000) ruleEntry ruleState).isSome ∧
      (ruleAfter ((lapse.val+1)*1000)).world.writes.map Prod.snd =
        [frozenRule.entity.contentHash,invalidGrant.entity.contentHash]) ∧
    (reEvaluate ruleCrates words aliceId (lapse.val+3600000) ruleEntry ruleState).isSome ∧
    (ruleAfter (lapse.val+3600000)).world.writes =
      [(resultKey aliceId ruleFields,ruleResult.entity.contentHash)] ∧
    errorEntity ruleCrates "installation_grant_invalid".toList = some invalidGrant.entity ∧
    ruleResult.entity.contentHash ≠ invalidGrant.entity.contentHash ∧
    resultKey aliceId ruleFields ≠ qualifyPath ruleEntry.subgraphPath aliceId := by decide +kernel

theorem rule_installed : InstalledUnder ruleCrates aliceId ruleEntry ruleFields lapsingToken
    ruleState.world where
  bound := evaluated_lapse.1.1
  granted := (Option.some_get _).symm

end ComputeSample

open ComputeSample Sample

theorem expired_grant_stops_iff_sample :
    (ruleAfter ((lapse.val+1)*1000)).world.writes.map Prod.snd =
      [frozenRule.entity.contentHash,invalidGrant.entity.contentHash] ∧
    (OnlyFreezes ruleCrates aliceId ruleEntry ruleFields ruleState.world
        (ruleAfter ((lapse.val+1)*1000)).world ↔
      lapse.val < (lapse.val+1)*1000/1000 ∨ ∀ expressionHash expression,
        ruleState.world.index.get (qualifyPath ruleFields.rootPath aliceId) = some expressionHash →
        ruleState.world.store.get expressionHash = some expression →
        Settled ruleCrates words aliceId ruleEntry ruleFields lapsingToken ruleState.world
          expression) := by
  obtain ⟨⟨-,hexpires⟩,⟨hruns,hwrites⟩,-⟩ := evaluated_lapse
  exact ⟨hwrites,expired_grant_stops_iff rule_installed hexpires (ruleAfter_eq hruns)⟩

/-- An hour after the grant has run out the engine still writes the result. -/
theorem late_result_written :
    InstalledUnder ruleCrates aliceId ruleEntry ruleFields lapsingToken ruleState.world ∧
    lapsingToken.expiresAt = some lapse.val ∧
    (reEvaluate ruleCrates words aliceId (lapse.val+3600000) ruleEntry ruleState).isSome ∧
    ¬ OnlyFreezes ruleCrates aliceId ruleEntry ruleFields ruleState.world
      (ruleAfter (lapse.val+3600000)).world := by
  obtain ⟨⟨-,hexpires⟩,-,hruns,hwritten,hinvalid,hresult,hpaths⟩ := evaluated_lapse
  refine ⟨rule_installed,hexpires,hruns,fun ⟨own,hown,hfreezes⟩ => ?_⟩
  have hmem : (resultKey aliceId ruleFields,ruleResult.entity.contentHash) ∈ own := by
    have happ : own = own++ruleState.world.writes := (List.append_nil own).symm
    rw [happ,← hown,hwritten]
    exact List.mem_cons_self
  have ⟨error,herror,hcases⟩ := hfreezes _ hmem
  have hsame := Option.some.inj (hinvalid.symm.trans herror)
  subst hsame
  rcases hcases with hwrite | ⟨updated,_,hwrite⟩
  · exact hresult (congrArg Prod.snd hwrite)
  · exact hpaths (congrArg Prod.fst hwrite)

end Compute
end EntityCore
