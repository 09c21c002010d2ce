import EntityCore.ComputeGuards
import EntityCore.PatternTarget
import EntityCore.Trampoline

/-! The authority of an evaluation over the tree. A path is checked in its canonical form
and taken in its qualified one; the two differ for the URIs of peers. -/
namespace EntityCore
variable {cap : CapabilityToken}

namespace Compute

open Ecf Strings Program

/-- The path is a URI that names a peer. -/
def namesPeer (path : Str) : Bool :=
  ((EntityUri.parse path).toOption.filter fun uri => uri.peerId ≠ []).isSome

/-! The two forms of a path. -/

theorem qualifyPath_absolute (path localPeerId : Str) : ∃ t, qualifyPath path localPeerId = '/'::t := by
  unfold qualifyPath
  split
  · rename_i habsolute
    obtain ⟨t,rfl⟩ := (startsWith_iff path ['/']).mp habsolute
    exact ⟨t,rfl⟩
  · exact ⟨_,rfl⟩

theorem canonicalize_qualifyPath (path localPeerId : Str) :
    canonicalize (qualifyPath path localPeerId) localPeerId = qualifyPath path localPeerId := by
  obtain ⟨t,ht⟩ := qualifyPath_absolute path localPeerId
  rw [ht,canonicalize_of_absolute]

/-- A path that names no peer is taken where it is checked, unless it is none at all. -/
theorem canonicalize_eq_qualifyPath {path localPeerId : Str} (hname : namesPeer path = false)
    (hnever : canonicalize path localPeerId ≠ neverMatch) :
    canonicalize path localPeerId = qualifyPath path localPeerId := by
  have huri : (EntityUri.parse path).toOption.filter (fun uri => uri.peerId ≠ []) = none := by
    rw [← Option.not_isSome_iff_eq_none]
    exact Bool.eq_false_iff.mp hname
  unfold canonicalize at hnever ⊢
  rw [huri] at hnever ⊢
  unfold qualifyPath
  by_cases hstar : path = ['*']
  · subst hstar
    rfl
  · split at hnever
    · exact absurd rfl hnever
    · split at hnever
      · exact absurd rfl hnever
      · simp_all

/-- The check reads a target in its canonical form. -/
theorem treePermission_congr {operation : String} {a b localPeerId : Str}
    (h : canonicalize a localPeerId = canonicalize b localPeerId) :
    treePermission operation a cap localPeerId = treePermission operation b cap localPeerId := by
  have hscope : ∀ resources : PathScope,
      checkResourceScope ⟨[a],[]⟩ resources localPeerId localPeerId =
        checkResourceScope ⟨[b],[]⟩ resources localPeerId localPeerId := by
    intro resources
    simp only [checkResourceScope,effectiveTargets,isCoveredBy,List.any_nil,Bool.not_false,
      List.filter_cons,List.filter_nil,if_true,List.all_cons,List.all_nil,h]
  unfold treePermission checkPermission
  congr 1
  funext grant
  simp only [grantAuthorizes,hscope]

/-- A path that is accepted is one. -/
theorem canonicalize_ne_never_of_permission {operation : String} {path localPeerId : Str}
    (h : treePermission operation path cap localPeerId = true) :
    canonicalize path localPeerId ≠ neverMatch := by
  intro hnever
  obtain ⟨grant,-,hgrant⟩ := List.any_eq_true.mp h
  have hscope : checkResourceScope ⟨[path],[]⟩ grant.resources localPeerId localPeerId = true := by
    simp only [grantAuthorizes,Bool.and_eq_true] at hgrant
    exact hgrant.2
  simp only [checkResourceScope,effectiveTargets,isCoveredBy,List.any_nil,Bool.not_false,
    List.filter_cons,List.filter_nil,if_true,List.all_cons,List.all_nil,hnever,
    matchesPattern_never,Bool.and_true,Bool.and_eq_true] at hscope
  obtain ⟨⟨-,hcovered⟩,-⟩ := hscope
  simp at hcovered

/-! Confinement. -/

/-- The capability accepts a request whose target is the key. -/
def Authorized (env : EvalEnv) (operation : String) (key : Str) : Prop :=
  ∃ cap, env.capability = some cap ∧ ∃ target, canonicalize target env.localPeerId = key ∧
    treePermission operation target cap env.localPeerId

/-- Every access of the tree is within the authority, and there is none without one. -/
structure Confined (env : EvalEnv) (log : List Event) : Prop where
  read : ∀ path key, .read path key ∈ log → Authorized env "get" key
  wrote : ∀ path key, .wrote path key ∈ log → Authorized env "put" key
  silent : env.capability = none → ∀ path key,
    .read path key ∉ log ∧ .wrote path key ∉ log ∧ .manifest key ∉ log

/-- Where the checks of the forms are enough. -/
structure Accountable (env : EvalEnv) (log : List Event) : Prop where
  wrote : ∀ path key, .wrote path key ∈ log → env.capability.isSome
  manifest : ∀ key, .manifest key ∈ log → env.capability.isSome
  readUri : ∀ path key cap, .read path key ∈ log → env.capability = some cap → namesPeer path →
    treePermission "get" key cap env.localPeerId
  wroteUri : ∀ path key cap, .wrote path key ∈ log → env.capability = some cap → namesPeer path →
    treePermission "put" key cap env.localPeerId

section Confinement

variable {env : EvalEnv}

theorem Authorized.permission {operation : String} {path : Str} (hcap : env.capability = some cap)
    (h : Authorized env operation (qualifyPath path env.localPeerId)) :
    treePermission operation (qualifyPath path env.localPeerId) cap env.localPeerId = true := by
  obtain ⟨cap',hcap',target,htarget,hpermission⟩ := h
  have hsame : cap = cap' := Option.some.inj (hcap.symm.trans hcap')
  rw [hsame,← treePermission_congr (htarget.trans (canonicalize_qualifyPath path _).symm)]
  exact hpermission

/-- What was checked as written is authorized as taken, but for the URIs of peers. -/
theorem authorized_of_checked {operation : String} {path : Str} (hcap : env.capability = some cap)
    (hpath : treePermission operation path cap env.localPeerId = true)
    (huri : namesPeer path = true →
      treePermission operation (qualifyPath path env.localPeerId) cap env.localPeerId = true) :
    Authorized env operation (qualifyPath path env.localPeerId) := by
  cases hname : namesPeer path with
  | true => exact ⟨cap,hcap,_,canonicalize_qualifyPath path _,huri hname⟩
  | false => exact ⟨cap,hcap,path,
      canonicalize_eq_qualifyPath hname (canonicalize_ne_never_of_permission hpath),hpath⟩

theorem confined_iff {log : List Event} (hlog : ∀ e ∈ log, Checked env e) :
    Confined env log ↔ Accountable env log := by
  constructor
  · intro h
    constructor
    · intro path key hmem
      obtain ⟨cap,hcap,-⟩ := h.wrote path key hmem
      simp [hcap]
    · intro key hmem
      by_contra hnone
      rw [Option.not_isSome_iff_eq_none] at hnone
      exact (h.silent hnone [] key).2.2 hmem
    · intro path key cap hmem hcap _
      obtain ⟨rfl,-⟩ := hlog _ hmem
      exact (h.read path _ hmem).permission hcap
    · intro path key cap hmem hcap _
      obtain ⟨rfl,-⟩ := hlog _ hmem
      exact (h.wrote path _ hmem).permission hcap
  · intro h
    have hread : ∀ path key, .read path key ∈ log → Authorized env "get" key := by
      intro path key hmem
      obtain ⟨rfl,cap,hcap,hpath⟩ := hlog _ hmem
      exact authorized_of_checked hcap hpath (h.readUri path _ cap hmem hcap)
    have hwrote : ∀ path key, .wrote path key ∈ log → Authorized env "put" key := by
      intro path key hmem
      obtain ⟨rfl,hpath⟩ := hlog _ hmem
      obtain ⟨cap,hcap⟩ := Option.isSome_iff_exists.mp (h.wrote path _ hmem)
      exact authorized_of_checked hcap (hpath cap hcap) (h.wroteUri path _ cap hmem hcap)
    refine ⟨hread,hwrote,fun hnone path key => ⟨fun hmem => ?_,fun hmem => ?_,fun hmem => ?_⟩⟩
    · obtain ⟨cap,hcap,-⟩ := hread path key hmem
      exact absurd (hnone.symm.trans hcap) (by simp)
    · obtain ⟨cap,hcap,-⟩ := hwrote path key hmem
      exact absurd (hnone.symm.trans hcap) (by simp)
    · have hsome := h.manifest key hmem
      simp [hnone] at hsome

end Confinement

/-- Evaluation stays within its authority exactly where a capability stands behind every
write of `store` and every search for a declaration, and covers the URIs of peers also in
the form in which they are taken. -/
theorem evaluate_confined_iff {W : Type} (X : Platform) (F : Runtime) (host : Host W) (env : EvalEnv)
    (entity : Entity) (scope : Scope) (s : EvalState W) :
    Confined env (evaluate X F host env entity scope {s with log := []}).2.log ↔
      Accountable env (evaluate X F host env entity scope {s with log := []}).2.log :=
  confined_iff (evaluate_checked entity scope _ fun _ he => absurd he List.not_mem_nil)

namespace ComputeSample

open Ecf Sample

def one : Doc := literal (integer 1)
  0xbfd2bf225c9b67a36440733977d3dc45d83ba30f4af40d989580a89a63027efd
def pathLiteral : Doc := literal (txt "app/x")
  0x7370636dde0c1b0962b850b2c85298e55c2926d40ed73495bf43a5a25afd2c23

def storeOne : Doc := ⟨"compute/apply",.map [
    (txt "args",.map [(txt "path",pathLiteral.ref),(txt "value",one.ref)]),
    (txt "operation",txt "eval"),(txt "path",txt "system/compute/builtins/store")],
  0xe8c3bf3b7b5f6c1f5be496617d9b4d936b1216fb3d769c56cd8f4f2f67c1834d⟩

def storeArgs : Doc := ⟨"system/compute/store-args",.map [(txt "path",txt "app/x"),
  (txt "value",one.ref)],0x84ea877d1cfa6e0cbc75d3f5a6162c1ded61b9588ac11cac0021096d5c8c02f5⟩

def anyOne : Doc := ⟨"primitive/any",integer 1,
  0xedc23a7e0e4f10df37215ab8c848873ce653933aa44277d60548a915f088cd89⟩

end ComputeSample

open ComputeSample in
theorem store_without_capability : ¬ Confined (environment none)
    (evaluate (crates [one,pathLiteral,storeOne,storeArgs,anyOne]) words (Host.memory none)
      (environment none) storeOne.entity .empty {start [one,pathLiteral,storeOne] with log := []}).2.log := by
  intro h
  have hwrote : Event.wrote "app/x".toList ('/'::Sample.aliceId++ "/app/x".toList) ∈
      (evaluate (crates [one,pathLiteral,storeOne,storeArgs,anyOne]) words (Host.memory none)
        (environment none) storeOne.entity .empty
          {start [one,pathLiteral,storeOne] with log := []}).2.log := by
    decide +kernel
  exact (h.silent rfl _ _).2.1 hwrote

end Compute

end EntityCore
