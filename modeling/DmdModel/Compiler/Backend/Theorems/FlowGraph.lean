import DmdModel.Compiler.Backend.Theorems.Elimblks
import DmdModel.Compiler.Backend.Theorems.BrcombineEdges
import DmdModel.Compiler.Backend.Theorems.BrtailrecursionEdges

namespace Compiler.Backend.BlockOpt

open Relation

variable {n : Nat} {p : Passes n} {tr : TailRecursion n} {bo bo' : BlockOpt n} {b : Nat}

theorem WellFormed.bltailmerge (h : WellFormed bo) :
    ∃ bo', bo.bltailmerge p = some bo' ∧ WellFormed bo' := by
  obtain ⟨bo', hbo', hr⟩ := h.exists_bltailmerge (p := p)
  refine ⟨bo', hbo', ?_⟩
  clear hbo'
  induction hr with
  | refl => exact h
  | tail _ hm ih =>
    obtain ⟨b, bn, ht, rfl⟩ := hm
    exact ht.wellFormed ih

-- The graph is well formed after each pass, unreachable blocks without a label are those that are removed, and
-- two of the passes only change the order of the blocks.
structure StaysWellFormed (p : Passes n) (tr : TailRecursion n) (bo : BlockOpt n) : Prop where
  bropt           : ∃ bo', bo.bropt p = some bo' ∧ WellFormed bo'
  brrear          : ∃ bo', bo.brrear = some bo' ∧ WellFormed bo'
  blident         : WellFormed (bo.blident p)
  blreturn        : ∀ MFtime, WellFormed (bo.blreturn p MFtime)
  bltailmerge     : ∃ bo', bo.bltailmerge p = some bo' ∧ WellFormed bo'
  brtailrecursion : ∃ bo', bo.brtailrecursion tr = some bo' ∧ WellFormed bo'
  brcombine       : ∃ bo', bo.brcombine = some bo' ∧ WellFormed bo'
  blexit          : WellFormed bo.blexit ∧ bo.blexit.list.Perm bo.list
  brmin           : WellFormed bo.brmin ∧ ∃ l, bo.brmin = { bo with list := l } ∧ l.Perm bo.list
  blassertsplit   : WellFormed bo.blassertsplit
  elimblks        : ∃ bo₁ dfo, bo.compdfo = some (bo₁, dfo) ∧ WellFormed bo₁.elimblks ∧
    ∀ b, b ∈ bo₁.elimblks.list ↔ b ∈ bo.list ∧ ¬bo.Removed b

-- No switch is on a constant, no goto is put into the expression of a branch, a conditional expression that is
-- split for tail recursion has calls as its tails, and no edge to or from an unreachable block is cut.
structure KeepsEdges (tr : TailRecursion n) (bo : BlockOpt n) : Prop where
  switches : ∀ b ∈ bo.list, ¬ConstSwitch (bo.block b)
  branches : ∀ b ∈ bo.list, ¬Combines b bo
  tails    : tr.enabled → ∀ b ∈ bo.scanned bo.list, CallsThroughout tr.funcsym (fun _ => False) bo b
  cuts     : CutsNoEdge bo

-- The passes keep a graph well formed if and only if none of these is met.
theorem staysWellFormed_iff (h : WellFormed bo) (hcomplete : ∀ b, (bo.block b).Complete) :
    StaysWellFormed p tr bo ↔ KeepsEdges tr bo := by
  have hcomb : Combinable bo := h.combinable hcomplete
  obtain ⟨bo₁, hbropt, -⟩ := exists_bropt (p := p) h hcomplete
  obtain ⟨bo₂, dfo, hdfo, hlist, hcuts⟩ := h.elimblks_iff
  constructor
  case mp =>
    intro hk
    refine ⟨?_, (brcombine_wellFormed_iff h hcomb).mp hk.brcombine,
      h.brtailrecursion_iff.mp hk.brtailrecursion, ?_⟩
    case refine_1 =>
      obtain ⟨bo', hbo', hwf⟩ := hk.bropt
      exact (bropt_wellFormed_iff h hcomplete hbo').mp hwf
    case refine_2 =>
      obtain ⟨bo', dfo', hdfo', hwf, -⟩ := hk.elimblks
      cases hdfo.symm.trans hdfo'
      exact hcuts.mp hwf
  case mpr =>
    intro hk
    obtain ⟨l, heq, hp, -⟩ := exists_brmin bo
    exact {
      bropt           := ⟨bo₁, hbropt, (bropt_wellFormed_iff h hcomplete hbropt).mpr hk.switches⟩
      brrear          := h.brrear
      blident         := h.blident
      blreturn _      := h.blreturn
      bltailmerge     := h.bltailmerge
      brtailrecursion := h.brtailrecursion_iff.mpr hk.tails
      brcombine       := (brcombine_wellFormed_iff h hcomb).mpr hk.branches
      blexit          := h.blexit
      brmin           := ⟨h.brmin, l, heq, hp⟩
      blassertsplit   := h.blassertsplit
      elimblks        := ⟨bo₂, dfo, hdfo, hcuts.mpr hk.cuts, hlist⟩
    }

-- if (x) return x; else return x;
def returns : List (Block Nat 1) := [
  { bc := .iftrue, Belem := some BlockOpt.x, Bsucc := [1, 2] },
  { bc := .retexp, Belem := some BlockOpt.x, Bpred := [0] },
  { bc := .retexp, Belem := some BlockOpt.x, Bpred := [0] }
]

-- if (x) x; return;
def ifThen : List (Block Nat 1) := [
  { bc := .iftrue, Belem := some BlockOpt.x, Bsucc := [1, 2] },
  { bc := .goto_, Belem := some BlockOpt.x, Bsucc := [2], Bpred := [0] },
  { bc := .ret, Bpred := [0, 1] }
]

theorem returns_wellFormed : WellFormed (ofBlocks returns) :=
  ofBlocks_wellFormed (by decide) (by decide) (by decide) (by decide) rfl

theorem ifThen_wellFormed : WellFormed (ofBlocks ifThen) :=
  ofBlocks_wellFormed (by decide) (by decide) (by decide) (by decide) rfl

-- The function itself is symbol 0.
def selfCalls : TailRecursion 1 where
  enabled      := true
  funcsym      := 0
  assignparams := id

theorem returns_keepsEdges : KeepsEdges selfCalls (ofBlocks returns) := by
  have hbc (b : Nat) : ((ofBlocks returns).block b).bc ≠ .switch_ ∧
      ((ofBlocks returns).block b).bc ≠ .goto_ :=
    forall_ofBlocks (P := fun blk : Block Nat 1 => blk.bc ≠ .switch_ ∧ blk.bc ≠ .goto_)
      (by decide) (by decide) b
  have hreach {b s : Nat} (he : (ofBlocks returns).Edge b s) : (ofBlocks returns).Reachable b := by
    have hnil : b = 0 ∨ ((ofBlocks returns).block b).Bsucc = [] := by
      match b with
      | 0 => exact .inl rfl
      | 1 => exact .inr rfl
      | 2 => exact .inr rfl
      | _ + 3 => exact .inr rfl
    obtain rfl | hnil := hnil
    case inl => exact ⟨0, rfl, .refl⟩
    case inr => simp [Edge, hnil] at he
  refine ⟨fun b _ hc => (hbc b).left hc.left, ?_, fun _ b _ => ?_, fun b s he => ⟨?_, ?_⟩⟩
  case refine_1 =>
    rintro b - ⟨b2, b3, -, -, -, hg, -⟩
    exact (hbc b2).right hg
  case refine_2 =>
    intro e r _ hr
    have hg := (hbc b).right
    unfold returnBlock at hr
    dsimp only at hr
    cases hb : ((ofBlocks returns).block b).bc with
    | goto_ => exact absurd hb hg
    | _ =>
      rw [hb] at hr
      cases hr
  case refine_3 => exact fun hr => absurd (hreach he) hr.right.left
  case refine_4 => exact fun hr => absurd ((hreach he).trans (.single he)) hr.right.left

theorem staysWellFormed_returns : StaysWellFormed (unoptimized 1) selfCalls (ofBlocks returns) :=
  (staysWellFormed_iff returns_wellFormed (plain_ofBlocks (by decide)).left).mpr returns_keepsEdges

-- The branch becomes a goto with two successors.
theorem brcombine_breaks_ifThen : WellFormed (ofBlocks ifThen) ∧
    (∀ b, ((ofBlocks ifThen).block b).Complete) ∧
    ∃ bo', (ofBlocks ifThen).brcombine = some bo' ∧ (bo'.block 0).bc = .goto_ ∧
      (bo'.block 0).Bsucc = [1, 2] ∧ ¬WellFormed bo' := by
  refine ⟨ifThen_wellFormed, (plain_ofBlocks (by decide)).left, (ofBlocks ifThen).combineAnd 0 1, rfl, rfl, rfl,
    fun h => ?_⟩
  have ha := h.arity 0
  exact absurd ha (by decide)

end Compiler.Backend.BlockOpt
