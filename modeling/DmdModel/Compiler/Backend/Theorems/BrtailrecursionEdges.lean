import DmdModel.Compiler.Backend.Theorems.Brtailrecursion

-- The lists of successors and predecessors under tail recursion.
namespace Compiler.Backend.BlockOpt

open Relation

variable {n : Nat} {tr : TailRecursion n} {bo bo' : BlockOpt n} {b c s x y start : Nat} {bn : Option Nat}
variable {e E1 E2 : Elem n} {F : Nat → Prop}

section loose

-- The lists of predecessors that match the successors.
def relink (bo : BlockOpt n) : BlockOpt n where
  block s := { bo.block s with
    Bpred := (List.range bo.fresh).flatMap fun b => List.replicate (bo.succCount b s) b }
  list    := bo.list
  fresh   := bo.fresh

theorem relink_code : (bo.relink.block x).code = (bo.block x).code :=
  rfl

theorem relink_succCount : bo.relink.succCount x s = bo.succCount x s :=
  rfl

theorem relink_predCount : bo.relink.predCount x s = if x < bo.fresh then bo.succCount x s else 0 := by
  have hsum (l : List Nat) (hl : l.Nodup) :
      (l.flatMap fun b => List.replicate (bo.succCount b s) b).count x =
        if x ∈ l then bo.succCount x s else 0 := by
    induction l with
    | nil => simp
    | cons b l ih =>
      obtain ⟨hb, hl⟩ := List.nodup_cons.mp hl
      rw [List.flatMap_cons, List.count_append, ih hl, List.count_replicate]
      by_cases hx : b = x
      case pos => simp [hx, hx ▸ hb]
      case neg => simp [hx, Ne.symm hx]
  have heq : bo.relink.predCount x s = _ := hsum _ List.nodup_range
  simpa using heq

theorem relink_edges (hx : x < bo.fresh) : bo.relink.succCount x s = bo.relink.predCount x s := by
  rw [relink_predCount, if_pos hx, relink_succCount]

-- The graph is well formed but for the blocks in F: they go on to an empty return block that does not list
-- them as predecessors.
structure Loose (F : Nat → Prop) (bo : BlockOpt n) : Prop where
  relink : WellFormed bo.relink
  edges  : ∀ b, ¬F b → ∀ s, bo.succCount b s = bo.predCount b s
  goto   : ∀ b, F b → (bo.block b).bc = .goto_ ∧ (bo.block b).Belem.isSome ∧
    ∃ r, (bo.block b).Bsucc = [r] ∧ (bo.block r).Belem = none ∧ (bo.block r).bc = .ret
  preds  : ∀ b, F b → ∀ s, bo.predCount b s = 0

namespace Loose

variable (h : Loose F bo)

include h

theorem lt_fresh (hx : F x) : x < bo.fresh := by
  by_contra hn
  have hcode := congrArg Block.code (h.relink.empty x (Nat.le_of_not_lt hn))
  rw [relink_code] at hcode
  have hbc := (h.goto x hx).left
  rw [Block.bc_of_code hcode] at hbc
  cases hbc

theorem not_edge (hs : bo.fresh ≤ s) : ¬bo.Edge x s :=
  h.relink.fresh_not_edge hs

theorem predCount_fresh (hs : bo.fresh ≤ s) : bo.predCount x s = 0 := by
  by_cases hx : F x
  case pos => exact h.preds x hx s
  case neg =>
    rw [← h.edges x hx, ← Nat.le_zero, ← Nat.not_lt, ← edge_iff_succCount]
    exact h.not_edge hs

theorem predCount_of_fresh (hx : bo.fresh ≤ x) : bo.predCount x s = 0 := by
  have hnil : (bo.block x).Bsucc = [] := h.relink.fresh_Bsucc hx
  rw [← h.edges x fun hf => Nat.not_lt.mpr hx (h.lt_fresh hf), succCount, hnil, List.count_nil]

-- It is well formed if and only if there is no such block.
theorem wellFormed_iff : WellFormed bo ↔ ∀ b, ¬F b := by
  constructor
  case mp =>
    intro hwf b hb
    obtain ⟨-, -, r, hs, -⟩ := h.goto b hb
    have hedges := hwf.edges b r
    rw [h.preds b hb, succCount, hs, List.count_singleton_self] at hedges
    cases hedges
  case mpr =>
    intro hF
    have hedges (b s : Nat) := h.edges b (hF b) s
    obtain ⟨start, hs, hp⟩ := h.relink.start
    refine ⟨hedges, h.relink.arity, ⟨start, hs, ?_⟩, h.relink.nodup, h.relink.reachable,
      h.relink.allocated, fun b hb => ?_⟩
    case refine_1 => exact Bpred_eq_nil_of (hedges · start) fun x => h.relink.not_edge hp
    case refine_2 =>
      have hcode := congrArg Block.code (h.relink.empty b hb)
      rw [relink_code] at hcode
      have hnil : (bo.block b).Bpred = [] := Bpred_eq_nil_of (hedges · b) fun x => h.not_edge hb
      calc bo.block b = { (bo.block b).code with Bpred := (bo.block b).Bpred } := rfl
        _ = { bc := .ret } := by rw [hcode, hnil]; rfl

end Loose

theorem WellFormed.loose (h : WellFormed bo) : Loose (fun _ => False) bo where
  edges b _ := h.edges b
  goto _ hb := hb.elim
  preds _ hb := hb.elim
  relink := by
    obtain ⟨start, hs, hp⟩ := h.start
    have hedges (b s : Nat) : bo.relink.succCount b s = bo.relink.predCount b s := by
      by_cases hb : b < bo.fresh
      case pos => exact relink_edges hb
      case neg =>
        rw [relink_predCount, if_neg hb, relink_succCount, h.edges]
        exact h.fresh_predCount (Nat.le_of_not_lt hb)
    refine ⟨hedges, h.arity, ⟨start, hs, ?_⟩, h.nodup, h.reachable, h.allocated, fun b hb => ?_⟩
    case refine_1 => exact Bpred_eq_nil_of (hedges · start) fun x => h.not_edge hp
    case refine_2 =>
      have hnil : (bo.relink.block b).Bpred = [] :=
        Bpred_eq_nil_of (hedges · b) fun x => h.fresh_not_edge hb
      have hcode : (bo.relink.block b).code = { bc := .ret } := by rw [relink_code, h.empty b hb]; rfl
      calc bo.relink.block b = { (bo.relink.block b).code with Bpred := (bo.relink.block b).Bpred } := rfl
        _ = { bc := .ret } := by rw [hcode, hnil]

end loose

section steps

variable {r : Nat}

theorem returnBlock_cases (ha : (bo.block b).Arity) (h : bo.returnBlock b = some bn) :
    (bo.block b).Bsucc = bn.toList ∧
      ((bn = none ∧ ((bo.block b).bc = .ret ∨ (bo.block b).bc = .retexp)) ∨
        ∃ r, bn = some r ∧ (bo.block b).bc = .goto_ ∧ (bo.block r).Belem = none ∧
          (bo.block r).bc = .ret) := by
  unfold returnBlock at h
  rw [Block.Arity] at ha
  dsimp only at h
  cases hbc : (bo.block b).bc with
  | ret | retexp =>
    rw [hbc] at h ha
    cases h
    exact ⟨List.eq_nil_of_length_eq_zero ha, .inl ⟨rfl, by simp⟩⟩
  | goto_ =>
    rw [hbc] at h ha
    obtain ⟨r, hr, h⟩ := Option.bind_eq_some_iff.mp h
    obtain ⟨x, hs⟩ := List.length_eq_one_iff.mp ha
    split at h
    case isFalse => cases h
    case isTrue hret =>
      cases h
      rw [hs] at hr ⊢
      have hxr : x = r := Option.some.inj hr
      subst hxr
      exact ⟨rfl, .inr ⟨x, rfl, rfl, hret.left, hret.right⟩⟩
  | iftrue | switch_ | exit =>
    rw [hbc] at h
    cases h

theorem elim_erase_toList {l : List Nat} (h : l = bn.toList) : bn.elim l l.erase = [] := by
  cases bn with
  | none   => exact h
  | some r => simp [h]

theorem count_toList : bn.toList.count s = if bn = some s then 1 else 0 := by
  cases bn with
  | none   => rfl
  | some r => rw [Option.toList_some, List.count_singleton]; simp

theorem Loose.Bsucc (h : Loose F bo) (hr : bo.returnBlock b = some bn) :
    (bo.block b).Bsucc = bn.toList :=
  (returnBlock_cases (h.relink.arity b) hr).left

-- The predecessors that are left once block b does not go on to the return block any more.
theorem Loose.unlinked (h : Loose F bo) (hr : bo.returnBlock b = some bn) :
    bo.predCount b s - (if bn = some s then 1 else 0) = 0 := by
  by_cases hF : F b
  case pos => rw [h.preds b hF, Nat.zero_sub]
  case neg => rw [← h.edges b hF, succCount, h.Bsucc hr, count_toList, Nat.sub_self]

-- An empty return block is not changed.
theorem ne_of_Belem (hbelem : (bo.block b).Belem.isSome) (hempty : (bo.block r).Belem = none) : r ≠ b := by
  rintro rfl
  rw [hempty] at hbelem
  cases hbelem

end steps

section splitCond

-- The blocks that are missing as predecessors when block b is split.
def Unlisted (F : Nat → Prop) (bo : BlockOpt n) (b : Nat) (bn : Option Nat) (x : Nat) : Prop :=
  (F x ∧ x ≠ b) ∨ (bn.isSome ∧ (x = bo.fresh ∨ x = bo.fresh + 1))

variable (hsp : SplitCond b bn E1 E2 bo bo') (h : Loose F bo) (hr : bo.returnBlock b = some bn)

include hsp

theorem SplitCond.arm (hx : x = bo.fresh ∨ x = bo.fresh + 1) :
    (bo'.block x).bc = (bo.block b).bc ∧ (bo'.block x).Belem.isSome ∧ (bo'.block x).Bsucc = bn.toList := by
  obtain rfl | rfl := hx
  case inl =>
    have hB : (bo'.block bo.fresh).Belem = some E1 := (congrArg Block.Belem hsp.arm₁ :)
    exact ⟨(congrArg Block.bc hsp.arm₁ :), by rw [hB]; rfl, (congrArg Block.Bsucc hsp.arm₁ :)⟩
  case inr =>
    have hB : (bo'.block (bo.fresh + 1)).Belem = some E2 := (congrArg Block.Belem hsp.arm₂ :)
    exact ⟨(congrArg Block.bc hsp.arm₂ :), by rw [hB]; rfl, (congrArg Block.Bsucc hsp.arm₂ :)⟩

theorem SplitCond.same (hxb : x ≠ b) (hx : ¬(x = bo.fresh ∨ x = bo.fresh + 1)) :
    (bo'.block x).code = (bo.block x).code :=
  hsp.other x hxb (not_or.mp hx).left (not_or.mp hx).right

include h hr

theorem SplitCond.self_Bsucc : (bo'.block b).Bsucc = [bo.fresh, bo.fresh + 1] := by
  rw [hsp.Bsucc, elim_erase_toList (h.Bsucc hr)]
  rfl

theorem SplitCond.newBlocks (hb : b ∈ bo.list) :
    NewBlocks (· = b) (fun x => x = bo.fresh ∨ x = bo.fresh + 1) bo.relink bo'.relink := by
  have hlt : b < bo.fresh := h.relink.allocated b hb
  have hself := hsp.self_Bsucc h hr
  have hlist {x : Nat} : x ∈ bo'.list ↔ x ∈ bo.list ∨ x = bo.fresh ∨ x = bo.fresh + 1 := by
    rw [hsp.list, insertAfter_mem, insertAfter_mem, insertAfter_mem]
    simp only [hb, and_true, or_true]
    tauto
  have hnot {x : Nat} (hx : bo.fresh ≤ x) : x ∉ bo.list := h.relink.fresh_not_mem_list hx
  exact {
    start := by
      rw [startblock, startblock]
      exact (congrArg List.head? hsp.list).trans (insertAfter_head?.trans insertAfter_head?)
    nodup := by
      change bo'.list.Nodup
      rw [hsp.list]
      refine insertAfter_nodup (insertAfter_nodup h.relink.nodup (hnot le_rfl)) fun hm => ?_
      obtain hm | ⟨hm, -⟩ := insertAfter_mem.mp hm
      case inl => exact hnot (Nat.le_succ _) hm
      case inr => omega
    keeps  := fun x hx => hlist.mpr (.inl hx)
    listed := fun x y hx _ _ => hlist.mpr (.inr hx)
    only   := fun x hx => hlist.mp hx
    fresh  := by
      change bo.fresh ≤ bo'.fresh
      rw [hsp.fresh]
      omega
    isNew  := fun x hx => by
      change bo.fresh ≤ x ∧ x < bo'.fresh
      rw [hsp.fresh]
      omega
    isOld  := fun x hx => hx ▸ hlt
    edge   := fun x y hxy => by
      change y ∈ (bo'.block x).Bsucc at hxy
      by_cases hxb : x = b
      case pos =>
        rw [hxb, hself] at hxy
        exact .inl ⟨List.mem_pair.mp hxy, .inl hxb⟩
      case neg =>
        by_cases hx : x = bo.fresh ∨ x = bo.fresh + 1
        case pos =>
          rw [(hsp.arm hx).right.right, ← h.Bsucc hr] at hxy
          exact .inr (.inr ⟨hx, ⟨b, rfl⟩, fun z hz => hz ▸ hxy⟩)
        case neg =>
          rw [Block.code_Bsucc (hsp.same hxb hx)] at hxy
          exact .inr (.inl ⟨hx, hxy⟩)
    same   := fun x hx => by
      obtain ⟨hxb, hx⟩ := not_or.mp hx
      have hcode := hsp.same hxb hx
      refine ⟨hcode, fun s => ?_⟩
      rw [relink_predCount, relink_predCount, hsp.fresh, succCount_congr hcode]
      by_cases hlt : x < bo.fresh
      case pos => rw [if_pos hlt, if_pos (by omega)]
      case neg => rw [if_neg hlt, if_neg (by omega)]
    counts := fun x hx s => by
      refine relink_edges ?_
      rw [hsp.fresh]
      omega
    arity  := fun x hx => by
      change (bo'.block x).Arity
      obtain rfl | hx := hx
      case inl =>
        rw [Block.Arity, hsp.bc, hself]
        rfl
      case inr =>
        have ha : (bo.block b).Arity := h.relink.arity b
        rw [Block.Arity, (hsp.arm hx).left, (hsp.arm hx).right.right, ← h.Bsucc hr]
        exact ha
  }

-- The two blocks that block b is split into go on to its return block, which does not list them.
theorem SplitCond.loose (hb : b ∈ bo.list) (hbelem : (bo.block b).Belem.isSome) :
    Loose (Unlisted F bo b bn) bo' := by
  have hlt : b < bo.fresh := h.relink.allocated b hb
  have hne {x : Nat} (hx : x = bo.fresh ∨ x = bo.fresh + 1) : x ≠ b := by omega
  have hFlt {x : Nat} (hx : F x) : ¬(x = bo.fresh ∨ x = bo.fresh + 1) := by
    have := h.lt_fresh hx
    omega
  have hreturn {x r : Nat} (hx : bo.Edge x r) (hempty : (bo.block r).Belem = none) :
      (bo'.block r).code = (bo.block r).code := by
    refine hsp.same (ne_of_Belem hbelem hempty) fun hr => ?_
    exact h.not_edge (by omega) hx
  refine ⟨(hsp.newBlocks h hr hb).wellFormed h.relink, fun x hx s => ?_, fun x hx => ?_, fun x hx s => ?_⟩
  case refine_1 =>
    obtain ⟨hF, hn⟩ := not_or.mp hx
    by_cases hxb : x = b
    case pos =>
      rw [hxb, succCount, hsp.self_Bsucc h hr]
      by_cases hs : s = bo.fresh ∨ s = bo.fresh + 1
      case pos =>
        rw [hsp.new b s hs, if_pos rfl]
        obtain rfl | rfl := hs
        case inl => simp
        case inr => simp
      case neg =>
        have hz := h.unlinked (s := s) hr
        rw [hsp.preds b s (fun hb' => hne hb' rfl) hs]
        simp only [true_and, hz]
        exact List.count_eq_zero.mpr (mt List.mem_pair.mp hs)
    case neg =>
      by_cases hx : x = bo.fresh ∨ x = bo.fresh + 1
      case pos =>
        have hnone : bn = none := Option.not_isSome_iff_eq_none.mp fun hs => hn ⟨hs, hx⟩
        rw [hsp.arms x s hx (h.predCount_of_fresh (by omega)), succCount, (hsp.arm hx).right.right, hnone]
        rfl
      case neg =>
        have hF : ¬F x := fun hF' => hF ⟨hF', hxb⟩
        rw [succCount_congr (hsp.same hxb hx), h.edges x hF]
        by_cases hs : s = bo.fresh ∨ s = bo.fresh + 1
        case pos => rw [hsp.new x s hs, if_neg hxb, h.predCount_fresh (by omega)]
        case neg => rw [hsp.preds x s hx hs, if_neg fun hb' => hxb hb'.left, Nat.sub_zero]
  case refine_2 =>
    obtain ⟨hF, hxb⟩ | ⟨hsome, hx⟩ := hx
    case inl =>
      obtain ⟨hbc, hB, r, hs, hempty, hret⟩ := h.goto x hF
      have hcode := hsp.same hxb (hFlt hF)
      have hcode' := hreturn (x := x) (by rw [Edge, hs]; exact List.mem_singleton_self r) hempty
      rw [Block.code_bc hcode, Block.code_Belem hcode, Block.code_Bsucc hcode]
      exact ⟨hbc, hB, r, hs, (Block.code_Belem hcode').trans hempty, (Block.code_bc hcode').trans hret⟩
    case inr =>
      obtain ⟨hbc, hB, hs⟩ := hsp.arm hx
      have ha : (bo.block b).Arity := h.relink.arity b
      obtain ⟨hsucc, ⟨rfl, -⟩ | ⟨r, rfl, hgo, hempty, hret⟩⟩ := returnBlock_cases ha hr
      case inl => cases hsome
      case inr =>
        have hcode' := hreturn (x := b) (by rw [Edge, hsucc]; exact List.mem_singleton_self r) hempty
        exact ⟨hbc.trans hgo, hB, r, hs, (Block.code_Belem hcode').trans hempty,
          (Block.code_bc hcode').trans hret⟩
  case refine_3 =>
    obtain ⟨hF, hxb⟩ | ⟨-, hx⟩ := hx
    case inr => exact hsp.arms x s hx (h.predCount_of_fresh (by omega))
    case inl =>
      by_cases hs : s = bo.fresh ∨ s = bo.fresh + 1
      case pos => rw [hsp.new x s hs, if_neg hxb]
      case neg => rw [hsp.preds x s (hFlt hF) hs, h.preds x hF, Nat.zero_sub]

end splitCond

section tailCall

variable (hsp : TailCall b start bn bo bo') (h : Loose F bo) (hr : bo.returnBlock b = some bn)
variable (hb : b ∈ bo.list) (hs : bo.startblock = some start)

include hsp h hr

theorem TailCall.self_Bsucc : (bo'.block b).Bsucc = [start] := by
  rw [hsp.Bsucc, elim_erase_toList (h.Bsucc hr)]
  rfl

include hb hs

theorem TailCall.relink_wellFormed : WellFormed bo'.relink := by
  have hlt : b < bo.fresh := h.relink.allocated b hb
  have hmem : start ∈ bo.list := List.mem_of_head? hs
  have hslt : start < bo.fresh := h.relink.allocated start hmem
  have hself := hsp.self_Bsucc h hr
  have hnew : (bo'.block bo.fresh).Bsucc = [start] := (congrArg Block.Bsucc hsp.new :)
  have hedge {x y : Nat} (hxy : bo'.relink.Edge x y) :
      (y = start ∧ (x = b ∨ x = bo.fresh)) ∨ (x ≠ bo.fresh ∧ bo.Edge x y) := by
    change y ∈ (bo'.block x).Bsucc at hxy
    by_cases hxb : x = b
    case pos =>
      rw [hxb, hself] at hxy
      exact .inl ⟨List.mem_singleton.mp hxy, .inl hxb⟩
    case neg =>
      by_cases hx : x = bo.fresh
      case pos =>
        rw [hx, hnew] at hxy
        exact .inl ⟨List.mem_singleton.mp hxy, .inr hx⟩
      case neg =>
        rw [Block.code_Bsucc (hsp.other x hxb hx)] at hxy
        exact .inr ⟨hx, hxy⟩
  have hedges (x s : Nat) : bo'.relink.succCount x s = bo'.relink.predCount x s := by
    by_cases hx : x < bo'.fresh
    case pos => exact relink_edges hx
    case neg =>
      have hle : bo.fresh + 1 ≤ x := hsp.fresh ▸ Nat.le_of_not_lt hx
      have hnil : (bo.block x).Bsucc = [] := h.relink.fresh_Bsucc ((Nat.le_succ _).trans hle)
      rw [relink_predCount, if_neg hx, relink_succCount, succCount,
        Block.code_Bsucc (hsp.other x (by omega) (by omega)), hnil, List.count_nil]
  have hnone {s : Nat} (hs' : bo.fresh ≤ s) (x : Nat) : ¬bo'.relink.Edge x s := by
    intro hx
    obtain ⟨rfl, -⟩ | ⟨-, hx⟩ := hedge hx
    case inl => omega
    case inr => exact h.not_edge hs' hx
  refine ⟨hedges, fun x => ?_, ⟨bo.fresh, ?_, ?_⟩, ?_, fun x hx => ?_, fun x hx => ?_, fun x hx => ?_⟩
  case refine_1 =>
    change (bo'.block x).Arity
    by_cases hxb : x = b
    case pos => rw [hxb, Block.Arity, hsp.bc, hself]; rfl
    case neg =>
      by_cases hx : x = bo.fresh
      case pos => rw [hx, Block.Arity, Block.bc_of_code hsp.new, hnew]; rfl
      case neg =>
        have ha : (bo.block x).Arity := h.relink.arity x
        exact (Block.arity_congr (hsp.other x hxb hx)).mpr ha
  case refine_2 => exact congrArg List.head? hsp.list
  case refine_3 => exact Bpred_eq_nil_of (hedges · _) (hnone le_rfl)
  case refine_4 =>
    change bo'.list.Nodup
    rw [hsp.list]
    exact List.nodup_cons.mpr ⟨h.relink.fresh_not_mem_list le_rfl, h.relink.nodup⟩
  case refine_5 =>
    obtain ⟨first, hfirst, hx⟩ := hx
    have hfirst' : bo.fresh = first := Option.some.inj ((congrArg List.head? hsp.list).symm.trans hfirst)
    have hreach : x = bo.fresh ∨ bo.relink.Reachable x := by
      induction hx with
      | refl => exact .inl hfirst'.symm
      | tail _ he ih =>
        obtain ⟨rfl, -⟩ | ⟨hx, he⟩ := hedge he
        case inl => exact .inr ⟨_, hs, .refl⟩
        case inr => exact .inr ((ih.resolve_left hx).trans (.single he))
    change x ∈ bo'.list
    rw [hsp.list]
    obtain rfl | hreach := hreach
    case inl => exact List.mem_cons_self
    case inr => exact List.mem_cons_of_mem _ (h.relink.reachable x hreach)
  case refine_6 =>
    change x < bo'.fresh
    change x ∈ bo'.list at hx
    rw [hsp.list] at hx
    rw [hsp.fresh]
    obtain rfl | hx := List.mem_cons.mp hx
    case inl => exact Nat.lt_succ_self _
    case inr => exact (h.relink.allocated x hx).trans (Nat.lt_succ_self _)
  case refine_7 =>
    change bo'.fresh ≤ x at hx
    rw [hsp.fresh] at hx
    have hempty : bo.relink.block x = { bc := .ret } := h.relink.empty x ((Nat.le_succ _).trans hx)
    have hcode : (bo'.relink.block x).code = { bc := .ret } := by
      rw [relink_code, hsp.other x (by omega) (by omega), ← relink_code, hempty]
      rfl
    have hnil : (bo'.relink.block x).Bpred = [] :=
      Bpred_eq_nil_of (hedges · x) (hnone ((Nat.le_succ _).trans hx))
    calc bo'.relink.block x = { (bo'.relink.block x).code with Bpred := (bo'.relink.block x).Bpred } := rfl
      _ = { bc := .ret } := by rw [hcode, hnil]

-- The block that calls goes on to the start block, which lists it.
theorem TailCall.loose (hbelem : (bo.block b).Belem.isSome) : Loose (fun x => F x ∧ x ≠ b) bo' := by
  have hlt : b < bo.fresh := h.relink.allocated b hb
  refine ⟨hsp.relink_wellFormed h hr hb hs, fun x hx s => ?_, fun x ⟨hF, hxb⟩ => ?_,
    fun x ⟨hF, hxb⟩ s => ?_⟩
  case refine_1 =>
    have hslt : start < bo.fresh := h.relink.allocated start (List.mem_of_head? hs)
    have hone {x : Nat} (hx : (bo'.block x).Bsucc = [start]) :
        bo'.succCount x s = if s = start then 1 else 0 := by
      rw [succCount, hx]
      by_cases hs : s = start
      case pos => simp [hs]
      case neg => simp [hs, Ne.symm hs]
    by_cases hxb : x = b
    case pos =>
      rw [hxb, hone (hsp.self_Bsucc h hr)]
      by_cases hsf : s = bo.fresh
      case pos => rw [hsf, hsp.none, if_neg hslt.ne']
      case neg =>
        have hz := h.unlinked (s := s) hr
        rw [hsp.preds b s hsf]
        simp only [true_and, hz, true_or, Nat.zero_add]
    case neg =>
      by_cases hxf : x = bo.fresh
      case pos =>
        rw [hxf, hone (congrArg Block.Bsucc hsp.new :)]
        by_cases hsf : s = bo.fresh
        case pos => rw [hsf, hsp.none, if_neg hslt.ne']
        case neg =>
          rw [hsp.preds _ s hsf, h.predCount_of_fresh le_rfl]
          simp
      case neg =>
        have hF : ¬F x := fun hF => hx ⟨hF, hxb⟩
        rw [succCount_congr (hsp.other x hxb hxf), h.edges x hF]
        by_cases hsf : s = bo.fresh
        case pos => rw [hsf, hsp.none, h.predCount_fresh le_rfl]
        case neg =>
          rw [hsp.preds x s hsf]
          simp [hxb, hxf]
  case refine_2 =>
    obtain ⟨hbc, hB, r, hs, hempty, hret⟩ := h.goto x hF
    have hcode := hsp.other x hxb (h.lt_fresh hF).ne
    have hr : r ≠ bo.fresh := by
      rintro rfl
      exact h.not_edge le_rfl (show bo.Edge x bo.fresh by rw [Edge, hs]; exact List.mem_singleton_self _)
    have hcode' := hsp.other r (ne_of_Belem hbelem hempty) hr
    rw [Block.code_bc hcode, Block.code_Belem hcode, Block.code_Bsucc hcode]
    exact ⟨hbc, hB, r, hs, (Block.code_Belem hcode').trans hempty, (Block.code_bc hcode').trans hret⟩
  case refine_3 =>
    by_cases hsf : s = bo.fresh
    case pos => rw [hsf, hsp.none]
    case neg =>
      rw [hsp.preds x s hsf, h.preds x hF]
      simp [hxb, (h.lt_fresh hF).ne]

end tailCall

section run

variable {F F' : Nat → Prop} {l : List Nat} {k : Nat}

-- The pass ends at a block that may return whose expression refers to the frame.
def stopsAt (bo : BlockOpt n) (b : Nat) : Bool :=
  match (bo.block b).Belem with
  | some e => (bo.returnBlock b).isSome && e.el_anyframeptr
  | none => false

-- The blocks of a list that the pass comes to.
def scanned (bo : BlockOpt n) (l : List Nat) : List Nat :=
  l.takeWhile fun b => !bo.stopsAt b

-- If the block is one of F or is split, and goes on to an empty return block, all of its tails are calls.
def CallsThroughout (funcsym : Nat) (F : Nat → Prop) (bo : BlockOpt n) (b : Nat) : Prop :=
  ∀ e r, (bo.block b).Belem = some e → bo.returnBlock b = some (some r) →
    (F b ∨ ∃ E1 E2, e.el_scancommas.arms = some (E1, E2) ∧
      (E1.isCandidate funcsym ∨ E2.isCandidate funcsym)) → e.TailCalls funcsym

-- The number of elems of a block and of the blocks of a list.
def elems (bo : BlockOpt n) (b : Nat) : Nat :=
  ((bo.block b).Belem.map Elem.nodes).getD 0

def elemsTotal (bo : BlockOpt n) (l : List Nat) : Nat :=
  (l.map fun b => bo.elems b + 1).sum

-- A block that has an expression is rewritten to one that has one, and new blocks are added.
structure Rewritten (b : Nat) (bo bo' : BlockOpt n) : Prop where
  belem  : (bo.block b).Belem.isSome
  belem' : (bo'.block b).Belem.isSome
  other  : ∀ x < bo.fresh, x ≠ b → (bo'.block x).code = (bo.block x).code

namespace Rewritten

variable (hw : Rewritten b bo bo') (h : Loose F bo)

include hw h

theorem returnBlock (hx : x < bo.fresh) (hxb : x ≠ b) : bo'.returnBlock x = bo.returnBlock x := by
  have hcode := hw.other x hx hxb
  have hempty {r : Nat} (hr : bo.Edge x r) :
      ((bo'.block r).Belem = none ∧ (bo'.block r).bc = .ret) ↔
        (bo.block r).Belem = none ∧ (bo.block r).bc = .ret := by
    by_cases hrb : r = b
    case pos =>
      subst hrb
      exact iff_of_false (fun hn => by simpa [hn.left] using hw.belem') fun hn => by
        simpa [hn.left] using hw.belem
    case neg =>
      have hlt : r < bo.fresh := by
        by_contra hn
        exact h.not_edge (Nat.le_of_not_lt hn) hr
      rw [Block.code_Belem (hw.other r hlt hrb), Block.code_bc (hw.other r hlt hrb)]
  unfold BlockOpt.returnBlock
  dsimp only
  rw [Block.code_bc hcode, Block.code_Bsucc hcode]
  cases (bo.block x).bc with
  | goto_ =>
    cases hs : (bo.block x).Bsucc[0]? with
    | none   => rfl
    | some r =>
      simp only [Option.bind_eq_bind, Option.bind_some]
      rw [if_congr (hempty (List.mem_of_getElem? hs)) rfl rfl]
  | _ => rfl

theorem stopsAt (hx : x < bo.fresh) (hxb : x ≠ b) : bo'.stopsAt x = bo.stopsAt x := by
  unfold BlockOpt.stopsAt
  rw [Block.code_Belem (hw.other x hx hxb), hw.returnBlock h hx hxb]

theorem callsThroughout {funcsym : Nat} (hx : x < bo.fresh) (hxb : x ≠ b) (hF : F' x ↔ F x) :
    CallsThroughout funcsym F' bo' x ↔ CallsThroughout funcsym F bo x := by
  rw [CallsThroughout, CallsThroughout, Block.code_Belem (hw.other x hx hxb),
    hw.returnBlock h hx hxb, hF]

omit h in
theorem elems (hx : x < bo.fresh) (hxb : x ≠ b) : bo'.elems x = bo.elems x := by
  rw [BlockOpt.elems, BlockOpt.elems, Block.code_Belem (hw.other x hx hxb)]

theorem scanned (hl : ∀ x ∈ l, x < bo.fresh ∧ x ≠ b) : bo'.scanned l = bo.scanned l := by
  induction l with
  | nil => rfl
  | cons x l ih =>
    obtain ⟨⟨hx, hxb⟩, hl⟩ := List.forall_mem_cons.mp hl
    rw [BlockOpt.scanned, BlockOpt.scanned, List.takeWhile_cons, List.takeWhile_cons, hw.stopsAt h hx hxb]
    split
    case isTrue  => exact congrArg (x :: ·) (ih hl)
    case isFalse => rfl

end Rewritten

theorem SplitCond.rewritten (hsp : SplitCond b bn E1 E2 bo bo') (hbelem : (bo.block b).Belem.isSome) :
    Rewritten b bo bo' where
  belem          := hbelem
  belem'         := hsp.belem
  other x hx hxb := hsp.other x hxb (by omega) (by omega)

theorem TailCall.rewritten (hsp : TailCall b start bn bo bo') (hbelem : (bo.block b).Belem.isSome) :
    Rewritten b bo bo' where
  belem          := hbelem
  belem'         := hsp.belem
  other x hx hxb := hsp.other x hxb hx.ne

theorem scanned_cons (h : ¬bo.stopsAt b) : bo.scanned (b :: l) = b :: bo.scanned l := by
  rw [scanned, List.takeWhile_cons, if_pos (by simpa using h)]
  rfl

theorem scanned_cons_stop (h : bo.stopsAt b) : bo.scanned (b :: l) = [] := by
  rw [scanned, List.takeWhile_cons, if_neg (by simpa using h)]

theorem mem_of_mem_scanned (h : x ∈ bo.scanned l) : x ∈ l :=
  (List.takeWhile_sublist _).mem h

-- What the result depends on: the blocks in F, and those that the pass comes to.
def Repaired (funcsym : Nat) (F : Nat → Prop) (bo : BlockOpt n) (l : List Nat) : Prop :=
  (∀ b, F b → b ∈ bo.scanned l) ∧ ∀ b ∈ bo.scanned l, CallsThroughout funcsym F bo b

-- A block that is left as it is must not be one of F.
theorem repaired_cons_of_not {funcsym : Nat} (hs : ¬bo.stopsAt b) (hb : b ∉ l)
    (hF : F b → ¬CallsThroughout funcsym F bo b) (hn : ¬F b → CallsThroughout funcsym F bo b) :
    Repaired funcsym F bo (b :: l) ↔ Repaired funcsym F bo l := by
  rw [Repaired, Repaired, scanned_cons hs, List.forall_mem_cons]
  constructor
  case mp =>
    rintro ⟨hmem, hcalls, hall⟩
    refine ⟨fun x hx => (List.mem_cons.mp (hmem x hx)).resolve_left ?_, hall⟩
    rintro rfl
    exact hF hx hcalls
  case mpr =>
    rintro ⟨hmem, hall⟩
    refine ⟨fun x hx => List.mem_cons_of_mem b (hmem x hx), hn fun hFb => ?_, hall⟩
    exact hb (mem_of_mem_scanned (hmem b hFb))

-- The call of the function itself takes the block out of F.
theorem TailCall.repaired_iff (hsp : TailCall b start bn bo bo') (h : Loose F bo)
    (hbelem : (bo.block b).Belem.isSome) (hl : ∀ x ∈ l, x < bo.fresh ∧ x ≠ b) (hs : ¬bo.stopsAt b)
    (hcalls : CallsThroughout tr.funcsym F bo b) :
    Repaired tr.funcsym (fun x => F x ∧ x ≠ b) bo' l ↔ Repaired tr.funcsym F bo (b :: l) := by
  have hw := hsp.rewritten hbelem
  rw [Repaired, Repaired, scanned_cons hs, List.forall_mem_cons, hw.scanned h hl, and_iff_right hcalls]
  refine and_congr ?_ (forall₂_congr fun x hx => ?_)
  case refine_1 =>
    refine forall_congr' fun x => ?_
    rw [List.mem_cons]
    tauto
  case refine_2 =>
    obtain ⟨hlt, hxb⟩ := hl x (mem_of_mem_scanned hx)
    exact hw.callsThroughout h hlt hxb (and_iff_left hxb)

theorem not_stopsAt (he : (bo.block b).Belem = some e) (hn : ¬e.el_anyframeptr) : ¬bo.stopsAt b := by
  simp [stopsAt, he, hn]

theorem Loose.exists_returnBlock (h : Loose F bo) (hx : F x) : ∃ r, bo.returnBlock x = some (some r) := by
  obtain ⟨hbc, -, r, hs, hempty, hret⟩ := h.goto x hx
  refine ⟨r, ?_⟩
  unfold returnBlock
  dsimp only
  rw [hbc, hs]
  exact if_pos ⟨hempty, hret⟩

-- What is in F must be calls throughout, and so must a block that is split.
theorem callsThroughout_iff {funcsym r : Nat} (he : (bo.block b).Belem = some e)
    (hr : bo.returnBlock b = some (some r))
    (h : F b ∨ ∃ E1 E2, e.el_scancommas.arms = some (E1, E2) ∧
      (E1.isCandidate funcsym ∨ E2.isCandidate funcsym)) :
    CallsThroughout funcsym F bo b ↔ e.TailCalls funcsym := by
  constructor
  case mp => exact fun hc => hc e r he hr h
  case mpr =>
    intro ht e' r' he' _ _
    cases he.symm.trans he'
    exact ht

theorem callsThroughout_of_return {funcsym : Nat} (hr : bo.returnBlock b = some none) :
    CallsThroughout funcsym F bo b := by
  intro e r _ hr'
  rw [hr] at hr'
  cases hr'

-- A split hands the condition over to the two new blocks.
theorem SplitCond.repaired_iff {funcsym : Nat} (hsp : SplitCond b bn E1 E2 bo bo') (h : Loose F bo)
    (hb : b ∈ bo.list) (he : (bo.block b).Belem = some e) (hr : bo.returnBlock b = some bn)
    (ha : e.el_scancommas.arms = some (E1, E2)) (hn : ¬e.el_anyframeptr)
    (hcand : E1.isCandidate funcsym ∨ E2.isCandidate funcsym)
    (hl : ∀ x ∈ l, x < bo.fresh ∧ x ≠ b) :
    Repaired funcsym (Unlisted F bo b bn) bo' (bo.fresh :: (bo.fresh + 1) :: l) ↔
      Repaired funcsym F bo (b :: l) := by
  have hbelem : (bo.block b).Belem.isSome := by rw [he]; rfl
  have hw := hsp.rewritten hbelem
  have hloose := hsp.loose h hr hb hbelem
  obtain ⟨hn₁, hn₂⟩ := Elem.el_anyframeptr_arms hn ha
  have hE₁ : (bo'.block bo.fresh).Belem = some E1 := (congrArg Block.Belem hsp.arm₁ :)
  have hE₂ : (bo'.block (bo.fresh + 1)).Belem = some E2 := (congrArg Block.Belem hsp.arm₂ :)
  have hmem : (∀ x, Unlisted F bo b bn x → x ∈ bo.fresh :: (bo.fresh + 1) :: bo.scanned l) ↔
      ∀ x, F x → x ∈ b :: bo.scanned l := by
    refine forall_congr' fun x => ?_
    simp only [Unlisted, List.mem_cons]
    constructor
    case mp =>
      intro hx hF
      have hlt := h.lt_fresh hF
      by_cases hxb : x = b
      case pos => exact .inl hxb
      case neg =>
        obtain rfl | rfl | hx := hx (.inl ⟨hF, hxb⟩)
        case inl     => omega
        case inr.inl => omega
        case inr.inr => exact .inr hx
    case mpr =>
      rintro hx (⟨hF, hxb⟩ | ⟨-, rfl | rfl⟩)
      case inl     => exact .inr (.inr ((hx hF).resolve_left hxb))
      case inr.inl => exact .inl rfl
      case inr.inr => exact .inr (.inl rfl)
  have hcalls : (CallsThroughout funcsym (Unlisted F bo b bn) bo' bo.fresh ∧
      CallsThroughout funcsym (Unlisted F bo b bn) bo' (bo.fresh + 1)) ↔ CallsThroughout funcsym F bo b := by
    cases bn with
    | none =>
      have hret {x : Nat} (hx : x = bo.fresh ∨ x = bo.fresh + 1) : bo'.returnBlock x = some none := by
        have hbc : (bo'.block x).bc = (bo.block b).bc := (hsp.arm hx).left
        obtain ⟨-, ⟨-, hkind⟩ | ⟨r, hnone, -⟩⟩ := returnBlock_cases (h.relink.arity b) hr
        case inr => cases hnone
        case inl =>
          have hkind : (bo.block b).bc = .ret ∨ (bo.block b).bc = .retexp := hkind
          unfold returnBlock
          dsimp only
          rw [hbc]
          obtain hkind | hkind := hkind
          all_goals rw [hkind]
      exact iff_of_true ⟨callsThroughout_of_return (hret (.inl rfl)), callsThroughout_of_return (hret (.inr rfl))⟩
        (callsThroughout_of_return hr)
    | some r =>
      have hu {x : Nat} (hx : x = bo.fresh ∨ x = bo.fresh + 1) : Unlisted F bo b (some r) x :=
        .inr ⟨rfl, hx⟩
      obtain ⟨r₁, hr₁⟩ := hloose.exists_returnBlock (hu (.inl rfl))
      obtain ⟨r₂, hr₂⟩ := hloose.exists_returnBlock (hu (.inr rfl))
      rw [callsThroughout_iff hE₁ hr₁ (.inl (hu (.inl rfl))), callsThroughout_iff hE₂ hr₂ (.inl (hu (.inr rfl))),
        callsThroughout_iff he hr (.inr ⟨E1, E2, ha, hcand⟩), Elem.tailCalls_arms_iff ha]
  rw [Repaired, Repaired, scanned_cons (not_stopsAt hE₁ hn₁), scanned_cons (not_stopsAt hE₂ hn₂),
    scanned_cons (not_stopsAt he hn), hw.scanned h hl, List.forall_mem_cons, List.forall_mem_cons,
    List.forall_mem_cons, hmem, ← and_assoc (c := ∀ x ∈ bo.scanned l, _), hcalls]
  refine and_congr_right' (and_congr_right' (forall₂_congr fun x hx => ?_))
  obtain ⟨hlt, hxb⟩ := hl x (mem_of_mem_scanned hx)
  refine hw.callsThroughout h hlt hxb ?_
  rw [Unlisted, and_iff_left hxb]
  exact or_iff_left fun hnew => by omega

theorem elemsTotal_cons : bo.elemsTotal (b :: l) = bo.elems b + 1 + bo.elemsTotal l :=
  List.sum_cons

theorem Rewritten.elemsTotal (hw : Rewritten b bo bo') (hl : ∀ x ∈ l, x < bo.fresh ∧ x ≠ b) :
    bo'.elemsTotal l = bo.elemsTotal l :=
  congrArg List.sum (List.map_congr_left fun x hx =>
    congrArg (· + 1) (hw.elems (hl x hx).left (hl x hx).right))

theorem Loose.wellFormed_iff_repaired {funcsym : Nat} (h : Loose F bo) (hl : bo.scanned l = []) :
    WellFormed bo ↔ Repaired funcsym F bo l := by
  rw [h.wellFormed_iff, Repaired, hl]
  simp

-- A block that does not return, or whose tails are no calls, is left as it is.
theorem repaired_of_no_call {funcsym : Nat} (h : Loose F bo) (hb : b ∉ l) (he : (bo.block b).Belem = some e)
    (hn : ¬e.el_anyframeptr) (hc : ¬e.TailCalls funcsym)
    (ha : ∀ E1 E2, e.el_scancommas.arms = some (E1, E2) →
      ¬(E1.isCandidate funcsym ∨ E2.isCandidate funcsym)) :
    Repaired funcsym F bo l ↔ Repaired funcsym F bo (b :: l) := by
  refine (repaired_cons_of_not (not_stopsAt he hn) hb (fun hF hcalls => ?_) fun hF e' r he' _ hs => ?_).symm
  case refine_1 =>
    obtain ⟨r, hr⟩ := h.exists_returnBlock hF
    exact hc ((callsThroughout_iff he hr (.inl hF)).mp hcalls)
  case refine_2 =>
    cases he.symm.trans he'
    obtain ⟨E1, E2, ha', hcand⟩ := hs.resolve_left hF
    exact absurd hcand (ha E1 E2 ha')

theorem repaired_of_no_return {funcsym : Nat} (h : Loose F bo) (hb : b ∉ l)
    (hn : (bo.block b).Belem = none ∨ bo.returnBlock b = none) :
    Repaired funcsym F bo l ↔ Repaired funcsym F bo (b :: l) := by
  have hF : ¬F b := fun hF => by
    obtain ⟨r, hr⟩ := h.exists_returnBlock hF
    obtain hn | hn := hn
    case inl => simpa [hn] using (h.goto b hF).right.left
    case inr =>
      rw [hr] at hn
      cases hn
  have hs : ¬bo.stopsAt b := by
    obtain hn | hn := hn
    case inl => simp [stopsAt, hn]
    case inr =>
      unfold stopsAt
      cases (bo.block b).Belem <;> simp [hn]
  refine (repaired_cons_of_not hs hb (fun hF' => absurd hF' hF) fun _ e r he hr _ => ?_).symm
  obtain hn | hn := hn
  case inl =>
    rw [hn] at he
    cases he
  case inr =>
    rw [hn] at hr
    cases hr

-- The pass comes to an end, and when the graph is well formed then.
theorem exists_brtailrecursionFrom (h : Loose F bo) (hl : l.Nodup) (hmem : ∀ b ∈ l, b ∈ bo.list)
    (hk : bo.elemsTotal l ≤ k) : ∃ bo', brtailrecursionFrom tr k l bo = some bo' ∧
      (WellFormed bo' ↔ Repaired tr.funcsym F bo l) := by
  induction k generalizing bo l F with
  | zero =>
    cases l with
    | nil      => exact ⟨bo, rfl, h.wellFormed_iff_repaired rfl⟩
    | cons b l =>
      rw [elemsTotal_cons] at hk
      omega
  | succ k ih =>
    cases l with
    | nil => exact ⟨bo, rfl, h.wellFormed_iff_repaired rfl⟩
    | cons b l =>
      obtain ⟨hbl, hl⟩ := List.nodup_cons.mp hl
      obtain ⟨hb, hmem⟩ := List.forall_mem_cons.mp hmem
      have hold : ∀ x ∈ l, x < bo.fresh ∧ x ≠ b :=
        fun x hx => ⟨h.relink.allocated x (hmem x hx), fun hxb => hbl (hxb ▸ hx)⟩
      rw [elemsTotal_cons] at hk
      -- What is left as it is.
      have hskip (hrep : Repaired tr.funcsym F bo l ↔ Repaired tr.funcsym F bo (b :: l)) :
          ∃ bo', brtailrecursionFrom tr k l bo = some bo' ∧
            (WellFormed bo' ↔ Repaired tr.funcsym F bo (b :: l)) := by
        obtain ⟨bo', hbo', hwf⟩ := ih h hl hmem (by omega)
        exact ⟨bo', hbo', hwf.trans hrep⟩
      rw [brtailrecursionFrom]
      split
      case h_2 hn =>
        refine hskip (repaired_of_no_return h hbl ?_)
        by_contra hnot
        obtain ⟨he, hr⟩ := not_or.mp hnot
        obtain ⟨e, he⟩ := Option.ne_none_iff_exists'.mp he
        obtain ⟨bn, hr⟩ := Option.ne_none_iff_exists'.mp hr
        exact hn e bn he hr
      case h_1 e bn he hr =>
        have hbelem : (bo.block b).Belem.isSome := by rw [he]; rfl
        have hnodes : bo.elems b = e.nodes := by rw [elems, he]; rfl
        split
        case isTrue hframe =>
          refine ⟨bo, rfl, h.wellFormed_iff_repaired (scanned_cons_stop ?_)⟩
          simp [stopsAt, he, hr, hframe]
        case isFalse hframe =>
          split
          case h_1 E1 E2 ha =>
            split
            case isFalse hcand =>
              have hcand : ¬(E1.isCandidate tr.funcsym ∨ E2.isCandidate tr.funcsym) := by simpa using hcand
              refine hskip (repaired_of_no_call h hbl he hframe (fun hc => ?_) fun E1' E2' ha' => ?_)
              case refine_1 =>
                obtain ⟨hc₁, -⟩ := (Elem.tailCalls_arms_iff ha).mp hc
                exact hcand (.inl (Elem.isCandidate_of_tailCalls hc₁))
              case refine_2 =>
                cases ha.symm.trans ha'
                exact hcand
            case isTrue hcand =>
              have hcand : E1.isCandidate tr.funcsym ∨ E2.isCandidate tr.funcsym := by simpa using hcand
              have hsp : SplitCond b bn E1 E2 bo (bo.splitCond b bn e E1 E2) :=
                splitCond_spec (h.relink.allocated b hb) fun s hs => by
                  by_contra hn
                  refine h.not_edge (x := b) (Nat.le_of_not_lt hn) ?_
                  rw [Edge, h.Bsucc hr, hs]
                  exact List.mem_singleton_self s
              have hloose := hsp.loose h hr hb hbelem
              have hlist {x : Nat} (hx : x ∈ bo.fresh :: (bo.fresh + 1) :: l) :
                  x ∈ (bo.splitCond b bn e E1 E2).list := by
                rw [hsp.list, insertAfter_mem, insertAfter_mem, insertAfter_mem]
                obtain rfl | hx := List.mem_cons.mp hx
                case inl => exact .inl (.inr ⟨rfl, hb⟩)
                case inr =>
                  obtain rfl | hx := List.mem_cons.mp hx
                  case inl => exact .inr ⟨rfl, .inr ⟨rfl, hb⟩⟩
                  case inr => exact .inl (.inl (hmem x hx))
              have hnodup : (bo.fresh :: (bo.fresh + 1) :: l).Nodup := by
                refine List.nodup_cons.mpr ⟨fun hm => ?_, List.nodup_cons.mpr ⟨fun hm => ?_, hl⟩⟩
                case refine_1 =>
                  obtain heq | hm := List.mem_cons.mp hm
                  case inl => omega
                  case inr => exact Nat.lt_irrefl _ (hold _ hm).left
                case refine_2 => exact Nat.not_succ_le_self _ (Nat.le_of_lt (hold _ hm).left)
              -- Both arms together are smaller than what is split.
              have htotal : (bo.splitCond b bn e E1 E2).elemsTotal (bo.fresh :: (bo.fresh + 1) :: l) ≤ k := by
                have h₁ : (bo.splitCond b bn e E1 E2).elems bo.fresh = E1.nodes := by
                  have hB : ((bo.splitCond b bn e E1 E2).block bo.fresh).Belem = some E1 :=
                    (congrArg Block.Belem hsp.arm₁ :)
                  rw [elems, hB]
                  rfl
                have h₂ : (bo.splitCond b bn e E1 E2).elems (bo.fresh + 1) = E2.nodes := by
                  have hB : ((bo.splitCond b bn e E1 E2).block (bo.fresh + 1)).Belem = some E2 :=
                    (congrArg Block.Belem hsp.arm₂ :)
                  rw [elems, hB]
                  rfl
                have hle := Elem.nodes_arms ha
                rw [elemsTotal_cons, elemsTotal_cons, h₁, h₂, (hsp.rewritten hbelem).elemsTotal hold]
                omega
              obtain ⟨bo', hbo', hwf⟩ := ih hloose hnodup (fun x hx => hlist hx) htotal
              exact ⟨bo', hbo', hwf.trans (hsp.repaired_iff h hb he hr ha hframe hcand hold)⟩
          case h_2 ha =>
            split
            case isFalse hcall =>
              refine hskip (repaired_of_no_call h hbl he hframe (fun hc => ?_) fun E1 E2 ha' => ?_)
              case refine_1 => exact hcall ((Elem.tailCalls_iff_of_arms ha).mp hc)
              case refine_2 =>
                rw [ha] at ha'
                cases ha'
            case isTrue hcall =>
              obtain ⟨start, hs, -⟩ := h.relink.start
              have hs : bo.startblock = some start := hs
              have hsp : TailCall b start bn bo (bo.tailCall tr b start bn e) :=
                tailCall_spec (h.relink.allocated b hb) (h.relink.allocated start (List.mem_of_head? hs))
              have hloose := hsp.loose h hr hb hs hbelem
              have hcalls : CallsThroughout tr.funcsym F bo b := by
                intro e' r he' _ _
                cases he.symm.trans he'
                exact .call hcall
              have htotal : (bo.tailCall tr b start bn e).elemsTotal l ≤ k := by
                rw [(hsp.rewritten hbelem).elemsTotal hold]
                omega
              obtain ⟨bo', hbo', hwf⟩ := ih hloose hl
                (fun x hx => hsp.list ▸ List.mem_cons_of_mem _ (hmem x hx)) htotal
              rw [hs]
              exact ⟨bo', hbo',
                hwf.trans (hsp.repaired_iff h hbelem hold (not_stopsAt he hframe) hcalls)⟩

-- The pass keeps a graph well formed if and only if every block that it splits or takes for a tail call is
-- calls throughout.
theorem WellFormed.brtailrecursion_iff (h : WellFormed bo) :
    (∃ bo', bo.brtailrecursion tr = some bo' ∧ WellFormed bo') ↔
      (tr.enabled → ∀ b ∈ bo.scanned bo.list, CallsThroughout tr.funcsym (fun _ => False) bo b) := by
  rw [brtailrecursion]
  split
  case isFalse hoff => simpa [hoff] using h
  case isTrue hon =>
    obtain ⟨bo', hbo', hwf⟩ : ∃ bo', brtailrecursionFrom tr _ bo.list bo = some bo' ∧ _ :=
      exists_brtailrecursionFrom h.loose h.nodup (fun _ hb => hb) le_rfl
    rw [Repaired, and_iff_right fun _ hb => hb.elim] at hwf
    rw [← hwf, forall_prop_of_true hon]
    constructor
    case mp =>
      rintro ⟨bo₁, hbo₁, hwf₁⟩
      cases hbo₁.symm.trans hbo'
      exact hwf₁
    case mpr => exact fun hwf' => ⟨bo', hbo', hwf'⟩

end run

end Compiler.Backend.BlockOpt
