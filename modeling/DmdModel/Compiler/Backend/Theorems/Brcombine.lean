import DmdModel.Compiler.Backend.Theorems.Brrear

namespace Compiler.Backend.BlockOpt

variable {n : Nat} {bo bo' bo'' : BlockOpt n} {b b2 b3 c d s bsucc : Nat} {e e2 e3 : Elem n}

section targets

-- The successors that a block can go on to.
def Targets (bo : BlockOpt n) (c s : Nat) : Prop :=
  match (bo.block c).bc with
  | .goto_ => (bo.block c).Bsucc[0]? = some s
  | .iftrue => (bo.block c).Bsucc[0]? = some s ∨ (bo.block c).Bsucc[1]? = some s
  | .switch_ => s ∈ (bo.block c).Bsucc
  | .ret | .retexp | .exit => False

theorem targets_congr (h : (bo'.block c).code = (bo.block c).code) :
    bo'.Targets c s ↔ bo.Targets c s := by
  rw [Targets, Targets, Block.code_bc h, Block.code_Bsucc h]

theorem targets_goto (h : (bo.block c).bc = .goto_) :
    bo.Targets c s ↔ (bo.block c).Bsucc[0]? = some s := by
  rw [Targets, h]

theorem targets_iftrue (h : (bo.block c).bc = .iftrue) : bo.Targets c s ↔
    (bo.block c).Bsucc[0]? = some s ∨ (bo.block c).Bsucc[1]? = some s := by
  rw [Targets, h]

theorem Targets.edge (h : bo.Targets c s) : bo.Edge c s := by
  unfold Targets at h
  split at h
  case h_1 => exact List.mem_of_getElem? h
  case h_2 => exact h.elim List.mem_of_getElem? List.mem_of_getElem?
  case h_3 => exact h
  all_goals exact h.elim

-- What the combination of blocks relies on. The lists of predecessors need not be right, but where two
-- blocks go on to a third one, they are listed.
structure Combinable (bo : BlockOpt n) : Prop where
  listed    : ∀ {s c d}, bo.Targets c s → bo.Targets d s → c ≠ d → c ∈ (bo.block s).Bpred
  continues : bo.Continues
  arms      : ∀ {b}, (bo.block b).bc = .iftrue → ∃ b2 b3, (bo.block b).Bsucc = [b2, b3]
  belem     : ∀ {b}, (bo.block b).bc = .iftrue → ∃ e, (bo.block b).Belem = some e
  value     : ∀ {c s}, bo.Targets c s → (bo.block s).bc = .retexp → ∃ e, (bo.block s).Belem = some e

theorem two_le_length {l : List Nat} (hc : c ∈ l) (hd : d ∈ l) (h : c ≠ d) : 2 ≤ l.length := by
  match l with
  | [] => cases hc
  | [x] => exact absurd ((List.mem_singleton.mp hc).trans (List.mem_singleton.mp hd).symm) h
  | x :: y :: l => exact Nat.le_add_left 2 l.length

-- A block with one predecessor at most.
theorem Combinable.sole (h : Combinable bo) (hb : bo.Targets b s)
    (hlen : ¬(bo.block s).Bpred.length > 1) (hc : bo.Targets c s) : c = b := by
  by_contra hne
  exact hlen (two_le_length (h.listed hc hb hne) (h.listed hb hc (Ne.symm hne)) hne)

end targets

section cases

-- The first arm of b goes on to the second one, which goes on to itself.
def InfiniteArm (b : Nat) (bo : BlockOpt n) : Prop :=
  (bo.block b).bc = .iftrue ∧ ∃ b2 ∈ (bo.block b).Bsucc[0]?, ∃ b3 ∈ (bo.block b).Bsucc[1]?,
    b2 ≠ b3 ∧ bo.startblock ≠ some b2 ∧ ¬(bo.block b2).Bpred.length > 1 ∧
      leafOrNone (bo.block b2).Belem ∧
      (bo.block b2).bc = .goto_ ∧ (bo.block b2).Bsucc[0]? = some b3 ∧
      (bo.block b3).bc = .goto_ ∧ (bo.block b3).Bsucc[0]? = some b3

instance (b : Nat) (bo : BlockOpt n) : Decidable (InfiniteArm b bo) :=
  inferInstanceAs (Decidable (_ ∧ _))

-- The two arms of b, of which the first one is entered from b only.
structure Arms (b b2 b3 : Nat) (bo : BlockOpt n) : Prop where
  bc    : (bo.block b).bc = .iftrue
  Bsucc : (bo.block b).Bsucc = [b2, b3]
  ne    : b2 ≠ b3
  start : bo.startblock ≠ some b2
  few   : ¬(bo.block b2).Bpred.length > 1
  leaf  : leafOrNone (bo.block b2).Belem
  sole  : ∀ c, bo.Targets c b2 → c = b

-- The second arm is entered from b only, too.
structure Sole (b b3 : Nat) (bo : BlockOpt n) : Prop where
  start : bo.startblock ≠ some b3
  sole  : ∀ c, bo.Targets c b3 → c = b

-- What becomes of a block and its arms.
inductive Combine (b : Nat) (bo bo' : BlockOpt n) : Prop
  | keep (h : bo' = bo)
  | and {b2 b3 : Nat} (ha : Arms b b2 b3 bo) (hbc : (bo.block b2).bc = .goto_)
    (hs : (bo.block b2).Bsucc[0]? = some b3) (h : bo' = bo.combineAnd b b2)
  | loop (hi : InfiniteArm b bo)
  | retexp {b2 b3 : Nat} {e2 e3 : Elem n} (ha : Arms b b2 b3 bo) (hb : Sole b b3 bo)
    (hbc₂ : (bo.block b2).bc = .retexp) (hbc₃ : (bo.block b3).bc = .retexp)
    (he₂ : (bo.block b2).Belem = some e2) (he₃ : (bo.block b3).Belem = some e3)
    (h : bo' = bo.combineRetexp b b2 b3 e2 e3)
  | goto {b2 b3 bsucc : Nat} (ha : Arms b b2 b3 bo) (hb : Sole b b3 bo)
    (hbc₂ : (bo.block b2).bc = .goto_) (hbc₃ : (bo.block b3).bc = .goto_)
    (hs₂ : (bo.block b2).Bsucc[0]? = some bsucc) (hs₃ : (bo.block b3).Bsucc[0]? = some bsucc)
    (h : bo' = bo.combineGoto b b2 b3 bsucc)

theorem Arms.targets (h : Arms b b2 b3 bo) : bo.Targets b s ↔ s = b2 ∨ s = b3 := by
  rw [targets_iftrue h.bc, h.Bsucc]
  simp [eq_comm]

theorem Arms.ne_of_bc (h : Arms b b2 b3 bo) (hc : (bo.block c).bc ≠ .iftrue) : b ≠ c :=
  fun he => hc (he ▸ h.bc)

end cases

section combineAnd

theorem combineAnd_of_ne (hb : c ≠ b) (hb₂ : c ≠ b2) :
    (bo.combineAnd b b2).block c = bo.block c := by
  unfold combineAnd
  cases (bo.block b2).Belem with
  | none   => simp [subtractPred, modify_block_of_ne, hb, hb₂]
  | some e => simp [subtractPred, modify_block_of_ne, hb, hb₂]

theorem combineAnd_list : (bo.combineAnd b b2).list = bo.list := by
  unfold combineAnd
  cases (bo.block b2).Belem <;> rfl

-- Block b evaluates what b2 did, if its own expression is true.
theorem combineAnd_self (hne : b ≠ b2) : (bo.combineAnd b b2).block b =
    { bo.block b with
      bc := .goto_
      Belem := (bo.block b).Belem.map (combineGotoElem · (bo.block b2).Belem none) } := by
  unfold combineAnd
  cases (bo.block b2).Belem with
  | none =>
    simp only [subtractPred, modify_block_of_ne hne, modify_block_self, combineGotoElem]
    rw [Option.map_id']
  | some e =>
    simp only [subtractPred, modify_block_of_ne hne, modify_block_self, combineGotoElem]

theorem combineAnd_arm (hne : b ≠ b2) : (bo.combineAnd b b2).block b2 =
    { bo.block b2 with
      Belem := none
      Bsucc := (bo.block b2).Bsucc.erase b2
      Bpred := (bo.block b2).Bpred.erase b } := by
  unfold combineAnd
  cases h : (bo.block b2).Belem with
  | none =>
    simp only [subtractPred, modify_block_self, modify_block_of_ne (Ne.symm hne)]
    rw [← h]
  | some e =>
    simp only [subtractPred, modify_block_self, modify_block_of_ne (Ne.symm hne)]

end combineAnd

section combineRetexp

theorem combineRetexp_of_ne (hb : c ≠ b) (hb₂ : c ≠ b2) (hb₃ : c ≠ b3) :
    (bo.combineRetexp b b2 b3 e2 e3).block c = bo.block c := by
  simp [combineRetexp, subtractPred, modify_block_of_ne, hb, hb₂, hb₃]

theorem combineRetexp_self (hb₂ : b ≠ b2) (hb₃ : b ≠ b3) :
    (bo.combineRetexp b b2 b3 e2 e3).block b =
      { bo.block b with
        bc := .retexp
        Belem := (bo.block b).Belem.map fun e =>
          .binary .cond e2.Ety 0 e (.binary .colon2 e2.Ety 0 e2 e3)
        Bsucc := [] } := by
  simp [combineRetexp, subtractPred, modify_block_of_ne, hb₂, hb₃]

-- The kind of an arm is the same.
theorem combineRetexp_arms (hb : c ≠ b) :
    ((bo.combineRetexp b b2 b3 e2 e3).block c).bc = (bo.block c).bc := by
  simp only [combineRetexp, subtractPred, modify_block]
  split_ifs
  all_goals simp_all

end combineRetexp

section combineGoto

theorem combineGoto_list : (bo.combineGoto b b2 b3 bsucc).list = bo.list :=
  rfl

theorem combineGoto_code (hb : c ≠ b) (hb₂ : c ≠ b2) (hb₃ : c ≠ b3) :
    ((bo.combineGoto b b2 b3 bsucc).block c).code = (bo.block c).code := by
  simp [combineGoto, modify_block_of_ne, hb, hb₂, hb₃]

theorem combineGoto_self (hb₂ : b ≠ b2) (hb₃ : b ≠ b3) :
    ((bo.combineGoto b b2 b3 bsucc).block b).code =
      { (bo.block b).code with
        bc := .goto_
        Belem := (bo.block b).Belem.map (combineGotoElem · (bo.block b2).Belem (bo.block b3).Belem)
        Bsucc := [bsucc] } := by
  simp only [combineGoto, subtractPred_code, modify_block_of_ne hb₂, modify_block_of_ne hb₃]
  rw [pushPred_code, modify_block_self, modify_block_of_ne hb₃, modify_block_self,
    modify_block_of_ne hb₂]
  rfl

theorem combineGoto_arms (hc : c = b2 ∨ c = b3) :
    ((bo.combineGoto b b2 b3 bsucc).block c).bc = .ret := by
  simp only [combineGoto]
  rw [Block.code_bc subtractPred_code, Block.code_bc subtractPred_code]
  obtain rfl | rfl := hc
  case inr => rw [modify_block_self]
  case inl =>
    rw [modify_block]
    split
    case isTrue  => rfl
    case isFalse => rw [modify_block_self]

-- The predecessors that are left, and the new one.
theorem combineGoto_Bpred (hs₂ : s ≠ b2) : ((bo.combineGoto b b2 b3 bsucc).block s).Bpred =
    if s = bsucc then (((bo.block s).Bpred ++ [b]).erase b2).erase b3 else (bo.block s).Bpred := by
  simp only [combineGoto]
  rw [subtractPred_Bpred, subtractPred_Bpred, modify_Bpred (by intro _; rfl),
    modify_Bpred (by intro _; rfl), modify_Bpred (by intro _; rfl), modify_block_of_ne hs₂,
    pushPred_Bpred, modify_Bpred (by intro _; rfl), modify_Bpred (by intro _; rfl),
    modify_Bpred (by intro _; rfl), modify_Bpred (by intro _; rfl)]
  split <;> rfl

end combineGoto

section brcombineBlock

theorem combineAnd_startblock : (bo.combineAnd b b2).startblock = bo.startblock := by
  rw [startblock, startblock, combineAnd_list]

-- The second successor is left after the combination of b and b2.
theorem combineAnd_arm_succ (hne : b ≠ b2) (hs : (bo.block b2).Bsucc[0]? = some s) (hs₂ : b2 ≠ s) :
    ((bo.combineAnd b b2).block b2).Bsucc[0]? = some s := by
  rw [combineAnd_arm hne]
  cases h : (bo.block b2).Bsucc with
  | nil => simp [h] at hs
  | cons x succs =>
    have hx : x = s := by simpa [h] using hs
    rw [List.erase_cons_tail (by simpa [hx] using Ne.symm hs₂), hx]
    rfl

theorem exists_brcombineReturns (h : Combinable bo) (ha : Arms b b2 b3 bo) (hb : Sole b b3 bo) :
    ∃ bo', bo.brcombineReturns b b2 b3 (bo.block b2).bc = some bo' ∧ Combine b bo bo' := by
  have ht₂ : bo.Targets b b2 := ha.targets.mpr (.inl rfl)
  have ht₃ : bo.Targets b b3 := ha.targets.mpr (.inr rfl)
  simp only [brcombineReturns]
  split
  case isTrue hbc =>
    obtain ⟨e2, he₂⟩ := h.value ht₂ hbc.left
    obtain ⟨e3, he₃⟩ := h.value ht₃ hbc.right
    rw [he₃, Option.bind_eq_bind, Option.bind_some]
    split
    case isTrue  => exact ⟨_, by rw [he₂]; rfl, .retexp ha hb hbc.left hbc.right he₂ he₃ rfl⟩
    case isFalse => exact ⟨_, rfl, .keep rfl⟩
  case isFalse =>
    split
    case isFalse => exact ⟨_, rfl, .keep rfl⟩
    case isTrue hbc =>
      obtain ⟨s2, l2, hs₂⟩ := List.exists_cons_of_ne_nil (h.continues b2 hbc.left)
      obtain ⟨s3, l3, hs₃⟩ := List.exists_cons_of_ne_nil (h.continues b3 hbc.right)
      simp only [hs₂, hs₃, List.getElem?_cons_zero, Option.bind_eq_bind, Option.bind_some]
      split
      case isFalse => exact ⟨_, rfl, .keep rfl⟩
      case isTrue hs =>
        refine ⟨_, rfl, .goto ha hb hbc.left hbc.right (by rw [hs₂]; rfl) ?_ rfl⟩
        rw [hs₃, hs.left]
        rfl

-- The second half of the case analysis after the combination of b and b2.
theorem exists_brcombineReturns_and (h : Combinable bo) (ha : Arms b b2 b3 bo)
    (hbc : (bo.block b2).bc = .goto_) (hs : (bo.block b2).Bsucc[0]? = some b3) :
    ∃ bo', (bo.combineAnd b b2).brcombineReturns b b2 b3 .goto_ = some bo' ∧ Combine b bo bo' := by
  have hne : b ≠ b2 := ha.ne_of_bc (by rw [hbc]; exact nofun)
  have hs' := combineAnd_arm_succ hne hs ha.ne
  have he' : ((bo.combineAnd b b2).block b2).Belem = none := by rw [combineAnd_arm hne]
  simp only [brcombineReturns, reduceCtorEq, false_and, if_false, true_and]
  split
  case isFalse => exact ⟨_, rfl, .and ha hbc hs rfl⟩
  case isTrue hbc₃ =>
    simp only [hs', he', Option.bind_eq_bind, Option.bind_some, Option.isSome_none,
      Bool.false_eq_true, false_implies, and_true]
    by_cases hb₃ : b3 = b
    case pos =>
      -- The successors of b are still its two arms.
      have hb₃' : ((bo.combineAnd b b2).block b3).Bsucc[0]? = some b2 := by
        rw [hb₃, combineAnd_self hne]
        dsimp only
        rw [ha.Bsucc]
        rfl
      rw [hb₃', Option.bind_some, if_neg (Ne.symm ha.ne)]
      exact ⟨_, rfl, .and ha hbc hs rfl⟩
    case neg =>
      rw [combineAnd_of_ne hb₃ (Ne.symm ha.ne)] at hbc₃ ⊢
      obtain ⟨s3, l3, hs₃⟩ := List.exists_cons_of_ne_nil (h.continues b3 hbc₃)
      simp only [hs₃, List.getElem?_cons_zero, Option.bind_some]
      split
      case isFalse => exact ⟨_, rfl, .and ha hbc hs rfl⟩
      case isTrue hs₃' =>
        refine ⟨_, rfl, .loop ⟨ha.bc, b2, by simp [ha.Bsucc], b3, by simp [ha.Bsucc], ha.ne, ha.start,
          ha.few, ha.leaf, hbc, hs, hbc₃, ?_⟩⟩
        rw [hs₃, hs₃']
        rfl

theorem exists_brcombineBlock (h : Combinable bo) :
    ∃ bo', bo.brcombineBlock b = some bo' ∧ Combine b bo bo' := by
  unfold brcombineBlock
  split
  case isFalse => exact ⟨bo, rfl, .keep rfl⟩
  case isTrue hbc =>
    obtain ⟨b2, b3, hs⟩ := h.arms hbc
    simp only [hs, List.getElem?_cons_zero, List.getElem?_cons_succ, Option.bind_eq_bind,
      Option.bind_some]
    split
    case isTrue => exact ⟨bo, rfl, .keep rfl⟩
    case isFalse hn =>
      simp only [not_or, not_not] at hn
      obtain ⟨hlen, hne, hstart, hleaf⟩ := hn
      have ht {s : Nat} (hs' : s = b2 ∨ s = b3) : bo.Targets b s := by
        rw [targets_iftrue hbc, hs]
        simpa [eq_comm] using hs'
      have ha : Arms b b2 b3 bo :=
        ⟨hbc, hs, hne, hstart, hlen, hleaf, fun c => h.sole (ht (.inl rfl)) hlen⟩
      split
      case isTrue hg => exact exists_brcombineReturns_and h ha hg.left hg.right
      case isFalse =>
        split
        case isTrue => exact ⟨bo, rfl, .keep rfl⟩
        case isFalse hn₃ =>
          obtain ⟨hlen₃, hstart₃⟩ := not_or.mp hn₃
          exact exists_brcombineReturns h ha ⟨hstart₃, fun c => h.sole (ht (.inr rfl)) hlen₃⟩

end brcombineBlock

section combinable

-- The iftrue blocks that are left are as they were.
theorem Combinable.of_iftrue (h : Combinable bo)
    (hif : ∀ {c}, (bo'.block c).bc = .iftrue → (bo'.block c).code = (bo.block c).code)
    (hl : ∀ {s c d}, bo'.Targets c s → bo'.Targets d s → c ≠ d → c ∈ (bo'.block s).Bpred)
    (hc : bo'.Continues)
    (hv : ∀ {c s}, bo'.Targets c s → (bo'.block s).bc = .retexp → ∃ e, (bo'.block s).Belem = some e) :
    Combinable bo' where
  listed    := hl
  continues := hc
  value     := hv
  arms hbc  := by
    rw [Block.code_Bsucc (hif hbc)]
    exact h.arms (Block.code_bc (hif hbc) ▸ hbc)
  belem hbc := by
    rw [Block.code_Belem (hif hbc)]
    exact h.belem (Block.code_bc (hif hbc) ▸ hbc)

section and

variable (ha : Arms b b2 b3 bo) (hbc : (bo.block b2).bc = .goto_)
variable (hs : (bo.block b2).Bsucc[0]? = some b3)

include ha hbc

theorem combineAnd_bc :
    ((bo.combineAnd b b2).block b).bc = .goto_ ∧ ((bo.combineAnd b b2).block b2).bc = .goto_ := by
  have hne : b ≠ b2 := ha.ne_of_bc (by rw [hbc]; exact nofun)
  rw [combineAnd_self hne, combineAnd_arm hne]
  exact ⟨rfl, hbc⟩

theorem combineAnd_Bpred (hs₂ : s ≠ b2) :
    ((bo.combineAnd b b2).block s).Bpred = (bo.block s).Bpred := by
  by_cases hb : s = b
  case pos =>
    rw [hb, combineAnd_self (ha.ne_of_bc (by rw [hbc]; exact nofun))]
  case neg => rw [combineAnd_of_ne hb hs₂]

include hs

theorem combineAnd_targets (h : (bo.combineAnd b b2).Targets c s) :
    (c = b ∧ s = b2) ∨ (c ≠ b ∧ s ≠ b2 ∧ bo.Targets c s) := by
  have hne : b ≠ b2 := ha.ne_of_bc (by rw [hbc]; exact nofun)
  obtain ⟨hbc', hbc₂⟩ := combineAnd_bc ha hbc
  by_cases hb : c = b
  case pos =>
    subst hb
    rw [targets_goto hbc', combineAnd_self hne] at h
    dsimp only at h
    rw [ha.Bsucc] at h
    exact .inl ⟨rfl, (Option.some.inj h).symm⟩
  case neg =>
    by_cases hb₂ : c = b2
    case pos =>
      subst hb₂
      rw [targets_goto hbc₂, combineAnd_arm_succ hne hs ha.ne] at h
      cases Option.some.inj h
      exact .inr ⟨hb, Ne.symm ha.ne, (targets_goto hbc).mpr hs⟩
    case neg =>
      replace h := (targets_congr (congrArg Block.code (combineAnd_of_ne hb hb₂))).mp h
      exact .inr ⟨hb, fun hs₂ => hb (ha.sole c (hs₂ ▸ h)), h⟩

theorem Combinable.combineAnd (h : Combinable bo) : Combinable (bo.combineAnd b b2) := by
  have hne : b ≠ b2 := ha.ne_of_bc (by rw [hbc]; exact nofun)
  obtain ⟨hbc', hbc₂⟩ := combineAnd_bc ha hbc
  have hother {c : Nat} (hc : ((bo.combineAnd b b2).block c).bc ≠ .goto_) :
      (bo.combineAnd b b2).block c = bo.block c :=
    combineAnd_of_ne (fun hb => hc (hb ▸ hbc')) fun hb₂ => hc (hb₂ ▸ hbc₂)
  refine h.of_iftrue (fun hc => ?_) (fun {s c d} hc hd hcd => ?_) (fun c hc => ?_) fun {c s} hc hv => ?_
  case refine_1 => rw [hother (by rw [hc]; exact nofun)]
  case refine_2 =>
    obtain ⟨rfl, rfl⟩ | ⟨hcb, hs₂, hc⟩ := combineAnd_targets ha hbc hs hc
    case inl =>
      obtain ⟨rfl, -⟩ | ⟨-, hs₂, -⟩ := combineAnd_targets ha hbc hs hd
      case inl => exact absurd rfl hcd
      case inr => exact absurd rfl hs₂
    case inr =>
      obtain ⟨-, rfl⟩ | ⟨-, -, hd⟩ := combineAnd_targets ha hbc hs hd
      case inl => exact absurd rfl hs₂
      case inr =>
        rw [combineAnd_Bpred ha hbc hs₂]
        exact h.listed hc hd hcd
  case refine_3 =>
    by_cases hb : c = b
    case pos => rw [hb, combineAnd_self hne]; simp [ha.Bsucc]
    case neg =>
      by_cases hb₂ : c = b2
      case pos =>
        intro hnil
        have hs' := combineAnd_arm_succ hne hs ha.ne
        rw [hb₂] at hnil
        rw [hnil] at hs'
        cases hs'
      case neg =>
        rw [combineAnd_of_ne hb hb₂] at hc ⊢
        exact h.continues c hc
  case refine_4 =>
    have hs' := hother (c := s) (by rw [hv]; exact nofun)
    rw [hs'] at hv ⊢
    obtain ⟨-, rfl⟩ | ⟨-, -, hc⟩ := combineAnd_targets ha hbc hs hc
    case inl => rw [hbc] at hv; cases hv
    case inr => exact h.value hc hv

end and

section retexp

variable (ha : Arms b b2 b3 bo) (hb : Sole b b3 bo)
variable (hbc₂ : (bo.block b2).bc = .retexp) (hbc₃ : (bo.block b3).bc = .retexp)

include ha hb hbc₂ hbc₃

theorem combineRetexp_targets (h : (bo.combineRetexp b b2 b3 e2 e3).Targets c s) :
    c ≠ b ∧ c ≠ b2 ∧ c ≠ b3 ∧ s ≠ b2 ∧ s ≠ b3 ∧ bo.Targets c s := by
  have hne₂ : b ≠ b2 := ha.ne_of_bc (by rw [hbc₂]; exact nofun)
  have hne₃ : b ≠ b3 := ha.ne_of_bc (by rw [hbc₃]; exact nofun)
  have hcb : c ≠ b := by
    rintro rfl
    rw [Targets, combineRetexp_self hne₂ hne₃] at h
    exact h
  have hc₂ : c ≠ b2 := by
    rintro rfl
    rw [Targets, combineRetexp_arms hcb, hbc₂] at h
    exact h
  have hc₃ : c ≠ b3 := by
    rintro rfl
    rw [Targets, combineRetexp_arms hcb, hbc₃] at h
    exact h
  replace h := (targets_congr (congrArg Block.code (combineRetexp_of_ne hcb hc₂ hc₃))).mp h
  refine ⟨hcb, hc₂, hc₃, ?_, ?_, h⟩
  case refine_1 => rintro rfl; exact hcb (ha.sole c h)
  case refine_2 => rintro rfl; exact hcb (hb.sole c h)

theorem Combinable.combineRetexp (h : Combinable bo) :
    Combinable (bo.combineRetexp b b2 b3 e2 e3) := by
  have hne₂ : b ≠ b2 := ha.ne_of_bc (by rw [hbc₂]; exact nofun)
  have hne₃ : b ≠ b3 := ha.ne_of_bc (by rw [hbc₃]; exact nofun)
  have hself : (bo.combineRetexp b b2 b3 e2 e3).block b = _ := combineRetexp_self hne₂ hne₃
  have hother {c : Nat} (hc : ((bo.combineRetexp b b2 b3 e2 e3).block c).bc ≠ .retexp) :
      (bo.combineRetexp b b2 b3 e2 e3).block c = bo.block c := by
    have hcb : c ≠ b := by rintro rfl; exact hc (by rw [hself])
    refine combineRetexp_of_ne hcb ?_ ?_
    case refine_1 => rintro rfl; exact hc ((combineRetexp_arms hcb).trans hbc₂)
    case refine_2 => rintro rfl; exact hc ((combineRetexp_arms hcb).trans hbc₃)
  have hpreds {s : Nat} (hs₂ : s ≠ b2) (hs₃ : s ≠ b3) :
      ((bo.combineRetexp b b2 b3 e2 e3).block s).Bpred = (bo.block s).Bpred := by
    by_cases hsb : s = b
    case pos => rw [hsb, hself]
    case neg => rw [combineRetexp_of_ne hsb hs₂ hs₃]
  refine h.of_iftrue (fun hc => ?_) (fun {s c d} hc hd hcd => ?_) (fun c hc => ?_) fun {c s} hc hv => ?_
  case refine_1 => rw [hother (by rw [hc]; exact nofun)]
  case refine_2 =>
    obtain ⟨-, -, -, hs₂, hs₃, hc⟩ := combineRetexp_targets ha hb hbc₂ hbc₃ hc
    obtain ⟨-, -, -, -, -, hd⟩ := combineRetexp_targets ha hb hbc₂ hbc₃ hd
    rw [hpreds hs₂ hs₃]
    exact h.listed hc hd hcd
  case refine_3 =>
    have hc' := hother (c := c) (by rw [hc]; exact nofun)
    rw [hc'] at hc ⊢
    exact h.continues c hc
  case refine_4 =>
    obtain ⟨-, -, -, hs₂, hs₃, hc⟩ := combineRetexp_targets ha hb hbc₂ hbc₃ hc
    by_cases hsb : s = b
    case pos =>
      obtain ⟨e, he⟩ := h.belem ha.bc
      rw [hsb, hself, he]
      exact ⟨_, rfl⟩
    case neg =>
      rw [combineRetexp_of_ne hsb hs₂ hs₃] at hv ⊢
      exact h.value hc hv

end retexp

section goto

variable (ha : Arms b b2 b3 bo) (hb : Sole b b3 bo)
variable (hbc₂ : (bo.block b2).bc = .goto_) (hbc₃ : (bo.block b3).bc = .goto_)
variable (hs₂ : (bo.block b2).Bsucc[0]? = some bsucc) (hs₃ : (bo.block b3).Bsucc[0]? = some bsucc)

include ha hb hbc₂ hbc₃ hs₂ hs₃

-- The arms are no infinite loops, for they are entered from b only.
theorem combineGoto_ne : b ≠ b2 ∧ b ≠ b3 ∧ bsucc ≠ b2 ∧ bsucc ≠ b3 := by
  have hne₂ : b ≠ b2 := ha.ne_of_bc (by rw [hbc₂]; exact nofun)
  have hne₃ : b ≠ b3 := ha.ne_of_bc (by rw [hbc₃]; exact nofun)
  refine ⟨hne₂, hne₃, ?_, ?_⟩
  case refine_1 => rintro rfl; exact hne₂ (ha.sole _ ((targets_goto hbc₂).mpr hs₂)).symm
  case refine_2 => rintro rfl; exact hne₃ (hb.sole _ ((targets_goto hbc₃).mpr hs₃)).symm

theorem combineGoto_targets (h : (bo.combineGoto b b2 b3 bsucc).Targets c s) :
    (c = b ∧ s = bsucc) ∨ (c ≠ b ∧ c ≠ b2 ∧ c ≠ b3 ∧ s ≠ b2 ∧ s ≠ b3 ∧ bo.Targets c s) := by
  obtain ⟨hne₂, hne₃, -, -⟩ := combineGoto_ne ha hb hbc₂ hbc₃ hs₂ hs₃
  by_cases hcb : c = b
  case pos =>
    have hself : ((bo.combineGoto b b2 b3 bsucc).block b).code = _ := combineGoto_self hne₂ hne₃
    rw [hcb, targets_goto (congrArg Block.bc hself :)] at h
    have hs : some bsucc = some s := (congrArg (·[0]?) (congrArg Block.Bsucc hself :)).symm.trans h
    exact .inl ⟨hcb, (Option.some.inj hs).symm⟩
  case neg =>
    have harm (hc : c = b2 ∨ c = b3) : False := by
      rw [Targets, combineGoto_arms hc] at h
      exact h
    obtain ⟨hc₂, hc₃⟩ := not_or.mp harm
    rw [targets_congr (combineGoto_code hcb hc₂ hc₃)] at h
    refine .inr ⟨hcb, hc₂, hc₃, ?_, ?_, h⟩
    case refine_1 => rintro rfl; exact hcb (ha.sole c h)
    case refine_2 => rintro rfl; exact hcb (hb.sole c h)

theorem Combinable.combineGoto (h : Combinable bo) : Combinable (bo.combineGoto b b2 b3 bsucc) := by
  obtain ⟨hne₂, hne₃, hb₂, hb₃⟩ := combineGoto_ne ha hb hbc₂ hbc₃ hs₂ hs₃
  have hself : ((bo.combineGoto b b2 b3 bsucc).block b).code = _ := combineGoto_self hne₂ hne₃
  have hbc : ((bo.combineGoto b b2 b3 bsucc).block b).bc = .goto_ := (congrArg Block.bc hself :)
  have htargets {c s : Nat} := combineGoto_targets (c := c) (s := s) ha hb hbc₂ hbc₃ hs₂ hs₃
  -- The code of what is neither b nor one of its arms.
  have hother {c : Nat} (hcb : c ≠ b) (hret : ((bo.combineGoto b b2 b3 bsucc).block c).bc ≠ .ret) :
      ((bo.combineGoto b b2 b3 bsucc).block c).code = (bo.block c).code := by
    refine combineGoto_code hcb ?_ ?_
    case refine_1 => rintro rfl; exact hret (combineGoto_arms (.inl rfl))
    case refine_2 => rintro rfl; exact hret (combineGoto_arms (.inr rfl))
  refine h.of_iftrue (fun {c} hc => ?_) (fun {s c d} hc hd hcd => ?_) (fun c hc => ?_)
    fun {c s} hc hv => ?_
  case refine_1 =>
    refine hother (fun hcb => ?_) (by rw [hc]; exact nofun)
    rw [hcb, hbc] at hc
    cases hc
  case refine_2 =>
    obtain ⟨rfl, rfl⟩ | ⟨hcb, hc₂, hc₃, hs₂', hs₃', hc'⟩ := htargets hc
    case inl =>
      rw [combineGoto_Bpred hb₂, if_pos rfl]
      exact (List.mem_erase_of_ne hne₃).mpr <| (List.mem_erase_of_ne hne₂).mpr <|
        List.mem_append_right _ List.mem_cons_self
    case inr =>
      have hmem : c ∈ (bo.block s).Bpred := by
        obtain ⟨-, rfl⟩ | ⟨-, -, -, -, -, hd⟩ := htargets hd
        case inl => exact h.listed hc' ((targets_goto hbc₂).mpr hs₂) hc₂
        case inr => exact h.listed hc' hd hcd
      rw [combineGoto_Bpred hs₂']
      split
      case isFalse => exact hmem
      case isTrue =>
        exact (List.mem_erase_of_ne hc₃).mpr <| (List.mem_erase_of_ne hc₂).mpr <|
          List.mem_append_left _ hmem
  case refine_3 =>
    by_cases hcb : c = b
    case pos =>
      have hs : ((bo.combineGoto b b2 b3 bsucc).block b).Bsucc = [bsucc] :=
        (congrArg Block.Bsucc hself :)
      rw [hcb, hs]
      exact nofun
    case neg =>
      have hc' := hother hcb (by rw [hc]; exact nofun)
      rw [Block.code_bc hc'] at hc
      rw [Block.code_Bsucc hc']
      exact h.continues c hc
  case refine_4 =>
    have hsb : s ≠ b := by
      rintro rfl
      rw [hbc] at hv
      cases hv
    have hs' := hother hsb (by rw [hv]; exact nofun)
    rw [Block.code_bc hs'] at hv
    rw [Block.code_Belem hs']
    obtain ⟨-, rfl⟩ | ⟨-, -, -, -, -, hc⟩ := htargets hc
    case inl => exact h.value ((targets_goto hbc₂).mpr hs₂) hv
    case inr => exact h.value hc hv

end goto

end combinable

end Compiler.Backend.BlockOpt
