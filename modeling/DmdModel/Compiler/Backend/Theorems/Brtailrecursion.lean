import DmdModel.Compiler.Backend.Theorems.Blassertsplit

namespace Compiler.Backend

open Relation

variable {n : Nat}

namespace Elem

variable {e E1 E2 : Elem n} {funcsym : Nat}

theorem arms_eq_some (h : e.arms = some (E1, E2)) : ∃ ty ET E op ty' ET',
    e = .binary .cond ty ET E (.binary op ty' ET' E1 E2) := by
  unfold arms at h
  split at h
  case h_2 => cases h
  case h_1 =>
    split at h
    case isFalse => cases h
    case isTrue hop =>
      cases h
      exact ⟨_, _, _, _, _, _, by rw [hop]⟩

theorem nodes_scancommas : e.el_scancommas.nodes ≤ e.nodes := by
  induction e using el_scancommas.induct with
  | case1 ty ET E1 E2 ih =>
    rw [el_scancommas, nodes]
    omega
  | case2 e hne => rw [el_scancommas.eq_2 e hne]

-- Both arms and their condition are smaller.
theorem nodes_arms (h : e.el_scancommas.arms = some (E1, E2)) : E1.nodes + E2.nodes + 2 ≤ e.nodes := by
  obtain ⟨ty, ET, E, op, ty', ET', he⟩ := arms_eq_some h
  have hle := nodes_scancommas (e := e)
  rw [he, nodes, nodes] at hle
  omega

theorem el_anyframeptr_scancommas (h : ¬e.el_anyframeptr) : ¬e.el_scancommas.el_anyframeptr := by
  induction e using el_scancommas.induct with
  | case1 ty ET E1 E2 ih =>
    rw [el_anyframeptr, Bool.or_eq_true, not_or] at h
    exact ih h.left
  | case2 e hne => rwa [el_scancommas.eq_2 e hne]

theorem el_anyframeptr_arms (hn : ¬e.el_anyframeptr) (h : e.el_scancommas.arms = some (E1, E2)) :
    ¬E1.el_anyframeptr ∧ ¬E2.el_anyframeptr := by
  obtain ⟨ty, ET, E, op, ty', ET', he⟩ := arms_eq_some h
  have hn := el_anyframeptr_scancommas hn
  simp only [he, el_anyframeptr, Bool.or_eq_true, not_or] at hn
  exact ⟨hn.left.right, hn.left.left⟩

-- A conditional expression is no call.
theorem callsSelf_arms (h : e.callsSelf funcsym) : e.arms = none := by
  cases he : e.arms with
  | none   => rfl
  | some E =>
    obtain ⟨ty, ET, E, op, ty', ET', rfl⟩ := arms_eq_some he
    unfold callsSelf at h
    split at h
    case h_1 heq => cases heq
    case h_2 heq =>
      cases heq
      simp at h
    case h_3 => cases h

-- Every tail of the expression is a call of the function itself.
inductive TailCalls (funcsym : Nat) : Elem n → Prop
  | call {e : Elem n} : e.el_scancommas.callsSelf funcsym → TailCalls funcsym e
  | arms {e E1 E2 : Elem n} : e.el_scancommas.arms = some (E1, E2) → TailCalls funcsym E1 →
    TailCalls funcsym E2 → TailCalls funcsym e

theorem isCandidate_comma {ty : Ty} {ET : Nat} :
    (binary .comma ty ET E1 E2).isCandidate funcsym = E2.isCandidate funcsym := by
  cases E2 with
  | binary op ty' ET' E3 E4 => simp [isCandidate]
  | _ => simp [isCandidate]

theorem isCandidate_scancommas : e.el_scancommas.isCandidate funcsym = e.isCandidate funcsym := by
  induction e using el_scancommas.induct with
  | case1 ty ET E1 E2 ih => rw [el_scancommas, ih, isCandidate_comma]
  | case2 e hne          => rw [el_scancommas.eq_2 e hne]

theorem isCandidate_of_callsSelf (h : e.callsSelf funcsym) : e.isCandidate funcsym := by
  cases e with
  | binary op ty ET E1 E2 =>
    have hop : op = .call ∨ op = .callns := by
      unfold callsSelf at h
      split at h
      case h_1 heq => cases heq
      case h_2 heq =>
        cases heq
        simp only [Bool.and_eq_true, Bool.or_eq_true, decide_eq_true_eq] at h
        exact h.left
      case h_3 => cases h
    have hne : op ≠ .comma ∧ op ≠ .cond := by obtain rfl | rfl := hop <;> simp
    cases E2 with
    | binary op' ty' ET' E2 E3 => rwa [isCandidate, if_neg hne.left, if_neg hne.right]
    | _ => simpa [isCandidate, hne.left] using h
  | _ => simpa [isCandidate] using h

theorem isCandidate_of_tailCalls (h : TailCalls funcsym e) : e.isCandidate funcsym := by
  induction h with
  | call h => exact isCandidate_scancommas ▸ isCandidate_of_callsSelf h
  | @arms e E1 E2 h _ _ ih _ =>
    obtain ⟨ty, ET, E, op, ty', ET', he⟩ := arms_eq_some h
    rw [← isCandidate_scancommas, he, isCandidate, if_neg (by simp), if_pos rfl, ih, Bool.true_or]

theorem tailCalls_arms_iff (h : e.el_scancommas.arms = some (E1, E2)) :
    TailCalls funcsym e ↔ TailCalls funcsym E1 ∧ TailCalls funcsym E2 := by
  constructor
  case mpr => exact fun ⟨h₁, h₂⟩ => .arms h h₁ h₂
  case mp =>
    intro ht
    cases ht with
    | call hc =>
      rw [callsSelf_arms hc] at h
      cases h
    | arms h' h₁ h₂ =>
      cases h.symm.trans h'
      exact ⟨h₁, h₂⟩

theorem tailCalls_iff_of_arms (h : e.el_scancommas.arms = none) :
    TailCalls funcsym e ↔ e.el_scancommas.callsSelf funcsym := by
  constructor
  case mpr => exact .call
  case mp =>
    intro ht
    cases ht with
    | call hc => exact hc
    | arms h' _ _ =>
      rw [h] at h'
      cases h'

end Elem

namespace BlockOpt

variable {tr : TailRecursion n} {bo bo' : BlockOpt n} {b c s x y start : Nat} {bn : Option Nat}
variable {e E1 E2 : Elem n} {F : Nat → Prop}

section steps

theorem unlink_self : ((bo.unlink b bn).block b).code = { (bo.block b).code with
    Bsucc := bn.elim (bo.block b).Bsucc (bo.block b).Bsucc.erase } := by
  cases bn with
  | none    => rfl
  | some bn =>
    rw [unlink, subtractPred_code, modify_block_self]
    rfl

theorem unlink_of_ne (hx : x ≠ b) : ((bo.unlink b bn).block x).code = (bo.block x).code := by
  cases bn with
  | none    => rfl
  | some bn => rw [unlink, subtractPred_code, modify_block_of_ne hx]

theorem unlink_predCount : (bo.unlink b bn).predCount x s =
    bo.predCount x s - if x = b ∧ bn = some s then 1 else 0 := by
  cases bn with
  | none => simp [unlink]
  | some bn =>
    rw [unlink, subtractPred_predCount, modify_predCount (by intro _; rfl)]
    simp only [Option.some.injEq, eq_comm (b := s)]

theorem linkArm_self : ((bo.linkArm b bn).block b).code = { (bo.block b).code with
    Bsucc := (bo.block b).Bsucc ++ bn.toList } := by
  cases bn with
  | none    =>
    rw [linkArm, Option.toList_none, List.append_nil]
    rfl
  | some bn =>
    rw [linkArm, subtractPred_code, modify_block_self]
    rfl

theorem linkArm_of_ne (hx : x ≠ b) : ((bo.linkArm b bn).block x).code = (bo.block x).code := by
  cases bn with
  | none    => rfl
  | some bn => rw [linkArm, subtractPred_code, modify_block_of_ne hx]

-- The predecessor is subtracted, although it is to be added.
theorem linkArm_predCount : (bo.linkArm y bn).predCount x s =
    bo.predCount x s - if x = y ∧ bn = some s then 1 else 0 := by
  cases bn with
  | none => simp [linkArm]
  | some bn =>
    rw [linkArm, subtractPred_predCount, modify_predCount (by intro _; rfl)]
    simp only [Option.some.injEq, eq_comm (b := s)]

theorem unlink_list : (bo.unlink b bn).list = bo.list ∧ (bo.unlink b bn).fresh = bo.fresh := by
  cases bn <;> exact ⟨rfl, rfl⟩

theorem linkArm_list : (bo.linkArm b bn).list = bo.list ∧ (bo.linkArm b bn).fresh = bo.fresh := by
  cases bn <;> exact ⟨rfl, rfl⟩

-- Block b branches to two new blocks, which take its place.
structure SplitCond (b : Nat) (bn : Option Nat) (E1 E2 : Elem n) (bo bo' : BlockOpt n) : Prop where
  list  : bo'.list = insertAfter bo.fresh (bo.fresh + 1) (insertAfter b bo.fresh bo.list)
  fresh : bo'.fresh = bo.fresh + 2
  bc    : (bo'.block b).bc = .iftrue
  belem : (bo'.block b).Belem.isSome
  Bsucc : (bo'.block b).Bsucc = bn.elim (bo.block b).Bsucc (bo.block b).Bsucc.erase ++ [bo.fresh, bo.fresh + 1]
  arm₁  : (bo'.block bo.fresh).code =
    { bc := (bo.block b).bc, Belem := some E1, Bsucc := bn.toList }
  arm₂  : (bo'.block (bo.fresh + 1)).code =
    { bc := (bo.block b).bc, Belem := some E2, Bsucc := bn.toList }
  other : ∀ x, x ≠ b → x ≠ bo.fresh → x ≠ bo.fresh + 1 → (bo'.block x).code = (bo.block x).code
  preds : ∀ x s, ¬(x = bo.fresh ∨ x = bo.fresh + 1) → ¬(s = bo.fresh ∨ s = bo.fresh + 1) →
    bo'.predCount x s = bo.predCount x s - if x = b ∧ bn = some s then 1 else 0
  arms  : ∀ x s, x = bo.fresh ∨ x = bo.fresh + 1 → bo.predCount x s = 0 → bo'.predCount x s = 0
  new   : ∀ x s, s = bo.fresh ∨ s = bo.fresh + 1 → bo'.predCount x s = if x = b then 1 else 0

theorem splitCond_spec (hb : b < bo.fresh) (hbn : ∀ s, bn = some s → s < bo.fresh) :
    SplitCond b bn E1 E2 bo (bo.splitCond b bn e E1 E2) := by
  have hbf : b ≠ bo.fresh := hb.ne
  have hb2 : b ≠ bo.fresh + 1 := (hb.trans (Nat.lt_succ_self _)).ne
  have hff : bo.fresh ≠ bo.fresh + 1 := (Nat.lt_succ_self _).ne
  let bo₁ := (bo.alloc { bc := .ret, Belem := some E1 }).alloc { bc := .ret, Belem := some E2 }
  let bo₂ := bo₁.modify b fun blk =>
    { blk with Belem := some (Elem.setControlling e.el_scancommas.left e) }
  let bo₃ := ((bo₂.unlink b bn).linkArm bo.fresh bn).linkArm (bo.fresh + 1) bn
  let bo₄ := bo₃.modify b fun blk => { blk with Bsucc := blk.Bsucc ++ [bo.fresh, bo.fresh + 1] }
  let bo₅ := (bo₄.pushPred bo.fresh b).pushPred (bo.fresh + 1) b
  let bc := (bo₅.block b).bc
  let bo₆ := (bo₅.modify bo.fresh fun blk => { blk with bc := bc }).modify (bo.fresh + 1)
    fun blk => { blk with bc := bc }
  have hlist : bo₃.list = bo.list ∧ bo₃.fresh = bo.fresh + 2 :=
    ⟨linkArm_list.left.trans (linkArm_list.left.trans (unlink_list).left),
      linkArm_list.right.trans (linkArm_list.right.trans (unlink_list).right)⟩
  have hold (x : Nat) (hx : x ≠ bo.fresh) (hx2 : x ≠ bo.fresh + 1) : bo₁.block x = bo.block x :=
    (alloc_block_of_ne hx2).trans (alloc_block_of_ne hx)
  have hnew₁ : bo₁.block bo.fresh = { bc := .ret, Belem := some E1 } :=
    (alloc_block_of_ne hff).trans alloc_block_self
  have hnew₂ : bo₁.block (bo.fresh + 1) = { bc := .ret, Belem := some E2 } := alloc_block_self
  have hne₁ : bo.fresh ≠ b := Ne.symm hbf
  have hne₂ : bo.fresh + 1 ≠ b := Ne.symm hb2
  have hcode₅ (x : Nat) : (bo₅.block x).code = (bo₄.block x).code := pushPred_code.trans pushPred_code
  have hself₅ : (bo₅.block b).code = { (bo.block b).code with
      Belem := some (Elem.setControlling e.el_scancommas.left e)
      Bsucc := bn.elim (bo.block b).Bsucc (bo.block b).Bsucc.erase ++ [bo.fresh, bo.fresh + 1] } := by
    have h₂ : bo₂.block b = { bo.block b with
        Belem := some (Elem.setControlling e.el_scancommas.left e) } :=
      modify_block_self.trans (by rw [hold b hbf hb2])
    have h₃ : (bo₃.block b).code = { (bo₂.block b).code with
        Bsucc := bn.elim (bo₂.block b).Bsucc (bo₂.block b).Bsucc.erase } :=
      (linkArm_of_ne hb2).trans ((linkArm_of_ne hbf).trans unlink_self)
    have h₄ : (bo₄.block b).code =
        { (bo₃.block b).code with Bsucc := (bo₃.block b).Bsucc ++ [bo.fresh, bo.fresh + 1] } :=
      congrArg Block.code modify_block_self
    rw [hcode₅, h₄, Block.Bsucc_of_code h₃, h₃, h₂]
    rfl
  have hnew (x : Nat) (hx : x = bo.fresh ∨ x = bo.fresh + 1) : (bo₅.block x).code =
      { (bo₁.block x).code with Bsucc := (bo₁.block x).Bsucc ++ bn.toList } := by
    have hxb : x ≠ b := by obtain rfl | rfl := hx <;> assumption
    have h₂ : bo₂.block x = bo₁.block x := modify_block_of_ne hxb
    have h₄ : bo₄.block x = bo₃.block x := modify_block_of_ne hxb
    rw [hcode₅, h₄, ← h₂]
    have hun : ((bo₂.unlink b bn).block x).code = (bo₂.block x).code := unlink_of_ne hxb
    obtain rfl | rfl := hx
    case inl =>
      refine (linkArm_of_ne hff).trans ((linkArm_self).trans ?_)
      rw [hun, Block.code_Bsucc hun]
    case inr =>
      have harm : (((bo₂.unlink b bn).linkArm bo.fresh bn).block (bo.fresh + 1)).code = _ :=
        (linkArm_of_ne (Ne.symm hff)).trans hun
      refine (linkArm_self).trans ?_
      rw [harm, Block.code_Bsucc harm]
  have hbc : bc = (bo.block b).bc := (congrArg Block.bc hself₅ :)
  have hmodify (bo : BlockOpt n) (x s y : Nat) (bc : BC) :
      (bo.modify y fun blk => { blk with bc := bc }).predCount x s = bo.predCount x s :=
    modify_predCount (by intro _; rfl)
  have hpred₃ (x s : Nat) : bo₃.predCount x s = bo₁.predCount x s -
      (if x = b ∧ bn = some s then 1 else 0) - (if x = bo.fresh ∧ bn = some s then 1 else 0) -
      if x = bo.fresh + 1 ∧ bn = some s then 1 else 0 := by
    have h₂ : bo₂.predCount x s = bo₁.predCount x s := modify_predCount (by intro _; rfl)
    exact (linkArm_predCount).trans (by rw [linkArm_predCount, unlink_predCount, h₂])
  have hpred (x s : Nat) : (bo.splitCond b bn e E1 E2).predCount x s =
      bo₃.predCount x s + (if x = b ∧ s = bo.fresh then 1 else 0) +
        if x = b ∧ s = bo.fresh + 1 then 1 else 0 := by
    have h₆ : (bo.splitCond b bn e E1 E2).predCount x s = bo₅.predCount x s :=
      (hmodify ..).trans ((hmodify ..).trans (hmodify ..))
    have h₄ : bo₄.predCount x s = bo₃.predCount x s := modify_predCount (by intro _; rfl)
    rw [h₆, ← h₄]
    exact pushPred_predCount.trans (by rw [pushPred_predCount])
  have hpred₁ (x s : Nat) (hs : ¬(s = bo.fresh ∨ s = bo.fresh + 1)) :
      bo₁.predCount x s = bo.predCount x s := by
    obtain ⟨hs, hs2⟩ := not_or.mp hs
    rw [predCount, hold s hs hs2, predCount]
  have hnone (x s : Nat) (hs : s = bo.fresh ∨ s = bo.fresh + 1) : bo₁.predCount x s = 0 := by
    rw [predCount]
    obtain rfl | rfl := hs
    case inl => rw [hnew₁, List.count_nil]
    case inr => rw [hnew₂, List.count_nil]
  have hb₆ : bo₆.block b = bo₅.block b := (modify_block_of_ne hb2).trans (modify_block_of_ne hbf)
  have hblock : (bo.splitCond b bn e E1 E2).block =
      (bo₆.modify b fun blk => { blk with bc := .iftrue }).block := rfl
  have hself : (bo.splitCond b bn e E1 E2).block b = { bo₅.block b with bc := .iftrue } := by
    rw [hblock, modify_block_self, hb₆]
  have hothers (x : Nat) (hx : x ≠ b) : (bo.splitCond b bn e E1 E2).block x = bo₆.block x := by
    rw [hblock, modify_block_of_ne hx]
  refine ⟨?_, hlist.right, ?_, ?_, ?_, ?_, ?_, fun x hxb hx hx2 => ?_, fun x s hx hs => ?_,
    fun x s hx hz => ?_, fun x s hs => ?_⟩
  case refine_1 =>
    exact congrArg (fun list => insertAfter bo.fresh (bo.fresh + 1) (insertAfter b bo.fresh list)) hlist.left
  case refine_2 => rw [hself]
  case refine_3 =>
    have hB : (bo₅.block b).Belem = some _ := (congrArg Block.Belem hself₅ :)
    rw [hself, hB]
    rfl
  case refine_4 =>
    rw [hself]
    exact (congrArg Block.Bsucc hself₅ :)
  case refine_5 =>
    have h₆ : (bo₆.block bo.fresh).code = { (bo₅.block bo.fresh).code with bc := bc } :=
      (congrArg Block.code (modify_block_of_ne hff)).trans (congrArg Block.code modify_block_self)
    rw [hothers _ hne₁, h₆, hnew _ (.inl rfl), hnew₁, hbc]
    rfl
  case refine_6 =>
    have h₆ : (bo₆.block (bo.fresh + 1)).code = { (bo₅.block (bo.fresh + 1)).code with bc := bc } := by
      rw [show bo₆.block (bo.fresh + 1) = _ from modify_block_self, modify_block_of_ne (Ne.symm hff)]
      rfl
    rw [hothers _ hne₂, h₆, hnew _ (.inr rfl), hnew₂, hbc]
    rfl
  case refine_7 =>
    have h₆ : bo₆.block x = bo₅.block x := (modify_block_of_ne hx2).trans (modify_block_of_ne hx)
    have h₄ : bo₄.block x = bo₃.block x := modify_block_of_ne hxb
    have h₂ : bo₂.block x = bo₁.block x := modify_block_of_ne hxb
    rw [hothers x hxb, h₆, hcode₅, h₄]
    refine (linkArm_of_ne hx2).trans ((linkArm_of_ne hx).trans ((unlink_of_ne hxb).trans ?_))
    rw [h₂, hold x hx hx2]
  case refine_8 =>
    obtain ⟨hxf, hxf2⟩ := not_or.mp hx
    rw [hpred, hpred₃, hpred₁ x s hs]
    obtain ⟨hsf, hsf2⟩ := not_or.mp hs
    simp [hxf, hxf2, hsf, hsf2]
  case refine_9 =>
    have hxb : x ≠ b := by obtain rfl | rfl := hx <;> assumption
    have hz₁ : bo₁.predCount x s = 0 := by
      by_cases hs : s = bo.fresh ∨ s = bo.fresh + 1
      case pos => exact hnone x s hs
      case neg => rw [hpred₁ x s hs, hz]
    rw [hpred, hpred₃, hz₁]
    simp [hxb]
  case refine_10 =>
    have hbns : bn ≠ some s := fun h => by
      have := hbn s h
      omega
    rw [hpred, hpred₃, hnone x s hs]
    by_cases hxb : x = b
    case neg => simp [hxb]
    case pos =>
      obtain rfl | rfl := hs
      all_goals simp [hxb, hbns]

-- Block b goes on to the start block, before which there is a new one.
structure TailCall (b start : Nat) (bn : Option Nat) (bo bo' : BlockOpt n) : Prop where
  list  : bo'.list = bo.fresh :: bo.list
  fresh : bo'.fresh = bo.fresh + 1
  bc    : (bo'.block b).bc = .goto_
  belem : (bo'.block b).Belem.isSome
  Bsucc : (bo'.block b).Bsucc = bn.elim (bo.block b).Bsucc (bo.block b).Bsucc.erase ++ [start]
  new   : (bo'.block bo.fresh).code = { bc := .goto_, Bsucc := [start] }
  other : ∀ x, x ≠ b → x ≠ bo.fresh → (bo'.block x).code = (bo.block x).code
  preds : ∀ x s, s ≠ bo.fresh → bo'.predCount x s =
    bo.predCount x s - (if x = b ∧ bn = some s then 1 else 0) +
      if (x = b ∨ x = bo.fresh) ∧ s = start then 1 else 0
  none  : ∀ x, bo'.predCount x bo.fresh = 0

theorem tailCall_spec (hb : b < bo.fresh) (hs : start < bo.fresh) :
    TailCall b start bn bo (bo.tailCall tr b start bn e) := by
  have hbf : b ≠ bo.fresh := hb.ne
  let bo₁ := bo.modify b fun blk =>
    { blk with Belem := some (Elem.setControlling (replaceCall tr e.el_scancommas) e) }
  let bo₂ := bo₁.unlink b bn
  let bo₃ := (bo₂.modify b fun blk => { blk with bc := .goto_, Bsucc := blk.Bsucc ++ [start] }).pushPred start b
  let bo₄ := bo₃.alloc { bc := .goto_, Bsucc := [start] }
  have hlist : bo₃.list = bo.list ∧ bo₃.fresh = bo.fresh := unlink_list
  have hcode (x : Nat) : ((bo.tailCall tr b start bn e).block x).code = (bo₄.block x).code := pushPred_code
  have hself : (bo₃.block b).code = { (bo.block b).code with
      bc := .goto_
      Belem := some (Elem.setControlling (replaceCall tr e.el_scancommas) e)
      Bsucc := bn.elim (bo.block b).Bsucc (bo.block b).Bsucc.erase ++ [start] } := by
    have h₁ : bo₁.block b = { bo.block b with
        Belem := some (Elem.setControlling (replaceCall tr e.el_scancommas) e) } := modify_block_self
    have h₂ : (bo₂.block b).code = { (bo₁.block b).code with
        Bsucc := bn.elim (bo₁.block b).Bsucc (bo₁.block b).Bsucc.erase } := unlink_self
    have h₃ : (bo₃.block b).code =
        { (bo₂.block b).code with bc := .goto_, Bsucc := (bo₂.block b).Bsucc ++ [start] } :=
      pushPred_code.trans (congrArg Block.code modify_block_self)
    rw [h₃, Block.Bsucc_of_code h₂, h₂, h₁]
    rfl
  have hself₄ : bo₄.block b = bo₃.block b := alloc_block_of_ne (hlist.right ▸ hbf)
  have hpred₃ (x s : Nat) : bo₃.predCount x s = bo.predCount x s -
      (if x = b ∧ bn = some s then 1 else 0) + if x = b ∧ s = start then 1 else 0 := by
    have h₁ : bo₁.predCount x s = bo.predCount x s := modify_predCount (by intro _; rfl)
    exact pushPred_predCount.trans (by rw [modify_predCount (by intro _; rfl), unlink_predCount, h₁])
  have hpred (x s : Nat) : (bo.tailCall tr b start bn e).predCount x s =
      bo₄.predCount x s + if x = bo₃.fresh ∧ s = start then 1 else 0 := pushPred_predCount
  refine ⟨?_, ?_, ?_, ?_, ?_, ?_, fun x hxb hx => ?_, fun x s hsf => ?_, fun x => ?_⟩
  case refine_1 =>
    have heq : (bo.tailCall tr b start bn e).list = bo₃.fresh :: bo₃.list := rfl
    rw [heq, hlist.left, hlist.right]
  case refine_2 => exact congrArg (· + 1) hlist.right
  case refine_3 =>
    rw [Block.code_bc (hcode b), hself₄]
    exact (congrArg Block.bc hself :)
  case refine_4 =>
    have hB : (bo₃.block b).Belem = some _ := (congrArg Block.Belem hself :)
    rw [Block.code_Belem (hcode b), hself₄, hB]
    rfl
  case refine_5 =>
    rw [Block.code_Bsucc (hcode b), hself₄]
    exact (congrArg Block.Bsucc hself :)
  case refine_6 =>
    rw [hcode, ← hlist.right, show bo₄.block bo₃.fresh = _ from alloc_block_self]
    rfl
  case refine_7 =>
    have h₄ : bo₄.block x = bo₃.block x := alloc_block_of_ne (hlist.right ▸ hx)
    have h₁ : bo₁.block x = bo.block x := modify_block_of_ne hxb
    rw [hcode, h₄]
    refine pushPred_code.trans ?_
    rw [modify_block_of_ne hxb]
    exact (unlink_of_ne hxb).trans (congrArg Block.code h₁)
  case refine_8 =>
    have h₄ : bo₄.predCount x s = bo₃.predCount x s := by
      rw [predCount, alloc_block_of_ne (hlist.right ▸ hsf), predCount]
    rw [hpred, h₄, hpred₃, hlist.right]
    by_cases hxb : x = b
    case pos => simp [hxb, hbf]
    case neg => simp [hxb]
  case refine_9 =>
    have h₄ : bo₄.predCount x bo.fresh = 0 := by
      rw [predCount, ← hlist.right, show bo₄.block bo₃.fresh = _ from alloc_block_self, List.count_nil]
    rw [hpred, h₄]
    simp [hs.ne']

end steps

end BlockOpt

end Compiler.Backend
