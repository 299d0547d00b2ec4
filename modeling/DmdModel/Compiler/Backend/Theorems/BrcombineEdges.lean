import DmdModel.Compiler.Backend.Theorems.Merging

-- The lists of successors and predecessors when blocks are combined.
namespace Compiler.Backend.BlockOpt

variable {n : Nat} {bo bo' bo₁ : BlockOpt n} {b b2 b3 c s x bsucc : Nat} {e2 e3 : Elem n}

section cases

-- A branch to two blocks of which the first one is entered from b only.
structure Branch (b b2 b3 : Nat) (bo : BlockOpt n) : Prop where
  bc     : (bo.block b).bc = .iftrue
  first  : (bo.block b).Bsucc[0]? = some b2
  second : (bo.block b).Bsucc[1]? = some b3
  few    : ¬(bo.block b2).Bpred.length > 1
  ne     : b2 ≠ b3

theorem Branch.ne_of_bc (h : Branch b b2 b3 bo) (hc : (bo.block c).bc ≠ .iftrue) : b ≠ c :=
  fun he => hc (he ▸ h.bc)

theorem Branch.mem_second (h : Branch b b2 b3 bo) : b3 ∈ (bo.block b).Bsucc :=
  List.mem_of_getElem? h.second

-- The first of two gotos, or both of them, are put into the expression of a branch.
def Combines (b : Nat) (bo : BlockOpt n) : Prop :=
  ∃ b2 b3, Branch b b2 b3 bo ∧ bo.startblock ≠ some b2 ∧ leafOrNone (bo.block b2).Belem ∧
    (bo.block b2).bc = .goto_ ∧
    ((bo.block b2).Bsucc[0]? = some b3 ∨
      ¬(bo.block b3).Bpred.length > 1 ∧ bo.startblock ≠ some b3 ∧ (bo.block b3).bc = .goto_ ∧
        (bo.block b2).Bsucc[0]? = (bo.block b3).Bsucc[0]? ∧
        ((bo.block b2).Belem.isSome → leafOrNone (bo.block b3).Belem))

-- What becomes of the blocks if no goto is put into an expression.
def Keeps (b : Nat) (bo bo' : BlockOpt n) : Prop :=
  bo' = bo ∨ ∃ b2 b3 e2 e3, Branch b b2 b3 bo ∧ (bo.block b2).bc = .retexp ∧
    (bo.block b3).bc = .retexp ∧ bo' = bo.combineRetexp b b2 b3 e2 e3

-- What becomes of them otherwise.
def Joins (b : Nat) (bo bo' : BlockOpt n) : Prop :=
  ∃ b2 b3, Branch b b2 b3 bo ∧ (bo.block b2).bc = .goto_ ∧
    (bo' = bo.combineAnd b b2 ∨
      ∃ bo₁ bsucc, (bo₁ = bo ∨ bo₁ = bo.combineAnd b b2) ∧ (bo₁.block b3).bc = .goto_ ∧ b ≠ b3 ∧
        bo' = bo₁.combineGoto b b2 b3 bsucc)

theorem Combines.branch {b2' b3' : Nat} (h : Branch b b2 b3 bo) (h' : Branch b b2' b3' bo) :
    b2' = b2 ∧ b3' = b3 :=
  ⟨Option.some.inj (h'.first.symm.trans h.first), Option.some.inj (h'.second.symm.trans h.second)⟩

theorem brcombineReturns_cases (hb : Branch b b2 b3 bo) (hstart : bo.startblock ≠ some b2)
    (hleaf : leafOrNone (bo.block b2).Belem) (hgo : (bo.block b2).bc = .goto_ → (bo.block b2).Bsucc[0]? ≠ some b3)
    (hfew : ¬(bo.block b3).Bpred.length > 1) (hstart₃ : bo.startblock ≠ some b3)
    (h : bo.brcombineReturns b b2 b3 (bo.block b2).bc = some bo') :
    (¬Combines b bo ∧ Keeps b bo bo') ∨ (Combines b bo ∧ Joins b bo bo') := by
  have hnot (hn : (bo.block b2).bc = .goto_ → (bo.block b3).bc = .goto_ →
      (bo.block b2).Bsucc[0]? = (bo.block b3).Bsucc[0]? →
      ¬((bo.block b2).Belem.isSome → leafOrNone (bo.block b3).Belem)) : ¬Combines b bo := by
    rintro ⟨b2', b3', hb', -, -, hbc, hs⟩
    obtain ⟨rfl, rfl⟩ := Combines.branch hb hb'
    obtain hs | ⟨-, -, hbc₃, hs, hl⟩ := hs
    case inl => exact hgo hbc hs
    case inr => exact hn hbc hbc₃ hs hl
  simp only [brcombineReturns, Option.bind_eq_bind] at h
  split at h
  case isTrue hbc =>
    refine .inl ⟨hnot fun hg => absurd (hbc.left.symm.trans hg) BC.noConfusion, ?_⟩
    obtain ⟨e3, -, h⟩ := Option.bind_eq_some_iff.mp h
    split at h
    case isFalse => exact .inl (Option.some.inj h).symm
    case isTrue =>
      obtain ⟨e2, -, h⟩ := Option.bind_eq_some_iff.mp h
      exact .inr ⟨b2, b3, e2, e3, hb, hbc.left, hbc.right, (Option.some.inj h).symm⟩
  case isFalse =>
    split at h
    case isFalse hbc =>
      exact .inl ⟨hnot fun hg hg₃ => absurd ⟨hg, hg₃⟩ hbc, .inl (Option.some.inj h).symm⟩
    case isTrue hbc =>
      obtain ⟨s2, hs₂, h⟩ := Option.bind_eq_some_iff.mp h
      obtain ⟨s3, hs₃, h⟩ := Option.bind_eq_some_iff.mp h
      split at h
      case isFalse hl =>
        refine .inl ⟨hnot fun _ _ hs hl' => hl ⟨?_, hl'⟩, .inl (Option.some.inj h).symm⟩
        exact Option.some.inj (hs₂.symm.trans (hs.trans hs₃))
      case isTrue hl =>
        refine .inr ⟨⟨b2, b3, hb, hstart, hleaf, hbc.left, .inr ⟨hfew, hstart₃, hbc.right, ?_, hl.right⟩⟩, ?_⟩
        case refine_1 => rw [hs₂, hs₃, hl.left]
        case refine_2 =>
          refine ⟨b2, b3, hb, hbc.left, .inr ⟨bo, s2, .inl rfl, hbc.right, ?_, (Option.some.inj h).symm⟩⟩
          exact hb.ne_of_bc (by rw [hbc.right]; exact BC.noConfusion)

theorem brcombineReturns_and_cases (hb : Branch b b2 b3 bo) (hbc : (bo.block b2).bc = .goto_)
    (hs : (bo.block b2).Bsucc[0]? = some b3)
    (h : (bo.combineAnd b b2).brcombineReturns b b2 b3 .goto_ = some bo') : Joins b bo bo' := by
  have hne : b ≠ b2 := hb.ne_of_bc (by rw [hbc]; exact BC.noConfusion)
  refine ⟨b2, b3, hb, hbc, ?_⟩
  simp only [brcombineReturns, reduceCtorEq, false_and, if_false, true_and, Option.bind_eq_bind] at h
  split at h
  case isFalse => exact .inl (Option.some.inj h).symm
  case isTrue hbc₃ =>
    obtain ⟨s2, hs₂, h⟩ := Option.bind_eq_some_iff.mp h
    obtain ⟨s3, hs₃, h⟩ := Option.bind_eq_some_iff.mp h
    split at h
    case isFalse => exact .inl (Option.some.inj h).symm
    case isTrue hl =>
      refine .inr ⟨_, s2, .inr rfl, hbc₃, ?_, (Option.some.inj h).symm⟩
      rintro rfl
      -- The first successor of b is still b2.
      rw [combineAnd_arm_succ hne hs hb.ne] at hs₂
      rw [combineAnd_self hne] at hs₃
      have hs₃ : some b2 = some s3 := hb.first.symm.trans hs₃
      rw [← Option.some.inj hs₂, ← Option.some.inj hs₃] at hl
      exact hne hl.left

theorem brcombineBlock_cases (h : bo.brcombineBlock b = some bo') :
    (¬Combines b bo ∧ Keeps b bo bo') ∨ (Combines b bo ∧ Joins b bo bo') := by
  simp only [brcombineBlock, Option.bind_eq_bind] at h
  split at h
  case isFalse hbc =>
    refine .inl ⟨?_, .inl (Option.some.inj h).symm⟩
    rintro ⟨b2, b3, hb, -⟩
    exact hbc hb.bc
  case isTrue hbc =>
    obtain ⟨b2, hb₂, h⟩ := Option.bind_eq_some_iff.mp h
    obtain ⟨b3, hb₃, h⟩ := Option.bind_eq_some_iff.mp h
    split at h
    case isTrue hk =>
      refine .inl ⟨?_, .inl (Option.some.inj h).symm⟩
      rintro ⟨b2', b3', hb, hstart, hleaf, -⟩
      cases hb₂.symm.trans hb.first
      cases hb₃.symm.trans hb.second
      obtain hk | hk | hk | hk := hk
      case inl         => exact hb.few hk
      case inr.inl     => exact hb.ne hk
      case inr.inr.inl => exact hstart hk
      case inr.inr.inr => exact hk hleaf
    case isFalse hk =>
      simp only [not_or, not_not] at hk
      obtain ⟨hfew, hne, hstart, hleaf⟩ := hk
      have hb : Branch b b2 b3 bo := ⟨hbc, hb₂, hb₃, hfew, hne⟩
      split at h
      case isTrue hgo =>
        exact .inr ⟨⟨b2, b3, hb, hstart, hleaf, hgo.left, .inl hgo.right⟩,
          brcombineReturns_and_cases hb hgo.left hgo.right h⟩
      case isFalse hgo =>
        split at h
        case isTrue hk₃ =>
          refine .inl ⟨?_, .inl (Option.some.inj h).symm⟩
          rintro ⟨b2', b3', hb', -, -, hbc₂, hs⟩
          obtain ⟨rfl, rfl⟩ := Combines.branch hb hb'
          obtain hs | ⟨hfew₃, hstart₃, -⟩ := hs
          case inl => exact hgo ⟨hbc₂, hs⟩
          case inr => exact hk₃.elim hfew₃ hstart₃
        case isFalse hk₃ =>
          obtain ⟨hfew₃, hstart₃⟩ := not_or.mp hk₃
          exact brcombineReturns_cases hb hstart hleaf (fun hg hs => hgo ⟨hg, hs⟩) hfew₃ hstart₃ h

end cases

section retexp

-- A block without its expression.
def clearBelem (bo : BlockOpt n) (b : Nat) : BlockOpt n :=
  bo.modify b fun blk => { blk with Belem := none }

theorem WellFormed.clearBelem (h : WellFormed bo) (hb : b < bo.fresh) : WellFormed (bo.clearBelem b) := by
  refine h.of_perm hb (.modify (by intro _; rfl)) (fun _ => modify_predCount (by intro _; rfl)) (.of_eq ?_) ?_
  all_goals rw [BlockOpt.clearBelem, modify_block_self]

theorem combineRetexp_predCount : (bo.combineRetexp b b2 b3 e2 e3).predCount x s =
    bo.predCount x s - if x = b then [b2, b3].count s else 0 := by
  rw [combineRetexp, subtractPred_predCount, subtractPred_predCount, modify_predCount (by intro _; rfl),
    modify_predCount (by intro _; rfl), modify_predCount (by intro _; rfl),
    modify_predCount (by intro _; rfl)]
  by_cases hx : x = b
  case neg => simp [hx]
  case pos =>
    simp only [hx, true_and, if_true, List.count_cons, List.count_nil, beq_iff_eq, eq_comm (b := s)]
    omega

-- But for b, the arms lose their expressions only.
theorem combineRetexp_rewrites : Rewrites b ((bo.clearBelem b2).clearBelem b3)
    (bo.combineRetexp b b2 b3 e2 e3) where
  list  := rfl
  fresh := rfl
  same c hc := {
    code    := by
      simp only [combineRetexp, clearBelem, subtractPred_code]
      rw [modify_block_of_ne hc, modify_block (b := b3), modify_block (b := b3), modify_block (b := b2),
        modify_block (b := b2), modify_block_of_ne hc]
    preds s := by
      rw [combineRetexp_predCount, if_neg hc, Nat.sub_zero, clearBelem, clearBelem,
        modify_predCount (by intro _; rfl), modify_predCount (by intro _; rfl)]
  }

-- Combining two blocks that return a value keeps a graph well formed.
theorem WellFormed.combineRetexp (h : WellFormed bo) (hb : Branch b b2 b3 bo)
    (hbc₂ : (bo.block b2).bc = .retexp) (hbc₃ : (bo.block b3).bc = .retexp) :
    WellFormed (bo.combineRetexp b b2 b3 e2 e3) := by
  have hne₂ : b ≠ b2 := hb.ne_of_bc (by rw [hbc₂]; exact BC.noConfusion)
  have hne₃ : b ≠ b3 := hb.ne_of_bc (by rw [hbc₃]; exact BC.noConfusion)
  have hlt {x : Nat} (hx : (bo.block x).bc = .iftrue ∨ (bo.block x).bc = .retexp) : x < bo.fresh := by
    by_contra hn
    rw [h.empty x (Nat.le_of_not_lt hn)] at hx
    simp at hx
  have hsucc : (bo.block b).Bsucc = [b2, b3] := by
    have hlen := h.arity b
    rw [Block.Arity, hb.bc] at hlen
    obtain ⟨s0, s1, hs⟩ := List.length_eq_two.mp hlen
    have hfirst := hb.first
    have hsecond := hb.second
    rw [hs] at hfirst hsecond ⊢
    rw [Option.some.inj hfirst, Option.some.inj hsecond]
  have hself : (bo.combineRetexp b b2 b3 e2 e3).block b = _ := combineRetexp_self hne₂ hne₃
  have hclear : WellFormed ((bo.clearBelem b2).clearBelem b3) :=
    (h.clearBelem (hlt (.inr hbc₂))).clearBelem (hlt (.inr hbc₃))
  refine hclear.of_rewrites combineRetexp_rewrites (hlt (.inl hb.bc)) (fun s => ?_) ?_ fun s hs => ?_
  case refine_1 =>
    rw [combineRetexp_predCount, if_pos rfl, ← h.edges, succCount, succCount, hself, hsucc]
    exact (Nat.sub_self _).symm
  case refine_2 => rw [hself]; rfl
  case refine_3 =>
    rw [Edge, hself] at hs
    cases hs

theorem Keeps.wellFormed (h : WellFormed bo) (hk : Keeps b bo bo') : WellFormed bo' := by
  obtain rfl | ⟨b2, b3, e2, e3, hb, hbc₂, hbc₃, rfl⟩ := hk
  case inl => exact h
  case inr => exact h.combineRetexp hb hbc₂ hbc₃

end retexp

section broken

-- The successors of a branch list it as a predecessor.
def Linked (bo : BlockOpt n) : Prop :=
  ∀ {b}, (bo.block b).bc = .iftrue → ∀ s ∈ (bo.block b).Bsucc, b ∈ (bo.block s).Bpred

-- The successors of a goto are not one, or do not match the predecessors.
def Broken (bo : BlockOpt n) : Prop :=
  ∃ b, (bo.block b).bc = .goto_ ∧
    ((bo.block b).Bsucc.length ≠ 1 ∨ ∃ s, bo.succCount b s ≠ bo.predCount b s)

theorem WellFormed.linked (h : WellFormed bo) : Linked bo := by
  intro b _ s hs
  rw [mem_Bpred_iff_predCount, ← h.edges]
  exact edge_iff_succCount.mp hs

theorem Broken.not_wellFormed (h : Broken bo) : ¬WellFormed bo := by
  intro hwf
  obtain ⟨b, hbc, hlen | ⟨s, hs⟩⟩ := h
  case inl =>
    have ha := hwf.arity b
    rw [Block.Arity, hbc] at ha
    exact hlen ha
  case inr => exact hs (hwf.edges b s)

-- Block b may become the return of a value; everything else but returns of a value stays as it is.
theorem Keeps.cases (hk : Keeps b bo bo') (c : Nat) :
    ((c = b ∧ (bo.block b).bc = .iftrue ∨ (bo.block c).bc = .retexp) ∧ (bo'.block c).bc = .retexp) ∨
      (bo'.block c = bo.block c ∧ ∀ s, bo'.predCount c s = bo.predCount c s) := by
  obtain rfl | ⟨b2, b3, e2, e3, hb, hbc₂, hbc₃, rfl⟩ := hk
  case inl => exact .inr ⟨rfl, fun _ => rfl⟩
  case inr =>
    have hne₂ : b ≠ b2 := hb.ne_of_bc (by rw [hbc₂]; exact BC.noConfusion)
    have hne₃ : b ≠ b3 := hb.ne_of_bc (by rw [hbc₃]; exact BC.noConfusion)
    by_cases hcb : c = b
    case pos =>
      subst hcb
      exact .inl ⟨.inl ⟨rfl, hb.bc⟩, by rw [combineRetexp_self hne₂ hne₃]⟩
    case neg =>
      by_cases hret : (bo.block c).bc = .retexp
      case pos => exact .inl ⟨.inr hret, (combineRetexp_arms hcb).trans hret⟩
      case neg =>
        refine .inr ⟨combineRetexp_of_ne hcb ?_ ?_, fun s => ?_⟩
        case refine_1 => rintro rfl; exact hret hbc₂
        case refine_2 => rintro rfl; exact hret hbc₃
        case refine_3 => rw [combineRetexp_predCount, if_neg hcb, Nat.sub_zero]

theorem Keeps.linked (hk : Keeps b bo bo') (h : Linked bo) : Linked bo' := by
  intro c hc s hs
  obtain ⟨-, hret⟩ | ⟨hsame, hpreds⟩ := hk.cases c
  case inl =>
    rw [hc] at hret
    cases hret
  case inr =>
    rw [hsame] at hc hs
    rw [mem_Bpred_iff_predCount, hpreds, ← mem_Bpred_iff_predCount]
    exact h hc s hs

theorem Keeps.broken (hk : Keeps b bo bo') (h : Broken bo) : Broken bo' := by
  obtain ⟨c, hc, hbroken⟩ := h
  obtain ⟨⟨rfl, hn⟩ | hn, -⟩ | ⟨hsame, hpreds⟩ := hk.cases c
  case inl.inl | inl.inr =>
    rw [hc] at hn
    cases hn
  case inr =>
    refine ⟨c, hsame ▸ hc, ?_⟩
    rw [hsame]
    refine hbroken.imp_right fun ⟨s, hs⟩ => ⟨s, ?_⟩
    rwa [hpreds, succCount, hsame]

theorem mem_Bpred_combineAnd (hne : b ≠ b2) (hc : c ≠ b) :
    c ∈ ((bo.combineAnd b b2).block s).Bpred ↔ c ∈ (bo.block s).Bpred := by
  by_cases hs₂ : s = b2
  case pos => rw [hs₂, combineAnd_arm hne, List.mem_erase_of_ne hc]
  case neg =>
    by_cases hs : s = b
    case pos => rw [hs, combineAnd_self hne]
    case neg => rw [combineAnd_of_ne hs hs₂]

theorem Linked.combineAnd (h : Linked bo) (hbc₂ : (bo.block b2).bc = .goto_) (hne : b ≠ b2) :
    Linked (bo.combineAnd b b2) := by
  intro c hc s hs
  have hcb : c ≠ b := by
    rintro rfl
    rw [combineAnd_self hne] at hc
    cases hc
  have hc₂ : c ≠ b2 := by
    rintro rfl
    rw [combineAnd_arm hne] at hc
    rw [hbc₂] at hc
    cases hc
  rw [combineAnd_of_ne hcb hc₂] at hc hs
  rw [mem_Bpred_combineAnd hne hcb]
  exact h hc s hs

theorem Linked.combineGoto (h : Linked bo) (hsole : ∀ {c}, (bo.block c).bc = .iftrue → c ≠ b → b2 ∉ (bo.block c).Bsucc)
    (hne₂ : b ≠ b2) (hne₃ : b ≠ b3) : Linked (bo.combineGoto b b2 b3 bsucc) := by
  intro c hc s hs
  have harm (hc' : c = b2 ∨ c = b3) : False := by
    rw [combineGoto_arms hc'] at hc
    cases hc
  obtain ⟨hc₂, hc₃⟩ := not_or.mp harm
  have hcb : c ≠ b := by
    rintro rfl
    have hself : ((bo.combineGoto c b2 b3 bsucc).block c).code = _ := combineGoto_self hne₂ hne₃
    rw [Block.bc_of_code hself] at hc
    cases hc
  have hcode : ((bo.combineGoto b b2 b3 bsucc).block c).code = _ := combineGoto_code hcb hc₂ hc₃
  rw [Block.code_bc hcode] at hc
  rw [Block.code_Bsucc hcode] at hs
  have hmem := h hc s hs
  have hs₂ : s ≠ b2 := by
    rintro rfl
    exact hsole hc hcb hs
  rw [combineGoto_Bpred hs₂]
  split
  case isFalse => exact hmem
  case isTrue =>
    exact (List.mem_erase_of_ne hc₃).mpr ((List.mem_erase_of_ne hc₂).mpr (List.mem_append_left _ hmem))

theorem broken_combineGoto (hne₂ : b ≠ b2) (hne₃ : b ≠ b3) (hne : b2 ≠ b3)
    (hb : b ∈ (bo.block b3).Bpred) : Broken (bo.combineGoto b b2 b3 bsucc) := by
  have hself : ((bo.combineGoto b b2 b3 bsucc).block b).code = _ := combineGoto_self hne₂ hne₃
  have hpos := List.count_pos_iff.mpr hb
  refine ⟨b, Block.bc_of_code hself, .inr ⟨b3, ?_⟩⟩
  rw [succCount, Block.Bsucc_of_code hself, predCount, combineGoto_Bpred (Ne.symm hne)]
  by_cases hs : b3 = bsucc
  case neg =>
    rw [if_neg hs]
    simp only [List.count_singleton, beq_iff_eq, Ne.symm hs, if_false]
    exact hpos.ne
  case pos =>
    subst hs
    rw [if_pos rfl, List.count_erase_of_ne hne₃, List.count_erase_of_ne hne₂, List.count_append]
    simp only [List.count_singleton_self]
    omega

theorem Joins.broken (hj : Joins b bo bo') (h : Linked bo) : Linked bo' ∧ Broken bo' := by
  obtain ⟨b2, b3, hb, hbc₂, hj⟩ := hj
  have hne₂ : b ≠ b2 := hb.ne_of_bc (by rw [hbc₂]; exact BC.noConfusion)
  have hb₂ : b2 ∈ (bo.block b).Bsucc := List.mem_of_getElem? hb.first
  have hand : Linked (bo.combineAnd b b2) := h.combineAnd hbc₂ hne₂
  obtain rfl | ⟨bo₁, bsucc, hbo₁, hbc₃, hne₃, rfl⟩ := hj
  case inl =>
    refine ⟨hand, b, by rw [combineAnd_self hne₂], .inl fun hlen => ?_⟩
    have hsecond := hb.second
    rw [combineAnd_self hne₂] at hlen
    dsimp only at hlen
    rw [List.getElem?_eq_none hlen.le] at hsecond
    cases hsecond
  case inr =>
    have hsole {c : Nat} (hc : (bo.block c).bc = .iftrue) (hcb : c ≠ b) : b2 ∉ (bo.block c).Bsucc :=
      fun hm => hb.few (two_le_length (h hc b2 hm) (h hb.bc b2 hb₂) hcb)
    obtain rfl | rfl := hbo₁
    case inl => exact ⟨h.combineGoto hsole hne₂ hne₃, broken_combineGoto hne₂ hne₃ hb.ne (h hb.bc b3 hb.mem_second)⟩
    case inr =>
      refine ⟨hand.combineGoto (fun {c} hc hcb hm => ?_) hne₂ hne₃, broken_combineGoto hne₂ hne₃ hb.ne ?_⟩
      case refine_1 =>
        have hc₂ : c ≠ b2 := by
          rintro rfl
          rw [combineAnd_arm hne₂] at hc
          rw [hbc₂] at hc
          cases hc
        rw [combineAnd_of_ne hcb hc₂] at hc hm
        exact hsole hc hcb hm
      case refine_2 =>
        rw [combineAnd_of_ne (Ne.symm hne₃) (Ne.symm hb.ne)]
        exact h hb.bc b3 hb.mem_second

end broken

section brcombine

variable {l : List Nat}

theorem Combines.of_same (hstart : bo'.startblock = bo.startblock)
    (hsame : ∀ x, (bo.block x).bc = .goto_ ∨ (x = b ∧ (bo.block x).bc = .iftrue) →
      bo'.block x = bo.block x) (h : Combines b bo) : Combines b bo' := by
  obtain ⟨b2, b3, hb, hs, hleaf, hbc, hsucc⟩ := h
  have hself := hsame b (.inr ⟨rfl, hb.bc⟩)
  have harm := hsame b2 (.inl hbc)
  refine ⟨b2, b3, ⟨?_, ?_, ?_, ?_, hb.ne⟩, hstart ▸ hs, harm ▸ hleaf, harm ▸ hbc, ?_⟩
  case refine_1 => exact hself ▸ hb.bc
  case refine_2 => exact hself ▸ hb.first
  case refine_3 => exact hself ▸ hb.second
  case refine_4 => exact harm ▸ hb.few
  case refine_5 =>
    rw [harm, hstart]
    refine hsucc.imp_right fun ⟨hfew, hs₃, hbc₃, hsucc⟩ => ?_
    rw [hsame b3 (.inl hbc₃)]
    exact ⟨hfew, hs₃, hbc₃, hsucc⟩

theorem Keeps.startblock (hk : Keeps b bo bo') : bo'.startblock = bo.startblock := by
  obtain rfl | ⟨b2, b3, e2, e3, -, -, -, rfl⟩ := hk
  case inl => rfl
  case inr => rfl

-- What combines does so before and after another block becomes the return of a value.
theorem Keeps.combines_iff (hk : Keeps b bo bo') (hc : c ≠ b) : Combines c bo' ↔ Combines c bo := by
  constructor
  case mp =>
    refine Combines.of_same hk.startblock.symm fun x hx => ?_
    obtain ⟨-, hret⟩ | ⟨hsame, -⟩ := hk.cases x
    case inl =>
      rw [hret] at hx
      simp at hx
    case inr => exact hsame.symm
  case mpr =>
    refine Combines.of_same hk.startblock fun x hx => ?_
    obtain ⟨⟨rfl, hn⟩ | hn, -⟩ | ⟨hsame, -⟩ := hk.cases x
    case inl.inl =>
      rw [hn] at hx
      simp [Ne.symm hc] at hx
    case inl.inr =>
      rw [hn] at hx
      simp at hx
    case inr => exact hsame

theorem InfiniteArm.combines (h : InfiniteArm b bo) : Combines b bo := by
  obtain ⟨hbc, b2, hb₂, b3, hb₃, hne, hstart, hfew, hleaf, hbc₂, hs, -⟩ := h
  exact ⟨b2, b3, ⟨hbc, hb₂, hb₃, hfew, hne⟩, hstart, hleaf, hbc₂, .inl hs⟩

theorem foldlM_brcombineBlock_broken (hlinked : Linked bo) (h : Broken bo)
    (hbo : l.foldlM brcombineBlock bo = some bo') : Broken bo' := by
  induction l generalizing bo with
  | nil => exact Option.some.inj hbo ▸ h
  | cons b l ih =>
    obtain ⟨bo₁, hs, hbo⟩ := Option.bind_eq_some_iff.mp hbo
    obtain ⟨-, hk⟩ | ⟨-, hj⟩ := brcombineBlock_cases hs
    case inl => exact ih (hk.linked hlinked) (hk.broken h) hbo
    case inr =>
      obtain ⟨hlinked', h'⟩ := hj.broken hlinked
      exact ih hlinked' h' hbo

theorem foldlM_brcombineBlock_wellFormed_iff (h : WellFormed bo) (hl : l.Nodup)
    (hbo : l.foldlM brcombineBlock bo = some bo') : WellFormed bo' ↔ ∀ b ∈ l, ¬Combines b bo := by
  induction l generalizing bo with
  | nil =>
    cases hbo
    simpa using h
  | cons b l ih =>
    obtain ⟨hb, hl⟩ := List.nodup_cons.mp hl
    obtain ⟨bo₁, hs, hbo⟩ := Option.bind_eq_some_iff.mp hbo
    rw [List.forall_mem_cons]
    obtain ⟨hn, hk⟩ | ⟨hcomb, hj⟩ := brcombineBlock_cases hs
    case inl =>
      rw [ih (hk.wellFormed h) hl hbo, and_iff_right hn]
      exact forall₂_congr fun c hc => not_congr (hk.combines_iff fun hcb => hb (hcb ▸ hc))
    case inr =>
      obtain ⟨hlinked, hbroken⟩ := hj.broken h.linked
      have hbroken' := foldlM_brcombineBlock_broken hlinked hbroken hbo
      exact iff_of_false hbroken'.not_wellFormed fun hall => hall.left hcomb

theorem exists_foldlM_brcombineBlock (hc : Combinable bo) (hl : l.Nodup) (h : ∀ b ∈ l, ¬Combines b bo) :
    ∃ bo', l.foldlM brcombineBlock bo = some bo' := by
  induction l generalizing bo with
  | nil => exact ⟨bo, rfl⟩
  | cons b l ih =>
    obtain ⟨hb, hl⟩ := List.nodup_cons.mp hl
    obtain ⟨hn, hall⟩ := List.forall_mem_cons.mp h
    obtain ⟨bo₁, hs, hcomb⟩ := exists_brcombineBlock (b := b) hc
    obtain ⟨-, hk⟩ | ⟨hcomb, -⟩ := brcombineBlock_cases hs
    case inr => exact absurd hcomb hn
    case inl =>
      have hc₁ := hcomb.combinable hc fun hi => hn hi.combines
      obtain ⟨bo', hbo'⟩ := ih hc₁ hl fun c hcl hcomb =>
        hall c hcl ((hk.combines_iff fun hcb => hb (hcb ▸ hcl)).mp hcomb)
      exact ⟨bo', by simp [hs, hbo']⟩

-- The graph is well formed after the combination of blocks if and only if no goto is put into an expression.
theorem brcombine_wellFormed_iff (h : WellFormed bo) (hc : Combinable bo) :
    (∃ bo', bo.brcombine = some bo' ∧ WellFormed bo') ↔ ∀ b ∈ bo.list, ¬Combines b bo := by
  constructor
  case mp =>
    rintro ⟨bo', hbo', hwf⟩
    exact (foldlM_brcombineBlock_wellFormed_iff h h.nodup hbo').mp hwf
  case mpr =>
    intro hall
    obtain ⟨bo', hbo'⟩ := exists_foldlM_brcombineBlock hc h.nodup hall
    exact ⟨bo', hbo', (foldlM_brcombineBlock_wellFormed_iff h h.nodup hbo').mpr hall⟩

end brcombine

end Compiler.Backend.BlockOpt
