import DmdModel.Compiler.Backend.BlockOpt

namespace Compiler.Backend

variable {ι : Type} {n : Nat}

namespace Block

-- All of a block but its predecessors.
def code (blk : Block ι n) : Block ι n :=
  { blk with Bpred := [] }

@[simp]
theorem code_setBpred (blk : Block ι n) (preds : List ι) :
    ({ blk with Bpred := preds } : Block ι n).code = blk.code :=
  rfl

variable {blk blk' : Block ι n}

theorem code_bc (h : blk.code = blk'.code) : blk.bc = blk'.bc :=
  (congrArg Block.bc h :)

theorem code_Belem (h : blk.code = blk'.code) : blk.Belem = blk'.Belem :=
  (congrArg Block.Belem h :)

theorem code_Bsucc (h : blk.code = blk'.code) : blk.Bsucc = blk'.Bsucc :=
  (congrArg Block.Bsucc h :)

theorem code_Bswitch (h : blk.code = blk'.code) : blk.Bswitch = blk'.Bswitch :=
  (congrArg Block.Bswitch h :)

end Block

namespace BlockOpt

variable {bo bo' : BlockOpt n} {b c s x : Nat}

-- How often s is a successor of b.
def succCount (bo : BlockOpt n) (b s : Nat) : Nat :=
  (bo.block b).Bsucc.count s

-- How often b is a predecessor of s.
def predCount (bo : BlockOpt n) (b s : Nat) : Nat :=
  (bo.block s).Bpred.count b

section modify

variable {f : Block Nat n → Block Nat n}

@[simp]
theorem modify_list : (bo.modify b f).list = bo.list :=
  rfl

@[simp]
theorem modify_fresh : (bo.modify b f).fresh = bo.fresh :=
  rfl

@[simp]
theorem modify_block_self : (bo.modify b f).block b = f (bo.block b) :=
  Function.update_self ..

theorem modify_block_of_ne (h : c ≠ b) : (bo.modify b f).block c = bo.block c :=
  Function.update_of_ne h ..

theorem modify_block : (bo.modify b f).block c = if c = b then f (bo.block c) else bo.block c := by
  split
  case isTrue h  => rw [h, modify_block_self]
  case isFalse h => exact modify_block_of_ne h

-- A change of other fields than the predecessors.
theorem modify_Bpred (hf : ∀ blk, (f blk).Bpred = blk.Bpred) :
    ((bo.modify b f).block s).Bpred = (bo.block s).Bpred := by
  rw [modify_block]
  split
  case isTrue  => rw [hf]
  case isFalse => rfl

-- A change of the predecessors only.
theorem modify_code (hf : ∀ blk, (f blk).code = blk.code) :
    ((bo.modify b f).block c).code = (bo.block c).code := by
  rw [modify_block]
  split
  case isTrue  => rw [hf]
  case isFalse => rfl

theorem modify_predCount (hf : ∀ blk, (f blk).Bpred = blk.Bpred) :
    (bo.modify b f).predCount c s = bo.predCount c s := by
  rw [predCount, predCount, modify_Bpred hf]

end modify

section preds

@[simp]
theorem pushPred_list : (bo.pushPred s b).list = bo.list :=
  rfl

@[simp]
theorem pushPred_fresh : (bo.pushPred s b).fresh = bo.fresh :=
  rfl

@[simp]
theorem pushPred_code : ((bo.pushPred s b).block c).code = (bo.block c).code := by
  rw [pushPred, modify_block]
  split <;> rfl

theorem pushPred_Bpred : ((bo.pushPred s b).block x).Bpred =
    if x = s then (bo.block x).Bpred ++ [b] else (bo.block x).Bpred := by
  rw [pushPred, modify_block]
  split <;> rfl

theorem pushPred_predCount :
    (bo.pushPred s b).predCount c x = bo.predCount c x + if c = b ∧ x = s then 1 else 0 := by
  unfold predCount
  rw [pushPred, modify_block]
  by_cases hx : x = s
  case pos =>
    subst hx
    by_cases hc : c = b
    case pos => simp [hc]
    case neg => simp [hc, Ne.symm hc]
  case neg => simp [hx]

@[simp]
theorem subtractPred_list : (bo.subtractPred s b).list = bo.list :=
  rfl

@[simp]
theorem subtractPred_fresh : (bo.subtractPred s b).fresh = bo.fresh :=
  rfl

@[simp]
theorem subtractPred_code : ((bo.subtractPred s b).block c).code = (bo.block c).code := by
  rw [subtractPred, modify_block]
  split <;> rfl

theorem subtractPred_Bpred : ((bo.subtractPred s b).block x).Bpred =
    if x = s then (bo.block x).Bpred.erase b else (bo.block x).Bpred := by
  rw [subtractPred, modify_block]
  split <;> rfl

theorem subtractPred_predCount :
    (bo.subtractPred s b).predCount c x = bo.predCount c x - if c = b ∧ x = s then 1 else 0 := by
  unfold predCount
  rw [subtractPred, modify_block]
  by_cases hx : x = s
  case pos =>
    subst hx
    by_cases hc : c = b
    case pos => simp [hc]
    case neg => simp [hc, List.count_erase_of_ne hc]
  case neg => simp [hx]

end preds

end BlockOpt

end Compiler.Backend

namespace Compiler.Backend

open Relation

variable {ι : Type} {n : Nat}

-- The number of successors that the kind of a block needs.
def Block.Arity (blk : Block ι n) : Prop :=
  match blk.bc with
  | .goto_ => blk.Bsucc.length = 1
  | .iftrue => blk.Bsucc.length = 2
  | .ret | .retexp | .exit => blk.Bsucc.length = 0
  | .switch_ => True

theorem Block.arity_congr {blk blk' : Block ι n} (h : blk.code = blk'.code) :
    blk.Arity ↔ blk'.Arity := by
  rw [Arity, Arity, code_bc h, code_Bsucc h]

instance (blk : Block ι n) : Decidable blk.Arity :=
  match hbc : blk.bc with
  | .goto_ => decidable_of_iff (blk.Bsucc.length = 1) (by rw [Block.Arity, hbc])
  | .iftrue => decidable_of_iff (blk.Bsucc.length = 2) (by rw [Block.Arity, hbc])
  | .ret | .retexp | .exit => decidable_of_iff (blk.Bsucc.length = 0) (by rw [Block.Arity, hbc])
  | .switch_ => isTrue (by rw [Block.Arity, hbc]; exact trivial)

-- What the kind of a block needs besides: an expression to decide by or to return, and a successor for
-- each case of a switch, which is on integers.
structure Block.Complete (blk : Block ι n) : Prop where
  belem    : blk.bc = .iftrue ∨ blk.bc = .switch_ ∨ blk.bc = .retexp → blk.Belem.isSome
  cases    : blk.bc = .switch_ → blk.Bsucc.length = blk.Bswitch.length + 1
  integral : blk.bc = .switch_ → ∀ e ∈ blk.Belem, ∀ ty bits zero,
    e.el_scancommas ≠ .const ty (.other bits zero)

theorem Block.Complete.congr {blk blk' : Block ι n} (h : blk.Complete) (hc : blk'.code = blk.code) :
    blk'.Complete where
  belem    := by rw [code_bc hc, code_Belem hc]; exact h.belem
  cases    := by rw [code_bc hc, code_Bsucc hc, code_Bswitch hc]; exact h.cases
  integral := by rw [code_bc hc, code_Belem hc]; exact h.integral

theorem Block.Complete.of_not_switch {blk : Block ι n} (h : blk.bc ≠ .switch_)
    (hb : blk.bc = .iftrue ∨ blk.bc = .retexp → blk.Belem.isSome) : blk.Complete where
  belem hbc      := hb (hbc.imp_right fun hbc => hbc.resolve_left h)
  cases hbc      := absurd hbc h
  integral hbc   := absurd hbc h

namespace BlockOpt

variable {bo bo' bo'' : BlockOpt n} {b c s x : Nat}

def Edge (bo : BlockOpt n) (b s : Nat) : Prop :=
  s ∈ (bo.block b).Bsucc

def Reachable (bo : BlockOpt n) (b : Nat) : Prop :=
  ∃ start, bo.startblock = some start ∧ ReflTransGen bo.Edge start b

structure WellFormed (bo : BlockOpt n) : Prop where
  edges     : ∀ b s, bo.succCount b s = bo.predCount b s
  arity     : ∀ b, (bo.block b).Arity
  start     : ∃ b, bo.startblock = some b ∧ (bo.block b).Bpred = []
  nodup     : bo.list.Nodup
  reachable : ∀ b, bo.Reachable b → b ∈ bo.list
  -- What is not allocated yet is empty and in no list.
  allocated : ∀ b ∈ bo.list, b < bo.fresh
  empty     : ∀ b, bo.fresh ≤ b → bo.block b = { bc := .ret }

-- Every block whose kind needs an expression has one.
def Supplied (bo : BlockOpt n) : Prop :=
  ∀ b, (bo.block b).bc = .iftrue ∨ (bo.block b).bc = .switch_ ∨ (bo.block b).bc = .retexp →
    (bo.block b).Belem.isSome

theorem Reachable.trans (hb : bo.Reachable b) (h : ReflTransGen bo.Edge b c) : bo.Reachable c := by
  obtain ⟨start, hs, hb⟩ := hb
  exact ⟨start, hs, hb.trans h⟩

theorem edge_iff_succCount : bo.Edge b s ↔ 0 < bo.succCount b s :=
  List.count_pos_iff.symm

theorem mem_Bpred_iff_predCount : b ∈ (bo.block s).Bpred ↔ 0 < bo.predCount b s :=
  List.count_pos_iff.symm

theorem Bpred_eq_nil_iff : (bo.block s).Bpred = [] ↔ ∀ b, bo.predCount b s = 0 := by
  simp only [List.eq_nil_iff_forall_not_mem, predCount, List.count_eq_zero]

theorem succCount_congr (h : (bo.block b).code = (bo'.block b).code) :
    bo.succCount b s = bo'.succCount b s := by
  rw [succCount, succCount, Block.code_Bsucc h]

theorem edge_congr (h : (bo.block b).code = (bo'.block b).code) : bo.Edge b s ↔ bo'.Edge b s := by
  rw [Edge, Edge, Block.code_Bsucc h]

-- Block b is the same, and so is where it is listed as a predecessor.
structure Same (b : Nat) (bo bo' : BlockOpt n) : Prop where
  code  : (bo'.block b).code = (bo.block b).code
  preds : ∀ s, bo'.predCount b s = bo.predCount b s

theorem Same.refl : Same b bo bo where
  code    := rfl
  preds _ := rfl

theorem Same.symm (h : Same b bo bo') : Same b bo' bo where
  code    := h.code.symm
  preds s := (h.preds s).symm

theorem Same.trans (h : Same b bo bo') (h' : Same b bo' bo'') : Same b bo bo'' where
  code    := h'.code.trans h.code
  preds s := (h'.preds s).trans (h.preds s)

-- A change of block b, and of the entries for b in the lists of predecessors.
structure Rewrites (b : Nat) (bo bo' : BlockOpt n) : Prop where
  list  : bo'.list = bo.list
  fresh : bo'.fresh = bo.fresh
  same  : ∀ c ≠ b, Same c bo bo'

namespace Rewrites

theorem code (h : Rewrites b bo bo') (hc : c ≠ b) : (bo'.block c).code = (bo.block c).code :=
  (h.same c hc).code

theorem preds (h : Rewrites b bo bo') (hc : c ≠ b) : bo'.predCount c s = bo.predCount c s :=
  (h.same c hc).preds s

theorem refl : Rewrites b bo bo where
  list     := rfl
  fresh    := rfl
  same _ _ := .refl

theorem trans (h : Rewrites b bo bo') (h' : Rewrites b bo' bo'') : Rewrites b bo bo'' where
  list      := h'.list.trans h.list
  fresh     := h'.fresh.trans h.fresh
  same c hc := (h.same c hc).trans (h'.same c hc)

theorem modify {f : Block Nat n → Block Nat n} (hf : ∀ blk, (f blk).Bpred = blk.Bpred) :
    Rewrites b bo (bo.modify b f) where
  list      := rfl
  fresh     := rfl
  same c hc := {
    code    := by rw [modify_block_of_ne hc]
    preds _ := modify_predCount hf
  }

theorem pushPred : Rewrites b bo (bo.pushPred s b) where
  list      := rfl
  fresh     := rfl
  same c hc := {
    code    := pushPred_code
    preds _ := by simp [pushPred_predCount, hc]
  }

theorem subtractPred : Rewrites b bo (bo.subtractPred s b) where
  list      := rfl
  fresh     := rfl
  same c hc := {
    code    := subtractPred_code
    preds _ := by simp [subtractPred_predCount, hc]
  }

theorem startblock (h : Rewrites b bo bo') : bo'.startblock = bo.startblock := by
  rw [BlockOpt.startblock, BlockOpt.startblock, h.list]

theorem edge_iff (h : Rewrites b bo bo') (hc : c ≠ b) : bo'.Edge c s ↔ bo.Edge c s :=
  edge_congr (h.code hc)

end Rewrites

-- A block without predecessors is the target of no edge.
theorem WellFormed.not_edge (h : WellFormed bo) (hs : (bo.block s).Bpred = []) : ¬bo.Edge b s := by
  rw [edge_iff_succCount, h.edges, (Bpred_eq_nil_iff).mp hs b]
  exact lt_irrefl 0

theorem WellFormed.not_transGen (h : WellFormed bo) (hs : (bo.block s).Bpred = []) :
    ¬TransGen bo.Edge b s := by
  intro ht
  obtain ⟨c, -, hc⟩ := TransGen.tail'_iff.mp ht
  exact h.not_edge hs hc

-- A change of a block keeps a graph well formed if the lists match for the block, its kind has the
-- successors that it needs, and they are blocks that the block reached before.
theorem WellFormed.of_rewrites (h : WellFormed bo) (hr : Rewrites b bo bo') (hb : b < bo.fresh)
    (hedges : ∀ s, bo'.succCount b s = bo'.predCount b s) (harity : (bo'.block b).Arity)
    (hsucc : ∀ s, bo'.Edge b s → TransGen bo.Edge b s) : WellFormed bo' where
  edges c s := by
    by_cases hc : c = b
    case pos => rw [hc, hedges]
    case neg => rw [hr.preds hc, ← h.edges, succCount_congr (hr.code hc)]
  arity c := by
    by_cases hc : c = b
    case pos => rw [hc]; exact harity
    case neg => exact (Block.arity_congr (hr.code hc)).mpr (h.arity c)
  start := by
    obtain ⟨start, hs, hp⟩ := h.start
    refine ⟨start, hr.startblock.trans hs, (Bpred_eq_nil_iff).mpr fun c => ?_⟩
    by_cases hc : c = b
    case pos =>
      subst hc
      rw [← hedges, ← Nat.le_zero, ← Nat.not_lt, ← edge_iff_succCount]
      exact fun he => h.not_transGen hp (hsucc start he)
    case neg => rw [hr.preds hc, (Bpred_eq_nil_iff).mp hp]
  nodup := hr.list ▸ h.nodup
  reachable c hc := by
    obtain ⟨start, hs, hc⟩ := hc
    rw [hr.list]
    refine h.reachable c ⟨start, hr.startblock ▸ hs, ?_⟩
    refine hc.lift' id fun d e he => ?_
    by_cases hd : d = b
    case pos => subst hd; exact (hsucc e he).to_reflTransGen
    case neg => exact .single ((hr.edge_iff hd).mp he)
  allocated c hc := by
    rw [hr.fresh]
    exact h.allocated c (hr.list ▸ hc)
  empty c hc := by
    have hc' := h.empty c (hr.fresh ▸ hc)
    have hcb : c ≠ b := fun hcb => Nat.not_lt.mpr (hr.fresh ▸ hc) (hcb ▸ hb)
    have hcode := hr.code hcb
    have hp : (bo.block c).Bpred = [] := by rw [hc']
    have hp' : (bo'.block c).Bpred = [] := by
      refine (Bpred_eq_nil_iff).mpr fun d => ?_
      by_cases hd : d = b
      case pos =>
        subst hd
        rw [← hedges, ← Nat.le_zero, ← Nat.not_lt, ← edge_iff_succCount]
        exact fun he => h.not_transGen hp (hsucc c he)
      case neg => rw [hr.preds hd, (Bpred_eq_nil_iff).mp hp]
    calc bo'.block c = { (bo'.block c).code with Bpred := (bo'.block c).Bpred } := rfl
      _ = { (bo.block c).code with Bpred := [] } := by rw [hcode, hp']
      _ = { bc := .ret } := by rw [hc']; rfl

section foldlM

variable {step : BlockOpt n → Nat → Option (BlockOpt n)} {Pre : Nat → BlockOpt n → Prop}

-- A pass that rewrites the blocks of a list one after the other visits each block as it was in the
-- beginning, and leaves it as it is in the end.
structure Visits (step : BlockOpt n → Nat → Option (BlockOpt n)) (l : List Nat)
    (bo bo' : BlockOpt n) : Prop where
  list  : bo'.list = bo.list
  fresh : bo'.fresh = bo.fresh
  same  : ∀ c ∉ l, Same c bo bo'
  visit : ∀ b ∈ l, ∃ bo₁ bo₂, Same b bo bo₁ ∧ step bo₁ b = some bo₂ ∧ Same b bo₂ bo'

theorem exists_visits (hpre : ∀ {b bo bo'}, Same b bo bo' → Pre b bo → Pre b bo')
    (hstep : ∀ {b bo}, Pre b bo → ∃ bo', step bo b = some bo' ∧ Rewrites b bo bo') {l : List Nat}
    (hl : l.Nodup) (hbo : ∀ b ∈ l, Pre b bo) :
    ∃ bo', l.foldlM step bo = some bo' ∧ Visits step l bo bo' := by
  induction l generalizing bo with
  | nil => exact ⟨bo, rfl, rfl, rfl, fun _ _ => .refl, fun _ hb => absurd hb List.not_mem_nil⟩
  | cons b l ih =>
    obtain ⟨hb, hl⟩ := List.nodup_cons.mp hl
    obtain ⟨hpb, hpl⟩ := List.forall_mem_cons.mp hbo
    obtain ⟨bo₁, hs, hr⟩ := hstep hpb
    have hne {c : Nat} (hc : c ∈ l) : c ≠ b := fun h => hb (h ▸ hc)
    obtain ⟨bo', hf, hv⟩ := ih hl fun c hc => hpre (hr.same c (hne hc)) (hpl c hc)
    refine ⟨bo', by simp [hs, hf], hv.list.trans hr.list, hv.fresh.trans hr.fresh, ?_, ?_⟩
    case refine_1 =>
      intro c hc
      obtain ⟨hcb, hcl⟩ := not_or.mp (mt List.mem_cons.mpr hc)
      exact (hr.same c hcb).trans (hv.same c hcl)
    case refine_2 =>
      refine List.forall_mem_cons.mpr ⟨⟨bo, bo₁, .refl, hs, hv.same b hb⟩, fun c hc => ?_⟩
      obtain ⟨bo₂, bo₃, h₁, h₂, h₃⟩ := hv.visit c hc
      exact ⟨bo₂, bo₃, (hr.same c (hne hc)).trans h₁, h₂, h₃⟩

-- What each visit preserves is preserved by the pass.
theorem foldlM_preserves {Inv : BlockOpt n → Prop}
    (hpre : ∀ {b bo bo'}, Same b bo bo' → Pre b bo → Pre b bo')
    (hstep : ∀ {b bo bo'}, Pre b bo → Inv bo → step bo b = some bo' → Rewrites b bo bo' ∧ Inv bo')
    {l : List Nat} (hl : l.Nodup) (hbo : ∀ b ∈ l, Pre b bo) (hi : Inv bo)
    (h : l.foldlM step bo = some bo') : Inv bo' := by
  induction l generalizing bo with
  | nil => exact Option.some.inj h ▸ hi
  | cons b l ih =>
    obtain ⟨hb, hl⟩ := List.nodup_cons.mp hl
    obtain ⟨hpb, hpl⟩ := List.forall_mem_cons.mp hbo
    obtain ⟨bo₁, hs, h⟩ := Option.bind_eq_some_iff.mp h
    obtain ⟨hr, hi⟩ := hstep hpb hi hs
    exact ih hl (fun c hc => hpre (hr.same c fun hcb => hb (hcb ▸ hc)) (hpl c hc)) hi h

end foldlM

section foldlM

-- What holds of each block of a list when a pass comes to it.
def Throughout (P : Nat → BlockOpt n → Prop) (step : BlockOpt n → Nat → Option (BlockOpt n)) :
    List Nat → BlockOpt n → Prop
  | [], _ => True
  | b :: l, bo => P b bo ∧ ∀ bo' ∈ step bo b, Throughout P step l bo'

instance decidableThroughout {P : Nat → BlockOpt n → Prop} [∀ b bo, Decidable (P b bo)]
    {step : BlockOpt n → Nat → Option (BlockOpt n)} :
    (l : List Nat) → (bo : BlockOpt n) → Decidable (Throughout P step l bo)
  | [], _ => isTrue trivial
  | b :: l, bo =>
    have (bo : BlockOpt n) : Decidable (Throughout P step l bo) := decidableThroughout l bo
    inferInstanceAs (Decidable (P b bo ∧ ∀ bo' ∈ step bo b, Throughout P step l bo'))

end foldlM

section ofBlocks

-- A function with the blocks of a list.
def ofBlocks (l : List (Block Nat n)) : BlockOpt n where
  block b := l.getD b { bc := .ret }
  list    := List.range l.length
  fresh   := l.length

variable {l : List (Block Nat n)}

theorem ofBlocks_of_le (h : l.length ≤ b) : (ofBlocks l).block b = { bc := .ret } :=
  List.getD_eq_default l _ h

theorem forall_ofBlocks {P : Block Nat n → Prop} (hd : P { bc := .ret }) (h : ∀ blk ∈ l, P blk)
    (b : Nat) : P ((ofBlocks l).block b) := by
  by_cases hb : b < l.length
  case pos =>
    have hget : (ofBlocks l).block b = l[b] := List.getD_eq_getElem l _ hb
    rw [hget]
    exact h _ (List.getElem_mem hb)
  case neg => rwa [ofBlocks_of_le (Nat.le_of_not_lt hb)]

theorem ofBlocks_wellFormed (hpos : 0 < l.length)
    (hlt : ∀ b < l.length, ∀ s ∈ ((ofBlocks l).block b).Bsucc ++ ((ofBlocks l).block b).Bpred,
      s < l.length)
    (hedges : ∀ b < l.length, ∀ s < l.length, (ofBlocks l).succCount b s = (ofBlocks l).predCount b s)
    (harity : ∀ b < l.length, ((ofBlocks l).block b).Arity)
    (hstart : ((ofBlocks l).block 0).Bpred = []) : WellFormed (ofBlocks l) := by
  have hblk {b : Nat} (h : ¬b < l.length) : (ofBlocks l).block b = { bc := .ret } :=
    ofBlocks_of_le (Nat.le_of_not_lt h)
  have hs : (ofBlocks l).startblock = some 0 := by
    obtain ⟨k, hk⟩ := Nat.exists_eq_add_of_lt hpos
    simp [startblock, ofBlocks, hk, List.range_succ_eq_map]
  refine ⟨fun b s => ?_, fun b => ?_, ⟨0, hs, hstart⟩, List.nodup_range, fun b hb => ?_, fun b hb => ?_,
    fun b => ofBlocks_of_le⟩
  case refine_1 =>
    by_cases hb : b < l.length
    case neg =>
      have hp : b ∉ ((ofBlocks l).block s).Bpred := by
        intro hmem
        by_cases hs : s < l.length
        case pos => exact hb (hlt s hs b (List.mem_append_right _ hmem))
        case neg => rw [hblk hs] at hmem; cases hmem
      rw [succCount, predCount, hblk hb, List.count_eq_zero_of_not_mem hp, List.count_nil]
    case pos =>
      by_cases hs : s < l.length
      case pos => exact hedges b hb s hs
      case neg =>
        have hmem : s ∉ ((ofBlocks l).block b).Bsucc := fun hmem =>
          hs (hlt b hb s (List.mem_append_left _ hmem))
        rw [succCount, predCount, hblk hs, List.count_eq_zero_of_not_mem hmem, List.count_nil]
  case refine_2 =>
    by_cases hb : b < l.length
    case pos => exact harity b hb
    case neg => rw [hblk hb]; exact rfl
  case refine_3 =>
    obtain ⟨start, hs', hb⟩ := hb
    cases hs.symm.trans hs'
    refine List.mem_range.mpr ?_
    induction hb with
    | refl => exact hpos
    | tail _ he ih => exact hlt _ ih _ (List.mem_append_left _ he)
  case refine_4 => exact List.mem_range.mp hb

end ofBlocks

end BlockOpt

end Compiler.Backend
