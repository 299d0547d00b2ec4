import DmdModel.Compiler.Backend.Theorems.WellFormed

namespace Compiler.Backend.BlockOpt

open Relation

variable {n : Nat} {p : Passes n} {bo bo' bo'' : BlockOpt n} {b c s x db i : Nat} {e : Elem n}

section unlink

variable {succs l : List Nat}

theorem subtractPred_sub_count :
    (bo.subtractPred x b).predCount b s - succs.count s =
      bo.predCount b s - (x :: succs).count s := by
  rw [subtractPred_predCount, List.count_cons]
  by_cases hsx : s = x
  case pos =>
    simp only [hsx, and_self, if_true, beq_self_eq_true]
    omega
  case neg => simp [hsx, Ne.symm hsx]

-- What becomes of a graph when b is removed from the predecessors of the blocks in l.
structure Unlinked (b : Nat) (l : List Nat) (bo bo' : BlockOpt n) : Prop where
  rewrites : Rewrites b bo bo'
  code     : (bo'.block b).code = (bo.block b).code
  preds    : ∀ s, bo'.predCount b s = bo.predCount b s - l.count s

theorem Unlinked.nil : Unlinked b [] bo bo where
  rewrites := .refl
  code     := rfl
  preds _  := rfl

theorem Unlinked.cons (h : Unlinked b l (bo.subtractPred x b) bo') :
    Unlinked b (x :: l) bo bo' where
  rewrites := Rewrites.subtractPred.trans h.rewrites
  code     := h.code.trans subtractPred_code
  preds s  := by rw [h.preds, subtractPred_sub_count]

theorem foldl_unlinked : Unlinked b succs bo (succs.foldl (fun bo s => bo.subtractPred s b) bo) := by
  induction succs generalizing bo with
  | nil             => exact .nil
  | cons x succs ih => exact ih.cons

end unlink

section toExit

theorem toExit_rewrites : Rewrites b bo (bo.toExit b) := by
  unfold toExit
  refine .trans ?_ (.modify fun _ => rfl)
  refine .trans ?_ (foldl_unlinked).rewrites
  exact .modify fun _ => rfl

theorem toExit_code :
    ((bo.toExit b).block b).code = { (bo.block b).code with bc := .exit, Bsucc := [] } := by
  have h : Unlinked b (bo.block b).Bsucc (bo.modify b fun blk => { blk with bc := .exit }) _ :=
    foldl_unlinked
  have h := h.code
  simp only [toExit, modify_block_self] at h ⊢
  exact congrArg (fun blk : Block Nat n => { blk with Bsucc := [] }) h

theorem toExit_predCount : (bo.toExit b).predCount b s = bo.predCount b s - bo.succCount b s := by
  simp only [toExit, modify_block_self]
  rw [modify_predCount (by intro _; rfl), (foldl_unlinked).preds,
    modify_predCount (by intro _; rfl)]
  rfl

theorem WellFormed.toExit (h : WellFormed bo) (hb : b < bo.fresh) : WellFormed (bo.toExit b) := by
  have hs : ((bo.toExit b).block b).Bsucc = [] := (congrArg Block.Bsucc toExit_code :)
  have hbc : ((bo.toExit b).block b).bc = .exit := (congrArg Block.bc toExit_code :)
  refine h.of_rewrites toExit_rewrites hb (fun s => ?_) ?_ (fun s he => ?_)
  case refine_1 => rw [toExit_predCount, ← h.edges, Nat.sub_self, succCount, hs, List.count_nil]
  case refine_2 => simp [Block.Arity, hbc, hs]
  case refine_3 => simp [Edge, hs] at he

end toExit

section cutSucc

theorem cutSucc_rewrites : Rewrites b bo (bo.cutSucc b db) := by
  unfold cutSucc
  refine .trans ?_ (.modify fun _ => rfl)
  refine .trans ?_ .subtractPred
  exact .modify fun _ => rfl

@[simp]
theorem cutSucc_fresh : (bo.cutSucc b db).fresh = bo.fresh :=
  rfl

theorem cutSucc_code : ((bo.cutSucc b db).block b).code =
    { (bo.block b).code with bc := .goto_, Bsucc := (bo.block b).Bsucc.erase db } := by
  let bo₁ := bo.modify b fun blk => { blk with Bsucc := blk.Bsucc.erase db }
  have h : ((bo₁.subtractPred db b).block b).code = (bo₁.block b).code := subtractPred_code
  simp only [bo₁, cutSucc, modify_block_self] at h ⊢
  exact congrArg (fun blk : Block Nat n => { blk with bc := .goto_ }) h

theorem cutSucc_predCount :
    (bo.cutSucc b db).predCount b s = bo.predCount b s - if s = db then 1 else 0 := by
  simp only [cutSucc]
  rw [modify_predCount (by intro _; rfl), subtractPred_predCount,
    modify_predCount (by intro _; rfl)]
  simp

theorem discardValue_rewrites : Rewrites b bo (bo.discardValue p b) :=
  .modify fun _ => rfl

theorem discardValue_code : ((bo.discardValue p b).block b).code =
    { (bo.block b).code with Belem := (bo.block b).Belem.bind p.doptelem } := by
  rw [discardValue, modify_block_self]
  rfl

theorem discardValue_predCount : (bo.discardValue p b).predCount c s = bo.predCount c s :=
  modify_predCount fun _ => rfl

-- Only the expression of a block changes, and the order of its successors.
theorem WellFormed.of_perm (h : WellFormed bo) (hb : b < bo.fresh) (hr : Rewrites b bo bo')
    (hp : ∀ s, bo'.predCount b s = bo.predCount b s)
    (hs : (bo'.block b).Bsucc.Perm (bo.block b).Bsucc)
    (hbc : (bo'.block b).bc = (bo.block b).bc) : WellFormed bo' := by
  refine h.of_rewrites hr hb (fun s => ?_) ?_ (fun s he => ?_)
  case refine_1 => rw [hp, ← h.edges, succCount, succCount, hs.count_eq]
  case refine_2 =>
    have ha := h.arity b
    rwa [Block.Arity, hbc, hs.length_eq, ← Block.Arity]
  case refine_3 => exact .single (hs.mem_iff.mp he)

theorem WellFormed.discardValue (h : WellFormed bo) (hb : b < bo.fresh) :
    WellFormed (bo.discardValue p b) :=
  h.of_perm hb discardValue_rewrites (fun _ => discardValue_predCount)
    (.of_eq (congrArg Block.Bsucc discardValue_code :)) (congrArg Block.bc discardValue_code :)

theorem WellFormed.cutSucc (h : WellFormed bo) (hb : b < bo.fresh)
    (hbc : (bo.block b).bc = .iftrue) (hdb : db ∈ (bo.block b).Bsucc) :
    WellFormed (bo.cutSucc b db) := by
  have hs : ((bo.cutSucc b db).block b).Bsucc = (bo.block b).Bsucc.erase db :=
    (congrArg Block.Bsucc cutSucc_code :)
  have hbc' : ((bo.cutSucc b db).block b).bc = .goto_ := (congrArg Block.bc cutSucc_code :)
  refine h.of_rewrites cutSucc_rewrites hb (fun s => ?_) ?_ (fun s he => ?_)
  case refine_1 =>
    rw [cutSucc_predCount, ← h.edges, succCount, succCount, hs, List.count_erase]
    simp [eq_comm (a := s)]
  case refine_2 =>
    have ha := h.arity b
    simp only [Block.Arity, hbc] at ha
    simp [Block.Arity, hbc', hs, List.length_erase_of_mem hdb, ha]
  case refine_3 =>
    rw [Edge, hs] at he
    exact .single (List.mem_of_mem_erase he)

end cutSucc

section broptNot

-- Block b holds e and decides by it, perhaps with the negation removed and the successors reversed.
theorem broptNot_cases (bo : BlockOpt n) (b : Nat) (e : Elem n) :
    broptNot bo b e = (bo, e) ∨
      ∃ ty E1, e.el_scancommas = .unary .not ty E1 ∧
        broptNot bo b e = (bo.modify b fun blk =>
          { blk with Belem := some (e.removeNot E1.Ety), Bsucc := blk.Bsucc.reverse },
          e.removeNot E1.Ety) := by
  unfold broptNot
  split
  case h_1 ty E1 hn => exact .inr ⟨ty, E1, hn, rfl⟩
  case h_2          => exact .inl rfl

theorem broptNot_rewrites : Rewrites b bo (broptNot bo b e).1 := by
  obtain h | ⟨ty, E1, -, h⟩ := broptNot_cases bo b e
  all_goals rw [h]
  case inl => exact .refl
  case inr =>
    dsimp only
    exact .modify fun _ => rfl

@[simp]
theorem broptNot_fresh : (broptNot bo b e).1.fresh = bo.fresh :=
  (broptNot_rewrites (b := b)).fresh

theorem broptNot_predCount : (broptNot bo b e).1.predCount c s = bo.predCount c s := by
  obtain h | ⟨ty, E1, -, h⟩ := broptNot_cases bo b e
  all_goals rw [h]
  dsimp only
  exact modify_predCount fun _ => rfl

theorem broptNot_Bsucc : ((broptNot bo b e).1.block b).Bsucc.Perm (bo.block b).Bsucc := by
  obtain h | ⟨ty, E1, -, h⟩ := broptNot_cases bo b e
  all_goals rw [h]
  rw [modify_block_self]
  exact List.reverse_perm _

theorem broptNot_bc : ((broptNot bo b e).1.block b).bc = (bo.block b).bc := by
  obtain h | ⟨ty, E1, -, h⟩ := broptNot_cases bo b e
  all_goals rw [h]
  rw [modify_block_self]

theorem WellFormed.broptNot (h : WellFormed bo) (hb : b < bo.fresh) :
    WellFormed (broptNot bo b e).1 :=
  h.of_perm hb broptNot_rewrites (fun _ => broptNot_predCount) broptNot_Bsucc broptNot_bc

end broptNot

section broptIftrue

-- What can become of an iftrue block.
theorem broptIftrue_cases (h : broptIftrue p bo b e = some bo') :
    ∃ s0 s1 succs, ((broptNot bo b e).1.block b).Bsucc = s0 :: s1 :: succs ∧
      (((broptNot bo b e).2.iftrue ∧
          bo' = ((broptNot bo b e).1.cutSucc b s1).discardValue p b) ∨
        ((broptNot bo b e).2.iffalse ∧
          bo' = ((broptNot bo b e).1.cutSucc b s0).discardValue p b) ∨
        (s0 = s1 ∧ bo' = (broptNot bo b e).1.cutSucc b s0) ∨
        bo' = (broptNot bo b e).1) := by
  simp only [broptIftrue] at h
  split at h
  case h_2 => cases h
  case h_1 s0 s1 succs hs =>
    refine ⟨s0, s1, succs, hs, ?_⟩
    split at h
    case isTrue ht => exact .inl ⟨ht, (Option.some.inj h).symm⟩
    case isFalse =>
      split at h
      case isTrue hf => exact .inr <| .inl ⟨hf, (Option.some.inj h).symm⟩
      case isFalse =>
        split at h
        case isTrue he => exact .inr <| .inr <| .inl ⟨he, (Option.some.inj h).symm⟩
        case isFalse   => exact .inr <| .inr <| .inr (Option.some.inj h).symm

theorem broptIftrue_rewrites (h : broptIftrue p bo b e = some bo') : Rewrites b bo bo' := by
  obtain ⟨s0, s1, succs, -, ⟨-, rfl⟩ | ⟨-, rfl⟩ | ⟨-, rfl⟩ | rfl⟩ := broptIftrue_cases h
  case inl | inr.inl =>
    exact ((broptNot_rewrites).trans cutSucc_rewrites).trans discardValue_rewrites
  case inr.inr.inl => exact (broptNot_rewrites).trans cutSucc_rewrites
  case inr.inr.inr => exact broptNot_rewrites

theorem WellFormed.broptIftrue (hwf : WellFormed bo) (hb : b < bo.fresh)
    (hbc : (bo.block b).bc = .iftrue) (h : broptIftrue p bo b e = some bo') : WellFormed bo' := by
  have hwf₁ : WellFormed (BlockOpt.broptNot bo b e).1 := hwf.broptNot hb
  have hb₁ : b < (BlockOpt.broptNot bo b e).1.fresh := by rwa [broptNot_fresh]
  have hbc₁ : ((BlockOpt.broptNot bo b e).1.block b).bc = .iftrue := (broptNot_bc).trans hbc
  have hcut {db} (hdb : db ∈ ((BlockOpt.broptNot bo b e).1.block b).Bsucc) :=
    hwf₁.cutSucc hb₁ hbc₁ hdb
  have hb₂ {db} : b < ((BlockOpt.broptNot bo b e).1.cutSucc b db).fresh :=
    hb₁
  obtain ⟨s0, s1, succs, hs, ⟨-, rfl⟩ | ⟨-, rfl⟩ | ⟨-, rfl⟩ | rfl⟩ := broptIftrue_cases h
  case inl         => exact (hcut (hs ▸ by simp)).discardValue hb₂
  case inr.inl     => exact (hcut (hs ▸ by simp)).discardValue hb₂
  case inr.inr.inl => exact hcut (hs ▸ by simp)
  case inr.inr.inr => exact hwf₁

end broptIftrue

section broptSwitch

variable {succs : List Nat}

-- One of the predecessors to remove is there, and the others are there when it is removed.
theorem subtractPred_count_le (h : ∀ s, (x :: succs).count s ≤ bo.predCount b s) :
    b ∈ (bo.block x).Bpred ∧ ∀ s, succs.count s ≤ (bo.subtractPred x b).predCount b s := by
  constructor
  case left =>
    rw [mem_Bpred_iff_predCount]
    exact lt_of_lt_of_le (List.count_pos_iff.mpr List.mem_cons_self) (h x)
  case right =>
    intro s
    have hs := h s
    rw [List.count_cons] at hs
    rw [subtractPred_predCount]
    by_cases hsx : s = x
    case pos =>
      subst hsx
      simp only [beq_self_eq_true, if_true, and_self] at hs ⊢
      omega
    case neg => simpa [hsx, Ne.symm hsx] using hs

theorem subtractAllPreds_unlinked (h : ∀ s, succs.count s ≤ bo.predCount b s) :
    ∃ bo', subtractOtherPreds.subtractAllPreds b bo succs = some bo' ∧
      Unlinked b succs bo bo' := by
  induction succs generalizing bo with
  | nil => exact ⟨bo, rfl, .nil⟩
  | cons x succs ih =>
    obtain ⟨hx, hle⟩ := subtractPred_count_le h
    obtain ⟨bo', hbo', hu⟩ := ih hle
    exact ⟨bo', by simp [subtractOtherPreds.subtractAllPreds, hx, hbo'], hu.cons⟩

theorem subtractOtherPreds_unlinked (h : ∀ s, succs.count s ≤ bo.predCount b s) :
    ∃ bo', subtractOtherPreds bo b succs i = some bo' ∧
      Unlinked b (succs.eraseIdx i) bo bo' := by
  induction succs generalizing bo i with
  | nil => exact ⟨bo, rfl, .nil⟩
  | cons x succs ih =>
    cases i with
    | zero =>
      refine subtractAllPreds_unlinked fun s => le_trans ?_ (h s)
      exact List.Sublist.count_le s (List.sublist_cons_self ..)
    | succ i =>
      obtain ⟨hx, hle⟩ := subtractPred_count_le h
      obtain ⟨bo', hbo', hu⟩ := ih hle
      exact ⟨bo', by simp [subtractOtherPreds, hx, hbo'], hu.cons⟩

variable {value : Int} {ty : Ty}

-- A switch on a constant becomes a goto with its successor twice.
theorem broptSwitch_const (he : e.el_scancommas = .const ty (.integral value))
    (hdb : (bo.block b).Bsucc[caseOf (bo.block b).Bswitch value]? = some db)
    (hle : ∀ s, bo.succCount b s ≤ bo.predCount b s) :
    ∃ bo', broptSwitch p bo b e = some bo' ∧ Rewrites b bo bo' ∧
      (bo'.block b).code = { (bo.block b).code with
        bc := .goto_
        Belem := (bo.block b).Belem.bind p.doptelem
        Bsucc := [db, db] } ∧
      ∀ s, bo'.predCount b s = bo.predCount b s -
        ((bo.block b).Bsucc.eraseIdx (caseOf (bo.block b).Bswitch value)).count s := by
  obtain ⟨bo₁, hbo₁, hu⟩ := subtractOtherPreds_unlinked (i := caseOf (bo.block b).Bswitch value) hle
  refine ⟨_, by simp [broptSwitch, he, hdb, hbo₁]; rfl, ?_, ?_, fun s => ?_⟩
  case refine_1 =>
    refine hu.rewrites.trans ?_
    refine .trans ?_ discardValue_rewrites
    exact .modify fun _ => rfl
  case refine_2 =>
    rw [discardValue_code, modify_block_self]
    have hcode := hu.code
    have hB : (bo₁.block b).Belem = (bo.block b).Belem := Block.code_Belem hcode
    dsimp only
    rw [hB]
    exact congrArg (fun blk : Block Nat n => { blk with
      bc := .goto_, Belem := (bo.block b).Belem.bind p.doptelem, Bsucc := [db, db] }) hcode
  case refine_3 =>
    rw [discardValue_predCount, modify_predCount (by intro _; rfl), hu.preds]

end broptSwitch

section broptBlock

-- The controlling elem has the type noreturn.
def EndsNoreturn (blk : Block Nat n) : Prop :=
  ∃ e ∈ blk.Belem, e.el_scancommas.Ety.TYnoreturn

-- A switch on a constant.
def ConstSwitch (blk : Block Nat n) : Prop :=
  blk.bc = .switch_ ∧ ∃ e ∈ blk.Belem, ¬e.el_scancommas.Ety.TYnoreturn ∧ e.el_scancommas.isConst

theorem constSwitch_congr {blk blk' : Block Nat n} (h : blk.code = blk'.code) :
    ConstSwitch blk ↔ ConstSwitch blk' := by
  rw [ConstSwitch, ConstSwitch, Block.code_bc h, Block.code_Belem h]

-- What the visit of a block needs.
structure Visitable (b : Nat) (bo : BlockOpt n) : Prop where
  complete : (bo.block b).Complete
  arity    : (bo.block b).Arity
  counts   : ∀ s, bo.succCount b s ≤ bo.predCount b s

theorem Visitable.congr (hs : Same b bo bo') (h : Visitable b bo) : Visitable b bo' where
  complete := h.complete.congr hs.code
  arity    := (Block.arity_congr hs.code).mpr h.arity
  counts s := by
    rw [hs.preds, succCount_congr hs.code]
    exact h.counts s

theorem WellFormed.visitable (h : WellFormed bo) (hc : (bo.block b).Complete) : Visitable b bo where
  complete := hc
  arity    := h.arity b
  counts s := (h.edges b s).le

-- The ways in which a block is rewritten.
inductive Bropt (p : Passes n) (b : Nat) (bo bo' : BlockOpt n) : Prop
  | exit   (hbc : (bo.block b).bc ≠ .exit) (hn : EndsNoreturn (bo.block b)) (h : bo' = bo.toExit b)
  | iftrue {e : Elem n} (hbc : (bo.block b).bc = .iftrue) (he : (bo.block b).Belem = some e)
    (h : broptIftrue p bo b e = some bo')
  | switch {e : Elem n} {ty : Ty} {value : Int} {db : Nat} (hc : ConstSwitch (bo.block b))
    (he : (bo.block b).Belem = some e)
    (hv : e.el_scancommas = .const ty (.integral value))
    (hdb : (bo.block b).Bsucc[caseOf (bo.block b).Bswitch value]? = some db)
    (h : broptSwitch p bo b e = some bo')
  | keep   (h : bo' = bo)

theorem caseOf_le (Bswitch : List Int) (value : Int) : caseOf Bswitch value ≤ Bswitch.length := by
  unfold caseOf
  split
  case h_1 j hj => exact (List.idxOf?_eq_some_iff.mp hj).1
  case h_2      => exact Nat.zero_le _

-- The successor for a value.
theorem Block.Complete.exists_case {blk : Block Nat n} (h : blk.Complete) (hbc : blk.bc = .switch_)
    (value : Int) : ∃ db, blk.Bsucc[caseOf blk.Bswitch value]? = some db := by
  have hlt : caseOf blk.Bswitch value < blk.Bsucc.length := by
    rw [h.cases hbc]
    exact Nat.lt_succ_of_le (caseOf_le ..)
  exact ⟨_, List.getElem?_eq_getElem hlt⟩

theorem broptBlock_cases (h : broptBlock p bo b = some bo') (hc : (bo.block b).Complete) :
    Bropt p b bo bo' := by
  simp only [broptBlock] at h
  split at h
  case isTrue hn => exact .exit hn.left hn.right (Option.some.inj h).symm
  case isFalse hn =>
    split at h
    case h_1 hbc =>
      obtain ⟨e, he, h⟩ := Option.bind_eq_some_iff.mp h
      exact .iftrue hbc he h
    case h_2 hbc =>
      obtain ⟨e, he, h⟩ := Option.bind_eq_some_iff.mp h
      have hn' : ¬e.el_scancommas.Ety.TYnoreturn := fun hty =>
        hn ⟨by rw [hbc]; exact nofun, e, he, hty⟩
      cases hv : e.el_scancommas with
      | const ty value =>
        cases value with
        | integral value =>
          obtain ⟨db, hdb⟩ := Block.Complete.exists_case hc hbc value
          exact .switch ⟨hbc, e, he, hn', by rw [hv]; rfl⟩ he hv hdb h
        | other bits zero => exact absurd hv (hc.integral hbc e he ty bits zero)
      | _ =>
        rw [broptSwitch, hv] at h
        exact .keep (Option.some.inj h).symm
    case h_3 => exact .keep (Option.some.inj h).symm

theorem exists_broptIftrue (hlen : (bo.block b).Bsucc.length = 2) :
    ∃ bo', broptIftrue p bo b e = some bo' := by
  have hl := (broptNot_Bsucc (b := b) (e := e)).length_eq.trans hlen
  obtain ⟨s0, s1, hs⟩ := List.length_eq_two.mp hl
  simp only [broptIftrue, hs]
  split
  case isTrue => exact ⟨_, rfl⟩
  case isFalse =>
    split
    case isTrue => exact ⟨_, rfl⟩
    case isFalse =>
      split
      case isTrue  => exact ⟨_, rfl⟩
      case isFalse => exact ⟨_, rfl⟩

theorem broptBlock_constSwitch (hv : Visitable b bo) (hc : ConstSwitch (bo.block b)) :
    ∃ bo', broptBlock p bo b = some bo' ∧ (bo'.block b).bc = .goto_ ∧
      ∃ db, (bo'.block b).Bsucc = [db, db] := by
  obtain ⟨hbc, e, he, hn, hconst⟩ := hc
  have he : (bo.block b).Belem = some e := he
  cases hv' : e.el_scancommas with
  | const ty value =>
    cases value with
    | other bits zero => exact absurd hv' (hv.complete.integral hbc e he ty bits zero)
    | integral value =>
      obtain ⟨db, hdb⟩ := Block.Complete.exists_case hv.complete hbc value
      obtain ⟨bo', h, -, hcode, -⟩ := broptSwitch_const (p := p) hv' hdb hv.counts
      refine ⟨bo', ?_, (congrArg Block.bc hcode :), db, (congrArg Block.Bsucc hcode :)⟩
      have hn' : ¬((bo.block b).bc ≠ .exit ∧
          ∃ e ∈ (bo.block b).Belem, e.el_scancommas.Ety.TYnoreturn) := by
        rintro ⟨-, e', he', hn'⟩
        exact hn (Option.some.inj (he.symm.trans he') ▸ hn')
      rw [broptBlock, if_neg hn']
      simp only [hbc, he]
      exact h
  | _ => rw [hv'] at hconst; cases hconst

theorem exists_broptBlock (hv : Visitable b bo) :
    ∃ bo', broptBlock p bo b = some bo' ∧ Rewrites b bo bo' := by
  have hex : ∃ bo', broptBlock p bo b = some bo' := by
    simp only [broptBlock]
    split
    case isTrue => exact ⟨_, rfl⟩
    case isFalse =>
      split
      case h_1 hbc =>
        obtain ⟨e, he⟩ := Option.isSome_iff_exists.mp (hv.complete.belem (.inl hbc))
        have ha := hv.arity
        simp only [Block.Arity, hbc] at ha
        rw [he]
        exact exists_broptIftrue ha
      case h_2 hbc =>
        obtain ⟨e, he⟩ := Option.isSome_iff_exists.mp (hv.complete.belem (.inr (.inl hbc)))
        rw [he]
        cases hv' : e.el_scancommas with
        | const ty value =>
          cases value with
          | other bits zero => exact absurd hv' (hv.complete.integral hbc e he ty bits zero)
          | integral value =>
            obtain ⟨db, hdb⟩ := Block.Complete.exists_case hv.complete hbc value
            obtain ⟨bo', h, -⟩ := broptSwitch_const (p := p) hv' hdb hv.counts
            exact ⟨bo', h⟩
        | _ => exact ⟨bo, by rw [Option.bind_some, broptSwitch, hv']⟩
      case h_3 => exact ⟨_, rfl⟩
  obtain ⟨bo', h⟩ := hex
  refine ⟨bo', h, ?_⟩
  cases broptBlock_cases h hv.complete with
  | exit _ _ h     => rw [h]; exact toExit_rewrites
  | iftrue _ _ h   => exact broptIftrue_rewrites h
  | keep h         => rw [h]; exact .refl
  | switch hc he hv' hdb h =>
    obtain ⟨bo₁, h₁, hr, -⟩ := broptSwitch_const (p := p) hv' hdb hv.counts
    rw [h] at h₁
    exact Option.some.inj h₁ ▸ hr

theorem WellFormed.broptBlock (h : WellFormed bo) (hb : b < bo.fresh)
    (hcomplete : (bo.block b).Complete) (hc : ¬ConstSwitch (bo.block b))
    (hbo : broptBlock p bo b = some bo') : WellFormed bo' := by
  cases broptBlock_cases hbo hcomplete with
  | exit _ _ hbo      => rw [hbo]; exact h.toExit hb
  | iftrue hbc _ hbo  => exact h.broptIftrue hb hbc hbo
  | keep hbo          => rw [hbo]; exact h
  | switch hc'        => exact absurd hc' hc

theorem exists_bropt (h : WellFormed bo) (hcomplete : ∀ b, (bo.block b).Complete) :
    ∃ bo', bropt p bo = some bo' ∧ Visits (broptBlock p) bo.list bo bo' :=
  exists_visits Visitable.congr exists_broptBlock h.nodup fun b _ => h.visitable (hcomplete b)

-- The graph is well formed after branch optimization if and only if there is no switch on a constant.
theorem bropt_wellFormed_iff (h : WellFormed bo) (hcomplete : ∀ b, (bo.block b).Complete)
    (hbo : bropt p bo = some bo') :
    WellFormed bo' ↔ ∀ b ∈ bo.list, ¬ConstSwitch (bo.block b) := by
  constructor
  case mp =>
    intro hwf b hb hc
    obtain ⟨bo'', hbo'', hv⟩ := exists_bropt (p := p) h hcomplete
    cases hbo.symm.trans hbo''
    obtain ⟨bo₁, bo₂, h₁, hstep, h₂⟩ := hv.visit b hb
    have hvis := (h.visitable (hcomplete b)).congr h₁
    obtain ⟨bo₃, hstep', hbc, db, hsucc⟩ :=
      broptBlock_constSwitch (p := p) hvis ((constSwitch_congr h₁.code).mpr hc)
    cases hstep.symm.trans hstep'
    have ha := hwf.arity b
    simp [Block.Arity, Block.code_bc h₂.code, hbc, Block.code_Bsucc h₂.code, hsucc] at ha
  case mpr =>
    intro hc
    let pre (b : Nat) (bo₁ : BlockOpt n) : Prop :=
      b < bo.fresh ∧ Visitable b bo₁ ∧ ¬ConstSwitch (bo₁.block b)
    let inv (bo₁ : BlockOpt n) : Prop := WellFormed bo₁ ∧ bo₁.fresh = bo.fresh
    have hpre {b : Nat} {bo₁ bo₂ : BlockOpt n} (hs : Same b bo₁ bo₂) (hp : pre b bo₁) : pre b bo₂ :=
      ⟨hp.left, hp.right.left.congr hs, mt (constSwitch_congr hs.code).mp hp.right.right⟩
    have hstep {b : Nat} {bo₁ bo₂ : BlockOpt n} (hp : pre b bo₁) (hi : inv bo₁)
        (hs : broptBlock p bo₁ b = some bo₂) : Rewrites b bo₁ bo₂ ∧ inv bo₂ := by
      obtain ⟨hb, hv, hc⟩ := hp
      obtain ⟨hwf, hf⟩ := hi
      obtain ⟨bo₃, hs', hr⟩ := exists_broptBlock (p := p) hv
      cases hs.symm.trans hs'
      exact ⟨hr, hwf.broptBlock (hf ▸ hb) hv.complete hc hs, hr.fresh.trans hf⟩
    refine (foldlM_preserves hpre hstep h.nodup (fun b hb => ?_) ⟨h, rfl⟩ hbo).left
    exact ⟨h.allocated b hb, h.visitable (hcomplete b), hc b hb⟩

end broptBlock

end Compiler.Backend.BlockOpt
