import DmdModel.Compiler.Backend.Theorems.Blident
import DmdModel.Compiler.Backend.Theorems.BrcombineSteps

namespace Compiler.Backend

variable {n : Nat}

namespace Elem

variable {e e' : Elem n}

-- The last expression is snipped off.
theorem bl_enlist2_snip : e.bl_enlist2 =
    (e.snipTrailingOPcomma.map bl_enlist2).getD [] ++ [e.el_scancommas] := by
  induction e using el_scancommas.induct with
  | case1 ty ET E1 E2 ih =>
    rw [bl_enlist2, ih, snipTrailingOPcomma, el_scancommas]
    cases E2.snipTrailingOPcomma with
    | some E2' => simp [bl_enlist2]
    | none     => simp
  | case2 e hne =>
    rw [bl_enlist2.eq_2 e hne, snipTrailingOPcomma.eq_2 e hne, el_scancommas.eq_2 e hne]
    rfl

@[simp]
theorem length_el_scancommas : e.el_scancommas.bl_enlist2.length = 1 := by
  induction e using el_scancommas.induct with
  | case1 ty ET E1 E2 ih => exact ih
  | case2 e hne          => rw [el_scancommas.eq_2 e hne, bl_enlist2.eq_2 e hne]; rfl

end Elem

namespace Interp

variable {σ V E : Type} {I : Interp n σ V E} {e : Elem n} {u : σ}

-- An expression is its last expression after the others.
theorem eval_snip : I.eval e u =
    (I.evalBlock e.snipTrailingOPcomma u).bind fun u _ => I.eval e.el_scancommas u := by
  induction e using Elem.el_scancommas.induct generalizing u with
  | case1 ty ET E1 E2 ih =>
    rw [I.comma, Elem.snipTrailingOPcomma, Elem.el_scancommas]
    cases h : E2.snipTrailingOPcomma with
    | some E2' =>
      rw [h] at ih
      simp only [evalBlock, I.comma, Result.bind_assoc, Result.pure_bind] at ih ⊢
      congr 1
      funext u v
      exact ih
    | none =>
      rw [h] at ih
      simp only [evalBlock, Result.bind_assoc, Result.pure_bind] at ih ⊢
      congr 1
      funext u v
      exact ih
  | case2 e hne =>
    rw [Elem.snipTrailingOPcomma.eq_2 e hne, Elem.el_scancommas.eq_2 e hne]
    simp [evalBlock]

end Interp

namespace BlockOpt

open Relation Lockstep

variable {p : Passes n} {bo bo' : BlockOpt n} {b bn c s x y : Nat}

section preds

variable {l : List Nat} {bnew : Nat}

theorem foldl_mergePreds_list : (l.foldl (mergePreds b bn bnew) bo).list = bo.list ∧
    (l.foldl (mergePreds b bn bnew) bo).fresh = bo.fresh := by
  induction l generalizing bo with
  | nil          => exact ⟨rfl, rfl⟩
  | cons bl l ih => exact ih

theorem foldl_mergePreds_code :
    ((l.foldl (mergePreds b bn bnew) bo).block x).code = (bo.block x).code := by
  induction l generalizing bo with
  | nil => rfl
  | cons bl l ih => rw [List.foldl_cons, ih, mergePreds, pushPred_code, subtractPred_code, subtractPred_code]

theorem foldl_mergePreds_predCount (hne : b ≠ bn) (hb : b ≠ bnew) (hbn : bn ≠ bnew) :
    (l.foldl (mergePreds b bn bnew) bo).predCount x s =
      if x = b ∨ x = bn then bo.predCount x s - l.count s
      else bo.predCount x s + if x = bnew then l.count s else 0 := by
  induction l generalizing bo with
  | nil => simp
  | cons bl l ih =>
    rw [List.foldl_cons, ih, mergePreds, pushPred_predCount, subtractPred_predCount,
      subtractPred_predCount, List.count_cons]
    simp only [beq_iff_eq, eq_comm (a := bl)]
    by_cases hs : s = bl
    all_goals by_cases hxb : x = b
    all_goals by_cases hxn : x = bn
    all_goals by_cases hxw : x = bnew
    all_goals simp_all
    all_goals omega

end preds

section tailMerge

-- Blocks b and bn go on to a new block, which has their last expression and their successors.
structure TailMerged (b bn : Nat) (bo bo' : BlockOpt n) : Prop where
  list    : bo'.list = insertAfter bn bo.fresh bo.list
  fresh   : bo'.fresh = bo.fresh + 1
  new     : (bo'.block bo.fresh).code =
    { bc := (bo.block b).bc
      Belem := (bo.block b).Belem.map Elem.el_scancommas
      Bsucc := (bo.block b).Bsucc
      Bswitch := if (bo.block b).bc = .switch_ then (bo.block b).Bswitch else [] }
  snipped : ∀ x, x = b ∨ x = bn → (bo'.block x).code = (snipTail bo.fresh (bo.block x)).code
  other   : ∀ x, ¬(x = b ∨ x = bn) → x ≠ bo.fresh → (bo'.block x).code = (bo.block x).code
  preds   : ∀ x s, bo'.predCount x s =
    if s = bo.fresh then [b, bn].count x
    else if x = b ∨ x = bn then 0
    else bo.predCount x s + if x = bo.fresh then (bo.block b).Bsucc.count s else 0

theorem WellFormed.tailMerge_spec (h : WellFormed bo) (hne : b ≠ bn) (hb : b < bo.fresh)
    (hbn : bn < bo.fresh) (hs : (bo.block b).Bsucc = (bo.block bn).Bsucc) :
    TailMerged b bn bo (bo.tailMerge b bn) := by
  let bo₁ := bo.alloc
    { bc := (bo.block b).bc
      Belem := (bo.block b).Belem.map Elem.el_scancommas
      Bsucc := (bo.block b).Bsucc
      Bpred := [b, bn]
      Bswitch := if (bo.block b).bc = .switch_ then (bo.block b).Bswitch else [] }
  let bo₂ := (bo₁.modify b (snipTail bo.fresh)).modify bn (snipTail bo.fresh)
  have hlist : ((bo.block b).Bsucc.foldl (mergePreds b bn bo.fresh) bo₂).list = bo₂.list ∧ _ :=
    foldl_mergePreds_list
  have hcode (x : Nat) : ((bo.tailMerge b bn).block x).code = (bo₂.block x).code :=
    foldl_mergePreds_code
  have hpred (x s : Nat) : bo₂.predCount x s = bo₁.predCount x s := by
    rw [modify_predCount (by intro _; rfl), modify_predCount (by intro _; rfl)]
  refine ⟨?_, ?_, ?_, fun x hx => ?_, fun x hx hxf => ?_, fun x s => ?_⟩
  case refine_1 => exact congrArg (insertAfter bn bo.fresh) hlist.left
  case refine_2 => exact hlist.right
  case refine_3 =>
    rw [hcode, modify_block_of_ne hbn.ne', modify_block_of_ne hb.ne', alloc_block_self]
    rfl
  case refine_4 =>
    rw [hcode]
    obtain rfl | rfl := hx
    case inl =>
      rw [modify_block_of_ne hne, modify_block_self, alloc_block_of_ne hb.ne]
    case inr =>
      rw [modify_block_self, modify_block_of_ne (Ne.symm hne), alloc_block_of_ne hbn.ne]
  case refine_5 =>
    obtain ⟨hxb, hxn⟩ := not_or.mp hx
    rw [hcode, modify_block_of_ne hxn, modify_block_of_ne hxb, alloc_block_of_ne hxf]
  case refine_6 =>
    have hfold : (bo.tailMerge b bn).predCount x s = _ :=
      foldl_mergePreds_predCount hne hb.ne hbn.ne
    rw [hfold, hpred]
    by_cases hsf : s = bo.fresh
    case pos =>
      subst s
      have hz : (bo.block b).Bsucc.count bo.fresh = 0 :=
        List.count_eq_zero.mpr (h.fresh_not_mem_Bsucc le_rfl)
      have hnew : bo₁.predCount x bo.fresh = [b, bn].count x := by
        rw [predCount, alloc_block_self]
      rw [hnew, hz, if_pos rfl, Nat.sub_zero]
      split
      case isTrue  => rfl
      case isFalse => split <;> rfl
    case neg =>
      have hold : bo₁.predCount x s = bo.predCount x s := by
        rw [predCount, alloc_block_of_ne hsf, predCount]
      rw [hold, if_neg hsf]
      split
      case isFalse => rfl
      case isTrue hx =>
        rw [← h.edges, succCount]
        obtain rfl | rfl := hx
        case inl => exact Nat.sub_self _
        case inr => rw [hs]; exact Nat.sub_self _

variable (hsp : TailMerged b bn bo bo') (h : WellFormed bo) (hne : b ≠ bn) (hb : b ∈ bo.list)
variable (hbn : bn ∈ bo.list) (hs : (bo.block b).Bsucc = (bo.block bn).Bsucc)

include hsp

theorem TailMerged.new_Bsucc : (bo'.block bo.fresh).Bsucc = (bo.block b).Bsucc :=
  (congrArg Block.Bsucc hsp.new :)

theorem TailMerged.new_bc : (bo'.block bo.fresh).bc = (bo.block b).bc :=
  (congrArg Block.bc hsp.new :)

theorem TailMerged.edge (hxy : bo'.Edge x y) :
    (y = bo.fresh ∧ (x = b ∨ x = bn)) ∨ (¬(x = b ∨ x = bn) ∧ x ≠ bo.fresh ∧ bo.Edge x y) ∨
      (x = bo.fresh ∧ bo.Edge b y) := by
  unfold Edge at hxy
  by_cases hx : x = b ∨ x = bn
  case pos =>
    rw [Block.code_Bsucc (hsp.snipped x hx)] at hxy
    exact .inl ⟨List.mem_singleton.mp hxy, hx⟩
  case neg =>
    by_cases hxf : x = bo.fresh
    case pos =>
      rw [hxf, hsp.new_Bsucc] at hxy
      exact .inr (.inr ⟨hxf, hxy⟩)
    case neg =>
      rw [Block.code_Bsucc (hsp.other x hx hxf)] at hxy
      exact .inr (.inl ⟨hx, hxf, hxy⟩)

include h hne hb hbn hs

theorem TailMerged.newBlocks :
    NewBlocks (fun x => x = b ∨ x = bn) (· = bo.fresh) bo bo' where
  start := by
    rw [startblock, hsp.list, insertAfter_head?]
    rfl
  nodup := hsp.list ▸ insertAfter_nodup h.nodup (h.fresh_not_mem_list le_rfl)
  keeps x hx := hsp.list ▸ insertAfter_mem.mpr (.inl hx)
  listed x y hx _ _ := hsp.list ▸ insertAfter_mem.mpr (.inr ⟨hx, hbn⟩)
  only x hx := (insertAfter_mem.mp (hsp.list ▸ hx)).imp_right And.left
  fresh := hsp.fresh ▸ Nat.le_succ _
  isNew x hx := by
    rw [hx, hsp.fresh]
    exact ⟨le_rfl, Nat.lt_succ_self _⟩
  isOld x hx := by
    obtain rfl | rfl := hx
    case inl => exact h.allocated _ hb
    case inr => exact h.allocated _ hbn
  edge x y hxy := by
    obtain ⟨hy, hx⟩ | ⟨-, hx, hxy⟩ | ⟨hx, hy⟩ := hsp.edge hxy
    case inl     => exact .inl ⟨hy, .inl hx⟩
    case inr.inl => exact .inr (.inl ⟨hx, hxy⟩)
    case inr.inr =>
      refine .inr (.inr ⟨hx, ⟨b, .inl rfl⟩, fun z hz => ?_⟩)
      obtain rfl | rfl := hz
      case inl => exact hy
      case inr => rwa [Edge, ← hs]
  same x hx := by
    obtain ⟨hxb, hxf⟩ := not_or.mp hx
    refine ⟨hsp.other x hxb hxf, fun s => ?_⟩
    rw [hsp.preds, if_neg hxb, if_neg hxf, Nat.add_zero]
    split
    case isFalse => rfl
    case isTrue hsf =>
      obtain ⟨hxb, hxn⟩ := not_or.mp hxb
      rw [predCount, hsf, h.fresh_Bpred le_rfl, List.count_nil]
      exact List.count_eq_zero.mpr (by simp [hxb, hxn])
  counts x hx s := by
    rw [hsp.preds]
    obtain hx | rfl := hx
    case inl =>
      rw [succCount, Block.code_Bsucc (hsp.snipped x hx), if_pos hx]
      have hc : [b, bn].count x = 1 := by
        obtain rfl | rfl := hx
        case inl => simp [Ne.symm hne]
        case inr => simp [hne]
      simp only [snipTail, List.count_singleton, hc, beq_iff_eq, eq_comm (a := bo.fresh)]
    case inr =>
      have hbf := (h.allocated b hb).ne'
      have hbnf := (h.allocated bn hbn).ne'
      rw [succCount, hsp.new_Bsucc, if_neg (not_or.mpr ⟨hbf, hbnf⟩), if_pos rfl]
      split
      case isTrue hsf =>
        rw [hsf, List.count_eq_zero.mpr (h.fresh_not_mem_Bsucc le_rfl)]
        exact (List.count_eq_zero.mpr (by simp [hbf, hbnf])).symm
      case isFalse => rw [h.fresh_predCount le_rfl, Nat.zero_add]
  arity x hx := by
    obtain hx | rfl := hx
    case inl => exact (Block.arity_congr (hsp.snipped x hx)).mpr rfl
    case inr =>
      have ha := h.arity b
      rw [Block.Arity, hsp.new_bc, hsp.new_Bsucc]
      exact ha

end tailMerge

section tails

variable {l : List Nat}

-- Two blocks that end the same way.
structure SharedTail (p : Passes n) (b bn : Nat) (bo : BlockOpt n) : Prop where
  ne      : b ≠ bn
  mem     : b ∈ bo.list
  memn    : bn ∈ bo.list
  bc      : (bo.block bn).bc = (bo.block b).bc
  Bsucc   : (bo.block b).Bsucc = (bo.block bn).Bsucc
  Bswitch : (bo.block bn).bc = .switch_ → (bo.block b).Bswitch = (bo.block bn).Bswitch
  Belem   : (bo.block b).Belem.isSome
  Belemn  : (bo.block bn).Belem.isSome
  tails   : p.el_match ((bo.block b).Belem.map Elem.el_scancommas)
    ((bo.block bn).Belem.map Elem.el_scancommas)

theorem SharedTail.of_sameTail (hne : b ≠ bn) (hb : b ∈ bo.list) (hbn : bn ∈ bo.list)
    (he : (bo.block b).Belem.isSome) (h : bo.sameTail p b bn) : SharedTail p b bn bo := by
  simp only [sameTail, Bool.and_eq_true, decide_eq_true_eq, Bool.or_eq_true] at h
  obtain ⟨⟨⟨⟨hbc, hs⟩, hen⟩, hsw⟩, ht⟩ := h
  exact ⟨hne, hb, hbn, hbc.symm, hs, fun h => hsw.resolve_left fun hn => hn (hbc.trans h), he, hen, ht⟩

variable (h : WellFormed bo) (ht : SharedTail p b bn bo)

include h ht

theorem SharedTail.tailMerged : TailMerged b bn bo (bo.tailMerge b bn) :=
  h.tailMerge_spec ht.ne (h.allocated b ht.mem) (h.allocated bn ht.memn) ht.Bsucc

theorem SharedTail.wellFormed : WellFormed (bo.tailMerge b bn) :=
  ((ht.tailMerged h).newBlocks h ht.ne ht.mem ht.memn ht.Bsucc).wellFormed h

theorem SharedTail.tailCount_new : (bo.tailMerge b bn).tailCount bo.fresh = 1 := by
  have hB : ((bo.tailMerge b bn).block bo.fresh).Belem = (bo.block b).Belem.map Elem.el_scancommas :=
    (congrArg Block.Belem (ht.tailMerged h).new :)
  obtain ⟨e, he⟩ := Option.isSome_iff_exists.mp ht.Belem
  rw [tailCount, hB, he]
  exact Elem.length_el_scancommas

theorem SharedTail.tailCount_snipped : (bo.tailMerge b bn).tailCount bn + 1 = bo.tailCount bn := by
  have hB := Block.code_Belem ((ht.tailMerged h).snipped bn (.inr rfl))
  obtain ⟨e, he⟩ := Option.isSome_iff_exists.mp ht.Belemn
  rw [tailCount, hB, tailCount, snipTail, he]
  dsimp only [Option.bind_some]
  rw [Elem.bl_enlist2_snip (e := e)]
  cases e.snipTrailingOPcomma <;> simp

theorem SharedTail.tailCount_other (hx : x ≠ b) (hxn : x ≠ bn) (hxf : x ≠ bo.fresh) :
    (bo.tailMerge b bn).tailCount x = bo.tailCount x := by
  have hc := (ht.tailMerged h).other x (not_or.mpr ⟨hx, hxn⟩) hxf
  rw [tailCount, Block.code_Belem hc, tailCount]

end tails

section bltailmerge

variable {l : List Nat} {f f' : Nat → Nat}

theorem sum_insertAfter (hl : l.Nodup) (hb : b ∈ l) (hf : ∀ y ∈ l, y ≠ b → f' y = f y) :
    ((insertAfter b x l).map f').sum + f b = (l.map f).sum + f' b + f' x := by
  induction l with
  | nil => cases hb
  | cons c l ih =>
    obtain ⟨hc, hl⟩ := List.nodup_cons.mp hl
    obtain ⟨hfc, hfl⟩ := List.forall_mem_cons.mp hf
    unfold insertAfter
    split
    case isTrue hcb =>
      have hsame : l.map f' = l.map f :=
        List.map_congr_left fun y hy => hfl y hy fun hyb => hc (by rwa [hcb, ← hyb])
      simp only [List.map_cons, List.sum_cons, hsame, hcb]
      omega
    case isFalse hcb =>
      have ih := ih hl ((List.mem_cons.mp hb).resolve_left (Ne.symm hcb)) hfl
      simp only [List.map_cons, List.sum_cons, hfc hcb]
      omega

-- What the tails in a list come to at most.
def tailTotal (bo : BlockOpt n) (l : List Nat) : Nat :=
  (l.map fun b => bo.tailCount b + 1).sum

-- One of the tails that are merged.
def MergeStep (p : Passes n) (bo bo' : BlockOpt n) : Prop :=
  ∃ b bn, SharedTail p b bn bo ∧ bo' = bo.tailMerge b bn

-- A merge leaves fewer tails to be compared.
theorem SharedTail.tailTotal_lt (h : WellFormed bo) (ht : SharedTail p b bn bo) (hl : (b :: l).Nodup)
    (hlt : ∀ x ∈ l, x < bo.fresh) (hbn : bn ∈ l) :
    (bo.tailMerge b bn).tailTotal (insertAfter bn bo.fresh l) < bo.tailTotal (b :: l) := by
  obtain ⟨hb, hl⟩ := List.nodup_cons.mp hl
  have hsame (y : Nat) (hy : y ∈ l) (hyn : y ≠ bn) :
      (bo.tailMerge b bn).tailCount y + 1 = bo.tailCount y + 1 :=
    congrArg (· + 1) (ht.tailCount_other h (fun hyb => hb (hyb ▸ hy)) hyn (hlt y hy).ne)
  have hsum := sum_insertAfter (x := bo.fresh) hl hbn hsame
  have hnew := ht.tailCount_new h
  have hsnip := ht.tailCount_snipped h
  have hpos : 0 < bo.tailCount b := by
    obtain ⟨e, he⟩ := Option.isSome_iff_exists.mp ht.Belem
    rw [tailCount, he]
    dsimp only
    rw [Elem.bl_enlist2_snip]
    simp
  rw [hnew] at hsum
  simp only [tailTotal, List.map_cons, List.sum_cons]
  omega

theorem exists_bltailmergeFrom {k : Nat} (h : WellFormed bo) (hl : l.Nodup)
    (hlist : ∀ x ∈ l, x ∈ bo.list) (hk : bo.tailTotal l ≤ k) :
    ∃ bo', bltailmergeFrom p k l bo = some bo' ∧ ReflTransGen (MergeStep p) bo bo' := by
  induction k generalizing l bo with
  | zero =>
    cases l with
    | nil       => exact ⟨bo, rfl, .refl⟩
    | cons b l  => simp [tailTotal] at hk
  | succ k ih =>
    cases l with
    | nil       => exact ⟨bo, rfl, .refl⟩
    | cons b l  =>
      obtain ⟨hb, hlist'⟩ := List.forall_mem_cons.mp hlist
      have hskip : ∃ bo', bltailmergeFrom p k l bo = some bo' ∧ ReflTransGen (MergeStep p) bo bo' := by
        refine ih h (List.nodup_cons.mp hl).right hlist' ?_
        simp only [tailTotal, List.map_cons, List.sum_cons] at hk ⊢
        omega
      unfold bltailmergeFrom
      split
      case isFalse => exact hskip
      case isTrue he =>
        split
        case h_2 => exact hskip
        case h_1 bn hbn =>
          have hmem := List.mem_of_find?_eq_some hbn
          have ht : SharedTail p b bn bo :=
            .of_sameTail (fun hne => (List.nodup_cons.mp hl).left (hne ▸ hmem)) hb
              (hlist' bn hmem) he (List.find?_some hbn)
          have hlt := ht.tailTotal_lt h hl (fun x hx => h.allocated x (hlist' x hx)) hmem
          have hnew : bo.fresh ∉ l := fun hm => h.fresh_not_mem_list le_rfl (hlist' _ hm)
          have hsub (x : Nat) (hx : x ∈ insertAfter bn bo.fresh l) : x ∈ (bo.tailMerge b bn).list := by
            rw [(ht.tailMerged h).list]
            obtain hx | ⟨rfl, -⟩ := insertAfter_mem.mp hx
            case inl => exact insertAfter_mem.mpr (.inl (hlist' x hx))
            case inr => exact insertAfter_mem.mpr (.inr ⟨rfl, hlist' bn hmem⟩)
          obtain ⟨bo', hbo', hr⟩ := ih (ht.wellFormed h)
            (insertAfter_nodup (List.nodup_cons.mp hl).right hnew) hsub (Nat.le_of_lt_succ (hlt.trans_le hk))
          exact ⟨bo', hbo', .head ⟨b, bn, ht, rfl⟩ hr⟩

-- Tail merging ends, and merges one tail after the other.
theorem WellFormed.exists_bltailmerge (h : WellFormed bo) :
    ∃ bo', bo.bltailmerge p = some bo' ∧ ReflTransGen (MergeStep p) bo bo' :=
  exists_bltailmergeFrom h h.nodup (fun _ hx => hx) le_rfl

end bltailmerge

section behaviour

variable {σ V E : Type} {I : Interp n σ V E} {u : σ}

-- A block that goes on to its own tail does what it did.
theorem run_snipped {e e' : Elem n} (hB : (bo.block x).Belem = some e)
    (hbc : (bo'.block x).bc = .goto_) (hs : (bo'.block x).Bsucc[0]? = some y)
    (hsnip : (bo'.block x).Belem = e.snipTrailingOPcomma) (htail : (bo'.block y).Belem = some e')
    (he : ∀ u, I.evalBlock (some e') u = I.evalBlock (some e.el_scancommas) u)
    (hnext : ∀ v, I.next (bo'.block y) v = I.next (bo.block x) v) :
    run (I.step bo') 2 (x, u) = I.step bo (x, u) := by
  have heval : I.evalBlock (some e) u = (I.evalBlock e.snipTrailingOPcomma u).bind fun u _ =>
      I.evalBlock (some e.el_scancommas) u := by
    rw [Interp.evalBlock, Interp.eval_snip, Result.bind_assoc]
    rfl
  obtain ⟨t, ht⟩ | ⟨t, u', v, ht⟩ := (I.evalBlock e.snipTrailingOPcomma u).cases
  case inl =>
    rw [run_step_ended (Interp.step_eq_none (hsnip ▸ ht)), Interp.step_eq_none]
    rw [hB, heval, Result.bind_eq_none ht]
  case inr =>
    rw [run_step_add (step_goto hbc hs (hsnip ▸ ht)), run_one, Interp.step_eq_conclude,
      Interp.step_eq_conclude, hB, heval, Interp.conclude_bind ht, htail, he, funext hnext]

theorem SharedTail.run_two (h : WellFormed bo) (ht : SharedTail p b bn bo)
    (hp : I.Respects p.el_match) (hx : x = b ∨ x = bn) :
    run (I.step (bo.tailMerge b bn)) 2 (x, u) = I.step bo (x, u) := by
  have hm := ht.tailMerged h
  have hsn := hm.snipped x hx
  have hbx : (bo.block x).bc = (bo.block b).bc := by
    obtain rfl | rfl := hx
    case inl => rfl
    case inr => exact ht.bc
  have hsx : (bo.block x).Bsucc = (bo.block b).Bsucc := by
    obtain rfl | rfl := hx
    case inl => rfl
    case inr => exact ht.Bsucc.symm
  obtain ⟨e, he⟩ := Option.isSome_iff_exists.mp ht.Belem
  obtain ⟨en, hen⟩ := Option.isSome_iff_exists.mp ht.Belemn
  have hnew : ((bo.tailMerge b bn).block bo.fresh).Belem = some e.el_scancommas := by
    have hB : ((bo.tailMerge b bn).block bo.fresh).Belem =
      (bo.block b).Belem.map Elem.el_scancommas := (congrArg Block.Belem hm.new :)
    rw [hB, he]
    rfl
  have htails := ht.tails
  rw [he, hen] at htails
  have hex : ∃ ex, (bo.block x).Belem = some ex ∧
      ∀ u, I.evalBlock (some e.el_scancommas) u = I.evalBlock (some ex.el_scancommas) u := by
    obtain rfl | rfl := hx
    case inl => exact ⟨e, he, fun _ => rfl⟩
    case inr => exact ⟨en, hen, hp _ _ htails⟩
  obtain ⟨ex, hex, heq⟩ := hex
  refine run_snipped hex (Block.code_bc hsn) ?_ ?_ hnew heq fun v => ?_
  case refine_1 => rw [Block.code_Bsucc hsn]; rfl
  case refine_2 => rw [Block.code_Belem hsn, snipTail, hex]; rfl
  case refine_3 =>
    have hsw (hb : (bo.block x).bc = .switch_) :
        ((bo.tailMerge b bn).block bo.fresh).Bswitch = (bo.block x).Bswitch := by
      have hsw : ((bo.tailMerge b bn).block bo.fresh).Bswitch =
        if (bo.block b).bc = .switch_ then (bo.block b).Bswitch else [] :=
          (congrArg Block.Bswitch hm.new :)
      rw [hsw, if_pos (hbx.symm.trans hb)]
      obtain rfl | rfl := hx
      case inl => rfl
      case inr => exact ht.Bswitch hb
    have hs : ((bo.tailMerge b bn).block bo.fresh).Bsucc = (bo.block x).Bsucc.map id := by
      rw [hm.new_Bsucc, hsx, List.map_id]
    rw [next_map (hm.new_bc.trans hbx.symm) hsw hs, Sum.map_id_id, id]

theorem SharedTail.preserves (h : WellFormed bo) (ht : SharedTail p b bn bo)
    (hp : I.Respects p.el_match) : Preserves I bo (bo.tailMerge b bn) := by
  have hm := ht.tailMerged h
  have hnew := hm.newBlocks h ht.ne ht.mem ht.memn ht.Bsucc
  refine ⟨ht.wellFormed h, fun hs x hbc => ?_, hnew.start, hnew.fresh, fun x hx u => ?_⟩
  case refine_1 =>
    by_cases hx : x = b ∨ x = bn
    case pos =>
      rw [Block.code_bc (hm.snipped x hx)] at hbc
      simp [snipTail] at hbc
    case neg =>
      by_cases hxf : x = bo.fresh
      case pos =>
        have hB : ((bo.tailMerge b bn).block bo.fresh).Belem =
          (bo.block b).Belem.map Elem.el_scancommas := (congrArg Block.Belem hm.new :)
        rw [hxf, hB, Option.isSome_map]
        exact ht.Belem
      case neg =>
        rw [Block.code_bc (hm.other x hx hxf)] at hbc
        rw [Block.code_Belem (hm.other x hx hxf)]
        exact hs x hbc
  case refine_2 =>
    -- No run is at the new block before it is at one of the two.
    refine runs_of_matches (P := (· ≠ bo.fresh)) (fun c u hc => ?_) hx.ne
    have htarget (x : Nat) (hx : bo.Targets c x) : x ≠ bo.fresh := by
      rintro rfl
      exact h.fresh_not_edge le_rfl hx.edge
    by_cases hcb : c = b ∨ c = bn
    case neg => exact matches_elsewhere (hm.other c hcb hc) htarget
    case pos =>
      have hrun := ht.run_two (I := I) (u := u) h hp hcb
      refine .of_run (i := 0) (j := 1) (by rw [run_one, hrun]) fun y hy => ?_
      rw [run_one] at hy
      exact htarget _ (step_targets (Prod.ext rfl hy))

-- Tail merging keeps what a function does.
theorem bltailmerge_preserves (hp : I.Respects p.el_match) (h : WellFormed bo) :
    ∃ bo', bo.bltailmerge p = some bo' ∧ Preserves I bo bo' := by
  obtain ⟨bo', hbo', hr⟩ := h.exists_bltailmerge (p := p)
  refine ⟨bo', hbo', ?_⟩
  clear hbo'
  induction hr with
  | refl => exact .refl h
  | tail _ hs ih =>
    obtain ⟨b, bn, ht, rfl⟩ := hs
    exact ih.trans (ht.preserves ih.wellFormed hp)

end behaviour

end BlockOpt

end Compiler.Backend

namespace Compiler.Backend

open Relation Lockstep

variable {n : Nat} {σ V E : Type} {I : Interp n σ V E}

namespace Interp

variable {e E1 E2 : Elem n} {op : BinaryOp} {ty : Ty} {ET : Nat}

theorem neverReturns_iff : I.NeverReturns e ↔ ∀ s, (I.eval e s).2 = none := by
  simp only [NeverReturns, Result.not_returns_iff]

theorem NeverReturns.left (h : I.NeverReturns E1) (hc : op ≠ .colon) (hc₂ : op ≠ .colon2) :
    I.NeverReturns (.binary op ty ET E1 E2) := by
  rw [neverReturns_iff] at h ⊢
  exact I.left op ty ET E1 E2 hc hc₂ h

theorem NeverReturns.right (h : I.NeverReturns E2) (ha : op ≠ .andand) (ho : op ≠ .oror)
    (hc : op ≠ .colon) (hc₂ : op ≠ .colon2) : I.NeverReturns (.binary op ty ET E1 E2) := by
  rw [neverReturns_iff] at h ⊢
  exact I.right op ty ET E1 E2 ha ho hc hc₂ h

-- A function that is marked as never returning.
theorem exists_of_callsExit (h : e.callsExit) : ∃ ty id offset, e = .var ty (.other id true) offset := by
  unfold Elem.callsExit at h
  split at h
  case h_1 ty id SFLexit offset => exact ⟨ty, id, offset, by rw [h]⟩
  case h_2 => cases h

theorem neverReturns_of_callsExit (h : E1.callsExit) :
    I.NeverReturns (.binary .call ty ET E1 E2) := by
  obtain ⟨ty', id, offset, rfl⟩ := exists_of_callsExit h
  exact (neverReturns_iff).mpr (I.exit_call ty ET ty' id offset E2)

-- What is not found to return never does.
theorem neverReturns_of_el_returns (h : ¬e.el_returns) : I.NeverReturns e := by
  induction e with
  | var   => simp [Elem.el_returns] at h
  | const => simp [Elem.el_returns] at h
  | leaf op ty =>
    have hop : op = .halt := by simpa [Elem.el_returns] using h
    rw [hop]
    exact (neverReturns_iff).mpr (I.halt ty)
  | unary op ty E1 ih =>
    unfold Elem.el_returns at h
    split at h
    case isTrue hop =>
      obtain ⟨ty', id, offset, rfl⟩ := exists_of_callsExit (e := E1) (by simpa using h)
      rw [hop]
      exact (neverReturns_iff).mpr (I.exit_ucall ty ty' id offset)
    case isFalse =>
      have ih := ih h
      rw [neverReturns_iff] at ih ⊢
      exact I.operand op ty E1 ih
  | binary op ty ET E1 E2 ih₁ ih₂ =>
    unfold Elem.el_returns at h
    split_ifs at h
    case pos hop =>
      rw [hop]
      exact neverReturns_of_callsExit (by simpa using h)
    case pos hop =>
      obtain rfl | rfl := hop
      case inl => exact (ih₁ h).left (by decide) (by decide)
      case inr => exact (ih₁ h).left (by decide) (by decide)
    case pos hop =>
      obtain ⟨h₁, h₂⟩ := not_or.mp (mt Bool.or_eq_true_iff.mpr h)
      have ih₁ := (neverReturns_iff).mp (ih₁ h₁)
      have ih₂ := (neverReturns_iff).mp (ih₂ h₂)
      exact (neverReturns_iff).mpr (I.colon op ty ET E1 E2 ih₁ ih₂)
    case neg ho hc =>
      obtain ⟨ha, ho⟩ := not_or.mp ho
      obtain ⟨hc, hc₂⟩ := not_or.mp hc
      obtain h₂ | h₁ := not_and_or.mp (mt Bool.and_eq_true_iff.mpr h)
      case inl => exact (ih₂ h₂).right ha ho hc hc₂
      case inr => exact (ih₁ h₁).left hc hc₂

end Interp

namespace BlockOpt

variable {bo bo' : BlockOpt n} {b : Nat} {l bexits : List Nat}

-- A block that never goes on becomes an exit block.
theorem toExit_preserves {e : Elem n} (h : WellFormed bo) (he : (bo.block b).Belem = some e)
    (hn : I.NeverReturns e) : Preserves I bo (bo.toExit b) where
  wellFormed := h.toExit (h.lt_fresh (by rw [he]; rfl))
  supplied hs x hbc := by
    by_cases hx : x = b
    case pos =>
      have hbc' : ((bo.toExit b).block b).bc = .exit := (congrArg Block.bc toExit_code :)
      rw [hx, hbc'] at hbc
      simp at hbc
    case neg =>
      have hcode : ((bo.toExit b).block x).code = (bo.block x).code := toExit_rewrites.code hx
      rw [Block.code_bc hcode] at hbc
      rw [Block.code_Belem hcode]
      exact hs x hbc
  start := congrArg List.head? toExit_rewrites.list
  fresh := toExit_rewrites.fresh.ge
  runs c _ u := by
    have hstep : I.step (bo.toExit b) = I.step bo := by
      funext c
      obtain ⟨x, u⟩ := c
      by_cases hx : x = b
      case pos => rw [hx, toExit_step he hn]
      case neg => exact Interp.step_congr (toExit_rewrites.code hx) u
    rw [hstep]
    exact .refl _

-- A block that is found never to go on becomes an exit block.
def ExitStep (bo bo' : BlockOpt n) : Prop :=
  ∃ b, ∃ e, (bo.block b).Belem = some e ∧ ¬e.el_returns ∧ bo' = bo.toExit b

theorem WellFormed.exitSteps (h : WellFormed bo) (hs : ReflTransGen ExitStep bo bo') :
    WellFormed bo' := by
  induction hs with
  | refl => exact h
  | tail _ hs ih =>
    obtain ⟨b, e, he, -, rfl⟩ := hs
    exact ih.toExit (ih.lt_fresh (by rw [he]; rfl))

theorem exitSteps_preserves (h : WellFormed bo) (hs : ReflTransGen ExitStep bo bo') :
    Preserves I bo bo' := by
  induction hs with
  | refl => exact .refl h
  | tail _ hs ih =>
    obtain ⟨b, e, he, hr, rfl⟩ := hs
    exact ih.trans (toExit_preserves ih.wellFormed he (Interp.neverReturns_of_el_returns hr))

-- Some of the blocks in l become exit blocks, and some of them are to be moved.
structure Exits (l : List Nat) (st st' : BlockOpt n × List Nat) : Prop where
  list   : st'.1.list = st.1.list
  steps  : ReflTransGen ExitStep st.1 st'.1
  bexits : ∃ l', l'.Sublist l ∧ (∀ x ∈ l', st.1.startblock ≠ some x) ∧ st'.2 = st.2 ++ l'

theorem blexitBlock_exits : Exits [b] (bo, bexits) (blexitBlock (bo, bexits) b) := by
  have hnil : ∃ l', l'.Sublist [b] ∧ (∀ x ∈ l', bo.startblock ≠ some x) ∧ bexits = bexits ++ l' :=
    ⟨[], List.nil_sublist _, by simp, by simp⟩
  have hmove (hs : bo.startblock ≠ some b) : ∃ l', l'.Sublist [b] ∧
      (∀ x ∈ l', bo.startblock ≠ some x) ∧ bexits ++ [b] = bexits ++ l' :=
    ⟨[b], .refl _, by simpa using hs, rfl⟩
  unfold blexitBlock
  dsimp only
  split_ifs
  case pos hm => exact ⟨rfl, .refl, hmove hm.left⟩
  case neg    => exact ⟨rfl, .refl, hnil⟩
  case pos he hm =>
    obtain ⟨e, he, hr⟩ := he
    exact ⟨toExit_rewrites.list, .single ⟨b, e, he, hr, rfl⟩, hmove hm.left⟩
  case neg he hm =>
    obtain ⟨e, he, hr⟩ := he
    exact ⟨toExit_rewrites.list, .single ⟨b, e, he, hr, rfl⟩, hnil⟩
  case neg    => exact ⟨rfl, .refl, hnil⟩

theorem foldl_exits : Exits l (bo, bexits) (l.foldl blexitBlock (bo, bexits)) := by
  induction l generalizing bo bexits with
  | nil => exact ⟨rfl, .refl, [], .refl _, by simp, by simp⟩
  | cons b l ih =>
    have h₁ : Exits [b] (bo, bexits) (blexitBlock (bo, bexits) b) := blexitBlock_exits
    have h₂ : Exits l (blexitBlock (bo, bexits) b) (l.foldl blexitBlock (blexitBlock (bo, bexits) b)) := ih
    obtain ⟨l₁, hl₁, hs₁, heq₁⟩ := h₁.bexits
    obtain ⟨l₂, hl₂, hs₂, heq₂⟩ := h₂.bexits
    have hstart : (blexitBlock (bo, bexits) b).1.startblock = bo.startblock :=
      congrArg List.head? h₁.list
    refine ⟨h₂.list.trans h₁.list, h₁.steps.trans h₂.steps, l₁ ++ l₂, hl₁.append hl₂,
      fun x hx => ?_, ?_⟩
    case refine_1 =>
      obtain hx | hx := List.mem_append.mp hx
      case inl => exact hs₁ x hx
      case inr => exact hstart ▸ hs₂ x hx
    case refine_2 => rw [List.foldl_cons, heq₂, heq₁, List.append_assoc]

-- What is moved to the end of a list.
theorem filter_append_perm (hl : l.Nodup) (hb : bexits.Sublist l) :
    (l.filter (· ∉ bexits) ++ bexits).Perm l := by
  refine (List.perm_ext_iff_of_nodup ?_ hl).mpr fun x => ?_
  case refine_1 =>
    refine List.nodup_append'.mpr ⟨hl.filter _, hb.nodup hl, fun x hx hm => ?_⟩
    exact of_decide_eq_true (List.mem_filter.mp hx).right hm
  case refine_2 =>
    simp only [List.mem_append, List.mem_filter, decide_eq_true_eq]
    by_cases hx : x ∈ bexits
    case pos => simp [hx, hb.mem hx]
    case neg => simp [hx]

theorem head?_filter_append (hs : ∀ x ∈ bexits, l.head? ≠ some x) (hl : l ≠ []) :
    (l.filter (· ∉ bexits) ++ bexits).head? = l.head? := by
  cases l with
  | nil      => exact absurd rfl hl
  | cons c l =>
    have hc : c ∉ bexits := fun hm => hs c hm rfl
    rw [List.filter_cons_of_pos (by simpa using hc)]
    rfl

-- Blocks become exit blocks, and blocks other than the first one are moved to the end.
theorem WellFormed.exists_blexit (h : WellFormed bo) : ∃ bo' l, ReflTransGen ExitStep bo bo' ∧
    bo'.list = bo.list ∧ l.Perm bo.list ∧ l.head? = bo.list.head? ∧ bo.blexit = { bo' with list := l } := by
  have he : Exits bo.list (bo, []) (bo.list.foldl blexitBlock (bo, [])) := foldl_exits
  obtain ⟨start, hstart, -⟩ := h.start
  have hne : bo.list ≠ [] := by
    intro hnil
    rw [startblock, hnil] at hstart
    cases hstart
  rw [blexit]
  generalize bo.list.foldl blexitBlock (bo, []) = st at he ⊢
  obtain ⟨bo', bexits⟩ := st
  obtain ⟨l', hsub, hs, hb⟩ := he.bexits
  replace hb : bexits = l' := hb
  rw [← hb] at hsub hs
  refine ⟨bo', bo.list.filter (· ∉ bexits) ++ bexits, he.steps, he.list,
    filter_append_perm h.nodup hsub, head?_filter_append hs hne, ?_⟩
  have hl : bo'.list = bo.list := he.list
  dsimp only
  rw [hl]

-- The graph stays well formed, and the blocks are the same, when exit blocks are moved.
theorem WellFormed.blexit (h : WellFormed bo) : WellFormed bo.blexit ∧ bo.blexit.list.Perm bo.list := by
  obtain ⟨bo', l, hs, hlist, hp, hhead, heq⟩ := h.exists_blexit
  rw [heq]
  exact ⟨(h.exitSteps hs).reorder (hlist ▸ hp) (hlist ▸ hhead), hp⟩

-- Moving exit blocks keeps what a function does.
theorem blexit_preserves (h : WellFormed bo) : Preserves I bo bo.blexit := by
  obtain ⟨bo', l, hs, hlist, hp, hhead, heq⟩ := h.exists_blexit
  rw [heq]
  exact (exitSteps_preserves h hs).trans (.reorder (h.exitSteps hs) (hlist ▸ hp) (hlist ▸ hhead))

end BlockOpt

end Compiler.Backend
