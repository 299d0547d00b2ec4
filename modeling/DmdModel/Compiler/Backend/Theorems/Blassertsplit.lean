import DmdModel.Compiler.Backend.Theorems.Bltailmerge
import DmdModel.Compiler.Backend.Theorems.Blident

namespace Compiler.Backend

open Lockstep

variable {n : Nat}

namespace Block

variable {blk blk' : Block Nat n}

theorem bc_of_code (h : blk.code = blk') : blk.bc = blk'.bc :=
  (congrArg Block.bc h :)

theorem Belem_of_code (h : blk.code = blk') : blk.Belem = blk'.Belem :=
  (congrArg Block.Belem h :)

theorem Bsucc_of_code (h : blk.code = blk') : blk.Bsucc = blk'.Bsucc :=
  (congrArg Block.Bsucc h :)

end Block

namespace Elem

variable {e : Elem n} {l l' : List (Elem n)}

theorem bl_delist2_concat : bl_delist2 (l ++ [e]) = el_combine (bl_delist2 l) (some e) := by
  simp [bl_delist2]

theorem bl_delist2_eq_none_iff : bl_delist2 l = none ↔ l = [] := by
  cases l using List.reverseRecOn with
  | nil => simp [bl_delist2]
  | append_singleton l e =>
    rw [bl_delist2_concat]
    cases bl_delist2 l <;> simp [el_combine]

theorem bl_enlist2_ne_nil : e.bl_enlist2 ≠ [] := by
  induction e using bl_enlist2.induct with
  | case1 ty ET E1 E2 ih₁ ih₂ => simp [bl_enlist2, ih₁]
  | case2 e hne               => simp [bl_enlist2.eq_2 e hne]

-- The expression is split off after dctors of which so many have no ddtor yet.
def splits (dctor : Nat) (e : Elem n) : Bool :=
  dctor = 0 && e.assertion.any fun E => E.1.accumDctor = 0

def dctorAfter (dctor : Nat) (e : Elem n) : Nat :=
  if e.splits dctor then 0 else dctor + e.accumDctor

theorem splits_iff {dctor : Nat} : e.splits dctor ↔
    dctor = 0 ∧ ∃ E1 E2, e.assertion = some (E1, E2) ∧ E1.accumDctor = 0 := by
  simp [splits, Option.any_eq_true]

end Elem

namespace Interp

variable {σ V E : Type} {I : Interp n σ V E} {e E1 E2 : Elem n} {elems rest l : List (Elem n)} {u : σ}

theorem evalBlock_combine {x : Option (Elem n)} : I.evalBlock (el_combine x (some e)) u =
    (I.evalBlock x u).bind fun u _ => I.evalBlock (some e) u := by
  cases x with
  | none => simp [el_combine, evalBlock]
  | some e' => simp [el_combine, evalBlock, I.comma, Result.bind_assoc]

-- A list of expressions evaluates in its order.
theorem evalBlock_append (h : rest ≠ []) : I.evalBlock (Elem.bl_delist2 (elems ++ rest)) u =
    (I.evalBlock (Elem.bl_delist2 elems) u).bind fun u _ => I.evalBlock (Elem.bl_delist2 rest) u := by
  induction rest using List.reverseRecOn with
  | nil => exact absurd rfl h
  | append_singleton rest e ih =>
    rw [← List.append_assoc, Elem.bl_delist2_concat, evalBlock_combine]
    by_cases hr : rest = []
    case pos => simp [hr, Elem.bl_delist2, el_combine]
    case neg => simp only [ih hr, Result.bind_assoc, Elem.bl_delist2_concat, evalBlock_combine]

-- The expressions of a comma expression mean the same in a row.
theorem evalBlock_enlist : I.evalBlock (Elem.bl_delist2 e.bl_enlist2) u = I.evalBlock (some e) u := by
  induction e using Elem.bl_enlist2.induct generalizing u with
  | case1 ty ET E1 E2 ih₁ ih₂ =>
    rw [Elem.bl_enlist2, evalBlock_append Elem.bl_enlist2_ne_nil, ih₁]
    simp only [ih₂]
    simp only [evalBlock, I.comma, Result.bind_assoc, Result.pure_bind]
  | case2 e hne =>
    rw [Elem.bl_enlist2.eq_2 e hne]
    rfl

theorem assertion_eq (h : e.assertion = some (E1, E2)) :
    ∃ ty ET, e = .binary .oror ty ET E1 E2 ∧ I.NeverReturns E2 := by
  unfold Elem.assertion at h
  split at h
  case h_2 => cases h
  case h_1 =>
    split at h
    case isFalse => cases h
    case isTrue hf =>
      cases h
      exact ⟨_, _, rfl, neverReturns_of_callsExit hf⟩

-- What evaluates before an assertion, and its condition.
def upTo (I : Interp n σ V E) (elems : List (Elem n)) (E1 : Elem n) (u : σ) : Result σ V E :=
  (I.evalBlock (Elem.bl_delist2 elems) u).bind fun u _ => I.eval E1 u

theorem evalBlock_upTo : I.evalBlock (Elem.bl_delist2 (elems ++ [E1])) u =
    (I.upTo elems E1 u).bind fun u v => .pure u (some v) := by
  rw [Elem.bl_delist2_concat, evalBlock_combine, upTo, Result.bind_assoc]
  rfl

-- The rest is evaluated only if the condition holds.
theorem evalBlock_assertion (h : e.assertion = some (E1, E2)) :
    I.evalBlock (Elem.bl_delist2 (elems ++ e :: rest)) u =
      (I.upTo elems E1 u).bind fun u v =>
        if I.truth v then
          if rest = [] then .pure u (some (I.bool true)) else I.evalBlock (Elem.bl_delist2 rest) u
        else
          I.evalBlock (some E2) u := by
  obtain ⟨ty, ET, rfl, hn⟩ := assertion_eq (I := I) h
  have hlast (u : σ) : I.evalBlock (some (.binary .oror ty ET E1 E2)) u =
      (I.eval E1 u).bind fun u v =>
        if I.truth v then .pure u (some (I.bool true)) else I.evalBlock (some E2) u := by
    rw [evalBlock, I.oror, Result.bind_assoc]
    congr 1
    funext u v
    split
    case isTrue => rw [Result.pure_bind]
    case isFalse =>
      obtain ⟨t, ht⟩ := hn.eval_eq (s := u)
      rw [evalBlock, Result.bind_assoc, Result.bind_eq_none ht, Result.bind_eq_none ht]
  rw [← List.singleton_append, ← List.append_assoc]
  by_cases hr : rest = []
  case pos =>
    rw [hr, List.append_nil, Elem.bl_delist2_concat, evalBlock_combine, upTo, Result.bind_assoc]
    simp only [hlast, if_true]
  case neg =>
    rw [evalBlock_append hr, Elem.bl_delist2_concat, evalBlock_combine, upTo]
    simp only [hlast, Result.bind_assoc, if_neg hr]
    congr 1
    funext u _
    congr 1
    funext u v
    split
    case isTrue => rw [Result.pure_bind]
    case isFalse =>
      obtain ⟨t, ht⟩ := hn.eval_eq (s := u)
      have hE2 : I.evalBlock (some E2) u = (t, none) := Result.bind_eq_none ht
      rw [hE2, Result.bind]

end Interp

namespace BlockOpt

variable {bo bo' : BlockOpt n} {b c s x y : Nat} {e E1 E2 : Elem n} {elems rest l : List (Elem n)}

section newBlocks

theorem AssertSplit.code_cases (hsp : AssertSplit b elems E1 E2 bo bo') (x : Nat) :
    x = b ∧ (bo'.block x).code = { (bo.block b).code with
      bc := .iftrue, Belem := Elem.bl_delist2 (elems ++ [E1]), Bsucc := [bo.fresh + 1, bo.fresh] } ∨
    x = bo.fresh ∧ (bo'.block x).code = { bc := .exit, Belem := some E2 } ∨
    x = bo.fresh + 1 ∧ (bo'.block x).code =
      { bc := (bo.block b).bc, Bsucc := (bo.block b).Bsucc, Bswitch := (bo.block b).Bswitch } ∨
    (x ≠ b ∧ x ≠ bo.fresh ∧ x ≠ bo.fresh + 1) ∧ (bo'.block x).code = (bo.block x).code := by
  by_cases hxb : x = b
  case pos => exact .inl ⟨hxb, hxb ▸ hsp.self⟩
  case neg =>
    by_cases hx : x = bo.fresh
    case pos => exact .inr (.inl ⟨hx, hx ▸ hsp.exit⟩)
    case neg =>
      by_cases hx2 : x = bo.fresh + 1
      case pos => exact .inr (.inr (.inl ⟨hx2, hx2 ▸ hsp.new⟩))
      case neg => exact .inr (.inr (.inr ⟨⟨hxb, hx, hx2⟩, hsp.other x hxb hx hx2⟩))

theorem AssertSplit.newBlocks (hsp : AssertSplit b elems E1 E2 bo bo') (h : WellFormed bo)
    (hb : b < bo.fresh) :
    NewBlocks (· = b) (fun x => x = bo.fresh ∨ x = bo.fresh + 1) bo bo' where
  start := by
    obtain ⟨start, hs, -⟩ := h.start
    rw [startblock, hsp.list, insertAfter_head?, List.head?_append_of_ne_nil]
    case _ => rfl
    case _ =>
      rintro hnil
      rw [startblock, hnil] at hs
      cases hs
  nodup := by
    have hnd : (bo.list ++ [bo.fresh]).Nodup := List.nodup_append'.mpr ⟨h.nodup, by simp, fun x hx hx' =>
      h.fresh_not_mem_list le_rfl (List.mem_singleton.mp hx' ▸ hx)⟩
    rw [hsp.list]
    refine insertAfter_nodup hnd fun hm => ?_
    obtain hm | hm := List.mem_append.mp hm
    case inl => exact h.fresh_not_mem_list (Nat.le_succ _) hm
    case inr => simp at hm
  keeps x hx := by
    rw [hsp.list]
    exact insertAfter_mem.mpr (.inl (List.mem_append_left _ hx))
  listed x y hx hy hm := by
    rw [hsp.list]
    obtain rfl | rfl := hx
    case inl => exact insertAfter_mem.mpr (.inl (by simp))
    case inr => exact insertAfter_mem.mpr (.inr ⟨rfl, List.mem_append_left _ (hy ▸ hm)⟩)
  only x hx := by
    rw [hsp.list] at hx
    obtain hx | ⟨hx, -⟩ := insertAfter_mem.mp hx
    case inl =>
      exact (List.mem_append.mp hx).imp_right fun hx => .inl (List.mem_singleton.mp hx)
    case inr => exact .inr (.inr hx)
  fresh := by
    rw [hsp.fresh]
    omega
  isNew x hx := by
    rw [hsp.fresh]
    omega
  isOld x hx := hx ▸ hb
  edge x y hxy := by
    obtain ⟨hx, hc⟩ | ⟨hx, hc⟩ | ⟨hx, hc⟩ | ⟨⟨-, hx, hx2⟩, hc⟩ := hsp.code_cases x
    all_goals rw [Edge, Block.Bsucc_of_code hc] at hxy
    case inl =>
      refine .inl ⟨?_, .inl hx⟩
      obtain hy | hy := List.mem_pair.mp hxy
      case inl => exact .inr hy
      case inr => exact .inl hy
    case inr.inl         => cases hxy
    case inr.inr.inl     => exact .inr (.inr ⟨.inr hx, ⟨b, rfl⟩, fun z hz => hz ▸ hxy⟩)
    case inr.inr.inr     => exact .inr (.inl ⟨not_or.mpr ⟨hx, hx2⟩, hxy⟩)
  same x hx := by
    obtain ⟨hxb, hx⟩ := not_or.mp hx
    obtain ⟨hxf, hxf2⟩ := not_or.mp hx
    refine ⟨hsp.other x hxb hxf hxf2, fun s => ?_⟩
    rw [hsp.preds]
    split
    case isTrue hs =>
      have hs' : bo.fresh ≤ s := by omega
      rw [predCount, h.fresh_Bpred hs', List.count_nil]
      exact List.count_eq_zero.mpr fun hm => hxb (List.mem_singleton.mp hm)
    case isFalse => exact Nat.add_zero _
  counts x hx s := by
    have hnew {y : Nat} (hy : bo.fresh ≤ y) : [b].count y = 0 :=
      List.count_eq_zero.mpr fun hm => Nat.not_lt.mpr hy (List.mem_singleton.mp hm ▸ hb)
    rw [hsp.preds, succCount]
    obtain rfl | rfl | rfl := hx
    case inl =>
      rw [Block.Bsucc_of_code hsp.self]
      by_cases hs : s = bo.fresh ∨ s = bo.fresh + 1
      case pos =>
        rw [if_pos hs]
        obtain rfl | rfl := hs
        case inl => simp
        case inr => simp
      case neg =>
        obtain ⟨hs, hs2⟩ := not_or.mp hs
        simp [hs, hs2, Ne.symm hs, Ne.symm hs2]
    case inr.inl =>
      rw [Block.Bsucc_of_code hsp.exit, hnew le_rfl, h.fresh_predCount le_rfl]
      simp [hb.ne']
    case inr.inr =>
      rw [Block.Bsucc_of_code hsp.new, hnew (Nat.le_succ _), h.fresh_predCount (Nat.le_succ _),
        if_neg (hb.trans (Nat.lt_succ_self _)).ne', if_pos rfl, Nat.zero_add, ← h.edges, succCount]
      split
      case isTrue hs =>
        exact List.count_eq_zero.mpr (h.fresh_not_mem_Bsucc (by omega))
      case isFalse => rfl
  arity x hx := by
    obtain rfl | rfl | rfl := hx
    case inl     => rw [Block.Arity, Block.bc_of_code hsp.self, Block.Bsucc_of_code hsp.self]; rfl
    case inr.inl => rw [Block.Arity, Block.bc_of_code hsp.exit, Block.Bsucc_of_code hsp.exit]; rfl
    case inr.inr =>
      rw [Block.Arity, Block.bc_of_code hsp.new, Block.Bsucc_of_code hsp.new]
      exact h.arity b

end newBlocks

section finish

-- The expression of a block that has none left: what returns a value returns true.
def withValue (bc : BC) : Option (Elem n) → Option (Elem n)
  | none => if bc = .retexp then some (.const TYint (.integral 1)) else none
  | some e => some e

-- The blocks when the rest of the expressions is left where it is.
def finish (st : Splitting n) (rest : List (Elem n)) : BlockOpt n :=
  st.bo.modify st.b fun blk =>
    { blk with Belem := withValue blk.bc (Elem.bl_delist2 (st.elems ++ rest)) }

-- The expressions of a block.
def exprs (blk : Block Nat n) : List (Elem n) :=
  (blk.Belem.map Elem.bl_enlist2).getD []

theorem finish_eq (st : Splitting n) : finish st [] =
    let bo := st.bo.modify st.b fun blk => { blk with Belem := Elem.bl_delist2 st.elems }
    if (bo.block st.b).bc = .retexp ∧ (bo.block st.b).Belem = none then
      bo.modify st.b fun blk => { blk with Belem := some (.const TYint (.integral 1)) }
    else
      bo := by
  rw [finish, List.append_nil]
  dsimp only
  rw [modify_block_self]
  cases hB : Elem.bl_delist2 st.elems with
  | some e => simp [withValue]
  | none =>
    by_cases hr : (st.bo.block st.b).bc = .retexp
    case pos => simp [withValue, hr, modify]
    case neg =>
      simp only [hr, false_and, if_false, modify]
      congr 2
      simp [withValue, hr]

theorem blassertsplitBlock_eq (hbc : (bo.block b).bc ≠ .exit) : bo.blassertsplitBlock b =
    finish ((exprs (bo.block b)).foldl blassertsplitElem { bo := bo, b := b }) [] := by
  rw [blassertsplitBlock, if_neg hbc, finish_eq]
  rfl

theorem withValue_of_ne_nil {bc : BC} (h : l ≠ []) :
    withValue bc (Elem.bl_delist2 l) = Elem.bl_delist2 l := by
  cases hl : Elem.bl_delist2 l with
  | none   => exact absurd (Elem.bl_delist2_eq_none_iff.mp hl) h
  | some _ => rfl

theorem bl_delist2_isSome (h : l ≠ []) : (Elem.bl_delist2 l).isSome := by
  rw [Option.isSome_iff_ne_none]
  exact mt Elem.bl_delist2_eq_none_iff.mp h

end finish

section split

variable {st : Splitting n}

theorem blassertsplitElem_keep (h : ¬e.splits st.dctor) : blassertsplitElem st e =
    { st with elems := st.elems ++ [e], dctor := st.dctor + e.accumDctor } := by
  rw [Elem.splits_iff] at h
  unfold blassertsplitElem
  dsimp only
  split
  case isFalse => rfl
  case isTrue hd =>
    split
    case h_2 => rfl
    case h_1 E1 E2 ha =>
      rw [if_neg fun hz => h ⟨hd, E1, E2, ha, hz⟩]

theorem blassertsplitElem_split (h : e.splits st.dctor) :
    ∃ E1 E2, e.assertion = some (E1, E2) ∧ blassertsplitElem st e =
      { bo := st.bo.splitAssert st.b st.elems E1 E2, b := st.bo.fresh + 1 } := by
  obtain ⟨hd, E1, E2, ha, hz⟩ := Elem.splits_iff.mp h
  refine ⟨E1, E2, ha, ?_⟩
  unfold blassertsplitElem
  simp only [hd, if_true, ha, hz]

theorem blassertsplitElem_dctor :
    (blassertsplitElem st e).dctor = Elem.dctorAfter st.dctor e := by
  by_cases hs : e.splits st.dctor
  case pos =>
    obtain ⟨E1, E2, -, heq⟩ := blassertsplitElem_split hs
    rw [heq, Elem.dctorAfter, if_pos hs]
  case neg => rw [blassertsplitElem_keep hs, Elem.dctorAfter, if_neg hs]

theorem foldl_blassertsplitElem_dctor :
    (l.foldl blassertsplitElem st).dctor = l.foldl Elem.dctorAfter st.dctor := by
  induction l generalizing st with
  | nil         => rfl
  | cons e l ih => rw [List.foldl_cons, ih, blassertsplitElem_dctor, List.foldl_cons]

-- A block that can be split.
structure Ready (st : Splitting n) : Prop where
  wellFormed : WellFormed st.bo
  lt         : st.b < st.bo.fresh
  bc         : (st.bo.block st.b).bc ≠ .exit

namespace Ready

variable (h : Ready st)

include h

theorem finish_wellFormed : WellFormed (finish st rest) := by
  refine h.wellFormed.of_perm h.lt (.modify (by intro _; rfl))
    (fun _ => modify_predCount (by intro _; rfl)) (.of_eq ?_) ?_
  all_goals rw [finish, modify_block_self]

theorem splitAssert : AssertSplit st.b st.elems E1 E2 st.bo (st.bo.splitAssert st.b st.elems E1 E2) :=
  h.wellFormed.splitAssert_spec h.lt

theorem elem : Ready (blassertsplitElem st e) ∧
    ((blassertsplitElem st e).bo.block (blassertsplitElem st e).b).bc = (st.bo.block st.b).bc ∧
    st.bo.fresh ≤ (blassertsplitElem st e).bo.fresh := by
  by_cases hs : e.splits st.dctor
  case neg =>
    rw [blassertsplitElem_keep hs]
    exact ⟨⟨h.wellFormed, h.lt, h.bc⟩, rfl, le_rfl⟩
  case pos =>
    obtain ⟨E1, E2, -, heq⟩ := blassertsplitElem_split hs
    have hsp : AssertSplit st.b st.elems E1 E2 st.bo _ := h.splitAssert
    have hbc := Block.bc_of_code hsp.new
    rw [heq]
    have hnew := hsp.newBlocks h.wellFormed h.lt
    refine ⟨⟨hnew.wellFormed h.wellFormed, ?_, ?_⟩, hbc, hnew.fresh⟩
    case refine_1 => exact hsp.fresh ▸ Nat.lt_succ_self _
    case refine_2 => exact hbc ▸ h.bc

theorem foldl (l : List (Elem n)) : Ready (l.foldl blassertsplitElem st) ∧
    ((l.foldl blassertsplitElem st).bo.block (l.foldl blassertsplitElem st).b).bc
      = (st.bo.block st.b).bc ∧
    st.bo.fresh ≤ (l.foldl blassertsplitElem st).bo.fresh := by
  induction l generalizing st with
  | nil => exact ⟨h, rfl, le_rfl⟩
  | cons e l ih =>
    obtain ⟨he, hbc, hle⟩ := h.elem (e := e)
    obtain ⟨hl, hbc', hle'⟩ := ih he
    exact ⟨hl, hbc'.trans hbc, hle.trans hle'⟩

end Ready

end split

section behaviour

variable {σ V E : Type} {I : Interp n σ V E} {u : σ} {st : Splitting n}

-- What the new block does in the place of the old one when the condition holds.
theorem conclude_rest (blk blk' : Block Nat n) (rest : List (Elem n)) (hbc : blk'.bc = blk.bc)
    (hs : blk'.Bsucc = blk.Bsucc) (hsw : blk'.Bswitch = blk.Bswitch) (hne : blk.bc ≠ .exit)
    (hlast : rest = [] → blk.bc ≠ .iftrue ∧ blk.bc ≠ .switch_) :
    Interp.conclude (I.next blk') (I.evalBlock (withValue blk.bc (Elem.bl_delist2 rest)) u) =
      Interp.conclude (I.next blk)
        (if rest = [] then .pure u (some (I.bool true)) else I.evalBlock (Elem.bl_delist2 rest) u) := by
  have hnext : I.next blk' = I.next blk := by
    funext v
    have hs' : blk'.Bsucc = blk.Bsucc.map id := by rw [hs, List.map_id]
    rw [next_map hbc (fun _ => hsw) hs', Sum.map_id_id, id]
  rw [hnext]
  split
  case isFalse hr => rw [withValue_of_ne_nil hr]
  case isTrue hr =>
    obtain ⟨hif, hswitch⟩ := hlast hr
    subst hr
    have hwith : withValue blk.bc (Elem.bl_delist2 ([] : List (Elem n))) =
        if blk.bc = .retexp then some (.const TYint (.integral 1)) else none := rfl
    rw [hwith]
    split
    case isTrue hret =>
      rw [Interp.evalBlock, I.const, Result.pure_bind, I.bool_true]
    case isFalse hret =>
      have hv : I.next blk none = I.next blk (some (I.bool true)) := by
        unfold Interp.next
        cases hb : blk.bc with
        | goto_ | ret => rfl
        | iftrue  => exact absurd hb hif
        | switch_ => exact absurd hb hswitch
        | retexp  => exact absurd hb hret
        | exit    => exact absurd hb hne
      rw [Interp.evalBlock, Result.pure, Result.pure, Interp.conclude, Interp.conclude, hv]

-- What the blocks are when an expression is split off.
structure SplitOff (st : Splitting n) (e : Elem n) (rest : List (Elem n)) (E1 E2 : Elem n)
    (bo bo' : BlockOpt n) : Prop where
  old   : (bo.block st.b).code = { (st.bo.block st.b).code with
    Belem := Elem.bl_delist2 (st.elems ++ e :: rest) }
  self  : (bo'.block st.b).code = { (st.bo.block st.b).code with
    bc := .iftrue
    Belem := Elem.bl_delist2 (st.elems ++ [E1])
    Bsucc := [st.bo.fresh + 1, st.bo.fresh] }
  exit  : (bo'.block st.bo.fresh).code = { bc := .exit, Belem := some E2 }
  new   : (bo'.block (st.bo.fresh + 1)).code =
    { bc      := (st.bo.block st.b).bc
      Belem   := withValue (st.bo.block st.b).bc (Elem.bl_delist2 rest)
      Bsucc   := (st.bo.block st.b).Bsucc
      Bswitch := (st.bo.block st.b).Bswitch }
  other : ∀ x, x ≠ st.b → x ≠ st.bo.fresh → x ≠ st.bo.fresh + 1 →
    (bo'.block x).code = (bo.block x).code

theorem Ready.splitOff (h : Ready st) : SplitOff st e rest E1 E2 (finish st (e :: rest))
    (finish { bo := st.bo.splitAssert st.b st.elems E1 E2, b := st.bo.fresh + 1 } rest) := by
  have hsp : AssertSplit st.b st.elems E1 E2 st.bo _ := h.splitAssert
  have hne : st.b ≠ st.bo.fresh + 1 := by
    have := h.lt
    omega
  refine ⟨?_, ?_, ?_, ?_, fun x hxb hx hx2 => ?_⟩
  case refine_1 =>
    rw [finish, modify_block_self, withValue_of_ne_nil (by simp)]
    rfl
  case refine_2 =>
    rw [finish, modify_block_of_ne hne]
    exact hsp.self
  case refine_3 =>
    rw [finish, modify_block_of_ne (Nat.lt_succ_self _).ne]
    exact hsp.exit
  case refine_4 =>
    rw [finish, modify_block_self]
    exact congrArg (fun blk : Block Nat n =>
      { blk with Belem := withValue blk.bc (Elem.bl_delist2 rest) }) hsp.new
  case refine_5 =>
    rw [finish, finish, modify_block_of_ne hx2, modify_block_of_ne hxb]
    exact hsp.other x hxb hx hx2

-- The two blocks do together what the old one did.
theorem SplitOff.run_two (h : SplitOff st e rest E1 E2 bo bo') (ha : e.assertion = some (E1, E2))
    (hne : (st.bo.block st.b).bc ≠ .exit)
    (hlast : rest = [] → (st.bo.block st.b).bc ≠ .iftrue ∧ (st.bo.block st.b).bc ≠ .switch_) :
    run (I.step bo') 2 (st.b, u) = I.step bo (st.b, u) := by
  have hold : I.step bo (st.b, u) = Interp.conclude (I.next (bo.block st.b))
      ((I.upTo st.elems E1 u).bind fun u v =>
        if I.truth v then
          if rest = [] then .pure u (some (I.bool true)) else I.evalBlock (Elem.bl_delist2 rest) u
        else
          I.evalBlock (some E2) u) := by
    rw [Interp.step_eq_conclude, Block.Belem_of_code h.old, Interp.evalBlock_assertion ha]
  have hself : I.evalBlock (bo'.block st.b).Belem u =
      (I.upTo st.elems E1 u).bind fun u v => .pure u (some v) := by
    rw [Block.Belem_of_code h.self, Interp.evalBlock_upTo]
  obtain ⟨t, ht⟩ | ⟨t, u', v, ht⟩ := (I.upTo st.elems E1 u).cases
  case inl =>
    have hnone : I.step bo' (st.b, u) = (t, .inr .exited) :=
      Interp.step_eq_none (hself.trans (Result.bind_eq_none ht))
    rw [run_step_ended hnone, hold, Result.bind_eq_none ht, Interp.conclude]
  case inr =>
    have hgo : I.step bo' (st.b, u) =
        (t, .inl (if I.truth v then st.bo.fresh + 1 else st.bo.fresh, u')) := by
      refine Interp.step_eq_go (v := some v) ?_ ?_
      case refine_1 => rw [hself, Result.bind_eq_some ht, Result.pure, List.append_nil]
      case refine_2 =>
        rw [next_iftrue (Block.bc_of_code h.self), Interp.next.goOn, Block.Bsucc_of_code h.self]
        cases I.truth v <;> rfl
    rw [run_step_add hgo, run_one, hold, Interp.conclude_bind ht]
    by_cases hv : I.truth v
    case pos =>
      have hrest := conclude_rest (I := I) (u := u') (bo.block st.b) (bo'.block (st.bo.fresh + 1)) rest
        ((Block.bc_of_code h.new).trans (Block.bc_of_code h.old).symm)
        ((Block.Bsucc_of_code h.new).trans (Block.Bsucc_of_code h.old).symm)
        ((congrArg Block.Bswitch h.new :).trans (congrArg Block.Bswitch h.old :).symm)
        (Block.bc_of_code h.old ▸ hne) (Block.bc_of_code h.old ▸ hlast)
      rw [if_pos hv, if_pos hv, ← hrest, Interp.step_eq_conclude, Block.Belem_of_code h.new,
        Block.bc_of_code h.old]
      rfl
    case neg =>
      obtain ⟨ty, ET, -, hn⟩ := Interp.assertion_eq (I := I) ha
      obtain ⟨t₂, ht₂⟩ := hn.eval_eq (s := u')
      have hE2 : I.evalBlock (some E2) u' = (t₂, none) := Result.bind_eq_none ht₂
      have hexit : I.step bo' (st.bo.fresh, u') = (t₂, .inr .exited) :=
        Interp.step_eq_none (by rw [Block.Belem_of_code h.exit]; exact hE2)
      rw [if_neg hv, if_neg hv, hexit, hE2, Interp.conclude]

-- Splitting off an expression keeps what the function does, unless a branch loses its expression.
theorem Ready.elem_preserves (h : Ready st) (hlast : e.splits st.dctor → rest = [] →
      (st.bo.block st.b).bc ≠ .iftrue ∧ (st.bo.block st.b).bc ≠ .switch_) :
    Preserves I (finish st (e :: rest)) (finish (blassertsplitElem st e) rest) := by
  by_cases hs : e.splits st.dctor
  case neg =>
    have heq : finish (blassertsplitElem st e) rest = finish st (e :: rest) := by
      rw [blassertsplitElem_keep hs, finish, finish, List.append_assoc, List.singleton_append]
    rw [heq]
    exact .refl h.finish_wellFormed
  case pos =>
    have hready := (h.elem (e := e)).left
    obtain ⟨E1, E2, ha, heq⟩ := blassertsplitElem_split hs
    have hoff : SplitOff st e rest E1 E2 (finish st (e :: rest)) (finish (blassertsplitElem st e) rest) :=
      heq ▸ h.splitOff
    have hsp : AssertSplit st.b st.elems E1 E2 st.bo _ := h.splitAssert
    have hnew := hsp.newBlocks h.wellFormed h.lt
    refine ⟨hready.finish_wellFormed, fun hsup x hbc => ?_, ?_, ?_, fun x hx u => ?_⟩
    case refine_1 =>
      by_cases hxb : x = st.b
      case pos =>
        rw [hxb, Block.Belem_of_code hoff.self]
        exact bl_delist2_isSome (by simp)
      case neg =>
        by_cases hx : x = st.bo.fresh
        case pos =>
          rw [hx, Block.bc_of_code hoff.exit] at hbc
          simp at hbc
        case neg =>
          by_cases hx2 : x = st.bo.fresh + 1
          case neg =>
            rw [Block.code_bc (hoff.other x hxb hx hx2)] at hbc
            rw [Block.code_Belem (hoff.other x hxb hx hx2)]
            exact hsup x hbc
          case pos =>
            rw [hx2, Block.bc_of_code hoff.new] at hbc
            rw [hx2, Block.Belem_of_code hoff.new]
            dsimp only at hbc ⊢
            by_cases hr : rest = []
            case neg =>
              rw [withValue_of_ne_nil hr]
              exact bl_delist2_isSome hr
            case pos =>
              obtain ⟨hif, hsw⟩ := hlast hs hr
              have hret := (hbc.resolve_left hif).resolve_left hsw
              rw [hr, hret]
              rfl
    case refine_2 =>
      rw [heq]
      exact hnew.start
    case refine_3 =>
      rw [heq]
      exact hnew.fresh
    case refine_4 =>
      -- No run is at one of the new blocks before it is at the old one.
      have hlt : x < st.bo.fresh := hx
      refine runs_of_matches (P := fun x => x ≠ st.bo.fresh ∧ x ≠ st.bo.fresh + 1)
        (fun c u hc => ?_) ⟨hlt.ne, (hlt.trans (Nat.lt_succ_self _)).ne⟩
      have hwf : WellFormed (finish st (e :: rest)) := h.finish_wellFormed
      have htarget (x : Nat) (hx : (finish st (e :: rest)).Targets c x) :
          x ≠ st.bo.fresh ∧ x ≠ st.bo.fresh + 1 := by
        have hle : ¬(finish st (e :: rest)).fresh ≤ x := fun hle => hwf.fresh_not_edge hle hx.edge
        have hfresh : (finish st (e :: rest)).fresh = st.bo.fresh := rfl
        rw [hfresh] at hle
        omega
      by_cases hcb : c = st.b
      case neg => exact matches_elsewhere (hoff.other c hcb hc.left hc.right) htarget
      case pos =>
        rw [hcb] at htarget ⊢
        have hrun := hoff.run_two (I := I) (u := u) ha h.bc (hlast hs)
        refine .of_run (i := 0) (j := 1) (by rw [run_one, hrun]) fun y hy => ?_
        rw [run_one] at hy
        exact htarget _ (step_targets (Prod.ext rfl hy))

-- All expressions of a block.
theorem Ready.foldl_preserves (h : Ready st) (l : List (Elem n))
    (hlast : ((st.bo.block st.b).bc = .iftrue ∨ (st.bo.block st.b).bc = .switch_) →
      ∀ l' e, l = l' ++ [e] → ¬e.splits (l'.foldl Elem.dctorAfter st.dctor)) :
    Preserves I (finish st l) (finish (l.foldl blassertsplitElem st) []) := by
  induction l generalizing st with
  | nil => exact .refl h.finish_wellFormed
  | cons e l ih =>
    obtain ⟨hready, hbc, -⟩ := h.elem (e := e)
    refine (h.elem_preserves fun hs hl => ?_).trans (ih hready fun hb l' e' hl => ?_)
    case refine_1 =>
      subst hl
      refine not_or.mp fun hb => ?_
      exact hlast hb [] e rfl hs
    case refine_2 =>
      rw [hbc] at hb
      rw [blassertsplitElem_dctor]
      exact hlast hb (e :: l') e' (congrArg (e :: ·) hl)

end behaviour

section blassertsplit

variable {st : Splitting n}

-- The value that a block branches by is that of an expression that is split off.
def SplitsLast (blk : Block Nat n) : Prop :=
  (blk.bc = .iftrue ∨ blk.bc = .switch_) ∧
    ∃ l e, exprs blk = l ++ [e] ∧ e.splits (l.foldl Elem.dctorAfter 0)

theorem splitsLast_congr {blk blk' : Block Nat n} (h : blk.code = blk'.code) :
    SplitsLast blk ↔ SplitsLast blk' := by
  rw [SplitsLast, SplitsLast, exprs, exprs, Block.code_bc h, Block.code_Belem h]

-- What is not split stays as it is.
theorem Ready.foldl_code (h : Ready st) (l : List (Elem n)) (hx : x < st.bo.fresh) (hxb : x ≠ st.b) :
    ((l.foldl blassertsplitElem st).bo.block x).code = (st.bo.block x).code ∧
      x ≠ (l.foldl blassertsplitElem st).b := by
  induction l generalizing st with
  | nil => exact ⟨rfl, hxb⟩
  | cons e l ih =>
    have hready := (h.elem (e := e)).left
    by_cases hs : e.splits st.dctor
    case neg =>
      have hkeep : blassertsplitElem st e = _ := blassertsplitElem_keep hs
      rw [List.foldl_cons]
      rw [hkeep] at hready ⊢
      exact ih hready hx hxb
    case pos =>
      obtain ⟨E1, E2, -, heq⟩ := blassertsplitElem_split hs
      have hsp : AssertSplit st.b st.elems E1 E2 st.bo _ := h.splitAssert
      rw [List.foldl_cons]
      rw [heq] at hready ⊢
      obtain ⟨hcode, hne⟩ := ih hready (by rw [hsp.fresh]; omega) (by dsimp only; omega)
      exact ⟨hcode.trans (hsp.other x hxb (by omega) (by omega)), hne⟩

theorem Ready.of_block (h : WellFormed bo) (hb : b < bo.fresh) (hbc : (bo.block b).bc ≠ .exit) :
    Ready ({ bo := bo, b := b } : Splitting n) where
  wellFormed := h
  lt         := hb
  bc         := hbc

theorem blassertsplitBlock_code (h : WellFormed bo) (hb : b < bo.fresh) (hx : x < bo.fresh)
    (hxb : x ≠ b) : ((bo.blassertsplitBlock b).block x).code = (bo.block x).code := by
  by_cases hbc : (bo.block b).bc = .exit
  case pos => rw [blassertsplitBlock, if_pos hbc]
  case neg =>
    obtain ⟨hcode, hne⟩ := (Ready.of_block h hb hbc).foldl_code (exprs (bo.block b)) hx hxb
    rw [blassertsplitBlock_eq hbc, finish, modify_block_of_ne hne]
    exact hcode

theorem WellFormed.blassertsplitBlock (h : WellFormed bo) (hb : b < bo.fresh) :
    WellFormed (bo.blassertsplitBlock b) ∧ bo.fresh ≤ (bo.blassertsplitBlock b).fresh := by
  by_cases hbc : (bo.block b).bc = .exit
  case pos =>
    rw [BlockOpt.blassertsplitBlock, if_pos hbc]
    exact ⟨h, le_rfl⟩
  case neg =>
    obtain ⟨hready, -, hle⟩ := (Ready.of_block h hb hbc).foldl (exprs (bo.block b))
    rw [blassertsplitBlock_eq hbc]
    exact ⟨hready.finish_wellFormed, hle⟩

-- A list of blocks, none of which is split twice.
theorem WellFormed.foldl_blassertsplitBlock {l : List Nat} (h : WellFormed bo)
    (hl : ∀ b ∈ l, b < bo.fresh) : WellFormed (l.foldl BlockOpt.blassertsplitBlock bo) ∧
      bo.fresh ≤ (l.foldl BlockOpt.blassertsplitBlock bo).fresh ∧
      ∀ x < bo.fresh, x ∉ l →
        ((l.foldl BlockOpt.blassertsplitBlock bo).block x).code = (bo.block x).code := by
  induction l generalizing bo with
  | nil => exact ⟨h, le_rfl, fun _ _ _ => rfl⟩
  | cons b l ih =>
    obtain ⟨hb, hl⟩ := List.forall_mem_cons.mp hl
    obtain ⟨hwf', hle⟩ := h.blassertsplitBlock hb
    obtain ⟨hwf, hle', hcode⟩ := ih hwf' fun c hc => (hl c hc).trans_le hle
    refine ⟨hwf, hle.trans hle', fun x hx hxl => ?_⟩
    obtain ⟨hxb, hxl⟩ := not_or.mp (List.mem_cons.not.mp hxl)
    exact (hcode x (hx.trans_le hle) hxl).trans (blassertsplitBlock_code h hb hx hxb)

-- The graph stays well formed when asserts are split off.
theorem WellFormed.blassertsplit (h : WellFormed bo) : WellFormed bo.blassertsplit :=
  (h.foldl_blassertsplitBlock h.allocated).left

section behaviour

variable {σ V E : Type} {I : Interp n σ V E}

-- The expressions of a block in a row.
theorem enlisted_preserves (h : WellFormed bo) (hb : b < bo.fresh) (hbc : (bo.block b).bc ≠ .exit)
    (hs : (bo.block b).bc = .retexp → (bo.block b).Belem.isSome) :
    Preserves I bo (finish { bo := bo, b := b } (exprs (bo.block b))) := by
  have hwf : WellFormed (finish { bo := bo, b := b } (exprs (bo.block b))) :=
    (Ready.of_block h hb hbc).finish_wellFormed
  have hself : (finish { bo := bo, b := b } (exprs (bo.block b))).block b = { bo.block b with
      Belem := withValue (bo.block b).bc (Elem.bl_delist2 (exprs (bo.block b))) } := by
    rw [finish, modify_block_self]
    rfl
  have hother (x : Nat) (hx : x ≠ b) :
      (finish { bo := bo, b := b } (exprs (bo.block b))).block x = bo.block x :=
    modify_block_of_ne hx
  have heval (u : σ) : I.evalBlock
      (withValue (bo.block b).bc (Elem.bl_delist2 (exprs (bo.block b)))) u =
        I.evalBlock (bo.block b).Belem u := by
    cases hB : (bo.block b).Belem with
    | none =>
      have hr : (bo.block b).bc ≠ .retexp := fun hr => by simpa [hB] using hs hr
      simp [exprs, hB, Elem.bl_delist2, withValue, hr]
    | some e =>
      have hex : exprs (bo.block b) = e.bl_enlist2 := by rw [exprs, hB]; rfl
      rw [hex, withValue_of_ne_nil Elem.bl_enlist2_ne_nil, Interp.evalBlock_enlist]
  refine ⟨hwf, fun hsup x hxbc => ?_, rfl, le_rfl, fun x _ u => ?_⟩
  case refine_1 =>
    by_cases hx : x = b
    case neg =>
      rw [hother x hx] at hxbc ⊢
      exact hsup x hxbc
    case pos =>
      rw [hx, hself] at hxbc ⊢
      obtain ⟨e, he⟩ := Option.isSome_iff_exists.mp (hsup b hxbc)
      have hex : exprs (bo.block b) = e.bl_enlist2 := by rw [exprs, he]; rfl
      dsimp only
      rw [hex, withValue_of_ne_nil Elem.bl_enlist2_ne_nil]
      exact bl_delist2_isSome Elem.bl_enlist2_ne_nil
  case refine_2 =>
    have hstep : I.step (finish { bo := bo, b := b } (exprs (bo.block b))) = I.step bo := by
      funext c
      obtain ⟨x, u⟩ := c
      by_cases hx : x = b
      case neg => exact Interp.step_congr (congrArg Block.code (hother x hx)) u
      case pos =>
        have hnext : I.next ((finish { bo := bo, b := b } (exprs (bo.block b))).block b) =
            I.next (bo.block b) := by
          rw [hself]
          rfl
        rw [hx, Interp.step_eq_conclude, Interp.step_eq_conclude, hnext, hself]
        dsimp only
        rw [heval]
    rw [hstep]
    exact .refl _

theorem blassertsplitBlock_preserves (h : WellFormed bo) (hb : b < bo.fresh) (hsup : Supplied bo)
    (hs : ¬SplitsLast (bo.block b)) : Preserves I bo (bo.blassertsplitBlock b) := by
  by_cases hbc : (bo.block b).bc = .exit
  case pos =>
    rw [blassertsplitBlock, if_pos hbc]
    exact .refl h
  case neg =>
    rw [blassertsplitBlock_eq hbc]
    refine (enlisted_preserves h hb hbc fun hr => hsup b (.inr (.inr hr))).trans ?_
    refine (Ready.of_block h hb hbc).foldl_preserves _ fun hb l e hl hsplit => ?_
    exact hs ⟨hb, l, e, hl, hsplit⟩

theorem foldl_blassertsplitBlock_preserves {l : List Nat} (h : WellFormed bo) (hsup : Supplied bo)
    (hnd : l.Nodup) (hl : ∀ b ∈ l, b < bo.fresh) (hs : ∀ b ∈ l, ¬SplitsLast (bo.block b)) :
    Preserves I bo (l.foldl blassertsplitBlock bo) := by
  induction l generalizing bo with
  | nil => exact .refl h
  | cons b l ih =>
    obtain ⟨hbl, hnd⟩ := List.nodup_cons.mp hnd
    obtain ⟨hb, hl⟩ := List.forall_mem_cons.mp hl
    obtain ⟨hsb, hs⟩ := List.forall_mem_cons.mp hs
    have hp : Preserves I bo (bo.blassertsplitBlock b) := blassertsplitBlock_preserves h hb hsup hsb
    refine hp.trans (ih hp.wellFormed (hp.supplied hsup) hnd
      (fun c hc => (hl c hc).trans_le hp.fresh) fun c hc => ?_)
    have hcb : c ≠ b := fun hcb => hbl (hcb ▸ hc)
    rw [splitsLast_congr (blassertsplitBlock_code h hb (hl c hc) hcb)]
    exact hs c hc

-- Splitting off asserts keeps what a function does, unless a branch loses its expression.
theorem blassertsplit_preserves (h : WellFormed bo) (hsup : Supplied bo)
    (hs : ∀ b ∈ bo.list, ¬SplitsLast (bo.block b)) : Preserves I bo bo.blassertsplit :=
  foldl_blassertsplitBlock_preserves h hsup h.nodup h.allocated hs

end behaviour

-- A branch by an expression that is split off is left without one.
theorem blassertsplitBlock_lacks (h : WellFormed bo) (hb : b < bo.fresh) (hs : SplitsLast (bo.block b)) :
    ∃ x < (bo.blassertsplitBlock b).fresh, bo.fresh ≤ x ∧
      (((bo.blassertsplitBlock b).block x).bc = .iftrue ∨
        ((bo.blassertsplitBlock b).block x).bc = .switch_) ∧
      ((bo.blassertsplitBlock b).block x).Belem = none := by
  obtain ⟨hbranch, l, e, hl, hsplit⟩ := hs
  have hbc : (bo.block b).bc ≠ .exit := by
    obtain hbc | hbc := hbranch
    all_goals simp [hbc]
  have hready := Ready.of_block h hb hbc
  obtain ⟨hready', hbc', hle⟩ := hready.foldl l
  generalize hst : l.foldl blassertsplitElem { bo := bo, b := b } = st at hready' hbc' hle
  have hd : st.dctor = l.foldl Elem.dctorAfter 0 := hst ▸ foldl_blassertsplitElem_dctor
  obtain ⟨E1, E2, -, heq⟩ := blassertsplitElem_split (hd ▸ hsplit)
  have hoff : SplitOff st e [] E1 E2 _ _ := hready'.splitOff
  have hbcx := Block.bc_of_code hoff.new
  have hBx := Block.Belem_of_code hoff.new
  dsimp only at hbc' hle hbcx hBx
  rw [blassertsplitBlock_eq hbc, hl, List.foldl_concat, hst, heq]
  refine ⟨st.bo.fresh + 1, ?_, by omega, ?_, ?_⟩
  case refine_1 =>
    change _ < (st.bo.splitAssert st.b st.elems E1 E2).fresh
    have hsp : AssertSplit st.b st.elems E1 E2 st.bo _ := hready'.splitAssert
    rw [hsp.fresh]
    omega
  case refine_2 =>
    rw [hbcx, hbc']
    exact hbranch
  case refine_3 =>
    rw [hBx, hbc']
    obtain hb | hb := hbranch
    all_goals rw [hb]; rfl

theorem not_supplied_of_splitsLast (h : WellFormed bo) (hb : b ∈ bo.list)
    (hs : SplitsLast (bo.block b)) : ¬Supplied bo.blassertsplit := by
  intro hsup
  obtain ⟨l₁, l₂, hl⟩ := List.append_of_mem hb
  have hnd := hl ▸ h.nodup
  have halloc := h.allocated
  rw [hl] at halloc
  obtain ⟨h₁, h₂⟩ := List.forall_mem_append.mp halloc
  obtain ⟨hb₀, h₂⟩ := List.forall_mem_cons.mp h₂
  have hbl₁ : b ∉ l₁ := fun hm => (List.nodup_append'.mp hnd).right.right hm List.mem_cons_self
  rw [blassertsplit, hl, List.foldl_append, List.foldl_cons] at hsup
  obtain ⟨hwf₁, hle₁, hcode₁⟩ := h.foldl_blassertsplitBlock h₁
  rw [← splitsLast_congr (hcode₁ b hb₀ hbl₁)] at hs
  have hb₁ := hb₀.trans_le hle₁
  obtain ⟨hwf₂, hle₂⟩ := hwf₁.blassertsplitBlock hb₁
  obtain ⟨x, hx, hle, hbranch, hB⟩ := blassertsplitBlock_lacks hwf₁ hb₁ hs
  obtain ⟨-, -, hcode₃⟩ := hwf₂.foldl_blassertsplitBlock fun c hc =>
    (h₂ c hc).trans_le (hle₁.trans hle₂)
  have hxl : x ∉ l₂ := fun hm => absurd (h₂ x hm) (by omega)
  have hcode := hcode₃ x hx hxl
  have hsome := hsup x ?_
  case _ => rw [Block.code_Belem hcode, hB] at hsome; cases hsome
  case _ =>
    rw [Block.code_bc hcode]
    exact hbranch.imp_right .inl

end blassertsplit

end BlockOpt

end Compiler.Backend
