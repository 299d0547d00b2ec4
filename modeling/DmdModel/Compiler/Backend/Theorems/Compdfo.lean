import DmdModel.Lib.DepthFirst
import DmdModel.Compiler.Backend.BlockOrder
import DmdModel.Compiler.Backend.Theorems.WellFormed
import DmdModel.Lib.Dominators

namespace Compiler.Backend.BlockOpt

open DepthFirst Relation

variable {n : Nat} {bo bo' : BlockOpt n} {b c start : Nat} {dfo : List Nat}

-- The blocks are those that the start block leads to, and their lists of successors and predecessors match.
structure Connected (bo : BlockOpt n) : Prop where
  start     : ∃ b, bo.startblock = some b
  listed    : ∀ b, b ∈ bo.list ↔ bo.Reachable b
  preds     : ∀ s ∈ bo.list, ∀ b, b ∈ (bo.block s).Bpred ↔ b ∈ bo.list ∧ bo.Edge b s
  allocated : ∀ b ∈ bo.list, b < bo.fresh

-- The depth-first order of the blocks: the reverse of the order in which a search from the start block goes
-- back from them, when it takes successors in the order of their lists.
def DepthFirstOrder (bo : BlockOpt n) (start : Nat) (dfo : List Nat) : Prop :=
  bo.startblock = some start ∧ Postorder (fun b => (bo.block b).Bsucc) ∅ [start] dfo.reverse

-- The same but for the marks of visited blocks.
structure SameGraph (bo bo' : BlockOpt n) : Prop where
  list  : bo'.list = bo.list
  fresh : bo'.fresh = bo.fresh
  block : ∀ b, bo'.block b = { bo.block b with visited := (bo'.block b).visited }

namespace SameGraph

variable {bo'' : BlockOpt n}

theorem refl : SameGraph bo bo where
  list    := rfl
  fresh   := rfl
  block _ := rfl

theorem trans (h : SameGraph bo bo') (h' : SameGraph bo' bo'') : SameGraph bo bo'' where
  list    := h'.list.trans h.list
  fresh   := h'.fresh.trans h.fresh
  block b := by rw [h'.block b, h.block b]

theorem modify {v : Bool} : SameGraph bo (bo.modify b fun blk => { blk with visited := v }) where
  list    := rfl
  fresh   := rfl
  block c := by
    rw [modify_block]
    split <;> rfl

theorem bc (h : SameGraph bo bo') (b : Nat) : (bo'.block b).bc = (bo.block b).bc := by
  rw [h.block b]

theorem Bsucc (h : SameGraph bo bo') (b : Nat) : (bo'.block b).Bsucc = (bo.block b).Bsucc := by
  rw [h.block b]

theorem Bpred (h : SameGraph bo bo') (b : Nat) : (bo'.block b).Bpred = (bo.block b).Bpred := by
  rw [h.block b]

theorem edge (h : SameGraph bo bo') : bo'.Edge = bo.Edge := by
  funext b s
  rw [Edge, Edge, h.Bsucc b]

end SameGraph

theorem Connected.congr (hc : bo.Connected) (h : SameGraph bo bo') : bo'.Connected where
  start := by
    rw [startblock, h.list]
    exact hc.start
  listed b := by
    rw [h.list, hc.listed, Reachable, Reachable, startblock, startblock, h.list, h.edge]
  preds s hs b := by
    rw [h.list] at hs ⊢
    rw [h.Bpred, h.edge]
    exact hc.preds s hs b
  allocated := by
    rw [h.list, h.fresh]
    exact hc.allocated

-- Control stays in the blocks that are listed.
theorem Connected.closed (hc : bo.Connected) (hb : b ∈ bo.list) (he : bo.Edge b c) : c ∈ bo.list := by
  obtain ⟨start, hs, hr⟩ := (hc.listed b).mp hb
  exact (hc.listed c).mpr ⟨start, hs, hr.tail he⟩

theorem block_clearvisit_sameGraph : SameGraph bo bo.block_clearvisit := by
  have hfold (l : List Nat) : ∀ bo : BlockOpt n, SameGraph bo
      (l.foldl (fun bo b => bo.modify b fun blk => { blk with visited := false }) bo) := by
    induction l with
    | nil => exact fun _ => .refl
    | cons b l ih => exact fun bo => .trans .modify (ih _)
  exact hfold bo.list bo

theorem block_clearvisit_visited (hb : b ∈ bo.list) :
    (bo.block_clearvisit.block b).visited = false := by
  have hfold (l : List Nat) : ∀ bo : BlockOpt n, b ∈ l ∨ (bo.block b).visited = false →
      ((l.foldl (fun bo b => bo.modify b fun blk => { blk with visited := false }) bo).block b).visited
        = false := by
    induction l with
    | nil => exact fun bo h => h.resolve_left (List.not_mem_nil)
    | cons c l ih =>
      intro bo h
      refine ih _ ?_
      by_cases hbc : b = c
      case pos => exact .inr (by rw [hbc, modify_block_self])
      case neg =>
        rw [modify_block_of_ne hbc]
        exact h.imp_left fun h => (List.mem_cons.mp h).resolve_left hbc
  exact hfold bo.list bo (.inl hb)

theorem block_clearvisit_of_not_mem (hb : b ∉ bo.list) : bo.block_clearvisit.block b = bo.block b := by
  have hfold (l : List Nat) : ∀ bo : BlockOpt n, b ∉ l →
      (l.foldl (fun bo b => bo.modify b fun blk => { blk with visited := false }) bo).block b =
        bo.block b := by
    induction l with
    | nil => exact fun _ _ => rfl
    | cons c l ih =>
      intro bo hb
      obtain ⟨hbc, hb⟩ := not_or.mp (mt List.mem_cons.mpr hb)
      exact (ih _ hb).trans (modify_block_of_ne hbc)
  exact hfold bo.list bo hb

-- walkDFO marks blocks in their flags, and adds those that it goes back from to dfo.
def dfoMarking : Marking (BlockOpt n × List Nat) Nat where
  next st b    := (st.1.block b).Bsucc
  visited st b := (st.1.block b).visited
  enter b st   := (st.1.modify b fun blk => { blk with visited := true }, st.2)
  leave b st   := (st.1, st.2 ++ [b])

theorem dfoMarking_lawful : Lawful (dfoMarking (n := n)) where
  next_enter b st := funext fun c => SameGraph.modify.Bsucc c
  next_leave _ _ := rfl
  visited_enter b st c := by
    change ((st.1.modify b fun blk => { blk with visited := true }).block c).visited = true ↔
      c = b ∨ (st.1.block c).visited = true
    rw [modify_block]
    by_cases hcb : c = b
    case pos => simp [hcb]
    case neg => simp [hcb]
  visited_leave _ _ _ := Iff.rfl

theorem walkDFO_eq {depth : Nat} {st : BlockOpt n × List Nat} :
    walkDFO depth b st = dfoMarking.walk depth b st := by
  induction depth generalizing b st with
  | zero => rfl
  | succ depth ih =>
    rw [walkDFO, Marking.walk]
    simp only [ih]
    rfl

theorem walk_sameGraph {depth : Nat} {st st' : BlockOpt n × List Nat}
    (h : dfoMarking.walk depth b st = some st') : SameGraph st.1 st'.1 :=
  dfoMarking.walk_induction (R := fun st st' => SameGraph st.1 st'.1) (fun _ => .refl)
    (fun _ _ _ => .trans) (fun _ _ => .modify) (fun _ _ => .refl) h

-- The depth-first order is computed, and what the start block leads to is marked.
theorem exists_compdfo (hstart : ∃ b, bo.startblock = some b) (hlisted : ∀ b, bo.Reachable b → b ∈ bo.list)
    (halloc : ∀ b ∈ bo.list, b < bo.fresh) : ∃ bo' dfo start,
    bo.compdfo = some (bo', dfo) ∧ SameGraph bo bo' ∧ bo.DepthFirstOrder start dfo ∧
      ∀ b, (bo'.block b).visited ↔ bo.Reachable b ∨ (b ∉ bo.list ∧ (bo.block b).visited) := by
  obtain ⟨start, hstart⟩ := hstart
  have hclear : SameGraph bo bo.block_clearvisit := block_clearvisit_sameGraph
  have hstart' : bo.block_clearvisit.startblock = some start := by
    rw [startblock, hclear.list]
    exact hstart
  have hreach (b : Nat) : bo.Reachable b ↔ ReflTransGen bo.Edge start b := by
    constructor
    case mp =>
      rintro ⟨s, hs, hb⟩
      exact Option.some.inj (hstart.symm.trans hs) ▸ hb
    case mpr => exact fun hb => ⟨start, hstart, hb⟩
  have hmem : bo.Reachable start := (hreach start).mpr .refl
  have hunvisited (b : Nat) (hb : bo.Reachable b) :
      ¬(dfoMarking (n := n)).visited (bo.block_clearvisit, []) b :=
    Bool.not_eq_true _ ▸ block_clearvisit_visited (hlisted b hb)
  have hclosed (x : Nat) (hx : bo.Reachable x) (y : Nat)
      (hy : y ∈ dfoMarking.next (bo.block_clearvisit, []) x) : bo.Reachable y :=
    hx.trans (.single (hclear.edge ▸ (hy : bo.block_clearvisit.Edge x y)))
  -- The walk stays in what the start block leads to.
  let U : Finset Nat := open Classical in bo.list.toFinset.filter bo.Reachable
  have hU (x : Nat) : x ∈ U ↔ bo.Reachable x := by
    simp only [U, Finset.mem_filter, List.mem_toFinset]
    exact and_iff_right_of_imp (hlisted x)
  have hcard : (dfoMarking.unvisited U (bo.block_clearvisit, [])).card ≤ bo.block_clearvisit.fresh := by
    refine (Finset.card_filter_le _ _).trans ?_
    rw [← Finset.card_range bo.block_clearvisit.fresh]
    refine Finset.card_le_card fun b hb => Finset.mem_range.mpr ?_
    exact hclear.fresh ▸ halloc b (hlisted b ((hU b).mp hb))
  obtain ⟨st, order, hwalk, hw⟩ := Marking.exists_walk dfoMarking_lawful
    (fun x hx y hy => (hU y).mpr (hclosed x ((hU x).mp hx) y hy)) hcard ((hU start).mpr hmem)
    (hunvisited start hmem)
  have hrecord : st.2 = order := hw.record Prod.snd (fun _ _ => rfl) fun _ _ => rfl
  have hpost : Postorder (fun b => (bo.block b).Bsucc) ∅ [start] order := by
    have hpost : Postorder (fun b => (bo.block_clearvisit.block b).Bsucc) ∅ [start] order :=
      hw.postorder.congr (U := {b | bo.Reachable b}) (fun x hx y hy => hclosed x hx y hy)
        (List.forall_mem_singleton.mpr hmem)
        (fun x hx => iff_of_false (Set.notMem_empty x) (hunvisited x hx))
    rwa [funext hclear.Bsucc] at hpost
  have horder (b : Nat) : b ∈ order ↔ bo.Reachable b := by
    have hnext : (fun x y => y ∈ (bo.block x).Bsucc ∧ y ∉ (∅ : Set Nat)) = bo.Edge := by
      funext x y
      exact propext (and_iff_left (Set.notMem_empty y))
    rw [hpost.mem_iff (Set.notMem_empty start), hreach, Discovers, hnext]
  refine ⟨st.1, order.reverse, start, ?_, hclear.trans (walk_sameGraph hwalk), ⟨hstart, ?_⟩, fun b => ?_⟩
  case refine_1 =>
    rw [compdfo, hstart', Option.bind_eq_bind, Option.bind_some, walkDFO_eq, hwalk, ← hrecord]
    rfl
  case refine_2 => rwa [List.reverse_reverse]
  case refine_3 =>
    have hmarked : (st.1.block b).visited ↔ (bo.block_clearvisit.block b).visited ∨ b ∈ order :=
      Set.ext_iff.mp hw.marked b
    rw [hmarked, horder, or_comm]
    refine or_congr_right' fun hn => ?_
    by_cases hb : b ∈ bo.list
    case pos => simp [hb, block_clearvisit_visited hb]
    case neg => simp [hb, block_clearvisit_of_not_mem hb]

theorem Connected.exists_compdfo (hc : bo.Connected) : ∃ bo' dfo start,
    bo.compdfo = some (bo', dfo) ∧ SameGraph bo bo' ∧ bo.DepthFirstOrder start dfo := by
  obtain ⟨bo', dfo, start, h, hsame, hdfo, -⟩ :=
    BlockOpt.exists_compdfo hc.start (fun b => (hc.listed b).mpr) hc.allocated
  exact ⟨bo', dfo, start, h, hsame, hdfo⟩

end Compiler.Backend.BlockOpt

namespace Compiler.Backend.BlockOpt

open DepthFirst Dominators Relation

variable {n : Nat} {bo bo' : BlockOpt n} {b c start : Nat} {dfo rest l : List Nat}
variable {Bdom D : Nat → Finset Nat}

namespace DepthFirstOrder

theorem mem_iff (h : bo.DepthFirstOrder start dfo) (hc : bo.Connected) :
    b ∈ dfo ↔ b ∈ bo.list := by
  rw [← List.mem_reverse, h.right.mem_iff (Set.notMem_empty start), hc.listed]
  have hleads : Discovers (fun b => (bo.block b).Bsucc) ∅ = ReflTransGen bo.Edge := by
    refine congrArg ReflTransGen (funext fun x => funext fun y => propext ?_)
    exact and_iff_left (Set.notMem_empty y)
  rw [hleads]
  constructor
  case mp => exact fun hr => ⟨start, h.left, hr⟩
  case mpr =>
    rintro ⟨start', hs', hr⟩
    exact Option.some.inj (h.left.symm.trans hs') ▸ hr

theorem unique {dfo' : List Nat} {start' : Nat} (h : bo.DepthFirstOrder start dfo)
    (h' : bo.DepthFirstOrder start' dfo') : start = start' ∧ dfo = dfo' := by
  obtain rfl := Option.some.inj (h.left.symm.trans h'.left)
  exact ⟨rfl, List.reverse_injective (h.right.unique h'.right)⟩

theorem exists_cons (h : bo.DepthFirstOrder start dfo) : ∃ rest, dfo = start :: rest := by
  obtain ⟨l, hl⟩ := h.right.exists_concat (Set.notMem_empty start)
  exact ⟨l.reverse, by rw [List.reverse_eq_iff.mp hl]; simp⟩

-- The start block comes first; the others have predecessors.
theorem flow (h : bo.DepthFirstOrder start (start :: rest)) (hc : bo.Connected) :
    Flow bo.Edge (fun b => (bo.block b).Bpred) start rest where
  nodup := List.nodup_reverse.mp h.right.nodup
  closed x hx y he := by
    rw [h.mem_iff hc] at hx ⊢
    exact hc.closed hx he
  mem_preds b hb p := by
    rw [h.mem_iff hc] at hb ⊢
    exact hc.preds b hb p
  entered b hb := by
    have hnd : (start :: rest).Nodup := List.nodup_reverse.mp h.right.nodup
    have hmem := (h.mem_iff hc).mp (List.mem_cons_of_mem start hb)
    obtain ⟨start', hs', hr⟩ := (hc.listed b).mp hmem
    obtain rfl := Option.some.inj (h.left.symm.trans hs')
    obtain rfl | ⟨p, hp, he⟩ := hr.cases_tail
    case inl => exact absurd hb (List.nodup_cons.mp hnd).left
    case inr =>
      have hp' := (hc.preds b hmem p).mpr ⟨(hc.listed p).mpr ⟨start, hs', hp⟩, he⟩
      exact List.ne_nil_of_mem hp'

end DepthFirstOrder

theorem domFromPreds_eq :
    bo.domFromPreds dfo D b = meet (fun b => (bo.block b).Bpred) dfo.toFinset D b := by
  rw [domFromPreds, meet]
  by_cases h : (bo.block b).Bpred = []
  case pos => simp [h]
  case neg => simp [h]

-- A pass that has changed something.
theorem foldl_compdomBlock_true : l.foldl (bo.compdomBlock dfo) (D, true)
    = (pass (fun b => (bo.block b).Bpred) dfo.toFinset l D, true) := by
  induction l generalizing D with
  | nil => rfl
  | cons b l ih => rw [List.foldl_cons, pass_cons, ← ih, ← domFromPreds_eq]; rfl

-- One pass, which finds out whether anything changes.
theorem foldl_compdomBlock (bo : BlockOpt n) (dfo : List Nat) (D : Nat → Finset Nat) (hl : l.Nodup) :
    ∃ changes,
    l.foldl (bo.compdomBlock dfo) (D, false)
      = (pass (fun b => (bo.block b).Bpred) dfo.toFinset l D, changes) ∧
    (changes = true ↔ pass (fun b => (bo.block b).Bpred) dfo.toFinset l D ≠ D) := by
  induction l with
  | nil => exact ⟨false, rfl, by simp [Dominators.pass]⟩
  | cons b l ih =>
    obtain ⟨hb, hl⟩ := List.nodup_cons.mp hl
    rw [List.foldl_cons]
    by_cases h : D b = bo.domFromPreds dfo D b
    case pos =>
      have hstep : bo.compdomBlock dfo (D, false) b = (D, false) := by simp [compdomBlock, ← h]
      rw [hstep, pass_cons, ← domFromPreds_eq, ← h, Function.update_eq_self]
      exact ih hl
    case neg =>
      have hstep : bo.compdomBlock dfo (D, false) b
          = (Function.update D b (bo.domFromPreds dfo D b), true) := by simp [compdomBlock, h]
      rw [hstep, foldl_compdomBlock_true, domFromPreds_eq, ← pass_cons]
      exact ⟨true, rfl, iff_of_true rfl (pass_cons_ne hb (domFromPreds_eq ▸ h))⟩

section compdomFrom

-- The dominators after k passes.
def domAfter (bo : BlockOpt n) (start : Nat) (rest : List Nat) (k : Nat) : Nat → Finset Nat :=
  Flow.after (fun b => (bo.block b).Bpred) start rest k

variable {passes k : Nat}

theorem domAfter_add (h : bo.domAfter start rest (k + 1) = bo.domAfter start rest k) (j : Nat) :
    bo.domAfter start rest (k + j) = bo.domAfter start rest k :=
  Flow.after_add h j

theorem compdomFrom_succ (bo : BlockOpt n) (start passes k : Nat) (hnd : rest.Nodup) : ∃ changes,
    bo.compdomFrom (start :: rest) (passes + 1) (bo.domAfter start rest k)
      = (if changes then bo.compdomFrom (start :: rest) passes (bo.domAfter start rest (k + 1))
        else some (bo.domAfter start rest (k + 1))) ∧
    (changes = true ↔ bo.domAfter start rest (k + 1) ≠ bo.domAfter start rest k) := by
  obtain ⟨changes, hpass, hch⟩ := foldl_compdomBlock bo (start :: rest) (bo.domAfter start rest k) hnd
  have hafter : Dominators.pass (fun b => (bo.block b).Bpred) (start :: rest).toFinset rest
      (bo.domAfter start rest k) = bo.domAfter start rest (k + 1) := (Flow.after_succ k).symm
  rw [hafter] at hpass hch
  exact ⟨changes, by rw [compdomFrom, List.tail_cons, hpass], hch⟩

-- The last pass that is allowed has to change nothing.
theorem compdomFrom_eq_some_iff (hnd : rest.Nodup) :
    bo.compdomFrom (start :: rest) (passes + 1) (bo.domAfter start rest k) = some D ↔
      bo.domAfter start rest (k + passes + 1) = bo.domAfter start rest (k + passes) ∧
      D = bo.domAfter start rest (k + passes) := by
  induction passes generalizing k with
  | zero =>
    obtain ⟨changes, heq, hch⟩ := compdomFrom_succ bo start 0 k hnd
    rw [heq]
    by_cases h : bo.domAfter start rest (k + 1) = bo.domAfter start rest k
    case pos =>
      rw [if_neg fun hc => hch.mp hc h, h, Option.some_inj, eq_comm]
      exact (and_iff_right rfl).symm
    case neg =>
      rw [if_pos (hch.mpr h)]
      exact iff_of_false nofun fun h' => h h'.left
  | succ passes ih =>
    obtain ⟨changes, heq, hch⟩ := compdomFrom_succ bo start (passes + 1) k hnd
    rw [heq]
    by_cases h : bo.domAfter start rest (k + 1) = bo.domAfter start rest k
    case pos =>
      rw [if_neg fun hc => hch.mp hc h, h, Nat.add_assoc, domAfter_add h, domAfter_add h,
        Option.some_inj, eq_comm, and_iff_right rfl]
    case neg =>
      rw [if_pos (hch.mpr h), ih, Nat.add_right_comm k 1 passes]
      rfl

end compdomFrom

-- A block is in Bdom of another one exactly if it dominates it.
def DominatorsExact (bo : BlockOpt n) (start : Nat) (Bdom : Nat → Finset Nat) : Prop :=
  ∀ A ∈ bo.list, ∀ B ∈ bo.list, A ∈ Bdom B ↔ Dominates bo.Edge start A B

-- The passes over the blocks come to an end if no path has to go back too often in the depth-first order.
theorem compdom_spec (hc : bo.Connected) (h : bo.DepthFirstOrder start dfo) :
    ((∃ Bdom, bo.compdom dfo = some Bdom) ↔ Shallow bo.Edge start dfo 47) ∧
    ∀ Bdom, bo.compdom dfo = some Bdom → bo.DominatorsExact start Bdom := by
  obtain ⟨rest, rfl⟩ := h.exists_cons
  have hflow := h.flow hc
  have hcompdom (D : Nat → Finset Nat) : bo.compdom (start :: rest) = some D ↔
      bo.domAfter start rest 49 = bo.domAfter start rest 48 ∧ D = bo.domAfter start rest 48 := by
    have hfrom : bo.compdomFrom (start :: rest) (48 + 1) (bo.domAfter start rest 0) = some D ↔ _ :=
      compdomFrom_eq_some_iff (List.nodup_cons.mp hflow.nodup).right
    rw [Nat.zero_add] at hfrom
    exact hfrom
  have hshallow : bo.domAfter start rest 49 = bo.domAfter start rest 48 ↔
      Shallow bo.Edge start (start :: rest) 47 := hflow.after_eq_iff
  refine ⟨⟨?_, ?_⟩, ?_⟩
  case refine_1 =>
    rintro ⟨D, hD⟩
    exact hshallow.mp ((hcompdom D).mp hD).left
  case refine_2 => exact fun hs => ⟨_, (hcompdom _).mpr ⟨hshallow.mpr hs, rfl⟩⟩
  case refine_3 =>
    intro D hD A hA B hB
    obtain ⟨heq, rfl⟩ := (hcompdom D).mp hD
    exact hflow.mem_after_iff_dominates (hshallow.mp heq) ((h.mem_iff hc).mpr hA)
      ((h.mem_iff hc).mpr hB)

end Compiler.Backend.BlockOpt
