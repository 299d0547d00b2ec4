import DmdModel.Compiler.Backend.Theorems.Splitting
import DmdModel.Compiler.Backend.Theorems.Compdfo

namespace Compiler.Backend.BlockOpt

variable {n : Nat} {bo : BlockOpt n} {b bs : Nat} {blocks before rest rest' : List Nat}

theorem moveToSucc_perm (h : bo.moveToSucc blocks rest bs = some rest') : rest'.Perm rest := by
  simp only [moveToSucc, Option.bind_eq_bind, Option.pure_def] at h
  obtain ⟨-, -, h⟩ := Option.bind_eq_some_iff.mp h
  obtain ⟨-, -, h⟩ := Option.bind_eq_some_iff.mp h
  obtain ⟨-, -, h⟩ := Option.bind_eq_some_iff.mp h
  obtain ⟨-, -, h⟩ := Option.bind_eq_some_iff.mp h
  cases h
  generalize bo.moveDistance (rest.dropWhile (· ≠ bs)) = distance
  calc
    _ = ((rest.dropWhile (· ≠ bs)).take distance ++ rest.takeWhile (· ≠ bs)) ++
        (rest.dropWhile (· ≠ bs)).drop distance := rfl
    List.Perm _ ((rest.takeWhile (· ≠ bs) ++ (rest.dropWhile (· ≠ bs)).take distance) ++
        (rest.dropWhile (· ≠ bs)).drop distance) := List.perm_append_comm.append_right _
    _ = rest := by rw [List.append_assoc, List.take_append_drop, List.takeWhile_append_dropWhile]

theorem brminBlock_perm : (bo.brminBlock before b rest).Perm rest := by
  unfold brminBlock
  split
  case isTrue => exact .refl rest
  case isFalse =>
    cases h : (bo.block b).Bsucc.findSome? (bo.moveToSucc (before ++ b :: rest) rest) with
    | none       => exact .refl rest
    | some rest' =>
      obtain ⟨bs, -, hbs⟩ := List.exists_of_findSome?_eq_some h
      exact moveToSucc_perm hbs

theorem brminFrom_perm {length : Nat} : (bo.brminFrom length before rest).Perm rest := by
  induction length generalizing before rest with
  | zero => exact .refl rest
  | succ length ih =>
    cases rest with
    | nil         => exact .refl []
    | cons b rest => exact .cons b (ih.trans brminBlock_perm)

-- Rearranging blocks changes their order only, and not that of the first one.
theorem exists_brmin (bo : BlockOpt n) : ∃ l, bo.brmin = { bo with list := l } ∧ l.Perm bo.list ∧
    l.head? = bo.list.head? := by
  obtain ⟨block, list, fresh⟩ := bo
  cases list with
  | nil             => exact ⟨[], rfl, .refl [], rfl⟩
  | cons start rest => exact ⟨_, rfl, .cons start brminFrom_perm, rfl⟩

theorem WellFormed.brmin (h : WellFormed bo) : WellFormed bo.brmin := by
  obtain ⟨l, heq, hp, hs⟩ := exists_brmin bo
  exact heq ▸ h.reorder hp hs

end Compiler.Backend.BlockOpt

namespace Compiler.Backend.BlockOpt

open Relation

variable {n : Nat} {bo bo' : BlockOpt n} {b c s x : Nat} {l : List Nat}

section elimblks

-- The predecessors that a block loses which is not visited.
def subtractVisited (b : Nat) (bo : BlockOpt n) (s : Nat) : BlockOpt n :=
  if (bo.block s).visited then bo.subtractPred s b else bo

theorem code_visited {blk blk' : Block Nat n} (h : blk.code = blk'.code) : blk.visited = blk'.visited :=
  (congrArg Block.visited h :)

theorem eliminable_congr {blk blk' : Block Nat n} (h : blk.code = blk'.code) :
    eliminable blk = eliminable blk' := by
  rw [eliminable, eliminable, code_visited h]
  exact congrArg (fun label => !blk'.visited && !label) (congrArg Block.label h :)

theorem subtractVisited_code : ((subtractVisited b bo s).block c).code = (bo.block c).code := by
  unfold subtractVisited
  split
  case isTrue  => exact subtractPred_code
  case isFalse => rfl

theorem subtractVisited_list : (subtractVisited b bo s).list = bo.list ∧
    (subtractVisited b bo s).fresh = bo.fresh := by
  unfold subtractVisited
  split <;> exact ⟨rfl, rfl⟩

theorem foldl_subtractVisited_code : ((l.foldl (subtractVisited b) bo).block c).code = (bo.block c).code := by
  induction l generalizing bo with
  | nil         => rfl
  | cons s l ih => exact ih.trans subtractVisited_code

theorem foldl_subtractVisited_list : (l.foldl (subtractVisited b) bo).list = bo.list ∧
    (l.foldl (subtractVisited b) bo).fresh = bo.fresh := by
  induction l generalizing bo with
  | nil         => exact ⟨rfl, rfl⟩
  | cons s l ih => exact ⟨ih.left.trans (subtractVisited_list).left, ih.right.trans (subtractVisited_list).right⟩

theorem foldl_subtractVisited_predCount : (l.foldl (subtractVisited b) bo).predCount c s =
    bo.predCount c s - if c = b ∧ (bo.block s).visited then l.count s else 0 := by
  induction l generalizing bo with
  | nil => simp
  | cons x l ih =>
    have hstep : (subtractVisited b bo x).predCount c s =
        bo.predCount c s - if c = b ∧ s = x ∧ (bo.block x).visited then 1 else 0 := by
      unfold subtractVisited
      split
      case isTrue h  => simp [subtractPred_predCount, h]
      case isFalse h => simp [h]
    rw [List.foldl_cons, ih, code_visited (subtractVisited_code (c := s)), hstep, List.count_cons]
    by_cases hc : c = b
    case neg => simp [hc]
    case pos =>
      by_cases hv : (bo.block s).visited
      case neg =>
        have hx : ¬(s = x ∧ (bo.block x).visited) := fun ⟨hs, hx⟩ => hv (hs ▸ hx)
        simp [hv, hx]
      case pos =>
        by_cases hs : s = x
        case pos =>
          subst hs
          simp [hc, hv]
          omega
        case neg => simp [hc, hv, hs, Ne.symm hs]

theorem elimblksBlock_eq : bo.elimblksBlock b =
    if eliminable (bo.block b) then
      { (bo.block b).Bsucc.foldl (subtractVisited b) bo with list := bo.list.filter (· ≠ b) }
    else bo := by
  unfold elimblksBlock
  split
  case isFalse => rfl
  case isTrue =>
    have hlist : ((bo.block b).Bsucc.foldl (subtractVisited b) bo).list = bo.list :=
      (foldl_subtractVisited_list).left
    exact congrArg (fun list : List Nat =>
      { (bo.block b).Bsucc.foldl (subtractVisited b) bo with list := list.filter (· ≠ b) }) hlist

-- The blocks of l are removed from the list, and from the predecessors of what is visited.
structure Removes (l : List Nat) (bo bo' : BlockOpt n) : Prop where
  list  : bo'.list = bo.list.filter fun c => ¬(c ∈ l ∧ eliminable (bo.block c))
  fresh : bo'.fresh = bo.fresh
  code  : ∀ c, (bo'.block c).code = (bo.block c).code
  preds : ∀ c s, bo'.predCount c s = bo.predCount c s -
    if (c ∈ l ∧ eliminable (bo.block c)) ∧ (bo.block s).visited then bo.succCount c s else 0

theorem elimblksBlock_removes : Removes [b] bo (bo.elimblksBlock b) := by
  rw [elimblksBlock_eq]
  split
  case isFalse hb =>
    refine ⟨?_, rfl, fun _ => rfl, fun c s => ?_⟩
    case refine_1 =>
      refine (List.filter_eq_self.mpr fun c _ => ?_).symm
      simp only [List.mem_singleton, decide_eq_true_eq]
      rintro ⟨rfl, hc⟩
      exact hb hc
    case refine_2 =>
      have hc : ¬((c ∈ [b] ∧ eliminable (bo.block c)) ∧ (bo.block s).visited) := by
        rintro ⟨⟨hc, he⟩, -⟩
        exact hb (List.mem_singleton.mp hc ▸ he)
      rw [if_neg hc, Nat.sub_zero]
  case isTrue hb =>
    refine ⟨?_, (foldl_subtractVisited_list).right, fun c => foldl_subtractVisited_code, fun c s => ?_⟩
    case refine_1 =>
      refine List.filter_congr fun c _ => decide_eq_decide.mpr ?_
      rw [List.mem_singleton, not_and]
      exact ⟨fun hc hcb => absurd hcb hc, fun hc hcb => hc hcb (hcb ▸ hb)⟩
    case refine_2 =>
      have heq : ((bo.block b).Bsucc.foldl (subtractVisited b) bo).predCount c s = _ :=
        foldl_subtractVisited_predCount
      refine heq.trans ?_
      by_cases hc : c = b
      case pos => simp [hc, hb, succCount]
      case neg => simp [hc]

theorem foldl_elimblksBlock_removes (hl : l.Nodup) : Removes l bo (l.foldl elimblksBlock bo) := by
  induction l generalizing bo with
  | nil => exact ⟨by simp, rfl, fun _ => rfl, fun c s => by simp⟩
  | cons b l ih =>
    obtain ⟨hb, hl⟩ := List.nodup_cons.mp hl
    have h₁ : Removes [b] bo (bo.elimblksBlock b) := elimblksBlock_removes
    have h₂ : Removes l (bo.elimblksBlock b) (l.foldl elimblksBlock (bo.elimblksBlock b)) := ih hl
    have he (c : Nat) : eliminable ((bo.elimblksBlock b).block c) = eliminable (bo.block c) :=
      eliminable_congr (h₁.code c)
    refine ⟨?_, h₂.fresh.trans h₁.fresh, fun c => (h₂.code c).trans (h₁.code c), fun c s => ?_⟩
    case refine_1 =>
      rw [List.foldl_cons, h₂.list, h₁.list, List.filter_filter]
      refine List.filter_congr fun c _ => ?_
      simp only [he, List.mem_cons, List.not_mem_nil, or_false]
      rw [← Bool.decide_and, decide_eq_decide]
      tauto
    case refine_2 =>
      have hs : (bo.elimblksBlock b).succCount c s = bo.succCount c s := succCount_congr (h₁.code c)
      rw [List.foldl_cons, h₂.preds, h₁.preds, he, code_visited (h₁.code s), hs]
      simp only [List.mem_cons, List.not_mem_nil, or_false]
      by_cases hc : c = b
      case pos => simp [hc, hb]
      case neg => simp [hc]

theorem foldl_block_free : (l.foldl block_free bo).block x =
    if x ∈ l then { bc := .ret } else bo.block x := by
  induction l generalizing bo with
  | nil => simp
  | cons b l ih =>
    rw [List.foldl_cons, ih, block_free, modify_block]
    by_cases hx : x ∈ l
    case pos => simp [hx]
    case neg => simp [hx]

theorem foldl_block_free_list : (l.foldl block_free bo).list = bo.list ∧
    (l.foldl block_free bo).fresh = bo.fresh := by
  induction l generalizing bo with
  | nil         => exact ⟨rfl, rfl⟩
  | cons b l ih => exact ih

-- What becomes of the blocks when those are freed that are neither visited nor have a label.
structure Swept (bo bo' : BlockOpt n) : Prop where
  list  : bo'.list = bo.list.filter fun c => ¬eliminable (bo.block c)
  fresh : bo'.fresh = bo.fresh
  freed : ∀ b ∈ bo.list, eliminable (bo.block b) → bo'.block b = { bc := .ret }
  code  : ∀ b, ¬(b ∈ bo.list ∧ eliminable (bo.block b)) → (bo'.block b).code = (bo.block b).code
  preds : ∀ b s, ¬(s ∈ bo.list ∧ eliminable (bo.block s)) → bo'.predCount b s = bo.predCount b s -
    if (b ∈ bo.list ∧ eliminable (bo.block b)) ∧ (bo.block s).visited then bo.succCount b s else 0

theorem elimblks_swept (hl : bo.list.Nodup) : Swept bo bo.elimblks := by
  have h : Removes bo.list bo (bo.list.foldl elimblksBlock bo) := foldl_elimblksBlock_removes hl
  have hfree (b : Nat) : bo.elimblks.block b =
      if b ∈ bo.list.filter (fun b => eliminable (bo.block b)) then { bc := .ret }
      else (bo.list.foldl elimblksBlock bo).block b := foldl_block_free
  have hmem (b : Nat) : b ∈ bo.list.filter (fun b => eliminable (bo.block b)) ↔
      b ∈ bo.list ∧ eliminable (bo.block b) := List.mem_filter
  refine ⟨?_, ?_, fun b hb he => ?_, fun b hb => ?_, fun b s hs => ?_⟩
  case refine_1 =>
    refine foldl_block_free_list.left.trans (h.list.trans ?_)
    refine List.filter_congr fun c hc => decide_eq_decide.mpr ?_
    rw [and_iff_right hc]
  case refine_2 => exact foldl_block_free_list.right.trans h.fresh
  case refine_3 => rw [hfree, if_pos ((hmem b).mpr ⟨hb, he⟩)]
  case refine_4 =>
    rw [hfree, if_neg (mt (hmem b).mp hb)]
    exact h.code b
  case refine_5 =>
    rw [predCount, hfree, if_neg (mt (hmem s).mp hs)]
    exact h.preds b s

end elimblks

section removed

-- The start block does not lead to the block, and it has no label.
def Removed (bo : BlockOpt n) (b : Nat) : Prop :=
  b ∈ bo.list ∧ ¬bo.Reachable b ∧ ¬(bo.block b).label

-- No edge goes from a block that is removed to one that is left and does not lose its predecessor, nor from
-- one that is left to one that is removed.
def CutsNoEdge (bo : BlockOpt n) : Prop :=
  ∀ b s, bo.Edge b s →
    (bo.Removed b → bo.Removed s ∨ bo.Reachable s ∨ (s ∉ bo.list ∧ (bo.block s).visited)) ∧
      (bo.Removed s → bo.Removed b)

variable {bo₁ : BlockOpt n} (h : WellFormed bo) (hsame : SameGraph bo bo₁)
variable (hv : ∀ b, (bo₁.block b).visited ↔ bo.Reachable b ∨ (b ∉ bo.list ∧ (bo.block b).visited))
variable (hsw : Swept bo₁ bo')

include hsame hv

theorem eliminable_iff : b ∈ bo₁.list ∧ eliminable (bo₁.block b) ↔ bo.Removed b := by
  have hlabel : (bo₁.block b).label = (bo.block b).label := by rw [hsame.block b]
  rw [hsame.list, Removed, eliminable, hlabel, Bool.and_eq_true, Bool.not_eq_true', Bool.not_eq_true',
    ← Bool.not_eq_true, hv, ← Bool.not_eq_true]
  refine and_congr_right fun hb => and_congr_left' (not_congr ?_)
  exact or_iff_left fun hn => hn.left hb

include hsw

theorem Swept.mem_list_iff : b ∈ bo'.list ↔ b ∈ bo.list ∧ ¬bo.Removed b := by
  rw [hsw.list, List.mem_filter, decide_eq_true_eq, ← eliminable_iff hsame hv, hsame.list, not_and]
  exact and_congr_right fun hb => ⟨fun hn _ => hn, fun hn => hn hb⟩

theorem Swept.succCount_removed (hb : bo.Removed b) : bo'.succCount b s = 0 := by
  obtain ⟨hmem, he⟩ := (eliminable_iff hsame hv).mpr hb
  rw [succCount, hsw.freed b hmem he, List.count_nil]

theorem Swept.Bsucc_left (hb : ¬bo.Removed b) : (bo'.block b).Bsucc = (bo.block b).Bsucc := by
  rw [Block.code_Bsucc (hsw.code b (mt (eliminable_iff hsame hv).mp hb)), hsame.Bsucc]

theorem Swept.predCount_removed (hs : bo.Removed s) : bo'.predCount b s = 0 := by
  obtain ⟨hmem, he⟩ := (eliminable_iff hsame hv).mpr hs
  rw [predCount, hsw.freed s hmem he, List.count_nil]

theorem Swept.predCount_left (hs : ¬bo.Removed s) (hb : ¬(bo.Removed b ∧ (bo₁.block s).visited)) :
    bo'.predCount b s = bo.predCount b s := by
  rw [← eliminable_iff hsame hv] at hb
  rw [hsw.preds b s (mt (eliminable_iff hsame hv).mp hs), if_neg hb, predCount, predCount, hsame.Bpred]
  rfl

theorem Swept.predCount_cut (hs : ¬bo.Removed s) (hb : bo.Removed b) (hvs : (bo₁.block s).visited) :
    bo'.predCount b s = bo.predCount b s - bo.succCount b s := by
  rw [← eliminable_iff hsame hv] at hb
  rw [hsw.preds b s (mt (eliminable_iff hsame hv).mp hs), if_pos ⟨hb, hvs⟩, predCount, predCount,
    hsame.Bpred, succCount, succCount, hsame.Bsucc]

theorem Swept.edge (hx : bo'.Edge b s) : bo.Edge b s ∧ ¬bo.Removed b := by
  by_cases hb : bo.Removed b
  case pos =>
    rw [edge_iff_succCount, hsw.succCount_removed hsame hv hb] at hx
    exact absurd hx (lt_irrefl 0)
  case neg => exact ⟨by rwa [Edge, ← hsw.Bsucc_left hsame hv hb], hb⟩

include h

theorem Swept.wellFormed (hc : CutsNoEdge bo) : WellFormed bo' := by
  obtain ⟨start, hstart, hp⟩ := h.start
  have hreach : bo.Reachable start := ⟨start, hstart, .refl⟩
  have hleft : ¬bo.Removed start := fun hr => hr.right.left hreach
  have hstart' : bo'.startblock = some start := by
    obtain ⟨l, hl⟩ : ∃ l, bo.list = start :: l := List.head?_eq_some_iff.mp hstart
    have hn : ¬eliminable (bo₁.block start) := fun he =>
      hleft ((eliminable_iff hsame hv).mp ⟨by rw [hsame.list, hl]; exact List.mem_cons_self, he⟩)
    rw [startblock, hsw.list, hsame.list, hl, List.filter_cons_of_pos (by simpa using hn)]
    rfl
  have horigin : Origin (fun x y => x = y ∧ ¬bo.Removed y) bo bo' := by
    refine ⟨fun x hx => ?_, fun x x' y hxy hx => ?_, fun x y hxy hy => ?_⟩
    case refine_1 =>
      cases hstart'.symm.trans hx
      exact ⟨start, ⟨rfl, hleft⟩, hreach⟩
    case refine_2 =>
      obtain ⟨rfl, hn⟩ := hxy
      have he := (hsw.edge hsame hv hx).left
      exact ⟨x', ⟨rfl, mt (hc x x' he).right hn⟩, .single he⟩
    case refine_3 =>
      obtain ⟨rfl, hn⟩ := hxy
      exact (hsw.mem_list_iff hsame hv).mpr ⟨hy, hn⟩
  refine h.of_origin horigin (fun b s => ?_) (fun b => ?_) ⟨start, hstart', fun x hx => ?_⟩ ?_
    (fun b hb => ?_) fun b hb => ⟨?_, fun x hx => ?_⟩
  case refine_1 =>
    by_cases hb : bo.Removed b
    case pos =>
      rw [hsw.succCount_removed hsame hv hb]
      by_cases hs : bo.Removed s
      case pos => rw [hsw.predCount_removed hsame hv hs]
      case neg =>
        by_cases hvs : (bo₁.block s).visited
        case pos => rw [hsw.predCount_cut hsame hv hs hb hvs, ← h.edges, Nat.sub_self]
        case neg =>
          rw [hsw.predCount_left hsame hv hs fun hr => hvs hr.right, ← h.edges]
          by_contra hne
          have he : bo.Edge b s := edge_iff_succCount.mpr (by omega)
          exact hvs ((hv s).mpr (((hc b s he).left hb).resolve_left hs))
    case neg =>
      rw [succCount, hsw.Bsucc_left hsame hv hb]
      by_cases hs : bo.Removed s
      case pos =>
        rw [hsw.predCount_removed hsame hv hs]
        by_contra hne
        have he : bo.Edge b s := edge_iff_succCount.mpr (Nat.pos_of_ne_zero hne)
        exact hb ((hc b s he).right hs)
      case neg =>
        rw [hsw.predCount_left hsame hv hs fun hr => hb hr.left, ← h.edges, succCount]
  case refine_2 =>
    by_cases hb : bo.Removed b
    case pos =>
      obtain ⟨hmem, he⟩ := (eliminable_iff hsame hv).mpr hb
      rw [hsw.freed b hmem he]
      rfl
    case neg =>
      have ha := h.arity b
      rw [Block.Arity, hsw.Bsucc_left hsame hv hb,
        Block.code_bc (hsw.code b (mt (eliminable_iff hsame hv).mp hb)), hsame.bc]
      exact ha
  case refine_3 => exact h.not_edge hp (hsw.edge hsame hv hx).left
  case refine_4 =>
    rw [hsw.list, hsame.list]
    exact h.nodup.filter _
  case refine_5 =>
    rw [hsw.fresh, hsame.fresh]
    exact h.allocated b ((hsw.mem_list_iff hsame hv).mp hb).left
  case refine_6 =>
    rw [hsw.fresh, hsame.fresh] at hb
    have hmem : b ∉ bo.list := fun hm => Nat.not_lt.mpr hb (h.allocated b hm)
    have hn : ¬(bo₁.block b).visited := by
      rw [hv, h.empty b hb]
      rintro (hr | hr)
      case inl => exact hmem (h.reachable b hr)
      case inr => cases hr.right
    rw [hsw.code b fun hr => hmem (hsame.list ▸ hr.left), hsame.block b, Bool.eq_false_of_not_eq_true hn,
      h.empty b hb]
    rfl
  case refine_7 =>
    rw [hsw.fresh, hsame.fresh] at hb
    have hp : (bo.block b).Bpred = [] := by rw [h.empty b hb]
    exact h.not_edge hp (hsw.edge hsame hv hx).left

theorem Swept.cutsNoEdge (hwf : WellFormed bo') : CutsNoEdge bo := by
  intro b s he
  have hpos := edge_iff_succCount.mp he
  constructor
  case left =>
    intro hb
    by_contra hn
    obtain ⟨hs, hn⟩ := not_or.mp hn
    have hedges := hwf.edges b s
    rw [hsw.succCount_removed hsame hv hb, hsw.predCount_left hsame hv hs fun hr => hn ((hv s).mp hr.right),
      ← h.edges] at hedges
    exact hpos.ne hedges
  case right =>
    intro hs
    by_contra hb
    have hedges := hwf.edges b s
    rw [hsw.predCount_removed hsame hv hs, succCount, hsw.Bsucc_left hsame hv hb] at hedges
    exact hpos.ne' hedges

end removed

-- The blocks that are left are those that the start block leads to or that have a label, and the graph is well
-- formed if no edge is cut.
theorem WellFormed.elimblks_iff (h : WellFormed bo) : ∃ bo₁ dfo, bo.compdfo = some (bo₁, dfo) ∧
    (∀ b, b ∈ bo₁.elimblks.list ↔ b ∈ bo.list ∧ ¬bo.Removed b) ∧
    (WellFormed bo₁.elimblks ↔ CutsNoEdge bo) := by
  obtain ⟨start, hstart, -⟩ := h.start
  obtain ⟨bo₁, dfo, -, hdfo, hsame, -, hv⟩ := exists_compdfo ⟨start, hstart⟩ h.reachable h.allocated
  have hsw : Swept bo₁ bo₁.elimblks := elimblks_swept (hsame.list ▸ h.nodup)
  exact ⟨bo₁, dfo, hdfo, fun b => hsw.mem_list_iff hsame hv, hsw.cutsNoEdge h hsame hv,
    hsw.wellFormed h hsame hv⟩

end Compiler.Backend.BlockOpt
