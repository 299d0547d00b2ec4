import DmdModel.Compiler.Backend.BlockOrder
import DmdModel.Compiler.Backend.Theorems.Evaluation

-- New blocks, and where the blocks of a rewritten graph come from.
namespace Compiler.Backend.BlockOpt

open Relation

variable {n : Nat} {bo bo' : BlockOpt n} {b c s x y : Nat} {blk : Block Nat n} {l : List Nat}

section insertAfter

theorem insertAfter_mem : s ∈ insertAfter b x l ↔ s ∈ l ∨ (s = x ∧ b ∈ l) := by
  induction l with
  | nil => simp [insertAfter]
  | cons c l ih =>
    unfold insertAfter
    split
    case isTrue h => simp only [List.mem_cons, h]; tauto
    case isFalse h => simp only [List.mem_cons, ih, Ne.symm h, false_or]; tauto

theorem insertAfter_nodup (hl : l.Nodup) (hx : x ∉ l) : (insertAfter b x l).Nodup := by
  induction l with
  | nil => exact hl
  | cons c l ih =>
    obtain ⟨hc, hl⟩ := List.nodup_cons.mp hl
    obtain ⟨hxc, hxl⟩ := not_or.mp (mt List.mem_cons.mpr hx)
    unfold insertAfter
    split
    case isTrue h =>
      refine List.nodup_cons.mpr ⟨?_, List.nodup_cons.mpr ⟨hxl, hl⟩⟩
      exact fun hm => (List.mem_cons.mp hm).elim (Ne.symm hxc) hc
    case isFalse h =>
      refine List.nodup_cons.mpr ⟨fun hm => ?_, ih hl hxl⟩
      exact ((insertAfter_mem).mp hm).elim hc fun hm => hxc hm.left.symm

theorem insertAfter_head? : (insertAfter b x l).head? = l.head? := by
  cases l with
  | nil => rfl
  | cons c l =>
    unfold insertAfter
    split <;> rfl

end insertAfter

section alloc

@[simp]
theorem alloc_list : (bo.alloc blk).list = bo.list :=
  rfl

@[simp]
theorem alloc_fresh : (bo.alloc blk).fresh = bo.fresh + 1 :=
  rfl

@[simp]
theorem alloc_block_self : (bo.alloc blk).block bo.fresh = blk :=
  Function.update_self ..

theorem alloc_block_of_ne (h : c ≠ bo.fresh) : (bo.alloc blk).block c = bo.block c :=
  Function.update_of_ne h ..

namespace WellFormed

variable (h : WellFormed bo)

include h

-- What is not allocated has no successors and no predecessors, and is neither.
theorem fresh_Bsucc (hx : bo.fresh ≤ x) : (bo.block x).Bsucc = [] := by
  rw [h.empty x hx]

theorem fresh_Bpred (hx : bo.fresh ≤ x) : (bo.block x).Bpred = [] := by
  rw [h.empty x hx]

theorem fresh_not_edge (hx : bo.fresh ≤ x) : ¬bo.Edge b x :=
  h.not_edge (h.fresh_Bpred hx)

theorem fresh_predCount (hx : bo.fresh ≤ x) : bo.predCount x s = 0 := by
  rw [← h.edges, succCount, h.fresh_Bsucc hx, List.count_nil]

theorem fresh_not_mem_Bpred (hx : bo.fresh ≤ x) : x ∉ (bo.block s).Bpred := by
  rw [mem_Bpred_iff_predCount, h.fresh_predCount hx]
  exact lt_irrefl 0

theorem fresh_not_mem_Bsucc (hx : bo.fresh ≤ x) : x ∉ (bo.block s).Bsucc :=
  h.fresh_not_edge hx

theorem fresh_not_mem_list (hx : bo.fresh ≤ x) : x ∉ bo.list :=
  fun hm => absurd (h.allocated x hm) (Nat.not_lt.mpr hx)

end WellFormed

end alloc

section origin

-- Every block of the new graph comes from one of the old graph, and so do the edges between them.
structure Origin (From : Nat → Nat → Prop) (bo bo' : BlockOpt n) : Prop where
  start : ∀ x, bo'.startblock = some x → ∃ y, From x y ∧ bo.Reachable y
  edge  : ∀ x x' y, From x y → bo'.Edge x x' → ∃ y', From x' y' ∧ ReflTransGen bo.Edge y y'
  list  : ∀ x y, From x y → y ∈ bo.list → x ∈ bo'.list

theorem WellFormed.reachable_of_origin {From : Nat → Nat → Prop} (h : WellFormed bo)
    (ho : Origin From bo bo') (hx : bo'.Reachable x) : x ∈ bo'.list := by
  obtain ⟨start, hs, hx⟩ := hx
  have hfrom : ∃ y, From x y ∧ bo.Reachable y := by
    induction hx with
    | refl => exact ho.start start hs
    | tail _ he ih =>
      obtain ⟨y, hy, hr⟩ := ih
      obtain ⟨y', hy', he'⟩ := ho.edge _ _ _ hy he
      exact ⟨y', hy', hr.trans he'⟩
  obtain ⟨y, hy, hr⟩ := hfrom
  exact ho.list x y hy (h.reachable y hr)

theorem Bpred_eq_nil_of (hedges : ∀ b, bo.succCount b s = bo.predCount b s)
    (h : ∀ b, ¬bo.Edge b s) : (bo.block s).Bpred = [] := by
  refine Bpred_eq_nil_iff.mpr fun b => ?_
  rw [← hedges, ← Nat.le_zero, ← Nat.not_lt, ← edge_iff_succCount]
  exact h b

-- What is to be shown of a graph that comes from a well-formed one.
theorem WellFormed.of_origin {From : Nat → Nat → Prop} (h : WellFormed bo) (ho : Origin From bo bo')
    (hedges : ∀ b s, bo'.succCount b s = bo'.predCount b s) (harity : ∀ b, (bo'.block b).Arity)
    (hstart : ∃ b, bo'.startblock = some b ∧ ∀ x, ¬bo'.Edge x b) (hnodup : bo'.list.Nodup)
    (halloc : ∀ b ∈ bo'.list, b < bo'.fresh)
    (hempty : ∀ b, bo'.fresh ≤ b → (bo'.block b).code = { bc := .ret } ∧ ∀ x, ¬bo'.Edge x b) :
    WellFormed bo' where
  edges       := hedges
  arity       := harity
  nodup       := hnodup
  allocated   := halloc
  reachable _ := h.reachable_of_origin ho
  start       := by
    obtain ⟨b, hb, hx⟩ := hstart
    exact ⟨b, hb, Bpred_eq_nil_of (hedges · b) hx⟩
  empty b hb  := by
    obtain ⟨hcode, hx⟩ := hempty b hb
    have hp := Bpred_eq_nil_of (hedges · b) hx
    calc bo'.block b = { (bo'.block b).code with Bpred := (bo'.block b).Bpred } := rfl
      _ = { bc := .ret } := by rw [hcode, hp]

-- What is to be shown if only some blocks are rewritten, and new ones are among them.
theorem WellFormed.of_dirty {From : Nat → Nat → Prop} {dirty : Nat → Prop} (h : WellFormed bo)
    (ho : Origin From bo bo') (hsame : ∀ x, ¬dirty x → Same x bo bo')
    (hedges : ∀ x, dirty x → ∀ s, bo'.succCount x s = bo'.predCount x s)
    (harity : ∀ x, dirty x → (bo'.block x).Arity) (hle : bo.fresh ≤ bo'.fresh)
    (hlt : ∀ x, dirty x → x < bo'.fresh ∧ ∀ s, bo'.Edge x s → s < bo'.fresh)
    (hstart : ∃ b, bo'.startblock = some b ∧ ∀ x, ¬bo'.Edge x b) (hnodup : bo'.list.Nodup)
    (halloc : ∀ b ∈ bo'.list, b < bo'.fresh) : WellFormed bo' := by
  refine h.of_origin ho (fun x s => ?_) (fun x => ?_) hstart hnodup halloc
    (fun x hx => ⟨?_, fun y hy => ?_⟩)
  case refine_1 =>
    by_cases hd : dirty x
    case pos => exact hedges x hd s
    case neg => rw [(hsame x hd).preds, ← h.edges, succCount_congr (hsame x hd).code]
  case refine_2 =>
    by_cases hd : dirty x
    case pos => exact harity x hd
    case neg => exact (Block.arity_congr (hsame x hd).code).mpr (h.arity x)
  case refine_3 =>
    rw [(hsame x fun hd => Nat.not_lt.mpr hx (hlt x hd).left).code, h.empty x (hle.trans hx)]
    rfl
  case refine_4 =>
    by_cases hd : dirty y
    case pos => exact Nat.not_lt.mpr hx ((hlt y hd).right x hy)
    case neg => exact h.fresh_not_edge (hle.trans hx) ((edge_congr (hsame y hd).code).mp hy)

-- Some blocks are rewritten and go on to new blocks, which take over the edges that they had.
structure NewBlocks (src new : Nat → Prop) (bo bo' : BlockOpt n) : Prop where
  start  : bo'.startblock = bo.startblock
  nodup  : bo'.list.Nodup
  keeps  : ∀ x ∈ bo.list, x ∈ bo'.list
  listed : ∀ x y, new x → src y → y ∈ bo.list → x ∈ bo'.list
  only   : ∀ x ∈ bo'.list, x ∈ bo.list ∨ new x
  fresh  : bo.fresh ≤ bo'.fresh
  isNew  : ∀ x, new x → bo.fresh ≤ x ∧ x < bo'.fresh
  isOld  : ∀ x, src x → x < bo.fresh
  edge   : ∀ x y, bo'.Edge x y → (new y ∧ (src x ∨ new x)) ∨ (¬new x ∧ bo.Edge x y) ∨
    (new x ∧ (∃ z, src z) ∧ ∀ z, src z → bo.Edge z y)
  same   : ∀ x, ¬(src x ∨ new x) → Same x bo bo'
  counts : ∀ x, src x ∨ new x → ∀ s, bo'.succCount x s = bo'.predCount x s
  arity  : ∀ x, src x ∨ new x → (bo'.block x).Arity

theorem NewBlocks.origin {src new : Nat → Prop} (h : NewBlocks src new bo bo') (hwf : WellFormed bo) :
    Origin (fun x y => (x = y ∧ ¬new x) ∨ (new x ∧ src y)) bo bo' where
  start x hx := by
    rw [h.start] at hx
    refine ⟨x, .inl ⟨rfl, fun hn => ?_⟩, x, hx, .refl⟩
    exact hwf.fresh_not_mem_list (h.isNew x hn).left (List.mem_of_head? hx)
  edge x x' y hxy hx := by
    obtain ⟨hn, hx⟩ | ⟨hn, hx⟩ | ⟨hn, -, hx⟩ := h.edge x x' hx
    case inl =>
      obtain ⟨rfl, hn'⟩ | ⟨-, hs⟩ := hxy
      case inl => exact ⟨x, .inr ⟨hn, hx.resolve_right hn'⟩, .refl⟩
      case inr => exact ⟨y, .inr ⟨hn, hs⟩, .refl⟩
    case inr.inl =>
      obtain ⟨rfl, -⟩ | ⟨hn', -⟩ := hxy
      case inl =>
        refine ⟨x', .inl ⟨rfl, fun hn' => ?_⟩, .single hx⟩
        exact hwf.fresh_not_edge (h.isNew x' hn').left hx
      case inr => exact absurd hn' hn
    case inr.inr =>
      obtain ⟨rfl, hn'⟩ | ⟨-, hs⟩ := hxy
      case inl => exact absurd hn hn'
      case inr =>
        refine ⟨x', .inl ⟨rfl, fun hn' => ?_⟩, .single (hx y hs)⟩
        exact hwf.fresh_not_edge (h.isNew x' hn').left (hx y hs)
  list x y hxy hy := by
    obtain ⟨rfl, -⟩ | ⟨hn, hs⟩ := hxy
    case inl => exact h.keeps x hy
    case inr => exact h.listed x y hn hs hy

theorem NewBlocks.wellFormed {src new : Nat → Prop} (h : NewBlocks src new bo bo') (hwf : WellFormed bo) :
    WellFormed bo' := by
  refine hwf.of_dirty (h.origin hwf) h.same h.counts h.arity h.fresh
    (fun x hx => ⟨?_, fun s hs => ?_⟩) ?_ h.nodup (fun x hx => ?_)
  case refine_1 => exact hx.elim (fun hs => (h.isOld x hs).trans_le h.fresh) fun hn => (h.isNew x hn).right
  case refine_2 =>
    have hlt {z : Nat} (hz : bo.Edge z s) : s < bo'.fresh := by
      by_contra hn
      exact hwf.fresh_not_edge (h.fresh.trans (Nat.le_of_not_lt hn)) hz
    obtain ⟨hn, -⟩ | ⟨-, hs⟩ | ⟨-, ⟨z, hz⟩, hs⟩ := h.edge x s hs
    case inl     => exact (h.isNew s hn).right
    case inr.inl => exact hlt hs
    case inr.inr => exact hlt (hs z hz)
  case refine_3 =>
    obtain ⟨start, hs, hp⟩ := hwf.start
    refine ⟨start, h.start.trans hs, fun x hx => ?_⟩
    obtain ⟨hn, -⟩ | ⟨-, hx⟩ | ⟨-, ⟨z, hz⟩, hx⟩ := h.edge x start hx
    case inl     => exact hwf.fresh_not_mem_list (h.isNew start hn).left (List.mem_of_head? hs)
    case inr.inl => exact hwf.not_edge hp hx
    case inr.inr => exact hwf.not_edge hp (hx z hz)
  case refine_4 =>
    exact (h.only x hx).elim (fun hm => (hwf.allocated x hm).trans_le h.fresh) fun hn =>
      (h.isNew x hn).right

end origin

section following

theorem following_mem (h : x ∈ following l b) : x ∈ l :=
  (List.dropWhile_sublist _).mem (List.mem_of_mem_tail h)

-- What follows a block is not the first one.
theorem following_ne_head (hl : l.Nodup) (h : x ∈ following l b) : l.head? ≠ some x := by
  cases l with
  | nil => cases h
  | cons c l =>
    intro hx
    cases Option.some.inj hx
    obtain ⟨hc, -⟩ := List.nodup_cons.mp hl
    unfold following at h
    rw [List.dropWhile_cons] at h
    split at h
    case isTrue => exact hc ((List.dropWhile_sublist _).mem (List.mem_of_mem_tail h))
    case isFalse => exact hc h

theorem following_ne (hl : l.Nodup) (h : x ∈ following l b) : x ≠ b := by
  induction l with
  | nil => cases h
  | cons c l ih =>
    obtain ⟨hc, hl⟩ := List.nodup_cons.mp hl
    unfold following at h
    rw [List.dropWhile_cons] at h
    split at h
    case isTrue => exact ih hl h
    case isFalse hcb =>
      rintro rfl
      have hcx : c = x := by simpa using hcb
      exact hc (hcx ▸ h)

end following

section foldl

variable {step : BlockOpt n → Nat → BlockOpt n}

theorem WellFormed.foldl (hstep : ∀ {bo b}, WellFormed bo → WellFormed (step bo b)) (h : WellFormed bo) :
    WellFormed (l.foldl step bo) := by
  induction l generalizing bo with
  | nil         => exact h
  | cons b l ih => exact ih (hstep h)

variable {σ V E : Type} {I : Interp n σ V E} {bo'' : BlockOpt n}

-- The rewritten graph is well formed and lacks no expression, and from each of its old blocks it does
-- the same.
structure Preserves (I : Interp n σ V E) (bo bo' : BlockOpt n) : Prop where
  wellFormed : WellFormed bo'
  supplied   : Supplied bo → Supplied bo'
  start      : bo'.startblock = bo.startblock
  fresh      : bo.fresh ≤ bo'.fresh
  runs       : ∀ b < bo.fresh, ∀ u, Lockstep.Equivalent (I.step bo) (I.step bo') (b, u) (b, u)

theorem Preserves.refl (h : WellFormed bo) : Preserves I bo bo where
  wellFormed := h
  supplied   := id
  start      := rfl
  fresh      := le_rfl
  runs _ _ _ := .refl _

theorem Preserves.trans (h : Preserves I bo bo') (h' : Preserves I bo' bo'') : Preserves I bo bo'' where
  wellFormed  := h'.wellFormed
  supplied    := h'.supplied ∘ h.supplied
  start       := h'.start.trans h.start
  fresh       := h.fresh.trans h'.fresh
  runs b hb u := (h.runs b hb u).trans (h'.runs b (hb.trans_le h.fresh) u)

theorem Preserves.behaviour (h : Preserves I bo bo') (hwf : WellFormed bo) : I.SameBehaviour bo bo' :=
  fun b hb => ⟨b, h.start.trans hb, h.runs b (hwf.allocated b (List.mem_of_head? hb))⟩

theorem Preserves.foldl (hstep : ∀ {bo b}, WellFormed bo → Preserves I bo (step bo b))
    (h : WellFormed bo) : Preserves I bo (l.foldl step bo) := by
  induction l generalizing bo with
  | nil         => exact .refl h
  | cons b l ih => exact (hstep h).trans (ih (hstep h).wellFormed)

end foldl

section reorder

-- The blocks in another order, with the same one first.
theorem WellFormed.reorder (h : WellFormed bo) (hp : l.Perm bo.list) (hs : l.head? = bo.list.head?) :
    WellFormed { bo with list := l } where
  edges     := h.edges
  arity     := h.arity
  start     := by
    obtain ⟨start, hstart, hpred⟩ := h.start
    exact ⟨start, hs.trans hstart, hpred⟩
  nodup     := hp.nodup_iff.mpr h.nodup
  reachable := by
    rintro b ⟨start, hstart, hr⟩
    exact hp.mem_iff.mpr (h.reachable b ⟨start, hs.symm.trans hstart, hr⟩)
  allocated b hb := h.allocated b (hp.mem_iff.mp hb)
  empty     := h.empty

theorem Preserves.reorder {σ V E : Type} {I : Interp n σ V E} (h : WellFormed bo)
    (hp : l.Perm bo.list) (hs : l.head? = bo.list.head?) : Preserves I bo { bo with list := l } where
  wellFormed := h.reorder hp hs
  supplied   := id
  start      := hs
  fresh      := le_rfl
  runs _ _ _ := .refl _

end reorder

end Compiler.Backend.BlockOpt
