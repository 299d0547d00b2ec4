import DmdModel.Runtime.Container.Treap
import DmdModel.Lib.Lists

namespace Runtime.Container
namespace Treap

open Visit

namespace Node

variable {E : Type} {t l r : Node E} {x y element : E} {b p : UInt32} {rand : Rand}

-- The elements in the order of an iteration.
@[grind =]
def inorder : Node E → List E
  | null                => []
  | node left right x _ => left.inorder ++ x :: right.inorder

theorem rotateL_inorder : t.rotateL.inorder = t.inorder := by
  cases t with
  | null => rfl
  | node left right x p =>
    cases right with
    | null => rfl
    | node => simp [rotateL, inorder]

theorem rotateR_inorder : t.rotateR.inorder = t.inorder := by
  cases t with
  | null => rfl
  | node left right x p =>
    cases left with
    | null => rfl
    | node => simp [rotateR, inorder]

-- Every priority at the top is at least `b`.
def Above (b : UInt32) (t : Node E) : Prop :=
  ∀ p ∈ t.priority?, b ≤ p

@[simp]
theorem above_null : (null : Node E).Above b := by
  simp [Above, priority?]

@[simp]
theorem above_node : (node l r x p).Above b ↔ b ≤ p := by
  simp [Above, priority?]

theorem Above.mono (h : t.Above p) (hb : b ≤ p) : t.Above b :=
  fun q hq => UInt32.le_trans hb (h q hq)

-- No node has a priority above those of its children.
@[grind =]
def IsHeap : Node E → Prop
  | null                => True
  | node left right _ p => left.Above p ∧ right.Above p ∧ left.IsHeap ∧ right.IsHeap

theorem Above.not_below (h : t.Above p) : ¬t.priority?.any (· < p) := by
  cases t with
  | null => simp [priority?]
  | node l r x q => simpa [priority?] using (above_node).mp h

theorem above_of_not_below (h : ¬t.priority?.any (· < p)) : t.Above p := by
  intro q hq
  rw [Option.mem_def.mp hq] at h
  exact UInt32.not_lt.mp (by simpa using h)

theorem exists_node_of_below (h : t.priority?.any (· < p)) :
    ∃ l r x q, t = node l r x q ∧ q < p := by
  cases t with
  | null => cases h
  | node l r x q => exact ⟨l, r, x, q, rfl, by simpa [priority?] using h⟩

section sink

-- The node at the top of the tree is the one that is taken out.
theorem sink_inorder : (node l r x p).sink.inorder = l.inorder ++ r.inorder := by
  generalize ht : node l r x p = t
  fun_induction sink t generalizing l r x p with
  | case1 ll lr le lp rl rr re rp e p hlt hi =>
    cases ht
    rw [inorder, hi rfl]
    simp [inorder]
  | case2 ll lr le lp rl rr re rp e p hge hi =>
    cases ht
    rw [inorder, hi rfl]
    simp [inorder]
  | case3 =>
    cases ht
    rfl
  | case4 =>
    cases ht
    simp [inorder]
  | case5 => cases ht

theorem sink_above (hl : l.Above b) (hr : r.Above b) : (node l r x p).sink.Above b := by
  generalize ht : node l r x p = t
  fun_induction sink t generalizing l r x p with
  | case1 ll lr le lp rl rr re rp e p hlt hi =>
    cases ht
    exact (above_node).mpr ((above_node).mp hl)
  | case2 ll lr le lp rl rr re rp e p hge hi =>
    cases ht
    exact (above_node).mpr ((above_node).mp hr)
  | case3 =>
    cases ht
    exact hr
  | case4 =>
    cases ht
    exact hl
  | case5 => cases ht

-- The one of two nodes that a rotation brings up has the smaller priority.
theorem sink_isHeap (h : t.IsHeap) : t.sink.IsHeap := by
  fun_induction sink t with
  | case1 ll lr le lp rl rr re rp e p hlt hi =>
    obtain ⟨hl, hr, ⟨hll, hlr, hllh, hlrh⟩, hrh⟩ := h
    have hrp : (node rl rr re rp).Above lp := (above_node).mpr (UInt32.le_of_lt hlt)
    refine ⟨hll, sink_above hlr hrp, hllh, hi ⟨hlr.mono ((above_node).mp hl), hr, hlrh, hrh⟩⟩
  | case2 ll lr le lp rl rr re rp e p hge hi =>
    obtain ⟨hl, hr, hlh, ⟨hrl, hrr, hrlh, hrrh⟩⟩ := h
    have hlp : (node ll lr le lp).Above rp := (above_node).mpr (UInt32.not_lt.mp hge)
    exact ⟨sink_above hlp hrl, hrr, hi ⟨hl, hrl.mono ((above_node).mp hr), hlh, hrlh⟩, hrrh⟩
  | case3 => exact h.right.right.right
  | case4 => exact h.right.right.left
  | case5 => exact h

end sink

variable [LinearOrder E]

section insert

theorem insert_of_lt (h : element < x) : ((node l r x p).insert rand element).1 =
    if (l.insert rand element).1.priority?.any (· < p) then
      (node (l.insert rand element).1 r x p).rotateR
    else
      node (l.insert rand element).1 r x p := by
  rw [insert, if_pos h]

theorem insert_of_gt (h : element > x) : ((node l r x p).insert rand element).1 =
    if (r.insert rand element).1.priority?.any (· < p) then
      (node l (r.insert rand element).1 x p).rotateL
    else
      node l (r.insert rand element).1 x p := by
  rw [insert, if_neg h.not_gt, if_pos h]

theorem insert_self : (node l r x p).insert rand x = (node l r x p, rand) := by
  rw [insert, if_neg (lt_irrefl x), if_neg (lt_irrefl x)]

-- No rotation happens at a null pointer.
theorem insert_ne_null : (t.insert rand element).1 ≠ null := by
  cases t with
  | null => simp [insert]
  | node l r x p =>
    rcases lt_trichotomy element x with hlt | rfl | hgt
    · rw [insert_of_lt hlt]
      split
      case isTrue h =>
        obtain ⟨l', r', x', q, hl, -⟩ := exists_node_of_below h
        simp [hl, rotateR]
      case isFalse => simp
    · simp [insert_self]
    · rw [insert_of_gt hgt]
      split
      case isTrue h =>
        obtain ⟨l', r', x', q, hr, -⟩ := exists_node_of_below h
        simp [hr, rotateL]
      case isFalse => simp

theorem insert_inorder_of_lt (h : element < x) : ((node l r x p).insert rand element).1.inorder =
    (l.insert rand element).1.inorder ++ x :: r.inorder := by
  rw [insert_of_lt h]
  split
  · rw [rotateR_inorder, inorder]
  · rw [inorder]

theorem insert_inorder_of_gt (h : element > x) : ((node l r x p).insert rand element).1.inorder =
    l.inorder ++ x :: (r.insert rand element).1.inorder := by
  rw [insert_of_gt h]
  split
  · rw [rotateL_inorder, inorder]
  · rw [inorder]

theorem mem_insert : y ∈ (t.insert rand element).1.inorder ↔ y = element ∨ y ∈ t.inorder := by
  induction t generalizing rand with
  | null => simp [insert, inorder]
  | node l r x p hl hr =>
    rcases lt_trichotomy element x with hlt | rfl | hgt
    · rw [insert_inorder_of_lt hlt, inorder, List.mem_append, hl, List.mem_append, or_assoc]
    · have hx : element ∈ (node l r element p).inorder := by simp [inorder]
      rw [insert_self]
      exact ⟨.inr, fun h => h.elim (· ▸ hx) id⟩
    · rw [insert_inorder_of_gt hgt, inorder, List.mem_append, List.mem_cons, hr, List.mem_append,
        List.mem_cons]
      tauto

theorem insert_sorted (h : t.inorder.Pairwise (· < ·)) :
    (t.insert rand element).1.inorder.Pairwise (· < ·) := by
  induction t generalizing rand with
  | null => simp [insert, inorder]
  | node l r x p hl hr =>
    rw [inorder, List.pairwise_append, List.pairwise_cons] at h
    obtain ⟨hsl, ⟨hxr, hsr⟩, hlr⟩ := h
    rcases lt_trichotomy element x with hlt | rfl | hgt
    · rw [insert_inorder_of_lt hlt, List.pairwise_append, List.pairwise_cons]
      refine ⟨hl hsl, ⟨hxr, hsr⟩, fun a ha b hb => ?_⟩
      obtain rfl | ha := (mem_insert).mp ha
      · obtain rfl | hb := List.mem_cons.mp hb
        · exact hlt
        · exact hlt.trans (hxr b hb)
      · exact hlr a ha b hb
    · rw [insert_self, inorder, List.pairwise_append, List.pairwise_cons]
      exact ⟨hsl, ⟨hxr, hsr⟩, hlr⟩
    · rw [insert_inorder_of_gt hgt, List.pairwise_append, List.pairwise_cons]
      refine ⟨hsl, ⟨fun b hb => ?_, hr hsr⟩, fun a ha b hb => ?_⟩
      · obtain rfl | hb := (mem_insert).mp hb
        · exact hgt
        · exact hxr b hb
      · obtain rfl | hb := List.mem_cons.mp hb
        · exact hlr a ha _ List.mem_cons_self
        · obtain rfl | hb := (mem_insert).mp hb
          · exact (hlr a ha x List.mem_cons_self).trans hgt
          · exact hlr a ha b (List.mem_cons_of_mem _ hb)

-- The top of a tree after an insertion may have a small priority, its children have not.
theorem insert_isHeap (h : t.IsHeap) (ha : t.Above b) :
    (t.insert rand element).1.IsHeap ∧
    ∀ l r x p, (t.insert rand element).1 = node l r x p → l.Above b ∧ r.Above b := by
  induction t generalizing rand b with
  | null =>
    refine ⟨by simp [insert, IsHeap], fun l r x p he => ?_⟩
    cases he
    simp
  | node l r x p hl hr =>
    have ⟨hla, hra, hlh, hrh⟩ := h
    have hb : b ≤ p := (above_node).mp ha
    rcases lt_trichotomy element x with hlt | rfl | hgt
    · have ⟨hh, hc⟩ := @hl _ rand hlh hla
      rw [insert_of_lt hlt]
      split
      case isTrue hq =>
        obtain ⟨l₁, r₁, x₁, q, he, hq⟩ := exists_node_of_below hq
        rw [he] at hh ⊢
        have ⟨hl₁, hr₁, hlh₁, hrh₁⟩ := hh
        have ⟨hlp, hrp⟩ := hc _ _ _ _ he
        refine ⟨⟨hl₁, (above_node).mpr (UInt32.le_of_lt hq), hlh₁, hrp, hra, hrh₁, hrh⟩, ?_⟩
        intro _ _ _ _ he
        cases he
        exact ⟨hlp.mono hb, (above_node).mpr hb⟩
      case isFalse hq =>
        refine ⟨⟨above_of_not_below hq, hra, hh, hrh⟩, ?_⟩
        intro _ _ _ _ he
        cases he
        exact ⟨(above_of_not_below hq).mono hb, hra.mono hb⟩
    · rw [insert_self]
      refine ⟨h, ?_⟩
      intro _ _ _ _ he
      cases he
      exact ⟨hla.mono hb, hra.mono hb⟩
    · have ⟨hh, hc⟩ := @hr _ rand hrh hra
      rw [insert_of_gt hgt]
      split
      case isTrue hq =>
        obtain ⟨l₁, r₁, x₁, q, he, hq⟩ := exists_node_of_below hq
        rw [he] at hh ⊢
        have ⟨hl₁, hr₁, hlh₁, hrh₁⟩ := hh
        have ⟨hlp, hrp⟩ := hc _ _ _ _ he
        refine ⟨⟨(above_node).mpr (UInt32.le_of_lt hq), hr₁, ⟨hla, hlp, hlh, hlh₁⟩, hrh₁⟩, ?_⟩
        intro _ _ _ _ he
        cases he
        exact ⟨(above_node).mpr hb, hrp.mono hb⟩
      case isFalse hq =>
        refine ⟨⟨hla, above_of_not_below hq, hlh, hh⟩, ?_⟩
        intro _ _ _ _ he
        cases he
        exact ⟨hla.mono hb, (above_of_not_below hq).mono hb⟩

-- An element that is there already changes nothing, not even the generator.
theorem insert_of_mem (hs : t.inorder.Pairwise (· < ·)) (h : t.IsHeap) (hm : element ∈ t.inorder) :
    t.insert rand element = (t, rand) := by
  induction t with
  | null => cases hm
  | node l r x p hl hr =>
    have ⟨hla, hra, hlh, hrh⟩ := h
    rw [inorder, List.pairwise_append, List.pairwise_cons] at hs
    obtain ⟨hsl, ⟨hxr, hsr⟩, hlr⟩ := hs
    rw [inorder, List.mem_append, List.mem_cons] at hm
    obtain hm | rfl | hm := hm
    · have hlt := hlr _ hm x List.mem_cons_self
      rw [insert, if_pos hlt, hl hsl hlh hm]
      dsimp only
      rw [if_neg hla.not_below]
    · exact insert_self
    · have hgt := hxr _ hm
      rw [insert, if_neg hgt.not_gt, if_pos hgt, hr hsr hrh hm]
      dsimp only
      rw [if_neg hra.not_below]

end insert

section remove

theorem remove_of_lt (h : element < x) :
    (node l r x p).remove element = node (l.remove element) r x p := by
  rw [remove, if_pos h]

theorem remove_of_gt (h : element > x) :
    (node l r x p).remove element = node l (r.remove element) x p := by
  rw [remove, if_neg h.not_gt, if_pos h]

theorem remove_self : (node l r x p).remove x = (node l r x p).sink := by
  rw [remove, if_neg (lt_irrefl x), if_neg (lt_irrefl x)]

theorem remove_inorder (hs : t.inorder.Pairwise (· < ·)) :
    (t.remove element).inorder = t.inorder.filter (· ≠ element) := by
  induction t with
  | null => rfl
  | node l r x p hl hr =>
    rw [inorder, List.pairwise_append, List.pairwise_cons] at hs
    obtain ⟨hsl, ⟨hxr, hsr⟩, hlr⟩ := hs
    rw [inorder, List.filter_append, List.filter_cons]
    rcases lt_trichotomy element x with hlt | rfl | hgt
    · -- the elements on the other side are greater
      have hr : r.inorder.filter (· ≠ element) = r.inorder :=
        List.filter_eq_self.mpr fun y hy => by simpa using (hlt.trans (hxr y hy)).ne'
      rw [remove_of_lt hlt, inorder, hl hsl, hr, if_pos (by simpa using hlt.ne')]
    · have hl : l.inorder.filter (· ≠ element) = l.inorder :=
        List.filter_eq_self.mpr fun y hy => by simpa using (hlr y hy _ List.mem_cons_self).ne
      have hr : r.inorder.filter (· ≠ element) = r.inorder :=
        List.filter_eq_self.mpr fun y hy => by simpa using (hxr y hy).ne'
      rw [remove_self, sink_inorder, hl, hr, if_neg (by simp)]
    · have hl : l.inorder.filter (· ≠ element) = l.inorder :=
        List.filter_eq_self.mpr fun y hy => by
          simpa using ((hlr y hy _ List.mem_cons_self).trans hgt).ne
      rw [remove_of_gt hgt, inorder, hr hsr, hl, if_pos (by simpa using hgt.ne)]

theorem remove_isHeap (h : t.IsHeap) (ha : t.Above b) :
    (t.remove element).IsHeap ∧ (t.remove element).Above b := by
  induction t generalizing b with
  | null => exact ⟨h, ha⟩
  | node l r x p hl hr =>
    have ⟨hla, hra, hlh, hrh⟩ := h
    have hb := (above_node).mp ha
    rcases lt_trichotomy element x with hlt | rfl | hgt
    · have ⟨hh, hp⟩ := hl hlh hla
      rw [remove_of_lt hlt]
      exact ⟨⟨hp, hra, hh, hrh⟩, (above_node).mpr hb⟩
    · rw [remove_self]
      exact ⟨sink_isHeap h, sink_above (hla.mono hb) (hra.mono hb)⟩
    · have ⟨hh, hp⟩ := hr hrh hra
      rw [remove_of_gt hgt]
      exact ⟨⟨hla, hp, hlh, hh⟩, (above_node).mpr hb⟩

theorem remove_of_not_mem (hs : t.inorder.Pairwise (· < ·)) (hm : element ∉ t.inorder) :
    t.remove element = t := by
  induction t with
  | null => rfl
  | node l r x p hl hr =>
    rw [inorder, List.pairwise_append, List.pairwise_cons] at hs
    obtain ⟨hsl, ⟨hxr, hsr⟩, hlr⟩ := hs
    rw [inorder, List.mem_append, List.mem_cons, not_or, not_or] at hm
    obtain ⟨hml, hmx, hmr⟩ := hm
    rcases lt_trichotomy element x with hlt | rfl | hgt
    · rw [remove_of_lt hlt, hl hsl hml]
    · exact absurd rfl hmx
    · rw [remove_of_gt hgt, hr hsr hmr]

end remove

-- The elements are different ones, and they are ordered from the left to the right.
@[grind =]
def IsSearchTree : Node E → Prop
  | null                => True
  | node left right x _ =>
    (∀ y ∈ left.inorder, y < x) ∧ (∀ y ∈ right.inorder, x < y) ∧
    left.IsSearchTree ∧ right.IsSearchTree

theorem isSearchTree_iff : t.IsSearchTree ↔ t.inorder.Pairwise (· < ·) := by
  induction t with
  | null => simp [IsSearchTree, inorder]
  | node l r x p hl hr =>
    rw [IsSearchTree, inorder, List.pairwise_append, List.pairwise_cons, hl, hr]
    constructor
    · intro ⟨hlx, hxr, hsl, hsr⟩
      refine ⟨hsl, ⟨hxr, hsr⟩, fun y hy z hz => ?_⟩
      obtain rfl | hz := List.mem_cons.mp hz
      · exact hlx y hy
      · exact (hlx y hy).trans (hxr z hz)
    · intro ⟨hsl, ⟨hxr, hsr⟩, hlr⟩
      exact ⟨fun y hy => hlr y hy x List.mem_cons_self, hxr, hsl, hsr⟩

end Node

variable {E : Type} [LinearOrder E] {t : Treap E} {s : Finset E} {e : E}

omit [LinearOrder E] in
theorem opApplyHelper_eq {σ : Type} {dg : E → σ → Int32 × σ} {node : Node E} {s : σ} :
    node.opApplyHelper dg s = visit dg node.inorder s := by
  induction node generalizing s with
  | null => rfl
  | node l r x p hl hr =>
    rw [Node.opApplyHelper, Node.inorder, visit_append, hl]
    dsimp only
    split
    · rfl
    · rw [visit, hr]

-- A treap has the elements of a set.
structure Represents (t : Treap E) (s : Finset E) : Prop where
  sorted   : t.root.inorder.Pairwise (· < ·)
  isHeap   : t.root.IsHeap
  elements : ∀ e, e ∈ t.root.inorder ↔ e ∈ s

namespace Represents

theorem init {randSeed : UInt64} : (init randSeed).Represents (∅ : Finset E) where
  sorted     := .nil
  isHeap     := trivial
  elements _ := by simp [Treap.init, Node.inorder]

theorem insert (h : t.Represents s) : (t.insert e).Represents (Insert.insert e s) where
  sorted     := Node.insert_sorted h.sorted
  isHeap     := (Node.insert_isHeap (b := 0) h.isHeap fun _ _ => UInt32.zero_le).left
  elements x := by
    rw [Finset.mem_insert, ← h.elements x]
    exact Node.mem_insert

theorem remove (h : t.Represents s) : (t.remove e).Represents (s.erase e) where
  sorted     := by
    show List.Pairwise _ (t.root.remove e).inorder
    rw [Node.remove_inorder h.sorted]
    exact h.sorted.filter _
  isHeap     := (Node.remove_isHeap (b := 0) h.isHeap fun _ _ => UInt32.zero_le).left
  elements x := by
    show x ∈ (t.root.remove e).inorder ↔ _
    rw [Node.remove_inorder h.sorted, Finset.mem_erase, ← h.elements x, List.mem_filter]
    simp [and_comm]

theorem removeAll : t.removeAll.Represents (∅ : Finset E) where
  sorted     := .nil
  isHeap     := trivial
  elements _ := by simp [Treap.removeAll, Node.inorder]

theorem sort_eq (h : t.Represents s) : s.sort = t.root.inorder := by
  have hs : s = t.root.inorder.toFinset := by
    ext e
    rw [List.mem_toFinset, h.elements]
  rw [hs, List.toFinset_sort _ (h.sorted.imp ne_of_lt)]
  exact h.sorted.imp le_of_lt

theorem insert_of_mem (h : t.Represents s) (he : e ∈ s) : t.insert e = t := by
  rw [Treap.insert, Node.insert_of_mem h.sorted h.isHeap ((h.elements e).mpr he)]

theorem remove_of_not_mem (h : t.Represents s) (he : e ∉ s) : t.remove e = t := by
  rw [Treap.remove, Node.remove_of_not_mem h.sorted (mt (h.elements e).mp he)]

end Represents

inductive Op (E : Type)
  | insert (element : E)
  | remove (element : E)
  | removeAll

def Op.apply (t : Treap E) : Op E → Treap E
  | insert e  => t.insert e
  | remove e  => t.remove e
  | removeAll => t.removeAll

-- What the operations do to a set.
def Op.applySet (s : Finset E) : Op E → Finset E
  | insert e  => Insert.insert e s
  | remove e  => s.erase e
  | removeAll => ∅

theorem Represents.apply (h : t.Represents s) (op : Op E) :
    (op.apply t).Represents (op.applySet s) :=
  match op with
  | .insert _  => h.insert
  | .remove _  => h.remove
  | .removeAll => .removeAll

theorem Represents.run (h : t.Represents s) (ops : List (Op E)) :
    (ops.foldl Op.apply t).Represents (ops.foldl Op.applySet s) := by
  induction ops generalizing t s with
  | nil => exact h
  | cons op ops hi => exact hi <| h.apply op

theorem isOrderedSet (randSeed : UInt64) (ops : List (Op E)) :
    let t := ops.foldl Op.apply (init randSeed)
    let s := ops.foldl Op.applySet ∅
    t.root.IsSearchTree ∧ t.root.IsHeap ∧
    (∀ (σ : Type) (dg : E → σ → Int32 × σ) (st : σ), t.opApply dg st = visit dg s.sort st) ∧
    (∀ e ∈ s, t.insert e = t) ∧ (∀ e, e ∉ s → t.remove e = t) := by
  intro t s
  have h : t.Represents s := Represents.init.run ops
  refine ⟨Node.isSearchTree_iff.mpr h.sorted, h.isHeap, fun σ dg st => ?_, ?_, ?_⟩
  · rw [opApply, opApplyHelper_eq, h.sort_eq]
  · exact fun e => h.insert_of_mem
  · exact fun e => h.remove_of_not_mem

end Treap
end Runtime.Container
