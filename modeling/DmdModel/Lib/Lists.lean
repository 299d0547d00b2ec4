import Mathlib

-- Loops over the elements of a container whose body can end them: the body has a state, and its first
-- result that is not 0 is the result of the loop.

namespace Visit

variable {α β σ ρ : Type _} [Zero ρ] [DecidableEq ρ]

def visit (dg : α → σ → ρ × σ) : List α → σ → ρ × σ
  | [], s      => (0, s)
  | x :: xs, s =>
    let (result, s) := dg x s
    if result ≠ 0 then (result, s) else visit dg xs s

variable {dg : α → σ → ρ × σ} {x : α} {xs ys : List α} {s : σ}

theorem visit_append : visit dg (xs ++ ys) s =
    if (visit dg xs s).1 ≠ 0 then visit dg xs s else visit dg ys (visit dg xs s).2 := by
  induction xs generalizing s with
  | nil => simp [visit]
  | cons x xs hi =>
    rw [List.cons_append, visit, visit]
    by_cases hr : (dg x s).1 = 0
    case pos => simp [hr, hi]
    case neg => simp [hr]

theorem visit_map {f : β → α} {ys : List β} :
    visit dg (ys.map f) s = visit (fun y => dg (f y)) ys s := by
  induction ys generalizing s with
  | nil => rfl
  | cons y ys hi =>
    rw [List.map_cons, visit, visit]
    by_cases hr : (dg (f y) s).1 = 0
    case pos => simp [hr, hi]
    case neg => simp [hr]

end Visit

-- Overwriting a range of a list, and the loops over a range of indices that do so.

namespace ListFill

variable {α ε : Type _} {l : List α} {f : Nat → α} {i j n : Nat}

-- The list with `f j` in place `j`, for the `n` places from `i` on.
def fill (l : List α) (i n : Nat) (f : Nat → α) : List α :=
  l.mapIdx fun j a => if i ≤ j ∧ j < i + n then f j else a

@[simp]
theorem length_fill : (fill l i n f).length = l.length := by
  simp [fill]

theorem getElem?_fill :
    (fill l i n f)[j]? = if i ≤ j ∧ j < i + n then l[j]?.map fun _ => f j else l[j]? := by
  rw [fill, List.getElem?_mapIdx]
  split <;> simp

@[simp]
theorem fill_zero : fill l i 0 f = l := by
  apply List.ext_getElem?
  intro j
  rw [getElem?_fill, if_neg (by omega)]

theorem fill_succ : fill l i (n + 1) f = fill (l.set i (f i)) (i + 1) n f := by
  apply List.ext_getElem?
  intro j
  rw [getElem?_fill, getElem?_fill, List.getElem?_set]
  by_cases he : i = j
  case pos =>
    subst he
    rw [if_pos (by omega), if_neg (by omega), if_pos rfl]
    by_cases hl : i < l.length <;> simp [hl]
  case neg =>
    rw [if_neg he]
    by_cases hr : i + 1 ≤ j ∧ j < i + 1 + n
    case pos => rw [if_pos (by omega), if_pos hr]
    case neg => rw [if_neg (by omega), if_neg hr]

theorem fill_fill {m : Nat} : fill (fill l i n f) (i + n) m f = fill l i (n + m) f := by
  apply List.ext_getElem?
  intro j
  rw [getElem?_fill, getElem?_fill, getElem?_fill]
  by_cases hr : i ≤ j ∧ j < i + n
  case pos => rw [if_neg (by omega), if_pos hr, if_pos (by omega)]
  case neg =>
    rw [if_neg hr]
    by_cases hm : i + n ≤ j ∧ j < i + n + m
    case pos => rw [if_pos hm, if_pos (by omega)]
    case neg => rw [if_neg hm, if_neg (by omega)]

-- A loop whose steps are single writes.
theorem foldlM_fill {σ : Type _} {put : σ → List α → σ} {get : σ → List α} {s : σ}
    {step : σ → Nat → Except ε σ} (hself : put s (get s) = s)
    (hstep : ∀ l j, i ≤ j → j < i + n → (∀ k, j ≤ k → l[k]? = (get s)[k]?) →
      step (put s l) j = .ok (put s (l.set j (f j)))) :
    (List.range' i n).foldlM step s = .ok (put s (fill (get s) i n f)) := by
  suffices h : ∀ m k l, k + m = i + n → i ≤ k → (∀ j, k ≤ j → l[j]? = (get s)[j]?) →
      (List.range' k m).foldlM step (put s l) = .ok (put s (fill l k m f)) by
    have := h n i (get s) rfl (Nat.le_refl i) fun _ _ => rfl
    rwa [hself] at this
  intro m
  induction m with
  | zero =>
    intro k l _ _ _
    simp only [List.range'_zero, List.foldlM_nil, fill_zero]
    rfl
  | succ m hi =>
    intro k l hkm hk hl
    rw [List.range'_succ, List.foldlM_cons, hstep l k hk (by omega) hl, fill_succ]
    refine hi (k + 1) _ (by omega) (by omega) fun j hj => ?_
    rw [List.getElem?_set_ne (by omega)]
    exact hl j (by omega)

end ListFill

-- Lists in memory, where each cell has the address of the next one.

namespace LinkedList

variable {ι : Type*} {next next' : ι → Option ι} {p : Option ι} {x y : ι} {pre xs : List ι}

def Linked (next : ι → Option ι) : Option ι → List ι → Prop
  | p, []      => p = none
  | p, x :: xs => p = some x ∧ Linked next (next x) xs

theorem linked_congr (h : ∀ x ∈ xs, next x = next' x) : Linked next p xs ↔ Linked next' p xs := by
  induction xs generalizing p
  case nil => rfl
  case cons x xs ih =>
    rw [Linked, Linked, h x List.mem_cons_self, ih fun z hz => h z (List.mem_cons_of_mem x hz)]

theorem Linked.next_eq (h : Linked next p (pre ++ x :: xs)) : next x = xs.head? := by
  induction pre generalizing p
  case nil =>
    obtain ⟨-, h⟩ := h
    cases xs
    case nil       => exact h
    case cons y ys => exact h.1
  case cons z pre ih => exact ih h.2

-- A cell is taken out of a list when the one before it gets its link.
theorem Linked.unlink (h : Linked next p (pre ++ x :: y :: xs)) (hnodup : (pre ++ x :: y :: xs).Nodup)
    (hx : next' x = next y) (hother : ∀ z ∈ pre ++ xs, next' z = next z) : Linked next' p (pre ++ x :: xs) := by
  induction pre generalizing p
  case nil =>
    obtain ⟨hp, -, h⟩ := h
    refine ⟨hp, ?_⟩
    rw [hx]
    exact (linked_congr hother).mpr h
  case cons z pre ih =>
    obtain ⟨hp, h⟩ := h
    rw [← hother z List.mem_cons_self] at h
    exact ⟨hp, ih h (List.nodup_cons.mp hnodup).2 fun w hw => hother w (List.mem_cons_of_mem z hw)⟩

end LinkedList

-- The search for a value in a list that is sorted by a strict order, by comparing the value with one of the elements
-- and going on with the elements on one of its sides.

namespace SortedSearch

variable {α : Type*} {r : α → α → Prop} {xs : List α} {x m : α} {i mid low high : Nat}

-- The indices at which the value can be.
def Within (xs : List α) (x : α) (low high : Nat) : Prop :=
  ∀ i : Nat, xs[i]? = some x → low ≤ i ∧ i < high

theorem Within.all : Within xs x 0 xs.length := by
  intro i hi
  have ⟨hlt, _⟩ := List.getElem?_eq_some_iff.mp hi
  exact ⟨i.zero_le, hlt⟩

theorem Within.absent (h : Within xs x low high) (hle : high ≤ low) : x ∉ xs := by
  intro hx
  have ⟨i, hi⟩ := List.mem_iff_getElem?.mp hx
  have hwithin := h i hi
  omega

theorem rel_of_lt (hs : xs.Pairwise r) (hi : xs[i]? = some x) (hm : xs[mid]? = some m) (h : i < mid) : r x m := by
  have ⟨hilt, hix⟩ := List.getElem?_eq_some_iff.mp hi
  have ⟨hmlt, hmx⟩ := List.getElem?_eq_some_iff.mp hm
  have hrel := List.pairwise_iff_getElem.mp hs i mid hilt hmlt h
  rwa [hix, hmx] at hrel

variable [Std.Asymm r]

theorem index_unique (hs : xs.Pairwise r) (hi : xs[i]? = some x) (hm : xs[mid]? = some x) : i = mid := by
  rcases Nat.lt_trichotomy i mid with h | h | h
  case inl =>
    have hrel := rel_of_lt hs hi hm h
    exact (Std.Asymm.asymm _ _ hrel hrel).elim
  case inr.inl => exact h
  case inr.inr =>
    have hrel := rel_of_lt hs hm hi h
    exact (Std.Asymm.asymm _ _ hrel hrel).elim

theorem index_lt (hs : xs.Pairwise r) (hi : xs[i]? = some x) (hm : xs[mid]? = some m) (h : r x m) : i < mid := by
  rcases Nat.lt_trichotomy i mid with hlt | heq | hgt
  case inl => exact hlt
  case inr.inl =>
    rw [heq, hm, Option.some.injEq] at hi
    rw [hi] at h
    exact (Std.Asymm.asymm _ _ h h).elim
  case inr.inr => exact (Std.Asymm.asymm _ _ h (rel_of_lt hs hm hi hgt)).elim

theorem lt_index (hs : xs.Pairwise r) (hi : xs[i]? = some x) (hm : xs[mid]? = some m) (h : r m x) : mid < i := by
  rcases Nat.lt_trichotomy i mid with hlt | heq | hgt
  case inl => exact (Std.Asymm.asymm _ _ h (rel_of_lt hs hi hm hlt)).elim
  case inr.inl =>
    rw [heq, hm, Option.some.injEq] at hi
    rw [hi] at h
    exact (Std.Asymm.asymm _ _ h h).elim
  case inr.inr => exact hgt

theorem Within.left (h : Within xs x low high) (hs : xs.Pairwise r) (hm : xs[mid]? = some m) (hr : r x m) :
    Within xs x low mid :=
  fun i hi => ⟨(h i hi).left, index_lt hs hi hm hr⟩

theorem Within.right (h : Within xs x low high) (hs : xs.Pairwise r) (hm : xs[mid]? = some m) (hr : r m x) :
    Within xs x (mid + 1) high :=
  fun i hi => ⟨lt_index hs hi hm hr, (h i hi).right⟩

end SortedSearch
