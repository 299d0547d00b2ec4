import Mathlib

-- Binary trees over consecutive leaves, whose left subtrees are complete, built with a stack.

namespace TreeStack

variable {α : Type} (merge : α → α → α) (leaf : Nat → α)

-- The largest power of two below `n`
def half (n : Nat) : Nat :=
  2 ^ (n - 1).log2

theorem half_lt {n : Nat} (hn : 1 < n) : half n < n := by
  have hle : half n ≤ n - 1 := Nat.log2_self_le (by omega)
  omega

theorem half_pos (n : Nat) : 0 < half n :=
  Nat.two_pow_pos _

theorem half_eq {n j : Nat} (hlt : 2 ^ j < n) (hle : n ≤ 2 ^ (j + 1)) : half n = 2 ^ j := by
  have hpos := Nat.two_pow_pos j
  have hlog : (n - 1).log2 = j := (Nat.log2_eq_iff (by omega)).mpr ⟨by omega, by omega⟩
  rw [half, hlog]

-- The tree of the `n` leaves from `i` on
def tree (i n : Nat) : α :=
  if n ≤ 1 then
    leaf i
  else
    merge (tree i (half n)) (tree (i + half n) (n - half n))
termination_by n
decreasing_by
  · exact half_lt (by omega)
  · exact Nat.sub_lt (by omega) (half_pos n)

variable {merge leaf} {i j k m n : Nat} {t : α} {stack : List α}

theorem tree_one : tree merge leaf i 1 = leaf i := by
  rw [tree, if_pos le_rfl]

theorem tree_add (hm : 0 < m) (hle : m ≤ 2 ^ j) :
    tree merge leaf i (2 ^ j + m) = merge (tree merge leaf i (2 ^ j)) (tree merge leaf (i + 2 ^ j) m) := by
  have hpos := Nat.two_pow_pos j
  have hhalf : half (2 ^ j + m) = 2 ^ j := half_eq (by omega) (by rw [pow_succ]; omega)
  rw [tree, if_neg (by omega), hhalf, Nat.add_sub_cancel_left]

variable (merge leaf)

-- The trees of the first `n` leaves, one for each bit of `n` from bit `k` on, the last one on top
inductive Forest : Nat → List α → Nat → Prop
  | nil {k : Nat} : Forest k [] 0
  | skip {k n : Nat} {stack : List α} : Forest (k + 1) stack n → Forest k stack n
  | cons {k n : Nat} {stack : List α} :
    Forest (k + 1) stack n → Forest k (tree merge leaf n (2 ^ k) :: stack) (n + 2 ^ k)

variable {merge leaf}

namespace Forest

theorem dvd (h : Forest merge leaf k stack n) : 2 ^ k ∣ n := by
  induction h
  case nil => exact Nat.dvd_zero _
  case skip k _ _ _ ih => exact (Nat.pow_dvd_pow 2 (Nat.le_succ k)).trans ih
  case cons k _ _ _ ih => exact ((Nat.pow_dvd_pow 2 (Nat.le_succ k)).trans ih).add (Nat.dvd_refl _)

theorem even (h : Forest merge leaf (k + 1) stack n) : n / 2 ^ k % 2 = 0 := by
  obtain ⟨d, rfl⟩ := h.dvd
  rw [pow_succ, Nat.mul_assoc, Nat.mul_div_cancel_left _ (Nat.two_pow_pos k), Nat.mul_mod_right]

theorem odd (h : Forest merge leaf (k + 1) stack n) : (n + 2 ^ k) / 2 ^ k % 2 = 1 := by
  have heven := h.even
  rw [Nat.add_div_right _ (Nat.two_pow_pos k)]
  omega

-- A tree of that size is on top if and only if the bit is set.
theorem of_odd (h : Forest merge leaf k stack n) (hodd : n / 2 ^ k % 2 = 1) :
    ∃ rest m, stack = tree merge leaf m (2 ^ k) :: rest ∧ n = m + 2 ^ k ∧ Forest merge leaf (k + 1) rest m := by
  cases h
  case nil => rw [Nat.zero_div] at hodd; cases hodd
  case skip hrest => rw [hrest.even] at hodd; cases hodd
  case cons hrest => exact ⟨_, _, rfl, rfl, hrest⟩

theorem of_even (h : Forest merge leaf k stack n) (heven : n / 2 ^ k % 2 = 0) :
    Forest merge leaf (k + 1) stack n := by
  cases h
  case nil => exact .nil
  case skip hrest => exact hrest
  case cons hrest => rw [hrest.odd] at heven; cases heven

theorem zero (h : Forest merge leaf k stack n) : Forest merge leaf 0 stack n := by
  induction k
  case zero => exact h
  case succ k ih => exact ih h.skip

-- As many trees as a number of that size can have bits
theorem length_le (h : Forest merge leaf k stack n) : (2 ^ stack.length - 1) * 2 ^ k ≤ n := by
  induction h
  case nil => exact (Nat.zero_mul _).le
  case skip k _ _ _ ih => exact (Nat.mul_le_mul_left _ (Nat.pow_le_pow_right (by decide) (Nat.le_succ k))).trans ih
  case cons k n stack _ ih =>
    have hpos := Nat.one_le_two_pow (n := stack.length)
    have hsum : (2 ^ (stack.length + 1) - 1) * 2 ^ k = (2 ^ stack.length - 1) * 2 ^ (k + 1) + 2 ^ k := by
      obtain ⟨d, hd⟩ := Nat.exists_eq_add_of_le hpos
      rw [pow_succ, hd, Nat.add_sub_cancel_left, show (1 + d) * 2 - 1 = 2 * d + 1 by omega]
      ring
    rw [List.length_cons, hsum]
    exact Nat.add_le_add_right ih _

theorem eq_zero (h : Forest merge leaf k [] n) : n = 0 := by
  generalize hs : ([] : List α) = stack at h
  induction h
  case nil => rfl
  case skip ih => exact ih hs
  case cons => cases hs

theorem top (h : Forest merge leaf k (t :: stack) n) (hm : m ≤ 2 ^ k) :
    ∃ i j, n = i + 2 ^ j ∧ t = tree merge leaf i (2 ^ j) ∧ m ≤ 2 ^ j ∧ Forest merge leaf (j + 1) stack i := by
  generalize hs : t :: stack = stack' at h
  induction h
  case nil => cases hs
  case skip k _ _ _ ih => exact ih (hm.trans (Nat.pow_le_pow_right (by decide) (Nat.le_succ k))) hs
  case cons k i rest hrest _ =>
    obtain ⟨rfl, rfl⟩ := List.cons.inj hs
    exact ⟨i, k, rfl, rfl, hm, hrest⟩

end Forest

-- The trees of the stack put together, the last two of them by `root`
def close (merge root : α → α → α) : List α → α → α
  | [], cv         => cv
  | t :: stack, cv => close merge root stack (if stack.isEmpty then root t cv else merge t cv)

theorem Forest.close_eq (root : α → α → α) (h : Forest merge leaf k (t :: stack) n) (hm : 0 < m) (hle : m ≤ 2 ^ k) :
    close merge root (t :: stack) (tree merge leaf n m) =
      root (tree merge leaf 0 (half (n + m))) (tree merge leaf (half (n + m)) (n + m - half (n + m))) := by
  induction stack generalizing k m n t
  case nil =>
    obtain ⟨i, j, rfl, rfl, hmj, hrest⟩ := h.top hle
    obtain rfl := hrest.eq_zero
    have hhalf : half (2 ^ j + m) = 2 ^ j := half_eq (by omega) (by rw [pow_succ]; omega)
    rw [Nat.zero_add, hhalf, Nat.add_sub_cancel_left]
    rfl
  case cons t' stack ih =>
    obtain ⟨i, j, rfl, rfl, hmj, hrest⟩ := h.top hle
    have hadd := ih hrest (m := 2 ^ j + m) (by omega) (by rw [pow_succ]; omega)
    rw [tree_add hm hmj, ← Nat.add_assoc] at hadd
    exact hadd

end TreeStack
