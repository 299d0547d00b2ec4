import Mathlib

-- Numbers as patterns of bits: runs of ones, rotations and copies.

namespace BitPatterns

variable {e x y n r i j k : Nat}

-- A number whose ones are all at the right.
def IsRun (x : Nat) : Prop :=
  ∃ k, x = 2 ^ k - 1

def popcount (x : Nat) : Nat :=
  if x = 0 then 0 else x % 2 + popcount (x / 2)
termination_by x

-- The lowest e bits, rotated to the right.
def ror (e x r : Nat) : Nat :=
  (x >>> r ||| x <<< (e - r)) % 2 ^ e

-- n copies of the lowest e bits.
def copies (e x : Nat) : (n : Nat) → Nat
  | 0     => 0
  | n + 1 => x + 2 ^ e * copies e x n

theorem succ_and_self_eq_zero_iff : (x + 1) &&& x = 0 ↔ IsRun x := by
  have h := Nat.and_sub_one_eq_zero_iff_isPowerOfTwo (Nat.succ_ne_zero x)
  rw [Nat.succ_eq_add_one, Nat.add_sub_cancel] at h
  rw [h]
  constructor
  case mp  => exact fun ⟨k, hk⟩ => ⟨k, by omega⟩
  case mpr =>
    intro ⟨k, hk⟩
    have hpos := Nat.two_pow_pos k
    exact ⟨k, by omega⟩

theorem popcount_zero : popcount 0 = 0 := by
  rw [popcount, if_pos rfl]

theorem popcount_two_mul_add (h : n < 2) : popcount (2 * x + n) = popcount x + n := by
  by_cases hx : 2 * x + n = 0
  case pos =>
    obtain ⟨rfl, rfl⟩ : x = 0 ∧ n = 0 := by omega
    rfl
  case neg =>
    rw [popcount, if_neg hx, Nat.mul_add_mod, Nat.mod_eq_of_lt h, Nat.mul_add_div (by decide), Nat.div_eq_of_lt h,
      Nat.add_zero, Nat.add_comm]

theorem popcount_mul_add (h : y < 2 ^ k) : popcount (2 ^ k * x + y) = popcount x + popcount y := by
  induction k generalizing y
  case zero =>
    obtain rfl : y = 0 := by omega
    rw [popcount_zero, Nat.pow_zero, Nat.one_mul]
    rfl
  case succ k ih =>
    have hbit : y % 2 < 2 := Nat.mod_lt _ (by decide)
    have hsplit : 2 ^ (k + 1) * x + y = 2 * (2 ^ k * x + y / 2) + y % 2 := by
      rw [Nat.pow_succ, Nat.mul_comm (2 ^ k), Nat.mul_assoc, Nat.mul_add]
      omega
    have hy := @popcount_two_mul_add (y / 2) (y % 2) hbit
    rw [show 2 * (y / 2) + y % 2 = y by omega] at hy
    rw [hsplit, popcount_two_mul_add hbit, ih (by omega), hy, Nat.add_assoc]

theorem popcount_run : popcount (2 ^ k - 1) = k := by
  induction k
  case zero => exact popcount_zero
  case succ k ih =>
    have hpos := Nat.two_pow_pos k
    rw [show 2 ^ (k + 1) - 1 = 2 * (2 ^ k - 1) + 1 by omega, popcount_two_mul_add (by decide), ih]

theorem copies_lt (h : x < 2 ^ e) : copies e x n < 2 ^ (e * n) := by
  induction n
  case zero => exact Nat.one_pos
  case succ n ih =>
    calc
      x + 2 ^ e * copies e x n
      _ < 2 ^ e + 2 ^ e * copies e x n := Nat.add_lt_add_right h _
      _ = 2 ^ e * (copies e x n + 1)   := by rw [Nat.mul_succ, Nat.add_comm]
      _ ≤ 2 ^ e * 2 ^ (e * n)          := Nat.mul_le_mul_left _ ih
      _ = 2 ^ (e * (n + 1))            := by rw [← Nat.pow_add, Nat.mul_succ, Nat.add_comm]

theorem testBit_copies (h : x < 2 ^ e) (hi : i < e * n) : (copies e x n).testBit i = x.testBit (i % e) := by
  induction n generalizing i
  case zero => omega
  case succ n ih =>
    rw [copies, Nat.add_comm, Nat.testBit_two_pow_mul_add _ h]
    by_cases hie : i < e
    case pos => rw [if_pos hie, Nat.mod_eq_of_lt hie]
    case neg => rw [if_neg hie, ih (by rw [Nat.mul_succ] at hi; omega), ← Nat.mod_eq_sub_mod (by omega)]

theorem copies_mod (h : x < 2 ^ e) (hn : 0 < n) : copies e x n % 2 ^ e = x := by
  obtain ⟨n, rfl⟩ := Nat.exists_eq_succ_of_ne_zero hn.ne'
  rw [Nat.succ_eq_add_one, copies, Nat.add_mul_mod_self_left, Nat.mod_eq_of_lt h]

theorem copies_add : copies e x (k + n) = copies e x k + 2 ^ (e * k) * copies e x n := by
  induction k
  case zero => rw [Nat.zero_add, copies, Nat.zero_add, Nat.mul_zero, Nat.pow_zero, Nat.one_mul]
  case succ k ih =>
    rw [Nat.succ_add, copies, ih, copies, Nat.mul_succ, Nat.pow_add]
    ring

-- Pairs of copies.
theorem copies_two_mul : copies e x (2 * n) = copies (2 * e) (x + 2 ^ e * x) n := by
  induction n
  case zero => rfl
  case succ n ih =>
    rw [copies, ← ih, Nat.mul_succ, copies, copies, Nat.two_mul e, Nat.pow_add]
    ring

-- A rotated run of ones covers the bits that come next from some place on.
theorem testBit_ror_run (hn : n ≤ e) (hr : r < e) (hi : i < e) :
    (ror e (2 ^ n - 1) r).testBit i = decide ((i + r) % e < n) := by
  rw [ror, Nat.testBit_mod_two_pow, Nat.testBit_or, Nat.testBit_shiftRight, Nat.testBit_shiftLeft,
    Nat.testBit_two_pow_sub_one, Nat.testBit_two_pow_sub_one, ← Bool.decide_and, ← Bool.decide_or, ← Bool.decide_and,
    decide_eq_decide]
  by_cases hwrap : i + r < e
  case pos =>
    rw [Nat.mod_eq_of_lt hwrap]
    omega
  case neg =>
    rw [Nat.mod_eq_sub_mod (by omega), Nat.mod_eq_of_lt (by omega)]
    omega

theorem ror_lt : ror e x r < 2 ^ e :=
  Nat.mod_lt _ (Nat.two_pow_pos e)

theorem eq_of_testBit (hx : x < 2 ^ e) (hy : y < 2 ^ e) (h : ∀ i < e, x.testBit i = y.testBit i) : x = y := by
  refine Nat.eq_of_testBit_eq fun i => ?_
  by_cases hi : i < e
  case pos => exact h i hi
  case neg =>
    have hle : 2 ^ e ≤ 2 ^ i := Nat.pow_le_pow_right (by decide) (not_lt.mp hi)
    rw [Nat.testBit_lt_two_pow (hx.trans_le hle), Nat.testBit_lt_two_pow (hy.trans_le hle)]

theorem two_pow_mul_lt (h : k + n ≤ e) (hx : x < 2 ^ n) : 2 ^ k * x < 2 ^ e :=
  calc
    2 ^ k * x
    _ < 2 ^ k * 2 ^ n := Nat.mul_lt_mul_of_pos_left hx (Nat.two_pow_pos k)
    _ = 2 ^ (k + n)   := (Nat.pow_add 2 k n).symm
    _ ≤ 2 ^ e         := Nat.pow_le_pow_right (by decide) h

theorem run_lt : 2 ^ n - 1 < 2 ^ n :=
  Nat.sub_one_lt (Nat.two_pow_pos n).ne'

theorem add_mod_of_lt (hi : i < e) (hr : r < e) : (i + r) % e = if i + r < e then i + r else i + r - e := by
  split
  case isTrue h  => exact Nat.mod_eq_of_lt h
  case isFalse h => rw [Nat.mod_eq_sub_mod (not_lt.mp h), Nat.mod_eq_of_lt (by omega)]

-- A run that is not cut by the rotation.
theorem ror_run_inside (h : k + n ≤ e) (hk : k < e) : ror e (2 ^ n - 1) ((e - k) % e) = 2 ^ k * (2 ^ n - 1) := by
  refine eq_of_testBit ror_lt (two_pow_mul_lt h run_lt) fun i hi => ?_
  rw [testBit_ror_run (by omega) (Nat.mod_lt _ (by omega)) hi, Nat.testBit_two_pow_mul, Nat.testBit_two_pow_sub_one,
    ← Bool.decide_and, decide_eq_decide, add_mod_of_lt hi (Nat.mod_lt _ (by omega))]
  by_cases h0 : k = 0
  case pos =>
    rw [h0, Nat.sub_zero, Nat.mod_self]
    split <;> omega
  case neg =>
    rw [Nat.mod_eq_of_lt (show e - k < e by omega)]
    split <;> omega

theorem testBit_two_runs (h : k ≤ j) : (2 ^ j * (2 ^ n - 1) + (2 ^ k - 1)).testBit i =
    decide (i < k ∨ j ≤ i ∧ i < j + n) := by
  have hlow : 2 ^ k - 1 < 2 ^ j := (run_lt).trans_le (Nat.pow_le_pow_right (by decide) h)
  rw [Nat.testBit_two_pow_mul_add _ hlow, Nat.testBit_two_pow_sub_one, Nat.testBit_two_pow_sub_one]
  split <;> rw [decide_eq_decide] <;> omega

theorem two_runs_lt (h : k ≤ j) (he : j + n ≤ e) : 2 ^ j * (2 ^ n - 1) + (2 ^ k - 1) < 2 ^ e := by
  have hlow : 2 ^ k - 1 < 2 ^ j := (run_lt).trans_le (Nat.pow_le_pow_right (by decide) h)
  calc
    2 ^ j * (2 ^ n - 1) + (2 ^ k - 1)
    _ < 2 ^ j * (2 ^ n - 1) + 2 ^ j   := Nat.add_lt_add_left hlow _
    _ = 2 ^ j * (2 ^ n - 1 + 1)       := (Nat.mul_succ _ _).symm
    _ = 2 ^ (j + n)                   := by rw [Nat.sub_add_cancel (Nat.two_pow_pos n), Nat.pow_add]
    _ ≤ 2 ^ e                         := Nat.pow_le_pow_right (by decide) he

-- A run that is cut into two pieces.
theorem ror_run_cut (h : j + k < e) :
    ror e (2 ^ (j + k) - 1) j = 2 ^ (e - j) * (2 ^ j - 1) + (2 ^ k - 1) := by
  refine eq_of_testBit ror_lt (two_runs_lt (by omega) (by omega)) fun i hi => ?_
  rw [testBit_ror_run (by omega) (by omega) hi, testBit_two_runs (by omega), add_mod_of_lt hi (by omega), decide_eq_decide]
  split <;> omega

-- Equal halves have the same bits.
theorem testBit_halves (heq : x % 2 ^ k = x / 2 ^ k) (hi : i < k) : x.testBit i = x.testBit (i + k) := by
  have hmod : (x % 2 ^ k).testBit i = x.testBit i := by
    rw [Nat.testBit_mod_two_pow, decide_eq_true hi, Bool.true_and]
  rw [← hmod, heq, Nat.testBit_div_two_pow, Nat.add_comm]

end BitPatterns
