import Mathlib

-- Positional notation, the most significant digit first. The digits are found by division by a place
-- value, which is divided by the base after each digit. It need not be a power of the base.
namespace Radix

variable {b c k m n acc : Nat} {ds : List Nat} {d : Nat}

-- The digits of `n` at the place value `m` and at the `k - 1` ones below it
def leading (b : Nat) : (k m n : Nat) → List Nat
  | 0, _, _     => []
  | k + 1, m, n => n / m :: leading b k (m / b) (n % m)

-- What they leave for the last digit
def last (b : Nat) : (k m n : Nat) → Nat
  | 0, _, n     => n
  | k + 1, m, n => last b k (m / b) (n % m)

-- The number with the digits `ds` after the ones of `acc`
def evaluate (b acc : Nat) (ds : List Nat) : Nat :=
  ds.foldl (fun n d => b * n + d) acc

@[simp] theorem evaluate_nil : evaluate b acc [] = acc :=
  rfl

@[simp] theorem evaluate_cons : evaluate b acc (d :: ds) = evaluate b (b * acc + d) ds :=
  rfl

@[simp] theorem length_leading : (leading b k m n).length = k := by
  induction k generalizing m n with
  | zero => rfl
  | succ k hi => rw [leading, List.length_cons, hi]

theorem pow_le_div (hb : 0 < b) (hm : b ^ (k + 1) ≤ m) : b ^ k ≤ m / b := by
  rw [Nat.le_div_iff_mul_le hb, ← pow_succ]
  exact hm

theorem div_lt_mul_pow (hm : m < c * b ^ (k + 1)) : m / b < c * b ^ k := by
  apply Nat.div_lt_of_lt_mul
  calc m < c * b ^ (k + 1) := hm
    _ = b * (c * b ^ k) := by ring

-- With a power of the base the digits are those of the number,
theorem evaluate_pow (hb : 0 < b) :
    b * evaluate b acc (leading b k (b ^ k) n) + last b k (b ^ k) n = acc * b ^ (k + 1) + n := by
  induction k generalizing acc n with
  | zero =>
    rw [leading, last, evaluate_nil]
    ring
  | succ k hi =>
    have hdiv : b ^ (k + 1) / b = b ^ k := by rw [pow_succ, Nat.mul_div_cancel _ hb]
    rw [leading, last, evaluate_cons, hdiv, hi]
    calc (b * acc + n / b ^ (k + 1)) * b ^ (k + 1) + n % b ^ (k + 1)
        = acc * b ^ (k + 1 + 1) + (b ^ (k + 1) * (n / b ^ (k + 1)) + n % b ^ (k + 1)) := by ring
      _ = acc * b ^ (k + 1 + 1) + n := by rw [Nat.div_add_mod]

-- and with a larger value they are those of a number that is not above it.
theorem evaluate_le (hb : 0 < b) (hm : b ^ k ≤ m) :
    b * evaluate b acc (leading b k m n) + last b k m n ≤ acc * b ^ (k + 1) + n := by
  induction k generalizing acc m n with
  | zero =>
    rw [leading, last, evaluate_nil, zero_add, pow_one, Nat.mul_comm]
  | succ k hi =>
    rw [leading, last, evaluate_cons]
    calc b * evaluate b (b * acc + n / m) (leading b k (m / b) (n % m)) + last b k (m / b) (n % m)
        ≤ (b * acc + n / m) * b ^ (k + 1) + n % m := hi (pow_le_div hb hm)
      _ = acc * b ^ (k + 1 + 1) + (b ^ (k + 1) * (n / m) + n % m) := by ring
      _ ≤ acc * b ^ (k + 1 + 1) + (m * (n / m) + n % m) := by gcongr
      _ = acc * b ^ (k + 1 + 1) + n := by rw [Nat.div_add_mod]

theorem evaluate_lt (hb : 0 < b) (hm : b ^ (k + 1) < m) (hn : m ≤ n) :
    b * evaluate b 0 (leading b (k + 1) m n) + last b (k + 1) m n < n := by
  have hpos : 0 < n / m := Nat.div_pos hn (Nat.zero_lt_of_lt hm)
  rw [leading, last, evaluate_cons, Nat.mul_zero, Nat.zero_add]
  calc b * evaluate b (n / m) (leading b k (m / b) (n % m)) + last b k (m / b) (n % m)
      ≤ n / m * b ^ (k + 1) + n % m := evaluate_le hb (pow_le_div hb hm.le)
    _ < n / m * m + n % m := Nat.add_lt_add_right (Nat.mul_lt_mul_of_pos_left hm hpos) _
    _ = n := Nat.div_add_mod' n m

-- The digits are below the base, and so is the last one.
theorem lt_of_mem_leading_pow (hb : 0 < b) (hn : n < b ^ (k + 1)) (hd : d ∈ leading b k (b ^ k) n) : d < b := by
  induction k generalizing n with
  | zero => cases hd
  | succ k hi =>
    have hdiv : b ^ (k + 1) / b = b ^ k := by rw [pow_succ, Nat.mul_div_cancel _ hb]
    rw [leading, hdiv, List.mem_cons] at hd
    obtain rfl | hd := hd
    case inl =>
      apply Nat.div_lt_of_lt_mul
      rwa [← pow_succ]
    case inr => exact hi (Nat.mod_lt _ (by positivity)) hd

theorem last_pow_lt (hb : 0 < b) (hn : n < b ^ (k + 1)) : last b k (b ^ k) n < b := by
  induction k generalizing n with
  | zero => rwa [zero_add, pow_one] at hn
  | succ k hi =>
    have hdiv : b ^ (k + 1) / b = b ^ k := by rw [pow_succ, Nat.mul_div_cancel _ hb]
    rw [last, hdiv]
    exact hi (Nat.mod_lt _ (by positivity))

-- With a larger place value a digit can be the base itself,
theorem le_of_mem_leading (hb : 0 < b) (hm : b ^ k ≤ m) (hn : n < (b + 1) * m) (hd : d ∈ leading b k m n) :
    d ≤ b := by
  induction k generalizing m n with
  | zero => cases hd
  | succ k hi =>
    have hpos : 0 < m := lt_of_lt_of_le (by positivity) hm
    rw [leading, List.mem_cons] at hd
    obtain rfl | hd := hd
    case inl =>
      apply Nat.le_of_lt_succ
      apply Nat.div_lt_of_lt_mul
      rwa [Nat.mul_comm]
    case inr =>
      cases k with
      | zero => cases hd
      | succ k =>
        have hlow := pow_le_div hb hm
        have hbase : b ≤ m / b := (Nat.le_self_pow (Nat.succ_ne_zero k) b).trans hlow
        apply hi hlow ?_ hd
        calc n % m < m := Nat.mod_lt _ hpos
          _ = b * (m / b) + m % b := (Nat.div_add_mod m b).symm
          _ < b * (m / b) + m / b := Nat.add_lt_add_left ((Nat.mod_lt _ hb).trans_le hbase) _
          _ = (b + 1) * (m / b) := by ring

-- and the last one more than that.
theorem last_lt (hb : 0 < b) (hm : b ^ (k + 1) ≤ m) (hm' : m < c * b ^ (k + 1)) :
    last b (k + 1) m n < c * b := by
  induction k generalizing m n with
  | zero =>
    rw [zero_add, pow_one] at hm hm'
    exact (Nat.mod_lt n (hb.trans_le hm)).trans hm'
  | succ k hi =>
    rw [last]
    exact hi (pow_le_div hb hm) (div_lt_mul_pow hm')

end Radix
