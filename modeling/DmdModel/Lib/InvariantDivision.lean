import Mathlib

-- Division by an invariant divisor: the quotient by `d` as the high part of a product with a fixed
-- multiplier, how such a multiplier is made smaller by halving, and division by shift and subtract.
namespace InvariantDivision

variable {N b d l m mhigh mlow n p s t x y : Nat}

-- A multiplier for the divisor `d` and dividends of `p` bits: `2 ^ l / d`, rounded up with a bounded
-- error.
structure IsMultiplier (d l p m : Nat) : Prop where
  lower : 2 ^ l < m * d
  upper : m * d ≤ 2 ^ l + 2 ^ (l - p)

theorem IsMultiplier.mul_div (h : IsMultiplier d l p m) (hp : p ≤ l) (hn : n < 2 ^ p) :
    m * n / 2 ^ l = n / d := by
  have hd : 0 < d := Nat.pos_of_ne_zero fun hd => by simpa [hd] using h.lower
  have hpow : 2 ^ (l - p) * 2 ^ p = 2 ^ l := by rw [← pow_add, Nat.sub_add_cancel hp]
  apply Nat.div_eq_of_lt_le
  case lo =>
    -- the multiplier is large enough
    calc n / d * 2 ^ l ≤ n / d * (m * d) := Nat.mul_le_mul_left _ h.lower.le
      _ = m * (n / d * d) := by ring
      _ ≤ m * n := Nat.mul_le_mul_left _ (Nat.div_mul_le_self n d)
  case hi =>
    -- the error does not reach the next quotient
    have hsmall : 2 ^ (l - p) * n < 2 ^ l := by
      calc 2 ^ (l - p) * n < 2 ^ (l - p) * 2 ^ p := Nat.mul_lt_mul_of_pos_left hn (by positivity)
        _ = 2 ^ l := hpow
    have hlt : n + 1 ≤ (n / d + 1) * d := Nat.mul_comm d _ ▸ Nat.lt_mul_div_succ n hd
    have hmd : m * n * d < (n / d + 1) * 2 ^ l * d := by
      calc m * n * d = m * d * n := by ring
        _ ≤ (2 ^ l + 2 ^ (l - p)) * n := Nat.mul_le_mul_right _ h.upper
        _ = 2 ^ l * n + 2 ^ (l - p) * n := by ring
        _ < 2 ^ l * n + 2 ^ l := by omega
        _ = 2 ^ l * (n + 1) := by ring
        _ ≤ 2 ^ l * ((n / d + 1) * d) := Nat.mul_le_mul_left _ hlt
        _ = (n / d + 1) * 2 ^ l * d := by ring
    exact Nat.lt_of_mul_lt_mul_right hmd

-- A dividend above 0, up to the bound: the product is above the quotient and does not reach above the
-- next one.
theorem IsMultiplier.mul_bounds (h : IsMultiplier d l p m) (hp : p ≤ l) (h0 : 0 < n) (hn : n ≤ 2 ^ p) :
    n / d * 2 ^ l < m * n ∧ m * n ≤ (n / d + 1) * 2 ^ l := by
  have hd : 0 < d := Nat.pos_of_ne_zero fun hd => by simpa [hd] using h.lower
  have hpow : 2 ^ (l - p) * 2 ^ p = 2 ^ l := by rw [← pow_add, Nat.sub_add_cancel hp]
  constructor
  · have hmul : n / d * d * 2 ^ l < m * d * n := by
      calc n / d * d * 2 ^ l ≤ n * 2 ^ l := Nat.mul_le_mul_right _ (Nat.div_mul_le_self n d)
        _ = 2 ^ l * n := Nat.mul_comm _ _
        _ < m * d * n := Nat.mul_lt_mul_of_pos_right h.lower h0
    have hmul' : d * (n / d * 2 ^ l) < d * (m * n) := by
      calc d * (n / d * 2 ^ l) = n / d * d * 2 ^ l := by ring
        _ < m * d * n := hmul
        _ = d * (m * n) := by ring
    exact Nat.lt_of_mul_lt_mul_left hmul'
  · have hsmall : 2 ^ (l - p) * n ≤ 2 ^ l := by
      calc 2 ^ (l - p) * n ≤ 2 ^ (l - p) * 2 ^ p := Nat.mul_le_mul_left _ hn
        _ = 2 ^ l := hpow
    have hlt : n + 1 ≤ (n / d + 1) * d := Nat.mul_comm d _ ▸ Nat.lt_mul_div_succ n hd
    have hmd : d * (m * n) ≤ d * ((n / d + 1) * 2 ^ l) := by
      calc d * (m * n) = m * d * n := by ring
        _ ≤ (2 ^ l + 2 ^ (l - p)) * n := Nat.mul_le_mul_right _ h.upper
        _ = 2 ^ l * n + 2 ^ (l - p) * n := by ring
        _ ≤ 2 ^ l * n + 2 ^ l := Nat.add_le_add_left hsmall _
        _ = 2 ^ l * (n + 1) := by ring
        _ ≤ 2 ^ l * ((n / d + 1) * d) := Nat.mul_le_mul_left _ hlt
        _ = d * ((n / d + 1) * 2 ^ l) := by ring
    exact Nat.le_of_mul_le_mul_left hmd hd

-- The same for signed dividends: the high part of the product, rounded down, is the truncated quotient,
-- less 1 if the dividend is negative.
theorem IsMultiplier.mul_ediv {z : Int} (h : IsMultiplier d l p m) (hp : p ≤ l) (hlo : -2 ^ p ≤ z) (hhi : z < 2 ^ p) :
    m * z / 2 ^ l = z.tdiv d - if z < 0 then 1 else 0 := by
  obtain ⟨n, rfl | rfl⟩ := z.eq_nat_or_neg
  · have hn : n < 2 ^ p := by exact_mod_cast hhi
    rw [if_neg (by omega), Int.sub_zero, ← Int.ofNat_tdiv]
    exact_mod_cast h.mul_div hp hn
  · obtain rfl | h0 := Nat.eq_zero_or_pos n
    · simp
    have hn : n ≤ 2 ^ p := by
      have : (n : Int) ≤ 2 ^ p := by omega
      exact_mod_cast this
    obtain ⟨hlower, hupper⟩ := h.mul_bounds hp h0 hn
    have hlower' : (n / d : Nat) * (2 : Int) ^ l < m * n := by exact_mod_cast hlower
    have hupper' : (m : Int) * n ≤ ((n / d : Nat) + 1) * 2 ^ l := by exact_mod_cast hupper
    have hpos : (0 : Int) < 2 ^ l := by positivity
    rw [if_pos (by omega), Int.neg_tdiv, ← Int.ofNat_tdiv]
    apply Int.le_antisymm
    · rw [← Int.lt_add_one_iff]
      apply Int.ediv_lt_of_lt_mul hpos
      linarith
    · apply Int.le_ediv_of_mul_le hpos
      linarith

-- The sum of a dividend and a high product, which does not fit a word, halved without overflow.
theorem add_half (h : t ≤ n) : t + (n - t) / 2 = (n + t) / 2 := by
  omega

-- The bounds on the multiplier that is rounded up from the start.
theorem isMultiplier_div (hd : 0 < d) (hx : 2 ^ l + d ≤ x) (hx' : x ≤ 2 ^ l + 2 ^ (l - p)) :
    IsMultiplier d l p (x / d) where
  upper := (Nat.div_mul_le_self x d).trans hx'
  lower := by
    have := Nat.lt_div_mul_add (a := x) hd
    omega

-- The halving of a multiplier and of its lower bound, as long as they differ. The results are the
-- number of halvings that are left and the multiplier.
def reduce : (s mlow mhigh : Nat) → Nat × Nat
  | 0, _, mhigh        => (0, mhigh)
  | s + 1, mlow, mhigh =>
    if mlow / 2 < mhigh / 2 then reduce s (mlow / 2) (mhigh / 2) else (s + 1, mhigh)

theorem IsMultiplier.half (h : IsMultiplier d (l + 1) p m) (hp : p ≤ l)
    (hlt : 2 ^ (l + 1) / d / 2 < m / 2) : IsMultiplier d l p (m / 2) where
  lower := by
    have hd : 0 < d := Nat.pos_of_ne_zero fun hd => by simpa [hd] using h.lower
    have hdiv : 2 ^ (l + 1) / d / 2 = 2 ^ l / d := by
      rw [Nat.div_div_eq_div_mul, Nat.mul_comm, ← Nat.div_div_eq_div_mul, pow_succ,
        Nat.mul_div_cancel _ Nat.two_pos]
    rw [hdiv] at hlt
    exact (Nat.div_lt_iff_lt_mul hd).mp hlt
  upper := by
    have hm : m / 2 * d * 2 ≤ m * d := by
      calc m / 2 * d * 2 = m / 2 * 2 * d := by ring
        _ ≤ m * d := Nat.mul_le_mul_right d (Nat.div_mul_le_self m 2)
    have hpow : 2 ^ (l + 1 - p) = 2 ^ (l - p) * 2 := by rw [← pow_succ, Nat.succ_sub hp]
    have := h.upper
    rw [hpow, pow_succ] at this
    omega

theorem reduce_le : (reduce s mlow mhigh).2 ≤ mhigh := by
  induction s generalizing mlow mhigh with
  | zero => exact Nat.le_refl _
  | succ s hi =>
    rw [reduce]
    split
    case isTrue => exact hi.trans (Nat.div_le_self mhigh 2)
    case isFalse => exact Nat.le_refl _

-- A first halving halves the bound.
theorem reduce_le_half (hs : 0 < s) (hlt : mlow / 2 < mhigh / 2) :
    (reduce s mlow mhigh).2 ≤ mhigh / 2 := by
  cases s with
  | zero => omega
  | succ s =>
    rw [reduce, if_pos hlt]
    exact reduce_le

theorem reduce_fst_le : (reduce s mlow mhigh).1 ≤ s := by
  induction s generalizing mlow mhigh with
  | zero => exact Nat.le_refl _
  | succ s hi =>
    rw [reduce]
    split
    case isTrue => exact hi.trans (Nat.le_succ s)
    case isFalse => exact Nat.le_refl _

theorem IsMultiplier.reduce (h : IsMultiplier d (N + s) p m) (hp : p ≤ N) :
    IsMultiplier d (N + (reduce s (2 ^ (N + s) / d) m).1) p (reduce s (2 ^ (N + s) / d) m).2 := by
  induction s generalizing m with
  | zero => exact h
  | succ s hi =>
    rw [InvariantDivision.reduce]
    split
    case isTrue hlt =>
      have hdiv : 2 ^ (N + (s + 1)) / d / 2 = 2 ^ (N + s) / d := by
        rw [Nat.div_div_eq_div_mul, Nat.mul_comm, ← Nat.div_div_eq_div_mul, ← Nat.add_assoc, pow_succ,
          Nat.mul_div_cancel _ Nat.two_pos]
      rw [hdiv]
      exact hi (h.half (hp.trans (Nat.le_add_right N s)) hlt)
    case isFalse => exact h

-- The multiplier that the halvings leave, for a divisor of `b` bits. It has at most one bit more than a
-- word, and none for shorter dividends.
theorem reduce_isMultiplier (hd : 2 ^ b < 2 * d) (hd' : d < 2 ^ b) (hb : b ≤ p) (hp : p ≤ N)
    (hx : 2 ^ (N + b) + 2 ^ (N + b - p) ≤ x + 1) (hx' : x ≤ 2 ^ (N + b) + 2 ^ (N + b - p)) :
    IsMultiplier d (N + (reduce b (2 ^ (N + b) / d) (x / d)).1) p
      (reduce b (2 ^ (N + b) / d) (x / d)).2 ∧
    (reduce b (2 ^ (N + b) / d) (x / d)).2 < 2 ^ (N + 1) ∧
    (p < N → (reduce b (2 ^ (N + b) / d) (x / d)).2 < 2 ^ N) := by
  have hpos : 0 < d := by
    have := Nat.two_pow_pos b
    omega
  have hgap : 2 ^ (N + b - p) = 2 ^ b * 2 ^ (N - p) := by
    rw [← pow_add]
    congr 1
    omega
  have hgap' : 2 ^ b ≤ 2 ^ (N + b - p) := Nat.pow_le_pow_right Nat.two_pos (by omega)
  have hgap'' : 2 ^ (N + b - p) ≤ 2 ^ N := Nat.pow_le_pow_right Nat.two_pos (by omega)
  have hb0 : 0 < b := Nat.pos_of_ne_zero fun hb => by simp [hb] at hd hd'; omega
  have heven : 2 ^ b + 2 ≤ 2 * d := by
    have : 2 ^ b = 2 * 2 ^ (b - 1) := by rw [← pow_succ', Nat.sub_add_cancel hb0]
    omega
  have hlt : x / d < 2 ^ (N + 1) := by
    rw [Nat.div_lt_iff_lt_mul hpos]
    have := Nat.two_pow_pos N
    calc x ≤ 2 ^ (N + b) + 2 ^ (N + b - p) := hx'
      _ ≤ 2 ^ (N + b) + 2 ^ N := Nat.add_le_add_left hgap'' _
      _ < 2 ^ (N + b) + 2 ^ N * 2 := by omega
      _ = 2 ^ N * (2 ^ b + 2) := by rw [Nat.mul_add, pow_add]
      _ ≤ 2 ^ N * (2 * d) := Nat.mul_le_mul_left _ heven
      _ = 2 ^ (N + 1) * d := by ring
  refine ⟨(isMultiplier_div hpos (by omega) hx').reduce hp, (reduce_le).trans_lt hlt, fun hpN => ?_⟩
  -- the gap is wide enough for a first halving
  have hwide : 2 * 2 ^ b ≤ 2 ^ (N + b - p) := by
    rw [hgap, Nat.mul_comm]
    exact Nat.mul_le_mul_left _ (Nat.le_self_pow (by omega) 2)
  have hstep : 2 ^ (N + b) / d + 2 ≤ x / d := by
    rw [← Nat.add_mul_div_right _ _ hpos]
    exact Nat.div_le_div_right (by omega)
  have hle := reduce_le_half hb0 (show 2 ^ (N + b) / d / 2 < x / d / 2 by omega)
  rw [pow_succ] at hlt
  omega

-- Division by shift and subtract: `y` is the divisor, shifted to the left by the number of steps that
-- follow. The remainder is never 0.
def divide : (k x y q : Nat) → Nat
  | 0, _, _, q     => q
  | k + 1, x, y, q => if y < x then divide k (x - y) (y / 2) (2 * q + 1) else divide k x (y / 2) (2 * q)

theorem divide_zero {k q : Nat} : divide k 0 y q = q * 2 ^ k := by
  induction k generalizing y q with
  | zero => rw [divide, pow_zero, Nat.mul_one]
  | succ k hi =>
    rw [divide, if_neg (Nat.not_lt_zero y), hi, pow_succ']
    ring

theorem divide_eq {c q : Nat} (hy : 0 < y) (hx : 0 < x) (hle : x ≤ y * 2 ^ (c + 1)) :
    divide (c + 1) x (y * 2 ^ c) q = q * 2 ^ (c + 1) + (x - 1) / y := by
  induction c generalizing x q with
  | zero =>
    rw [divide]
    simp only [pow_zero, Nat.mul_one, zero_add, pow_one, divide] at hle ⊢
    split
    case isTrue hlt =>
      rw [Nat.div_eq_of_lt_le (k := 1) (by omega) (by omega)]
      omega
    case isFalse =>
      rw [Nat.div_eq_of_lt (by omega)]
      omega
  | succ c hi =>
    have hhalf : y * 2 ^ (c + 1) / 2 = y * 2 ^ c := by
      rw [pow_succ, ← Nat.mul_assoc, Nat.mul_div_cancel _ Nat.two_pos]
    have htwo : y * 2 ^ (c + 1 + 1) = 2 * (y * 2 ^ (c + 1)) := by ring
    rw [divide, hhalf]
    split
    case isTrue hlt =>
      rw [hi (by omega) (by omega)]
      have hdiv : (x - 1) / y = 2 ^ (c + 1) + (x - y * 2 ^ (c + 1) - 1) / y := by
        rw [← Nat.mul_add_div hy, show y * 2 ^ (c + 1) + (x - y * 2 ^ (c + 1) - 1) = x - 1 by omega]
      rw [hdiv]
      ring
    case isFalse hlt =>
      rw [hi hx (by omega)]
      ring

end InvariantDivision
