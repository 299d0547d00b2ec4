import Mathlib

-- Numbers of two limbs: the shifts of two halves that stand together, and division by digits, where what
-- matters is how far the estimate of a quotient is from the quotient.

namespace Limbs

section shifts

variable {w k : Nat}

theorem append_shiftLeft (hi lo : BitVec w) (hk : k ≤ w) :
    (hi ++ lo) <<< k = (hi <<< k ||| lo >>> (w - k)) ++ lo <<< k := by
  apply BitVec.eq_of_getLsbD_eq
  intro i hi'
  simp only [BitVec.getLsbD_append, BitVec.getLsbD_shiftLeft, BitVec.getLsbD_or, BitVec.getLsbD_ushiftRight]
  by_cases hlow : i < w
  case pos => simp [hlow, show i - k < w by omega, hi']
  case neg =>
    by_cases hmid : i - k < w
    case pos =>
      simp [hlow, hmid, hi', show w - k + (i - w) = i - k by omega, show k ≤ i by omega, show i - w < k by omega]
    case neg =>
      simp [hlow, hmid, hi', show i - k - w = i - w - k by omega, show ¬i < k by omega,
        show ¬i - w < k by omega, show i - w < w by omega, BitVec.getLsbD_of_ge lo (w - k + (i - w)) (by omega)]

theorem append_shiftLeft_add (hi lo : BitVec w) : (hi ++ lo) <<< (w + k) = lo <<< k ++ 0#w := by
  apply BitVec.eq_of_getLsbD_eq
  intro i hi'
  simp only [BitVec.getLsbD_append, BitVec.getLsbD_shiftLeft, BitVec.getLsbD_zero]
  by_cases hlow : i < w
  case pos => simp [hlow, show i < w + k by omega]
  case neg =>
    simp [hlow, hi', show i - (w + k) < w by omega, show i - w < w by omega,
      show i < w + k ↔ i - w < k by omega, Nat.sub_sub]

theorem append_ushiftRight (hi lo : BitVec w) (hk : k ≤ w) :
    (hi ++ lo) >>> k = hi >>> k ++ (lo >>> k ||| hi <<< (w - k)) := by
  apply BitVec.eq_of_getLsbD_eq
  intro i hi'
  simp only [BitVec.getLsbD_append, BitVec.getLsbD_shiftLeft, BitVec.getLsbD_or, BitVec.getLsbD_ushiftRight]
  grind

theorem append_ushiftRight_add (hi lo : BitVec w) : (hi ++ lo) >>> (w + k) = 0#w ++ hi >>> k := by
  apply BitVec.eq_of_getLsbD_eq
  intro i hi'
  simp only [BitVec.getLsbD_append, BitVec.getLsbD_zero, BitVec.getLsbD_ushiftRight]
  grind

theorem append_sshiftRight (hi lo : BitVec w) (hk : k ≤ w) :
    (hi ++ lo).sshiftRight k = hi.sshiftRight k ++ (lo >>> k ||| hi <<< (w - k)) := by
  apply BitVec.eq_of_getLsbD_eq
  intro i hi'
  simp only [BitVec.getLsbD_append, BitVec.getLsbD_shiftLeft, BitVec.getLsbD_or, BitVec.getLsbD_ushiftRight,
    BitVec.getLsbD_sshiftRight, BitVec.msb_append]
  grind

theorem append_sshiftRight_add (hi lo : BitVec w) (hw : 0 < w) :
    (hi ++ lo).sshiftRight (w + k) = hi.sshiftRight w ++ hi.sshiftRight k := by
  apply BitVec.eq_of_getLsbD_eq
  intro i hi'
  simp only [BitVec.getLsbD_append, BitVec.getLsbD_sshiftRight, BitVec.msb_append]
  grind

theorem sshiftRight_of_le (x : BitVec w) (h : w ≤ k) : x.sshiftRight k = x.sshiftRight w := by
  apply BitVec.eq_of_getLsbD_eq
  intro i hi'
  rw [BitVec.getLsbD_sshiftRight, BitVec.getLsbD_sshiftRight, if_neg (by omega), if_neg (by omega)]

-- A logical shift, with the sign put into the bits that have become free.
theorem fill_ushiftRight (x : BitVec w) (hk : k ≤ w) :
    x >>> k &&& ~~~(BitVec.allOnes w <<< (w - k)) ||| x.sshiftRight w <<< (w - k) = x.sshiftRight k := by
  apply BitVec.eq_of_getLsbD_eq
  intro i hi'
  simp only [BitVec.getLsbD_and, BitVec.getLsbD_not, BitVec.getLsbD_allOnes, BitVec.getLsbD_or,
    BitVec.getLsbD_shiftLeft, BitVec.getLsbD_ushiftRight, BitVec.getLsbD_sshiftRight]
  grind

theorem ushiftRight_last (x : BitVec w) (hw : 0 < w) : x >>> (w - 1) = if x.msb then 1 else 0 := by
  apply BitVec.eq_of_getLsbD_eq
  intro i hi'
  rw [BitVec.getLsbD_ushiftRight]
  by_cases h0 : i = 0
  case pos =>
    subst h0
    rw [Nat.add_zero, ← BitVec.msb_eq_getLsbD_last]
    cases x.msb <;> simp [hw]
  case neg =>
    rw [BitVec.getLsbD_of_ge x _ (by omega)]
    split <;> simp [h0]

-- The sign in all bits.
theorem neg_ushiftRight_last (x : BitVec w) (hw : 0 < w) : -(x >>> (w - 1)) = x.sshiftRight w := by
  rw [ushiftRight_last x hw]
  apply BitVec.eq_of_getLsbD_eq
  intro i hi'
  rw [BitVec.getLsbD_sshiftRight]
  cases x.msb
  case false => simp [hi']
  case true => simp [hi', BitVec.neg_one_eq_allOnes]

theorem rotateRight_rotateLeft (x : BitVec w) (h : k < w) : (x.rotateLeft k).rotateRight k = x := by
  apply BitVec.eq_of_getLsbD_eq
  intro i hi
  rw [BitVec.getLsbD_rotateRight, Nat.mod_eq_of_lt h, BitVec.getLsbD_rotateLeft, BitVec.getLsbD_rotateLeft,
    Nat.mod_eq_of_lt h]
  simp only [Bool.cond_decide]
  by_cases hlow : i < w - k
  case pos =>
    rw [if_pos hlow, if_neg (by omega), Nat.add_sub_cancel_left]
    simp [show k + i < w by omega]
  case neg =>
    rw [if_neg hlow, if_pos (by omega), show w - k + (i - (w - k)) = i by omega]
    simp [hi]

theorem rotateLeft_rotateRight (x : BitVec w) (h : k < w) : (x.rotateRight k).rotateLeft k = x := by
  apply BitVec.eq_of_getLsbD_eq
  intro i hi
  rw [BitVec.getLsbD_rotateLeft, Nat.mod_eq_of_lt h, BitVec.getLsbD_rotateRight, BitVec.getLsbD_rotateRight,
    Nat.mod_eq_of_lt h]
  simp only [Bool.cond_decide]
  by_cases hlow : i < k
  case pos =>
    rw [if_pos hlow, if_neg (by omega), Nat.add_sub_cancel_left]
    simp [show w - k + i < w by omega]
  case neg =>
    rw [if_neg hlow, if_pos (by omega), Nat.add_sub_cancel' (by omega)]
    simp [hi]

end shifts

section product

-- The product of two numbers of four digits, as far as it has four digits. The rows are added one after the
-- other, each with its carries.
theorem product_rows {B a₀ a₁ a₂ a₃ b₀ b₁ b₂ b₃ r₀ r₁ r₂ r₃ s₁ s₂ s₃ t₂ t₃ u₃ : Nat} (hB : 0 < B)
    (hr₀ : r₀ = a₀ * b₀) (hr₁ : r₁ = a₀ * b₁ + r₀ / B) (hr₂ : r₂ = a₀ * b₂ + r₁ / B)
    (hr₃ : r₃ = a₀ * b₃ + r₂ / B)
    (hs₁ : s₁ = a₁ * b₀ + r₁ % B) (hs₂ : s₂ = a₁ * b₁ + r₂ % B + s₁ / B)
    (hs₃ : s₃ = a₁ * b₂ + r₃ % B + s₂ / B)
    (ht₂ : t₂ = a₂ * b₀ + s₂ % B) (ht₃ : t₃ = a₂ * b₁ + s₃ % B + t₂ / B)
    (hu₃ : u₃ = a₃ * b₀ + t₃ % B) :
    ((u₃ % B * B + t₂ % B) * B + s₁ % B) * B + r₀ % B =
      (((a₃ * B + a₂) * B + a₁) * B + a₀) * (((b₃ * B + b₂) * B + b₁) * B + b₀) % B ^ 4 := by
  have hlt : ((u₃ % B * B + t₂ % B) * B + s₁ % B) * B + r₀ % B < B ^ 4 := by
    have hstep {x y m : Nat} (hx : x < m) (hy : y < B) : x * B + y < m * B := by
      calc
        x * B + y < x * B + B := Nat.add_lt_add_left hy _
        _ = (x + 1) * B := (Nat.succ_mul ..).symm
        _ ≤ m * B := Nat.mul_le_mul_right _ hx
    have hmod (x : Nat) : x % B < B := Nat.mod_lt x hB
    have h := hstep (hstep (hstep (hmod u₃) (hmod t₂)) (hmod s₁)) (hmod r₀)
    rwa [show B ^ 4 = B * B * B * B by ring]
  -- what is beyond four digits
  let k := a₁ * b₃ + a₂ * b₂ + a₃ * b₁ + r₃ / B + s₃ / B + t₃ / B + u₃ / B +
    (a₂ * b₃ + a₃ * b₂) * B + a₃ * b₃ * B ^ 2
  have hsum : (((a₃ * B + a₂) * B + a₁) * B + a₀) * (((b₃ * B + b₂) * B + b₁) * B + b₀) =
      ((u₃ % B * B + t₂ % B) * B + s₁ % B) * B + r₀ % B + B ^ 4 * k := by
    have dr₀ := Nat.div_add_mod r₀ B
    have dr₁ := Nat.div_add_mod r₁ B
    have dr₂ := Nat.div_add_mod r₂ B
    have dr₃ := Nat.div_add_mod r₃ B
    have ds₁ := Nat.div_add_mod s₁ B
    have ds₂ := Nat.div_add_mod s₂ B
    have ds₃ := Nat.div_add_mod s₃ B
    have dt₂ := Nat.div_add_mod t₂ B
    have dt₃ := Nat.div_add_mod t₃ B
    have du₃ := Nat.div_add_mod u₃ B
    simp only [k]
    zify at *
    linear_combination -hr₀ - B * hr₁ - B ^ 2 * hr₂ - B ^ 3 * hr₃ - B * hs₁ - B ^ 2 * hs₂ - B ^ 3 * hs₃ -
      B ^ 2 * ht₂ - B ^ 3 * ht₃ - B ^ 3 * hu₃ - dr₀ - B * dr₁ - B ^ 2 * dr₂ - B ^ 3 * dr₃ - B * ds₁ -
      B ^ 2 * ds₂ - B ^ 3 * ds₃ - B ^ 2 * dt₂ - B ^ 3 * dt₃ - B ^ 3 * du₃
  rw [hsum, Nat.add_mul_mod_self_left, Nat.mod_eq_of_lt hlt]

end product

section digit

variable {B d₁ d₀ n₁ n₀ : Nat}

-- The estimate of a digit from the leading digit of the divisor, with what has to be subtracted from it.
def correction (B d₁ d₀ n₁ n₀ : Nat) : Nat :=
  let t₂ := n₁ % d₁ * B + n₀
  let t₁ := n₁ / d₁ * d₀
  if t₂ < t₁ then if d₁ * B + d₀ < t₁ - t₂ then 2 else 1 else 0

-- The leading digit of the divisor is at least half of the base, and the quotient has one digit.
structure Normal (B d₁ d₀ n₁ n₀ : Nat) : Prop where
  half  : B ≤ 2 * d₁
  low   : d₀ < B
  fits  : n₁ < d₁ * B + d₀
  digit : n₀ < B

namespace Normal

variable (h : Normal B d₁ d₀ n₁ n₀)

include h

theorem leading_pos : 0 < d₁ := by
  have := h.half
  have := h.low
  omega

theorem estimate_le : n₁ / d₁ ≤ B + 1 := by
  have hlt : n₁ < (B + 2) * d₁ := by
    have := h.half
    have := h.low
    have := h.fits
    rw [Nat.add_mul, Nat.mul_comm B]
    omega
  exact Nat.le_of_lt_succ ((Nat.div_lt_iff_lt_mul h.leading_pos).mpr hlt)

theorem estimate_mul_lt : n₁ / d₁ * d₀ < B * B := by
  have hle : n₁ / d₁ * d₀ ≤ (B + 1) * (B - 1) :=
    Nat.mul_le_mul h.estimate_le (Nat.le_sub_one_of_lt h.low)
  have hB : 0 < B := by
    have := h.low
    omega
  obtain ⟨b, rfl⟩ := Nat.exists_eq_succ_of_ne_zero hB.ne'
  calc
    n₁ / d₁ * d₀ ≤ (b + 1 + 1) * b := by simpa using hle
    _ < (b + 1) * (b + 1) := by ring_nf; omega

theorem rest_lt : n₁ % d₁ * B + n₀ < d₁ * B := by
  have hmod := Nat.mod_lt n₁ h.leading_pos
  calc
    n₁ % d₁ * B + n₀ < n₁ % d₁ * B + B := by have := h.digit; omega
    _ = (n₁ % d₁ + 1) * B := by ring
    _ ≤ d₁ * B := Nat.mul_le_mul_right _ hmod

omit h in
-- What the estimate is off by, as the product of the estimate and the divisor.
theorem estimate_mul :
    n₁ / d₁ * (d₁ * B + d₀) + (n₁ % d₁ * B + n₀) = n₁ * B + n₀ + n₁ / d₁ * d₀ := by
  calc
    n₁ / d₁ * (d₁ * B + d₀) + (n₁ % d₁ * B + n₀)
      = (d₁ * (n₁ / d₁) + n₁ % d₁) * B + n₀ + n₁ / d₁ * d₀ := by ring
    _ = n₁ * B + n₀ + n₁ / d₁ * d₀ := by rw [Nat.div_add_mod]

-- The digit of the quotient is the estimate, corrected by one or two where its product is too large.
theorem div_eq : (n₁ * B + n₀) / (d₁ * B + d₀) = n₁ / d₁ - correction B d₁ d₀ n₁ n₀ := by
  have heq := @estimate_mul B d₁ d₀ n₁ n₀
  have hrest := h.rest_lt
  have hprod := h.estimate_mul_lt
  have hpos := h.leading_pos
  have hsq : B * B ≤ 2 * (d₁ * B) := by
    rw [← Nat.mul_assoc]
    exact Nat.mul_le_mul_right _ h.half
  have hB : 0 < B := by
    have := h.low
    omega
  have hd : 0 < d₁ * B := Nat.mul_pos hpos hB
  simp only [correction]
  generalize n₁ / d₁ = q at *
  generalize n₁ % d₁ * B + n₀ = t₂ at *
  generalize q * d₀ = t₁ at *
  generalize d₁ * B = e at *
  rw [Nat.div_eq_iff (by omega)]
  -- below, `k` is what the estimate is too large by
  have key (k : Nat) (hk : t₁ ≤ k * (e + d₀) + t₂) (hk' : k * (e + d₀) + t₂ < t₁ + (e + d₀)) :
      (q - k) * (e + d₀) ≤ n₁ * B + n₀ ∧ n₁ * B + n₀ < (q - k) * (e + d₀) + (e + d₀) := by
    by_cases hle : k ≤ q
    case pos =>
      have hsub : (q - k) * (e + d₀) + k * (e + d₀) = q * (e + d₀) := by
        rw [← Nat.add_mul, Nat.sub_add_cancel hle]
      omega
    case neg =>
      have hmul : q * (e + d₀) + (e + d₀) ≤ k * (e + d₀) := by
        rw [← Nat.succ_mul]
        exact Nat.mul_le_mul_right _ (by omega)
      rw [Nat.sub_eq_zero_of_le (by omega)]
      omega
  have hgoal {k : Nat} (hk : (q - k) * (e + d₀) ≤ n₁ * B + n₀ ∧
      n₁ * B + n₀ < (q - k) * (e + d₀) + (e + d₀)) :
      (q - k) * (e + d₀) ≤ n₁ * B + n₀ ∧ n₁ * B + n₀ ≤ (q - k) * (e + d₀) + (e + d₀) - 1 := by
    omega
  split_ifs with hlt htwo
  case pos => exact hgoal (key 2 (by omega) (by omega))
  case neg => exact hgoal (key 1 (by omega) (by omega))
  case neg => exact hgoal (key 0 (by omega) (by omega))

omit h in
-- The correction does not go below zero.
theorem correction_le : correction B d₁ d₀ n₁ n₀ ≤ n₁ / d₁ := by
  have heq := @estimate_mul B d₁ d₀ n₁ n₀
  simp only [correction]
  generalize n₁ % d₁ * B + n₀ = t₂ at *
  generalize n₁ / d₁ = q at *
  split_ifs with hlt htwo
  case pos =>
    by_contra hlarge
    have hq : q * (d₁ * B + d₀) ≤ 1 * (d₁ * B + d₀) := Nat.mul_le_mul_right _ (by omega)
    omega
  case neg =>
    by_contra hlarge
    obtain rfl : q = 0 := by omega
    omega
  case neg => exact Nat.zero_le _

theorem div_lt : (n₁ * B + n₀) / (d₁ * B + d₀) < B := by
  have hpos := Nat.mul_pos h.leading_pos (Nat.zero_lt_of_lt h.low)
  rw [Nat.div_lt_iff_lt_mul (by omega)]
  calc
    n₁ * B + n₀ < n₁ * B + B := Nat.add_lt_add_left h.digit _
    _ = B * (n₁ + 1) := by ring
    _ ≤ B * (d₁ * B + d₀) := Nat.mul_le_mul_left _ h.fits

end Normal

-- Division digit by digit: what remains of the higher digits is divided together with the next one.
theorem div_digits (B d n m : Nat) (hd : 0 < d) :
    (n * B + m) / d = n / d * B + (n % d * B + m) / d ∧ (n * B + m) % d = (n % d * B + m) % d := by
  have heq : n * B + m = d * (n / d * B) + (n % d * B + m) := by
    calc
      n * B + m = (d * (n / d) + n % d) * B + m := by rw [Nat.div_add_mod]
      _ = d * (n / d * B) + (n % d * B + m) := by ring
  constructor
  case left => rw [heq, Nat.mul_add_div hd]
  case right => rw [heq, Nat.mul_add_mod]

end digit

section leading

variable {u v v' : Nat}

-- A divisor that is a little too small makes the quotient too large by one at most.
theorem div_le_of_shrink (hpos : 0 < v') (hle : v' ≤ v) (h : (u / v + 1) * (v - v') ≤ v') :
    u / v ≤ u / v' ∧ u / v' ≤ u / v + 1 := by
  refine ⟨Nat.div_le_div_left hle hpos, ?_⟩
  rw [← Nat.lt_succ_iff, Nat.div_lt_iff_lt_mul hpos]
  have hlt : u < (u / v + 1) * v := Nat.lt_mul_of_div_lt (Nat.lt_succ_self _) (hpos.trans_le hle)
  calc
    u < (u / v + 1) * v := hlt
    _ = (u / v + 1) * v' + (u / v + 1) * (v - v') := by rw [← Nat.mul_add, Nat.add_sub_cancel' hle]
    _ ≤ (u / v + 1) * v' + v' := Nat.add_le_add_left h _
    _ = (u / v + 1).succ * v' := (Nat.succ_mul ..).symm

-- A quotient that is right or too small by one, and what it leaves, corrected.
theorem div_of_rest {n d q : Nat} (hd : 0 < d) (hle : q ≤ n / d) (hge : n / d ≤ q + 1) :
    q * d ≤ n ∧ (d ≤ n - q * d → q + 1 = n / d ∧ n - q * d - d = n % d) ∧
      (n - q * d < d → q = n / d ∧ n - q * d = n % d) := by
  have heq := Nat.div_add_mod' n d
  have hmod := Nat.mod_lt n hd
  obtain hq | hq : q = n / d ∨ q + 1 = n / d := by omega
  case inl =>
    rw [← hq] at heq
    omega
  case inr =>
    rw [← hq, Nat.add_mul] at heq
    omega

-- The divisor of a number of `2 * (m + j + 1)` bits, which has `m` leading zeros, may lose its low bits.
theorem div_leading {m j : Nat} (hu : u < 2 ^ (2 * (m + j + 1))) (hv : 2 ^ (m + 2 * j + 1) ≤ v) :
    u / v ≤ u / (v / 2 ^ (j + 1) * 2 ^ (j + 1)) ∧ u / (v / 2 ^ (j + 1) * 2 ^ (j + 1)) ≤ u / v + 1 := by
  have hle : v / 2 ^ (j + 1) * 2 ^ (j + 1) ≤ v := Nat.div_mul_le_self ..
  have hbits : 2 ^ (m + 2 * j + 1) ≤ v / 2 ^ (j + 1) * 2 ^ (j + 1) := by
    have hpow : 2 ^ (m + 2 * j + 1) = 2 ^ (m + j) * 2 ^ (j + 1) := by ring
    rw [hpow] at hv ⊢
    exact Nat.mul_le_mul_right _ ((Nat.le_div_iff_mul_le (by positivity)).mpr hv)
  have hlost : v - v / 2 ^ (j + 1) * 2 ^ (j + 1) + 1 ≤ 2 ^ (j + 1) := by
    have hdiv := Nat.div_add_mod' v (2 ^ (j + 1))
    have hmod := Nat.mod_lt v (Nat.two_pow_pos (j + 1))
    omega
  have hquot : u / v + 1 ≤ 2 ^ (m + 1) := by
    refine (Nat.div_lt_iff_lt_mul (lt_of_lt_of_le (by positivity) hv)).mpr (hu.trans_le ?_)
    calc
      2 ^ (2 * (m + j + 1)) = 2 ^ (m + 1) * 2 ^ (m + 2 * j + 1) := by ring
      _ ≤ 2 ^ (m + 1) * v := Nat.mul_le_mul_left _ hv
  refine div_le_of_shrink (lt_of_lt_of_le (by positivity) hbits) hle (le_trans ?_ hbits)
  generalize v - v / 2 ^ (j + 1) * 2 ^ (j + 1) = r at hlost ⊢
  calc
    (u / v + 1) * r ≤ 2 ^ (m + 1) * r := Nat.mul_le_mul_right _ hquot
    _ ≤ 2 ^ (m + 1) * (2 ^ (j + 1) - 1) := Nat.mul_le_mul_left _ (Nat.le_sub_one_of_lt hlost)
    _ ≤ 2 ^ (m + 1) * 2 ^ (2 * j) := by
      refine Nat.mul_le_mul_left _ (Nat.sub_le_of_le_add ?_)
      -- the square of 2 ^ j - 1
      have hsq : 2 ^ (2 * j) = 2 ^ j * 2 ^ j := by ring
      have hdouble : 2 ^ (j + 1) = 2 * 2 ^ j := by ring
      rw [hsq, hdouble]
      obtain ⟨b, hb⟩ := Nat.exists_eq_add_of_lt (Nat.two_pow_pos j)
      rw [hb]
      ring_nf
      omega
    _ = 2 ^ (m + 2 * j + 1) := by ring

end leading

end Limbs
