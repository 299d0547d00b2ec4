import DmdModel.Compiler.Backend.Arm.BitMasks

-- Which immediate operands are encoded, and that they are decoded to what they were.

namespace Compiler.Backend.Arm

open BitPatterns

variable {v e p x h n r k j t g u fuel rotation m : Nat}

def sizes : List Nat :=
  [2, 4, 8, 16, 32, 64]

theorem mem_sizes : e ∈ sizes ↔ e = 2 ∨ e = 4 ∨ e = 8 ∨ e = 16 ∨ e = 32 ∨ e = 64 := by
  simp only [sizes, List.mem_cons, List.not_mem_nil, or_false]

theorem halvesDiffer_eq (hx : x < 2 ^ (h + h)) : halvesDiffer x h = decide (x % 2 ^ h ≠ x / 2 ^ h) := by
  have hhigh : x / 2 ^ h < 2 ^ h := by
    rw [Nat.div_lt_iff_lt_mul (Nat.two_pow_pos h), ← Nat.pow_add]
    exact hx
  rw [halvesDiffer, Nat.and_two_pow_sub_one_eq_mod, Nat.xor_mod_two_pow, Nat.shiftRight_eq_div_pow, Nat.mod_eq_of_lt hhigh,
    decide_eq_decide, Ne, Nat.xor_eq_zero_iff]

-- A pattern of a size that is not made of two equal halves, and has zeros and ones.
structure Pattern (e p : Nat) : Prop where
  mem    : e ∈ sizes
  lt     : p < 2 ^ e
  zeros  : p ≠ 2 ^ e - 1
  ones   : p ≠ 0
  halves : e = 2 ∨ p % 2 ^ (e / 2) ≠ p / 2 ^ (e / 2)

theorem halvesDiffer_copies (hp : p < 2 ^ e) : halvesDiffer (copies e p (n + n)) (e * n) = false := by
  have hlt := @copies_lt e p n hp
  have hlt2 := @copies_lt e p (n + n) hp
  rw [halvesDiffer_eq (by rwa [← Nat.mul_add]), copies_add, Nat.add_mul_mod_self_left, Nat.mod_eq_of_lt hlt,
    Nat.add_mul_div_left _ _ (Nat.two_pow_pos _), Nat.div_eq_of_lt hlt, Nat.zero_add]
  exact decide_eq_false (fun hne => hne rfl)

theorem copies_and (hp : p < 2 ^ e) : copies e p (n + n) &&& (2 ^ (e * n) - 1) = copies e p n := by
  rw [Nat.and_two_pow_sub_one_eq_mod, copies_add, Nat.add_mul_mod_self_left, Nat.mod_eq_of_lt (copies_lt hp)]

theorem copies_ne_zero (hp : p ≠ 0) (hn : 0 < n) : copies e p n ≠ 0 := by
  obtain ⟨n, rfl⟩ := Nat.exists_eq_succ_of_ne_zero hn.ne'
  rw [Nat.succ_eq_add_one, copies]
  omega

theorem copies_ne_ones (hp : p < 2 ^ e) (hne : p ≠ 2 ^ e - 1) (hn : 0 < n) : copies e p n ≠ 2 ^ (e * n) - 1 := by
  obtain ⟨n, rfl⟩ := Nat.exists_eq_succ_of_ne_zero hn.ne'
  intro heq
  refine hne ?_
  have hpow : 2 ^ (e * (n + 1)) - 1 = 2 ^ e * (2 ^ (e * n) - 1) + (2 ^ e - 1) := by
    have hpos := Nat.two_pow_pos e
    have hle : 2 ^ e ≤ 2 ^ e * 2 ^ (e * n) := Nat.le_mul_of_pos_right _ (Nat.two_pow_pos _)
    rw [Nat.mul_succ, Nat.add_comm, Nat.pow_add, Nat.mul_sub_one]
    omega
  rw [← copies_mod hp hn, heq, Nat.succ_eq_add_one, hpow, Nat.mul_add_mod, Nat.mod_eq_of_lt run_lt]

theorem copies_one : copies e p 1 = p := by
  rw [copies, copies, Nat.mul_zero, Nat.add_zero]

-- Going from a size to its half keeps half of the copies.
theorem pattern_copies (h : Pattern e p) : pattern (copies e p (64 / e)) = some (e, p) := by
  obtain ⟨hmem, hlt, hzeros, hones, hhalves⟩ := h
  have hnot (n : Nat) (hn : 0 < n) : ¬(copies e p n = 0 ∨ copies e p n = 2 ^ (e * n) - 1) :=
    fun h => h.elim (copies_ne_zero hones hn) (copies_ne_ones hlt hzeros hn)
  have hsame (n : Nat) : ¬halvesDiffer (copies e p (n + n)) (e * n) = true :=
    Bool.not_eq_true _ ▸ halvesDiffer_copies hlt
  have hand (n : Nat) := @copies_and e p n hlt
  have hdiffer (h : Nat) (he : e = h + h) (hne : p % 2 ^ h ≠ p / 2 ^ h) : halvesDiffer p h = true :=
    (halvesDiffer_eq (he ▸ hlt)).trans (decide_eq_true hne)
  obtain rfl | rfl | rfl | rfl | rfl | rfl := (mem_sizes).mp hmem
  · rw [pattern, if_neg (hsame 16), hand 16]
    dsimp only
    rw [if_neg (hnot 16 (by decide)), if_neg (hsame 8), hand 8, if_neg (hsame 4), hand 4, if_neg (hsame 2), hand 2, if_neg (hsame 1)]
    exact congrArg (fun p => some (2, p)) ((hand 1).trans copies_one)
  · rw [pattern, if_neg (hsame 8), hand 8]
    dsimp only
    rw [if_neg (hnot 8 (by decide)), if_neg (hsame 4), hand 4, if_neg (hsame 2), hand 2, if_neg (hsame 1), hand 1, copies_one, if_pos (hdiffer 2 rfl (hhalves.resolve_left (by decide)))]
  · rw [pattern, if_neg (hsame 4), hand 4]
    dsimp only
    rw [if_neg (hnot 4 (by decide)), if_neg (hsame 2), hand 2, if_neg (hsame 1), hand 1, copies_one, if_pos (hdiffer 4 rfl (hhalves.resolve_left (by decide)))]
  · rw [pattern, if_neg (hsame 2), hand 2]
    dsimp only
    rw [if_neg (hnot 2 (by decide)), if_neg (hsame 1), hand 1, copies_one, if_pos (hdiffer 8 rfl (hhalves.resolve_left (by decide)))]
  · rw [pattern, if_neg (hsame 1), hand 1]
    dsimp only
    rw [if_neg (hnot 1 (by decide)), copies_one, if_pos (hdiffer 16 rfl (hhalves.resolve_left (by decide)))]
  · show pattern (copies 64 p 1) = _
    rw [copies_one, pattern, if_pos (hdiffer 32 rfl (hhalves.resolve_left (by decide)))]

theorem split_halves (heq : p % 2 ^ h = p / 2 ^ h) : p = p % 2 ^ h + 2 ^ h * (p % 2 ^ h) := by
  have hsplit := Nat.mod_add_div p (2 ^ h)
  rw [← heq] at hsplit
  exact hsplit.symm

theorem two_pow_mem_sizes {i : Nat} (hi : 1 ≤ i) (hi' : i ≤ 6) : 2 ^ i ∈ sizes := by
  interval_cases i <;> decide

-- Every value that has zeros and ones is made of copies of a pattern.
theorem exists_pattern {i : Nat} (hi : 1 ≤ i) (hi' : i ≤ 6) (hp : p < 2 ^ 2 ^ i) (hzero : p ≠ 0) (hones : p ≠ 2 ^ 2 ^ i - 1) :
    ∃ e q, Pattern e q ∧ copies (2 ^ i) p (64 / 2 ^ i) = copies e q (64 / e) := by
  induction i, hi using Nat.le_induction generalizing p
  case base => exact ⟨2, p, ⟨by decide, hp, hones, hzero, .inl rfl⟩, rfl⟩
  case succ i hi ih =>
    have hdouble : 2 ^ (i + 1) = 2 * 2 ^ i := Nat.pow_succ'
    have hcount : 64 / 2 ^ i = 2 * (64 / (2 * 2 ^ i)) := by
      have hle : i ≤ 5 := Nat.le_of_succ_le_succ hi'
      interval_cases i <;> decide
    have hhalf : 2 ^ (i + 1) / 2 = 2 ^ i := by omega
    have hmem := two_pow_mem_sizes (Nat.succ_pos i) hi'
    by_cases heq : p % 2 ^ 2 ^ i = p / 2 ^ 2 ^ i
    case neg => exact ⟨2 ^ (i + 1), p, ⟨hmem, hp, hones, hzero, .inr (by rwa [hhalf])⟩, rfl⟩
    case pos =>
      have hsplit := split_halves heq
      have hlt : p % 2 ^ 2 ^ i < 2 ^ 2 ^ i := Nat.mod_lt _ (Nat.two_pow_pos _)
      have hq0 : p % 2 ^ 2 ^ i ≠ 0 := by
        intro h0
        rw [h0] at hsplit
        exact hzero hsplit
      have hq1 : p % 2 ^ 2 ^ i ≠ 2 ^ 2 ^ i - 1 := by
        intro h1
        refine hones ?_
        have hpos := Nat.two_pow_pos (2 ^ i)
        have hle : 2 ^ 2 ^ i ≤ 2 ^ 2 ^ i * 2 ^ 2 ^ i := Nat.le_mul_of_pos_right _ hpos
        rw [hsplit, h1, hdouble, Nat.two_mul, Nat.pow_add, Nat.mul_sub_one]
        omega
      obtain ⟨e, q, hpattern, hcopies⟩ := ih (by omega) hlt hq0 hq1
      refine ⟨e, q, hpattern, ?_⟩
      rw [← hcopies, hcount, copies_two_mul, ← hsplit, hdouble]

theorem isRunRJ_iff (h : x < 2 ^ 64 - 1) : isRunRJ x ↔ IsRun x := by
  rw [isRunRJ, Nat.mod_eq_of_lt (by omega), decide_eq_true_iff, succ_and_self_eq_zero_iff]

theorem isRun_run : IsRun (2 ^ k - 1) :=
  ⟨k, rfl⟩

theorem shiftOutZeros_mul (hr : 0 < r) (hx : x % 2 = 1) (hfuel : r ≤ fuel) :
    shiftOutZeros fuel (2 ^ r * x) rotation = some (x, (rotation + r) % 2 ^ 32) := by
  induction fuel generalizing r rotation
  case zero => omega
  case succ fuel ih =>
    obtain ⟨r, rfl⟩ := Nat.exists_eq_succ_of_ne_zero hr.ne'
    have hhalf : (2 ^ (r + 1) * x) >>> 1 = 2 ^ r * x := by
      rw [Nat.shiftRight_eq_div_pow, Nat.pow_succ', Nat.pow_one, Nat.mul_assoc, Nat.mul_div_cancel_left _ (by decide)]
    rw [shiftOutZeros, Nat.succ_eq_add_one, hhalf]
    by_cases h0 : r = 0
    case pos =>
      subst h0
      rw [if_neg (by omega), Nat.pow_zero, Nat.one_mul]
    case neg =>
      have heven : 2 ^ r * x % 2 = 0 := by
        obtain ⟨r, rfl⟩ := Nat.exists_eq_succ_of_ne_zero h0
        rw [Nat.succ_eq_add_one, Nat.pow_succ', Nat.mul_assoc, Nat.mul_mod_right]
      rw [if_pos heven, ih (Nat.pos_of_ne_zero h0) (by omega), Nat.mod_add_mod, Nat.add_assoc, Nat.add_comm 1]

-- The value after as many turns.
def shifted (p j : Nat) : Nat :=
  (2 ^ j * p + (2 ^ j - 1)) % 2 ^ 64

theorem shifted_succ : (shifted p j <<< 1 ||| 1) % 2 ^ 64 = shifted p (j + 1) := by
  have hor (y : Nat) : y <<< 1 ||| 1 = 2 * y + 1 := by
    rw [← Nat.shiftLeft_add_eq_or_of_lt (by decide), Nat.shiftLeft_eq, Nat.pow_one, Nat.mul_comm]
  have hpos := Nat.two_pow_pos j
  have hpow : 2 ^ (j + 1) = 2 * 2 ^ j := Nat.pow_succ'
  rw [hor, shifted, shifted, hpow, Nat.mul_assoc]
  omega

theorem shifted_and (hj : j < e) (he : e ≤ 64) :
    shifted p j &&& 2 ^ (e - 1) ≠ 0 ↔ p.testBit (e - 1 - j) := by
  have hbit : (shifted p j).testBit (e - 1) = p.testBit (e - 1 - j) := by
    rw [shifted, Nat.testBit_mod_two_pow, Nat.testBit_two_pow_mul_add _ run_lt, if_neg (by omega),
      decide_eq_true (by omega), Bool.true_and]
  have hpos := Nat.two_pow_pos (e - 1)
  rw [Nat.and_two_pow, hbit]
  cases p.testBit (e - 1 - j)
  case false => simp
  case true  => simp

theorem rotation_succ {d : Nat} :
    ((rotation + 2 ^ 32 - 1) % 2 ^ 32 + (2 ^ 32 - 1) * d) % 2 ^ 32 = (rotation + (2 ^ 32 - 1) * (d + 1)) % 2 ^ 32 := by
  rw [Nat.mod_add_mod, Nat.mul_succ]
  generalize (2 ^ 32 - 1) * d = z
  omega

-- Ones are shifted in until the highest bit is a zero. The highest bit at the beginning is not looked at.
theorem shiftInOnes_shifted (hj : j < t) (ht : t < e) (he : e ≤ 64) (hones : ∀ i, j < i → i < t → p.testBit (e - 1 - i))
    (hzero : ¬p.testBit (e - 1 - t)) (hfuel : t - j ≤ fuel) :
    shiftInOnes (2 ^ (e - 1)) fuel (shifted p j) rotation = some (shifted p t, (rotation + (2 ^ 32 - 1) * (t - j)) % 2 ^ 32) := by
  induction fuel generalizing j rotation
  case zero => omega
  case succ fuel ih =>
    rw [shiftInOnes, shifted_succ]
    by_cases hlast : j + 1 = t
    case pos =>
      have hrotation := @rotation_succ rotation 0
      rw [Nat.mul_zero, Nat.add_zero, Nat.mod_mod] at hrotation
      rw [if_neg (by rw [shifted_and (by omega) he, hlast]; exact hzero), hlast, hrotation, show t - j = 0 + 1 by omega]
    case neg =>
      have hbit := hones (j + 1) (Nat.lt_succ_self j) (by omega)
      rw [if_pos ((shifted_and (by omega) he).mpr hbit), ih (by omega) (fun i hi => hones i (by omega)) (by omega),
        rotation_succ, show t - (j + 1) + 1 = t - j by omega]

-- A run of ones inside of a pattern, one that goes around its ends, and two runs of which the upper one ends right below
-- the highest bit.
def Inside (e p : Nat) : Prop :=
  ∃ k n, 0 < n ∧ n < e ∧ k + n ≤ e ∧ p = 2 ^ k * (2 ^ n - 1)

def Cut (e p : Nat) : Prop :=
  ∃ j k, 0 < j ∧ 0 < k ∧ j + k < e ∧ p = 2 ^ (e - j) * (2 ^ j - 1) + (2 ^ k - 1)

def Gap (e p : Nat) : Prop :=
  ∃ u g k, 0 < u ∧ 0 < g ∧ 0 < k ∧ 1 + u + g + k = e ∧ ¬(g = 1 ∧ u = k) ∧ p = 2 ^ (g + k) * (2 ^ u - 1) + (2 ^ k - 1)

theorem testBit_inside : (2 ^ k * (2 ^ n - 1)).testBit j = decide (k ≤ j ∧ j < k + n) := by
  rw [Nat.testBit_two_pow_mul, Nat.testBit_two_pow_sub_one, ← Bool.decide_and, decide_eq_decide]
  omega

theorem ne_of_testBit (h : p.testBit j = true) : p ≠ 0 := by
  rintro rfl
  rw [Nat.zero_testBit] at h
  cases h

theorem ne_run_of_testBit (h : p.testBit j = false) (hj : j < e) : p ≠ 2 ^ e - 1 := by
  rintro rfl
  rw [Nat.testBit_two_pow_sub_one, decide_eq_false_iff_not] at h
  exact h hj

theorem half_of_mem (he : e ∈ sizes) : e = 2 ∨ e = 2 * (e / 2) ∧ 2 ≤ e / 2 := by
  obtain rfl | rfl | rfl | rfl | rfl | rfl := (mem_sizes).mp he <;> decide

theorem Inside.pattern (he : e ∈ sizes) (h : Inside e p) : Pattern e p := by
  obtain ⟨k, n, hn, hne, hk, rfl⟩ := h
  have hzero : ∃ j, j < e ∧ ¬(k ≤ j ∧ j < k + n) := by
    by_cases h0 : k = 0
    case pos => exact ⟨n, by omega, by omega⟩
    case neg => exact ⟨0, by omega, by omega⟩
  obtain ⟨z, hz, hzbit⟩ := hzero
  constructor
  case mem => exact he
  case lt => exact two_pow_mul_lt hk run_lt
  case zeros => exact ne_run_of_testBit ((testBit_inside).trans (decide_eq_false hzbit)) hz
  case ones => exact ne_of_testBit ((testBit_inside).trans (decide_eq_true (show k ≤ k ∧ k < k + n by omega)))
  case halves =>
    refine (half_of_mem he).imp id fun heven heq => ?_
    have hbits (i : Nat) (hi : i < e / 2) := testBit_halves heq hi
    simp only [testBit_inside, decide_eq_decide] at hbits
    generalize e / 2 = h at heven hbits
    obtain hle | hgt := le_or_gt n h
    · -- the run starts in one of the halves, and not in the other one
      obtain hk | hk := Nat.lt_or_ge k h
      · have hbit := hbits k hk
        omega
      · have hbit := hbits (k - h) (by omega)
        rw [Nat.sub_add_cancel hk] at hbit
        omega
    · -- a zero next to the run is in one of the halves
      by_cases h0 : k = 0
      · have hbit := hbits (n - h) (by omega)
        rw [Nat.sub_add_cancel hgt.le] at hbit
        omega
      · have hbit := hbits (k - 1) (by omega)
        omega

theorem testBit_cut (hj : j + k < e) :
    (2 ^ (e - j) * (2 ^ j - 1) + (2 ^ k - 1)).testBit n = decide (n < k ∨ e - j ≤ n ∧ n < e) := by
  rw [testBit_two_runs (by omega), Nat.sub_add_cancel (by omega)]

theorem Cut.pattern (he : e ∈ sizes) (h : Cut e p) : Pattern e p := by
  obtain ⟨j, k, hj, hk, hjk, rfl⟩ := h
  constructor
  case mem => exact he
  case lt => exact two_runs_lt (by omega) (by omega)
  case zeros => exact ne_run_of_testBit ((testBit_cut hjk).trans (decide_eq_false (show ¬(k < k ∨ e - j ≤ k ∧ k < e) by omega))) (by omega)
  case ones => exact ne_of_testBit ((testBit_cut hjk).trans (decide_eq_true (.inl hk)))
  case halves =>
    refine (half_of_mem he).imp id fun heven heq => ?_
    have hbits (i : Nat) (hi : i < e / 2) := testBit_halves heq hi
    simp only [testBit_cut hjk, decide_eq_decide] at hbits
    generalize e / 2 = h at heven hbits
    have hfirst := hbits 0 (by omega)
    have hlast := hbits (h - 1) (by omega)
    obtain hle | hgt := Nat.lt_or_ge k h
    · have hbit := hbits k hle
      omega
    · have hbit := hbits (k - h) (by omega)
      omega

theorem testBit_gap (h : 1 + u + g + k = e) :
    (2 ^ (g + k) * (2 ^ u - 1) + (2 ^ k - 1)).testBit n = decide (n < k ∨ g + k ≤ n ∧ n < e - 1) := by
  rw [testBit_two_runs (by omega), decide_eq_decide]
  omega

theorem Gap.pattern (he : e ∈ sizes) (h : Gap e p) : Pattern e p := by
  obtain ⟨u, g, k, hu, hg, hk, hsum, hne, rfl⟩ := h
  constructor
  case mem => exact he
  case lt => exact two_runs_lt (by omega) (by omega)
  case zeros => exact ne_run_of_testBit ((testBit_gap hsum).trans (decide_eq_false (show ¬(k < k ∨ g + k ≤ k ∧ k < e - 1) by omega))) (by omega)
  case ones => exact ne_of_testBit ((testBit_gap hsum).trans (decide_eq_true (.inl hk)))
  case halves =>
    refine (half_of_mem he).imp id fun heven heq => ?_
    have hbits (i : Nat) (hi : i < e / 2) := testBit_halves heq hi
    simp only [testBit_gap hsum, decide_eq_decide] at hbits
    generalize e / 2 = h at heven hbits
    have hfirst := hbits 0 (by omega)
    have hlast := hbits (h - 1) (by omega)
    have hbit := hbits k
    omega

-- A pattern of the last kind is none of the others.
theorem Gap.not_mask (h : Gap e p) : ¬(Inside e p ∨ Cut e p) := by
  obtain ⟨u, g, k, hu, hg, hk, hsum, -, rfl⟩ := h
  have hbit (n : Nat) := @testBit_gap e n k g u hsum
  rintro (⟨k', n, hn, hne, hk', heq⟩ | ⟨j, k', hj, hk', hjk, heq⟩)
  · rw [heq] at hbit
    simp only [testBit_inside, decide_eq_decide] at hbit
    have h0 := hbit 0
    have h1 := hbit k
    have h2 := hbit (g + k)
    omega
  · rw [heq] at hbit
    simp only [testBit_cut hjk, decide_eq_decide] at hbit
    have h1 := hbit (e - 1)
    omega

theorem Pattern.le (h : Pattern e p) : 2 ≤ e ∧ e ≤ 64 := by
  obtain rfl | rfl | rfl | rfl | rfl | rfl := (mem_sizes).mp h.mem <;> decide

theorem Pattern.isRunRJ_iff (h : Pattern e p) : isRunRJ p ↔ IsRun p := by
  have hle : 2 ^ e ≤ 2 ^ 64 := Nat.pow_le_pow_right (by decide) h.le.2
  have hlt := h.lt
  have hzeros := h.zeros
  exact Arm.isRunRJ_iff (by omega)

theorem rotate_run (hp : IsRun p) (h : Pattern e p) : rotate fuel e p = some (p, 0) :=
  if_pos (h.isRunRJ_iff.mpr hp)

theorem rotate_even (hp : ¬IsRun p) (h : Pattern e p) (hfuel : 64 ≤ fuel) (hr : 0 < r) (hx : x % 2 = 1)
    (heq : p = 2 ^ r * x) : rotate fuel e p = some (x, r) ∧ r < e := by
  have hlt : r < e := by
    have hx1 : 2 ^ r ≤ 2 ^ r * x := Nat.le_mul_of_pos_right _ (by omega)
    exact (Nat.pow_lt_pow_iff_right (by decide)).mp (show 2 ^ r < 2 ^ e by have := h.lt; omega)
  have hle := h.le.2
  have heven : p % 2 = 0 := by
    obtain ⟨r, rfl⟩ := Nat.exists_eq_succ_of_ne_zero hr.ne'
    rw [heq, Nat.succ_eq_add_one, Nat.pow_succ', Nat.mul_assoc, Nat.mul_mod_right]
  refine ⟨?_, hlt⟩
  rw [rotate, if_neg (fun hrun => hp (h.isRunRJ_iff.mp hrun)), if_pos heven, heq, shiftOutZeros_mul hr hx (by omega),
    Nat.zero_add, Nat.mod_eq_of_lt (by omega)]

-- The ones below the highest bit are brought to the right.
theorem rotate_odd (hp : ¬IsRun p) (h : Pattern e p) (hfuel : 64 ≤ fuel) (hodd : p % 2 = 1) (ht : 0 < t) (hte : t < e)
    (hones : ∀ i, 0 < i → i < t → p.testBit (e - 1 - i)) (hzero : ¬p.testBit (e - 1 - t)) :
    rotate fuel e p = some (2 ^ t * (p % 2 ^ (e - t)) + (2 ^ t - 1), e - t) := by
  have hle := h.le.2
  have hstart : shifted p 0 = p := by
    have hpow : 2 ^ e ≤ 2 ^ 64 := Nat.pow_le_pow_right (by decide) hle
    have hlt := h.lt
    rw [shifted, Nat.pow_zero, Nat.one_mul, Nat.sub_self, Nat.add_zero, Nat.mod_eq_of_lt (by omega)]
  have hloop := @shiftInOnes_shifted e p 0 t fuel 0 ht hte hle (fun i hi hit => hones i hi hit) hzero (by omega)
  rw [hstart] at hloop
  have hvalue : shifted p t % 2 ^ e = 2 ^ t * (p % 2 ^ (e - t)) + (2 ^ t - 1) := by
    have hsplit : 2 ^ e = 2 ^ t * 2 ^ (e - t) := by rw [← Nat.pow_add, Nat.add_sub_cancel' hte.le]
    rw [shifted, Nat.mod_mod_of_dvd _ (Nat.pow_dvd_pow 2 hle), hsplit, Nat.mod_mul, Nat.mul_add_mod,
      Nat.mod_eq_of_lt run_lt, Nat.mul_add_div (Nat.two_pow_pos t), Nat.div_eq_of_lt run_lt, Nat.add_zero, Nat.add_comm]
  have hmask : (if e ≠ 64 then shifted p t &&& (2 ^ e - 1) else shifted p t) = shifted p t % 2 ^ e := by
    split
    case isTrue => exact Nat.and_two_pow_sub_one_eq_mod ..
    case isFalse h64 => rw [not_not.mp h64, shifted, Nat.mod_mod]
  have hrotation : (2 ^ 32 - 1) * t % 2 ^ 32 = (2 ^ 32 - t) % 2 ^ 32 := by
    rw [Nat.sub_one_mul]
    omega
  rw [rotate, if_neg (fun hrun => hp (h.isRunRJ_iff.mp hrun)), if_neg (by omega), hloop, Option.map_some]
  dsimp only
  rw [hmask, hvalue, Nat.zero_add, Nat.sub_zero, hrotation]
  congr 2
  omega

theorem pattern_range (h : Pattern e p) : copies e p (64 / e) ≠ 0 ∧ copies e p (64 / e) ≠ 2 ^ 64 - 1 := by
  have hcount : 0 < 64 / e ∧ e * (64 / e) = 64 := by
    obtain rfl | rfl | rfl | rfl | rfl | rfl := (mem_sizes).mp h.mem <;> decide
  have hones := copies_ne_ones h.lt h.zeros hcount.1
  rw [hcount.2] at hones
  exact ⟨copies_ne_zero h.ones hcount.1, hones⟩

theorem encode_copies (h : Pattern e p) : encodeNImmrImms fuel (copies e p (64 / e)) =
    (rotate fuel e p).map fun (value, rotation) =>
      if !isRunRJ value then none else some (fields e (popcount p) rotation) := by
  have hrange := pattern_range h
  rw [encodeNImmrImms, if_neg (fun hor => hor.elim hrange.1 hrange.2), pattern_copies h]

theorem popcount_inside : popcount (2 ^ k * (2 ^ n - 1)) = n := by
  have h := @popcount_mul_add (2 ^ n - 1) 0 k (Nat.two_pow_pos k)
  rw [Nat.add_zero, popcount_zero, popcount_run] at h
  exact h

theorem run_exponent (h : Pattern e (2 ^ n - 1)) : 0 < n ∧ n < e := by
  have hlt := h.lt
  have hones := h.ones
  have hzeros := h.zeros
  have hpos : 0 < n := by
    refine Nat.pos_of_ne_zero fun h0 => hones ?_
    rw [h0]
    rfl
  refine ⟨hpos, ?_⟩
  by_contra hle
  have hpow : 2 ^ e ≤ 2 ^ n := Nat.pow_le_pow_right (by decide) (not_lt.mp hle)
  omega

theorem encode_run (hp : IsRun p) (h : Pattern e p) :
    ∃ n, 0 < n ∧ n < e ∧ p = 2 ^ 0 * (2 ^ n - 1) ∧
      encodeNImmrImms fuel (copies e p (64 / e)) = some (some (fields e n 0)) := by
  obtain ⟨n, rfl⟩ := hp
  obtain ⟨hpos, hlt⟩ := run_exponent h
  refine ⟨n, hpos, hlt, by rw [Nat.pow_zero, Nat.one_mul], ?_⟩
  rw [encode_copies h, rotate_run isRun_run h, Option.map_some, popcount_run]
  dsimp only
  rw [h.isRunRJ_iff.mpr isRun_run]
  rfl

theorem encode_even (hp : ¬IsRun p) (h : Pattern e p) (hfuel : 64 ≤ fuel) (heven : p % 2 = 0) :
    (∃ k n, 0 < n ∧ n < e ∧ k + n ≤ e ∧ p = 2 ^ k * (2 ^ n - 1) ∧
      encodeNImmrImms fuel (copies e p (64 / e)) = some (some (fields e n k))) ∨
    (¬(Inside e p ∨ Cut e p) ∧ ¬Gap e p ∧ encodeNImmrImms fuel (copies e p (64 / e)) = some none) := by
  obtain ⟨r, x, hodd, heq⟩ := Nat.exists_eq_two_pow_mul_odd h.ones
  have hx := Nat.odd_iff.mp hodd
  have hr : 0 < r := by
    refine Nat.pos_of_ne_zero fun h0 => ?_
    rw [heq, h0, Nat.pow_zero, Nat.one_mul] at heven
    omega
  obtain ⟨hrotate, hre⟩ := rotate_even hp h hfuel hr hx heq
  have hlt := h.lt
  have hxlt : x < 2 ^ (e - r) := by
    have hsplit : 2 ^ e = 2 ^ r * 2 ^ (e - r) := by rw [← Nat.pow_add, Nat.add_sub_cancel' hre.le]
    rw [heq, hsplit] at hlt
    exact lt_of_mul_lt_mul_left hlt (Nat.zero_le _)
  have hx64 : x < 2 ^ 64 - 1 := by
    have hle := h.le.2
    have hpow : 2 ^ (e - r) ≤ 2 ^ 63 := Nat.pow_le_pow_right (by decide) (by omega)
    omega
  by_cases hrun : IsRun x
  case pos =>
    obtain ⟨n, rfl⟩ := hrun
    have hn : 0 < n := by
      refine Nat.pos_of_ne_zero fun h0 => ?_
      rw [h0] at hx
      cases hx
    have hnle : n ≤ e - r := by
      by_contra hgt
      have hpow : 2 ^ (e - r) * 2 ≤ 2 ^ n := by
        rw [← Nat.pow_succ]
        exact Nat.pow_le_pow_right (by decide) (by omega)
      have hpos := Nat.two_pow_pos (e - r)
      omega
    refine .inl ⟨r, n, hn, by omega, by omega, heq, ?_⟩
    rw [encode_copies h, hrotate, Option.map_some, heq, popcount_inside]
    dsimp only
    rw [(isRunRJ_iff hx64).mpr isRun_run]
    rfl
  case neg =>
    refine .inr ⟨?_, ?_, ?_⟩
    · rintro (⟨k, n, hn, hne, hkn, hinside⟩ | ⟨j, k, hj, hk, hjk, hcut⟩)
      · have hk : 0 < k := by
          refine Nat.pos_of_ne_zero fun h0 => hp ⟨n, ?_⟩
          rw [hinside, h0, Nat.pow_zero, Nat.one_mul]
        have hodd' : (2 ^ n - 1) % 2 = 1 := by
          obtain ⟨n, rfl⟩ := Nat.exists_eq_succ_of_ne_zero hn.ne'
          have hpos := Nat.two_pow_pos n
          omega
        have hsame := hrotate.symm.trans (rotate_even hp h hfuel hk hodd' hinside).1
        rw [Option.some.injEq, Prod.mk.injEq] at hsame
        exact hrun ⟨n, hsame.1⟩
      · have hbit := (testBit_cut hjk).trans (decide_eq_true (show 0 < k ∨ e - j ≤ 0 ∧ 0 < e from .inl hk))
        rw [← hcut, Nat.testBit_zero, heven] at hbit
        exact absurd hbit (by decide)
    · rintro ⟨u, g, k, -, -, hk, hsum, -, hgap⟩
      have hbit := (testBit_gap hsum).trans (decide_eq_true (show 0 < k ∨ g + k ≤ 0 ∧ 0 < e - 1 from .inl hk))
      rw [← hgap, Nat.testBit_zero, heven] at hbit
      exact absurd hbit (by decide)
    · rw [encode_copies h, hrotate, Option.map_some]
      dsimp only
      rw [Bool.eq_false_iff.mpr fun hx => hrun ((isRunRJ_iff hx64).mp hx)]
      rfl

-- An odd pattern that is no run has a zero below its highest bit.
theorem exists_zero (hp : ¬IsRun p) (h : Pattern e p) :
    ∃ t, 0 < t ∧ t < e ∧ ¬p.testBit (e - 1 - t) ∧ ∀ i, 0 < i → i < t → p.testBit (e - 1 - i) := by
  have hle := h.le
  have hexists : ∃ t, 0 < t ∧ t < e ∧ ¬p.testBit (e - 1 - t) := by
    by_contra hall
    push Not at hall
    have hones (i : Nat) (hi : i < e - 1) : p.testBit i = true := by
      have hbit := hall (e - 1 - i) (by omega) (by omega)
      rwa [Nat.sub_sub_self (by omega)] at hbit
    cases htop : p.testBit (e - 1)
    case true =>
      refine h.zeros (eq_of_testBit h.lt run_lt fun i hi => ?_)
      rw [Nat.testBit_two_pow_sub_one, decide_eq_true hi]
      by_cases hi' : i = e - 1
      · rw [hi', htop]
      · exact hones i (by omega)
    case false =>
      refine hp ⟨e - 1, eq_of_testBit h.lt (run_lt.trans_le (Nat.pow_le_pow_right (by decide) (Nat.sub_le e 1))) fun i hi => ?_⟩
      rw [Nat.testBit_two_pow_sub_one]
      by_cases hi' : i = e - 1
      · rw [hi', htop, decide_eq_false (by omega)]
      · rw [hones i (by omega), decide_eq_true (by omega)]
  refine ⟨Nat.find hexists, (Nat.find_spec hexists).1, (Nat.find_spec hexists).2.1, (Nat.find_spec hexists).2.2, fun i hi hit => ?_⟩
  have hmin := Nat.find_min hexists hit
  have hlt := (Nat.find_spec hexists).2.1
  by_contra hzero
  exact hmin ⟨hi, by omega, hzero⟩

theorem isRun_shifted_iff : IsRun (2 ^ t * m + (2 ^ t - 1)) ↔ IsRun m := by
  have hpos := Nat.two_pow_pos t
  constructor
  case mpr =>
    intro ⟨k, hk⟩
    refine ⟨t + k, ?_⟩
    have hle : 2 ^ t ≤ 2 ^ t * 2 ^ k := Nat.le_mul_of_pos_right _ (Nat.two_pow_pos k)
    rw [hk, Nat.pow_add, Nat.mul_sub_one]
    omega
  case mp =>
    intro ⟨k, hk⟩
    have hpow : 2 ^ t * (m + 1) = 2 ^ k := by
      have hposk := Nat.two_pow_pos k
      rw [Nat.mul_succ]
      omega
    obtain ⟨i, -, hi⟩ := (Nat.dvd_prime_pow Nat.prime_two).mp ⟨2 ^ t, (hpow ▸ Nat.mul_comm ..)⟩
    exact ⟨i, by omega⟩

-- The part above a zero is a run with the highest bit or without it.
theorem upper_part (h : Pattern e p) (ht : 0 < t) (hte : t < e)
    (hones : ∀ i, 0 < i → i < t → p.testBit (e - 1 - i)) :
    p / 2 ^ (e - t) = if p.testBit (e - 1) then 2 ^ t - 1 else 2 ^ (t - 1) - 1 := by
  have hlt : p / 2 ^ (e - t) < 2 ^ t := by
    rw [Nat.div_lt_iff_lt_mul (Nat.two_pow_pos _), ← Nat.pow_add, Nat.add_sub_cancel' hte.le]
    exact h.lt
  have hbit (i : Nat) (hi : i < t - 1) : (p / 2 ^ (e - t)).testBit i = true := by
    rw [Nat.testBit_div_two_pow, show i + (e - t) = e - 1 - (t - 1 - i) by omega]
    exact hones (t - 1 - i) (by omega) (by omega)
  have htop : (p / 2 ^ (e - t)).testBit (t - 1) = p.testBit (e - 1) := by
    rw [Nat.testBit_div_two_pow, show t - 1 + (e - t) = e - 1 by omega]
  split
  case isTrue hone =>
    refine eq_of_testBit hlt run_lt fun i hi => ?_
    rw [Nat.testBit_two_pow_sub_one, decide_eq_true hi]
    by_cases hi' : i = t - 1
    · rw [hi', htop, hone]
    · exact hbit i (by omega)
  case isFalse hnone =>
    refine eq_of_testBit hlt (run_lt.trans_le (Nat.pow_le_pow_right (by decide) (Nat.sub_le t 1))) fun i hi => ?_
    rw [Nat.testBit_two_pow_sub_one]
    by_cases hi' : i = t - 1
    · rw [hi', htop, Bool.eq_false_iff.mpr hnone, decide_eq_false (by omega)]
    · rw [hbit i (by omega), decide_eq_true (by omega)]

-- The first zero below the highest bit of a pattern that goes around its ends is where the upper piece ends.
theorem Cut.zero {j : Nat} (hj : 0 < j) (hjk : j + k < e) (hp : p = 2 ^ (e - j) * (2 ^ j - 1) + (2 ^ k - 1)) (hte : t < e)
    (ht : 0 < t) (hzero : ¬p.testBit (e - 1 - t)) (hones : ∀ i, 0 < i → i < t → p.testBit (e - 1 - i)) : t = j := by
  have hbit (n : Nat) : p.testBit n = decide (n < k ∨ e - j ≤ n ∧ n < e) := hp ▸ testBit_cut hjk
  rw [hbit, decide_eq_true_iff] at hzero
  by_contra hne
  have hlast := hones j hj (by omega)
  rw [hbit, decide_eq_true_iff] at hlast
  omega

theorem Gap.zero (hsum : 1 + u + g + k = e) (hg : 0 < g) (hp : p = 2 ^ (g + k) * (2 ^ u - 1) + (2 ^ k - 1))
    (hte : t < e) (ht : 0 < t) (hzero : ¬p.testBit (e - 1 - t)) (hones : ∀ i, 0 < i → i < t → p.testBit (e - 1 - i)) :
    t = u + 1 := by
  have hbit (n : Nat) : p.testBit n = decide (n < k ∨ g + k ≤ n ∧ n < e - 1) := hp ▸ testBit_gap hsum
  rw [hbit, decide_eq_true_iff] at hzero
  by_contra hne
  have hlast := hones (u + 1) (Nat.succ_pos u) (by omega)
  rw [hbit, decide_eq_true_iff] at hlast
  omega

theorem encode_odd (hp : ¬IsRun p) (h : Pattern e p) (hfuel : 64 ≤ fuel) (hodd : p % 2 = 1) :
    (∃ j k, 0 < j ∧ 0 < k ∧ j + k < e ∧ p = 2 ^ (e - j) * (2 ^ j - 1) + (2 ^ k - 1) ∧
      encodeNImmrImms fuel (copies e p (64 / e)) = some (some (fields e (j + k) (e - j)))) ∨
    (Gap e p ∧ ∃ f, encodeNImmrImms fuel (copies e p (64 / e)) = some (some f)) ∨
    (¬(Inside e p ∨ Cut e p) ∧ ¬Gap e p ∧ encodeNImmrImms fuel (copies e p (64 / e)) = some none) := by
  obtain ⟨t, ht, hte, hzero, hones⟩ := exists_zero hp h
  have hrotate := rotate_odd hp h hfuel hodd ht hte hones hzero
  have hupper := upper_part h ht hte hones
  have hsplit := Nat.div_add_mod p (2 ^ (e - t))
  have hpos := Nat.two_pow_pos (e - t)
  have hmlt : p % 2 ^ (e - t) < 2 ^ (e - t) := Nat.mod_lt _ hpos
  have hmzero : (p % 2 ^ (e - t)).testBit (e - t - 1) = false := by
    rw [Nat.testBit_mod_two_pow, decide_eq_true (by omega), Bool.true_and, show e - t - 1 = e - 1 - t by omega]
    exact Bool.eq_false_iff.mpr hzero
  have hmodd : p % 2 ^ (e - t) % 2 = 1 := by
    rw [Nat.mod_mod_of_dvd _ (dvd_pow_self 2 (by omega)), hodd]
  rw [encode_copies h, hrotate, Option.map_some]
  dsimp only
  generalize hm : p % 2 ^ (e - t) = m at hsplit hmlt hmzero hmodd ⊢
  have hw : 2 ^ t * m + (2 ^ t - 1) < 2 ^ 64 - 1 := by
    have hne : m ≠ 2 ^ (e - t) - 1 := by
      rintro rfl
      rw [Nat.testBit_two_pow_sub_one, decide_eq_false_iff_not] at hmzero
      omega
    have hmul : 2 ^ t * (m + 1 + 1) ≤ 2 ^ t * 2 ^ (e - t) := Nat.mul_le_mul_left _ (by omega)
    have hpow : 2 ^ e ≤ 2 ^ 64 := Nat.pow_le_pow_right (by decide) h.le.2
    have hpost := Nat.two_pow_pos t
    rw [← Nat.pow_add, Nat.add_sub_cancel' hte.le, Nat.mul_succ, Nat.mul_succ] at hmul
    omega
  by_cases hrun : IsRun m
  case neg =>
    refine .inr (.inr ⟨?_, ?_, ?_⟩)
    · rintro (⟨k, n, hn, hne, hkn, hinside⟩ | ⟨j, k, hj, hk, hjk, hcut⟩)
      · have hbit := @testBit_inside n k 0
        rw [← hinside, Nat.testBit_zero, hodd] at hbit
        have hk := (of_decide_eq_true (hbit.symm.trans (decide_eq_true rfl))).1
        rw [Nat.le_zero.mp hk, Nat.pow_zero, Nat.one_mul] at hinside
        exact hp ⟨n, hinside⟩
      · obtain rfl := Cut.zero hj hjk hcut hte ht hzero hones
        refine hrun ⟨k, ?_⟩
        rw [← hm, hcut, Nat.mul_add_mod, Nat.mod_eq_of_lt (run_lt.trans_le (Nat.pow_le_pow_right (by decide) (by omega)))]
    · rintro ⟨u, g, k, -, hg, hk, hsum, -, hgap⟩
      obtain rfl := Gap.zero hsum hg hgap hte ht hzero hones
      refine hrun ⟨k, ?_⟩
      rw [← hm, hgap, show g + k = e - (u + 1) by omega, Nat.mul_add_mod,
        Nat.mod_eq_of_lt (run_lt.trans_le (Nat.pow_le_pow_right (by decide) (by omega)))]
    · rw [Bool.eq_false_iff.mpr fun hx => hrun ((isRun_shifted_iff).mp ((isRunRJ_iff hw).mp hx))]
      rfl
  case pos =>
    rw [(isRunRJ_iff hw).mpr ((isRun_shifted_iff).mpr hrun)]
    obtain ⟨k, rfl⟩ := hrun
    rw [Nat.testBit_two_pow_sub_one, decide_eq_false_iff_not] at hmzero
    have hk : 0 < k := by
      refine Nat.pos_of_ne_zero fun h0 => ?_
      rw [h0] at hmodd
      cases hmodd
    cases htop : p.testBit (e - 1)
    case true =>
      rw [htop, if_pos rfl] at hupper
      rw [hupper] at hsplit
      refine .inl ⟨t, k, ht, hk, by omega, hsplit.symm, ?_⟩
      rw [← hsplit, popcount_mul_add hmlt, popcount_run, popcount_run]
      rfl
    case false =>
      rw [htop, if_neg Bool.false_ne_true] at hupper
      rw [hupper] at hsplit
      refine .inr (.inl ⟨⟨t - 1, e - t - k, k, ?_, by omega, hk, by omega, ?_, ?_⟩, _, rfl⟩)
      · refine Nat.pos_of_ne_zero fun h0 => hp ⟨k, ?_⟩
        rw [← hsplit, h0, Nat.pow_zero, Nat.sub_self, Nat.mul_zero, Nat.zero_add]
      · rintro ⟨hg, hu⟩
        refine (h.halves.resolve_left (by omega)) ?_
        rw [show e / 2 = e - t by omega, hm, hupper, hu]
      · rw [show e - t - k + k = e - t by omega]
        exact hsplit.symm

-- How the fields tell the size, the number of ones and the rotation.
theorem fields_masks : (∀ e ∈ sizes, ∀ n < e, 0 < n →
    (fields e n 0).N * 64 + (63 - (fields e n 0).imms) ≠ 0 ∧
      1 ≤ Nat.log2 ((fields e n 0).N * 64 + (63 - (fields e n 0).imms)) ∧
      2 ^ Nat.log2 ((fields e n 0).N * 64 + (63 - (fields e n 0).imms)) = e ∧
      (fields e n 0).imms &&& (e - 1) = n - 1 ∧ (fields e n 0).imms < 64 ∧ (fields e n 0).N < 2) ∧
    ∀ e ∈ sizes, ∀ r < e, (fields e 0 r).immr &&& (e - 1) = (e - r) % e ∧ (fields e 0 r).immr < 64 :=
  ⟨by decide +kernel, by decide +kernel⟩

def Valid (f : Fields) : Prop :=
  f.N < 2 ∧ f.immr < 64 ∧ f.imms < 64

-- What is decoded from the fields.
theorem decode_fields (he : e ∈ sizes) (hn : 0 < n) (hne : n < e) (hr : r < e) : Valid (fields e n r) ∧
    DecodeBitMasks (fields e n r) = some (copies e (ror e (2 ^ n - 1) ((e - r) % e)) (64 / e)) := by
  have ⟨hnonzero, hlen, hsize, hS, himms, hN⟩ := fields_masks.1 e he n hne hn
  have ⟨hR, himmr⟩ := fields_masks.2 e he r hr
  have hN' : (fields e n r).N = (fields e n 0).N := rfl
  have himms' : (fields e n r).imms = (fields e n 0).imms := rfl
  have himmr' : (fields e n r).immr = (fields e 0 r).immr := rfl
  refine ⟨⟨hN, himmr, himms⟩, ?_⟩
  rw [DecodeBitMasks]
  dsimp only
  rw [hN', himms', himmr', if_neg (by omega), hsize, hS, hR, if_neg (by omega), Nat.sub_add_cancel hn]

theorem decode_inside (he : e ∈ sizes) (hn : 0 < n) (hne : n < e) (hkn : k + n ≤ e) : Valid (fields e n k) ∧
    DecodeBitMasks (fields e n k) = some (copies e (2 ^ k * (2 ^ n - 1)) (64 / e)) := by
  rw [← ror_run_inside hkn (by omega)]
  exact decode_fields he hn hne (by omega)

theorem decode_cut (he : e ∈ sizes) (hj : 0 < j) (hjk : j + k < e) : Valid (fields e (j + k) (e - j)) ∧
    DecodeBitMasks (fields e (j + k) (e - j)) = some (copies e (2 ^ (e - j) * (2 ^ j - 1) + (2 ^ k - 1)) (64 / e)) := by
  have hdecode := @decode_fields e (j + k) (e - j) he (by omega) hjk (by omega)
  rwa [Nat.sub_sub_self (by omega), Nat.mod_eq_of_lt (show j < e by omega), ror_run_cut hjk] at hdecode

-- Everything that can be decoded is a rotated run in each element.
theorem decode_run {f : Fields} (hf : Valid f) (h : DecodeBitMasks f = some v) :
    ∃ e ∈ sizes, ∃ n r, 0 < n ∧ n < e ∧ r < e ∧ v = copies e (ror e (2 ^ n - 1) r) (64 / e) := by
  obtain ⟨hN, himmr, himms⟩ := hf
  rw [DecodeBitMasks] at h
  dsimp only at h
  split at h
  case isTrue => cases h
  case isFalse hlen =>
    split at h
    case isTrue => cases h
    case isFalse hlevels =>
      have hlen6 : Nat.log2 (f.N * 64 + (63 - f.imms)) < 7 := by
        rw [Nat.log2_lt (by omega)]
        omega
      generalize Nat.log2 (f.N * 64 + (63 - f.imms)) = len at hlen hlevels h hlen6
      have hpos := Nat.two_pow_pos len
      have hS : f.imms &&& (2 ^ len - 1) < 2 ^ len := by
        rw [Nat.and_two_pow_sub_one_eq_mod]
        exact Nat.mod_lt _ hpos
      have hR : f.immr &&& (2 ^ len - 1) < 2 ^ len := by
        rw [Nat.and_two_pow_sub_one_eq_mod]
        exact Nat.mod_lt _ hpos
      exact ⟨2 ^ len, two_pow_mem_sizes (by omega) (by omega), (f.imms &&& (2 ^ len - 1)) + 1, f.immr &&& (2 ^ len - 1),
        Nat.succ_pos _, by omega, hR, (Option.some.inj h).symm⟩

theorem run_pattern (hn : 0 < n) (hne : n < e) (hr : r < e) :
    Inside e (ror e (2 ^ n - 1) r) ∨ Cut e (ror e (2 ^ n - 1) r) := by
  by_cases h0 : r = 0
  case pos =>
    have hror := @ror_run_inside e n 0 (by omega) (by omega)
    rw [Nat.sub_zero, Nat.mod_self] at hror
    exact .inl ⟨0, n, hn, hne, by omega, by rw [h0, hror]⟩
  case neg =>
    obtain hrn | hnr := Nat.lt_or_ge r n
    · have hror := @ror_run_cut e r (n - r) (by omega)
      rw [Nat.add_sub_cancel' hrn.le] at hror
      exact .inr ⟨r, n - r, by omega, by omega, by omega, hror⟩
    · have hror := @ror_run_inside e n (e - r) (by omega) (by omega)
      rw [Nat.sub_sub_self hr.le, Nat.mod_eq_of_lt hr] at hror
      exact .inl ⟨e - r, n, hn, hne, by omega, hror⟩

-- The bit masks of the architecture.
def IsMask (v : Nat) : Prop :=
  ∃ f, Valid f ∧ DecodeBitMasks f = some v

theorem IsMask.pattern (h : IsMask v) : ∃ e p, Pattern e p ∧ (Inside e p ∨ Cut e p) ∧ v = copies e p (64 / e) := by
  obtain ⟨f, hf, hdecode⟩ := h
  obtain ⟨e, he, n, r, hn, hne, hr, rfl⟩ := decode_run hf hdecode
  have hrun := run_pattern hn hne hr
  exact ⟨e, _, hrun.elim (Inside.pattern he) (Cut.pattern he), hrun, rfl⟩

theorem pattern_unique {e' p' : Nat} (h : Pattern e p) (h' : Pattern e' p')
    (heq : copies e p (64 / e) = copies e' p' (64 / e')) : e = e' ∧ p = p' := by
  have hpattern := pattern_copies h
  rw [heq, pattern_copies h', Option.some.injEq, Prod.mk.injEq] at hpattern
  exact ⟨hpattern.1.symm, hpattern.2.symm⟩

-- A value is encoded if and only if it is a bit mask, and what is produced is decoded to it.
def EncodesExactly (fuel v : Nat) : Prop :=
  ∃ result, encodeNImmrImms fuel v = some result ∧ (result.isSome ↔ IsMask v) ∧
    ∀ f, result = some f → Valid f ∧ DecodeBitMasks f = some v

-- In each element there is a zero, a run of ones, a gap and another run at the right.
def Gapped (v : Nat) : Prop :=
  ∃ e ∈ sizes, ∃ p, Gap e p ∧ v = copies e p (64 / e)

theorem encodesExactly_mask {f : Fields} (hencode : encodeNImmrImms fuel v = some (some f))
    (hdecode : Valid f ∧ DecodeBitMasks f = some v) : EncodesExactly fuel v := by
  refine ⟨some f, hencode, iff_of_true rfl ⟨f, hdecode⟩, fun f' hf' => ?_⟩
  rw [← Option.some.inj hf']
  exact hdecode

theorem encodesExactly_none (hencode : encodeNImmrImms fuel v = some none) (hmask : ¬IsMask v) : EncodesExactly fuel v :=
  ⟨none, hencode, iff_of_false Bool.false_ne_true hmask, fun _ hf => by cases hf⟩

theorem Gap.odd (h : Gap e p) : p % 2 = 1 := by
  obtain ⟨u, g, k, -, -, hk, hsum, -, rfl⟩ := h
  have hbit := (testBit_gap hsum).trans (decide_eq_true (show 0 < k ∨ g + k ≤ 0 ∧ 0 < e - 1 from .inl hk))
  rwa [Nat.testBit_zero, decide_eq_true_iff] at hbit

theorem Gap.not_run (he : e ∈ sizes) (h : Gap e p) : ¬IsRun p := by
  intro hrun
  obtain ⟨n, hn, hne, hp, -⟩ := @encode_run e p 0 hrun (h.pattern he)
  exact h.not_mask (.inl ⟨0, n, hn, hne, by omega, hp⟩)

-- The highest bit of a pattern that ends in a one is not looked at.
theorem Gap.not_encodesExactly (he : e ∈ sizes) (h : Gap e p) (hfuel : 64 ≤ fuel) :
    ¬EncodesExactly fuel (copies e p (64 / e)) := by
  intro ⟨result, hresult, hiff, _⟩
  have hpattern := h.pattern he
  obtain ⟨j, k, hj, hk, hjk, hp, -⟩ | ⟨-, f, hencode⟩ | ⟨-, hngap, -⟩ := encode_odd (h.not_run he) hpattern hfuel h.odd
  · exact h.not_mask (.inr ⟨j, k, hj, hk, hjk, hp⟩)
  · obtain rfl := Option.some.inj (hencode.symm.trans hresult)
    obtain ⟨e', p', h', hshape, heq⟩ := (hiff.mp rfl).pattern
    obtain ⟨rfl, rfl⟩ := pattern_unique hpattern h' heq
    exact h.not_mask hshape
  · exact hngap h

-- Exactly the gapped values are encoded wrongly.
theorem encodesExactly_iff (hv : v < 2 ^ 64) (hfuel : 64 ≤ fuel) : EncodesExactly fuel v ↔ ¬Gapped v := by
  by_cases hconst : v = 0 ∨ v = 2 ^ 64 - 1
  case pos =>
    have hnot {e p : Nat} (h : Pattern e p) (heq : v = copies e p (64 / e)) : False := by
      have hrange := pattern_range h
      rw [← heq] at hrange
      exact hconst.elim hrange.1 hrange.2
    refine iff_of_true (encodesExactly_none (if_pos hconst) fun hmask => ?_) fun ⟨e, he, p, hgap, heq⟩ => hnot (hgap.pattern he) heq
    obtain ⟨e, p, hpattern, -, heq⟩ := hmask.pattern
    exact hnot hpattern heq
  case neg =>
    push Not at hconst
    obtain ⟨e, p, h, hcopies⟩ := @exists_pattern v 6 (by decide) le_rfl hv hconst.1 hconst.2
    have heq : v = copies e p (64 / e) := by
      rw [← hcopies]
      exact (copies_one).symm
    have hmask (hm : IsMask v) : Inside e p ∨ Cut e p := by
      obtain ⟨e', p', h', hshape, heq'⟩ := hm.pattern
      obtain ⟨rfl, rfl⟩ := pattern_unique h h' (heq.symm.trans heq')
      exact hshape
    have hgap (hg : Gapped v) : Gap e p := by
      obtain ⟨e', he', p', hg', heq'⟩ := hg
      obtain ⟨rfl, rfl⟩ := pattern_unique h (hg'.pattern he') (heq.symm.trans heq')
      exact hg'
    rw [heq]
    rw [heq] at hmask hgap
    have hencoded {f : Fields} (hshape : Inside e p ∨ Cut e p)
        (hencode : encodeNImmrImms fuel (copies e p (64 / e)) = some (some f))
        (hdecode : Valid f ∧ DecodeBitMasks f = some (copies e p (64 / e))) :
        EncodesExactly fuel (copies e p (64 / e)) ↔ ¬Gapped (copies e p (64 / e)) :=
      iff_of_true (encodesExactly_mask hencode hdecode) fun hg => (hgap hg).not_mask hshape
    have hrejected (hshape : ¬(Inside e p ∨ Cut e p)) (hodd : ¬Gap e p)
        (hencode : encodeNImmrImms fuel (copies e p (64 / e)) = some none) :
        EncodesExactly fuel (copies e p (64 / e)) ↔ ¬Gapped (copies e p (64 / e)) :=
      iff_of_true (encodesExactly_none hencode fun hm => hshape (hmask hm)) fun hg => hodd (hgap hg)
    by_cases hrun : IsRun p
    case pos =>
      obtain ⟨n, hn, hne, hp, hencode⟩ := @encode_run e p fuel hrun h
      exact hencoded (.inl ⟨0, n, hn, hne, by omega, hp⟩) hencode (hp ▸ decode_inside h.mem hn hne (by omega))
    case neg =>
      obtain heven | hodd := Nat.mod_two_eq_zero_or_one p
      · obtain ⟨k, n, hn, hne, hkn, hp, hencode⟩ | ⟨hshape, hodd, hencode⟩ := encode_even hrun h hfuel heven
        · exact hencoded (.inl ⟨k, n, hn, hne, hkn, hp⟩) hencode (hp ▸ decode_inside h.mem hn hne hkn)
        · exact hrejected hshape hodd hencode
      · obtain ⟨j, k, hj, hk, hjk, hp, hencode⟩ | ⟨hshape, -⟩ | ⟨hshape, hngap, hencode⟩ :=
          encode_odd hrun h hfuel hodd
        · exact hencoded (.inr ⟨j, k, hj, hk, hjk, hp⟩) hencode (hp ▸ decode_cut h.mem hj hjk)
        · exact iff_of_false (hshape.not_encodesExactly h.mem hfuel) fun hnot => hnot ⟨e, h.mem, p, hshape, rfl⟩
        · exact hrejected hshape hngap hencode

-- Bits 62 and 0. What is produced is decoded to bits 63 and 62.
theorem gap_encoded : ¬EncodesExactly 64 0x4000000000000001 := by
  have hgap : Gap 64 0x4000000000000001 := ⟨1, 61, 1, by decide, by decide, by decide, by decide, by decide, by decide⟩
  exact hgap.not_encodesExactly (by decide) le_rfl

-- One byte in each half.
theorem bytes_encoded : EncodesExactly 64 0x000000FF000000FF := by
  refine (encodesExactly_iff (by decide) le_rfl).mpr fun ⟨e, he, p, hgap, heq⟩ => ?_
  have hinside : Inside 32 0xFF := ⟨0, 8, by decide, by decide, by decide, by decide⟩
  obtain ⟨rfl, rfl⟩ := pattern_unique (hinside.pattern (by decide)) (hgap.pattern he) heq
  exact hgap.not_mask (.inl hinside)

end Compiler.Backend.Arm
