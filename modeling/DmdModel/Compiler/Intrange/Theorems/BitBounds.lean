import DmdModel.Compiler.Intrange.Theorems.Numbers

-- The bounds of bitwise operations that are found bit by bit.

namespace Compiler.Intrange

namespace IntRange

open SignExtendedNumber

variable {a b x lhs rhs lmin lmax rmin rmax v w : uinteger_t} {j k : Nat}

section bits

theorem toNat_bit (hk : k < 64) : ((1 : uinteger_t) <<< k).toNat = 2 ^ k := by
  have hlt : 2 ^ k < 2 ^ 64 := Nat.pow_lt_pow_right (by decide) hk
  rw [BitVec.toNat_shiftLeft, Nat.shiftLeft_eq]
  change 1 * 2 ^ k % 2 ^ 64 = _
  rw [Nat.one_mul, Nat.mod_eq_of_lt hlt]

theorem and_bit_iff (hk : k < 64) : v &&& (1 : uinteger_t) <<< k ≠ 0 ↔ v.getLsbD k = true := by
  have htest : (v &&& (1 : uinteger_t) <<< k).toNat = 2 ^ k * (v.getLsbD k).toNat := by
    rw [BitVec.toNat_and, toNat_bit hk, Nat.and_two_pow, BitVec.getLsbD, Nat.mul_comm]
  have hpos := Nat.two_pow_pos k
  rw [ne_eq, ← BitVec.toNat_inj, htest]
  change ¬_ = 0 ↔ _
  cases v.getLsbD k <;> simp

theorem not_bit_iff (hk : k < 64) : (~~~v).getLsbD k = true ↔ v.getLsbD k = false := by
  rw [BitVec.getLsbD_not, decide_eq_true hk, Bool.true_and, Bool.not_eq_true']

theorem low_succ : v.toNat % 2 ^ (k + 1) = v.toNat % 2 ^ k + if v.getLsbD k then 2 ^ k else 0 := by
  rw [Nat.mod_pow_succ, ← Nat.toNat_testBit, BitVec.getLsbD]
  cases v.toNat.testBit k <;> simp

-- A bound of the lowest bits and one more bit
theorem low_le_of_succ (h : v.toNat % 2 ^ (k + 1) ≤ w.toNat % 2 ^ (k + 1)) :
    (v.getLsbD k = true → w.getLsbD k = true) ∧
      (v.getLsbD k = w.getLsbD k → v.toNat % 2 ^ k ≤ w.toNat % 2 ^ k) := by
  have hpos := Nat.two_pow_pos k
  have hv := Nat.mod_lt v.toNat hpos
  have hw := Nat.mod_lt w.toNat hpos
  rw [low_succ, low_succ] at h
  cases hvb : v.getLsbD k <;> cases hwb : w.getLsbD k <;> rw [hvb, hwb] at h <;> simp at h ⊢
  case false.false | true.true => exact h
  case true.false => omega

theorem toNat_or_bit (hk : k < 64) (hx : x.toNat % 2 ^ (k + 1) = 0) :
    (x ||| (1 : uinteger_t) <<< k).toNat = x.toNat + 2 ^ k ∧ (x ||| (1 : uinteger_t) <<< k).toNat % 2 ^ k = 0 := by
  have hlt : ((1 : uinteger_t) <<< k).toNat < 2 ^ (k + 1) := by
    rw [toNat_bit hk]
    exact Nat.pow_lt_pow_right (by decide) (Nat.lt_succ_self k)
  have hsum := toNat_or_of_low hx hlt
  rw [toNat_bit hk] at hsum
  refine ⟨hsum, ?_⟩
  rw [hsum, Nat.add_mod_right, ← Nat.mod_mod_of_dvd _ (Nat.pow_dvd_pow 2 (Nat.le_succ k)), hx, Nat.zero_mod]

theorem low_zero (hx : x.toNat % 2 ^ (k + 1) = 0) : x.toNat % 2 ^ k = 0 := by
  rw [← Nat.mod_mod_of_dvd _ (Nat.pow_dvd_pow 2 (Nat.le_succ k)), hx, Nat.zero_mod]

theorem le_or : x.toNat ≤ (x ||| w).toNat := by
  rw [BitVec.toNat_or]
  exact Nat.left_le_or

theorem toNat_bit_sub_one (hk : k < 64) : ((1 : uinteger_t) <<< k - 1).toNat = 2 ^ k - 1 := by
  have hpos := Nat.two_pow_pos k
  have hone : (1 : uinteger_t).toNat = 1 := rfl
  rw [BitVec.toNat_sub_of_le, toNat_bit hk, hone]
  rw [BitVec.le_def, toNat_bit hk]
  exact hpos

theorem toNat_all_ones (hk : k < 64) : ((1 : uinteger_t) <<< k <<< 1 - 1).toNat = 2 ^ (k + 1) - 1 := by
  obtain hlt | heq : k + 1 < 64 ∨ k = 63 := by omega
  case inl =>
    rw [← BitVec.shiftLeft_add]
    exact toNat_bit_sub_one hlt
  case inr =>
    subst heq
    rfl

theorem lt_of_bit (hv : v.toNat < 2 ^ j) (h : v.getLsbD k = true) : k < j := by
  by_contra hge
  have hsmall : v.toNat < 2 ^ k := hv.trans_le (Nat.pow_le_pow_right (by decide) (not_lt.mp hge))
  rw [BitVec.getLsbD, Nat.testBit_lt_two_pow hsmall] at h
  exact Bool.false_ne_true h

end bits

section unions

-- The lowest bits of a number are between the ones of two others.
structure Within (lo hi a : uinteger_t) (k : Nat) : Prop where
  low  : lo.toNat % 2 ^ k ≤ a.toNat % 2 ^ k
  high : a.toNat % 2 ^ k ≤ hi.toNat % 2 ^ k

-- Without the highest bit, if it is the same in the bounds
theorem Within.of_succ (h : Within lmin lmax a (k + 1)) (hlow : lmin.getLsbD k = a.getLsbD k)
    (hhigh : a.getLsbD k = lmax.getLsbD k) : Within lmin lmax a k where
  low  := (low_le_of_succ h.low).2 hlow
  high := (low_le_of_succ h.high).2 hhigh

-- The lower bound is given up when the number is known to be above it.
theorem Within.raise (h : Within lmin lmax a (k + 1)) (ha : a.getLsbD k = true) (hk : k < 64) :
    Within (if (~~~lmin).getLsbD k = true then 0 else lmin) lmax a k := by
  have hmax := (low_le_of_succ h.high).1 ha
  refine ⟨?_, (low_le_of_succ h.high).2 (ha.trans hmax.symm)⟩
  simp only [not_bit_iff hk]
  split_ifs with hmin
  case pos => exact (Nat.zero_mod _).trans_le (Nat.zero_le _)
  case neg => exact (low_le_of_succ h.low).2 ((Bool.eq_true_of_not_eq_false hmin).trans ha.symm)

theorem Within.of_false (h : Within lmin lmax a (k + 1)) (hmax : lmax.getLsbD k = false) :
    a.getLsbD k = false ∧ Within lmin lmax a k := by
  have ha : a.getLsbD k = false := by
    rw [← Bool.not_eq_true] at hmax ⊢
    exact mt (low_le_of_succ h.high).1 hmax
  have hmin : lmin.getLsbD k = false := by
    rw [← Bool.not_eq_true] at ha ⊢
    exact mt (low_le_of_succ h.low).1 ha
  exact ⟨ha, h.of_succ (hmin.trans ha.symm) (ha.trans hmax.symm)⟩

theorem Within.of_true (h : Within lmin lmax a (k + 1)) (hmin : lmin.getLsbD k = true) :
    a.getLsbD k = true ∧ Within lmin lmax a k := by
  have ha := (low_le_of_succ h.low).1 hmin
  exact ⟨ha, h.of_succ (hmin.trans ha.symm) (ha.trans ((low_le_of_succ h.high).1 ha).symm)⟩

theorem le_maxOrLoop : x.toNat ≤ (maxOrLoop lhs rhs k lmin rmin x).toNat := by
  induction k generalizing lmin rmin x <;> rw [maxOrLoop]
  case succ k hi =>
    dsimp only
    split_ifs
    all_goals first | exact (le_or).trans hi | exact le_or | exact hi

-- One bit of a union
theorem low_or_succ : (a ||| b).toNat % 2 ^ (k + 1) = (a ||| b).toNat % 2 ^ k +
    if a.getLsbD k = true ∨ b.getLsbD k = true then 2 ^ k else 0 := by
  rw [low_succ, BitVec.getLsbD_or]
  simp only [Bool.or_eq_true]

theorem or_le_maxOrLoop (hk : k ≤ 64) (hx : x.toNat % 2 ^ k = 0) (ha : Within lmin lhs a k) (hb : Within rmin rhs b k) :
    x.toNat + (a ||| b).toNat % 2 ^ k ≤ (maxOrLoop lhs rhs k lmin rmin x).toNat := by
  induction k generalizing lmin rmin x <;> rw [maxOrLoop]
  case zero => rw [pow_zero, Nat.mod_one, Nat.add_zero]
  case succ k hi =>
    obtain ⟨hor, hor0⟩ := toNat_or_bit hk hx
    have hlow := Nat.mod_lt (a ||| b).toNat (Nat.two_pow_pos k)
    have hk' := Nat.le_of_succ_le hk
    rw [low_or_succ]
    simp only [and_bit_iff hk, BitVec.getLsbD_xor, BitVec.getLsbD_and, Bool.and_eq_true]
    cases hl : lhs.getLsbD k <;> cases hr : rhs.getLsbD k <;>
      simp only [Bool.xor_self, Bool.xor_true, Bool.xor_false, Bool.not_false, Bool.false_eq_true, and_self, if_true,
        if_false]
    case false.false =>
      obtain ⟨ha0, ha'⟩ := ha.of_false hl
      obtain ⟨hb0, hb'⟩ := hb.of_false hr
      have hmin : ¬(lmin.getLsbD k = true ∧ rmin.getLsbD k = true) := fun h =>
        Bool.false_ne_true (ha0.symm.trans ((low_le_of_succ ha.low).1 h.1))
      rw [if_neg hmin, if_neg (by simp [ha0, hb0])]
      exact hi hk' (low_zero hx) ha' hb'
    -- A bit that only one of the maxima has: the other number does not have it.
    case true.false =>
      obtain ⟨hb0, hb⟩ := hb.of_false hr
      cases ha1 : a.getLsbD k
      case true =>
        have hstep := hi hk' hor0 (ha.raise ha1 hk) hb
        rw [if_pos (.inl rfl)]
        omega
      case false =>
        have hle := @le_maxOrLoop (x ||| (1 : uinteger_t) <<< k) lhs rhs
          (if (~~~lmin).getLsbD k = true then 0 else lmin) rmin k
        rw [if_neg (by simp [hb0])]
        omega
    case false.true =>
      obtain ⟨ha0, ha⟩ := ha.of_false hl
      cases hb1 : b.getLsbD k
      case true =>
        have hstep := hi hk' hor0 ha (hb.raise hb1 hk)
        rw [if_pos (.inr rfl)]
        omega
      case false =>
        have hle := @le_maxOrLoop (x ||| (1 : uinteger_t) <<< k) lhs rhs lmin
          (if (~~~rmin).getLsbD k = true then 0 else rmin) k
        rw [if_neg (by simp [ha0])]
        omega
    case true.true =>
      by_cases hmin : lmin.getLsbD k = true ∧ rmin.getLsbD k = true
      case pos =>
        obtain ⟨ha1, ha⟩ := ha.of_true hmin.1
        obtain ⟨hb1, hb⟩ := hb.of_true hmin.2
        have hstep := hi hk' hor0 ha hb
        rw [if_pos hmin, if_pos (.inl ha1)]
        omega
      case neg =>
        have hones := toNat_or_of_low (w := (1 : uinteger_t) <<< k <<< 1 - 1) hx (by
          rw [toNat_all_ones hk]
          exact Nat.sub_one_lt (Nat.two_pow_pos _).ne')
        rw [toNat_all_ones hk, pow_succ] at hones
        rw [if_neg hmin, hones]
        split_ifs <;> omega

theorem toNat_or_lt (hv : v.toNat < 2 ^ j) (hw : w.toNat < 2 ^ j) : (v ||| w).toNat < 2 ^ j := by
  rw [BitVec.toNat_or]
  exact Nat.or_lt_two_pow hv hw

theorem maxOrLoop_lt (hk : k ≤ 64) (hx : x.toNat < 2 ^ j) (hl : lhs.toNat < 2 ^ j) (hr : rhs.toNat < 2 ^ j)
    (hmin : lmin.toNat < 2 ^ j ∨ rmin.toNat < 2 ^ j) : (maxOrLoop lhs rhs k lmin rmin x).toNat < 2 ^ j := by
  have hpow (n : Nat) (hn : n < j) : 2 ^ n < 2 ^ j := Nat.pow_lt_pow_right (by decide) hn
  have hzero : (0 : uinteger_t).toNat < 2 ^ j := Nat.two_pow_pos j
  induction k generalizing lmin rmin x <;> rw [maxOrLoop]
  case zero => exact hx
  case succ k hi =>
    have hk' := Nat.le_of_succ_le hk
    have hup (h : k < j) : (x ||| (1 : uinteger_t) <<< k).toNat < 2 ^ j :=
      toNat_or_lt hx (by rw [toNat_bit hk]; exact hpow k h)
    simp only [and_bit_iff hk, BitVec.getLsbD_xor, BitVec.getLsbD_and, Bool.and_eq_true]
    by_cases hne : (lhs.getLsbD k ^^ rhs.getLsbD k) = true
    case pos =>
      rw [if_pos hne]
      by_cases hlk : lhs.getLsbD k = true
      case pos =>
        rw [if_pos hlk]
        refine hi hk' (hup (lt_of_bit hl hlk)) ?_
        split_ifs
        case pos => exact .inl hzero
        case neg => exact hmin
      case neg =>
        have hrk : rhs.getLsbD k = true := by simpa [Bool.eq_false_iff.mpr hlk] using hne
        rw [if_neg hlk]
        refine hi hk' (hup (lt_of_bit hr hrk)) ?_
        split_ifs
        case pos => exact .inr hzero
        case neg => exact hmin
    case neg =>
      rw [if_neg hne]
      split_ifs with hlow hhigh
      case pos => exact hi hk' (hup (hmin.elim (lt_of_bit · hlow.1) (lt_of_bit · hlow.2))) hmin
      case pos =>
        have hkj := lt_of_bit hl hhigh.1
        refine toNat_or_lt hx ?_
        rw [toNat_all_ones hk]
        exact (Nat.sub_one_lt (Nat.two_pow_pos _).ne').trans_le (Nat.pow_le_pow_right (by decide) hkj)
      case neg => exact hi hk' hx hmin

-- A bound that has all bits
theorem maxOrLoop_allOnes (hk : k ≤ 64) (hx : x.toNat % 2 ^ k = 0) :
    x.toNat + 2 ^ k ≤ (maxOrLoop lhs (BitVec.allOnes 64) k lmin rmin x).toNat + 1 := by
  induction k generalizing lmin rmin x <;> rw [maxOrLoop]
  case zero => exact le_rfl
  case succ k hi =>
    obtain ⟨hor, hor0⟩ := toNat_or_bit hk hx
    have hk' := Nat.le_of_succ_le hk
    have hones : (BitVec.allOnes 64).getLsbD k = true := by rw [BitVec.getLsbD_allOnes]; exact decide_eq_true hk
    simp only [and_bit_iff hk, BitVec.getLsbD_xor, BitVec.getLsbD_and, hones]
    have hstep (l r : uinteger_t) : x.toNat + 2 ^ (k + 1) ≤
        (maxOrLoop lhs (BitVec.allOnes 64) k l r (x ||| (1 : uinteger_t) <<< k)).toNat + 1 := by
      refine le_trans ?_ (hi hk' hor0)
      rw [hor, pow_succ]
      omega
    cases lhs.getLsbD k
    case false => exact hstep _ _
    case true =>
      have hall := toNat_or_of_low (w := (1 : uinteger_t) <<< k <<< 1 - 1) hx (by
        rw [toNat_all_ones hk]
        exact Nat.sub_one_lt (Nat.two_pow_pos _).ne')
      rw [toNat_all_ones hk] at hall
      rw [if_neg (by decide)]
      split_ifs
      case pos => exact hstep _ _
      case pos => omega
      case neg h => exact absurd rfl h

end unions

section intersections

variable {lo : uinteger_t}

-- The lowest bits of a number are below the ones of another one, and above the ones of a third one if these are
-- looked at.
structure Below (lo hi a : uinteger_t) (k : Nat) : Prop where
  low  : hi.toNat % 2 ^ k = 2 ^ k - 1 ∨ lo.toNat % 2 ^ k ≤ a.toNat % 2 ^ k
  high : a.toNat % 2 ^ k ≤ hi.toNat % 2 ^ k

theorem ones_of_succ (h : v.toNat % 2 ^ (k + 1) = 2 ^ (k + 1) - 1) :
    v.getLsbD k = true ∧ v.toNat % 2 ^ k = 2 ^ k - 1 := by
  have hpos := Nat.two_pow_pos k
  have hlow := Nat.mod_lt v.toNat hpos
  rw [low_succ, pow_succ] at h
  cases hv : v.getLsbD k <;> rw [hv] at h
  case false =>
    rw [if_neg (by decide)] at h
    omega
  case true =>
    rw [if_pos rfl] at h
    exact ⟨rfl, by omega⟩

theorem Below.of_succ (h : Below lmin lmax a (k + 1)) (hlow : lmin.getLsbD k = a.getLsbD k)
    (hhigh : a.getLsbD k = lmax.getLsbD k) : Below lmin lmax a k where
  low  := h.low.imp (fun h => (ones_of_succ h).2) (fun h => (low_le_of_succ h).2 hlow)
  high := (low_le_of_succ h.high).2 hhigh

theorem Below.raise (h : Below lmin lmax a (k + 1)) (ha : a.getLsbD k = true) (hk : k < 64) :
    Below (if (~~~lmin).getLsbD k = true then 0 else lmin) lmax a k := by
  have hmax := (low_le_of_succ h.high).1 ha
  refine ⟨h.low.imp (fun h => (ones_of_succ h).2) (fun hlow => ?_), (low_le_of_succ h.high).2 (ha.trans hmax.symm)⟩
  simp only [not_bit_iff hk]
  split_ifs with hmin
  case pos => exact (Nat.zero_mod _).trans_le (Nat.zero_le _)
  case neg => exact (low_le_of_succ hlow).2 ((Bool.eq_true_of_not_eq_false hmin).trans ha.symm)

theorem Below.of_false (h : Below lmin lmax a (k + 1)) (hmax : lmax.getLsbD k = false) :
    a.getLsbD k = false ∧ Below lmin lmax a k := by
  have ha : a.getLsbD k = false := by
    rw [← Bool.not_eq_true] at hmax ⊢
    exact mt (low_le_of_succ h.high).1 hmax
  refine ⟨ha, h.low.imp (fun h => (ones_of_succ h).2) (fun hlow => ?_), (low_le_of_succ h.high).2 (ha.trans hmax.symm)⟩
  refine (low_le_of_succ hlow).2 (Eq.trans ?_ ha.symm)
  rw [← Bool.not_eq_true] at ha ⊢
  exact mt (low_le_of_succ hlow).1 ha

-- The upper bound is given up when the other number lacks a bit.
theorem Below.lower (hk : k < 64) : Below lo (lmax ||| ((1 : uinteger_t) <<< k - 1)) a k := by
  have hpos := Nat.two_pow_pos k
  have hones : (lmax ||| ((1 : uinteger_t) <<< k - 1)).toNat % 2 ^ k = 2 ^ k - 1 := by
    have hsub : 2 ^ k - 1 < 2 ^ k := Nat.sub_one_lt hpos.ne'
    rw [BitVec.toNat_or, Nat.or_mod_two_pow, toNat_bit_sub_one hk, Nat.mod_eq_of_lt hsub]
    have hge : 2 ^ k - 1 ≤ lmax.toNat % 2 ^ k ||| (2 ^ k - 1) := Nat.right_le_or
    have hlt := Nat.or_lt_two_pow (Nat.mod_lt lmax.toNat hpos) hsub
    omega
  refine ⟨.inl hones, ?_⟩
  have hlt := Nat.mod_lt a.toNat hpos
  omega

-- The upper bound has a bit that the lower bound has, too.
theorem Below.of_true (h : Below lmin lmax a (k + 1)) (hmin : lmin.getLsbD k = true) (hmax : lmax.getLsbD k = true) :
    Below lmin lmax a k := by
  obtain hones | hlow := h.low
  case inl =>
    have hlow := (ones_of_succ hones).2
    have hlt := Nat.mod_lt a.toNat (Nat.two_pow_pos k)
    exact ⟨.inl hlow, by omega⟩
  case inr =>
    have ha := (low_le_of_succ hlow).1 hmin
    exact h.of_succ (hmin.trans ha.symm) (ha.trans hmax.symm)

theorem le_maxAndLoop : x.toNat ≤ (maxAndLoop k lmin lmax rmin rmax x).toNat := by
  induction k generalizing lmin lmax rmin rmax x <;> rw [maxAndLoop]
  case succ k hi =>
    split_ifs
    all_goals first | exact (le_or).trans hi | exact hi

-- One bit of an intersection
theorem low_and_succ : (a &&& b).toNat % 2 ^ (k + 1) = (a &&& b).toNat % 2 ^ k +
    if a.getLsbD k = true ∧ b.getLsbD k = true then 2 ^ k else 0 := by
  rw [low_succ, BitVec.getLsbD_and]
  simp only [Bool.and_eq_true]

theorem and_le_maxAndLoop (hk : k ≤ 64) (hx : x.toNat % 2 ^ k = 0) (ha : Below lmin lmax a k)
    (hb : Below rmin rmax b k) : x.toNat + (a &&& b).toNat % 2 ^ k ≤ (maxAndLoop k lmin lmax rmin rmax x).toNat := by
  induction k generalizing lmin lmax rmin rmax x <;> rw [maxAndLoop]
  case zero => rw [pow_zero, Nat.mod_one, Nat.add_zero]
  case succ k hi =>
    obtain ⟨hor, hor0⟩ := toNat_or_bit hk hx
    have hlow := Nat.mod_lt (a &&& b).toNat (Nat.two_pow_pos k)
    have hk' := Nat.le_of_succ_le hk
    have hx0 := low_zero hx
    rw [low_and_succ]
    simp only [and_bit_iff hk, BitVec.getLsbD_and, Bool.and_eq_true]
    cases hl : lmax.getLsbD k <;> cases hr : rmax.getLsbD k <;>
      simp only [Bool.false_eq_true, and_self, and_true, and_false, if_true, if_false]
    case false.false =>
      obtain ⟨ha0, ha'⟩ := ha.of_false hl
      rw [ha0, if_neg (by simp)]
      exact hi hk' hx0 ha' (hb.of_false hr).2
    -- A bit that only one of the maxima has: the other number does not have it.
    case true.false =>
      obtain ⟨hb0, hb'⟩ := hb.of_false hr
      rw [hb0, if_neg (by simp)]
      split_ifs with hmin
      case pos => exact hi hk' hx0 (Below.lower hk) hb'
      case neg =>
        rw [not_bit_iff hk, Bool.not_eq_false] at hmin
        exact hi hk' hx0 (ha.of_true hmin hl) hb'
    case false.true =>
      obtain ⟨ha0, ha'⟩ := ha.of_false hl
      rw [ha0, if_neg (by simp)]
      split_ifs with hmin
      case pos => exact hi hk' hx0 ha' (Below.lower hk)
      case neg =>
        rw [not_bit_iff hk, Bool.not_eq_false] at hmin
        exact hi hk' hx0 ha' (hb.of_true hmin hr)
    case true.true =>
      by_cases hbits : a.getLsbD k = true ∧ b.getLsbD k = true
      case pos =>
        have hstep := hi hk' hor0 (ha.raise hbits.1 hk) (hb.raise hbits.2 hk)
        rw [if_pos hbits]
        omega
      case neg =>
        have hle := @le_maxAndLoop (x ||| (1 : uinteger_t) <<< k) (if (~~~lmin).getLsbD k = true then 0 else lmin) lmax
          (if (~~~rmin).getLsbD k = true then 0 else rmin) rmax k
        rw [if_neg hbits]
        omega

theorem maxAndLoop_lt (hk : k ≤ 64) (hx : x.toNat < 2 ^ j) (hmax : lmax.toNat < 2 ^ j ∨ rmax.toNat < 2 ^ j) :
    (maxAndLoop k lmin lmax rmin rmax x).toNat < 2 ^ j := by
  induction k generalizing lmin lmax rmin rmax x <;> rw [maxAndLoop]
  case zero => exact hx
  case succ k hi =>
    have hk' := Nat.le_of_succ_le hk
    have hpow (h : k < j) : 2 ^ k < 2 ^ j := Nat.pow_lt_pow_right (by decide) h
    have hlower {v : uinteger_t} (hv : v.toNat < 2 ^ j) (h : v.getLsbD k = true) :
        (v ||| ((1 : uinteger_t) <<< k - 1)).toNat < 2 ^ j := by
      refine toNat_or_lt hv ?_
      rw [toNat_bit_sub_one hk]
      exact (Nat.sub_le _ _).trans_lt (hpow (lt_of_bit hv h))
    simp only [and_bit_iff hk, BitVec.getLsbD_and, Bool.and_eq_true]
    by_cases hboth : lmax.getLsbD k = true ∧ rmax.getLsbD k = true
    case pos =>
      have hkj : k < j := hmax.elim (lt_of_bit · hboth.1) (lt_of_bit · hboth.2)
      rw [if_pos hboth]
      refine hi hk' (toNat_or_lt hx ?_) hmax
      rw [toNat_bit hk]
      exact hpow hkj
    case neg =>
      rw [if_neg hboth]
      split_ifs with hleft hright
      case pos => exact hi hk' hx (hmax.imp_left (hlower · hleft.2))
      case pos => exact hi hk' hx (hmax.imp_right (hlower · hright.2))
      case neg => exact hi hk' hx hmax

end intersections

end IntRange

end Compiler.Intrange
