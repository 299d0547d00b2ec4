import DmdModel.Compiler.Intrange.Basic

-- The numbers of 65 bits as integers. Their operations saturate.

namespace Compiler.Intrange

-- The nearest integer that has 65 bits
def clamp (i : Int) : Int :=
  Max.max (-2 ^ 64) (Min.min i (2 ^ 64 - 1))

theorem clamp_mono {i j : Int} (h : i ≤ j) : clamp i ≤ clamp j := by
  simp only [clamp]
  omega

namespace SignExtendedNumber

variable {x y : SignExtendedNumber} {v w : uinteger_t} {s : Bool}

def toInt (x : SignExtendedNumber) : Int :=
  x.value.toNat - if x.negative then 2 ^ 64 else 0

section order

theorem toInt_of_negative (h : x.negative = true) : x.toInt = x.value.toNat - 2 ^ 64 := by
  rw [toInt, h, if_pos rfl]

theorem toInt_of_nonneg (h : x.negative = false) : x.toInt = x.value.toNat := by
  rw [toInt, h, if_neg (by decide), sub_zero]

theorem negative_iff : x.negative = true ↔ x.toInt < 0 := by
  have hlt := x.value.isLt
  cases h : x.negative
  case false =>
    rw [toInt_of_nonneg h]
    simp
  case true =>
    rw [toInt_of_negative h]
    simp
    omega

theorem nonneg_iff : x.negative = false ↔ 0 ≤ x.toInt := by
  rw [← not_lt, ← negative_iff, Bool.not_eq_true]

theorem toInt_bounds : -2 ^ 64 ≤ x.toInt ∧ x.toInt ≤ 2 ^ 64 - 1 := by
  have hlt := x.value.isLt
  rw [toInt]
  split_ifs <;> omega

theorem clamp_toInt : clamp x.toInt = x.toInt := by
  have hbounds := @toInt_bounds x
  simp only [clamp]
  omega

theorem toInt_inj : x.toInt = y.toInt ↔ x = y := by
  refine ⟨fun h => ?_, congrArg _⟩
  have hsign : x.negative = y.negative := by
    rw [Bool.eq_iff_iff, negative_iff, negative_iff, h]
  have hvalue : x.value = y.value := by
    apply BitVec.eq_of_toNat_eq
    rw [toInt, toInt, hsign] at h
    omega
  obtain ⟨v, s⟩ := x
  obtain ⟨w, t⟩ := y
  exact congrArg₂ mk hvalue hsign

theorem lt_iff : x < y ↔ x.toInt < y.toInt := by
  have hx := x.value.isLt
  have hy := y.value.isLt
  change x.opCmp y < 0 ↔ _
  rw [opCmp, toInt, toInt]
  simp only [gt_iff_lt, BitVec.lt_def]
  cases x.negative <;> cases y.negative
  case false.true | true.false =>
    simp
    omega
  case false.false | true.true =>
    simp only [ne_eq, not_true, if_false]
    split_ifs <;> omega

theorem le_iff : ¬ y < x ↔ x.toInt ≤ y.toInt := by
  rw [lt_iff, not_lt]

end order

section signs

theorem copySign_eq : copySign v s = if s then -v else v := by
  cases s
  case false => simp [copySign, ofBool]
  case true =>
    have hone : -ofBool true = BitVec.allOnes 64 := rfl
    rw [copySign, hone, BitVec.xor_allOnes, if_pos rfl, ofBool, if_pos rfl, BitVec.neg_eq_not_add]
    bv_omega

-- The absolute value of a number that is not the least one
theorem toNat_copySign (h : x.value ≠ 0) : (copySign x.value x.negative).toNat = x.toInt.natAbs := by
  have hlt := x.value.isLt
  have hne : x.value.toNat ≠ 0 := fun hz => h (BitVec.eq_of_toNat_eq hz)
  rw [copySign_eq, toInt]
  cases x.negative
  case false => simp
  case true =>
    rw [if_pos rfl, if_pos rfl, BitVec.toNat_neg]
    omega

theorem toInt_copySign (h : v ≠ 0) : toInt { value := copySign v s, negative := s } =
    if s then -(v.toNat : Int) else v.toNat := by
  have hlt := v.isLt
  have hne : v.toNat ≠ 0 := fun hz => h (BitVec.eq_of_toNat_eq hz)
  rw [copySign_eq, toInt]
  cases s
  case false => simp
  case true =>
    simp only [if_true, BitVec.toNat_neg]
    omega

end signs

section sums

theorem toInt_add : (x.add y).toInt = clamp (x.toInt + y.toInt) := by
  have hx := x.value.isLt
  have hy := y.value.isLt
  simp only [add, BitVec.lt_def, BitVec.toNat_add, clamp, toInt]
  cases x.negative <;> cases y.negative
  case false.true | true.false =>
    simp only [ne_eq, reduceCtorEq, not_false_eq_true, if_true, BitVec.toNat_add]
    by_cases hcarry : (x.value.toNat + y.value.toNat) % 2 ^ 64 < x.value.toNat ∧
        (x.value.toNat + y.value.toNat) % 2 ^ 64 < y.value.toNat
    all_goals
      simp
      omega
  case false.false =>
    simp
    split_ifs <;> simp <;> omega
  case true.true =>
    simp
    split_ifs <;> simp <;> omega

theorem toInt_neg : x.neg.toInt = clamp (-x.toInt) := by
  have hx := x.value.isLt
  obtain ⟨v, n⟩ := x
  rw [neg]
  by_cases h0 : v = 0
  case pos =>
    subst h0
    cases n <;> decide
  case neg =>
    have hne : v.toNat ≠ 0 := fun hz => h0 (BitVec.eq_of_toNat_eq hz)
    rw [if_neg h0, clamp]
    cases n <;> simp [toInt, BitVec.toNat_neg]
    case false | true => omega

theorem isMinimum_iff : x.isMinimum = true ↔ x.toInt = -2 ^ 64 := by
  have hzero : x.value = 0 ↔ x.value.toNat = 0 := BitVec.toNat_inj.symm
  rw [isMinimum, Bool.and_eq_true, decide_eq_true_eq, hzero, toInt]
  cases x.negative <;> simp

theorem toInt_sub : (x.sub y).toInt = clamp (x.toInt - y.toInt) := by
  have hx := @toInt_bounds x
  have hy := @toInt_bounds y
  rw [sub]
  by_cases hmin : y.isMinimum
  case pos =>
    rw [if_pos hmin, (isMinimum_iff).mp hmin, clamp]
    cases h : x.negative
    case false =>
      have hnonneg := (nonneg_iff).mp h
      rw [if_neg (by decide), max]
      change (2 ^ 64 - 1 : Int) = _
      omega
    case true =>
      have hval := toInt_of_negative h
      rw [if_pos rfl, toInt_of_nonneg rfl]
      dsimp only
      omega
  case neg =>
    have hne : y.toInt ≠ -2 ^ 64 := mt (isMinimum_iff).mpr hmin
    rw [if_neg hmin, toInt_add, toInt_neg]
    simp only [clamp]
    omega

end sums

section products

theorem toInt_mulZero (hx : x.value = 0) : (x.mulZero y).toInt = clamp (x.toInt * y.toInt) := by
  have hy := @toInt_bounds y
  rw [mulZero]
  cases h : x.negative
  case false =>
    have hzero : x.toInt = 0 := by rw [toInt_of_nonneg h, hx]; rfl
    rw [hzero, zero_mul]
    exact hzero
  case true =>
    have hmin : x.toInt = -2 ^ 64 := by rw [toInt_of_negative h, hx]; rfl
    cases hs : y.negative
    case true =>
      have hneg := (negative_iff).mp hs
      change (2 ^ 64 - 1 : Int) = _
      rw [hmin, clamp]
      omega
    case false =>
      have hnonneg := (nonneg_iff).mp hs
      by_cases h0 : y.value = 0
      case pos =>
        have hzero : y.toInt = 0 := by rw [toInt_of_nonneg hs, h0]; rfl
        simp [h0, hzero, clamp]
      case neg =>
        have hne : y.value.toNat ≠ 0 := fun hz => h0 (BitVec.eq_of_toNat_eq hz)
        have hval := toInt_of_nonneg hs
        simp only [Bool.not_true, Bool.false_eq_true, if_false, if_neg h0, hmin, clamp]
        omega

theorem natAbs_ne_zero (h : x.value ≠ 0) : x.toInt.natAbs ≠ 0 := by
  have hlt := x.value.isLt
  have hne : x.value.toNat ≠ 0 := fun hz => h (BitVec.eq_of_toNat_eq hz)
  rw [toInt]
  split_ifs <;> omega

-- A number by its sign and its absolute value
theorem toInt_eq_natAbs : x.toInt = if x.negative then -(x.toInt.natAbs : Int) else x.toInt.natAbs := by
  split_ifs with h
  case pos =>
    have hneg := (negative_iff).mp h
    omega
  case neg =>
    rw [Bool.not_eq_true] at h
    have hnonneg := (nonneg_iff).mp h
    omega

theorem toInt_mul_toInt : x.toInt * y.toInt =
    if x.negative != y.negative then -((x.toInt.natAbs * y.toInt.natAbs : Nat) : Int)
    else (x.toInt.natAbs * y.toInt.natAbs : Nat) := by
  rw [@toInt_eq_natAbs x, @toInt_eq_natAbs y]
  cases x.negative <;> cases y.negative <;> simp

theorem toInt_mul : (x.mul y).toInt = clamp (x.toInt * y.toInt) := by
  rw [mul]
  by_cases hx : x.value = 0
  case pos => rw [if_pos hx, toInt_mulZero hx]
  case neg =>
    rw [if_neg hx]
    by_cases hy : y.value = 0
    case pos => rw [if_pos hy, toInt_mulZero hy, mul_comm]
    case neg =>
      have ht := toNat_copySign hx
      have ha := toNat_copySign hy
      have ht0 := natAbs_ne_zero hx
      have ha0 := natAbs_ne_zero hy
      have hover : BitVec.allOnes 64 / copySign x.value x.negative < copySign y.value y.negative ↔
          2 ^ 64 ≤ x.toInt.natAbs * y.toInt.natAbs := by
        rw [BitVec.lt_def, BitVec.toNat_udiv, ht, ha, Nat.div_lt_iff_lt_mul (Nat.pos_of_ne_zero ht0), Nat.mul_comm]
        rfl
      rw [if_neg hy, toInt_mul_toInt]
      dsimp only
      obtain ⟨p, hp⟩ : ∃ p, p = x.toInt.natAbs * y.toInt.natAbs := ⟨_, rfl⟩
      rw [← hp] at hover ⊢
      by_cases hfits : 2 ^ 64 ≤ p
      case pos =>
        rw [if_pos (hover.mpr hfits)]
        cases x.negative != y.negative
        case false =>
          change (2 ^ 64 - 1 : Int) = clamp p
          rw [clamp]
          omega
        case true =>
          change (0 - 2 ^ 64 : Int) = clamp (-p)
          rw [clamp]
          omega
      case neg =>
        have hprod : (copySign x.value x.negative * copySign y.value y.negative).toNat = p := by
          rw [BitVec.toNat_mul, ht, ha, ← hp]
          exact Nat.mod_eq_of_lt (not_le.mp hfits)
        rw [if_neg (mt hover.mp hfits), toInt_copySign, hprod, clamp]
        · split_ifs <;> omega
        · intro hz
          rw [hz] at hprod
          exact Nat.mul_ne_zero ht0 ha0 (hp.symm.trans hprod.symm)

end products

section quotients

theorem tdiv_eq : x.toInt.tdiv y.toInt =
    if x.negative != y.negative then -((x.toInt.natAbs / y.toInt.natAbs : Nat) : Int)
    else (x.toInt.natAbs / y.toInt.natAbs : Nat) := by
  rw [@toInt_eq_natAbs x, @toInt_eq_natAbs y]
  generalize x.toInt.natAbs = t
  generalize y.toInt.natAbs = a
  cases x.negative <;> cases y.negative <;> simp

theorem toInt_div (hx : x.toInt ≠ -2 ^ 64) (hy : y.value ≠ 0) : (x.div y).toInt = x.toInt.tdiv y.toInt := by
  have ha := toNat_copySign hy
  have ha0 := natAbs_ne_zero hy
  have ht : (copySign x.value x.negative).toNat = x.toInt.natAbs := by
    by_cases h0 : x.value = 0
    case neg => exact toNat_copySign h0
    case pos =>
      have hs : x.negative = false := by
        rw [← Bool.not_eq_true]
        intro hs
        rw [toInt_of_negative hs, h0] at hx
        exact hx rfl
      rw [toInt_of_nonneg hs, hs, h0]
      rfl
  have hquot : (copySign x.value x.negative / copySign y.value y.negative).toNat = x.toInt.natAbs / y.toInt.natAbs := by
    rw [BitVec.toNat_udiv, ht, ha]
  rw [div, if_neg hy, Bool.eq_false_iff.mpr (mt (isMinimum_iff).mp hx), tdiv_eq, ← hquot]
  dsimp only
  generalize copySign x.value x.negative / copySign y.value y.negative = q
  generalize (x.negative != y.negative) = b
  rw [if_pos (by decide)]
  by_cases hq : q = 0
  case pos =>
    subst hq
    cases b <;> rfl
  case neg =>
    have hsign : copySign q b ≠ 0 := by
      rw [copySign_eq]
      split_ifs
      case pos => exact fun h => hq (BitVec.neg_eq_zero_iff.mp h)
      case neg => exact hq
    have hdec : decide (copySign q b ≠ 0 ∧ b = true) = b := by
      cases b
      case false => exact decide_eq_false (fun h => Bool.false_ne_true h.2)
      case true  => exact decide_eq_true ⟨hsign, rfl⟩
    rw [hdec]
    exact toInt_copySign hq

end quotients

section logarithm

theorem toNat_or_of_low {m : Nat} (hv : v.toNat % 2 ^ m = 0) (hw : w.toNat < 2 ^ m) :
    (v ||| w).toNat = v.toNat + w.toNat := by
  have hmul : v.toNat = (v.toNat / 2 ^ m) <<< m := by
    rw [Nat.shiftLeft_eq, Nat.div_mul_cancel (Nat.dvd_of_mod_eq_zero hv)]
  rw [BitVec.toNat_or, hmul, Nat.shiftLeft_add_eq_or_of_lt hw]

theorem log2_shift {a m : Nat} (ha : 2 ^ m ≤ a) : a.log2 = m + (a / 2 ^ m).log2 := by
  have ha0 : a ≠ 0 := (lt_of_lt_of_le (Nat.two_pow_pos m) ha).ne'
  have hdiv : a / 2 ^ m ≠ 0 := (Nat.div_pos ha (Nat.two_pow_pos m)).ne'
  rw [Nat.log2_eq_log_two, Nat.log2_eq_log_two, Nat.log_div_base_pow]
  have hle : m ≤ Nat.log 2 a := Nat.le_log_of_pow_le (by decide) ha
  omega

-- One step of the search for the highest bit that is set
theorem log_step {r t : uinteger_t} {k : Nat} (hk : k < 6) (ht : t.toNat = 2 ^ 2 ^ k - 1) (hv : v.toNat ≠ 0)
    (hlt : v.toNat < 2 ^ (2 * 2 ^ k)) (hr : r.toNat % 2 ^ (k + 1) = 0) :
    let s := ofBool (v > t) <<< k
    (v >>> s).toNat ≠ 0 ∧ (v >>> s).toNat < 2 ^ 2 ^ k ∧ (r ||| s).toNat % 2 ^ k = 0 ∧
      (r ||| s).toNat + (v >>> s).toNat.log2 = r.toNat + v.toNat.log2 := by
  have hgt : v > t ↔ 2 ^ 2 ^ k ≤ v.toNat := by
    have hpos : 0 < 2 ^ 2 ^ k := Nat.two_pow_pos _
    rw [gt_iff_lt, BitVec.lt_def, ht]
    omega
  have heven : r.toNat % 2 ^ k = 0 := by
    rw [← Nat.mod_mod_of_dvd _ (Nat.pow_dvd_pow 2 (Nat.le_succ k)), hr, Nat.zero_mod]
  dsimp only
  by_cases hbig : 2 ^ 2 ^ k ≤ v.toNat
  case pos =>
    have hs : (ofBool (v > t) <<< k).toNat = 2 ^ k := by
      rw [decide_eq_true (hgt.mpr hbig), ofBool, if_pos rfl, BitVec.toNat_shiftLeft, Nat.shiftLeft_eq]
      have hle : 2 ^ k ≤ 2 ^ 5 := Nat.pow_le_pow_right (by decide) (by omega)
      change 1 * 2 ^ k % 2 ^ 64 = 2 ^ k
      omega
    have hshift : (v >>> (ofBool (v > t) <<< k)).toNat = v.toNat / 2 ^ 2 ^ k := by
      rw [BitVec.ushiftRight_eq', BitVec.toNat_ushiftRight, hs, Nat.shiftRight_eq_div_pow]
    have hor : (r ||| ofBool (v > t) <<< k).toNat = r.toNat + 2 ^ k := by
      have hlow : 2 ^ k < 2 ^ (k + 1) := Nat.pow_lt_pow_right (by decide) (Nat.lt_succ_self k)
      rw [toNat_or_of_low hr (hs ▸ hlow), hs]
    rw [hshift, hor]
    refine ⟨(Nat.div_pos hbig (Nat.two_pow_pos _)).ne', ?_, ?_, ?_⟩
    · refine Nat.div_lt_of_lt_mul ?_
      rwa [← pow_add, ← two_mul]
    · rw [Nat.add_mod_right, heven]
    · rw [log2_shift hbig, Nat.add_assoc]
  case neg =>
    have hs : ofBool (v > t) <<< k = 0 := by
      rw [decide_eq_false (mt hgt.mp hbig)]
      exact BitVec.zero_shiftLeft k
    have hor : r ||| (0 : uinteger_t) = r := BitVec.or_zero
    have hshift : v >>> (0 : uinteger_t) = v := BitVec.ushiftRight_zero v
    rw [hs, hor, hshift]
    exact ⟨hv, not_le.mp hbig, heven, rfl⟩

theorem toNat_log2 (hv : v ≠ 0) : (log2 v).toNat = v.toNat.log2 := by
  have hne : v.toNat ≠ 0 := fun hz => hv (BitVec.eq_of_toNat_eq hz)
  unfold log2
  extract_lets r v₁ s₁ v₂ r₁ s₂ v₃ r₂ s₃ v₄ r₃ s₄ v₅ r₄
  have hr₀ : (0 : uinteger_t) ||| r = r := BitVec.zero_or
  obtain ⟨hne₁, hlt₁, hr, hlog₁⟩ := @log_step v 0 0xFFFFFFFF 5 (by decide) rfl hne v.isLt rfl
  rw [hr₀] at hr hlog₁
  obtain ⟨hne₂, hlt₂, hr₁, hlog₂⟩ := @log_step v₁ r 0xFFFF 4 (by decide) rfl hne₁ hlt₁ hr
  obtain ⟨hne₃, hlt₃, hr₂, hlog₃⟩ := @log_step v₂ r₁ 0xFF 3 (by decide) rfl hne₂ hlt₂ hr₁
  obtain ⟨hne₄, hlt₄, hr₃, hlog₄⟩ := @log_step v₃ r₂ 0xF 2 (by decide) rfl hne₃ hlt₃ hr₂
  obtain ⟨hne₅, hlt₅, hr₄, hlog₅⟩ := @log_step v₄ r₃ 0x3 1 (by decide) rfl hne₄ hlt₄ hr₃
  have hbit : (v₅ >>> 1).toNat = v₅.toNat / 2 := by
    rw [BitVec.toNat_ushiftRight, Nat.shiftRight_eq_div_pow]
  have hlast : v₅.toNat.log2 = v₅.toNat / 2 := by
    obtain h | h | h : v₅.toNat = 1 ∨ v₅.toNat = 2 ∨ v₅.toNat = 3 := by
      change v₅.toNat ≠ 0 at hne₅
      change v₅.toNat < 4 at hlt₅
      omega
    all_goals
      rw [h]
      decide
  have hor : (r₄ ||| v₅ >>> 1).toNat = r₄.toNat + v₅.toNat / 2 := by
    refine (toNat_or_of_low hr₄ ?_).trans (congrArg _ hbit)
    rw [hbit]
    change v₅.toNat < 4 at hlt₅
    omega
  rw [hor, ← hlast]
  change r₄.toNat + v₅.toNat.log2 = r₃.toNat + v₄.toNat.log2 at hlog₅
  change r₃.toNat + v₄.toNat.log2 = r₂.toNat + v₃.toNat.log2 at hlog₄
  change r₂.toNat + v₃.toNat.log2 = r₁.toNat + v₂.toNat.log2 at hlog₃
  change r₁.toNat + v₂.toNat.log2 = r.toNat + v₁.toNat.log2 at hlog₂
  change r.toNat + v₁.toNat.log2 = 0 + v.toNat.log2 at hlog₁
  omega

end logarithm

section shifts

theorem toInt_extreme : (extreme s).toInt = if s then -2 ^ 64 else 2 ^ 64 - 1 := by
  cases s <;> rfl

-- A shift of the absolute value that does not lose bits
theorem toInt_shiftLeft {n : Nat} (h : x.value ≠ 0) (hfits : x.toInt.natAbs * 2 ^ n < 2 ^ 64) :
    toInt { x with value := x.value <<< n } = x.toInt * 2 ^ n := by
  have hlt := x.value.isLt
  have hne : x.value.toNat ≠ 0 := fun hz => h (BitVec.eq_of_toNat_eq hz)
  have hpow : 0 < 2 ^ n := Nat.two_pow_pos n
  cases hs : x.negative
  case false =>
    have habs : x.toInt.natAbs = x.value.toNat := by rw [toInt_of_nonneg hs]; rfl
    rw [habs] at hfits
    rw [toInt_of_nonneg rfl, toInt_of_nonneg hs, BitVec.toNat_shiftLeft, Nat.shiftLeft_eq, Nat.mod_eq_of_lt hfits]
    push_cast
    rfl
  case true =>
    have habs : x.toInt.natAbs = 2 ^ 64 - x.value.toNat := by rw [toInt_of_negative hs]; omega
    rw [habs] at hfits
    obtain ⟨m, hm⟩ := Nat.exists_eq_add_of_le hlt.le
    have hmul : x.value.toNat * 2 ^ n + m * 2 ^ n = 2 ^ 64 * 2 ^ n := by rw [← Nat.add_mul, ← hm]
    have hsub : (x.value.toNat : Int) - 2 ^ 64 = -(m : Int) := by omega
    rw [hm, Nat.add_sub_cancel_left] at hfits
    have hshift : x.value.toNat * 2 ^ n % 2 ^ 64 = 2 ^ 64 - m * 2 ^ n := by
      have hpos : 0 < m * 2 ^ n := Nat.mul_pos (by omega) hpow
      omega
    have hcast : ((2 ^ 64 - m * 2 ^ n : Nat) : Int) = 2 ^ 64 - m * 2 ^ n := by
      rw [Nat.cast_sub (by omega)]
      push_cast
      rfl
    rw [toInt_of_negative rfl, toInt_of_negative hs, BitVec.toNat_shiftLeft, Nat.shiftLeft_eq, hshift, hsub, hcast]
    ring

theorem toInt_mul_pow {n : Nat} : x.toInt * 2 ^ n =
    if x.negative then -((x.toInt.natAbs * 2 ^ n : Nat) : Int) else (x.toInt.natAbs * 2 ^ n : Nat) := by
  rw [@toInt_eq_natAbs x]
  cases x.negative <;> simp

-- The count is not negative, and may be large.
theorem toInt_shl (hy : y.negative = false) : (x.shl y).toInt = clamp (x.toInt * 2 ^ y.value.toNat) := by
  rw [shl, hy]
  by_cases h0 : x.value = 0
  case pos =>
    have hpow : 1 ≤ (2 : Int) ^ y.value.toNat := one_le_pow₀ (by decide)
    rw [if_pos h0]
    cases hs : x.negative
    case false =>
      have hzero : x.toInt = 0 := by rw [toInt_of_nonneg hs, h0]; rfl
      rw [hzero, zero_mul]
      rfl
    case true =>
      have hmin : x.toInt = -2 ^ 64 := by rw [toInt_of_negative hs, h0]; rfl
      rw [hmin, clamp]
      omega
  case neg =>
    have habs := toNat_copySign h0
    have habs0 := natAbs_ne_zero h0
    have hne : copySign x.value x.negative ≠ 0 := by
      intro hz
      rw [hz] at habs
      exact habs0 habs.symm
    have hlog := toNat_log2 hne
    rw [habs] at hlog
    obtain ⟨l, hl⟩ : ∃ l, l = x.toInt.natAbs.log2 := ⟨_, rfl⟩
    rw [← hl] at hlog
    have hlow : 2 ^ l ≤ x.toInt.natAbs := hl ▸ Nat.log2_self_le habs0
    have hhigh : x.toInt.natAbs < 2 ^ (l + 1) := hl ▸ Nat.lt_log2_self
    have hlt : l < 64 := by
      have hbound : x.toInt.natAbs < 2 ^ 64 := habs ▸ (copySign x.value x.negative).isLt
      exact (Nat.pow_lt_pow_iff_right (by decide)).mp (hlow.trans_lt hbound)
    have hallowed : y.value > 63 - log2 (copySign x.value x.negative) ↔ 63 - l < y.value.toNat := by
      rw [gt_iff_lt, BitVec.lt_def, BitVec.toNat_sub_of_le, hlog]
      · rfl
      · rw [BitVec.le_def, hlog]
        exact Nat.le_of_lt_succ hlt
    rw [if_neg h0, if_neg (by decide), toInt_mul_pow]
    dsimp only
    by_cases hbig : 63 - l < y.value.toNat
    case pos =>
      have hover : 2 ^ 64 ≤ x.toInt.natAbs * 2 ^ y.value.toNat := by
        calc
          2 ^ 64 ≤ 2 ^ (l + y.value.toNat) := Nat.pow_le_pow_right (by decide) (by omega)
          _ = 2 ^ l * 2 ^ y.value.toNat := pow_add ..
          _ ≤ x.toInt.natAbs * 2 ^ y.value.toNat := Nat.mul_le_mul_right _ hlow
      rw [if_pos (hallowed.mpr hbig), toInt_extreme, clamp]
      generalize x.toInt.natAbs * 2 ^ y.value.toNat = p at hover
      split_ifs <;> omega
    case neg =>
      have hfits : x.toInt.natAbs * 2 ^ y.value.toNat < 2 ^ 64 := by
        calc
          x.toInt.natAbs * 2 ^ y.value.toNat < 2 ^ (l + 1) * 2 ^ y.value.toNat :=
            Nat.mul_lt_mul_of_pos_right hhigh (Nat.two_pow_pos _)
          _ = 2 ^ (l + 1 + y.value.toNat) := (pow_add ..).symm
          _ ≤ 2 ^ 64 := Nat.pow_le_pow_right (by decide) (by omega)
      rw [if_neg (mt hallowed.mp hbig), BitVec.shiftLeft_eq', toInt_shiftLeft h0 hfits, toInt_mul_pow, clamp]
      generalize x.toInt.natAbs * 2 ^ y.value.toNat = p at hfits
      split_ifs <;> omega

theorem toInt_negSucc (h : x.negative = true) : x.toInt = Int.negSucc (~~~x.value).toNat := by
  have hlt := x.value.isLt
  rw [toInt_of_negative h, BitVec.toNat_not]
  omega

theorem negSucc_ediv {c n : Nat} : Int.negSucc c / 2 ^ n = Int.negSucc (c / 2 ^ n) := by
  have hshift : Int.negSucc c >>> n = Int.negSucc (c >>> n) := rfl
  rwa [Int.shiftRight_eq_div_pow, Nat.shiftRight_eq_div_pow, Nat.cast_pow] at hshift

theorem toInt_shr (hy : y.negative = false) : (x.shr y).toInt = x.toInt / 2 ^ y.value.toNat := by
  have hx := x.value.isLt
  rw [shr, hy]
  by_cases hlarge : y.value > 63
  case pos =>
    have hpow : 2 ^ 64 ≤ 2 ^ y.value.toNat := Nat.pow_le_pow_right (by decide) hlarge
    rw [if_pos (.inr hlarge)]
    cases hs : x.negative
    case false =>
      have hzero : (x.value.toNat : Int) / 2 ^ y.value.toNat = 0 := by
        norm_cast
        exact Nat.div_eq_of_lt (hx.trans_le hpow)
      rw [toInt_of_nonneg hs, hzero]
      rfl
    case true =>
      have hc := (~~~x.value).isLt
      rw [toInt_negSucc hs, negSucc_ediv, Nat.div_eq_of_lt (hc.trans_le hpow)]
      rfl
  case neg =>
    have hcount : y.value.toNat ≤ 63 := Nat.le_of_not_lt hlarge
    rw [if_neg (by rintro (h | h); exacts [Bool.false_ne_true h, hlarge h])]
    by_cases hmin : x.isMinimum
    case pos =>
      rw [if_pos hmin]
      by_cases h0 : y.value = 0
      case pos =>
        rw [if_pos h0, h0]
        exact (Int.ediv_one _).symm
      case neg =>
        have hne : y.value.toNat ≠ 0 := fun hz => h0 (BitVec.eq_of_toNat_eq hz)
        have hsub : (64 - y.value).toNat = 64 - y.value.toNat :=
          BitVec.toNat_sub_of_le (by rw [BitVec.le_def]; exact hcount.trans (by decide))
        have hpow : (2 : Int) ^ 64 = 2 ^ (64 - y.value.toNat) * 2 ^ y.value.toNat := by
          rw [← pow_add, Nat.sub_add_cancel (by omega)]
        have hone : toInt { value := -1, negative := true } = -1 := rfl
        have hshift := @toInt_shiftLeft { value := -1, negative := true } (64 - y.value.toNat) (by decide) (by
          rw [hone, Int.natAbs_neg, Int.natAbs_one, one_mul]
          exact Nat.pow_lt_pow_right (by decide) (by omega))
        rw [if_neg h0, (isMinimum_iff).mp hmin, BitVec.shiftLeft_eq', hsub, hpow, ← neg_mul,
          Int.mul_ediv_cancel _ (by positivity)]
        rw [hone, neg_one_mul] at hshift
        exact hshift
    case neg =>
      rw [if_neg hmin]
      cases hs : x.negative
      case false =>
        have hval : x.value ^^^ -ofBool false = x.value := BitVec.xor_zero
        have hres : (x.value >>> y.value) ^^^ -ofBool false = x.value >>> y.value := BitVec.xor_zero
        rw [hval, hres, toInt_of_nonneg rfl, toInt_of_nonneg hs, BitVec.ushiftRight_eq', BitVec.toNat_ushiftRight,
          Nat.shiftRight_eq_div_pow]
        push_cast
        rfl
      case true =>
        have hones : -ofBool true = BitVec.allOnes 64 := rfl
        rw [hones, BitVec.xor_allOnes, BitVec.xor_allOnes, toInt_negSucc rfl, toInt_negSucc hs, negSucc_ediv,
          BitVec.not_not, BitVec.ushiftRight_eq', BitVec.toNat_ushiftRight, Nat.shiftRight_eq_div_pow]

end shifts

end SignExtendedNumber

end Compiler.Intrange
