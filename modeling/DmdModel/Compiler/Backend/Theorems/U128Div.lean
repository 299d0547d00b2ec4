import DmdModel.Compiler.Backend.DivCoeff
import DmdModel.Lib.InvariantDivision

namespace Compiler.Backend.DivCoeff

variable {xh xl yh yl qh ql : UInt64}

-- The number of a pair of halves.
def value (x : UInt64 × UInt64) : Nat :=
  x.1.toNat * 2 ^ 64 + x.2.toNat

theorem value_lt (x : UInt64 × UInt64) : value x < 2 ^ 128 := by
  have := x.1.toNat_lt
  have := x.2.toNat_lt
  rw [value]
  omega

theorem SIGN64_iff (x : UInt64) : SIGN64 x = true ↔ 2 ^ 63 ≤ x.toNat := by
  have := x.toNat_lt
  rw [SIGN64, decide_eq_true_iff, Int64.lt_iff_toInt_lt, ← Int64.toInt_toBitVec,
    UInt64.toBitVec_toInt64, BitVec.toInt_eq_toNat_cond]
  simp only [UInt64.toNat_toBitVec, Int64.toInt_zero]
  split <;> omega

theorem toNat_or_shiftLeft {x y : UInt64} {k : Nat} (hk : k < 64) (hx : x.toNat < 2 ^ k)
    (hy : y.toNat < 2 ^ (64 - k)) : (x ||| (y <<< k.toUInt64)).toNat = x.toNat + y.toNat * 2 ^ k := by
  have hlt : y.toNat * 2 ^ k < 2 ^ 64 := by
    calc y.toNat * 2 ^ k < 2 ^ (64 - k) * 2 ^ k := Nat.mul_lt_mul_of_pos_right hy (by positivity)
      _ = 2 ^ 64 := by rw [← pow_add, Nat.sub_add_cancel hk.le]
  have hku : k.toUInt64.toNat % 64 = k := by simp; omega
  rw [UInt64.toNat_or, UInt64.toNat_shiftLeft, hku, Nat.shiftLeft_eq, Nat.mod_eq_of_lt hlt,
    Nat.lor_comm, ← Nat.shiftLeft_eq, ← Nat.shiftLeft_add_eq_or_of_lt hx, Nat.shiftLeft_eq,
    Nat.add_comm]

theorem value_SHL128 : value (SHL128 xh xl) = 2 * value (xh, xl) % 2 ^ 128 := by
  have := xh.toNat_lt
  have hl := xl.toNat_lt
  have hbit : (SIGN64 xl).toUInt64.toNat = xl.toNat / 2 ^ 63 := by
    by_cases h : 2 ^ 63 ≤ xl.toNat
    case pos =>
      have hone : true.toUInt64.toNat = 1 := rfl
      rw [(SIGN64_iff xl).mpr h, hone]
      omega
    case neg =>
      have hzero : false.toUInt64.toNat = 0 := rfl
      rw [Bool.eq_false_iff.mpr fun hs => h ((SIGN64_iff xl).mp hs), hzero]
      omega
  have hh : ((xh <<< 1) ||| (SIGN64 xl).toUInt64).toNat = 2 * xh.toNat % 2 ^ 64 + xl.toNat / 2 ^ 63 := by
    have hshift : 2 * xh.toNat % 2 ^ 64 = (xh.toNat % 2 ^ 63) <<< 1 := by
      rw [Nat.shiftLeft_eq]
      omega
    rw [UInt64.toNat_or, UInt64.toNat_shiftLeft, hbit]
    simp only [UInt64.reduceToNat, Nat.reduceMod]
    rw [Nat.shiftLeft_eq, pow_one, Nat.mul_comm, hshift,
      ← Nat.shiftLeft_add_eq_or_of_lt (by omega)]
  rw [value, value, SHL128, hh, UInt64.toNat_shiftLeft]
  simp only [UInt64.reduceToNat, Nat.reduceMod, Nat.shiftLeft_eq]
  omega

theorem value_SHR128 : value (SHR128 xh xl) = value (xh, xl) / 2 := by
  have := xl.toNat_lt
  have hone : (xh &&& 1).toNat = xh.toNat % 2 := by simp [UInt64.toNat_and, Nat.and_one_is_mod]
  have hhalf : (xl >>> 1).toNat = xl.toNat / 2 := by simp [Nat.shiftRight_eq_div_pow]
  have hl : ((xl >>> 1) ||| ((xh &&& 1) <<< 63)).toNat = xl.toNat / 2 + xh.toNat % 2 * 2 ^ 63 := by
    rw [← hone, ← hhalf]
    exact toNat_or_shiftLeft (k := 63) (by omega) (by omega) (by omega)
  rw [value, value, SHR128, hl]
  simp only [UInt64.toNat_shiftRight, UInt64.reduceToNat, Nat.reduceMod, Nat.shiftRight_eq_div_pow]
  omega

theorem XltY128_iff : XltY128 xh xl yh yl = true ↔ value (xh, xl) < value (yh, yl) := by
  have := xl.toNat_lt
  have := yl.toNat_lt
  simp only [XltY128, value, Bool.or_eq_true, Bool.and_eq_true, decide_eq_true_eq, beq_iff_eq,
    UInt64.lt_iff_toNat_lt, ← UInt64.toNat_inj]
  omega

theorem value_sub128 (h : value (yh, yl) ≤ value (xh, xl)) :
    value (sub128 xh xl yh yl) = value (xh, xl) - value (yh, yl) := by
  have := xl.toNat_lt
  have := yl.toNat_lt
  have := xh.toNat_lt
  have := yh.toNat_lt
  rw [value, value] at h
  simp only at h
  rw [sub128]
  split
  case isTrue hlt =>
    rw [UInt64.lt_iff_toNat_lt] at hlt
    simp only [value, UInt64.toNat_sub, UInt64.toNat_add, UInt64.toNat_one]
    omega
  case isFalse hlt =>
    rw [UInt64.lt_iff_toNat_lt] at hlt
    simp only [value, UInt64.toNat_sub]
    omega

-- The divisor is shifted until its highest bit is set.
theorem leftJustify_spec {fuel shiftcount : Nat} (hy : 2 ^ 128 ≤ value (yh, yl) * 2 ^ fuel)
    (hf : 0 < fuel) : ∃ yh' yl' c, leftJustify fuel yh yl shiftcount = some (yh', yl', shiftcount + c) ∧
      value (yh', yl') = value (yh, yl) * 2 ^ c ∧ 2 ^ 127 ≤ value (yh', yl') := by
  induction fuel generalizing yh yl shiftcount with
  | zero => omega
  | succ fuel hi =>
    have hlow := yl.toNat_lt
    rw [leftJustify]
    by_cases hs : SIGN64 yh = true
    case pos =>
      rw [if_pos hs]
      rw [SIGN64_iff] at hs
      refine ⟨yh, yl, 0, rfl, by simp, ?_⟩
      simp only [value]
      omega
    case neg =>
      rw [if_neg hs]
      rw [SIGN64_iff] at hs
      have hv : value (SHL128 yh yl) = 2 * value (yh, yl) := by
        rw [value_SHL128]
        simp only [value]
        omega
      have hpos : 0 < fuel := by
        apply Nat.pos_of_ne_zero
        intro h
        subst h
        simp only [value] at hy
        omega
      obtain ⟨yh', yl', c, hj, hc, hle⟩ := @hi (SHL128 yh yl).1 (SHL128 yh yl).2 (shiftcount + 1)
        (by rw [Prod.mk.eta, hv]; rw [pow_succ] at hy; calc
              _ ≤ value (yh, yl) * (2 ^ fuel * 2) := hy
              _ = 2 * value (yh, yl) * 2 ^ fuel := by ring) hpos
      refine ⟨yh', yl', c + 1, ?_, ?_, hle⟩
      case refine_1 =>
        simp only
        rw [hj, Nat.add_assoc, Nat.add_comm 1 c]
      case refine_2 =>
        rw [hc, Prod.mk.eta, hv, pow_succ]
        ring

-- The loop of the division follows `divide`. The bits of the quotient that do not fit are lost.
theorem shiftSubtract_spec {shiftcount q : Nat} (hq : value (qh, ql) = q % 2 ^ 128) :
    value (shiftSubtract shiftcount xh xl yh yl qh ql) =
      InvariantDivision.divide shiftcount (value (xh, xl)) (value (yh, yl)) q % 2 ^ 128 := by
  induction shiftcount generalizing xh xl yh yl qh ql q with
  | zero => exact hq
  | succ shiftcount hi =>
    have hshift : value (SHL128 qh ql) = 2 * q % 2 ^ 128 := by
      rw [value_SHL128, hq]
      omega
    rw [shiftSubtract, InvariantDivision.divide]
    simp only
    by_cases hlt : value (yh, yl) < value (xh, xl)
    case pos =>
      have hodd : value ((SHL128 qh ql).1, (SHL128 qh ql).2 ||| 1) = (2 * q + 1) % 2 ^ 128 := by
        have heven : (SHL128 qh ql).2.toNat % 2 = 0 := by
          simp only [value] at hshift
          omega
        have hor : ((SHL128 qh ql).2 ||| 1).toNat = (SHL128 qh ql).2.toNat + 1 := by
          have hdiv : (SHL128 qh ql).2.toNat = ((SHL128 qh ql).2.toNat / 2) <<< 1 := by
            rw [Nat.shiftLeft_eq]
            omega
          rw [UInt64.toNat_or, UInt64.toNat_one, hdiv, ← Nat.shiftLeft_add_eq_or_of_lt (by decide)]
        simp only [value] at hshift ⊢
        omega
      rw [if_pos hlt, if_pos ((XltY128_iff).mpr hlt)]
      simp only
      rw [hi hodd, Prod.mk.eta, Prod.mk.eta, value_SHR128, value_sub128 hlt.le]
    case neg =>
      rw [if_neg hlt, if_neg (fun h => hlt ((XltY128_iff).mp h))]
      simp only
      rw [hi (by rw [Prod.mk.eta, hshift]), Prod.mk.eta, value_SHR128]

-- The divisor, left justified, and the number of steps of the division.
theorem justified_spec (hy : 0 < value (yh, yl)) : ∃ yh' yl' c,
    (if yh = 0 then leftJustify 64 yl 0 (1 + 64) else leftJustify 64 yh yl 1) = some (yh', yl', c + 1) ∧
      value (yh', yl') = value (yh, yl) * 2 ^ c ∧ 2 ^ 127 ≤ value (yh', yl') := by
  by_cases h : yh = 0
  case pos =>
    subst h
    have hval : value (yl, 0) = value (0, yl) * 2 ^ 64 := by simp [value]
    obtain ⟨yh', yl', c, hj, hc, hle⟩ := @leftJustify_spec yl 0 64 (1 + 64)
      (by rw [hval]; omega) (by decide)
    refine ⟨yh', yl', 64 + c, ?_, ?_, hle⟩
    case refine_1 =>
      rw [if_pos rfl, hj]
      simp only [Option.some.injEq, Prod.mk.injEq, true_and]
      omega
    case refine_2 =>
      rw [hc, hval, pow_add]
      ring
  case neg =>
    have hpos : 0 < yh.toNat := Nat.pos_of_ne_zero fun hz => h (UInt64.toNat_inj.mp hz)
    obtain ⟨yh', yl', c, hj, hc, hle⟩ := @leftJustify_spec yh yl 64 1
      (by simp only [value]; omega) (by decide)
    refine ⟨yh', yl', c, ?_, hc, hle⟩
    rw [if_neg h, hj, Nat.add_comm 1 c]

-- The quotient is the largest one that leaves a remainder, which is not 0.
theorem u128Div_quotient (hy : 0 < value (yh, yl)) :
    ∃ q, u128Div xh xl yh yl = some q ∧ value q = (value (xh, xl) - 1) / value (yh, yl) := by
  have hne : yh ≠ 0 ∨ yl ≠ 0 := by
    by_contra! h
    simp [h.1, h.2, value] at hy
  obtain ⟨yh', yl', c, hj, hc, hle⟩ := justified_spec hy
  have hxlt := value_lt (xh, xl)
  have hqlt : (value (xh, xl) - 1) / value (yh, yl) < 2 ^ 128 :=
    (Nat.div_le_self _ _).trans_lt ((Nat.sub_le _ _).trans_lt hxlt)
  have hx : value (xh, xl) ≤ value (yh, yl) * 2 ^ (c + 1) := by
    rw [pow_succ, ← Nat.mul_assoc]
    omega
  have hquot : InvariantDivision.divide (c + 1) (value (xh, xl)) (value (yh, yl) * 2 ^ c) 0 =
      (value (xh, xl) - 1) / value (yh, yl) := by
    obtain h0 | hpos := Nat.eq_zero_or_pos (value (xh, xl))
    · rw [h0, InvariantDivision.divide_zero, Nat.zero_mul, Nat.zero_sub, Nat.zero_div]
    · rw [InvariantDivision.divide_eq hy hpos hx, Nat.zero_mul, Nat.zero_add]
  refine ⟨shiftSubtract (c + 1) xh xl yh' yl' 0 0, ?_, ?_⟩
  case refine_1 =>
    rw [u128Div]
    split at hj <;> simp_all [guard_true]
  case refine_2 =>
    rw [shiftSubtract_spec (q := 0) rfl, hc, hquot, Nat.mod_eq_of_lt hqlt]

theorem u128Div_spec {d : UInt64} (hd : 0 < d.toNat) (_ : 0 < value (xh, xl)) :
    ∃ qh ql, u128Div xh xl 0 d = some (qh, ql) ∧ value (qh, ql) = (value (xh, xl) - 1) / d.toNat := by
  have hval : value (0, d) = d.toNat := by simp [value]
  obtain ⟨q, hq, hquot⟩ := @u128Div_quotient xh xl 0 d (by rwa [hval])
  exact ⟨q.1, q.2, hq, by rw [Prod.mk.eta, hquot, hval]⟩

-- The quotient is one less than it should be if the divisor divides the dividend, which is not 0.
theorem u128Div_floor_iff (h : yh ≠ 0 ∨ yl ≠ 0) : ∃ q, u128Div xh xl yh yl = some q ∧
    (value q = value (xh, xl) / value (yh, yl) ↔ value (xh, xl) = 0 ∨ ¬ value (yh, yl) ∣ value (xh, xl)) ∧
    (value q ≠ value (xh, xl) / value (yh, yl) → value q + 1 = value (xh, xl) / value (yh, yl)) := by
  have hy : 0 < value (yh, yl) := by
    rw [value, Nat.pos_iff_ne_zero, Ne, Nat.add_eq_zero_iff, Nat.mul_eq_zero, or_iff_left (by decide), not_and_or]
    exact h.imp (fun h hz => h (UInt64.toNat_inj.mp hz)) (fun h hz => h (UInt64.toNat_inj.mp hz))
  obtain ⟨q, hq, hquot⟩ := @u128Div_quotient xh xl yh yl hy
  refine ⟨q, hq, ?_⟩
  rw [hquot]
  cases hx : value (xh, xl) with
  | zero => simp
  | succ x =>
    rw [Nat.succ_div, Nat.add_sub_cancel]
    by_cases hdvd : value (yh, yl) ∣ x + 1
    case pos => simp [hdvd]
    case neg => simp [hdvd]

theorem u128Div_floor_iff_exact : ∃ q, u128Div 1 0 0 2 = some q ∧
    (value q = value (1, 0) / value (0, 2) ↔ value (1, 0) = 0 ∨ ¬ value (0, 2) ∣ value (1, 0)) ∧
    (value q ≠ value (1, 0) / value (0, 2) → value q + 1 = value (1, 0) / value (0, 2)) :=
  u128Div_floor_iff (.inr (by decide))

end Compiler.Backend.DivCoeff
