import DmdModel.Compiler.Common.Theorems.Int128

namespace Compiler.Common.Int128

open Cent

section words

variable {x v : BitVec 64} {y q : BitVec 32}

theorem toNat_setWidth_64 : (y.setWidth 64).toNat = y.toNat := by
  have hy := y.isLt
  rw [BitVec.toNat_setWidth]
  omega

theorem toNat_high_digit : ((x >>> divshift).setWidth 32).toNat = x.toNat / 2 ^ 32 := by
  have hx := x.isLt
  have hshift : (x >>> divshift).toNat = x.toNat / 2 ^ 32 := toNat_ushiftRight_mulshift x
  rw [BitVec.toNat_setWidth, hshift]
  omega

theorem toNat_low_digit : ((x &&& divmask).setWidth 32).toNat = x.toNat % 2 ^ 32 := by
  have hmask : (x &&& divmask).toNat = x.toNat % 2 ^ 32 := toNat_and_mulmask x
  rw [BitVec.toNat_setWidth, hmask, Nat.mod_mod]

theorem toNat_digits : x.toNat / 2 ^ 32 * 2 ^ 32 + x.toNat % 2 ^ 32 = x.toNat :=
  Nat.div_add_mod' ..

theorem three_digits (a l : Nat) :
    (a * 2 ^ 32 + l / 2 ^ 32) * 2 ^ 32 + l % 2 ^ 32 = a * 2 ^ 64 + l := by
  omega

theorem toNat_base : base.toNat = 2 ^ 32 :=
  rfl

theorem wrapped_sub {a b p r : Nat} (h : p + r = a * 2 ^ 32 + b) (hr : r < 2 ^ 64) :
    (2 ^ 64 - p % 2 ^ 64 + (a * 2 ^ 32 % 2 ^ 64 + b) % 2 ^ 64) % 2 ^ 64 = r := by
  omega

-- What remains of two digits, computed modulo the size of a word.
theorem toNat_remainder (hv : 0 < v.toNat) (hq : q.toNat = (x.toNat * 2 ^ 32 + y.toNat) / v.toNat) :
    (x * base + y.setWidth 64 - q.setWidth 64 * v).toNat = (x.toNat * 2 ^ 32 + y.toNat) % v.toNat := by
  have hlt := Nat.mod_lt (x.toNat * 2 ^ 32 + y.toNat) hv
  have hdiv := Nat.div_add_mod' (x.toNat * 2 ^ 32 + y.toNat) v.toNat
  have hv' := v.isLt
  rw [← hq] at hdiv
  rw [BitVec.toNat_sub, BitVec.toNat_add, BitVec.toNat_mul, BitVec.toNat_mul, toNat_setWidth_64, toNat_setWidth_64,
    toNat_base]
  exact wrapped_sub hdiv (hlt.trans hv')

end words

section digits

variable {num1 den : BitVec 64} {num0 : BitVec 32}

-- The divisor with its first bit set.
theorem normal_digits (hden : 2 ^ 63 ≤ den.toNat) (hnum : num1 < den) :
    Limbs.Normal (2 ^ 32) (den.toNat / 2 ^ 32) (den.toNat % 2 ^ 32) num1.toNat num0.toNat where
  half  := by omega
  low   := Nat.mod_lt _ (by decide)
  fits  := by rwa [toNat_digits]
  digit := num0.isLt

-- The estimate `ret` after its correction.
def corrected (ret t1 t2 den : BitVec 64) : BitVec 64 :=
  if t1 > t2 then ret - if t1 - t2 > den then 2 else 1 else ret

theorem toNat_corrected {ret t1 t2 : BitVec 64}
    (hle : (if t2.toNat < t1.toNat then if den.toNat < t1.toNat - t2.toNat then 2 else 1 else 0) ≤ ret.toNat) :
    (corrected ret t1 t2 den).toNat = ret.toNat -
      if t2.toNat < t1.toNat then if den.toNat < t1.toNat - t2.toNat then 2 else 1 else 0 := by
  simp only [corrected, gt_iff_lt, BitVec.lt_def]
  by_cases hlt : t2.toNat < t1.toNat
  case neg => rw [if_neg hlt, if_neg hlt, Nat.sub_zero]
  case pos =>
    rw [if_pos hlt] at hle
    rw [if_pos hlt, if_pos hlt, BitVec.toNat_sub_of_le (BitVec.le_of_lt hlt)]
    split_ifs at hle ⊢ <;> exact BitVec.toNat_sub_of_le hle

theorem udiv96_64_spec (hden : 2 ^ 63 ≤ den.toNat) (hnum : num1 < den) :
    ∃ q, udiv96_64 num1 num0 den = some q ∧ q.toNat = (num1.toNat * 2 ^ 32 + num0.toNat) / den.toNat := by
  have hnormal := @normal_digits num1 den num0 hden hnum
  have hden' := den.isLt
  let den1 : BitVec 64 := ((den >>> divshift).setWidth 32).setWidth 64
  let den0 : BitVec 64 := ((den &&& divmask).setWidth 32).setWidth 64
  have hden1 : den1.toNat = den.toNat / 2 ^ 32 := (toNat_setWidth_64).trans toNat_high_digit
  have hden0 : den0.toNat = den.toNat % 2 ^ 32 := (toNat_setWidth_64).trans toNat_low_digit
  have hne : den1 ≠ 0 := by
    intro h0
    rw [h0] at hden1
    change 0 = _ at hden1
    omega
  have ht2 : (num1 % den1 * base + num0.setWidth 64).toNat =
      num1.toNat % (den.toNat / 2 ^ 32) * 2 ^ 32 + num0.toNat := by
    have hrest := hnormal.rest_lt
    rw [BitVec.toNat_add, BitVec.toNat_mul, BitVec.toNat_umod, hden1, toNat_base, toNat_setWidth_64]
    omega
  have ht1 : (num1 / den1 * den0).toNat = num1.toNat / (den.toNat / 2 ^ 32) * (den.toNat % 2 ^ 32) := by
    have hprod := hnormal.estimate_mul_lt
    rw [BitVec.toNat_mul, BitVec.toNat_udiv, hden1, hden0]
    exact Nat.mod_eq_of_lt hprod
  have hret : (num1 / den1).toNat = num1.toNat / (den.toNat / 2 ^ 32) := by
    rw [BitVec.toNat_udiv, hden1]
  refine ⟨(corrected (num1 / den1) (num1 / den1 * den0) (num1 % den1 * base + num0.setWidth 64) den).setWidth 32, ?_, ?_⟩
  · rw [udiv96_64, hostDivMod, if_neg hne]
    rfl
  · have hcorr := @Limbs.Normal.correction_le (2 ^ 32) (den.toNat / 2 ^ 32) (den.toNat % 2 ^ 32) num1.toNat num0.toNat
    have hdiv := hnormal.div_eq
    have hlt := hnormal.div_lt
    simp only [Limbs.correction, toNat_digits] at hcorr hdiv hlt
    rw [BitVec.toNat_setWidth, toNat_corrected (by rw [ht1, ht2, hret]; exact hcorr), ht1, ht2, hret, ← hdiv]
    exact Nat.mod_eq_of_lt hlt

end digits

section normalization

variable {v : BitVec 64} {shift : BitVec 32}

-- A shift that puts the first bit that is set in front.
structure Normalizes (v : BitVec 64) (shift : BitVec 32) : Prop where
  lt    : shift.toNat < 64
  first : 2 ^ 63 ≤ v.toNat * 2 ^ shift.toNat
  fits  : v.toNat * 2 ^ shift.toNat < 2 ^ 64

theorem bsr_spec (hv : v ≠ 0) : ∃ bit, bsr v = some bit ∧ Normalizes v (63 - bit) := by
  have hne : v.toNat ≠ 0 := fun h => hv (BitVec.eq_of_toNat_eq h)
  have hlog : v.toNat.log2 < 64 := (Nat.log2_lt hne).mpr v.isLt
  refine ⟨_, if_neg hv, ?_⟩
  have hbit : (BitVec.ofNat 32 v.toNat.log2).toNat = v.toNat.log2 := by
    rw [BitVec.toNat_ofNat]
    omega
  have hshift : (63 - BitVec.ofNat 32 v.toNat.log2).toNat = 63 - v.toNat.log2 := by
    rw [BitVec.toNat_sub_of_le (BitVec.le_def.mpr (by rw [hbit]; exact Nat.le_of_lt_succ hlog)), hbit]
    rfl
  constructor
  case lt => omega
  case first =>
    calc
      2 ^ 63 = 2 ^ v.toNat.log2 * 2 ^ (63 - v.toNat.log2) := by
        rw [← pow_add, Nat.add_sub_cancel' (Nat.le_of_lt_succ hlog)]
      _ ≤ v.toNat * 2 ^ (63 - v.toNat.log2) := Nat.mul_le_mul_right _ (Nat.log2_self_le hne)
      _ = _ := by rw [hshift]
  case fits =>
    calc
      v.toNat * 2 ^ (63 - BitVec.ofNat 32 v.toNat.log2).toNat = v.toNat * 2 ^ (63 - v.toNat.log2) := by rw [hshift]
      _ < 2 ^ (v.toNat.log2 + 1) * 2 ^ (63 - v.toNat.log2) :=
        Nat.mul_lt_mul_of_pos_right Nat.lt_log2_self (Nat.two_pow_pos _)
      _ = 2 ^ 64 := by rw [← pow_add]; congr 1; omega

theorem Normalizes.toNat_shiftLeft (h : Normalizes v shift) : (v <<< shift).toNat = v.toNat * 2 ^ shift.toNat := by
  rw [BitVec.shiftLeft_eq', BitVec.toNat_shiftLeft, Nat.shiftLeft_eq, Nat.mod_eq_of_lt h.fits]

theorem sshiftRight_63_of_msb {x : BitVec 64} (h : x.msb = true) : x.sshiftRight 63 = BitVec.allOnes 64 := by
  apply BitVec.eq_of_getLsbD_eq
  intro i hi
  rw [BitVec.getLsbD_sshiftRight, BitVec.getLsbD_allOnes]
  by_cases h0 : i = 0
  case pos =>
    subst h0
    rw [BitVec.msb_eq_getLsbD_last] at h
    simp [h]
  case neg => simp [hi, h, show ¬63 + i < 64 by omega]

-- The bits that a shift moves to the next word; there are none of them where the shift is by zero.
theorem spill_eq (h : shift.toNat < 64) :
    v >>> (-shift &&& 63) &&& (-shift.setWidth 64).sshiftRight 63 = v >>> (64 - shift.toNat) := by
  have hs : (shift.setWidth 64).toNat = shift.toNat := toNat_setWidth_64
  by_cases h0 : shift = 0
  case pos =>
    subst h0
    rw [BitVec.ushiftRight_eq_zero (x := v) (by decide)]
    simp
  case neg =>
    have hne : shift.toNat ≠ 0 := fun hz => h0 (BitVec.eq_of_toNat_eq hz)
    have hmsb : (-shift.setWidth 64).msb = true := by
      rw [BitVec.msb_eq_decide, BitVec.toNat_neg, hs, decide_eq_true_eq]
      omega
    have hcount : (-shift &&& 63).toNat = 64 - shift.toNat := by
      have hmask : (-shift &&& 63).toNat = (-shift).toNat % 2 ^ 6 := by
        rw [BitVec.toNat_and, ← Nat.and_two_pow_sub_one_eq_mod]
        rfl
      rw [hmask, BitVec.toNat_neg]
      omega
    rw [sshiftRight_63_of_msb hmsb, BitVec.and_allOnes, BitVec.ushiftRight_eq', hcount]

end normalization

section halves

variable {c1 : Cent} {c2 : BitVec 64}

-- The dividend shifted left, as its higher and its lower word.
theorem toNat_normalized {shift : BitVec 32} (h : Normalizes c2 shift) (hlt : c1.hi < c2) :
    (c1.hi <<< shift ||| c1.lo >>> (-shift &&& 63) &&& (-shift.setWidth 64).sshiftRight 63).toNat * 2 ^ 64 +
      (c1.lo <<< shift).toNat = c1.toNat * 2 ^ shift.toNat := by
  have hbits := Limbs.append_shiftLeft c1.hi c1.lo (Nat.le_of_lt h.lt)
  have hnum : c1.toNat * 2 ^ shift.toNat < 2 ^ 128 := by
    have hlo := c1.lo.isLt
    have hhi : c1.hi.toNat < c2.toNat := hlt
    calc
      c1.toNat * 2 ^ shift.toNat ≤ c2.toNat * 2 ^ 64 * 2 ^ shift.toNat := by
        refine Nat.mul_le_mul_right _ ?_
        rw [toNat_eq]
        omega
      _ = c2.toNat * 2 ^ shift.toNat * 2 ^ 64 := by ring
      _ < 2 ^ 64 * 2 ^ 64 := Nat.mul_lt_mul_of_pos_right h.fits (by decide)
      _ = 2 ^ 128 := by norm_num
  rw [spill_eq h.lt]
  have hval := @toNat_eq {
    lo := c1.lo <<< shift
    hi := c1.hi <<< shift ||| c1.lo >>> (64 - shift.toNat)
  }
  dsimp only at hval
  rw [← hval, Cent.toNat, toBitVec]
  dsimp only
  rw [BitVec.shiftLeft_eq', BitVec.shiftLeft_eq', ← hbits, BitVec.toNat_shiftLeft, Nat.shiftLeft_eq]
  exact Nat.mod_eq_of_lt hnum

theorem toNat_join {q1 q0 : BitVec 32} :
    (q1.setWidth 64 <<< divshift ||| q0.setWidth 64).toNat = q1.toNat * 2 ^ 32 + q0.toNat := by
  have hq1 := q1.isLt
  have hq0 := q0.isLt
  have hhigh : (q1.setWidth 64 <<< divshift).toNat = q1.toNat <<< 32 := by
    rw [BitVec.toNat_shiftLeft, toNat_setWidth_64, divshift, Nat.shiftLeft_eq]
    omega
  rw [BitVec.toNat_or, hhigh, toNat_setWidth_64, ← Nat.shiftLeft_add_eq_or_of_lt hq0, Nat.shiftLeft_eq]

theorem udivmod128_64_spec (hlt : c1.hi < c2) : ∃ q m, udivmod128_64 c1 c2 = some (q, m) ∧
    q.toNat = c1.toNat / c2.toNat ∧ m.toNat = c1.toNat % c2.toNat := by
  have hhi : c1.hi.toNat < c2.toNat := hlt
  have hne : c2 ≠ 0 := by
    rintro rfl
    exact Nat.not_lt_zero _ hhi
  obtain ⟨bit, hbit, hnorm⟩ := bsr_spec hne
  generalize hshift : 63 - bit = shift at hnorm
  have hden := hnorm.toNat_shiftLeft
  have hfirst : 2 ^ 63 ≤ (c2 <<< shift).toNat := hden ▸ hnorm.first
  have hpos : 0 < (c2 <<< shift).toNat := by omega
  have hvalue := toNat_normalized hnorm hlt
  obtain ⟨num2, hnum2'⟩ : ∃ num2, num2 = c1.hi <<< shift |||
      c1.lo >>> (-shift &&& 63) &&& (-shift.setWidth 64).sshiftRight 63 := ⟨_, rfl⟩
  obtain ⟨num1, hnum1'⟩ : ∃ num1 : BitVec 32, num1 = ((c1.lo <<< shift) >>> divshift).setWidth 32 := ⟨_, rfl⟩
  obtain ⟨num0, hnum0'⟩ : ∃ num0 : BitVec 32, num0 = (c1.lo <<< shift &&& divmask).setWidth 32 := ⟨_, rfl⟩
  have hnum1 : num1.toNat = (c1.lo <<< shift).toNat / 2 ^ 32 := hnum1' ▸ toNat_high_digit
  have hnum0 : num0.toNat = (c1.lo <<< shift).toNat % 2 ^ 32 := hnum0' ▸ toNat_low_digit
  rw [← hnum2'] at hvalue
  have hnum2 : num2 < c2 <<< shift := by
    have hlo := c1.lo.isLt
    have hc1 : c1.toNat * 2 ^ shift.toNat < c2.toNat * 2 ^ shift.toNat * 2 ^ 64 := by
      rw [Nat.mul_right_comm]
      refine Nat.mul_lt_mul_of_pos_right ?_ (Nat.two_pow_pos _)
      rw [toNat_eq]
      omega
    have hmul : num2.toNat * 2 ^ 64 < (c2 <<< shift).toNat * 2 ^ 64 := by
      rw [hden]
      exact lt_of_le_of_lt (Nat.le_of_add_right_le hvalue.le) hc1
    exact Nat.lt_of_mul_lt_mul_right hmul
  obtain ⟨q1, hq1, hq1'⟩ := @udiv96_64_spec num2 (c2 <<< shift) num1 hfirst hnum2
  have hrem := toNat_remainder hpos hq1'
  obtain ⟨rem, hrem'⟩ : ∃ rem, rem = num2 * base + num1.setWidth 64 - q1.setWidth 64 * c2 <<< shift := ⟨_, rfl⟩
  rw [← hrem'] at hrem
  have hremlt : rem < c2 <<< shift := by
    rw [BitVec.lt_def, hrem]
    exact Nat.mod_lt _ hpos
  obtain ⟨q0, hq0, hq0'⟩ := @udiv96_64_spec rem (c2 <<< shift) num0 hfirst hremlt
  have hmod := toNat_remainder hpos hq0'
  have hdigits := Limbs.div_digits (2 ^ 32) (c2 <<< shift).toNat (num2.toNat * 2 ^ 32 + num1.toNat) num0.toNat hpos
  have hall : (num2.toNat * 2 ^ 32 + num1.toNat) * 2 ^ 32 + num0.toNat = c1.toNat * 2 ^ shift.toNat := by
    rw [← hvalue, hnum1, hnum0, three_digits]
  rw [hall, hden, Nat.mul_div_mul_right _ _ (Nat.two_pow_pos _), Nat.mul_mod_mul_right, ← hden, ← hrem, ← hq0',
    ← hq1', ← hmod] at hdigits
  refine ⟨q1.setWidth 64 <<< divshift ||| q0.setWidth 64,
    (rem * base + num0.setWidth 64 - q0.setWidth 64 * c2 <<< shift) >>> shift, ?_,
    (toNat_join).trans hdigits.1.symm, ?_⟩
  · rw [udivmod128_64, if_neg (BitVec.not_le.mpr hlt), hbit]
    simp only [Option.bind_eq_bind, Option.bind_some, hshift, ← hnum2', ← hnum1', ← hnum0', hq1, ← hrem', hq0]
    rfl
  · rw [BitVec.ushiftRight_eq', BitVec.toNat_ushiftRight, Nat.shiftRight_eq_div_pow, ← hdigits.2]
    exact Nat.mul_div_cancel _ (Nat.two_pow_pos _)

end halves

section udivmod

variable {c c1 c2 : Cent}

-- The quotient and the remainder, as unsigned values.
def Divides (c1 c2 : Cent) (r : Option (Cent × Cent)) : Prop :=
  ∃ q m, r = some (q, m) ∧ q.toNat = c1.toNat / c2.toNat ∧ m.toNat = c1.toNat % c2.toNat

theorem toNat_lo {lo : BitVec 64} : Cent.toNat { lo } = lo.toNat := by
  simp [toNat_eq]

theorem toNat_of_hi (h : c.hi = 0) : c.toNat = c.lo.toNat := by
  rw [toNat_eq, h]
  exact Nat.zero_add _

theorem le_toNat_of_hi (h : c.hi ≠ 0) : 2 ^ 64 ≤ c.toNat := by
  have hne : c.hi.toNat ≠ 0 := fun hz => h (BitVec.eq_of_toNat_eq hz)
  rw [toNat_eq]
  omega

theorem tst_iff : tst c = true ↔ c.toNat ≠ 0 := by
  have hlo : c.lo = 0 ↔ c.lo.toNat = 0 := BitVec.toNat_inj.symm
  have hhi : c.hi = 0 ↔ c.hi.toNat = 0 := BitVec.toNat_inj.symm
  rw [tst, decide_eq_true_eq, ne_eq, ne_eq, hlo, hhi, toNat_eq]
  omega

-- Single precision divide
theorem udivmod_single (h1 : c1.hi = 0) (h2 : c2.hi = 0) (hne : c2.toNat ≠ 0) :
    Divides c1 c2 (udivmod c1 c2) := by
  have hlo : c2.lo ≠ 0 := by
    rintro h
    rw [toNat_of_hi h2, h] at hne
    exact hne rfl
  refine ⟨{ lo := c1.lo / c2.lo }, { lo := c1.lo % c2.lo }, ?_, ?_, ?_⟩
  · rw [udivmod, (tst_iff).mpr hne, if_neg (by decide), if_pos ⟨h1, h2⟩, hostDivMod, if_neg hlo]
    rfl
  · rw [toNat_lo, toNat_of_hi h1, toNat_of_hi h2, BitVec.toNat_udiv]
  · rw [toNat_lo, toNat_of_hi h1, toNat_of_hi h2, BitVec.toNat_umod]

-- Numerator is smaller than the divisor
theorem udivmod_smaller (h1 : c1.hi = 0) (h2 : c2.hi ≠ 0) : Divides c1 c2 (udivmod c1 c2) := by
  have hlt : c1.toNat < c2.toNat := by
    have hlo := c1.lo.isLt
    have hle := le_toNat_of_hi h2
    rw [toNat_of_hi h1]
    omega
  refine ⟨Zero, c1, ?_, ?_, (Nat.mod_eq_of_lt hlt).symm⟩
  · rw [udivmod, (tst_iff).mpr (by omega), if_neg (by decide), if_neg (fun h => h2 h.2), if_pos h1]
  · rw [Nat.div_eq_of_lt hlt]
    rfl

-- The divisor is a 64-bit value
theorem udivmod_half (h1 : c1.hi ≠ 0) (h2 : c2.hi = 0) (hne : c2.toNat ≠ 0) :
    Divides c1 c2 (udivmod c1 c2) := by
  have hval := toNat_of_hi h2
  have hpos : 0 < c2.lo.toNat := by omega
  have hlo : c2.lo ≠ 0 := by
    rintro h
    rw [h] at hpos
    exact absurd hpos (by decide)
  have hmod : c1.hi % c2.lo < c2.lo := by
    rw [BitVec.lt_def, BitVec.toNat_umod]
    exact Nat.mod_lt _ hpos
  obtain ⟨q0, rem, hdiv, hq0, hrem⟩ := @udivmod128_64_spec { c1 with hi := c1.hi % c2.lo } c2.lo hmod
  have hdigits := Limbs.div_digits (2 ^ 64) c2.lo.toNat c1.hi.toNat c1.lo.toNat hpos
  rw [← toNat_eq] at hdigits
  rw [toNat_eq, BitVec.toNat_umod] at hq0 hrem
  have hq1 : highQuotient c1.hi c2.lo = some (c1.hi / c2.lo) := by
    rw [highQuotient, hostDivMod, if_neg hlo]
    by_cases hlt : c1.hi < c2.lo
    case pos =>
      rw [if_pos hlt, BitVec.udiv_eq_zero_iff_eq_zero_or_lt.mpr (.inr hlt)]
      rfl
    case neg => rw [if_neg hlt, Option.map_some]
  have hhi : highRest (c1.hi / c2.lo) c1.hi c2.lo = some (c1.hi % c2.lo) := by
    rw [highRest, hostDivMod, if_neg hlo, Option.map_some]
    by_cases hq : c1.hi / c2.lo = 0
    case pos =>
      have hlt := (BitVec.udiv_eq_zero_iff_eq_zero_or_lt.mp hq).resolve_left hlo
      rw [if_neg (not_not_intro hq), BitVec.umod_eq_of_lt hlt]
    case neg => rw [if_pos hq]
  refine ⟨{ lo := q0, hi := c1.hi / c2.lo }, { lo := rem }, ?_, ?_, ?_⟩
  · rw [udivmod, (tst_iff).mpr hne, if_neg (by decide), if_neg (fun h => h1 h.1), if_neg h1, if_pos h2, hq1]
    simp only [Option.bind_eq_bind, Option.bind_some, hhi, hdiv]
    rfl
  · rw [toNat_eq, hval, hdigits.1, ← hq0, BitVec.toNat_udiv]
  · rw [toNat_lo, hval, hdigits.2, ← hrem]

theorem toNat_shr1 : (shr1 c).toNat = c.toNat / 2 := by
  have hhi : (c.hi >>> 1).toNat = c.hi.toNat / 2 := by
    rw [BitVec.toNat_ushiftRight, Nat.shiftRight_eq_div_pow]
  have hlow : (c.lo >>> 1).toNat = c.lo.toNat / 2 := by
    rw [BitVec.toNat_ushiftRight, Nat.shiftRight_eq_div_pow]
  have hbit : ((c.hi &&& 1) <<< (Ubits - 1)).toNat = (c.hi.toNat % 2) <<< 63 := by
    have hand : (c.hi &&& 1).toNat = c.hi.toNat % 2 := by
      rw [BitVec.toNat_and]
      exact Nat.and_one_is_mod _
    rw [BitVec.toNat_shiftLeft, hand, Ubits, Nat.shiftLeft_eq]
    omega
  have hlo := c.lo.isLt
  rw [toNat_eq, toNat_eq, shr1]
  dsimp only
  rw [BitVec.toNat_or, Nat.or_comm, hhi, hlow, hbit, ← Nat.shiftLeft_add_eq_or_of_lt (by omega), Nat.shiftLeft_eq]
  omega

-- The first word of the divisor after its normalization.
theorem toNat_shl_hi {shift : BitVec 32} (h : Normalizes c.hi shift) :
    (shl c shift).hi.toNat = c.toNat / 2 ^ (63 - shift.toNat + 1) ∧ 2 ^ 63 ≤ (shl c shift).hi.toNat := by
  have hlt := h.lt
  have hfirst := h.first
  have hfits := h.fits
  have hlo := c.lo.isLt
  have hvalue := @toNat_shl c shift
  have hpow : 2 ^ shift.toNat * 2 ^ (63 - shift.toNat + 1) = 2 ^ 64 := by
    rw [← pow_add]
    congr 1
    omega
  have hsmall : c.lo.toNat * 2 ^ shift.toNat < 2 ^ 64 * 2 ^ shift.toNat :=
    Nat.mul_lt_mul_of_pos_right hlo (Nat.two_pow_pos _)
  have hbound : c.hi.toNat * 2 ^ shift.toNat + 2 ^ shift.toNat ≤ 2 ^ 64 := by
    rw [← hpow] at hfits ⊢
    rw [Nat.mul_comm (2 ^ shift.toNat)] at hfits ⊢
    rw [← Nat.succ_mul]
    exact Nat.mul_le_mul_right _ (Nat.lt_of_mul_lt_mul_right hfits)
  have hdist : c.toNat * 2 ^ shift.toNat = c.hi.toNat * 2 ^ shift.toNat * 2 ^ 64 + c.lo.toNat * 2 ^ shift.toNat := by
    rw [toNat_eq]
    ring
  have hshifted : (shl c shift).toNat = c.toNat * 2 ^ shift.toNat := by
    rw [hvalue]
    exact Nat.mod_eq_of_lt (by omega)
  have hquot : (shl c shift).hi.toNat = c.toNat * 2 ^ shift.toNat / 2 ^ 64 := by
    have hl := (shl c shift).lo.isLt
    rw [← hshifted, toNat_eq]
    omega
  constructor
  case left =>
    rw [hquot, ← hpow, Nat.mul_comm (2 ^ shift.toNat), Nat.mul_div_mul_right _ _ (Nat.two_pow_pos _)]
  case right =>
    rw [hquot]
    omega

-- The two halves of `c1` divided by the first word of the divisor, without the normalization.
theorem toNat_unnormalized {q1 : BitVec 64} {shift : BitVec 32} (h : shift.toNat < 64) {u v : Nat}
    (hq1 : q1.toNat = u / 2 / v) :
    (shr (shl { lo := q1 } shift) 63).toNat = u / (v * 2 ^ (63 - shift.toNat + 1)) := by
  have hq := q1.isLt
  have hpow : 2 ^ 63 = 2 ^ (63 - shift.toNat) * 2 ^ shift.toNat := by
    rw [← pow_add]
    congr 1
    omega
  have hfits : q1.toNat * 2 ^ shift.toNat < 2 ^ 128 := by
    calc
      q1.toNat * 2 ^ shift.toNat < 2 ^ 64 * 2 ^ shift.toNat := Nat.mul_lt_mul_of_pos_right hq (Nat.two_pow_pos _)
      _ ≤ 2 ^ 64 * 2 ^ 64 := Nat.mul_le_mul_left _ (Nat.pow_le_pow_right (by decide) h.le)
      _ = 2 ^ 128 := by norm_num
  calc
    (shr (shl { lo := q1 } shift) 63).toNat = q1.toNat * 2 ^ shift.toNat / 2 ^ 63 := by
      rw [toNat_shr, toNat_shl, toNat_lo, Nat.mod_eq_of_lt hfits]
      rfl
    _ = u / 2 / v / 2 ^ (63 - shift.toNat) := by
      rw [hpow, Nat.mul_div_mul_right _ _ (Nat.two_pow_pos _), hq1]
    _ = u / (v * 2 ^ (63 - shift.toNat + 1)) := by
      rw [Nat.div_div_eq_div_mul, Nat.div_div_eq_div_mul]
      congr 1
      ring

theorem toNat_sub_of_le (h : c2.toNat ≤ c1.toNat) : (sub c1 c2).toNat = c1.toNat - c2.toNat := by
  rw [Cent.toNat, sub_toBitVec]
  exact BitVec.toNat_sub_of_le h

theorem toNat_mul_of_lt (h : c1.toNat * c2.toNat < 2 ^ 128) : (mul c1 c2).toNat = c1.toNat * c2.toNat := by
  rw [Cent.toNat, mul_toBitVec, BitVec.toNat_mul]
  exact Nat.mod_eq_of_lt h

theorem toNat_inc_of_lt (h : c.toNat + 1 < 2 ^ 128) : (inc c).toNat = c.toNat + 1 := by
  rw [Cent.toNat, inc, add_toBitVec, BitVec.toNat_add]
  exact Nat.mod_eq_of_lt h

theorem toNat_dec_of_tst (h : tst c = true) : (dec c).toNat = c.toNat - 1 :=
  toNat_sub_of_le (Nat.one_le_iff_ne_zero.mpr ((tst_iff).mp h))

-- The quotient that is right or too small by one, and the last correction.
theorem corrected_quotient {q : Cent} (hpos : 0 < c2.toNat) (hle : q.toNat ≤ c1.toNat / c2.toNat)
    (hge : c1.toNat / c2.toNat ≤ q.toNat + 1) :
    Divides c1 c2 (
      let rem := sub c1 (mul q c2)
      some (if uge rem c2 then (inc q, sub rem c2) else (q, rem))
    ) := by
  obtain ⟨hprod, hmore, hdone⟩ := Limbs.div_of_rest hpos hle hge
  have hmul : (mul q c2).toNat = q.toNat * c2.toNat := toNat_mul_of_lt (lt_of_le_of_lt hprod toNat_lt)
  have hrem : (sub c1 (mul q c2)).toNat = c1.toNat - q.toNat * c2.toNat := by
    rw [toNat_sub_of_le (by rwa [hmul]), hmul]
  have huge : uge (sub c1 (mul q c2)) c2 = true ↔ c2.toNat ≤ c1.toNat - q.toNat * c2.toNat := by
    simp [uge, ugt_iff, hrem]
  dsimp only
  by_cases hbig : c2.toNat ≤ c1.toNat - q.toNat * c2.toNat
  case pos =>
    obtain ⟨hquot, hrest⟩ := hmore hbig
    rw [if_pos (huge.mpr hbig)]
    refine ⟨_, _, rfl, ?_, ?_⟩
    · rw [toNat_inc_of_lt, hquot]
      rw [hquot]
      exact lt_of_le_of_lt (Nat.div_le_self ..) toNat_lt
    · rw [toNat_sub_of_le (by rwa [hrem]), hrem, hrest]
  case neg =>
    obtain ⟨hquot, hrest⟩ := hdone (Nat.lt_of_not_le hbig)
    rw [if_neg (mt huge.mp hbig)]
    exact ⟨_, _, rfl, hquot, hrem.trans hrest⟩

-- Full cent precision division.
theorem udivmod_full (h1 : c1.hi ≠ 0) (h2 : c2.hi ≠ 0) : Divides c1 c2 (udivmod c1 c2) := by
  have hpos : 0 < c2.toNat := lt_of_lt_of_le (by decide) (le_toNat_of_hi h2)
  obtain ⟨bit, hbit, hnorm⟩ := bsr_spec h2
  obtain ⟨shift, hshift⟩ : ∃ shift, shift = 63 - bit := ⟨_, rfl⟩
  rw [← hshift] at hnorm
  have hlt := hnorm.lt
  obtain ⟨hv1, hfirst⟩ := toNat_shl_hi hnorm
  have hu1 : (shr1 c1).hi < (shl c2 shift).hi := by
    have hhalf : (shr1 c1).hi.toNat = c1.hi.toNat / 2 := by
      rw [shr1, BitVec.toNat_ushiftRight, Nat.shiftRight_eq_div_pow]
    have hhi := c1.hi.isLt
    rw [BitVec.lt_def, hhalf]
    omega
  obtain ⟨q1, m, hdiv, hq1, -⟩ := udivmod128_64_spec hu1
  rw [toNat_shr1, hv1] at hq1
  have hquot := toNat_unnormalized hlt hq1
  obtain ⟨hle, hge⟩ := @Limbs.div_leading c1.toNat c2.toNat shift.toNat (63 - shift.toNat) (by
    have hc1 := @toNat_lt c1
    rwa [show 2 * (shift.toNat + (63 - shift.toNat) + 1) = 128 by omega]) (by
    have hpow : 2 ^ (shift.toNat + 2 * (63 - shift.toNat) + 1) * 2 ^ shift.toNat = 2 ^ 63 * 2 ^ 64 := by
      rw [← pow_add, ← pow_add]
      congr 1
      omega
    refine Nat.le_of_mul_le_mul_right (c := 2 ^ shift.toNat) ?_ (Nat.two_pow_pos _)
    calc
      _ = 2 ^ 63 * 2 ^ 64 := hpow
      _ ≤ c2.hi.toNat * 2 ^ shift.toNat * 2 ^ 64 := Nat.mul_le_mul_right _ hnorm.first
      _ = c2.hi.toNat * 2 ^ 64 * 2 ^ shift.toNat := by ring
      _ ≤ c2.toNat * 2 ^ shift.toNat := by
        refine Nat.mul_le_mul_right _ ?_
        rw [toNat_eq]
        exact Nat.le_add_right ..)
  rw [← hquot] at hle hge
  obtain ⟨quotient, hquotient⟩ : ∃ quotient, quotient = shr (shl { lo := q1 } shift) 63 := ⟨_, rfl⟩
  rw [← hquotient] at hle hge
  have hstep : udivmod c1 c2 =
      let q := if tst quotient then dec quotient else quotient
      let rem := sub c1 (mul q c2)
      some (if uge rem c2 then (inc q, sub rem c2) else (q, rem)) := by
    rw [udivmod, (tst_iff).mpr hpos.ne', if_neg (by decide), if_neg (fun h => h1 h.1), if_neg h1, if_neg h2, hbit]
    simp only [Option.bind_eq_bind, Option.bind_some, ← hshift, hdiv, ← hquotient]
    rfl
  rw [hstep]
  dsimp only
  by_cases htst : tst quotient = true
  case pos =>
    rw [if_pos htst]
    have hdec := toNat_dec_of_tst htst
    have hne := (tst_iff).mp htst
    exact @corrected_quotient c1 c2 (dec quotient) hpos (by omega) (by omega)
  case neg =>
    have hzero : quotient.toNat = 0 := not_not.mp (mt (tst_iff).mpr htst)
    rw [if_neg htst]
    exact @corrected_quotient c1 c2 quotient hpos (by rw [hzero]; exact Nat.zero_le _) (by omega)

theorem udivmod_spec (hne : c2 ≠ Zero) : Divides c1 c2 (udivmod c1 c2) := by
  have hne' : c2.toNat ≠ 0 := fun h => hne (toNat_inj.mp h)
  by_cases h1 : c1.hi = 0 <;> by_cases h2 : c2.hi = 0
  · exact udivmod_single h1 h2 hne'
  · exact udivmod_smaller h1 h2
  · exact udivmod_half h1 h2 hne'
  · exact udivmod_full h1 h2

end udivmod

section divmod

variable {c c1 c2 : Cent}

theorem slt_zero : c.hi.slt 0 = c.toBitVec.msb := by
  have hmsb : c.toBitVec.msb = c.hi.msb := by
    rw [toBitVec, BitVec.msb_append]
    rfl
  rw [hmsb]
  exact BitVec.slt_zero_eq_msb

theorem Divides.toBitVec {r : Option (Cent × Cent)} (h : Divides c1 c2 r) :
    ∃ q m, r = some (q, m) ∧ q.toBitVec = c1.toBitVec / c2.toBitVec ∧ m.toBitVec = c1.toBitVec % c2.toBitVec := by
  obtain ⟨q, m, hr, hq, hm⟩ := h
  refine ⟨q, m, hr, BitVec.eq_of_toNat_eq ?_, BitVec.eq_of_toNat_eq ?_⟩
  · rw [BitVec.toNat_udiv]
    exact hq
  · rw [BitVec.toNat_umod]
    exact hm

theorem neg_ne_zero (h : c ≠ Zero) : neg c ≠ Zero := by
  rw [ne_eq, ← toBitVec_inj] at h ⊢
  rw [neg_toBitVec]
  exact fun hz => h (BitVec.neg_eq_zero_iff.mp hz)

theorem divmod_toBitVec (hne : c2 ≠ Zero) : ∃ q m, divmod c1 c2 = some (q, m) ∧
    q.toBitVec = c1.toBitVec.sdiv c2.toBitVec ∧ m.toBitVec = c1.toBitVec.srem c2.toBitVec := by
  rw [divmod, slt_zero, slt_zero, BitVec.sdiv_eq, BitVec.srem_eq]
  cases hs1 : c1.toBitVec.msb <;> cases hs2 : c2.toBitVec.msb
  case false.false =>
    exact (udivmod_spec hne).toBitVec
  case false.true =>
    obtain ⟨q, m, hr, hq, hm⟩ := (@udivmod_spec c1 _ (neg_ne_zero hne)).toBitVec
    rw [neg_toBitVec] at hq hm
    refine ⟨neg q, m, ?_, ?_, hm⟩
    · simp [hr]
    · rw [neg_toBitVec, hq]
      rfl
  case true.false =>
    obtain ⟨q, m, hr, hq, hm⟩ := (@udivmod_spec (neg c1) _ hne).toBitVec
    rw [neg_toBitVec] at hq hm
    refine ⟨neg q, neg m, ?_, ?_, ?_⟩
    · simp [hr]
    · rw [neg_toBitVec, hq]
      rfl
    · rw [neg_toBitVec, hm]
  case true.true =>
    obtain ⟨q, m, hr, hq, hm⟩ := (@udivmod_spec (neg c1) _ (neg_ne_zero hne)).toBitVec
    rw [neg_toBitVec, neg_toBitVec] at hq hm
    refine ⟨q, neg m, ?_, hq, ?_⟩
    · simp [hr]
    · rw [neg_toBitVec, hm]

end divmod

-- The division of 128 bit values, unsigned and signed.
theorem division_exact (c1 c2 : Cent) (hne : c2 ≠ Zero) :
    (∃ q m, udivmod c1 c2 = some (q, m) ∧ q.toNat = c1.toNat / c2.toNat ∧ m.toNat = c1.toNat % c2.toNat) ∧
    ∃ q m, divmod c1 c2 = some (q, m) ∧
      (if c1.toInt = -2 ^ 127 ∧ c2.toInt = -1 then q = c1 ∧ m = Zero
      else q.toInt = c1.toInt.tdiv c2.toInt ∧ m.toInt = c1.toInt.tmod c2.toInt) := by
  refine ⟨udivmod_spec hne, ?_⟩
  obtain ⟨q, m, hr, hq, hm⟩ := @divmod_toBitVec c1 c2 hne
  refine ⟨q, m, hr, ?_⟩
  have hrem : m.toInt = c1.toInt.tmod c2.toInt := by
    rw [Cent.toInt, hm, BitVec.toInt_srem]
    rfl
  by_cases hmin : c1.toInt = -2 ^ 127 ∧ c2.toInt = -1
  case pos =>
    have hc1 : c1.toBitVec = BitVec.intMin 128 := BitVec.eq_of_toInt_eq hmin.1
    have hc2 : c2.toBitVec = -1#128 := BitVec.eq_of_toInt_eq hmin.2
    rw [if_pos hmin]
    constructor
    case left => rw [← toBitVec_inj, hq, hc2, hc1, BitVec.intMin_sdiv_neg_one]
    case right =>
      rw [hmin.1, hmin.2] at hrem
      exact toBitVec_inj.mp (BitVec.eq_of_toInt_eq hrem)
  case neg =>
    have hne' : c1.toBitVec ≠ BitVec.intMin 128 ∨ c2.toBitVec ≠ -1#128 := by
      by_contra hboth
      rw [not_or, not_not, not_not] at hboth
      exact hmin ⟨congrArg BitVec.toInt hboth.1, congrArg BitVec.toInt hboth.2⟩
    rw [if_neg hmin]
    refine ⟨?_, hrem⟩
    rw [Cent.toInt, hq, BitVec.toInt_sdiv_of_ne_or_ne _ _ hne']
    rfl

-- The least value divided by two, both with a sign and without.
theorem division_exact_least :
    (⟨2, 0⟩ : Cent) ≠ Zero ∧ ∃ q m, divmod { lo := 0, hi := 1 <<< 63 } { lo := 2 } = some (q, m) ∧
      q.toInt = Int.tdiv (-2 ^ 127) 2 := by
  have hne : (⟨2, 0⟩ : Cent) ≠ Zero := by decide
  obtain ⟨q, m, hr, hq⟩ := (division_exact { lo := 0, hi := 1 <<< 63 } { lo := 2 } hne).2
  exact ⟨hne, q, m, hr, hq.1⟩

end Compiler.Common.Int128
