import Mathlib

-- Narrow words that are kept in wider ones, and what is computed on the wider ones.

namespace NarrowWords

variable {w m : Nat} {x y : BitVec w} {u v : BitVec m} {n : Nat}

-- The wide word for a narrow one, with zeros in front or with the sign.
def extend (m : Nat) (unsigned : Bool) (x : BitVec w) : BitVec m :=
  if unsigned then x.setWidth m else x.signExtend m

section extensions

theorem setWidth_setWidth_of_le (h : w ≤ m) : (x.setWidth m).setWidth w = x := by
  rw [BitVec.setWidth_setWidth_of_le _ h, BitVec.setWidth_eq]

theorem setWidth_signExtend (h : w ≤ m) : (x.signExtend m).setWidth w = x := by
  apply BitVec.eq_of_getLsbD_eq
  intro i hi
  rw [BitVec.getLsbD_setWidth, BitVec.getLsbD_signExtend]
  simp [hi, show i < m by omega]

theorem setWidth_signExtend_of_le {k : Nat} (hk : k ≤ w) (h : w ≤ m) :
    (x.signExtend m).setWidth k = x.setWidth k := by
  rw [← BitVec.setWidth_setWidth_of_le _ hk, setWidth_signExtend h]

-- The lowest bits of a word
theorem and_mask {k : Nat} (hk : k ≤ m) : u &&& BitVec.ofNat m (2 ^ k - 1) = (u.setWidth k).setWidth m := by
  have hpow : 2 ^ k ≤ 2 ^ m := Nat.pow_le_pow_right Nat.two_pos hk
  have hpos : 0 < 2 ^ k := Nat.two_pow_pos k
  apply BitVec.eq_of_toNat_eq
  rw [BitVec.toNat_and, BitVec.toNat_ofNat, Nat.mod_eq_of_lt (by omega), Nat.and_two_pow_sub_one_eq_mod,
    BitVec.toNat_setWidth_of_le hk, BitVec.toNat_setWidth]

theorem setWidth_extend (h : w ≤ m) (unsigned : Bool) : (extend m unsigned x).setWidth w = x := by
  cases unsigned
  case false => exact setWidth_signExtend h
  case true  => exact setWidth_setWidth_of_le h

theorem extend_inj (h : w ≤ m) {unsigned : Bool} : extend m unsigned x = extend m unsigned y ↔ x = y := by
  refine ⟨fun heq => ?_, congrArg _⟩
  rw [← setWidth_extend h unsigned (x := x), heq, setWidth_extend h]

end extensions

section arithmetic

-- The lower part of a wide word, as an integer.
theorem toInt_setWidth (h : w ≤ m) : (u.setWidth w).toInt = u.toInt.bmod (2 ^ w) := by
  rw [BitVec.toInt_setWidth, BitVec.toInt_eq_toNat_bmod, Int.bmod_bmod_of_dvd (by exact_mod_cast Nat.pow_dvd_pow 2 h)]

theorem setWidth_pow (h : w ≤ m) : (u ^ n).setWidth w = u.setWidth w ^ n := by
  induction n
  case zero =>
    apply BitVec.eq_of_toNat_eq
    rw [pow_zero, pow_zero, BitVec.toNat_setWidth]
    exact Nat.mod_mod_of_dvd _ (Nat.pow_dvd_pow 2 h)
  case succ k ih =>
    rw [pow_succ, pow_succ, BitVec.setWidth_mul _ _ h, ih]

theorem setWidth_udiv (h : w ≤ m) : (x.setWidth m / y.setWidth m).setWidth w = x / y := by
  apply BitVec.eq_of_toNat_eq
  have hlt := lt_of_le_of_lt (Nat.div_le_self x.toNat y.toNat) x.isLt
  rw [BitVec.toNat_setWidth, BitVec.toNat_udiv, BitVec.toNat_udiv, BitVec.toNat_setWidth_of_le h,
    BitVec.toNat_setWidth_of_le h, Nat.mod_eq_of_lt hlt]

theorem setWidth_umod (h : w ≤ m) : (x.setWidth m % y.setWidth m).setWidth w = x % y := by
  apply BitVec.eq_of_toNat_eq
  have hlt := lt_of_le_of_lt (Nat.mod_le x.toNat y.toNat) x.isLt
  rw [BitVec.toNat_setWidth, BitVec.toNat_umod, BitVec.toNat_umod, BitVec.toNat_setWidth_of_le h,
    BitVec.toNat_setWidth_of_le h, Nat.mod_eq_of_lt hlt]

theorem setWidth_sdiv (h : w ≤ m) : ((x.signExtend m).sdiv (y.signExtend m)).setWidth w = x.sdiv y := by
  apply BitVec.eq_of_toInt_eq
  rw [toInt_setWidth h, BitVec.toInt_sdiv, BitVec.toInt_sdiv, BitVec.toInt_signExtend_of_le h,
    BitVec.toInt_signExtend_of_le h, Int.bmod_bmod_of_dvd (by exact_mod_cast Nat.pow_dvd_pow 2 h)]

theorem setWidth_srem (h : w ≤ m) : ((x.signExtend m).srem (y.signExtend m)).setWidth w = x.srem y := by
  apply BitVec.eq_of_toInt_eq
  rw [toInt_setWidth h, BitVec.toInt_srem, BitVec.toInt_signExtend_of_le h, BitVec.toInt_signExtend_of_le h,
    ← BitVec.toInt_srem, BitVec.toInt_bmod_cancel]

end arithmetic

section shifts

theorem setWidth_sshiftRight (h : w ≤ m) : ((x.signExtend m).sshiftRight n).setWidth w = x.sshiftRight n := by
  apply BitVec.eq_of_toInt_eq
  rw [toInt_setWidth h, BitVec.toInt_sshiftRight, BitVec.toInt_signExtend_of_le h, ← BitVec.toInt_sshiftRight,
    BitVec.toInt_bmod_cancel]

theorem setWidth_ushiftRight (h : w ≤ m) : (x.setWidth m >>> n).setWidth w = x >>> n := by
  apply BitVec.eq_of_toNat_eq
  have hlt := (x >>> n).isLt
  rw [BitVec.toNat_setWidth, BitVec.toNat_ushiftRight, BitVec.toNat_setWidth_of_le h, ← BitVec.toNat_ushiftRight,
    Nat.mod_eq_of_lt hlt]

-- An unsigned word in a signed one that is wider.
theorem setWidth_sshiftRight_of_lt (h : w < m) : ((x.setWidth m).sshiftRight n).setWidth w = x >>> n := by
  have hmsb : (x.setWidth m).msb = false := by
    rw [BitVec.msb_eq_decide, BitVec.toNat_setWidth_of_le h.le, decide_eq_false_iff_not, not_le]
    exact x.isLt.trans_le (Nat.pow_le_pow_right Nat.two_pos (by omega))
  rw [BitVec.sshiftRight_eq_of_msb_false hmsb, setWidth_ushiftRight h.le]

variable {k : Nat}

-- A narrow word that is promoted to a wider one before the shift, and extended after it.
theorem promoted_sshiftRight (hw : w ≤ k) (h : k ≤ m) :
    (((x.signExtend k).sshiftRight n).signExtend m).setWidth w = x.sshiftRight n := by
  rw [setWidth_signExtend_of_le hw h, setWidth_sshiftRight hw]

theorem promoted_ushiftRight (hw : w < k) (h : k ≤ m) :
    (((x.setWidth k).sshiftRight n).signExtend m).setWidth w = x >>> n := by
  rw [setWidth_signExtend_of_le hw.le h, setWidth_sshiftRight_of_lt hw]

theorem masked_ushiftRight (h : w ≤ m) (hu : u.setWidth w = x) :
    ((u &&& BitVec.ofNat m (2 ^ w - 1)) >>> n).setWidth w = x >>> n := by
  rw [and_mask h, hu, setWidth_ushiftRight h]

end shifts

end NarrowWords

-- A product that is only known modulo some number, and its quotient by one of the factors.

namespace WrappedProduct

variable {x y r m : Int}

theorem eq_zero_of_dvd (h : m ∣ x) (hlt : |x| < m) : x = 0 := by
  by_contra hne
  have hle := Int.le_of_dvd (abs_pos.mpr hne) ((dvd_abs m x).mpr h)
  omega

-- The quotient gives back the factor only if nothing was lost.
theorem tdiv_eq_iff (hx : x ≠ 0) (hm : |x| ≤ m) (h : m ∣ r - x * y) : r.tdiv x = y ↔ r = x * y := by
  constructor
  case mp =>
    intro hquot
    have hrem : r - x * y = r.tmod x := by
      rw [Int.tmod_def, hquot]
    have hlt : |r.tmod x| < |x| := by
      rw [Int.abs_eq_natAbs, Int.abs_eq_natAbs, Int.natAbs_tmod]
      exact_mod_cast Nat.mod_lt _ (Int.natAbs_pos.mpr hx)
    rw [hrem] at h
    have hzero := eq_zero_of_dvd h (hlt.trans_le hm)
    omega
  case mpr =>
    rintro rfl
    exact Int.mul_tdiv_cancel_left _ hx

-- The wrapped product is the other factor.
theorem eq_of_mul_eq (hx : x ≠ 1) (h : x * y = y) : y = 0 := by
  have hmul : (x - 1) * y = 0 := by linarith
  exact (mul_eq_zero.mp hmul).resolve_left (sub_ne_zero.mpr hx)

end WrappedProduct
