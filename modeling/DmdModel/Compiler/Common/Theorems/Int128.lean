import DmdModel.Compiler.Common.Int128
import DmdModel.Lib.Limbs

namespace Compiler.Common.Int128

variable {c c1 c2 : Cent} {n : BitVec 32}

namespace Cent

def toBitVec (c : Cent) : BitVec 128 :=
  c.hi ++ c.lo

-- The unsigned and the signed value.
def toNat (c : Cent) : Nat :=
  c.toBitVec.toNat

def toInt (c : Cent) : Int :=
  c.toBitVec.toInt

theorem toNat_eq : c.toNat = c.hi.toNat * 2 ^ 64 + c.lo.toNat := by
  rw [toNat, toBitVec, BitVec.toNat_append, ← Nat.shiftLeft_add_eq_or_of_lt c.lo.isLt, Nat.shiftLeft_eq]

theorem toNat_lt : c.toNat < 2 ^ 128 :=
  c.toBitVec.isLt

theorem toBitVec_inj : c1.toBitVec = c2.toBitVec ↔ c1 = c2 := by
  refine ⟨fun h => ?_, congrArg _⟩
  have hnat := congrArg BitVec.toNat h
  change c1.toNat = c2.toNat at hnat
  rw [toNat_eq, toNat_eq] at hnat
  have hlo₁ := c1.lo.isLt
  have hlo₂ := c2.lo.isLt
  obtain ⟨lo₁, hi₁⟩ := c1
  obtain ⟨lo₂, hi₂⟩ := c2
  obtain rfl : hi₁ = hi₂ := BitVec.eq_of_toNat_eq (by dsimp only at *; omega)
  obtain rfl : lo₁ = lo₂ := BitVec.eq_of_toNat_eq (by dsimp only at *; omega)
  rfl

theorem toNat_inj : c1.toNat = c2.toNat ↔ c1 = c2 := by
  rw [← toBitVec_inj, ← BitVec.toNat_inj, toNat, toNat]

theorem toInt_eq : c.toInt = c.hi.toInt * 2 ^ 64 + c.lo.toNat := by
  have hnat := @toNat_eq c
  have hhi := c.hi.isLt
  have hlo := c.lo.isLt
  rw [toInt, BitVec.toInt_eq_toNat_cond, BitVec.toInt_eq_toNat_cond]
  change (if 2 * c.toNat < _ then (c.toNat : Int) else (c.toNat : Int) - _) = _
  split_ifs <;> omega

end Cent

open Cent

-- A pair with this value is the result, whatever it is made of.
theorem toBitVec_eq_of_toNat {v : BitVec 128} (h : c.toNat = v.toNat) : c.toBitVec = v :=
  BitVec.eq_of_toNat_eq h

section ring

theorem neg_toBitVec : (neg c).toBitVec = -c.toBitVec := by
  apply toBitVec_eq_of_toNat
  have hhi := c.hi.isLt
  have hlo := c.lo.isLt
  rw [BitVec.toNat_neg, ← Cent.toNat, toNat_eq, toNat_eq, neg]
  split_ifs with h
  case pos =>
    simp only [BitVec.toNat_neg, h, BitVec.ofNat_eq_ofNat, BitVec.toNat_ofNat]
    omega
  case neg =>
    have hne : c.lo.toNat ≠ 0 := fun hz => h (BitVec.eq_of_toNat_eq hz)
    simp only [BitVec.toNat_neg, BitVec.toNat_not]
    omega

theorem add_toBitVec : (add c1 c2).toBitVec = c1.toBitVec + c2.toBitVec := by
  apply toBitVec_eq_of_toNat
  have hlo₁ := c1.lo.isLt
  have hlo₂ := c2.lo.isLt
  rw [BitVec.toNat_add, ← Cent.toNat, ← Cent.toNat, toNat_eq, toNat_eq, toNat_eq, add]
  simp only [BitVec.lt_def]
  split_ifs with h <;> simp only [BitVec.toNat_add, BitVec.ofNat_eq_ofNat, BitVec.toNat_ofNat] at h ⊢ <;> omega

theorem sub_toBitVec : (sub c1 c2).toBitVec = c1.toBitVec - c2.toBitVec := by
  rw [sub, add_toBitVec, neg_toBitVec, BitVec.sub_eq_add_neg]

theorem toNat_and_mulmask (x : BitVec 64) : (x &&& mulmask).toNat = x.toNat % 2 ^ 32 := by
  rw [BitVec.toNat_and, ← Nat.and_two_pow_sub_one_eq_mod]
  rfl

theorem toNat_ushiftRight_mulshift (x : BitVec 64) : (x >>> mulshift).toNat = x.toNat / 2 ^ 32 := by
  rw [BitVec.toNat_ushiftRight, Nat.shiftRight_eq_div_pow]
  rfl

-- Half a word.
def Half (x : BitVec 64) : Prop :=
  x.toNat < 2 ^ 32

theorem half_and_mulmask (x : BitVec 64) : Half (x &&& mulmask) := by
  rw [Half, toNat_and_mulmask]
  exact Nat.mod_lt _ (by decide)

theorem half_ushiftRight (x : BitVec 64) : Half (x >>> mulshift) := by
  have hx := x.isLt
  rw [Half, toNat_ushiftRight_mulshift]
  omega

section Half

variable {x y u v : BitVec 64}

theorem Half.mul_le (hx : Half x) (hy : Half y) : x.toNat * y.toNat ≤ (2 ^ 32 - 1) * (2 ^ 32 - 1) :=
  Nat.mul_le_mul (Nat.le_sub_one_of_lt hx) (Nat.le_sub_one_of_lt hy)

theorem Half.toNat_mul (hx : Half x) (hy : Half y) : (x * y).toNat = x.toNat * y.toNat := by
  have hmul := hx.mul_le hy
  rw [BitVec.toNat_mul]
  omega

-- A partial product and two carries fit in an accumulator.
theorem Half.toNat_mul_add (hx : Half x) (hy : Half y) (hu : Half u) :
    (x * y + u).toNat = x.toNat * y.toNat + u.toNat := by
  have hmul := hx.mul_le hy
  rw [Half] at hu
  rw [BitVec.toNat_add, hx.toNat_mul hy]
  omega

theorem Half.toNat_mul_add_add (hx : Half x) (hy : Half y) (hu : Half u) (hv : Half v) :
    (x * y + u + v).toNat = x.toNat * y.toNat + u.toNat + v.toNat := by
  have hmul := hx.mul_le hy
  rw [Half] at hu hv
  rw [BitVec.toNat_add, hx.toNat_mul_add hy hu]
  omega

-- A word from its halves.
theorem toNat_word (x y : BitVec 64) :
    ((x &&& mulmask) + (y &&& mulmask) * (mulmask + 1)).toNat = y.toNat % 2 ^ 32 * 2 ^ 32 + x.toNat % 2 ^ 32 := by
  have hone : (mulmask + 1).toNat = 2 ^ 32 := rfl
  rw [BitVec.toNat_add, BitVec.toNat_mul, hone, toNat_and_mulmask, toNat_and_mulmask]
  omega

end Half

theorem toNat_eq_words : c.toNat =
    (((c.hi >>> mulshift).toNat * 2 ^ 32 + (c.hi &&& mulmask).toNat) * 2 ^ 32 +
      (c.lo >>> mulshift).toNat) * 2 ^ 32 + (c.lo &&& mulmask).toNat := by
  rw [toNat_eq, toNat_and_mulmask, toNat_and_mulmask, toNat_ushiftRight_mulshift, toNat_ushiftRight_mulshift]
  omega

theorem toNat_of_words (r s t u : BitVec 64) :
    Cent.toNat {
      lo := (r &&& mulmask) + (s &&& mulmask) * (mulmask + 1)
      hi := (t &&& mulmask) + (u &&& mulmask) * (mulmask + 1)
    } = ((u.toNat % 2 ^ 32 * 2 ^ 32 + t.toNat % 2 ^ 32) * 2 ^ 32 + s.toNat % 2 ^ 32) * 2 ^ 32 +
      r.toNat % 2 ^ 32 := by
  rw [toNat_eq]
  dsimp only
  rw [toNat_word r s, toNat_word t u]
  omega

theorem mul_toBitVec : (mul c1 c2).toBitVec = c1.toBitVec * c2.toBitVec := by
  apply toBitVec_eq_of_toNat
  have hlow := half_and_mulmask
  have hhigh := half_ushiftRight
  have hrest := toNat_and_mulmask
  have hcarry := toNat_ushiftRight_mulshift
  rw [BitVec.toNat_mul, ← Cent.toNat, ← Cent.toNat]
  unfold mul
  extract_lets b₀ b₁ b₂ b₃ a₀ r₀ r₁ r₂ r₃ a₁ s₁ s₂ s₃ a₂ t₂ t₃ a₃ u₃
  have hr₀ : r₀.toNat = a₀.toNat * b₀.toNat := (hlow _).toNat_mul (hlow _)
  have hr₁ : r₁.toNat = a₀.toNat * b₁.toNat + r₀.toNat / 2 ^ 32 :=
    hcarry r₀ ▸ (hlow _).toNat_mul_add (hhigh _) (hhigh _)
  have hr₂ : r₂.toNat = a₀.toNat * b₂.toNat + r₁.toNat / 2 ^ 32 :=
    hcarry r₁ ▸ (hlow _).toNat_mul_add (hlow _) (hhigh _)
  have hr₃ : r₃.toNat = a₀.toNat * b₃.toNat + r₂.toNat / 2 ^ 32 :=
    hcarry r₂ ▸ (hlow _).toNat_mul_add (hhigh _) (hhigh _)
  have hs₁ : s₁.toNat = a₁.toNat * b₀.toNat + r₁.toNat % 2 ^ 32 :=
    hrest r₁ ▸ (hhigh _).toNat_mul_add (hlow _) (hlow _)
  have hs₂ : s₂.toNat = a₁.toNat * b₁.toNat + r₂.toNat % 2 ^ 32 + s₁.toNat / 2 ^ 32 :=
    hrest r₂ ▸ hcarry s₁ ▸ (hhigh _).toNat_mul_add_add (hhigh _) (hlow _) (hhigh _)
  have hs₃ : s₃.toNat = a₁.toNat * b₂.toNat + r₃.toNat % 2 ^ 32 + s₂.toNat / 2 ^ 32 :=
    hrest r₃ ▸ hcarry s₂ ▸ (hhigh _).toNat_mul_add_add (hlow _) (hlow _) (hhigh _)
  have ht₂ : t₂.toNat = a₂.toNat * b₀.toNat + s₂.toNat % 2 ^ 32 :=
    hrest s₂ ▸ (hlow _).toNat_mul_add (hlow _) (hlow _)
  have ht₃ : t₃.toNat = a₂.toNat * b₁.toNat + s₃.toNat % 2 ^ 32 + t₂.toNat / 2 ^ 32 :=
    hrest s₃ ▸ hcarry t₂ ▸ (hlow _).toNat_mul_add_add (hhigh _) (hlow _) (hhigh _)
  have hu₃ : u₃.toNat = a₃.toNat * b₀.toNat + t₃.toNat % 2 ^ 32 :=
    hrest t₃ ▸ (hhigh _).toNat_mul_add (hlow _) (hlow _)
  have hrows := Limbs.product_rows (Nat.two_pow_pos 32) hr₀ hr₁ hr₂ hr₃ hs₁ hs₂ hs₃ ht₂ ht₃ hu₃
  have hpow : (2 ^ 32) ^ 4 = 2 ^ 128 := by norm_num
  rw [← toNat_eq_words, ← toNat_eq_words, hpow] at hrows
  clear hr₀ hr₁ hr₂ hr₃ hs₁ hs₂ hs₃ ht₂ ht₃ hu₃
  clear_value u₃ t₂ s₁ r₀
  rw [← hrows]
  exact toNat_of_words r₀ s₁ t₂ u₃

end ring

section shifts

theorem ge_128 : n ≥ 128 ↔ 128 ≤ n.toNat :=
  Iff.rfl

theorem ge_64 : n ≥ 64 ↔ 64 ≤ n.toNat :=
  Iff.rfl

theorem toNat_sub_64 (h : 64 ≤ n.toNat) : (n - 64).toNat = n.toNat - 64 :=
  BitVec.toNat_sub_of_le h

-- The shift by what is left of a word, in two steps as it may be the width of the word.
theorem toNat_rest (h : n.toNat < 64) : (64 - n - 1).toNat + 1 = 64 - n.toNat := by
  bv_omega

theorem shl_toBitVec : (shl c n).toBitVec = c.toBitVec <<< n.toNat := by
  simp only [shl, ge_128, ge_64]
  split_ifs with h128 h64
  case pos =>
    rw [BitVec.shiftLeft_eq_zero (by omega)]
    rfl
  case pos =>
    obtain ⟨k, hk⟩ := Nat.exists_eq_add_of_le h64
    rw [toBitVec, toBitVec, hk, Limbs.append_shiftLeft_add, BitVec.shiftLeft_eq', toNat_sub_64 h64,
      hk, Nat.add_sub_cancel_left]
    rfl
  case neg =>
    rw [toBitVec, toBitVec, Limbs.append_shiftLeft _ _ (by omega), ← toNat_rest (by omega), BitVec.shiftRight_add]
    rfl

theorem shr_toBitVec : (shr c n).toBitVec = c.toBitVec >>> n.toNat := by
  simp only [shr, ge_128, ge_64]
  split_ifs with h128 h64
  case pos =>
    rw [BitVec.ushiftRight_eq_zero (by omega)]
    rfl
  case pos =>
    obtain ⟨k, hk⟩ := Nat.exists_eq_add_of_le h64
    rw [toBitVec, toBitVec, hk, Limbs.append_ushiftRight_add, BitVec.ushiftRight_eq', toNat_sub_64 h64,
      hk, Nat.add_sub_cancel_left]
    rfl
  case neg =>
    rw [toBitVec, toBitVec, Limbs.append_ushiftRight _ _ (by omega), ← toNat_rest (by omega), BitVec.shiftLeft_add]
    rfl

theorem ge_128_sub (h : ¬128 ≤ n.toNat) : 128 ≤ (128 - n).toNat ↔ n.toNat = 0 := by
  bv_omega

theorem ge_64_sub (h : ¬128 ≤ n.toNat) : 128 - n ≥ 64 ↔ n.toNat ≤ 64 := by
  rw [ge_iff_le, BitVec.le_def]
  bv_omega

theorem toNat_128_sub (h : ¬128 ≤ n.toNat) : (128 - n).toNat = 128 - n.toNat := by
  bv_omega

theorem toNat_128_sub_64 (h : n.toNat ≤ 64) : (128 - n - 64).toNat = 64 - n.toNat := by
  bv_omega

theorem sar_toBitVec : (sar c n).toBitVec = c.toBitVec.sshiftRight n.toNat := by
  have hsign : -(c.hi >>> (Ubits - 1)) = c.hi.sshiftRight 64 := Limbs.neg_ushiftRight_last c.hi (by decide)
  simp only [sar, hsign, ge_128]
  by_cases h128 : 128 ≤ n.toNat
  case pos =>
    obtain ⟨k, hk⟩ := Nat.exists_eq_add_of_le (show 64 ≤ n.toNat by omega)
    rw [if_pos h128, toBitVec, toBitVec, hk, Limbs.append_sshiftRight_add _ _ (by decide),
      Limbs.sshiftRight_of_le c.hi (show 64 ≤ k by omega)]
  case neg =>
    rw [if_neg h128]
    simp only [ge_128_sub h128, ge_64_sub h128]
    by_cases h0 : n.toNat = 0
    case pos =>
      rw [if_pos h0, shr_toBitVec, h0, BitVec.ushiftRight_zero, BitVec.sshiftRight_zero]
    case neg =>
      rw [if_neg h0]
      simp only [shr, ge_128, ge_64, if_neg h128]
      by_cases h64 : 64 ≤ n.toNat
      case neg =>
        rw [if_neg h64, if_pos (by omega), toBitVec, toBitVec, Limbs.append_sshiftRight _ _ (by omega),
          ← toNat_rest (by omega), BitVec.shiftLeft_add]
        dsimp only
        rw [BitVec.shiftLeft_eq', BitVec.shiftLeft_eq', toNat_128_sub_64 (by omega), BitVec.ushiftRight_eq',
          Limbs.fill_ushiftRight c.hi (by omega)]
        rfl
      case pos =>
        obtain ⟨k, hk⟩ := Nat.exists_eq_add_of_le h64
        have hsub : (n - 64).toNat = k := by rw [toNat_sub_64 h64, hk, Nat.add_sub_cancel_left]
        rw [if_pos h64, toBitVec, toBitVec, hk, Limbs.append_sshiftRight_add _ _ (by decide)]
        by_cases hlast : k = 0
        case pos =>
          subst hlast
          rw [if_pos (by omega)]
          dsimp only
          rw [BitVec.shiftLeft_eq', BitVec.shiftLeft_eq', toNat_128_sub_64 (by omega), hk, BitVec.ushiftRight_eq',
            hsub]
          simp
        case neg =>
          rw [if_neg (by omega)]
          dsimp only
          rw [BitVec.shiftLeft_eq', BitVec.shiftLeft_eq', toNat_128_sub h128, BitVec.ushiftRight_eq', hsub, hk,
            Nat.add_sub_add_left 64 64 k, Limbs.fill_ushiftRight c.hi (by omega)]

end shifts

section rotations

theorem or_toBitVec : (or c1 c2).toBitVec = c1.toBitVec ||| c2.toBitVec :=
  BitVec.or_append.symm

theorem toNat_and_127 : (n &&& 127).toNat = n.toNat % 128 := by
  rw [BitVec.toNat_and, ← Nat.and_two_pow_sub_one_eq_mod n.toNat 7]
  rfl

theorem rol_toBitVec : (rol c n).toBitVec = c.toBitVec.rotateLeft (n.toNat % 128) := by
  have hmod := Nat.mod_lt n.toNat (show 0 < 128 by decide)
  simp only [rol, or_toBitVec, shl_toBitVec, shr_toBitVec, toNat_and_127,
    toNat_128_sub (show ¬128 ≤ (n &&& 127).toNat by rw [toNat_and_127]; omega)]
  rw [BitVec.rotateLeft_def, Nat.mod_mod]

theorem ror_toBitVec : (ror c n).toBitVec = c.toBitVec.rotateRight (n.toNat % 128) := by
  have hmod := Nat.mod_lt n.toNat (show 0 < 128 by decide)
  simp only [ror, or_toBitVec, shl_toBitVec, shr_toBitVec, toNat_and_127,
    toNat_128_sub (show ¬128 ≤ (n &&& 127).toNat by rw [toNat_and_127]; omega)]
  rw [BitVec.rotateRight_def, Nat.mod_mod]

end rotations

section comparisons

theorem ugt_iff : ugt c1 c2 = decide (c2.toNat < c1.toNat) := by
  have hlo₁ := c1.lo.isLt
  have hlo₂ := c2.lo.isLt
  rw [ugt, toNat_eq, toNat_eq]
  simp only [gt_iff_lt, BitVec.lt_def, ← BitVec.toNat_inj]
  split_ifs <;> simp only [decide_eq_decide] <;> omega

theorem gt_iff : gt c1 c2 = decide (c2.toInt < c1.toInt) := by
  have hlo₁ := c1.lo.isLt
  have hlo₂ := c2.lo.isLt
  rw [gt, toInt_eq, toInt_eq]
  simp only [gt_iff_lt, BitVec.lt_def, ← BitVec.toInt_inj, BitVec.slt_eq_decide]
  split_ifs <;> simp only [decide_eq_decide] <;> omega

end comparisons

section values

theorem toNat_shl : (shl c n).toNat = c.toNat * 2 ^ n.toNat % 2 ^ 128 := by
  rw [Cent.toNat, shl_toBitVec, BitVec.toNat_shiftLeft, Nat.shiftLeft_eq, Cent.toNat]

theorem toNat_shr : (shr c n).toNat = c.toNat / 2 ^ n.toNat := by
  rw [Cent.toNat, shr_toBitVec, BitVec.toNat_ushiftRight, Nat.shiftRight_eq_div_pow, Cent.toNat]

theorem toInt_sar : (sar c n).toInt = c.toInt / 2 ^ n.toNat := by
  rw [toInt, sar_toBitVec, BitVec.toInt_sshiftRight, Int.shiftRight_eq_div_pow, toInt]
  norm_cast

theorem toInt_neg_iff : c.toInt < 0 ↔ c.hi.msb = true := by
  have hmsb : c.toBitVec.msb = c.hi.msb := by
    rw [toBitVec, BitVec.msb_append]
    rfl
  rw [← hmsb, BitVec.msb_eq_toInt, decide_eq_true_eq]
  rfl

theorem sar_of_le (h : 128 ≤ n.toNat) : sar c n = if c.toInt < 0 then MinusOne else Zero := by
  simp only [sar, ge_128, if_pos h, toInt_neg_iff]
  have hlast := Limbs.ushiftRight_last c.hi (by decide)
  rw [Ubits, hlast]
  split_ifs <;> rfl

theorem ror_rol : ror (rol c n) n = c := by
  rw [← toBitVec_inj, ror_toBitVec, rol_toBitVec, Limbs.rotateRight_rotateLeft _ (Nat.mod_lt _ (by decide))]

theorem rol_ror : rol (ror c n) n = c := by
  rw [← toBitVec_inj, rol_toBitVec, ror_toBitVec, Limbs.rotateLeft_rotateRight _ (Nat.mod_lt _ (by decide))]

end values

-- The operations on two limbs are the ones of 128 bit words and of their values.
theorem operations_exact (c c1 c2 : Cent) (n : BitVec 32) :
    ((neg c).toBitVec = -c.toBitVec ∧ (add c1 c2).toBitVec = c1.toBitVec + c2.toBitVec ∧
      (sub c1 c2).toBitVec = c1.toBitVec - c2.toBitVec ∧ (mul c1 c2).toBitVec = c1.toBitVec * c2.toBitVec) ∧
    ((shl c n).toNat = c.toNat * 2 ^ n.toNat % 2 ^ 128 ∧ (shr c n).toNat = c.toNat / 2 ^ n.toNat ∧
      (sar c n).toInt = c.toInt / 2 ^ n.toNat ∧
      (n ≥ 128 → shl c n = Zero ∧ shr c n = Zero ∧ sar c n = if c.toInt < 0 then MinusOne else Zero)) ∧
    ((rol c n).toBitVec = c.toBitVec.rotateLeft (n.toNat % 128) ∧
      (ror c n).toBitVec = c.toBitVec.rotateRight (n.toNat % 128) ∧
      ror (rol c n) n = c ∧ rol (ror c n) n = c) ∧
    ((ugt c1 c2 ↔ c1.toNat > c2.toNat) ∧ (uge c1 c2 ↔ c1.toNat ≥ c2.toNat) ∧
      (ult c1 c2 ↔ c1.toNat < c2.toNat) ∧ (ule c1 c2 ↔ c1.toNat ≤ c2.toNat)) ∧
    ((gt c1 c2 ↔ c1.toInt > c2.toInt) ∧ (ge c1 c2 ↔ c1.toInt ≥ c2.toInt) ∧
      (lt c1 c2 ↔ c1.toInt < c2.toInt) ∧ (le c1 c2 ↔ c1.toInt ≤ c2.toInt)) := by
  refine ⟨⟨neg_toBitVec, add_toBitVec, sub_toBitVec, mul_toBitVec⟩,
    ⟨toNat_shl, toNat_shr, toInt_sar, fun h => ⟨?_, ?_, sar_of_le h⟩⟩,
    ⟨rol_toBitVec, ror_toBitVec, ror_rol, rol_ror⟩, ?_, ?_⟩
  · rw [shl, if_pos h]
  · rw [shr, if_pos h]
  · simp [uge, ult, ule, ugt_iff]
  · simp [ge, lt, le, gt_iff]

end Compiler.Common.Int128
