import DmdModel.Compiler.Intrange.Theorems.Arithmetic

-- Casts of ranges to the integral types.

namespace Compiler.Intrange

open SignExtendedNumber

namespace IntRange

open Constfold (TY)

variable {r : IntRange} {x y : SignExtendedNumber} {v : uinteger_t} {i lo hi : Int} {k : Nat} {type : TY}

-- The mask of a type that has `k` bits
def ones (k : Nat) : uinteger_t :=
  BitVec.ofNat 64 (2 ^ k - 1)

section masks

theorem getLsbD_ones (hk : k ≤ 64) (n : Nat) : (ones k).getLsbD n = decide (n < k) := by
  rw [ones, BitVec.getLsbD_ofNat, Nat.testBit_two_pow_sub_one]
  simp only [Bool.and_eq_right_iff_imp, decide_eq_true_eq]
  omega

theorem toNat_ones (hk : k ≤ 64) : (ones k).toNat = 2 ^ k - 1 := by
  have hle : 2 ^ k ≤ 2 ^ 64 := Nat.pow_le_pow_right (by decide) hk
  have hpos := Nat.two_pow_pos k
  rw [ones, BitVec.toNat_ofNat]
  exact Nat.mod_eq_of_lt (by omega)

theorem ones_shift (hk : k < 64) : ones (k + 1) >>> 1 = ones k := by
  apply BitVec.eq_of_toNat_eq
  have hpos := Nat.two_pow_pos k
  rw [BitVec.toNat_ushiftRight, toNat_ones hk, toNat_ones hk.le, Nat.shiftRight_eq_div_pow, pow_succ]
  omega

theorem toNat_and_ones (hk : k ≤ 64) : (v &&& ones k).toNat = v.toNat % 2 ^ k := by
  rw [BitVec.toNat_and, toNat_ones hk, Nat.and_two_pow_sub_one_eq_mod]

theorem and_not_ones (hk : k ≤ 64) : v &&& ~~~ones k = v >>> k <<< k := by
  apply BitVec.eq_of_getLsbD_eq
  intro n hn
  rw [BitVec.getLsbD_and, BitVec.getLsbD_not, getLsbD_ones hk, BitVec.getLsbD_shiftLeft, BitVec.getLsbD_ushiftRight]
  by_cases h : n < k
  case pos => simp [h]
  case neg => simp [h, hn, Nat.add_sub_cancel' (not_lt.mp h)]

theorem toNat_and_not_ones (hk : k ≤ 64) : (v &&& ~~~ones k).toNat = v.toNat / 2 ^ k * 2 ^ k := by
  rw [and_not_ones hk, BitVec.toNat_shiftLeft, BitVec.toNat_ushiftRight, Nat.shiftRight_eq_div_pow,
    Nat.shiftLeft_eq]
  exact Nat.mod_eq_of_lt ((Nat.div_mul_le_self _ _).trans_lt v.isLt)

end masks

section chunks

-- Numbers between two ones of a chunk are in the chunk, at places between theirs.
theorem chunk_between {m : Int} (hm : 0 < m) (hlo : lo ≤ i) (hhi : i ≤ hi) (h : lo / m = hi / m) :
    lo % m ≤ i % m ∧ i % m ≤ hi % m := by
  have hge : lo / m ≤ i / m := Int.ediv_le_ediv hm hlo
  have hle : i / m ≤ hi / m := Int.ediv_le_ediv hm hhi
  have hq : i / m = lo / m := by omega
  have hlo' := Int.mul_ediv_add_emod lo m
  have hhi' := Int.mul_ediv_add_emod hi m
  have hi' := Int.mul_ediv_add_emod i m
  rw [← h] at hhi'
  rw [hq] at hi'
  omega

theorem pow_split (hk : k ≤ 64) : (2 : Int) ^ 64 = 2 ^ k * 2 ^ (64 - k) := by
  rw [← pow_add, Nat.add_sub_cancel' hk]

theorem toInt_emod (hk : k ≤ 64) : x.toInt % 2 ^ k = (x.value.toNat % 2 ^ k : Nat) := by
  push_cast
  rw [toInt]
  split_ifs
  case pos => rw [pow_split hk, Int.sub_mul_emod_self_left]
  case neg => rw [sub_zero]

theorem toInt_ediv (hk : k ≤ 64) :
    x.toInt / 2 ^ k = (x.value.toNat / 2 ^ k : Nat) - if x.negative then 2 ^ (64 - k) else 0 := by
  push_cast
  rw [toInt]
  split_ifs
  case pos => rw [pow_split hk, Int.sub_mul_ediv_left _ _ (by positivity)]
  case neg => rw [sub_zero, sub_zero]

end chunks

section unsigned

-- The chunk of a number and its sign are known from the quotient.
theorem chunk_iff (hk : k ≤ 64) : (x.value &&& ~~~ones k = y.value &&& ~~~ones k ∧ x.negative = y.negative) ↔
    x.toInt / 2 ^ k = y.toInt / 2 ^ k := by
  have hpos := Nat.two_pow_pos k
  have hmasked : x.value &&& ~~~ones k = y.value &&& ~~~ones k ↔
      x.value.toNat / 2 ^ k = y.value.toNat / 2 ^ k := by
    rw [← BitVec.toNat_inj, toNat_and_not_ones hk, toNat_and_not_ones hk]
    exact Nat.mul_left_inj hpos.ne'
  have hlt (v : uinteger_t) : v.toNat / 2 ^ k < 2 ^ (64 - k) := by
    refine Nat.div_lt_of_lt_mul ?_
    rw [← pow_add, Nat.add_sub_cancel' hk]
    exact v.isLt
  have hx : ((x.value.toNat / 2 ^ k : Nat) : Int) < 2 ^ (64 - k) := by exact_mod_cast hlt x.value
  have hy : ((y.value.toNat / 2 ^ k : Nat) : Int) < 2 ^ (64 - k) := by exact_mod_cast hlt y.value
  rw [hmasked, toInt_ediv hk, toInt_ediv hk]
  generalize x.value.toNat / 2 ^ k = p at *
  generalize y.value.toNat / 2 ^ k = q at *
  cases x.negative <;> cases y.negative <;> simp
  case false.true | true.false => omega

theorem castUnsigned_toInt (hk : k ≤ 64) :
    ((castUnsigned r (ones k)).imin.toInt, (castUnsigned r (ones k)).imax.toInt) =
      if r.imin.toInt / 2 ^ k = r.imax.toInt / 2 ^ k then (r.imin.toInt % 2 ^ k, r.imax.toInt % 2 ^ k)
      else (0, 2 ^ k - 1) := by
  have hpos := Nat.two_pow_pos k
  simp only [castUnsigned]
  split_ifs with hchunk hquot hquot
  case pos =>
    rw [toInt_emod hk, toInt_emod hk, ← toNat_and_ones hk, ← toNat_and_ones hk, toInt_of_nonneg rfl,
      toInt_of_nonneg rfl]
  case neg => exact absurd ((chunk_iff hk).mp hchunk) hquot
  case pos => exact absurd ((chunk_iff hk).mpr hquot) hchunk
  case neg =>
    rw [toInt_of_nonneg rfl, toInt_of_nonneg rfl, toNat_ones hk, Nat.cast_sub hpos]
    push_cast
    rfl

end unsigned

section signed

-- The start of a chunk and its sign are one number.
theorem halfChunk_spec (hk : k < 64) :
    ((halfChunk x (ones (k + 1))).1.toNat : Int) - (halfChunk x (ones (k + 1))).2 * 2 ^ 64 =
      (x.toInt + 2 ^ k) / 2 ^ (k + 1) * 2 ^ (k + 1) := by
  have hpos := Nat.two_pow_pos k
  have hx := x.value.isLt
  -- The quotient by the half of a chunk decides in which half the number is.
  obtain ⟨q, hq⟩ : ∃ q, q = x.value.toNat / 2 ^ k := ⟨_, rfl⟩
  have hchunk : (x.value &&& ~~~ones k).toNat = q * 2 ^ k := by rw [toNat_and_not_ones hk.le, hq]
  have hodd : (x.value &&& ~~~ones k) &&& ones (k + 1) ≠ 0 ↔ q % 2 = 1 := by
    have hmod : ((x.value &&& ~~~ones k) &&& ones (k + 1)).toNat = q % 2 * 2 ^ k := by
      rw [toNat_and_ones hk, hchunk, pow_succ', Nat.mul_mod_mul_right]
    rw [ne_eq, ← BitVec.toNat_inj, hmod]
    change ¬_ = 0 ↔ _
    rw [Nat.mul_eq_zero]
    omega
  have hright : (x.toInt + 2 ^ k) / 2 ^ (k + 1) * 2 ^ (k + 1) =
      ((q + 1) / 2 * 2 ^ (k + 1) : Nat) - if x.negative then 2 ^ 64 else 0 := by
    have hquot : (x.value.toNat + 2 ^ k) / 2 ^ (k + 1) = (q + 1) / 2 := by
      rw [pow_succ, ← Nat.div_div_eq_div_mul, Nat.add_div_right _ hpos, hq]
    rw [← hquot]
    push_cast
    rw [toInt, sub_add_eq_add_sub]
    split_ifs
    case pos =>
      have hsplit := @pow_split (k + 1) hk
      rw [hsplit, Int.sub_mul_ediv_left _ _ (by positivity), sub_mul, mul_comm (2 ^ (64 - (k + 1))),
        ← hsplit]
      norm_num
    case neg => rw [sub_zero, sub_zero]
  have hbound : q * 2 ^ k + 2 ^ k ≤ 2 ^ 64 := by
    have hlt : q < 2 ^ (64 - k) := by
      rw [hq]
      refine Nat.div_lt_of_lt_mul ?_
      rwa [← pow_add, Nat.add_sub_cancel' hk.le]
    calc
      q * 2 ^ k + 2 ^ k = (q + 1) * 2 ^ k := (Nat.succ_mul ..).symm
      _ ≤ 2 ^ (64 - k) * 2 ^ k := Nat.mul_le_mul_right _ hlt
      _ = 2 ^ 64 := by rw [← pow_add, Nat.sub_add_cancel hk.le]
  rw [hright, halfChunk, ones_shift hk]
  dsimp only
  by_cases h : q % 2 = 1
  case pos =>
    have hup : (q + 1) / 2 * 2 ^ (k + 1) = q * 2 ^ k + 2 ^ k := by
      rw [pow_succ', ← Nat.mul_assoc, Nat.div_mul_cancel (by omega), Nat.succ_mul]
    have hhalf : (ones k + 1).toNat = 2 ^ k := by
      have hle : 2 ^ k ≤ 2 ^ 63 := Nat.pow_le_pow_right (by decide) (by omega)
      rw [BitVec.toNat_add, toNat_ones hk.le]
      change (2 ^ k - 1 + 1) % 2 ^ 64 = _
      omega
    have hsum : (x.value &&& ~~~ones k) + (ones k + 1) = 0 ↔ q * 2 ^ k + 2 ^ k = 2 ^ 64 := by
      rw [← BitVec.toNat_inj, BitVec.toNat_add, hchunk, hhalf]
      change _ = 0 ↔ _
      omega
    rw [if_pos (hodd.mpr h), hup]
    dsimp only
    simp only [hsum, BitVec.toNat_add, hchunk]
    rw [BitVec.toNat_add] at hhalf
    rw [hhalf]
    generalize q * 2 ^ k + 2 ^ k = p at *
    split_ifs <;> omega
  case neg =>
    have hdown : (q + 1) / 2 * 2 ^ (k + 1) = q * 2 ^ k := by
      rw [pow_succ', ← Nat.mul_assoc, show (q + 1) / 2 * 2 = q by omega]
    rw [if_neg (mt hodd.mp h), hdown, hchunk]
    split_ifs <;> omega

theorem halfChunk_iff (hk : k < 64) : halfChunk x (ones (k + 1)) = halfChunk y (ones (k + 1)) ↔
    (x.toInt + 2 ^ k) / 2 ^ (k + 1) = (y.toInt + 2 ^ k) / 2 ^ (k + 1) := by
  have hx := @halfChunk_spec x k hk
  have hy := @halfChunk_spec y k hk
  have hx' := (halfChunk x (ones (k + 1))).1.isLt
  have hy' := (halfChunk y (ones (k + 1))).1.isLt
  constructor
  case mp =>
    intro h
    rw [h, hy] at hx
    exact (mul_right_cancel₀ (by positivity) hx).symm
  case mpr =>
    intro h
    rw [h, ← hy] at hx
    refine Prod.ext (BitVec.eq_of_toNat_eq ?_) ?_ <;> omega

-- The wrapped number, from the chunks that start with the negative numbers
theorem bmod_eq (i : Int) : i.bmod (2 ^ (k + 1)) = (i + 2 ^ k) % 2 ^ (k + 1) - 2 ^ k := by
  have hpos : (0 : Int) < 2 ^ k := by positivity
  have hcast : ((2 ^ (k + 1) : Nat) : Int) = 2 * 2 ^ k := by
    push_cast
    ring
  have hhalf : (2 * 2 ^ k + 1 : Int) / 2 = 2 ^ k := by omega
  have hlow : 0 ≤ i % (2 * 2 ^ k) := Int.emod_nonneg _ (by omega)
  have hhigh : i % (2 * 2 ^ k) < 2 * 2 ^ k := Int.emod_lt_of_pos _ (by omega)
  have hsucc : (2 : Int) ^ (k + 1) = 2 * 2 ^ k := pow_succ' ..
  rw [Int.bmod_eq_emod, hsucc, hcast, hhalf, ← Int.emod_add_emod]
  generalize i % (2 * 2 ^ k) = p at *
  split_ifs with h
  case pos =>
    have hsub : p + 2 ^ k = (p - 2 ^ k) + 2 * 2 ^ k := by ring
    rw [hsub, Int.add_emod_right, Int.emod_eq_of_lt (by omega) (by omega)]
    push_cast
    ring
  case neg =>
    rw [Int.emod_eq_of_lt (by omega) (by omega)]
    ring

theorem xor_half {p : Nat} (hp : p < 2 ^ (k + 1)) : p ^^^ 2 ^ k = if 2 ^ k ≤ p then p - 2 ^ k else p + 2 ^ k := by
  have hpos := Nat.two_pow_pos k
  have hdiv := @Nat.xor_div_two_pow p (2 ^ k) k
  have hmod := @Nat.xor_mod_two_pow p (2 ^ k) k
  have hsplit := Nat.div_add_mod (p ^^^ 2 ^ k) (2 ^ k)
  have hsplit' := Nat.div_add_mod p (2 ^ k)
  rw [Nat.mod_self, Nat.xor_zero] at hmod
  rw [Nat.div_self hpos] at hdiv
  rw [hdiv, hmod] at hsplit
  split_ifs with h
  case pos =>
    have hone : p / 2 ^ k = 1 := by
      refine Nat.div_eq_of_lt_le ?_ ?_
      · rwa [Nat.one_mul]
      · rwa [← pow_succ']
    rw [hone] at hsplit hsplit'
    rw [← hsplit]
    change 2 ^ k * 0 + _ = _
    omega
  case neg =>
    rw [Nat.div_eq_of_lt (not_le.mp h)] at hsplit hsplit'
    rw [← hsplit]
    change 2 ^ k * 1 + _ = _
    omega

theorem toNat_half (hk : k < 64) : (ones k + 1).toNat = 2 ^ k := by
  have hpos := Nat.two_pow_pos k
  have hle : 2 ^ k ≤ 2 ^ 63 := Nat.pow_le_pow_right (by decide) (by omega)
  rw [BitVec.toNat_add, toNat_ones hk.le]
  change (2 ^ k - 1 + 1) % 2 ^ 64 = _
  omega

theorem toInt_signExtend (hk : k < 64) : (signExtend x (ones (k + 1))).toInt = x.toInt.bmod (2 ^ (k + 1)) := by
  have hpos := Nat.two_pow_pos k
  have hle : 2 ^ k ≤ 2 ^ 63 := Nat.pow_le_pow_right (by decide) (by omega)
  have hcast : (2 : Int) ^ k = ((2 ^ k : Nat) : Int) := by push_cast; rfl
  have hsucc : 2 ^ (k + 1) = 2 * 2 ^ k := pow_succ' ..
  obtain ⟨p, hp⟩ : ∃ p, p = x.value.toNat % 2 ^ (k + 1) := ⟨_, rfl⟩
  have hlt : p < 2 ^ (k + 1) := hp ▸ Nat.mod_lt _ (Nat.two_pow_pos _)
  have hvalue : (x.value &&& ones (k + 1)).toNat = p := by rw [toNat_and_ones hk, hp]
  have hsign : (x.value &&& ones (k + 1)) &&& ~~~ones k ≠ 0 ↔ 2 ^ k ≤ p := by
    rw [ne_eq, ← BitVec.toNat_inj, toNat_and_not_ones hk.le, hvalue]
    change ¬_ = 0 ↔ _
    rw [Nat.mul_eq_zero, Nat.div_eq_zero_iff]
    omega
  rw [bmod_eq, ← Int.emod_add_emod, toInt_emod hk, ← hp, signExtend, ones_shift hk, toInt]
  dsimp only
  rw [BitVec.toNat_sub, BitVec.toNat_xor, hvalue, toNat_half hk, xor_half hlt]
  simp only [hsign, decide_eq_true_eq]
  split_ifs with h
  case pos =>
    have hsum : (p : Int) + 2 ^ k = (p - 2 ^ k) + 2 ^ (k + 1) := by ring
    rw [hsum, Int.add_emod_right, Int.emod_eq_of_lt (by omega) (by omega)]
    omega
  case neg =>
    rw [Int.emod_eq_of_lt (by omega) (by omega)]
    omega

theorem castSigned_toInt (hk : k < 64) :
    ((castSigned r (ones (k + 1))).imin.toInt, (castSigned r (ones (k + 1))).imax.toInt) =
      if (r.imin.toInt + 2 ^ k) / 2 ^ (k + 1) = (r.imax.toInt + 2 ^ k) / 2 ^ (k + 1) then
        (r.imin.toInt.bmod (2 ^ (k + 1)), r.imax.toInt.bmod (2 ^ (k + 1)))
      else (-2 ^ k, 2 ^ k - 1) := by
  have hpos := Nat.two_pow_pos k
  have hle : 2 ^ k ≤ 2 ^ 64 := Nat.pow_le_pow_right (by decide) hk.le
  rw [castSigned]
  simp only [halfChunk_iff hk]
  split_ifs
  case pos => rw [toInt_signExtend hk, toInt_signExtend hk]
  case neg =>
    rw [toInt_of_negative rfl, toInt_of_nonneg rfl]
    dsimp only
    rw [ones_shift hk, BitVec.toNat_not, toNat_ones hk.le]
    have hcast : ((2 ^ k - 1 : Nat) : Int) = 2 ^ k - 1 := by rw [Nat.cast_sub hpos]; push_cast; rfl
    refine Prod.ext ?_ hcast
    dsimp only
    omega

end signed

section exactness

theorem castUnsigned_range (hk : k ≤ 64) :
    0 ≤ (castUnsigned r (ones k)).imin.toInt ∧ (castUnsigned r (ones k)).imax.toInt ≤ 2 ^ k - 1 := by
  have hpos : (0 : Int) < 2 ^ k := by positivity
  have hresult := @castUnsigned_toInt r k hk
  split_ifs at hresult with h <;> rw [Prod.mk.injEq] at hresult <;> rw [hresult.1, hresult.2]
  case pos => exact ⟨Int.emod_nonneg _ hpos.ne', Int.le_sub_one_of_lt (Int.emod_lt_of_pos _ hpos)⟩
  case neg => exact ⟨le_rfl, le_rfl⟩

theorem castSigned_range (hk : k < 64) :
    -2 ^ k ≤ (castSigned r (ones (k + 1))).imin.toInt ∧ (castSigned r (ones (k + 1))).imax.toInt ≤ 2 ^ k - 1 := by
  have hpos : (0 : Int) < 2 ^ k := by positivity
  have hsucc : (2 : Int) ^ (k + 1) = 2 * 2 ^ k := pow_succ' ..
  have hresult := @castSigned_toInt r k hk
  split_ifs at hresult with h <;> rw [Prod.mk.injEq] at hresult <;> rw [hresult.1, hresult.2]
  case pos =>
    have hlow := Int.emod_nonneg (r.imin.toInt + 2 ^ k) (b := 2 ^ (k + 1)) (by omega)
    have hhigh := Int.emod_lt_of_pos (r.imax.toInt + 2 ^ k) (b := 2 ^ (k + 1)) (by omega)
    rw [bmod_eq, bmod_eq]
    omega
  case neg => exact ⟨le_rfl, le_rfl⟩

theorem castUnsigned_mem (hk : k ≤ 64) (hi : i ∈ r) : i % 2 ^ k ∈ castUnsigned r (ones k) := by
  have hpos : (0 : Int) < 2 ^ k := by positivity
  have hresult := @castUnsigned_toInt r k hk
  change _ ≤ _ ∧ _ ≤ _
  split_ifs at hresult with h <;> rw [Prod.mk.injEq] at hresult <;> rw [hresult.1, hresult.2]
  case pos => exact chunk_between hpos hi.1 hi.2 h
  case neg => exact ⟨Int.emod_nonneg _ hpos.ne', Int.le_sub_one_of_lt (Int.emod_lt_of_pos _ hpos)⟩

theorem castSigned_mem (hk : k < 64) (hi : i ∈ r) : i.bmod (2 ^ (k + 1)) ∈ castSigned r (ones (k + 1)) := by
  have hpos : (0 : Int) < 2 ^ (k + 1) := by positivity
  have hsucc : (2 : Int) ^ (k + 1) = 2 * 2 ^ k := pow_succ' ..
  have hresult := @castSigned_toInt r k hk
  change _ ≤ _ ∧ _ ≤ _
  split_ifs at hresult with h <;> rw [Prod.mk.injEq] at hresult <;> rw [hresult.1, hresult.2, bmod_eq]
  case pos =>
    have hbetween := chunk_between hpos (add_le_add_left hi.1 _) (add_le_add_left hi.2 _) h
    rw [bmod_eq, bmod_eq]
    exact ⟨sub_le_sub_right hbetween.1 _, sub_le_sub_right hbetween.2 _⟩
  case neg =>
    have hlow := Int.emod_nonneg (i + 2 ^ k) hpos.ne'
    have hhigh := Int.emod_lt_of_pos (i + 2 ^ k) hpos
    omega

theorem ext_toInt {s : IntRange} (h : (r.imin.toInt, r.imax.toInt) = (s.imin.toInt, s.imax.toInt)) : r = s := by
  rw [Prod.mk.injEq, toInt_inj, toInt_inj] at h
  obtain ⟨a, b⟩ := r
  exact congrArg₂ mk h.1 h.2

theorem castUnsigned_of_fits (hk : k ≤ 64) (hr : r.Nonempty) (hmin : 0 ≤ r.imin.toInt)
    (hmax : r.imax.toInt ≤ 2 ^ k - 1) : castUnsigned r (ones k) = r := by
  have hlow := hmin.trans hr
  have hhigh : r.imax.toInt < 2 ^ k := Int.lt_of_le_sub_one hmax
  have hhigh' := hr.trans_lt hhigh
  apply ext_toInt
  rw [castUnsigned_toInt hk, Int.ediv_eq_zero_of_lt hmin hhigh', Int.ediv_eq_zero_of_lt hlow hhigh, if_pos rfl,
    Int.emod_eq_of_lt hmin hhigh', Int.emod_eq_of_lt hlow hhigh]

theorem castSigned_of_fits (hk : k < 64) (hr : r.Nonempty) (hmin : -2 ^ k ≤ r.imin.toInt)
    (hmax : r.imax.toInt ≤ 2 ^ k - 1) : castSigned r (ones (k + 1)) = r := by
  have hsucc : (2 : Int) ^ (k + 1) = 2 * 2 ^ k := pow_succ' ..
  unfold Nonempty at hr
  have hlow : 0 ≤ r.imin.toInt + 2 ^ k := by omega
  have hlow' : 0 ≤ r.imax.toInt + 2 ^ k := by omega
  have hhigh : r.imin.toInt + 2 ^ k < 2 ^ (k + 1) := by omega
  have hhigh' : r.imax.toInt + 2 ^ k < 2 ^ (k + 1) := by omega
  apply ext_toInt
  rw [castSigned_toInt hk, Int.ediv_eq_zero_of_lt hlow hhigh, Int.ediv_eq_zero_of_lt hlow' hhigh', if_pos rfl,
    bmod_eq, bmod_eq, Int.emod_eq_of_lt hlow hhigh, Int.emod_eq_of_lt hlow' hhigh', add_sub_cancel_right,
    add_sub_cancel_right]

-- The result has all wrapped numbers and is in the range of the type; a range that is in it stays.
theorem cast_exact (hpos : 0 < k) (hk : k ≤ 64) (hr : r.Nonempty) :
    (∀ i ∈ r, i % 2 ^ k ∈ castUnsigned r (ones k) ∧ i.bmod (2 ^ k) ∈ castSigned r (ones k)) ∧
    (0 ≤ (castUnsigned r (ones k)).imin.toInt ∧ (castUnsigned r (ones k)).imax.toInt ≤ 2 ^ k - 1) ∧
    (-2 ^ (k - 1) ≤ (castSigned r (ones k)).imin.toInt ∧ (castSigned r (ones k)).imax.toInt ≤ 2 ^ (k - 1) - 1) ∧
    (0 ≤ r.imin.toInt → r.imax.toInt ≤ 2 ^ k - 1 → castUnsigned r (ones k) = r) ∧
    (-2 ^ (k - 1) ≤ r.imin.toInt → r.imax.toInt ≤ 2 ^ (k - 1) - 1 → castSigned r (ones k) = r) := by
  obtain ⟨n, rfl⟩ := Nat.exists_eq_add_one.mpr hpos
  exact ⟨fun i hi => ⟨castUnsigned_mem hk hi, castSigned_mem hk hi⟩, castUnsigned_range hk, castSigned_range hk,
    castUnsigned_of_fits hk hr, castSigned_of_fits hk hr⟩

-- [250, 260] in bytes
theorem cast_exact_bytes :
    let r : IntRange := { imin := { value := 250 }, imax := { value := 260 } }
    (260 % 2 ^ 8 : Int) ∈ castUnsigned r 0xFF ∧ Int.bmod 260 (2 ^ 8) ∈ castSigned r 0xFF := by
  intro r
  exact (cast_exact (k := 8) (r := r) (by decide) (by decide) (by decide)).1 260 ⟨by decide, by decide⟩

end exactness

section types

def bits : TY → Nat
  | .Tbool => 1
  | type   => 8 * type.size

-- The number that a conversion to the type makes of another one
def wrap (type : TY) (i : Int) : Int :=
  if type.isUnsigned then i % 2 ^ bits type else i.bmod (2 ^ bits type)

theorem sizemask_eq : sizemask type = ones (bits type) := by
  cases type <;> rfl

theorem bits_bounds : 0 < bits type ∧ bits type ≤ 64 := by
  cases type <;> decide

theorem toInt_limit (h : x.negative = false) :
    toInt (if x.value > 0x10FFFF then { x with value := 0x10FFFF } else x) = Min.min x.toInt 0x10FFFF := by
  have hgt : x.value > 0x10FFFF ↔ 0x10FFFF < x.value.toNat := Iff.rfl
  rw [toInt_of_nonneg h]
  simp only [hgt]
  split_ifs with hlarge
  case pos =>
    rw [h]
    change (0x10FFFF : Int) = _
    omega
  case neg =>
    rw [toInt_of_nonneg h]
    omega

theorem castUnsigned_nonneg {mask : uinteger_t} :
    (castUnsigned r mask).imin.negative = false ∧ (castUnsigned r mask).imax.negative = false := by
  simp only [castUnsigned]
  split_ifs <;> exact ⟨rfl, rfl⟩

theorem castDchar_toInt : (castDchar r).imin.toInt = Min.min (castUnsigned r (ones 32)).imin.toInt 0x10FFFF ∧
    (castDchar r).imax.toInt = Min.min (castUnsigned r (ones 32)).imax.toInt 0x10FFFF := by
  obtain ⟨hmin, hmax⟩ := @castUnsigned_nonneg r (ones 32)
  exact ⟨toInt_limit hmin, toInt_limit hmax⟩

-- Numbers that are no characters are ignored.
theorem wrap_mem (hi : i ∈ r) (h : type = .Tdchar → wrap type i ≤ 0x10FFFF) : wrap type i ∈ cast r type := by
  obtain ⟨hpos, hle⟩ := @bits_bounds type
  have hexact := (cast_exact hpos hle (nonempty_of_mem hi)).1 i hi
  rw [← sizemask_eq] at hexact
  rw [wrap] at *
  rw [cast]
  cases hs : type.isUnsigned
  case false => exact hexact.2
  case true =>
    by_cases hd : type = .Tdchar
    case neg => rw [if_neg (by decide), if_neg hd]; exact hexact.1
    case pos =>
      rw [if_neg (by decide), if_pos hd]
      subst hd
      obtain ⟨hmin, hmax⟩ := @castDchar_toInt r
      obtain ⟨hlow, hhigh⟩ : i % 2 ^ 32 ∈ castUnsigned r (ones 32) := hexact.1
      have hchar : i % 2 ^ 32 ≤ 0x10FFFF := h rfl
      change _ ≤ i % 2 ^ 32 ∧ i % 2 ^ 32 ≤ _
      rw [hmin, hmax]
      exact ⟨min_le_of_left_le hlow, le_min hhigh hchar⟩

-- The ranges of the types, in the numbers of their bits
theorem toInt_intRangeFromType (htype : type ≠ .Tdchar) :
    ((intRangeFromType type type.isUnsigned).imin.toInt, (intRangeFromType type type.isUnsigned).imax.toInt) =
      if type.isUnsigned then (0, 2 ^ bits type - 1) else (-2 ^ (bits type - 1), 2 ^ (bits type - 1) - 1) := by
  cases type
  case Tdchar => exact absurd rfl htype
  all_goals decide

theorem mem_intRangeFromType (hi : i ∈ cast r type) : i ∈ intRangeFromType type type.isUnsigned := by
  by_cases hd : type = .Tdchar
  case pos =>
    subst hd
    obtain ⟨hmin, hmax⟩ := @castDchar_toInt r
    have hrange := (@castUnsigned_range r 32 (by decide)).1
    obtain ⟨hlow, hhigh⟩ : (castDchar r).imin.toInt ≤ i ∧ i ≤ (castDchar r).imax.toInt := hi
    change (0 : Int) ≤ i ∧ i ≤ (0x10FFFF : Int)
    omega
  case neg =>
    obtain ⟨hpos, hle⟩ := @bits_bounds type
    obtain ⟨n, hn⟩ := Nat.exists_eq_add_one.mpr hpos
    have hresult := toInt_intRangeFromType hd
    obtain ⟨hlow, hhigh⟩ := hi
    rw [cast, if_neg hd, sizemask_eq] at hlow hhigh
    change _ ≤ _ ∧ _ ≤ _
    cases hs : type.isUnsigned <;> rw [hs] at hresult hlow hhigh
    case false =>
      obtain ⟨hmin, hmax⟩ := Prod.mk.inj hresult
      rw [hmin, hmax]
      have hrange := @castSigned_range r n (by omega)
      rw [← hn] at hrange
      rw [hn, Nat.add_sub_cancel]
      exact ⟨hrange.1.trans hlow, hhigh.trans hrange.2⟩
    case true =>
      obtain ⟨hmin, hmax⟩ := Prod.mk.inj hresult
      rw [hmin, hmax]
      have hrange := @castUnsigned_range r _ hle
      exact ⟨hrange.1.trans hlow, hhigh.trans hrange.2⟩

end types

end IntRange

end Compiler.Intrange
