import DmdModel.Compiler.Backend.DivCoeff
import DmdModel.Compiler.Backend.Theorems.DivCoeff

namespace Compiler.Backend.Cddiv

open DivCoeff InvariantDivision

variable {N : Nat} {regs : Regs N} {r s : Reg} {x y e2 : BitVec N} {d : UInt64} {c : Multiplier}

@[simp]
theorem set_self : regs.set r x r = x := by
  rw [Regs.set, Function.update_self]

@[simp]
theorem set_of_ne (h : s ≠ r) : regs.set r x s = regs s := by
  rw [Regs.set, Function.update_of_ne h]

theorem run_append (code code' : List Instr) : run (code ++ code') regs = run code' (run code regs) :=
  List.foldl_append

-- The divisor without its sign.

theorem toNat_neg_of_neg {y : BitVec 64} (hy : y.toInt < 0) : (-y).toNat = y.toInt.natAbs := by
  have hlt := y.isLt
  rw [BitVec.toInt_eq_toNat_cond] at hy ⊢
  rw [BitVec.toNat_neg]
  split at hy
  case isTrue h  => omega
  case isFalse h =>
    rw [if_neg h]
    omega

theorem toNat_of_nonneg {y : BitVec 64} (hy : 0 ≤ y.toInt) : y.toNat = y.toInt.natAbs := by
  have hlt := y.isLt
  rw [BitVec.toInt_eq_toNat_cond] at hy ⊢
  split at hy
  case isTrue h  =>
    rw [if_pos h]
    omega
  case isFalse h => omega

theorem toInt_el_tolong (hN : N ≤ 64) : (el_tolong e2).toBitVec.toInt = e2.toInt := by
  rw [el_tolong, BitVec.toInt_signExtend_of_le hN]

theorem neg_iff (hN : N ≤ 64) : (el_tolong e2).toInt64 < 0 ↔ e2.toInt < 0 := by
  rw [← toInt_el_tolong hN, Int64.lt_iff_toInt_lt]
  rfl

variable (e2) in
theorem factor_toNat (hN : N ≤ 64) :
    (if (el_tolong e2).toInt64 < 0 then -el_tolong e2 else el_tolong e2).toNat = e2.toInt.natAbs := by
  rw [← toInt_el_tolong hN]
  split
  case isTrue h =>
    rw [neg_iff hN, ← toInt_el_tolong hN] at h
    exact toNat_neg_of_neg h
  case isFalse h =>
    rw [neg_iff hN, ← toInt_el_tolong hN] at h
    exact toNat_of_nonneg (Int.not_lt.mp h)

-- The high half of the product with a multiplier.
section
variable {m : Nat} {z : Int}

theorem high_bounds (hm : m < 2 ^ N) (hlo : -2 ^ (N - 1) ≤ z) (hhi : z < 2 ^ (N - 1)) :
    -2 ^ (N - 1) ≤ m * z / 2 ^ N ∧ m * z / 2 ^ N < 2 ^ (N - 1) := by
  have hpos : (0 : Int) < 2 ^ N := by positivity
  have hm' : (m : Int) < 2 ^ N := by exact_mod_cast hm
  have hm0 : (0 : Int) ≤ m := Int.natCast_nonneg m
  have hp : (0 : Int) < 2 ^ (N - 1) := by positivity
  constructor
  · apply Int.le_ediv_of_mul_le hpos
    nlinarith
  · apply Int.ediv_lt_of_lt_mul hpos
    nlinarith

theorem toInt_ofInt_of_bounds (hN : 0 < N) (hlo : -2 ^ (N - 1) ≤ z) (hhi : z < 2 ^ (N - 1)) :
    (BitVec.ofInt N z).toInt = z := by
  have hpow : (2 : Int) ^ N = 2 * 2 ^ (N - 1) := by rw [← pow_succ', Nat.sub_add_cancel hN]
  rw [BitVec.toInt_ofInt]
  apply Int.bmod_eq_of_le
  · push_cast
    omega
  · push_cast
    omega

theorem toInt_bounds (x : BitVec N) : -2 ^ (N - 1) ≤ x.toInt ∧ x.toInt < 2 ^ (N - 1) := by
  constructor
  · have h := BitVec.le_toInt x
    exact_mod_cast h
  · have h := @BitVec.toInt_lt N x
    exact_mod_cast h

-- The high half of the signed product, and the dividend if the multiplier does not fit a signed word.
theorem ofInt_high (hN : 0 < N) (hm : m < 2 ^ N) :
    (BitVec.ofInt N ((BitVec.ofNat N m).toInt * x.toInt / 2 ^ N) + if 2 ^ (N - 1) ≤ m then x else 0) =
      BitVec.ofInt N (m * x.toInt / 2 ^ N) := by
  have hpow : 2 ^ N = 2 * 2 ^ (N - 1) := by rw [← pow_succ', Nat.sub_add_cancel hN]
  have hpos : (2 : Int) ^ N ≠ 0 := by positivity
  have hto : (BitVec.ofNat N m).toNat = m := by rw [BitVec.toNat_ofNat, Nat.mod_eq_of_lt hm]
  by_cases hle : 2 ^ (N - 1) ≤ m
  · have hint : (BitVec.ofNat N m).toInt = m - 2 ^ N := by
      rw [BitVec.toInt_eq_toNat_cond, hto, if_neg (by omega)]
      push_cast
      rfl
    have hdiv : ((m : Int) - 2 ^ N) * x.toInt / 2 ^ N = m * x.toInt / 2 ^ N - x.toInt := by
      rw [show ((m : Int) - 2 ^ N) * x.toInt = m * x.toInt + -x.toInt * 2 ^ N by ring,
        Int.add_mul_ediv_right _ _ hpos]
      ring
    have hadd := BitVec.ofInt_add (n := N) (m * x.toInt / 2 ^ N - x.toInt) x.toInt
    rw [Int.sub_add_cancel, BitVec.ofInt_toInt] at hadd
    rw [if_pos hle, hint, hdiv, hadd]
  · have hint : (BitVec.ofNat N m).toInt = m := by
      rw [BitVec.toInt_eq_toNat_cond, hto, if_pos (by omega)]
    rw [if_neg hle, hint]
    exact BitVec.add_zero _

theorem sshiftRight_ofInt (hN : 0 < N) (hlo : -2 ^ (N - 1) ≤ z) (hhi : z < 2 ^ (N - 1)) {k : Nat} :
    (BitVec.ofInt N z).sshiftRight k = BitVec.ofInt N (z / 2 ^ k) := by
  rw [BitVec.sshiftRight, toInt_ofInt_of_bounds hN hlo hhi, Int.shiftRight_eq_div_pow]
  push_cast
  rfl

theorem ofInt_sub (a b : Int) : BitVec.ofInt N (a - b) = BitVec.ofInt N a - BitVec.ofInt N b := by
  rw [Int.sub_eq_add_neg, BitVec.ofInt_add, BitVec.ofInt_neg, BitVec.sub_eq_add_neg]

-- The sign mask.
theorem sshiftRight_sign : x.sshiftRight (N - 1) = BitVec.ofInt N (-if x.toInt < 0 then 1 else 0) := by
  obtain ⟨hlo, hhi⟩ := toInt_bounds x
  have hpos : (0 : Int) < 2 ^ (N - 1) := by positivity
  rw [BitVec.sshiftRight, Int.shiftRight_eq_div_pow]
  congr 1
  push_cast
  split
  case isTrue h  => exact Int.ediv_eq_neg_one_of_neg_of_le h (Int.neg_le_of_neg_le hlo)
  case isFalse h => exact Int.ediv_eq_zero_of_lt (Int.not_lt.mp h) hhi

end

variable (regs) in
-- The registers behind the start of the code, as it was generated.
theorem run_start_regs (hN : N = 32 ∨ N = 64) (hn : c.mhighbit = false) :
    run (start N c) regs .DX =
      (BitVec.ofInt N ((BitVec.ofNat N c.m.toNat).toInt * (regs .R1).toInt / 2 ^ N) +
        if 2 ^ (N - 1) ≤ c.m.toNat then regs .R1 else 0).sshiftRight (c.shpost % N) ∧
    run (start N c) regs .AX = (regs .R1).sshiftRight (N - 1) ∧ run (start N c) regs .R1 = regs .R1 := by
  have hword : word N c.m = BitVec.ofNat N c.m.toNat := (BitVec.ofNat_toNat N c.m.toBitVec).symm
  have hmgt : (c.mhighbit = true ∨ c.m ≥ 1 <<< (N - 1).toUInt64) ↔ 2 ^ (N - 1) ≤ c.m.toNat := by
    rw [hn, ge_iff_le, UInt64.le_iff_toNat_le, toNat_one_shiftLeft (by omega)]
    exact or_iff_right Bool.false_ne_true
  have hmod : (N - 1) % N = N - 1 := Nat.mod_eq_of_lt (by omega)
  simp only [start, hmgt]
  by_cases hle : 2 ^ (N - 1) ≤ c.m.toNat <;> by_cases hs : c.shpost = 0 <;>
    simp [hle, hs, run, Instr.exec, hword, hmod]

variable (regs) in
-- The quotient by the divisor without its sign.
theorem run_start (hN : N = 32 ∨ N = 64) {q : Nat} (hc : Chosen N q (N - 1) c) :
    run (start N c) regs .DX - run (start N c) regs .AX = BitVec.ofInt N ((regs .R1).toInt.tdiv q) ∧
    run (start N c) regs .R1 = regs .R1 := by
  have hpos : 0 < N := by omega
  obtain ⟨hdx, hax, hr1⟩ := run_start_regs regs hN (hc.narrow (by omega))
  obtain ⟨hlo, hhi⟩ := toInt_bounds (regs .R1)
  obtain ⟨hlo', hhi'⟩ := high_bounds hc.m_lt hlo hhi
  have hfull : c.full N = c.m.toNat := by
    rw [Multiplier.full, hc.narrow (by omega)]
    rfl
  have hmul := hc.isMultiplier
  rw [hfull] at hmul
  have hdiv := hmul.mul_ediv (by omega) hlo hhi
  have hshift : (c.m.toNat : Int) * (regs .R1).toInt / 2 ^ N / 2 ^ c.shpost =
      c.m.toNat * (regs .R1).toInt / 2 ^ (N + c.shpost) := by
    rw [Int.ediv_ediv_of_nonneg (by positivity), ← pow_add]
  refine ⟨?_, hr1⟩
  rw [hdx, hax, Nat.mod_eq_of_lt hc.shpost_lt, ofInt_high hpos hc.m_lt, sshiftRight_ofInt hpos hlo' hhi', hshift,
    hdiv, sshiftRight_sign, ← ofInt_sub]
  congr 1
  ring

variable (d regs) in
-- The product of the quotient, in DX, and the divisor.
theorem run_product :
    run (product N d) regs .AX = regs .DX * word N d ∧ run (product N d) regs .DX = regs .DX ∧
    run (product N d) regs .R1 = regs .R1 := by
  rw [product]
  split
  case isTrue  => simp [run, Instr.exec]
  case isFalse => simp [run, Instr.exec, BitVec.mul_comm]

-- The remainder, with the quotient in DX and the dividend in R1.
theorem sub_product {z q : Int} (hd : word N d = BitVec.ofInt N q) :
    BitVec.ofInt N z - BitVec.ofInt N (z.tdiv q) * word N d = BitVec.ofInt N (z.tmod q) := by
  rw [hd, ← BitVec.ofInt_mul, ← ofInt_sub]
  congr 1
  have h := Int.tmod_add_mul_tdiv z q
  linarith

-- The values of the registers with the results.
def Code.results (code : Code) (regs : Regs N) : List Int :=
  code.res.map fun r => (run code.instrs regs r).toInt

theorem cddiv_eq (hN : N = 32 ∨ N = 64) (h0 : e2 ≠ 0) (hpow : ¬ ∃ k, e2.toInt.natAbs = 2 ^ k) :
    ∃ (d : UInt64) (c : Multiplier), d.toNat = e2.toInt.natAbs ∧ Chosen N d.toNat (N - 1) c ∧
      ∀ oper, cddiv N oper e2 = some (emit N (e2.toInt < 0) d c oper) := by
  have hle : N ≤ 64 := by omega
  have hd := factor_toNat e2 hle
  generalize he : (if (el_tolong e2).toInt64 < 0 then -el_tolong e2 else el_tolong e2) = d at hd
  have hne : e2.toInt ≠ 0 := fun h => h0 (BitVec.eq_of_toInt_eq (h.trans BitVec.toInt_zero.symm))
  have hd0 : d ≠ 0 := by
    rintro rfl
    exact hne (Int.natAbs_eq_zero.mp hd.symm)
  have hpow' : ¬ ∃ k, d.toNat = 2 ^ k := by rwa [hd]
  have hbound : d.toNat < 2 ^ (N - 1) := by
    have hpos : (2 : Int) ^ (N - 1) = ((2 ^ (N - 1) : Nat) : Int) := by push_cast; rfl
    obtain ⟨hlo, hhi⟩ := toInt_bounds e2
    have hlast : e2.toInt.natAbs ≠ 2 ^ (N - 1) := fun h => hpow ⟨N - 1, h⟩
    rw [hd]
    omega
  obtain ⟨c, hc, hchosen⟩ := choose_multiplier_spec hN (Nat.sub_le N 1) hpow' hd0 hbound hbound
  refine ⟨d, c, hd, hchosen, fun oper => ?_⟩
  have hguard : d &&& (d - 1) ≠ 0 := (not_isPowerOfTwo hd0).mpr hpow'
  rw [cddiv]
  simp only [neg_iff hle] at he ⊢
  simp only [he, guard, hc]
  rw [if_pos hguard]
  rfl

-- A quotient and a remainder fit a word.

theorem toInt_ofInt_tdiv (hone : e2 ≠ -1#N) : (BitVec.ofInt N (x.toInt.tdiv e2.toInt)).toInt = x.toInt.tdiv e2.toInt := by
  rw [← BitVec.toInt_sdiv_of_ne_or_ne x e2 (.inr hone), BitVec.ofInt_toInt]

theorem toInt_ofInt_tmod : (BitVec.ofInt N (x.toInt.tmod e2.toInt)).toInt = x.toInt.tmod e2.toInt := by
  rw [← BitVec.toInt_srem x e2, BitVec.ofInt_toInt]

-- The code behind its start: the quotient without the sign of the divisor is the difference of DX and AX.
theorem emit_results (neg : Bool) {z q : Int} (hd : word N d = BitVec.ofInt N q)
    (hq : run (start N c) regs .DX - run (start N c) regs .AX = BitVec.ofInt N (z.tdiv q))
    (hr1 : run (start N c) regs .R1 = BitVec.ofInt N z) :
    let quotient := BitVec.ofInt N (if neg then -z.tdiv q else z.tdiv q)
    (emit N neg d c .OPdiv).results regs = [quotient.toInt] ∧
    (emit N neg d c .OPmod).results regs = [(BitVec.ofInt N (z.tmod q)).toInt] ∧
    (emit N neg d c .OPremquo).results regs = [quotient.toInt, (BitVec.ofInt N (z.tmod q)).toInt] := by
  have hneg : run (start N c) regs .AX - run (start N c) regs .DX = BitVec.ofInt N (-z.tdiv q) := by
    rw [BitVec.ofInt_neg, ← hq, BitVec.neg_sub, BitVec.add_comm, ← BitVec.sub_eq_add_neg]
  -- behind the subtraction and the product
  have hsub : ∀ r, run (start N c ++ [.sub .DX .AX]) regs r =
      (run (start N c) regs).set .DX (BitVec.ofInt N (z.tdiv q)) r := by
    intro r
    rw [run_append, ← hq]
    rfl
  obtain ⟨hax, hdx, hx⟩ := run_product (run (start N c ++ [.sub .DX .AX]) regs) d
  rw [hsub .DX, set_self] at hax hdx
  rw [hsub .R1, set_of_ne (by decide), hr1] at hx
  have hrem : run (product N d) (run (start N c ++ [.sub .DX .AX]) regs) .R1 -
      run (product N d) (run (start N c ++ [.sub .DX .AX]) regs) .AX = BitVec.ofInt N (z.tmod q) := by
    rw [hax, hx, sub_product hd]
  refine ⟨?_, ?_, ?_⟩
  · cases neg with
    | true  => simp [Code.results, emit, run, Instr.exec, ← hneg]
    | false => simp [Code.results, emit, run, Instr.exec, ← hq]
  · simp only [Code.results, emit, run_append _ [.sub .R1 .AX], run_append _ (product N d)]
    simp [run, Instr.exec, ← hrem]
  · cases neg with
    | true  =>
      simp only [Code.results, emit, if_true, run_append _ [.mov .DX .R1], run_append _ [.neg .AX],
        run_append _ [.sub .R1 .AX, .mov .AX .DX], run_append _ (product N d)]
      generalize run (product N d) (run (start N c ++ [.sub .DX .AX]) regs) = regs' at hrem hdx ⊢
      simp [run, Instr.exec, ← hrem, hdx, BitVec.ofInt_neg]
    | false =>
      simp only [Code.results, emit, if_false, Bool.false_eq_true, List.append_nil, run_append _ [.mov .DX .R1],
        run_append _ [.sub .R1 .AX, .mov .AX .DX], run_append _ (product N d)]
      generalize run (product N d) (run (start N c ++ [.sub .DX .AX]) regs) = regs' at hrem hdx ⊢
      simp [run, Instr.exec, ← hrem, hdx]

-- The code for the division of a signed word by a constant gives the quotient truncated toward zero and
-- the remainder with the sign of the dividend.
theorem cddiv_correct (hN : N = 32 ∨ N = 64) (h0 : e2 ≠ 0) (hpow : ¬ ∃ k, e2.toInt.natAbs = 2 ^ k) :
    ∃ code : Oper → Code, (∀ oper, cddiv N oper e2 = some (code oper)) ∧ ∀ regs : Regs N,
      (code .OPdiv).results regs = [(regs .R1).toInt.tdiv e2.toInt] ∧
      (code .OPmod).results regs = [(regs .R1).toInt.tmod e2.toInt] ∧
      (code .OPremquo).results regs = [(regs .R1).toInt.tdiv e2.toInt, (regs .R1).toInt.tmod e2.toInt] := by
  obtain ⟨d, c, hd, hc, hcode⟩ := cddiv_eq hN h0 hpow
  refine ⟨_, hcode, fun regs => ?_⟩
  have hone : e2 ≠ -1#N := by
    obtain rfl | rfl := hN <;>
    · rintro rfl
      exact hpow ⟨0, by decide⟩
  obtain ⟨hq, hr1⟩ := run_start regs hN hc
  have hword : word N d = BitVec.ofInt N d.toNat := by
    rw [BitVec.ofInt_natCast]
    exact (BitVec.ofNat_toNat N d.toBitVec).symm
  have hresults := emit_results (e2.toInt < 0) hword hq (hr1.trans (BitVec.ofInt_toInt).symm)
  have hsign : (if e2.toInt < 0 then -(regs .R1).toInt.tdiv d.toNat else (regs .R1).toInt.tdiv d.toNat) =
      (regs .R1).toInt.tdiv e2.toInt ∧ (regs .R1).toInt.tmod d.toNat = (regs .R1).toInt.tmod e2.toInt := by
    by_cases hlt : e2.toInt < 0
    · rw [if_pos hlt, show (d.toNat : Int) = -e2.toInt by omega, Int.tdiv_neg, Int.tmod_neg, Int.neg_neg]
      exact ⟨rfl, rfl⟩
    · rw [if_neg hlt, show (d.toNat : Int) = e2.toInt by omega]
      exact ⟨rfl, rfl⟩
  simp only [decide_eq_true_iff, hsign.1, hsign.2, toInt_ofInt_tdiv hone, toInt_ofInt_tmod] at hresults
  exact hresults

-- A dividend and a divisor that are negative.
theorem cddiv_correct_seven : ∃ code : Oper → Code, cddiv 32 .OPdiv (-7#32) = some (code .OPdiv) ∧
    (code .OPdiv).results (fun _ => -100#32) = [14] := by
  have hpow : ¬ ∃ k, ((-7#32).toInt).natAbs = 2 ^ k := by
    rintro ⟨k, hk⟩
    have h7 : 7 = 2 ^ k := hk
    obtain _ | _ | _ | k := k
    · omega
    · omega
    · omega
    · rw [pow_succ, pow_succ, pow_succ] at h7
      omega
  obtain ⟨code, hcode, h⟩ := cddiv_correct (.inl rfl) (by decide) hpow
  exact ⟨code, hcode .OPdiv, (h fun _ => -100#32).1.trans (by decide)⟩

end Compiler.Backend.Cddiv
