import DmdModel.Compiler.Backend.Theorems.U128Div

open InvariantDivision

namespace Compiler.Backend.DivCoeff

variable {N prec : Nat} {d : UInt64} {c : Multiplier}

theorem significantBits_spec {fuel : Nat} {d : UInt64} (hd : d.toNat < 2 ^ fuel) :
    significantBits fuel d ≤ fuel ∧ d.toNat < 2 ^ significantBits fuel d ∧
      (d ≠ 0 → 2 ^ significantBits fuel d ≤ 2 * d.toNat) := by
  induction fuel generalizing d with
  | zero =>
    have h0 : d.toNat = 0 := by simpa using hd
    exact ⟨Nat.le_refl _, hd, fun hne => absurd (UInt64.toNat_inj.mp h0) hne⟩
  | succ fuel hi =>
    rw [significantBits]
    by_cases h : d = 0
    case pos => simp [h]
    case neg =>
      have hhalf : (d >>> 1).toNat = d.toNat / 2 := by simp [Nat.shiftRight_eq_div_pow]
      rw [pow_succ] at hd
      obtain ⟨hle, hlt, hge⟩ := @hi (d >>> 1) (by omega)
      rw [if_neg h]
      refine ⟨by omega, by rw [pow_succ]; omega, fun _ => ?_⟩
      by_cases h1 : d >>> 1 = 0
      case pos =>
        have hpos : d.toNat ≠ 0 := fun h0 => h (UInt64.toNat_inj.mp h0)
        have hzero : significantBits fuel (d >>> 1) = 0 := by
          cases fuel with
          | zero => rfl
          | succ => simp [significantBits, h1]
        rw [hzero]
        omega
      case neg =>
        have := hge h1
        rw [pow_succ]
        omega

-- The assertion on the divisor.
theorem not_isPowerOfTwo (h0 : d ≠ 0) : d &&& (d - 1) ≠ 0 ↔ ¬∃ k, d.toNat = 2 ^ k := by
  have hpos : d.toNat ≠ 0 := fun h => h0 (UInt64.toNat_inj.mp h)
  have hsub : (d - 1).toNat = d.toNat - 1 :=
    UInt64.toNat_sub_of_le d 1 (UInt64.le_iff_toNat_le.mpr (Nat.pos_of_ne_zero hpos))
  rw [not_iff_not, ← UInt64.toNat_inj, UInt64.toNat_and, hsub]
  exact Nat.and_sub_one_eq_zero_iff_isPowerOfTwo hpos

theorem toNat_one_shiftLeft {k : Nat} (hk : k < 64) :
    ((1 : UInt64) <<< k.toUInt64).toNat = 2 ^ k := by
  have := @toNat_or_shiftLeft 0 1 k hk (Nat.two_pow_pos k) (Nat.one_lt_two_pow (by omega))
  simpa using this

theorem reduce64_spec {s : Nat} {mlow mhigh : UInt64} :
    (reduce64 s mlow mhigh).1 = (reduce s mlow.toNat mhigh.toNat).1 ∧
      (reduce64 s mlow mhigh).2.toNat = (reduce s mlow.toNat mhigh.toNat).2 := by
  induction s generalizing mlow mhigh with
  | zero => exact ⟨rfl, rfl⟩
  | succ s hi =>
    have hdiv : ∀ m : UInt64, (m / 2).toNat = m.toNat / 2 := fun m => UInt64.toNat_div m 2
    simp only [reduce64, reduce, UInt64.lt_iff_toNat_lt, hdiv]
    split
    case isTrue =>
      rw [← hdiv, ← hdiv]
      exact hi
    case isFalse => exact ⟨rfl, rfl⟩

theorem reduce128_spec {s : Nat} {mlowh mlowl mhighh mhighl : UInt64} :
    (reduce128 s mlowh mlowl mhighh mhighl).1 =
      (reduce s (value (mlowh, mlowl)) (value (mhighh, mhighl))).1 ∧
    value (reduce128 s mlowh mlowl mhighh mhighl).2 =
      (reduce s (value (mlowh, mlowl)) (value (mhighh, mhighl))).2 := by
  induction s generalizing mlowh mlowl mhighh mhighl with
  | zero => exact ⟨rfl, rfl⟩
  | succ s hi =>
    simp only [reduce128, reduce, XltY128_iff, Prod.mk.eta, value_SHR128]
    split
    case isTrue =>
      rw [← value_SHR128, ← value_SHR128]
      exact hi
    case isFalse => exact ⟨rfl, rfl⟩

-- A multiplier with the bit above the word.
def Multiplier.full (N : Nat) (c : Multiplier) : Nat :=
  c.m.toNat + if c.mhighbit then 2 ^ N else 0

-- What choose_multiplier returns: a multiplier for dividends of `prec` bits.
structure Chosen (N d prec : Nat) (c : Multiplier) : Prop where
  isMultiplier : IsMultiplier d (N + c.shpost) prec (c.full N)
  shpost_lt    : c.shpost < N
  m_lt         : c.m.toNat < 2 ^ N
  narrow       : prec < N → c.mhighbit = false

section Multiplier

variable {b : Nat}

theorem multiplier32_spec (hlow : 2 ^ b < 2 * d.toNat) (hub : d.toNat < 2 ^ b) (hb : b ≤ prec)
    (hp : prec ≤ 32) (hb31 : b ≤ 31) : Chosen 32 d.toNat prec (multiplier32 d prec b) := by
  have hsum : 2 ^ (32 + b) + 2 ^ (32 + b - prec) < 2 ^ 64 := by
    have h₁ : 2 ^ (32 + b) ≤ 2 ^ 63 := Nat.pow_le_pow_right Nat.two_pos (by omega)
    have h₂ : 2 ^ (32 + b - prec) ≤ 2 ^ 62 := by
      apply Nat.pow_le_pow_right Nat.two_pos
      have : b ≠ 0 := by
        rintro rfl
        omega
      omega
    omega
  obtain ⟨hm, hlt, hnarrow⟩ := reduce_isMultiplier hlow hub hb hp
    (show 2 ^ (32 + b) + 2 ^ (32 + b - prec) ≤ (2 ^ (32 + b) + 2 ^ (32 + b - prec)) + 1 by omega)
    (Nat.le_refl _)
  have hmlow : ((1 <<< (32 + b).toUInt64) / d).toNat = 2 ^ (32 + b) / d.toNat := by
    rw [UInt64.toNat_div, toNat_one_shiftLeft (by omega)]
  have hmhigh : (((1 <<< (32 + b).toUInt64) + (1 <<< (32 + b - prec).toUInt64)) / d).toNat =
      (2 ^ (32 + b) + 2 ^ (32 + b - prec)) / d.toNat := by
    rw [UInt64.toNat_div, UInt64.toNat_add, toNat_one_shiftLeft (by omega),
      toNat_one_shiftLeft (by omega), Nat.mod_eq_of_lt hsum]
  obtain ⟨r, hr⟩ : ∃ r, r = reduce64 b ((1 <<< (32 + b).toUInt64) / d)
    (((1 <<< (32 + b).toUInt64) + (1 <<< (32 + b - prec).toUInt64)) / d) := ⟨_, rfl⟩
  obtain ⟨hfst, hsnd⟩ := @reduce64_spec b ((1 <<< (32 + b).toUInt64) / d)
    (((1 <<< (32 + b).toUInt64) + (1 <<< (32 + b - prec).toUInt64)) / d)
  rw [hmlow, hmhigh, ← hr] at hfst hsnd
  have hle : r.1 ≤ b := hfst ▸ reduce_fst_le
  rw [← hfst, ← hsnd] at hm
  rw [← hsnd] at hlt hnarrow
  have hmask : (r.2 &&& 0xFFFFFFFF).toNat = r.2.toNat % 2 ^ 32 := by
    rw [UInt64.toNat_and]
    exact Nat.and_two_pow_sub_one_eq_mod r.2.toNat 32
  have hbit : r.2 >>> 32 ≠ 0 ↔ 2 ^ 32 ≤ r.2.toNat := by
    have hshift : (r.2 >>> 32).toNat = r.2.toNat / 2 ^ 32 := by simp [Nat.shiftRight_eq_div_pow]
    rw [Ne, ← UInt64.toNat_inj, hshift, UInt64.toNat_zero]
    omega
  have heq : multiplier32 d prec b = ⟨r.2 &&& 0xFFFFFFFF, r.1, r.2 >>> 32 ≠ 0⟩ := by
    rw [hr]
    rfl
  rw [heq]
  constructor
  case isMultiplier =>
    have hfull : Multiplier.full 32 ⟨r.2 &&& 0xFFFFFFFF, r.1, r.2 >>> 32 ≠ 0⟩ = r.2.toNat := by
      simp only [Multiplier.full, hmask, decide_eq_true_eq, hbit]
      split <;> omega
    rw [hfull]
    exact hm
  case shpost_lt => exact Nat.lt_of_le_of_lt hle (by omega)
  case m_lt =>
    simp only [hmask]
    exact Nat.mod_lt _ (by decide)
  case narrow =>
    intro hlt
    have := hnarrow hlt
    simp only [decide_eq_false_iff_not, hbit]
    omega

theorem value_high128 (hb : b ≤ prec) (hb63 : b ≤ 63) (hb0 : 0 < b) :
    value (high128 prec b) = 2 ^ (64 + b) + 2 ^ (64 + b - prec) := by
  have hpow : 2 ^ (64 + b) = 2 ^ b * 2 ^ 64 := by rw [← pow_add, Nat.add_comm]
  rw [high128, hpow]
  by_cases he : 64 + b - prec < 64
  case pos => simp only [he, if_true, value, toNat_one_shiftLeft he, toNat_one_shiftLeft (Nat.lt_succ_of_le hb63)]
  case neg =>
    have hbit : ((1 <<< b.toUInt64) ||| (1 <<< (64 + b - prec - 64).toUInt64) : UInt64).toNat =
        2 ^ b + 1 := by
      have h1 : (1 : UInt64) <<< (64 + b - prec - 64).toUInt64 = 1 := by
        rw [show 64 + b - prec - 64 = 0 by omega]
        rfl
      rw [h1, UInt64.or_comm, toNat_or_shiftLeft (Nat.lt_succ_of_le hb63)
        (Nat.one_lt_two_pow (by omega)) (Nat.one_lt_two_pow (by omega))]
      simp only [UInt64.toNat_one]
      omega
    rw [if_neg he, value, hbit, UInt64.toNat_zero, show 64 + b - prec = 64 by omega]
    ring

theorem multiplier64_spec (hlow : 2 ^ b < 2 * d.toNat) (hub : d.toNat < 2 ^ b) (hb : b ≤ prec)
    (hp : prec ≤ 64) (hb63 : b ≤ 63) (hd : ¬∃ k, d.toNat = 2 ^ k) :
    ∃ c, multiplier64 d prec b = some c ∧ Chosen 64 d.toNat prec c := by
  have hpos : 0 < d.toNat := by omega
  have hb0 : 0 < b := Nat.pos_of_ne_zero fun hb => by simp [hb] at hub; omega
  have hlow64 : value (1 <<< b.toUInt64, 0) = 2 ^ (64 + b) := by
    rw [value, toNat_one_shiftLeft (by omega), UInt64.toNat_zero, Nat.add_zero, ← pow_add,
      Nat.add_comm]
  have hhigh64 := value_high128 hb hb63 hb0
  have hpow := Nat.two_pow_pos (64 + b)
  have hpow' := Nat.two_pow_pos (64 + b - prec)
  obtain ⟨mlowh, mlowl, hmlow, hlowval⟩ := @u128Div_spec (1 <<< b.toUInt64) 0 d hpos (by omega)
  obtain ⟨mhighh, mhighl, hmhigh, hhighval⟩ := @u128Div_spec (high128 prec b).1 (high128 prec b).2 d
    hpos (by rw [Prod.mk.eta]; omega)
  -- the divisor has an odd factor, so that the quotient is not exact
  have hndvd : ¬d.toNat ∣ 2 ^ (64 + b) := by
    intro h
    obtain ⟨k, _, hk⟩ := (Nat.dvd_prime_pow Nat.prime_two).mp h
    exact hd ⟨k, hk⟩
  have hexact : (2 ^ (64 + b) - 1) / d.toNat = 2 ^ (64 + b) / d.toNat := by
    have := @Nat.succ_div (2 ^ (64 + b) - 1) d.toNat
    rw [Nat.sub_add_cancel hpow, if_neg hndvd] at this
    exact this.symm
  rw [hlow64, hexact] at hlowval
  rw [Prod.mk.eta, hhigh64] at hhighval
  obtain ⟨hm, hlt, hnarrow⟩ := reduce_isMultiplier hlow hub hb hp
    (show 2 ^ (64 + b) + 2 ^ (64 + b - prec) ≤ (2 ^ (64 + b) + 2 ^ (64 + b - prec) - 1) + 1 by omega)
    (Nat.sub_le _ _)
  obtain ⟨r, hr⟩ : ∃ r, r = reduce128 b mlowh mlowl mhighh mhighl := ⟨_, rfl⟩
  obtain ⟨hfst, hsnd⟩ := @reduce128_spec b mlowh mlowl mhighh mhighl
  rw [hlowval, hhighval, ← hr] at hfst hsnd
  have hle : r.1 ≤ b := hfst ▸ reduce_fst_le
  rw [← hfst, ← hsnd] at hm
  rw [← hsnd] at hlt hnarrow
  have hlow := r.2.2.toNat_lt
  have hval : value r.2 = r.2.1.toNat * 2 ^ 64 + r.2.2.toNat := rfl
  have hbit : r.2.1 &&& 1 ≠ 0 ↔ 2 ^ 64 ≤ value r.2 := by
    have hone : (r.2.1 &&& 1).toNat = r.2.1.toNat % 2 := by
      simp [UInt64.toNat_and, Nat.and_one_is_mod]
    rw [Ne, ← UInt64.toNat_inj, hone, UInt64.toNat_zero]
    omega
  refine ⟨⟨r.2.2, r.1, r.2.1 &&& 1 ≠ 0⟩, ?_, ?_, ?_, ?_, ?_⟩
  case refine_1 =>
    rw [multiplier64, hmlow, hmhigh, hr]
    rfl
  case refine_2 =>
    have hfull : Multiplier.full 64 ⟨r.2.2, r.1, r.2.1 &&& 1 ≠ 0⟩ = value r.2 := by
      simp only [Multiplier.full, decide_eq_true_eq, hbit]
      split <;> omega
    rw [hfull]
    exact hm
  case refine_3 => exact Nat.lt_of_le_of_lt hle (by omega)
  case refine_4 => exact hlow
  case refine_5 =>
    intro hlt
    have := hnarrow hlt
    simp only [decide_eq_false_iff_not, hbit]
    omega

end Multiplier

theorem choose_multiplier_spec (hN : N = 32 ∨ N = 64) (hp : prec ≤ N)
    (hd : ¬∃ k, d.toNat = 2 ^ k) (h0 : d ≠ 0) (hlt : d.toNat < 2 ^ (N - 1))
    (hle : d.toNat < 2 ^ prec) :
    ∃ c, choose_multiplier N d prec = some c ∧ Chosen N d.toNat prec c := by
  obtain ⟨hb64, hub, hlb⟩ := @significantBits_spec 64 d d.toNat_lt
  rw [choose_multiplier]
  simp only
  generalize hb : significantBits 64 d = b at hb64 hub hlb
  have hlb := hlb h0
  have hpos : 0 < d.toNat := Nat.pos_of_ne_zero fun h => h0 (UInt64.toNat_inj.mp h)
  have hlow : 2 ^ b < 2 * d.toNat := by
    apply Nat.lt_of_le_of_ne hlb
    intro he
    cases b with
    | zero => omega
    | succ b => exact hd ⟨b, by rw [pow_succ] at he; omega⟩
  have hone : d > 1 := by
    rw [gt_iff_lt, UInt64.lt_iff_toNat_lt]
    exact Nat.lt_of_le_of_ne hpos fun h => hd ⟨0, h.symm⟩
  -- the number of bits is bounded as the divisor is
  have hbits : ∀ n, d.toNat < 2 ^ n → b ≤ n := by
    intro n hn
    by_contra hc
    have := Nat.pow_le_pow_right Nat.two_pos (show n + 1 ≤ b by omega)
    rw [pow_succ] at this
    omega
  rw [if_pos ⟨hN, hp, hone, (not_isPowerOfTwo h0).mpr hd⟩]
  cases hN with
  | inl hN =>
    subst hN
    exact ⟨_, rfl, multiplier32_spec hlow hub (hbits _ hle) hp (hbits _ hlt)⟩
  | inr hN =>
    subst hN
    exact multiplier64_spec hlow hub (hbits _ hle) hp (hbits _ hlt) hd

theorem removeZeros_spec {fuel e : Nat} (h0 : d ≠ 0) (hd : d.toNat < 2 ^ fuel) (hf : 0 < fuel) :
    ∃ k d', removeZeros fuel e d = some (e + k, d') ∧ d.toNat = d'.toNat * 2 ^ k ∧ d'.toNat % 2 = 1 := by
  have hpos : d.toNat ≠ 0 := fun h => h0 (UInt64.toNat_inj.mp h)
  have hone : (d &&& 1).toNat = d.toNat % 2 := by simp [UInt64.toNat_and, Nat.and_one_is_mod]
  induction fuel generalizing d e with
  | zero => omega
  | succ fuel hi =>
    rw [removeZeros]
    split
    case isFalse h =>
      refine ⟨0, d, rfl, by simp, ?_⟩
      rw [← UInt64.toNat_inj, hone, UInt64.toNat_zero] at h
      omega
    case isTrue h =>
      rw [← UInt64.toNat_inj, hone, UInt64.toNat_zero] at h
      have hhalf : (d >>> 1).toNat = d.toNat / 2 := by simp [Nat.shiftRight_eq_div_pow]
      have hne : (d >>> 1).toNat ≠ 0 := by omega
      rw [pow_succ] at hd
      have hfuel : 0 < fuel := by
        apply Nat.pos_of_ne_zero
        rintro rfl
        omega
      obtain ⟨k, d', hr, hk, hodd⟩ := @hi (d >>> 1) (e + 1) (fun h => hne (by rw [h]; rfl))
        (by omega) hfuel hne (by simp [UInt64.toNat_and, Nat.and_one_is_mod])
      refine ⟨k + 1, d', ?_, ?_, hodd⟩
      · rw [hr, Nat.add_assoc, Nat.add_comm 1 k]
      · rw [pow_succ, ← Nat.mul_assoc, ← hk]
        omega

-- What udiv_coefficients returns: a multiplier for the divisor without `shpre` zeros at the end. The
-- bit above the word is only set without a pre-shift.
structure Coefficients (N d : Nat) (c : Nat × Multiplier) : Prop where
  chosen : Chosen N (d / 2 ^ c.1) (N - c.1) c.2
  zeros  : 2 ^ c.1 ∣ d
  shpre  : c.1 < N
  wide   : c.2.mhighbit = true → c.1 = 0

theorem udiv_coefficients_spec (hN : N = 32 ∨ N = 64) (hd : ¬∃ k, d.toNat = 2 ^ k) (h0 : d ≠ 0)
    (hlt : d.toNat < 2 ^ (N - 1)) :
    ∃ c, udiv_coefficients N d = some c ∧ Coefficients N d.toNat c := by
  have hN0 : 0 < N := by omega
  have hpow : 2 ^ (N - 1) < 2 ^ N := Nat.pow_lt_pow_right Nat.one_lt_two (by omega)
  obtain ⟨c, hc, hchosen⟩ := choose_multiplier_spec hN (Nat.le_refl N) hd h0 hlt (hlt.trans hpow)
  rw [udiv_coefficients, hc]
  simp only [Option.bind_eq_bind, Option.bind_some]
  split
  case isFalse =>
    refine ⟨(0, c), rfl, ⟨?_, one_dvd _, hN0, fun _ => rfl⟩⟩
    simpa using hchosen
  case isTrue h =>
    have heven : d.toNat % 2 = 0 := by
      have hone : (d &&& 1).toNat = d.toNat % 2 := by simp [UInt64.toNat_and, Nat.and_one_is_mod]
      rw [← hone, h.2]
      rfl
    obtain ⟨e, d', hr, he, hodd⟩ := @removeZeros_spec d 64 0 h0 d.toNat_lt (by decide)
    have h0' : d' ≠ 0 := by
      rintro rfl
      simp at hodd
    have hd' : ¬∃ k, d'.toNat = 2 ^ k := by
      rintro ⟨k, hk⟩
      exact hd ⟨k + e, by rw [he, hk, pow_add]⟩
    have hpos := Nat.two_pow_pos e
    have hle' : 2 ^ e ≤ d.toNat := by
      rw [he]
      exact Nat.le_mul_of_pos_left _ (by omega)
    have heN : e < N - 1 := (Nat.pow_lt_pow_iff_right Nat.one_lt_two).mp (hle'.trans_lt hlt)
    have he0 : 0 < e := by
      apply Nat.pos_of_ne_zero
      rintro rfl
      rw [pow_zero, Nat.mul_one] at he
      omega
    have hlt' : d'.toNat < 2 ^ (N - e) := by
      rw [← Nat.mul_lt_mul_right hpos, ← he, ← pow_add, Nat.sub_add_cancel (by omega)]
      exact hlt.trans hpow
    have hlt'' : d'.toNat < 2 ^ (N - 1) :=
      hlt'.trans_le (Nat.pow_le_pow_right Nat.two_pos (by omega))
    obtain ⟨c', hc', hchosen'⟩ := choose_multiplier_spec hN (Nat.sub_le N e) hd' h0' hlt'' hlt'
    have hhigh := hchosen'.narrow (by omega)
    refine ⟨(e, c'), ?_, ⟨?_, ⟨d'.toNat, by rw [he, Nat.mul_comm]⟩, by simp only; omega, ?_⟩⟩
    case refine_1 =>
      simp only [hr, Nat.zero_add, Option.bind_some, hc', hhigh, guard_true]
      rfl
    case refine_2 =>
      simp only [he, Nat.mul_div_cancel _ hpos]
      exact hchosen'
    case refine_3 => simp [hhigh]

-- The instructions compute the quotient.
theorem Coefficients.quotient {n d : Nat} {c : Nat × Multiplier} (h : Coefficients N d c)
    (hd : 1 < d) (hN : 1 < N) (hn : n < 2 ^ N) : quotient N c n = n / d := by
  have hs := h.chosen.shpost_lt
  have hm := h.chosen.m_lt
  have hdiv := h.chosen.isMultiplier.mul_div (n := n >>> c.1)
    ((Nat.sub_le N c.1).trans (Nat.le_add_right N _))
    (by rw [Nat.shiftRight_eq_div_pow, Nat.div_lt_iff_lt_mul (Nat.two_pow_pos _), ← pow_add,
          Nat.sub_add_cancel h.shpre.le]; exact hn)
  rw [pow_add, ← Nat.div_div_eq_div_mul] at hdiv
  rw [DivCoeff.quotient]
  simp only
  cases hb : c.2.mhighbit with
  | false =>
    rw [Multiplier.full, hb] at hdiv
    simp only [Bool.false_eq_true, if_false, Nat.add_zero] at hdiv
    rw [if_neg (by simp), SRL, SRL, MULUH, Nat.mod_eq_of_lt hs, Nat.mod_eq_of_lt h.shpre,
      Nat.shiftRight_eq_div_pow _ c.2.shpost, hdiv, Nat.shiftRight_eq_div_pow, Nat.div_div_eq_div_mul,
      Nat.mul_div_cancel' h.zeros]
  | true =>
    have h0 := h.wide hb
    rw [Multiplier.full, hb, h0] at hdiv
    simp only [if_true, Nat.shiftRight_zero, pow_zero, Nat.div_one] at hdiv
    -- the high product is at most the dividend
    obtain ⟨t1, ht1⟩ : ∃ t1, t1 = c.2.m.toNat * n / 2 ^ N := ⟨_, rfl⟩
    have hle : t1 ≤ n := by
      rw [ht1, Nat.div_le_iff_le_mul_add_pred (Nat.two_pow_pos N)]
      have := Nat.mul_le_mul_right n hm.le
      omega
    have hsum : (c.2.m.toNat + 2 ^ N) * n / 2 ^ N = n + t1 := by
      rw [Nat.add_mul, Nat.add_mul_div_left _ _ (Nat.two_pow_pos N), ← ht1, Nat.add_comm]
    have hpost : 0 < c.2.shpost := by
      apply Nat.pos_of_ne_zero
      intro hzero
      have hupper := h.chosen.isMultiplier.upper
      rw [hzero, h0, Multiplier.full, hb] at hupper
      simp only [if_true, Nat.add_zero, Nat.sub_zero, Nat.sub_self, pow_zero, Nat.div_one] at hupper
      have hpow := Nat.one_lt_two_pow (show N ≠ 0 by omega)
      have := Nat.mul_le_mul (show 2 ^ N ≤ c.2.m.toNat + 2 ^ N by omega) hd
      omega
    have hsub : SRL N (sub N n t1) 1 = (n - t1) / 2 := by
      have hmod : n + (2 ^ N - t1) = n - t1 + 2 ^ N := by omega
      rw [SRL, sub, hmod, Nat.add_mod_right, Nat.mod_eq_of_lt (by omega), Nat.mod_eq_of_lt hN,
        Nat.shiftRight_eq_div_pow, pow_one]
    rw [if_pos rfl, MULUH, ← ht1, hsub, add, add_half hle, SRL, Nat.mod_eq_of_lt (by omega),
      Nat.mod_eq_of_lt (show c.2.shpost - 1 < N by omega), Nat.shiftRight_eq_div_pow,
      Nat.div_div_eq_div_mul, ← pow_succ', Nat.sub_add_cancel hpost, ← hsum]
    exact hdiv

-- A divisor with the highest bit set: the shift by N + b, where b = N, reaches the size of the word.
theorem choose_multiplier_top (hN : N = 32 ∨ N = 64) (hd : ¬∃ k, d.toNat = 2 ^ k)
    (hlt : d.toNat < 2 ^ N) (hge : 2 ^ (N - 1) ≤ d.toNat) :
    choose_multiplier N d N = some ⟨1, N, false⟩ := by
  have hgt : 2 ^ (N - 1) < d.toNat := Nat.lt_of_le_of_ne hge fun h => hd ⟨N - 1, h.symm⟩
  have hN0 : 0 < N := by omega
  have hpow : 2 ^ N = 2 * 2 ^ (N - 1) := by rw [← pow_succ', Nat.sub_add_cancel hN0]
  have hpos := Nat.two_pow_pos (N - 1)
  have h0 : d ≠ 0 := by
    rintro rfl
    simp at hge
  obtain ⟨_, hub, hlb⟩ := @significantBits_spec 64 d d.toNat_lt
  have hbits : significantBits 64 d = N := by
    have hlb := hlb h0
    apply Nat.le_antisymm
    · exact Nat.lt_succ_iff.mp ((Nat.pow_lt_pow_iff_right Nat.one_lt_two).mp
        (show 2 ^ significantBits 64 d < 2 ^ (N + 1) by rw [pow_succ]; omega))
    · exact Nat.le_of_pred_lt ((Nat.pow_lt_pow_iff_right Nat.one_lt_two).mp (hgt.trans hub))
  have hone : d > 1 := by
    rw [gt_iff_lt, UInt64.lt_iff_toNat_lt]
    exact Nat.lt_of_le_of_lt hpos hgt
  rw [choose_multiplier, if_pos ⟨hN, Nat.le_refl N, hone, (not_isPowerOfTwo h0).mpr hd⟩, hbits]
  cases hN with
  | inl hN =>
    subst hN
    have hlow : (1 : UInt64) / d = 0 := by
      rw [← UInt64.toNat_inj, UInt64.toNat_div]
      exact Nat.div_eq_of_lt (UInt64.lt_iff_toNat_lt.mp hone)
    have hhigh : (0x100000001 : UInt64) / d = 1 := by
      rw [← UInt64.toNat_inj, UInt64.toNat_div]
      exact Nat.div_eq_of_lt_le (by simp; omega) (by simp; omega)
    have hm : multiplier32 d 32 32 = ⟨1, 32, false⟩ := by
      show (let r := reduce64 32 ((1 : UInt64) / d) ((0x100000001 : UInt64) / d)
        (⟨r.2 &&& 0xFFFFFFFF, r.1, r.2 >>> 32 ≠ 0⟩ : Multiplier)) = _
      rw [hlow, hhigh]
      decide
    simp only [if_true, hm]
  | inr hN =>
    subst hN
    obtain ⟨qh, ql, hq, hval⟩ := @u128Div_spec 1 0 d (by omega) (by decide)
    have hone : value (qh, ql) = 1 := by
      rw [hval]
      exact Nat.div_eq_of_lt_le (by simp [value]; omega) (by simp [value]; omega)
    have hql := ql.toNat_lt
    obtain ⟨rfl, rfl⟩ : qh = 0 ∧ ql = 1 := by
      simp only [value] at hone
      constructor
      · exact UInt64.toNat_inj.mp (show qh.toNat = 0 by omega)
      · exact UInt64.toNat_inj.mp (show ql.toNat = 1 by omega)
    have hm : multiplier64 d 64 64 = some ⟨1, 64, false⟩ := by
      show (do
        let mlow ← u128Div 1 0 0 d
        let mhigh ← u128Div 1 0 0 d
        let r := reduce128 64 mlow.1 mlow.2 mhigh.1 mhigh.2
        return (⟨r.2.2, r.1, r.2.1 &&& 1 ≠ 0⟩ : Multiplier)) = _
      rw [hq]
      decide
    exact hm

-- The compiled division is right for every dividend if and only if the highest bit of the divisor is
-- not set. No assertion fails.
theorem udiv_coefficients_correct_iff (hN : N = 32 ∨ N = 64) (h2 : 2 < d.toNat)
    (hlt : d.toNat < 2 ^ N) (hd : ¬∃ k, d.toNat = 2 ^ k) :
    ∃ c, udiv_coefficients N d = some c ∧
      ((∀ n < 2 ^ N, quotient N c n = n / d.toNat) ↔ d.toNat < 2 ^ (N - 1)) := by
  have h0 : d ≠ 0 := by
    rintro rfl
    simp at h2
  by_cases htop : d.toNat < 2 ^ (N - 1)
  case pos =>
    obtain ⟨c, hc, hspec⟩ := udiv_coefficients_spec hN hd h0 htop
    exact ⟨c, hc, iff_of_true (fun n hn => hspec.quotient (by omega) (by omega) hn) htop⟩
  case neg =>
    refine ⟨(0, ⟨1, N, false⟩), ?_, iff_of_false (fun h => ?_) htop⟩
    case refine_1 =>
      rw [udiv_coefficients, choose_multiplier_top hN hd hlt (Nat.le_of_not_lt htop)]
      rfl
    case refine_2 =>
      -- the divisor as the dividend
      have hq := h d.toNat hlt
      rw [Nat.div_self (by omega), quotient] at hq
      simp only [Bool.false_eq_true, if_false, SRL, MULUH, UInt64.toNat_one, Nat.one_mul,
        Nat.zero_mod, Nat.shiftRight_zero, Nat.mod_self, Nat.div_eq_of_lt hlt] at hq
      exact absurd hq (by decide)

theorem udiv_coefficients_correct_seven : ∃ c, udiv_coefficients 32 7 = some c ∧
    ((∀ n < 2 ^ 32, quotient 32 c n = n / 7) ↔ 7 < 2 ^ 31) :=
  udiv_coefficients_correct_iff (d := 7) (.inl rfl) (by decide) (by decide) (by
    rintro ⟨k, hk⟩
    have hk3 : k < 3 := (Nat.pow_lt_pow_iff_right Nat.one_lt_two).mp (hk ▸ show 7 < 2 ^ 3 by decide)
    interval_cases k <;> simp at hk)

-- 0x80000001 / 0x80000001 with the coefficients for 32 bits.
theorem quotient_highBit :
    ∃ c, udiv_coefficients 32 0x80000001 = some c ∧
      quotient 32 c 0x80000001 ≠ 0x80000001 / 0x80000001 :=
  ⟨(0, ⟨1, 32, false⟩), by decide +kernel, by decide +kernel⟩

end Compiler.Backend.DivCoeff
