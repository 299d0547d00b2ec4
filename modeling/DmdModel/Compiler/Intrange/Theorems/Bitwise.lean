import DmdModel.Compiler.Intrange.Theorems.Arithmetic
import DmdModel.Compiler.Intrange.Theorems.BitBounds

-- The bitwise operations of ranges.

namespace Compiler.Intrange

namespace SignExtendedNumber

variable {x y : SignExtendedNumber} {v w : uinteger_t}

-- The operations of the numbers as infinite sequences of bits
def bitNot (x : SignExtendedNumber) : SignExtendedNumber where
  value    := ~~~x.value
  negative := !x.negative

def bitAnd (x y : SignExtendedNumber) : SignExtendedNumber where
  value    := x.value &&& y.value
  negative := x.negative && y.negative

def bitOr (x y : SignExtendedNumber) : SignExtendedNumber where
  value    := x.value ||| y.value
  negative := x.negative || y.negative

def bitXor (x y : SignExtendedNumber) : SignExtendedNumber where
  value    := x.value ^^^ y.value
  negative := x.negative ^^ y.negative

section integers

theorem ldiff_not : Nat.ldiff v.toNat (~~~w).toNat = (v &&& w).toNat := by
  apply Nat.eq_of_testBit_eq
  intro k
  rw [Nat.testBit_ldiff, BitVec.testBit_toNat, BitVec.testBit_toNat, BitVec.testBit_toNat, BitVec.getLsbD_not,
    BitVec.getLsbD_and]
  by_cases hk : k < 64
  case pos => simp [hk]
  case neg => simp [hk, BitVec.getLsbD_of_ge v k (not_lt.mp hk)]

theorem toInt_bitNot : x.bitNot.toInt = -1 - x.toInt := by
  have hx := x.value.isLt
  rw [bitNot, toInt, toInt, BitVec.toNat_not]
  cases x.negative <;> simp
  case false | true => omega

theorem toInt_false : toInt ⟨v, false⟩ = (v.toNat : Int) :=
  toInt_of_nonneg rfl

theorem toInt_true : toInt ⟨v, true⟩ = Int.negSucc (~~~v).toNat :=
  toInt_negSucc rfl

theorem toInt_bitAnd : (bitAnd x y).toInt = Int.land x.toInt y.toInt := by
  obtain ⟨v, s⟩ := x
  obtain ⟨w, t⟩ := y
  cases s <;> cases t
  case false.false =>
    change toInt ⟨v &&& w, false⟩ = _
    rw [toInt_false, toInt_false, toInt_false, BitVec.toNat_and]
    rfl
  case false.true =>
    change toInt ⟨v &&& w, false⟩ = _
    rw [toInt_false, toInt_false, toInt_true, ← ldiff_not]
    rfl
  case true.false =>
    change toInt ⟨v &&& w, false⟩ = _
    rw [toInt_false, toInt_false, toInt_true, BitVec.and_comm, ← ldiff_not]
    rfl
  case true.true =>
    change toInt ⟨v &&& w, true⟩ = _
    rw [toInt_true, toInt_true, toInt_true, BitVec.not_and, BitVec.toNat_or]
    rfl

theorem toInt_bitOr : (bitOr x y).toInt = Int.lor x.toInt y.toInt := by
  obtain ⟨v, s⟩ := x
  obtain ⟨w, t⟩ := y
  cases s <;> cases t
  case false.false =>
    change toInt ⟨v ||| w, false⟩ = _
    rw [toInt_false, toInt_false, toInt_false, BitVec.toNat_or]
    rfl
  case false.true =>
    have hdiff := @ldiff_not (~~~w) (~~~v)
    change toInt ⟨v ||| w, true⟩ = _
    rw [BitVec.not_not] at hdiff
    rw [toInt_true, toInt_false, toInt_true, BitVec.not_or, BitVec.and_comm, ← hdiff]
    rfl
  case true.false =>
    have hdiff := @ldiff_not (~~~v) (~~~w)
    change toInt ⟨v ||| w, true⟩ = _
    rw [BitVec.not_not] at hdiff
    rw [toInt_true, toInt_false, toInt_true, BitVec.not_or, ← hdiff]
    rfl
  case true.true =>
    change toInt ⟨v ||| w, true⟩ = _
    rw [toInt_true, toInt_true, toInt_true, BitVec.not_or, BitVec.toNat_and]
    rfl

theorem toInt_bitXor : (bitXor x y).toInt = Int.xor x.toInt y.toInt := by
  obtain ⟨v, s⟩ := x
  obtain ⟨w, t⟩ := y
  cases s <;> cases t
  case false.false =>
    change toInt ⟨v ^^^ w, false⟩ = _
    rw [toInt_false, toInt_false, toInt_false, BitVec.toNat_xor]
    rfl
  case false.true =>
    change toInt ⟨v ^^^ w, true⟩ = _
    rw [toInt_true, toInt_false, toInt_true, BitVec.not_xor_right, BitVec.toNat_xor]
    rfl
  case true.false =>
    change toInt ⟨v ^^^ w, true⟩ = _
    rw [toInt_true, toInt_false, toInt_true, BitVec.not_xor_left, BitVec.toNat_xor]
    rfl
  case true.true =>
    have hnot : ~~~v ^^^ ~~~w = v ^^^ w := by
      rw [← BitVec.not_xor_left, ← BitVec.not_xor_right, BitVec.not_not]
    change toInt ⟨v ^^^ w, false⟩ = _
    rw [toInt_false, toInt_true, toInt_true, ← hnot, BitVec.toNat_xor]
    rfl

theorem bitXor_eq : bitXor x y = bitOr (bitAnd x y.bitNot) (bitAnd x.bitNot y) := by
  obtain ⟨v, s⟩ := x
  obtain ⟨w, t⟩ := y
  simp only [bitXor, bitOr, bitAnd, bitNot, mk.injEq]
  constructor
  case left =>
    apply BitVec.eq_of_getLsbD_eq
    intro k hk
    simp only [BitVec.getLsbD_xor, BitVec.getLsbD_or, BitVec.getLsbD_and, BitVec.getLsbD_not, decide_eq_true hk]
    cases v.getLsbD k <;> cases w.getLsbD k <;> rfl
  case right => cases s <;> cases t <;> rfl

end integers

section order

-- A number that is negative if the other one is
theorem toInt_le_toInt (hs : y.negative = true → x.negative = true)
    (hv : x.value.toNat ≤ y.value.toNat) : x.toInt ≤ y.toInt := by
  have hx := x.value.isLt
  cases h : y.negative
  case false =>
    rw [toInt_of_nonneg h, toInt]
    split_ifs <;> omega
  case true =>
    rw [toInt_of_negative h, toInt_of_negative (hs h)]
    omega

theorem com_value : x.com.value = ~~~x.value := by
  rw [com]
  split_ifs <;> rfl

theorem com_negative : x.com.negative = (decide (x.value ≠ BitVec.allOnes 64) && !x.negative) := by
  have hzero : ~~~x.value = 0 ↔ x.value = BitVec.allOnes 64 := by
    rw [← BitVec.not_inj, BitVec.not_not]
    exact Iff.rfl
  rw [com]
  split_ifs with h <;> rw [hzero] at h
  case pos => rw [decide_eq_false (not_not_intro h), Bool.false_and]
  case neg => rw [decide_eq_true h, Bool.true_and]

theorem com_eq_bitNot (h : x.toInt ≠ 2 ^ 64 - 1) : x.com = x.bitNot := by
  rw [com, bitNot]
  split_ifs with hzero
  case pos =>
    have hvalue : x.value = BitVec.allOnes 64 := by
      rw [← BitVec.not_inj, hzero]
      rfl
    have hs : x.negative = true := by
      by_contra hs
      rw [Bool.not_eq_true] at hs
      rw [toInt_of_nonneg hs, hvalue] at h
      exact h rfl
    rw [hs]
    rfl
  case neg => rfl

end order

end SignExtendedNumber

namespace IntRange

open SignExtendedNumber

variable {L R l r : IntRange} {a b x y : SignExtendedNumber} {v w : uinteger_t}

section bounds

-- The values of the bounds are the ones of a number's neighbours.
structure Between (r : IntRange) (v : uinteger_t) : Prop where
  low  : r.imin.value.toNat ≤ v.toNat
  high : v.toNat ≤ r.imax.value.toNat

theorem Between.com (h : Between r v) : Between r.com (~~~v) := by
  have hmax := r.imax.value.isLt
  obtain ⟨hlow, hhigh⟩ := h
  constructor <;> rw [IntRange.com] <;> dsimp only <;> rw [com_value, BitVec.toNat_not, BitVec.toNat_not] <;> omega

theorem and_le_maxAnd (hl : Between l v) (hr : Between r w) : (v &&& w).toNat ≤ (maxAnd l r).value.toNat := by
  have hmod (u : uinteger_t) : u.toNat % 2 ^ 64 = u.toNat := Nat.mod_eq_of_lt u.isLt
  have hloop := @and_le_maxAndLoop v w 0 l.imin.value l.imax.value r.imin.value r.imax.value 64 le_rfl rfl
    ⟨.inr (by rw [hmod, hmod]; exact hl.low), by rw [hmod, hmod]; exact hl.high⟩
    ⟨.inr (by rw [hmod, hmod]; exact hr.low), by rw [hmod, hmod]; exact hr.high⟩
  rw [hmod] at hloop
  exact (Nat.zero_add _).symm.trans_le hloop

theorem minOr_le_or (hl : Between l v) (hr : Between r w) : (minOr l r).value.toNat ≤ (v ||| w).toNat := by
  have hle := and_le_maxAnd hl.com hr.com
  have hlt := (maxAnd l.com r.com).value.isLt
  rw [← BitVec.not_or, BitVec.toNat_not] at hle
  rw [minOr, com_value, BitVec.toNat_not]
  omega

theorem or_le_loop {lmin rmin : uinteger_t} (hl : lmin.toNat ≤ v.toNat) (hl' : v.toNat ≤ l.imax.value.toNat)
    (hr : rmin.toNat ≤ w.toNat) (hr' : w.toNat ≤ r.imax.value.toNat) :
    (v ||| w).toNat ≤ (maxOrLoop l.imax.value r.imax.value 64 lmin rmin 0).toNat := by
  have hmod (u : uinteger_t) : u.toNat % 2 ^ 64 = u.toNat := Nat.mod_eq_of_lt u.isLt
  have hloop := @or_le_maxOrLoop v w 0 l.imax.value r.imax.value lmin rmin 64 le_rfl rfl
    ⟨by rwa [hmod, hmod], by rwa [hmod, hmod]⟩ ⟨by rwa [hmod, hmod], by rwa [hmod, hmod]⟩
  rw [hmod] at hloop
  exact (Nat.zero_add _).symm.trans_le hloop

theorem zero_if_le {c : Prop} [Decidable c] {u : uinteger_t} (h : u.toNat ≤ v.toNat) :
    (if c then 0 else u).toNat ≤ v.toNat := by
  split_ifs
  case pos => exact Nat.zero_le _
  case neg => exact h

theorem or_le_maxOr (hl : Between l v) (hr : Between r w) : (v ||| w).toNat ≤ (maxOr l r).value.toNat := by
  have hloop := or_le_loop hl.low hl.high hr.low hr.high
  rw [maxOr]
  dsimp only
  by_cases hne : l.imax.negative ≠ r.imax.negative
  case pos =>
    rw [if_pos hne]
    by_cases hneg : l.imax.negative = true
    case pos =>
      rw [if_pos hneg]
      exact or_le_loop (zero_if_le hl.low) hl.high (zero_if_le hr.low) hr.high
    case neg =>
      rw [if_neg hneg]
      exact hloop
  case neg =>
    rw [if_neg hne]
    split_ifs
    case pos => exact hloop
    case pos => exact Nat.le_of_lt_succ (v ||| w).isLt
    case neg => exact hloop

theorem minAnd_le_and (hl : Between l v) (hr : Between r w) : (minAnd l r).value.toNat ≤ (v &&& w).toNat := by
  have hle := or_le_maxOr hl.com hr.com
  have hlt := (maxOr l.com r.com).value.isLt
  rw [← BitVec.not_and, BitVec.toNat_not] at hle
  rw [minAnd, com_value, BitVec.toNat_not]
  omega

end bounds

section signs

theorem maxOr_negative : (maxOr l r).negative = ((l.imax.negative ^^ r.imax.negative) ||
    (l.imin.negative && r.imin.negative)) := by
  rw [maxOr]
  cases l.imax.negative <;> cases r.imax.negative <;> cases l.imin.negative <;> cases r.imin.negative <;> rfl

theorem com_negative' {x : SignExtendedNumber} : x.com.negative = (decide (x.com.value ≠ 0) && !x.negative) := by
  have hzero : x.value = BitVec.allOnes 64 ↔ ~~~x.value = 0 := by
    rw [← BitVec.not_inj, BitVec.not_allOnes]
    exact Iff.rfl
  simp only [com_negative, com_value, ne_eq, hzero]

theorem minOr_negative : (minOr l r).negative =
    (decide ((minOr l r).value ≠ 0) && !(l.imin.com.negative && r.imin.com.negative)) :=
  com_negative'

theorem minAnd_negative : (minAnd l r).negative = (decide ((minAnd l r).value ≠ 0) && !(maxOr l.com r.com).negative) :=
  com_negative'

-- Half of the values are the ones of negative numbers.
def High (x : SignExtendedNumber) : Prop :=
  2 ^ 63 ≤ x.value.toNat

theorem high_com (h : High x) : x.com.value.toNat < 2 ^ 63 := by
  have hx := x.value.isLt
  unfold High at h
  rw [com_value, BitVec.toNat_not]
  omega

theorem high_minOr (h : High l.imin ∨ High r.imin) : High (minOr l r) := by
  have hlt := @maxAndLoop_lt 0 l.com.imin.value l.com.imax.value r.com.imin.value r.com.imax.value 63 64 le_rfl
    (by decide) (h.imp high_com high_com)
  unfold High
  rw [minOr, com_value, BitVec.toNat_not]
  change _ ≤ 2 ^ 64 - 1 - (maxAndLoop 64 l.com.imin.value l.com.imax.value r.com.imin.value r.com.imax.value 0).toNat
  omega

theorem High.ne_zero (h : High x) : x.value ≠ 0 := by
  intro hzero
  unfold High at h
  rw [hzero] at h
  exact absurd h (by decide)

theorem minOr_negative_of_high (h : High l.imin ∨ High r.imin)
    (hs : l.imin.negative = true ∨ r.imin.negative = true) : (minOr l r).negative = true := by
  have hcom : (l.imin.com.negative && r.imin.com.negative) = false := by
    rw [com_negative, com_negative]
    obtain hs | hs := hs <;> simp [hs]
  rw [minOr_negative, hcom, decide_eq_true (high_minOr h).ne_zero]
  rfl

theorem zero_if_lt {c : Prop} [Decidable c] {u : uinteger_t} {n : Nat} (h : u.toNat < 2 ^ n) :
    (if c then 0 else u).toNat < 2 ^ n := by
  split_ifs
  case pos => exact Nat.two_pow_pos n
  case neg => exact h

theorem maxOr_lt {n : Nat} (hl : l.imax.value.toNat < 2 ^ n) (hr : r.imax.value.toNat < 2 ^ n)
    (hmin : l.imin.value.toNat < 2 ^ n ∨ r.imin.value.toNat < 2 ^ n)
    (hs : (l.imax.negative && r.imax.negative) = false) : (maxOr l r).value.toNat < 2 ^ n := by
  have hzero : (0 : uinteger_t).toNat < 2 ^ n := Nat.two_pow_pos n
  have hloop := maxOrLoop_lt le_rfl hzero hl hr hmin
  rw [maxOr]
  dsimp only
  by_cases hne : l.imax.negative ≠ r.imax.negative
  case pos =>
    rw [if_pos hne]
    by_cases hneg : l.imax.negative = true
    case pos =>
      rw [if_pos hneg]
      exact maxOrLoop_lt le_rfl hzero hl hr (hmin.imp zero_if_lt zero_if_lt)
    case neg =>
      rw [if_neg hneg]
      exact hloop
  case neg =>
    rw [if_neg hne]
    split_ifs with hboth hmax
    case pos => exact hloop
    case pos =>
      rw [hmax.1, hmax.2] at hs
      exact absurd hs (by decide)
    case neg => exact hloop

theorem high_minAnd (hl : High l.imin) (hr : High r.imin) (h : High l.imax ∨ High r.imax)
    (hs : (l.imin.com.negative && r.imin.com.negative) = false) : High (minAnd l r) := by
  have hlt := @maxOr_lt l.com r.com 63 (high_com hl) (high_com hr) (h.imp high_com high_com) hs
  unfold High
  rw [minAnd, com_value, BitVec.toNat_not]
  omega

theorem minAnd_nonneg (h : l.imin.com.negative = true ∨ r.imin.com.negative = true) :
    (minAnd l r).negative = false := by
  by_cases hmax : (maxOr l.com r.com).negative = true
  case pos => rw [minAnd_negative, hmax, Bool.not_true, Bool.and_false]
  case neg =>
    rw [Bool.not_eq_true] at hmax
    have hsigns := hmax
    rw [maxOr_negative, Bool.or_eq_false_iff] at hsigns
    change (l.imin.com.negative ^^ r.imin.com.negative) = false ∧ _ at hsigns
    have hp : l.imin.com.negative = true := by
      obtain hp | hq := h
      case inl => exact hp
      case inr => simpa [hq] using hsigns.1
    have hq : r.imin.com.negative = true := by simpa [hp] using hsigns.1
    have hone : maxOr l.com r.com = { value := -1 } := by
      rw [maxOr]
      change (if l.imin.com.negative ≠ r.imin.com.negative then _ else if _ then _ else
        if l.imin.com.negative = true ∧ r.imin.com.negative = true then _ else _) = _
      rw [hp, hq, if_neg (not_not_intro rfl), if_neg, if_pos ⟨rfl, rfl⟩]
      rintro ⟨h₁, h₂⟩
      rw [h₁, h₂] at hsigns
      exact absurd hsigns.2 (by decide)
    rw [minAnd, hone]
    rfl

theorem minAnd_negative_of_high (hl : High l.imin) (hr : High r.imin) (h : High l.imax ∨ High r.imax)
    (hsl : l.imin.negative = true) (hsr : r.imin.negative = true)
    (hs : (l.imax.com.negative && r.imax.com.negative) = false) : (minAnd l r).negative = true := by
  have hp : l.imin.com.negative = false := by rw [com_negative, hsl, Bool.not_true, Bool.and_false]
  have hq : r.imin.com.negative = false := by rw [com_negative, hsr, Bool.not_true, Bool.and_false]
  have hmax : (maxOr l.com r.com).negative = false := by
    rw [maxOr_negative]
    change ((l.imin.com.negative ^^ r.imin.com.negative) || (l.imax.com.negative && r.imax.com.negative)) = false
    rw [hp, hq, hs]
    rfl
  have hne := (high_minAnd hl hr h (by rw [hp, Bool.false_and])).ne_zero
  rw [minAnd_negative, hmax, decide_eq_true hne]
  rfl

theorem least_of_nonneg (h : x.negative = false) : -2 ^ 63 ≤ x.toInt := by
  have hnonneg := nonneg_iff.mp h
  omega

theorem least_of_high (h : High x) : -2 ^ 63 ≤ x.toInt := by
  unfold High at h
  rw [toInt]
  split_ifs <;> omega

theorem minAnd_least (h : (l.imin.com.negative = true ∨ r.imin.com.negative = true) ∨
    (High l.imin ∧ High r.imin ∧ (High l.imax ∨ High r.imax))) : -2 ^ 63 ≤ (minAnd l r).toInt := by
  by_cases hs : l.imin.com.negative = true ∨ r.imin.com.negative = true
  case pos => exact least_of_nonneg (minAnd_nonneg hs)
  case neg =>
    obtain ⟨hl, hr, hmax⟩ := h.resolve_left hs
    refine least_of_high (high_minAnd hl hr hmax ?_)
    rw [← Bool.not_eq_true, Bool.and_eq_true]
    exact fun h => hs (.inl h.1)

theorem maxOr_of_nonneg (hmin : l.imin.negative = false) (hmax : l.imax.negative = false)
    (hs : r.imax.negative = false) :
    maxOr l r = { value := maxOrLoop l.imax.value r.imax.value 64 l.imin.value r.imin.value 0 } := by
  rw [maxOr]
  simp only [hmin, hmax, hs, ne_eq, not_true, if_false, Bool.false_eq_true, false_and]

-- The largest number that there is
theorem maxOr_max (hmin : l.imin.negative = false) (hmax : l.imax.negative = false) (hs : r.imax = max) :
    maxOr l r = max := by
  obtain ⟨rmin, rmax⟩ := r
  obtain rfl : rmax = max := hs
  have hloop := @maxOrLoop_allOnes 0 l.imax.value l.imin.value rmin.value 64 le_rfl rfl
  rw [maxOr_of_nonneg hmin hmax rfl]
  obtain ⟨u, hu⟩ : ∃ u, u = maxOrLoop l.imax.value (BitVec.allOnes 64) 64 l.imin.value rmin.value 0 := ⟨_, rfl⟩
  have hlt := u.isLt
  have hvalue : u = BitVec.allOnes 64 := by
    apply BitVec.eq_of_toNat_eq
    rw [← hu] at hloop
    change 0 + 2 ^ 64 ≤ _ at hloop
    change _ = 2 ^ 64 - 1
    omega
  exact congrArg (SignExtendedNumber.mk · false) (hu.symm.trans hvalue)

end signs

section parts

-- A number of a range whose numbers have the same sign
structure OneSided (r : IntRange) (x : SignExtendedNumber) : Prop where
  between : Between r x.value
  imin    : r.imin.negative = x.negative
  imax    : r.imax.negative = x.negative

-- A number of a range whose bounds have different signs
def Part (r : IntRange) (x : SignExtendedNumber) : Prop :=
  if x.negative then r.imin.value.toNat ≤ x.value.toNat
  else r.imax.negative = false ∧ x.value.toNat ≤ r.imax.value.toNat

theorem part_of_negative (hs : x.negative = true) (h : Part r x) : Between r.below x.value := by
  have hlt := x.value.isLt
  have hones : (-1 : uinteger_t).toNat = 2 ^ 64 - 1 := rfl
  rw [Part, if_pos hs] at h
  refine ⟨h, ?_⟩
  rw [below, hones]
  omega

theorem part_of_nonneg (hs : x.negative = false) (h : Part r x) : Between r.above x.value ∧ r.imax.negative = false := by
  rw [Part, hs, if_neg (by decide)] at h
  exact ⟨⟨Nat.zero_le _, h.2⟩, h.1⟩

theorem value_le (h : x.toInt ≤ y.toInt) (hs : x.negative = y.negative) : x.value.toNat ≤ y.value.toNat := by
  rw [toInt, toInt, hs] at h
  omega

theorem negative_of_le (h : x.toInt ≤ y.toInt) (hy : y.negative = true) : x.negative = true :=
  negative_iff.mpr (h.trans_lt (negative_iff.mp hy))

theorem oneSided_of_mem (hr : r.mixed = false) (h : x.toInt ∈ r) : OneSided r x := by
  have hsame : r.imin.negative = r.imax.negative := by
    rw [mixed] at hr
    simpa using hr
  have hmax : r.imax.negative = x.negative := by
    rw [Bool.eq_iff_iff]
    exact ⟨negative_of_le h.2, fun hx => hsame ▸ negative_of_le h.1 hx⟩
  exact ⟨⟨value_le h.1 (hsame.trans hmax), value_le h.2 hmax.symm⟩, hsame.trans hmax, hmax⟩

theorem signs_of_mixed (hr : r.mixed = true) (h : r.Nonempty) : r.imin.negative = true ∧ r.imax.negative = false := by
  rw [mixed] at hr
  cases hmax : r.imax.negative
  case false => exact ⟨by simpa [hmax] using hr, rfl⟩
  case true =>
    rw [hmax, negative_of_le h hmax] at hr
    exact absurd hr (by decide)

theorem part_of_mem (hr : r.mixed = true) (h : x.toInt ∈ r) : Part r x := by
  obtain ⟨hmin, hmax⟩ := signs_of_mixed hr (nonempty_of_mem h)
  rw [Part]
  split_ifs with hs
  case pos => exact value_le h.1 (hmin.trans hs.symm)
  case neg =>
    rw [Bool.not_eq_true] at hs
    exact ⟨hmax, value_le h.2 (hs.trans hmax.symm)⟩

variable {minimum maximum : IntRange → IntRange → SignExtendedNumber}

theorem combine_imin : (combine minimum maximum l r).imin.toInt =
    Min.min (minimum l r.below).toInt (minimum l r.above).toInt := by
  rw [combine]
  dsimp only
  split_ifs with h <;> rw [lt_iff] at h
  case pos => exact (min_eq_left h.le).symm
  case neg => exact (min_eq_right (not_lt.mp h)).symm

theorem combine_imax : (combine minimum maximum l r).imax.toInt =
    Max.max (maximum l r.below).toInt (maximum l r.above).toInt := by
  rw [combine]
  dsimp only
  split_ifs with h <;> rw [lt_iff] at h
  case pos => exact (max_eq_left h.le).symm
  case neg => exact (max_eq_right (not_lt.mp h)).symm

theorem mem_combine_of_below {i : Int} (hmin : (minimum l r.below).toInt ≤ i) (hmax : i ≤ (maximum l r.below).toInt) :
    i ∈ combine minimum maximum l r :=
  ⟨(combine_imin).trans_le (min_le_of_left_le hmin), (le_max_of_le_left hmax).trans_eq (combine_imax).symm⟩

theorem mem_combine_of_above {i : Int} (hmin : (minimum l r.above).toInt ≤ i) (hmax : i ≤ (maximum l r.above).toInt) :
    i ∈ combine minimum maximum l r :=
  ⟨(combine_imin).trans_le (min_le_of_right_le hmin), (le_max_of_le_right hmax).trans_eq (combine_imax).symm⟩

end parts

section intersections

theorem high_max : High { value := -1 } := by
  unfold High
  decide

theorem com_minusOne {s : Bool} : (SignExtendedNumber.com { value := -1, negative := s }).negative = false := by
  cases s <;> decide

-- One side has numbers of both signs.
theorem combine_and_mem (hl : OneSided l x) (hr : Part r y)
    (h : x.negative = true → y.negative = true → r.imin.negative = true ∧ High l.imin ∧ High r.imin) :
    (bitAnd x y).toInt ∈ combine minAnd maxAnd l r := by
  cases hy : y.negative
  case true =>
    have hbetween := part_of_negative hy hr
    apply mem_combine_of_below
    case hmin =>
      refine toInt_le_toInt (fun hs => ?_) (minAnd_le_and hl.between hbetween)
      have hx := (Bool.and_eq_true_iff.mp hs).1
      obtain ⟨hneg, hhigh, hhigh'⟩ := h hx hy
      have hcom : (l.imax.com.negative && r.below.imax.com.negative) = false := by
        rw [below, com_minusOne, Bool.and_false]
      exact minAnd_negative_of_high hhigh hhigh' (.inr high_max) (hl.imin.trans hx) hneg hcom
    case hmax =>
      refine toInt_le_toInt (fun hs => ?_) (and_le_maxAnd hl.between hbetween)
      exact absurd (Bool.and_eq_true_iff.mp hs).2 Bool.false_ne_true
  case false =>
    obtain ⟨hbetween, hmax⟩ := part_of_nonneg hy hr
    apply mem_combine_of_above
    case hmin =>
      refine toInt_le_toInt (fun hs => ?_) (minAnd_le_and hl.between hbetween)
      exact absurd (hy.symm.trans (Bool.and_eq_true_iff.mp hs).2) Bool.false_ne_true
    case hmax =>
      refine toInt_le_toInt (fun hs => ?_) (and_le_maxAnd hl.between hbetween)
      exact absurd (hmax.symm.trans (Bool.and_eq_true_iff.mp hs).2) Bool.false_ne_true

theorem bitAnd_comm : bitAnd x y = bitAnd y x := by
  rw [bitAnd, bitAnd, BitVec.and_comm, Bool.and_comm]

-- A number in a range that is cut off at minus one
theorem between_minusOne (hr : r.mixed = true) (hx : x.toInt ∈ r) (hs : x.negative = true) :
    Between { r with imax := { value := -1, negative := true } } x.value := by
  have hbetween := part_of_negative hs (part_of_mem hr hx)
  exact ⟨hbetween.low, hbetween.high⟩

theorem and_mem (hx : x.toInt ∈ L) (hy : y.toInt ∈ R)
    (h : L.imin.negative = true → R.imin.negative = true → High L.imin ∧ High R.imin) :
    (bitAnd x y).toInt ∈ and L R := by
  have hl := nonempty_of_mem hx
  have hr := nonempty_of_mem hy
  rw [IntRange.and]
  cases hml : L.mixed <;> cases hmr : R.mixed
  case false.false =>
    have hbl := oneSided_of_mem hml hx
    have hbr := oneSided_of_mem hmr hy
    rw [if_pos ⟨rfl, rfl⟩]
    constructor
    case left =>
      refine toInt_le_toInt (fun hs => ?_) (minAnd_le_and hbl.between hbr.between)
      obtain ⟨hsx, hsy⟩ := Bool.and_eq_true_iff.mp hs
      have hnegl := hbl.imin.trans hsx
      have hnegr := hbr.imin.trans hsy
      obtain ⟨hhigh, hhigh'⟩ := h hnegl hnegr
      have hcom : (L.imax.com.negative && R.imax.com.negative) = false := by
        rw [com_negative, hbl.imax, hsx, Bool.not_true, Bool.and_false, Bool.false_and]
      have hhigh'' : High L.imax := hhigh.trans (hbl.between.low.trans hbl.between.high)
      exact minAnd_negative_of_high hhigh hhigh' (.inl hhigh'') hnegl hnegr hcom
    case right =>
      refine toInt_le_toInt (fun hs => ?_) (and_le_maxAnd hbl.between hbr.between)
      obtain ⟨hsl, hsr⟩ := Bool.and_eq_true_iff.mp hs
      exact Bool.and_eq_true_iff.mpr ⟨hbl.imax.symm.trans hsl, hbr.imax.symm.trans hsr⟩
  case true.true =>
    obtain ⟨hnegl, hposl⟩ := signs_of_mixed hml hl
    obtain ⟨hnegr, hposr⟩ := signs_of_mixed hmr hr
    obtain ⟨hhigh, hhigh'⟩ := h hnegl hnegr
    have hneg : (minAnd { L with imax := { value := -1, negative := true } }
        { R with imax := { value := -1, negative := true } }).negative = true :=
      minAnd_negative_of_high hhigh hhigh' (.inl high_max) hnegl hnegr (by rw [com_minusOne, Bool.false_and])
    rw [if_neg (fun h => Bool.false_ne_true h.1), if_pos ⟨rfl, rfl⟩]
    constructor
    case left =>
      cases hs : (bitAnd x y).negative
      case true =>
        obtain ⟨hsx, hsy⟩ := Bool.and_eq_true_iff.mp hs
        have hbl := between_minusOne hml hx hsx
        have hbr := between_minusOne hmr hy hsy
        exact toInt_le_toInt (fun _ => hneg) (minAnd_le_and hbl hbr)
      case false => exact (negative_iff.mp hneg).le.trans (nonneg_iff.mp hs)
    case right =>
      -- A number that is not negative is not smaller than its intersection with another one.
      have hle {z : SignExtendedNumber} {r : IntRange} (hz : z.toInt ∈ r) (hs : z.negative = false)
          (hv : (bitAnd x y).value.toNat ≤ z.value.toNat) : (bitAnd x y).toInt ≤ r.imax.toInt := by
        refine le_trans (toInt_le_toInt (fun h => ?_) hv) hz.2
        exact absurd (hs.symm.trans h) Bool.false_ne_true
      have hmax : L.imax.toInt ≤ (if L.imax.value > R.imax.value then L.imax else R.imax).toInt ∧
          R.imax.toInt ≤ (if L.imax.value > R.imax.value then L.imax else R.imax).toInt := by
        have hlt : L.imax.value > R.imax.value ↔ R.imax.toInt < L.imax.toInt := by
          rw [gt_iff_lt, BitVec.lt_def, toInt_of_nonneg hposl, toInt_of_nonneg hposr, Nat.cast_lt]
        simp only [hlt]
        split_ifs <;> omega
      cases hsx : x.negative
      case false =>
        refine (hle hx hsx ?_).trans hmax.1
        rw [bitAnd, BitVec.toNat_and]
        exact Nat.and_le_left
      case true =>
        cases hsy : y.negative
        case false =>
          refine (hle hy hsy ?_).trans hmax.2
          rw [bitAnd, BitVec.toNat_and]
          exact Nat.and_le_right
        case true =>
          have hs : (bitAnd x y).negative = true := Bool.and_eq_true_iff.mpr ⟨hsx, hsy⟩
          exact (negative_iff.mp hs).le.trans ((nonneg_iff.mp hposl).trans hmax.1)
  case true.false =>
    rw [if_neg (fun h => Bool.false_ne_true h.1), if_neg (fun h => Bool.false_ne_true h.2), if_pos rfl, bitAnd_comm]
    refine combine_and_mem (oneSided_of_mem hmr hy) (part_of_mem hml hx) (fun hsy hsx => ?_)
    have hnegl := negative_of_le hx.1 hsx
    obtain ⟨hhigh, hhigh'⟩ := h hnegl (negative_of_le hy.1 hsy)
    exact ⟨hnegl, hhigh', hhigh⟩
  case false.true =>
    rw [if_neg (fun h => Bool.false_ne_true h.2), if_neg (fun h => Bool.false_ne_true h.1), if_neg Bool.false_ne_true]
    refine combine_and_mem (oneSided_of_mem hml hx) (part_of_mem hmr hy) (fun hsx hsy => ?_)
    have hnegr := negative_of_le hy.1 hsy
    obtain ⟨hhigh, hhigh'⟩ := h (negative_of_le hx.1 hsx) hnegr
    exact ⟨hnegr, hhigh, hhigh'⟩

end intersections

section unions

theorem bitOr_comm : bitOr x y = bitOr y x := by
  rw [bitOr, bitOr, BitVec.or_comm, Bool.or_comm]

theorem bitOr_negative : (bitOr x y).negative = true ↔ x.negative = true ∨ y.negative = true :=
  Bool.or_eq_true_iff

theorem combine_or_mem (hl : OneSided l x) (hr : Part r y) (hx : x.negative = true → High l.imin)
    (hy : y.negative = true → r.imin.negative = true ∧ High r.imin) :
    (bitOr x y).toInt ∈ combine minOr maxOr l r := by
  cases hs : y.negative
  case true =>
    have hbetween := part_of_negative hs hr
    obtain ⟨hneg, hhigh⟩ := hy hs
    apply mem_combine_of_below
    case hmin =>
      exact toInt_le_toInt (fun _ => minOr_negative_of_high (.inr hhigh) (.inr hneg)) (minOr_le_or hl.between hbetween)
    case hmax =>
      exact toInt_le_toInt (fun _ => (bitOr_negative).mpr (.inr hs)) (or_le_maxOr hl.between hbetween)
  case false =>
    obtain ⟨hbetween, hmax⟩ := part_of_nonneg hs hr
    apply mem_combine_of_above
    case hmin =>
      refine toInt_le_toInt (fun hneg => ?_) (minOr_le_or hl.between hbetween)
      have hsx := ((bitOr_negative).mp hneg).resolve_right (fun h => Bool.false_ne_true (hs.symm.trans h))
      exact minOr_negative_of_high (.inl (hx hsx)) (.inl (hl.imin.trans hsx))
    case hmax =>
      refine toInt_le_toInt (fun hneg => ?_) (or_le_maxOr hl.between hbetween)
      rw [maxOr_negative, hl.imax] at hneg
      change ((x.negative ^^ r.imax.negative) || (l.imin.negative && false)) = true at hneg
      rw [hmax, Bool.and_false, Bool.or_false, Bool.xor_false] at hneg
      exact (bitOr_negative).mpr (.inl hneg)

theorem or_mem (hx : x.toInt ∈ L) (hy : y.toInt ∈ R)
    (h : x.negative = true ∨ y.negative = true → (L.imin.negative = true → High L.imin) ∧
      (R.imin.negative = true → High R.imin)) : (bitOr x y).toInt ∈ or L R := by
  have hl := nonempty_of_mem hx
  have hr := nonempty_of_mem hy
  rw [IntRange.or]
  cases hml : L.mixed <;> cases hmr : R.mixed
  case false.false =>
    have hbl := oneSided_of_mem hml hx
    have hbr := oneSided_of_mem hmr hy
    rw [if_pos ⟨rfl, rfl⟩]
    constructor
    case left =>
      refine toInt_le_toInt (fun hs => ?_) (minOr_le_or hbl.between hbr.between)
      have hsigns := (bitOr_negative).mp hs
      obtain ⟨hhigh, hhigh'⟩ := h hsigns
      obtain hsx | hsy := hsigns
      case inl => exact minOr_negative_of_high (.inl (hhigh (hbl.imin.trans hsx))) (.inl (hbl.imin.trans hsx))
      case inr => exact minOr_negative_of_high (.inr (hhigh' (hbr.imin.trans hsy))) (.inr (hbr.imin.trans hsy))
    case right =>
      refine toInt_le_toInt (fun hs => ?_) (or_le_maxOr hbl.between hbr.between)
      rw [maxOr_negative, hbl.imax, hbl.imin, hbr.imax, hbr.imin] at hs
      rw [bitOr_negative]
      revert hs
      cases x.negative <;> cases y.negative <;> decide
  case true.true =>
    obtain ⟨hnegl, hposl⟩ := signs_of_mixed hml hl
    obtain ⟨hnegr, hposr⟩ := signs_of_mixed hmr hr
    rw [if_neg (fun h => Bool.false_ne_true h.1), if_pos ⟨rfl, rfl⟩]
    constructor
    case left =>
      -- A union with a negative number is not smaller than that number.
      have hmin : (if L.imin.value < R.imin.value then L.imin else R.imin).toInt ≤ L.imin.toInt ∧
          (if L.imin.value < R.imin.value then L.imin else R.imin).toInt ≤ R.imin.toInt := by
        have hlt : L.imin.value < R.imin.value ↔ L.imin.toInt < R.imin.toInt := by
          rw [BitVec.lt_def, toInt_of_negative hnegl, toInt_of_negative hnegr]
          omega
        simp only [hlt]
        split_ifs <;> omega
      cases hsx : x.negative
      case true =>
        refine hmin.1.trans (hx.1.trans (toInt_le_toInt (fun _ => hsx) ?_))
        rw [bitOr, BitVec.toNat_or]
        exact Nat.left_le_or
      case false =>
        cases hsy : y.negative
        case true =>
          refine hmin.2.trans (hy.1.trans (toInt_le_toInt (fun _ => hsy) ?_))
          rw [bitOr, BitVec.toNat_or]
          exact Nat.right_le_or
        case false =>
          have hs : (bitOr x y).negative = false := Bool.or_eq_false_iff.mpr ⟨hsx, hsy⟩
          exact hmin.1.trans ((negative_iff.mp hnegl).le.trans (nonneg_iff.mp hs))
    case right =>
      have hneg : (maxOr { L with imin := { value := 0 } } { R with imin := { value := 0 } }).negative = false := by
        rw [maxOr_negative, hposl, hposr]
        rfl
      cases hs : (bitOr x y).negative
      case true => exact (negative_iff.mp hs).le.trans (nonneg_iff.mp hneg)
      case false =>
        obtain ⟨hsx, hsy⟩ := Bool.or_eq_false_iff.mp hs
        have hbl := (part_of_nonneg hsx (part_of_mem hml hx)).1
        have hbr := (part_of_nonneg hsy (part_of_mem hmr hy)).1
        refine toInt_le_toInt (fun h => ?_) (or_le_maxOr ⟨hbl.low, hbl.high⟩ ⟨hbr.low, hbr.high⟩)
        exact absurd (hneg.symm.trans h) Bool.false_ne_true
  case true.false =>
    rw [if_neg (fun h => Bool.false_ne_true h.1), if_neg (fun h => Bool.false_ne_true h.2), if_pos rfl, bitOr_comm]
    refine combine_or_mem (oneSided_of_mem hmr hy) (part_of_mem hml hx) (fun hs => ?_) (fun hs => ?_)
    · exact (h (.inr hs)).2 (negative_of_le hy.1 hs)
    · exact ⟨negative_of_le hx.1 hs, (h (.inl hs)).1 (negative_of_le hx.1 hs)⟩
  case false.true =>
    rw [if_neg (fun h => Bool.false_ne_true h.2), if_neg (fun h => Bool.false_ne_true h.1), if_neg Bool.false_ne_true]
    refine combine_or_mem (oneSided_of_mem hml hx) (part_of_mem hmr hy) (fun hs => ?_) (fun hs => ?_)
    · exact (h (.inl hs)).1 (negative_of_le hx.1 hs)
    · exact ⟨negative_of_le hy.1 hs, (h (.inr hs)).2 (negative_of_le hy.1 hs)⟩

end unions

section least

theorem high_of_negative (h : -2 ^ 63 ≤ x.toInt) (hs : x.negative = true) : High x := by
  rw [toInt_of_negative hs] at h
  unfold High
  omega

theorem com_or_high (h : -2 ^ 63 ≤ x.toInt) : x.com.negative = true ∨ High x := by
  cases hs : x.negative
  case true => exact .inr (high_of_negative h hs)
  case false =>
    by_cases hones : x.value = BitVec.allOnes 64
    case pos =>
      refine .inr ?_
      unfold High
      rw [hones]
      decide
    case neg => exact .inl (by rw [com_negative, decide_eq_true hones, hs, Bool.not_false, Bool.and_true])

theorem combine_least (h : (l.imin.com.negative = true ∨ r.imin.com.negative = true) ∨ (High l.imin ∧ High r.imin)) :
    -2 ^ 63 ≤ (combine minAnd maxAnd l r).imin.toInt := by
  rw [combine_imin]
  apply le_min
  case h₁ => exact minAnd_least (h.imp_right fun h => ⟨h.1, h.2, .inr high_max⟩)
  case h₂ =>
    have hcom : (SignExtendedNumber.com { value := 0 }).negative = true := by decide
    exact minAnd_least (.inl (.inr hcom))

theorem high_imax (hr : r.Nonempty) (hm : r.mixed = false) (h : High r.imin) : High r.imax := by
  have hside := oneSided_of_mem hm (imin_mem hr)
  exact h.trans hside.between.high

theorem and_least (hne : L.Nonempty ∨ R.Nonempty)
    (h : (L.imin.com.negative = true ∨ R.imin.com.negative = true) ∨ (High L.imin ∧ High R.imin)) :
    -2 ^ 63 ≤ (and L R).imin.toInt := by
  rw [IntRange.and]
  cases hml : L.mixed <;> cases hmr : R.mixed
  case false.false =>
    rw [if_pos ⟨rfl, rfl⟩]
    refine minAnd_least (h.imp_right fun h => ⟨h.1, h.2, ?_⟩)
    exact hne.imp (high_imax · hml h.1) (high_imax · hmr h.2)
  case true.true =>
    rw [if_neg (fun h => Bool.false_ne_true h.1), if_pos ⟨rfl, rfl⟩]
    exact minAnd_least (h.imp_right fun h => ⟨h.1, h.2, .inl high_max⟩)
  case true.false =>
    rw [if_neg (fun h => Bool.false_ne_true h.1), if_neg (fun h => Bool.false_ne_true h.2), if_pos rfl]
    exact combine_least (h.imp Or.symm And.symm)
  case false.true =>
    rw [if_neg (fun h => Bool.false_ne_true h.2), if_neg (fun h => Bool.false_ne_true h.1), if_neg Bool.false_ne_true]
    exact combine_least h

end least

section differences

theorem com_mem (hmax : R.imax.toInt ≠ 2 ^ 64 - 1) (hy : y.toInt ∈ R) : y.bitNot.toInt ∈ com R := by
  have hbounds := @toInt_bounds R.imax
  obtain ⟨hlow, hhigh⟩ := hy
  change R.imax.com.toInt ≤ _ ∧ _ ≤ R.imin.com.toInt
  rw [com_eq_bitNot hmax, com_eq_bitNot (by omega), toInt_bitNot, toInt_bitNot, toInt_bitNot]
  omega

theorem com_of_max (h : x.toInt = 2 ^ 64 - 1) : x.com = { value := 0 } := by
  have hmax : x = max := toInt_inj.mp (h.trans rfl)
  rw [hmax]
  decide

-- The numbers of one range that are not in a number of the other one, in both orders
theorem and_com_mem (hL : L.Proper) (hx : x.toInt ∈ L) (hy : y.toInt ∈ R) (h : L.imin.toInt < 0 → R.imax.toInt < 2 ^ 63)
    (hs : R.imin.toInt < 0 → R.imax.toInt = 2 ^ 64 - 1 → y.negative = true) :
    (bitAnd x y.bitNot).toInt ∈ and L (com R) ∧ (bitAnd x y.bitNot).toInt ∈ and (com R) L := by
  have hlow : L.imin.negative = true → (com R).imin.negative = true → High L.imin ∧ High (com R).imin := by
    intro hneg hneg'
    have hsmall := h (negative_iff.mp hneg)
    refine ⟨high_of_negative hL.least hneg, high_of_negative ?_ hneg'⟩
    change -2 ^ 63 ≤ R.imax.com.toInt
    rw [com_eq_bitNot (by omega), toInt_bitNot]
    omega
  -- A number that the complement of the range has takes the place of the complement.
  have hmem {z : SignExtendedNumber} (hz : z.toInt ∈ com R) (heq : bitAnd x y.bitNot = bitAnd x z) :
      (bitAnd x y.bitNot).toInt ∈ and L (com R) ∧ (bitAnd x y.bitNot).toInt ∈ and (com R) L := by
    rw [heq]
    refine ⟨and_mem hx hz hlow, ?_⟩
    rw [bitAnd_comm]
    exact and_mem hz hx fun hneg hneg' => (hlow hneg' hneg).symm
  by_cases hmax : R.imax.toInt = 2 ^ 64 - 1
  case neg => exact hmem (com_mem hmax hy) rfl
  case pos =>
    have hmin : (com R).imin = { value := 0 } := com_of_max hmax
    by_cases hneg : R.imin.toInt < 0
    case pos =>
      have hsy := negative_iff.mp (hs hneg hmax)
      refine hmem (z := y.bitNot) ?_ rfl
      change (com R).imin.toInt ≤ _ ∧ _ ≤ R.imin.com.toInt
      rw [hmin, com_eq_bitNot (by omega), toInt_bitNot, toInt_bitNot]
      change (0 : Int) ≤ _ ∧ _
      have hlow := hy.1
      omega
    case neg =>
      have hnonneg : ¬L.imin.toInt < 0 := fun hlt => by
        have hsmall := h hlt
        omega
      have hsx : x.negative = false := nonneg_iff.mpr ((not_lt.mp hnonneg).trans hx.1)
      by_cases hall : R.imin.toInt = 2 ^ 64 - 1
      case pos =>
        have hymax : y = max := by
          have hlow := hy.1
          have hbounds := @toInt_bounds y
          refine toInt_inj.mp (Eq.trans ?_ (rfl : (2 ^ 64 - 1 : Int) = max.toInt))
          omega
        refine hmem (z := { value := 0 }) ?_ ?_
        · change R.imax.com.toInt ≤ _ ∧ _ ≤ R.imin.com.toInt
          rw [com_of_max hmax, com_of_max hall]
          exact ⟨le_rfl, le_rfl⟩
        · rw [hymax, bitAnd, bitAnd, hsx]
          rfl
      case neg =>
        have hcom : (com R).imax.negative = true := by
          change R.imin.com.negative = true
          rw [com_eq_bitNot hall, bitNot, nonneg_iff.mpr (not_lt.mp hneg)]
          rfl
        have hmixed : (com R).mixed = true := by
          rw [mixed, hmin, hcom]
          rfl
        have hsl : L.imin.negative = false := nonneg_iff.mpr (not_lt.mp hnonneg)
        have hsl' : L.imax.negative = false := nonneg_iff.mpr ((not_lt.mp hnonneg).trans hL.nonempty)
        have hhomog : L.mixed = false := by
          rw [mixed, hsl, hsl']
          rfl
        have hpart : Part (com R) y.bitNot := by
          have hsy : y.negative = false := nonneg_iff.mpr ((not_lt.mp hneg).trans hy.1)
          have hsn : y.bitNot.negative = true := by
            rw [bitNot, hsy]
            rfl
          rw [Part, if_pos hsn, hmin]
          exact Nat.zero_le _
        have hcombine := combine_and_mem (oneSided_of_mem hhomog hx) hpart
          (fun hneg => absurd (hsx.symm.trans hneg) Bool.false_ne_true)
        rw [IntRange.and, IntRange.and, hhomog, hmixed]
        exact ⟨hcombine, hcombine⟩

theorem and_com_least (hL : L.Proper)
    (h : R.imax.toInt < 2 ^ 63 ∨ (0 ≤ L.imin.toInt ∧ L.imin.toInt < 2 ^ 63)) :
    -2 ^ 63 ≤ (and L (com R)).imin.toInt ∧ -2 ^ 63 ≤ (and (com R) L).imin.toInt := by
  have hcond : (L.imin.com.negative = true ∨ (com R).imin.com.negative = true) ∨ (High L.imin ∧ High (com R).imin) := by
    obtain h | ⟨hnonneg, hlt⟩ := h
    case inl =>
      have hcom : -2 ^ 63 ≤ (com R).imin.toInt := by
        change -2 ^ 63 ≤ R.imax.com.toInt
        rw [com_eq_bitNot (by omega), toInt_bitNot]
        omega
      obtain hs | hl := com_or_high hL.least
      case inl => exact .inl (.inl hs)
      case inr =>
        obtain hs | hr := com_or_high hcom
        case inl => exact .inl (.inr hs)
        case inr => exact .inr ⟨hl, hr⟩
    case inr =>
      refine .inl (.inl ?_)
      rw [com_eq_bitNot (by omega), bitNot, nonneg_iff.mpr hnonneg]
      rfl
  exact ⟨and_least (.inl hL.nonempty) hcond, and_least (.inr hL.nonempty) (hcond.imp Or.symm And.symm)⟩

-- Numbers that are not negative, and a range whose numbers below zero are taken for large ones
theorem or_top {A B : IntRange} (hmin : A.imin.negative = false) (hmax : A.imax.negative = false)
    (hlow : B.imin.negative = true) (hhigh : High B.imin) (htop : B.imax.negative = false)
    (hx : x.negative = false) : x.toInt ∈ or A B ∧ x.toInt ∈ or B A := by
  have hnonneg := nonneg_iff.mp hx
  have hcombine : x.toInt ∈ combine minOr maxOr A B := by
    refine mem_combine_of_below ?_ ?_
    · have hneg := negative_iff.mp (minOr_negative_of_high (l := A) (r := B.below) (.inr hhigh) (.inr hlow))
      omega
    · rw [maxOr_max hmin hmax rfl]
      have hbounds := @toInt_bounds x
      exact hbounds.2
  have hA : A.mixed = false := by
    rw [mixed, hmin, hmax]
    rfl
  have hB : B.mixed = true := by
    rw [mixed, hlow, htop]
    rfl
  rw [IntRange.or, IntRange.or, hA, hB]
  exact ⟨hcombine, hcombine⟩

end differences

section symmetric

theorem bitXor_comm : bitXor x y = bitXor y x := by
  rw [bitXor, bitXor, BitVec.xor_comm, Bool.xor_comm]

-- The complement of the range of `y` does not have the complement of `y`.
theorem xor_top (hL : L.Proper) (hR : R.Proper) (hx : x.toInt ∈ L) (hy : y.toInt ∈ R)
    (hneg : R.imin.toInt < 0) (hmax : R.imax.toInt = 2 ^ 64 - 1) (hnonneg : 0 ≤ L.imin.toInt)
    (hsmall : L.imax.toInt < 2 ^ 63) (hs : y.negative = false) :
    (bitXor x y).toInt ∈ xor L R ∧ (bitXor x y).toInt ∈ xor R L := by
  have hne := hL.nonempty
  unfold Nonempty at hne
  have hlow : L.imin.negative = false := nonneg_iff.mpr hnonneg
  have hhigh : L.imax.negative = false := nonneg_iff.mpr (hnonneg.trans hne)
  have hcom : L.imin.com.negative = true := by
    rw [com_eq_bitNot (by omega), bitNot, hlow]
    rfl
  have hsx : x.negative = false := nonneg_iff.mpr (hnonneg.trans hx.1)
  have hminR : (com R).imin = { value := 0 } := com_of_max hmax
  have hmaxR : (com R).imax.negative = false := by
    change R.imin.com.negative = false
    rw [com_eq_bitNot (by omega), bitNot, negative_iff.mpr hneg]
    rfl
  have hL' : L.mixed = false := by
    rw [mixed, hlow, hhigh]
    rfl
  have hR' : (com R).mixed = false := by
    rw [mixed, hminR, hmaxR]
    rfl
  have hA : ((and L (com R)).imin.negative = false ∧ (and L (com R)).imax.negative = false) ∧
      (and (com R) L).imin.negative = false ∧ (and (com R) L).imax.negative = false := by
    rw [IntRange.and, IntRange.and, hL', hR']
    refine ⟨⟨minAnd_nonneg (.inl hcom), ?_⟩, minAnd_nonneg (.inr hcom), ?_⟩
    · change (L.imax.negative && (com R).imax.negative) = false
      rw [hhigh, Bool.false_and]
    · change ((com R).imax.negative && L.imax.negative) = false
      rw [hhigh, Bool.and_false]
  have hmem {z : SignExtendedNumber} (hz : z.toInt ∈ R) := and_com_mem hR hz hx (fun _ => hsmall)
    (fun hlt => absurd hnonneg (not_le.mpr hlt))
  have hleast := and_com_least hR (.inl hsmall)
  have hsn : x.bitNot.negative = true := by
    rw [bitNot, hsx]
    rfl
  have hsz : (bitAnd R.imin x.bitNot).negative = true := by
    rw [bitAnd, hsn, negative_iff.mpr hneg]
    rfl
  have hsy : (bitAnd y x.bitNot).negative = false := by
    rw [bitAnd, hs]
    rfl
  have hB {B : IntRange} (hz : (bitAnd R.imin x.bitNot).toInt ∈ B) (hy : (bitAnd y x.bitNot).toInt ∈ B)
      (hleast : -2 ^ 63 ≤ B.imin.toInt) : B.imin.negative = true ∧ High B.imin ∧ B.imax.negative = false := by
    have hneg := negative_of_le hz.1 hsz
    exact ⟨hneg, high_of_negative hleast hneg, nonneg_iff.mpr ((nonneg_iff.mp hsy).trans hy.2)⟩
  have hxor : (bitXor x y).negative = false := by
    rw [bitXor, hsx, hs]
    rfl
  obtain ⟨hlow₁, hhigh₁, htop₁⟩ := hB (hmem (imin_mem hR.nonempty)).1 (hmem hy).1 hleast.1
  obtain ⟨hlow₂, hhigh₂, htop₂⟩ := hB (hmem (imin_mem hR.nonempty)).2 (hmem hy).2 hleast.2
  exact ⟨(or_top hA.1.1 hA.1.2 hlow₂ hhigh₂ htop₂ hxor).1, (or_top hA.2.1 hA.2.2 hlow₁ hhigh₁ htop₁ hxor).2⟩

theorem xor_mem (hL : L.Proper) (hR : R.Proper) (hx : x.toInt ∈ L) (hy : y.toInt ∈ R)
    (hl : L.imin.toInt < 0 → R.imax.toInt < 2 ^ 63) (hr : R.imin.toInt < 0 → L.imax.toInt < 2 ^ 63) :
    (bitXor x y).toInt ∈ xor L R := by
  by_cases htop : R.imin.toInt < 0 ∧ R.imax.toInt = 2 ^ 64 - 1 ∧ y.negative = false
  case pos =>
    obtain ⟨hneg, hmax, hs⟩ := htop
    have hnonneg : 0 ≤ L.imin.toInt := by
      by_contra hlt
      have hsmall := hl (not_le.mp hlt)
      omega
    exact (xor_top hL hR hx hy hneg hmax hnonneg (hr hneg) hs).1
  case neg =>
    by_cases htop' : L.imin.toInt < 0 ∧ L.imax.toInt = 2 ^ 64 - 1 ∧ x.negative = false
    case pos =>
      obtain ⟨hneg, hmax, hs⟩ := htop'
      have hnonneg : 0 ≤ R.imin.toInt := by
        by_contra hlt
        have hsmall := hr (not_le.mp hlt)
        omega
      rw [bitXor_comm]
      exact (xor_top hR hL hy hx hneg hmax hnonneg (hl hneg) hs).2
    case neg =>
      have hsign {s : Bool} {p q : Prop} (h : ¬(p ∧ q ∧ s = false)) (hp : p) (hq : q) : s = true :=
        Bool.eq_true_of_not_eq_false fun hs => h ⟨hp, hq, hs⟩
      have hA := (and_com_mem hL hx hy hl (hsign htop)).1
      have hB := (and_com_mem hR hy hx hr (hsign htop')).2
      rw [bitXor_eq, @bitAnd_comm x.bitNot]
      refine or_mem hA hB fun hneg => ?_
      have hsmall : (R.imax.toInt < 2 ^ 63 ∨ (0 ≤ L.imin.toInt ∧ L.imin.toInt < 2 ^ 63)) ∧
          (L.imax.toInt < 2 ^ 63 ∨ (0 ≤ R.imin.toInt ∧ R.imin.toInt < 2 ^ 63)) := by
        have hne := hL.nonempty
        have hne' := hR.nonempty
        unfold Nonempty at hne hne'
        have hxy : x.toInt < 0 ∨ y.toInt < 0 := by
          refine hneg.imp (fun h => negative_iff.mp ?_) (fun h => negative_iff.mp ?_) <;>
            exact (Bool.and_eq_true_iff.mp h).1
        have hlow := hx.1
        have hlow' := hy.1
        omega
      obtain ⟨hleast, -⟩ := and_com_least hL hsmall.1
      obtain ⟨-, hleast'⟩ := and_com_least hR hsmall.2
      exact ⟨high_of_negative hleast, high_of_negative hleast'⟩

end symmetric

section soundness

theorem exists_toInt {i : Int} (hi : i ∈ r) : ∃ x : SignExtendedNumber, x.toInt = i := by
  have hlow := @toInt_bounds r.imin
  have hhigh := @toInt_bounds r.imax
  obtain ⟨hmin, hmax⟩ := hi
  by_cases hneg : i < 0
  case pos =>
    refine ⟨{ value := BitVec.ofNat 64 (i + 2 ^ 64).toNat, negative := true }, ?_⟩
    rw [toInt_of_negative rfl, BitVec.toNat_ofNat]
    omega
  case neg =>
    refine ⟨{ value := BitVec.ofNat 64 i.toNat }, ?_⟩
    rw [toInt_of_nonneg rfl, BitVec.toNat_ofNat]
    omega

-- The operands of an exclusive or have numbers of one type, so a negative number does not meet one that only an
-- unsigned type has.
theorem bitwise_sound (hL : L.Proper) (hR : R.Proper) :
    ∀ a ∈ L, ∀ b ∈ R, Int.land a b ∈ and L R ∧ Int.lor a b ∈ or L R ∧
      ((L.imin.toInt < 0 → R.imax.toInt < 2 ^ 63) → (R.imin.toInt < 0 → L.imax.toInt < 2 ^ 63) →
        Int.xor a b ∈ xor L R) := by
  intro a ha b hb
  obtain ⟨x, rfl⟩ := exists_toInt ha
  obtain ⟨y, rfl⟩ := exists_toInt hb
  have hl := high_of_negative hL.least
  have hr := high_of_negative hR.least
  rw [← toInt_bitAnd, ← toInt_bitOr, ← toInt_bitXor]
  exact ⟨and_mem ha hb fun hs hs' => ⟨hl hs, hr hs'⟩, or_mem ha hb fun _ => ⟨hl, hr⟩, xor_mem hL hR ha hb⟩

theorem bitwise_sound_spanning :
    let L : IntRange := { imin := { value := -3, negative := true }, imax := { value := 12 } }
    let R : IntRange := { imin := { value := 5 }, imax := { value := 9 } }
    L.Proper ∧ R.Proper ∧ Int.land (-3) 5 ∈ and L R ∧ Int.xor (-3) 5 ∈ xor L R := by
  intro L R
  have hL : L.Proper := ⟨by decide, by decide⟩
  have hR : R.Proper := ⟨by decide, by decide⟩
  obtain ⟨hand, -, hxor⟩ := bitwise_sound hL hR (-3) ⟨by decide, by decide⟩ 5 ⟨by decide, by decide⟩
  exact ⟨hL, hR, hand, hxor (fun _ => by decide) (fun _ => by decide)⟩

-- The largest number has no complement.
theorem xor_of_max :
    let L : IntRange := { imin := { value := -1, negative := true }, imax := { value := -1, negative := true } }
    let R : IntRange := { imin := SignExtendedNumber.max, imax := SignExtendedNumber.max }
    L.Proper ∧ R.Proper ∧ (-1 : Int) ∈ L ∧ (2 ^ 64 - 1 : Int) ∈ R ∧ Int.xor (-1) (2 ^ 64 - 1) ∉ xor L R := by
  refine ⟨⟨by decide, by decide⟩, ⟨by decide, by decide⟩, ⟨by decide, by decide⟩, ⟨by decide, by decide⟩, ?_⟩
  rintro ⟨hlow, -⟩
  revert hlow
  decide

end soundness

end IntRange

end Compiler.Intrange
