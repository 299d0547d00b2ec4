import DmdModel.Compiler.Intrange.Theorems.Numbers
import DmdModel.Lib.Corners

-- The arithmetic of ranges.

namespace Compiler.Intrange

open SignExtendedNumber

namespace IntRange

variable {L R r : IntRange} {a b c d : SignExtendedNumber} {i j : Int}

instance : Membership Int IntRange where
  mem r i := r.imin.toInt ≤ i ∧ i ≤ r.imax.toInt

def Nonempty (r : IntRange) : Prop :=
  r.imin.toInt ≤ r.imax.toInt

instance {r : IntRange} : Decidable r.Nonempty := inferInstanceAs (Decidable (_ ≤ _))

-- The ranges of the integral types and of their subsets
structure Proper (r : IntRange) : Prop where
  nonempty : r.Nonempty
  least    : -2 ^ 63 ≤ r.imin.toInt

theorem nonempty_of_mem (h : i ∈ r) : r.Nonempty :=
  h.1.trans h.2

section numbers

theorem toInt_fromNumbers2 : (fromNumbers2 a b).imin.toInt = Min.min a.toInt b.toInt ∧
    (fromNumbers2 a b).imax.toInt = Max.max a.toInt b.toInt := by
  rw [fromNumbers2]
  split_ifs with h <;> rw [lt_iff] at h
  case pos => exact ⟨(min_eq_left h.le).symm, (max_eq_right h.le).symm⟩
  case neg => exact ⟨(min_eq_right (not_lt.mp h)).symm, (max_eq_left (not_lt.mp h)).symm⟩

theorem toInt_fromNumbers4 :
    (fromNumbers4 a b c d).imin.toInt = Min.min (Min.min a.toInt b.toInt) (Min.min c.toInt d.toInt) ∧
      (fromNumbers4 a b c d).imax.toInt = Max.max (Max.max a.toInt b.toInt) (Max.max c.toInt d.toInt) := by
  obtain ⟨hmin, hmax⟩ := @toInt_fromNumbers2 a b
  obtain ⟨hmin', hmax'⟩ := @toInt_fromNumbers2 c d
  rw [← hmin, ← hmax, ← hmin', ← hmax', fromNumbers4]
  dsimp only
  constructor
  case left =>
    split_ifs with h <;> rw [lt_iff] at h
    case pos => exact (min_eq_right h.le).symm
    case neg => exact (min_eq_left (not_lt.mp h)).symm
  case right =>
    split_ifs with h <;> rw [lt_iff] at h
    case pos => exact (max_eq_right h.le).symm
    case neg => exact (max_eq_left (not_lt.mp h)).symm

theorem nonempty_fromNumbers4 : (fromNumbers4 a b c d).Nonempty := by
  obtain ⟨hmin, hmax⟩ := @toInt_fromNumbers4 a b c d
  rw [Nonempty, hmin, hmax]
  omega

-- A function of two numbers over two ranges lies between its values in the corners.
theorem mem_fromNumbers4 {f : Int → Int → Int} (ha : i ∈ L) (hb : j ∈ R)
    (hf : ∀ j ∈ Set.Icc R.imin.toInt R.imax.toInt, Corners.OneWay (f · j) L.imin.toInt L.imax.toInt)
    (hmin : Corners.OneWay (f L.imin.toInt) R.imin.toInt R.imax.toInt)
    (hmax : Corners.OneWay (f L.imax.toInt) R.imin.toInt R.imax.toInt)
    (h₁ : a.toInt = f L.imin.toInt R.imin.toInt) (h₂ : b.toInt = f L.imin.toInt R.imax.toInt)
    (h₃ : c.toInt = f L.imax.toInt R.imin.toInt) (h₄ : d.toInt = f L.imax.toInt R.imax.toInt) :
    f i j ∈ fromNumbers4 a b c d := by
  obtain ⟨hl, hu⟩ := @toInt_fromNumbers4 a b c d
  have hcorners := Corners.between hf hmin hmax ha hb
  rw [← h₁, ← h₂, ← h₃, ← h₄, ← hl, ← hu] at hcorners
  exact hcorners

end numbers

section sums

theorem add_mem (ha : i ∈ L) (hb : j ∈ R) : clamp (i + j) ∈ add L R := by
  change (L.imin.add R.imin).toInt ≤ _ ∧ _ ≤ (L.imax.add R.imax).toInt
  rw [toInt_add, toInt_add]
  exact ⟨clamp_mono (add_le_add ha.1 hb.1), clamp_mono (add_le_add ha.2 hb.2)⟩

theorem sub_mem (ha : i ∈ L) (hb : j ∈ R) : clamp (i - j) ∈ sub L R := by
  change (L.imin.sub R.imax).toInt ≤ _ ∧ _ ≤ (L.imax.sub R.imin).toInt
  rw [toInt_sub, toInt_sub]
  exact ⟨clamp_mono (sub_le_sub ha.1 hb.2), clamp_mono (sub_le_sub ha.2 hb.1)⟩

theorem neg_mem (ha : i ∈ L) : clamp (-i) ∈ neg L := by
  change L.imax.neg.toInt ≤ _ ∧ _ ≤ L.imin.neg.toInt
  rw [toInt_neg, toInt_neg]
  exact ⟨clamp_mono (neg_le_neg ha.2), clamp_mono (neg_le_neg ha.1)⟩

theorem mul_mem (ha : i ∈ L) (hb : j ∈ R) : clamp (i * j) ∈ mul L R := by
  have hway (k : Int) (p q : Int) : Corners.OneWay (fun x => clamp (x * k)) p q := by
    obtain hk | hk := le_total 0 k
    case inl => exact .inl fun x _ y _ hxy => clamp_mono (mul_le_mul_of_nonneg_right hxy hk)
    case inr => exact .inr fun x _ y _ hxy => clamp_mono (mul_le_mul_of_nonpos_right hxy hk)
  have hway' (k : Int) (p q : Int) : Corners.OneWay (fun x => clamp (k * x)) p q := by
    simp only [mul_comm k]
    exact hway k p q
  exact mem_fromNumbers4 (f := fun x y => clamp (x * y)) ha hb (fun k _ => hway k _ _) (hway' _ _ _) (hway' _ _ _)
    toInt_mul toInt_mul toInt_mul toInt_mul

end sums

section shifts

theorem counts_nonneg (hR : R.Nonempty) : (counts R).imin.negative = false ∧ (counts R).imax.negative = false := by
  rw [counts]
  split_ifs with h
  case pos => exact ⟨rfl, rfl⟩
  case neg =>
    rw [Bool.not_eq_true] at h
    exact ⟨h, nonneg_iff.mpr ((nonneg_iff.mp h).trans hR)⟩

-- The counts that are possible are among the ones that are looked at.
theorem mem_counts (hb : j ∈ R) (h0 : 0 ≤ j) (h64 : j ≤ 64) :
    (counts R).imin.value.toNat ≤ j.toNat ∧ j.toNat ≤ (counts R).imax.value.toNat := by
  rw [counts]
  split_ifs with h
  case pos => exact ⟨Nat.zero_le _, Int.toNat_le.mpr h64⟩
  case neg =>
    rw [Bool.not_eq_true] at h
    have hmax : R.imax.negative = false := nonneg_iff.mpr ((nonneg_iff.mp h).trans (nonempty_of_mem hb))
    obtain ⟨hle, hge⟩ := hb
    rw [toInt_of_nonneg h] at hle
    rw [toInt_of_nonneg hmax] at hge
    omega

theorem counts_le (hR : R.Nonempty) : (counts R).imin.value.toNat ≤ (counts R).imax.value.toNat := by
  obtain ⟨hmin, hmax⟩ := counts_nonneg hR
  rw [counts] at *
  split_ifs at * with h
  case pos => decide
  case neg =>
    rw [Nonempty, toInt_of_nonneg hmin, toInt_of_nonneg hmax] at hR
    exact_mod_cast hR

variable {n : Nat}

theorem shl_between (ha : i ∈ L) (hR : R.Nonempty) (hl : (counts R).imin.value.toNat ≤ n)
    (hu : n ≤ (counts R).imax.value.toNat) : clamp (i * 2 ^ n) ∈ shl L R := by
  obtain ⟨hmin, hmax⟩ := counts_nonneg hR
  have hpow {m k : Nat} (h : m ≤ k) : (2 : Int) ^ m ≤ 2 ^ k := pow_le_pow_right₀ (by decide) h
  have hpos : (0 : Int) ≤ 2 ^ n := by positivity
  constructor
  case left =>
    change (L.imin.shl _).toInt ≤ _
    cases h : L.imin.negative
    case false =>
      rw [if_neg (by decide), toInt_shl hmin]
      have hnonneg := nonneg_iff.mp h
      refine clamp_mono ((mul_le_mul_of_nonneg_left (hpow hl) hnonneg).trans ?_)
      exact mul_le_mul_of_nonneg_right ha.1 hpos
    case true =>
      rw [if_pos rfl, toInt_shl hmax]
      have hneg := negative_iff.mp h
      refine clamp_mono ((mul_le_mul_of_nonpos_left (hpow hu) hneg.le).trans ?_)
      exact mul_le_mul_of_nonneg_right ha.1 hpos
  case right =>
    change _ ≤ (L.imax.shl _).toInt
    cases h : L.imax.negative
    case false =>
      rw [if_neg (by decide), toInt_shl hmax]
      have hnonneg := nonneg_iff.mp h
      refine clamp_mono ((mul_le_mul_of_nonneg_right ha.2 hpos).trans ?_)
      exact mul_le_mul_of_nonneg_left (hpow hu) hnonneg
    case true =>
      rw [if_pos rfl, toInt_shl hmin]
      have hneg := negative_iff.mp h
      refine clamp_mono ((mul_le_mul_of_nonneg_right ha.2 hpos).trans ?_)
      exact mul_le_mul_of_nonpos_left (hpow hl) hneg.le

-- Quotients that are rounded down, by the sign of the dividend
theorem ediv_le_of_nonneg {x p q : Int} (hx : 0 ≤ x) (hp : 0 < p) (hpq : p ≤ q) : x / q ≤ x / p := by
  have hq : 0 ≤ x / q := Int.ediv_nonneg hx (hp.le.trans hpq)
  rw [Int.le_ediv_iff_mul_le hp]
  exact (mul_le_mul_of_nonneg_left hpq hq).trans (Int.ediv_mul_le x (hp.trans_le hpq).ne')

theorem ediv_le_of_nonpos {x p q : Int} (hx : x ≤ 0) (hp : 0 < p) (hpq : p ≤ q) : x / p ≤ x / q := by
  have hq : x / p ≤ 0 := Int.ediv_nonpos_of_nonpos_of_neg hx hp
  rw [Int.le_ediv_iff_mul_le (hp.trans_le hpq)]
  exact (mul_le_mul_of_nonpos_left hpq hq).trans (Int.ediv_mul_le x hp.ne')

theorem clamp_mem (h : i ∈ r) : clamp i ∈ r := by
  have hmin := @toInt_bounds r.imin
  have hmax := @toInt_bounds r.imax
  obtain ⟨hl, hu⟩ := h
  have hclamp : clamp i = i := by
    rw [clamp]
    omega
  rw [hclamp]
  exact ⟨hl, hu⟩

theorem shr_between (ha : i ∈ L) (hR : R.Nonempty) (hl : (counts R).imin.value.toNat ≤ n)
    (hu : n ≤ (counts R).imax.value.toNat) : i / 2 ^ n ∈ shr L R := by
  obtain ⟨hmin, hmax⟩ := counts_nonneg hR
  have hpow {m k : Nat} (h : m ≤ k) : (2 : Int) ^ m ≤ 2 ^ k := pow_le_pow_right₀ (by decide) h
  have hpos (m : Nat) : (0 : Int) < 2 ^ m := by positivity
  constructor
  case left =>
    change (L.imin.shr _).toInt ≤ _
    cases h : L.imin.negative
    case false =>
      rw [if_neg (by decide), toInt_shr hmax]
      exact (ediv_le_of_nonneg (nonneg_iff.mp h) (hpos n) (hpow hu)).trans (Int.ediv_le_ediv (hpos n) ha.1)
    case true =>
      rw [if_pos rfl, toInt_shr hmin]
      exact (ediv_le_of_nonpos (negative_iff.mp h).le (hpos _) (hpow hl)).trans (Int.ediv_le_ediv (hpos n) ha.1)
  case right =>
    change _ ≤ (L.imax.shr _).toInt
    cases h : L.imax.negative
    case false =>
      rw [if_neg (by decide), toInt_shr hmin]
      exact (Int.ediv_le_ediv (hpos n) ha.2).trans (ediv_le_of_nonneg (nonneg_iff.mp h) (hpos _) (hpow hl))
    case true =>
      rw [if_pos rfl, toInt_shr hmax]
      exact (Int.ediv_le_ediv (hpos n) ha.2).trans (ediv_le_of_nonpos (negative_iff.mp h).le (hpos n) (hpow hu))

-- The unsigned shift is the other one for operands that are not negative.
theorem ushr_eq (hL : L.Nonempty) (h : 0 ≤ L.imin.toInt) : ushr L R = shr L R := by
  have hmin : L.imin.negative = false := nonneg_iff.mpr h
  have hmax : L.imax.negative = false := nonneg_iff.mpr (h.trans hL)
  rw [ushr, shr, hmin, hmax]
  rfl

end shifts

section quotients

variable {p q x y : Int}

-- A quotient, by the sign of the dividend and by the one of the divisor
theorem tdiv_anti (hx : 0 ≤ x) (hpq : 0 < p ∨ q < 0) : AntitoneOn (x.tdiv ·) (Set.Icc p q) := by
  intro y hy z hz hyz
  dsimp only
  obtain hp | hq := hpq
  case inl =>
    rw [Int.tdiv_eq_ediv_of_nonneg hx, Int.tdiv_eq_ediv_of_nonneg hx]
    exact ediv_le_of_nonneg hx (hp.trans_le hy.1) hyz
  case inr =>
    have hneg (w : Int) : x.tdiv w = -(x / -w) := by
      rw [← Int.tdiv_eq_ediv_of_nonneg hx, Int.tdiv_neg, neg_neg]
    rw [hneg, hneg]
    exact neg_le_neg (ediv_le_of_nonneg hx (neg_pos.mpr (hz.2.trans_lt hq)) (neg_le_neg hyz))

theorem tdiv_oneWay_right (hpq : 0 < p ∨ q < 0) : Corners.OneWay (x.tdiv ·) p q := by
  obtain hx | hx := le_total 0 x
  case inl => exact .inr (tdiv_anti hx hpq)
  case inr =>
    refine .inl fun y hy z hz hyz => ?_
    have hanti := tdiv_anti (neg_nonneg.mpr hx) hpq hy hz hyz
    simp only [Int.neg_tdiv] at hanti
    exact neg_le_neg_iff.mp hanti

theorem tdiv_oneWay_left : Corners.OneWay (·.tdiv x) p q := by
  obtain hx | rfl | hx := lt_trichotomy 0 x
  case inl => exact .inl fun y _ z _ hyz => Int.tdiv_le_tdiv hx hyz
  case inr.inl => exact .inl fun y _ z _ _ => by simp only [Int.tdiv_zero, le_refl]
  case inr.inr =>
    refine .inr fun y _ z _ hyz => ?_
    have hmono := Int.tdiv_le_tdiv (neg_pos.mpr hx) hyz
    simp only [Int.tdiv_neg] at hmono
    exact neg_le_neg_iff.mp hmono

-- A number that is not the least one is zero if its value is.
theorem toInt_eq_zero (ha : -2 ^ 63 ≤ a.toInt) : a.value = 0 ↔ a.toInt = 0 := by
  have hlt := a.value.isLt
  have hzero : a.value = 0 ↔ a.value.toNat = 0 := BitVec.toNat_inj.symm
  rw [hzero]
  rw [toInt] at *
  split_ifs at * <;> omega

-- Divisors of one sign that are not zero
structure OneSign (r : IntRange) : Prop where
  sign : 0 < r.imin.toInt ∨ r.imax.toInt < 0
  imin : r.imin.value ≠ 0
  imax : r.imax.value ≠ 0

theorem OneSign.of_nonneg (hr : r.Nonempty) (h : 0 < r.imin.toInt) : OneSign r where
  sign := .inl h
  imin := mt (toInt_eq_zero (by omega)).mp h.ne'
  imax := mt (toInt_eq_zero (by unfold Nonempty at hr; omega)).mp (h.trans_le hr).ne'

theorem OneSign.of_neg (hr : r.Proper) (h : r.imax.toInt < 0) : OneSign r where
  sign := .inr h
  imin := mt (toInt_eq_zero hr.least).mp (hr.nonempty.trans_lt h).ne
  imax := mt (toInt_eq_zero (hr.least.trans hr.nonempty)).mp h.ne

-- What is left of a range of divisors
theorem trimZero_spec (hR : R.Proper) (h0 : ¬(R.imax.value = 0 ∧ R.imin.value = 0)) :
    ((trimZero R).imin.negative = true ∧ (trimZero R).imax.negative = false) ∨
      (OneSign (trimZero R) ∧ ∀ j ∈ R, j ≠ 0 → j ∈ trimZero R) := by
  obtain ⟨hne, hleast⟩ := hR
  have hmax0 := toInt_eq_zero (hleast.trans hne)
  have hmin0 := toInt_eq_zero hleast
  unfold Nonempty at hne
  rw [trimZero]
  split_ifs with hmax hmin
  case pos =>
    have hneg : R.imin.toInt ≠ 0 := fun h => h0 ⟨hmax, hmin0.mpr h⟩
    rw [hmax0.mp hmax] at hne
    have hsign : R.imax.negative = false := nonneg_iff.mpr (hmax0.mp hmax).ge
    exact .inl ⟨negative_iff.mpr (lt_of_le_of_ne hne hneg), hsign⟩
  case pos =>
    have hzero := hmin0.mp hmin
    have hsign : R.imin.negative = false := nonneg_iff.mpr hzero.ge
    have hone : toInt { value := R.imin.value + 1, negative := R.imin.negative } = 1 := by
      rw [hmin, hsign]
      rfl
    have hpos : 1 ≤ R.imax.toInt := by
      have hmax' := mt hmax0.mpr hmax
      omega
    have hmem {j : Int} (hj : j ∈ R) (hj0 : j ≠ 0) :
        j ∈ ({ R with imin := ⟨R.imin.value + 1, R.imin.negative⟩ } : IntRange) := by
      have hlow : R.imin.toInt ≤ j := hj.1
      have hj1 : 1 ≤ j := by omega
      exact ⟨hone.trans_le hj1, hj.2⟩
    exact .inr ⟨.of_nonneg (hone.trans_le hpos) (one_pos.trans_eq hone.symm), fun j hj hj0 => hmem hj hj0⟩
  case neg =>
    cases hs : R.imin.negative <;> cases ht : R.imax.negative
    case true.false => exact .inl ⟨rfl, rfl⟩
    case false.false | false.true =>
      have hnonneg := nonneg_iff.mp hs
      have hne0 := mt hmin0.mpr hmin
      exact .inr ⟨.of_nonneg hne (by omega), fun j hj _ => hj⟩
    case true.true => exact .inr ⟨.of_neg ⟨hne, hleast⟩ (negative_iff.mp ht), fun j hj _ => hj⟩

-- The divisors are ones and minus ones at most.
theorem div_mem_of_span (hL : L.Proper) (ha : i ∈ L) :
    i.tdiv j ∈ fromNumbers4 L.imin.neg L.imin L.imax.neg L.imax := by
  obtain ⟨hmin, hmax⟩ := @toInt_fromNumbers4 L.imin.neg L.imin L.imax.neg L.imax
  have hquot := Int.natAbs_tdiv_le_natAbs i j
  obtain ⟨hlow, hhigh⟩ := ha
  have hleast := hL.least
  have hb := @toInt_bounds L.imin
  have hb' := @toInt_bounds L.imax
  rw [toInt_neg, toInt_neg] at hmin hmax
  have hneg : clamp (-L.imin.toInt) = -L.imin.toInt := by
    rw [clamp]
    omega
  have hneg' : clamp (-L.imax.toInt) = -L.imax.toInt := by
    rw [clamp]
    omega
  rw [hneg, hneg'] at hmin hmax
  constructor
  case left =>
    rw [hmin]
    omega
  case right =>
    rw [hmax]
    omega

theorem mem_widest (h : clamp i = i) : i ∈ widest := by
  rw [← h, clamp]
  change (-2 ^ 64 : Int) ≤ _ ∧ _ ≤ (2 ^ 64 - 1 : Int)
  omega

theorem div_mem (hL : L.Proper) (hR : R.Proper) (ha : i ∈ L) (hb : j ∈ R) (hj : j ≠ 0) : i.tdiv j ∈ div L R := by
  have hbounds := @toInt_bounds L.imin
  have hleast := hL.least
  have hne := hL.nonempty
  unfold Nonempty at hne
  have hnotMin : L.imin.toInt ≠ -2 ^ 64 := by omega
  have hnotMin' : L.imax.toInt ≠ -2 ^ 64 := by omega
  rw [div]
  split_ifs with h0
  case pos =>
    have hmax := (toInt_eq_zero (hR.least.trans hR.nonempty)).mp h0.1
    have hmin := (toInt_eq_zero hR.least).mp h0.2
    obtain ⟨hlow, hhigh⟩ := hb
    omega
  case neg =>
    have hspec := trimZero_spec hR h0
    generalize trimZero R = T at *
    dsimp only
    split_ifs with hpos hspan
    case pos =>
      obtain ⟨hs, hs', ht, ht'⟩ : L.imin.negative = false ∧ L.imax.negative = false ∧ T.imin.negative = false ∧
          T.imax.negative = false := by simpa using hpos
      obtain ⟨hneg, -⟩ | ⟨hone, hmem⟩ := hspec
      case inl => rw [ht] at hneg; exact absurd hneg Bool.false_ne_true
      case inr =>
        obtain ⟨hlow, hhigh⟩ := hmem j hb hj
        have hlow0 := nonneg_iff.mp ht
        have hmin0 := nonneg_iff.mp hs
        have hsign : 0 < T.imin.toInt := hone.sign.resolve_right (by omega)
        have hi : 0 ≤ i := hmin0.trans ha.1
        have hj0 : 0 < j := hsign.trans_le hlow
        constructor
        case left =>
          rw [toInt_div hnotMin hone.imax]
          refine (Int.tdiv_le_tdiv (hj0.trans_le hhigh) ha.1).trans ?_
          exact tdiv_anti hi (.inl hj0) ⟨le_rfl, hhigh⟩ ⟨hhigh, le_rfl⟩ hhigh
        case right =>
          rw [toInt_div hnotMin' hone.imin]
          refine (tdiv_anti hi (.inl hsign) ⟨le_rfl, hlow⟩ ⟨hlow, le_rfl⟩ hlow).trans ?_
          exact Int.tdiv_le_tdiv hsign ha.2
    case pos => exact div_mem_of_span hL ha
    case neg =>
      obtain ⟨hneg, hneg'⟩ | ⟨hone, hmem⟩ := hspec
      case inl => exact absurd ⟨hneg, by rw [hneg']; rfl⟩ hspan
      case inr =>
        refine mem_fromNumbers4 (f := Int.tdiv) ha (hmem j hb hj) (fun k _ => tdiv_oneWay_left)
          (tdiv_oneWay_right hone.sign) (tdiv_oneWay_right hone.sign) ?_ ?_ ?_ ?_
        · exact toInt_div hnotMin hone.imin
        · exact toInt_div hnotMin hone.imax
        · exact toInt_div hnotMin' hone.imin
        · exact toInt_div hnotMin' hone.imax

end quotients

section remainders

-- The negated absolute values of a range
theorem absNeg_imin (hR : R.Proper) (hb : j ∈ R) : (absNeg R).imin.toInt ≤ -|j| := by
  have hleast := hR.least
  have hbounds := @toInt_bounds R.imax
  obtain ⟨hlow, hhigh⟩ := hb
  have hneg : R.imax.neg.toInt = -R.imax.toInt := by
    rw [toInt_neg, clamp]
    omega
  rw [absNeg]
  split_ifs with hmax hmin hlt
  case pos =>
    have hj := hhigh.trans_lt (negative_iff.mp hmax)
    rw [abs_of_neg hj, neg_neg]
    exact hlow
  case pos =>
    rw [Bool.not_eq_true'] at hmin
    have hj := (nonneg_iff.mp hmin).trans hlow
    rw [abs_of_nonneg hj]
    exact hneg.trans_le (neg_le_neg hhigh)
  case pos =>
    rw [lt_iff] at hlt
    rw [le_neg, abs_le]
    dsimp only
    omega
  case neg =>
    rw [le_iff] at hlt
    rw [le_neg, abs_le]
    dsimp only
    omega

theorem mod_mem (hR : R.Proper) (ha : i ∈ L) (hb : j ∈ R) (hj : j ≠ 0) : i.tmod j ∈ mod L R := by
  have habs := absNeg_imin hR hb
  have hpos : 0 < |j| := abs_pos.mpr hj
  have hone : toInt { value := 1 } = 1 := rfl
  obtain ⟨m, hm⟩ : ∃ m, m = (absNeg R).imin.add { value := 1 } := ⟨_, rfl⟩
  have hmin : -2 ^ 64 + 1 ≤ m.toInt ∧ m.toInt ≤ 1 - |j| := by
    have hbounds := @toInt_bounds (absNeg R).imin
    rw [hm, toInt_add, hone, clamp]
    omega
  have hneg : m.neg.toInt = -m.toInt := by
    rw [toInt_neg, clamp]
    omega
  obtain ⟨hlow, hhigh⟩ := ha
  have hrest : |i.tmod j| < |j| := by
    rw [Int.abs_eq_natAbs, Int.abs_eq_natAbs, Int.natAbs_tmod]
    exact_mod_cast Nat.mod_lt _ (Int.natAbs_pos.mpr hj)
  have hrest' : |i.tmod j| ≤ |i| := by
    rw [Int.abs_eq_natAbs, Int.abs_eq_natAbs, Int.natAbs_tmod]
    exact_mod_cast Nat.mod_le _ _
  have hsign : 0 ≤ i → 0 ≤ i.tmod j := Int.tmod_nonneg j
  have hsign' (h : i ≤ 0) : i.tmod j ≤ 0 := by
    have hnonneg := Int.tmod_nonneg j (neg_nonneg.mpr h)
    rwa [Int.neg_tmod, neg_nonneg] at hnonneg
  rw [abs_lt] at hrest
  rw [abs_le] at hrest'
  rw [mod, ← hm]
  dsimp only
  constructor
  case left =>
    dsimp only
    split_ifs with hs hlt
    case pos =>
      rw [Bool.not_eq_true'] at hs
      have hmin0 := nonneg_iff.mp hs
      have hzero : toInt { value := 0, negative := L.imin.negative } = 0 := toInt_of_nonneg hs
      exact hzero.trans_le (hsign (hmin0.trans hlow))
    case pos => omega
    case neg =>
      have hneg0 : L.imin.toInt < 0 := negative_iff.mp (by simpa using hs)
      obtain hi | hi := le_total 0 i
      case inl => exact hneg0.le.trans (hsign hi)
      case inr =>
        rw [abs_of_nonpos hi] at hrest'
        omega
  case right =>
    dsimp only
    split_ifs with hs hlt
    case pos => exact hsign' (hhigh.trans (negative_iff.mp hs).le)
    case pos => omega
    case neg =>
      have hnonneg0 : 0 ≤ L.imax.toInt := nonneg_iff.mp (by simpa using hs)
      obtain hi | hi := le_total 0 i
      case inl =>
        rw [abs_of_nonneg hi] at hrest'
        omega
      case inr => exact (hsign' hi).trans hnonneg0

end remainders

section soundness

theorem imin_mem (h : r.Nonempty) : r.imin.toInt ∈ r :=
  ⟨le_rfl, h⟩

theorem imax_mem (h : r.Nonempty) : r.imax.toInt ∈ r :=
  ⟨h, le_rfl⟩

theorem exists_ne_zero (hR : R.Nonempty) (h0 : R.imin.toInt ≠ 0 ∨ R.imax.toInt ≠ 0) : ∃ j ∈ R, j ≠ 0 := by
  obtain h0 | h0 := h0
  case inl => exact ⟨_, imin_mem hR, h0⟩
  case inr => exact ⟨_, imax_mem hR, h0⟩

theorem div_nonempty (hL : L.Proper) (hR : R.Proper) : (div L R).Nonempty := by
  by_cases h0 : R.imin.toInt ≠ 0 ∨ R.imax.toInt ≠ 0
  case pos =>
    obtain ⟨j, hb, hj⟩ := exists_ne_zero hR.nonempty h0
    exact nonempty_of_mem (div_mem hL hR (imin_mem hL.nonempty) hb hj)
  case neg =>
    rw [not_or, not_not, not_not] at h0
    have hmin := (toInt_eq_zero hR.least).mpr h0.1
    have hmax := (toInt_eq_zero (hR.least.trans hR.nonempty)).mpr h0.2
    rw [div, if_pos ⟨hmax, hmin⟩]
    decide

theorem mod_nonempty (hL : L.Proper) (hR : R.Proper) (h0 : R.imin.toInt ≠ 0 ∨ R.imax.toInt ≠ 0) :
    (mod L R).Nonempty := by
  obtain ⟨j, hb, hj⟩ := exists_ne_zero hR.nonempty h0
  exact nonempty_of_mem (mod_mem hR (imin_mem hL.nonempty) hb hj)

-- The ranges have all results, and at least one number.
theorem arithmetic_sound (hL : L.Proper) (hR : R.Proper) :
    (∀ a ∈ L, clamp (-a) ∈ neg L) ∧
    (∀ a ∈ L, ∀ b ∈ R, clamp (a + b) ∈ add L R ∧ clamp (a - b) ∈ sub L R ∧ clamp (a * b) ∈ mul L R) ∧
    (∀ a ∈ L, ∀ b ∈ R, b ≠ 0 → clamp (a.tdiv b) ∈ div L R ∧ clamp (a.tmod b) ∈ mod L R) ∧
    (∀ a ∈ L, ∀ b ∈ R, 0 ≤ b → b ≤ 64 →
      clamp (a * 2 ^ b.toNat) ∈ shl L R ∧ clamp (a / 2 ^ b.toNat) ∈ shr L R ∧
        (0 ≤ L.imin.toInt → clamp (a / 2 ^ b.toNat) ∈ ushr L R)) ∧
    (neg L).Nonempty ∧ (add L R).Nonempty ∧ (sub L R).Nonempty ∧ (mul L R).Nonempty ∧ (div L R).Nonempty ∧
    (R.imin.toInt ≠ 0 ∨ R.imax.toInt ≠ 0 → (mod L R).Nonempty) ∧
    (shl L R).Nonempty ∧ (shr L R).Nonempty ∧ (0 ≤ L.imin.toInt → (ushr L R).Nonempty) := by
  have hl := imin_mem hL.nonempty
  have hr := imin_mem hR.nonempty
  have hshl := shl_between hl hR.nonempty le_rfl (counts_le hR.nonempty)
  have hshr := shr_between hl hR.nonempty le_rfl (counts_le hR.nonempty)
  refine ⟨fun a ha => neg_mem ha, fun a ha b hb => ⟨add_mem ha hb, sub_mem ha hb, mul_mem ha hb⟩, ?quot, ?shift,
    nonempty_of_mem (neg_mem hl), nonempty_of_mem (add_mem hl hr), nonempty_of_mem (sub_mem hl hr),
    nonempty_of_mem (mul_mem hl hr), div_nonempty hL hR, mod_nonempty hL hR, nonempty_of_mem hshl,
    nonempty_of_mem hshr, ?ushr⟩
  case quot =>
    intro a ha b hb h0
    exact ⟨clamp_mem (div_mem hL hR ha hb h0), clamp_mem (mod_mem hR ha hb h0)⟩
  case shift =>
    intro a ha b hb h0 h64
    obtain ⟨hlow, hhigh⟩ := mem_counts hb h0 h64
    have hmem := clamp_mem (shr_between ha hR.nonempty hlow hhigh)
    refine ⟨shl_between ha hR.nonempty hlow hhigh, hmem, fun hnonneg => ?_⟩
    rwa [ushr_eq hL.nonempty hnonneg]
  case ushr =>
    intro hnonneg
    rw [ushr_eq hL.nonempty hnonneg]
    exact nonempty_of_mem hshr

-- [3, 7] and [-2, 5]
theorem arithmetic_sound_spanning :
    let L : IntRange := { imin := { value := 3 }, imax := { value := 7 } }
    let R : IntRange := { imin := { value := -2, negative := true }, imax := { value := 5 } }
    L.Proper ∧ R.Proper ∧ clamp (Int.tdiv 7 (-2)) ∈ div L R ∧ (mod L R).Nonempty := by
  intro L R
  have hL : L.Proper := ⟨by decide, by decide⟩
  have hR : R.Proper := ⟨by decide, by decide⟩
  obtain ⟨-, -, hquot, -, -, -, -, -, -, hmod, -⟩ := arithmetic_sound hL hR
  refine ⟨hL, hR, (hquot 7 ⟨by decide, by decide⟩ (-2) ⟨by decide, by decide⟩ (by decide)).1, hmod (.inl (by decide))⟩

-- The bits of negative numbers are not shifted to the right as the ones of unsigned numbers.
theorem ushr_negative_empty :
    let L : IntRange := { imin := { value := -8, negative := true }, imax := { value := -8, negative := true } }
    let R : IntRange := { imin := { value := 0 }, imax := { value := 1 } }
    L.Proper ∧ R.Proper ∧ (-8 : Int) ∈ L ∧ (0 : Int) ∈ R ∧ clamp (-8 / 2 ^ 0) ∉ ushr L R ∧ ¬(ushr L R).Nonempty := by
  refine ⟨⟨by decide, by decide⟩, ⟨by decide, by decide⟩, ⟨by decide, by decide⟩, ⟨by decide, by decide⟩, ?_, by decide⟩
  rintro ⟨hlow, -⟩
  revert hlow
  decide

end soundness

end IntRange

end Compiler.Intrange
