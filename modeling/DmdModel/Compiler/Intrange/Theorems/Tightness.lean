import DmdModel.Compiler.Intrange.Theorems.Bitwise

-- The bounds of & and | for numbers that are not negative: which of them are values of the operation.

namespace Compiler.Intrange

namespace IntRange

open SignExtendedNumber

variable {lmin lmax rmin rmax lhs rhs lo hi x v w : uinteger_t} {a b k : Nat} {L R l r : IntRange}

section digits

theorem set_eq_or (ha : a < 2 ^ k) : 2 ^ k + a = 2 ^ k ||| a := by
  have h := Nat.two_pow_add_eq_or_of_lt ha 1
  rwa [Nat.mul_one] at h

theorem and_of_lt (hb : b < 2 ^ k) : 2 ^ k &&& b = 0 := by
  rw [Nat.and_comm, Nat.and_two_pow, Nat.testBit_lt_two_pow hb]
  exact Nat.zero_mul _

theorem or_set_left (ha : a < 2 ^ k) (hb : b < 2 ^ k) : (2 ^ k + a) ||| b = 2 ^ k + (a ||| b) := by
  rw [set_eq_or ha, set_eq_or (Nat.or_lt_two_pow ha hb), Nat.or_assoc]

theorem or_set_right (ha : a < 2 ^ k) (hb : b < 2 ^ k) : a ||| (2 ^ k + b) = 2 ^ k + (a ||| b) := by
  rw [Nat.or_comm, or_set_left hb ha, Nat.or_comm]

theorem or_set (ha : a < 2 ^ k) (hb : b < 2 ^ k) : (2 ^ k + a) ||| (2 ^ k + b) = 2 ^ k + (a ||| b) := by
  apply Nat.eq_of_testBit_eq
  intro i
  rw [set_eq_or ha, set_eq_or hb, set_eq_or (Nat.or_lt_two_pow ha hb)]
  simp only [Nat.testBit_or]
  cases (2 ^ k).testBit i <;> simp

theorem and_set_left (ha : a < 2 ^ k) (hb : b < 2 ^ k) : (2 ^ k + a) &&& b = a &&& b := by
  rw [set_eq_or ha, Nat.and_or_distrib_right, and_of_lt hb, Nat.zero_or]

theorem and_set_right (ha : a < 2 ^ k) (hb : b < 2 ^ k) : a &&& (2 ^ k + b) = a &&& b := by
  rw [Nat.and_comm, and_set_left hb ha, Nat.and_comm]

theorem and_set (ha : a < 2 ^ k) (hb : b < 2 ^ k) : (2 ^ k + a) &&& (2 ^ k + b) = 2 ^ k + (a &&& b) := by
  rw [set_eq_or ha, set_eq_or hb, set_eq_or ((Nat.and_le_left).trans_lt ha), Nat.or_and_distrib_left]

theorem ones_or (hb : b < 2 ^ k) : 2 ^ k - 1 ||| b = 2 ^ k - 1 := by
  have hsub : 2 ^ k - 1 < 2 ^ k := Nat.sub_one_lt (Nat.two_pow_pos k).ne'
  have hge : 2 ^ k - 1 ≤ 2 ^ k - 1 ||| b := Nat.left_le_or
  have hlt := Nat.or_lt_two_pow hsub hb
  omega

end digits

section loops

-- A number within the lowest bits of two bounds
structure Low (lo hi : uinteger_t) (k a : Nat) : Prop where
  low  : lo.toNat % 2 ^ k ≤ a
  high : a ≤ hi.toNat % 2 ^ k

theorem low_none : Low lo hi 0 0 :=
  ⟨by rw [pow_zero, Nat.mod_one], Nat.zero_le _⟩

theorem Low.lt (h : Low lo hi k a) : a < 2 ^ k :=
  h.high.trans_lt (Nat.mod_lt _ (Nat.two_pow_pos k))

-- One more bit that the number does not have,
theorem Low.clear (h : Low lo hi k a) (hlo : lo.getLsbD k = false) : Low lo hi (k + 1) a where
  low  := by
    rw [low_succ, hlo, if_neg Bool.false_ne_true]
    exact h.low
  high := by
    rw [low_succ]
    exact h.high.trans (Nat.le_add_right _ _)

-- or one that it has
theorem Low.set (h : Low lo hi k a) (hhi : hi.getLsbD k = true) : Low lo hi (k + 1) (2 ^ k + a) where
  low  := by
    have := h.low
    rw [low_succ]
    split_ifs <;> omega
  high := by
    have := h.high
    rw [low_succ, hhi, if_pos rfl]
    omega

-- A number that has the bit need not be above the rest of the lower bound if that does not have it.
theorem Low.raised (h : Low (if (~~~lo).getLsbD k = true then 0 else lo) hi k a) (hk : k < 64)
    (hhi : hi.getLsbD k = true) : Low lo hi (k + 1) (2 ^ k + a) := by
  simp only [not_bit_iff hk] at h
  split_ifs at h with hlo
  case neg => exact h.set hhi
  case pos =>
    have hlt := Nat.mod_lt lo.toNat (Nat.two_pow_pos k)
    refine ⟨?_, (h.set hhi).high⟩
    rw [low_succ, hlo, if_neg Bool.false_ne_true]
    omega

-- A number that does not have the bit need not be below the rest of the upper bound if that has it.
theorem Low.lowered (h : Low lo (hi ||| ((1 : uinteger_t) <<< k - 1)) k a) (hlo : lo.getLsbD k = false)
    (hhi : hi.getLsbD k = true) : Low lo hi (k + 1) a := by
  have hlt := h.lt
  refine ⟨(h.clear hlo).low, ?_⟩
  rw [low_succ, hhi, if_pos rfl]
  omega

theorem low_of_false (h : lo.toNat % 2 ^ (k + 1) ≤ hi.toNat % 2 ^ (k + 1)) (hhi : hi.getLsbD k = false) :
    lo.getLsbD k = false ∧ lo.toNat % 2 ^ k ≤ hi.toNat % 2 ^ k := by
  have hlo : lo.getLsbD k = false := by
    rw [← Bool.not_eq_true] at hhi ⊢
    exact mt (low_le_of_succ h).1 hhi
  exact ⟨hlo, (low_le_of_succ h).2 (hlo.trans hhi.symm)⟩

theorem raised_le (h : lo.toNat % 2 ^ (k + 1) ≤ hi.toNat % 2 ^ (k + 1)) (hk : k < 64) (hhi : hi.getLsbD k = true) :
    (if (~~~lo).getLsbD k = true then 0 else lo).toNat % 2 ^ k ≤ hi.toNat % 2 ^ k := by
  simp only [not_bit_iff hk]
  split_ifs with hlo
  case pos => exact (Nat.zero_mod _).trans_le (Nat.zero_le _)
  case neg => exact (low_le_of_succ h).2 ((Bool.eq_true_of_not_eq_false hlo).trans hhi.symm)

-- A bit that both maxima have and a minimum lacks: that number can have all of the lower ones.
theorem ones_attained (hr : rmin.toNat % 2 ^ (k + 1) ≤ rmax.toNat % 2 ^ (k + 1)) (hl : lmin.getLsbD k = false)
    (hl' : lmax.getLsbD k = true) (hr' : rmax.getLsbD k = true) :
    ∃ a b, Low lmin lmax (k + 1) a ∧ Low rmin rmax (k + 1) b ∧ a ||| b = 2 ^ (k + 1) - 1 := by
  have hpos := Nat.two_pow_pos k
  have hlt := Nat.mod_lt lmin.toNat hpos
  have hlt' := Nat.mod_lt rmax.toNat hpos
  refine ⟨2 ^ k - 1, 2 ^ k + rmax.toNat % 2 ^ k, ⟨?_, ?_⟩, ⟨?_, ?_⟩, ?_⟩
  · rw [low_succ, hl, if_neg Bool.false_ne_true]
    omega
  · rw [low_succ, hl', if_pos rfl]
    omega
  · rw [@low_succ rmax, hr', if_pos rfl] at hr
    exact hr.trans (Nat.add_comm _ _).le
  · rw [low_succ, hr', if_pos rfl]
    omega
  · rw [or_set_right (by omega) hlt', ones_or hlt', pow_succ]
    omega

theorem maxOrLoop_attained (hk : k ≤ 64) (hx : x.toNat % 2 ^ k = 0) (hl : lmin.toNat % 2 ^ k ≤ lhs.toNat % 2 ^ k)
    (hr : rmin.toNat % 2 ^ k ≤ rhs.toNat % 2 ^ k) :
    ∃ a b, Low lmin lhs k a ∧ Low rmin rhs k b ∧ (maxOrLoop lhs rhs k lmin rmin x).toNat = x.toNat + (a ||| b) := by
  induction k generalizing lmin rmin x with
  | zero => exact ⟨0, 0, low_none, low_none, rfl⟩
  | succ k hi =>
    obtain ⟨hor, hor0⟩ := toNat_or_bit hk hx
    have hk' := Nat.le_of_succ_le hk
    rw [maxOrLoop]
    simp only [and_bit_iff hk, BitVec.getLsbD_xor, BitVec.getLsbD_and, Bool.and_eq_true]
    cases hlb : lhs.getLsbD k <;> cases hrb : rhs.getLsbD k <;>
      simp only [Bool.xor_self, Bool.xor_true, Bool.xor_false, Bool.not_false, Bool.false_eq_true, and_self, if_true,
        if_false]
    case false.false =>
      obtain ⟨hl0, hl'⟩ := low_of_false hl hlb
      obtain ⟨hr0, hr'⟩ := low_of_false hr hrb
      obtain ⟨a, b, ha, hb, heq⟩ := hi hk' (low_zero hx) hl' hr'
      rw [if_neg (by simp [hl0])]
      exact ⟨a, b, ha.clear hl0, hb.clear hr0, heq⟩
    case true.false =>
      obtain ⟨hr0, hr'⟩ := low_of_false hr hrb
      obtain ⟨a, b, ha, hb, heq⟩ := hi hk' hor0 (raised_le hl hk hlb) hr'
      refine ⟨2 ^ k + a, b, ha.raised hk hlb, hb.clear hr0, ?_⟩
      rw [heq, hor, or_set_left ha.lt hb.lt, Nat.add_assoc]
    case false.true =>
      obtain ⟨hl0, hl'⟩ := low_of_false hl hlb
      obtain ⟨a, b, ha, hb, heq⟩ := hi hk' hor0 hl' (raised_le hr hk hrb)
      refine ⟨a, 2 ^ k + b, ha.clear hl0, hb.raised hk hrb, ?_⟩
      rw [heq, hor, or_set_right ha.lt hb.lt, Nat.add_assoc]
    case true.true =>
      by_cases hmin : lmin.getLsbD k = true ∧ rmin.getLsbD k = true
      case pos =>
        obtain ⟨a, b, ha, hb, heq⟩ := hi hk' hor0 ((low_le_of_succ hl).2 (hmin.1.trans hlb.symm))
          ((low_le_of_succ hr).2 (hmin.2.trans hrb.symm))
        refine ⟨2 ^ k + a, 2 ^ k + b, ha.set hlb, hb.set hrb, ?_⟩
        rw [if_pos hmin, heq, hor, or_set ha.lt hb.lt, Nat.add_assoc]
      case neg =>
        have hones := toNat_or_of_low (w := (1 : uinteger_t) <<< k <<< 1 - 1) hx (by
          rw [toNat_all_ones hk]
          exact Nat.sub_one_lt (Nat.two_pow_pos _).ne')
        rw [toNat_all_ones hk] at hones
        rw [if_neg hmin, hones]
        obtain hl0 | hr0 : lmin.getLsbD k = false ∨ rmin.getLsbD k = false := by
          rw [not_and_or, Bool.not_eq_true, Bool.not_eq_true] at hmin
          exact hmin
        case inl =>
          obtain ⟨a, b, ha, hb, heq⟩ := ones_attained hr hl0 hlb hrb
          exact ⟨a, b, ha, hb, by rw [heq]⟩
        case inr =>
          obtain ⟨b, a, hb, ha, heq⟩ := ones_attained hl hr0 hrb hlb
          exact ⟨a, b, ha, hb, by rw [Nat.or_comm, heq]⟩

theorem maxAndLoop_attained (hk : k ≤ 64) (hx : x.toNat % 2 ^ k = 0) (hl : lmin.toNat % 2 ^ k ≤ lmax.toNat % 2 ^ k)
    (hr : rmin.toNat % 2 ^ k ≤ rmax.toNat % 2 ^ k) :
    ∃ a b, Low lmin lmax k a ∧ Low rmin rmax k b ∧
      (maxAndLoop k lmin lmax rmin rmax x).toNat = x.toNat + (a &&& b) := by
  induction k generalizing lmin lmax rmin rmax x with
  | zero => exact ⟨0, 0, low_none, low_none, rfl⟩
  | succ k hi =>
    obtain ⟨hor, hor0⟩ := toNat_or_bit hk hx
    have hk' := Nat.le_of_succ_le hk
    have hx0 := low_zero hx
    rw [maxAndLoop]
    simp only [and_bit_iff hk, BitVec.getLsbD_and, Bool.and_eq_true]
    cases hlb : lmax.getLsbD k <;> cases hrb : rmax.getLsbD k <;>
      simp only [Bool.false_eq_true, and_self, and_true, and_false, if_true, if_false]
    case false.false =>
      obtain ⟨hl0, hl'⟩ := low_of_false hl hlb
      obtain ⟨hr0, hr'⟩ := low_of_false hr hrb
      obtain ⟨a, b, ha, hb, heq⟩ := hi hk' hx0 hl' hr'
      exact ⟨a, b, ha.clear hl0, hb.clear hr0, heq⟩
    case true.false =>
      obtain ⟨hr0, hr'⟩ := low_of_false hr hrb
      split_ifs with hmin
      case pos =>
        rw [not_bit_iff hk] at hmin
        obtain ⟨a, b, ha, hb, heq⟩ := hi hk' hx0 (@Below.lower lmin lmax k 0 hk).high hr'
        exact ⟨a, b, ha.lowered hmin hlb, hb.clear hr0, heq⟩
      case neg =>
        rw [not_bit_iff hk, Bool.not_eq_false] at hmin
        obtain ⟨a, b, ha, hb, heq⟩ := hi hk' hx0 ((low_le_of_succ hl).2 (hmin.trans hlb.symm)) hr'
        refine ⟨2 ^ k + a, b, ha.set hlb, hb.clear hr0, ?_⟩
        rw [heq, and_set_left ha.lt hb.lt]
    case false.true =>
      obtain ⟨hl0, hl'⟩ := low_of_false hl hlb
      split_ifs with hmin
      case pos =>
        rw [not_bit_iff hk] at hmin
        obtain ⟨a, b, ha, hb, heq⟩ := hi hk' hx0 hl' (@Below.lower rmin rmax k 0 hk).high
        exact ⟨a, b, ha.clear hl0, hb.lowered hmin hrb, heq⟩
      case neg =>
        rw [not_bit_iff hk, Bool.not_eq_false] at hmin
        obtain ⟨a, b, ha, hb, heq⟩ := hi hk' hx0 hl' ((low_le_of_succ hr).2 (hmin.trans hrb.symm))
        refine ⟨a, 2 ^ k + b, ha.clear hl0, hb.set hrb, ?_⟩
        rw [heq, and_set_right ha.lt hb.lt]
    case true.true =>
      obtain ⟨a, b, ha, hb, heq⟩ := hi hk' hor0 (raised_le hl hk hlb) (raised_le hr hk hrb)
      refine ⟨2 ^ k + a, 2 ^ k + b, ha.raised hk hlb, hb.raised hk hrb, ?_⟩
      rw [heq, hor, and_set ha.lt hb.lt, Nat.add_assoc]

-- All bits of the bounds
theorem Low.toNat (h : Low lo hi 64 a) : lo.toNat ≤ (BitVec.ofNat 64 a).toNat ∧
    (BitVec.ofNat 64 a).toNat ≤ hi.toNat ∧ (BitVec.ofNat 64 a).toNat = a := by
  have ha := h.lt
  obtain ⟨hlow, hhigh⟩ := h
  rw [Nat.mod_eq_of_lt (BitVec.isLt _)] at hlow hhigh
  rw [BitVec.toNat_ofNat, Nat.mod_eq_of_lt ha]
  exact ⟨hlow, hhigh, rfl⟩

end loops

section attained

-- The values of the bounds have the order of a range of one sign.
def Ordered (r : IntRange) : Prop :=
  r.imin.value.toNat ≤ r.imax.value.toNat

theorem Ordered.low (h : Ordered r) : r.imin.value.toNat % 2 ^ 64 ≤ r.imax.value.toNat % 2 ^ 64 := by
  rwa [Nat.mod_eq_of_lt (BitVec.isLt _), Nat.mod_eq_of_lt (BitVec.isLt _)]

theorem Ordered.com (h : Ordered r) : Ordered r.com := by
  unfold Ordered at h ⊢
  rw [IntRange.com]
  simp only [com_value, BitVec.toNat_not]
  omega

theorem maxAnd_attained (hl : Ordered l) (hr : Ordered r) :
    ∃ v w, Between l v ∧ Between r w ∧ (maxAnd l r).value = v &&& w := by
  obtain ⟨a, b, ha, hb, heq⟩ := maxAndLoop_attained (x := 0) le_rfl rfl hl.low hr.low
  obtain ⟨hlow, hhigh, hv⟩ := ha.toNat
  obtain ⟨hlow', hhigh', hw⟩ := hb.toNat
  refine ⟨_, _, ⟨hlow, hhigh⟩, ⟨hlow', hhigh'⟩, BitVec.eq_of_toNat_eq (heq.trans ?_)⟩
  rw [BitVec.toNat_and, hv, hw]
  exact Nat.zero_add _

theorem loop_attained (hl : Ordered l) (hr : Ordered r) : ∃ v w, Between l v ∧ Between r w ∧
    maxOrLoop l.imax.value r.imax.value 64 l.imin.value r.imin.value 0 = v ||| w := by
  obtain ⟨a, b, ha, hb, heq⟩ := maxOrLoop_attained (x := 0) le_rfl rfl hl.low hr.low
  obtain ⟨hlow, hhigh, hv⟩ := ha.toNat
  obtain ⟨hlow', hhigh', hw⟩ := hb.toNat
  refine ⟨_, _, ⟨hlow, hhigh⟩, ⟨hlow', hhigh'⟩, BitVec.eq_of_toNat_eq (heq.trans ?_)⟩
  rw [BitVec.toNat_or, hv, hw]
  exact Nat.zero_add _

theorem between_com_iff : Between r.com v ↔ Between r (~~~v) := by
  have hv := v.isLt
  have hmin := r.imin.value.isLt
  have hmax := r.imax.value.isLt
  constructor
  case mp =>
    rintro ⟨hlow, hhigh⟩
    rw [IntRange.com] at hlow hhigh
    simp only [com_value, BitVec.toNat_not] at hlow hhigh
    constructor <;> rw [BitVec.toNat_not] <;> omega
  case mpr =>
    intro h
    have hcom := h.com
    rwa [BitVec.not_not] at hcom

theorem minOr_attained (hl : Ordered l) (hr : Ordered r) :
    ∃ v w, Between l v ∧ Between r w ∧ (minOr l r).value = v ||| w := by
  obtain ⟨v, w, hv, hw, heq⟩ := maxAnd_attained hl.com hr.com
  refine ⟨~~~v, ~~~w, between_com_iff.mp hv, between_com_iff.mp hw, ?_⟩
  rw [minOr, com_value, heq, BitVec.not_and]

end attained

section natural

-- A range of numbers that are not negative
structure Natural (r : IntRange) : Prop where
  imin    : r.imin.negative = false
  imax    : r.imax.negative = false
  ordered : Ordered r

theorem natural_of_nonempty (h : r.Nonempty) (h0 : 0 ≤ r.imin.toInt) : Natural r := by
  have hnonneg {x : SignExtendedNumber} (hx : 0 ≤ x.toInt) : x.negative = false := by
    have hlt := x.value.isLt
    rw [← Bool.not_eq_true]
    intro hs
    rw [toInt_of_negative hs] at hx
    omega
  have hmin := hnonneg h0
  have hmax := hnonneg (h0.trans h)
  refine ⟨hmin, hmax, ?_⟩
  rw [IntRange.Nonempty, toInt_of_nonneg hmin, toInt_of_nonneg hmax] at h
  exact_mod_cast h

theorem Natural.mem_iff (h : Natural r) {i : Int} : i ∈ r ↔ ∃ v, Between r v ∧ (v.toNat : Int) = i := by
  have hmin := toInt_of_nonneg h.imin
  have hmax := toInt_of_nonneg h.imax
  constructor
  case mp =>
    rintro ⟨hlow, hhigh⟩
    have hlt := r.imax.value.isLt
    have hv : (BitVec.ofInt 64 i).toNat = i.toNat := by
      rw [BitVec.toNat_ofInt]
      omega
    exact ⟨BitVec.ofInt 64 i, ⟨by omega, by omega⟩, by omega⟩
  case mpr =>
    rintro ⟨v, ⟨hlow, hhigh⟩, rfl⟩
    exact ⟨by omega, by omega⟩

-- The values of an operation on two ranges
def values (op : Int → Int → Int) (l r : IntRange) : Set Int :=
  Set.image2 op {i | i ∈ l} {j | j ∈ r}

variable {x : SignExtendedNumber} (hl : Natural l) (hr : Natural r)

include hl hr

theorem mem_values_land {i : Int} :
    i ∈ values Int.land l r ↔ ∃ v w, Between l v ∧ Between r w ∧ ((v &&& w).toNat : Int) = i := by
  constructor
  case mp =>
    rintro ⟨i, hi, j, hj, rfl⟩
    obtain ⟨v, hv, rfl⟩ := hl.mem_iff.mp hi
    obtain ⟨w, hw, rfl⟩ := hr.mem_iff.mp hj
    exact ⟨v, w, hv, hw, congrArg Int.ofNat (BitVec.toNat_and ..)⟩
  case mpr =>
    rintro ⟨v, w, hv, hw, rfl⟩
    exact ⟨_, hl.mem_iff.mpr ⟨v, hv, rfl⟩, _, hr.mem_iff.mpr ⟨w, hw, rfl⟩,
      (congrArg Int.ofNat (BitVec.toNat_and ..)).symm⟩

theorem mem_values_lor {i : Int} :
    i ∈ values Int.lor l r ↔ ∃ v w, Between l v ∧ Between r w ∧ ((v ||| w).toNat : Int) = i := by
  constructor
  case mp =>
    rintro ⟨i, hi, j, hj, rfl⟩
    obtain ⟨v, hv, rfl⟩ := hl.mem_iff.mp hi
    obtain ⟨w, hw, rfl⟩ := hr.mem_iff.mp hj
    exact ⟨v, w, hv, hw, congrArg Int.ofNat (BitVec.toNat_or ..)⟩
  case mpr =>
    rintro ⟨v, w, hv, hw, rfl⟩
    exact ⟨_, hl.mem_iff.mpr ⟨v, hv, rfl⟩, _, hr.mem_iff.mpr ⟨w, hw, rfl⟩,
      (congrArg Int.ofNat (BitVec.toNat_or ..)).symm⟩

theorem isGreatest_maxAnd : IsGreatest (values Int.land l r) (maxAnd l r).toInt := by
  have hs : (maxAnd l r).negative = false := by rw [maxAnd, hl.imax, Bool.false_and]
  rw [toInt_of_nonneg hs]
  constructor
  case left =>
    obtain ⟨v, w, hv, hw, heq⟩ := maxAnd_attained hl.ordered hr.ordered
    exact (mem_values_land hl hr).mpr ⟨v, w, hv, hw, by rw [heq]⟩
  case right =>
    intro i hi
    obtain ⟨v, w, hv, hw, rfl⟩ := (mem_values_land hl hr).mp hi
    exact_mod_cast and_le_maxAnd hv hw

theorem isGreatest_maxOr : IsGreatest (values Int.lor l r) (maxOr l r).toInt := by
  have heq := maxOr_of_nonneg hl.imin hl.imax hr.imax
  have hs : (maxOr l r).negative = false := by rw [heq]
  rw [toInt_of_nonneg hs]
  constructor
  case left =>
    obtain ⟨v, w, hv, hw, hloop⟩ := loop_attained hl.ordered hr.ordered
    exact (mem_values_lor hl hr).mpr ⟨v, w, hv, hw, by rw [heq, ← hloop]⟩
  case right =>
    intro i hi
    obtain ⟨v, w, hv, hw, rfl⟩ := (mem_values_lor hl hr).mp hi
    exact_mod_cast or_le_maxOr hv hw

theorem minOr_le {i : Int} (hi : i ∈ values Int.lor l r) : ((minOr l r).value.toNat : Int) ≤ i := by
  obtain ⟨v, w, hv, hw, rfl⟩ := (mem_values_lor hl hr).mp hi
  exact_mod_cast minOr_le_or hv hw

theorem minAnd_le {i : Int} (hi : i ∈ values Int.land l r) : ((minAnd l r).value.toNat : Int) ≤ i := by
  obtain ⟨v, w, hv, hw, rfl⟩ := (mem_values_land hl hr).mp hi
  exact_mod_cast minAnd_le_and hv hw

-- A bound that has a sign is not a value.
theorem nonneg_of_isLeast_lor (h : IsLeast (values Int.lor l r) x.toInt) : x.negative = false := by
  obtain ⟨v, w, hv, hw, heq⟩ := (mem_values_lor hl hr).mp h.1
  have hlt := x.value.isLt
  rw [← Bool.not_eq_true]
  intro hs
  rw [toInt_of_negative hs] at heq
  omega

theorem nonneg_of_isLeast_land (h : IsLeast (values Int.land l r) x.toInt) : x.negative = false := by
  obtain ⟨v, w, hv, hw, heq⟩ := (mem_values_land hl hr).mp h.1
  have hlt := x.value.isLt
  rw [← Bool.not_eq_true]
  intro hs
  rw [toInt_of_negative hs] at heq
  omega

omit hl hr in
-- The complement of the largest number has no sign.
theorem com_negative_iff (h : x.negative = false) : x.com.negative = true ↔ x.toInt ≠ 2 ^ 64 - 1 := by
  have hones : (BitVec.allOnes 64).toNat = 2 ^ 64 - 1 := BitVec.toNat_allOnes
  rw [com_negative, h, Bool.not_false, Bool.and_true, decide_eq_true_iff, toInt_of_nonneg h, not_iff_not,
    ← BitVec.toNat_inj, hones]
  omega

omit hl hr in
theorem com_negative_eq_false_iff (h : x.negative = false) : x.com.negative = false ↔ x.toInt = 2 ^ 64 - 1 := by
  rw [← Bool.not_eq_true, com_negative_iff h, not_not]

theorem isLeast_minOr_iff : IsLeast (values Int.lor l r) (minOr l r).toInt ↔
    l.imin.toInt ≠ 2 ^ 64 - 1 ∧ r.imin.toInt ≠ 2 ^ 64 - 1 := by
  obtain ⟨v, w, hv, hw, heq⟩ := minOr_attained hl.ordered hr.ordered
  rw [← com_negative_iff hl.imin, ← com_negative_iff hr.imin]
  constructor
  case mp =>
    intro h
    have hs := nonneg_of_isLeast_lor hl hr h
    rw [minOr_negative, Bool.and_eq_false_iff, decide_eq_false_iff_not, Bool.not_eq_false', Bool.and_eq_true, not_not,
      heq] at hs
    refine hs.elim (fun hzero => ?_) id
    -- a value 0 is one of ranges that start at 0
    have hvalue := congrArg BitVec.toNat hzero
    rw [BitVec.toNat_or, show (0 : uinteger_t).toNat = 0 from rfl, Nat.or_eq_zero_iff] at hvalue
    have hlow := hv.low
    have hlow' := hw.low
    rw [com_negative_iff hl.imin, com_negative_iff hr.imin, toInt_of_nonneg hl.imin, toInt_of_nonneg hr.imin]
    omega
  case mpr =>
    rintro ⟨hcom, hcom'⟩
    have hs : (minOr l r).negative = false := by
      rw [minOr_negative, hcom, hcom', Bool.and_self, Bool.not_true, Bool.and_false]
    rw [toInt_of_nonneg hs]
    exact ⟨(mem_values_lor hl hr).mpr ⟨v, w, hv, hw, by rw [heq]⟩, fun i hi => minOr_le hl hr hi⟩

-- The bound of & is the complement of the loop's result.
theorem isLeast_minAnd_of_loop (h : maxOr l.com r.com =
    { value := maxOrLoop l.com.imax.value r.com.imax.value 64 l.com.imin.value r.com.imin.value 0, negative := true }) :
    IsLeast (values Int.land l r) (minAnd l r).toInt := by
  obtain ⟨v, w, hv, hw, hloop⟩ := loop_attained hl.ordered.com hr.ordered.com
  have hs : (minAnd l r).negative = false := by
    rw [minAnd, com_negative, h, Bool.not_true, Bool.and_false]
  have heq : (minAnd l r).value = ~~~v &&& ~~~w := by
    rw [minAnd, com_value, h, hloop, BitVec.not_or]
  rw [toInt_of_nonneg hs]
  exact ⟨(mem_values_land hl hr).mpr ⟨_, _, between_com_iff.mp hv, between_com_iff.mp hw, by rw [heq]⟩,
    fun i hi => minAnd_le hl hr hi⟩

omit hl hr in
theorem top_of_imin (hq : Natural r) (h : r.imin.toInt = 2 ^ 64 - 1) : r.imax.toInt = 2 ^ 64 - 1 := by
  have hordered : r.imin.value.toNat ≤ r.imax.value.toNat := hq.ordered
  have hlt := r.imax.value.isLt
  rw [toInt_of_nonneg hq.imax]
  rw [toInt_of_nonneg hq.imin] at h
  omega

omit hl hr in
theorem com_value_of_nonneg (h : x.negative = false) (hs : x.com.negative = false) : x.com.value = 0 := by
  rw [com_negative, h, Bool.not_false, Bool.and_true, decide_eq_false_iff_not, not_not] at hs
  rw [com_value, hs]
  rfl

-- Two numbers without a common bit
theorem zero_mem_values_land_iff (h : l.imax.toInt = 2 ^ 64 - 1 ∨ r.imax.toInt = 2 ^ 64 - 1) :
    0 ∈ values Int.land l r ↔ l.imin.toInt + r.imin.toInt < 2 ^ 64 := by
  rw [mem_values_land hl hr, toInt_of_nonneg hl.imin, toInt_of_nonneg hr.imin]
  rw [toInt_of_nonneg hl.imax, toInt_of_nonneg hr.imax] at h
  have hordered : r.imin.value.toNat ≤ r.imax.value.toNat := hr.ordered
  have hordered' : l.imin.value.toNat ≤ l.imax.value.toNat := hl.ordered
  have hdisjoint (v : uinteger_t) : (((~~~v &&& v).toNat : Nat) : Int) = 0 := by
    rw [BitVec.not_and_self]
    rfl
  constructor
  case mp =>
    rintro ⟨v, w, hv, hw, hzero⟩
    have hand : v &&& w = 0#64 := BitVec.eq_of_toNat_eq (by exact_mod_cast hzero)
    have hsum := BitVec.toNat_add_of_and_eq_zero hand
    have hlt := (v + w).isLt
    have hlow := hv.low
    have hlow' := hw.low
    omega
  case mpr =>
    intro hlt
    obtain h | h := h
    case inl =>
      refine ⟨~~~r.imin.value, r.imin.value, ⟨?_, ?_⟩, ⟨le_rfl, hordered⟩, hdisjoint _⟩ <;> rw [BitVec.toNat_not] <;> omega
    case inr =>
      refine ⟨l.imin.value, ~~~l.imin.value, ⟨le_rfl, hordered'⟩, ⟨?_, ?_⟩, by rw [BitVec.and_comm, hdisjoint]⟩ <;>
        rw [BitVec.toNat_not] <;> omega

-- The largest numbers: their bound is -1.
theorem not_isLeast_minAnd (h : l.imin.toInt = 2 ^ 64 - 1) (h' : r.imin.toInt = 2 ^ 64 - 1) :
    ¬IsLeast (values Int.land l r) (minAnd l r).toInt := by
  intro hleast
  obtain ⟨v, w, hv, hw, heq⟩ := (mem_values_land hl hr).mp hleast.1
  have hs := nonneg_of_isLeast_land hl hr hleast
  have hmax : (maxOr l.com r.com).negative = false := by
    rw [maxOr_negative, IntRange.com, IntRange.com]
    simp only [(com_negative_eq_false_iff hl.imin).mpr h, (com_negative_eq_false_iff hr.imin).mpr h',
      (com_negative_eq_false_iff hl.imax).mpr (top_of_imin hl h), Bool.false_and, Bool.xor_self, Bool.or_self]
  rw [minAnd_negative, hmax, Bool.not_false, Bool.and_true, decide_eq_false_iff_not, not_not] at hs
  have hones {q : IntRange} {u : uinteger_t} (hq : Natural q) (hu : Between q u) (h : q.imin.toInt = 2 ^ 64 - 1) :
      u = BitVec.allOnes 64 := by
    have hlt := u.isLt
    have hlow := hu.low
    rw [toInt_of_nonneg hq.imin] at h
    rw [← BitVec.toNat_inj, BitVec.toNat_allOnes]
    omega
  rw [hones hl hv h, hones hr hw h', toInt_of_nonneg (nonneg_of_isLeast_land hl hr hleast), hs] at heq
  exact absurd heq (by decide)

theorem isLeast_minAnd_iff : IsLeast (values Int.land l r) (minAnd l r).toInt ↔
    ¬(l.imin.toInt = 2 ^ 64 - 1 ∧ r.imin.toInt = 2 ^ 64 - 1) ∧
    (l.imin.toInt ≠ 2 ^ 64 - 1 → r.imin.toInt ≠ 2 ^ 64 - 1 →
      l.imax.toInt = 2 ^ 64 - 1 ∨ r.imax.toInt = 2 ^ 64 - 1 → l.imin.toInt + r.imin.toInt < 2 ^ 64) := by
  by_cases htop : l.imin.toInt = 2 ^ 64 - 1 <;> by_cases htop' : r.imin.toInt = 2 ^ 64 - 1
  case pos => exact iff_of_false (not_isLeast_minAnd hl hr htop htop') fun h => h.1 ⟨htop, htop'⟩
  case neg =>
    refine iff_of_true (isLeast_minAnd_of_loop hl hr ?_) ⟨fun h => htop' h.2, fun h => absurd htop h⟩
    rw [maxOr, IntRange.com, IntRange.com]
    simp only [(com_negative_eq_false_iff hl.imin).mpr htop, (com_negative_iff hr.imin).mpr htop', ne_eq,
      Bool.false_eq_true, not_false_eq_true, if_true, if_false]
  case pos =>
    refine iff_of_true (isLeast_minAnd_of_loop hl hr ?_) ⟨fun h => htop h.1, fun _ h => absurd htop' h⟩
    have hzero {q : IntRange} (hq : Natural q) :
        (if (!q.com.imin.negative) = true then 0 else q.com.imin.value) = q.com.imin.value := by
      split_ifs with h
      case pos => exact (com_value_of_nonneg hq.imax (by rwa [Bool.not_eq_true'] at h)).symm
      case neg => rfl
    have hneg : l.com.imax.negative = true := (com_negative_iff hl.imin).mpr htop
    have hneg' : r.com.imax.negative = false := (com_negative_eq_false_iff hr.imin).mpr htop'
    rw [maxOr]
    simp only [hzero hl, hzero hr, hneg, hneg', ne_eq, Bool.true_eq_false, not_false_eq_true, if_true]
  case neg =>
    have hneg : l.com.imax.negative = true := (com_negative_iff hl.imin).mpr htop
    have hneg' : r.com.imax.negative = true := (com_negative_iff hr.imin).mpr htop'
    have hmins : l.com.imin.negative = true ∧ r.com.imin.negative = true ↔
        ¬(l.imax.toInt = 2 ^ 64 - 1 ∨ r.imax.toInt = 2 ^ 64 - 1) := by
      rw [not_or]
      exact and_congr (com_negative_iff hl.imax) (com_negative_iff hr.imax)
    by_cases hmax : l.imax.toInt = 2 ^ 64 - 1 ∨ r.imax.toInt = 2 ^ 64 - 1
    case pos =>
      -- the complement of the largest number has lost its sign: the bound is 0
      have hbound : minAnd l r = { value := 0 } := by
        rw [minAnd, maxOr]
        simp only [hneg, hneg', ne_eq, not_true, if_false, hmins, hmax, and_self, if_true]
        rfl
      have hleast : IsLeast (values Int.land l r) (minAnd l r).toInt ↔ 0 ∈ values Int.land l r := by
        rw [hbound]
        exact and_iff_left fun i hi => (hbound ▸ minAnd_le hl hr hi :)
      rw [hleast, zero_mem_values_land_iff hl hr hmax]
      exact ⟨fun h => ⟨fun h' => htop h'.1, fun _ _ _ => h⟩, fun h => h.2 htop htop' hmax⟩
    case neg =>
      refine iff_of_true (isLeast_minAnd_of_loop hl hr ?_) ⟨fun h => htop h.1, fun _ _ h => absurd h hmax⟩
      rw [maxOr]
      simp only [hneg, hneg', ne_eq, not_true, if_false, hmins.mpr hmax, and_self, if_true]

end natural

-- The bounds of & and | are the smallest and the largest value, for ranges of numbers that are not
-- negative, but for the ranges that reach the largest number.
theorem bitwise_bounds_tight_iff (hL : L.Nonempty) (hR : R.Nonempty) (hl : 0 ≤ L.imin.toInt) (hr : 0 ≤ R.imin.toInt) :
    IsGreatest (values Int.land L R) (and L R).imax.toInt ∧
    IsGreatest (values Int.lor L R) (or L R).imax.toInt ∧
    (IsLeast (values Int.lor L R) (or L R).imin.toInt ↔
      L.imin.toInt ≠ 2 ^ 64 - 1 ∧ R.imin.toInt ≠ 2 ^ 64 - 1) ∧
    (IsLeast (values Int.land L R) (and L R).imin.toInt ↔
      ¬(L.imin.toInt = 2 ^ 64 - 1 ∧ R.imin.toInt = 2 ^ 64 - 1) ∧
      (L.imin.toInt ≠ 2 ^ 64 - 1 → R.imin.toInt ≠ 2 ^ 64 - 1 →
        L.imax.toInt = 2 ^ 64 - 1 ∨ R.imax.toInt = 2 ^ 64 - 1 → L.imin.toInt + R.imin.toInt < 2 ^ 64)) := by
  have hL' := natural_of_nonempty hL hl
  have hR' := natural_of_nonempty hR hr
  have hsigns : (!L.mixed) = true ∧ (!R.mixed) = true := by
    rw [mixed, mixed, hL'.imin, hL'.imax, hR'.imin, hR'.imax]
    exact ⟨rfl, rfl⟩
  rw [and, or, if_pos hsigns, if_pos hsigns]
  exact ⟨isGreatest_maxAnd hL' hR', isGreatest_maxOr hL' hR', isLeast_minOr_iff hL' hR', isLeast_minAnd_iff hL' hR'⟩

-- The numbers from 4 to 7, and those from 9 to 12
theorem bitwise_bounds_tight_four_nine :
    IsLeast (values Int.land ⟨{ value := 4 }, { value := 7 }⟩ ⟨{ value := 9 }, { value := 12 }⟩)
      (and ⟨{ value := 4 }, { value := 7 }⟩ ⟨{ value := 9 }, { value := 12 }⟩).imin.toInt :=
  (bitwise_bounds_tight_iff (L := ⟨{ value := 4 }, { value := 7 }⟩) (R := ⟨{ value := 9 }, { value := 12 }⟩)
    (by decide) (by decide) (by decide) (by decide)).2.2.2.mpr ⟨by decide, by decide⟩

end IntRange

end Compiler.Intrange
