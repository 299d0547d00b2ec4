import DmdModel.Compiler.Constfold.Arithmetic
import DmdModel.Compiler.Constfold.Theorems.Arrays
import DmdModel.Lib.NarrowWords

-- Integers are folded as they are computed at run time.

namespace Compiler.Constfold

open Constant

variable {K : Type*} [Field K] [LinearOrder K] [FloorRing K] {ty : TY} {type t t1 t2 : NumType} {u v v1 v2 : BitVec 64}

namespace TY

def width (ty : TY) : Nat :=
  8 * ty.size

-- The word that is computed with at run time, and its normalised form.
def word (ty : TY) (v : BitVec 64) : BitVec ty.width :=
  v.setWidth ty.width

def extend (ty : TY) (x : BitVec ty.width) : BitVec 64 :=
  NarrowWords.extend 64 ty.isUnsigned x

-- The operators that depend on the sign
def quotient (ty : TY) (x y : BitVec ty.width) : BitVec ty.width :=
  if ty.isUnsigned then x / y else x.sdiv y

def remainder (ty : TY) (x y : BitVec ty.width) : BitVec ty.width :=
  if ty.isUnsigned then x % y else x.srem y

def shiftedRight (ty : TY) (x : BitVec ty.width) (n : Nat) : BitVec ty.width :=
  if ty.isUnsigned then x >>> n else x.sshiftRight n

-- The overflow that is reported, which is the one of `int` or `long`.
def Overflows (ty : TY) (x y : BitVec ty.width) : Prop :=
  (ty = .Tint32 ∨ ty = .Tint64) ∧ x = BitVec.intMin ty.width ∧ y = -1

instance {x y : BitVec ty.width} : Decidable (ty.Overflows x y) := inferInstanceAs (Decidable (_ ∧ _))

theorem width_le : ty.width ≤ 64 := by
  cases ty <;> decide

theorem width_pos : 0 < ty.width := by
  cases ty <;> decide

theorem normalize_eq_extend (hty : ty ≠ .Tbool) : ty.normalize v = ty.extend (ty.word v) := by
  cases ty
  case Tbool  => exact absurd rfl hty
  case Tint64 => exact (BitVec.signExtend_eq _).symm.trans (congrArg _ (BitVec.setWidth_eq v).symm)
  case Tuns64 => exact (BitVec.setWidth_eq _).symm.trans (congrArg _ (BitVec.setWidth_eq v).symm)
  all_goals rfl

section words

variable {x y : BitVec ty.width} {n : Nat}

@[simp]
theorem word_extend : ty.word (ty.extend x) = x :=
  NarrowWords.setWidth_extend width_le _

@[simp]
theorem word_add : ty.word (u + v) = ty.word u + ty.word v :=
  BitVec.setWidth_add _ _ width_le

@[simp]
theorem word_mul : ty.word (u * v) = ty.word u * ty.word v :=
  BitVec.setWidth_mul _ _ width_le

@[simp]
theorem word_neg : ty.word (-v) = -ty.word v :=
  BitVec.setWidth_neg_of_le width_le

@[simp]
theorem word_not : ty.word (~~~v) = ~~~ty.word v :=
  BitVec.setWidth_not width_le

@[simp]
theorem word_shiftLeft : ty.word (v <<< n) = ty.word v <<< n :=
  BitVec.setWidth_shiftLeft_of_le width_le

end words

end TY

section types

theorem isBasic_of_basic (h : t.basic = some ty) : ∃ T : Ty, t = .integral T ∧ T.IsBasic ty := by
  cases t
  case floating => exact absurd h (by simp [NumType.basic])
  case integral T =>
    refine ⟨T, rfl, ?_⟩
    rw [NumType.basic] at h
    cases hT : T.toBasetype <;> rw [hT] at h
    case basic m ty' => exact ⟨m, by rw [hT, Option.some.inj h]⟩
    all_goals exact absurd h (by simp)

theorem normalize_of_basic (h : t.basic = some ty) : t.normalize v = ty.normalize v := by
  obtain ⟨T, rfl, hT⟩ := isBasic_of_basic h
  exact normalize_eq hT

theorem isUnsigned_of_basic (h : t.basic = some ty) : t.isUnsigned = ty.isUnsigned := by
  obtain ⟨T, rfl, m, hT⟩ := isBasic_of_basic h
  rw [NumType.isUnsigned, Ty.isUnsigned, hT]

theorem isIntegral_of_basic (h : t.basic = some ty) : t.isIntegral = true := by
  obtain ⟨T, rfl, hT⟩ := isBasic_of_basic h
  exact isIntegral_of_isBasic hT

theorem not_floating_of_basic (h : t.basic = some ty) :
    t.isReal = false ∧ t.isImaginary = false ∧ t.isComplex = false ∧ t.isFloating = false := by
  obtain ⟨T, rfl, hT⟩ := isBasic_of_basic h
  exact ⟨rfl, rfl, rfl, rfl⟩

end types

namespace Fold

section constants

variable {x y : BitVec ty.width} {op : String} {n : Nat}

-- The constant for a word
def const (t : NumType) (x : BitVec ty.width) : Constant K :=
  int64 t (ty.extend x)

theorem toInteger_const (hty : ty ≠ .Tbool) (h : t.basic = some ty) : (const t x : Constant K).toInteger = ty.extend x := by
  rw [const, toInteger, normalize_of_basic h, TY.normalize_eq_extend hty, TY.word_extend]

omit [Field K] [LinearOrder K] [FloorRing K] in
theorem IntegerExp_eq_const (hty : ty ≠ .Tbool) (h : t.basic = some ty) :
    (IntegerExp u t : Constant K) = const t (ty.word u) := by
  rw [IntegerExp, normalize_of_basic h, TY.normalize_eq_extend hty, const]

theorem neg_const (hty : ty ≠ .Tbool) (h : type.basic = some ty) (h1 : t1.basic = some ty) :
    Neg type (const t1 x : Constant K) = const type (-x) := by
  obtain ⟨hreal, himag, hcomplex, -⟩ := not_floating_of_basic h1
  have htype : (const t1 x : Constant K).type = t1 := rfl
  rw [Neg, htype, hreal, himag, hcomplex, toInteger_const hty h1, IntegerExp_eq_const hty h, TY.word_neg,
    TY.word_extend]
  rfl

theorem com_const (hty : ty ≠ .Tbool) (h : type.basic = some ty) (h1 : t1.basic = some ty) :
    Com type (const t1 x : Constant K) = const type (~~~x) := by
  rw [Com, toInteger_const hty h1, IntegerExp_eq_const hty h, TY.word_not, TY.word_extend]

theorem add_const (hty : ty ≠ .Tbool) (h : type.basic = some ty) (h1 : t1.basic = some ty) (h2 : t2.basic = some ty) :
    Add type (const t1 x : Constant K) (const t2 y) = const type (x + y) := by
  obtain ⟨hreal, himag, hcomplex, -⟩ := not_floating_of_basic h
  rw [Add, hreal, himag, hcomplex, toInteger_const hty h1, toInteger_const hty h2, IntegerExp_eq_const hty h,
    TY.word_add, TY.word_extend, TY.word_extend]
  rfl

theorem min_const (hty : ty ≠ .Tbool) (h : type.basic = some ty) (h1 : t1.basic = some ty) (h2 : t2.basic = some ty) :
    Min type (const t1 x : Constant K) (const t2 y) = const type (x - y) := by
  have htype : (const t2 y : Constant K).type = t2 := rfl
  rw [Min, htype, neg_const hty h2 h2, add_const hty h h1 h2, BitVec.sub_eq_add_neg]

theorem mul_const (hty : ty ≠ .Tbool) (h : type.basic = some ty) (h1 : t1.basic = some ty) (h2 : t2.basic = some ty) :
    Mul type (const t1 x : Constant K) (const t2 y) = const type (x * y) := by
  obtain ⟨-, -, -, hfloat⟩ := not_floating_of_basic h
  rw [Mul, hfloat, toInteger_const hty h1, toInteger_const hty h2, IntegerExp_eq_const hty h,
    TY.word_mul, TY.word_extend, TY.word_extend]
  rfl

end constants

section division

variable {x y : BitVec ty.width} {op : String}

def overflowMessage (ty : TY) (op : String) : String :=
  if ty = .Tint64 then
    "integer overflow: `long.min " ++ op ++ " -1L`"
  else
    "integer overflow: `int.min " ++ op ++ " -1`"

theorem extend_eq_zero : ty.extend x = 0 ↔ x = 0 := by
  have hzero : ty.extend 0 = 0 := by
    cases ty <;> rfl
  rw [← hzero]
  exact NarrowWords.extend_inj TY.width_le

theorem toInt_extend (hs : ty.isUnsigned = false) : (ty.extend x).toInt = x.toInt := by
  rw [TY.extend, NarrowWords.extend, hs]
  exact BitVec.toInt_signExtend_of_le TY.width_le

theorem extend_eq_neg_one (hs : ty.isUnsigned = false) : ty.extend x = -1 ↔ x = -1 := by
  have hone : ty.extend (-1) = -1 := by
    cases ty <;> first | rfl | exact absurd hs (by decide)
  rw [← hone]
  exact NarrowWords.extend_inj TY.width_le

-- A value of a narrow type is not as low as the least one of a wider type.
theorem extend_ne_of_lt (hs : ty.isUnsigned = false) (h : v.toInt < -2 ^ (ty.width - 1)) : ty.extend x ≠ v := by
  rintro rfl
  have hle := BitVec.le_toInt x
  rw [toInt_extend hs] at h
  omega

theorem leastError (hs : ty.isUnsigned = false) (h1 : y = -1) :
    (if ty.extend x = 0xFFFFFFFF80000000 ∧ some ty ≠ some .Tint64 then
        some ("integer overflow: `int.min " ++ op ++ " -1`")
      else if ty.extend x = 0x8000000000000000 then
        some ("integer overflow: `long.min " ++ op ++ " -1L`")
      else none) = if ty.Overflows x y then some (overflowMessage ty op) else none := by
  cases ty
  case Tint8 =>
    rw [if_neg (fun h => extend_ne_of_lt hs (by decide) h.1), if_neg (extend_ne_of_lt hs (by decide)),
      if_neg (by simp [TY.Overflows])]
  case Tint16 =>
    rw [if_neg (fun h => extend_ne_of_lt hs (by decide) h.1), if_neg (extend_ne_of_lt hs (by decide)),
      if_neg (by simp [TY.Overflows])]
  case Tint32 =>
    have hmin : TY.Tint32.extend x = 0xFFFFFFFF80000000#64 ↔ x = BitVec.intMin TY.Tint32.width :=
      NarrowWords.extend_inj (x := x) (y := BitVec.intMin TY.Tint32.width) TY.width_le
    rw [if_neg (extend_ne_of_lt hs (by decide))]
    simp [TY.Overflows, overflowMessage, hmin, h1]
  case Tint64 =>
    have hmin : TY.Tint64.extend x = 0x8000000000000000#64 ↔ x = BitVec.intMin TY.Tint64.width :=
      NarrowWords.extend_inj (x := x) (y := BitVec.intMin TY.Tint64.width) TY.width_le
    simp [TY.Overflows, overflowMessage, hmin, h1]
  all_goals exact absurd hs (by decide)

theorem divisionError_extend (h : type.basic = some ty) : divisionError (ty.extend x) (ty.extend y) type op =
    if y = 0 then some "divide by 0"
    else if ty.Overflows x y then some (overflowMessage ty op)
    else none := by
  rw [divisionError, isUnsigned_of_basic h, h]
  simp only [extend_eq_zero]
  by_cases h0 : y = 0
  case pos => rw [if_pos h0, if_pos h0]
  case neg =>
    rw [if_neg h0, if_neg h0]
    by_cases hs : ty.isUnsigned
    case pos =>
      have hno : ¬ ty.Overflows x y := by
        rintro ⟨rfl | rfl, -⟩ <;> exact absurd hs (by decide)
      rw [if_neg hno, hs, if_neg (by simp)]
    case neg =>
      rw [Bool.not_eq_true] at hs
      by_cases h1 : y = -1
      case neg => rw [if_neg (fun h => h1 ((extend_eq_neg_one hs).mp h.1)), if_neg (fun h => h1 h.2.2)]
      case pos =>
        rw [if_pos ⟨(extend_eq_neg_one hs).mpr h1, by rw [hs]; rfl⟩]
        exact leastError hs h1

-- The host does not trap where no error is reported.
theorem hostDivModOf_const (hty : ty ≠ .Tbool) (h1 : t1.basic = some ty) (h2 : t2.basic = some ty) (hy : y ≠ 0)
    (hno : ¬ ty.Overflows x y) : ∃ n, hostDivModOf (const t1 x : Constant K) (const t2 y) = some n ∧
      ty.word n.1 = ty.quotient x y ∧ ty.word n.2 = ty.remainder x y := by
  have htype1 : (const t1 x : Constant K).type = t1 := rfl
  have htype2 : (const t2 y : Constant K).type = t2 := rfl
  have hy' : ty.extend y ≠ 0 := mt (extend_eq_zero).mp hy
  rw [hostDivModOf, htype1, htype2, isUnsigned_of_basic h1, isUnsigned_of_basic h2, toInteger_const hty h1,
    toInteger_const hty h2]
  cases hs : ty.isUnsigned
  case true =>
    refine ⟨(ty.extend x / ty.extend y, ty.extend x % ty.extend y), ?_, ?_, ?_⟩
    · rw [if_pos (by simp), hostUDivMod, if_neg hy']
    · rw [TY.quotient, hs, TY.extend, TY.extend, hs]
      exact NarrowWords.setWidth_udiv TY.width_le
    · rw [TY.remainder, hs, TY.extend, TY.extend, hs]
      exact NarrowWords.setWidth_umod TY.width_le
  case false =>
    have hfits : ¬ (ty.extend x = BitVec.intMin 64 ∧ ty.extend y = -1) := by
      rintro ⟨hx, hone⟩
      rw [extend_eq_neg_one hs] at hone
      cases ty
      case Tint8  => exact extend_ne_of_lt hs (by decide) hx
      case Tint16 => exact extend_ne_of_lt hs (by decide) hx
      case Tint32 => exact extend_ne_of_lt hs (by decide) hx
      case Tint64 =>
        have hmin : x = BitVec.intMin TY.Tint64.width :=
          (NarrowWords.extend_inj (x := x) (y := BitVec.intMin TY.Tint64.width) TY.width_le).mp hx
        exact hno ⟨.inr rfl, hmin, hone⟩
      all_goals exact absurd hs (by decide)
    refine ⟨((ty.extend x).sdiv (ty.extend y), (ty.extend x).srem (ty.extend y)), ?_, ?_, ?_⟩
    · rw [if_neg (by simp), hostDivMod, if_neg (by rintro (h | h); exacts [hy' h, hfits h])]
    · rw [TY.quotient, hs, TY.extend, TY.extend, hs]
      exact NarrowWords.setWidth_sdiv TY.width_le
    · rw [TY.remainder, hs, TY.extend, TY.extend, hs]
      exact NarrowWords.setWidth_srem TY.width_le

-- What a division results in: an error or the constant for a word.
def divided (ty : TY) (type : NumType) (op : String) (x y z : BitVec ty.width) : UnionExp K :=
  if y = 0 then .error "divide by 0"
  else if ty.Overflows x y then .error (overflowMessage ty op)
  else .exp (const type z)

theorem div_const (hty : ty ≠ .Tbool) (h : type.basic = some ty) (h1 : t1.basic = some ty) (h2 : t2.basic = some ty) :
    Div type (const t1 x : Constant K) (const t2 y) = some (divided ty type "/" x y (ty.quotient x y)) := by
  obtain ⟨-, -, -, hfloat⟩ := not_floating_of_basic h
  rw [Div, hfloat, toInteger_const hty h1, toInteger_const hty h2, divisionError_extend h, divided]
  by_cases hy : y = 0
  case pos =>
    rw [if_pos hy, if_pos hy]
    rfl
  case neg =>
    rw [if_neg hy, if_neg hy]
    by_cases hno : ty.Overflows x y
    case pos =>
      rw [if_pos hno, if_pos hno]
      rfl
    case neg =>
      obtain ⟨n, hn, hq, -⟩ := hostDivModOf_const (K := K) hty h1 h2 hy hno
      rw [if_neg hno, if_neg hno, hn, ← hq, ← IntegerExp_eq_const hty h]
      rfl

theorem mod_const (hty : ty ≠ .Tbool) (h : type.basic = some ty) (h1 : t1.basic = some ty) (h2 : t2.basic = some ty) :
    Mod type (const t1 x : Constant K) (const t2 y) = some (divided ty type "%" x y (ty.remainder x y)) := by
  obtain ⟨-, -, -, hfloat⟩ := not_floating_of_basic h
  rw [Mod, hfloat, toInteger_const hty h1, toInteger_const hty h2, divisionError_extend h, divided]
  by_cases hy : y = 0
  case pos =>
    rw [if_pos hy, if_pos hy]
    rfl
  case neg =>
    rw [if_neg hy, if_neg hy]
    by_cases hno : ty.Overflows x y
    case pos =>
      rw [if_pos hno, if_pos hno]
      rfl
    case neg =>
      obtain ⟨n, hn, -, hr⟩ := hostDivModOf_const (K := K) hty h1 h2 hy hno
      rw [if_neg hno, if_neg hno, hn, ← hr, ← IntegerExp_eq_const hty h]
      rfl

end division

section power

variable {x y : BitVec ty.width} {n : BitVec 64}

theorem lowest_bit : (n &&& 1 = 0 ∧ n.toNat = 2 * (n >>> 1).toNat) ∨ (n &&& 1 ≠ 0 ∧ n.toNat = 2 * (n >>> 1).toNat + 1) := by
  have hbit : (n &&& 1).toNat = n.toNat % 2 := by
    rw [BitVec.toNat_and]
    exact Nat.and_one_is_mod _
  have hhalf : (n >>> 1).toNat = n.toNat / 2 := by
    rw [BitVec.toNat_ushiftRight, Nat.shiftRight_eq_div_pow]
  have hzero : n &&& 1 = 0 ↔ (n &&& 1).toNat = 0 := BitVec.toNat_inj.symm
  rw [ne_eq, hzero, hbit, hhalf]
  omega

-- The loop keeps the product of `v` and the power of `r` that is left.
theorem powLoop_const (hty : ty ≠ .Tbool) (h : t.basic = some ty) :
    powLoop n (const t y : Constant K) (const t x) = const t (y * x ^ n.toNat) := by
  have htype {z : BitVec ty.width} : (const t z : Constant K).type = t := rfl
  induction hn : n.toNat using Nat.strong_induction_on generalizing n x y
  case h k ih =>
    subst hn
    rw [powLoop]
    by_cases h0 : n = 0
    case pos =>
      rw [dif_pos h0, h0]
      exact congrArg (const t) (mul_one y).symm
    case neg =>
      have hpos : n.toNat ≠ 0 := fun hz => h0 (BitVec.eq_of_toNat_eq hz)
      have hsquare : (x * x) ^ (n >>> 1).toNat = x ^ (2 * (n >>> 1).toNat) := by rw [pow_mul, pow_two]
      rw [dif_neg h0, htype, htype, mul_const hty h h h, mul_const hty h h h]
      obtain ⟨hbit, hn⟩ | ⟨hbit, hn⟩ := @lowest_bit n
      case inl =>
        rw [if_neg (not_not_intro hbit), ih _ (by omega) rfl, hsquare, ← hn]
      case inr =>
        rw [if_pos hbit, ih _ (by omega) rfl, hsquare, hn, pow_succ', mul_assoc]

-- The exponent is an integer that is not negative.
theorem pow_const {e2 : Constant K} (hty : ty ≠ .Tbool) (h : type.basic = some ty) (h1 : t1.basic = some ty)
    (h2 : e2.type.isUnsigned = true ∨ 0 ≤ e2.toInteger.toInt) :
    Pow type (const t1 x : Constant K) e2 = some (.exp (const type (x ^ e2.toInteger.toNat))) := by
  obtain ⟨-, -, hcomplex, hfloat⟩ := not_floating_of_basic h1
  obtain ⟨-, -, hcomplex', -⟩ := not_floating_of_basic h
  have htype : (const t1 x : Constant K).type = t1 := rfl
  have hneg : (!e2.type.isUnsigned && e2.toInteger.slt 0) = false := by
    obtain hu | hs := h2
    case inl => rw [hu]; rfl
    case inr =>
      rw [BitVec.slt_eq_decide, Bool.and_eq_false_iff]
      exact .inr (decide_eq_false (not_lt.mpr hs))
  have hone : (IntegerExp 1 t1 : Constant K) = const t1 (1 : BitVec ty.width) := by
    rw [IntegerExp_eq_const hty h1]
    congr 1
    cases ty <;> rfl
  have hstart : powStart (const t1 x : Constant K) = (const t1 x, const t1 (1 : BitVec ty.width)) := by
    rw [powStart, htype, hcomplex, hfloat, toInteger_const hty h1, hone, IntegerExp_eq_const hty h1, TY.word_extend]
    rfl
  rw [Pow, hneg, hstart]
  simp only [Bool.false_and, Bool.false_eq_true, if_false, Option.bind_eq_bind, Option.bind_some, powLoop_const hty h1, one_mul, hcomplex',
    isIntegral_of_basic h, if_true, toInteger_const hty h1, IntegerExp_eq_const hty h, TY.word_extend]
  rfl

end power

section shifts

variable {x : BitVec ty.width} {n : Nat} {e2 : Constant K}

theorem hostShift_of_lt {w : Nat} {shift : BitVec w → Nat → BitVec w} {y : BitVec w} (h : n < w) :
    hostShift shift y n = some (shift y n) :=
  if_pos h

theorem shl_const (hty : ty ≠ .Tbool) (h : type.basic = some ty) (h1 : t1.basic = some ty)
    (hn : e2.toInteger.toNat < ty.width) :
    Shl type (const t1 x) e2 = some (const type (x <<< e2.toInteger.toNat)) := by
  rw [Shl, toInteger_const hty h1, hostShift_of_lt (hn.trans_le TY.width_le), Option.map_some,
    IntegerExp_eq_const hty h, TY.word_shiftLeft, TY.word_extend]

-- A count below the width passes the assertion.
theorem shiftRight_const {shift : TY → BitVec 64 → Nat → Option (BitVec 64)} {z : BitVec 64} (hty : ty ≠ .Tbool)
    (h : type.basic = some ty) (h1 : t1.basic = some ty) (hn : e2.toInteger.toNat < ty.width)
    (hz : shift ty (ty.extend x) e2.toInteger.toNat = some z) :
    shiftRight shift type (const t1 x) e2 = some (const type (ty.word z)) := by
  have htype : (const t1 x : Constant K).type = t1 := rfl
  have hcount : e2.toInteger ≤ 0xFFFFFFFF := by
    have hle : ty.width ≤ 64 := TY.width_le
    rw [BitVec.le_def]
    exact (hn.trans_le hle).le.trans (by decide)
  rw [shiftRight, htype, h1, Option.bind_some, if_pos hcount, toInteger_const hty h1, hz, Option.map_some,
    IntegerExp_eq_const hty h]

section host

variable {w : Nat} {y z : BitVec w}

theorem shr_signed (hy : y = z) (hw : w ≤ 32) (hn : n < 32) :
    ∃ r, (hostShift .sshiftRight (y.signExtend 32) n).map (·.signExtend 64) = some r ∧
      r.setWidth w = z.sshiftRight n := by
  subst hy
  refine ⟨_, congrArg _ (hostShift_of_lt hn), ?_⟩
  exact NarrowWords.promoted_sshiftRight hw (by decide)

theorem shr_unsigned (hy : y = z) (hw : w < 32) (hn : n < 32) :
    ∃ r, (hostShift .sshiftRight (y.setWidth 32) n).map (·.signExtend 64) = some r ∧
      r.setWidth w = z >>> n := by
  subst hy
  refine ⟨_, congrArg _ (hostShift_of_lt hn), ?_⟩
  exact NarrowWords.promoted_ushiftRight hw (by decide)

theorem ushr_masked {u : BitVec 64} (hu : u.setWidth w = z) (hw : w ≤ 64) (hn : n < 64) :
    ∃ r, hostShift (· >>> ·) (u &&& BitVec.ofNat 64 (2 ^ w - 1)) n = some r ∧ r.setWidth w = z >>> n := by
  refine ⟨_, hostShift_of_lt hn, ?_⟩
  exact NarrowWords.masked_ushiftRight hw hu

end host

theorem shrValue_extend (hty : ty ≠ .Tbool) (hn : n < ty.width) :
    ∃ z, shrValue ty (ty.extend x) n = some z ∧ ty.word z = ty.shiftedRight x n := by
  have hx : ty.word (ty.extend x) = x := TY.word_extend
  have hint : ty.width ≤ 32 → n < 32 := fun h => hn.trans_le h
  cases ty
  case Tbool  => exact absurd rfl hty
  case Tint8  => exact shr_signed hx (by decide) (hint (by decide))
  case Tuns8  => exact shr_unsigned hx (by decide) (hint (by decide))
  case Tchar  => exact shr_unsigned hx (by decide) (hint (by decide))
  case Tint16 => exact shr_signed hx (by decide) (hint (by decide))
  case Tuns16 => exact shr_unsigned hx (by decide) (hint (by decide))
  case Twchar => exact shr_unsigned hx (by decide) (hint (by decide))
  case Tint32 =>
    refine ⟨_, congrArg (Option.map _) (hostShift_of_lt (hint (by decide))), ?_⟩
    exact (NarrowWords.setWidth_signExtend (by decide)).trans (congrArg (·.sshiftRight n) hx)
  case Tuns32 =>
    refine ⟨_, congrArg (Option.map _) (hostShift_of_lt (hint (by decide))), ?_⟩
    exact (NarrowWords.setWidth_setWidth_of_le (by decide)).trans (congrArg (fun y : BitVec 32 => y >>> n) hx)
  case Tdchar =>
    refine ⟨_, congrArg (Option.map _) (hostShift_of_lt (hint (by decide))), ?_⟩
    exact (NarrowWords.setWidth_setWidth_of_le (by decide)).trans (congrArg (fun y : BitVec 32 => y >>> n) hx)
  case Tint64 =>
    refine ⟨_, hostShift_of_lt hn, ?_⟩
    exact NarrowWords.setWidth_sshiftRight (by decide)
  case Tuns64 =>
    refine ⟨_, hostShift_of_lt hn, ?_⟩
    exact NarrowWords.setWidth_ushiftRight (by decide)

theorem ushrValue_extend (hty : ty ≠ .Tbool) (hn : n < ty.width) :
    ∃ z, ushrValue ty (ty.extend x) n = some z ∧ ty.word z = x >>> n := by
  have hx : ty.word (ty.extend x) = x := TY.word_extend
  have hlong : n < 64 := hn.trans_le TY.width_le
  cases ty
  case Tbool  => exact absurd rfl hty
  case Tint64 =>
    have hword : TY.Tint64.extend x = x := (BitVec.setWidth_eq _).symm.trans hx
    refine ⟨_, hostShift_of_lt hn, ?_⟩
    exact (BitVec.setWidth_eq _).trans (congrArg (fun y : BitVec 64 => y >>> n) hword)
  case Tuns64 =>
    refine ⟨_, hostShift_of_lt hn, ?_⟩
    exact NarrowWords.setWidth_ushiftRight (by decide)
  case Tint8  => exact ushr_masked (w := 8) hx (by decide) hlong
  case Tuns8  => exact ushr_masked (w := 8) hx (by decide) hlong
  case Tchar  => exact ushr_masked (w := 8) hx (by decide) hlong
  case Tint16 => exact ushr_masked (w := 16) hx (by decide) hlong
  case Tuns16 => exact ushr_masked (w := 16) hx (by decide) hlong
  case Twchar => exact ushr_masked (w := 16) hx (by decide) hlong
  case Tint32 => exact ushr_masked (w := 32) hx (by decide) hlong
  case Tuns32 => exact ushr_masked (w := 32) hx (by decide) hlong
  case Tdchar => exact ushr_masked (w := 32) hx (by decide) hlong

theorem shr_const (hty : ty ≠ .Tbool) (h : type.basic = some ty) (h1 : t1.basic = some ty)
    (hn : e2.toInteger.toNat < ty.width) :
    Shr type (const t1 x) e2 = some (const type (ty.shiftedRight x e2.toInteger.toNat)) := by
  obtain ⟨z, hz, hword⟩ := @shrValue_extend ty x _ hty hn
  rw [Shr, shiftRight_const hty h h1 hn hz, hword]

theorem ushr_const (hty : ty ≠ .Tbool) (h : type.basic = some ty) (h1 : t1.basic = some ty)
    (hn : e2.toInteger.toNat < ty.width) :
    Ushr type (const t1 x) e2 = some (const type (x >>> e2.toInteger.toNat)) := by
  obtain ⟨z, hz, hword⟩ := @ushrValue_extend ty x _ hty hn
  rw [Ushr, shiftRight_const hty h h1 hn hz, hword]

end shifts

section bitwise

variable {e1 e2 : Constant K}

theorem toInteger_normal (h : t.basic = some ty) (hv : ty.normalize v = v) : (int64 t v : Constant K).toInteger = v := by
  rw [toInteger, normalize_of_basic h, hv]

omit [Field K] [LinearOrder K] [FloorRing K] in
theorem int64_normal (hty : ty ≠ .Tbool) (hv : ty.normalize v = v) :
    (int64 t v : Constant K) = const t (ty.word v) := by
  rw [const, ← TY.normalize_eq_extend hty, hv]

-- Truth values are not promoted by the operators on bits.
theorem normal_cases (hv : ty.normalize v = v) : ty ≠ .Tbool ∨ v = 0 ∨ v = 1 := by
  by_cases hty : ty = .Tbool
  case neg => exact .inl hty
  case pos =>
    subst hty
    change (if v ≠ 0 then (1 : BitVec 64) else 0) = v at hv
    split_ifs at hv
    case pos => exact .inr (.inr hv.symm)
    case neg => exact .inr (.inl hv.symm)

omit [Field K] [LinearOrder K] [FloorRing K] in
theorem IntegerExp_normal (h : t.basic = some ty) (hu : ty ≠ .Tbool ∨ u = 0 ∨ u = 1) :
    (IntegerExp u t : Constant K) = const t (ty.word u) := by
  by_cases hty : ty = .Tbool
  case neg => exact IntegerExp_eq_const hty h
  case pos =>
    subst hty
    rw [IntegerExp, normalize_of_basic h]
    obtain rfl | rfl := hu.resolve_left (not_not_intro rfl) <;> rfl

theorem bit_cases {f : BitVec 64 → BitVec 64 → BitVec 64} (hv1 : ty.normalize v1 = v1) (hv2 : ty.normalize v2 = v2)
    (hf : ∀ x ∈ [0, 1], ∀ y ∈ [0, 1], f x y ∈ [0, 1]) : ty ≠ .Tbool ∨ f v1 v2 = 0 ∨ f v1 v2 = 1 := by
  obtain hty | h1 := normal_cases hv1
  case inl => exact .inl hty
  case inr =>
    obtain hty | h2 := normal_cases hv2
    case inl => exact .inl hty
    case inr =>
      have hmem := hf v1 (by simpa using h1) v2 (by simpa using h2)
      exact .inr (by simpa using hmem)

variable (h : type.basic = some ty) (h1 : t1.basic = some ty) (h2 : t2.basic = some ty)
  (hv1 : ty.normalize v1 = v1) (hv2 : ty.normalize v2 = v2)
include h h1 h2 hv1 hv2

theorem and_normal : And type (int64 t1 v1 : Constant K) (int64 t2 v2) = const type (ty.word v1 &&& ty.word v2) := by
  have hbits := bit_cases (f := (· &&& ·)) hv1 hv2 (by simp)
  rw [And, toInteger_normal h1 hv1, toInteger_normal h2 hv2, IntegerExp_normal h hbits]
  exact congrArg _ BitVec.setWidth_and

theorem or_normal : Or type (int64 t1 v1 : Constant K) (int64 t2 v2) = const type (ty.word v1 ||| ty.word v2) := by
  have hbits := bit_cases (f := (· ||| ·)) hv1 hv2 (by simp)
  rw [Or, toInteger_normal h1 hv1, toInteger_normal h2 hv2, IntegerExp_normal h hbits]
  exact congrArg _ BitVec.setWidth_or

theorem xor_normal : Xor type (int64 t1 v1 : Constant K) (int64 t2 v2) = const type (ty.word v1 ^^^ ty.word v2) := by
  have hbits := bit_cases (f := (· ^^^ ·)) hv1 hv2 (by simp)
  rw [Xor, toInteger_normal h1 hv1, toInteger_normal h2 hv2, IntegerExp_normal h hbits]
  exact congrArg _ BitVec.setWidth_xor

end bitwise

-- What folding gives for operands that have been promoted to one type, which is also the one of the result.
theorem integral_exact (ty : TY) (type t1 t2 : NumType) (v1 v2 : BitVec 64)
    (h : type.basic = some ty) (h1 : t1.basic = some ty) (h2 : t2.basic = some ty)
    (hv1 : ty.normalize v1 = v1) (hv2 : ty.normalize v2 = v2) :
    let e1 : Constant K := int64 t1 v1
    let e2 : Constant K := int64 t2 v2
    let x := ty.word v1
    let y := ty.word v2
    let result (z : BitVec ty.width) : Constant K := int64 type (ty.extend z)
    (And type e1 e2 = result (x &&& y) ∧ Or type e1 e2 = result (x ||| y) ∧ Xor type e1 e2 = result (x ^^^ y)) ∧
    (ty ≠ .Tbool →
      (Neg type e1 = result (-x) ∧ Com type e1 = result (~~~x) ∧ Add type e1 e2 = result (x + y) ∧
        Min type e1 e2 = result (x - y) ∧ Mul type e1 e2 = result (x * y)) ∧
      (Div type e1 e2 = some (
        if y = 0 then .error "divide by 0"
        else if ty.Overflows x y then .error (overflowMessage ty "/")
        else .exp (result (ty.quotient x y)))) ∧
      (Mod type e1 e2 = some (
        if y = 0 then .error "divide by 0"
        else if ty.Overflows x y then .error (overflowMessage ty "%")
        else .exp (result (ty.remainder x y)))) ∧
      (∀ count : Constant K, count.toInteger.toNat < ty.width →
        Shl type e1 count = some (result (x <<< count.toInteger.toNat)) ∧
        Shr type e1 count = some (result (ty.shiftedRight x count.toInteger.toNat)) ∧
        Ushr type e1 count = some (result (x >>> count.toInteger.toNat))) ∧
      (∀ exponent : Constant K, exponent.type.isIntegral →
        exponent.type.isUnsigned = true ∨ 0 ≤ exponent.toInteger.toInt →
        Pow type e1 exponent = some (.exp (result (x ^ exponent.toInteger.toNat))))) := by
  intro e1 e2 x y result
  refine ⟨⟨and_normal h h1 h2 hv1 hv2, or_normal h h1 h2 hv1 hv2, xor_normal h h1 h2 hv1 hv2⟩, fun hty => ?_⟩
  have he1 : e1 = const t1 x := int64_normal hty hv1
  have he2 : e2 = const t2 y := int64_normal hty hv2
  rw [he1, he2]
  refine ⟨⟨neg_const hty h h1, com_const hty h h1, add_const hty h h1 h2, min_const hty h h1 h2,
    mul_const hty h h1 h2⟩, div_const hty h h1 h2, mod_const hty h h1 h2, ?_, ?_⟩
  · intro count hcount
    exact ⟨shl_const hty h h1 hcount, shr_const hty h h1 hcount, ushr_const hty h h1 hcount⟩
  · intro exponent _ hexp
    exact pow_const hty h h1 hexp

-- The least value of type `byte`, which is negated and divided by minus one without an error.
theorem integral_exact_byte : Div (.integral (.basic .mutable .Tint8))
    (int64 (.integral (.basic .mutable .Tint8)) (-128) : Constant ℚ) (int64 (.integral (.basic .mutable .Tint8)) (-1)) =
      some (.exp (int64 (.integral (.basic .mutable .Tint8)) (-128))) :=
  ((integral_exact .Tint8 (.integral (.basic .mutable .Tint8)) (.integral (.basic .mutable .Tint8))
    (.integral (.basic .mutable .Tint8)) (-128) (-1) rfl rfl rfl rfl rfl).2 (by decide)).2.1.trans (by decide)

end Fold

end Compiler.Constfold
