import DmdModel.Compiler.Constfold.Arithmetic

-- Folding of real, imaginary and complex constants.

namespace Compiler.Constfold

open Constant

def FloatTY.kind : FloatTY → Kind
  | Tfloat32 | Tfloat64 | Tfloat80             => .real
  | Timaginary32 | Timaginary64 | Timaginary80 => .imaginary
  | Tcomplex32 | Tcomplex64 | Tcomplex80       => .complex

-- The kinds of sums and differences
def Kind.sum (k l : Kind) : Kind :=
  if k = l then k else .complex

-- The kinds of products and quotients
def Kind.product : Kind → Kind → Kind
  | .real,      l          => l
  | k,          .real      => k
  | .imaginary, .imaginary => .real
  | _,          _          => .complex

-- The complex numbers over a field
abbrev Number (K : Type*) [Field K] := QuadraticAlgebra K (-1) 0

namespace Fold

variable {K : Type*} [Field K]

-- Constants by the kind of their type, with the numbers they stand for
inductive Denotes : Kind → Number K → Constant K → Prop
  | real {t : FloatTY} {v : K} : t.kind = .real → Denotes .real ⟨v, 0⟩ (float64 (.floating t) v)
  | imaginary {t : FloatTY} {v : K} : t.kind = .imaginary → Denotes .imaginary ⟨0, v⟩ (float64 (.floating t) v)
  | complex {t : FloatTY} {c : complex_t K} : t.kind = .complex →
    Denotes .complex ⟨c.re, c.im⟩ (complex80 (.floating t) c)

-- The constant of a kind for a number
def standard (z : Number K) (type : NumType) : Kind → Constant K
  | .real      => RealExp z.re type
  | .imaginary => RealExp z.im type
  | .complex   => ComplexExp ⟨z.re, z.im⟩ type

variable {t t' : FloatTY} {k l : Kind} {z w : Number K} {a b e : Constant K} {c : complex_t K} {v : K}

section types

theorem isReal_eq : (NumType.floating t).isReal = decide (t.kind = .real) := by
  cases t <;> decide

theorem isImaginary_eq : (NumType.floating t).isImaginary = decide (t.kind = .imaginary) := by
  cases t <;> decide

theorem isComplex_eq : (NumType.floating t).isComplex = decide (t.kind = .complex) := by
  cases t <;> decide

end types

namespace Denotes

theorem of_real (ht : t.kind = .real) (hre : v = z.re) (him : z.im = 0) : Denotes .real z (RealExp v (.floating t)) := by
  obtain ⟨re, im⟩ := z
  subst hre him
  exact .real ht

theorem of_imaginary (ht : t.kind = .imaginary) (hre : z.re = 0) (him : v = z.im) :
    Denotes .imaginary z (RealExp v (.floating t)) := by
  obtain ⟨re, im⟩ := z
  subst hre him
  exact .imaginary ht

theorem of_complex (ht : t.kind = .complex) (hre : c.re = z.re) (him : c.im = z.im) :
    Denotes .complex z (ComplexExp c (.floating t)) := by
  obtain ⟨re, im⟩ := z
  subst hre him
  exact .complex ht

theorem type_eq (h : Denotes k z e) : ∃ t, e.type = .floating t ∧ t.kind = k := by
  cases h
  case real ht      => exact ⟨_, rfl, ht⟩
  case imaginary ht => exact ⟨_, rfl, ht⟩
  case complex ht   => exact ⟨_, rfl, ht⟩

theorem isReal (h : Denotes k z e) : e.type.isReal = decide (k = .real) := by
  obtain ⟨t, htype, rfl⟩ := h.type_eq
  rw [htype, isReal_eq]

theorem isImaginary (h : Denotes k z e) : e.type.isImaginary = decide (k = .imaginary) := by
  obtain ⟨t, htype, rfl⟩ := h.type_eq
  rw [htype, isImaginary_eq]

theorem isComplex (h : Denotes k z e) : e.type.isComplex = decide (k = .complex) := by
  obtain ⟨t, htype, rfl⟩ := h.type_eq
  rw [htype, isComplex_eq]

theorem kind_eq (h : Denotes k z e) : e.kind = k := by
  rw [Constant.kind, h.isReal, h.isImaginary]
  cases k <;> rfl

theorem im_of_real (h : Denotes .real z e) : z.im = 0 := by
  cases h
  rfl

theorem re_of_imaginary (h : Denotes .imaginary z e) : z.re = 0 := by
  cases h
  rfl

theorem toReal (h : Denotes k z e) : e.toReal = z.re := by
  cases h
  case real ht      => rw [Constant.toReal, isReal_eq, ht]; rfl
  case imaginary ht => rw [Constant.toReal, isReal_eq, ht]; rfl
  case complex      => rfl

theorem toImaginary (h : Denotes k z e) : e.toImaginary = z.im := by
  cases h
  case real ht      => rw [Constant.toImaginary, isReal_eq, ht]; rfl
  case imaginary ht => rw [Constant.toImaginary, isReal_eq, ht]; rfl
  case complex      => rfl

theorem toComplex (h : Denotes k z e) : e.toComplex = ⟨z.re, z.im⟩ := by
  have hre := h.toReal
  have him := h.toImaginary
  cases h
  case real      => rw [Constant.toComplex, hre, him]
  case imaginary => rw [Constant.toComplex, hre, him]
  case complex   => rfl

theorem unique {k' : Kind} (h : Denotes k z e) (h' : Denotes k' w e) : z = w := by
  have hre := h.toReal.symm.trans h'.toReal
  have him := h.toImaginary.symm.trans h'.toImaginary
  exact QuadraticAlgebra.ext hre him

theorem eq_standard (h : Denotes k z e) : e = standard z e.type k := by
  cases h <;> rfl

-- Constants of one type that stand for one number are the same.
theorem eq_of_type {e' : Constant K} (h : Denotes k z e) (h' : Denotes k z e') (htype : e.type = e'.type) : e = e' := by
  rw [h.eq_standard, h'.eq_standard, htype]

end Denotes

section components

-- The sum of a complex operand and a real one loses its imaginary part.
theorem addComplex_eq (ha : Denotes k z a) (hb : Denotes l w b) :
    addComplex a b = ⟨z.re + w.re, if k = .complex ∧ l = .real then 0 else z.im + w.im⟩ := by
  have hre_a := ha.toReal
  have him_a := ha.toImaginary
  have hre_b := hb.toReal
  have him_b := hb.toImaginary
  rw [addComplex, ha.kind_eq, hb.kind_eq, hre_a, him_a, ha.toComplex, hre_b, him_b, hb.toComplex]
  cases k <;> cases l
  case real.real           => simp [complex_t.real, ha.im_of_real, hb.im_of_real]
  case real.imaginary      => simp [ha.im_of_real, hb.re_of_imaginary]
  case real.complex        => simp [ha.im_of_real]
  case imaginary.real      => simp [ha.re_of_imaginary, hb.im_of_real]
  case imaginary.imaginary => simp [ha.re_of_imaginary, hb.re_of_imaginary]
  case imaginary.complex   => simp [ha.re_of_imaginary]
  case complex.real        => simp [complex_t.real]
  case complex.imaginary   => simp [hb.re_of_imaginary]
  case complex.complex     => rfl

theorem component_denotes {m : Kind} (ht : t.kind = m) (hre : c.re = z.re) (him : c.im = z.im)
    (hreal : m = .real → z.im = 0) (himag : m = .imaginary → z.re = 0) : Denotes m z (component c (.floating t)) := by
  rw [component, isReal_eq, isImaginary_eq, ht]
  cases m
  case real      => exact .of_real ht hre (hreal rfl)
  case imaginary => exact .of_imaginary ht (himag rfl) him
  case complex   => exact .of_complex ht hre him

theorem product_im (ha : Denotes k z a) (hb : Denotes l w b) (h : k.product l = .real) :
    (z * w).im = 0 := by
  cases k <;> cases l <;> simp only [Kind.product, reduceCtorEq] at h
  case real.real           => simp [ha.im_of_real, hb.im_of_real]
  case imaginary.imaginary => simp [ha.re_of_imaginary, hb.re_of_imaginary]

theorem product_re (ha : Denotes k z a) (hb : Denotes l w b) (h : k.product l = .imaginary) :
    (z * w).re = 0 := by
  cases k <;> cases l <;> simp only [Kind.product, reduceCtorEq] at h
  case real.imaginary => simp [ha.im_of_real, hb.re_of_imaginary]
  case imaginary.real => simp [ha.re_of_imaginary, hb.im_of_real]

end components

variable [LinearOrder K] [FloorRing K]

theorem neg_denotes (h : Denotes k z e) (ht : t.kind = k) : Denotes k (-z) (Neg (.floating t) e) := by
  rw [Neg, h.isReal, h.isImaginary, h.isComplex, h.toReal, h.toImaginary, h.toComplex]
  cases k
  case real      => exact .of_real ht rfl (by rw [QuadraticAlgebra.im_neg, h.im_of_real, neg_zero])
  case imaginary => exact .of_imaginary ht (by rw [QuadraticAlgebra.re_neg, h.re_of_imaginary, neg_zero]) rfl
  case complex   => exact .of_complex ht rfl rfl

section sums

theorem add_complex_eq (ha : Denotes k z a) (hb : Denotes l w b) (ht : t.kind = .complex) :
    Denotes .complex ⟨z.re + w.re, if k = .complex ∧ l = .real then 0 else z.im + w.im⟩ (Add (.floating t) a b) := by
  rw [Add, isReal_eq, isImaginary_eq, isComplex_eq, ht, addComplex_eq ha hb]
  exact .of_complex ht rfl rfl

theorem add_denotes (ha : Denotes k z a) (hb : Denotes l w b) (ht : t.kind = k.sum l)
    (h : k = .complex → l = .real → z.im = 0) : Denotes (k.sum l) (z + w) (Add (.floating t) a b) := by
  cases hkind : k.sum l <;> rw [hkind] at ht
  case real =>
    have hk : k = .real ∧ l = .real := by cases k <;> cases l <;> simp_all [Kind.sum]
    obtain ⟨rfl, rfl⟩ := hk
    rw [Add, isReal_eq, ht, ha.toReal, hb.toReal]
    exact .of_real ht rfl (by rw [QuadraticAlgebra.im_add, ha.im_of_real, hb.im_of_real, add_zero])
  case imaginary =>
    have hk : k = .imaginary ∧ l = .imaginary := by cases k <;> cases l <;> simp_all [Kind.sum]
    obtain ⟨rfl, rfl⟩ := hk
    rw [Add, isReal_eq, isImaginary_eq, ht, ha.toImaginary, hb.toImaginary]
    exact .of_imaginary ht (by rw [QuadraticAlgebra.re_add, ha.re_of_imaginary, hb.re_of_imaginary, add_zero]) rfl
  case complex =>
    have hsum := add_complex_eq ha hb ht
    by_cases hlost : k = .complex ∧ l = .real
    case neg => rwa [if_neg hlost] at hsum
    case pos =>
      obtain ⟨rfl, rfl⟩ := hlost
      rw [if_pos ⟨rfl, rfl⟩] at hsum
      have hzero : (z + w).im = 0 := by rw [QuadraticAlgebra.im_add, h rfl rfl, hb.im_of_real, add_zero]
      have hnumber : (⟨z.re + w.re, 0⟩ : Number K) = z + w := QuadraticAlgebra.ext rfl hzero.symm
      rwa [hnumber] at hsum

theorem min_denotes (ha : Denotes k z a) (hb : Denotes l w b) (ht : t.kind = k.sum l)
    (h : k = .complex → l = .real → z.im = 0) : Denotes (k.sum l) (z - w) (Min (.floating t) a b) := by
  obtain ⟨t', htype, ht'⟩ := hb.type_eq
  rw [Min, htype, sub_eq_add_neg]
  exact add_denotes ha (neg_denotes hb ht') ht h

end sums

section products

theorem mul_denotes (ha : Denotes k z a) (hb : Denotes l w b) (ht : t.kind = k.product l) :
    Denotes (k.product l) (z * w) (Mul (.floating t) a b) := by
  have hprod (c : complex_t K) (hc : c = ⟨(z * w).re, (z * w).im⟩) :
      Denotes (k.product l) (z * w) (component c (.floating t)) :=
    component_denotes ht (congrArg complex_t.re hc) (congrArg complex_t.im hc) (product_im ha hb) (product_re ha hb)
  rw [Mul, NumType.isFloating, if_pos rfl, ha.isReal, ha.isImaginary, hb.isReal, hb.isImaginary, ha.toReal,
    ha.toImaginary, ha.toComplex, hb.toReal, hb.toImaginary, hb.toComplex]
  apply hprod
  cases k
  case real => simp [ha.im_of_real]
  case imaginary => simp [ha.re_of_imaginary]
  case complex =>
    cases l
    case real => simp [hb.im_of_real, mul_comm]
    case imaginary => simp [hb.re_of_imaginary, mul_comm]
    case complex =>
      ext
      case re => exact (by ring : z.re * w.re - z.im * w.im = z.re * w.re + -1 * z.im * w.im)
      case im => exact (by ring : z.im * w.re + z.re * w.im = z.re * w.im + z.im * w.re + 0 * z.im * w.im)

end products

section quotients

variable [IsStrictOrderedRing K]

omit [FloorRing K] in
-- Neither component of the divisor makes the denominator vanish.
theorem denominator_ne_zero {p q : K} (hq : q ≠ 0) : q + p / q * p ≠ 0 := by
  have hpos : 0 < q * q + p * p := add_pos_of_pos_of_nonneg (mul_self_pos.mpr hq) (mul_self_nonneg p)
  intro h0
  have hmul : (q + p / q * p) * q = q * q + p * p := by field_simp
  rw [h0, zero_mul] at hmul
  exact hpos.ne hmul

omit [FloorRing K] in
-- The quotient is computed with the larger component of the divisor.
theorem div_mul_cancel (hw : w ≠ 0) (hc : c = (⟨z.re, z.im⟩ : complex_t K) / ⟨w.re, w.im⟩) :
    (⟨c.re, c.im⟩ : Number K) * w = z := by
  subst hc
  change (let q : complex_t K := if |w.re| < |w.im| then _ else _; (⟨q.re, q.im⟩ : Number K) * w = z)
  dsimp only
  split_ifs with hlt
  case pos =>
    have him : w.im ≠ 0 := by
      intro h0
      rw [h0, abs_zero] at hlt
      exact absurd hlt (not_lt.mpr (abs_nonneg _))
    have hden := denominator_ne_zero (p := w.re) him
    ext
    case re =>
      simp
      field_simp
      ring
    case im =>
      simp
      field_simp
      ring
  case neg =>
    have hre : w.re ≠ 0 := by
      intro h0
      rw [h0, abs_zero, not_lt, abs_nonpos_iff] at hlt
      exact hw (QuadraticAlgebra.ext h0 hlt)
    have hden := denominator_ne_zero (p := w.im) hre
    ext
    case re =>
      simp
      field_simp
      ring
    case im =>
      simp
      field_simp
      ring

omit [FloorRing K] in
theorem divFloating_denotes (ha : Denotes k z a) (hb : Denotes l w b) (ht : t.kind = k.product l) (hw : w ≠ 0) :
    ∃ u, Denotes (k.product l) u (divFloating (.floating t) a b) ∧ u * w = z := by
  rw [divFloating, ha.isReal, hb.isReal, hb.isImaginary, ha.toReal, ha.toComplex, hb.toReal, hb.toImaginary,
    hb.toComplex]
  cases l
  case real =>
    have him := hb.im_of_real
    have hre : w.re ≠ 0 := fun h => hw (QuadraticAlgebra.ext h him)
    refine ⟨⟨z.re / w.re, z.im / w.re⟩, ?_, ?_⟩
    · cases k
      case real =>
        exact .of_real ht rfl (by rw [ha.im_of_real, zero_div])
      case imaginary =>
        refine component_denotes ht rfl rfl (fun h => absurd h (by decide)) (fun _ => ?_)
        rw [ha.re_of_imaginary, zero_div]
      case complex =>
        exact component_denotes ht rfl rfl (fun h => absurd h (by decide)) (fun h => absurd h (by decide))
    · ext <;> simp [him, hre]
  case imaginary =>
    have hre := hb.re_of_imaginary
    have him : w.im ≠ 0 := fun h => hw (QuadraticAlgebra.ext hre h)
    refine ⟨⟨z.im / w.im, -z.re / w.im⟩, ?_, ?_⟩
    · refine component_denotes ht rfl rfl (fun h => ?_) (fun h => ?_)
      · cases k <;> simp only [Kind.product, reduceCtorEq] at h
        case imaginary => rw [ha.re_of_imaginary, neg_zero, zero_div]
      · cases k <;> simp only [Kind.product, reduceCtorEq] at h
        case real => rw [ha.im_of_real, zero_div]
    · ext <;> simp [hre, him]
  case complex =>
    have hkind : k.product .complex = .complex := by cases k <;> rfl
    rw [hkind] at ht ⊢
    exact ⟨⟨_, _⟩, component_denotes ht rfl rfl (fun h => absurd h (by decide)) (fun h => absurd h (by decide)), div_mul_cancel hw rfl⟩

end quotients

section arithmetic

theorem type_add : (Add (.floating t) a b).type = .floating t := by
  rw [Add]
  split_ifs <;> rfl

theorem type_mul : (Mul (.floating t) a b).type = .floating t := by
  rw [Mul, NumType.isFloating, if_pos rfl, component]
  split_ifs <;> rfl

variable [IsStrictOrderedRing K]

-- Constants of all kinds are there.
theorem exists_kind (k : Kind) : ∃ t : FloatTY, t.kind = k := by
  cases k
  case real      => exact ⟨.Tfloat64, rfl⟩
  case imaginary => exact ⟨.Timaginary64, rfl⟩
  case complex   => exact ⟨.Tcomplex64, rfl⟩

-- The operations on two operands are the ones on the numbers that they stand for.
structure Obeys (k l : Kind) (z w : Number K) (a b : Constant K) : Prop where
  add      : ∀ t : FloatTY, t.kind = k.sum l → Denotes (k.sum l) (z + w) (Add (.floating t) a b)
  min      : ∀ t : FloatTY, t.kind = k.sum l → Denotes (k.sum l) (z - w) (Min (.floating t) a b)
  mul      : ∀ t : FloatTY, t.kind = k.product l → Denotes (k.product l) (z * w) (Mul (.floating t) a b)
  div      : w ≠ 0 → ∀ t : FloatTY, t.kind = k.product l → ∃ q u, Div (.floating t) a b = some (.exp q) ∧
    Denotes (k.product l) u q ∧ u * w = z
  neg      : ∀ t : FloatTY, t.kind = k → Denotes k (-z) (Neg (.floating t) a)
  add_comm : ∀ t : FloatTY, t.kind = k.sum l → Add (.floating t) a b = Add (.floating t) b a
  mul_comm : ∀ t : FloatTY, t.kind = k.product l → Mul (.floating t) a b = Mul (.floating t) b a
  min_add  : ∀ t t' : FloatTY, t.kind = k.sum l → t'.kind = (k.sum l).sum l →
    Denotes ((k.sum l).sum l) z (Add (.floating t') (Min (.floating t) a b) b)

theorem sum_comm : k.sum l = l.sum k := by
  cases k <;> cases l <;> rfl

theorem product_comm : k.product l = l.product k := by
  cases k <;> cases l <;> rfl

-- The operands whose sum, or whose sum in the other order, loses an imaginary part.
def Loses (k l : Kind) (z w : Number K) : Prop :=
  (l = .real ∧ k ≠ .real ∧ z.im ≠ 0) ∨ (k = .real ∧ l = .complex ∧ w.im ≠ 0)

theorem obeys_of_not_loses (ha : Denotes k z a) (hb : Denotes l w b) (h : ¬ Loses k l z w) : Obeys k l z w a b := by
  have hleft : l = .real → k ≠ .real → z.im = 0 := fun hl hk => by_contra fun him => h (.inl ⟨hl, hk, him⟩)
  have hright : k = .real → l = .complex → w.im = 0 := fun hk hl => by_contra fun him => h (.inr ⟨hk, hl, him⟩)
  have hlost : k = .complex → l = .real → z.im = 0 := fun hk hl => hleft hl (by rw [hk]; decide)
  constructor
  case add => exact fun t ht => add_denotes ha hb ht hlost
  case min => exact fun t ht => min_denotes ha hb ht hlost
  case mul => exact fun t ht => mul_denotes ha hb ht
  case neg => exact fun t ht => neg_denotes ha ht
  case div =>
    intro hw t ht
    obtain ⟨u, hu, hmul⟩ := divFloating_denotes ha hb ht hw
    exact ⟨_, u, rfl, hu, hmul⟩
  case add_comm =>
    intro t ht
    have hab := add_denotes ha hb ht hlost
    have hba := add_denotes hb ha (ht.trans sum_comm) (fun hl hk => hright hk hl)
    rw [add_comm w z, sum_comm] at hba
    exact hab.eq_of_type hba ((type_add).trans (type_add).symm)
  case mul_comm =>
    intro t ht
    have hab := mul_denotes ha hb ht
    have hba := mul_denotes hb ha (ht.trans product_comm)
    rw [mul_comm w z, product_comm] at hba
    exact hab.eq_of_type hba ((type_mul).trans (type_mul).symm)
  case min_add =>
    intro t t' ht ht'
    have hmin := min_denotes ha hb ht hlost
    have him : k.sum l = .complex → l = .real → (z - w).im = 0 := by
      rintro hsum rfl
      have hk : k ≠ .real := by
        rintro rfl
        exact absurd hsum (by decide)
      rw [QuadraticAlgebra.im_sub, hleft rfl hk, hb.im_of_real, sub_zero]
    have hsum := add_denotes hmin hb ht' him
    rwa [sub_add_cancel] at hsum

omit [IsStrictOrderedRing K] in
theorem not_loses_of_obeys (ha : Denotes k z a) (hb : Denotes l w b) (h : Obeys k l z w a b) : ¬ Loses k l z w := by
  rintro (⟨rfl, hk, him⟩ | ⟨rfl, rfl, him⟩)
  case inl =>
    have hsum : k.sum .real = .complex := if_neg hk
    obtain ⟨t, ht⟩ := exists_kind .complex
    have hmin := h.min t (ht.trans hsum.symm)
    have hback := h.min_add t t (ht.trans hsum.symm) (by rw [hsum]; exact ht)
    rw [hsum] at hmin hback
    have hlost := add_complex_eq hmin hb ht
    rw [if_pos ⟨rfl, rfl⟩] at hlost
    exact him (congrArg QuadraticAlgebra.im (hback.unique hlost))
  case inr =>
    obtain ⟨t, ht⟩ := exists_kind .complex
    have hab := h.add t ht
    have hba := add_complex_eq hb ha ht
    rw [← h.add_comm t ht, if_pos ⟨rfl, rfl⟩] at hba
    have heq := congrArg QuadraticAlgebra.im (hab.unique hba)
    rw [QuadraticAlgebra.im_add, ha.im_of_real, zero_add] at heq
    exact him heq

end arithmetic

-- Folding obeys complex arithmetic unless a real operand is added to one that is not real.
theorem obeys_iff {K : Type*} [Field K] [LinearOrder K] [IsStrictOrderedRing K] [FloorRing K] {k l : Kind}
    {z w : Number K} {a b : Constant K} (ha : Denotes k z a) (hb : Denotes l w b) :
    Obeys k l z w a b ↔ ¬ Loses k l z w :=
  ⟨not_loses_of_obeys ha hb, obeys_of_not_loses ha hb⟩

-- The imaginary operand minus a real one, which is computed with complex constants from then on.
theorem obeys_iff_imaginary : ¬ Obeys .imaginary .real ⟨0, 2⟩ ⟨1, 0⟩
    (float64 (.floating .Timaginary64) 2 : Constant ℚ) (float64 (.floating .Tfloat64) 1) :=
  mt (obeys_iff (.imaginary (t := .Timaginary64) rfl) (.real (t := .Tfloat64) rfl)).mp
    (not_not_intro (.inl ⟨rfl, by decide, by decide⟩))

-- The sum of 1 + 2i and 3, whose imaginary part is the one of the second operand.
theorem add_loses_imaginary : ¬ Denotes .complex (⟨1, 2⟩ + ⟨3, 0⟩)
    (Add (.floating .Tcomplex64) (complex80 (.floating .Tcomplex64) ⟨1, 2⟩ : Constant ℚ)
      (float64 (.floating .Tfloat64) 3)) := by
  intro h
  have him : (2 : ℚ) + 0 = 0 := h.toImaginary.symm
  norm_num at him

end Fold

end Compiler.Constfold
