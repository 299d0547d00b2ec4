import DmdModel.Compiler.Constfold.Theorems.Cmp

-- The values of arrays, which do not depend on how the arrays are represented.

namespace Compiler.Constfold

open Expression StringExp

abbrev Value := BitVec 64

def TY.normalize (ty : TY) (v : Value) : Value :=
  Constfold.normalize (.basic .mutable ty) v

namespace Ty

-- Types of basic types
def IsBasic (type : Ty) (ty : TY) : Prop :=
  ∃ m, type.toBasetype = .basic m ty

def HasElements (type : Ty) (ty : TY) : Prop :=
  ∃ next, type.nextOf = some next ∧ next.IsBasic ty

-- The type has a length itself if it is the one of a static array.
structure Fits (type : Ty) (ty : TY) (length : Nat) : Prop where
  elements : type.HasElements ty
  dim      : ∀ m next dim, type.toBasetype = .sarray m next dim → dim.toNat = length

end Ty

variable {type type1 type2 : Ty} {ty ty1 ty2 : TY} {e e1 e2 r : Expression} {x v : Value} {xs ys : List Value}
  {basis basis1 basis2 el : Option Expression} {els els1 els2 : List (Option Expression)} {es es1 es2 : StringExp}
  {errors : Bool} {op : EXP} {i n : Nat} {c : Bool}

-- Constants of basic types
inductive Element (ty : TY) : Expression → Value → Prop
  | int64 {type : Ty} {v : Value} : type.IsBasic ty → Element ty (.int64 type v) (ty.normalize v)

-- An element of a literal, which is the basis where there is no other one.
def Slot (ty : TY) (basis : Option Expression) (el : Option Expression) (x : Value) : Prop :=
  ∃ e, el.or basis = some e ∧ Element ty e x

-- The values of the code units
def values (ty : TY) (us : List Nat) : List Value :=
  us.map fun u => ty.normalize (BitVec.ofNat 64 u)

-- Constant arrays of basic types, with the values of their elements.
inductive Denotes (ty : TY) : Expression → List Value → Prop
  | null {type : Ty} : type.HasElements ty ∨ (∃ m, type.toBasetype = .null m) → Denotes ty (.null type) []
  | string {type : Ty} {es : StringExp} : type.HasElements ty → es.sz = ty.size →
    Denotes ty (.string type es) (values ty es.units)
  | arrayLiteral {type : Ty} {basis : Option Expression} {els : List (Option Expression)} {xs : List Value} :
    type.Fits ty els.length → els.length < 2 ^ 64 → (∀ b ∈ basis, ∃ x, Element ty b x) →
    List.Forall₂ (Slot ty basis) els xs → Denotes ty (.arrayLiteral type basis els) xs

theorem normalize_eq (h : type.IsBasic ty) : normalize type v = ty.normalize v := by
  obtain ⟨m, hm⟩ := h
  rw [TY.normalize, normalize, normalize, hm]
  cases ty <;> rfl

theorem toInteger_of_element (h : Element ty e x) : e.toInteger = x := by
  obtain ⟨htype⟩ := h
  exact normalize_eq htype

theorem isConst_of_element (h : Element ty e x) : e.isConst = 1 := by
  obtain ⟨htype⟩ := h
  rfl

theorem isIntegral_of_isBasic (h : type.IsBasic ty) : type.isIntegral := by
  obtain ⟨m, hm⟩ := h
  rw [Ty.isIntegral, hm]

theorem length_values {us : List Nat} : (values ty us).length = us.length :=
  List.length_map _

section comparison

-- Each code unit of a string is the value of the element, as it is for characters and unsigned integers.
def Plain (ty : TY) : Expression → Prop
  | .string _ es => ∀ u ∈ es.units, ty.normalize (BitVec.ofNat 64 u) = BitVec.ofNat 64 u
  | _            => True

theorem values_of_plain (h : Plain ty (.string type es)) : values ty es.units = es.units.map (BitVec.ofNat 64) :=
  List.map_congr_left h

theorem units_lt {u : Nat} (hu : u ∈ es.units) : u < 2 ^ 64 := by
  obtain ⟨i, -, rfl⟩ := List.mem_map.mp hu
  have hlt : es.getIndex i < 256 ^ es.sz := ByteMemory.read_lt
  have hsz := es.sz_mem
  simp only [List.mem_cons, List.not_mem_nil, or_false] at hsz
  have hle : (256 : Nat) ^ es.sz ≤ 256 ^ 8 := Nat.pow_le_pow_right (by decide) (by omega)
  exact lt_of_lt_of_le hlt hle

theorem map_ofNat_inj : es1.units.map (BitVec.ofNat 64) = es2.units.map (BitVec.ofNat 64) ↔ es1.units = es2.units := by
  refine ⟨fun h => ?_, fun h => by rw [h]⟩
  have hmap (es : StringExp) : (es.units.map (BitVec.ofNat 64)).map BitVec.toNat = es.units := by
    rw [List.map_map]
    refine (List.map_congr_left fun u hu => ?_).trans (List.map_id _)
    exact Nat.mod_eq_of_lt (units_lt hu)
  rw [← hmap es1, h, hmap es2]

-- Elements are equal if their values are.
theorem equalValues_element (h1 : Element ty1 e1 x) (h2 : Element ty2 e2 v) :
    equalValues errors e1 e2 = some (some (decide (x = v))) := by
  have hx := toInteger_of_element h1
  have hv := toInteger_of_element h2
  obtain ⟨htype1⟩ := h1
  obtain ⟨htype2⟩ := h2
  rw [equalValues, isIntegral_of_isBasic htype1, Bool.true_or, if_pos rfl, hx, hv]

theorem equalElements_eq (h1 : List.Forall₂ (Slot ty1 basis1) els1 xs) (h2 : List.Forall₂ (Slot ty2 basis2) els2 ys)
    (hlen : els1.length = els2.length) :
    equalElements errors els1 (equalBasis errors basis1) basis2 els2 = some (some (decide (xs = ys))) := by
  induction h1 generalizing els2 ys
  case nil =>
    rw [List.length_nil, eq_comm, List.length_eq_zero_iff] at hlen
    subst hlen
    cases h2
    rw [equalElements]
    · rfl
    · intros
      contradiction
  case cons el1 x els1 xs hslot1 hrest1 ih =>
    cases h2
    case nil => cases hlen
    case cons el2 y els2 ys hslot2 hrest2 =>
      obtain ⟨ee1, hor1, helem1⟩ := hslot1
      obtain ⟨ee2, hor2, helem2⟩ := hslot2
      have hbasis : el1 = none → equalBasis errors basis1 ee2 = some (some (decide (x = y))) := by
        rintro rfl
        rw [Option.none_or] at hor1
        rw [hor1, equalBasis]
        exact equalValues_element helem1 helem2
      have hvalue (ee : Expression) : el1 = some ee → equalValues errors ee ee2 = some (some (decide (x = y))) := by
        rintro rfl
        rw [Option.some_or, Option.some.injEq] at hor1
        rw [hor1]
        exact equalValues_element helem1 helem2
      have htail := ih hrest2 (Nat.succ.inj hlen)
      by_cases hxy : x = y
      case pos =>
        cases el1
        case none    => simp [equalElements, hor2, hbasis rfl, hxy, htail]
        case some ee => simp [equalElements, hor2, hvalue ee rfl, hxy, htail]
      case neg =>
        cases el1
        case none    => simp [equalElements, hor2, hbasis rfl, hxy]
        case some ee => simp [equalElements, hor2, hvalue ee rfl, hxy]

theorem equalUnits_eq (h : List.Forall₂ (Slot ty basis2) els2 ys) (hlen : i + els2.length = es1.length) :
    equalUnits es1 basis2 i els2 = some (some (decide ((es1.units.drop i).map (BitVec.ofNat 64) = ys))) := by
  induction h generalizing i
  case nil =>
    rw [List.length_nil, Nat.add_zero] at hlen
    rw [hlen, ← length_units, List.drop_length]
    rfl
  case cons el2 y els2 ys hslot hrest ih =>
    obtain ⟨ee2, hor, helem⟩ := hslot
    have hi : i < es1.units.length := by
      rw [length_units, ← hlen, List.length_cons]
      omega
    have hunit : es1.units[i] = es1.getIndex i := by
      have h' : es1.units[i]? = some (es1.getIndex i) := getElem?_units (by rwa [length_units] at hi)
      rw [List.getElem?_eq_getElem hi] at h'
      exact Option.some.inj h'
    rw [equalUnits, hor, Option.bind_eq_bind, Option.bind_some, isConst_of_element helem, if_neg (not_not.mpr rfl),
      toInteger_of_element helem, List.drop_eq_getElem_cons hi, List.map_cons, hunit]
    split_ifs with hy
    case pos =>
      rw [ih (by rw [List.length_cons] at hlen; omega)]
      simp [hy]
    case neg => simp [hy]

theorem equalStringArray_eq (h : List.Forall₂ (Slot ty basis2) els2 ys) :
    equalStringArray es1 basis2 els2 = some (some (decide (es1.units.map (BitVec.ofNat 64) = ys))) := by
  rw [equalStringArray]
  split_ifs with hlen
  case pos =>
    have hne : es1.units.map (BitVec.ofNat 64) ≠ ys := by
      intro heq
      have hlength := congrArg List.length heq
      rw [List.length_map, length_units, ← h.length_eq] at hlength
      exact hlen hlength
    rw [decide_eq_false hne]
  case neg => rw [equalUnits_eq h (by rw [not_not] at hlen; rw [hlen, Nat.zero_add]), List.drop_zero]

-- The comparison of two strings in memory
theorem equalStrings_eq (hsz : es1.sz = es2.sz) :
    decide (es1.length = es2.length ∧ ByteCompare.memcmp es1.peekData es2.peekData (es1.sz * es1.length) = 0) =
      decide (es1.units = es2.units) := by
  have hd1 := es1.length_data
  have hd2 := es2.length_data
  rw [decide_eq_decide, units_inj hsz]
  constructor
  case mp =>
    rintro ⟨hlen, hcmp⟩
    have hl1 : es1.peekData.length = es1.sz * es1.length := hd1.trans (Nat.mul_comm _ _)
    have hl2 : es2.peekData.length = es1.sz * es1.length := by
      rw [hlen, hsz]
      exact hd2.trans (Nat.mul_comm _ _)
    exact (ByteCompare.memcmp_eq_zero_iff hl1 hl2).mp hcmp
  case mpr =>
    intro h
    have hlen : es1.length = es2.length := by
      rw [h, hd2, ← hsz] at hd1
      exact (Nat.mul_right_cancel es1.sz_pos hd1).symm
    exact ⟨hlen, by rw [peekData, peekData, h]; exact ByteCompare.memcmp_self⟩

-- If the comparison is folded, it is the one of the values.
theorem equalValues_denotes (h1 : Denotes ty1 e1 xs) (h2 : Denotes ty2 e2 ys) (hp1 : Plain ty1 e1) (hp2 : Plain ty2 e2)
    (h : equalValues errors e1 e2 = some (some c)) : c = decide (xs = ys) := by
  have hempty {us : List Value} {n : Nat} (hn : us.length = n) : decide (0 = n) = decide (us = []) := by
    rw [← hn, decide_eq_decide, eq_comm, List.length_eq_zero_iff]
  have hempty' {us : List Value} {n : Nat} (hn : us.length = n) : decide (0 = n) = decide ([] = us) := by
    rw [hempty hn, decide_eq_decide, eq_comm]
  cases h1
  case null =>
    cases h2
    case null =>
      rw [equalValues, Option.some.injEq, Option.some.injEq] at h
      exact h.symm
    case string =>
      rw [equalValues, Option.some.injEq, Option.some.injEq] at h
      rw [← h, hempty' ((length_values).trans length_units)]
    case arrayLiteral hslots =>
      rw [equalValues, Option.some.injEq, Option.some.injEq] at h
      rw [← h, hempty' hslots.length_eq.symm]
  case string type1 es1 _ hsz1 =>
    cases h2
    case null =>
      rw [equalValues, Option.some.injEq, Option.some.injEq] at h
      rw [← h, hempty ((length_values).trans length_units)]
    case string es2 _ hsz2 =>
      rw [equalValues] at h
      split_ifs at h with hsz
      case pos => cases h
      case neg =>
        rw [Option.some.injEq, Option.some.injEq, equalStrings_eq (not_not.mp hsz)] at h
        rw [← h, values_of_plain hp1, values_of_plain hp2, decide_eq_decide, map_ofNat_inj]
    case arrayLiteral hslots =>
      rw [equalValues, equalStringArray_eq hslots, Option.some.injEq, Option.some.injEq] at h
      rw [← h, values_of_plain hp1]
  case arrayLiteral hslots1 =>
    cases h2
    case null =>
      rw [equalValues, Option.some.injEq, Option.some.injEq] at h
      rw [← h, hempty hslots1.length_eq.symm]
    case string =>
      rw [equalValues, equalStringArray_eq hslots1, Option.some.injEq, Option.some.injEq] at h
      rw [← h, values_of_plain hp2, decide_eq_decide, eq_comm]
    case arrayLiteral hslots2 =>
      rw [equalValues] at h
      split_ifs at h with hlen
      case pos =>
        rw [equalElements_eq hslots1 hslots2 hlen, Option.some.injEq, Option.some.injEq] at h
        exact h.symm
      case neg =>
        rw [Option.some.injEq, Option.some.injEq] at h
        rw [← h, eq_comm, decide_eq_false_iff_not]
        intro heq
        rw [hslots1.length_eq, hslots2.length_eq, heq] at hlen
        exact hlen rfl

theorem Equal_denotes (h1 : Denotes ty1 e1 xs) (h2 : Denotes ty2 e2 ys) (hp1 : Plain ty1 e1) (hp2 : Plain ty2 e2)
    (htype : type.isIntegral) (hr : Equal errors op type e1 e2 = some r) (hfold : r ≠ cantExpression) :
    r.toInteger = boolValue (if op = .notEqual then xs ≠ ys else xs = ys) := by
  rw [Equal] at hr
  by_cases hop : op = .equal ∨ op = .notEqual
  case neg => rw [if_neg hop] at hr; cases hr
  rw [if_pos hop, Option.bind_eq_bind, Option.bind_eq_some_iff] at hr
  obtain ⟨cmp, hcmp, hr⟩ := hr
  cases cmp
  case none => exact absurd (Option.some.inj hr).symm hfold
  case some c =>
    have hr' : IntegerExp (boolValue (if op = .notEqual then !c else c)) type = r := Option.some.inj hr
    rw [← hr', toInteger_boolValue htype, equalValues_denotes h1 h2 hp1 hp2 hcmp]
    split_ifs <;> simp

end comparison

theorem normalize_normalize : ty.normalize (ty.normalize v) = ty.normalize v := by
  have hsigned (k : Nat) (hk : k ≤ 64) : (((v.setWidth k).signExtend 64).setWidth k).signExtend 64 =
      (v.setWidth k).signExtend 64 := by
    congr 1
    refine BitVec.eq_of_getLsbD_eq fun i hi => ?_
    rw [BitVec.getLsbD_setWidth, BitVec.getLsbD_signExtend]
    simp [hi, show i < 64 by omega]
  have hunsigned (k : Nat) (hk : k ≤ 64) : (((v.setWidth k).setWidth 64).setWidth k).setWidth 64 =
      (v.setWidth k).setWidth 64 := by
    rw [BitVec.setWidth_setWidth_of_le _ hk, BitVec.setWidth_eq]
  cases ty
  case Tbool =>
    show (if (if v ≠ 0 then (1 : Value) else 0) ≠ 0 then (1 : Value) else 0) = if v ≠ 0 then 1 else 0
    split_ifs <;> simp_all
  case Tint8  => exact hsigned 8 (by decide)
  case Tint16 => exact hsigned 16 (by decide)
  case Tint32 => exact hsigned 32 (by decide)
  case Tchar  => exact hunsigned 8 (by decide)
  case Tuns8  => exact hunsigned 8 (by decide)
  case Twchar => exact hunsigned 16 (by decide)
  case Tuns16 => exact hunsigned 16 (by decide)
  case Tdchar => exact hunsigned 32 (by decide)
  case Tuns32 => exact hunsigned 32 (by decide)
  case Tint64 => rfl
  case Tuns64 => rfl

theorem element_IntegerExp (h : type.IsBasic ty) : Element ty (IntegerExp v type) (ty.normalize v) := by
  have helem : Element ty (int64 type (ty.normalize v)) (ty.normalize (ty.normalize v)) := .int64 h
  rw [normalize_normalize] at helem
  rwa [IntegerExp, normalize_eq h]

theorem element_setType (h : type.IsBasic ty) (he : Element ty e x) : Element ty (e.setType type) x := by
  obtain ⟨_⟩ := he
  exact .int64 h

theorem hasSideEffect_of_element (h : Element ty e x) : hasSideEffect e = false := by
  obtain ⟨_⟩ := h
  rfl

section bounds

-- The number that an operand is
def indexValue : Expression → Option Nat
  | .int64 type value => some (normalize type value).toNat
  | _                 => none

def NoPointer : Expression → Prop
  | .arrayLiteral type _ _ => type.toBasetype.isPointer = false
  | _                      => True

def Declined (r : Expression) : Prop :=
  r = error ∨ r = cantExpression

-- The element with the index, if the operand is constant and in bounds.
def IsIndexed (ty : TY) (xs : List Value) (e2 r : Expression) : Prop :=
  match (indexValue e2).bind (xs[·]?) with
  | some x => Element ty r x
  | none   => Declined r

theorem nextOf_castMod {m : Mod} : (type.castMod m).nextOf = type.nextOf := by
  cases type <;> rfl

theorem nextOf_toBasetype : type.toBasetype.nextOf = type.nextOf := by
  induction type
  case enum m sym t ih => rw [Ty.toBasetype, nextOf_castMod, ih, Ty.nextOf]
  all_goals rfl

theorem toBasetype_ne_enum {m : Mod} {sym : Nat} {t : Ty} : type.toBasetype ≠ .enum m sym t := by
  induction type generalizing m sym t
  case enum m' sym' t' ih =>
    rw [Ty.toBasetype]
    intro h
    cases hbase : t'.toBasetype
    case enum => exact ih hbase
    all_goals
      rw [hbase] at h
      cases h
  all_goals
    intro h
    cases h

theorem getElem?_values (h : i < es.length) :
    (values ty es.units)[i]? = some (ty.normalize (BitVec.ofNat 64 (es.getIndex i))) := by
  rw [values, List.getElem?_map, getElem?_units h, Option.map_some]

theorem opIndex_eq (h : List.Forall₂ (Slot ty basis) els xs) (hi : i < els.length) :
    ∃ e x, opIndex basis els i = some (some e) ∧ xs[i]? = some x ∧ Element ty e x := by
  have hx : i < xs.length := h.length_eq ▸ hi
  have ⟨e, hor, helem⟩ := h.get hi hx
  refine ⟨e, xs[i], ?_, List.getElem?_eq_getElem hx, helem⟩
  rw [opIndex, List.getElem?_eq_getElem hi, Option.map_some]
  exact congrArg some hor

theorem indexed_of_element (htype : type.IsBasic ty) (h : Element ty e x) : Element ty (indexed type e) x := by
  rw [indexed, hasSideEffect_of_element h, if_neg Bool.false_ne_true]
  exact element_setType htype h

theorem isIndexed_of_ge {type2 : Ty} (h : (normalize type2 v).toNat ≥ xs.length) (hr : Declined r) :
    IsIndexed ty xs (int64 type2 v) r := by
  rw [IsIndexed, indexValue, Option.bind_some, List.getElem?_eq_none h]
  exact hr

theorem isIndexed_of_element {type2 : Ty} (h : xs[(normalize type2 v).toNat]? = some x) (hr : Element ty r x) :
    IsIndexed ty xs (int64 type2 v) r := by
  rw [IsIndexed, indexValue, Option.bind_some, h]
  exact hr

theorem isIndexed_of_not_const (h : indexValue e2 = none) (hr : Declined r) : IsIndexed ty xs e2 r := by
  rw [IsIndexed, h]
  exact hr

-- The index is in bounds if and only if an element is the result.
theorem Index_denotes {indexIsInBounds : Bool} (h1 : Denotes ty e1 xs) (hp : NoPointer e1) (htype : type.IsBasic ty) :
    ∃ r, Index type e1 e2 indexIsInBounds = some r ∧ IsIndexed ty xs e2 r := by
  cases e2
  case int64 type2 v2 =>
    cases h1
    case null type1 _ =>
      rw [Index]
      dsimp only [Expression.type, Option.bind_eq_bind, Option.bind_some]
      split
      case h_1 =>
        split_ifs
        case pos => exact ⟨error, rfl, isIndexed_of_ge (Nat.zero_le _) (Or.inl rfl)⟩
        case neg => exact ⟨cantExpression, rfl, isIndexed_of_ge (Nat.zero_le _) (Or.inr rfl)⟩
      case h_2 => exact ⟨cantExpression, rfl, isIndexed_of_ge (Nat.zero_le _) (Or.inr rfl)⟩
    case string type1 es _ _ =>
      rw [Index]
      dsimp only [Expression.type, Option.bind_eq_bind, Option.bind_some, toInteger]
      split_ifs with hi
      case pos =>
        exact ⟨error, rfl, isIndexed_of_ge (by rwa [length_values, length_units]) (Or.inl rfl)⟩
      case neg =>
        exact ⟨_, rfl, isIndexed_of_element (getElem?_values (not_le.mp hi)) (element_IntegerExp htype)⟩
    case arrayLiteral type1 basis els hfits hlen hbasis hslots =>
      have hresult (hi : ¬ (normalize type2 v2).toNat ≥ els.length) : ∃ r, (do
          let el ← opIndex basis els (normalize type2 v2).toNat
          let e ← el
          return indexed type e) = some r ∧ IsIndexed ty xs (int64 type2 v2) r := by
        have ⟨e, x, hop, hx, helem⟩ := opIndex_eq hslots (not_le.mp hi)
        refine ⟨indexed type e, ?_, isIndexed_of_element hx (indexed_of_element htype helem)⟩
        rw [hop]
        rfl
      have herror (hi : (normalize type2 v2).toNat ≥ els.length) : IsIndexed ty xs (int64 type2 v2) error :=
        isIndexed_of_ge (hslots.length_eq ▸ hi) (Or.inl rfl)
      rw [Index]
      dsimp only [Expression.type, Option.bind_eq_bind, Option.bind_some, toInteger]
      cases hbase : type1.toBasetype
      case sarray m next dim =>
        dsimp only
        rw [hfits.dim m next dim hbase]
        split_ifs with hi
        case pos => exact ⟨error, rfl, herror hi⟩
        case neg => exact hresult hi
      case array m next =>
        dsimp only
        split_ifs with hi
        case pos => exact ⟨error, rfl, herror hi⟩
        case neg => exact hresult hi
      case pointer =>
        rw [NoPointer, hbase] at hp
        cases hp
      case enum => exact absurd hbase toBasetype_ne_enum
      all_goals
        have ⟨next, hnext, _⟩ := hfits.elements
        rw [← nextOf_toBasetype, hbase] at hnext
        cases hnext
  all_goals
    refine ⟨cantExpression, ?_, isIndexed_of_not_const rfl (Or.inr rfl)⟩
    cases h1 <;> rfl

-- The elements between the bounds, if they are in order and the operands are constant.
def IsSliced (ty : TY) (type : Ty) (xs : List Value) (lwr upr r : Expression) : Prop :=
  match indexValue lwr, indexValue upr with
  | some ilwr, some iupr =>
    if ilwr ≤ iupr ∧ iupr ≤ xs.length then
      type.Fits ty (iupr - ilwr) → Denotes ty r ((xs.drop ilwr).take (iupr - ilwr))
    else
      r = cantExpression
  | _, _ => r = cantExpression

theorem sliceBoundsCheck_iff {ilwr iupr : Value} (hn : n < 2 ^ 64) :
    sliceBoundsCheck 0 (BitVec.ofNat 64 n) ilwr iupr = false ↔ ilwr.toNat ≤ iupr.toNat ∧ iupr.toNat ≤ n := by
  have hzero : decide ((0 : Value) ≤ ilwr) = true := decide_eq_true (BitVec.le_def.mpr (Nat.zero_le _))
  rw [sliceBoundsCheck, hzero, Bool.and_true, Bool.not_eq_false', Bool.and_eq_true, decide_eq_true_iff,
    decide_eq_true_iff, BitVec.le_def, BitVec.le_def, BitVec.toNat_ofNat, Nat.mod_eq_of_lt hn]

theorem values_slice {a : Nat} {us : List Nat} : values ty ((us.drop a).take n) = ((values ty us).drop a).take n := by
  rw [values, values, List.map_take, List.map_drop]

theorem hasSideEffect_literal (hbasis : ∀ b ∈ basis, ∃ x, Element ty b x) (h : List.Forall₂ (Slot ty basis) els xs) :
    hasSideEffect (arrayLiteral type basis els) = false := by
  have hbasis' : optSideEffect basis = false := by
    cases basis
    case none   => rfl
    case some b =>
      have ⟨_, helem⟩ := hbasis b rfl
      exact hasSideEffect_of_element helem
  have hels : anySideEffect els = false := by
    induction h
    case nil => rfl
    case cons el x els xs hslot _ ih =>
      rw [anySideEffect, ih, Bool.or_false]
      cases el
      case none   => rfl
      case some e =>
        obtain ⟨e', hor, helem⟩ := hslot
        rw [Option.some_or, Option.some.injEq] at hor
        exact hor ▸ hasSideEffect_of_element helem
  rw [hasSideEffect, hbasis', hels]
  rfl

theorem isSliced_of_bounds {type2 type3 : Ty} {v2 v3 : Value}
    (hb : (normalize type2 v2).toNat ≤ (normalize type3 v3).toNat ∧ (normalize type3 v3).toNat ≤ xs.length)
    (h : type.Fits ty ((normalize type3 v3).toNat - (normalize type2 v2).toNat) →
      Denotes ty r ((xs.drop (normalize type2 v2).toNat).take
        ((normalize type3 v3).toNat - (normalize type2 v2).toNat))) :
    IsSliced ty type xs (int64 type2 v2) (int64 type3 v3) r := by
  simp only [IsSliced, indexValue]
  rwa [if_pos hb]

theorem isSliced_of_not_bounds {type2 type3 : Ty} {v2 v3 : Value}
    (hb : ¬ ((normalize type2 v2).toNat ≤ (normalize type3 v3).toNat ∧ (normalize type3 v3).toNat ≤ xs.length)) :
    IsSliced ty type xs (int64 type2 v2) (int64 type3 v3) cantExpression := by
  simp only [IsSliced, indexValue]
  rw [if_neg hb]
  trivial

-- A string or a literal between two bounds.
theorem Slice_denotes {lwr upr : Expression} (h1 : Denotes ty e1 xs) (hnull : ∀ type1, e1 ≠ null type1) :
    ∃ r, Slice type e1 (some lwr) (some upr) = some r ∧ IsSliced ty type xs lwr upr r := by
  by_cases hconst : (∃ type2 v2, lwr = int64 type2 v2) ∧ ∃ type3 v3, upr = int64 type3 v3
  case neg =>
    have hdecline : Slice type e1 (some lwr) (some upr) = some cantExpression := by
      cases h1
      case null => exact absurd rfl (hnull _)
      all_goals
        cases lwr
        case int64 =>
          cases upr
          case int64 => exact absurd ⟨⟨_, _, rfl⟩, _, _, rfl⟩ hconst
          all_goals rfl
        all_goals rfl
    refine ⟨cantExpression, hdecline, ?_⟩
    rw [IsSliced.eq_def]
    cases lwr
    case int64 =>
      cases upr
      case int64 => exact absurd ⟨⟨_, _, rfl⟩, _, _, rfl⟩ hconst
      all_goals rfl
    all_goals rfl
  case pos =>
    obtain ⟨⟨type2, v2, rfl⟩, type3, v3, rfl⟩ := hconst
    have hsub (hle : (normalize type2 v2).toNat ≤ (normalize type3 v3).toNat) :
        (normalize type3 v3 - normalize type2 v2).toNat = (normalize type3 v3).toNat - (normalize type2 v2).toNat :=
      BitVec.toNat_sub_of_le (BitVec.le_def.mpr hle)
    cases h1
    case null => exact absurd rfl (hnull _)
    case string type1 es helements hsz =>
      have hlength : (values ty es.units).length = es.length := (length_values).trans length_units
      dsimp only [Slice, Option.bind_eq_bind, Option.bind_some, toInteger]
      cases hcheck : sliceBoundsCheck 0 (BitVec.ofNat 64 es.length) (normalize type2 v2) (normalize type3 v3)
      case true =>
        refine ⟨cantExpression, rfl, isSliced_of_not_bounds fun hb => ?_⟩
        rw [hlength] at hb
        rw [(sliceBoundsCheck_iff es.length_lt).mpr hb] at hcheck
        cases hcheck
      case false =>
        have hb := (sliceBoundsCheck_iff es.length_lt).mp hcheck
        rw [if_neg Bool.false_ne_true, hsub hb.1]
        have hdata := es.length_data
        have hlen : ((es.peekData.drop ((normalize type2 v2).toNat * es.sz)).take
            (((normalize type3 v3).toNat - (normalize type2 v2).toNat) * es.sz)).length =
              ((normalize type3 v3).toNat - (normalize type2 v2).toNat) * es.sz := by
          have hle : (normalize type3 v3).toNat * es.sz ≤ es.length * es.sz := Nat.mul_le_mul_right _ hb.2
          rw [List.length_take, List.length_drop, peekData.eq_def, hdata, Nat.sub_mul]
          omega
        have hlt := es.length_lt
        have ⟨es', hes'⟩ := exists_create es.committed hlen (by omega) es.sz_mem
        refine ⟨string type es', by rw [hes']; rfl, isSliced_of_bounds (by rwa [hlength]) fun hfits => ?_⟩
        have hunits := units_create hes'
        rw [peekData.eq_def, unitsOf_slice hdata (by omega), ← units_eq] at hunits
        rw [← values_slice, ← hunits]
        exact .string hfits.elements ((create_eq_some hes').2.2.1.trans hsz)
    case arrayLiteral type1 basis els hfits hlen hbasis hslots =>
      dsimp only [Slice, Option.bind_eq_bind, Option.bind_some, toInteger]
      rw [hasSideEffect_literal hbasis hslots, if_neg Bool.false_ne_true]
      cases hcheck : sliceBoundsCheck 0 (BitVec.ofNat 64 els.length) (normalize type2 v2) (normalize type3 v3)
      case true =>
        refine ⟨cantExpression, rfl, isSliced_of_not_bounds fun hb => ?_⟩
        rw [← hslots.length_eq] at hb
        rw [(sliceBoundsCheck_iff hlen).mpr hb] at hcheck
        cases hcheck
      case false =>
        have hb := (sliceBoundsCheck_iff hlen).mp hcheck
        rw [if_neg Bool.false_ne_true, hsub hb.1]
        refine ⟨_, rfl, isSliced_of_bounds (hslots.length_eq ▸ hb) fun hfits' => ?_⟩
        have hlength : ((els.drop (normalize type2 v2).toNat).take
            ((normalize type3 v3).toNat - (normalize type2 v2).toNat)).length =
              (normalize type3 v3).toNat - (normalize type2 v2).toNat := by
          rw [List.length_take, List.length_drop]
          omega
        refine .arrayLiteral (by rwa [hlength]) (by rw [hlength]; omega) hbasis ?_
        exact List.forall₂_take _ (List.forall₂_drop _ hslots)

end bounds

end Compiler.Constfold
