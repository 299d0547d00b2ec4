import DmdModel.Compiler.Constfold.Theorems.Arrays
import DmdModel.Compiler.Root.Theorems.Utf

-- The concatenation of arrays, and of arrays with elements.

namespace Compiler.Constfold

open Expression StringExp Compiler.Root.Utf

variable {type type1 type2 next : Ty} {ty ty' : TY} {e e1 e2 r : Expression} {x v : Value} {xs ys zs : List Value}
  {basis el : Option Expression} {els elems : List (Option Expression)} {es es1 es2 : StringExp} {errors : Bool}
  {us : List Nat} {i : Nat} {data : List UInt8} {c : Runtime.Utf.DChar} {castTo : Ty → StringExp → Ty → Expression}

-- What is concatenated with an array: an element, or a character of another width, which is encoded.
inductive Appended (ty : TY) : Expression → List Value → Prop
  | element {e : Expression} {x : Value} : Element ty e x → Appended ty e [x]
  | character {type : Ty} {ty' : TY} {v : Value} {us : List Nat} : type.IsBasic ty' → ty'.isSomeChar → ty.isSomeChar →
    ty'.size ≠ ty.size → Encodes ty.size ((ty'.normalize v).setWidth 32) us →
    Appended ty (.int64 type v) (us.map (BitVec.ofNat 64))

-- The operands of a concatenation. A character that is in front of a string has the type of its characters.
inductive Operands (ty : TY) : Expression → Expression → List Value → Prop
  | arrays {e1 e2 : Expression} {xs ys : List Value} : Denotes ty e1 xs → Denotes ty e2 ys →
    Operands ty e1 e2 (xs ++ ys)
  | append {e1 e2 : Expression} {xs ys : List Value} : Denotes ty e1 xs → Appended ty e2 ys →
    Operands ty e1 e2 (xs ++ ys)
  | prepend {e1 e2 : Expression} {xs ys : List Value} : Appended ty e1 xs → Denotes ty e2 ys →
    (∀ type es, e2 = .string type es → ∃ x, Element ty e1 x) → Operands ty e1 e2 (xs ++ ys)

-- A string that is cast to an array of its own elements keeps its code units.
def Keeps (castTo : Ty → StringExp → Ty → Expression) : Prop :=
  ∀ type1 es type ty, type1.HasElements ty → es.sz = ty.size → type.Fits ty es.length →
    (type.toBasetype.isArray ∨ type.toBasetype.isSarray) →
    ∃ es', castTo type1 es type = .string type es' ∧ es'.units = es.units ∧ es'.sz = es.sz

section types

theorem toBasetype_toBasetype : type.toBasetype.toBasetype = type.toBasetype := by
  cases h : type.toBasetype
  case enum => exact absurd h toBasetype_ne_enum
  all_goals rfl

theorem isBasic_unique (h : type.IsBasic ty) (h' : type.IsBasic ty') : ty = ty' := by
  obtain ⟨m, hm⟩ := h
  obtain ⟨m', hm'⟩ := h'
  rw [hm, Ty.basic.injEq] at hm'
  exact hm'.2

-- No type of an array is one of an element.
theorem not_isBasic (h : type.HasElements ty ∨ ∃ m, type.toBasetype = .null m) : ¬ type.IsBasic ty' := by
  rintro ⟨m, hm⟩
  rcases h with ⟨next, hnext, _⟩ | ⟨m', hm'⟩
  case inl =>
    rw [← nextOf_toBasetype, hm] at hnext
    cases hnext
  case inr =>
    rw [hm] at hm'
    cases hm'

theorem not_isBasic_of_denotes (h : Denotes ty e xs) (he : e.type = some type) : ¬ type.IsBasic ty' := by
  cases h <;> rw [Expression.type, Option.some.injEq] at he <;> subst he
  case null h            => exact not_isBasic h
  case string h _        => exact not_isBasic (Or.inl h)
  case arrayLiteral h _ _ _ => exact not_isBasic (Or.inl h.elements)

theorem not_isBasic_of_equivalent (h1 : type1.HasElements ty) (h : type.IsBasic ty')
    (heq : type.immutableOf = type1.immutableOf) : False := by
  have hsome (type : Ty) : type.immutableOf.nextOf.isSome = type.nextOf.isSome := by cases type <;> rfl
  have ⟨next, hnext, _⟩ := h1
  have ⟨m, hm⟩ := h
  have hnone : type.nextOf = none := by rw [← nextOf_toBasetype, hm]; rfl
  have h' := hsome type
  rw [heq, hsome, hnext, hnone] at h'
  cases h'

theorem nextOf_of_hasElements (h : type.HasElements ty) : ∃ next, type.toBasetype.nextOf = some next ∧ next.IsBasic ty := by
  rw [nextOf_toBasetype]
  exact h

end types

section elements

theorem slot_some (h : Element ty e x) : Slot ty basis (some e) x :=
  ⟨e, Option.some_or, h⟩

theorem slots_copyElements (h : List.Forall₂ (Slot ty basis) els xs) :
    List.Forall₂ (Slot ty none) (els.map fun el => el.or basis) xs := by
  rw [List.forall₂_map_left_iff]
  refine h.imp fun el x hslot => ?_
  obtain ⟨e, hor, helem⟩ := hslot
  exact ⟨e, by rw [hor, Option.some_or], helem⟩

theorem denotes_catElements (h : List.Forall₂ (Slot ty none) elems zs) (hlen : zs.length < 2 ^ 64)
    (htype : type.Fits ty zs.length) (hnext : next.IsBasic ty) : Denotes ty (catElements type next elems) zs := by
  have hlength := h.length_eq
  rw [catElements]
  refine .arrayLiteral ?_ (hlength ▸ hlen) (fun b hb => by cases hb) h
  split_ifs
  case pos =>
    refine ⟨⟨next, rfl, hnext⟩, fun m next' dim hdim => ?_⟩
    have hdim' : BitVec.ofNat 64 elems.length = dim := by
      have hdim' : Ty.sarray next.mod next (BitVec.ofNat 64 elems.length) = .sarray m next' dim := hdim
      rw [Ty.sarray.injEq] at hdim'
      exact hdim'.2.2
    rw [← hdim', BitVec.toNat_ofNat]
    exact Nat.mod_eq_of_lt (hlength ▸ hlen)
  case neg => rwa [hlength]

theorem slots_assigned {assigned : List (Option Expression)} (htype : type.HasElements ty)
    (h : sliceAssignArrayLiteralFromString type es = some assigned) :
    List.Forall₂ (Slot ty none) assigned (values ty es.units) := by
  have ⟨next, hnext, hbasic⟩ := htype
  rw [sliceAssignArrayLiteralFromString] at h
  simp only [hnext, Option.bind_eq_bind, Option.bind_some] at h
  have hpure : ((List.range es.length).mapM fun j =>
      (pure (some (IntegerExp (BitVec.ofNat 64 (es.getIndex j)) next)) : Option (Option Expression))) =
        some ((List.range es.length).map fun j => some (IntegerExp (BitVec.ofNat 64 (es.getIndex j)) next)) :=
    List.mapM_pure
  rw [hpure, Option.some.injEq] at h
  rw [← h, values, units, List.map_map, List.forall₂_map_left_iff, List.forall₂_map_right_iff, List.forall₂_same]
  exact fun j _ => slot_some (element_IntegerExp hbasic)

end elements

section strings

theorem values_append {us vs : List Nat} : values ty (us ++ vs) = values ty us ++ values ty vs :=
  List.map_append

theorem size_mem : ty.size ∈ [1, 2, 4, 8] := by
  cases ty <;> decide

theorem normalize_mod (hty : ty ≠ .Tbool) : ty.normalize (BitVec.ofNat 64 (v.toNat % 256 ^ ty.size)) = ty.normalize v := by
  have hlow (k : Nat) (hk : k ≤ 64) : (BitVec.ofNat 64 (v.toNat % 2 ^ k)).setWidth k = v.setWidth k := by
    have hpow : 2 ^ k ≤ 2 ^ 64 := Nat.pow_le_pow_right Nat.two_pos hk
    have hlt : v.toNat % 2 ^ k < 2 ^ k := Nat.mod_lt _ (Nat.two_pow_pos k)
    rw [← BitVec.toNat_inj, BitVec.toNat_setWidth, BitVec.toNat_setWidth, BitVec.toNat_ofNat,
      Nat.mod_eq_of_lt (lt_of_lt_of_le hlt hpow), Nat.mod_mod]
  have h64 : BitVec.ofNat 64 (v.toNat % 2 ^ 64) = v := by
    rw [← BitVec.toNat_inj, BitVec.toNat_ofNat, Nat.mod_mod]
    exact Nat.mod_eq_of_lt v.isLt
  have hpow (k : Nat) : 256 ^ k = 2 ^ (8 * k) := by rw [Nat.pow_mul]
  rw [hpow]
  cases ty
  case Tbool  => exact absurd rfl hty
  case Tint8  => exact congrArg (BitVec.signExtend 64) (hlow 8 (by decide))
  case Tint16 => exact congrArg (BitVec.signExtend 64) (hlow 16 (by decide))
  case Tint32 => exact congrArg (BitVec.signExtend 64) (hlow 32 (by decide))
  case Tchar  => exact congrArg (BitVec.setWidth 64) (hlow 8 (by decide))
  case Tuns8  => exact congrArg (BitVec.setWidth 64) (hlow 8 (by decide))
  case Twchar => exact congrArg (BitVec.setWidth 64) (hlow 16 (by decide))
  case Tuns16 => exact congrArg (BitVec.setWidth 64) (hlow 16 (by decide))
  case Tdchar => exact congrArg (BitVec.setWidth 64) (hlow 32 (by decide))
  case Tuns32 => exact congrArg (BitVec.setWidth 64) (hlow 32 (by decide))
  case Tint64 => exact h64
  case Tuns64 => exact h64

-- A value is found again in its lowest bytes.
theorem normalize_low : ty.normalize (BitVec.ofNat 64 ((ty.normalize v).toNat % 256 ^ ty.size)) = ty.normalize v := by
  by_cases hty : ty = .Tbool
  case neg => rw [normalize_mod hty, normalize_normalize]
  case pos =>
    subst hty
    show TY.normalize .Tbool (BitVec.ofNat 64 ((if v ≠ 0 then (1 : Value) else 0).toNat % 256 ^ 1)) =
      if v ≠ 0 then 1 else 0
    split_ifs <;> rfl

-- The code units of characters are their values.
theorem values_chars (hty : ty.isSomeChar) (h : ∀ u ∈ us, u < 256 ^ ty.size) : values ty us = us.map (BitVec.ofNat 64) := by
  refine List.map_congr_left fun u hu => ?_
  have hlt := h u hu
  have hunsigned (k : Nat) (hk : k ≤ 64) (hu : u < 2 ^ k) :
      ((BitVec.ofNat 64 u).setWidth k).setWidth 64 = BitVec.ofNat 64 u := by
    have hpow : 2 ^ k ≤ 2 ^ 64 := Nat.pow_le_pow_right Nat.two_pos hk
    rw [← BitVec.toNat_inj, BitVec.toNat_setWidth, BitVec.toNat_setWidth, BitVec.toNat_ofNat,
      Nat.mod_eq_of_lt (lt_of_lt_of_le hu hpow), Nat.mod_eq_of_lt hu, Nat.mod_eq_of_lt (lt_of_lt_of_le hu hpow)]
  cases ty <;> first
    | exact hunsigned 8 (by decide) hlt
    | exact hunsigned 16 (by decide) hlt
    | exact hunsigned 32 (by decide) hlt
    | cases hty

theorem valcpy_eq : valcpy v es.sz = some (ByteMemory.bytes es.sz v.toNat) :=
  if_pos es.sz_mem

theorem valcpy_size : valcpy v ty.size = some (ByteMemory.bytes ty.size v.toNat) :=
  if_pos size_mem

-- The string of a single element
theorem values_element (h : Element ty e x) : values ty [e.toInteger.toNat % 256 ^ ty.size] = [x] := by
  have hx := toInteger_of_element h
  cases h
  case int64 => rw [hx, values, List.map_singleton, normalize_low]

theorem denotes_element (h : Element ty e x) (htype : type.HasElements ty) {committed : Bool}
    (hes : create (ByteMemory.bytes ty.size e.toInteger.toNat) 1 ty.size committed = some es) :
    Denotes ty (.string type es) [x] := by
  rw [← values_element h, ← unitsOf_bytes, ← units_create hes]
  exact .string htype (create_eq_some hes).2.2.1

-- The string of a character that is encoded
theorem denotes_encoded (h : Encodes ty.size c us) (hty : ty.isSomeChar) (htype : type.HasElements ty) {committed : Bool}
    (hes : create (us.flatMap (ByteMemory.bytes ty.size)) us.length ty.size committed = some es) :
    Denotes ty (.string type es) (us.map (BitVec.ofNat 64)) := by
  rw [← values_chars hty h.lt, ← unitsOf_flatMap h.lt, ← units_create hes]
  exact .string htype (create_eq_some hes).2.2.1

end strings

section cases

theorem isSomeChar_of_isBasic (h : type.IsBasic ty) : type.toBasetype.isSomeChar = ty.isSomeChar := by
  obtain ⟨m, hm⟩ := h
  rw [hm, Ty.isSomeChar]

theorem size_of_isBasic (h : type.IsBasic ty) : type.toBasetype.size = ty.size := by
  obtain ⟨m, hm⟩ := h
  rw [hm, Ty.size]

theorem sameTy_of_isBasic (h : type.IsBasic ty) (h' : type1.IsBasic ty') :
    type.toBasetype.sameTy type1.toBasetype = decide (ty = ty') := by
  obtain ⟨m, hm⟩ := h
  obtain ⟨m', hm'⟩ := h'
  rw [hm, hm', Ty.sameTy]

theorem denotes_singleton (h : Element ty e x) (htype : type.Fits ty 1) :
    Denotes ty (arrayLiteral type none [some e]) [x] := by
  refine .arrayLiteral htype ?_ (fun b hb => by cases hb) (.cons (slot_some h) .nil)
  rw [List.length_singleton]
  decide

theorem size_mod : ty.size % 256 = ty.size := by
  cases ty <;> rfl

-- The type of the elements of the null operand, if it has one.
theorem catNull_type (ht : type1.HasElements ty ∨ ∃ m, type1.toBasetype = .null m) :
    (∃ next, type1.toBasetype.nextOf = some next ∧ next.IsBasic ty) ∨
      type1.toBasetype.nextOf = none ∧ ∃ m, type1.toBasetype = .null m := by
  rcases ht with h | ⟨m, hm⟩
  case inl => exact Or.inl (nextOf_of_hasElements h)
  case inr => exact Or.inr ⟨by rw [hm]; rfl, m, hm⟩

-- A character behind or in front of null
theorem catNull_denotes (ht : type1.HasElements ty ∨ ∃ m, type1.toBasetype = .null m) (he : Appended ty e xs)
    (htype : type.Fits ty xs.length) (hr : catNull type e type1.toBasetype = some r) : Denotes ty r xs := by
  cases he
  case element x helem =>
    cases helem
    case int64 etype v hetype =>
      have helem : Element ty (int64 etype v) (ty.normalize v) := .int64 hetype
      simp only [catNull, Expression.type, Option.bind_eq_bind, Option.bind_some, isSomeChar_of_isBasic hetype] at hr
      cases hchar : ty.isSomeChar
      case false =>
        rw [hchar, if_neg Bool.false_ne_true, Option.pure_def, Option.some.injEq] at hr
        exact hr ▸ denotes_singleton helem htype
      case true =>
        rw [hchar, if_pos rfl] at hr
        rcases catNull_type ht with ⟨next, hnext, hbasic⟩ | ⟨hnext, m, hm⟩
        case inl =>
          have hsame := sameTy_of_isBasic hbasic hetype
          simp only [hnext, size_of_isBasic hbasic, size_mod, hsame, decide_true, if_true, valcpy_size,
            Option.bind_some] at hr
          have ⟨es, hes, hr'⟩ := Option.bind_eq_some_iff.mp hr
          rw [Option.pure_def, Option.some.injEq] at hr'
          exact hr' ▸ denotes_element helem htype.elements hes
        case inr =>
          obtain ⟨m', hm'⟩ := hetype
          have hsame : type1.toBasetype.sameTy etype.toBasetype = false := by rw [hm, hm']; rfl
          simp only [hnext, hsame] at hr
          rw [hm] at hr
          cases hr
  case character etype ty' v us hetype hchar' hchar hsize henc =>
    have hv : (int64 etype v).toInteger = ty'.normalize v := normalize_eq hetype
    simp only [catNull, Expression.type, Option.bind_eq_bind, Option.bind_some, isSomeChar_of_isBasic hetype, hchar',
      if_true] at hr
    have hne : ty ≠ ty' := by
      rintro rfl
      exact hsize rfl
    rcases catNull_type ht with ⟨next, hnext, hbasic⟩ | ⟨hnext, m, hm⟩
    case inl =>
      have hsame := sameTy_of_isBasic hbasic hetype
      have ⟨hencode, hlength⟩ := utf_encode_eq henc
      simp only [hnext, size_of_isBasic hbasic, size_mod, hsame, decide_eq_false hne, Bool.false_eq_true, if_false, hv,
        hencode, hlength, Option.bind_some] at hr
      have ⟨es, hes, hr'⟩ := Option.bind_eq_some_iff.mp hr
      rw [Option.pure_def, Option.some.injEq] at hr'
      exact hr' ▸ denotes_encoded henc hchar htype.elements hes
    case inr =>
      obtain ⟨m', hm'⟩ := hetype
      have hsame : type1.toBasetype.sameTy etype.toBasetype = false := by rw [hm, hm']; rfl
      simp only [hnext, hsame] at hr
      rw [hm] at hr
      cases hr

-- A string behind or in front of null
theorem catStringNull_denotes (hkeeps : Keeps castTo) (ht : type2.HasElements ty ∨ ∃ m, type2.toBasetype = .null m)
    (h : Denotes ty (string type1 es) xs) (htype : type.Fits ty xs.length)
    (harray : type.toBasetype.isArray ∨ type.toBasetype.isSarray)
    (hr : catStringNull castTo type type1 es type2 = some r) : Denotes ty r xs := by
  have hstring : Denotes ty (if type1 ≠ type then castTo type1 es type else string type1 es) xs := by
    cases h
    case string h1 hsz =>
      rw [length_values, length_units] at htype
      split_ifs with heq
      case neg => exact .string h1 hsz
      case pos =>
        have ⟨es', hcast, hunits, hsz'⟩ := hkeeps type1 es type ty h1 hsz htype harray
        rw [hcast, ← hunits]
        exact .string htype.elements (hsz'.trans hsz)
  rw [catStringNull] at hr
  cases hbase : type2.toBasetype
  case array m next =>
    simp only [hbase] at hr
    have hne : next.equivalent type1 = false := by
      rw [Ty.equivalent, decide_eq_false_iff_not]
      intro heq
      rcases ht with ht | ⟨m', hm'⟩
      case inl =>
        have ⟨next', hnext', hbasic⟩ := nextOf_of_hasElements ht
        rw [hbase, Ty.nextOf, Option.some.injEq] at hnext'
        cases h
        case string h1 _ => exact not_isBasic_of_equivalent h1 (hnext' ▸ hbasic) heq
      case inr =>
        rw [hbase] at hm'
        cases hm'
    rw [hne, if_neg Bool.false_ne_true, Option.some.injEq] at hr
    exact hr ▸ hstring
  all_goals
    simp only [hbase, Option.some.injEq] at hr
    exact hr ▸ hstring

theorem nextOf_ne (h1 : type1.HasElements ty ∨ ∃ m, type1.toBasetype = .null m)
    (h2 : type2.HasElements ty' ∨ ∃ m, type2.toBasetype = .null m) : type1.toBasetype.nextOf ≠ some type2 := by
  intro h
  rcases catNull_type h1 with ⟨next, hnext, hbasic⟩ | ⟨hnone, _⟩
  case inl =>
    rw [h, Option.some.injEq] at hnext
    exact not_isBasic h2 (hnext ▸ hbasic)
  case inr =>
    rw [h] at hnone
    cases hnone

-- Two arrays are no element and its array.
theorem catElement_arrays (h1 : type1.HasElements ty ∨ ∃ m, type1.toBasetype = .null m)
    (h2 : type2.HasElements ty ∨ ∃ m, type2.toBasetype = .null m)
    (hr : catElement type type1 type2 e1 e2 = some r) : r = cantExpression := by
  have hprepended (hr : catElement.prepended type type1 type2 e1 e2 = some r) : r = cantExpression := by
    rw [catElement.prepended.eq_def] at hr
    split at hr
    case h_2 => exact (Option.some.inj hr).symm
    case h_1 =>
      have ⟨next, hnext, hr'⟩ := Option.bind_eq_some_iff.mp hr
      have hne : next ≠ type1 := fun h => nextOf_ne h2 h1 (h ▸ hnext)
      rw [if_neg hne] at hr'
      exact (Option.some.inj hr').symm
  rw [catElement.eq_def] at hr
  simp only [nextOf_ne h1 h2, if_false] at hr
  cases e1 <;> exact hprepended hr

theorem isArrayType (h : Denotes ty e xs) (he : e.type = some type) :
    type.HasElements ty ∨ ∃ m, type.toBasetype = .null m := by
  cases h <;> rw [Expression.type, Option.some.injEq] at he <;> subst he
  case null h               => exact h
  case string h _           => exact Or.inl h
  case arrayLiteral h _ _ _ => exact Or.inl h.elements

-- Arrays, one behind the other
theorem cat_arrays (hkeeps : Keeps castTo) (h1 : Denotes ty e1 xs) (h2 : Denotes ty e2 ys)
    (htype : type.Fits ty (xs ++ ys).length) (harray : type.toBasetype.isArray ∨ type.toBasetype.isSarray)
    (hlen : (xs ++ ys).length < 2 ^ 64) (hr : Cat castTo errors type e1 e2 = some r) (hfold : r ≠ cantExpression) :
    Denotes ty r (xs ++ ys) := by
  cases h1
  case null type1 ht1 =>
    cases h2
    case null type2 ht2 =>
      have hne : type1.toBasetype.nextOf ≠ some type2.toBasetype := by
        have hbase : type2.toBasetype.HasElements ty ∨ ∃ m, type2.toBasetype.toBasetype = .null m := by
          rw [Ty.HasElements, nextOf_toBasetype, toBasetype_toBasetype]
          exact ht2
        exact nextOf_ne ht1 hbase
      simp only [Cat, Expression.type, Option.bind_eq_bind, Option.bind_some, hne, and_false, if_false] at hr
      split_ifs at hr <;> rw [Option.pure_def, Option.some.injEq] at hr
      case pos => exact hr ▸ .null ht1
      case pos => exact hr ▸ .null ht2
      case neg => exact hr ▸ .null (Or.inl htype.elements)
    case string type2 es2 h2 hsz =>
      simp only [Cat, Expression.type, Option.bind_eq_bind, Option.bind_some, nextOf_ne ht1 (Or.inl h2), if_false] at hr
      exact catStringNull_denotes hkeeps ht1 (.string h2 hsz) htype harray hr
    case arrayLiteral type2 basis els hfits _ _ hslots =>
      simp only [Cat, Expression.type, Option.bind_eq_bind, Option.bind_some] at hr
      obtain ⟨next, hnext, hr'⟩ := Option.bind_eq_some_iff.mp hr
      split_ifs at hr' with heq
      case neg => exact absurd (catElement_arrays ht1 (Or.inl hfits.elements) hr') hfold
      case pos =>
        obtain ⟨next2, hnext2, hbasic⟩ := nextOf_of_hasElements hfits.elements
        rw [hnext2, Option.some.injEq] at heq
        rw [Option.pure_def, Option.some.injEq] at hr'
        exact hr' ▸ denotes_catElements (slots_copyElements hslots) hlen htype (heq ▸ hbasic)
  case string type1 es1 h1 hsz1 =>
    cases h2
    case null type2 ht2 =>
      simp only [Cat, Expression.type, Option.bind_eq_bind, Option.bind_some] at hr
      rw [List.append_nil] at htype ⊢
      exact catStringNull_denotes hkeeps ht2 (.string h1 hsz1) htype harray hr
    case string type2 es2 _ hsz2 =>
      simp only [Cat, Expression.type, Option.bind_eq_bind, Option.bind_some] at hr
      rw [if_neg (not_not.mpr (hsz1.trans hsz2.symm))] at hr
      obtain ⟨es, hes, hr'⟩ := Option.bind_eq_some_iff.mp hr
      rw [Option.pure_def, Option.some.injEq] at hr'
      have hunits : es.units = es1.units ++ es2.units := by
        rw [units_create hes, peekData.eq_def, peekData.eq_def, unitsOf_append es1.length_data, units_eq, units_eq,
          hsz1.trans hsz2.symm]
      rw [← hr', ← values_append, ← hunits]
      exact .string htype.elements ((create_eq_some hes).2.2.1.trans hsz1)
    case arrayLiteral type2 basis els hfits _ _ hslots =>
      obtain ⟨next2, hnext2, hbasic⟩ := nextOf_of_hasElements hfits.elements
      simp only [Cat, Expression.type, Option.bind_eq_bind, Option.bind_some, hnext2, isIntegral_of_isBasic hbasic,
        if_true] at hr
      obtain ⟨assigned, hassigned, hr'⟩ := Option.bind_eq_some_iff.mp hr
      rw [Option.pure_def, Option.some.injEq] at hr'
      have hall := List.rel_append (slots_assigned htype.elements hassigned) (slots_copyElements hslots)
      rw [← hr']
      refine .arrayLiteral ?_ ?_ (fun b hb => by cases hb) hall
      case refine_1 => rwa [hall.length_eq]
      case refine_2 => rwa [hall.length_eq]
  case arrayLiteral type1 basis1 els1 hfits1 _ _ hslots1 =>
    obtain ⟨next1, hnext1, hbasic1⟩ := nextOf_of_hasElements hfits1.elements
    cases h2
    case null type2 ht2 =>
      simp only [Cat, Expression.type, Option.bind_eq_bind, Option.bind_some, hnext1] at hr
      split_ifs at hr
      case neg => exact absurd (catElement_arrays (Or.inl hfits1.elements) ht2 hr) hfold
      case pos =>
        rw [Option.pure_def, Option.some.injEq] at hr
        rw [List.append_nil] at htype hlen ⊢
        exact hr ▸ denotes_catElements (slots_copyElements hslots1) hlen htype hbasic1
    case string type2 es2 _ _ =>
      simp only [Cat, Expression.type, Option.bind_eq_bind, Option.bind_some, hnext1, isIntegral_of_isBasic hbasic1,
        if_true] at hr
      obtain ⟨assigned, hassigned, hr'⟩ := Option.bind_eq_some_iff.mp hr
      rw [Option.pure_def, Option.some.injEq] at hr'
      have hall := List.rel_append (slots_copyElements hslots1) (slots_assigned htype.elements hassigned)
      rw [← hr']
      refine .arrayLiteral ?_ ?_ (fun b hb => by cases hb) hall
      case refine_1 => rwa [hall.length_eq]
      case refine_2 => rwa [hall.length_eq]
    case arrayLiteral type2 basis2 els2 hfits2 _ _ hslots2 =>
      simp only [Cat, Expression.type, Option.bind_eq_bind, Option.bind_some, hnext1] at hr
      split_ifs at hr
      case neg => exact absurd (catElement_arrays (Or.inl hfits1.elements) (Or.inl hfits2.elements) hr) hfold
      case pos =>
        rw [Option.pure_def, Option.some.injEq] at hr
        have hall := List.rel_append (slots_copyElements hslots1) (slots_copyElements hslots2)
        exact hr ▸ denotes_catElements hall hlen htype hbasic1

-- An element behind an array, or an encoded character
theorem cat_append (h1 : Denotes ty e1 xs) (h2 : Appended ty e2 ys) (htype : type.Fits ty (xs ++ ys).length)
    (hlen : (xs ++ ys).length < 2 ^ 64) (hr : Cat castTo errors type e1 e2 = some r) (hfold : r ≠ cantExpression) :
    Denotes ty r (xs ++ ys) := by
  obtain ⟨type2, v2, he2⟩ : ∃ type2 v2, e2 = int64 type2 v2 := by
    cases h2
    case element helem => cases helem; exact ⟨_, _, rfl⟩
    case character => exact ⟨_, _, rfl⟩
  subst he2
  cases h1
  case null type1 ht1 =>
    simp only [Cat, Expression.type, Option.bind_eq_bind, Option.bind_some] at hr
    exact catNull_denotes ht1 h2 htype hr
  case string type1 es1 h1 hsz =>
    simp only [Cat, Expression.type, Option.bind_eq_bind, Option.bind_some] at hr
    have happend {c : Nat} {data : List UInt8} {us : List Nat} (hus : unitsOf data c es1.sz = us)
        (hr : (create (es1.peekData ++ data) (es1.length + c) es1.sz es1.committed).bind
          (fun es => pure (string type es)) = some r) :
        Denotes ty r (values ty es1.units ++ values ty us) := by
      obtain ⟨es, hes, hr'⟩ := Option.bind_eq_some_iff.mp hr
      rw [Option.pure_def, Option.some.injEq] at hr'
      have hunits : es.units = es1.units ++ us := by
        rw [units_create hes, peekData.eq_def, unitsOf_append es1.length_data, units_eq, hus]
      rw [← hr', ← values_append, ← hunits]
      exact .string htype.elements ((create_eq_some hes).2.2.1.trans hsz)
    cases h2
    case element x helem =>
      have hsize : es1.sz = type2.toBasetype.size := by
        cases helem
        case int64 h => rw [size_of_isBasic h, hsz]
      simp only [if_pos hsize, valcpy_eq, Option.bind_some] at hr
      have h := happend unitsOf_bytes hr
      rwa [hsz, values_element helem] at h
    case character ty' us hchar' hchar hne hbasic henc =>
      have hsize : es1.sz ≠ type2.toBasetype.size := by
        rw [size_of_isBasic hbasic, hsz]
        exact hne.symm
      have hv : (int64 type2 v2).toInteger = ty'.normalize v2 := normalize_eq hbasic
      obtain ⟨hencode, hlength⟩ := utf_encode_eq henc
      rw [← hsz] at hencode hlength
      simp only [hsize, if_false, hv, hencode, hlength, Option.bind_some] at hr
      have h := happend (unitsOf_flatMap (hsz ▸ henc.lt)) hr
      rwa [values_chars hchar henc.lt] at h
  case arrayLiteral type1 basis els hfits _ _ hslots =>
    obtain ⟨next, hnext, hbasic⟩ := nextOf_of_hasElements hfits.elements
    simp only [Cat, Expression.type, Option.bind_eq_bind, Option.bind_some, catElement, hnext, Option.some.injEq] at hr
    split_ifs at hr with heq
    case neg => exact absurd (Option.some.inj hr).symm hfold
    case pos =>
      subst heq
      rw [Option.some.injEq] at hr
      cases h2
      case element x helem =>
        have hall := List.rel_append (slots_copyElements hslots) (.cons (slot_some helem) .nil)
        exact hr ▸ denotes_catElements hall hlen htype hbasic
      case character ty' us _ _ hne hbasic' _ => exact absurd (isBasic_unique hbasic' hbasic ▸ rfl) hne

-- An element in front of an array
theorem cat_prepend (h1 : Appended ty e1 xs) (h2 : Denotes ty e2 ys)
    (hfirst : ∀ type es, e2 = string type es → ∃ x, Element ty e1 x) (htype : type.Fits ty (xs ++ ys).length)
    (hlen : (xs ++ ys).length < 2 ^ 64) (hr : Cat castTo errors type e1 e2 = some r) (hfold : r ≠ cantExpression) :
    Denotes ty r (xs ++ ys) := by
  obtain ⟨type1, v1, he1⟩ : ∃ type1 v1, e1 = int64 type1 v1 := by
    cases h1
    case element helem => cases helem; exact ⟨_, _, rfl⟩
    case character => exact ⟨_, _, rfl⟩
  subst he1
  cases h2
  case null type2 ht2 =>
    simp only [Cat, Expression.type, Option.bind_eq_bind, Option.bind_some] at hr
    rw [List.append_nil] at htype ⊢
    exact catNull_denotes ht2 h1 htype hr
  case string type2 es2 _ hsz =>
    simp only [Cat, Expression.type, Option.bind_eq_bind, Option.bind_some, valcpy_eq] at hr
    obtain ⟨es, hes, hr'⟩ := Option.bind_eq_some_iff.mp hr
    rw [Option.pure_def, Option.some.injEq] at hr'
    cases h1
    case element x helem =>
      have hunits : es.units = [(int64 type1 v1).toInteger.toNat % 256 ^ ty.size] ++ es2.units := by
        rw [units_create hes, unitsOf_append (by rw [ByteMemory.length_bytes, Nat.one_mul]), unitsOf_bytes,
          peekData.eq_def, units_eq, hsz]
      rw [← hr', ← values_element helem, ← values_append, ← hunits]
      exact .string htype.elements ((create_eq_some hes).2.2.1.trans hsz)
    case character ty' us _ _ hne hbasic _ =>
      obtain ⟨x, helem⟩ := hfirst type2 es2 rfl
      cases helem
      case int64 h => exact absurd (isBasic_unique hbasic h ▸ rfl) hne
  case arrayLiteral type2 basis els hfits _ _ hslots =>
    obtain ⟨next, hnext, hbasic⟩ := nextOf_of_hasElements hfits.elements
    simp only [Cat, Expression.type, Option.bind_eq_bind, Option.bind_some, catElement, catElement.prepended,
      hnext] at hr
    split_ifs at hr with heq
    case neg => exact absurd (Option.some.inj hr).symm hfold
    case pos =>
      subst heq
      rw [Option.pure_def, Option.some.injEq] at hr
      cases h1
      case element x helem =>
        have hall := List.rel_append (.cons (slot_some helem) .nil : List.Forall₂ (Slot ty none) _ _)
          (slots_copyElements hslots)
        exact hr ▸ denotes_catElements hall hlen htype hbasic
      case character ty' us _ _ hne hbasic' _ => exact absurd (isBasic_unique hbasic' hbasic ▸ rfl) hne

theorem Cat_denotes (hkeeps : Keeps castTo) (h : Operands ty e1 e2 zs) (htype : type.Fits ty zs.length)
    (harray : type.toBasetype.isArray ∨ type.toBasetype.isSarray) (hlen : zs.length < 2 ^ 64)
    (hr : Cat castTo errors type e1 e2 = some r) (hfold : r ≠ cantExpression) : Denotes ty r zs := by
  cases h
  case arrays h1 h2         => exact cat_arrays hkeeps h1 h2 htype harray hlen hr hfold
  case append h1 h2         => exact cat_append h1 h2 htype hlen hr hfold
  case prepend h1 h2 hfirst => exact cat_prepend h1 h2 hfirst htype hlen hr hfold

end cases

-- What is folded is what the operation is on the elements. Indexing and slicing fail if the operands are no constants
-- or out of bounds, and not otherwise.
theorem folded_denotes (hkeeps : Keeps castTo) (type : Ty) (ty : TY) :
    (∀ errors op ty1 ty2 e1 e2 xs ys r, Denotes ty1 e1 xs → Denotes ty2 e2 ys → Plain ty1 e1 → Plain ty2 e2 →
      type.isIntegral → Equal errors op type e1 e2 = some r → r ≠ cantExpression →
      r.toInteger = boolValue (if op = .notEqual then xs ≠ ys else xs = ys)) ∧
    (∀ e1 e2 xs indexIsInBounds, Denotes ty e1 xs → NoPointer e1 → type.IsBasic ty →
      ∃ r, Index type e1 e2 indexIsInBounds = some r ∧ IsIndexed ty xs e2 r) ∧
    (∀ type1 sideEffect e2 indexIsInBounds,
      ∃ r, Index type (other type1 sideEffect) e2 indexIsInBounds = some r ∧ Declined r) ∧
    (∀ e1 xs lwr upr, Denotes ty e1 xs → (∀ type1, e1 ≠ null type1) →
      ∃ r, Slice type e1 (some lwr) (some upr) = some r ∧ IsSliced ty type xs lwr upr r) ∧
    (∀ type1 sideEffect lwr upr, Slice type (other type1 sideEffect) (some lwr) (some upr) = some cantExpression) ∧
    (∀ e1 xs r, Denotes ty e1 xs → Slice type e1 none none = some r → r ≠ cantExpression → Denotes ty r xs) ∧
    ∀ errors e1 e2 zs r, Operands ty e1 e2 zs → type.Fits ty zs.length →
      (type.toBasetype.isArray ∨ type.toBasetype.isSarray) → zs.length < 2 ^ 64 →
      Cat castTo errors type e1 e2 = some r → r ≠ cantExpression → Denotes ty r zs := by
  refine ⟨fun _ _ _ _ _ _ _ _ _ h1 h2 hp1 hp2 htype hr hfold => Equal_denotes h1 h2 hp1 hp2 htype hr hfold,
    fun _ _ _ _ h1 hp htype => Index_denotes h1 hp htype, fun type1 sideEffect e2 b => ?_,
    fun _ _ _ _ h1 hnull => Slice_denotes h1 hnull, fun type1 sideEffect lwr upr => ?_, fun e1 xs r h1 hr hfold => ?_,
    fun _ _ _ _ _ h htype harray hlen hr hfold => Cat_denotes hkeeps h htype harray hlen hr hfold⟩
  case refine_1 =>
    rw [Index.eq_def]
    cases e2
    case int64 =>
      dsimp only [Expression.type, Option.bind_eq_bind, Option.bind_some]
      split
      case h_1 =>
        split_ifs
        case pos => exact ⟨_, rfl, Or.inl rfl⟩
        case neg => exact ⟨_, rfl, Or.inr rfl⟩
      case h_2 => exact ⟨_, rfl, Or.inr rfl⟩
    all_goals exact ⟨_, rfl, Or.inr rfl⟩
  case refine_2 => rfl
  case refine_3 =>
    cases h1
    case string h1 hsz =>
      rw [Slice, Option.some.injEq] at hr
      exact hr ▸ .string h1 hsz
    all_goals exact absurd (Option.some.inj hr).symm hfold

section

-- A string is painted over with the type.
def castSame (_ : Ty) (es : StringExp) (type : Ty) : Expression :=
  string type es

theorem castSame_keeps : Keeps castSame :=
  fun _ es _ _ _ _ _ _ => ⟨es, rfl, rfl, rfl⟩

def dynamic (ty : TY) : Ty :=
  .array .mutable (.basic .mutable ty)

theorem fits_dynamic : (dynamic ty).Fits ty i where
  elements := ⟨.basic .mutable ty, rfl, .mutable, rfl⟩
  dim _ _ _ h := by cases h

-- "a" ~ 'b' is "ab".
theorem cat_letters : ∃ r, Cat castSame false (dynamic .Tchar) (.string (dynamic .Tchar) (literal 97))
      (.int64 (.basic .mutable .Tchar) 98) = some r ∧ r ≠ cantExpression ∧ Denotes .Tchar r [97, 98] := by
  have hfits : (dynamic .Tchar).Fits .Tchar 1 := fits_dynamic
  have hstring : Denotes .Tchar (.string (dynamic .Tchar) (literal 97)) [97] :=
    .string hfits.elements rfl
  have hchar : Appended .Tchar (.int64 (.basic .mutable .Tchar) 98) [98] := .element (.int64 ⟨.mutable, rfl⟩)
  have hne (type : Ty) (es : StringExp) : Expression.string type es ≠ cantExpression := by
    intro h
    cases h
  refine ⟨_, rfl, hne _ _, ?_⟩
  exact (folded_denotes castSame_keeps (dynamic .Tchar) .Tchar).2.2.2.2.2.2 false _ _ [97, 98] _ (.append hstring hchar)
    fits_dynamic (Or.inl rfl) (by decide) rfl (hne _ _)

-- A character of another width is put in front of a string as its lowest byte, the string of the byte -1 is not equal to
-- the literal of it, and what is in bounds is declined: parts of null, whole literals and elements behind pointers.
theorem cat_truncated :
    (∃ es, Cat castSame false (dynamic .Tchar) (.int64 (.basic .mutable .Tdchar) 0x100)
        (.string (dynamic .Tchar) (literal 97)) = some (.string (dynamic .Tchar) es) ∧ es.units = [0, 97]) ∧
      (Denotes .Tint8 (.string (dynamic .Tint8) (literal 255)) [-1] ∧
        Denotes .Tint8 (.arrayLiteral (dynamic .Tint8) none [some (.int64 (.basic .mutable .Tint8) (-1))]) [-1] ∧
        Equal false .equal bool (.string (dynamic .Tint8) (literal 255))
          (.arrayLiteral (dynamic .Tint8) none [some (.int64 (.basic .mutable .Tint8) (-1))]) =
            some (IntegerExp 0 bool)) ∧
      Slice (dynamic .Tint8) (.null (dynamic .Tint8)) (some (.int64 (.basic .mutable .Tuns64) 0))
        (some (.int64 (.basic .mutable .Tuns64) 0)) = some cantExpression ∧
      Slice (dynamic .Tint8) (.arrayLiteral (dynamic .Tint8) none []) none none = some cantExpression ∧
      Index (.basic .mutable .Tint8) (.arrayLiteral (.pointer .mutable (.basic .mutable .Tint8)) none
        [some (.int64 (.basic .mutable .Tint8) 5)]) (.int64 (.basic .mutable .Tuns64) 0) true = some cantExpression := by
  refine ⟨⟨_, rfl, by decide⟩, ⟨?_, ?_, ?_⟩, rfl, rfl, rfl⟩
  case refine_1 => exact .string (fits_dynamic (i := 1)).elements rfl
  case refine_2 =>
    exact .arrayLiteral fits_dynamic (by decide) (fun b hb => by cases hb) (.cons (slot_some (.int64 ⟨.mutable, rfl⟩)) .nil)
  case refine_3 =>
    rw [Equal, equalValues]
    rfl

end

end Compiler.Constfold
