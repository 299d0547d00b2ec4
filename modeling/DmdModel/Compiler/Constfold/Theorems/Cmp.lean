import DmdModel.Compiler.Constfold.Expression
import DmdModel.Compiler.Constfold.Arrays

-- Which comparisons of strings are folded to what they are at run time.

namespace Compiler.Constfold

open Expression ByteCompare

variable {op : EXP} {type type1 type2 : Ty} {es1 es2 : StringExp} {s t : List Nat} {b b' : Bool}

-- The comparison of arrays of the language: by the first elements that differ, where a proper initial part is smaller.
def lexicographic (op : EXP) (s t : List Nat) : Option Bool :=
  match op with
  | .lessThan       => some (s < t)
  | .lessOrEqual    => some (s ≤ t)
  | .greaterThan    => some (s > t)
  | .greaterOrEqual => some (s ≥ t)
  | _               => none

-- The first difference is in favour of the first string, or else it is the shorter one.
def FirstSmaller (es1 es2 : StringExp) : Prop :=
  match firstDifference es1.units es2.units with
  | some (a, b) => a < b
  | none        => es1.length < es2.length

-- The difference of the lengths, in the range of an int, is on the same side as the first difference.
def LengthsDecide (op : EXP) (es1 es2 : StringExp) : Prop :=
  match op with
  | .lessThan | .greaterOrEqual => ((es1.length : Int) - es2.length).bmod (2 ^ 32) < 0 ↔ FirstSmaller es1 es2
  | _                           => 0 < ((es1.length : Int) - es2.length).bmod (2 ^ 32) ↔ FirstSmaller es2 es1

theorem firstSmaller_iff : FirstSmaller es1 es2 ↔ es1.units < es2.units := by
  rw [lt_iff_firstDifference, es1.length_units, es2.length_units, FirstSmaller]
  cases firstDifference es1.units es2.units <;> rfl

instance : Decidable (FirstSmaller es1 es2) :=
  decidable_of_iff (es1.units < es2.units) (firstSmaller_iff).symm

instance : Decidable (LengthsDecide op es1 es2) :=
  match op with
  | .lessThan | .lessOrEqual | .greaterThan | .greaterOrEqual | .equal | .notEqual =>
    inferInstanceAs (Decidable (_ ↔ _))

theorem lengthDifference_eq {len1 len2 : Nat} :
    lengthDifference len1 len2 = ((len1 : Int) - len2).bmod (2 ^ 32) := by
  have hlen (len : Nat) : ((BitVec.ofNat 64 len).setWidth 32).toInt = (len : Int).bmod (2 ^ 32) := by
    rw [BitVec.setWidth_ofNat_of_le (by decide), BitVec.toInt_ofNat']
  rw [lengthDifference, sub_eq_add_neg, BitVec.setWidth_add _ _ (by decide), BitVec.setWidth_neg_of_le (by decide),
    ← sub_eq_add_neg, BitVec.toInt_sub, hlen, hlen, Int.sub_bmod_bmod, Int.bmod_sub_bmod]

theorem cmpStrings_eq : cmpStrings op es1 es2 = specificCmp op (((es1.length : Int) - es2.length).bmod (2 ^ 32)) := by
  simp only [cmpStrings, memcmp_self, if_true, lengthDifference_eq]

theorem toInteger_boolValue (h : type.isIntegral) : (IntegerExp (boolValue b) type).toInteger = boolValue b := by
  rw [Ty.isIntegral] at h
  rw [IntegerExp, toInteger, normalize]
  cases htype : type.toBasetype
  case basic mod ty => cases ty <;> cases b <;> simp [htype, normalize] <;> rfl
  all_goals simp [htype] at h

theorem intExp_boolValue_inj (h : type.isIntegral) :
    IntegerExp (boolValue b) type = IntegerExp (boolValue b') type ↔ b = b' := by
  refine ⟨fun he => ?_, congrArg (fun b => IntegerExp (boolValue b) type)⟩
  have hvalue : boolValue b = boolValue b' := by rw [← toInteger_boolValue h, he, toInteger_boolValue h]
  revert hvalue
  cases b <;> cases b' <;> decide

theorem cmp_strings (h : es1.sz = es2.sz) :
    Cmp op type (.string type1 es1) (.string type2 es2) =
      (cmpStrings op es1 es2).map fun n => IntegerExp (boolValue n) type := by
  rw [Cmp, if_neg (not_not.mpr h), Option.map_eq_bind]
  rfl

theorem cmpStrings_iff (h : op ∈ [EXP.lessThan, EXP.lessOrEqual, EXP.greaterThan, EXP.greaterOrEqual]) :
    cmpStrings op es1 es2 = lexicographic op es1.units es2.units ↔ LengthsDecide op es1 es2 := by
  simp only [List.mem_cons, List.not_mem_nil, or_false] at h
  rw [cmpStrings_eq]
  generalize hd : ((es1.length : Int) - es2.length).bmod (2 ^ 32) = d
  obtain rfl | rfl | rfl | rfl := h <;>
    simp only [specificCmp, numCmp, lexicographic, LengthsDecide, hd, firstSmaller_iff, Option.some.injEq,
      decide_eq_decide, gt_iff_lt, ge_iff_le, ← not_lt, not_iff_not]

-- Two strings are folded to their order if and only if the difference of their lengths is on the side of their order.
theorem cmp_iff (hop : op ∈ [EXP.lessThan, EXP.lessOrEqual, EXP.greaterThan, EXP.greaterOrEqual])
    (hsz : es1.sz = es2.sz) (htype : type.isIntegral) :
    Cmp op type (.string type1 es1) (.string type2 es2) =
        (lexicographic op es1.units es2.units).map (fun b => IntegerExp (boolValue b) type) ↔
      LengthsDecide op es1 es2 := by
  have hinj : Function.Injective fun b => IntegerExp (boolValue b) type := fun _ _ => (intExp_boolValue_inj htype).mp
  rw [cmp_strings hsz, (Option.map_injective hinj).eq_iff, cmpStrings_iff hop]

def literal (c : UInt8) : StringExp where
  data := [c]
  length := 1
  sz := 1
  length_data := rfl
  length_lt := by decide
  sz_mem := by decide

def bool : Ty :=
  .basic .mutable .Tbool

-- "a" < "b" is folded to false.
theorem cmp_letters :
    Cmp .lessThan bool (.string (.array .mutable (.basic .immutable .Tchar)) (literal 97))
        (.string (.array .mutable (.basic .immutable .Tchar)) (literal 98)) = some (IntegerExp 0 bool) ∧
      lexicographic .lessThan (literal 97).units (literal 98).units = some true :=
  ⟨rfl, by decide⟩

-- "a" <= "a" is folded to true.
theorem cmp_same :
    Cmp .lessOrEqual bool (.string (.array .mutable (.basic .immutable .Tchar)) (literal 97))
        (.string (.array .mutable (.basic .immutable .Tchar)) (literal 97)) =
      (lexicographic .lessOrEqual (literal 97).units (literal 97).units).map (fun b => IntegerExp (boolValue b) bool) :=
  (cmp_iff (by decide) rfl rfl).mpr (by decide)

end Compiler.Constfold

-- What is done to the bytes of strings, as what is done to their code units.

namespace Compiler.Constfold

open ByteMemory

variable {es es1 es2 : StringExp} {data d1 d2 : List UInt8} {len l1 l2 sz a n v : Nat} {us : List Nat}

namespace StringExp

-- The code units in bytes
def unitsOf (data : List UInt8) (length sz : Nat) : List Nat :=
  (List.range length).map fun i => read (fun q => data.getD q 0) (i * sz) sz

theorem units_eq : es.units = unitsOf es.data es.length es.sz :=
  rfl

theorem getElem?_units (h : n < es.length) : es.units[n]? = some (es.getIndex n) := by
  rw [units, List.getElem?_map, List.getElem?_range h, Option.map_some]

theorem unitsOf_append (h1 : d1.length = l1 * sz) :
    unitsOf (d1 ++ d2) (l1 + l2) sz = unitsOf d1 l1 sz ++ unitsOf d2 l2 sz := by
  rw [unitsOf, unitsOf, unitsOf, List.range_add, List.map_append, List.map_map]
  congr 1
  case e_a =>
    refine List.map_congr_left fun i hi => read_congr fun q _ hq => ?_
    have hi' : i < l1 := List.mem_range.mp hi
    have hlt : i * sz + sz ≤ l1 * sz := by
      calc
        i * sz + sz
        _ = (i + 1) * sz := (Nat.succ_mul i sz).symm
        _ ≤ l1 * sz      := Nat.mul_le_mul_right sz hi'
    rw [List.getD_append _ _ _ _ (by omega)]
  case e_a =>
    refine List.map_congr_left fun i _ => ?_
    have hshift : ∀ q, (d1 ++ d2).getD (l1 * sz + q) 0 = d2.getD q 0 := by
      intro q
      rw [List.getD_append_right _ _ _ _ (by omega), h1, Nat.add_sub_cancel_left]
    have hpos : (l1 + i) * sz = l1 * sz + i * sz := Nat.add_mul l1 i sz
    show read _ ((l1 + i) * sz) sz = _
    rw [hpos]
    exact read_shift fun q => by rw [Nat.add_assoc, hshift]

theorem length_unitsOf : (unitsOf data len sz).length = len := by
  rw [unitsOf, List.length_map, List.length_range]

theorem unitsOf_bytes : unitsOf (bytes sz v) 1 sz = [v % 256 ^ sz] := by
  rw [unitsOf, List.range_one, List.map_singleton, Nat.zero_mul, read_bytes]

theorem unitsOf_flatMap (h : ∀ u ∈ us, u < 256 ^ sz) : unitsOf (us.flatMap (bytes sz)) us.length sz = us := by
  induction us
  case nil => rfl
  case cons u us ih =>
    rw [List.flatMap_cons, List.length_cons, Nat.add_comm, unitsOf_append (by rw [length_bytes, Nat.one_mul]),
      unitsOf_bytes, Nat.mod_eq_of_lt (h u List.mem_cons_self), ih fun u hu => h u (List.mem_cons_of_mem _ hu)]
    rfl

theorem length_flatMap_bytes : (us.flatMap (bytes sz)).length = us.length * sz := by
  induction us
  case nil => rw [List.flatMap_nil, List.length_nil, List.length_nil, Nat.zero_mul]
  case cons u us ih =>
    rw [List.flatMap_cons, List.length_append, ih, length_bytes, List.length_cons, Nat.succ_mul, Nat.add_comm]

theorem unitsOf_slice (hdata : data.length = len * sz) (h : a + n ≤ len) :
    unitsOf ((data.drop (a * sz)).take (n * sz)) n sz = ((unitsOf data len sz).drop a).take n := by
  have hlen : a * sz + n * sz ≤ len * sz := by
    rw [← Nat.add_mul]
    exact Nat.mul_le_mul_right sz h
  have hsplit : data = data.take (a * sz) ++
      ((data.drop (a * sz)).take (n * sz) ++ (data.drop (a * sz)).drop (n * sz)) := by
    rw [List.take_append_drop, List.take_append_drop]
  have hunits : unitsOf data len sz = unitsOf (data.take (a * sz)) a sz ++
      (unitsOf ((data.drop (a * sz)).take (n * sz)) n sz ++
        unitsOf ((data.drop (a * sz)).drop (n * sz)) (len - (a + n)) sz) := by
    have hcount : len = a + (n + (len - (a + n))) := by omega
    rw [← unitsOf_append (by rw [List.length_take, List.length_drop]; omega),
      ← unitsOf_append (by rw [List.length_take]; omega), ← hsplit, ← hcount]
  rw [hunits, List.drop_left' length_unitsOf, List.take_left' length_unitsOf]

-- Strings of the same size of code units are the same in memory if and only if their code units are.
theorem units_inj (hsz : es1.sz = es2.sz) : es1.units = es2.units ↔ es1.data = es2.data := by
  have hlength (h : es1.units.length = es2.units.length) : es1.length = es2.length := by
    rwa [length_units, length_units] at h
  constructor
  case mp =>
    intro h
    have hl := hlength (congrArg List.length h)
    refine List.ext_getElem? fun q => ?_
    have hd1 := es1.length_data
    have hd2 := es2.length_data
    rw [← hl, ← hsz] at hd2
    by_cases hq : q < es1.length * es1.sz
    case neg => rw [List.getElem?_eq_none (by omega), List.getElem?_eq_none (by omega)]
    case pos =>
      have hi : q / es1.sz < es1.length := Nat.div_lt_of_lt_mul (by rwa [Nat.mul_comm])
      have hunit : es1.getIndex (q / es1.sz) = es2.getIndex (q / es1.sz) := by
        have h' := getElem?_units hi
        rw [h, getElem?_units (hl ▸ hi)] at h'
        exact (Option.some.inj h').symm
      rw [getIndex, getIndex, ← hsz] at hunit
      have hbyte := read_inj hunit (q % es1.sz) (Nat.mod_lt _ es1.sz_pos)
      rw [Nat.mul_comm, Nat.div_add_mod, List.getD_eq_getElem?_getD, List.getD_eq_getElem?_getD,
        List.getElem?_eq_getElem (by omega), List.getElem?_eq_getElem (by omega)] at hbyte
      rw [List.getElem?_eq_getElem (by omega), List.getElem?_eq_getElem (by omega)]
      exact congrArg some hbyte
  case mpr =>
    intro h
    have hl : es1.length = es2.length := by
      have hd := es1.length_data
      rw [h, es2.length_data, ← hsz] at hd
      exact (Nat.mul_right_cancel es1.sz_pos hd).symm
    rw [units_eq, units_eq, h, hl, hsz]

theorem create_eq_some {committed : Bool} (h : create data len sz committed = some es) :
    es.data = data ∧ es.length = len ∧ es.sz = sz ∧ data.length = len * sz := by
  rw [create] at h
  split_ifs at h with hcond
  rw [Option.some.injEq] at h
  subst h
  exact ⟨rfl, rfl, rfl, hcond.1⟩

theorem exists_create (committed : Bool) (hdata : data.length = len * sz) (hlen : len < 2 ^ 64)
    (hsz : sz ∈ [1, 2, 4, 8]) : ∃ es, create data len sz committed = some es := by
  rw [create, dif_pos ⟨hdata, hlen, hsz⟩]
  exact ⟨_, rfl⟩

theorem units_create {committed : Bool} (h : create data len sz committed = some es) : es.units = unitsOf data len sz := by
  obtain ⟨rfl, rfl, rfl, _⟩ := create_eq_some h
  rfl

end StringExp

end Compiler.Constfold
