import DmdModel.Lib.ByteMemory

-- The comparison of strings that the search for the case of a `switch` statement uses (`core.internal.array.comparison`).

namespace Runtime.Switch

open ByteCompare

-- `(a > b) - (a < b)`
def threeWay {α : Type} [LinearOrder α] (a b : α) : Int :=
  (if a > b then 1 else 0) - (if a < b then 1 else 0)

variable (ctfe : Bool)

-- The loop of `__cmp` over the elements of both arrays. It is done when it is over the last element of one of them.
@[grind =]
def compareElements {α : Type} [LinearOrder α] : List α → List α → Int
  | a :: lhs, b :: rhs => if threeWay a b ≠ 0 then threeWay a b else compareElements lhs rhs
  | lhs, rhs           => threeWay lhs.length rhs.length

-- `ctfe` is `__ctfe`: whether this is a call at compile time.
def dstrcmp (s1 s2 : List UInt8) : Int :=
  if ctfe then
    match firstDifference s1 s2 with
    | some (a, b) => if a > b then 1 else -1
    | none        => threeWay s1.length s2.length
  else
    let len := if s1.length ≤ s2.length then s1.length else s2.length
    let ret := memcmp s1 s2 len
    if ret ≠ 0 then ret else threeWay s1.length s2.length

-- The character types with their `__cmp`. It has to tell which of two strings is first in the order of their code units.
class CodeUnit (T : Type) extends LinearOrder T where
  cmp          : Bool → List T → List T → Int
  cmp_neg_iff  : ∀ ctfe (s t : List T), cmp ctfe s t < 0 ↔ s < t
  cmp_zero_iff : ∀ ctfe (s t : List T), cmp ctfe s t = 0 ↔ s = t

section

variable {α : Type} [LinearOrder α] {a b : α} {s t : List α}

theorem threeWay_neg_iff : threeWay a b < 0 ↔ a < b := by
  rcases lt_trichotomy a b with h | rfl | h
  case inl     => simp [threeWay, h, not_lt_of_gt h]
  case inr.inl => simp [threeWay]
  case inr.inr => simp [threeWay, h, not_lt_of_gt h]

theorem threeWay_zero_iff : threeWay a b = 0 ↔ a = b := by
  rcases lt_trichotomy a b with h | rfl | h
  case inl     => simp [threeWay, h, not_lt_of_gt h, ne_of_lt h]
  case inr.inl => simp [threeWay]
  case inr.inr => simp [threeWay, h, not_lt_of_gt h, ne_of_gt h]

-- What both ways to compare do: the first difference decides, and the lengths if there is none.
theorem compareElements_eq :
    compareElements s t = match firstDifference s t with
      | some (a, b) => threeWay a b
      | none        => threeWay s.length t.length := by
  induction s, t using firstDifference.induct
  case case1 s b t ih =>
    rw [compareElements, if_neg (by simp [threeWay_zero_iff]), ih, firstDifference, if_pos rfl]
    cases firstDifference s t
    case none   => simp [threeWay]
    case some p => rfl
  case case2 a s b t hne => simp [compareElements, firstDifference, hne, threeWay_zero_iff]
  case case3 s t hcons =>
    cases s
    case nil => simp [compareElements, firstDifference]
    case cons a s =>
      cases t
      case nil       => simp [compareElements, firstDifference]
      case cons b t => exact (hcons a s b t rfl rfl).elim

theorem compareElements_neg_iff : compareElements s t < 0 ↔ s < t := by
  rw [compareElements_eq, lt_iff_firstDifference]
  cases firstDifference s t
  case none   => exact threeWay_neg_iff
  case some p => exact threeWay_neg_iff

theorem compareElements_zero_iff : compareElements s t = 0 ↔ s = t := by
  induction s, t using firstDifference.induct
  case case1 s b t ih => simp [compareElements, threeWay_zero_iff, ih]
  case case2 a s b t hne => simp [compareElements, threeWay_zero_iff, hne]
  case case3 s t hcons =>
    cases s
    case nil =>
      rw [compareElements, threeWay_zero_iff, eq_comm, List.length_nil, List.length_eq_zero_iff, eq_comm]
      intro a s b t hnil
      cases hnil
    case cons a s =>
      cases t
      case nil       => simp [compareElements, threeWay_zero_iff]
      case cons b t => exact (hcons a s b t rfl rfl).elim

end

-- Both branches of `dstrcmp` decide by the same pair of bytes as the loop over the elements.
theorem dstrcmp_sign {s t : List UInt8} :
    (dstrcmp ctfe s t < 0 ↔ compareElements s t < 0) ∧ (dstrcmp ctfe s t = 0 ↔ compareElements s t = 0) := by
  have hmemcmp := memcmp_common (s := s) (t := t)
  rw [compareElements_eq, dstrcmp]
  cases hdiff : firstDifference s t
  case none =>
    rw [hdiff] at hmemcmp
    cases ctfe
    case true  => simp
    case false => simp [← min_def, hmemcmp]
  case some p =>
    obtain ⟨a, b⟩ := p
    have hne := firstDifference_ne hdiff
    rw [hdiff] at hmemcmp
    have hsub : (a.toNat : Int) - b.toNat ≠ 0 := by
      intro hzero
      exact hne (UInt8.toNat_inj.mp (by omega))
    dsimp only
    rw [threeWay_neg_iff, threeWay_zero_iff]
    cases ctfe
    case true =>
      rcases lt_or_gt_of_ne hne with h | h
      case inl => simp [h, not_lt_of_gt h, hne]
      case inr => simp [h, not_lt_of_gt h, hne]
    case false =>
      simp only [← min_def, hmemcmp, Bool.false_eq_true, if_false, ne_eq, hsub, not_false_eq_true, if_true, hne,
        UInt8.lt_iff_toNat_lt, and_true]
      omega

instance : CodeUnit UInt8 where
  cmp                := dstrcmp
  cmp_neg_iff c _ _  := (dstrcmp_sign c).left.trans compareElements_neg_iff
  cmp_zero_iff c _ _ := (dstrcmp_sign c).right.trans compareElements_zero_iff

instance : CodeUnit UInt16 where
  cmp _              := compareElements
  cmp_neg_iff _ _ _  := compareElements_neg_iff
  cmp_zero_iff _ _ _ := compareElements_zero_iff

instance : CodeUnit UInt32 where
  cmp _              := compareElements
  cmp_neg_iff _ _ _  := compareElements_neg_iff
  cmp_zero_iff _ _ _ := compareElements_zero_iff

end Runtime.Switch

-- `core.internal.switch_`: the search for the case of a `switch` statement on strings.

namespace Runtime.Switch

variable {T : Type} [CodeUnit T] (ctfe : Bool)

-- `int.min`
def intMin : Int :=
  -2 ^ 31

-- `cast(int) i`
def castInt (i : Nat) : Int :=
  (i : Int).bmod (2 ^ 32)

-- The `r` of both searches. It is never 0 if the lengths are different.
def order (condition label : List T) : Int :=
  if condition.length = label.length
  then CodeUnit.cmp ctfe condition label
  else ((if condition.length > label.length then 1 else 0) <<< 1) - 1

-- A label that is read outside of the table ends the search without a result.
def switchSearch.loop (cases : List (List T)) (condition : List T) (low high : Nat) : Option Int :=
  let mid := (low + high) / 2
  match cases[mid]? with
  | none => none
  | some label =>
    let r := order ctfe condition label
    if r = 0 then some (castInt mid)
    else if 0 < r then
      if mid + 1 < high then loop cases condition (mid + 1) high else some (-1)
    else
      if low < mid then loop cases condition low mid else some (-1)
termination_by high - low

def switchSearch (cases : List (List T)) (condition : List T) : Option Int :=
  switchSearch.loop ctfe cases condition 0 cases.length

-- The first four cases are instances of the template: each of them has its own list of labels.
def switch (caseLabels : List (List T)) (condition : List T) : Option Int :=
  if caseLabels.length = 0 then
    some intMin
  else if caseLabels.length = 1 then do
    let label ← caseLabels[0]?
    some <| if CodeUnit.cmp ctfe condition label = 0 then 0 else intMin
  else if caseLabels.length < 7 then
    let mid := caseLabels.length / 2
    match caseLabels[mid]? with
    | none => none
    | some label =>
      let r := order ctfe condition label
      if r = 0 then some mid
      else if r < 0 then switch (caseLabels.take mid) condition
      else (switch (caseLabels.drop (mid + 1)) condition).map (· + mid + 1)
  else
    switchSearch ctfe caseLabels condition
termination_by caseLabels.length
decreasing_by
  · rw [List.length_take]
    omega
  · rw [List.length_drop]
    omega

-- The order of the labels that the compiler passes: by their lengths, and by their code units for the same length.
def Before (s t : List T) : Prop :=
  List.Shortlex (· < ·) s t

-- The labels of a `switch` statement. The table of the labels is static data, with the pointer and the length of each
-- label. The compiler limits the size of such data to `int.max` bytes.
structure CaseLabels (T : Type) [CodeUnit T] where
  labels   : List (List T)
  distinct : labels.Nodup
  sorted   : labels.Pairwise (fun s t => s = t ∨ Before s t)
  fits     : labels.length * 16 ≤ 2 ^ 31 - 1

-- The result is the index of the label, or negative if there is none.
def Finds (labels : List (List T)) (condition : List T) (r : Int) : Prop :=
  (∀ i : Nat, r = i ↔ labels[i]? = some condition) ∧ (condition ∉ labels → r < 0)

end Runtime.Switch
