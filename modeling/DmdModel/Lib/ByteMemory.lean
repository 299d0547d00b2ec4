import Mathlib

-- Numbers in a memory of bytes, the lowest byte first.

namespace ByteMemory

def read (m : Nat → UInt8) (p : Nat) : (n : Nat) → Nat
  | 0     => 0
  | n + 1 => read m p n + 256 ^ n * (m (p + n)).toNat

def write (m : Nat → UInt8) (p n v : Nat) : Nat → UInt8 :=
  fun q => if p ≤ q ∧ q < p + n then UInt8.ofNat (v / 256 ^ (q - p)) else m q

-- The bytes of a number
def bytes (n v : Nat) : List UInt8 :=
  (List.range n).map fun q => UInt8.ofNat (v / 256 ^ q)

variable {m m' : Nat → UInt8} {p p' q n n' v : Nat}

theorem read_lt : read m p n < 256 ^ n := by
  induction n
  case zero => exact Nat.one_pos
  case succ n ih =>
    have hb : (m (p + n)).toNat + 1 ≤ 256 := (m (p + n)).toNat_lt
    calc
      read m p (n + 1)
      _ < 256 ^ n + 256 ^ n * (m (p + n)).toNat := Nat.add_lt_add_right ih _
      _ = 256 ^ n * ((m (p + n)).toNat + 1)     := by ring
      _ ≤ 256 ^ n * 256                         := Nat.mul_le_mul_left _ hb
      _ = 256 ^ (n + 1)                         := (pow_succ 256 n).symm

theorem read_congr (h : ∀ q, p ≤ q → q < p + n → m q = m' q) : read m p n = read m' p n := by
  induction n
  case zero => rfl
  case succ n ih =>
    rw [read, read, ih fun q hp hq => h q hp (by omega), h (p + n) (by omega) (by omega)]

theorem read_shift (h : ∀ q, m (p + q) = m' (p' + q)) : read m p n = read m' p' n := by
  induction n
  case zero => rfl
  case succ n ih => rw [read, read, ih, h]

theorem write_other (h : q < p ∨ p + n ≤ q) : write m p n v q = m q :=
  if_neg (by omega)

theorem read_write_initial (h : n ≤ n') : read (write m p n' v) p n = v % 256 ^ n := by
  induction n
  case zero => rw [read, pow_zero, Nat.mod_one]
  case succ n ih =>
    rw [read, ih (by omega), write, if_pos (by omega), UInt8.toNat_ofNat', Nat.add_sub_cancel_left]
    exact Nat.mod_pow_succ.symm

-- What is written is read again.
theorem read_write (h : v < 256 ^ n) : read (write m p n v) p n = v := by
  rw [read_write_initial le_rfl, Nat.mod_eq_of_lt h]

-- What is written elsewhere does not change what is read.
theorem read_write_other (h : p + n ≤ p' ∨ p' + n' ≤ p) : read (write m p' n' v) p n = read m p n :=
  read_congr fun _ _ _ => write_other (by omega)

theorem length_bytes : (bytes n v).length = n := by
  rw [bytes, List.length_map, List.length_range]

theorem getElem?_bytes (h : q < n) : (bytes n v)[q]? = some (UInt8.ofNat (v / 256 ^ q)) := by
  rw [bytes, List.getElem?_map, List.getElem?_range h, Option.map_some]

theorem read_bytes : read (fun q => (bytes n v).getD q 0) 0 n = v % 256 ^ n := by
  rw [← read_write_initial (m := fun _ => 0) (p := 0) (n := n) (v := v) le_rfl]
  refine read_congr fun q _ hq => ?_
  rw [List.getD_eq_getElem?_getD, getElem?_bytes (by omega), write, if_pos (by omega), Nat.sub_zero, Option.getD_some]

-- Numbers are the same only if all their bytes are.
theorem read_inj (h : read m p n = read m' p' n) : ∀ q < n, m (p + q) = m' (p' + q) := by
  induction n
  case zero => exact fun q hq => absurd hq (Nat.not_lt_zero q)
  case succ n ih =>
    have hpos : 0 < 256 ^ n := Nat.pow_pos (by decide)
    rw [read, read] at h
    have hlow : read m p n = read m' p' n := by
      have hmod := congrArg (· % 256 ^ n) h
      simpa only [Nat.add_mul_mod_self_left, Nat.mod_eq_of_lt read_lt] using hmod
    have hhigh : m (p + n) = m' (p' + n) := by
      rw [hlow, Nat.add_left_cancel_iff, Nat.mul_left_cancel_iff hpos] at h
      exact UInt8.toNat_inj.mp h
    intro q hq
    rcases Nat.lt_succ_iff_lt_or_eq.mp hq with hlt | rfl
    case inl => exact ih hlow q hlt
    case inr => exact hhigh

end ByteMemory

-- Memories together with the definition that wrote each cell last.
namespace LastWriter

variable {ι β δ : Type*}

structure State (ι β δ : Type*) where
  mem  : ι → β
  last : ι → Option δ

-- A definition writes some cells, and leaves all others as they are.
structure Writes (d : δ) (cells : Set ι) (s s' : State ι β δ) : Prop where
  inside  : ∀ c ∈ cells, s'.last c = some d
  outside : ∀ c, c ∉ cells → s'.mem c = s.mem c ∧ s'.last c = s.last c

-- The states that are reached by definitions, one after the other.
inductive Reaches (step : State ι β δ → δ → State ι β δ → Prop) : State ι β δ → Prop
  | start {mem : ι → β} : Reaches step { mem, last := fun _ => none }
  | next {s s' : State ι β δ} {d : δ} : Reaches step s → step s d s' → Reaches step s'

end LastWriter

-- Comparison of sequences, unit by unit from the front, in the way of the C library.

namespace ByteCompare

instance instLinearOrderUInt8 : LinearOrder UInt8 where
  le_refl               := UInt8.le_refl
  le_trans _ _ _        := UInt8.le_trans
  le_antisymm _ _       := UInt8.le_antisymm
  le_total              := UInt8.le_total
  lt_iff_le_not_ge _ _  := Std.lt_iff_le_and_not_ge
  toDecidableLE         := inferInstance

instance instLinearOrderUInt16 : LinearOrder UInt16 where
  le_refl               := UInt16.le_refl
  le_trans _ _ _        := UInt16.le_trans
  le_antisymm _ _       := UInt16.le_antisymm
  le_total              := UInt16.le_total
  lt_iff_le_not_ge _ _  := Std.lt_iff_le_and_not_ge
  toDecidableLE         := inferInstance

instance instLinearOrderUInt32 : LinearOrder UInt32 where
  le_refl               := UInt32.le_refl
  le_trans _ _ _        := UInt32.le_trans
  le_antisymm _ _       := UInt32.le_antisymm
  le_total              := UInt32.le_total
  lt_iff_le_not_ge _ _  := Std.lt_iff_le_and_not_ge
  toDecidableLE         := inferInstance

variable {α : Type*} [LinearOrder α] {s t : List α} {n : Nat}

-- The first units of two sequences that differ. There are none if one of the sequences is an initial part of the other.
@[grind =]
def firstDifference : List α → List α → Option (α × α)
  | a :: s, b :: t => if a = b then firstDifference s t else some (a, b)
  | _, _           => none

-- The difference of the first bytes that differ, among the first n.
@[grind =]
def memcmp : List UInt8 → List UInt8 → Nat → Int
  | a :: s, b :: t, n + 1 => if a = b then memcmp s t n else (a.toNat : Int) - b.toNat
  | _, _, _               => 0

-- The lexicographic order is decided by the first units that differ, and by the lengths if there are none.
theorem lt_iff_firstDifference :
    s < t ↔ match firstDifference s t with
      | some (a, b) => a < b
      | none        => s.length < t.length := by
  induction s, t using firstDifference.induct
  case case1 a s t ih => rw [firstDifference, if_pos rfl, List.cons_lt_cons_self, ih]; simp
  case case2 a s b t hne => simp [firstDifference, hne, List.cons_lt_cons_iff]
  case case3 s t hcons =>
    cases s
    case nil => cases t <;> simp [firstDifference]
    case cons a s =>
      cases t
      case nil => simp [firstDifference]
      case cons b t => exact (hcons a s b t rfl rfl).elim

theorem firstDifference_ne {a b : α} (h : firstDifference s t = some (a, b)) : a ≠ b := by
  induction s, t using firstDifference.induct
  case case1 s b t ih =>
    rw [firstDifference, if_pos rfl] at h
    exact ih h
  case case2 a s b t hne =>
    rw [firstDifference, if_neg hne, Option.some.injEq, Prod.mk.injEq] at h
    rwa [← h.left, ← h.right]
  case case3 s t hcons =>
    rw [firstDifference] at h
    case x_4 => exact hcons
    cases h

-- On the common part of both arrays, the comparison of bytes is decided by the first difference too.
theorem memcmp_common {s t : List UInt8} :
    memcmp s t (min s.length t.length) = match firstDifference s t with
      | some (a, b) => (a.toNat : Int) - b.toNat
      | none        => 0 := by
  induction s, t using firstDifference.induct
  case case1 s b t ih =>
    rw [List.length_cons, List.length_cons, Nat.succ_min_succ, memcmp, if_pos rfl, ih, firstDifference, if_pos rfl]
  case case2 a s b t hne =>
    rw [List.length_cons, List.length_cons, Nat.succ_min_succ, memcmp, if_neg hne, firstDifference, if_neg hne]
  case case3 s t hcons =>
    cases s
    case nil => simp [memcmp, firstDifference]
    case cons a s =>
      cases t
      case nil      => simp [memcmp, firstDifference]
      case cons b t => exact (hcons a s b t rfl rfl).elim

theorem memcmp_self {s : List UInt8} : memcmp s s n = 0 := by
  induction s generalizing n
  case nil => rfl
  case cons a s ih =>
    cases n
    case zero   => rfl
    case succ n => rw [memcmp, if_pos rfl, ih]

theorem memcmp_eq_zero_iff {s t : List UInt8} (hs : s.length = n) (ht : t.length = n) : memcmp s t n = 0 ↔ s = t := by
  induction n generalizing s t
  case zero => rw [List.length_eq_zero_iff.mp hs, List.length_eq_zero_iff.mp ht]; exact iff_of_true rfl rfl
  case succ n ih =>
    have ⟨a, s', hs'⟩ := List.exists_cons_of_length_eq_add_one hs
    have ⟨b, t', ht'⟩ := List.exists_cons_of_length_eq_add_one ht
    subst hs' ht'
    rw [memcmp, List.cons.injEq]
    split_ifs with hab
    case pos => rw [ih (Nat.succ.inj hs) (Nat.succ.inj ht), and_iff_right hab]
    case neg =>
      have hne : a.toNat ≠ b.toNat := fun h => hab (UInt8.toNat_inj.mp h)
      exact iff_of_false (by omega) fun h => hab h.1

end ByteCompare
