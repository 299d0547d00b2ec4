import Mathlib

-- Numbers in groups of seven bits, the lowest first, each of them in a byte whose highest bit tells that there are
-- more. A number has many encodings, as the last groups can be zeros or copies of the sign.
structure Leb128 where
  more : List (BitVec 7)
  last : BitVec 7
  deriving DecidableEq

namespace Leb128

variable {e : Leb128} {g : BitVec 7} {gs : List (BitVec 7)}

def size (e : Leb128) : Nat :=
  e.more.length + 1

def bytes (e : Leb128) : List (BitVec 8) :=
  e.more.map (fun g => 0x80#8 ||| g.setWidth 8) ++ [e.last.setWidth 8]

def unsigned (e : Leb128) : Nat :=
  e.more.foldr (fun g n => g.toNat + 128 * n) e.last.toNat

-- The highest bit of the last group is the sign.
def signed (e : Leb128) : Int :=
  if e.last.toNat < 64 then e.unsigned else e.unsigned - (2 ^ (7 * e.size) : Nat)

theorem length_bytes : e.bytes.length = e.size := by
  rw [bytes, List.length_append, List.length_map]
  rfl

theorem unsigned_nil : unsigned ⟨[], g⟩ = g.toNat :=
  rfl

theorem unsigned_cons {last : BitVec 7} : unsigned ⟨g :: gs, last⟩ = g.toNat + 128 * unsigned ⟨gs, last⟩ :=
  rfl

theorem size_cons {last : BitVec 7} : size ⟨g :: gs, last⟩ = size ⟨gs, last⟩ + 1 :=
  rfl

theorem unsigned_lt : e.unsigned < 2 ^ (7 * e.size) := by
  obtain ⟨more, last⟩ := e
  induction more
  case nil => exact last.isLt
  case cons g gs hi =>
    have hg := g.isLt
    have hpow : 2 ^ (7 * size ⟨g :: gs, last⟩) = 2 ^ (7 * size ⟨gs, last⟩) * 2 ^ 7 := by
      rw [size_cons, Nat.mul_succ, Nat.pow_add]
    rw [unsigned_cons, hpow]
    omega

theorem size_pos : 0 < e.size :=
  Nat.succ_pos _

section bits

variable {j w : Nat}

-- The bits in the groups
def bit (e : Leb128) (j : Nat) : Bool :=
  ((e.more ++ [e.last]).getD (j / 7) 0).getLsbD (j % 7)

theorem bit_cons {last : BitVec 7} : bit ⟨g :: gs, last⟩ j = if j < 7 then g.getLsbD j else bit ⟨gs, last⟩ (j - 7) := by
  rw [bit]
  split_ifs with hj
  case pos =>
    rw [Nat.div_eq_of_lt hj, Nat.mod_eq_of_lt hj]
    rfl
  case neg =>
    obtain ⟨d, rfl⟩ := Nat.exists_eq_add_of_le (not_lt.mp hj)
    rw [Nat.add_sub_cancel_left, Nat.add_mod_left, Nat.add_div_left d (by decide)]
    rfl

theorem bit_of_le (h : 7 * e.size ≤ j) : e.bit j = false := by
  have hlen : (e.more ++ [e.last]).length ≤ j / 7 := by
    rw [List.length_append, List.length_singleton]
    exact (Nat.le_div_iff_mul_le (by decide)).mpr (by rwa [Nat.mul_comm])
  rw [bit, List.getD_eq_default _ _ hlen]
  exact BitVec.getLsbD_zero

theorem testBit_unsigned : e.unsigned.testBit j = e.bit j := by
  obtain ⟨more, last⟩ := e
  induction more generalizing j
  case nil =>
    by_cases hj : j < 7
    case pos =>
      rw [bit, Nat.div_eq_of_lt hj, Nat.mod_eq_of_lt hj]
      rfl
    case neg =>
      have hsize : 7 * size ⟨[], last⟩ ≤ j := not_lt.mp hj
      rw [bit_of_le hsize]
      exact BitVec.getLsbD_of_ge last j (not_lt.mp hj)
  case cons g gs ih =>
    have hg : g.toNat < 2 ^ 7 := g.isLt
    rw [unsigned_cons, Nat.add_comm, bit_cons, ← ih]
    exact Nat.testBit_two_pow_mul_add _ hg j

theorem getLsbD_unsigned : (BitVec.ofNat w e.unsigned).getLsbD j = (decide (j < w) && e.bit j) := by
  rw [BitVec.getLsbD_ofNat, testBit_unsigned]

theorem negative_iff : e.last.getLsbD 6 = true ↔ ¬e.last.toNat < 64 := by
  generalize e.last = g
  revert g
  decide

-- The bits after the groups are copies of the sign.
theorem getLsbD_signed : (BitVec.ofInt w e.signed).getLsbD j =
    (decide (j < w) && if j < 7 * e.size then e.bit j else e.last.getLsbD 6) := by
  rw [signed]
  by_cases hlast : e.last.toNat < 64
  case pos =>
    have hsign : e.last.getLsbD 6 = false := Bool.not_eq_true _ ▸ mt (negative_iff).mp (not_not_intro hlast)
    rw [if_pos hlast, BitVec.ofInt_natCast, getLsbD_unsigned, hsign]
    split_ifs with hj
    case pos => rfl
    case neg => rw [bit_of_le (not_lt.mp hj)]
  case neg =>
    have hlt := @unsigned_lt e
    have hneg : (e.unsigned : Int) - (2 ^ (7 * e.size) : Nat) = Int.negSucc (2 ^ (7 * e.size) - (e.unsigned + 1)) := by
      omega
    rw [if_neg hlast, hneg, BitVec.ofInt_negSucc_eq_not_ofNat, BitVec.getLsbD_not, BitVec.getLsbD_ofNat,
      Nat.testBit_two_pow_sub_succ hlt, testBit_unsigned, (negative_iff).mpr hlast]
    by_cases hw : j < w <;> by_cases hj : j < 7 * e.size <;> simp [hw, hj]

theorem signed_nil : signed ⟨[], g⟩ = g.toInt := by
  revert g
  decide

theorem signed_cons {last : BitVec 7} : signed ⟨g :: gs, last⟩ = g.toNat + 128 * signed ⟨gs, last⟩ := by
  rw [signed, signed, unsigned_cons, size_cons]
  split_ifs
  case pos =>
    push_cast
    rfl
  case neg =>
    rw [Nat.mul_succ, Nat.pow_add]
    push_cast
    omega

end bits

end Leb128
