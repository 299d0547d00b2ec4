import Mathlib

-- Sequences of bits in the words of a memory: bit `i` is bit `i % w` of word `i / w`.

namespace WordBits

variable {w : Nat}

def bit (data : Nat → BitVec w) (i : Nat) : Bool :=
  (data (i / w)).getLsbD (i % w)

-- The number of words for some bits.
def words (w n : Nat) : Nat :=
  (n + w - 1) / w

variable {data data' : Nat → BitVec w} {x : BitVec w} {i k n : Nat}

theorem bit_mul_add (hi : i < w) : bit data (k * w + i) = (data k).getLsbD i := by
  rw [bit, Nat.mul_comm, Nat.mul_add_div (Nat.zero_lt_of_lt hi), Nat.div_eq_of_lt hi,
    Nat.mul_add_mod, Nat.mod_eq_of_lt hi, Nat.add_zero]

theorem bit_update : bit (Function.update data k x) i =
    if i / w = k then x.getLsbD (i % w) else bit data i := by
  rw [bit, Function.update_apply]
  split <;> rfl

theorem bit_zero : bit (fun _ => (0 : BitVec w)) i = false :=
  BitVec.getLsbD_zero

theorem bit_ite {p : Nat → Prop} [DecidablePred p] :
    bit (fun k => if p k then data k else data' k) i = if p (i / w) then bit data i else bit data' i := by
  rw [bit]
  split <;> rfl

-- Memories with the same bits are the same.
theorem ext (h : ∀ i, bit data i = bit data' i) : data = data' := by
  funext k
  refine BitVec.eq_of_getLsbD_eq fun i hi => ?_
  rw [← bit_mul_add hi, ← bit_mul_add hi, h]

-- The words up to `n` are the same if their bits are.
theorem ext_lt (h : ∀ i < n * w, bit data i = bit data' i) (hk : k < n) : data k = data' k := by
  refine BitVec.eq_of_getLsbD_eq fun i hi => ?_
  rw [← bit_mul_add hi, ← bit_mul_add hi]
  refine h _ (Nat.lt_of_lt_of_le (Nat.add_lt_add_left hi _) ?_)
  rw [← Nat.succ_mul]
  exact Nat.mul_le_mul_right w hk

theorem getLsbD_one_shl (hk : k < w) : (1#w <<< k).getLsbD i = decide (i = k) := by
  rw [← BitVec.twoPow, BitVec.getLsbD_twoPow]
  simp [hk, eq_comm]

-- The bits below `k`.
theorem getLsbD_one_shl_sub_one (hk : k < w) : (1#w <<< k - 1#w).getLsbD i = decide (i < k) := by
  have hpow : 2 ^ k < 2 ^ w := Nat.pow_lt_pow_right (by decide) hk
  have hw : 1 < 2 ^ w := Nat.one_lt_two_pow (by omega)
  have hpos : 0 < 2 ^ k := Nat.two_pow_pos k
  have hn : (1#w <<< k - 1#w).toNat = 2 ^ k - 1 := by
    rw [BitVec.toNat_sub, BitVec.toNat_shiftLeft, BitVec.toNat_ofNat, Nat.mod_eq_of_lt hw, Nat.shiftLeft_eq,
      Nat.one_mul, Nat.mod_eq_of_lt hpow, show 2 ^ w - 1 + 2 ^ k = (2 ^ k - 1) + 2 ^ w by omega,
      Nat.add_mod_right, Nat.mod_eq_of_lt (by omega)]
  rw [BitVec.getLsbD, hn, Nat.testBit_two_pow_sub_one]

-- The bits up to `k`. For the last bit of a word the shift leaves 0.
theorem getLsbD_two_shl_sub_one (hk : k < w) (hi : i < w) :
    (2#w <<< k - 1#w).getLsbD i = decide (i ≤ k) := by
  have hpow : 2 ^ (k + 1) ≤ 2 ^ w := Nat.pow_le_pow_right Nat.two_pos hk
  have hw : 1 < 2 ^ w := Nat.one_lt_two_pow (by omega)
  have hx : (2#w <<< k).toNat = 2 ^ (k + 1) % 2 ^ w := by
    rw [BitVec.toNat_shiftLeft, BitVec.toNat_ofNat, Nat.shiftLeft_eq, Nat.mod_mul_mod, ← pow_succ']
  have hn : (2#w <<< k - 1#w).toNat = 2 ^ (k + 1) - 1 := by
    rw [BitVec.toNat_sub, hx, BitVec.toNat_ofNat, Nat.mod_eq_of_lt hw]
    obtain hlt | he := Nat.lt_or_eq_of_le hpow
    · rw [Nat.mod_eq_of_lt hlt]
      have : 0 < 2 ^ (k + 1) := Nat.two_pow_pos _
      rw [show 2 ^ w - 1 + 2 ^ (k + 1) = (2 ^ (k + 1) - 1) + 2 ^ w by omega, Nat.add_mod_right,
        Nat.mod_eq_of_lt (by omega)]
    · rw [he, Nat.mod_self, Nat.add_zero, Nat.mod_eq_of_lt (by omega)]
  rw [BitVec.getLsbD, hn, Nat.testBit_two_pow_sub_one]
  exact decide_eq_decide.mpr Nat.lt_succ_iff

-- The bits from `k` on.
theorem getLsbD_not_zero_shl (hi : i < w) : (~~~(0#w) <<< k).getLsbD i = decide (k ≤ i) := by
  rw [BitVec.getLsbD_shiftLeft, BitVec.getLsbD_not, BitVec.getLsbD_zero]
  by_cases hk : k ≤ i
  · simp [hi, hk, show i - k < w by omega]
  · simp [hi, hk]

theorem getLsbD_neg_one_shl (hk : k < w) (hi : i < w) : (-(1#w <<< k)).getLsbD i = decide (k ≤ i) := by
  rw [← BitVec.not_not (b := -(1#w <<< k)), BitVec.not_neg, BitVec.getLsbD_not, getLsbD_one_shl_sub_one hk,
    decide_eq_true hi, Bool.true_and, ← decide_not]
  exact decide_eq_decide.mpr not_lt

end WordBits

-- The lowest bits of a bit vector, and arithmetic modulo a power of two in a wider vector.
namespace LowBits

variable {w k : Nat} {x y : BitVec w}

def low (k : Nat) (x : BitVec w) : BitVec w :=
  (x.setWidth k).setWidth w

theorem toNat_low : (low k x).toNat = x.toNat % 2 ^ k := by
  rw [low, BitVec.toNat_setWidth, BitVec.toNat_setWidth]
  exact Nat.mod_eq_of_lt ((Nat.mod_le _ _).trans_lt x.isLt)

theorem low_eq_iff : low k x = low k y ↔ x.toNat % 2 ^ k = y.toNat % 2 ^ k := by
  rw [← BitVec.toNat_inj, toNat_low, toNat_low]

@[simp]
theorem low_low : low k (low k x) = low k x := by
  rw [low_eq_iff, toNat_low, Nat.mod_mod]

theorem low_of_le (h : w ≤ k) : low k x = x := by
  rw [← BitVec.toNat_inj, toNat_low]
  exact Nat.mod_eq_of_lt (x.isLt.trans_le (Nat.pow_le_pow_right Nat.two_pos h))

-- What is computed modulo 2 ^ w agrees with what is computed modulo 2 ^ k.
theorem mod_mod (h : k ≤ w) (i : Nat) : i % 2 ^ w % 2 ^ k = i % 2 ^ k :=
  Nat.mod_mod_of_dvd i (Nat.pow_dvd_pow 2 h)

-- Operations that depend on the lowest bits only.
theorem low_congr₂ {f : BitVec w → BitVec w → BitVec w} {g : Nat → Nat → Nat}
    (hf : ∀ x y, (f x y).toNat = g x.toNat y.toNat % 2 ^ w)
    (hg : ∀ m i j, g (i % m) (j % m) % m = g i j % m) {x y x' y' : BitVec w}
    (hx : low k x = low k x') (hy : low k y = low k y') : low k (f x y) = low k (f x' y') := by
  by_cases h : k ≤ w
  case neg =>
    have hle := Nat.le_of_lt (Nat.lt_of_not_le h)
    rw [low_of_le hle, low_of_le hle] at hx hy
    rw [hx, hy]
  case pos =>
    rw [low_eq_iff] at hx hy ⊢
    rw [hf, hf, mod_mod h, mod_mod h, ← hg, hx, hy, hg]

theorem low_add_congr {x y x' y' : BitVec w} (hx : low k x = low k x') (hy : low k y = low k y') :
    low k (x + y) = low k (x' + y') :=
  low_congr₂ BitVec.toNat_add (fun _ _ _ => (Nat.add_mod _ _ _).symm) hx hy

theorem low_mul_congr {x y x' y' : BitVec w} (hx : low k x = low k x') (hy : low k y = low k y') :
    low k (x * y) = low k (x' * y') :=
  low_congr₂ BitVec.toNat_mul (fun _ _ _ => (Nat.mul_mod _ _ _).symm) hx hy

theorem low_neg_congr {x x' : BitVec w} (hx : low k x = low k x') : low k (-x) = low k (-x') := by
  rw [neg_eq_neg_one_mul, neg_eq_neg_one_mul x']
  exact low_mul_congr rfl hx

@[simp]
theorem low_add_left : low k (low k x + y) = low k (x + y) :=
  low_add_congr low_low rfl

@[simp]
theorem low_add_right : low k (x + low k y) = low k (x + y) :=
  low_add_congr rfl low_low

@[simp]
theorem low_mul_left : low k (low k x * y) = low k (x * y) :=
  low_mul_congr low_low rfl

@[simp]
theorem low_mul_right : low k (x * low k y) = low k (x * y) :=
  low_mul_congr rfl low_low

@[simp]
theorem low_neg : low k (-low k x) = low k (-x) :=
  low_neg_congr low_low

@[simp]
theorem low_sub_left : low k (low k x - y) = low k (x - y) := by
  rw [sub_eq_add_neg, sub_eq_add_neg, low_add_left]

@[simp]
theorem low_sub_right : low k (x - low k y) = low k (x - y) := by
  rw [sub_eq_add_neg, sub_eq_add_neg]
  exact low_add_congr rfl low_neg

@[simp]
theorem low_not : low k (~~~low k x) = low k (~~~x) := by
  rw [BitVec.not_eq_neg_add, BitVec.not_eq_neg_add, sub_eq_add_neg, sub_eq_add_neg]
  exact low_add_congr low_neg rfl

@[simp]
theorem low_shiftLeft {i : Nat} : low k (low k x <<< i) = low k (x <<< i) := by
  rw [BitVec.shiftLeft_eq_mul_twoPow, BitVec.shiftLeft_eq_mul_twoPow, low_mul_left]

end LowBits
