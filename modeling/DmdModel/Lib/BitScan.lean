import Mathlib

-- The search for the first bit of a word from one of its ends, by halving the block of bits that it is in, and the
-- bits of a sequence in their order.

namespace BitScan

variable {w k i j p n s : Nat} {v v₀ m : BitVec w} {forward : Bool} {ret : Int} {b : Nat → Bool}

def IsFirst (forward : Bool) (v : BitVec w) (i : Nat) : Prop :=
  v.getLsbD i = true ∧ ∀ j, v.getLsbD j = true → if forward then i ≤ j else j ≤ i

-- The bits of `v` are in a block of 2 ^ k bits, and `ret` is the end of the block that the search starts from.
structure In (forward : Bool) (v : BitVec w) (k : Nat) (p : Nat) (ret : Int) : Prop where
  nonzero : v ≠ 0
  aligned : 2 ^ k ∣ p
  block   : ∀ i, v.getLsbD i = true → p ≤ i ∧ i < p + 2 ^ k
  ret     : ret = if forward then (p : Int) else p + 2 ^ k - 1

-- The search for the first bit of `v₀` has come to `v`.
def At (forward : Bool) (v₀ v : BitVec w) (k : Nat) (ret : Int) : Prop :=
  (∃ p, In forward v k p ret) ∧ ∀ i, IsFirst forward v i → IsFirst forward v₀ i

-- The halves of the blocks of 2 ^ (k + 1) bits that the search looks at first
def IsMask (forward : Bool) (m : BitVec w) (k : Nat) : Prop :=
  ∀ i < w, m.getLsbD i = decide (i / 2 ^ k % 2 = if forward then 0 else 1)

theorem exists_bit (h : v ≠ 0) : ∃ i < w, v.getLsbD i = true := by
  by_contra hnone
  refine h (BitVec.eq_of_getLsbD_eq fun i hi => ?_)
  refine Eq.trans ?_ BitVec.getLsbD_zero.symm
  rw [← Bool.not_eq_true]
  exact fun hbit => hnone ⟨i, hi, hbit⟩

theorem At.start (hv : v ≠ 0) (hw : w = 2 ^ k) : At forward v v k (if forward then 0 else 2 ^ k - 1) := by
  refine ⟨⟨0, hv, dvd_zero _, fun i hi => ⟨Nat.zero_le i, ?_⟩, ?_⟩, fun _ hi => hi⟩
  · rw [Nat.zero_add, ← hw]
    exact BitVec.lt_of_getLsbD hi
  · rw [Nat.cast_zero, Int.zero_add]

-- The half of its block that a bit is in
theorem half_eq (hp : 2 ^ (k + 1) ∣ p) (hlow : p ≤ i) (hhigh : i < p + 2 ^ (k + 1)) :
    i / 2 ^ k % 2 = if i < p + 2 ^ k then 0 else 1 := by
  obtain ⟨q, rfl⟩ := hp
  have hpow : 0 < 2 ^ k := Nat.two_pow_pos k
  obtain ⟨d, rfl⟩ := Nat.exists_eq_add_of_le hlow
  rw [Nat.pow_succ] at hhigh ⊢
  rw [Nat.mul_assoc, Nat.mul_add_div hpow, Nat.mul_add_mod]
  split_ifs with hd
  case pos => rw [Nat.div_eq_of_lt (by omega)]
  case neg => rw [Nat.div_eq_of_lt_le (k := 1) (by omega) (by omega)]

theorem IsMask.getLsbD_and (hm : IsMask forward m k) (hp : 2 ^ (k + 1) ∣ p)
    (hblock : v.getLsbD i = true → p ≤ i ∧ i < p + 2 ^ (k + 1)) :
    (v &&& m).getLsbD i = true ↔ v.getLsbD i = true ∧ (if forward then i < p + 2 ^ k else p + 2 ^ k ≤ i) := by
  rw [BitVec.getLsbD_and, Bool.and_eq_true]
  refine and_congr_right fun hi => ?_
  obtain ⟨hlow, hhigh⟩ := hblock hi
  rw [hm i (BitVec.lt_of_getLsbD hi), half_eq hp hlow hhigh]
  cases forward <;> split_ifs with h <;> simp_all

-- One step of the search
theorem At.step (h : At forward v₀ v (k + 1) ret) (hm : IsMask forward m k) :
    At forward v₀ (if v &&& m ≠ 0 then v &&& m else v) k
      (if v &&& m ≠ 0 then ret else ret + if forward then 2 ^ k else -2 ^ k) := by
  obtain ⟨⟨p, hne, hp, hblock, hret⟩, hfirst⟩ := h
  have hbit := fun i => hm.getLsbD_and hp (hblock i)
  have hdvd : 2 ^ k ∣ p := Nat.dvd_trans (Nat.pow_dvd_pow 2 k.le_succ) hp
  have hpow : (2 : Int) ^ (k + 1) = 2 ^ k + 2 ^ k := by rw [Int.pow_succ, mul_two]
  by_cases hx : v &&& m ≠ 0
  case pos =>
    rw [if_pos hx, if_pos hx]
    refine ⟨⟨if forward then p else p + 2 ^ k, hx, ?_, fun i hi => ?_, ?_⟩, fun i hi => hfirst i ⟨?_, fun j hj => ?_⟩⟩
    · cases forward
      case true => exact hdvd
      case false => exact Nat.dvd_add hdvd (Nat.dvd_refl _)
    · obtain ⟨hv, hhalf⟩ := (hbit i).mp hi
      have hin := hblock i hv
      rw [Nat.pow_succ] at hin
      cases forward <;> simp only [if_true, Bool.false_eq_true, if_false] at hhalf ⊢ <;> omega
    · rw [hret, hpow]
      cases forward
      case true => rfl
      case false =>
        simp only [Bool.false_eq_true, if_false]
        push_cast
        omega
    · exact ((hbit i).mp hi.1).1
    · -- A bit of the other half comes after the ones of this half.
      have hhalf := ((hbit i).mp hi.1).2
      have hall := hi.2 j
      by_cases hj' : (v &&& m).getLsbD j = true
      case pos => exact hall hj'
      case neg =>
        rw [hbit j] at hj'
        cases forward <;> simp only [if_true, Bool.false_eq_true, if_false] at hhalf hj' ⊢ <;> grind
  case neg =>
    rw [if_neg hx, if_neg hx]
    rw [not_not] at hx
    have hnone : ∀ i, v.getLsbD i = true → ¬(if forward then i < p + 2 ^ k else p + 2 ^ k ≤ i) := by
      intro i hi hhalf
      have hbit := (hbit i).mpr ⟨hi, hhalf⟩
      rw [hx] at hbit
      exact absurd (BitVec.getLsbD_zero.symm.trans hbit) (by decide)
    refine ⟨⟨if forward then p + 2 ^ k else p, hne, ?_, fun i hi => ?_, ?_⟩, hfirst⟩
    · cases forward
      case true => exact Nat.dvd_add hdvd (Nat.dvd_refl _)
      case false => exact hdvd
    · have hhalf := hnone i hi
      have hin := hblock i hi
      rw [Nat.pow_succ] at hin
      cases forward <;> simp only [if_true, Bool.false_eq_true, if_false] at hhalf ⊢ <;> omega
    · rw [hret, hpow]
      cases forward
      case true =>
        simp only [if_true]
        push_cast
        rfl
      case false =>
        simp only [Bool.false_eq_true, if_false]
        omega

-- The block of one bit
theorem At.isFirst (h : At forward v₀ v 0 ret) : ∃ i : Nat, ret = i ∧ IsFirst forward v₀ i := by
  obtain ⟨⟨p, hne, -, hblock, hret⟩, hfirst⟩ := h
  obtain ⟨i, -, hi⟩ := exists_bit hne
  have hin := hblock i hi
  obtain rfl : i = p := by omega
  refine ⟨i, ?_, hfirst i ⟨hi, fun j hj => ?_⟩⟩
  · cases forward <;> simp only [if_true, Bool.false_eq_true, if_false] at hret <;> omega
  · have hin := hblock j hj
    cases forward <;> simp only [if_true, Bool.false_eq_true, if_false] <;> omega

-- The next one of the bits from `s` on
def IsNext (b : Nat → Bool) (s i : Nat) : Prop :=
  s ≤ i ∧ b i = true ∧ ∀ j, s ≤ j → j < i → b j = false

-- The bits from `s` on that are below `n`
def indices (b : Nat → Bool) (s n : Nat) : List Nat :=
  (List.range' s (n - s)).filter b

theorem indices_of_none (h : ∀ j, s ≤ j → j < n → b j = false) : indices b s n = [] := by
  refine List.filter_eq_nil_iff.mpr fun j hj => ?_
  rw [List.mem_range'_1] at hj
  rw [h j hj.1 (by omega)]
  exact Bool.false_ne_true

theorem IsNext.indices_of_le (h : IsNext b s i) (hi : n ≤ i) : indices b s n = [] :=
  indices_of_none fun j hs hj => h.2.2 j hs (hj.trans_le hi)

theorem IsNext.indices_eq (h : IsNext b s i) (hi : i < n) : indices b s n = i :: indices b (i + 1) n := by
  obtain ⟨hs, hb, hnone⟩ := h
  have hlen : n - s = (i - s) + ((n - (i + 1)) + 1) := by omega
  have hskip : (List.range' s (i - s)).filter b = [] := indices_of_none hnone
  rw [indices, indices, hlen, ← List.range'_append_1, List.filter_append, hskip, List.nil_append,
    Nat.add_sub_of_le hs, List.range'_succ, List.filter_cons_of_pos hb]

theorem exists_next (h : ∃ i, s ≤ i ∧ b i = true) : ∃ i, IsNext b s i := by
  obtain ⟨hs, hb⟩ := Nat.find_spec h
  refine ⟨Nat.find h, hs, hb, fun j hj hlt => ?_⟩
  rw [← Bool.not_eq_true]
  exact fun hbj => Nat.find_min h hlt ⟨hj, hbj⟩

end BitScan
