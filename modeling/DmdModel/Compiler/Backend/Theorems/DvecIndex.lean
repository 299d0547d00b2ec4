import DmdModel.Compiler.Backend.Theorems.DvecBits

-- The search for the next bit of a vector finds the next member of its set.

namespace Compiler.Backend.Dvec

open WordBits

variable {vec : Block} {s : BitSet} {b b' i j k : Nat} {starv : Word} {m : Memory} {v : Addr}

-- The lowest bit of the word that is set. Its number does not overflow, so that no number before it does.
theorem shiftOut_eq (hne : starv ≠ 0) (hlt : ∀ j, starv.getLsbD j → b + j < 2 ^ 64) :
    ∃ k, Memory.shiftOut starv b = (true, b + k) ∧ starv.getLsbD k ∧ ∀ j < k, ¬ starv.getLsbD j := by
  induction starv, b using Memory.shiftOut.induct
  case case1 => exact (hne rfl).elim
  case case2 starv b _ hbit =>
    rw [Memory.shiftOut, dif_neg hne, if_pos hbit]
    exact ⟨0, rfl, hbit, fun j hj => absurd hj j.not_lt_zero⟩
  case case3 starv b _ hbit ih =>
    have hshift (j : Nat) : (starv >>> 1).getLsbD j = starv.getLsbD (j + 1) := by
      rw [BitVec.getLsbD_ushiftRight, Nat.add_comm]
    have hexists : ∃ j, starv.getLsbD j := by
      by_contra hall
      push Not at hall
      exact hne (BitVec.eq_of_getLsbD_eq fun j _ => by simpa using hall j)
    have ⟨j, hj⟩ := hexists
    cases j
    case zero => exact (hbit hj).elim
    case succ j =>
      have hb : (b + 1) % 2 ^ 64 = b + 1 := Nat.mod_eq_of_lt (by have := hlt _ hj; omega)
      have hshiftne : starv >>> 1 ≠ 0 := by
        intro hzero
        rw [← hshift, hzero] at hj
        simp at hj
      rw [Memory.shiftOut, dif_neg hne, if_neg hbit]
      rw [hb] at ih ⊢
      have ⟨k, hk, hset, hlow⟩ := ih hshiftne fun j hj => by
        rw [hshift] at hj
        have := hlt _ hj
        omega
      refine ⟨k + 1, by rw [hk]; congr 1; omega, hshift k ▸ hset, fun j hj => ?_⟩
      cases j
      case zero   => exact hbit
      case succ j => exact hshift j ▸ hlow j (by omega)

theorem BitSet.IsNext.of_le (h : s.IsNext b' i) (hle : b ≤ b') (hnone : ∀ j ∈ s.members, b ≤ j → b' ≤ j) :
    s.IsNext b i := by
  rcases h with ⟨hmem, hb, hmin⟩ | ⟨heq, hlt⟩
  case inl => exact Or.inl ⟨hmem, by omega, fun j hj hbj => hmin j hj (hnone j hj hbj)⟩
  case inr =>
    refine Or.inr ⟨heq, fun j hj => ?_⟩
    by_contra hbj
    have hj' := hlt j hj
    have hbj' := hnone j hj (by omega)
    omega

-- The bits of `starv` are those of word `k` from `b` on. Bits before `b` do not matter for what is found.
theorem vec_index_loop (h : Holds vec s) (hk : k < dims s.numbits) (hb : b / 64 = k)
    (hstarv : ∀ j, starv.getLsbD j = (decide (b + j < 64 * (k + 1)) && decide (b + j ∈ s.members))) :
    ∃ i, Memory.vec_index.loop vec (dims s.numbits) starv b k = .ok i ∧ s.IsNext b i := by
  have hfits := h.fits
  have hdims : dims s.numbits * 64 < s.numbits + 64 := by
    rw [dims]
    omega
  induction hn : dims s.numbits - k using Nat.strong_induction_on generalizing k b starv
  case h n ih =>
    rw [Memory.vec_index.loop]
    by_cases hzero : starv = 0
    case pos =>
      have hnone (j : Nat) (hj : j ∈ s.members) (hbj : b ≤ j) : 64 * (k + 1) ≤ j := by
        have hbit : (0#64).getLsbD (j - b) = _ := hzero ▸ hstarv (j - b)
        rw [BitVec.getLsbD_zero, Nat.add_sub_cancel' hbj, eq_comm, Bool.and_eq_false_iff] at hbit
        rcases hbit with hbit | hbit
        case inl =>
          have hnot := of_decide_eq_false hbit
          omega
        case inr => exact absurd hj (of_decide_eq_false hbit)
      rw [hzero, Memory.shiftOut, dif_pos rfl]
      dsimp only
      split_ifs with hlast
      case pos =>
        refine ⟨s.numbits, by rw [h.numbits], Or.inr ⟨rfl, fun j hj => ?_⟩⟩
        by_contra hbj
        have hj' := hnone j hj (by omega)
        have hlt := lt_dims (s.within j hj)
        omega
      case neg =>
        have hnext : (b + VECBITS) % 2 ^ 64 / VECBITS * VECBITS = 64 * (k + 1) := by
          rw [VECBITS, Nat.mod_eq_of_lt (by omega)]
          omega
        have hsize : k + 1 < vec.size := by
          rw [h.size]
          omega
        rw [Block.get_ok hsize, hnext]
        obtain ⟨i, hi, hisnext⟩ := @ih (dims s.numbits - (k + 1)) (by omega) (64 * (k + 1)) (k + 1) (vec.words (k + 1))
          (by omega) (by omega) (fun j => by
            by_cases hj : j < 64
            case pos =>
              have hin : 64 * (k + 1) + j < 64 * (k + 1 + 1) := by omega
              rw [decide_eq_true hin, Bool.true_and, ← h.bits _ (by omega), ← bit_mul_add hj, Nat.mul_comm]
            case neg =>
              have hout : ¬ 64 * (k + 1) + j < 64 * (k + 1 + 1) := by omega
              rw [decide_eq_false hout, Bool.false_and, BitVec.getLsbD_of_ge _ _ (by omega)]) rfl
        exact ⟨i, hi, hisnext.of_le (by omega) hnone⟩
    case neg =>
      have hmem (j : Nat) (hj : starv.getLsbD j) : b + j < 64 * (k + 1) ∧ b + j ∈ s.members := by
        rw [hstarv, Bool.and_eq_true, decide_eq_true_iff, decide_eq_true_iff] at hj
        exact hj
      have hlt (j : Nat) (hj : starv.getLsbD j) : b + j < 2 ^ 64 := by
        have hwithin := s.within _ (hmem j hj).right
        omega
      obtain ⟨j, hj, hset, hlow⟩ := shiftOut_eq hzero hlt
      rw [hj]
      refine ⟨b + j, rfl, Or.inl ⟨(hmem j hset).right, by omega, fun l hl hbl => ?_⟩⟩
      by_contra hlj
      refine hlow (l - b) (by omega) ?_
      rw [hstarv, Nat.add_sub_cancel' hbl, Bool.and_eq_true, decide_eq_true_iff, decide_eq_true_iff]
      have hin := (hmem j hset).left
      exact ⟨by omega, hl⟩

theorem vec_index_ok (hv : m v = some vec) (h : Holds vec s) :
    ∃ i, m.vec_index b (some v) = .ok i ∧ s.IsNext b i := by
  have hblock : m.block v = .ok vec := by rw [Memory.block, hv]
  rw [Memory.vec_index, hblock]
  have hword : (if b % 64 ≠ b then b / 64 else 0) = b / 64 := by
    split_ifs
    case pos => rfl
    case neg => omega
  simp only [bind, Except.bind, h.numbits, h.vec_dim, mask_eq, shift_eq, hword]
  split_ifs with hb
  case pos =>
    have hdiv := div_lt_dims hb
    rw [Block.get_ok (h.size ▸ hdiv)]
    refine vec_index_loop h hdiv rfl fun j => ?_
    rw [BitVec.getLsbD_ushiftRight]
    by_cases hj : b % 64 + j < 64
    case pos =>
      have hin : b + j < 64 * (b / 64 + 1) := by omega
      have hsum : b + j = b / 64 * 64 + (b % 64 + j) := by omega
      rw [decide_eq_true hin, Bool.true_and, ← h.bits _ (by omega), hsum, bit_mul_add hj]
    case neg =>
      have hout : ¬ b + j < 64 * (b / 64 + 1) := by omega
      rw [decide_eq_false hout, Bool.false_and, BitVec.getLsbD_of_ge _ _ (by omega)]
  case neg =>
    refine ⟨s.numbits, rfl, Or.inr ⟨rfl, fun j hj => ?_⟩⟩
    have hlt := s.within j hj
    omega

-- The members from `b` on.
def BitSet.after (s : BitSet) (b : Nat) : Finset Nat :=
  s.members.filter (b ≤ ·)

theorem BitSet.after_zero : s.after 0 = s.members :=
  Finset.filter_true_of_mem fun _ _ => Nat.zero_le _

theorem BitSet.IsNext.after_eq_empty (h : s.IsNext b i) (hi : ¬ i < s.numbits) : s.after b = ∅ := by
  refine Finset.filter_eq_empty_iff.mpr fun j hj hbj => ?_
  rcases h with ⟨hmem, _, _⟩ | ⟨_, hlt⟩
  case inl => exact hi (s.within i hmem)
  case inr =>
    have hjb := hlt j hj
    omega

-- The next member is the first one of those that are left.
theorem BitSet.IsNext.after_eq_insert (h : s.IsNext b i) (hi : i < s.numbits) :
    s.after b = Insert.insert i (s.after (i + 1)) := by
  rcases h with ⟨hmem, hb, hmin⟩ | ⟨heq, _⟩
  case inr => omega
  case inl =>
    ext j
    rw [after, after, Finset.mem_filter, Finset.mem_insert, Finset.mem_filter]
    constructor
    case mp =>
      intro hj
      have hij := hmin j hj.left hj.right
      rcases Nat.eq_or_lt_of_le hij with heq | hlt
      case inl => exact Or.inl heq.symm
      case inr => exact Or.inr ⟨hj.left, hlt⟩
    case mpr =>
      intro hj
      rcases hj with heq | hj
      case inl => exact ⟨heq ▸ hmem, by omega⟩
      case inr => exact ⟨hj.left, by omega⟩

theorem BitSet.not_mem_after : i ∉ s.after (i + 1) := by
  rw [after, Finset.mem_filter]
  omega

theorem BitSet.IsNext.sort_after (h : s.IsNext b i) (hi : i < s.numbits) :
    (s.after b).sort (· ≤ ·) = i :: (s.after (i + 1)).sort (· ≤ ·) := by
  rw [h.after_eq_insert hi, Finset.sort_insert _ ?_ not_mem_after]
  intro j hj
  rw [after, Finset.mem_filter] at hj
  omega

theorem BitSet.IsNext.card_after (h : s.IsNext b i) (hi : i < s.numbits) :
    (s.after b).card = (s.after (i + 1)).card + 1 := by
  rw [h.after_eq_insert hi, Finset.card_insert_of_notMem not_mem_after]

theorem numbits_ok (hv : m v = some vec) (h : Holds vec s) : m.numbits (some v) = .ok s.numbits := by
  have hblock : m.block v = .ok vec := by rw [Memory.block, hv]
  rw [Memory.numbits, hblock]
  exact congrArg Except.ok h.numbits

theorem BitSet.IsNext.le (h : s.IsNext b i) : i ≤ s.numbits := by
  rcases h with ⟨hmem, _, _⟩ | ⟨heq, _⟩
  case inl => exact Nat.le_of_lt (s.within i hmem)
  case inr => exact Nat.le_of_eq heq

-- The loop ends, as what is left gets less with each round.
theorem foreach_ok (hv : m v = some vec) (h : Holds vec s) (hi : s.IsNext b i) :
    ∃ fuel, Memory.VecRange.foreach m fuel { i := i, v := some v } = .ok (some ((s.after b).sort (· ≤ ·))) := by
  have hfits := h.fits
  induction hn : s.numbits - i using Nat.strong_induction_on generalizing b i
  case h n ih =>
    by_cases hlt : i < s.numbits
    case pos =>
      have ⟨i', hindex, hi'⟩ := vec_index_ok (b := i + 1) hv h
      have hle : i + 1 ≤ i' := by
        rcases hi' with ⟨_, hle, _⟩ | ⟨heq, _⟩
        case inl => exact hle
        case inr => omega
      have ⟨fuel, hfuel⟩ := ih (s.numbits - i') (by omega) hi' rfl
      refine ⟨fuel + 1, ?_⟩
      have hmod : (i + 1) % 2 ^ 64 = i + 1 := Nat.mod_eq_of_lt (by omega)
      rw [Memory.VecRange.foreach, Memory.VecRange.empty, numbits_ok hv h, Memory.VecRange.popFront, hmod]
      have hne : (i == s.numbits) = false := beq_false_of_ne (by omega)
      simp only [bind, Except.bind, pure, Except.pure, hne, hindex, hfuel, Option.map_some, Bool.false_eq_true, if_false,
        Memory.VecRange.front, hi.sort_after hlt]
    case neg =>
      have heq : i = s.numbits := Nat.le_antisymm hi.le (not_lt.mp hlt)
      refine ⟨1, ?_⟩
      rw [Memory.VecRange.foreach, Memory.VecRange.empty, numbits_ok hv h, hi.after_eq_empty hlt, heq]
      simp [bind, Except.bind, pure, Except.pure]

theorem numBitsSet_loop (hv : m v = some vec) (h : Holds vec s) (b n : Nat) :
    ∃ fuel, Memory.vec_numBitsSet.loop m (some v) s.numbits fuel b (n % 2 ^ 32) =
      .ok (some ((n + (s.after b).card) % 2 ^ 32)) := by
  have hfits := h.fits
  have ⟨i, hindex, hi⟩ := vec_index_ok (b := b) hv h
  induction hk : s.numbits - i using Nat.strong_induction_on generalizing b n i
  case h k ih =>
    by_cases hlt : i < s.numbits
    case pos =>
      have ⟨i', hindex', hi'⟩ := vec_index_ok (b := i + 1) hv h
      have hle : i + 1 ≤ i' := by
        rcases hi' with ⟨_, hle, _⟩ | ⟨heq, _⟩
        case inl => exact hle
        case inr => omega
      have ⟨fuel, hfuel⟩ := ih (s.numbits - i') (by omega) (i + 1) (n + 1) i' hindex' hi' rfl
      refine ⟨fuel + 1, ?_⟩
      have hmod : (i + 1) % 2 ^ 64 = i + 1 := Nat.mod_eq_of_lt (by omega)
      have hsum : n + (s.after b).card = n + 1 + (s.after (i + 1)).card := by
        rw [hi.card_after hlt]
        omega
      rw [Memory.vec_numBitsSet.loop, hindex, hsum, ← hfuel]
      simp only [bind, Except.bind, hlt, if_true, hmod, Nat.mod_add_mod]
    case neg =>
      refine ⟨1, ?_⟩
      rw [Memory.vec_numBitsSet.loop, hindex, hi.after_eq_empty hlt]
      simp only [bind, Except.bind, hlt, if_false, Finset.card_empty, Nat.add_zero]

theorem vec_numBitsSet_ok (hv : m v = some vec) (h : Holds vec s) :
    ∃ fuel, m.vec_numBitsSet (some v) fuel = .ok (some (s.members.card % 2 ^ 32)) := by
  have ⟨fuel, hfuel⟩ := numBitsSet_loop hv h 0 0
  rw [s.after_zero, Nat.zero_add] at hfuel
  refine ⟨fuel, ?_⟩
  rw [Memory.vec_numBitsSet, numbits_ok hv h]
  exact hfuel

theorem range_ok (hv : m v = some vec) (h : Holds vec s) :
    ∃ fuel r, Memory.VecRange.new m (some v) = .ok r ∧
      r.foreach m fuel = .ok (some (s.members.sort (· ≤ ·))) := by
  have ⟨i, hindex, hi⟩ := vec_index_ok (b := 0) hv h
  have ⟨fuel, hfuel⟩ := foreach_ok hv h hi
  rw [s.after_zero] at hfuel
  refine ⟨fuel, { i := i, v := some v }, ?_, hfuel⟩
  rw [Memory.VecRange.new, hindex]
  rfl

end Compiler.Backend.Dvec
