import DmdModel.Runtime.GC.Bits
import DmdModel.Lib.WordBits

namespace Runtime.GC
namespace GCBits

open WordBits

variable {b b' : GCBits} {i w target len : Nat} {x : Word}

theorem shiftRight_eq (i : Nat) : i >>> BITS_SHIFT = i / 64 :=
  Nat.shiftRight_eq_div_pow i 6

theorem and_mask_eq (i : Nat) : i &&& BITS_MASK = i % 64 :=
  Nat.and_two_pow_sub_one_eq_mod i 6

theorem test_eq : b.test i = bit b.data i := by
  rw [test, shiftRight_eq, and_mask_eq, bit]

theorem ext_test (h : ∀ i, b.test i = b'.test i) (hn : b.nbits = b'.nbits) : b = b' := by
  have hd : b.data = b'.data := WordBits.ext fun i => by rw [← test_eq, ← test_eq, h]
  cases b
  cases b'
  cases hd
  cases hn
  rfl

theorem test_setWord :
    (b.setWord w x).test i = if i / 64 = w then x.getLsbD (i % 64) else b.test i := by
  rw [test_eq, setWord, bit_update, test_eq]

theorem getLsbD_data : (b.data (i / 64)).getLsbD (i % 64) = b.test i := by
  rw [test_eq, bit]

theorem mod_lt (i : Nat) : i % 64 < 64 :=
  Nat.mod_lt i (by decide)

theorem getLsbD_bits1 {k j : Nat} (hk : k < 64) : (BITS_1 <<< k).getLsbD j = decide (j = k) :=
  getLsbD_one_shl hk

theorem set_test {j : Nat} : (b.set j).test i = (decide (i = j) || b.test i) := by
  rw [set, shiftRight_eq, and_mask_eq, test_setWord]
  split
  case isTrue h =>
    rw [BitVec.getLsbD_or, getLsbD_bits1 (mod_lt j), ← h, getLsbD_data, Bool.or_comm]
    congr 1
    exact decide_eq_decide.mpr (by omega)
  case isFalse h =>
    have hne : i ≠ j := fun he => h (he ▸ rfl)
    simp [hne]

theorem clear_test {j : Nat} : (b.clear j).test i = (!decide (i = j) && b.test i) := by
  rw [clear, shiftRight_eq, and_mask_eq, test_setWord]
  split
  case isTrue h =>
    rw [BitVec.getLsbD_and, BitVec.getLsbD_not, getLsbD_bits1 (mod_lt j), ← h,
      getLsbD_data, Bool.and_comm]
    have hij : i % 64 = j % 64 ↔ i = j := by omega
    simp [hij, mod_lt]
  case isFalse h =>
    have hne : i ≠ j := fun he => h (he ▸ rfl)
    simp [hne]

theorem rangeVars_eq : rangeVars target len =
    ⟨target / 64, target % 64, (target + len - 1) / 64, (target + len - 1) % 64⟩ := by
  simp only [rangeVars, shiftRight_eq, and_mask_eq]

-- The mask of a range in one word.
theorem wordMask_iff (hlen : 0 < len) (hw : target / 64 = (target + len - 1) / 64) {j : Nat} (hj : j < 64) :
    ((BITS_2 <<< ((target + len - 1) % 64 - target % 64) - 1) <<< (target % 64)).getLsbD j =
      decide (target ≤ target / 64 * 64 + j ∧ target / 64 * 64 + j < target + len) := by
  rw [BitVec.getLsbD_shiftLeft]
  by_cases hk : target % 64 ≤ j
  · have hm : (BITS_2 <<< ((target + len - 1) % 64 - target % 64) - 1).getLsbD (j - target % 64) =
        decide (j - target % 64 ≤ (target + len - 1) % 64 - target % 64) :=
      getLsbD_two_shl_sub_one (by omega) (by omega)
    rw [hm, decide_eq_true hj, Bool.true_and, decide_eq_false (by omega), Bool.not_false, Bool.true_and]
    exact decide_eq_decide.mpr (by omega)
  · rw [decide_eq_true hj, decide_eq_true (p := j < target % 64) (by omega), Bool.not_true,
      Bool.and_false, Bool.false_and, decide_eq_false]
    omega

-- The mask of the first word of a range in several words.
theorem firstMask_iff {j : Nat} (hj : j < 64) :
    (~~~BITS_0 <<< (target % 64)).getLsbD j =
      decide (target ≤ target / 64 * 64 + j ∧ target / 64 * 64 + j < (target / 64 + 1) * 64) := by
  have h : (~~~BITS_0 <<< (target % 64)).getLsbD j = decide (target % 64 ≤ j) := getLsbD_not_zero_shl hj
  rw [h]
  exact decide_eq_decide.mpr (by omega)

-- The mask of the last word.
theorem lastMask_iff (hlen : 0 < len) {j : Nat} (hj : j < 64) :
    (BITS_2 <<< ((target + len - 1) % 64) - 1).getLsbD j =
      decide ((target + len - 1) / 64 * 64 ≤ (target + len - 1) / 64 * 64 + j ∧
        (target + len - 1) / 64 * 64 + j < target + len) := by
  have h : (BITS_2 <<< ((target + len - 1) % 64) - 1).getLsbD j = decide (j ≤ (target + len - 1) % 64) :=
    getLsbD_two_shl_sub_one (mod_lt _) hj
  rw [h]
  exact decide_eq_decide.mpr (by omega)

-- The bits from `lo` to `hi` were replaced by those of `f`, and no others were changed.
structure Written (b b' : GCBits) (lo hi : Nat) (f : Nat → Bool) : Prop where
  test  : ∀ i, b'.test i = if lo ≤ i ∧ i < hi then f i else b.test i
  nbits : b'.nbits = b.nbits

variable {b₁ b₂ : GCBits} {lo mid hi : Nat} {f g : Nat → Bool}

namespace Written

theorem refl : Written b b lo lo f where
  test i := by
    rw [if_neg]
    omega
  nbits  := rfl

theorem trans (h₁ : Written b b₁ lo mid f) (h₂ : Written b₁ b₂ mid hi f) (hl : lo ≤ mid) (hh : mid ≤ hi) :
    Written b b₂ lo hi f where
  nbits  := h₂.nbits.trans h₁.nbits
  test i := by
    rw [h₂.test, h₁.test]
    by_cases hm : i < mid
    · rw [if_neg (by omega)]
      exact if_congr (by omega) rfl rfl
    · rw [if_neg (c := lo ≤ i ∧ i < mid) (by omega)]
      exact if_congr (by omega) rfl rfl

theorem congr (h : Written b b' lo hi f) (hf : ∀ i, lo ≤ i → i < hi → f i = g i) : Written b b' lo hi g where
  nbits  := h.nbits
  test i := by
    rw [h.test]
    split
    case isTrue hi => exact hf i hi.1 hi.2
    case isFalse   => rfl

-- The bits that are written determine the bitmap.
theorem unique (h₁ : Written b b₁ lo hi f) (h₂ : Written b b₂ lo hi f) : b₁ = b₂ :=
  ext_test (fun i => by rw [h₁.test, h₂.test]) (h₁.nbits.trans h₂.nbits.symm)

-- Writing in one word.
theorem setWord (hlo : w * 64 ≤ lo) (hhi : hi ≤ w * 64 + 64)
    (hx : ∀ j < 64, x.getLsbD j =
      if lo ≤ w * 64 + j ∧ w * 64 + j < hi then f (w * 64 + j) else (b.data w).getLsbD j) :
    Written b (b.setWord w x) lo hi f where
  nbits  := rfl
  test i := by
    rw [test_setWord]
    split
    case isTrue h =>
      have hi : w * 64 + i % 64 = i := by omega
      rw [hx _ (mod_lt i), hi, ← h, getLsbD_data]
    case isFalse h =>
      rw [if_neg]
      omega

-- Writing the bits of a mask.
theorem mask {mask : Word} {y : Nat → Bool} (hlo : w * 64 ≤ lo) (hhi : hi ≤ w * 64 + 64)
    (hm : ∀ {j}, j < 64 → mask.getLsbD j = decide (lo ≤ w * 64 + j ∧ w * 64 + j < hi))
    (hx : ∀ {j}, j < 64 → x.getLsbD j = if mask.getLsbD j then y j else (b.data w).getLsbD j)
    (hy : ∀ j < 64, lo ≤ w * 64 + j → w * 64 + j < hi → y j = f (w * 64 + j)) :
    Written b (b.setWord w x) lo hi f :=
  setWord hlo hhi fun j hj => by
    rw [hx hj, hm hj]
    by_cases hr : lo ≤ w * 64 + j ∧ w * 64 + j < hi
    · rw [decide_eq_true hr, if_pos rfl, if_pos hr, hy j hj hr.1 hr.2]
    · rw [decide_eq_false hr, if_neg Bool.false_ne_true, if_neg hr]

theorem setWord_all (hx : ∀ j < 64, x.getLsbD j = f (w * 64 + j)) :
    Written b (b.setWord w x) (w * 64) ((w + 1) * 64) f :=
  setWord le_rfl (by omega) fun j hj => by
    rw [hx j hj, if_pos]
    omega

-- Writing one word after the other.
theorem foldl {x : Nat → Word} {c : Nat} : ∀ {n a : Nat} {b : GCBits},
    (∀ w, a ≤ w → w < a + n → ∀ j < 64, (x w).getLsbD j = f ((c + w) * 64 + j)) →
    Written b ((List.range' a n).foldl (fun b w => b.setWord (c + w) (x w)) b)
      ((c + a) * 64) ((c + a + n) * 64) f
  | 0, _, _, _ => refl
  | n + 1, a, b, hx => by
    rw [List.range'_succ, List.foldl_cons]
    have hfirst : Written b (b.setWord (c + a) (x a)) ((c + a) * 64) ((c + a + 1) * 64) f :=
      setWord_all (hx a le_rfl (by omega))
    have hrest := foldl (n := n) (a := a + 1) (b := b.setWord (c + a) (x a)) fun w hw hn =>
      hx w (by omega) (by omega)
    rw [show c + (a + 1) = c + a + 1 by omega, show c + a + 1 + n = c + a + (n + 1) by omega] at hrest
    exact hfirst.trans hrest (by omega) (by omega)

end Written

theorem wordRange_written {x : Nat → Word} {c firstWord lastWord : Nat} (hle : firstWord ≤ lastWord)
    (hx : ∀ w, firstWord ≤ w → w < lastWord → ∀ j < 64, (x w).getLsbD j = f ((c + w) * 64 + j)) :
    Written b ((wordRange firstWord lastWord).foldl (fun b w => b.setWord (c + w) (x w)) b)
      ((c + firstWord) * 64) ((c + lastWord) * 64) f := by
  have h := Written.foldl (b := b) (n := lastWord - firstWord) fun w hw hn => hx w hw (by omega)
  rwa [show c + firstWord + (lastWord - firstWord) = c + lastWord by omega] at h

theorem setWords_written {firstWord lastWord : Nat} (hle : firstWord ≤ lastWord) :
    Written b (b.setWords firstWord lastWord) (firstWord * 64) (lastWord * 64) fun _ => true := by
  have h := wordRange_written (b := b) (c := 0) (x := fun _ => ~~~0) (f := fun _ => true) hle
    fun w _ _ j hj => by
      rw [BitVec.getLsbD_not]
      simp [hj]
  simp only [Nat.zero_add] at h
  exact h

theorem clearWords_written {firstWord lastWord : Nat} (hle : firstWord ≤ lastWord) :
    Written b (b.clearWords firstWord lastWord) (firstWord * 64) (lastWord * 64) fun _ => false := by
  have h := wordRange_written (b := b) (c := 0) (x := fun _ => 0) (f := fun _ => false) hle
    fun w _ _ j _ => by simp
  simp only [Nat.zero_add] at h
  exact h

-- A word in which the bits of a mask are set, cleared or replaced.
theorem getLsbD_set {mask : Word} {j : Nat} :
    (x ||| mask).getLsbD j = if mask.getLsbD j then true else x.getLsbD j := by
  rw [BitVec.getLsbD_or]
  cases mask.getLsbD j <;> simp

theorem getLsbD_clear {mask : Word} {j : Nat} (hj : j < 64) :
    (x &&& ~~~mask).getLsbD j = if mask.getLsbD j then false else x.getLsbD j := by
  rw [BitVec.getLsbD_and, BitVec.getLsbD_not]
  cases mask.getLsbD j <;> simp [hj]

theorem getLsbD_replace {mask y : Word} {j : Nat} (hj : j < 64) :
    ((x &&& ~~~mask) ||| (y &&& mask)).getLsbD j = if mask.getLsbD j then y.getLsbD j else x.getLsbD j := by
  rw [BitVec.getLsbD_or, BitVec.getLsbD_and, BitVec.getLsbD_and, BitVec.getLsbD_not]
  cases mask.getLsbD j <;> simp [hj]

theorem setRange_written : Written b (b.setRange target len) target (target + len) fun _ => true := by
  rw [setRange]
  split
  case isFalse h => exact (by omega : len = 0) ▸ Written.refl
  case isTrue h =>
    rw [setRangeZ, rangeVars_eq]
    dsimp only
    split
    case isTrue hw =>
      exact Written.mask (by omega) (by omega) (wordMask_iff h hw) (fun _ => getLsbD_set) fun _ _ _ _ => rfl
    case isFalse hw =>
      have hle : target / 64 + 1 ≤ (target + len - 1) / 64 := by omega
      have hfirst : Written b (b.setWord (target / 64) _) target ((target / 64 + 1) * 64) fun _ => true :=
        Written.mask (by omega) (by omega) firstMask_iff (fun _ => getLsbD_set) fun _ _ _ _ => rfl
      refine hfirst.trans ((setWords_written hle).trans ?_ ?_ ?_) ?_ ?_
      · exact Written.mask le_rfl (by omega) (lastMask_iff h) (fun _ => getLsbD_set) fun _ _ _ _ => rfl
      all_goals omega

theorem clrRange_written : Written b (b.clrRange target len) target (target + len) fun _ => false := by
  rw [clrRange]
  split
  case isFalse h => exact (by omega : len = 0) ▸ Written.refl
  case isTrue h =>
    rw [clrRangeZ, rangeVars_eq]
    dsimp only
    split
    case isTrue hw =>
      exact Written.mask (by omega) (by omega) (wordMask_iff h hw) getLsbD_clear fun _ _ _ _ => rfl
    case isFalse hw =>
      have hle : target / 64 + 1 ≤ (target + len - 1) / 64 := by omega
      have hfirst : Written b (b.setWord (target / 64) _) target ((target / 64 + 1) * 64) fun _ => false :=
        Written.mask (by omega) (by omega) firstMask_iff getLsbD_clear fun _ _ _ _ => rfl
      refine hfirst.trans ((clearWords_written hle).trans ?_ ?_ ?_) ?_ ?_
      · exact Written.mask le_rfl (by omega) (lastMask_iff h) getLsbD_clear fun _ _ _ _ => rfl
      all_goals omega

end GCBits
end Runtime.GC

namespace Runtime.GC
namespace GCBits

open WordBits

variable {b b' : GCBits} {w target len : Nat} {f : Nat → Bool}

-- A source in which the words of the first `len` bits of a bitmap can be read.
def Holds (source : Source) (src : GCBits) (len : Nat) : Prop :=
  ∀ k, k * 64 < len → source k = some (src.data k)

variable {source : Source} {src : GCBits}

theorem Holds.mono {len' : Nat} (h : Holds source src len) (hle : len' ≤ len) : Holds source src len' :=
  fun k hk => h k (by omega)

theorem foldlM_setWord {p : Nat → Nat} {r : Nat → Option Word} {x : Nat → Word} :
    ∀ {l : List Nat} {b : GCBits}, (∀ w ∈ l, r w = some (x w)) →
    l.foldlM (fun b w => do return b.setWord (p w) (← r w)) b =
      some (l.foldl (fun b w => b.setWord (p w) (x w)) b)
  | [], _, _ => rfl
  | w :: l, b, h => by
    rw [List.foldlM_cons, h w List.mem_cons_self]
    exact foldlM_setWord fun w' hw' => h w' (List.mem_cons_of_mem w hw')

theorem mem_wordRange {firstWord lastWord : Nat} :
    w ∈ wordRange firstWord lastWord ↔ firstWord ≤ w ∧ w < lastWord := by
  rw [wordRange, List.mem_range'_1]
  omega

-- The bits of the source from `target` on.
def Copied (src : GCBits) (target i : Nat) : Bool :=
  src.test (i - target)

theorem copyWords_written {firstWord lastWord : Nat} (hle : firstWord ≤ lastWord)
    (hs : Holds source src ((lastWord - firstWord) * 64)) :
    ∃ b', b.copyWords firstWord lastWord source = some b' ∧
      Written b b' (firstWord * 64) (lastWord * 64) (Copied src (firstWord * 64)) := by
  have hr : ∀ w ∈ wordRange firstWord lastWord, source (w - firstWord) = some (src.data (w - firstWord)) := by
    intro w hw
    rw [mem_wordRange] at hw
    exact hs _ (by omega)
  refine ⟨_, foldlM_setWord hr, ?_⟩
  have h := wordRange_written (b := b) (c := 0) (x := fun w => src.data (w - firstWord))
    (f := Copied src (firstWord * 64)) hle fun w hw hl j hj => by
      rw [Copied, test_eq, show (0 + w) * 64 + j - firstWord * 64 = (w - firstWord) * 64 + j by omega,
        bit_mul_add hj]
  simp only [Nat.zero_add] at h
  exact h

-- The bits that a word of the source gives to the next word of the target.
theorem getLsbD_carried {k off j : Nat} (ho : off < 64) (hj : j < off) :
    (src.data k >>> (BITS_PER_WORD - off)).getLsbD j = src.test ((k + 1) * 64 + j - off) := by
  rw [BitVec.getLsbD_ushiftRight, BITS_PER_WORD, test_eq,
    show (k + 1) * 64 + j - off = k * 64 + (64 - off + j) by omega, bit_mul_add (by omega)]

theorem getLsbD_shl {k off j : Nat} (hj : j < 64) (ho : off ≤ j) :
    (src.data k <<< off).getLsbD j = src.test (k * 64 + j - off) := by
  rw [BitVec.getLsbD_shiftLeft, test_eq, show k * 64 + j - off = k * 64 + (j - off) by omega,
    bit_mul_add (by omega)]
  simp [hj, ho]

-- The bits of two neighbouring words of the source, shifted.
theorem getLsbD_shifted {k off j : Nat} (ho : off < 64) (hj : j < 64) :
    ((src.data k >>> (BITS_PER_WORD - off)) ||| (src.data (k + 1) <<< off)).getLsbD j =
      src.test ((k + 1) * 64 + j - off) := by
  rw [BitVec.getLsbD_or]
  by_cases hjo : j < off
  · rw [getLsbD_carried ho hjo, BitVec.getLsbD_shiftLeft]
    simp [hjo]
  · rw [getLsbD_shl hj (by omega), BitVec.getLsbD_ushiftRight, BITS_PER_WORD,
      BitVec.getLsbD_of_ge _ (64 - off + j) (by omega), Bool.false_or]

-- The mask of the first word is not needed for the source: the shift leaves 0 in the other bits.
theorem firstWord_written :
    Written b (b.setWord (target / 64) ((b.data (target / 64) &&& ~~~(~~~BITS_0 <<< (target % 64))) |||
      (src.data 0 <<< (target % 64)))) target ((target / 64 + 1) * 64) (Copied src target) :=
  Written.setWord (by omega) (by omega) fun j hj => by
    rw [BitVec.getLsbD_or, getLsbD_clear hj, firstMask_iff hj]
    by_cases hlo : target ≤ target / 64 * 64 + j
    · have hr : target ≤ target / 64 * 64 + j ∧ target / 64 * 64 + j < (target / 64 + 1) * 64 := by omega
      rw [decide_eq_true hr, if_pos rfl, Bool.false_or, if_pos hr, getLsbD_shl hj (by omega), Copied]
      congr 1
      omega
    · have hr : ¬(target ≤ target / 64 * 64 + j ∧ target / 64 * 64 + j < (target / 64 + 1) * 64) := by omega
      have hoff : j < target % 64 := by omega
      rw [decide_eq_false hr, if_neg Bool.false_ne_true, if_neg hr, BitVec.getLsbD_shiftLeft,
        decide_eq_true hoff, Bool.not_true, Bool.and_false, Bool.false_and, Bool.or_false]

variable (b target) in
theorem copyWordsShifted_written {cntWords : Nat} (hcnt : 0 < cntWords) (hs : Holds source src (cntWords * 64)) :
    ∃ b', b.copyWordsShifted (target / 64) cntWords (target % 64) source = some b' ∧
      Written b b' target ((target / 64 + cntWords) * 64) (Copied src target) := by
  have hr : ∀ w ∈ wordRange 1 cntWords, (do
      return ((← source (w - 1)) >>> (BITS_PER_WORD - target % 64)) ||| ((← source w) <<< (target % 64))) =
      some ((src.data (w - 1) >>> (BITS_PER_WORD - target % 64)) ||| (src.data w <<< (target % 64))) := by
    intro w hw
    rw [mem_wordRange] at hw
    rw [hs (w - 1) (by omega), hs w (by omega)]
    rfl
  have hfold := fun b : GCBits => foldlM_setWord (p := fun w => target / 64 + w) (b := b) hr
  simp only [bind_assoc, pure_bind] at hfold
  rw [copyWordsShifted, hs 0 (by omega)]
  refine ⟨_, hfold _, Written.trans firstWord_written (wordRange_written hcnt ?_) (by omega) (by omega)⟩
  intro w hw hl j hj
  obtain ⟨k, rfl⟩ : ∃ k, w = k + 1 := ⟨w - 1, by omega⟩
  rw [Nat.add_sub_cancel, getLsbD_shifted (mod_lt _) hj, Copied]
  congr 1
  omega

variable (b target) in
theorem copyRange_written (hs : Holds source src len) :
    ∃ b', b.copyRange target len source = some b' ∧
      Written b b' target (target + len) (Copied src target) := by
  rw [copyRange]
  split
  case isFalse h => exact ⟨b, rfl, (by omega : len = 0) ▸ Written.refl⟩
  case isTrue h =>
    rw [copyRangeZ, rangeVars_eq]
    dsimp only
    split
    case isTrue hw =>
      rw [hs 0 (by omega)]
      refine ⟨_, rfl, Written.mask (by omega) (by omega) (wordMask_iff h hw) getLsbD_replace ?_⟩
      intro j hj hlo _
      rw [getLsbD_shl hj (by omega), Copied]
      congr 1
      omega
    case isFalse hw =>
      have hle : target / 64 ≤ (target + len - 1) / 64 := by omega
      split
      case isTrue hoff =>
        obtain ⟨b', hb', hwords⟩ := copyWords_written (b := b) hle (hs.mono (by omega))
        rw [hb', hs _ (by omega)]
        rw [show target / 64 * 64 = target by omega] at hwords
        refine ⟨_, rfl, hwords.trans ?_ (by omega) (by omega)⟩
        refine Written.mask le_rfl (by omega) (lastMask_iff h) getLsbD_replace ?_
        intro j hj _ _
        rw [Copied, test_eq, ← bit_mul_add hj]
        congr 1
        omega
      case isFalse hoff =>
        have hcnt : 0 < (target + len - 1) / 64 - target / 64 := by omega
        have hread : Holds source src (((target + len - 1) / 64 - target / 64) * 64) := fun k hk =>
          hs k (by omega)
        obtain ⟨b', hb', hwords⟩ := copyWordsShifted_written b target hcnt hread
        rw [show target / 64 + ((target + len - 1) / 64 - target / 64) = (target + len - 1) / 64 by omega]
          at hwords
        rw [hb', hread _ (by omega)]
        -- The word after the last one that was written in full is read if its bits are needed.
        split
        case isTrue hoffs =>
          rw [hs _ (by omega)]
          refine ⟨_, rfl, hwords.trans ?_ (by omega) (by omega)⟩
          refine Written.mask le_rfl (by omega) (lastMask_iff h) getLsbD_replace ?_
          intro j hj _ _
          obtain ⟨k, hk⟩ : ∃ k, (target + len - 1) / 64 - target / 64 = k + 1 := ⟨_, (Nat.sub_add_cancel hcnt).symm⟩
          rw [hk, Nat.add_sub_cancel, getLsbD_shifted (mod_lt _) hj, Copied]
          congr 1
          omega
        case isFalse hoffs =>
          refine ⟨_, rfl, hwords.trans ?_ (by omega) (by omega)⟩
          refine Written.mask le_rfl (by omega) (lastMask_iff h) getLsbD_replace ?_
          intro j hj _ hlast
          rw [getLsbD_carried (mod_lt _) (by omega), Copied]
          congr 1
          omega

-- The bits of the source from `target` on, again and again.
def Repeated (src : GCBits) (sourcelen target i : Nat) : Bool :=
  src.test ((i - target) % sourcelen)

theorem repeated_of_lt {sourcelen i : Nat} (hi : i < target + sourcelen) (hl : 0 < sourcelen) :
    Repeated src sourcelen target i = Copied src target i := by
  rw [Repeated, Copied, Nat.mod_eq_of_lt (by omega)]

theorem repeated_add {sourcelen i : Nat} (hi : target + sourcelen ≤ i) :
    Repeated src sourcelen (target + sourcelen) i = Repeated src sourcelen target i := by
  rw [Repeated, Repeated, show i - target = i - (target + sourcelen) + sourcelen by omega, Nat.add_mod_right]

theorem repeating_loop_written {sourcelen : Nat} (hl : 0 < sourcelen) :
    ∀ (fuel target destlen : Nat) (b : GCBits), destlen < fuel → Holds source src (min destlen sourcelen) →
    ∃ b', copyRangeRepeating.loop source sourcelen fuel b target destlen = some b' ∧
      Written b b' target (target + destlen) (Repeated src sourcelen target)
  | fuel + 1, target, destlen, b, hf, hs => by
    rw [copyRangeRepeating.loop]
    split
    case isTrue hd =>
      obtain ⟨b₁, hb₁, hcopy⟩ := copyRange_written b target
        (hs.mono (show sourcelen ≤ min destlen sourcelen by omega))
      obtain ⟨b', hb', hrest⟩ := repeating_loop_written hl fuel (target + sourcelen) (destlen - sourcelen) b₁
        (by omega) (hs.mono (by omega))
      rw [hb₁]
      rw [show target + sourcelen + (destlen - sourcelen) = target + destlen by omega] at hrest
      refine ⟨b', hb', Written.trans (hcopy.congr fun i _ hi => ?_) (hrest.congr fun i hi _ => ?_) ?_ ?_⟩
      · exact (repeated_of_lt hi hl).symm
      · exact repeated_add hi
      all_goals omega
    case isFalse hd =>
      obtain ⟨b', hb', hcopy⟩ := copyRange_written b target
        (hs.mono (show destlen ≤ min destlen sourcelen by omega))
      exact ⟨b', hb', hcopy.congr fun i _ hi => (repeated_of_lt (by omega) hl).symm⟩

variable (b target) in
theorem copyRangeRepeating_written {destlen sourcelen : Nat} (hl : 0 < sourcelen)
    (hs : Holds source src (min destlen sourcelen)) :
    ∃ b', b.copyRangeRepeating target destlen source sourcelen = some b' ∧
      Written b b' target (target + destlen) (Repeated src sourcelen target) :=
  repeating_loop_written hl _ target destlen b (Nat.lt_succ_self _) hs

-- The operations by single bits.

theorem set_written {i : Nat} : Written b (b.set i) i (i + 1) fun _ => true where
  nbits  := rfl
  test k := by
    rw [set_test]
    by_cases hk : k = i
    · rw [decide_eq_true hk, if_pos (by omega), Bool.true_or]
    · rw [decide_eq_false hk, if_neg (by omega), Bool.false_or]

theorem clear_written {i : Nat} : Written b (b.clear i) i (i + 1) fun _ => false where
  nbits  := rfl
  test k := by
    rw [clear_test]
    by_cases hk : k = i
    · rw [decide_eq_true hk, if_pos (by omega), Bool.not_true, Bool.false_and]
    · rw [decide_eq_false hk, if_neg (by omega), Bool.not_false, Bool.true_and]

variable (b target len) in
theorem range_written (step : GCBits → Nat → Option GCBits)
    (h : ∀ b i, i < len → ∃ b', step b i = some b' ∧ Written b b' (target + i) (target + i + 1) f) :
    ∃ b', (List.range len).foldlM step b = some b' ∧ Written b b' target (target + len) f := by
  induction len
  case zero => exact ⟨b, rfl, Written.refl⟩
  case succ n ih =>
    obtain ⟨b₁, hb₁, hfirst⟩ := ih fun b i hi => h b i (by omega)
    obtain ⟨b', hb', hlast⟩ := h b₁ n (Nat.lt_succ_self n)
    refine ⟨b', ?_, hfirst.trans hlast (by omega) (by omega)⟩
    rw [List.range_succ, List.foldlM_append, hb₁]
    show List.foldlM step b₁ [n] = some b'
    rw [List.foldlM_cons, hb']
    rfl

theorem singleBit_setRange_written :
    Written b (SingleBit.setRange b target len) target (target + len) fun _ => true := by
  obtain ⟨b', hb', h⟩ := range_written b target len
    (fun b i => pure (b.set (target + i))) fun b i _ => ⟨_, rfl, set_written⟩
  rw [List.foldlM_pure] at hb'
  cases hb'
  exact h

theorem singleBit_clrRange_written :
    Written b (SingleBit.clrRange b target len) target (target + len) fun _ => false := by
  obtain ⟨b', hb', h⟩ := range_written b target len
    (fun b i => pure (b.clear (target + i))) fun b i _ => ⟨_, rfl, clear_written⟩
  rw [List.foldlM_pure] at hb'
  cases hb'
  exact h

theorem and_one_shl_ne_zero {x : Word} {k : Nat} (hk : k < 64) :
    x &&& BITS_1 <<< k ≠ 0 ↔ x.getLsbD k = true := by
  have h1 : BITS_1 <<< k = BitVec.twoPow 64 k := rfl
  have h2 : BitVec.twoPow 64 k ≠ 0 := fun h0 => by
    have hbit := congrArg (BitVec.getLsbD · k) h0
    simp [hk] at hbit
  rw [h1, BitVec.and_twoPow]
  cases x.getLsbD k
  case false => simp
  case true  => exact iff_of_true h2 rfl

-- Copying the bit `j` of the source to the bit `i`.
theorem bit_written {i j : Nat} (hj : j < len) (hs : Holds source src len) (hf : f i = src.test j) :
    ∃ b', (do
      let word ← source (j >>> BITS_SHIFT)
      return if word &&& BITS_1 <<< (j &&& BITS_MASK) ≠ 0 then b.set i else b.clear i) = some b' ∧
      Written b b' i (i + 1) f := by
  rw [shiftRight_eq, and_mask_eq, hs (j / 64) (by omega)]
  refine ⟨_, rfl, ?_⟩
  rw [if_congr (and_one_shl_ne_zero (mod_lt j)) rfl rfl, getLsbD_data]
  split
  case isTrue h  =>
    refine (set_written).congr fun k hk hk' => ?_
    rw [(by omega : k = i), hf, h]
  case isFalse h =>
    refine (clear_written).congr fun k hk hk' => ?_
    rw [(by omega : k = i), hf, Bool.eq_false_of_not_eq_true h]

variable (b target) in
theorem singleBit_copyRange_written (hs : Holds source src len) :
    ∃ b', SingleBit.copyRange b target len source = some b' ∧
      Written b b' target (target + len) (Copied src target) :=
  range_written b target _ _ fun b i hi => bit_written hi hs (by rw [Copied, Nat.add_sub_cancel_left])

variable (b target) in
theorem singleBit_copyRangeRepeating_written {destlen sourcelen : Nat} (hl : 0 < sourcelen)
    (hs : Holds source src (min destlen sourcelen)) :
    ∃ b', SingleBit.copyRangeRepeating b target destlen source sourcelen = some b' ∧
      Written b b' target (target + destlen) (Repeated src sourcelen target) :=
  range_written b target _ _ fun b i hi => by
    have hj : i % sourcelen < min destlen sourcelen :=
      Nat.lt_min.mpr ⟨Nat.lt_of_le_of_lt (Nat.mod_le i sourcelen) hi, Nat.mod_lt i hl⟩
    exact bit_written hj hs (by rw [Repeated, Nat.add_sub_cancel_left])

-- Every operation leaves the bits of its range as it says and all others unchanged, which is also what
-- the operation by single bits does. It only reads the words of the source that hold bits to be copied.
theorem bulk_operations (b src : GCBits) (source : Source) (target len sourcelen : Nat)
    (_ : target + len ≤ b.nbits) :
    (∀ i, (b.setRange target len).test i = if target ≤ i ∧ i < target + len then true else b.test i) ∧
    (∀ i, (b.clrRange target len).test i = if target ≤ i ∧ i < target + len then false else b.test i) ∧
    b.setRange target len = SingleBit.setRange b target len ∧
    b.clrRange target len = SingleBit.clrRange b target len ∧
    (Holds source src len →
      ∃ b', b.copyRange target len source = some b' ∧ SingleBit.copyRange b target len source = some b' ∧
        ∀ i, b'.test i = if target ≤ i ∧ i < target + len then src.test (i - target) else b.test i) ∧
    (0 < sourcelen → Holds source src (min len sourcelen) →
      ∃ b', b.copyRangeRepeating target len source sourcelen = some b' ∧
        SingleBit.copyRangeRepeating b target len source sourcelen = some b' ∧
        ∀ i, b'.test i =
          if target ≤ i ∧ i < target + len then src.test ((i - target) % sourcelen) else b.test i) := by
  refine ⟨(setRange_written).test, (clrRange_written).test, (setRange_written).unique singleBit_setRange_written,
    (clrRange_written).unique singleBit_clrRange_written, fun hs => ?_, fun hl hs => ?_⟩
  · obtain ⟨b₁, hb₁, h₁⟩ := copyRange_written b target hs
    obtain ⟨b₂, hb₂, h₂⟩ := singleBit_copyRange_written b target hs
    exact ⟨b₁, hb₁, h₁.unique h₂ ▸ hb₂, h₁.test⟩
  · obtain ⟨b₁, hb₁, h₁⟩ := copyRangeRepeating_written b target hl hs
    obtain ⟨b₂, hb₂, h₂⟩ := singleBit_copyRangeRepeating_written b target hl hs
    exact ⟨b₁, hb₁, h₁.unique h₂ ▸ hb₂, h₁.test⟩

-- A bitmap of 128 bits, of which the bits from 3 to 100 are copied from a word with the bits 0 and 2.
theorem bulk_operations_pattern :
    ∃ b', copyRangeRepeating ⟨fun _ => 0, 128⟩ 3 97 (fun k => if k = 0 then some 5 else none) 3 = some b' ∧
      b'.test 98 = true ∧ b'.test 99 = true ∧ b'.test 100 = false := by
  obtain ⟨-, -, -, -, -, h⟩ := bulk_operations ⟨fun _ => 0, 128⟩ ⟨fun _ => 5, 64⟩
    (fun k => if k = 0 then some 5 else none) 3 97 3 (by decide)
  obtain ⟨b', hb', -, hbits⟩ := h (by decide) fun k hk =>
    if_pos (by omega)
  refine ⟨b', hb', ?_, ?_, ?_⟩
  all_goals
    rw [hbits]
    decide

end GCBits
end Runtime.GC
