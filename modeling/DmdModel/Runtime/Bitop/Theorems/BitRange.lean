import DmdModel.Lib.BitScan
import DmdModel.Lib.WordBits
import DmdModel.Runtime.Bitop.BitRange

-- The range over the bits of an array sees each bit that is set once.

namespace Runtime.Bitop

open BitScan

variable {N : Word} {f : Bool} {lo : BitVec 64} {v v₀ : BitVec N.bits} {k : Nat}

section scan

theorem isMask_mask (hlo : ∀ i < 64, lo.getLsbD i = decide (i / 2 ^ k % 2 = 0)) :
    IsMask f (mask f lo : BitVec N.bits) k := by
  intro i hi
  have h64 : i < 64 := by cases N <;> exact Nat.lt_of_lt_of_le hi (by decide)
  rw [mask, BitVec.getLsbD_setWidth, decide_eq_true hi, Bool.true_and]
  cases f
  case true => exact hlo i h64
  case false =>
    rw [if_neg Bool.false_ne_true, BitVec.getLsbD_not, hlo i h64, decide_eq_true h64, Bool.true_and, ← decide_not]
    exact decide_eq_decide.mpr Nat.mod_two_not_eq_zero

theorem mask_5 : IsMask f (mask f 0x00000000FFFFFFFF : BitVec N.bits) 5 :=
  isMask_mask (by decide)

theorem mask_4 : IsMask f (mask f 0x0000FFFF0000FFFF : BitVec N.bits) 4 :=
  isMask_mask (by decide)

theorem mask_3 : IsMask f (mask f 0x00FF00FF00FF00FF : BitVec N.bits) 3 :=
  isMask_mask (by decide)

theorem mask_2 : IsMask f (mask f 0x0F0F0F0F0F0F0F0F : BitVec N.bits) 2 :=
  isMask_mask (by decide)

theorem mask_1 : IsMask f (mask f 0x3333333333333333 : BitVec N.bits) 1 :=
  isMask_mask (by decide)

theorem mask_0 : IsMask f (mask f 0x5555555555555555 : BitVec N.bits) 0 :=
  isMask_mask (by decide)

theorem narrow_eq {ret up : Int} : narrow f lo up (v, ret) =
    (if v &&& mask f lo ≠ 0 then v &&& mask f lo else v,
      if v &&& mask f lo ≠ 0 then ret else ret + inc f up) := by
  rw [narrow]
  split_ifs <;> rfl

theorem at_narrow {s : BitVec N.bits × Int} {up : Int} (h : At f v₀ s.1 (k + 1) s.2)
    (hm : IsMask f (mask f lo : BitVec N.bits) k) (hup : up = 2 ^ k) :
    At f v₀ (narrow f lo up s).1 k (narrow f lo up s).2 := by
  obtain ⟨v, ret⟩ := s
  rw [hup, narrow_eq]
  exact h.step hm

theorem at_start (hv : v ≠ 0) : At f v (start N f v).1 4 (start N f v).2 := by
  cases N
  case uint =>
    have hmask : (mask f 0x0000FFFF : BitVec Word.uint.bits) = mask f 0x0000FFFF0000FFFF := by
      cases f <;> rfl
    have hstep := At.step (At.start hv (rfl : Word.uint.bits = 2 ^ 5)) (mask_4 (f := f))
    rw [start, hmask]
    by_cases hx : v &&& mask f 0x0000FFFF0000FFFF ≠ 0
    case pos =>
      rw [if_pos hx, if_pos hx] at hstep
      rw [if_pos hx]
      exact hstep
    case neg =>
      rw [if_neg hx, if_neg hx] at hstep
      rw [if_neg hx]
      cases f <;> exact hstep
  case ulong =>
    have hstep := At.step (At.start hv (rfl : Word.ulong.bits = 2 ^ 6)) (mask_5 (f := f))
    have hfirst : At f v (if v &&& mask f 0x00000000FFFFFFFF ≠ 0 then (v &&& mask f 0x00000000FFFFFFFF,
        if f then (0 : Int) else 63) else (v, if f then 32 else 31)).1 5
        (if v &&& mask f 0x00000000FFFFFFFF ≠ 0 then (v &&& mask f 0x00000000FFFFFFFF,
          if f then (0 : Int) else 63) else (v, if f then 32 else 31)).2 := by
      by_cases hx : v &&& mask f 0x00000000FFFFFFFF ≠ 0
      case pos =>
        rw [if_pos hx, if_pos hx] at hstep
        rw [if_pos hx]
        exact hstep
      case neg =>
        rw [if_neg hx, if_neg hx] at hstep
        rw [if_neg hx]
        cases f <;> exact hstep
    exact at_narrow hfirst mask_4 rfl

theorem softScan_spec (hv : v ≠ 0) : ∃ i : Nat, softScan f v = i ∧ IsFirst f v i := by
  have h8 := at_narrow (at_start hv) (mask_3 (f := f)) (rfl : (8 : Int) = 2 ^ 3)
  have h4 := at_narrow h8 mask_2 (rfl : (4 : Int) = 2 ^ 2)
  have hscan := at_narrow h4 mask_1 (rfl : (2 : Int) = 2 ^ 1)
  obtain ⟨i, hi, hfirst⟩ := (hscan.step mask_0).isFirst
  refine ⟨i, ?_, hfirst⟩
  rw [softScan, if_neg hv, ← hi]
  exact (ite_not _ _ _).symm

end scan

namespace BitRange

variable {bitarr : List (BitVec N.bits)} {n cur idx : BitVec N.bits} {r r' : BitRange N} {o : Option (BitRange N)}
variable {s t i j c b : Nat}

-- The bits of an array
def bit (bitarr : List (BitVec N.bits)) : Nat → Bool :=
  WordBits.bit fun k => bitarr.getD k 0

-- The number of words for some bits
def dim (n : BitVec N.bits) : Nat :=
  WordBits.words N.bits n.toNat

section sizes

theorem bits_pos : 0 < N.bits := by
  cases N <;> decide

theorem bits_lt : N.bits < 2 ^ N.bits := by
  cases N <;> decide

theorem toNat_bitsPerWord : (bitsPerWord N).toNat = N.bits := by
  cases N <;> rfl

theorem lt_dim : k < dim n ↔ k * N.bits < n.toNat := by
  cases N <;> simp only [dim, WordBits.words, Word.bits] <;> omega

theorem dim_mul_le : dim n * N.bits ≤ 2 ^ N.bits := by
  have hlt := n.isLt
  cases N <;> simp only [dim, WordBits.words, Word.bits] at hlt ⊢ <;> omega

theorem le_dim_mul : n.toNat ≤ dim n * N.bits := by
  cases N <;> simp only [dim, WordBits.words, Word.bits] <;> omega

theorem dim_mul_eq : 2 ^ N.bits ≤ dim n * N.bits ↔ 2 ^ N.bits - N.bits < n.toNat := by
  have hlt := n.isLt
  cases N <;> simp only [dim, WordBits.words, Word.bits] at hlt ⊢ <;> omega

end sizes

section bits

theorem bit_mul_add (hj : j < N.bits) : bit bitarr (k * N.bits + j) = (bitarr.getD k 0).getLsbD j :=
  WordBits.bit_mul_add hj

theorem bit_of_length_le (h : bitarr.length * N.bits ≤ i) : bit bitarr i = false := by
  have hk : bitarr.length ≤ i / N.bits := (Nat.le_div_iff_mul_le bits_pos).mpr h
  rw [bit, WordBits.bit, List.getD_eq_default _ _ hk]
  exact BitVec.getLsbD_zero

theorem lt_of_bit (h : bit bitarr i = true) : i / N.bits < bitarr.length := by
  refine (Nat.div_lt_iff_lt_mul bits_pos).mpr (not_le.mp fun hle => ?_)
  rw [bit_of_length_le hle] at h
  exact Bool.false_ne_true h

-- The bit `c` of the word `k` is the first one from the bit `b` on.
theorem isNext_of_first (hc : (bitarr.getD k 0).getLsbD c = true) (hb : b ≤ c)
    (hfirst : ∀ j, b ≤ j → j < c → (bitarr.getD k 0).getLsbD j = false) :
    IsNext (bit bitarr) (k * N.bits + b) (k * N.bits + c) := by
  have hlt := BitVec.lt_of_getLsbD hc
  refine ⟨Nat.add_le_add_left hb _, (bit_mul_add hlt).trans hc, fun j hj hjc => ?_⟩
  obtain ⟨d, rfl⟩ := Nat.exists_eq_add_of_le (Nat.le_of_add_right_le hj)
  rw [bit_mul_add (by omega)]
  exact hfirst d (by omega) (by omega)

theorem isFirst_bsf (hcur : cur ≠ 0) : IsFirst true cur (bsf cur).toNat := by
  obtain ⟨i, hi, hfirst⟩ := softScan_spec (f := true) hcur
  have hlt := BitVec.lt_of_getLsbD hfirst.1
  rwa [bsf, softBsf, hi, BitVec.ofInt_natCast, BitVec.toNat_ofNat, Nat.mod_eq_of_lt (hlt.trans bits_lt)]

end bits

section next

-- The range stands at the bit `i`, and the words after the one of this bit have not been read.
structure Stands (bitarr : List (BitVec N.bits)) (n : BitVec N.bits) (i : Nat) (r : BitRange N) : Prop where
  len  : r.len = n
  idx  : r.idx.toNat = i
  bits : r.bits = bitarr.drop (i / N.bits + 1)
  cur  : ∀ j, r.cur.getLsbD j = (decide (i % N.bits ≤ j) && (bitarr.getD (i / N.bits) 0).getLsbD j)

-- What comes after the bits below `s`: the next bit, the end of the range, or a word that does not belong to the array
inductive Next (bitarr : List (BitVec N.bits)) (n : BitVec N.bits) (s : Nat) : Option (BitRange N) → Prop
  | bit (i : Nat) (r : BitRange N) : IsNext (BitRange.bit bitarr) s i → Stands bitarr n i r → Next bitarr n s (some r)
  | done (r : BitRange N) : (∀ j, s ≤ j → BitRange.bit bitarr j = false) → bitarr.length * N.bits < 2 ^ N.bits →
      r.empty = true → Next bitarr n s (some r)
  | outside : (∀ j, s ≤ j → BitRange.bit bitarr j = false) → 2 ^ N.bits ≤ bitarr.length * N.bits → Next bitarr n s none

theorem Next.of_le (h : Next bitarr n t o) (hle : s ≤ t) (hnone : ∀ j, s ≤ j → j < t → BitRange.bit bitarr j = false) :
    Next bitarr n s o := by
  have hall (hnone' : ∀ j, t ≤ j → BitRange.bit bitarr j = false) (j : Nat) (hj : s ≤ j) :
      BitRange.bit bitarr j = false := by
    by_cases hlt : j < t
    case pos => exact hnone j hj hlt
    case neg => exact hnone' j (not_lt.mp hlt)
  cases h
  case bit i r hnext hstands =>
    refine .bit i r ⟨hle.trans hnext.1, hnext.2.1, fun j hj hlt => ?_⟩ hstands
    by_cases hjt : j < t
    case pos => exact hnone j hj hjt
    case neg => exact hnext.2.2 j (not_lt.mp hjt) hlt
  case done r hnone' hlen hempty => exact .done r (hall hnone') hlen hempty
  case outside hnone' hlen => exact .outside (hall hnone') hlen

-- A word with a bit from `b` on, where `idx` is the number of its first bit
theorem next_of_word (hk : k < bitarr.length) (hlen : bitarr.length = dim n) (hidx : idx.toNat = k * N.bits)
    (hcur : ∀ j, cur.getLsbD j = (decide (b ≤ j) && (bitarr.getD k 0).getLsbD j)) (hne : cur ≠ 0) :
    Next bitarr n (k * N.bits + b) (some { bits := bitarr.drop (k + 1), cur, idx := idx + bsf cur, len := n }) := by
  obtain ⟨hbit, hmin⟩ := isFirst_bsf hne
  obtain ⟨c, hc⟩ : ∃ c, c = (bsf cur).toNat := ⟨_, rfl⟩
  rw [← hc] at hbit hmin
  have hlt := BitVec.lt_of_getLsbD hbit
  obtain ⟨hb, hword⟩ := Bool.and_eq_true_iff.mp ((hcur c).symm.trans hbit)
  have hdiv : (k * N.bits + c) / N.bits = k := by
    rw [Nat.mul_comm, Nat.mul_add_div bits_pos, Nat.div_eq_of_lt hlt, Nat.add_zero]
  have hmod : (k * N.bits + c) % N.bits = c := by
    rw [Nat.mul_comm, Nat.mul_add_mod, Nat.mod_eq_of_lt hlt]
  refine .bit _ _ (isNext_of_first hword (of_decide_eq_true hb) fun j hj hjc => ?_) ⟨rfl, ?_, ?_, fun j => ?_⟩
  · have hzero : ¬cur.getLsbD j = true := fun hj' => absurd (hmin j hj') (by simpa using hjc)
    rwa [hcur, decide_eq_true hj, Bool.true_and, Bool.not_eq_true] at hzero
  · have hmul : (k + 1) * N.bits ≤ dim n * N.bits := Nat.mul_le_mul_right _ (hlen ▸ hk)
    have htop := hmul.trans dim_mul_le
    rw [Nat.succ_mul] at htop
    rw [BitVec.toNat_add, hidx, ← hc, Nat.mod_eq_of_lt (by omega)]
  · rw [hdiv]
  · rw [hdiv, hmod]
    have hzero : cur.getLsbD j = true → c ≤ j := fun hj => by simpa using hmin j hj
    by_cases hj : c ≤ j
    case pos => rw [hcur, decide_eq_true hj, decide_eq_true ((of_decide_eq_true hb).trans hj)]
    case neg =>
      rw [decide_eq_false hj, Bool.false_and, ← Bool.not_eq_true]
      exact fun hcj => hj (hzero hcj)

theorem nextWord_spec (hlen : bitarr.length = dim n) (hk : k < bitarr.length) (hidx : idx.toNat = k * N.bits) :
    Next bitarr n ((k + 1) * N.bits) (nextWord n (bitarr.drop (k + 1)) idx) := by
  obtain ⟨rest, hrest⟩ : ∃ rest, rest = bitarr.drop (k + 1) := ⟨_, rfl⟩
  rw [← hrest]
  have hmul : (k + 1) * N.bits ≤ dim n * N.bits := Nat.mul_le_mul_right _ (hlen ▸ hk)
  have hdim := @dim_mul_le N n
  have hnext : (idx + bitsPerWord N).toNat = (k + 1) * N.bits % 2 ^ N.bits := by
    rw [BitVec.toNat_add, hidx, toNat_bitsPerWord, Nat.succ_mul]
  induction rest generalizing k idx
  case nil =>
    have hall : bitarr.length = k + 1 := (List.drop_eq_nil_iff.mp hrest.symm).antisymm hk
    have hnone : ∀ j, (k + 1) * N.bits ≤ j → BitRange.bit bitarr j = false :=
      fun j hj => bit_of_length_le (hall ▸ hj)
    have hpos := Nat.zero_lt_of_lt ((lt_dim).mp (hlen ▸ hk))
    have hle := @le_dim_mul N n
    rw [← hlen, hall] at hle
    rw [nextWord]
    by_cases hlt : (k + 1) * N.bits < 2 ^ N.bits
    case pos =>
      have hempty : idx + bitsPerWord N ≥ n := by
        rwa [ge_iff_le, BitVec.le_def, hnext, Nat.mod_eq_of_lt hlt]
      rw [if_pos hempty]
      exact .done _ hnone (hall ▸ hlt) (decide_eq_true hempty)
    case neg =>
      have heq : (k + 1) * N.bits = 2 ^ N.bits := by omega
      have hwrap : ¬idx + bitsPerWord N ≥ n := by
        rw [ge_iff_le, BitVec.le_def, hnext, heq, Nat.mod_self]
        omega
      rw [if_neg hwrap]
      exact .outside hnone (hall ▸ heq.ge)
  case cons word rest ih =>
    have hk' : k + 1 < bitarr.length := by
      by_contra hge
      rw [List.drop_eq_nil_iff.mpr (not_lt.mp hge)] at hrest
      exact List.cons_ne_nil _ _ hrest
    have hdrop := hrest.trans (List.drop_eq_getElem_cons hk')
    obtain ⟨hword, hrest'⟩ := List.cons.inj hdrop
    have hget : bitarr.getD (k + 1) 0 = word := by
      rw [hword, List.getD_eq_getElem _ _ hk']
    have hlt := (lt_dim).mp (hlen ▸ hk')
    rw [Nat.mod_eq_of_lt (hlt.trans n.isLt)] at hnext
    have hlt' : ¬idx + bitsPerWord N ≥ n := by
      rw [ge_iff_le, BitVec.le_def, hnext]
      omega
    rw [nextWord, if_neg hlt']
    split_ifs with hzero
    case pos =>
      refine (ih hk' hnext hrest' ?_ ?_).of_le (Nat.mul_le_mul_right _ (Nat.le_succ _)) fun j hj hjt => ?_
      · exact Nat.mul_le_mul_right _ (hlen ▸ hk')
      · rw [BitVec.toNat_add, hnext, toNat_bitsPerWord, Nat.succ_mul (k + 1)]
      · obtain ⟨d, rfl⟩ := Nat.exists_eq_add_of_le hj
        rw [Nat.succ_mul (k + 1)] at hjt
        rw [bit_mul_add (by omega), hget, hzero]
        exact BitVec.getLsbD_zero
    case neg =>
      have hcur (j : Nat) : word.getLsbD j = (decide (0 ≤ j) && (bitarr.getD (k + 1) 0).getLsbD j) := by
        rw [hget, decide_eq_true j.zero_le, Bool.true_and]
      have hspec := next_of_word hk' hlen hnext hcur hzero
      rwa [Nat.add_zero, ← hrest'] at hspec

-- The current word without the bits below `b`
theorem popFront_spec (hlen : bitarr.length = dim n) (hk : k < bitarr.length) (hr : r.len = n)
    (hbits : r.bits = bitarr.drop (k + 1)) (hidx : r.idx.toNat / N.bits = k) (hb : b ≤ N.bits)
    (hcur : ∀ j, (r.cur ^^^ (1 : BitVec N.bits) <<< (r.idx % bitsPerWord N)).getLsbD j =
      (decide (b ≤ j) && (bitarr.getD k 0).getLsbD j)) : Next bitarr n (k * N.bits + b) r.popFront := by
  have hmod : (r.idx % bitsPerWord N).toNat = r.idx.toNat % N.bits := by
    rw [BitVec.toNat_umod, toNat_bitsPerWord]
  have hbase : (r.idx - r.idx % bitsPerWord N).toNat = k * N.bits := by
    rw [BitVec.toNat_sub_of_le (by rw [BitVec.le_def, hmod]; exact Nat.mod_le _ _), hmod, ← hidx]
    have hdiv := Nat.div_add_mod' r.idx.toNat N.bits
    omega
  rw [popFront]
  split_ifs with hzero
  case pos =>
    rw [hr, hbits]
    rw [hzero] at hcur
    have hnone : ∀ j, b ≤ j → (bitarr.getD k 0).getLsbD j = false := by
      intro j hj
      have hword := (hcur j).symm.trans BitVec.getLsbD_zero
      rwa [decide_eq_true hj, Bool.true_and] at hword
    refine (nextWord_spec hlen hk hbase).of_le ?_ fun j hj hjt => ?_
    · rw [Nat.succ_mul]
      exact Nat.add_le_add_left hb _
    · obtain ⟨d, rfl⟩ := Nat.exists_eq_add_of_le (Nat.le_of_add_right_le hj)
      rw [Nat.succ_mul] at hjt
      rw [bit_mul_add (by omega)]
      exact hnone d (by omega)
  case neg =>
    have hsum (x c : BitVec N.bits) : r.idx + (x - c) = r.idx - c + x := by rw [add_sub_left_comm, add_comm]
    have hspec := next_of_word hk hlen hbase hcur hzero
    rw [hsum, hr, hbits]
    exact hspec

theorem Stands.popFront (h : Stands bitarr n i r) (hlen : bitarr.length = dim n) (hi : BitRange.bit bitarr i = true) :
    Next bitarr n (i + 1) r.popFront := by
  obtain ⟨hr, hidx, hbits, hcur⟩ := h
  have hmod := Nat.mod_lt i (@bits_pos N)
  have hspec := popFront_spec hlen (lt_of_bit hi) hr hbits (by rw [hidx]) (b := i % N.bits + 1) hmod fun j => ?_
  case refine_1 =>
    have hword : (bitarr.getD (i / N.bits) 0).getLsbD (i % N.bits) = true := hi
    have hshift : (r.idx % bitsPerWord N).toNat = i % N.bits := by
      rw [BitVec.toNat_umod, toNat_bitsPerWord, hidx]
    have hone : ((1 : BitVec N.bits) <<< (i % N.bits)).getLsbD j = decide (j = i % N.bits) :=
      WordBits.getLsbD_one_shl hmod
    rw [BitVec.getLsbD_xor, hcur, BitVec.shiftLeft_eq', hshift, hone]
    obtain hlt | rfl | hgt := Nat.lt_trichotomy j (i % N.bits)
    case inl => simp [hlt.not_ge, hlt.ne, (Nat.lt_succ_of_lt hlt).not_ge]
    case inr.inl => simp only [hword, le_refl, decide_true, Bool.and_self, bne_self_eq_false, Nat.not_succ_le_self,
      decide_false, Bool.false_and]
    case inr.inr => simp [hgt.le, hgt.ne', Nat.succ_le_of_lt hgt]
  rwa [← Nat.add_assoc, Nat.div_add_mod'] at hspec

theorem new_spec (hlen : bitarr.length = dim n) (hn : n ≠ 0) : Next bitarr n 0 (new bitarr n) := by
  have hpos : 0 < n.toNat := Nat.pos_of_ne_zero fun h => hn (BitVec.eq_of_toNat_eq h)
  have hk : 0 < bitarr.length := hlen ▸ (lt_dim).mpr (by rwa [Nat.zero_mul])
  obtain ⟨word, rest, rfl⟩ := List.exists_cons_of_length_pos hk
  rw [new, if_pos hn]
  have hspec := popFront_spec (r := { bits := rest, cur := word ^^^ 1, len := n }) (k := 0) (b := 0) hlen hk rfl rfl
    (Nat.zero_div _) (Nat.zero_le _) fun j => ?_
  case refine_1 =>
    have hshift : (1 : BitVec N.bits) <<< ((0 : BitVec N.bits) % bitsPerWord N) = 1 := by
      cases N <;> rfl
    rw [hshift, BitVec.xor_assoc, BitVec.xor_self, BitVec.xor_zero, decide_eq_true j.zero_le, Bool.true_and]
    rfl
  rwa [Nat.zero_mul, Nat.add_zero] at hspec

end next

section traversal

theorem foreach_of_done (hlen : bitarr.length = dim n) (h : Next bitarr n s (some r))
    (hstop : bitarr.length * N.bits < 2 ^ N.bits ∨ ∃ i, n.toNat ≤ i ∧ bit bitarr i = true) (f : Nat)
    (hf : (indices (bit bitarr) s n.toNat).length < f) :
    foreach f r = some ((indices (bit bitarr) s n.toNat).map (BitVec.ofNat N.bits)) := by
  induction f generalizing s r
  case zero => exact absurd hf (Nat.not_lt_zero _)
  case succ f ih =>
    rw [foreach]
    cases h
    case done hnone hlt hempty =>
      rw [if_pos hempty, indices_of_none fun j hj _ => hnone j hj]
      rfl
    case bit i hnext hstands =>
      have hempty : r.empty = true ↔ n.toNat ≤ i := by
        rw [empty, decide_eq_true_iff, hstands.len, ge_iff_le, BitVec.le_def, hstands.idx]
      by_cases hi : n.toNat ≤ i
      case pos =>
        rw [if_pos (hempty.mpr hi), hnext.indices_of_le hi]
        rfl
      case neg =>
        have hlist := hnext.indices_eq (not_le.mp hi)
        rw [if_neg (mt hempty.mp hi), hlist]
        rw [hlist, List.length_cons] at hf
        have hpop := hstands.popFront hlen hnext.2.1
        have hfront : r.front = BitVec.ofNat N.bits i := by
          rw [front, ← hstands.idx, BitVec.ofNat_toNat, BitVec.setWidth_eq]
        obtain ⟨o, ho⟩ : ∃ o, o = r.popFront := ⟨_, rfl⟩
        rw [← ho] at hpop ⊢
        cases o
        case none =>
          cases hpop
          case outside hnone hge =>
            obtain hlt | ⟨j, hj, hbit⟩ := hstop
            case inl => omega
            case inr =>
              rw [hnone j (by omega)] at hbit
              exact absurd hbit Bool.false_ne_true
        case some r' =>
          rw [Option.bind_eq_bind, Option.bind_some, ih hpop (by omega), hfront]
          rfl

theorem foreach_of_outside (hlen : bitarr.length = dim n) (h : Next bitarr n s (some r))
    (hge : 2 ^ N.bits ≤ bitarr.length * N.bits) (hnone : ∀ i, n.toNat ≤ i → bit bitarr i = false) (f : Nat) :
    foreach f r = none := by
  induction f generalizing s r
  case zero => rfl
  case succ f ih =>
    cases h
    case done hlt _ => omega
    case bit i hnext hstands =>
      have hempty : ¬r.empty = true := by
        rw [empty, decide_eq_true_iff, hstands.len, ge_iff_le, BitVec.le_def, hstands.idx]
        intro hi
        exact Bool.false_ne_true ((hnone i hi).symm.trans hnext.2.1)
      have hpop := hstands.popFront hlen hnext.2.1
      rw [foreach, if_neg hempty]
      obtain ⟨o, ho⟩ : ∃ o, o = r.popFront := ⟨_, rfl⟩
      rw [← ho] at hpop ⊢
      cases o
      case none => rfl
      case some r' => rw [Option.bind_eq_bind, Option.bind_some, ih hpop, Option.bind_eq_bind, Option.bind_none]

-- A `foreach` over the range sees the bits below `n` that are set, each once and in increasing order, and reads the
-- words of these bits only.
def Visits (bitarr : List (BitVec N.bits)) (n : BitVec N.bits) : Prop :=
  ∃ fuel, (new (bitarr.take (dim n)) n).bind (foreach fuel) =
    some (((List.range n.toNat).filter (bit bitarr)).map (BitVec.ofNat N.bits))

theorem bit_take (hi : i < dim n * N.bits) : bit (bitarr.take (dim n)) i = bit bitarr i := by
  have hk : i / N.bits < dim n := (Nat.div_lt_iff_lt_mul bits_pos).mpr hi
  rw [bit, bit, WordBits.bit, WordBits.bit, List.getD_eq_getElem?_getD, List.getD_eq_getElem?_getD,
    List.getElem?_take_of_lt hk]

theorem filter_take : indices (bit (bitarr.take (dim n))) 0 n.toNat = (List.range n.toNat).filter (bit bitarr) := by
  rw [indices, Nat.sub_zero, ← List.range_eq_range']
  refine List.filter_congr fun i hi => bit_take ((List.mem_range.mp hi).trans_le le_dim_mul)

-- The search for the next word stops at the bit `n`, whose number must not wrap around, or at a bit that is set there.
def Stops (bitarr : List (BitVec N.bits)) (n : BitVec N.bits) : Prop :=
  n.toNat ≤ 2 ^ N.bits - N.bits ∨ ∃ i, n.toNat ≤ i ∧ i < 2 ^ N.bits ∧ bit bitarr i = true

theorem Stops.visits (h : Stops bitarr n) (hlen : dim n ≤ bitarr.length) : Visits bitarr n := by
  by_cases hn : n = 0
  case pos =>
    subst hn
    exact ⟨1, rfl⟩
  case neg =>
    have htake : (bitarr.take (dim n)).length = dim n := List.length_take_of_le hlen
    have hnew := new_spec htake hn
    have hstop : (bitarr.take (dim n)).length * N.bits < 2 ^ N.bits ∨
        ∃ i, n.toNat ≤ i ∧ bit (bitarr.take (dim n)) i = true := by
      rw [htake]
      by_cases hge : 2 ^ N.bits ≤ dim n * N.bits
      case neg => exact .inl (not_le.mp hge)
      case pos =>
        have hgt := (dim_mul_eq).mp hge
        obtain hle | ⟨i, hi, hlt, hbit⟩ := h
        case inl => omega
        case inr => exact .inr ⟨i, hi, (bit_take (hlt.trans_le hge)).trans hbit⟩
    obtain ⟨o, ho⟩ : ∃ o, o = new (bitarr.take (dim n)) n := ⟨_, rfl⟩
    rw [← ho] at hnew
    cases o
    case none =>
      cases hnew
      case outside hnone hge =>
        obtain hlt | ⟨i, -, hbit⟩ := hstop
        case inl => omega
        case inr =>
          rw [hnone i i.zero_le] at hbit
          exact absurd hbit Bool.false_ne_true
    case some r =>
      refine ⟨(indices (bit (bitarr.take (dim n))) 0 n.toNat).length + 1, ?_⟩
      rw [← ho, Option.bind_some, foreach_of_done htake hnew hstop _ (Nat.lt_succ_self _), filter_take]

theorem Visits.stops (h : Visits bitarr n) (hlen : dim n ≤ bitarr.length) : Stops bitarr n := by
  by_contra hcon
  obtain ⟨hgt, hnone⟩ := not_or.mp hcon
  obtain ⟨f, hf⟩ := h
  have htake : (bitarr.take (dim n)).length = dim n := List.length_take_of_le hlen
  have hn : n ≠ 0 := by
    rintro rfl
    exact hgt (Nat.zero_le _)
  have hnew := new_spec htake hn
  have hge : 2 ^ N.bits ≤ (bitarr.take (dim n)).length * N.bits := by
    rw [htake]
    exact (dim_mul_eq).mpr (not_le.mp hgt)
  have hbits : ∀ i, n.toNat ≤ i → bit (bitarr.take (dim n)) i = false := by
    intro i hi
    by_cases hlt : i < dim n * N.bits
    case pos =>
      rw [bit_take hlt, ← Bool.not_eq_true]
      exact fun hbit => hnone ⟨i, hi, hlt.trans_le dim_mul_le, hbit⟩
    case neg => exact bit_of_length_le (by rwa [htake, ← not_lt])
  obtain ⟨o, ho⟩ : ∃ o, o = new (bitarr.take (dim n)) n := ⟨_, rfl⟩
  rw [← ho] at hnew hf
  cases o
  case none => exact Option.some_ne_none _ hf.symm
  case some r =>
    rw [Option.bind_some, foreach_of_outside htake hnew hge hbits] at hf
    exact Option.some_ne_none _ hf.symm

theorem visits_iff (hlen : dim n ≤ bitarr.length) :
    (∀ (v : BitVec N.bits) (forward : Bool), v ≠ 0 → ∃ i : Nat, softScan forward v = i ∧ IsFirst forward v i) ∧
      (Visits bitarr n ↔
        n.toNat ≤ 2 ^ N.bits - N.bits ∨ ∃ i, n.toNat ≤ i ∧ i < 2 ^ N.bits ∧ bit bitarr i = true) :=
  ⟨fun _ _ hv => softScan_spec hv, fun h => h.stops hlen, fun h => Stops.visits h hlen⟩

theorem visits_stray_bits : Visits (N := .ulong) [0x8000000000000005] 0x3 :=
  (visits_iff (by decide)).2.mpr (.inl (by decide))

-- The number of the bit after the last word is taken for zero.
theorem not_visits_whole_memory : ¬Visits (N := .ulong) (List.replicate (2 ^ 58) 0) (BitVec.allOnes 64) := by
  intro h
  have hbit : ∀ i, bit (N := .ulong) (List.replicate (2 ^ 58) 0) i = false := by
    intro i
    have hget : (List.replicate (2 ^ 58) (0 : BitVec Word.ulong.bits)).getD (i / Word.ulong.bits) 0 = 0 := by
      rw [List.getD_eq_getElem?_getD, List.getElem?_replicate]
      split_ifs <;> rfl
    rw [bit, WordBits.bit, hget]
    exact BitVec.getLsbD_zero
  obtain hle | ⟨i, -, -, hi⟩ := h.stops (by rw [List.length_replicate]; decide)
  case inl => exact absurd hle (by decide)
  case inr => exact Bool.false_ne_true ((hbit i).symm.trans hi)

end traversal

end BitRange

end Runtime.Bitop
