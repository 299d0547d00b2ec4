import DmdModel.Compiler.Backend.Theorems.DwarfEh
import DmdModel.Lib.WordBits
import DmdModel.Runtime.Dwarf.Theorems.Reads

-- Which numbers are read back, when their groups are shifted in 32 bits.

namespace Runtime.Dwarf

section bits

variable {p : Nat → Prop} {σ : Prop} {n : Nat}

-- The bits of a number of `n` groups
def WrittenBit (p : Nat → Prop) (σ : Prop) (n j : Nat) : Prop :=
  if j < 7 * n then p j else σ

-- What becomes of them in a reader that shifts 32 bits
def ReadBit (p : Nat → Prop) (σ : Prop) (n j : Nat) : Prop :=
  (∃ i < n, ∃ k < 7, 7 * i % 32 + k = min j 31 ∧ p (7 * i + k)) ∨ (σ ∧ 7 * n < 64 ∧ 7 * n % 32 ≤ j)

theorem read_top {j : Nat} (hj : 31 ≤ j) : ReadBit p σ n j ↔ ReadBit p σ n 31 := by
  have hmin : min j 31 = min 31 31 := by omega
  have hle : 7 * n % 32 ≤ j ↔ 7 * n % 32 ≤ 31 := by omega
  rw [ReadBit, ReadBit, hmin, hle]

theorem read_of_high (hn : 5 ≤ n) (h : ∀ j, 31 ≤ j → j < 64 → WrittenBit p σ n j) {j : Nat} (hj : 3 ≤ j) :
    ReadBit p σ n j := by
  obtain ⟨m, hm⟩ : ∃ m, m = min j 31 := ⟨_, rfl⟩
  by_cases h31 : m = 31
  case pos =>
    have hbit := h 31 (by omega) (by omega)
    rw [WrittenBit, if_pos (by omega)] at hbit
    exact .inl ⟨4, by omega, 3, by omega, by omega, hbit⟩
  case neg =>
    have hbit := h (m + 32) (by omega) (by omega)
    rw [WrittenBit] at hbit
    by_cases hlt : m + 32 < 7 * n
    case pos =>
      rw [if_pos hlt] at hbit
      refine .inl ⟨(m + 32) / 7, by omega, (m + 32) % 7, by omega, ?_, ?_⟩
      · omega
      · rwa [Nat.div_add_mod]
    case neg =>
      rw [if_neg hlt] at hbit
      exact .inr ⟨hbit, by omega, by omega⟩

theorem read_low (hn : n ≤ 10) (hn' : 5 ≤ n) {j : Nat} (hj : j < 3) : ReadBit p σ n j ↔ WrittenBit p σ n j := by
  rw [ReadBit, WrittenBit, if_pos (by omega)]
  constructor
  case mp =>
    rintro (⟨i, hi, k, hk, heq, hp⟩ | ⟨-, h64, hle⟩)
    case inl =>
      -- The other groups are shifted by 3 at least.
      have hi0 : i = 0 := by
        have hi10 : i < 10 := by omega
        interval_cases i <;> omega
      have hkj : 7 * i + k = j := by omega
      rwa [hkj] at hp
    case inr => interval_cases n <;> omega
  case mpr => exact fun hp => .inl ⟨0, by omega, j, by omega, by omega, by rwa [Nat.mul_zero, Nat.zero_add]⟩

theorem read_of_low (h : ∀ j, 31 ≤ j → j < 64 → ¬WrittenBit p σ n j) (hp : ∀ k, 31 ≤ k → k < 7 * n → ¬p k)
    {j : Nat} (hj : j < 64) : ReadBit p σ n j ↔ WrittenBit p σ n j := by
  have hσ : 7 * n < 64 → ¬σ := by
    intro hlt
    have hw := h 63 (by decide) (by decide)
    rwa [WrittenBit, if_neg (by omega)] at hw
  rw [ReadBit, WrittenBit]
  constructor
  case mp =>
    rintro (⟨i, hi, k, hk, heq, hpk⟩ | ⟨hσ', h64, hle⟩)
    case inl =>
      have hlt : 7 * i + k < 31 := by
        by_contra hge
        exact hp _ (not_lt.mp hge) (by omega) hpk
      have heq' : 7 * i + k = j := by omega
      rw [heq'] at hpk
      rwa [if_pos (by omega)]
    case inr => exact absurd hσ' (hσ h64)
  case mpr =>
    split_ifs with hlt
    case pos =>
      intro hpj
      have h31 : j < 31 := by
        by_contra hge
        exact hp _ (not_lt.mp hge) hlt hpj
      exact .inl ⟨j / 7, by omega, j % 7, by omega, by omega, by rwa [Nat.div_add_mod]⟩
    case neg => exact fun hσ' => absurd hσ' (hσ (by omega))

theorem read_of_few (hn : n ≤ 4) {j : Nat} : ReadBit p σ n j ↔ WrittenBit p σ n j := by
  rw [ReadBit, WrittenBit]
  constructor
  case mp =>
    rintro (⟨i, hi, k, hk, heq, hpk⟩ | ⟨hσ', h64, hle⟩)
    case inl =>
      have hmod : 7 * i % 32 = 7 * i := Nat.mod_eq_of_lt (by omega)
      have heq' : 7 * i + k = j := by omega
      rw [heq'] at hpk
      rwa [if_pos (by omega)]
    case inr => rwa [if_neg (by omega)]
  case mpr =>
    split_ifs with hlt
    case pos => exact fun hpj => .inl ⟨j / 7, by omega, j % 7, by omega, by omega, by rwa [Nat.div_add_mod]⟩
    case neg => exact fun hσ' => .inr ⟨hσ', by omega, by omega⟩

theorem read_iff (hn : n ≤ 10) (htop : ∀ k, 64 ≤ k → k < 7 * n → p k → σ) (hσ : n = 10 → σ → p 63) :
    (∀ j < 64, ReadBit p σ n j ↔ WrittenBit p σ n j) ↔
      n ≤ 4 ∨ (∀ j, 31 ≤ j → j < 64 → ¬WrittenBit p σ n j) ∨ ∀ j, 3 ≤ j → j < 64 → WrittenBit p σ n j := by
  constructor
  case mp =>
    intro h
    by_cases hn' : n ≤ 4
    case pos => exact .inl hn'
    case neg =>
      have htop (j : Nat) (hj : 31 ≤ j) (hlt : j < 64) : WrittenBit p σ n j ↔ ReadBit p σ n 31 := by
        rw [← h j hlt, read_top hj]
      by_cases h31 : ReadBit p σ n 31
      case neg => exact .inr (.inl fun j hj hlt => mt (htop j hj hlt).mp h31)
      case pos =>
        refine .inr (.inr fun j hj hlt => (h j hlt).mp ?_)
        exact read_of_high (by omega) (fun k hk hlt => (htop k hk hlt).mpr h31) hj
  case mpr =>
    rintro (h | h | h) j hj
    case inl => exact read_of_few h
    case inr.inl =>
      refine read_of_low h (fun k hk hlt hp => ?_) hj
      by_cases h64 : k < 64
      case pos =>
        have hw := h k hk h64
        rw [WrittenBit, if_pos hlt] at hw
        exact hw hp
      case neg =>
        have hw := h 63 (by decide) (by decide)
        rw [WrittenBit, if_pos (by omega)] at hw
        exact hw (hσ (by omega) (htop k (by omega) hlt hp))
    case inr.inr =>
      by_cases hn' : n ≤ 4
      case pos => exact read_of_few hn'
      case neg =>
        by_cases hj3 : 3 ≤ j
        case pos => exact iff_of_true (read_of_high (by omega) (fun k hk hlt => h k (by omega) hlt) hj3) (h j hj3 hj)
        case neg => exact read_low hn (by omega) (not_le.mp hj3)

end bits

section reads

variable {e : Leb128} {b : Byte} {g : BitVec 7} {v val : BitVec 64} {rest : List Byte} {i j k : Nat}

-- A number of 32 bits whose sign is extended
theorem getLsbD_extended (x : BitVec 32) (hj : j < 64) : (x.signExtend 64).getLsbD j = x.getLsbD (min j 31) := by
  rw [BitVec.getLsbD_signExtend, decide_eq_true hj, Bool.true_and, BitVec.msb_eq_getLsbD_last]
  split_ifs with h
  case pos => rw [min_eq_left (by omega)]
  case neg => rw [min_eq_right (by omega)]

theorem getLsbD_group (hb : b &&& 0x7F#8 = g.setWidth 8) (hj : j < 64) :
    (group b (BitVec.ofNat 32 (7 * i))).getLsbD j = true ↔ ∃ k < 7, 7 * i % 32 + k = min j 31 ∧ g.getLsbD k = true := by
  have hshift : (BitVec.ofNat 32 (7 * i)).toNat % 32 = 7 * i % 32 := by
    rw [BitVec.toNat_ofNat]
    omega
  have hmin : min j 31 < 32 := by omega
  rw [group, getLsbD_extended _ hj, hb, hshift, BitVec.getLsbD_shiftLeft, decide_eq_true hmin, Bool.true_and,
    Bool.and_eq_true, Bool.not_eq_true', decide_eq_false_iff_not, BitVec.getLsbD_setWidth, BitVec.getLsbD_setWidth,
    Bool.and_eq_true, Bool.and_eq_true]
  constructor
  case mp =>
    rintro ⟨hle, -, -, hbit⟩
    exact ⟨_, BitVec.lt_of_getLsbD hbit, Nat.add_sub_of_le (not_lt.mp hle), hbit⟩
  case mpr =>
    rintro ⟨k, hk, heq, hbit⟩
    rw [← heq, Nat.add_sub_cancel_left]
    exact ⟨by omega, decide_eq_true (by omega), decide_eq_true (by omega), hbit⟩

-- The bits of the groups at the places where the reader puts them
theorem readGroups_bits : ∃ r, readGroups val (BitVec.ofNat 32 (7 * i)) (e.bytes ++ rest) =
      some (r, e.last.setWidth 8, BitVec.ofNat 32 (7 * (i + e.size)), rest) ∧
    ∀ j < 64, r.getLsbD j = true ↔ val.getLsbD j = true ∨
      ∃ m < e.size, ∃ k < 7, 7 * (i + m) % 32 + k = min j 31 ∧ e.bit (7 * m + k) = true := by
  obtain ⟨more, last⟩ := e
  induction more generalizing val i
  case nil =>
    refine ⟨val ||| group (last.setWidth 8) (BitVec.ofNat 32 (7 * i)), ?_, fun j hj => ?_⟩
    · show readGroups val _ (last.setWidth 8 :: rest) = _
      rw [readGroups, if_pos (last_and_mask last).2, shift_succ]
      rfl
    · rw [BitVec.getLsbD_or, Bool.or_eq_true, getLsbD_group (last_and_mask last).1 hj]
      refine or_congr_right ⟨?_, ?_⟩
      · rintro ⟨k, hk, heq, hbit⟩
        refine ⟨0, Nat.one_pos, k, hk, heq, ?_⟩
        rw [Nat.mul_zero, Nat.zero_add, Leb128.bit, Nat.div_eq_of_lt hk, Nat.mod_eq_of_lt hk]
        exact hbit
      · rintro ⟨m, hm, k, hk, heq, hbit⟩
        obtain rfl : m = 0 := Nat.lt_one_iff.mp hm
        rw [Nat.mul_zero, Nat.zero_add, Leb128.bit, Nat.div_eq_of_lt hk, Nat.mod_eq_of_lt hk] at hbit
        exact ⟨k, hk, heq, hbit⟩
  case cons g gs ih =>
    obtain ⟨r, hread, hbits⟩ := @ih (val ||| group (0x80#8 ||| g.setWidth 8) (BitVec.ofNat 32 (7 * i))) (i + 1)
    refine ⟨r, ?_, fun j hj => ?_⟩
    · show readGroups val _ ((0x80#8 ||| g.setWidth 8) :: (Leb128.bytes ⟨gs, last⟩ ++ rest)) = _
      rw [readGroups, if_neg (more_and_bit g), shift_succ, hread, Leb128.size_cons, Nat.add_assoc i, Nat.add_comm 1]
    · have hbit (m k : Nat) : Leb128.bit ⟨g :: gs, last⟩ (7 * (m + 1) + k) = Leb128.bit ⟨gs, last⟩ (7 * m + k) := by
        rw [Leb128.bit_cons, if_neg (by omega)]
        congr 1
        omega
      rw [hbits j hj, BitVec.getLsbD_or, Bool.or_eq_true, getLsbD_group (more_and_mask g) hj, or_assoc]
      refine or_congr_right ⟨?_, ?_⟩
      · rintro (⟨k, hk, heq, hg⟩ | ⟨m, hm, k, hk, heq, hm'⟩)
        case inl =>
          refine ⟨0, Nat.succ_pos _, k, hk, heq, ?_⟩
          rwa [Leb128.bit_cons, Nat.mul_zero, Nat.zero_add, if_pos hk]
        case inr =>
          refine ⟨m + 1, Nat.succ_lt_succ hm, k, hk, ?_, (hbit m k).trans hm'⟩
          rwa [Nat.add_comm m, ← Nat.add_assoc]
      · rintro ⟨m, hm, k, hk, heq, hm'⟩
        cases m
        case zero =>
          rw [Leb128.bit_cons, Nat.mul_zero, Nat.zero_add, if_pos hk] at hm'
          exact .inl ⟨k, hk, heq, hm'⟩
        case succ m =>
          rw [Nat.add_comm m, ← Nat.add_assoc] at heq
          exact .inr ⟨m, Nat.lt_of_succ_lt_succ hm, k, hk, heq, (hbit m k).symm.trans hm'⟩

theorem low_iff : (∀ j, 31 ≤ j → j < 64 → ¬v.getLsbD j = true) ↔ v.toNat < 2 ^ 31 := by
  constructor
  case mp =>
    intro h
    refine Nat.lt_pow_two_of_testBit _ fun j hj => ?_
    by_cases hlt : j < 64
    case pos => exact Bool.not_eq_true _ ▸ h j hj hlt
    case neg => exact BitVec.getLsbD_of_ge v j (not_lt.mp hlt)
  case mpr =>
    intro h j hj _
    rw [BitVec.getLsbD, Nat.testBit_lt_two_pow (h.trans_le (Nat.pow_le_pow_right Nat.two_pos hj))]
    exact Bool.false_ne_true

theorem high_iff : (∀ j, 3 ≤ j → j < 64 → v.getLsbD j = true) ↔ 2 ^ 64 - 8 ≤ v.toNat := by
  have hlt := v.isLt
  have hdiv : 2 ^ 64 - 8 ≤ v.toNat ↔ v.toNat / 2 ^ 3 = 2 ^ 61 - 1 := by omega
  rw [hdiv]
  constructor
  case mp =>
    intro h
    refine Nat.eq_of_testBit_eq fun j => ?_
    rw [Nat.testBit_div_two_pow, Nat.testBit_two_pow_sub_one]
    by_cases hj : j < 61
    case pos => exact (h (j + 3) (by omega) (by omega)).trans (decide_eq_true hj).symm
    case neg => exact (BitVec.getLsbD_of_ge v _ (by omega)).trans (decide_eq_false hj).symm
  case mpr =>
    intro h j hj hlt
    have hbit := congrArg (Nat.testBit · (j - 3)) h
    change (v.toNat / 2 ^ 3).testBit (j - 3) = (2 ^ 61 - 1).testBit (j - 3) at hbit
    rwa [Nat.testBit_div_two_pow, Nat.testBit_two_pow_sub_one, decide_eq_true (by omega), Nat.sub_add_cancel hj] at hbit

theorem eq_iff_bits {u : BitVec 64} : u = v ↔ ∀ j < 64, u.getLsbD j = true ↔ v.getLsbD j = true := by
  refine ⟨fun h j _ => h ▸ Iff.rfl, fun h => BitVec.eq_of_getLsbD_eq fun j hj => ?_⟩
  exact Bool.eq_iff_iff.mpr (h j hj)

theorem eq_iff_read {p : Nat → Prop} {σ : Prop} {n : Nat} {u : BitVec 64} (hn : n ≤ 10)
    (hread : ∀ j < 64, u.getLsbD j = true ↔ ReadBit p σ n j)
    (hwritten : ∀ j < 64, v.getLsbD j = true ↔ WrittenBit p σ n j)
    (htop : ∀ k, 64 ≤ k → k < 7 * n → p k → σ) (hσ : n = 10 → σ → p 63) :
    u = v ↔ n ≤ 4 ∨ v.toNat < 2 ^ 31 ∨ 2 ^ 64 - 8 ≤ v.toNat := by
  rw [eq_iff_bits, ← low_iff, ← high_iff]
  refine Iff.trans ?_ ((read_iff hn htop hσ).trans (or_congr_right (or_congr ?_ ?_)))
  · refine forall₂_congr fun j hj => ?_
    rw [hread j hj, hwritten j hj]
  · exact forall₃_congr fun j _ hj => not_congr (hwritten j hj).symm
  · exact forall₃_congr fun j _ hj => (hwritten j hj).symm

theorem readGroups_start_bits : ∃ r, readGroups 0 0 (e.bytes ++ rest) =
      some (r, e.last.setWidth 8, BitVec.ofNat 32 (7 * e.size), rest) ∧
    ∀ j < 64, r.getLsbD j = true ↔
      ∃ m < e.size, ∃ k < 7, 7 * m % 32 + k = min j 31 ∧ e.bit (7 * m + k) = true := by
  obtain ⟨r, hread, hbits⟩ := @readGroups_bits e 0 rest 0
  rw [Nat.zero_add] at hread
  refine ⟨r, hread, fun j hj => ?_⟩
  have hzero : ¬(0 : BitVec 64).getLsbD j = true := fun h => Bool.false_ne_true (BitVec.getLsbD_zero.symm.trans h)
  rw [hbits j hj, or_iff_right hzero]
  simp only [Nat.zero_add]

theorem readULEB128_iff (hn : e.size ≤ 10) (h : e.unsigned < 2 ^ 64) :
    readULEB128 (e.bytes ++ rest) = some (BitVec.ofNat 64 e.unsigned, rest) ↔
      e.unsigned < 2 ^ 31 ∨ 2 ^ 64 - 8 ≤ e.unsigned := by
  obtain ⟨r, hread, hbits⟩ := @readGroups_start_bits e rest
  have hread' : readULEB128 (e.bytes ++ rest) = some (r, rest) := by
    rw [readULEB128, hread]
    rfl
  have hvalue : (BitVec.ofNat 64 e.unsigned).toNat = e.unsigned := by
    rw [BitVec.toNat_ofNat, Nat.mod_eq_of_lt h]
  have hfew : e.size ≤ 4 → e.unsigned < 2 ^ 31 := fun hsize =>
    Leb128.unsigned_lt.trans_le (Nat.pow_le_pow_right Nat.two_pos (by omega))
  have hiff := @eq_iff_read (BitVec.ofNat 64 e.unsigned) (e.bit · = true) False e.size r hn
    (fun j hj => ?_) (fun j hj => ?_) (fun k hk _ hbit => ?_) fun _ => False.elim
  case refine_1 => rw [hbits j hj, ReadBit, false_and, or_false]
  case refine_2 =>
    rw [Leb128.getLsbD_unsigned, decide_eq_true hj, Bool.true_and, WrittenBit]
    split_ifs with hlt
    case pos => exact Iff.rfl
    case neg => rw [e.bit_of_le (not_lt.mp hlt), iff_false, Bool.not_eq_true]
  case refine_3 =>
    rw [← Leb128.testBit_unsigned, Nat.testBit_lt_two_pow (h.trans_le (Nat.pow_le_pow_right Nat.two_pos hk))] at hbit
    exact Bool.false_ne_true hbit
  rw [hread', Option.some_inj, Prod.mk.injEq, and_iff_left rfl, hiff, hvalue, or_iff_right_of_imp fun hsize => .inl (hfew hsize)]

-- The bits that do not fit are copies of the sign.
theorem bit_iff_sign (hn : e.size ≤ 10) (hlow : -2 ^ 63 ≤ e.signed) (hhigh : e.signed < 2 ^ 63) (hk : 63 ≤ k)
    (hlt : k < 7 * e.size) : e.bit k = true ↔ e.last.getLsbD 6 = true := by
  have hsize : e.size = 10 := by omega
  rw [Leb128.negative_iff, ← Leb128.testBit_unsigned]
  rw [Leb128.signed, hsize] at hlow hhigh
  have hmax := @Leb128.unsigned_lt e
  rw [hsize] at hmax hlt
  by_cases hlast : e.last.toNat < 64
  case pos =>
    rw [if_pos hlast] at hhigh
    refine iff_of_false ?_ (not_not_intro hlast)
    rw [Nat.testBit_lt_two_pow (Nat.lt_of_lt_of_le (by omega : e.unsigned < 2 ^ 63) (Nat.pow_le_pow_right Nat.two_pos hk))]
    exact Bool.false_ne_true
  case neg =>
    rw [if_neg hlast] at hlow
    refine iff_of_true ?_ hlast
    have hdiv : e.unsigned / 2 ^ 63 = 2 ^ 7 - 1 := by omega
    rw [← Nat.sub_add_cancel hk, ← Nat.testBit_div_two_pow, hdiv, Nat.testBit_two_pow_sub_one, decide_eq_true_eq]
    omega

theorem readSLEB128_iff (hn : e.size ≤ 10) (hlow : -2 ^ 63 ≤ e.signed) (hhigh : e.signed < 2 ^ 63) :
    readSLEB128 (e.bytes ++ rest) = some (BitVec.ofInt 64 e.signed, rest) ↔
      e.size ≤ 4 ∨ (-8 ≤ e.signed ∧ e.signed < 2 ^ 31) := by
  obtain ⟨r, hread, hbits⟩ := @readGroups_start_bits e rest
  have hsign : e.last.setWidth 8 &&& 0x40#8 ≠ 0 ↔ e.last.getLsbD 6 = true := by
    generalize e.last = g
    revert g
    decide
  have hshift : (BitVec.ofNat 32 (7 * e.size)).toNat = 7 * e.size := by
    rw [BitVec.toNat_ofNat]
    omega
  obtain ⟨u, hu⟩ : ∃ u, u = if 7 * e.size < 64 ∧ e.last.getLsbD 6 = true then
      r ||| (-(1#32 <<< (7 * e.size % 32))).signExtend 64 else r := ⟨_, rfl⟩
  have hread' : readSLEB128 (e.bytes ++ rest) = some (u, rest) := by
    rw [readSLEB128, hread, hu, Option.map_some]
    simp only [hsign, hshift]
    split_ifs <;> rfl
  have hvalue : (BitVec.ofInt 64 e.signed).toInt = e.signed := by
    rw [BitVec.toInt_ofInt]
    exact Int.bmod_eq_of_le (by omega) (by omega)
  have hiff := @eq_iff_read (BitVec.ofInt 64 e.signed) (e.bit · = true) (e.last.getLsbD 6 = true) e.size u hn
    (fun j hj => ?_) (fun j hj => ?_) (fun k hk hlt => (bit_iff_sign hn hlow hhigh (by omega) hlt).mp)
    fun h10 => (bit_iff_sign hn hlow hhigh le_rfl (by omega)).mpr
  case refine_1 =>
    rw [ReadBit, hu]
    by_cases hs : 7 * e.size < 64 ∧ e.last.getLsbD 6 = true
    case pos =>
      have hmod : 7 * e.size % 32 < 32 := Nat.mod_lt _ (by decide)
      rw [if_pos hs, BitVec.getLsbD_or, Bool.or_eq_true, hbits j hj, getLsbD_extended _ hj,
        WordBits.getLsbD_neg_one_shl hmod (by omega), decide_eq_true_eq]
      refine or_congr_right ⟨fun h => ⟨hs.2, hs.1, by omega⟩, fun h => ?_⟩
      have hle := h.2.2
      omega
    case neg =>
      rw [if_neg hs, hbits j hj, or_iff_left fun h => hs ⟨h.2.1, h.1⟩]
  case refine_2 =>
    rw [Leb128.getLsbD_signed, decide_eq_true hj, Bool.true_and, WrittenBit]
    split_ifs <;> exact Iff.rfl
  have hrange : (BitVec.ofInt 64 e.signed).toNat < 2 ^ 31 ∨ 2 ^ 64 - 8 ≤ (BitVec.ofInt 64 e.signed).toNat ↔
      -8 ≤ e.signed ∧ e.signed < 2 ^ 31 := by
    have hcond := BitVec.toInt_eq_toNat_cond (BitVec.ofInt 64 e.signed)
    have hlt := (BitVec.ofInt 64 e.signed).isLt
    rw [hvalue] at hcond
    split_ifs at hcond <;> omega
  rw [hread', Option.some_inj, Prod.mk.injEq, and_iff_left rfl, hiff, hrange]

end reads

section writes

open Compiler.Backend.DwarfEh (writeuLEB128 writesLEB128 length_writeuLEB128 uLEB128size_groups)

variable {rest : List Byte}

-- The group of the lowest bits
theorem group_byte {n : Nat} (h : n < 2 ^ 7) : (BitVec.ofNat 7 n).setWidth 8 = BitVec.ofNat 8 n := by
  apply BitVec.eq_of_toNat_eq
  rw [BitVec.toNat_setWidth, BitVec.toNat_ofNat, BitVec.toNat_ofNat, Nat.mod_eq_of_lt h]

theorem writeuLEB128_bytes (value : Nat) : ∃ e : Leb128, writeuLEB128 value = e.bytes ∧ e.unsigned = value := by
  induction value using Nat.strongRecOn
  case ind value ih =>
    have hlow : value % 2 ^ 7 < 2 ^ 7 := Nat.mod_lt _ (by decide)
    have hgroup : (BitVec.ofNat 7 (value % 2 ^ 7)).toNat = value % 2 ^ 7 := by
      rw [BitVec.toNat_ofNat, Nat.mod_mod]
    rw [writeuLEB128]
    split
    case isTrue hmore =>
      obtain ⟨⟨more, last⟩, hbytes, hvalue⟩ := ih (value / 2 ^ 7) (by omega)
      refine ⟨⟨BitVec.ofNat 7 (value % 2 ^ 7) :: more, last⟩, ?_, ?_⟩
      · rw [hbytes, BitVec.or_comm, ← group_byte hlow]
        rfl
      · rw [Leb128.unsigned_cons, hvalue, hgroup]
        omega
    case isFalse hlast =>
      refine ⟨⟨[], BitVec.ofNat 7 (value % 2 ^ 7)⟩, ?_, ?_⟩
      · rw [← group_byte hlow]
        rfl
      · rw [Leb128.unsigned_nil, hgroup]
        omega

theorem writesLEB128_bytes (value : Int) : ∃ e : Leb128, writesLEB128 value = e.bytes ∧ e.signed = value ∧
    ∀ k : Nat, e.size ≤ k + 1 ↔ -2 ^ (7 * k + 6) ≤ value ∧ value < 2 ^ (7 * k + 6) := by
  have hbit {n : Nat} (h : n < 2 ^ 7) : BitVec.ofNat 8 n &&& 0x40#8 = 0 ↔ n < 64 := by
    revert n
    decide
  have hbyte (value : Int) : ∃ n : Nat, n < 2 ^ 7 ∧ (n : Int) = value % 2 ^ 7 ∧
      BitVec.ofInt 8 (value % 2 ^ 7) = BitVec.ofNat 8 n := by
    refine ⟨(value % 2 ^ 7).toNat, by omega, by omega, ?_⟩
    rw [← BitVec.ofInt_natCast, Int.toNat_of_nonneg (by omega)]
  fun_induction writesLEB128 value
  case case1 value b rest hstop =>
    obtain ⟨n, hn, hmod, hb⟩ := hbyte value
    have hb' : b = BitVec.ofNat 8 n := hb
    rw [hb'] at hstop ⊢
    rw [hbit hn, Ne, hbit hn] at hstop
    have hsmall : -64 ≤ value ∧ value < 64 := by omega
    refine ⟨⟨[], BitVec.ofNat 7 n⟩, ?_, ?_, fun k => iff_of_true (Nat.succ_le_succ (Nat.zero_le k)) ?_⟩
    · rw [← group_byte hn]
      rfl
    · have hlt : (BitVec.ofNat 7 n).toNat = n := by rw [BitVec.toNat_ofNat, Nat.mod_eq_of_lt hn]
      rw [Leb128.signed_nil, BitVec.toInt_eq_toNat_cond, hlt]
      split_ifs <;> omega
    · have hpow : (2 : Int) ^ 6 ≤ 2 ^ (7 * k + 6) := pow_le_pow_right₀ (by decide) (by omega)
      omega
  case case2 value b rest hmore ih =>
    obtain ⟨n, hn, hmod, hb⟩ := hbyte value
    have hb' : b = BitVec.ofNat 8 n := hb
    rw [hb'] at hmore ⊢
    rw [hbit hn, Ne, hbit hn] at hmore
    obtain ⟨⟨more, last⟩, hbytes, hvalue, hsize⟩ := ih
    have hlt : (BitVec.ofNat 7 n).toNat = n := by rw [BitVec.toNat_ofNat, Nat.mod_eq_of_lt hn]
    refine ⟨⟨BitVec.ofNat 7 n :: more, last⟩, ?_, ?_, fun k => ?_⟩
    · rw [hbytes, BitVec.or_comm, ← group_byte hn]
      rfl
    · rw [Leb128.signed_cons, hvalue, hlt]
      omega
    · rw [Leb128.size_cons]
      cases k
      case zero =>
        have hpos := Leb128.size_pos (e := ⟨more, last⟩)
        omega
      case succ k =>
        have hpow : (2 : Int) ^ (7 * (k + 1) + 6) = 2 ^ (7 * k + 6) * 2 ^ 7 := by
          rw [← pow_add, Nat.mul_succ, Nat.add_right_comm]
        rw [Nat.add_le_add_iff_right, hsize k, hpow]
        omega

theorem readULEB128_write {value : Nat} (h : value < 2 ^ 32) :
    readULEB128 (writeuLEB128 value ++ rest) = some (BitVec.ofNat 64 value, rest) ↔ value < 2 ^ 31 := by
  obtain ⟨e, hbytes, rfl⟩ := writeuLEB128_bytes value
  have hsize : e.size ≤ 5 := by
    rw [← Leb128.length_bytes, ← hbytes, length_writeuLEB128]
    exact (uLEB128size_groups h).le_five
  rw [hbytes, readULEB128_iff (by omega) (by omega)]
  omega

theorem readSLEB128_write {value : Int} (hlow : -2 ^ 31 ≤ value) (hhigh : value < 2 ^ 31) :
    readSLEB128 (writesLEB128 value ++ rest) = some (BitVec.ofInt 64 value, rest) ↔ -2 ^ 27 ≤ value := by
  obtain ⟨e, hbytes, rfl, hsize⟩ := writesLEB128_bytes value
  have hfour := hsize 3
  have hfive := hsize 4
  rw [hbytes, readSLEB128_iff (by omega) (by omega) (by omega)]
  omega

end writes

-- The groups from the fifth one on lose bits, and the highest bit of 32 bits is taken for the sign.
theorem leb128_iff (v : BitVec 32) (e : Leb128) (rest : List Byte) :
    (readULEB128 (Compiler.Backend.DwarfEh.writeuLEB128 v.toNat ++ rest) = some (v.setWidth 64, rest) ↔
      v.toNat < 2 ^ 31) ∧
    (readSLEB128 (Compiler.Backend.DwarfEh.writesLEB128 v.toInt ++ rest) = some (v.signExtend 64, rest) ↔
      -2 ^ 27 ≤ v.toInt) ∧
    (e.size ≤ 10 → e.unsigned < 2 ^ 64 →
      (readULEB128 (e.bytes ++ rest) = some (BitVec.ofNat 64 e.unsigned, rest) ↔
        e.unsigned < 2 ^ 31 ∨ 2 ^ 64 - 8 ≤ e.unsigned)) ∧
    (e.size ≤ 10 → -2 ^ 63 ≤ e.signed → e.signed < 2 ^ 63 →
      (readSLEB128 (e.bytes ++ rest) = some (BitVec.ofInt 64 e.signed, rest) ↔
        e.size ≤ 4 ∨ (-8 ≤ e.signed ∧ e.signed < 2 ^ 31))) := by
  refine ⟨?_, ?_, fun hn h => readULEB128_iff hn h, fun hn hlow hhigh => readSLEB128_iff hn hlow hhigh⟩
  · rw [← BitVec.ofNat_toNat]
    exact readULEB128_write v.isLt
  · exact readSLEB128_write v.le_toInt BitVec.toInt_lt

theorem leb128_padded : readULEB128 (Leb128.bytes ⟨[5, 0, 0, 0, 0, 0, 0, 0, 0], 0⟩ ++ [7]) = some (5, [7]) :=
  ((leb128_iff 0 ⟨[5, 0, 0, 0, 0, 0, 0, 0, 0], 0⟩ [7]).2.2.1 (by decide) (by decide)).mpr (.inl (by decide))

theorem not_readULEB128_write : ¬ ∀ (v : BitVec 32) (rest : List Byte),
    readULEB128 (Compiler.Backend.DwarfEh.writeuLEB128 v.toNat ++ rest) = some (v.setWidth 64, rest) := by
  intro h
  have hread := h 0x80000000 []
  rw [← BitVec.ofNat_toNat, readULEB128_write (by decide)] at hread
  exact absurd hread (by decide)

end Runtime.Dwarf
