import DmdModel.Runtime.Dwarf.LineProgram

namespace Runtime.Dwarf

variable {buffer rest : List Byte} {b : Byte} {n : Leb128} {val : BitVec 64}

theorem read_one : read 1 (b :: buffer) = some (b.setWidth 64, buffer) := by
  rw [read, read]
  refine congrArg some (Prod.ext ?_ rfl)
  show 0#64 <<< 8 ||| b.setWidth 64 = b.setWidth 64
  rw [BitVec.zero_shiftLeft, BitVec.zero_or]

-- What is read is what was written.
theorem read_littleEndian {w size : Nat} {v : BitVec w} (h : size ≤ 8) :
    read size (littleEndian size v ++ rest) = some (BitVec.ofNat 64 (v.toNat % 2 ^ (8 * size)), rest) := by
  induction size generalizing v
  case zero =>
    rw [Nat.mul_zero, Nat.pow_zero, Nat.mod_one]
    rfl
  case succ n hi =>
    rw [littleEndian, List.cons_append, read, hi (Nat.le_of_succ_le h)]
    refine congrArg some (Prod.ext (BitVec.toNat_inj.mp ?_) rfl)
    have hpow : 2 ^ (8 * (n + 1)) = 2 ^ 8 * 2 ^ (8 * n) := by
      rw [← Nat.pow_add]
      congr 1
      omega
    have hmono : 2 ^ (8 * n) ≤ 2 ^ 56 := Nat.pow_le_pow_right (by decide) (by omega)
    have hlow : v.toNat % 2 ^ 8 < 2 ^ 8 := Nat.mod_lt _ (by decide)
    have hhigh : v.toNat / 2 ^ 8 % 2 ^ (8 * n) < 2 ^ (8 * n) := Nat.mod_lt _ (Nat.two_pow_pos _)
    rw [hpow, Nat.mod_mul]
    simp only [BitVec.toNat_or, BitVec.toNat_shiftLeft, BitVec.toNat_ofNat, BitVec.toNat_setWidth,
      BitVec.toNat_ushiftRight, Nat.shiftRight_eq_div_pow]
    rw [Nat.mod_eq_of_lt (show v.toNat / 2 ^ 8 % 2 ^ (8 * n) < 2 ^ 64 by omega), Nat.shiftLeft_eq,
      Nat.mod_eq_of_lt (show v.toNat / 2 ^ 8 % 2 ^ (8 * n) * 2 ^ 8 < 2 ^ 64 by omega),
      Nat.mod_eq_of_lt (show v.toNat % 2 ^ 8 < 2 ^ 64 by omega),
      Nat.mod_eq_of_lt (show v.toNat % 2 ^ 8 + 2 ^ 8 * (v.toNat / 2 ^ 8 % 2 ^ (8 * n)) < 2 ^ 64 by omega),
      ← Nat.shiftLeft_eq, ← Nat.shiftLeft_add_eq_or_of_lt hlow, Nat.shiftLeft_eq]
    omega

-- A group of seven bits that has room in 28 bits is added at its place, and all later ones are zeros.
theorem toNat_group {g : BitVec 7} {i : Nat} (hb : b &&& 0x7F#8 = g.setWidth 8) (h : 2 ^ (7 * i) * g.toNat < 2 ^ 28) :
    (group b (BitVec.ofNat 32 (7 * i))).toNat = 2 ^ (7 * i) * g.toNat := by
  rw [group, hb]
  by_cases hg : g = 0#7
  case pos =>
    rw [hg, BitVec.setWidth_zero, BitVec.setWidth_zero, BitVec.zero_shiftLeft]
    rfl
  case neg =>
    have hpos : 0 < g.toNat := Nat.pos_of_ne_zero fun h0 => hg (BitVec.toNat_inj.mp h0)
    have hi : i < 4 := by
      by_contra hi
      have hpow : 2 ^ 28 ≤ 2 ^ (7 * i) := Nat.pow_le_pow_right (by decide) (by omega)
      have hle := Nat.le_mul_of_pos_right (2 ^ (7 * i)) hpos
      omega
    have hlt := g.isLt
    have hshift : (BitVec.ofNat 32 (7 * i)).toNat % 32 = 7 * i := by
      rw [BitVec.toNat_ofNat]
      omega
    have hval : (((g.setWidth 8).setWidth 32 : BitVec 32) <<< (7 * i)).toNat = 2 ^ (7 * i) * g.toNat := by
      rw [BitVec.toNat_shiftLeft, BitVec.toNat_setWidth, BitVec.toNat_setWidth, Nat.mod_eq_of_lt (show g.toNat < 2 ^ 8 by omega),
        Nat.mod_eq_of_lt (show g.toNat < 2 ^ 32 by omega), Nat.shiftLeft_eq, Nat.mul_comm]
      exact Nat.mod_eq_of_lt (by omega)
    have hmsb : (((g.setWidth 8).setWidth 32 : BitVec 32) <<< (7 * i)).msb = false := by
      rw [BitVec.msb_eq_decide, hval]
      exact decide_eq_false (by omega)
    rw [hshift, BitVec.signExtend_eq_setWidth_of_msb_false hmsb, BitVec.toNat_setWidth, hval]
    exact Nat.mod_eq_of_lt (by omega)

theorem or_group {g : BitVec 7} {i : Nat} (hb : b &&& 0x7F#8 = g.setWidth 8) (hval : val.toNat < 2 ^ (7 * i))
    (h : val.toNat + 2 ^ (7 * i) * g.toNat < 2 ^ 28) :
    (val ||| group b (BitVec.ofNat 32 (7 * i))).toNat = val.toNat + 2 ^ (7 * i) * g.toNat := by
  rw [BitVec.toNat_or, toNat_group hb (by omega), Nat.mul_comm, ← Nat.shiftLeft_eq, Nat.or_comm,
    ← Nat.shiftLeft_add_eq_or_of_lt hval, Nat.add_comm]

theorem more_and_mask (g : BitVec 7) : (0x80#8 ||| g.setWidth 8) &&& 0x7F#8 = g.setWidth 8 := by
  revert g
  decide

theorem more_and_bit (g : BitVec 7) : (0x80#8 ||| g.setWidth 8) &&& 0x80#8 ≠ 0 := by
  revert g
  decide

theorem last_and_mask (g : BitVec 7) : g.setWidth 8 &&& 0x7F#8 = g.setWidth 8 ∧ g.setWidth 8 &&& 0x80#8 = 0 := by
  revert g
  decide

theorem shift_succ (i : Nat) : BitVec.ofNat 32 (7 * i) + 7 = BitVec.ofNat 32 (7 * (i + 1)) := by
  rw [← BitVec.toNat_inj, BitVec.toNat_add, BitVec.toNat_ofNat, BitVec.toNat_ofNat, Nat.mod_add_mod]
  rfl

-- After i groups of a number of which the value is known, the others are read.
theorem readGroups_bytes {i : Nat} (hval : val.toNat < 2 ^ (7 * i))
    (h : val.toNat + 2 ^ (7 * i) * n.unsigned < 2 ^ 28) :
    readGroups val (BitVec.ofNat 32 (7 * i)) (n.bytes ++ rest) =
      some (BitVec.ofNat 64 (val.toNat + 2 ^ (7 * i) * n.unsigned), n.last.setWidth 8,
        BitVec.ofNat 32 (7 * (i + n.size)), rest) := by
  obtain ⟨more, last⟩ := n
  induction more generalizing val i
  case nil =>
    rw [Leb128.unsigned_nil] at h
    rw [Leb128.unsigned_nil, Leb128.bytes]
    show readGroups val _ (last.setWidth 8 :: rest) = _
    rw [readGroups, if_pos (last_and_mask last).2, shift_succ, ← or_group (last_and_mask last).1 hval h, BitVec.ofNat_toNat, BitVec.setWidth_eq]
    rfl
  case cons g gs hi =>
    rw [Leb128.unsigned_cons] at h
    have hg := g.isLt
    have hpow : 2 ^ (7 * (i + 1)) = 2 ^ (7 * i) * 128 := by
      rw [Nat.mul_succ, Nat.pow_add]
    have hsplit : 2 ^ (7 * i) * (g.toNat + 128 * Leb128.unsigned ⟨gs, last⟩) =
        2 ^ (7 * i) * g.toNat + 2 ^ (7 * (i + 1)) * Leb128.unsigned ⟨gs, last⟩ := by
      rw [hpow, Nat.mul_add, Nat.mul_assoc]
    have hnext := or_group (more_and_mask g) hval (by omega)
    have hlt : val.toNat + 2 ^ (7 * i) * g.toNat < 2 ^ (7 * (i + 1)) := by
      have hle : 2 ^ (7 * i) * (g.toNat + 1) ≤ 2 ^ (7 * i) * 128 := Nat.mul_le_mul_left _ hg
      rw [Nat.mul_succ] at hle
      rw [hpow]
      omega
    show readGroups val _ ((0x80#8 ||| g.setWidth 8) :: (Leb128.bytes ⟨gs, last⟩ ++ rest)) = _
    rw [readGroups, if_neg (more_and_bit g), shift_succ, hi (by rw [hnext]; exact hlt) (by rw [hnext]; omega), hnext,
      Leb128.unsigned_cons, Leb128.size_cons, hsplit, Nat.add_assoc, Nat.add_assoc i, Nat.add_comm 1]

theorem readGroups_start (h : n.unsigned < 2 ^ 28) : readGroups 0 0 (n.bytes ++ rest) =
    some (BitVec.ofNat 64 n.unsigned, n.last.setWidth 8, BitVec.ofNat 32 (7 * n.size), rest) := by
  have hsum : (0#64).toNat + 2 ^ (7 * 0) * n.unsigned = n.unsigned := by
    rw [BitVec.toNat_ofNat, Nat.mul_zero, Nat.pow_zero, Nat.one_mul]
    exact Nat.zero_add _
  have hread := @readGroups_bytes rest n 0#64 0 (by decide) (by rwa [hsum])
  rwa [hsum, Nat.zero_add] at hread

theorem readULEB128_bytes (h : n.unsigned < 2 ^ 28) :
    readULEB128 (n.bytes ++ rest) = some (BitVec.ofNat 64 n.unsigned, rest) := by
  rw [readULEB128, readGroups_start h]
  rfl

-- The sign of a number is extended if it has at most four groups.
theorem readSLEB128_bytes (h : n.unsigned < 2 ^ 28) (hn : n.last.toNat < 64 ∨ n.size ≤ 4) :
    readSLEB128 (n.bytes ++ rest) = some (BitVec.ofInt 64 n.signed, rest) := by
  have hsign : n.last.setWidth 8 &&& 0x40#8 ≠ 0 ↔ ¬n.last.toNat < 64 := by
    generalize n.last = g
    revert g
    decide
  rw [readSLEB128, readGroups_start h, Leb128.signed]
  by_cases hlast : n.last.toNat < 64
  case pos =>
    rw [if_pos hlast]
    refine congrArg some ((if_neg fun hc => hsign.mp hc.2 hlast).trans ?_)
    rfl
  case neg =>
    have hsize := hn.resolve_left hlast
    have hlt := @Leb128.unsigned_lt n
    have hpos := @Leb128.size_pos n
    rw [if_neg hlast]
    have hor {k c : Nat} (hu : n.unsigned < 2 ^ k) (hk : k < 32) (hc : c * 2 ^ k + 2 ^ k = 2 ^ 64)
        (hneg : (-(1#32 <<< k)).signExtend 64 = BitVec.ofNat 64 (c * 2 ^ k)) :
        BitVec.ofNat 64 n.unsigned ||| (-(1#32 <<< k)).signExtend 64 =
          BitVec.ofInt 64 (n.unsigned - (2 ^ k : Nat)) := by
      have hpow := Nat.two_pow_pos k
      rw [hneg, ← BitVec.toNat_inj, BitVec.toNat_or, BitVec.toNat_ofNat, BitVec.toNat_ofNat, BitVec.toNat_ofInt,
        Nat.mod_eq_of_lt (show n.unsigned < 2 ^ 64 by omega), Nat.mod_eq_of_lt (show c * 2 ^ k < 2 ^ 64 by omega),
        ← Nat.shiftLeft_eq, Nat.or_comm, ← Nat.shiftLeft_add_eq_or_of_lt hu, Nat.shiftLeft_eq]
      omega
    have hshift : (BitVec.ofNat 32 (7 * n.size)).toNat = 7 * n.size := by
      rw [BitVec.toNat_ofNat]
      omega
    refine congrArg some ((if_pos ⟨by rw [hshift]; omega, hsign.mpr hlast⟩).trans (Prod.ext ?_ rfl))
    obtain h1 | h1 | h1 | h1 : n.size = 1 ∨ n.size = 2 ∨ n.size = 3 ∨ n.size = 4 := by omega
    all_goals
      rw [h1] at hlt ⊢
    · exact @hor 7 (2 ^ 57 - 1) hlt (by decide) (by decide) (by decide)
    · exact @hor 14 (2 ^ 50 - 1) hlt (by decide) (by decide) (by decide)
    · exact @hor 21 (2 ^ 43 - 1) hlt (by decide) (by decide) (by decide)
    · exact @hor 28 (2 ^ 36 - 1) hlt (by decide) (by decide) (by decide)

end Runtime.Dwarf
