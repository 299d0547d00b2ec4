import DmdModel.Runtime.Utf.Theorems.Utf16

namespace Runtime.Utf

variable {aa us ts rest : List Char8} {i j k n v : Nat} {d V : DChar} {u u2 c : Char8}

-- The first code unit of a sequence of `n` ones with the bits `v`.
structure Lead (u : Char8) (n v : Nat) : Prop where
  two   : 2 ≤ n
  four  : n ≤ 4
  toNat : u.toNat = 256 - 2 ^ (8 - n) + v
  bits  : v < 2 ^ (7 - n)

-- The number of the bits `v` with those of trailing code units behind them.
def value (v : Nat) (ts : List Char8) : Nat :=
  ts.foldl (fun v t => v * 64 + t.toNat % 64) v

theorem Lead.cases (h : Lead u n v) :
    (n = 2 ∧ u.toNat = 0xC0 + v ∧ v < 32) ∨ (n = 3 ∧ u.toNat = 0xE0 + v ∧ v < 16) ∨
    (n = 4 ∧ u.toNat = 0xF0 + v ∧ v < 8) := by
  obtain ⟨h2, h4, hu, hv⟩ := h
  obtain rfl | rfl | rfl : n = 2 ∨ n = 3 ∨ n = 4 := by omega
  · exact .inl ⟨rfl, hu, hv⟩
  · exact .inr (.inl ⟨rfl, hu, hv⟩)
  · exact .inr (.inr ⟨rfl, hu, hv⟩)

theorem Lead.ge (h : Lead u n v) : 0xC0 ≤ u.toNat := by
  obtain ⟨-, hu, -⟩ | ⟨-, hu, -⟩ | ⟨-, hu, -⟩ := h.cases <;> omega

theorem Lead.stride (h : Lead u n v) : Char8.stride u 5 1 = some n := by
  rw [stride_eq u (by have := h.ge; omega)]
  obtain ⟨rfl, hu, hv⟩ | ⟨rfl, hu, hv⟩ | ⟨rfl, hu, hv⟩ := h.cases
  · rw [if_neg (by omega), if_pos (by omega)]
  · rw [if_neg (by omega), if_neg (by omega), if_pos (by omega)]
  · rw [if_neg (by omega), if_neg (by omega), if_neg (by omega), if_pos (by omega)]

-- The mask of the bits of a first unit, as the decoder has it and as the loop backward comes to it.
theorem lead_mask : ∀ u : Char8,
    (0xC0 ≤ u.toNat → u.toNat < 0xE0 → (u.setWidth 32 &&& (1#32 <<< (7 - 2) - 1)).toNat = u.toNat - 0xC0) ∧
    (0xE0 ≤ u.toNat → u.toNat < 0xF0 → (u.setWidth 32 &&& (1#32 <<< (7 - 3) - 1)).toNat = u.toNat - 0xE0) ∧
    (0xF0 ≤ u.toNat → u.toNat < 0xF8 → (u.setWidth 32 &&& (1#32 <<< (7 - 4) - 1)).toNat = u.toNat - 0xF0) := by
  decide

theorem mask_eq (h2 : 2 ≤ n) (h4 : n ≤ 4) : (0x3F#32 >>> (n - 1)) = 1#32 <<< (7 - n) - 1 := by
  obtain rfl | rfl | rfl : n = 2 ∨ n = 3 ∨ n = 4 := by omega
  all_goals decide

theorem Lead.mask (h : Lead u n v) : (u.setWidth 32 &&& (1#32 <<< (7 - n) - 1)).toNat = v := by
  obtain ⟨m2, m3, m4⟩ := lead_mask u
  obtain ⟨rfl, hu, hv⟩ | ⟨rfl, hu, hv⟩ | ⟨rfl, hu, hv⟩ := h.cases
  · rw [m2 (by omega) (by omega)]
    omega
  · rw [m3 (by omega) (by omega)]
    omega
  · rw [m4 (by omega) (by omega)]
    omega

-- A sequence that the decoder takes: its first unit and trailing ones with the bits of the character.
structure Sequence (d : DChar) (n v : Nat) (u : Char8) (ts : List Char8) : Prop where
  lead   : Lead u n v
  length : ts.length + 1 = n
  trail  : ∀ t ∈ ts, Trail t
  toNat  : d.toNat = value v ts

theorem eq_iff_toNat {w : Char8} : u = w ↔ u.toNat = w.toNat :=
  BitVec.toNat_inj.symm

-- The units that begin a sequence that is longer than it has to be.
theorem overlong_iff (hu : u.toNat < 0xF8) : Char8.overlong u u2 = true ↔
    (u.toNat = 0xC0 ∨ u.toNat = 0xC1) ∨ (u.toNat = 0xE0 ∧ 0x80 ≤ u2.toNat ∧ u2.toNat < 0xA0) ∨
    (u.toNat = 0xF0 ∧ 0x80 ≤ u2.toNat ∧ u2.toNat < 0x90) := by
  have h8 : ¬ u = 0xF8 := fun he => absurd (he ▸ hu) (by decide)
  have hc : ¬ u = 0xFC := fun he => absurd (he ▸ hu) (by decide)
  have he : u = 0xE0 ↔ u.toNat = 0xE0 := eq_iff_toNat
  have hf : u = 0xF0 ↔ u.toNat = 0xF0 := eq_iff_toNat
  simp only [Char8.overlong, Bool.or_eq_true, Bool.and_eq_true, decide_eq_true_iff, overlong2_iff, overlong3_iff,
    overlong4_iff, h8, hc, he, hf, false_and, or_false, or_assoc]

theorem Sequence.units (h : Sequence d n v u (u2 :: ts)) (ho : Char8.overlong u u2 = false)
    (hv : isValidDchar d = true) : Units d (u :: u2 :: ts) := by
  obtain ⟨hlead, hlen, htrail, hd⟩ := h
  have hcases := hlead.cases
  have hn := mt (@overlong_iff u u2 (by omega)).mpr (by rw [ho]; exact Bool.false_ne_true)
  have h2 := htrail u2 List.mem_cons_self
  obtain ⟨rfl, hu, hb⟩ | ⟨rfl, hu, hb⟩ | ⟨rfl, hu, hb⟩ := hcases
  · obtain rfl : ts = [] := List.length_eq_zero_iff.mp (by simpa using hlen)
    simp only [value, List.foldl] at hd
    obtain ⟨h21, h22⟩ := h2
    exact .two (by omega) (by omega) ⟨h21, h22⟩ (by omega)
  · obtain ⟨u3, rfl⟩ : ∃ u3, ts = [u3] := List.length_eq_one_iff.mp (by simpa using hlen)
    have h3 := htrail u3 (by simp)
    simp only [value, List.foldl] at hd
    obtain ⟨h21, h22⟩ := h2
    obtain ⟨h31, h32⟩ := h3
    exact .three (by omega) (by omega) ⟨h21, h22⟩ ⟨h31, h32⟩ (by omega) (by omega) hv
  · obtain ⟨u3, u4, rfl⟩ : ∃ u3 u4, ts = [u3, u4] := List.length_eq_two.mp (by simpa using hlen)
    have h3 := htrail u3 (by simp)
    have h4 := htrail u4 (by simp)
    simp only [value, List.foldl] at hd
    obtain ⟨h21, h22⟩ := h2
    obtain ⟨h31, h32⟩ := h3
    obtain ⟨h41, h42⟩ := h4
    exact .four (by omega) (by omega) ⟨h21, h22⟩ ⟨h31, h32⟩ ⟨h41, h42⟩ (by omega) (by omega) hv

theorem Lead.bound (hl : Lead u n v) : (v + 1) * 64 ^ (n - 1) ≤ 2 ^ 32 := by
  obtain ⟨rfl, -, hv⟩ | ⟨rfl, -, hv⟩ | ⟨rfl, -, hv⟩ := hl.cases <;> norm_num <;> omega

end Runtime.Utf
