import DmdModel.Runtime.Utf.Theorems.Loops

namespace Runtime.Utf

variable {aa us rest : List WChar} {i j : Nat} {d : DChar} {u u2 : WChar}

def High (u : WChar) : Prop :=
  0xD800 ≤ u.toNat ∧ u.toNat ≤ 0xDBFF

def Low (u : WChar) : Prop :=
  0xDC00 ≤ u.toNat ∧ u.toNat ≤ 0xDFFF

instance : Decidable (High u) := inferInstanceAs (Decidable (_ ∧ _))
instance : Decidable (Low u) := inferInstanceAs (Decidable (_ ∧ _))

theorem high_iff : u ≥ 0xD800 ∧ u ≤ 0xDBFF ↔ High u :=
  Iff.rfl

theorem low_iff : u ≥ 0xDC00 ∧ u ≤ 0xDFFF ↔ Low u :=
  Iff.rfl

theorem not_low_iff : u < 0xDC00 ∨ u > 0xDFFF ↔ ¬ Low u := by
  rw [← low_iff, BitVec.lt_def, gt_iff_lt, BitVec.lt_def, ge_iff_le, BitVec.le_def, BitVec.le_def]
  omega

theorem not_ascii_of_high (hu : High u) : u &&& ~~~0x7F ≠ 0 := by
  intro he
  have hlt := ascii_iff.mp he
  rw [High] at hu
  omega

theorem isValidDchar_iff : isValidDchar d = true ↔ d.toNat < 0xD800 ∨ (0xDFFF < d.toNat ∧ d.toNat ≤ 0x10FFFF) := by
  simp only [isValidDchar, Bool.or_eq_true, Bool.and_eq_true, decide_eq_true_iff]
  rfl

-- The characters as the decoder takes them.
def Code16 (d : DChar) (us : List WChar) : Prop :=
  isValidDchar d = true ∧ d ≠ 0xFFFE ∧ d ≠ 0xFFFF ∧ us = toUTF16 d

theorem toUTF16_of_le (hd : d.toNat ≤ 0xFFFF) : toUTF16 d = [d.setWidth 16] :=
  if_pos hd

theorem setWidth_setWidth_of_le (hd : d.toNat ≤ 0xFFFF) : (d.setWidth 16).setWidth 32 = d := by
  apply BitVec.eq_of_toNat_eq
  rw [BitVec.toNat_setWidth, BitVec.toNat_setWidth, Nat.mod_eq_of_lt (by omega), Nat.mod_eq_of_lt (by omega)]

theorem toNat_ext (u : WChar) : (u.setWidth 32).toNat = u.toNat := by
  have hu := u.isLt
  rw [BitVec.toNat_setWidth, Nat.mod_eq_of_lt (by omega)]

theorem pair_toNat (hu : High u) (hu2 : Low u2) :
    (WChar.pair u u2).toNat = (u.toNat - 0xD7C0) * 1024 + (u2.toNat - 0xDC00) := by
  obtain ⟨h1, h2⟩ := hu
  obtain ⟨h3, h4⟩ := hu2
  have e1 := toNat_ext u
  have e2 := toNat_ext u2
  rw [WChar.pair]
  bv_omega

theorem toUTF16_of_gt (hd : 0xFFFF < d.toNat) (hv : d.toNat ≤ 0x10FFFF) :
    ∃ u u2, toUTF16 d = [u, u2] ∧ High u ∧ Low u2 ∧ WChar.pair u u2 = d := by
  have hand : ∀ x : DChar, (x &&& 0x3FF#32).toNat = x.toNat % 1024 := fun x => Nat.and_two_pow_sub_one_eq_mod x.toNat 10
  have hsub : (d - 0x10000#32).toNat = d.toNat - 0x10000 := by bv_omega
  have hhi : (((((d - 0x10000#32) >>> 10) &&& 0x3FF#32) + 0xD800#32).setWidth 16 : WChar).toNat =
      (d.toNat - 0x10000) / 1024 + 0xD800 := by
    rw [BitVec.toNat_setWidth, BitVec.toNat_add, hand, BitVec.toNat_ushiftRight, hsub, Nat.shiftRight_eq_div_pow]
    show ((d.toNat - 0x10000) / 1024 % 1024 + 0xD800) % 2 ^ 32 % 2 ^ 16 = _
    omega
  have hlo : ((((d - 0x10000#32) &&& 0x3FF#32) + 0xDC00#32).setWidth 16 : WChar).toNat =
      (d.toNat - 0x10000) % 1024 + 0xDC00 := by
    rw [BitVec.toNat_setWidth, BitVec.toNat_add, hand, hsub]
    show ((d.toNat - 0x10000) % 1024 + 0xDC00) % 2 ^ 32 % 2 ^ 16 = _
    omega
  have hle : ¬ d ≤ 0xFFFF := by
    rw [BitVec.le_def]
    exact Nat.not_le.mpr hd
  have hhigh : High (((((d - 0x10000#32) >>> 10) &&& 0x3FF#32) + 0xD800#32).setWidth 16) := by
    rw [High, hhi]
    omega
  have hlow : Low ((((d - 0x10000#32) &&& 0x3FF#32) + 0xDC00#32).setWidth 16) := by
    rw [Low, hlo]
    omega
  refine ⟨_, _, if_neg hle, hhigh, hlow, BitVec.eq_of_toNat_eq ?_⟩
  rw [pair_toNat hhigh hlow, hhi, hlo]
  omega

-- A pair of surrogates is the encoding of its character.
theorem toUTF16_pair (hu : High u) (hu2 : Low u2) : toUTF16 (WChar.pair u u2) = [u, u2] := by
  have hp := pair_toNat hu hu2
  obtain ⟨h1, h2⟩ := hu
  obtain ⟨h3, h4⟩ := hu2
  obtain ⟨v, v2, hv, hvh, hvl, he⟩ := toUTF16_of_gt (d := WChar.pair u u2) (by omega) (by omega)
  have hq := pair_toNat hvh hvl
  obtain ⟨h5, h6⟩ := hvh
  obtain ⟨h7, h8⟩ := hvl
  rw [he, hp] at hq
  rw [hv, BitVec.eq_of_toNat_eq (show v.toNat = u.toNat by omega), BitVec.eq_of_toNat_eq (show v2.toNat = u2.toNat by omega)]

-- A character is one unit that is no surrogate, or a pair of them.
theorem code16_cases (h : Code16 d us) :
    (∃ u, us = [u] ∧ ¬ High u ∧ ¬ Low u ∧ u ≠ 0xFFFE ∧ u ≠ 0xFFFF ∧ d = u.setWidth 32) ∨
    (∃ u u2, us = [u, u2] ∧ High u ∧ Low u2 ∧ d = WChar.pair u u2) := by
  obtain ⟨hv, hfe, hff, rfl⟩ := h
  rw [isValidDchar_iff] at hv
  by_cases hd : d.toNat ≤ 0xFFFF
  · have hn : (d.setWidth 16 : WChar).toNat = d.toNat := by
      rw [BitVec.toNat_setWidth, Nat.mod_eq_of_lt (by omega)]
    refine .inl ⟨_, toUTF16_of_le hd, ?_, ?_, ?_, ?_, (setWidth_setWidth_of_le hd).symm⟩
    · rw [High, hn]
      omega
    · rw [Low, hn]
      omega
    · exact fun he => hfe (by rw [← setWidth_setWidth_of_le hd, he]; rfl)
    · exact fun he => hff (by rw [← setWidth_setWidth_of_le hd, he]; rfl)
  · obtain ⟨u, u2, hs, hu, hu2, hp⟩ := toUTF16_of_gt (d := d) (by omega) (by omega)
    exact .inr ⟨u, u2, hs, hu, hu2, hp.symm⟩

theorem code16_unit (hh : ¬ High u) (hl : ¬ Low u) (hfe : u ≠ 0xFFFE) (hff : u ≠ 0xFFFF) :
    Code16 (u.setWidth 32) [u] := by
  have hn := toNat_ext u
  have hlt := u.isLt
  rw [High] at hh
  rw [Low] at hl
  refine ⟨?_, ?_, ?_, ?_⟩
  · rw [isValidDchar_iff, hn]
    omega
  · intro he
    have ht := congrArg BitVec.toNat he
    rw [hn] at ht
    exact hfe (BitVec.eq_of_toNat_eq ht)
  · intro he
    have ht := congrArg BitVec.toNat he
    rw [hn] at ht
    exact hff (BitVec.eq_of_toNat_eq ht)
  · rw [toUTF16_of_le (by omega), BitVec.setWidth_setWidth_of_le _ (by decide), BitVec.setWidth_eq]

theorem code16_pair (hu : High u) (hu2 : Low u2) : Code16 (WChar.pair u u2) [u, u2] := by
  have hp := pair_toNat hu hu2
  have hs := toUTF16_pair hu hu2
  obtain ⟨h1, h2⟩ := hu
  obtain ⟨h3, h4⟩ := hu2
  have hne : ∀ v : DChar, v.toNat ≤ 0xFFFF → WChar.pair u u2 ≠ v := by
    rintro v hv rfl
    omega
  exact ⟨(isValidDchar_iff).mpr (by omega), hne _ (by decide), hne _ (by decide), hs.symm⟩

theorem decode16_unit (h : aa[i]? = some u) (hh : ¬ High u) (hl : ¬ Low u) (hfe : u ≠ 0xFFFE) (hff : u ≠ 0xFFFF) :
    WChar.decode aa i = .ok (u.setWidth 32, i + 1) := by
  rw [WChar.decode, unit_of_getElem? h]
  show (if _ then _ else _) = _
  split
  case isTrue =>
    rw [if_neg (mt (high_iff).mp hh), if_neg (mt (low_iff).mp hl), if_neg (not_or.mpr ⟨hfe, hff⟩)]
    rfl
  case isFalse => rfl

theorem decode16_pair (h : aa[i]? = some u) (h2 : aa[i + 1]? = some u2) (hu : High u) (hu2 : Low u2) :
    WChar.decode aa i = .ok (WChar.pair u u2, i + 2) := by
  have hlen := (List.getElem?_eq_some_iff.mp h2).1
  rw [WChar.decode, unit_of_getElem? h]
  show (if _ then _ else _) = _
  rw [if_pos (not_ascii_of_high hu), if_pos ((high_iff).mpr hu), if_neg (by omega), unit_of_getElem? h2]
  show (if _ then _ else _) = _
  rw [if_neg fun hn => (not_low_iff).mp hn hu2]
  rfl

-- The decoder fails, or takes a unit or a pair.
theorem decode16_cases (hi : i < aa.length) :
    (∃ msg, WChar.decode aa i = .error (.unicode msg i)) ∨
    (∃ u, aa[i]? = some u ∧ ¬ High u ∧ ¬ Low u ∧ u ≠ 0xFFFE ∧ u ≠ 0xFFFF) ∨
    (∃ u u2, aa[i]? = some u ∧ aa[i + 1]? = some u2 ∧ High u ∧ Low u2) := by
  obtain ⟨u, hu, hunit⟩ := exists_unit hi
  by_cases hh : High u
  · by_cases hlen : i + 1 = aa.length
    · refine .inl ⟨"surrogate UTF-16 high value past end of string", ?_⟩
      rw [WChar.decode, hunit]
      show (if _ then _ else _) = _
      rw [if_pos (not_ascii_of_high hh), if_pos ((high_iff).mpr hh), if_pos hlen]
      rfl
    · obtain ⟨u2, hu2, hunit2⟩ := exists_unit (s := aa) (i := i + 1) (by omega)
      by_cases hl : Low u2
      · exact .inr (.inr ⟨u, u2, hu, hu2, hh, hl⟩)
      · refine .inl ⟨"surrogate UTF-16 low value out of range", ?_⟩
        rw [WChar.decode, hunit]
        show (if _ then _ else _) = _
        rw [if_pos (not_ascii_of_high hh), if_pos ((high_iff).mpr hh), if_neg hlen, hunit2]
        show (if _ then _ else _) = _
        rw [if_pos ((not_low_iff).mpr hl)]
        rfl
  by_cases ha : u &&& ~~~0x7F = 0
  · have hlt := ascii_iff.mp ha
    have hne : ∀ v : WChar, 0x7F < v.toNat → u ≠ v := by
      rintro v hv rfl
      omega
    refine .inr (.inl ⟨u, hu, hh, ?_, hne _ (by decide), hne _ (by decide)⟩)
    rw [Low]
    omega
  by_cases hl : Low u
  · refine .inl ⟨"unpaired surrogate UTF-16 value", ?_⟩
    rw [WChar.decode, hunit]
    show (if _ then _ else _) = _
    rw [if_pos ha, if_neg (mt (high_iff).mp hh), if_pos ((low_iff).mpr hl)]
    rfl
  by_cases hf : u = 0xFFFE ∨ u = 0xFFFF
  · refine .inl ⟨"illegal UTF-16 value", ?_⟩
    rw [WChar.decode, hunit]
    show (if _ then _ else _) = _
    rw [if_pos ha, if_neg (mt (high_iff).mp hh), if_neg (mt (low_iff).mp hl), if_pos hf]
    rfl
  · exact .inr (.inl ⟨u, hu, hh, hl, fun h => hf (.inl h), fun h => hf (.inr h)⟩)

-- The loop backward takes a low surrogate together with the unit before it, whatever that is.

theorem assemble_unit (h : aa[i]? = some u) (hl : ¬ Low u) : assemble aa i = .ok (u.setWidth 32, i) := by
  rw [assemble, unit_of_getElem? h]
  show (if _ then _ else _) = _
  rw [if_neg (mt (low_iff).mp hl)]
  rfl

theorem assemble_pair (h : aa[i]? = some u) (h2 : aa[i + 1]? = some u2) (hl : Low u2) :
    assemble aa (i + 1) = .ok (WChar.pair u u2, i) := by
  rw [assemble, unit_of_getElem? h2]
  show (if _ then _ else _) = _
  rw [if_pos ((low_iff).mpr hl), if_neg (Nat.succ_ne_zero i), Nat.add_sub_cancel, unit_of_getElem? h]
  rfl

theorem assemble_zero (h : aa[0]? = some u) (hl : Low u) :
    assemble aa 0 = .error (.unicode "Invalid UTF-16 sequence" 0) := by
  rw [assemble, unit_of_getElem? h]
  show (if _ then _ else _) = _
  rw [if_pos ((low_iff).mpr hl), if_pos rfl]
  rfl

theorem assemble_cases (hj : j < aa.length) :
    (∃ u, aa[j]? = some u ∧ ¬ Low u) ∨ (j = 0 ∧ ∃ u, aa[0]? = some u ∧ Low u) ∨
    (∃ i u u2, j = i + 1 ∧ aa[i]? = some u ∧ aa[i + 1]? = some u2 ∧ Low u2) := by
  obtain ⟨u, hu, -⟩ := exists_unit hj
  by_cases hl : Low u
  · cases j
    case zero => exact .inr (.inl ⟨rfl, u, hu, hl⟩)
    case succ i =>
      obtain ⟨v, hv, -⟩ := exists_unit (s := aa) (i := i) (by omega)
      exact .inr (.inr ⟨i, v, u, rfl, hv, hu, hl⟩)
  · exact .inl ⟨u, hu, hl⟩

theorem decoders16 : Decoders Code16 aa (WChar.decode aa) (fun j => assemble aa (j - 1)) where
  pos {d us} hc := by
    obtain ⟨u, rfl, -⟩ | ⟨u, u2, rfl, -⟩ := code16_cases hc
    · exact List.cons_ne_nil u []
    · exact List.cons_ne_nil u [u2]
  sound {i d j} hi hd := by
    obtain ⟨msg, he⟩ | ⟨u, hu, hh, hl, hfe, hff⟩ | ⟨u, u2, hu, hu2, hh, hl⟩ := decode16_cases hi
    · rw [he] at hd
      cases hd
    · rw [decode16_unit hu hh hl hfe hff] at hd
      cases hd
      exact ⟨[u], code16_unit hh hl hfe hff, drop_eq_cons.mpr ⟨hu, rfl⟩⟩
    · rw [decode16_pair hu hu2 hh hl] at hd
      cases hd
      exact ⟨[u, u2], code16_pair hh hl, drop_eq_cons.mpr ⟨hu, drop_eq_cons.mpr ⟨hu2, rfl⟩⟩⟩
  complete {i d us rest} hc hs := by
    obtain ⟨u, rfl, hh, hl, hfe, hff, rfl⟩ | ⟨u, u2, rfl, hh, hl, rfl⟩ := code16_cases hc
    · exact decode16_unit (drop_eq_cons.mp hs).1 hh hl hfe hff
    · obtain ⟨hu, hs⟩ := drop_eq_cons.mp hs
      exact decode16_pair hu (drop_eq_cons.mp hs).1 hh hl
  inverse {i d us rest} hc hs := by
    obtain ⟨u, rfl, hh, hl, hfe, hff, rfl⟩ | ⟨u, u2, rfl, hh, hl, rfl⟩ := code16_cases hc
    · exact assemble_unit (drop_eq_cons.mp hs).1 hl
    · obtain ⟨hu, hs⟩ := drop_eq_cons.mp hs
      exact assemble_pair hu (drop_eq_cons.mp hs).1 hl
  descends {i d j} hj hjl hb := by
    obtain ⟨u, hu, hl⟩ | ⟨hz, u, hu, hl⟩ | ⟨k, u, u2, hk, hu, hu2, hl⟩ :=
      assemble_cases (show j - 1 < aa.length by omega)
    · rw [assemble_unit hu hl] at hb
      cases hb
      omega
    · rw [hz, assemble_zero hu hl] at hb
      cases hb
    · rw [hk, assemble_pair hu hu2 hl] at hb
      cases hb
      omega
  unicode {i e} hi he := by
    obtain ⟨msg, hm⟩ | ⟨u, hu, hh, hl, hfe, hff⟩ | ⟨u, u2, hu, hu2, hh, hl⟩ := decode16_cases hi
    · rw [hm] at he
      cases he
      exact ⟨msg, i, rfl⟩
    · rw [decode16_unit hu hh hl hfe hff] at he
      cases he
    · rw [decode16_pair hu hu2 hh hl] at he
      cases he
  back {j e} hj hjl he := by
    obtain ⟨u, hu, hl⟩ | ⟨hz, u, hu, hl⟩ | ⟨k, u, u2, hk, hu, hu2, hl⟩ :=
      assemble_cases (show j - 1 < aa.length by omega)
    · rw [assemble_unit hu hl] at he
      cases he
    · rw [hz, assemble_zero hu hl] at he
      cases he
      exact ⟨_, _, rfl⟩
    · rw [hk, assemble_pair hu hu2 hl] at he
      cases he

end Runtime.Utf

namespace Runtime.Utf

variable {aa us rest : List Char8} {i j : Nat} {d : DChar} {u u2 u3 u4 c : Char8}

-- Code units by their values.

def Trail (c : Char8) : Prop :=
  0x80 ≤ c.toNat ∧ c.toNat < 0xC0

instance : Decidable (Trail c) := inferInstanceAs (Decidable (_ ∧ _))

theorem stride_eq : ∀ u : Char8, 0x80 ≤ u.toNat → Char8.stride u 5 1 =
    if u.toNat < 0xC0 then none else if u.toNat < 0xE0 then some 2 else if u.toNat < 0xF0 then some 3 else
    if u.toNat < 0xF8 then some 4 else none := by
  decide

theorem overlong2_iff : ∀ u : Char8, u &&& 0xFE = 0xC0 ↔ u.toNat = 0xC0 ∨ u.toNat = 0xC1 := by
  decide

theorem overlong3_iff : ∀ u : Char8, u &&& 0xE0 = 0x80 ↔ 0x80 ≤ u.toNat ∧ u.toNat < 0xA0 := by
  decide

theorem overlong4_iff : ∀ u : Char8, u &&& 0xF0 = 0x80 ↔ 0x80 ≤ u.toNat ∧ u.toNat < 0x90 := by
  decide

-- A number with bits behind it.
theorem shl_or_toNat {x y : DChar} {k : Nat} (hy : y.toNat < 2 ^ k) (hx : x.toNat * 2 ^ k < 2 ^ 32) :
    ((x <<< k) ||| y).toNat = x.toNat * 2 ^ k + y.toNat := by
  rw [BitVec.toNat_or, BitVec.toNat_shiftLeft, Nat.shiftLeft_eq, Nat.mod_eq_of_lt hx, ← Nat.shiftLeft_eq,
    ← Nat.shiftLeft_add_eq_or_of_lt hy]

-- A code unit of a mark and some bits.
theorem mark_toNat {a x : DChar} {k : Nat} (hx : x.toNat < 2 ^ k) (ha : a.toNat * 2 ^ k + 2 ^ k ≤ 256) :
    (((a <<< k) ||| x).setWidth 8 : Char8).toNat = a.toNat * 2 ^ k + x.toNat := by
  rw [BitVec.toNat_setWidth, shl_or_toNat hx (by omega), Nat.mod_eq_of_lt (by omega)]

theorem low6_toNat (x : DChar) : (x &&& 0x3F#32).toNat = x.toNat % 64 :=
  Nat.and_two_pow_sub_one_eq_mod x.toNat 6

theorem trail_toNat (x : DChar) : ((0x80#32 ||| (x &&& 0x3F#32)).setWidth 8 : Char8).toNat = 0x80 + x.toNat % 64 := by
  have hx := low6_toNat x
  have h := mark_toNat (a := 2) (x := x &&& 0x3F#32) (k := 6) (by rw [hx]; exact Nat.mod_lt _ (by decide)) (by decide)
  rw [hx] at h
  exact h

theorem shr_toNat (x : DChar) (k : Nat) : (x >>> k).toNat = x.toNat / 2 ^ k := by
  rw [BitVec.toNat_ushiftRight, Nat.shiftRight_eq_div_pow]

-- The characters by their code units.
inductive Units : DChar → List Char8 → Prop
  | one {d : DChar} {u : Char8} : u.toNat < 0x80 → d.toNat = u.toNat → Units d [u]
  | two {d : DChar} {u u2 : Char8} : 0xC2 ≤ u.toNat → u.toNat < 0xE0 → Trail u2 →
    d.toNat = (u.toNat - 0xC0) * 64 + (u2.toNat - 0x80) → Units d [u, u2]
  | three {d : DChar} {u u2 u3 : Char8} : 0xE0 ≤ u.toNat → u.toNat < 0xF0 → Trail u2 → Trail u3 →
    d.toNat = (u.toNat - 0xE0) * 4096 + (u2.toNat - 0x80) * 64 + (u3.toNat - 0x80) →
    0x800 ≤ d.toNat → isValidDchar d = true → Units d [u, u2, u3]
  | four {d : DChar} {u u2 u3 u4 : Char8} : 0xF0 ≤ u.toNat → u.toNat < 0xF8 → Trail u2 → Trail u3 → Trail u4 →
    d.toNat = (u.toNat - 0xF0) * 262144 + (u2.toNat - 0x80) * 4096 + (u3.toNat - 0x80) * 64 + (u4.toNat - 0x80) →
    0x10000 ≤ d.toNat → isValidDchar d = true → Units d [u, u2, u3, u4]

def Code8 (d : DChar) (us : List Char8) : Prop :=
  isValidDchar d = true ∧ toUTF8 true d = .ok us

theorem toUTF8_units (hv : isValidDchar d = true) : ∃ us, toUTF8 true d = .ok us ∧ Units d us := by
  have hlt := (isValidDchar_iff).mp hv
  have e1 : d ≤ 0x7F ↔ d.toNat ≤ 0x7F := Iff.rfl
  have e2 : d ≤ 0x7FF ↔ d.toNat ≤ 0x7FF := Iff.rfl
  have e3 : d ≤ 0xFFFF ↔ d.toNat ≤ 0xFFFF := Iff.rfl
  have e4 : d ≤ 0x10FFFF ↔ d.toNat ≤ 0x10FFFF := Iff.rfl
  have h6 := shr_toNat d 6
  have h12 := shr_toNat d 12
  have h18 := shr_toNat d 18
  have t0 := trail_toNat d
  have t6 := trail_toNat (d >>> 6)
  have t12 := trail_toNat (d >>> 12)
  rw [h6] at t6
  rw [h12] at t12
  rw [toUTF8, hv, Bool.not_true, Bool.and_false, if_neg Bool.false_ne_true]
  by_cases h1 : d.toNat ≤ 0x7F
  · rw [if_pos (e1.mpr h1)]
    have hu : (d.setWidth 8 : Char8).toNat = d.toNat := by
      rw [BitVec.toNat_setWidth, Nat.mod_eq_of_lt (by omega)]
    exact ⟨_, rfl, .one (by omega) hu.symm⟩
  by_cases h2 : d.toNat ≤ 0x7FF
  · rw [if_neg (mt e1.mp h1), if_pos (e2.mpr h2)]
    have hu : ((0xC0#32 ||| (d >>> 6)).setWidth 8 : Char8).toNat = 0xC0 + d.toNat / 64 := by
      have h := mark_toNat (a := 6) (x := d >>> 6) (k := 5) (by rw [h6]; omega) (by decide)
      rw [h6] at h
      exact h
    refine ⟨_, rfl, .two ?_ ?_ ?_ ?_⟩ <;> simp only [Trail, hu, t0] <;> omega
  by_cases h3 : d.toNat ≤ 0xFFFF
  · rw [if_neg (mt e1.mp h1), if_neg (mt e2.mp h2), if_pos (e3.mpr h3)]
    have hu : ((0xE0#32 ||| (d >>> 12)).setWidth 8 : Char8).toNat = 0xE0 + d.toNat / 4096 := by
      have h := mark_toNat (a := 14) (x := d >>> 12) (k := 4) (by rw [h12]; omega) (by decide)
      rw [h12] at h
      exact h
    refine ⟨_, rfl, .three ?_ ?_ ?_ ?_ ?_ (by omega) hv⟩ <;> simp only [Trail, hu, t0, t6] <;> omega
  · have hbig : d.toNat ≤ 0x10FFFF := by omega
    rw [if_neg (mt e1.mp h1), if_neg (mt e2.mp h2), if_neg (mt e3.mp h3),
      if_pos (e4.mpr hbig)]
    have hu : ((0xF0#32 ||| (d >>> 18)).setWidth 8 : Char8).toNat = 0xF0 + d.toNat / 262144 := by
      have h := mark_toNat (a := 30) (x := d >>> 18) (k := 3) (by rw [h18]; omega) (by decide)
      rw [h18] at h
      exact h
    refine ⟨_, rfl, .four ?_ ?_ ?_ ?_ ?_ ?_ (by omega) hv⟩ <;> simp only [Trail, hu, t0, t6, t12] <;> omega

theorem Units.valid (h : Units d us) : isValidDchar d = true := by
  cases h with
  | one hu hd =>
    rw [isValidDchar_iff]
    omega
  | two hu hlt h2 hd =>
    rw [isValidDchar_iff]
    rw [Trail] at h2
    omega
  | three _ _ _ _ _ _ hv  => exact hv
  | four _ _ _ _ _ _ _ hv => exact hv

-- The range of a character tells the number of its code units, and its value tells their bits.
theorem Units.unique {us' : List Char8} (h : Units d us) (h' : Units d us') : us = us' := by
  have hcons : ∀ {v w : Char8} {vs ws : List Char8}, v.toNat = w.toNat → vs = ws → v :: vs = w :: ws := by
    rintro v w vs ws he rfl
    rw [BitVec.eq_of_toNat_eq he]
  cases h <;> cases h' <;> try simp only [Trail] at *
  case one.one     => exact hcons (by omega) rfl
  case two.two     => exact hcons (by omega) (hcons (by omega) rfl)
  case three.three => exact hcons (by omega) (hcons (by omega) (hcons (by omega) rfl))
  case four.four   => exact hcons (by omega) (hcons (by omega) (hcons (by omega) (hcons (by omega) rfl)))
  all_goals omega

theorem code8_iff : Code8 d us ↔ Units d us := by
  constructor
  · rintro ⟨hv, hs⟩
    obtain ⟨us', hs', hu⟩ := toUTF8_units hv
    rw [hs] at hs'
    cases hs'
    exact hu
  · intro h
    obtain ⟨us', hs', hu⟩ := toUTF8_units h.valid
    exact ⟨h.valid, by rw [hs', h.unique hu]⟩

end Runtime.Utf
