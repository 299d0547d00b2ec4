import DmdModel.Runtime.Dwarf.DebugInfo
import DmdModel.Runtime.Dwarf.Theorems.Leb128

-- What is read of the attributes of an entry

namespace Runtime.Dwarf

variable {data rest : List Byte} {n : Leb128} {f : DW_FORM} {form : Byte} {is64bitDwarf : Bool} {addressSize : Byte}

section Forms

theorem DW_FORM.ofCode_code : ofCode f.code = some f := by
  cases f <;> rfl

theorem DW_FORM.code_of_ofCode {c : Nat} (h : ofCode c = some f) : f.code = c := by
  have hfound := List.find?_some h
  simpa using hfound

theorem DW_FORM.code_lt : f.code < 256 := by
  cases f <;> decide

theorem DW_FORM.code_injective {g : DW_FORM} (h : f.code = g.code) : f = g := by
  have heq : some f = some g := by rw [← ofCode_code, h, ofCode_code]
  exact Option.some.inj heq

theorem readULEB128_fits (hn : Fits n) : readULEB128 (n.bytes ++ rest) = some (BitVec.ofNat 64 n.unsigned, rest) := by
  have hlt : n.unsigned < 2 ^ 64 := hn.2.trans (by decide)
  exact (readULEB128_iff hn.1 hlt).mpr (.inl hn.2)

-- Whatever the number is, as many bytes are read as it has.
theorem readULEB128_length : ∃ v, readULEB128 (n.bytes ++ rest) = some (v, rest) := by
  obtain ⟨r, hread, -⟩ := @readGroups_start_bits n rest
  refine ⟨r, ?_⟩
  rw [readULEB128, hread]
  rfl

theorem readSLEB128_length : ∃ v, readSLEB128 (n.bytes ++ rest) = some (v, rest) := by
  obtain ⟨r, hread, -⟩ := @readGroups_start_bits n rest
  rw [readSLEB128, hread, Option.map_some]
  by_cases hsign : (BitVec.ofNat 32 (7 * n.size)).toNat < 64 ∧ n.last.setWidth 8 &&& 0x40#8 ≠ 0
  · exact ⟨_, by simp only [if_pos hsign]; rfl⟩
  · exact ⟨_, by simp only [if_neg hsign]; rfl⟩

theorem skip_append {size : Nat} (h : data.length = size) : skip size (data ++ rest) = some (true, rest) := by
  subst h
  simp [skip]

theorem readStringz_append {s : Str} (hs : 0 ∉ s) : readStringz (s ++ 0 :: rest) = some (s, rest) := by
  have hall : ∀ b ∈ s, decide (b ≠ 0) = true := by
    intro b hb
    exact decide_eq_true fun hzero => hs (hzero ▸ hb)
  have hmem : (0 : Byte) ∈ s ++ 0 :: rest := by simp
  rw [readStringz, if_pos hmem, List.takeWhile_append_of_pos hall, List.dropWhile_append_of_pos hall]
  simp

theorem skipBlock_append {size : Nat} (hsize : size ≤ 8) (hdata : data.length < 2 ^ (8 * size)) :
    skipBlock size (littleEndian size (BitVec.ofNat 64 data.length) ++ data ++ rest) = some (true, rest) := by
  have hpow : 2 ^ (8 * size) ≤ 2 ^ 64 := Nat.pow_le_pow_right Nat.two_pos (by omega)
  have hlt : data.length < 2 ^ 64 := hdata.trans_le hpow
  rw [skipBlock, List.append_assoc, read_littleEndian hsize]
  simp only [BitVec.toNat_ofNat, Nat.mod_eq_of_lt hlt, Nat.mod_eq_of_lt hdata, Option.bind_eq_bind, Option.bind_some]
  exact skip_append rfl

theorem skipForm_size {steps : Nat} (hform : form.toNat = f.code) (hsize : f.size is64bitDwarf addressSize.toNat = some data.length) :
    skipForm (steps + 1) (data ++ rest) form is64bitDwarf addressSize = some (true, rest) := by
  rw [skipForm, hform, DW_FORM.ofCode_code]
  have happend {size : Nat} (h : some size = some data.length) : skip size (data ++ rest) = some (true, rest) :=
    skip_append (Option.some.inj h).symm
  cases f with
  | flag_present | implicit_const =>
    have hnil : data = [] := List.length_eq_zero_iff.mp (Option.some.inj hsize).symm
    rw [hnil]
    rfl
  | block2 | block4 | string_ | block | block1 | sdata | udata | ref_udata | indirect | exprloc | strx | addrx
  | loclistx | rnglistx => cases hsize
  | addr | data2 | data4 | data8 | data1 | flag | strp | ref_addr | ref1 | ref2 | ref4 | ref8 | sec_offset | ref_sup4
  | strp_sup | data16 | line_strp | ref_sig8 | ref_sup8 | strx1 | strx2 | strx3 | strx4 | addrx1 | addrx2 | addrx3
  | addrx4 => exact happend hsize

theorem skipForm_number {steps : Nat} (hform : form.toNat = f.code)
    (hmem : f ∈ [.udata, .ref_udata, .strx, .addrx, .loclistx, .rnglistx, .sdata]) :
    skipForm (steps + 1) (n.bytes ++ rest) form is64bitDwarf addressSize = some (true, rest) := by
  obtain ⟨v, hread⟩ := @readULEB128_length rest n
  obtain ⟨v', hread'⟩ := @readSLEB128_length rest n
  rw [skipForm, hform, DW_FORM.ofCode_code]
  simp only [List.mem_cons, List.not_mem_nil, or_false] at hmem
  obtain rfl | rfl | rfl | rfl | rfl | rfl | rfl := hmem
  case inr.inr.inr.inr.inr.inr =>
    simp only [hread', Option.bind_eq_bind, Option.bind_some]
  all_goals simp only [hread, Option.bind_eq_bind, Option.bind_some]

theorem skipForm_sizedBlock {steps size : Nat} (hform : form.toNat = f.code)
    (hmem : (f, size) ∈ [(DW_FORM.block1, 1), (.block2, 2), (.block4, 4)]) (hdata : data.length < 2 ^ (8 * size)) :
    skipForm (steps + 1) (littleEndian size (BitVec.ofNat 64 data.length) ++ data ++ rest) form is64bitDwarf addressSize =
      some (true, rest) := by
  rw [skipForm, hform, DW_FORM.ofCode_code]
  simp only [List.mem_cons, List.not_mem_nil, or_false, Prod.mk.injEq] at hmem
  obtain ⟨rfl, rfl⟩ | ⟨rfl, rfl⟩ | ⟨rfl, rfl⟩ := hmem
  all_goals exact skipBlock_append (by decide) hdata

theorem skipForm_block {steps : Nat} (hform : form.toNat = f.code) (hmem : f ∈ [DW_FORM.block, .exprloc]) (hn : Fits n)
    (hdata : n.unsigned = data.length) :
    skipForm (steps + 1) (n.bytes ++ data ++ rest) form is64bitDwarf addressSize = some (true, rest) := by
  have hlt : data.length < 2 ^ 64 := hdata ▸ hn.2.trans (by decide)
  have hskip : skip (BitVec.ofNat 64 n.unsigned).toNat (data ++ rest) = some (true, rest) :=
    skip_append (by rw [BitVec.toNat_ofNat, hdata, Nat.mod_eq_of_lt hlt])
  rw [skipForm, hform, DW_FORM.ofCode_code, List.append_assoc]
  simp only [List.mem_cons, List.not_mem_nil, or_false] at hmem
  obtain rfl | rfl := hmem
  all_goals simp only [readULEB128_fits hn, Option.bind_eq_bind, Option.bind_some, hskip]

-- The low byte of a code is the code.
theorem toNat_low {c : Nat} (h : c = f.code) : ((BitVec.ofNat 64 c).setWidth 8 : Byte).toNat = f.code := by
  have hlt := @DW_FORM.code_lt f
  rw [BitVec.toNat_setWidth, BitVec.toNat_ofNat, h]
  omega

-- A value of a known form is skipped.
theorem skipForm_encoded {value : List Byte} {steps : Nat} (h : Encoded is64bitDwarf addressSize f value)
    (hform : form.toNat = f.code) (hsteps : value.length < steps) :
    skipForm steps (value ++ rest) form is64bitDwarf addressSize = some (true, rest) := by
  induction h generalizing form steps with
  | fixed hsize                               =>
    obtain ⟨k, rfl⟩ := Nat.exists_eq_succ_of_ne_zero (Nat.ne_zero_of_lt hsteps)
    exact skipForm_size hform hsize
  | number hmem n                             =>
    obtain ⟨k, rfl⟩ := Nat.exists_eq_succ_of_ne_zero (Nat.ne_zero_of_lt hsteps)
    exact skipForm_number hform hmem
  | @string s hs                              =>
    obtain ⟨k, rfl⟩ := Nat.exists_eq_succ_of_ne_zero (Nat.ne_zero_of_lt hsteps)
    have hread := @readStringz_append rest _ hs
    rw [skipForm, hform, DW_FORM.ofCode_code, List.append_assoc, List.singleton_append]
    simp only [hread, Option.bind_eq_bind, Option.bind_some]
  | sizedBlock hmem hdata                     =>
    obtain ⟨k, rfl⟩ := Nat.exists_eq_succ_of_ne_zero (Nat.ne_zero_of_lt hsteps)
    exact skipForm_sizedBlock hform hmem hdata
  | block hmem hn hdata                       =>
    obtain ⟨k, rfl⟩ := Nat.exists_eq_succ_of_ne_zero (Nat.ne_zero_of_lt hsteps)
    exact skipForm_block hform hmem hn hdata
  | @indirect g n value hsize hn h ih         =>
    obtain ⟨k, rfl⟩ := Nat.exists_eq_succ_of_ne_zero (Nat.ne_zero_of_lt hsteps)
    have hlt := @DW_FORM.code_lt g
    have hlength : n.bytes.length = n.size := Leb128.length_bytes
    have hpos := @Leb128.size_pos n
    rw [List.length_append, hlength] at hsteps
    have hrest := ih (toNat_low hn) (show value.length < k by omega)
    rw [skipForm, hform, DW_FORM.ofCode_code, List.append_assoc]
    simp only [readULEB128_fits ⟨hsize, by omega⟩, Option.bind_eq_bind, Option.bind_some, hrest, if_true]

theorem skipForm_unknown {steps : Nat} (h : DW_FORM.ofCode form.toNat = none) :
    skipForm (steps + 1) data form is64bitDwarf addressSize = some (false, data) := by
  rw [skipForm, h]

end Forms

section Strings

variable {sections : DebugSections} {section_ : List Byte} {offset : BitVec 64} {s : Str} {a : Attribute}

theorem takeWhile_eq_iff (h : 0 ∈ data) : data.takeWhile (· ≠ 0) = s ↔ 0 ∉ s ∧ ∃ rest, data = s ++ 0 :: rest := by
  constructor
  · rintro rfl
    refine ⟨fun hmem => ?_, ?_⟩
    · have hne := List.mem_takeWhile_imp hmem
      simp at hne
    · cases hdrop : data.dropWhile (· ≠ 0) with
      | nil         =>
        have hall := List.dropWhile_eq_nil_iff.mp hdrop 0 h
        simp at hall
      | cons b rest =>
        have hzero : b = 0 := by
          have hhead := List.head_dropWhile_not (fun x : Byte => decide (x ≠ 0)) (by rw [hdrop]; simp)
          simp only [hdrop, List.head_cons] at hhead
          simpa using hhead
        refine ⟨rest, ?_⟩
        have hsplit := List.takeWhile_append_dropWhile (p := fun x : Byte => decide (x ≠ 0)) (l := data)
        rw [hdrop, hzero] at hsplit
        exact hsplit.symm
  · rintro ⟨hs, rest, rfl⟩
    have hread := @readStringz_append rest _ hs
    rw [readStringz, if_pos (by simp)] at hread
    exact congrArg Prod.fst (Option.some.inj hread)

theorem readStringAt_iff : readStringAt section_ offset = some s ↔ Attribute.StringAt section_ offset s := by
  unfold readStringAt Attribute.StringAt
  by_cases hout : section_.length ≤ offset.toNat
  · rw [if_pos hout, List.drop_eq_nil_of_le hout]
    simp
  · rw [if_neg hout]
    by_cases hzero : 0 ∈ section_.drop offset.toNat
    · simp only [if_pos hzero, Option.some.injEq]
      exact takeWhile_eq_iff hzero
    · simp only [if_neg hzero]
      constructor
      · intro h
        cases h
      · rintro ⟨-, rest, heq⟩
        rw [heq] at hzero
        simp at hzero

-- Bytes are a number.
theorem exists_littleEndian {size : Nat} (hsize : size ≤ 8) (h : data.length = size) :
    ∃ v : BitVec 64, v.toNat < 2 ^ (8 * size) ∧ data = littleEndian size v := by
  induction data generalizing size with
  | nil         =>
    subst h
    exact ⟨0, by decide, rfl⟩
  | cons b data ih =>
    subst h
    obtain ⟨v, hlt, hv⟩ := @ih data.length (by simp at hsize; omega) rfl
    have hsize' : data.length ≤ 7 := Nat.le_of_succ_le_succ hsize
    have hpow : 2 ^ (8 * (data.length + 1)) = 2 ^ 8 * 2 ^ (8 * data.length) := by
      rw [← Nat.pow_add]
      congr 1
      omega
    have hmono : 2 ^ (8 * data.length) ≤ 2 ^ 56 := Nat.pow_le_pow_right (by decide) (by omega)
    have hb : b.toNat < 2 ^ 8 := b.isLt
    have hwhole : (BitVec.ofNat 64 (v.toNat * 2 ^ 8 + b.toNat)).toNat = v.toNat * 2 ^ 8 + b.toNat := by
      rw [BitVec.toNat_ofNat]
      exact Nat.mod_eq_of_lt (by omega)
    refine ⟨BitVec.ofNat 64 (v.toNat * 2 ^ 8 + b.toNat), ?_, ?_⟩
    · rw [hwhole, List.length_cons, hpow]
      omega
    · rw [List.length_cons, littleEndian]
      have hlow : (BitVec.ofNat 64 (v.toNat * 2 ^ 8 + b.toNat)).setWidth 8 = b := by
        refine BitVec.eq_of_toNat_eq ?_
        rw [BitVec.toNat_setWidth, hwhole]
        omega
      have hhigh : BitVec.ofNat 64 (v.toNat * 2 ^ 8 + b.toNat) >>> 8 = v := by
        refine BitVec.eq_of_toNat_eq ?_
        rw [BitVec.toNat_ushiftRight, hwhole, Nat.shiftRight_eq_div_pow]
        omega
      rw [hlow, hhigh, ← hv]

theorem read_offset {size : Nat} {v : BitVec 64} (hsize : size ≤ 8) (hv : v.toNat < 2 ^ (8 * size)) :
    read size (littleEndian size v ++ rest) = some (v, rest) := by
  rw [read_littleEndian hsize, Nat.mod_eq_of_lt hv, BitVec.ofNat_toNat, BitVec.setWidth_eq]

theorem littleEndian_inj {size : Nat} {v w : BitVec 64} (hsize : size ≤ 8) (hv : v.toNat < 2 ^ (8 * size))
    (hw : w.toNat < 2 ^ (8 * size)) (h : littleEndian size v = littleEndian size w) : v = w := by
  have hread := @read_offset [] _ _ hsize hv
  rw [h, read_offset hsize hw] at hread
  exact (congrArg Prod.fst (Option.some.inj hread)).symm

theorem offsetSize_le : offsetSize is64bitDwarf ≤ 8 := by
  cases is64bitDwarf <;> decide

theorem Attribute.IsForm.unique {g : DW_FORM} (h : a.IsForm f) (h' : a.IsForm g) : f = g :=
  DW_FORM.code_injective (h.trans h'.symm)

theorem Encoded.string_of {value : List Byte} (h : Encoded is64bitDwarf addressSize .string_ value) :
    ∃ s, 0 ∉ s ∧ value = s ++ [0] := by
  cases h with
  | string hs           => exact ⟨_, hs, rfl⟩
  | fixed hsize         => cases hsize
  | number hmem         => exact absurd hmem (by decide)
  | sizedBlock hmem     => simp at hmem
  | block hmem          => exact absurd hmem (by decide)

-- The values of a form of which all have one size
theorem Encoded.length_of {value : List Byte} {size : Nat} (h : Encoded is64bitDwarf addressSize f value)
    (hsize : f.size is64bitDwarf addressSize.toNat = some size) : value.length = size := by
  cases h with
  | fixed hsize'        => exact Option.some.inj (hsize'.symm.trans hsize)
  | string hs           => cases hsize
  | indirect            => cases hsize
  | number hmem         =>
    simp only [List.mem_cons, List.not_mem_nil, or_false] at hmem
    obtain rfl | rfl | rfl | rfl | rfl | rfl | rfl := hmem
    all_goals cases hsize
  | sizedBlock hmem     =>
    simp only [List.mem_cons, List.not_mem_nil, or_false, Prod.mk.injEq] at hmem
    obtain ⟨rfl, -⟩ | ⟨rfl, -⟩ | ⟨rfl, -⟩ := hmem
    all_goals cases hsize
  | block hmem          =>
    simp only [List.mem_cons, List.not_mem_nil, or_false] at hmem
    obtain rfl | rfl := hmem
    all_goals cases hsize

theorem text_string (h : a.IsForm .string_) : a.Text sections is64bitDwarf s ↔ 0 ∉ s ∧ a.value = s ++ [0] := by
  constructor
  · intro htext
    cases htext with
    | inline _ hs hvalue => exact ⟨hs, hvalue⟩
    | strp h'            => cases h.unique h'
    | lineStrp h'        => cases h.unique h'
  · rintro ⟨hs, hvalue⟩
    exact .inline h hs hvalue

theorem text_strp (h : a.IsForm .strp) (hfits : offset.toNat < 2 ^ (8 * offsetSize is64bitDwarf))
    (hvalue : a.value = littleEndian (offsetSize is64bitDwarf) offset) :
    a.Text sections is64bitDwarf s ↔ Attribute.StringAt sections.str offset s := by
  constructor
  · intro htext
    cases htext with
    | inline h'                      => cases h.unique h'
    | lineStrp h'                    => cases h.unique h'
    | strp _ hfits' hvalue' hs       =>
      rwa [littleEndian_inj offsetSize_le hfits hfits' (hvalue.symm.trans hvalue')]
  · intro hs
    exact .strp h hfits hvalue hs

theorem text_lineStrp (h : a.IsForm .line_strp) (hfits : offset.toNat < 2 ^ (8 * offsetSize is64bitDwarf))
    (hvalue : a.value = littleEndian (offsetSize is64bitDwarf) offset) :
    a.Text sections is64bitDwarf s ↔ Attribute.StringAt sections.lineStr offset s := by
  constructor
  · intro htext
    cases htext with
    | inline h'                      => cases h.unique h'
    | strp h'                        => cases h.unique h'
    | lineStrp _ hfits' hvalue' hs   =>
      rwa [littleEndian_inj offsetSize_le hfits hfits' (hvalue.symm.trans hvalue')]
  · intro hs
    exact .lineStrp h hfits hvalue hs

theorem text_other (h : a.IsForm f) (hstring : f ≠ .string_) (hstrp : f ≠ .strp) (hline : f ≠ .line_strp) :
    ¬a.Text sections is64bitDwarf s := by
  intro htext
  cases htext with
  | inline h'   => exact hstring (h.unique h')
  | strp h'     => exact hstrp (h.unique h')
  | lineStrp h' => exact hline (h.unique h')

-- The string that is read of an attribute is the one that it gives.
theorem readStringForm_text (ha : a.IsForm f) (hvalue : Encoded is64bitDwarf 8 f a.value) (hform : form.toNat = f.code) :
    ∃ dir, readStringForm (a.value ++ rest) form is64bitDwarf sections = some (dir, rest) ∧
      ∀ s, dir = some s ↔ a.Text sections is64bitDwarf s := by
  by_cases hstring : f = .string_
  · subst hstring
    obtain ⟨t, ht, hat⟩ := hvalue.string_of
    have hread := @readStringz_append rest _ ht
    refine ⟨some t, ?_, fun s => ?_⟩
    · rw [readStringForm, hform, DW_FORM.ofCode_code, hat, List.append_assoc, List.singleton_append]
      simp only [hread, Option.bind_eq_bind, Option.bind_some]
    · rw [text_string ha, hat, Option.some.injEq]
      constructor
      · rintro rfl
        exact ⟨ht, rfl⟩
      · rintro ⟨-, heq⟩
        exact List.append_cancel_right heq
  by_cases hstrp : f = .strp
  · subst hstrp
    obtain ⟨offset, hfits, hat⟩ := exists_littleEndian offsetSize_le (hvalue.length_of rfl)
    refine ⟨readStringAt sections.str offset, ?_, fun s => ?_⟩
    · rw [readStringForm, hform, DW_FORM.ofCode_code, hat]
      simp only [read_offset offsetSize_le hfits, Option.bind_eq_bind, Option.bind_some]
    · rw [text_strp ha hfits hat, readStringAt_iff]
  by_cases hline : f = .line_strp
  · subst hline
    obtain ⟨offset, hfits, hat⟩ := exists_littleEndian offsetSize_le (hvalue.length_of rfl)
    refine ⟨readStringAt sections.lineStr offset, ?_, fun s => ?_⟩
    · rw [readStringForm, hform, DW_FORM.ofCode_code, hat]
      simp only [read_offset offsetSize_le hfits, Option.bind_eq_bind, Option.bind_some]
    · rw [text_lineStrp ha hfits hat, readStringAt_iff]
  · have hskip := @skipForm_encoded rest _ _ _ _ _ ((a.value ++ rest).length + 1) hvalue hform
      (by simp only [List.length_append]; omega)
    refine ⟨none, ?_, fun s => ?_⟩
    · rw [readStringForm, hform, DW_FORM.ofCode_code]
      split
      case h_1 heq => exact absurd (Option.some.inj heq) hstring
      case h_2 heq => exact absurd (Option.some.inj heq) hstrp
      case h_3 heq => exact absurd (Option.some.inj heq) hline
      case h_4     => simp only [hskip, Option.bind_eq_bind, Option.bind_some]
    · constructor
      · intro h
        cases h
      · intro htext
        exact absurd htext (text_other ha hstring hstrp hline)

end Strings

section Offsets

variable {offset offset' : BitVec 64} {a : Attribute} {size : Nat}

theorem stmtListSize_some (hform : DW_FORM.ofCode form.toNat = some f) (h : stmtListSize is64bitDwarf form = some size) :
    (f, size) ∈ [(DW_FORM.sec_offset, offsetSize is64bitDwarf), (.data4, 4), (.data8, 8)] := by
  rw [stmtListSize, hform] at h
  cases f with
  | sec_offset => simp [Option.some.inj h]
  | data4      => simp [Option.some.inj h]
  | data8      => simp [Option.some.inj h]
  | _          => cases h

theorem stmtListSize_eq (hform : form.toNat = f.code)
    (h : (f, size) ∈ [(DW_FORM.sec_offset, offsetSize is64bitDwarf), (.data4, 4), (.data8, 8)]) :
    stmtListSize is64bitDwarf form = some size := by
  simp only [List.mem_cons, List.not_mem_nil, or_false, Prod.mk.injEq] at h
  rw [stmtListSize, hform, DW_FORM.ofCode_code]
  obtain ⟨rfl, rfl⟩ | ⟨rfl, rfl⟩ | ⟨rfl, rfl⟩ := h
  all_goals rfl

theorem size_of_mem (h : (f, size) ∈ [(DW_FORM.sec_offset, offsetSize is64bitDwarf), (.data4, 4), (.data8, 8)]) :
    f.size is64bitDwarf addressSize.toNat = some size ∧ size ≤ 8 := by
  have hle := @offsetSize_le is64bitDwarf
  simp only [List.mem_cons, List.not_mem_nil, or_false, Prod.mk.injEq] at h
  obtain ⟨rfl, rfl⟩ | ⟨rfl, rfl⟩ | ⟨rfl, rfl⟩ := h
  · exact ⟨rfl, hle⟩
  · exact ⟨rfl, by decide⟩
  · exact ⟨rfl, by decide⟩

-- An attribute gives one offset at most.
theorem offset_unique (h : a.Offset is64bitDwarf offset) (h' : a.Offset is64bitDwarf offset') : offset = offset' := by
  obtain ⟨f, size, hf, hmem, hfits, hvalue⟩ := h
  obtain ⟨g, size', hg, hmem', hfits', hvalue'⟩ := h'
  have hfg := hf.unique hg
  subst hfg
  obtain ⟨hsize, hle⟩ := @size_of_mem _ _ 0 _ hmem
  obtain ⟨hsize', -⟩ := @size_of_mem _ _ 0 _ hmem'
  have heq : size = size' := Option.some.inj (hsize.symm.trans hsize')
  subst heq
  exact littleEndian_inj hle hfits hfits' (hvalue.symm.trans hvalue')

end Offsets

end Runtime.Dwarf
