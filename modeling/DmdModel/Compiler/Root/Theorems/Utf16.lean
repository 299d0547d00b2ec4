import DmdModel.Compiler.Root.Theorems.Utf

-- UTF-16 in the runtime and in the compiler.

namespace Compiler.Root.Utf

open Runtime.Utf

variable {s : List WChar} {c : DChar} {cs : List DChar} {i j n : Nat} {u u2 : WChar}

-- The decoders without their errors

def runtimeWchar (s : List WChar) (i : Nat) : Option (DChar × Nat) :=
  (WChar.decode s i).toOption

def decodedWchar (s : List WChar) (i : Nat) : Option (DChar × Nat) :=
  match utf_decodeWchar s i with
  | some (none, j, c) => some (c, j)
  | _                 => none

section strings

theorem encodeWchar_eq (h : isValidDchar c = true) : WChar.encode s c = .ok (s ++ toUTF16 c) := by
  rw [WChar.encode, h, Bool.not_true, if_neg Bool.false_ne_true, toUTF16]
  split_ifs <;> rfl

theorem foldlM_encodeWchar (h : ∀ c ∈ cs, isValidDchar c = true) :
    cs.foldlM WChar.encode s = .ok (s ++ cs.flatMap toUTF16) := by
  induction cs generalizing s
  case nil => exact congrArg _ (List.append_nil s).symm
  case cons c cs ih =>
    rw [List.foldlM_cons, encodeWchar_eq (h c List.mem_cons_self)]
    change cs.foldlM WChar.encode (s ++ toUTF16 c) = _
    rw [ih fun d hd => h d (List.mem_cons_of_mem c hd), List.flatMap_cons, List.append_assoc]

theorem toUTF16_ne_nil : toUTF16 c ≠ [] := by
  rw [toUTF16]
  split_ifs <;> exact List.cons_ne_nil _ _

-- What is decoded from an index on is encoded as the rest of the array.
theorem decodeAll_wchar_iff (hi : i ≤ s.length) (hn : s.length < n + i) :
    decodeAll (runtimeWchar s) s.length n i = some cs ↔
      (∀ c ∈ cs, Code16 c (toUTF16 c)) ∧ s.drop i = cs.flatMap toUTF16 := by
  induction n generalizing i cs
  case zero => omega
  case succ n ih =>
    rw [decodeAll]
    by_cases hlt : i < s.length
    case neg =>
      rw [if_neg hlt, List.drop_eq_nil_of_le (not_lt.mp hlt)]
      constructor
      case mp =>
        intro h
        cases h
        exact ⟨fun c hc => absurd hc List.not_mem_nil, rfl⟩
      case mpr =>
        rintro ⟨-, hnil⟩
        cases cs
        case nil => rfl
        case cons c cs => exact absurd (List.append_eq_nil_iff.mp hnil.symm).1 toUTF16_ne_nil
    case pos =>
      have hnext {c : DChar} {rest : List WChar} (hcode : Code16 c (toUTF16 c)) (hdrop : s.drop i = toUTF16 c ++ rest) :
          runtimeWchar s i = some (c, i + (toUTF16 c).length) ∧ i + (toUTF16 c).length ≤ s.length ∧
            0 < (toUTF16 c).length ∧ s.drop (i + (toUTF16 c).length) = rest := by
        have hlen := congrArg List.length hdrop
        rw [List.length_drop, List.length_append] at hlen
        refine ⟨?_, by omega, List.length_pos_iff.mpr toUTF16_ne_nil, ?_⟩
        · rw [runtimeWchar, decoders16.complete hcode hdrop]
          rfl
        · rw [← List.drop_drop, hdrop, List.drop_left]
      rw [if_pos hlt]
      constructor
      case mp =>
        intro h
        obtain ⟨r, hr⟩ | ⟨⟨c, j⟩, hdec⟩ : (∃ e, WChar.decode s i = .error e) ∨ ∃ r, WChar.decode s i = .ok r := by
          cases WChar.decode s i
          case error e => exact .inl ⟨e, rfl⟩
          case ok r => exact .inr ⟨r, rfl⟩
        case inl =>
          rw [runtimeWchar, hr] at h
          cases h
        case inr =>
          obtain ⟨us, hcode, hdrop⟩ := decoders16.sound hlt hdec
          obtain rfl := hcode.2.2.2
          obtain ⟨hrun, hle, hpos, hrest⟩ := hnext hcode hdrop
          rw [hrun] at h
          obtain ⟨ds, hds, rfl⟩ := Option.map_eq_some_iff.mp h
          obtain ⟨hall, htail⟩ := (ih hle (by omega)).mp hds
          refine ⟨List.forall_mem_cons.mpr ⟨hcode, hall⟩, ?_⟩
          rw [hdrop, List.flatMap_cons, ← htail, hrest]
      case mpr =>
        rintro ⟨hall, hdrop⟩
        cases cs
        case nil => exact absurd (List.drop_eq_nil_iff.mp hdrop) (not_le.mpr hlt)
        case cons c cs =>
          obtain ⟨hcode, hall⟩ := List.forall_mem_cons.mp hall
          obtain ⟨hrun, hle, hpos, hrest⟩ := hnext hcode hdrop
          rw [hrun]
          exact Option.map_eq_some_iff.mpr ⟨cs, (ih hle (by omega)).mpr ⟨hall, hrest⟩, rfl⟩

theorem decodeAll_wchar : decodeAll (runtimeWchar s) s.length (s.length + 1) 0 = some cs ↔
    (∀ c ∈ cs, Code16 c (toUTF16 c)) ∧ s = cs.flatMap toUTF16 :=
  decodeAll_wchar_iff (Nat.zero_le _) (Nat.lt_succ_self _)

end strings

section positions

theorem decodedWchar_unit (h : s[i]? = some u) (hh : ¬ High u) (hl : ¬ Low u) :
    decodedWchar s i = some (u.setWidth 32, i + 1) := by
  have hlt := u.isLt
  have hchecked : checked (i + 1) (u.setWidth 32) (u.setWidth 32) = (none, i + 1, u.setWidth 32) := by
    have hvalid : utf_isValidDchar (u.setWidth 32) = true := by
      rw [utf_isValidDchar_eq, isValidDchar_iff, toNat_ext]
      rw [High] at hh
      rw [Low] at hl
      omega
    rw [checked, hvalid, Bool.not_true, if_neg Bool.false_ne_true]
  rw [decodedWchar, utf_decodeWchar, h]
  simp only [Option.bind_eq_bind, Option.bind_some, if_neg (mt high_iff.mp hh), if_neg (mt low_iff.mp hl), hchecked]
  split_ifs <;> rfl

theorem decodedWchar_pair (h : s[i]? = some u) (h2 : s[i + 1]? = some u2) (hu : High u) (hu2 : Low u2) :
    decodedWchar s i = some (WChar.pair u u2, i + 2) := by
  have hlen := (List.getElem?_eq_some_iff.mp h2).1
  have hlow : ¬ u < 0xD800 := by
    rw [BitVec.lt_def]
    exact not_lt.mpr hu.1
  have hvalid : utf_isValidDchar (WChar.pair u u2) = true :=
    utf_isValidDchar_eq.trans (code16_pair hu hu2).1
  rw [decodedWchar, utf_decodeWchar, h]
  simp only [Option.bind_eq_bind, Option.bind_some, if_neg hlow, if_pos (high_iff.mpr hu),
    if_neg (not_le.mpr hlen), h2, if_neg fun hn => not_low_iff.mp hn hu2, checked, hvalid]
  rfl

theorem decodedWchar_none (h : s[i]? = some u) (hunit : ¬ (¬ High u ∧ ¬ Low u))
    (hpair : ¬ ∃ u2, s[i + 1]? = some u2 ∧ High u ∧ Low u2) : decodedWchar s i = none := by
  have hlow : ¬ u < 0xD800 := by
    rw [BitVec.lt_def]
    intro hlt
    change u.toNat < 0xD800 at hlt
    rw [High, Low] at hunit
    omega
  rw [decodedWchar, utf_decodeWchar, h]
  simp only [Option.bind_eq_bind, Option.bind_some, if_neg hlow]
  by_cases hu : High u
  case pos =>
    rw [if_pos (high_iff.mpr hu)]
    by_cases hlen : s.length ≤ i + 1
    case pos => rw [if_pos hlen]; rfl
    case neg =>
      have h2 := List.getElem?_eq_getElem (not_le.mp hlen)
      rw [if_neg hlen, h2, Option.bind_some, if_pos (not_low_iff.mpr fun hl => hpair ⟨_, h2, hu, hl⟩)]
      rfl
  case neg =>
    have hl : Low u := not_not.mp fun hl => hunit ⟨hu, hl⟩
    rw [if_neg (mt high_iff.mp hu), if_pos (low_iff.mpr hl)]
    rfl

-- The two decoders differ in two values only.
theorem decodedWchar_eq (h : s[i]? = some u) (hfe : u ≠ 0xFFFE) (hff : u ≠ 0xFFFF) :
    decodedWchar s i = runtimeWchar s i := by
  have hi := (List.getElem?_eq_some_iff.mp h).1
  by_cases hunit : ¬ High u ∧ ¬ Low u
  case pos => rw [decodedWchar_unit h hunit.1 hunit.2, runtimeWchar, decode16_unit h hunit.1 hunit.2 hfe hff]; rfl
  case neg =>
    by_cases hpair : ∃ u2, s[i + 1]? = some u2 ∧ High u ∧ Low u2
    case pos =>
      obtain ⟨u2, h2, hu, hu2⟩ := hpair
      rw [decodedWchar_pair h h2 hu hu2, runtimeWchar, decode16_pair h h2 hu hu2]
      rfl
    case neg =>
      rw [decodedWchar_none h hunit hpair]
      obtain ⟨msg, hmsg⟩ | ⟨v, hv, hnh, hnl, -⟩ | ⟨v, v2, hv, hv2, hh, hl⟩ := decode16_cases hi
      case inl => rw [runtimeWchar, hmsg]; rfl
      case inr.inl =>
        obtain rfl := Option.some.inj (h.symm.trans hv)
        exact absurd ⟨hnh, hnl⟩ hunit
      case inr.inr =>
        obtain rfl := Option.some.inj (h.symm.trans hv)
        exact absurd ⟨v2, hv2, hh, hl⟩ hpair

theorem ne_of_code16 (hc : Code16 c (toUTF16 c)) (hu : u ∈ toUTF16 c) : u ≠ 0xFFFE ∧ u ≠ 0xFFFF := by
  have hne {v w : WChar} (hv : High v ∨ Low v) (hw : 0xDFFF < w.toNat) : v ≠ w := by
    rintro rfl
    rw [High, Low] at hv
    omega
  obtain ⟨v, hs, -, -, hfe, hff, -⟩ | ⟨v, v2, hs, hh, hl, -⟩ := code16_cases hc
  case inl =>
    rw [hs] at hu
    obtain rfl := List.mem_singleton.mp hu
    exact ⟨hfe, hff⟩
  case inr =>
    rw [hs] at hu
    obtain rfl | hu := List.mem_cons.mp hu
    case inl => exact ⟨hne (.inl hh) (by decide), hne (.inl hh) (by decide)⟩
    case inr =>
      obtain rfl := List.mem_singleton.mp hu
      exact ⟨hne (.inr hl) (by decide), hne (.inr hl) (by decide)⟩

theorem decodedWchar_of_decodeAll (h : decodeAll (runtimeWchar s) s.length (s.length + 1) 0 = some cs)
    (hi : i < s.length) : decodedWchar s i = runtimeWchar s i := by
  obtain ⟨hall, hs⟩ := (decodeAll_wchar).mp h
  have hmem := List.getElem_mem hi
  have hget := List.getElem?_eq_getElem hi
  generalize s[i] = u at hmem hget
  rw [hs] at hmem
  obtain ⟨c, hc, hu⟩ := List.mem_flatMap.mp hmem
  obtain ⟨hfe, hff⟩ := ne_of_code16 (hall c hc) hu
  exact decodedWchar_eq hget hfe hff

end positions

section

theorem foldlM_encodeWchar_of_decodeAll (h : decodeAll (runtimeWchar s) s.length (s.length + 1) 0 = some cs) :
    cs.foldlM WChar.encode [] = .ok s := by
  obtain ⟨hall, hs⟩ := (decodeAll_wchar).mp h
  rw [foldlM_encodeWchar fun c hc => (hall c hc).1, List.nil_append, ← hs]

theorem decodeAll_encoded (hcs : ∀ c ∈ cs, isValidDchar c = true) (hs : s = cs.flatMap toUTF16) :
    decodeAll (runtimeWchar s) s.length (s.length + 1) 0 = some cs ↔ ∀ c ∈ cs, c ≠ 0xFFFE ∧ c ≠ 0xFFFF := by
  rw [decodeAll_wchar]
  constructor
  case mp => exact fun h c hc => ⟨(h.1 c hc).2.1, (h.1 c hc).2.2.1⟩
  case mpr => exact fun h => ⟨fun c hc => ⟨hcs c hc, (h c hc).1, (h c hc).2, rfl⟩, hs⟩

-- The runtime does not decode two of the characters that it encodes.
theorem wchar_roundTrip_iff (hcs : ∀ c ∈ cs, isValidDchar c = true) :
    (∃ s, cs.foldlM WChar.encode [] = .ok s ∧
      (decodeAll (runtimeWchar s) s.length (s.length + 1) 0 = some cs ↔ ∀ c ∈ cs, c ≠ 0xFFFE ∧ c ≠ 0xFFFF)) ∧
    ∀ s ds, decodeAll (runtimeWchar s) s.length (s.length + 1) 0 = some ds →
      ds.foldlM WChar.encode [] = .ok s ∧ ∀ i < s.length, decodedWchar s i = runtimeWchar s i := by
  constructor
  case left =>
    refine ⟨cs.flatMap toUTF16, ?_, decodeAll_encoded hcs rfl⟩
    rw [foldlM_encodeWchar hcs, List.nil_append]
  case right =>
    exact fun s ds h => ⟨foldlM_encodeWchar_of_decodeAll h, fun i hi => decodedWchar_of_decodeAll h hi⟩

theorem wchar_roundTrip_pair :
    (∃ s, [0x41, 0x10437].foldlM WChar.encode [] = .ok s ∧
      (decodeAll (runtimeWchar s) s.length (s.length + 1) 0 = some [0x41, 0x10437] ↔
        ∀ c ∈ [(0x41 : DChar), 0x10437], c ≠ 0xFFFE ∧ c ≠ 0xFFFF)) ∧
    ∀ s ds, decodeAll (runtimeWchar s) s.length (s.length + 1) 0 = some ds →
      ds.foldlM WChar.encode [] = .ok s ∧ ∀ i < s.length, decodedWchar s i = runtimeWchar s i :=
  wchar_roundTrip_iff (List.forall_mem_cons.mpr ⟨by decide, List.forall_mem_singleton.mpr (by decide)⟩)

theorem not_wchar_roundTrip_fffe :
    isValidDchar 0xFFFE = true ∧ [(0xFFFE : DChar)].foldlM WChar.encode [] = .ok [0xFFFE] ∧
      decodeAll (runtimeWchar [0xFFFE]) 1 2 0 ≠ some [0xFFFE] ∧
      decodedWchar [0xFFFE] 0 = some (0xFFFE, 1) :=
  have hvalid : ∀ c ∈ [(0xFFFE : DChar)], isValidDchar c = true := List.forall_mem_singleton.mpr (by decide)
  ⟨by decide, by decide, fun h => ((decodeAll_encoded hvalid (by decide)).mp h _ List.mem_cons_self).1 rfl, by decide⟩

end

end Compiler.Root.Utf
