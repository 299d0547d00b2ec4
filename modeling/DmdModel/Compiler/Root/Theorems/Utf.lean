import DmdModel.Compiler.Root.Utf
import DmdModel.Runtime.Utf.Basic
import DmdModel.Runtime.Utf.Theorems.Decode
import DmdModel.Runtime.Utf.Theorems.Utf16

namespace Compiler.Root.Utf

open Runtime.Utf

variable {s us : List Char8} {i j k : Nat} {c d : DChar} {u u2 : Char8}

theorem utf_isValidDchar_eq : utf_isValidDchar c = isValidDchar c := by
  rw [utf_isValidDchar, isValidDchar]
  split
  case isTrue h  => rw [decide_eq_true h, Bool.true_or]
  case isFalse h =>
    rw [decide_eq_false h, Bool.false_or]
    cases (c > 0xDFFF && c ≤ 0x10FFFF) <;> rfl

-- The three encoders write the same code units.

theorem utf_encodeChar_eq : utf_encodeChar c = (toUTF8 true c).toOption := by
  rw [utf_encodeChar, toUTF8, utf_isValidDchar_eq, Bool.true_and]
  repeat' split
  all_goals rfl

theorem utf_encodeChar_iff : utf_encodeChar c = some us ↔ Units c us := by
  rw [utf_encodeChar_eq, ← code8_iff, Code8]
  constructor
  · intro h
    cases he : toUTF8 true c with
    | error e => rw [he] at h; cases h
    | ok vs =>
      rw [he] at h
      cases h
      refine ⟨?_, rfl⟩
      by_contra hv
      rw [toUTF8, Bool.eq_false_of_not_eq_true hv] at he
      cases he
  · rintro ⟨-, he⟩
    rw [he]
    rfl

-- What the two decoders give for the same index: the same character and index, or both an error. The
-- index of the compiler is then behind one code unit.
inductive Agree (s : List Char8) (i : Nat) : Prop
  | decoded {d : DChar} {j : Nat} : Char8.decode s i = .ok (d, j) → utf_decodeChar s i = some (none, j, d) → Agree s i
  | refused {e : UtfError} (msg : String) (r : DChar) : Char8.decode s i = .error e →
    utf_decodeChar s i = some (some msg, i + 1, r) → Agree s i

-- The characters of a whole string.
def decodeAll (dec : Nat → Option (DChar × Nat)) (len : Nat) : (fuel i : Nat) → Option (List DChar)
  | 0, _        => none
  | fuel + 1, i =>
    if i < len then
      match dec i with
      | none        => none
      | some (c, j) => (decodeAll dec len fuel j).map (c :: ·)
    else
      some []

-- The decoders without their errors.

end Compiler.Root.Utf

-- The encodings of a character in code units of 1, 2 and 4 bytes.

namespace Compiler.Root.Utf

open Runtime.Utf

variable {c : DChar} {sz : Nat} {us : List Nat} {s : List WChar} {t : List Char8}

-- The characters by their code units of UTF-16.
inductive Units16 : DChar → List WChar → Prop
  | one {d : DChar} {u : WChar} : isValidDchar d = true → d.toNat = u.toNat → Units16 d [u]
  | two {d : DChar} {u u2 : WChar} : High u → Low u2 →
    d.toNat = 0x10000 + (u.toNat - 0xD800) * 1024 + (u2.toNat - 0xDC00) → Units16 d [u, u2]

inductive Encodes : (sz : Nat) → DChar → List Nat → Prop
  | utf8 {c : DChar} {t : List Char8} : Units c t → Encodes 1 c (t.map BitVec.toNat)
  | utf16 {c : DChar} {s : List WChar} : Units16 c s → Encodes 2 c (s.map BitVec.toNat)
  | utf32 {c : DChar} : Encodes 4 c [c.toNat]

theorem utf_encodeWchar_eq : utf_encodeWchar c = if isValidDchar c then some (toUTF16 c) else none := by
  rw [utf_encodeWchar, utf_isValidDchar_eq, toUTF16]
  cases isValidDchar c
  case false => rfl
  case true =>
    rw [Bool.not_true, if_neg Bool.false_ne_true, if_pos rfl]
    split_ifs <;> rfl

theorem utf_encodeWchar_of_units (h : Units16 c s) : utf_encodeWchar c = some s := by
  rw [utf_encodeWchar_eq]
  cases h
  case one u hvalid hu =>
    have hlt := u.isLt
    have hword : c.setWidth 16 = u := by
      rw [← BitVec.toNat_inj, BitVec.toNat_setWidth, hu]
      exact Nat.mod_eq_of_lt hlt
    rw [if_pos hvalid, toUTF16_of_le (by omega), hword]
  case two u u2 hhigh hlow hc =>
    obtain ⟨h1, h2⟩ := hhigh
    obtain ⟨h3, h4⟩ := hlow
    have ⟨v, v2, heq, hv, hv2, hpair⟩ := toUTF16_of_gt (d := c) (by omega) (by omega)
    have hsum := pair_toNat hv hv2
    rw [hpair] at hsum
    obtain ⟨h5, h6⟩ := hv
    obtain ⟨h7, h8⟩ := hv2
    have hfirst : v = u := BitVec.eq_of_toNat_eq (by omega)
    have hsecond : v2 = u2 := BitVec.eq_of_toNat_eq (by omega)
    rw [if_pos (isValidDchar_iff.mpr (by omega)), heq, hfirst, hsecond]

theorem utf_codeLengthChar_eq : utf_codeLengthChar c =
    if c.toNat ≤ 0x7F then some 1 else if c.toNat ≤ 0x7FF then some 2 else if c.toNat ≤ 0xFFFF then some 3 else
      if c.toNat ≤ 0x10FFFF then some 4 else none :=
  rfl

theorem utf_codeLengthWchar_eq : utf_codeLengthWchar c = if c.toNat ≤ 0xFFFF then 1 else 2 :=
  rfl

-- The code units are written, and there are as many as the length says.
theorem utf_encode_eq (h : Encodes sz c us) :
    utf_encode sz c = some (us.flatMap (ByteMemory.bytes sz)) ∧ utf_codeLength sz c = some us.length := by
  cases h
  case utf8 t ht =>
    rw [utf_encode, if_pos rfl, (utf_encodeChar_iff).mpr ht, Option.map_some, List.flatMap_map, utf_codeLength, if_pos rfl,
      utf_codeLengthChar_eq]
    refine ⟨rfl, ?_⟩
    cases ht
    case one u hu hc => rw [if_pos (show c.toNat ≤ 0x7F by omega)]; rfl
    case two u u2 h1 h2 ht hc =>
      rw [Trail] at ht
      rw [if_neg (show ¬ c.toNat ≤ 0x7F by omega), if_pos (show c.toNat ≤ 0x7FF by omega)]
      rfl
    case three u u2 u3 h1 h2 ht ht' hc hge hvalid =>
      rw [Trail] at ht ht'
      rw [if_neg (show ¬ c.toNat ≤ 0x7F by omega), if_neg (show ¬ c.toNat ≤ 0x7FF by omega),
        if_pos (show c.toNat ≤ 0xFFFF by omega)]
      rfl
    case four u u2 u3 u4 h1 h2 ht ht' ht'' hc hge hvalid =>
      have hle := isValidDchar_iff.mp hvalid
      rw [if_neg (show ¬ c.toNat ≤ 0x7F by omega), if_neg (show ¬ c.toNat ≤ 0x7FF by omega),
        if_neg (show ¬ c.toNat ≤ 0xFFFF by omega), if_pos (show c.toNat ≤ 0x10FFFF by omega)]
      rfl
  case utf16 s hs =>
    rw [utf_encode, if_neg (by decide), if_pos rfl, utf_encodeWchar_of_units hs, Option.map_some, List.flatMap_map,
      utf_codeLength, if_neg (by decide), if_pos rfl, utf_codeLengthWchar_eq]
    refine ⟨rfl, ?_⟩
    cases hs
    case one u hvalid hu =>
      have hlt := u.isLt
      rw [if_pos (show c.toNat ≤ 0xFFFF by omega)]
      rfl
    case two u u2 hhigh hlow hc =>
      rw [if_neg (show ¬ c.toNat ≤ 0xFFFF by omega)]
      rfl
  case utf32 => exact ⟨by rw [List.flatMap_singleton]; rfl, rfl⟩

theorem Encodes.lt (h : Encodes sz c us) : ∀ u ∈ us, u < 256 ^ sz := by
  cases h
  case utf8 t ht =>
    intro u hu
    obtain ⟨b, -, rfl⟩ := List.mem_map.mp hu
    exact b.isLt
  case utf16 s hs =>
    intro u hu
    obtain ⟨b, -, rfl⟩ := List.mem_map.mp hu
    exact b.isLt
  case utf32 =>
    intro u hu
    rw [List.mem_singleton.mp hu]
    exact c.isLt

end Compiler.Root.Utf
