import Mathlib

namespace Runtime.Utf

-- The code units of UTF-8, UTF-16 and UTF-32: char, wchar and dchar.
abbrev Char8 := BitVec 8
abbrev WChar := BitVec 16
abbrev DChar := BitVec 32

-- The code unit of an ASCII character
def chr (c : Char) : Char8 :=
  BitVec.ofNat 8 c.toNat

-- The ways in which a function does not return: an exception with its message and index, an assertion
-- that fails, an access outside of the array, and a loop that does not end.
inductive UtfError
  | unicode (msg : String) (idx : Nat)
  | assertion
  | outOfBounds
  | endless
  deriving DecidableEq, Repr

def onUnicodeError {α : Type} (msg : String) (idx : Nat) : Except UtfError α :=
  .error (.unicode msg idx)

def unit {U : Type} (s : List U) (i : Nat) : Except UtfError U :=
  match s[i]? with
  | some u => .ok u
  | none   => .error .outOfBounds

def isValidDchar (c : DChar) : Bool :=
  c < 0xD800 || (c > 0xDFFF && c ≤ 0x10FFFF)

namespace Char8

-- The number of code units of a character by the first of them, up to 4.
def stride (u : Char8) : (fuel n : Nat) → Option Nat
  | 0, _        => none
  | fuel + 1, n =>
    if n > 4 then
      none
    else if (u.setWidth 32 <<< n) &&& 0x80#32 = 0 then
      if n = 1 then none else some n
    else
      stride u fuel (n + 1)

def overlong (u u2 : Char8) : Bool :=
  u &&& 0xFE = 0xC0 ||
  (u = 0xE0 && u2 &&& 0xE0 = 0x80) ||
  (u = 0xF0 && u2 &&& 0xF0 = 0x80) ||
  (u = 0xF8 && u2 &&& 0xF8 = 0x80) ||
  (u = 0xFC && u2 &&& 0xFC = 0x80)

-- The code units from `j` on, as many as `cnt`. There is no result if one of them is no trailing one.
def trailing (s : List Char8) (i : Nat) : (cnt j : Nat) → DChar → Except UtfError (Option DChar)
  | 0, _, V       => .ok (some V)
  | cnt + 1, j, V => do
    let u ← unit s (i + j)
    if u &&& 0xC0 ≠ 0x80 then
      return none
    else
      trailing s i cnt (j + 1) ((V <<< 6) ||| (u &&& 0x3F).setWidth 32)

-- The character that begins at `idx`, and the index behind it.
def decode (s : List Char8) (idx : Nat) : Except UtfError (DChar × Nat) := do
  let u ← unit s idx
  if u &&& 0x80 ≠ 0 then
    match stride u 5 1 with
    | none   => onUnicodeError "invalid UTF-8 sequence" idx
    | some n =>
      let V := u.setWidth 32 &&& (1#32 <<< (7 - n) - 1)
      if idx + (n - 1) ≥ s.length then
        onUnicodeError "invalid UTF-8 sequence" idx
      else
        let u2 ← unit s (idx + 1)
        if overlong u u2 then
          onUnicodeError "invalid UTF-8 sequence" idx
        else
          match ← trailing s idx (n - 1) 1 V with
          | none   => onUnicodeError "invalid UTF-8 sequence" idx
          | some V =>
            if !isValidDchar V then
              onUnicodeError "invalid UTF-8 sequence" idx
            else
              return (V, idx + n)
  else
    return (u.setWidth 32, idx + 1)

end Char8

namespace WChar

-- ((u - 0xD7C0) << 10) + (u2 - 0xDC00)
def pair (u u2 : WChar) : DChar :=
  ((u.setWidth 32 - 0xD7C0#32) <<< 10) + (u2.setWidth 32 - 0xDC00#32)

def decode (s : List WChar) (idx : Nat) : Except UtfError (DChar × Nat) := do
  let u ← unit s idx
  if u &&& ~~~0x7F ≠ 0 then
    if u ≥ 0xD800 ∧ u ≤ 0xDBFF then
      if idx + 1 = s.length then
        onUnicodeError "surrogate UTF-16 high value past end of string" idx
      else
        let u2 ← unit s (idx + 1)
        if u2 < 0xDC00 ∨ u2 > 0xDFFF then
          onUnicodeError "surrogate UTF-16 low value out of range" idx
        else
          return (pair u u2, idx + 2)
    else if u ≥ 0xDC00 ∧ u ≤ 0xDFFF then
      onUnicodeError "unpaired surrogate UTF-16 value" idx
    else if u = 0xFFFE ∨ u = 0xFFFF then
      onUnicodeError "illegal UTF-16 value" idx
    else
      return (u.setWidth 32, idx + 1)
  else
    return (u.setWidth 32, idx + 1)

end WChar

-- The code units of UTF-8 for a character. The contract of the function is only checked in some builds.
def toUTF8 (contracts : Bool) (c : DChar) : Except UtfError (List Char8) :=
  if contracts && !isValidDchar c then
    .error .assertion
  else if c ≤ 0x7F then
    .ok [c.setWidth 8]
  else if c ≤ 0x7FF then
    .ok [(0xC0#32 ||| (c >>> 6)).setWidth 8, (0x80#32 ||| (c &&& 0x3F#32)).setWidth 8]
  else if c ≤ 0xFFFF then
    .ok [(0xE0#32 ||| (c >>> 12)).setWidth 8, (0x80#32 ||| ((c >>> 6) &&& 0x3F#32)).setWidth 8,
      (0x80#32 ||| (c &&& 0x3F#32)).setWidth 8]
  else if c ≤ 0x10FFFF then
    .ok [(0xF0#32 ||| (c >>> 18)).setWidth 8, (0x80#32 ||| ((c >>> 12) &&& 0x3F#32)).setWidth 8,
      (0x80#32 ||| ((c >>> 6) &&& 0x3F#32)).setWidth 8, (0x80#32 ||| (c &&& 0x3F#32)).setWidth 8]
  else
    .error .assertion

-- The code units of UTF-16 for a character, as the loops write them down.
def toUTF16 (d : DChar) : List WChar :=
  if d ≤ 0xFFFF then
    [d.setWidth 16]
  else
    [((((d - 0x10000#32) >>> 10) &&& 0x3FF#32) + 0xD800#32).setWidth 16,
      (((d - 0x10000#32) &&& 0x3FF#32) + 0xDC00#32).setWidth 16]

end Runtime.Utf

namespace Runtime.Utf

namespace Char8

-- The array with the code units of a character behind it.
def encode (s : List Char8) (c : DChar) : Except UtfError (List Char8) :=
  if !isValidDchar c then
    .error .assertion
  else if c ≤ 0x7F then
    .ok (s ++ [c.setWidth 8])
  else if c ≤ 0x7FF then
    .ok (s ++ [(0xC0#32 ||| (c >>> 6)).setWidth 8, (0x80#32 ||| (c &&& 0x3F#32)).setWidth 8])
  else if c ≤ 0xFFFF then
    .ok (s ++ [(0xE0#32 ||| (c >>> 12)).setWidth 8, (0x80#32 ||| ((c >>> 6) &&& 0x3F#32)).setWidth 8,
      (0x80#32 ||| (c &&& 0x3F#32)).setWidth 8])
  else if c ≤ 0x10FFFF then
    .ok (s ++ [(0xF0#32 ||| (c >>> 18)).setWidth 8, (0x80#32 ||| ((c >>> 12) &&& 0x3F#32)).setWidth 8,
      (0x80#32 ||| ((c >>> 6) &&& 0x3F#32)).setWidth 8, (0x80#32 ||| (c &&& 0x3F#32)).setWidth 8])
  else
    .error .assertion

end Char8

namespace WChar

def encode (s : List WChar) (c : DChar) : Except UtfError (List WChar) :=
  if !isValidDchar c then
    .error .assertion
  else if c ≤ 0xFFFF then
    .ok (s ++ [c.setWidth 16])
  else
    .ok (s ++ [((((c - 0x10000#32) >>> 10) &&& 0x3FF#32) + 0xD800#32).setWidth 16,
      (((c - 0x10000#32) &&& 0x3FF#32) + 0xDC00#32).setWidth 16])

end WChar

end Runtime.Utf
