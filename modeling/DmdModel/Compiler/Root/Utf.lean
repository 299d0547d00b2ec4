import DmdModel.Lib.ByteMemory
import DmdModel.Runtime.Utf.Basic

-- UTF-8 and UTF-16 in the front end of the compiler.

namespace Compiler.Root.Utf

open Runtime.Utf

def utf_isValidDchar (c : DChar) : Bool :=
  if c < 0xD800 then true else
  if c > 0xDFFF && c ≤ 0x10FFFF then true else
  false

-- The code units of a character. There is no result if an assertion fails.
def utf_encodeChar (c : DChar) : Option (List Char8) :=
  if !utf_isValidDchar c then
    none
  else if c ≤ 0x7F then
    some [c.setWidth 8]
  else if c ≤ 0x07FF then
    some [(0xC0#32 ||| (c >>> 6)).setWidth 8, (0x80#32 ||| (c &&& 0x3F#32)).setWidth 8]
  else if c ≤ 0xFFFF then
    some [(0xE0#32 ||| (c >>> 12)).setWidth 8, (0x80#32 ||| ((c >>> 6) &&& 0x3F#32)).setWidth 8,
      (0x80#32 ||| (c &&& 0x3F#32)).setWidth 8]
  else if c ≤ 0x10FFFF then
    some [(0xF0#32 ||| (c >>> 18)).setWidth 8, (0x80#32 ||| ((c >>> 12) &&& 0x3F#32)).setWidth 8,
      (0x80#32 ||| ((c >>> 6) &&& 0x3F#32)).setWidth 8, (0x80#32 ||| (c &&& 0x3F#32)).setWidth 8]
  else
    none

def utf_encodeWchar (c : DChar) : Option (List WChar) :=
  if !utf_isValidDchar c then
    none
  else if c ≤ 0xFFFF then
    some [c.setWidth 16]
  else
    some [(((c - 0x010000) >>> 10 &&& 0x03FF#32) + 0xD800).setWidth 16,
      ((c - 0x010000 &&& 0x03FF#32) + 0xDC00).setWidth 16]

def utf_codeLengthChar (c : DChar) : Option Nat :=
  if c ≤ 0x7F then some 1 else
  if c ≤ 0x7FF then some 2 else
  if c ≤ 0xFFFF then some 3 else
  if c ≤ 0x10FFFF then some 4 else
  none

def utf_codeLengthWchar (c : DChar) : Nat :=
  if c ≤ 0xFFFF then 1 else 2

-- The number of code units of a size.
def utf_codeLength (sz : Nat) (c : DChar) : Option Nat :=
  if sz = 1 then
    utf_codeLengthChar c
  else if sz = 2 then
    some (utf_codeLengthWchar c)
  else if sz = 4 then
    some 1
  else
    none

-- The bytes of the code units.
def utf_encode (sz : Nat) (c : DChar) : Option (List UInt8) :=
  if sz = 1 then
    (utf_encodeChar c).map fun s => s.flatMap fun u => ByteMemory.bytes 1 u.toNat
  else if sz = 2 then
    (utf_encodeWchar c).map fun s => s.flatMap fun u => ByteMemory.bytes 2 u.toNat
  else if sz = 4 then
    some (ByteMemory.bytes 4 c.toNat)
  else
    none

-- The numbers of code units by the first one.
def UTF8_STRIDE : List Nat :=
  List.replicate 128 1 ++ List.replicate 64 0xFF ++ List.replicate 32 2 ++ List.replicate 16 3 ++
    List.replicate 8 4 ++ [5, 5, 5, 5, 6, 6, 0xFF, 0xFF]

def overlong (u u2 : Char8) : Bool :=
  u &&& 0xFE = 0xC0 ||
  (u = 0xE0 && u2 &&& 0xE0 = 0x80) ||
  (u = 0xF0 && u2 &&& 0xF0 = 0x80) ||
  (u = 0xF8 && u2 &&& 0xF8 = 0x80) ||
  (u = 0xFC && u2 &&& 0xFC = 0x80)

-- The remaining code units, from `i` on, as many as `cnt`. An access outside of the array has no result.
def remaining (s : List Char8) : (cnt i : Nat) → DChar → Option (Option DChar)
  | 0, _, c       => some (some c)
  | cnt + 1, i, c => do
    let u3 ← s[i]?
    if u3 &&& 0xC0 ≠ 0x80 then
      return none
    else
      remaining s cnt (i + 1) ((c <<< 6) ||| (u3 &&& 0x3F).setWidth 32)

-- The error, the index behind what was decoded, and the character.
def utf_decodeChar (s : List Char8) (ridx : Nat) : Option (Option String × Nat × DChar) := do
  let i := ridx
  let ridx := ridx + 1
  let u ← s[i]?
  let rresult := u.setWidth 32
  let n ← UTF8_STRIDE[u.toNat]?
  if n = 1 then
    return (none, ridx, rresult)
  else if n = 2 ∨ n = 3 ∨ n = 4 then
    if s.length < i + n then
      return (some "Truncated UTF-8 sequence", ridx, rresult)
    else
      let c := u.setWidth 32 &&& (1#32 <<< (7 - n) - 1)
      let u2 ← s[i + 1]?
      if overlong u u2 then
        return (some "Overlong UTF-8 sequence", ridx, rresult)
      else
        match ← remaining s (n - 1) (i + 1) c with
        | none   => return (some "Invalid trailing code unit", ridx, rresult)
        | some c =>
          if !utf_isValidDchar c then
            return (some "Invalid code point decoded", ridx, rresult)
          else
            return (none, i + n, c)
  else
    return (some "Outside Unicode code space", ridx, rresult)

-- if (!utf_isValidDchar(u)) return UTF16_DECODE_INVALID_CODE_POINT;
def checked (ridx : Nat) (u rresult : DChar) : Option String × Nat × DChar :=
  if !utf_isValidDchar u then (some "Invalid code point decoded", ridx, rresult) else (none, ridx, u)

def utf_decodeWchar (s : List WChar) (ridx : Nat) : Option (Option String × Nat × DChar) := do
  let i := ridx
  let ridx := ridx + 1
  let u ← s[i]?
  -- Pre-stage results for single wchar and error cases
  let rresult := u.setWidth 32
  if u < 0xD800 then
    return (none, ridx, rresult)
  else if 0xD800 ≤ u ∧ u ≤ 0xDBFF then
    if s.length ≤ i + 1 then
      return (some "Truncated UTF-16 sequence", ridx, rresult)
    else
      let u2 ← s[i + 1]?
      if u2 < 0xDC00 ∨ 0xDFFF < u2 then
        return (some "Invalid low surrogate", ridx, rresult)
      else
        return checked (ridx + 1) (WChar.pair u u2) rresult
  else if 0xDC00 ≤ u ∧ u ≤ 0xDFFF then
    return (some "Unpaired surrogate", ridx, rresult)
  else
    return checked ridx rresult rresult

end Compiler.Root.Utf
