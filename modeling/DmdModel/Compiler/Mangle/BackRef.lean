import DmdModel.Runtime.Utf.Basic

-- The back references of mangled names: 'Q' and the distance, as a number of the base 26. Its digits are
-- upper case letters, but the last one.

namespace Compiler.Mangle

open Runtime.Utf

abbrev size_t := BitVec 64

def base : size_t := 26

-- The place value of the first digit. If there is none after 64 steps then the multiplier is 0 and the
-- loop does not end.
def firstMul : (fuel : Nat) → (pos mul : size_t) → Option size_t
  | 0, _, _            => none
  | fuel + 1, pos, mul => if pos ≥ mul * base then firstMul fuel pos (mul * base) else some mul

-- The digits of `pos`. `cast` converts a digit to its type.
def writeDigits (cast : size_t → size_t) : (fuel : Nat) → (pos mul : size_t) → List Char8 → Option (List Char8)
  | 0, _, _, _              => none
  | fuel + 1, pos, mul, buf =>
    if mul ≥ base then
      let dig := cast (pos / mul)
      writeDigits cast fuel (pos - dig * mul) (mul / base) (buf ++ [chr 'A' + dig.setWidth 8])
    else
      some (buf ++ [chr 'a' + pos.setWidth 8])

-- A digit is a ubyte.
def writeBackRef (buf : List Char8) (pos : size_t) : Option (List Char8) := do
  let mul ← firstMul 64 pos 1
  writeDigits (fun dig => (dig.setWidth 8).setWidth 64) 64 pos mul (buf ++ [chr 'Q'])

end Compiler.Mangle
