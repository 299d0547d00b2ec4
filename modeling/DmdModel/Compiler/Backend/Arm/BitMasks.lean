import DmdModel.Lib.BitPatterns

-- Immediate operands of logical instructions of AArch64.

namespace Compiler.Backend.Arm

open BitPatterns

structure Fields where
  N    : Nat
  immr : Nat
  imms : Nat
  deriving DecidableEq

-- The halves of a value of 2 * h bits.
def halvesDiffer (value h : Nat) : Bool :=
  (value ^^^ (value >>> h)) &&& (2 ^ h - 1) ≠ 0

-- The number of bits of the pattern, and the pattern.
def pattern (value : Nat) : Option (Nat × Nat) :=
  if halvesDiffer value 32 then some (64, value)
  else
    let value := value &&& (2 ^ 32 - 1)
    if value = 0 ∨ value = 2 ^ 32 - 1 then none
    else if halvesDiffer value 16 then some (32, value)
    else
      let value := value &&& (2 ^ 16 - 1)
      if halvesDiffer value 8 then some (16, value)
      else
        let value := value &&& (2 ^ 8 - 1)
        if halvesDiffer value 4 then some (8, value)
        else
          let value := value &&& (2 ^ 4 - 1)
          if halvesDiffer value 2 then some (4, value)
          else some (2, value &&& 3)

-- The type of the value is `ulong`.
def isRunRJ (n : Nat) : Bool :=
  (n + 1) % 2 ^ 64 &&& n = 0

-- The type of the rotation is `uint`. There is no result if the fuel does not last.
def shiftOutZeros : (fuel : Nat) → (value rotation : Nat) → Option (Nat × Nat)
  | 0, _, _                  => none
  | fuel + 1, value, rotation =>
    let value := value >>> 1
    let rotation := (rotation + 1) % 2 ^ 32
    if value % 2 = 0 then shiftOutZeros fuel value rotation else some (value, rotation)

def shiftInOnes (leftMostBit : Nat) : (fuel : Nat) → (value rotation : Nat) → Option (Nat × Nat)
  | 0, _, _                  => none
  | fuel + 1, value, rotation =>
    let value := (value <<< 1 ||| 1) % 2 ^ 64
    let rotation := (rotation + 2 ^ 32 - 1) % 2 ^ 32
    if value &&& leftMostBit ≠ 0 then shiftInOnes leftMostBit fuel value rotation else some (value, rotation)

-- The value with its ones at the right, and how much it has been rotated left.
def rotate (fuel size value : Nat) : Option (Nat × Nat) :=
  let leftMostBit := 2 ^ (size - 1)
  -- Case 000111
  if isRunRJ value then some (value, 0)
  -- Case 011100
  else if value % 2 = 0 then shiftOutZeros fuel value 0
  -- Case 100011
  else
    (shiftInOnes leftMostBit fuel value 0).map fun (value, rotation) =>
      (if size ≠ 64 then value &&& (2 ^ size - 1) else value, (rotation + size) % 2 ^ 32)

def fields (size numOnes rotation : Nat) : Fields where
  N    := if size = 64 then 1 else 0
  immr := ((size + 2 ^ 32 - rotation) % 2 ^ 32 &&& (size - 1)) &&& 0x3F
  imms := ((2 ^ 32 - 1 - (size - 1)) <<< 1 % 2 ^ 32 ||| (numOnes - 1)) &&& 0x3F

-- The inner result is that the value can be encoded.
def encodeNImmrImms (fuel value : Nat) : Option (Option Fields) :=
  if value = 0 ∨ value = 2 ^ 64 - 1 then
    some none
  else
    match pattern value with
    | none               => some none
    | some (size, value) =>
      let numOnes := popcount value
      (rotate fuel size value).map fun (value, rotation) =>
        if !isRunRJ value then none else some (fields size numOnes rotation)

-- `DecodeBitMasks` of the architecture for immediates and registers of 64 bits. There is no result where it is undefined.
def DecodeBitMasks (f : Fields) : Option Nat :=
  let immN_not_imms := f.N * 64 + (63 - f.imms)
  let len := Nat.log2 immN_not_imms
  if immN_not_imms = 0 ∨ len < 1 then
    none
  else
    let levels := 2 ^ len - 1
    if f.imms &&& levels = levels then
      none
    else
      let S := f.imms &&& levels
      let R := f.immr &&& levels
      let esize := 2 ^ len
      let welem := 2 ^ (S + 1) - 1
      some (copies esize (ror esize welem R) (64 / esize))

end Compiler.Backend.Arm
