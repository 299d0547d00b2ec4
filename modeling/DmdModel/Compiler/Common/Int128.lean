import Mathlib

-- 128 bit integer arithmetic.

namespace Compiler.Common.Int128

structure Cent where
  lo : BitVec 64 := 0
  hi : BitVec 64 := 0
  deriving DecidableEq, Repr

def Ubits : Nat := 64

def One : Cent := { lo := 1 }
def Zero : Cent := {}

def tst (c : Cent) : Bool :=
  c.hi ≠ 0 ∨ c.lo ≠ 0

def com (c : Cent) : Cent where
  lo := ~~~c.lo
  hi := ~~~c.hi

def neg (c : Cent) : Cent :=
  if c.lo = 0 then { c with hi := -c.hi } else { lo := -c.lo, hi := ~~~c.hi }

def MinusOne : Cent := neg One

section shifts

-- Unsigned shift right one bit
def shr1 (c : Cent) : Cent where
  lo := c.lo >>> 1 ||| (c.hi &&& 1) <<< (Ubits - 1)
  hi := c.hi >>> 1

-- Shift left n bits
def shl (c : Cent) (n : BitVec 32) : Cent :=
  if n ≥ 128 then
    Zero
  else if n ≥ 64 then
    { lo := 0, hi := c.lo <<< (n - 64) }
  else
    { lo := c.lo <<< n, hi := c.hi <<< n ||| c.lo >>> (64 - n - 1) >>> 1 }

-- Unsigned shift right n bits
def shr (c : Cent) (n : BitVec 32) : Cent :=
  if n ≥ 128 then
    Zero
  else if n ≥ 64 then
    { lo := c.hi >>> (n - 64), hi := 0 }
  else
    { lo := c.lo >>> n ||| c.hi <<< (64 - n - 1) <<< 1, hi := c.hi >>> n }

-- Arithmetic shift right n bits
def sar (c : Cent) (n : BitVec 32) : Cent :=
  let signmask : BitVec 64 := -(c.hi >>> (Ubits - 1))
  let signshift := 128 - n
  let c := shr c n
  -- Sign extend all bits beyond the precision of Cent.
  if n ≥ 128 then
    { lo := signmask, hi := signmask }
  else if signshift ≥ 128 then
    c
  else if signshift ≥ 64 then
    { c with hi := c.hi &&& ~~~(BitVec.allOnes 64 <<< (signshift - 64)) ||| signmask <<< (signshift - 64) }
  else
    { lo := c.lo &&& ~~~(BitVec.allOnes 64 <<< signshift) ||| signmask <<< signshift, hi := signmask }

end shifts

def and (c1 c2 : Cent) : Cent where
  lo := c1.lo &&& c2.lo
  hi := c1.hi &&& c2.hi

def or (c1 c2 : Cent) : Cent where
  lo := c1.lo ||| c2.lo
  hi := c1.hi ||| c2.hi

def xor (c1 c2 : Cent) : Cent where
  lo := c1.lo ^^^ c2.lo
  hi := c1.hi ^^^ c2.hi

-- Rotate left n bits
def rol (c : Cent) (n : BitVec 32) : Cent :=
  let n := n &&& 127
  let l := shl c n
  let r := shr c (128 - n)
  or l r

-- Rotate right n bits
def ror (c : Cent) (n : BitVec 32) : Cent :=
  let n := n &&& 127
  let r := shr c n
  let l := shl c (128 - n)
  or r l

def add (c1 c2 : Cent) : Cent :=
  let r := c1.lo + c2.lo
  { lo := r, hi := c1.hi + c2.hi + if r < c1.lo then 1 else 0 }

def sub (c1 c2 : Cent) : Cent :=
  add c1 (neg c2)

def inc (c : Cent) : Cent :=
  add c One

def dec (c : Cent) : Cent :=
  sub c One

def mulmask : BitVec 64 := 1 <<< 32 - 1
def mulshift : Nat := 32

-- Splits the operands into 4 words, then computes and sums the partial products of each part.
def mul (c1 c2 : Cent) : Cent :=
  let c2l0 := c2.lo &&& mulmask
  let c2l1 := c2.lo >>> mulshift
  let c2h0 := c2.hi &&& mulmask
  let c2h1 := c2.hi >>> mulshift
  let c1l0 := c1.lo &&& mulmask
  let r0 := c1l0 * c2l0
  let r1 := c1l0 * c2l1 + r0 >>> mulshift
  let r2 := c1l0 * c2h0 + r1 >>> mulshift
  let r3 := c1l0 * c2h1 + r2 >>> mulshift
  let c1l1 := c1.lo >>> mulshift
  let r1 := c1l1 * c2l0 + (r1 &&& mulmask)
  let r2 := c1l1 * c2l1 + (r2 &&& mulmask) + r1 >>> mulshift
  let r3 := c1l1 * c2h0 + (r3 &&& mulmask) + r2 >>> mulshift
  let c1h0 := c1.hi &&& mulmask
  let r2 := c1h0 * c2l0 + (r2 &&& mulmask)
  let r3 := c1h0 * c2l1 + (r3 &&& mulmask) + r2 >>> mulshift
  let c1h1 := c1.hi >>> mulshift
  let r3 := c1h1 * c2l0 + (r3 &&& mulmask)
  { lo := (r0 &&& mulmask) + (r1 &&& mulmask) * (mulmask + 1)
    hi := (r2 &&& mulmask) + (r3 &&& mulmask) * (mulmask + 1) }

section comparisons

def ugt (c1 c2 : Cent) : Bool :=
  if c1.hi = c2.hi then c1.lo > c2.lo else c1.hi > c2.hi

def uge (c1 c2 : Cent) : Bool := !ugt c2 c1
def ult (c1 c2 : Cent) : Bool := ugt c2 c1
def ule (c1 c2 : Cent) : Bool := !ugt c1 c2

-- The signed comparison
def gt (c1 c2 : Cent) : Bool :=
  if c1.hi = c2.hi then c1.lo > c2.lo else c2.hi.slt c1.hi

def ge (c1 c2 : Cent) : Bool := !gt c2 c1
def lt (c1 c2 : Cent) : Bool := gt c2 c1
def le (c1 c2 : Cent) : Bool := !gt c1 c2

end comparisons

section division

-- The division of the host, which traps on zero.
def hostDivMod {w : Nat} (x y : BitVec w) : Option (BitVec w × BitVec w) :=
  if y = 0 then none else some (x / y, x % y)

-- The index of the first bit set, which is undefined for zero.
def bsr (v : BitVec 64) : Option (BitVec 32) :=
  if v = 0 then none else some (BitVec.ofNat 32 v.toNat.log2)

def divmask : BitVec 64 := 1 <<< 32 - 1
def divshift : Nat := 32
def base : BitVec 64 := 1 <<< 32

-- Computes [num1 num0] / den
def udiv96_64 (num1 : BitVec 64) (num0 : BitVec 32) (den : BitVec 64) : Option (BitVec 32) := do
  let den1 := (den >>> divshift).setWidth 32
  let den0 := (den &&& divmask).setWidth 32
  -- Estimate ret as num1 / den1, and then correct it
  let (ret, rest) ← hostDivMod num1 (den1.setWidth 64)
  let t2 := rest * base + num0.setWidth 64
  let t1 := ret * den0.setWidth 64
  let ret := if t1 > t2 then ret - if t1 - t2 > den then 2 else 1 else ret
  return ret.setWidth 32

-- Divides a 128-bit dividend by a 64-bit divisor. The result must fit in 64 bits.
def udivmod128_64 (c1 : Cent) (c2 : BitVec 64) : Option (BitVec 64 × BitVec 64) :=
  -- Check for overflow and divide by 0
  if c1.hi ≥ c2 then
    some (BitVec.allOnes 64, 0)
  else do
    let shift := 63 - (← bsr c2)
    let c2 := c2 <<< shift
    let num2 := c1.hi <<< shift |||
      c1.lo >>> (-shift &&& 63) &&& (-shift.setWidth 64).sshiftRight 63
    let lo := c1.lo <<< shift
    let num1 := (lo >>> divshift).setWidth 32
    let num0 := (lo &&& divmask).setWidth 32
    let q1 ← udiv96_64 num2 num1 c2
    let rem := num2 * base + num1.setWidth 64 - q1.setWidth 64 * c2
    let q0 ← udiv96_64 rem num0 c2
    let modulus := (rem * base + num0.setWidth 64 - q0.setWidth 64 * c2) >>> shift
    return (q1.setWidth 64 <<< divshift ||| q0.setWidth 64, modulus)

-- If c1 / c2 would overflow, break c1 up into two halves: the quotient of the higher one.
def highQuotient (hi c2 : BitVec 64) : Option (BitVec 64) :=
  if hi < c2 then some 0 else (hostDivMod hi c2).map (·.1)

-- What is left of the higher half.
def highRest (q1 hi c2 : BitVec 64) : Option (BitVec 64) :=
  if q1 ≠ 0 then (hostDivMod hi c2).map (·.2) else some hi

-- The unsigned quotient and the remainder; none if the host traps.
def udivmod (c1 c2 : Cent) : Option (Cent × Cent) :=
  if !tst c2 then
    -- Divide by zero
    some (com Zero, Zero)
  else if c1.hi = 0 ∧ c2.hi = 0 then do
    -- Single precision divide
    let (quotient, modulus) ← hostDivMod c1.lo c2.lo
    return ({ lo := quotient }, { lo := modulus })
  else if c1.hi = 0 then
    -- Numerator is smaller than the divisor
    some (Zero, c1)
  else if c2.hi = 0 then do
    let q1 ← highQuotient c1.hi c2.lo
    let hi ← highRest q1 c1.hi c2.lo
    let (q0, rem) ← udivmod128_64 { c1 with hi } c2.lo
    return ({ lo := q0, hi := q1 }, { lo := rem })
  else do
    -- Full cent precision division.
    let shift := 63 - (← bsr c2.hi)
    -- Normalize the divisor so its MSB is 1
    let v1 := (shl c2 shift).hi
    -- To ensure no overflow.
    let u1 := shr1 c1
    let (q1, _) ← udivmod128_64 u1 v1
    -- Undo normalization and division of c1 by 2.
    let quotient := shr (shl { lo := q1 } shift) 63
    -- Make quotient correct or too small by 1
    let quotient := if tst quotient then dec quotient else quotient
    let rem := sub c1 (mul quotient c2)
    -- Check if remainder is larger than the divisor
    return if uge rem c2 then (inc quotient, sub rem c2) else (quotient, rem)

-- The signed quotient and the remainder. Muck about with the signs so we can use the unsigned divide.
def divmod (c1 c2 : Cent) : Option (Cent × Cent) :=
  if c1.hi.slt 0 then
    if c2.hi.slt 0 then do
      let (r, modulus) ← udivmod (neg c1) (neg c2)
      return (r, neg modulus)
    else do
      let (r, modulus) ← udivmod (neg c1) c2
      return (neg r, neg modulus)
  else if c2.hi.slt 0 then do
    let (r, modulus) ← udivmod c1 (neg c2)
    return (neg r, modulus)
  else
    udivmod c1 c2

end division

end Compiler.Common.Int128
