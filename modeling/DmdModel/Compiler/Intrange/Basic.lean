import DmdModel.Compiler.Constfold.Expression

-- Ranges of integers that are kept in 65 bits.

namespace Compiler.Intrange

abbrev uinteger_t := BitVec 64

def ofBool (b : Bool) : uinteger_t :=
  if b then 1 else 0

-- return sign ? -x : x;
def copySign (x : uinteger_t) (sign : Bool) : uinteger_t :=
  (x - ofBool sign) ^^^ -ofBool sign

-- The sign is not part of the value, so that the numbers are the ones from -2^64 to 2^64 - 1.
structure SignExtendedNumber where
  value    : uinteger_t
  negative : Bool := false
  deriving DecidableEq, Repr

namespace SignExtendedNumber

def extreme (minimum : Bool) : SignExtendedNumber where
  value    := ofBool minimum - 1
  negative := minimum

def max : SignExtendedNumber where
  value := BitVec.allOnes 64

def min : SignExtendedNumber where
  value    := 0
  negative := true

def isMinimum (x : SignExtendedNumber) : Bool :=
  x.negative && x.value = 0

def opCmp (x a : SignExtendedNumber) : Int :=
  if x.negative ≠ a.negative then
    if x.negative then -1 else 1
  else if x.value < a.value then
    -1
  else if x.value > a.value then
    1
  else
    0

instance : LT SignExtendedNumber where
  lt x a := x.opCmp a < 0

instance {x a : SignExtendedNumber} : Decidable (x < a) := inferInstanceAs (Decidable (_ < _))

-- The number whose value is all ones is taken for minus one.
def com (x : SignExtendedNumber) : SignExtendedNumber :=
  if ~~~x.value = 0 then { value := ~~~x.value } else { value := ~~~x.value, negative := !x.negative }

def neg (x : SignExtendedNumber) : SignExtendedNumber :=
  if x.value = 0 then { value := -ofBool x.negative } else { value := -x.value, negative := !x.negative }

def add (x rhs : SignExtendedNumber) : SignExtendedNumber :=
  let sum := x.value + rhs.value
  let carry := sum < x.value ∧ sum < rhs.value
  if x.negative ≠ rhs.negative then
    { value := sum, negative := !carry }
  else if x.negative then
    { value := if carry then sum else 0, negative := true }
  else
    { value := if carry then BitVec.allOnes 64 else sum }

def sub (x rhs : SignExtendedNumber) : SignExtendedNumber :=
  if rhs.isMinimum then
    if x.negative then { value := x.value } else max
  else
    x.add rhs.neg

-- The product where one of the operands has the value zero
def mulZero (x rhs : SignExtendedNumber) : SignExtendedNumber :=
  if !x.negative then
    x
  else if rhs.negative then
    max
  else if rhs.value = 0 then
    rhs
  else
    x

-- perform* saturated* multiplication, otherwise we may get bogus ranges
--  like 0x10 * 0x10 == 0x100 == 0.
def mul (x rhs : SignExtendedNumber) : SignExtendedNumber :=
  if x.value = 0 then
    x.mulZero rhs
  else if rhs.value = 0 then
    rhs.mulZero x
  else
    -- these are != 0 now surely.
    let tAbs := copySign x.value x.negative
    let aAbs := copySign rhs.value rhs.negative
    let negative := x.negative != rhs.negative
    if BitVec.allOnes 64 / tAbs < aAbs then
      { value := ofBool negative - 1, negative }
    else
      { value := copySign (tAbs * aAbs) negative, negative }

-- The quotient of 2^64 and a power of two that is not 1, by reversing its bits
def reverseBits (aAbs : uinteger_t) : uinteger_t :=
  let halve (rvVal mask : uinteger_t) (n : Nat) := if (aAbs >>> 1) &&& mask ≠ 0 then rvVal >>> n else rvVal
  let rvVal := (1 : uinteger_t) <<< 63
  let rvVal := halve rvVal 0xAAAAAAAAAAAAAAAA 1
  let rvVal := halve rvVal 0xCCCCCCCCCCCCCCCC 2
  let rvVal := halve rvVal 0xF0F0F0F0F0F0F0F0 4
  let rvVal := halve rvVal 0xFF00FF00FF00FF00 8
  let rvVal := halve rvVal 0xFFFF0000FFFF0000 16
  halve rvVal 0xFFFFFFFF00000000 32

def div (x rhs : SignExtendedNumber) : SignExtendedNumber :=
  if rhs.value = 0 then
    if rhs.negative then { value := ofBool (x.value = 0 ∧ x.negative) } else extreme x.negative
  else
    let aAbs := copySign rhs.value rhs.negative
    let signed (rvVal : uinteger_t) : SignExtendedNumber :=
      let rvNeg := x.negative != rhs.negative
      let rvVal := copySign rvVal rvNeg
      { value := rvVal, negative := rvVal ≠ 0 ∧ rvNeg }
    if !x.isMinimum then
      signed (copySign x.value x.negative / aAbs)
    -- if the denominator is not a power of 2, it is same as ulong.max / x.
    else if aAbs &&& (aAbs - 1) ≠ 0 then
      signed (BitVec.allOnes 64 / aAbs)
    else if aAbs = 1 then
      extreme (!rhs.negative)
    else
      signed (reverseBits aAbs)

-- compute base-2 log of 'v' to determine the maximum allowed bits to shift.
def log2 (v : uinteger_t) : uinteger_t :=
  let r := ofBool (v > 0xFFFFFFFF) <<< 5
  let v := v >>> r
  let s := ofBool (v > 0xFFFF) <<< 4
  let v := v >>> s
  let r := r ||| s
  let s := ofBool (v > 0xFF) <<< 3
  let v := v >>> s
  let r := r ||| s
  let s := ofBool (v > 0xF) <<< 2
  let v := v >>> s
  let r := r ||| s
  let s := ofBool (v > 0x3) <<< 1
  let v := v >>> s
  let r := r ||| s
  r ||| v >>> 1

-- assume left-shift the shift-amount is always unsigned. Thus negative
--  shifts will give huge result.
def shl (x rhs : SignExtendedNumber) : SignExtendedNumber :=
  if x.value = 0 then
    x
  else if rhs.negative then
    extreme x.negative
  else
    let allowableShift := 63 - log2 (copySign x.value x.negative)
    if rhs.value > allowableShift then
      extreme x.negative
    else
      { x with value := x.value <<< rhs.value }

def shr (x rhs : SignExtendedNumber) : SignExtendedNumber :=
  if rhs.negative ∨ rhs.value > 63 then
    if x.negative then { value := -1, negative := true } else { value := 0 }
  else if x.isMinimum then
    if rhs.value = 0 then x else { value := (-1 : uinteger_t) <<< (64 - rhs.value), negative := true }
  else
    { x with value := ((x.value ^^^ -ofBool x.negative) >>> rhs.value) ^^^ -ofBool x.negative }

end SignExtendedNumber

open SignExtendedNumber

structure IntRange where
  imin : SignExtendedNumber
  imax : SignExtendedNumber
  deriving DecidableEq, Repr

namespace IntRange

def fromNumbers2 (a b : SignExtendedNumber) : IntRange :=
  if a < b then { imin := a, imax := b } else { imin := b, imax := a }

def fromNumbers4 (a b c d : SignExtendedNumber) : IntRange :=
  let ab := fromNumbers2 a b
  let cd := fromNumbers2 c d
  { imin := if cd.imin < ab.imin then cd.imin else ab.imin
    imax := if ab.imax < cd.imax then cd.imax else ab.imax }

def widest : IntRange where
  imin := SignExtendedNumber.min
  imax := SignExtendedNumber.max

section casts

-- The chunk that a number is in, where the chunks start in the middle of the ones of the unsigned type, and
-- its sign: 1 = neg, 0 = nonneg, -1 = chunk containing ::max
def halfChunk (x : SignExtendedNumber) (mask : uinteger_t) : uinteger_t × Int :=
  let halfChunkMask := mask >>> 1
  let chunk := x.value &&& ~~~halfChunkMask
  let negativity : Int := if x.negative then 1 else 0
  if chunk &&& mask ≠ 0 then
    let chunk := chunk + (halfChunkMask + 1)
    (chunk, if chunk = 0 then negativity - 1 else negativity)
  else
    (chunk, negativity)

def signExtend (x : SignExtendedNumber) (mask : uinteger_t) : SignExtendedNumber :=
  let halfChunkMask := mask >>> 1
  let value := x.value &&& mask
  -- sign extend if necessary.
  { value := (value ^^^ (halfChunkMask + 1)) - (halfChunkMask + 1)
    negative := value &&& ~~~halfChunkMask ≠ 0 }

-- .... 0x1e7f ] [0x1e80 .. 0x1f7f] [0x1f80 .. 0x7f] [0x80 .. 0x17f] [0x180 ....
--
-- regular signed type. We use a technique similar to the unsigned version,
--  but the chunk has to be offset by 1/2 of the range.
def castSigned (r : IntRange) (mask : uinteger_t) : IntRange :=
  if halfChunk r.imin mask = halfChunk r.imax mask then
    { imin := signExtend r.imin mask
      imax := signExtend r.imax mask }
  else
    let halfChunkMask := mask >>> 1
    { imin := { value := ~~~halfChunkMask, negative := true }
      imax := { value := halfChunkMask } }

-- .... 0x1eff ] [0x1f00 .. 0x1fff] [0 .. 0xff] [0x100 .. 0x1ff] [0x200 ....
--
-- regular unsigned type. We just need to see if ir steps across the
--  boundary of validRange. If yes, ir will represent the whole validRange,
--  otherwise, we just take the modulus.
def castUnsigned (r : IntRange) (mask : uinteger_t) : IntRange :=
  let minChunk := r.imin.value &&& ~~~mask
  let maxChunk := r.imax.value &&& ~~~mask
  if minChunk = maxChunk ∧ r.imin.negative = r.imax.negative then
    { imin := { value := r.imin.value &&& mask }
      imax := { value := r.imax.value &&& mask } }
  else
    { imin := { value := 0 }
      imax := { value := mask } }

-- special case for dchar. Casting to dchar means "I'll ignore all
--  invalid characters."
def castDchar (r : IntRange) : IntRange :=
  let r := castUnsigned r 0xFFFFFFFF
  let limit (x : SignExtendedNumber) := if x.value > 0x10FFFF then { x with value := 0x10FFFF } else x
  { imin := limit r.imin
    imax := limit r.imax }

open Constfold (TY)

-- The mask that an integral type will fit into.
def sizemask : TY → uinteger_t
  | .Tbool                      => 1
  | .Tchar | .Tint8 | .Tuns8    => 0xFF
  | .Twchar | .Tint16 | .Tuns16 => 0xFFFF
  | .Tdchar | .Tint32 | .Tuns32 => 0xFFFFFFFF
  | .Tint64 | .Tuns64           => 0xFFFFFFFFFFFFFFFF

def cast (r : IntRange) (type : TY) : IntRange :=
  if !type.isUnsigned then castSigned r (sizemask type)
  else if type = .Tdchar then castDchar r
  else castUnsigned r (sizemask type)

def intRangeFromType (type : TY) (isUnsigned : Bool) : IntRange :=
  let mask := sizemask type
  if type = .Tdchar then
    { imin := { value := 0 }, imax := { value := 0x10FFFF } }
  else if !isUnsigned then
    { imin := { value := ~~~(mask >>> 1), negative := true }, imax := { value := mask >>> 1 } }
  else
    { imin := { value := 0 }, imax := { value := mask } }

end casts

def absNeg (r : IntRange) : IntRange :=
  if r.imax.negative then
    r
  else if !r.imin.negative then
    { imin := r.imax.neg, imax := r.imin.neg }
  else
    { imin := if r.imax.neg < r.imin then r.imax.neg else r.imin, imax := { value := 0 } }

def com (r : IntRange) : IntRange where
  imin := r.imax.com
  imax := r.imin.com

def neg (r : IntRange) : IntRange where
  imin := r.imax.neg
  imax := r.imin.neg

section arithmetic

def add (r rhs : IntRange) : IntRange where
  imin := r.imin.add rhs.imin
  imax := r.imax.add rhs.imax

def sub (r rhs : IntRange) : IntRange where
  imin := r.imin.sub rhs.imax
  imax := r.imax.sub rhs.imin

-- [a,b] * [c,d] = [min (ac, ad, bc, bd), max (ac, ad, bc, bd)]
def mul (r rhs : IntRange) : IntRange :=
  fromNumbers4 (r.imin.mul rhs.imin) (r.imin.mul rhs.imax) (r.imax.mul rhs.imin) (r.imax.mul rhs.imax)

-- Don't treat the whole range as divide by 0 if only one end of a range is 0.
def trimZero (rhs : IntRange) : IntRange :=
  if rhs.imax.value = 0 then
    { rhs with imax := { rhs.imax with value := rhs.imax.value - 1 } }
  else if rhs.imin.value = 0 then
    { rhs with imin := { rhs.imin with value := rhs.imin.value + 1 } }
  else
    rhs

def div (r rhs : IntRange) : IntRange :=
  -- Handle divide by 0
  if rhs.imax.value = 0 ∧ rhs.imin.value = 0 then
    widest
  else
    let rhs := trimZero rhs
    if !r.imin.negative ∧ !r.imax.negative ∧ !rhs.imin.negative ∧ !rhs.imax.negative then
      { imin := r.imin.div rhs.imax, imax := r.imax.div rhs.imin }
    else if rhs.imin.negative ∧ !rhs.imax.negative then
      -- divisor spans [-1, 0, 1]
      fromNumbers4 r.imin.neg r.imin r.imax.neg r.imax
    else
      -- [a,b] / [c,d] = [min (a/c, a/d, b/c, b/d), max (a/c, a/d, b/c, b/d)]
      fromNumbers4 (r.imin.div rhs.imin) (r.imin.div rhs.imax) (r.imax.div rhs.imin) (r.imax.div rhs.imax)

-- due to the rules of D (C)'s % operator, we need to consider the cases
-- separately in different range of signs.
--
--     case 1. [500, 1700] % [7, 23] (numerator is always positive)
--         = [0, 22]
--     case 2. [-500, 1700] % [7, 23] (numerator can be negative)
--         = [-22, 22]
--     case 3. [-1700, -500] % [7, 23] (numerator is always negative)
--         = [-22, 0]
--
-- the number 22 is the maximum absolute value in the denomator's range. We
-- don't care about divide by zero.
def mod (r rhs : IntRange) : IntRange :=
  let imin := (absNeg rhs).imin.add { value := 1 }
  let imax := imin.neg
  { imin :=
      if !r.imin.negative then { r.imin with value := 0 }
      else if r.imin < imin then imin
      else r.imin
    imax :=
      if r.imax.negative then { value := 0 }
      else if imax < r.imax then imax
      else r.imax }

-- The counts of a shift, which are not known if they may be negative.
def counts (rhs : IntRange) : IntRange :=
  if rhs.imin.negative then { imin := { value := 0 }, imax := { value := 64 } } else rhs

def shl (r rhs : IntRange) : IntRange :=
  let rhs := counts rhs
  { imin := r.imin.shl (if r.imin.negative then rhs.imax else rhs.imin)
    imax := r.imax.shl (if r.imax.negative then rhs.imin else rhs.imax) }

def shr (r rhs : IntRange) : IntRange :=
  let rhs := counts rhs
  { imin := r.imin.shr (if r.imin.negative then rhs.imin else rhs.imax)
    imax := r.imax.shr (if r.imax.negative then rhs.imax else rhs.imin) }

def ushr (r rhs : IntRange) : IntRange :=
  let rhs := counts rhs
  { imin := r.imin.shr rhs.imax
    imax := r.imax.shr rhs.imin }

end arithmetic

section bitwise

-- The bits of `maxOr` from bit `d - 1` downwards
@[grind =]
def maxOrLoop (lhs rhs : uinteger_t) : (d : Nat) → (lmin rmin x : uinteger_t) → uinteger_t
  | 0, _, _, x => x
  | k + 1, lmin, rmin, x =>
    let d := (1 : uinteger_t) <<< k
    if (lhs ^^^ rhs) &&& d ≠ 0 then
      let x := x ||| d
      if lhs &&& d ≠ 0 then
        maxOrLoop lhs rhs k (if ~~~lmin &&& d ≠ 0 then 0 else lmin) rmin x
      else
        maxOrLoop lhs rhs k lmin (if ~~~rmin &&& d ≠ 0 then 0 else rmin) x
    else if lmin &&& rmin &&& d ≠ 0 then
      maxOrLoop lhs rhs k lmin rmin (x ||| d)
    else if (lhs &&& rhs) &&& d ≠ 0 then
      x ||| ((d <<< 1) - 1)
    else
      maxOrLoop lhs rhs k lmin rmin x

def maxOr (lhs rhs : IntRange) : SignExtendedNumber :=
  let loop (lmin rmin : uinteger_t) := maxOrLoop lhs.imax.value rhs.imax.value 64 lmin rmin 0
  -- Sign bit not part of the .value so we need an extra iteration
  if lhs.imax.negative ≠ rhs.imax.negative then
    if lhs.imax.negative then
      let lmin := if !lhs.imin.negative then 0 else lhs.imin.value
      let rmin := if !rhs.imin.negative then 0 else rhs.imin.value
      { value := loop lmin rmin, negative := true }
    else
      { value := loop lhs.imin.value rhs.imin.value, negative := true }
  else if lhs.imin.negative ∧ rhs.imin.negative then
    { value := loop lhs.imin.value rhs.imin.value, negative := true }
  else if lhs.imax.negative ∧ rhs.imax.negative then
    { value := -1 }
  else
    { value := loop lhs.imin.value rhs.imin.value }

-- The bits of `maxAnd` from bit `d - 1` downwards
@[grind =]
def maxAndLoop : (d : Nat) → (lmin lmax rmin rmax x : uinteger_t) → uinteger_t
  | 0, _, _, _, _, x => x
  | k + 1, lmin, lmax, rmin, rmax, x =>
    let d := (1 : uinteger_t) <<< k
    if lmax &&& rmax &&& d ≠ 0 then
      maxAndLoop k (if ~~~lmin &&& d ≠ 0 then 0 else lmin) lmax (if ~~~rmin &&& d ≠ 0 then 0 else rmin) rmax (x ||| d)
    else if ~~~lmin &&& d ≠ 0 ∧ lmax &&& d ≠ 0 then
      maxAndLoop k lmin (lmax ||| (d - 1)) rmin rmax x
    else if ~~~rmin &&& d ≠ 0 ∧ rmax &&& d ≠ 0 then
      maxAndLoop k lmin lmax rmin (rmax ||| (d - 1)) x
    else
      maxAndLoop k lmin lmax rmin rmax x

def maxAnd (lhs rhs : IntRange) : SignExtendedNumber where
  value    := maxAndLoop 64 lhs.imin.value lhs.imax.value rhs.imin.value rhs.imax.value 0
  negative := lhs.imax.negative && rhs.imax.negative

def minOr (lhs rhs : IntRange) : SignExtendedNumber :=
  (maxAnd lhs.com rhs.com).com

def minAnd (lhs rhs : IntRange) : SignExtendedNumber :=
  (maxOr lhs.com rhs.com).com

-- The range has numbers of both signs.
def mixed (r : IntRange) : Bool :=
  r.imin.negative ^^ r.imax.negative

-- The part of a range below zero, and the other one
def below (r : IntRange) : IntRange where
  imin := r.imin
  imax := { value := -1 }

def above (r : IntRange) : IntRange where
  imin := { value := 0 }
  imax := r.imax

-- Both parts of a range, with the smaller one of two minima and the larger one of two maxima
def combine (minimum maximum : IntRange → IntRange → SignExtendedNumber) (l r : IntRange) : IntRange :=
  let minNeg := minimum l r.below
  let minPos := minimum l r.above
  let maxNeg := maximum l r.below
  let maxPos := maximum l r.above
  { imin := if minNeg < minPos then minNeg else minPos
    imax := if maxPos < maxNeg then maxNeg else maxPos }

def and (r rhs : IntRange) : IntRange :=
  -- unsigned or identical sign bits
  if !r.mixed ∧ !rhs.mixed then
    { imin := minAnd r rhs, imax := maxAnd r rhs }
  -- both intervals span [-1,0]
  else if r.mixed ∧ rhs.mixed then
    -- cannot be larger than either l.max or r.max, set the other one to -1
    -- only negative numbers for minimum
    { imin := minAnd { r with imax := { value := -1, negative := true } }
        { rhs with imax := { value := -1, negative := true } }
      imax := if r.imax.value > rhs.imax.value then r.imax else rhs.imax }
  -- only one interval spans [-1,0]
  else if r.mixed then
    combine minAnd maxAnd rhs r
  else
    combine minAnd maxAnd r rhs

def or (r rhs : IntRange) : IntRange :=
  -- unsigned or identical sign bits:
  if !r.mixed ∧ !rhs.mixed then
    { imin := minOr r rhs, imax := maxOr r rhs }
  -- both intervals span [-1,0]
  else if r.mixed ∧ rhs.mixed then
    -- cannot be smaller than either l.min or r.min, set the other one to 0
    { imin := if r.imin.value < rhs.imin.value then r.imin else rhs.imin
      imax := maxOr { r with imin := { value := 0 } } { rhs with imin := { value := 0 } } }
  -- only one interval spans [-1,0]
  else if r.mixed then
    combine minOr maxOr rhs r
  else
    combine minOr maxOr r rhs

def xor (r rhs : IntRange) : IntRange :=
  or (and r rhs.com) (and r.com rhs)

end bitwise

end IntRange

end Compiler.Intrange
