import Mathlib

namespace Compiler.Backend.DivCoeff

-- Unsigned 128 bit math: a number is a pair of its high and its low half.
def SIGN64 (x : UInt64) : Bool :=
  x.toInt64 < 0

def SHL128 (xh xl : UInt64) : UInt64 × UInt64 :=
  ((xh <<< 1) ||| (SIGN64 xl).toUInt64, xl <<< 1)

def SHR128 (xh xl : UInt64) : UInt64 × UInt64 :=
  (xh >>> 1, (xl >>> 1) ||| ((xh &&& 1) <<< 63))

def XltY128 (xh xl yh yl : UInt64) : Bool :=
  xh < yh || (xh == yh && xl < yl)

-- Left justify y. The result has the number of shifts. `fuel` bounds it.
def leftJustify : (fuel : Nat) → (yh yl : UInt64) → (shiftcount : Nat) → Option (UInt64 × UInt64 × Nat)
  | 0, _, _, _ => none
  | fuel + 1, yh, yl, shiftcount =>
    if SIGN64 yh then
      some (yh, yl, shiftcount)
    else
      let (yh, yl) := SHL128 yh yl
      leftJustify fuel yh yl (shiftcount + 1)

-- x -= y
def sub128 (xh xl yh yl : UInt64) : UInt64 × UInt64 :=
  if xl < yl then (xh - (yh + 1), xl - yl) else (xh - yh, xl - yl)

def shiftSubtract : (shiftcount : Nat) → (xh xl yh yl qh ql : UInt64) → UInt64 × UInt64
  | 0, _, _, _, _, qh, ql => (qh, ql)
  | shiftcount + 1, xh, xl, yh, yl, qh, ql =>
    let (qh, ql) := SHL128 qh ql
    let (xh, xl, ql) :=
      if XltY128 yh yl xh xl then
        let (xh, xl) := sub128 xh xl yh yl
        (xh, xl, ql ||| 1)
      else
        (xh, xl, ql)
    let (yh, yl) := SHR128 yh yl
    shiftSubtract shiftcount xh xl yh yl qh ql

-- The quotient; none if an assertion fails.
def u128Div (xh xl yh yl : UInt64) : Option (UInt64 × UInt64) := do
  guard (yh ≠ 0 ∨ yl ≠ 0)
  let (yh, yl, shiftcount) := if yh = 0 then (yl, 0, 1 + 64) else (yh, yl, 1)
  let (yh, yl, shiftcount) ← leftJustify 64 yh yl shiftcount
  return shiftSubtract shiftcount xh xl yh yl 0 0

-- A factor, its post shift, and whether the factor has one more bit, 2 ^ N.
structure Multiplier where
  m        : UInt64
  shpost   : Nat
  mhighbit : Bool
  deriving DecidableEq, Repr

-- The number of significant bits in d. `fuel` bounds it.
def significantBits : (fuel : Nat) → (d1 : UInt64) → Nat
  | 0, _         => 0
  | fuel + 1, d1 => if d1 = 0 then 0 else significantBits fuel (d1 >>> 1) + 1

-- The loop of choose_multiplier for N == 32: the post shift and mhigh.
def reduce64 : (shpost : Nat) → (mlow mhigh : UInt64) → Nat × UInt64
  | 0, _, mhigh             => (0, mhigh)
  | shpost + 1, mlow, mhigh =>
    if mlow / 2 < mhigh / 2 then reduce64 shpost (mlow / 2) (mhigh / 2) else (shpost + 1, mhigh)

-- The same for N == 64, with 128 bit unsigned arithmetic.
def reduce128 : (shpost : Nat) → (mlowh mlowl mhighh mhighl : UInt64) → Nat × UInt64 × UInt64
  | 0, _, _, mhighh, mhighl                  => (0, mhighh, mhighl)
  | shpost + 1, mlowh, mlowl, mhighh, mhighl =>
    let (mlowbh, mlowbl) := SHR128 mlowh mlowl
    let (mhighbh, mhighbl) := SHR128 mhighh mhighl
    if XltY128 mlowbh mlowbl mhighbh mhighbl then
      reduce128 shpost mlowbh mlowbl mhighbh mhighbl
    else
      (shpost + 1, mhighh, mhighl)

-- The multiplier for N == 32 and a divisor of `b` bits. The count of a shift of a 64 bit word is taken
-- modulo 64.
def multiplier32 (d : UInt64) (prec b : Nat) : Multiplier :=
  let mlow := (1 <<< (32 + b).toUInt64) / d
  let mhigh := ((1 <<< (32 + b).toUInt64) + (1 <<< (32 + b - prec).toUInt64)) / d
  let (shpost, mhigh) := reduce64 b mlow mhigh
  ⟨mhigh &&& 0xFFFFFFFF, shpost, mhigh >>> 32 ≠ 0⟩

-- 2**(N + b) + 2**(N + b - prec) for N == 64
def high128 (prec b : Nat) : UInt64 × UInt64 :=
  let e := 64 + b - prec
  if e < 64 then
    (1 <<< b.toUInt64, 1 <<< e.toUInt64)
  else
    ((1 <<< b.toUInt64) ||| (1 <<< (e - 64).toUInt64), 0)

def multiplier64 (d : UInt64) (prec b : Nat) : Option Multiplier := do
  let (mlowh, mlowl) ← u128Div (1 <<< b.toUInt64) 0 0 d
  let (mhighh, mhighl) ← u128Div (high128 prec b).1 (high128 prec b).2 0 d
  let (shpost, mhighh, mhighl) := reduce128 b mlowh mlowl mhighh mhighl
  return ⟨mhighl, shpost, mhighh &&& 1 ≠ 0⟩

-- Selection of multiplier and shift count; none if an assertion fails.
def choose_multiplier (N : Nat) (d : UInt64) (prec : Nat) : Option Multiplier :=
  if (N = 32 ∨ N = 64) ∧ prec ≤ N ∧ d > 1 ∧ d &&& (d - 1) ≠ 0 then
    let b := significantBits 64 d
    if N = 32 then some (multiplier32 d prec b) else multiplier64 d prec b
  else
    none

-- The number of zeros at the end of d, and d without them.
def removeZeros : (fuel e : Nat) → (d : UInt64) → Option (Nat × UInt64)
  | 0, _, _        => none
  | fuel + 1, e, d => if d &&& 1 = 0 then removeZeros fuel (e + 1) (d >>> 1) else some (e, d)

-- The pre-shift, and the multiplier.
def udiv_coefficients (N : Nat) (d : UInt64) : Option (Nat × Multiplier) := do
  let c ← choose_multiplier N d N
  if c.mhighbit ∧ d &&& 1 = 0 then
    let (e, d) ← removeZeros 64 0 d
    let c ← choose_multiplier N d (N - e)
    guard (c.mhighbit = false)
    return (e, c)
  else
    return (0, c)

-- The instructions that divide by a constant, on words of N bits.
def MULUH (N m n : Nat) : Nat :=
  m * n / 2 ^ N

def SRL (N x count : Nat) : Nat :=
  x >>> (count % N)

def add (N x y : Nat) : Nat :=
  (x + y) % 2 ^ N

def sub (N x y : Nat) : Nat :=
  (x + (2 ^ N - y)) % 2 ^ N

-- The algorithm of `udiv_coefficients` for its result.
def quotient (N : Nat) (coefficients : Nat × Multiplier) (n : Nat) : Nat :=
  let (shpre, c) := coefficients
  if c.mhighbit then
    let t1 := MULUH N c.m.toNat n
    SRL N (add N t1 (SRL N (sub N n t1) 1)) (c.shpost - 1)
  else
    SRL N (MULUH N c.m.toNat (SRL N n shpre)) c.shpost

example : udiv_coefficients 32 14 = some (1, ⟨0x92492493, 2, false⟩) := by decide
example : udiv_coefficients 64 7 = some (0, ⟨0x2492492492492493, 3, true⟩) := by decide +kernel

end Compiler.Backend.DivCoeff

-- The code for the division of a signed word by a constant.

namespace Compiler.Backend.Cddiv

open DivCoeff

-- The registers of the code. R1 has the dividend.
inductive Reg
  | AX
  | DX
  | R1
  deriving DecidableEq, Repr

inductive Instr
  | movregconst (r : Reg) (value : UInt64)
  | imul (r : Reg)
  | add (r s : Reg)
  | mov (r s : Reg)
  | sar (r : Reg) (count : Nat)
  | sub (r s : Reg)
  | imulConst (r s : Reg) (value : UInt64)
  | imulReg (r s : Reg)
  | neg (r : Reg)
  deriving DecidableEq, Repr

variable {N : Nat}

abbrev Regs (N : Nat) := Reg → BitVec N

def Regs.set (regs : Regs N) (r : Reg) (x : BitVec N) : Regs N :=
  Function.update regs r x

def word (N : Nat) (value : UInt64) : BitVec N :=
  value.toBitVec.setWidth N

-- The instructions on words of N bits. The count of a shift is taken modulo N.
def Instr.exec (regs : Regs N) : Instr → Regs N
  | movregconst r value => regs.set r (word N value)
  | imul r              =>
    let product := (regs .AX).toInt * (regs r).toInt
    (regs.set .AX (BitVec.ofInt N product)).set .DX (BitVec.ofInt N (product / 2 ^ N))
  | add r s             => regs.set r (regs r + regs s)
  | mov r s             => regs.set r (regs s)
  | sar r count         => regs.set r ((regs r).sshiftRight (count % N))
  | sub r s             => regs.set r (regs r - regs s)
  | imulConst r s value => regs.set r (regs s * word N value)
  | imulReg r s         => regs.set r (regs r * regs s)
  | neg r               => regs.set r (- regs r)

def run (code : List Instr) (regs : Regs N) : Regs N :=
  code.foldl Instr.exec regs

inductive Oper
  | OPdiv
  | OPmod
  | OPremquo
  deriving DecidableEq, Repr

-- The code of a division, and the registers with its results.
structure Code where
  instrs : List Instr
  res    : List Reg
  deriving DecidableEq, Repr

def el_tolong (e2 : BitVec N) : UInt64 :=
  ⟨e2.signExtend 64⟩

-- A value of 64 bits that is the sign extension of its low 32 ones.
def isLong (d : UInt64) : Bool :=
  (d.toBitVec.setWidth 32).signExtend 64 = d.toBitVec

-- The product of the quotient and the divisor, in AX.
def product (N : Nat) (d : UInt64) : List Instr :=
  if N = 32 ∨ (N = 64 ∧ isLong d) then
    [.imulConst .AX .DX d]
  else
    [.movregconst .AX d, .imulReg .AX .DX]

-- The high half of the product with the multiplier in DX, shifted, and the sign of the dividend in AX.
def start (N : Nat) (c : Multiplier) : List Instr :=
  let mgt := c.mhighbit ∨ c.m ≥ 1 <<< (N - 1).toUInt64
  [.movregconst .AX c.m, .imul .R1] ++ (if mgt then [.add .DX .R1] else []) ++ [.mov .AX .R1, .sar .AX (N - 1)] ++
    (if c.shpost ≠ 0 then [.sar .DX c.shpost] else [])

-- The instructions, for the divisor without its sign.
def emit (N : Nat) (neg : Bool) (d : UInt64) (c : Multiplier) : Oper → Code
  | .OPdiv    => if neg then ⟨start N c ++ [.sub .AX .DX], [.AX]⟩ else ⟨start N c ++ [.sub .DX .AX], [.DX]⟩
  | .OPmod    => ⟨start N c ++ [.sub .DX .AX] ++ product N d ++ [.sub .R1 .AX], [.R1]⟩
  | .OPremquo =>
    ⟨start N c ++ [.sub .DX .AX] ++ product N d ++ [.sub .R1 .AX, .mov .AX .DX] ++
      (if neg then [.neg .AX] else []) ++ [.mov .DX .R1], [.AX, .DX]⟩

-- The code for a divisor with more than one bit; none if an assertion fails, and for other divisors, for
-- which the code is another one.
def cddiv (N : Nat) (oper : Oper) (e2 : BitVec N) : Option Code := do
  let e2factor := el_tolong e2
  let neg := e2factor.toInt64 < 0
  let d := if neg then -e2factor else e2factor
  guard (d &&& (d - 1) ≠ 0)
  let c ← choose_multiplier N d (N - 1)
  return emit N neg d c oper

end Compiler.Backend.Cddiv
