import Mathlib

-- Integer arithmetic that says whether the exact result does not fit. The bodies are the ones without inline assembly.

namespace Runtime.Checkedint

abbrev int   := BitVec 32
abbrev uint  := BitVec 32
abbrev long  := BitVec 64
abbrev ulong := BitVec 64

-- What stops a function before it returns
inductive Failure
  | assertion
  | division
  deriving DecidableEq, Repr

-- The result and the flag
abbrev Checked (w : Nat) := Except Failure (BitVec w × Bool)

-- if (o) overflow = true;
def raise (o overflow : Bool) : Bool :=
  if o then true else overflow

-- x / y for signed numbers
def quotient (x y : long) : Except Failure long :=
  if y = 0 ∨ (x = BitVec.intMin 64 ∧ y = -1) then throw .division else return x.sdiv y

-- x / y for unsigned numbers
def uquotient (x y : ulong) : Except Failure ulong :=
  if y = 0 then throw .division else return x / y

section signed

-- r < int.min || r > int.max
def outside (r : long) : Bool :=
  r.slt ((BitVec.intMin 32).signExtend 64) || ((BitVec.intMax 32).signExtend 64).slt r

def addsInt (x y : int) (overflow : Bool) : Checked 32 := do
  let r : long := x.signExtend 64 + y.signExtend 64
  return (r.setWidth 32, raise (outside r) overflow)

def addsLong (x y : long) (overflow : Bool) : Checked 64 := do
  let r := x + y
  let o := (x.slt 0 && y.slt 0 && !r.slt 0) || (!x.slt 0 && !y.slt 0 && r.slt 0)
  return (r, raise o overflow)

def subsInt (x y : int) (overflow : Bool) : Checked 32 := do
  let r : long := x.signExtend 64 - y.signExtend 64
  return (r.setWidth 32, raise (outside r) overflow)

def subsLong (x y : long) (overflow : Bool) : Checked 64 := do
  let r := x - y
  let o := (x.slt 0 && !y.slt 0 && !r.slt 0) || (!x.slt 0 && y.slt 0 && (r.slt 0 || y = BitVec.intMin 64))
  return (r, raise o overflow)

-- The body for both types
def negs {w : Nat} (x : BitVec w) (overflow : Bool) : Checked w := do
  return (-x, raise (x = BitVec.intMin w) overflow)

def negsInt (x : int) (overflow : Bool) : Checked 32 :=
  negs x overflow

def negsLong (x : long) (overflow : Bool) : Checked 64 :=
  negs x overflow

def mulsInt (x y : int) (overflow : Bool) : Checked 32 := do
  let r : long := x.signExtend 64 * y.signExtend 64
  return (r.setWidth 32, raise (outside r) overflow)

def mulsLong (x y : long) (overflow : Bool) : Checked 64 := do
  let r := x * y
  let not0or1 : long := ~~~1
  let o ←
    if x &&& not0or1 = 0 then pure false
    else if r = y then pure (decide (r ≠ 0))
    else if r = 0x8000000000000000 ∧ x = -1 then pure true
    else do
      let q ← quotient r x
      pure (decide (q ≠ y))
  return (r, raise o overflow)

end signed

section unsigned

-- The body for both types
def addu {w : Nat} (x y : BitVec w) (overflow : Bool) : Checked w := do
  let r := x + y
  let o : Bool := r < x
  if o ≠ decide (r < y) then throw .assertion
  return (r, raise o overflow)

def adduUint (x y : uint) (overflow : Bool) : Checked 32 :=
  addu x y overflow

def adduUlong (x y : ulong) (overflow : Bool) : Checked 64 :=
  addu x y overflow

-- The body for both types
def subu {w : Nat} (x y : BitVec w) (overflow : Bool) : Checked w := do
  return (x - y, raise (x < y) overflow)

def subuUint (x y : uint) (overflow : Bool) : Checked 32 :=
  subu x y overflow

def subuUlong (x y : ulong) (overflow : Bool) : Checked 64 :=
  subu x y overflow

def muluUint (x y : uint) (overflow : Bool) : Checked 32 := do
  let r : ulong := x.setWidth 64 * y.setWidth 64
  return (r.setWidth 32, raise (r >>> 32 ≠ 0) overflow)

def muluUlong (x y : ulong) (overflow : Bool) : Checked 64 := do
  let r := x * y
  let o ←
    if (x ||| y) >>> 32 = 0 then pure false
    else if x = 0 then pure false
    else do
      let q ← uquotient r x
      pure (decide (q ≠ y))
  return (r, raise o overflow)

def muluGeneric (x : ulong) (y : uint) (overflow : Bool) : Checked 64 := do
  let r := x * y.setWidth 64
  let o ←
    if x >>> 32 = 0 then pure false
    else do
      let q ← uquotient r x
      pure (decide (q ≠ y.setWidth 64))
  return (r, raise o overflow)

def muluUlongUint (x : ulong) (y : uint) (overflow : Bool) : Checked 64 :=
  muluGeneric x y overflow

end unsigned

end Runtime.Checkedint
