import DmdModel.Compiler.Constfold.Expression

-- Constant folding of arithmetic.

namespace Compiler.Constfold

-- The floating point types; an enumeration of them counts as the type behind it.
inductive FloatTY
  | Tfloat32
  | Tfloat64
  | Tfloat80
  | Timaginary32
  | Timaginary64
  | Timaginary80
  | Tcomplex32
  | Tcomplex64
  | Tcomplex80
  deriving DecidableEq

inductive NumType
  | integral (t : Ty)
  | floating (ty : FloatTY)
  deriving DecidableEq

namespace NumType

def isReal : NumType → Bool
  | floating .Tfloat32 | floating .Tfloat64 | floating .Tfloat80 => true
  | _                                                            => false

def isImaginary : NumType → Bool
  | floating .Timaginary32 | floating .Timaginary64 | floating .Timaginary80 => true
  | _                                                                        => false

def isComplex : NumType → Bool
  | floating .Tcomplex32 | floating .Tcomplex64 | floating .Tcomplex80 => true
  | _                                                                  => false

def isFloating : NumType → Bool
  | floating _ => true
  | _          => false

def isIntegral : NumType → Bool
  | integral t => t.isIntegral
  | _          => false

def isUnsigned : NumType → Bool
  | integral t => t.isUnsigned
  | _          => false

-- The integral type behind enumerations
def basic : NumType → Option TY
  | integral t =>
    match t.toBasetype with
    | .basic _ ty => some ty
    | _           => none
  | floating _ => none

def normalize : NumType → BitVec 64 → BitVec 64
  | integral t, value => Constfold.normalize t value
  | floating _, _     => 0

end NumType

@[ext]
structure complex_t (K : Type*) where
  re : K
  im : K
  deriving DecidableEq

-- The operations of the host on floating point numbers are the ones of an ordered field.
variable {K : Type*} [Field K] [LinearOrder K]

namespace complex_t

def real (re : K) : complex_t K where
  re := re
  im := 0

instance : Add (complex_t K) where
  add x y := ⟨x.re + y.re, x.im + y.im⟩

instance : Neg (complex_t K) where
  neg x := ⟨-x.re, -x.im⟩

instance : Mul (complex_t K) where
  mul x y := ⟨x.re * y.re - x.im * y.im, x.im * y.re + x.re * y.im⟩

instance : Div (complex_t K) where
  div x y :=
    if |y.re| < |y.im| then
      let r := y.re / y.im
      let den := y.im + r * y.re
      ⟨(x.re * r + x.im) / den, (x.im * r - x.re) / den⟩
    else
      let r := y.im / y.re
      let den := y.re + r * y.im
      ⟨(x.re + r * x.im) / den, (x.im - r * x.re) / den⟩

end complex_t

inductive Constant (K : Type*)
  | int64 (type : NumType) (value : BitVec 64)
  | float64 (type : NumType) (value : K)
  | complex80 (type : NumType) (value : complex_t K)
  deriving DecidableEq

-- What folding results in, unless it is a constant for certain.
inductive UnionExp (K : Type*)
  | exp (e : Constant K)
  | cantExpression
  | error (message : String)
  deriving DecidableEq

namespace Constant

def IntegerExp (value : BitVec 64) (type : NumType) : Constant K :=
  int64 type (type.normalize value)

def RealExp (value : K) (type : NumType) : Constant K :=
  float64 type value

def ComplexExp (value : complex_t K) (type : NumType) : Constant K :=
  complex80 type value

def type : Constant K → NumType
  | int64 type _ | float64 type _ | complex80 type _ => type

-- The sign of a value is the one of its type, for values in range of it.
def toReal : Constant K → K
  | int64 type value =>
    let val := type.normalize value
    if type.basic = some .Tuns64 then (val.toNat : K) else (val.toInt : K)
  | float64 type value => if type.isReal then value else 0
  | complex80 _ value => value.re

def toImaginary : Constant K → K
  | int64 _ _          => 0
  | float64 type value => if type.isReal then 0 else value
  | complex80 _ value  => value.im

def toComplex : Constant K → complex_t K
  | int64 type value   => .real (int64 type value : Constant K).toReal
  | float64 type value => ⟨(float64 type value).toReal, (float64 type value).toImaginary⟩
  | complex80 _ value  => value

-- The conversion of the host is towards zero.
def truncate [FloorRing K] (x : K) : BitVec 64 :=
  BitVec.ofInt 64 (if 0 ≤ x then ⌊x⌋ else ⌈x⌉)

def toInteger [FloorRing K] : Constant K → BitVec 64
  | int64 type value => type.normalize value
  | e                => truncate e.toReal

end Constant

open Constant

variable [FloorRing K]

-- The kind of an operand, as its components are distinguished.
inductive Kind
  | real
  | imaginary
  | complex
  deriving DecidableEq

def Constant.kind (e : Constant K) : Kind :=
  if e.type.isReal then .real else if e.type.isImaginary then .imaginary else .complex

-- The division of the host, which traps on zero and on overflow.
def hostDivMod (n1 n2 : BitVec 64) : Option (BitVec 64 × BitVec 64) :=
  if n2 = 0 ∨ (n1 = BitVec.intMin 64 ∧ n2 = -1) then none else some (n1.sdiv n2, n1.srem n2)

def hostUDivMod (n1 n2 : BitVec 64) : Option (BitVec 64 × BitVec 64) :=
  if n2 = 0 then none else some (n1 / n2, n1 % n2)

-- The shifts of the host are defined for counts below the width of the operand.
def hostShift {w : Nat} (shift : BitVec w → Nat → BitVec w) (x : BitVec w) (count : Nat) : Option (BitVec w) :=
  if count < w then some (shift x count) else none

namespace Fold

def Neg (type : NumType) (e1 : Constant K) : Constant K :=
  if e1.type.isReal then
    RealExp (-e1.toReal) type
  else if e1.type.isImaginary then
    RealExp (-e1.toImaginary) type
  else if e1.type.isComplex then
    ComplexExp (-e1.toComplex) type
  else
    IntegerExp (-e1.toInteger) type

def Com (type : NumType) (e1 : Constant K) : Constant K :=
  IntegerExp (~~~e1.toInteger) type

-- This rigamarole is necessary so that -0.0 doesn't get converted to +0.0 by doing an extraneous add with +0.0.
def addComplex (e1 e2 : Constant K) : complex_t K :=
  let r1 := if e1.kind = .real then e1.toReal else 0
  let i1 := if e1.kind = .imaginary then e1.toImaginary else 0
  let c1 := if e1.kind = .complex then e1.toComplex else .real 0
  let r2 := if e2.kind = .real then e2.toReal else 0
  let i2 := if e2.kind = .imaginary then e2.toImaginary else 0
  let c2 := if e2.kind = .complex then e2.toComplex else .real 0
  match e1.kind, e2.kind with
  | .real,      .real      => .real (r1 + r2)
  | .real,      .imaginary => ⟨r1, i2⟩
  | .real,      .complex   => ⟨r1 + c2.re, c2.im⟩
  | .imaginary, .real      => ⟨r2, i1⟩
  | .imaginary, .imaginary => ⟨0, i1 + i2⟩
  | .imaginary, .complex   => ⟨c2.re, i1 + c2.im⟩
  | .complex,   .real      => ⟨c1.re + r2, c2.im⟩
  | .complex,   .imaginary => ⟨c1.re, c1.im + i2⟩
  | .complex,   .complex   => c1 + c2

def Add (type : NumType) (e1 e2 : Constant K) : Constant K :=
  if type.isReal then
    RealExp (e1.toReal + e2.toReal) type
  else if type.isImaginary then
    RealExp (e1.toImaginary + e2.toImaginary) type
  else if type.isComplex then
    ComplexExp (addComplex e1 e2) type
  else
    IntegerExp (e1.toInteger + e2.toInteger) type

-- Compute e1-e2 as e1+(-e2)
def Min (type : NumType) (e1 e2 : Constant K) : Constant K :=
  Add type e1 (Neg e2.type e2)

-- The part of a result that its floating point type asks for; the type is complex if it is neither of the others.
def component (c : complex_t K) (type : NumType) : Constant K :=
  if type.isReal then
    RealExp c.re type
  else if type.isImaginary then
    RealExp c.im type
  else
    ComplexExp c type

def Mul (type : NumType) (e1 e2 : Constant K) : Constant K :=
  if type.isFloating then
    let c :=
      if e1.type.isReal then
        let r := e1.toReal
        let c := e2.toComplex
        ⟨r * c.re, r * c.im⟩
      else if e1.type.isImaginary then
        let r := e1.toImaginary
        let c := e2.toComplex
        ⟨-r * c.im, r * c.re⟩
      else if e2.type.isReal then
        let r := e2.toReal
        let c := e1.toComplex
        ⟨r * c.re, r * c.im⟩
      else if e2.type.isImaginary then
        let r := e2.toImaginary
        let c := e1.toComplex
        ⟨-r * c.im, r * c.re⟩
      else
        e1.toComplex * e2.toComplex
    component c type
  else
    IntegerExp (e1.toInteger * e2.toInteger) type

section division

-- The errors of a division by zero and of one that overflows
def divisionError (n1 n2 : BitVec 64) (type : NumType) (op : String) : Option String :=
  if n2 = 0 then
    some "divide by 0"
  else if n2 = -1 ∧ !type.isUnsigned then
    -- Check for int.min / -1
    if n1 = 0xFFFFFFFF80000000 ∧ type.basic ≠ some .Tint64 then
      some ("integer overflow: `int.min " ++ op ++ " -1`")
    else if n1 = 0x8000000000000000 then
      some ("integer overflow: `long.min " ++ op ++ " -1L`")
    else
      none
  else
    none

def hostDivModOf (e1 e2 : Constant K) : Option (BitVec 64 × BitVec 64) :=
  if e1.type.isUnsigned ∨ e2.type.isUnsigned then
    hostUDivMod e1.toInteger e2.toInteger
  else
    hostDivMod e1.toInteger e2.toInteger

def divFloating (type : NumType) (e1 e2 : Constant K) : Constant K :=
  if e2.type.isReal then
    if e1.type.isReal then
      RealExp (e1.toReal / e2.toReal) type
    else
      let r := e2.toReal
      let c := e1.toComplex
      component ⟨c.re / r, c.im / r⟩ type
  else if e2.type.isImaginary then
    let r := e2.toImaginary
    let c := e1.toComplex
    component ⟨c.im / r, -c.re / r⟩ type
  else
    component (e1.toComplex / e2.toComplex) type

-- None if the host traps.
def Div (type : NumType) (e1 e2 : Constant K) : Option (UnionExp K) :=
  if type.isFloating then
    some (.exp (divFloating type e1 e2))
  else
    match divisionError e1.toInteger e2.toInteger type "/" with
    | some message => some (.error message)
    | none         => (hostDivModOf e1 e2).map fun n => .exp (IntegerExp n.1 type)

-- The remainder of the host, for a quotient that is rounded towards zero
def hostRem (x y : K) : K :=
  let q := x / y
  x - (if 0 ≤ q then (⌊q⌋ : K) else (⌈q⌉ : K)) * y

def Mod (type : NumType) (e1 e2 : Constant K) : Option (UnionExp K) :=
  if type.isFloating then
    if e2.type.isReal then
      let r2 := e2.toReal
      some (.exp (component ⟨hostRem e1.toReal r2, hostRem e1.toImaginary r2⟩ type))
    else if e2.type.isImaginary then
      let i2 := e2.toImaginary
      some (.exp (component ⟨hostRem e1.toReal i2, hostRem e1.toImaginary i2⟩ type))
    else
      none
  else
    match divisionError e1.toInteger e2.toInteger type "%" with
    | some message => some (.error message)
    | none         => (hostDivModOf e1 e2).map fun n => .exp (IntegerExp n.2 type)

end division

section power

-- Squares `r` for each bit of `n`, and multiplies where the bit is set.
def powLoop (n : BitVec 64) (v r : Constant K) : Constant K :=
  if _h : n = 0 then
    v
  else
    powLoop (n >>> 1) (if n &&& 1 ≠ 0 then Mul v.type v r else v) (Mul r.type r r)
termination_by n.toNat
decreasing_by
  have hpos : n.toNat ≠ 0 := fun hz => _h (BitVec.eq_of_toNat_eq hz)
  rw [BitVec.toNat_ushiftRight, Nat.shiftRight_eq_div_pow]
  omega

-- The constant that a power starts from, and one of its type
def powStart (e1 : Constant K) : Constant K × Constant K :=
  if e1.type.isComplex then
    (ComplexExp e1.toComplex e1.type, ComplexExp (.real 1) e1.type)
  else if e1.type.isFloating then
    (RealExp e1.toReal e1.type, RealExp 1 e1.type)
  else
    (IntegerExp e1.toInteger e1.type, IntegerExp 1 e1.type)

-- The power with an integer as the exponent
def Pow (type : NumType) (e1 e2 : Constant K) : Option (UnionExp K) :=
  let n := e2.toInteger
  let neg := !e2.type.isUnsigned && n.slt 0
  if neg && e1.type.isIntegral then
    some .cantExpression
  else do
    let start := powStart e1
    let v := powLoop (if neg then -n else n) start.2 start.1
    -- ue = 1.0 / v
    let v ← if neg then Div v.type (RealExp 1 v.type) v else some (.exp v)
    match v with
    | .exp v =>
      if type.isComplex then
        return .exp (ComplexExp v.toComplex type)
      else if type.isIntegral then
        return .exp (IntegerExp v.toInteger type)
      else
        return .exp (RealExp v.toReal type)
    | e => return e

end power

section shifts

def Shl (type : NumType) (e1 e2 : Constant K) : Option (Constant K) :=
  (hostShift (· <<< ·) e1.toInteger e2.toInteger.toNat).map (IntegerExp · type)

-- The operands that are narrower than `int` are promoted to it.
def shrValue (ty : TY) (value : BitVec 64) (count : Nat) : Option (BitVec 64) :=
  match ty with
  | .Tint8            => (hostShift .sshiftRight ((value.setWidth 8).signExtend 32) count).map (·.signExtend 64)
  | .Tuns8 | .Tchar   => (hostShift .sshiftRight ((value.setWidth 8).setWidth 32) count).map (·.signExtend 64)
  | .Tint16           => (hostShift .sshiftRight ((value.setWidth 16).signExtend 32) count).map (·.signExtend 64)
  | .Tuns16 | .Twchar => (hostShift .sshiftRight ((value.setWidth 16).setWidth 32) count).map (·.signExtend 64)
  | .Tint32           => (hostShift .sshiftRight (value.setWidth 32) count).map (·.signExtend 64)
  | .Tuns32 | .Tdchar => (hostShift (· >>> ·) (value.setWidth 32) count).map (·.setWidth 64)
  | .Tint64           => hostShift .sshiftRight value count
  | .Tuns64           => hostShift (· >>> ·) value count
  | .Tbool            => none

-- The narrow types are possible only with >>>=. >>> always gets promoted to int.
def ushrValue (ty : TY) (value : BitVec 64) (count : Nat) : Option (BitVec 64) :=
  match ty with
  | .Tint8 | .Tuns8 | .Tchar    => hostShift (· >>> ·) (value &&& 0xFF) count
  | .Tint16 | .Tuns16 | .Twchar => hostShift (· >>> ·) (value &&& 0xFFFF) count
  | .Tint32 | .Tuns32 | .Tdchar => hostShift (· >>> ·) (value &&& 0xFFFFFFFF) count
  | .Tint64 | .Tuns64           => hostShift (· >>> ·) value count
  | .Tbool                      => none

-- A count of more than 32 bits fails an assertion.
def shiftRight (shift : TY → BitVec 64 → Nat → Option (BitVec 64)) (type : NumType) (e1 e2 : Constant K) :
    Option (Constant K) :=
  let dcount := e2.toInteger
  let value := e1.type.basic.bind fun ty =>
    if dcount ≤ 0xFFFFFFFF then shift ty e1.toInteger dcount.toNat else none
  value.map (IntegerExp · type)

def Shr (type : NumType) (e1 e2 : Constant K) : Option (Constant K) :=
  shiftRight shrValue type e1 e2

def Ushr (type : NumType) (e1 e2 : Constant K) : Option (Constant K) :=
  shiftRight ushrValue type e1 e2

end shifts

def And (type : NumType) (e1 e2 : Constant K) : Constant K :=
  IntegerExp (e1.toInteger &&& e2.toInteger) type

def Or (type : NumType) (e1 e2 : Constant K) : Constant K :=
  IntegerExp (e1.toInteger ||| e2.toInteger) type

def Xor (type : NumType) (e1 e2 : Constant K) : Constant K :=
  IntegerExp (e1.toInteger ^^^ e2.toInteger) type

end Fold

end Compiler.Constfold
