import DmdModel.Lib.ByteMemory

-- Constant expressions of the front end of the compiler, as constant folding looks at them.

namespace Compiler.Constfold

inductive EXP
  | lessThan
  | lessOrEqual
  | greaterThan
  | greaterOrEqual
  | equal
  | notEqual
  deriving DecidableEq

-- The basic types: truth values, integers and characters.
inductive TY
  | Tbool
  | Tint8
  | Tuns8
  | Tint16
  | Tuns16
  | Tint32
  | Tuns32
  | Tint64
  | Tuns64
  | Tchar
  | Twchar
  | Tdchar
  deriving DecidableEq

inductive Mod
  | mutable
  | const
  | immutable
  | shared
  | sharedConst
  | wild
  deriving DecidableEq

-- An enumeration is identified by its symbol.
inductive Ty
  | basic (mod : Mod) (ty : TY)
  | pointer (mod : Mod) (next : Ty)
  | array (mod : Mod) (next : Ty)
  | sarray (mod : Mod) (next : Ty) (dim : BitVec 64)
  | null (mod : Mod)
  | enum (mod : Mod) (sym : Nat) (memtype : Ty)
  deriving DecidableEq

namespace TY

def size : TY → Nat
  | Tbool | Tint8 | Tuns8 | Tchar    => 1
  | Tint16 | Tuns16 | Twchar         => 2
  | Tint32 | Tuns32 | Tdchar         => 4
  | Tint64 | Tuns64                  => 8

def isUnsigned : TY → Bool
  | Tint8 | Tint16 | Tint32 | Tint64 => false
  | _                                => true

def isSomeChar : TY → Bool
  | Tchar | Twchar | Tdchar => true
  | _                       => false

end TY

namespace Ty

def mod : Ty → Mod
  | basic m _ | pointer m _ | array m _ | sarray m _ _ | null m | enum m _ _ => m

def castMod (m : Mod) : Ty → Ty
  | basic _ ty      => basic m ty
  | pointer _ n     => pointer m n
  | array _ n       => array m n
  | sarray _ n d    => sarray m n d
  | null _          => null m
  | enum _ sym t    => enum m sym t

-- The type behind enumerations, which keeps the modifier of the enumeration.
def toBasetype : Ty → Ty
  | enum m _ t => (toBasetype t).castMod m
  | t          => t

def nextOf : Ty → Option Ty
  | pointer _ n | array _ n | sarray _ n _ => some n
  | enum _ _ t                             => nextOf t
  | basic _ _ | null _                     => none

-- Immutable types are so in all their parts.
def immutableOf : Ty → Ty
  | basic _ ty      => basic .immutable ty
  | pointer _ n     => pointer .immutable n.immutableOf
  | array _ n       => array .immutable n.immutableOf
  | sarray _ n d    => sarray .immutable n.immutableOf d
  | null _          => null .immutable
  | enum _ sym t    => enum .immutable sym t

def equivalent (src t : Ty) : Bool :=
  src.immutableOf = t.immutableOf

def isIntegral (t : Ty) : Bool :=
  match t.toBasetype with
  | basic _ _ => true
  | _         => false

def isUnsigned (t : Ty) : Bool :=
  match t.toBasetype with
  | basic _ ty => ty.isUnsigned
  | _          => false

end Ty

-- The value of an integer in the range of its type.
def normalize (t : Ty) (value : BitVec 64) : BitVec 64 :=
  match t.toBasetype with
  | .basic _ .Tbool                          => if value ≠ 0 then 1 else 0
  | .basic _ .Tint8                          => (value.setWidth 8).signExtend 64
  | .basic _ .Tchar | .basic _ .Tuns8        => (value.setWidth 8).setWidth 64
  | .basic _ .Tint16                         => (value.setWidth 16).signExtend 64
  | .basic _ .Twchar | .basic _ .Tuns16      => (value.setWidth 16).setWidth 64
  | .basic _ .Tint32                         => (value.setWidth 32).signExtend 64
  | .basic _ .Tdchar | .basic _ .Tuns32      => (value.setWidth 32).setWidth 64
  | .basic _ .Tint64 | .basic _ .Tuns64      => value
  | .pointer _ _                             => value
  | _                                        => 0

-- A string literal: its code units one after the other in memory.
structure StringExp where
  data        : List UInt8
  length      : Nat
  sz          : Nat
  committed   : Bool := false
  length_data : data.length = length * sz
  length_lt   : length < 2 ^ 64
  sz_mem      : sz ∈ [1, 2, 4, 8]

inductive Expression
  | int64 (type : Ty) (value : BitVec 64)
  | null (type : Ty)
  | string (type : Ty) (es : StringExp)
  | arrayLiteral (type : Ty) (basis : Option Expression) (elements : List (Option Expression))
  -- what is not a constant, with an effect or without
  | other (type : Ty) (sideEffect : Bool)
  | cantExpression
  | error

namespace Expression

def IntegerExp (value : BitVec 64) (type : Ty) : Expression :=
  int64 type (normalize type value)

-- Values are brought in range again, as types of expressions get painted over.
def toInteger : Expression → BitVec 64
  | int64 type value => normalize type value
  | _                => 0

end Expression

namespace StringExp

def peekData (es : StringExp) : List UInt8 :=
  es.data

def getIndex (es : StringExp) (i : Nat) : Nat :=
  ByteMemory.read (fun q => es.data.getD q 0) (i * es.sz) es.sz

-- The values of the code units.
def units (es : StringExp) : List Nat :=
  (List.range es.length).map es.getIndex

theorem length_units {es : StringExp} : es.units.length = es.length := by
  rw [units, List.length_map, List.length_range]

theorem sz_pos {es : StringExp} : 0 < es.sz := by
  have h := es.sz_mem
  simp only [List.mem_cons, List.not_mem_nil, or_false] at h
  omega

end StringExp

end Compiler.Constfold

-- Folding of <, <=, > and >=.

namespace Compiler.Constfold

open Expression

-- There is no result if an assertion fails.
def numCmp {N : Type} [LT N] [LE N] [DecidableLT N] [DecidableLE N] (op : EXP) (n1 n2 : N) : Option Bool :=
  match op with
  | .lessThan       => some (n1 < n2)
  | .lessOrEqual    => some (n1 ≤ n2)
  | .greaterThan    => some (n1 > n2)
  | .greaterOrEqual => some (n1 ≥ n2)
  | _               => none

def specificCmp (op : EXP) (rawCmp : Int) : Option Bool :=
  numCmp op rawCmp 0

def intUnsignedCmp (op : EXP) (n1 n2 : BitVec 64) : Option Bool :=
  numCmp op n1.toNat n2.toNat

def intSignedCmp (op : EXP) (n1 n2 : BitVec 64) : Option Bool :=
  numCmp op n1.toInt n2.toInt

-- The difference of two lengths, which is narrowed from a size to an int.
def lengthDifference (len1 len2 : Nat) : Int :=
  ((BitVec.ofNat 64 len1 - BitVec.ofNat 64 len2).setWidth 32).toInt

-- The first string is compared with itself: `data2` is read from it as well.
def cmpStrings (op : EXP) (es1 es2 : StringExp) : Option Bool :=
  let len := if es2.length < es1.length then es2.length else es1.length
  let data1 := es1.peekData
  let data2 := es1.peekData
  let rawCmp := ByteCompare.memcmp data1 data2 (es1.sz * len)
  let rawCmp := if rawCmp = 0 then lengthDifference es1.length es2.length else rawCmp
  specificCmp op rawCmp

def boolValue (n : Bool) : BitVec 64 :=
  if n then 1 else 0

def Cmp (op : EXP) (type : Ty) (e1 e2 : Expression) : Option Expression :=
  match e1, e2 with
  | .string _ es1, .string _ es2 =>
    if es1.sz ≠ es2.sz then
      none
    else do
      let n ← cmpStrings op es1 es2
      return IntegerExp (boolValue n) type
  | int64 type1 value1, int64 type2 value2 => do
    let n1 := (int64 type1 value1).toInteger
    let n2 := (int64 type2 value2).toInteger
    let n ← if type1.isUnsigned || type2.isUnsigned then intUnsignedCmp op n1 n2 else intSignedCmp op n1 n2
    return IntegerExp (boolValue n) type
  | _, _ => some cantExpression

end Compiler.Constfold
