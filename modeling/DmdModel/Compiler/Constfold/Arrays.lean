import DmdModel.Compiler.Constfold.Expression
import DmdModel.Compiler.Root.Utf

-- Folding of the comparison, the indexing, the slicing and the concatenation of arrays.

namespace Compiler.Constfold

open Expression Compiler.Root.Utf

namespace Ty

-- The sizes on a 64-bit target.
def size : Ty → Nat
  | basic _ ty     => ty.size
  | pointer _ _    => 8
  | array _ _      => 16
  | sarray _ n dim => dim.toNat * n.size
  | null _         => 8
  | enum _ _ t     => t.size

def sarrayOf (t : Ty) (dim : Nat) : Ty :=
  sarray t.mod t (BitVec.ofNat 64 dim)

def isSomeChar : Ty → Bool
  | basic _ ty => ty.isSomeChar
  | _          => false

-- Whether the kinds of the types are the same.
def sameTy : Ty → Ty → Bool
  | basic _ ty, basic _ ty'    => ty = ty'
  | pointer _ _, pointer _ _   => true
  | array _ _, array _ _       => true
  | sarray _ _ _, sarray _ _ _ => true
  | null _, null _             => true
  | enum _ _ _, enum _ _ _     => true
  | _, _                       => false

def isArray : Ty → Bool
  | array _ _ => true
  | _         => false

def isSarray : Ty → Bool
  | sarray _ _ _ => true
  | _            => false

def isPointer : Ty → Bool
  | pointer _ _ => true
  | _           => false

end Ty

namespace Expression

def type : Expression → Option Ty
  | int64 type _ | null type | string type _ | arrayLiteral type _ _ | other type _ => some type
  | cantExpression | error                                                          => none

def isConst : Expression → Nat
  | int64 _ _ => 1
  | _         => 0

mutual

def hasSideEffect : Expression → Bool
  | arrayLiteral _ basis elements => optSideEffect basis || anySideEffect elements
  | other _ sideEffect            => sideEffect
  | _                             => false

def optSideEffect : Option Expression → Bool
  | none   => false
  | some e => hasSideEffect e

def anySideEffect : List (Option Expression) → Bool
  | []      => false
  | e :: es => optSideEffect e || anySideEffect es

end

-- What is painted over with another type.
def setType (type : Ty) : Expression → Expression
  | int64 _ value                   => int64 type value
  | null _                          => null type
  | string _ es                     => string type es
  | arrayLiteral _ basis elements   => arrayLiteral type basis elements
  | other _ sideEffect              => other type sideEffect
  | e                               => e

end Expression

-- An element of an array literal. There is none if the index is out of bounds.
def opIndex (basis : Option Expression) (elements : List (Option Expression)) (i : Nat) : Option (Option Expression) :=
  elements[i]?.map fun el => el.or basis

-- A string in memory that has been allocated. There is no result if there is not enough memory.
def StringExp.create (data : List UInt8) (length sz : Nat) (committed : Bool) : Option StringExp :=
  if h : data.length = length * sz ∧ length < 2 ^ 64 ∧ sz ∈ [1, 2, 4, 8] then
    some
      { data        := data
        length      := length
        sz          := sz
        committed   := committed
        length_data := h.1
        length_lt   := h.2.1
        sz_mem      := h.2.2 }
  else
    none

-- The code units from i on are compared with the elements. There is no result if an expression that is missing is used,
-- and none inside if the comparison cannot be folded.
def equalUnits (es1 : StringExp) (basis2 : Option Expression) : Nat → List (Option Expression) → Option (Option Bool)
  | _, []        => some (some true)
  | i, el2 :: els2 => do
    let ee2 ← el2.or basis2
    if ee2.isConst ≠ 1 then
      return none
    else if BitVec.ofNat 64 (es1.getIndex i) = ee2.toInteger then
      equalUnits es1 basis2 (i + 1) els2
    else
      return some false

def equalStringArray (es1 : StringExp) (basis2 : Option Expression) (elements2 : List (Option Expression)) :
    Option (Option Bool) :=
  if es1.length ≠ elements2.length then some (some false) else equalUnits es1 basis2 0 elements2

mutual

-- Whether the values are equal. `errors` is whether an error has been reported.
def equalValues (errors : Bool) : Expression → Expression → Option (Option Bool)
  | null _, null _                       => some (some true)
  | null _, string _ es2                 => some (some (0 = es2.length))
  | null _, arrayLiteral _ _ elements2   => some (some (0 = elements2.length))
  | string _ es1, null _                 => some (some (0 = es1.length))
  | arrayLiteral _ _ elements1, null _   => some (some (0 = elements1.length))
  | string _ es1, string _ es2           =>
    if es1.sz ≠ es2.sz then
      if errors then some none else none
    else
      some (some (es1.length = es2.length ∧ ByteCompare.memcmp es1.peekData es2.peekData (es1.sz * es1.length) = 0))
  | arrayLiteral _ basis1 elements1, arrayLiteral _ basis2 elements2 =>
    if elements1.length = elements2.length then
      equalElements errors elements1 (equalBasis errors basis1) basis2 elements2
    else
      some (some false)
  | arrayLiteral _ basis1 elements1, string _ es2 => equalStringArray es2 basis1 elements1
  | string _ es1, arrayLiteral _ basis2 elements2 => equalStringArray es1 basis2 elements2
  | int64 type1 value1, int64 type2 value2        =>
    if type1.isIntegral || type1.toBasetype.isPointer then
      some (some ((int64 type1 value1).toInteger = (int64 type2 value2).toInteger))
    else
      some none
  | _, _ => some none

def equalBasis (errors : Bool) : Option Expression → Expression → Option (Option Bool)
  | none, _        => none
  | some ee1, ee2 => equalValues errors ee1 ee2

-- The elements are compared one after the other. The missing ones of the first array are compared by `basis1`.
@[grind =]
def equalElements (errors : Bool) : List (Option Expression) → (basis1 : Expression → Option (Option Bool)) →
    (basis2 : Option Expression) → List (Option Expression) → Option (Option Bool)
  | el1 :: els1, basis1, basis2, el2 :: els2 => do
    let ee2 ← el2.or basis2
    let cmp ← match el1 with
      | none     => basis1 ee2
      | some ee1 => equalValues errors ee1 ee2
    match cmp with
    | none       => return none
    | some false => return some false
    | some true  => equalElements errors els1 basis1 basis2 els2
  | _, _, _, _ => some (some true)

end

-- There is no result if an assertion fails.
def Equal (errors : Bool) (op : EXP) (type : Ty) (e1 e2 : Expression) : Option Expression :=
  if op = .equal ∨ op = .notEqual then do
    match ← equalValues errors e1 e2 with
    | none     => return cantExpression
    | some cmp => return IntegerExp (boolValue (if op = .notEqual then !cmp else cmp)) type
  else
    none

-- An element is the result, with the type of the index expression.
def indexed (type : Ty) (e : Expression) : Expression :=
  if hasSideEffect e then cantExpression else e.setType type

def Index (type : Ty) (e1 e2 : Expression) (indexIsInBounds : Bool) : Option Expression := do
  let type1 ← e1.type
  match e1, e2 with
  | string _ es1, int64 type2 value2 =>
    let i := (int64 type2 value2).toInteger
    if i.toNat ≥ es1.length then
      return error
    else
      return IntegerExp (BitVec.ofNat 64 (es1.getIndex i.toNat)) type
  | arrayLiteral _ basis elements, int64 type2 value2 =>
    let i := (int64 type2 value2).toInteger
    match type1.toBasetype with
    | .sarray _ _ length =>
      if i.toNat ≥ length.toNat then
        return error
      else
        let el ← opIndex basis elements i.toNat
        let e ← el
        return indexed type e
    | .array _ _ =>
      if i.toNat ≥ elements.length then
        return error
      else
        let el ← opIndex basis elements i.toNat
        let e ← el
        return indexed type e
    | _ => return cantExpression
  | _, int64 type2 value2 =>
    let i := (int64 type2 value2).toInteger
    match type1.toBasetype with
    | .sarray _ _ length =>
      if i.toNat ≥ length.toNat ∧ !indexIsInBounds then return error else return cantExpression
    | _ => return cantExpression
  | _, _ => return cantExpression

def sliceBoundsCheck (lwr upr newlwr newupr : BitVec 64) : Bool :=
  !(newlwr ≤ newupr && lwr ≤ newlwr && newupr ≤ upr)

-- There are no bounds in a slice of a whole array.
def Slice (type : Ty) (e1 : Expression) (lwr upr : Option Expression) : Option Expression :=
  match lwr with
  | none =>
    match e1 with
    | string _ _ => some e1
    | _          => some cantExpression
  | some lwr => do
    let upr ← upr
    match e1, lwr, upr with
    | string _ es1, int64 type2 value2, int64 type3 value3 =>
      let ilwr := (int64 type2 value2).toInteger
      let iupr := (int64 type3 value3).toInteger
      if sliceBoundsCheck 0 (BitVec.ofNat 64 es1.length) ilwr iupr then
        return cantExpression
      else
        let len := (iupr - ilwr).toNat
        let sz := es1.sz
        let s := (es1.peekData.drop (ilwr.toNat * sz)).take (len * sz)
        let es ← StringExp.create s len sz es1.committed
        return string type es
    | arrayLiteral type1 basis elements, int64 type2 value2, int64 type3 value3 =>
      if hasSideEffect (arrayLiteral type1 basis elements) then
        return cantExpression
      else
        let ilwr := (int64 type2 value2).toInteger
        let iupr := (int64 type3 value3).toInteger
        if sliceBoundsCheck 0 (BitVec.ofNat 64 elements.length) ilwr iupr then
          return cantExpression
        else
          return arrayLiteral type basis ((elements.drop ilwr.toNat).take (iupr - ilwr).toNat)
    | _, _, _ => return cantExpression

-- The elements that are set from the code units of a string, in an array of a type.
def sliceAssignArrayLiteralFromString (type : Ty) (newval : StringExp) : Option (List (Option Expression)) :=
  (List.range newval.length).mapM fun j => do
    let elemType ← type.nextOf
    return some (IntegerExp (BitVec.ofNat 64 (newval.getIndex j)) elemType)

-- The elements of a literal, where the basis is in the place of those that are missing, or the expression itself.
def copyElements : Expression → List (Option Expression)
  | arrayLiteral _ basis elements => elements.map fun el => el.or basis
  | e                             => [some e]

-- The bytes of a number of a size.
def valcpy (val : BitVec 64) (size : Nat) : Option (List UInt8) :=
  if size ∈ [1, 2, 4, 8] then some (ByteMemory.bytes size val.toNat) else none

-- `t` is the type of the null operand.
def catNull (type : Ty) (e : Expression) (t : Ty) : Option Expression := do
  let etype ← e.type
  let tn := etype.toBasetype
  if tn.isSomeChar then
    let t := match t.nextOf with
      | some next => next.toBasetype
      | none      => t
    let sz := t.size % 256
    let v := e.toInteger
    let len ← if t.sameTy tn then some 1 else utf_codeLength sz (v.setWidth 32)
    let s ← if t.sameTy tn then valcpy v sz else utf_encode sz (v.setWidth 32)
    let es ← StringExp.create s len sz true
    return string type es
  else
    return arrayLiteral type none [some e]

-- An array of elements that are appended to each other. `next` is the type of one.
def catElements (type next : Ty) (elems : List (Option Expression)) : Expression :=
  arrayLiteral (if type.toBasetype.isSarray then next.sarrayOf elems.length else type) none elems

-- An element is appended to an array, or an array to an element.
def catElement (type type1 type2 : Ty) (e1 e2 : Expression) : Option Expression :=
  let appended :=
    match e1 with
    | arrayLiteral _ _ _ => some (copyElements e1)
    | null _             => some []
    | _                  => none
  match appended with
  | some elems =>
    if type1.toBasetype.nextOf = some type2 then
      some (catElements type type2 (elems ++ [some e2]))
    else
      prepended
  | none => prepended
where
  prepended : Option Expression :=
    match e2 with
    | arrayLiteral _ _ _ => do
      let next2 ← type2.toBasetype.nextOf
      if next2 = type1 then
        return catElements type type1 (copyElements e1 ++ copyElements e2)
      else
        return cantExpression
    | _ => some cantExpression

section

-- What a string is cast to.
variable (castTo : Ty → StringExp → Ty → Expression)

-- A string, and the type of the null that it is concatenated with.
def catStringNull (type : Ty) (type1 : Ty) (es : StringExp) (t : Ty) : Option Expression :=
  let tb := t.toBasetype
  match tb with
  | .array _ next =>
    if next.equivalent type1 then
      -- The literal with the string is no string.
      if t ≠ type then none else some (arrayLiteral t none [some (string type1 es)])
    else
      some (if type1 ≠ type then castTo type1 es type else string type1 es)
  | _ => some (if type1 ≠ type then castTo type1 es type else string type1 es)

-- `errors` is whether an error has been reported. There is no result if an assertion fails, a type is missing or there
-- is not enough memory.
def Cat (errors : Bool) (type : Ty) (e1 e2 : Expression) : Option Expression := do
  let type1 ← e1.type
  let type2 ← e2.type
  let t1 := type1.toBasetype
  let t2 := type2.toBasetype
  match e1, e2 with
  | null _, int64 _ _ => catNull type e2 t1
  | int64 _ _, null _ => catNull type e1 t2
  | null _, null _ =>
    if type = type1 then
      if t1.isArray ∧ t1.nextOf = some t2 then
        return arrayLiteral type none [some e2]
      else
        return e1
    else if type = type2 then
      return e2
    else
      return null type
  | string _ es1, string _ es2 =>
    let len := es1.length + es2.length
    let sz := es1.sz
    if sz ≠ es2.sz then
      if errors then return cantExpression else none
    else
      let es ← StringExp.create (es1.peekData ++ es2.peekData) len sz (es1.committed || es2.committed)
      return string type es
  | arrayLiteral _ basis elements, string _ es => do
    let next ← t1.nextOf
    if next.isIntegral then
      -- [chars] ~ string --> [chars]
      let assigned ← sliceAssignArrayLiteralFromString type es
      return arrayLiteral type none ((elements.map fun el => el.or basis) ++ assigned)
    else
      catElement type type1 type2 e1 e2
  | string _ es, arrayLiteral _ basis elements => do
    let next ← t2.nextOf
    if next.isIntegral then
      -- string ~ [chars] --> [chars]
      let assigned ← sliceAssignArrayLiteralFromString type es
      return arrayLiteral type none (assigned ++ elements.map fun el => el.or basis)
    else
      catElement type type1 type2 e1 e2
  | string _ es1, int64 _ _ =>
    -- string ~ char --> string
    let sz := es1.sz
    let v := e2.toInteger
    let homoConcat := sz = t2.size
    let len ← if homoConcat then some 1 else utf_codeLength sz (v.setWidth 32)
    let s ← if homoConcat then valcpy v sz else utf_encode sz (v.setWidth 32)
    let es ← StringExp.create (es1.peekData ++ s) (es1.length + len) sz es1.committed
    return string type es
  | int64 _ _, string _ es2 =>
    -- We assume that we only ever prepend one char of the same type as the string's characters.
    let sz := es2.sz
    let s ← valcpy e1.toInteger sz
    let es ← StringExp.create (s ++ es2.peekData) (1 + es2.length) sz es2.committed
    return string type es
  | arrayLiteral _ _ _, arrayLiteral _ _ _ => do
    let next1 ← t1.nextOf
    if some next1 = t2.nextOf then
      return catElements type next1 (copyElements e1 ++ copyElements e2)
    else
      catElement type type1 type2 e1 e2
  | arrayLiteral _ _ _, null _ => do
    let next1 ← t1.nextOf
    if some next1 = t2.nextOf then
      return catElements type next1 (copyElements e1)
    else
      catElement type type1 type2 e1 e2
  | null _, arrayLiteral _ _ _ => do
    let next1 ← t1.nextOf
    if some next1 = t2.nextOf then
      return catElements type next1 (copyElements e2)
    else
      catElement type type1 type2 e1 e2
  | null _, string _ es2 =>
    if t1.nextOf = some type2 then
      catElement type type1 type2 e1 e2
    else
      catStringNull castTo type type2 es2 type1
  | string _ es1, null _ => catStringNull castTo type type1 es1 type2
  | _, _ => catElement type type1 type2 e1 e2

end

end Compiler.Constfold
