import DmdModel.Compiler.Backend.Cgelem.Eval

-- How comparisons are simplified.
namespace Compiler.Backend.Cgelem

open Tybasic

variable [Target]

-- A constant with its lowest 32 bits set.
def setLow (v : Value) (low : BitVec 32) : Value :=
  (v &&& ~~~0xFFFFFFFF) ||| low.setWidth 64

def isBit (e : Elem) : Bool :=
  match e with
  | .binary .and _ _ (.const ty v) => (Elem.const ty v).el_tolong = 1
  | _ => false

def isOne (e : Elem) : Bool :=
  match e with
  | .const ty v => (Elem.const ty v).el_tolong = 1
  | _ => false

-- Converts to a size. The steps bound the loop, which does not end if the size is 8 and that of the elem is not.
@[grind =]
def toSize (sz : Nat) : (steps : Nat) → Elem → Option Elem
  | 0, e => if e.Ety.tysize = sz then some e else none
  | steps + 1, e =>
    if e.Ety.tysize = sz then
      some e
    else
      match e.Ety.tysize with
      | 1 => toSize sz steps (.unary .u8_16 TYshort e)
      | 2 =>
        if sz > 2 then toSize sz steps (.unary .u16_32 TYlong e) else toSize sz steps (.unary .w16_8 TYuchar e)
      | 4 =>
        if sz > 2 then toSize sz steps (.unary .u32_64 TYshort e)
        else toSize sz steps (.unary .l32_16 TYshort e)
      | 8 => toSize sz steps (.unary .ll64_32 TYlong e)
      | _ => none

-- The zero extensions to 16 and 32 bits
def isZeroExt (e : Elem) : Bool :=
  match e with
  | .unary .u8_16 .. | .unary .u16_32 .. => true
  | _ => false

-- An operand of an extension with the type ty and the modifiers that the extension has.
def selectAs (ty : Tybasic) (ext e : Elem) : Elem :=
  e.setEty { ext.Ety with tybasic := ty }

-- The comparison of the operands of two extensions.
def elcmpExt (op : BinaryOp) (ty : Ty) (uns : Bool) (x y : Elem) : Elem :=
  let x := if uns then x.setEty x.Ety.tybasic.touns else x
  let y := if uns then y.setEty y.Ety.tybasic.touns else y
  .binary op ty x y

-- Whether a comparison with a constant can be done in 16 bits, or in 8 bits.
def fits16 (e1 : Elem) (c : Value) : Bool :=
  match e1 with
  | .unary .u16_32 .. => decide (c.toNat % 2 ^ 32 ≤ 0xFFFF)
  | .unary .s16_32 .. => c.setWidth 32 = (c.setWidth 16).signExtend 32
  | _ => false

def fits8 (e1 : Elem) (c : Value) : Bool :=
  match e1 with
  | .unary .u8_16 .. => decide (c.toNat % 2 ^ 32 < 256)
  | .unary .s8_16 .. => c.setWidth 32 = (c.setWidth 8).signExtend 32
  | _ => false

def operand : Elem → Elem
  | .unary _ _ e | .binary _ _ e _ => e
  | e => e

-- Whether a comparison is `(x & c) == d`, and can be done in 8 bits.
def isMask (e1 : Elem) (ty2 : Ty) : Bool :=
  match e1 with
  | .binary .and _ _ (.const ..) => Target.OPTIMIZER && decide (ty2.tysize > 1)
  | _ => false

def fitsMask (e1 : Elem) (ty2 : Ty) (c2 : Value) : Bool :=
  match e1 with
  | .binary .and _ _ (.const ty12 c12) =>
    (Elem.const ty2 c2).el_tolong &&& ~~~0xFF = 0 && (Elem.const ty12 c12).el_tolong &&& ~~~0xFF = 0
  | _ => false

-- The lowest byte of an elem of size sz
def toByte (sz : Nat) (x : Elem) : Elem :=
  let x :=
    if sz = 8 then .unary .l32_16 TYushort (.unary .ll64_32 TYulong x)
    else if sz = 4 then .unary .l32_16 TYushort x
    else x
  .unary .w16_8 TYuchar x

-- ((x & c) == d) in 8 bits
def elcmpMask (op : BinaryOp) (ty : Ty) (e1 : Elem) (ty2 : Ty) (c2 : Value) : Elem :=
  match e1 with
  | .binary .and _ x (.const _ c12) =>
    .binary op ty (.binary .and TYuchar (toByte ty2.tysize x) (.const TYuchar c12)) (.const TYuchar c2)
  | _ => .binary op ty e1 (.const ty2 c2)

-- The comparison with zero, or none if it stays as it is.
def elcmpZero (op : BinaryOp) (ty : Ty) (uns : Bool) (e1 : Elem) (ty2 : Ty) (c2 : Value) : Option Elem :=
  let sz := ty2.tysize
  let not := Elem.unary .not ty e1
  let bool := Elem.unary .bool ty e1
  let comma (i : BitVec 32) := Elem.binary .comma ty e1 (.const TYint (setLow c2 i))
  let msw :=
    if e1.Ety.tyintegral && sz = 2 * REGSIZE then
      let tyMsw : Tybasic := if sz = 4 then TYint else if sz = 8 then TYint else TYlong
      some (Elem.binary op ty (.unary .msw tyMsw e1) (.const tyMsw c2))
    else
      none
  match op with
  | .le   => if uns then some not else none   -- (u <= 0) becomes (u == 0)
  | .eqeq => some not
  | .gt   => if uns then some bool else none  -- (u > 0) becomes (u != 0)
  | .ne   => some bool
  | .ge   => if uns then some (comma 1) else msw
  | .lt   => if uns then some (comma 0) else msw
  | _     => none

-- The comparison with a constant, or none if an assertion fails.
def elcmpConst (optelem : Elem → Elem) (op : BinaryOp) (ty : Ty) (e1 : Elem) (ty2 : Ty) (c2 : Value) : Option Elem :=
  let e2 := Elem.const ty2 c2
  let sz := ty2.tysize
  let uns := e1.Ety.tyuns || ty2.tyuns
  if !Target.AArch64 && fits16 e1 c2 then
    let tym : Tybasic := if uns || isZeroExt e1 then TYushort else TYshort
    some (optelem (.binary op ty (selectAs tym e1 (operand e1)) (.unary .l32_16 tym e2)))
  else if isMask e1 ty2 && !(ty2.tyintegral || ty2.tybasic.typtr) then
    -- assert(tyintegral(e2.Ety) || typtr(e2.Ety))
    none
  else if isMask e1 ty2 && fitsMask e1 ty2 c2 then
    some (optelem (elcmpMask op ty e1 ty2 c2))
  else if Target.OPTIMIZER && !Target.I64 && op = .gt && sz = 8 && c2 = 0xFFFFFFFF then
    -- Convert (ulong > uint.max) to (msw(ulong) != 0)
    some (optelem (.binary .ne ty (.unary .msw TYulong e1) (.const TYulong (setLow c2 0))))
  else if fits8 e1 c2 then
    let tym : Tybasic := if uns || isZeroExt e1 then TYuchar else TYschar
    some (optelem (.binary op ty (selectAs tym e1 (operand e1)) (.unary .w16_8 tym e2)))
  else if !e2.boolres then
    match elcmpZero op ty uns e1 ty2 c2 with
    | some e => some (optelem e)
    | none   => some (.binary op ty e1 e2)
  else if Target.OPTIMIZER && uns && sz = 2 && c2.toNat % 2 ^ 16 = 0x8000 && (op = .lt || op = .ge) then
    -- Convert to signed comparison against 0
    let op := if op = .lt then .ge else .lt
    some (.binary op ty (e1.setEty { e1.Ety with tybasic := TYshort })
      (.const { ty2 with tybasic := TYshort } (setLow c2 0)))
  else
    match Target.OPTIMIZER, e1 with
    | true, .binary .eq ty1 x (.const ty12 c12) =>
      -- Convert ((x = c1) rel c2) to ((x = c1),(c1 rel c2)
      some (optelem (.binary .comma ty (.binary .eq ty1 x (.const ty12 c12)) (.binary op ty (.const ty1 c12) e2)))
    | _, _ => some (.binary op ty e1 e2)

-- Take care of compares; none if an assertion fails or a loop does not end.
def elcmp (optelem : Elem → Elem) (op : BinaryOp) (ty : Ty) (e1 e2 : Elem) : Option Elem :=
  if Target.OPTIMIZER && op = .eqeq && isOne e2 && isBit e1 then
    -- Convert ((e & 1) == 1) => (e & 1)
    (toSize ty.tysize 3 e1).map fun e => optelem (e.setEty ty)
  else
    match e2 with
    | .const ty2 c2 => elcmpConst optelem op ty e1 ty2 c2
    | _ =>
      match e1, e2 with
      | .unary .u8_16 ty1 x, .unary .u8_16 ty2 y | .unary .s8_16 ty1 x, .unary .s8_16 ty2 y
      | .unary .u16_32 ty1 x, .unary .u16_32 ty2 y | .unary .s16_32 ty1 x, .unary .s16_32 ty2 y =>
        some (optelem (elcmpExt op ty (ty1.tyuns || ty2.tyuns) x y))
      | _, _ => some (.binary op ty e1 e2)

end Compiler.Backend.Cgelem
