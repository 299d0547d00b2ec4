import DmdModel.Compiler.Backend.Cgelem.Eval

-- How accesses to bit fields are replaced by accesses to the units that they are in. A field is given by the unit l,
-- and by wb, its width in the second byte and the number of bits to the right of it in the first.
namespace Compiler.Backend.Cgelem

open Tybasic

variable [Target]

-- A mask w bits wide
def mask (w : Nat) : Value :=
  if w = 64 then -1 else ((1 : Value) <<< w) - 1

def el_long (ty : Ty) (v : Value) : Elem :=
  .const ty v

-- Replace e1 by t=e1, replace e2 by t. The temporary t is passed as tmp.
def fixside (tmp : Symbol) (e1 : Elem) : Elem × Elem :=
  (.binary .eq e1.Ety (.var e1.Ety tmp 0) e1, .var e1.Ety tmp 0)

-- Two copies of an lvalue *p, of which the first one is evaluated first. The others are as they are.
def indirections (tmp : Symbol) (l : Elem) : Elem × Elem :=
  match l with
  | .unary .ind ty p => (.unary .ind ty (fixside tmp p).1, .unary .ind ty (fixside tmp p).2)
  | _ => (l, l)

-- They are needed if p is not a leaf.
def copies (tmp : Symbol) (l : Elem) : Elem × Elem :=
  match l with
  | .unary .ind _ p => if p.OTleaf then (l, l) else indirections tmp l
  | _ => (l, l)

-- Reference to bit field. It is asserted that the field is in the unit.
def elbit (ty : Ty) (e1 : Elem) (wb : Nat) : Elem :=
  let tym1 := e1.Ety
  let sz := 8 * tym1.tysize
  let w := wb / 256 % 256
  let b := wb % 256
  if tym1.tyuns then
    if w = 8 ∧ sz = 16 ∧ b = 0 then
      .unary .u8_16 ty (.unary .w16_8 TYuchar e1)
    else
      -- no need to mask if the field is left-justified
      let m := if w + b = sz then -1 else mask w
      .binary .and ty
        (.binary .shr tym1 (.binary .shl tym1 e1 (el_long TYint (BitVec.ofNat 64 0))) (el_long TYint (BitVec.ofNat 64 b)))
        (el_long ty m)
  else if w = 8 ∧ sz = 16 ∧ b = 0 then
    .unary .s8_16 ty (.unary .w16_8 TYschar e1)
  else
    let c := sz - (w + b)
    let shift : BinaryOp := if tym1.tybasic = TYbool then .shr else .ashr
    .binary .and ty
      (.binary shift tym1 (.binary .shl tym1 e1 (el_long TYint (BitVec.ofNat 64 c)))
        (el_long TYint (BitVec.ofNat 64 (sz - w))))
      (el_long ty (-1))

-- ((l bit w,b) = r), with the temporaries for the address of l and for r. A value is built if there is a goal.
def eleq (tmp tmp' : Symbol) (goal : Bool) (t : Ty) (l : Elem) (wb : Nat) (r : Elem) : Elem :=
  let tyl := l.Ety
  let sz := 8 * tyl.tysize
  let w := wb / 256
  let m := mask w
  let b := wb % 256
  let (l2, l) := copies tmp l
  let (r2, r) := if goal && !r.OTleaf then fixside tmp' r else (r, r)
  let m2 := if Target.OPTIMIZER && w + b = sz then -1 else m
  let eres :=
    .binary .eq t l
      (.binary .or t (.binary .shl t (.binary .and t r2 (el_long t m2)) (el_long TYint (BitVec.ofNat 64 b)))
        (.binary .and t l2 (el_long t (~~~(m <<< b)))))
  if !goal then
    eres
  else if tyl.tyuns then
    .binary .comma t eres (.binary .and t r (el_long t m))
  else
    let c := el_long TYint (BitVec.ofNat 64 (sz - w))
    .binary .comma t eres (.binary .ashr t (.binary .shl tyl r c) c)

-- ((l bit w,b) op= r). That of a signed field is an assignment, the parts of which are replaced in turn.
def elopass (tmp tmp' : Symbol) (goal : Bool) (Eoper : BinaryOp) (Ety : Ty) (l : Elem) (wb : Nat) (r : Elem) : Elem :=
  let op := Eoper.opeqtoop
  let t : Ty := Ety.tybasic.touns
  let tyl := l.Ety
  let w := wb / 256 % 256
  let m := mask w
  let b := wb % 256
  if tyl.tyuns then
    let (l2, l) := copies tmp l
    let shift := el_long TYint (BitVec.ofNat 64 b)
    let value :=
      .binary .and t (.binary op t (.binary .and t (.binary .shr t l2 shift) (el_long t m)) r) (el_long t m)
    let (value, copy) := if goal then fixside tmp' value else (value, value)
    let eres :=
      .binary .eq t l (.binary .or t (.binary .shl t value shift) (.binary .and t l (el_long t (~~~(m <<< b)))))
    if goal then .binary .comma t eres copy else eres
  else
    let (l2, l) := indirections tmp l
    eleq tmp tmp' true Ety l wb (.binary op t (elbit l2.Ety l2 wb) r)

-- ((l bit w,b) ++ r) becomes (((l bit w,b) += r) - r) & m. The mask is for unsigned fields.
def elpost (tmp tmp' : Symbol) (Eoper : BinaryOp) (ty : Ty) (l : Elem) (wb : Nat) (e2 : Elem) : Elem :=
  let r := if Eoper = .postinc then e2.el_tolong else -e2.el_tolong
  let op : BinaryOp := if Eoper = .postinc then .addass else .minass
  let e := .binary .min ty (elopass tmp tmp' true op ty l wb e2) (el_long ty r)
  if l.Ety.tyuns then .binary .and ty e (el_long ty (mask (wb / 256 % 256))) else e

end Compiler.Backend.Cgelem

-- The rewriting of chains of || and && some of whose operands compare an elem with constants.
namespace Compiler.Backend.Cgelem

open Tybasic

variable [Target]

def leftOperand : Elem → Option Elem
  | .unary _ _ e | .binary _ _ e _ => some e
  | _ => none

-- The operands of a comparison with a constant by cmpop, with the value of the constant.
def comparison (cmpop : BinaryOp) (eq : Elem) : Option (Elem × Value) :=
  match eq with
  | .binary op _ e1 (.const ty v) =>
    if op = cmpop ∧ ty.tyintegral ∧ ¬e1.el_sideeffect then some (e1, (Elem.const ty v).el_tolong) else none
  | _ => none

-- The operands that have been found to compare the same elem, from first to last, if there are any.
structure Window where
  any   : Bool  := false
  first : Nat   := 0
  last  : Nat   := 0
  emin  : Value := 0
  emax  : Value := 0

-- The window of a single operand
def Window.start (i : Nat) (m : Value) : Window :=
  { any := true, first := i, last := i, emin := m, emax := m }

def Window.extend (w : Window) (i : Nat) (m : Value) : Window :=
  { any   := w.any
    first := w.first
    last  := i
    emin  := if m < w.emin then m else w.emin
    emax  := if m > w.emax then m else w.emax }

-- The bits of the constants. A shift by 64 or more has no result.
def bitMask (emin : Value) : List Elem → Value → Option Value
  | [], bits => some bits
  | eq :: rest, bits =>
    match eq with
    | .binary _ _ _ (.const ty v) =>
      let count := (Elem.const ty v).el_tolong - emin
      if count.toNat < 64 then bitMask emin rest (bits ||| 1#64 <<< count.toNat) else none
    | _ => none

-- Shift count must be an int
def shiftCount (tyc : Ty) (ey : Elem) : Option Elem :=
  match tyc.tysize with
  | 1 => some (.unary .u16_32 TYint (.unary .u8_16 TYint ey))
  | 2 => some (.unary .u16_32 TYint ey)
  | 4 => some ey
  | 8 => some (.unary .ll64_32 TYint ey)
  | _ => none

-- What the operands in the window are replaced by.
def bitTest (op : BinaryOp) (ty : Ty) (array : List Elem) (w : Window) : Option Elem := do
  let emin := if w.emax < 32 then 0 else w.emin
  let bits ← bitMask emin ((array.drop w.first).take (w.last - w.first + 1)) 0
  let bits := if op = .andand then ~~~bits else bits
  let first ← array[w.first]?
  let second ← array[w.first + 1]?
  let e1 ← leftOperand first
  let e1' ← leftOperand second
  let tyc := e1.Ety
  let ex := Elem.binary .min tyc e1 (el_long tyc emin)
  let ex := Elem.binary (if op = .andand then .gt else .le) TYbool ex
    (el_long tyc.tybasic.touns (w.emax - emin))
  let ey := Elem.binary .min tyc e1' (el_long tyc emin)
  let tybits ← if w.emax - emin ≥ 32 then if Target.I64 then some TYullong else none else some TYuint
  let ey ← shiftCount tyc ey
  let ey := Elem.binary .btst TYbool (el_long tybits bits) ey
  return .binary (if op = .andand then .oror else .andand) ty ex ey

end Compiler.Backend.Cgelem
