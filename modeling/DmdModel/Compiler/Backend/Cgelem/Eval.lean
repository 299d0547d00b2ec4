import DmdModel.Compiler.Backend.Oper
import DmdModel.Lib.WordBits
import DmdModel.Compiler.Backend.Semantics

-- The elems that are simplified, with the contents of their constants.
namespace Compiler.Backend.Cgelem

-- What the backend is set up for.
class Target where
  I64       : Bool
  OPTIMIZER : Bool
  -- whether `config.target_cpu` is `TARGET_AArch64`
  AArch64   : Bool

def REGSIZE [Target] : Nat :=
  if Target.I64 then 8 else 4

abbrev Value := BitVec 64

-- The integral types and the near pointers.
inductive Tybasic
  | TYbool | TYchar | TYschar | TYuchar | TYchar16 | TYshort | TYwchar_t | TYushort
  | TYint | TYuint | TYlong | TYulong | TYdchar | TYllong | TYullong
  | TYnullptr | TYnptr | TYsptr | TYcptr | TYnref | TYsharePtr | TYimmutPtr | TYfgPtr | TYrestrictPtr
  | TYvoid | TYnoreturn
  deriving DecidableEq

structure Ty where
  tybasic   : Tybasic
  -- `mTYvolatile` or `mTYshared`
  volatile  : Bool := false
  -- the other bits that modify the type
  modifiers : Nat := 0
  deriving DecidableEq

namespace Tybasic

def tysize [Target] : Tybasic → Nat
  | TYbool | TYchar | TYschar | TYuchar => 1
  | TYchar16 | TYshort | TYwchar_t | TYushort => 2
  | TYint | TYuint | TYlong | TYulong | TYdchar => 4
  | TYllong | TYullong => 8
  | TYvoid | TYnoreturn => 0
  | _ => REGSIZE

def tyintegral : Tybasic → Bool
  | TYbool | TYchar | TYschar | TYuchar | TYchar16 | TYshort | TYwchar_t | TYushort
  | TYint | TYuint | TYlong | TYulong | TYdchar | TYllong | TYullong => true
  | _ => false

def typtr : Tybasic → Bool
  | TYnptr | TYsptr | TYcptr | TYsharePtr | TYimmutPtr | TYfgPtr | TYrestrictPtr => true
  | _ => false

-- `TYchar` is set to be unsigned.
def tyuns : Tybasic → Bool
  | TYchar | TYuchar | TYchar16 | TYwchar_t | TYushort | TYuint | TYulong | TYdchar | TYullong => true
  | ty => ty.typtr

def tyequiv : Tybasic → Tybasic
  | TYchar => TYschar
  | TYint => TYlong
  | TYuint => TYulong
  | ty => ty

-- Convert to unsigned version of type.
def touns : Tybasic → Tybasic
  | TYchar | TYschar => TYuchar
  | TYshort => TYushort
  | TYint => TYuint
  | TYlong => TYulong
  | TYllong => TYullong
  | ty => ty

theorem tysize_touns [Target] (ty : Tybasic) : ty.touns.tysize = ty.tysize := by
  cases ty <;> rfl

theorem tysize_tyequiv [Target] (ty : Tybasic) : ty.tyequiv.tysize = ty.tysize := by
  cases ty <;> rfl

end Tybasic

namespace Ty

variable [Target]

def tysize (ty : Ty) : Nat :=
  ty.tybasic.tysize

def tyintegral (ty : Ty) : Bool :=
  ty.tybasic.tyintegral

def tyuns (ty : Ty) : Bool :=
  ty.tybasic.tyuns

-- The value that a variable of the type holds when it is set to v.
def trunc (ty : Ty) (v : Value) : Value :=
  LowBits.low (8 * ty.tysize) v

end Ty

instance : Coe Tybasic Ty where
  coe ty := { tybasic := ty }

structure Symbol where
  id  : Nat
  -- whether its `Sfl` is `FL.got`
  got : Bool := false
  deriving DecidableEq

inductive Elem
  | const  (Ety : Ty) (Vullong : Value)
  | var    (Ety : Ty) (Vsym : Symbol) (Voffset : Value)
  -- `OPrelconst` and `OPstring` have a symbol or a string, and an offset.
  | leaf   (Eoper : LeafOp) (Ety : Ty) (Vsym : Symbol) (Voffset : Value)
  | unary  (Eoper : UnaryOp) (Ety : Ty) (E1 : Elem)
  | binary (Eoper : BinaryOp) (Ety : Ty) (E1 E2 : Elem)
  deriving DecidableEq

end Compiler.Backend.Cgelem

namespace Compiler.Backend

def LeafOp.OTsideff : LeafOp → Bool
  | .asm | .mark | .halt | .dctor => true
  | _ => false

def UnaryOp.OTsideff : UnaryOp → Bool
  | .ucall | .negass | .ctor | .dtor | .void | .ddtor | .inp => true
  | _ => false

open BinaryOp in
def Esideff : List BinaryOp :=
  [strcpy, memcpy, memset, strcat, call, eq, streq, postinc, postdec,
   addass, minass, mulass, divass, modass, andass, orass, xorass, shlass, shrass, ashrass,
   btc, btr, bts, cmpxchg, va_start, outp, vecsto, prefetch]

def BinaryOp.OTsideff (op : BinaryOp) : Bool :=
  op ∈ Esideff

-- Convert op= to op.
def BinaryOp.opeqtoop : BinaryOp → BinaryOp
  | .addass => .add | .minass => .min | .mulass => .mul | .divass => .div | .modass => .mod
  | .shrass => .shr | .ashrass => .ashr | .shlass => .shl | .andass => .and | .xorass => .xor
  | .orass => .or
  | op => op

end Compiler.Backend

namespace Compiler.Backend.Cgelem.Elem

variable [Target]

def Ety : Elem → Ty
  | const ty _ | var ty .. | leaf _ ty .. | unary _ ty _ | binary _ ty .. => ty

def setEty (ty : Ty) : Elem → Elem
  | const _ v => const ty v
  | var _ sym offset => var ty sym offset
  | leaf op _ sym offset => leaf op ty sym offset
  | unary op _ e => unary op ty e
  | binary op _ e1 e2 => binary op ty e1 e2

-- Neither a unary nor a binary operator.
def OTleaf : Elem → Bool
  | unary .. | binary .. => false
  | _ => true

def isConst : Elem → Bool
  | const .. => true
  | _ => false

-- `OPrelconst` or `OPstring`.
def isAddress : Elem → Bool
  | leaf .relconst .. | leaf .string .. => true
  | _ => false

-- Whether an elem has any side effects.
@[grind =]
def el_sideeffect : Elem → Bool
  | const ty _ | var ty .. => ty.volatile
  | leaf op ty .. => ty.volatile || op.OTsideff
  | unary op ty e => ty.volatile || op.OTsideff || e.el_sideeffect
  | binary op ty e1 e2 => ty.volatile || op.OTsideff || e1.el_sideeffect || e2.el_sideeffect

-- Whether two types are the same but for the name.
def matchTypes (ty ty' : Ty) : Bool :=
  ty.volatile = ty'.volatile && ty.modifiers = ty'.modifiers && ty.tybasic.tyequiv = ty'.tybasic.tyequiv

-- Whether two trees match.
@[grind =]
def el_match : Elem → Elem → Bool
  | const ty v, const ty' v' => matchTypes ty ty' && ty.trunc v = ty.trunc v'
  | var ty sym offset, var ty' sym' offset' => matchTypes ty ty' && sym = sym' && offset = offset'
  | leaf op ty sym offset, leaf op' ty' sym' offset' =>
    op = op' && matchTypes ty ty' &&
      match op with
      | .relconst | .string => sym = sym' && offset = offset'
      | .strthis | .frameptr | .halt | .got => true
      | _ => false
  | unary op ty e, unary op' ty' e' => op = op' && matchTypes ty ty' && e.el_match e'
  | binary op ty e1 e2, binary op' ty' e1' e2' =>
    op = op' && matchTypes ty ty' && e2.el_match e2' && e1.el_match e1'
  | _, _ => false

-- Extract long value from constant elem.
def el_tolong : Elem → Value
  | const ty v =>
    match ty.tybasic with
    | .TYschar => (v.setWidth 8).signExtend 64
    | .TYshort => (v.setWidth 16).signExtend 64
    | .TYint | .TYlong => (v.setWidth 32).signExtend 64
    | .TYvoid => LowBits.low 32 v
    | _ => ty.trunc v
  | _ => 0

-- Whether a constant is all ones.
def allOnes : Elem → Bool
  | const ty v => ty.trunc v = ty.trunc (-1)
  | _ => false

-- The lowest bits of the contents of a constant.
def Vuns : Elem → Nat
  | const _ v => v.toNat % 2 ^ 32
  | _ => 0

def boolres (e : Elem) : Bool :=
  e.el_tolong ≠ 0

def elemisnegone : Elem → Bool
  | const ty v => ty.tybasic ≠ .TYnref && ty.tybasic ≠ .TYvoid && (const ty v).el_tolong = -1
  | _ => false

end Compiler.Backend.Cgelem.Elem

-- What elems mean.
namespace Compiler.Backend.Cgelem

-- Where a value is stored.
inductive Loc
  | var (Vsym : Symbol) (Voffset : Value)
  | mem (address : Value)
  deriving DecidableEq

-- An lvalue: a value of a type, or a bit field in it, given by its width in the second byte and the number of
-- bits to the right of it in the first.
structure Place where
  loc : Loc
  ty  : Ty
  bit : Option Nat := none

-- What elems are about: the addresses of symbols, how variables and memory are read and written, and the
-- operators that have no meaning of their own here, calls among them.
structure Machine (σ E : Type) where
  address      : LeafOp → Symbol → Value
  read         : Loc → (tysize : Nat) → σ → Value
  write        : Loc → (tysize : Nat) → Value → σ → Result σ Unit E
  leaf         : LeafOp → Tybasic → σ → Value
  unary        : UnaryOp → Tybasic → Tybasic → Value → σ → Value
  binary       : BinaryOp → Tybasic → Tybasic → Tybasic → Value → Value → σ → Value
  leafEffect   : LeafOp → Tybasic → σ → Result σ Value E
  unaryEffect  : UnaryOp → Tybasic → Tybasic → Value → σ → Result σ Value E
  binaryEffect : BinaryOp → Tybasic → Tybasic → Tybasic → Value → Value → σ → Result σ Value E

namespace Machine

variable [Target] {σ E : Type} (M : Machine σ E)

def ofBool (b : Bool) : Value :=
  if b then 1 else 0

-- A value of a type, extended by its sign.
def extend (ty : Ty) (v : Value) : Value :=
  (v.setWidth (8 * ty.tysize)).signExtend 64

-- The meaning of a unary operator without side effects.
def evalUnary (op : UnaryOp) (ty ty1 : Ty) (v : Value) (s : σ) : Value :=
  match op with
  | .neg => ty.trunc (-v)
  | .com => ty.trunc (~~~v)
  | .not => ofBool (v = 0)
  | .bool => ofBool (v ≠ 0)
  | .uadd | .u8_16 | .u16_32 | .u32_64 | .w16_8 | .l32_16 | .ll64_32 => ty.trunc v
  | .s8_16 | .s16_32 | .s32_64 => ty.trunc (extend ty1 v)
  | .msw => ty.trunc (v >>> (4 * ty1.tysize))
  | .ind => ty.trunc (M.read (.mem v) ty.tysize s)
  | _ => ty.trunc (M.unary op ty.tybasic.tyequiv ty1.tybasic.tyequiv v s)

-- Of two operands one of which is unsigned both are taken to be unsigned.
def less (ty1 ty2 : Ty) (v w : Value) : Bool :=
  if ty1.tyuns || ty2.tyuns then v.ult w else (extend ty1 v).slt (extend ty2 w)

-- The meaning of a binary operator without side effects that has both of its operands evaluated.
def evalBinary (op : BinaryOp) (ty ty1 ty2 : Ty) (v w : Value) (s : σ) : Value :=
  match op with
  | .add => ty.trunc (v + w)
  | .min => ty.trunc (v - w)
  | .mul => ty.trunc (v * w)
  | .and => ty.trunc (v &&& w)
  | .or => ty.trunc (v ||| w)
  | .xor => ty.trunc (v ^^^ w)
  | .shl => ty.trunc (v <<< w.toNat)
  | .shr => ty.trunc (v >>> w.toNat)
  | .ashr => ty.trunc ((extend ty1 v).sshiftRight w.toNat)
  | .div =>
    ty.trunc (if ty1.tyuns || ty2.tyuns then v / w else (extend ty1 v).sdiv (extend ty2 w))
  | .mod =>
    ty.trunc (if ty1.tyuns || ty2.tyuns then v % w else (extend ty1 v).srem (extend ty2 w))
  | .eqeq => ofBool (v = w)
  | .ne => ofBool (v ≠ w)
  | .lt => ofBool (less ty1 ty2 v w)
  | .gt => ofBool (less ty2 ty1 w v)
  | .le => ofBool (!less ty2 ty1 w v)
  | .ge => ofBool (!less ty1 ty2 v w)
  | .btst => ofBool (v.getLsbD w.toNat)
  | _ =>
    ty.trunc (M.binary op ty.tybasic.tyequiv ty1.tybasic.tyequiv ty2.tybasic.tyequiv v w s)

def apply (op : BinaryOp) (ty ty1 ty2 : Ty) (v w : Value) (s : σ) : Result σ Value E :=
  if op.OTsideff then
    M.binaryEffect op ty.tybasic.tyequiv ty1.tybasic.tyequiv ty2.tybasic.tyequiv v w s
  else .pure s (M.evalBinary op ty ty1 ty2 v w s)

-- The width of a bit field, and the number of bits to the right of it.
def width (wb : Nat) : Nat :=
  wb / 256

def rightOf (wb : Nat) : Nat :=
  wb % 256

-- A value of a bit field in a unit of a type, as it is read. A field is signed if the unit is; one in a unit of
-- type bool is not.
def fieldValue (ty : Ty) {w : Nat} (f : BitVec w) : Value :=
  ty.trunc (if ty.tyuns || ty.tybasic = .TYbool then f.setWidth 64 else f.signExtend 64)

def getField (wb : Nat) (u : Value) : BitVec (width wb) :=
  u.extractLsb' (rightOf wb) (width wb)

def setField (wb : Nat) (u : Value) (f : BitVec (width wb)) : Value :=
  (u &&& ~~~((BitVec.allOnes (width wb)).setWidth 64 <<< rightOf wb)) ||| f.setWidth 64 <<< rightOf wb

def load (p : Place) (s : σ) : Value :=
  let u := p.ty.trunc (M.read p.loc p.ty.tysize s)
  match p.bit with
  | none    => u
  | some wb => fieldValue p.ty (getField wb u)

-- Stores into the left operand of an assignment, and reads it again.
def store (p : Place) (v : Value) (s : σ) : Result σ Value E :=
  match p.bit with
  | none => (M.write p.loc p.ty.tysize (p.ty.trunc v) s).bind fun s _ => .pure s (p.ty.trunc v)
  | some wb =>
    let u := p.ty.trunc (M.read p.loc p.ty.tysize s)
    let f := v.setWidth (width wb)
    (M.write p.loc p.ty.tysize (setField wb u f) s).bind fun s _ => .pure s (fieldValue p.ty f)

mutual

-- The value of an elem. Assignments and calls evaluate their right operand first.
def eval : Elem → σ → Result σ Value E
  | .const ty v, s => .pure s (ty.trunc v)
  | .var ty sym offset, s => .pure s (ty.trunc (M.read (.var sym offset) ty.tysize s))
  | .leaf op ty sym offset, s =>
    match op with
    | .relconst | .string => .pure s (ty.trunc (M.address op sym + offset))
    | op =>
      if op.OTsideff then M.leafEffect op ty.tybasic.tyequiv s
      else .pure s (ty.trunc (M.leaf op ty.tybasic.tyequiv s))
  | .unary op ty e, s =>
    match op with
    | .negass =>
      (locate e s).bind fun s p => M.store p (-(M.load p s)) s
    | op =>
      (eval e s).bind fun s v =>
        if op.OTsideff then M.unaryEffect op ty.tybasic.tyequiv e.Ety.tybasic.tyequiv v s
        else .pure s (M.evalUnary op ty e.Ety v s)
  | .binary op ty e1 e2, s =>
    match op with
    | .comma => (eval e1 s).bind fun s _ => eval e2 s
    | .andand =>
      (eval e1 s).bind fun s v =>
        if v ≠ 0 then (eval e2 s).bind fun s w => .pure s (ofBool (w ≠ 0)) else .pure s 0
    | .oror =>
      (eval e1 s).bind fun s v =>
        if v ≠ 0 then .pure s 1 else (eval e2 s).bind fun s w => .pure s (ofBool (w ≠ 0))
    | .cond =>
      (eval e1 s).bind fun s v =>
        match e2 with
        | .binary _ _ e3 e4 => if v ≠ 0 then eval e3 s else eval e4 s
        | _ => .pure s 0
    | .bit => (eval e1 s).bind fun s v => .pure s (fieldValue e1.Ety (getField e2.Vuns v))
    | .eq => (eval e2 s).bind fun s w => (locate e1 s).bind fun s p => M.store p w s
    | .postinc | .postdec =>
      (eval e2 s).bind fun s w => (locate e1 s).bind fun s p =>
        let v := M.load p s
        (M.store p (if op = .postinc then v + w else v - w) s).bind fun s _ => .pure s v
    | op =>
      if op.OTopeq then
        (eval e2 s).bind fun s w => (locate e1 s).bind fun s p =>
          M.store p (M.evalBinary op.opeqtoop e1.Ety e1.Ety e2.Ety (M.load p s) w s) s
      else if op.OTrtol then
        (eval e2 s).bind fun s w => (eval e1 s).bind fun s v => M.apply op ty e1.Ety e2.Ety v w s
      else
        (eval e1 s).bind fun s v => (eval e2 s).bind fun s w => M.apply op ty e1.Ety e2.Ety v w s

-- Where the left operand of an assignment is.
def locate : Elem → σ → Result σ Place E
  | .var ty sym offset, s => .pure s { loc := .var sym offset, ty }
  | .unary .ind ty e, s => (eval e s).bind fun s v => .pure s { loc := .mem v, ty }
  | .binary .comma _ e1 e2, s => (eval e1 s).bind fun s _ => locate e2 s
  | .binary .bit _ e1 e2, s => (locate e1 s).bind fun s p => .pure s { p with bit := some e2.Vuns }
  | e, s => .pure s { loc := .mem 0, ty := e.Ety }

end

attribute [grind =] eval locate

end Machine

end Compiler.Backend.Cgelem
