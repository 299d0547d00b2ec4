import DmdModel.Compiler.Backend.Oper

namespace Compiler.Backend

structure Config where
  inline8087 : Bool
  deriving DecidableEq

-- The properties of the type of an elem.
structure Ty where
  tysize     : Nat
  tyfloating : Bool := false
  TYnoreturn : Bool := false
  deriving DecidableEq

-- The value of a constant. Of one that is not integral, what matters is whether it is zero.
inductive Const
  | integral (value : Int)
  | other    (bits : Nat) (zero : Bool)
  deriving DecidableEq

-- The properties of a symbol in `globsym`.
structure SymbolInfo where
  -- the size of its type
  type_size   : Nat
  -- no pointer can reference it
  SFLdistinct : Bool
  SFLlivexit  : Bool
  deriving DecidableEq

-- A symbol in a table of n symbols, or another one, as functions and static data are.
inductive Symbol (n : Nat)
  | intab (Ssymnum : Fin n)
  | other (id : Nat) (SFLexit : Bool)
  deriving DecidableEq

inductive Elem (n : Nat)
  | var    (Ety : Ty) (Vsym : Symbol n) (Voffset : Nat)
  | const  (Ety : Ty) (value : Const)
  | leaf   (Eoper : LeafOp) (Ety : Ty)
  | unary  (Eoper : UnaryOp) (Ety : Ty) (E1 : Elem n)
  -- `ET` is the size of the type that `OPstreq` assigns.
  | binary (Eoper : BinaryOp) (Ety : Ty) (ET : Nat) (E1 E2 : Elem n)
  deriving DecidableEq

namespace Elem

variable {n : Nat}

def Ety : Elem n → Ty
  | var ty .. | const ty .. | leaf _ ty | unary _ ty _ | binary _ ty .. => ty

def isConst : Elem n → Bool
  | const .. => true
  | _ => false

-- Neither a unary nor a binary operator.
def OTleaf : Elem n → Bool
  | unary .. | binary .. => false
  | _ => true

-- The controlling elem of commas.
@[grind =]
def el_scancommas : Elem n → Elem n
  | binary .comma _ _ _ E2 => E2.el_scancommas
  | e => e

def isLvalue : Elem n → Bool
  | var .. | unary .ind .. => true
  | _ => false

-- The left operand of every assignment is a variable or a dereference.
def WellFormed : Elem n → Prop
  | var .. | const .. | leaf .. => True
  | unary op _ E1 => (op = .negass → E1.isLvalue) ∧ E1.WellFormed
  | binary op _ _ E1 E2 => (op.stores → E1.isLvalue) ∧ E1.WellFormed ∧ E2.WellFormed

instance : DecidablePred (WellFormed (n := n))
  | var .. | const .. | leaf .. => isTrue trivial
  | unary op _ E1 =>
    have := instDecidablePredWellFormed E1
    inferInstanceAs (Decidable ((op = .negass → E1.isLvalue) ∧ E1.WellFormed))
  | binary op _ _ E1 E2 =>
    have := instDecidablePredWellFormed E1
    have := instDecidablePredWellFormed E2
    inferInstanceAs (Decidable ((op.stores → E1.isLvalue) ∧ E1.WellFormed ∧ E2.WellFormed))

end Elem

-- Combine two elems with a comma elem.
def el_combine {n : Nat} : Option (Elem n) → Option (Elem n) → Option (Elem n)
  | some e1, some e2 => some (.binary .comma e2.Ety 0 e1 e2)
  | some e1, none => some e1
  | none, e2 => e2

-- Whether a binary elem evaluates right-to-left.
def ERTOL (config : Config) (Eoper : BinaryOp) (Ety : Ty) : Bool :=
  Eoper.OTrtol && (!Eoper.OTopeq || config.inline8087 || !Ety.tyfloating)

end Compiler.Backend

namespace Compiler.Backend

-- The kinds of blocks, without those for exception handling and inline assembler.
inductive BC
  | goto_
  | iftrue
  | ret
  | retexp
  | exit
  | switch_
  deriving DecidableEq

-- A block; ι is what blocks are referred to by.
structure Block (ι : Type) (n : Nat) where
  bc       : BC
  Belem    : Option (Elem n) := none
  Bsucc    : List ι := []
  Bpred    : List ι := []
  -- the values of the cases of a switch; its first successor is the default
  Bswitch  : List Int := []
  label    : Bool := false
  separate : Bool := false
  visited  : Bool := false
  deriving DecidableEq

-- The m blocks of a function in depth first order, and its n symbols.
structure FlowGraph (m n : Nat) where
  dfo        : Fin m → Block (Fin m) n
  globsym    : Fin n → SymbolInfo
  wellFormed : ∀ b, ∀ e ∈ (dfo b).Belem, e.WellFormed

-- A vector with one bit set.
def vec_setbit {n : Nat} (i : Fin n) (v : BitVec n) : BitVec n :=
  v ||| BitVec.twoPow n i

-- A bit of a vector.
abbrev vec_testbit {n : Nat} (i : Fin n) (v : BitVec n) : Bool :=
  getElem v i.val i.isLt

@[simp]
theorem vec_setbit_getElem {n : Nat} (i j : Fin n) (v : BitVec n) :
    vec_testbit j (vec_setbit i v) = (vec_testbit j v || decide (i = j)) := by
  have h : decide (j.val = i.val) = decide (i = j) := by
    simp only [Fin.ext_iff, eq_comm]
  simp [vec_setbit, h]

end Compiler.Backend
