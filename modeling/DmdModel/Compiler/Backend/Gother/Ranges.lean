import DmdModel.Compiler.Backend.Cgelem.Eval
import DmdModel.Lib.ByteMemory

-- How comparisons of variables with constants are rewritten, given the definitions that reach them.
namespace Compiler.Backend.Cgelem.Gother

-- A definition, and the block that it is in.
structure DefNode where
  DNelem  : Elem
  DNblock : Nat

-- What is known of a function: the definitions in it, the successors of its blocks, and of each symbol whether its
-- storage class has reaching definitions, and whether no pointer refers to it.
structure Function where
  defnod      : List DefNode
  Bsucc       : List (List Nat)
  SCRD        : Symbol → Bool
  SFLdistinct : Symbol → Bool

-- An elem, the block that it is in, and the definitions that reach it. Definitions are referred to by their numbers.
structure Elemdata (α : Type) where
  pelem  : α
  pblock : Nat
  rdlist : List Nat

variable [Target] (fn : Function)

def DNelem (d : Nat) : Option Elem :=
  fn.defnod[d]?.map DefNode.DNelem

section eqeqranges

end eqeqranges

section intranges

-- The operator, and what is added or subtracted
def increment (d : Nat) : Option (BinaryOp × Value) :=
  match DNelem fn d with
  | some (.binary op _ (.var ..) (.const ty c)) =>
    if op = .postinc ∨ op = .postdec ∨ op = .addass ∨ op = .minass then some (op, (Elem.const ty c).el_tolong) else none
  | _ => none

def initial (d : Nat) : Option Value :=
  match DNelem fn d with
  | some (.binary .eq _ (.var ..) (.const ty c)) => some (Elem.const ty c).el_tolong
  | _ => none

end intranges

end Compiler.Backend.Cgelem.Gother

-- Runs of functions, as far as the values of variables are concerned.
namespace Compiler.Backend.Cgelem.Gother

-- The bytes of all variables
abbrev Memory := Symbol × Nat → UInt8

abbrev RunState := LastWriter.State (Symbol × Nat) UInt8 Nat

-- A machine that has variables only.
def symbolMemory : Machine Memory Empty where
  address      := fun _ _ => 0
  read         := fun loc n m =>
    match loc with
    | .var v Voffset => BitVec.ofNat 64 (ByteMemory.read (fun q => m (v, q)) Voffset.toNat n)
    | .mem _         => 0
  write        := fun loc n w m =>
    match loc with
    | .var v Voffset =>
      .pure (fun c => if c.1 = v then ByteMemory.write (fun q => m (v, q)) Voffset.toNat n w.toNat c.2 else m c) ()
    | .mem _         => .pure m ()
  leaf         := fun _ _ _ => 0
  unary        := fun _ _ _ _ _ => 0
  binary       := fun _ _ _ _ _ _ _ => 0
  leafEffect   := fun _ _ s => .pure s 0
  unaryEffect  := fun _ _ _ _ s => .pure s 0
  binaryEffect := fun _ _ _ _ _ _ s => .pure s 0

def cells (v : Symbol) (Voffset n : Nat) : Set (Symbol × Nat) :=
  {c | c.1 = v ∧ Voffset ≤ c.2 ∧ c.2 < Voffset + n}

-- The operators that set symbolMemory to constants, or add constants to them.
def assigning : List BinaryOp :=
  [.eq, .addass, .minass, .postinc, .postdec]

variable [Target]

-- A definition is executed. One that sets a variable to a constant, or adds a constant to it, does what it does; others
-- write anything anywhere.
inductive Define (fn : Function) (s : RunState) (d : Nat) (s' : RunState) : Prop
  | assign {op : BinaryOp} {ty ty1 ty2 : Ty} {v : Symbol} {Voffset c w : Value} :
    DNelem fn d = some (.binary op ty (.var ty1 v Voffset) (.const ty2 c)) → op ∈ assigning →
    symbolMemory.eval (.binary op ty (.var ty1 v Voffset) (.const ty2 c)) s.mem = .pure s'.mem w →
    LastWriter.Writes d (cells v Voffset.toNat ty1.tysize) s s' → Define fn s d s'
  | other {e : Elem} {written : Set (Symbol × Nat)} :
    DNelem fn d = some e →
    (∀ op ty ty1 ty2 v Voffset c, e = .binary op ty (.var ty1 v Voffset) (.const ty2 c) → op ∉ assigning) →
    LastWriter.Writes d written s s' → Define fn s d s'

-- The blocks and states that are reached from a block, when each step meets a condition. In a block its definitions are
-- executed in some order.
inductive Run (fn : Function) (meets : RunState → Nat → Prop) (startblock : Nat) : Nat → RunState → Prop
  | start {mem : Memory} :
    Run fn meets startblock startblock { mem, last := fun _ => none }
  | goto {b b' : Nat} {s : RunState} :
    Run fn meets startblock b s → b' ∈ fn.Bsucc.getD b [] → Run fn meets startblock b' s
  | define {b d : Nat} {s s' : RunState} :
    Run fn meets startblock b s → (fn.defnod[d]?.map DefNode.DNblock) = some b → meets s d → Define fn s d s' →
    Run fn meets startblock b s'

-- At an evaluation of a comparison, the bytes of the variable were last written by definitions in its list.
def Sound (rel : Elemdata Elem) (s : RunState) : Prop :=
  match rel.pelem with
  | .binary _ _ (.var ty1 v Voffset) _ => ∀ c ∈ cells v Voffset.toNat ty1.tysize, ∃ d ∈ rel.rdlist, s.last c = some d
  | _ => True

end Compiler.Backend.Cgelem.Gother
