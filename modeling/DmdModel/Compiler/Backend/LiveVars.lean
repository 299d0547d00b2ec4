import DmdModel.Compiler.Backend.Block

namespace Compiler.Backend.LiveVars

variable {m n : Nat}

structure GenKill (n : Nat) where
  GEN  : BitVec n
  KILL : BitVec n
  deriving DecidableEq

namespace GenKill

def empty : GenKill n where
  GEN  := 0
  KILL := 0

-- GEN |= v, and not what is in KILL
def gen (gk : GenKill n) (v : BitVec n) : GenKill n :=
  { gk with GEN := (gk.GEN ||| v) &&& ~~~gk.KILL }

-- A reference to a variable.
def genVar (gk : GenKill n) : Symbol n → GenKill n
  | .intab si => if gk.KILL[si] then gk else { gk with GEN := vec_setbit si gk.GEN }
  | .other .. => gk

-- An assignment of tsz bytes to a variable.
def killVar (globsym : Fin n → SymbolInfo) (gk : GenKill n) (Voffset tsz : Nat) :
    Symbol n → GenKill n
  | .intab si =>
    if !gk.GEN[si] && Voffset == 0 && tsz == (globsym si).type_size then
      { gk with KILL := vec_setbit si gk.KILL }
    else
      gk
  | .other .. => gk

-- The arms l and r of a conditional.
def arms (gk l r : GenKill n) : GenKill n :=
  let GEN := gk.GEN ||| ((l.GEN ||| r.GEN) &&& ~~~gk.KILL)
  { GEN, KILL := gk.KILL ||| ((l.KILL &&& r.KILL) &&& ~~~GEN) }

-- A right operand r that may not be executed.
def maybe (gk r : GenKill n) : GenKill n :=
  { gk with GEN := gk.GEN ||| (r.GEN &&& ~~~gk.KILL) }

end GenKill

section

variable (config : Config) (globsym : Fin n → SymbolInfo) (ambigsym : BitVec n)

-- Accumulate GEN and KILL sets for LVs for this elem.
def accumlv (gk : GenKill n) : Elem n → GenKill n
  | .var _ Vsym _ => gk.genVar Vsym
  | .const .. => gk
  | .leaf op _ =>
    match op with
    -- GEN everything not already KILLed
    | .asm => { gk with GEN := BitVec.allOnes n &&& ~~~gk.KILL }
    | _ => gk
  | .unary op _ E1 =>
    match op with
    | .ind | .ucall | .ucallns | .strlen => (accumlv gk E1).gen ambigsym
    | _ => accumlv gk E1
  | .binary op Ety ET E1 E2 =>
    match op with
    | .colon | .colon2 => gk.arms (accumlv .empty E1) (accumlv .empty E2)
    | .andand | .oror => (accumlv gk E1).maybe (accumlv .empty E2)
    | .call | .callns | .strcpy | .memcpy | .memset =>
      (accumlv (accumlv gk E2) E1).gen ambigsym
    | .strcat => (accumlv (accumlv gk E1) E2).gen ambigsym
    | .eq | .streq =>
      -- Avoid GENing the lvalue of an =
      let gk := accumlv gk E2
      match E1 with
      | .var ty Vsym Voffset =>
        gk.killVar globsym Voffset (if op = .streq then ET else ty.tysize) Vsym
      | .unary _ _ t1 | .binary _ _ _ t1 _ => accumlv gk t1
      -- These are no lvalues.
      | .const .. | .leaf .. => gk
    | .memcmp | .strcmp | .bt => (accumlv (accumlv gk E1) E2).gen ambigsym
    | _ =>
      if ERTOL config op Ety then
        -- Note that lvalues of op=,i++,i-- elems are GENed.
        accumlv (accumlv gk E2) E1
      else
        accumlv (accumlv gk E1) E2

def lvelem : Option (Elem n) → GenKill n
  | none => .empty
  | some e => accumlv config globsym ambigsym .empty e

end

def vecOf (p : Fin n → Bool) : BitVec n :=
  BitVec.ofFnLE p

-- The variables that could be referenced by a *e or a call.
def ambigsym (g : FlowGraph m n) : BitVec n :=
  vecOf fun i => !(g.globsym i).SFLdistinct

def lvgenkill (config : Config) (g : FlowGraph m n) (b : Fin m) : GenKill n :=
  lvelem config g.globsym (ambigsym g) (g.dfo b).Belem

-- The variables that are live on exit from the function.
def livexit (g : FlowGraph m n) : BitVec n :=
  vecOf fun i => (g.globsym i).SFLlivexit

structure LvSets (m n : Nat) where
  Binlv  : Fin m → BitVec n
  Boutlv : Fin m → BitVec n

section

variable (config : Config) (g : FlowGraph m n)

-- Bout = union of Bins of all successors to B; livexit without successors
def unionOfSuccs (Binlv : Fin m → BitVec n) (b : Fin m) : BitVec n :=
  match (g.dfo b).Bsucc with
  | [] => livexit g
  | s :: succs => succs.foldl (fun v s => v ||| Binlv s) (Binlv s)

-- Bin = (Bout - Bkill) | Bgen
def transfer (gk : GenKill n) (Bout : BitVec n) : BitVec n :=
  (Bout &&& ~~~gk.KILL) ||| gk.GEN

def flowlvBlock (s : LvSets m n × Bool) (b : Fin m) : LvSets m n × Bool :=
  let (sets, anychng) := s
  let Bout := unionOfSuccs g sets.Binlv b
  let tmp := transfer (lvgenkill config g b) Bout
  ({ Binlv := Function.update sets.Binlv b tmp, Boutlv := Function.update sets.Boutlv b Bout },
    anychng || tmp != sets.Binlv b)

-- One pass over the blocks in reverse DFO order.
def flowlvPass (sets : LvSets m n) : LvSets m n × Bool :=
  (List.finRange m).reverse.foldl (flowlvBlock config g) (sets, false)

-- The passes that remain until `assert(cnt < 50)` fails.
def flowlvLoop : Nat → LvSets m n → Option (LvSets m n)
  | 0, _ => none
  | remaining + 1, sets =>
    let (sets, anychng) := flowlvPass config g sets
    if anychng then flowlvLoop remaining sets else some sets

-- The sets of live variables; none if an assertion fails.
def flowlv : Option (LvSets m n) :=
  flowlvLoop config g 49
    { Binlv := fun b => (lvgenkill config g b).GEN, Boutlv := fun _ => 0 }

end

end Compiler.Backend.LiveVars
