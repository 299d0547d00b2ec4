import Mathlib

-- The line numbers of stack traces.
namespace Runtime.Dwarf

abbrev Byte := BitVec 8

structure StateMachine where
  address         : BitVec 64 := 0
  operationIndex  : BitVec 32 := 0
  fileIndex       : BitVec 32 := 1
  line            : BitVec 32 := 1
  column          : BitVec 32 := 0
  isa             : BitVec 32 := 0
  discriminator   : BitVec 32 := 0
  isStatement     : Bool := false
  isBasicBlock    : Bool := false
  isEndSequence   : Bool := false
  isPrologueEnd   : Bool := false
  isEpilogueBegin : Bool := false

-- The fields are of 32 bits.
structure LocationInfo where
  file : BitVec 32
  line : BitVec 32
  deriving DecidableEq

structure LineNumberProgram where
  minimumInstructionLength       : Byte
  maximumOperationsPerInstruction : Byte
  defaultIsStatement             : Bool
  lineBase                       : Byte
  lineRange                      : Byte
  opcodeBase                     : Byte
  standardOpcodeLengths          : List Byte
  program                        : List Byte

-- A callback has a state of its own. It is told the address, the location and whether it is the end of a sequence,
-- and returns whether there is to be a next call.
abbrev RunStateMachineCallback (σ : Type) :=
  σ → (address : BitVec 64) → LocationInfo → (isEndSequence : Bool) → σ × Bool

-- The lowest byte is the first one. There is no result if there are too few bytes.
def read : (size : Nat) → List Byte → Option (BitVec 64 × List Byte)
  | 0, buffer => some (0, buffer)
  | _ + 1, [] => none
  | n + 1, b :: buffer => (read n buffer).map fun (v, rest) => (v <<< 8 ||| b.setWidth 64, rest)

-- What is added to a value is an `int`, which is shifted by the lowest five bits of the count.
def group (b : Byte) (shift : BitVec 32) : BitVec 64 :=
  ((b &&& 0x7F#8).setWidth 32 <<< (shift.toNat % 32)).signExtend 64

-- The value, the last byte and the shift behind it.
def readGroups (val : BitVec 64) (shift : BitVec 32) : List Byte → Option (BitVec 64 × Byte × BitVec 32 × List Byte)
  | [] => none
  | b :: buffer =>
    let val := val ||| group b shift
    if b &&& 0x80#8 = 0 then some (val, b, shift + 7, buffer) else readGroups val (shift + 7) buffer

def readULEB128 (buffer : List Byte) : Option (BitVec 64 × List Byte) :=
  (readGroups 0 0 buffer).map fun (val, _, _, rest) => (val, rest)

def readSLEB128 (buffer : List Byte) : Option (BitVec 64 × List Byte) :=
  (readGroups 0 0 buffer).map fun (val, b, shift, rest) =>
    if shift.toNat < 64 ∧ b &&& 0x40#8 ≠ 0 then
      (val ||| (-(1#32 <<< (shift.toNat % 32))).signExtend 64, rest)
    else
      (val, rest)

-- `buffer[n .. $]`
def slice (n : BitVec 64) (buffer : List Byte) : Option (List Byte) :=
  if n.toNat ≤ buffer.length then some (buffer.drop n.toNat) else none

-- What follows an opcode.
inductive Next (σ : Type)
  | loop (machine : StateMachine) (program : List Byte) (s : σ)
  | ret (s : σ) (result : Bool)

variable {σ : Type} (lp : LineNumberProgram) (callback : RunStateMachineCallback σ)

-- There is no result if it divides by zero.
def advanceAddressAndOpIndex (machine : StateMachine) (operationAdvance : BitVec 64) : Option StateMachine :=
  let operations := lp.maximumOperationsPerInstruction.setWidth 64
  let index := machine.operationIndex.setWidth 64 + operationAdvance
  if operations = 0 then
    none
  else
    some { machine with
      address        := machine.address + lp.minimumInstructionLength.setWidth 64 * (index / operations)
      operationIndex := (index % operations).setWidth 32 }

-- Calls back, and goes on with what the machine is then.
def report (machine : StateMachine) (isEndSequence : Bool) (next : StateMachine) (program : List Byte) (s : σ) : Next σ :=
  let (s, more) := callback s machine.address { file := machine.fileIndex, line := machine.line } isEndSequence
  if more then .loop next program s else .ret s true

def StateMachine.afterRow (machine : StateMachine) : StateMachine :=
  { machine with isBasicBlock := false, isPrologueEnd := false, isEpilogueBegin := false, discriminator := 0 }

def initial : StateMachine :=
  { isStatement := lp.defaultIsStatement }

def extendedOp (machine : StateMachine) (program : List Byte) (s : σ) : Option (Next σ) := do
  let (len, program) ← readULEB128 program
  let (eopcode, program) ← read 1 program
  match eopcode.toNat with
  | 1 => -- endSequence
    let machine := { machine with isEndSequence := true }
    return report callback machine true (initial lp) program s
  | 2 => -- setAddress
    let (address, program) ← read 8 program
    return .loop { machine with address, operationIndex := 0 } program s
  | 4 => -- setDiscriminator
    let (discriminator, program) ← readULEB128 program
    return .loop { machine with discriminator := discriminator.setWidth 32 } program s
  | _ => -- defineFile, or an unknown one
    let program ← slice (len - 1) program
    return .loop machine program s

def standardOp (opcode : Nat) (machine : StateMachine) (program : List Byte) (s : σ) : Option (Next σ) :=
  match opcode with
  | 0 => extendedOp lp callback machine program s
  | 1 => -- copy
    some (report callback machine false machine.afterRow program s)
  | 2 => do -- advancePC
    let (operationAdvance, program) ← readULEB128 program
    let machine ← advanceAddressAndOpIndex lp machine operationAdvance
    return .loop machine program s
  | 3 => do -- advanceLine
    let (ad, program) ← readSLEB128 program
    return .loop { machine with line := (machine.line.setWidth 64 + ad).setWidth 32 } program s
  | 4 => do -- setFile
    let (index, program) ← readULEB128 program
    return .loop { machine with fileIndex := index.setWidth 32 } program s
  | 5 => do -- setColumn
    let (col, program) ← readULEB128 program
    return .loop { machine with column := col.setWidth 32 } program s
  | 6 => -- negateStatement
    some (.loop { machine with isStatement := !machine.isStatement } program s)
  | 7 => -- setBasicBlock
    some (.loop { machine with isBasicBlock := true } program s)
  | 8 => do -- constAddPC
    if lp.lineRange = 0 then
      none
    else
      let operationAdvance := (255 - lp.opcodeBase.toNat) / lp.lineRange.toNat
      let machine ← advanceAddressAndOpIndex lp machine (BitVec.ofNat 64 operationAdvance)
      return .loop machine program s
  | 9 => do -- fixedAdvancePC
    let (add, program) ← read 2 program
    return .loop { machine with address := machine.address + add, operationIndex := 0 } program s
  | 10 => -- setPrologueEnd
    some (.loop { machine with isPrologueEnd := true } program s)
  | 11 => -- setEpilogueBegin
    some (.loop { machine with isEpilogueBegin := true } program s)
  | 12 => do -- setISA
    let (isa, program) ← readULEB128 program
    return .loop { machine with isa := isa.setWidth 32 } program s
  | _ => -- unknown opcode
    some (.ret s false)

def specialOp (opcode : Nat) (machine : StateMachine) (program : List Byte) (s : σ) : Option (Next σ) := do
  if lp.lineRange = 0 then
    none
  else
    let operationAdvance := opcode / lp.lineRange.toNat
    let machine ← advanceAddressAndOpIndex lp machine (BitVec.ofNat 64 operationAdvance)
    let lineIncrement := lp.lineBase.toInt + (opcode % lp.lineRange.toNat : Nat)
    let machine := { machine with line := machine.line + BitVec.ofInt 32 lineIncrement }
    return report callback machine false machine.afterRow program s

def iteration (opcode : Byte) (machine : StateMachine) (program : List Byte) (s : σ) : Option (Next σ) :=
  if opcode < lp.opcodeBase then
    standardOp lp callback opcode.toNat machine program s
  else
    specialOp lp callback (opcode.toNat - lp.opcodeBase.toNat) machine program s

-- As many iterations as there are steps, at most. There are never more than the program has bytes.
def runLoop : (steps : Nat) → StateMachine → List Byte → σ → Option (σ × Bool)
  | _, _, [], s => some (s, true)
  | 0, _, _ :: _, _ => none
  | steps + 1, machine, opcode :: program, s => do
    match ← iteration lp callback opcode machine program s with
    | .loop machine program s => runLoop steps machine program s
    | .ret s result           => return (s, result)

-- The state of the callback at the end, and whether there was no error. There is no result if the program is left or
-- a division by zero is made.
def runStateMachine (s : σ) : Option (σ × Bool) :=
  runLoop lp callback lp.program.length (initial lp) lp.program s

end Runtime.Dwarf
