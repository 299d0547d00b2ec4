import DmdModel.Lib.Leb128
import DmdModel.Runtime.Dwarf.StateMachine

-- Line number programs as DWARF v4, Section 6.2.5, describes them: what the instructions append to the matrix of rows,
-- and how they are encoded.
namespace Runtime.Dwarf

structure Registers where
  address        : BitVec 64 := 0
  op_index       : Nat := 0
  file           : Nat := 1
  line           : Int := 1
  column         : Nat := 0
  is_stmt        : Bool
  basic_block    : Bool := false
  end_sequence   : Bool := false
  prologue_end   : Bool := false
  epilogue_begin : Bool := false
  isa            : Nat := 0
  discriminator  : Nat := 0

-- An extended opcode has a length, and can have more bytes than its operands need.
inductive Instruction
  | special (opcode : Byte)
  | copy
  | advancePC (n : Leb128)
  | advanceLine (n : Leb128)
  | setFile (n : Leb128)
  | setColumn (n : Leb128)
  | negateStatement
  | setBasicBlock
  | constAddPC
  | fixedAdvancePC (n : BitVec 16)
  | setPrologueEnd
  | setEpilogueBegin
  | setISA (n : Leb128)
  | unknown (opcode : Byte) (operands : List Leb128)
  | endSequence (len : Leb128) (rest : List Byte)
  | setAddress (len : Leb128) (address : BitVec 64) (rest : List Byte)
  | setDiscriminator (len : Leb128) (n : Leb128) (rest : List Byte)
  | defineFile (len : Leb128) (file : List Byte)
  | vendor (len : Leb128) (opcode : Byte) (rest : List Byte)

-- The bytes of a number, the lowest first.
def littleEndian {w : Nat} : (size : Nat) → BitVec w → List Byte
  | 0, _ => []
  | n + 1, v => v.setWidth 8 :: littleEndian n (v >>> 8)

namespace Registers

variable (lp : LineNumberProgram) (r : Registers)

def start : Registers :=
  { is_stmt := lp.defaultIsStatement }

-- Section 6.2.5.1
def advance (operationAdvance : Nat) : Registers :=
  let index := r.op_index + operationAdvance
  let operations := lp.maximumOperationsPerInstruction.toNat
  { r with
    address  := r.address + BitVec.ofNat 64 (lp.minimumInstructionLength.toNat * (index / operations))
    op_index := index % operations }

def appended : Registers :=
  { r with basic_block := false, prologue_end := false, epilogue_begin := false, discriminator := 0 }

-- What a row tells the callback.
def location : LocationInfo where
  file := BitVec.ofNat 32 r.file
  line := BitVec.ofInt 32 r.line

end Registers

namespace Instruction

variable (lp : LineNumberProgram)

-- The registers after an instruction, and the row that it appends.
def exec (r : Registers) : Instruction → Registers × Option Registers
  | special opcode =>
    let adjusted := opcode.toNat - lp.opcodeBase.toNat
    let r := r.advance lp (adjusted / lp.lineRange.toNat)
    let r := { r with line := r.line + (lp.lineBase.toInt + (adjusted % lp.lineRange.toNat : Nat)) }
    (r.appended, some r)
  | copy => (r.appended, some r)
  | advancePC n => (r.advance lp n.unsigned, none)
  | advanceLine n => ({ r with line := r.line + n.signed }, none)
  | setFile n => ({ r with file := n.unsigned }, none)
  | setColumn n => ({ r with column := n.unsigned }, none)
  | negateStatement => ({ r with is_stmt := !r.is_stmt }, none)
  | setBasicBlock => ({ r with basic_block := true }, none)
  | constAddPC => (r.advance lp ((255 - lp.opcodeBase.toNat) / lp.lineRange.toNat), none)
  | fixedAdvancePC n => ({ r with address := r.address + n.setWidth 64, op_index := 0 }, none)
  | setPrologueEnd => ({ r with prologue_end := true }, none)
  | setEpilogueBegin => ({ r with epilogue_begin := true }, none)
  | setISA n => ({ r with isa := n.unsigned }, none)
  | unknown .. => (r, none)
  | endSequence .. => (.start lp, some { r with end_sequence := true })
  | setAddress _ address _ => ({ r with address, op_index := 0 }, none)
  | setDiscriminator _ n _ => ({ r with discriminator := n.unsigned }, none)
  | defineFile .. => (r, none)
  | vendor .. => (r, none)

def bytes : Instruction → List Byte
  | special opcode => [opcode]
  | copy => [1]
  | advancePC n => 2 :: n.bytes
  | advanceLine n => 3 :: n.bytes
  | setFile n => 4 :: n.bytes
  | setColumn n => 5 :: n.bytes
  | negateStatement => [6]
  | setBasicBlock => [7]
  | constAddPC => [8]
  | fixedAdvancePC n => 9 :: littleEndian 2 n
  | setPrologueEnd => [10]
  | setEpilogueBegin => [11]
  | setISA n => 12 :: n.bytes
  | unknown opcode operands => opcode :: operands.flatMap Leb128.bytes
  | endSequence len rest => 0 :: len.bytes ++ 1 :: rest
  | setAddress len address rest => 0 :: len.bytes ++ 2 :: littleEndian 8 address ++ rest
  | setDiscriminator len n rest => 0 :: len.bytes ++ 4 :: n.bytes ++ rest
  | defineFile len file => 0 :: len.bytes ++ 3 :: file
  | vendor len opcode rest => 0 :: len.bytes ++ opcode :: rest

-- The operands are below 2 ^ 27.
def Small (n : Leb128) : Prop :=
  n.unsigned < 2 ^ 27

-- Whether the instruction is one of a header, with the operands that its opcode has. The length of an extended opcode
-- is that of the bytes that follow.
def WellFormed : Instruction → Prop
  | special opcode => lp.opcodeBase ≤ opcode
  | copy => 1 < lp.opcodeBase.toNat
  | advancePC n => 2 < lp.opcodeBase.toNat ∧ Small n
  | advanceLine n => 3 < lp.opcodeBase.toNat ∧ n.signed.natAbs < 2 ^ 27
  | setFile n => 4 < lp.opcodeBase.toNat ∧ Small n
  | setColumn n => 5 < lp.opcodeBase.toNat ∧ Small n
  | negateStatement => 6 < lp.opcodeBase.toNat
  | setBasicBlock => 7 < lp.opcodeBase.toNat
  | constAddPC => 8 < lp.opcodeBase.toNat
  | fixedAdvancePC _ => 9 < lp.opcodeBase.toNat
  | setPrologueEnd => 10 < lp.opcodeBase.toNat
  | setEpilogueBegin => 11 < lp.opcodeBase.toNat
  | setISA n => 12 < lp.opcodeBase.toNat ∧ Small n
  | unknown opcode operands =>
    12 < opcode.toNat ∧ opcode < lp.opcodeBase ∧
      (lp.standardOpcodeLengths[opcode.toNat - 1]?).map BitVec.toNat = some operands.length
  | endSequence len rest => Small len ∧ len.unsigned = 1 + rest.length
  | setAddress len _ rest => Small len ∧ len.unsigned = 1 + 8 + rest.length
  | setDiscriminator len n rest => Small len ∧ len.unsigned = 1 + n.size + rest.length ∧ Small n
  | defineFile len file => Small len ∧ len.unsigned = 1 + file.length
  | vendor len opcode rest => Small len ∧ len.unsigned = 1 + rest.length ∧ opcode.toNat ∉ [1, 2, 3, 4]

-- The rows that a program appends.
def rows (r : Registers) : List Instruction → List Registers
  | [] => []
  | i :: instructions => (i.exec lp r).2.toList ++ rows (i.exec lp r).1 instructions

end Instruction

end Runtime.Dwarf
