import DmdModel.Runtime.Dwarf.Theorems.Reads

namespace Runtime.Dwarf

-- The machine that has the contents of registers.
def Registers.machine (r : Registers) : StateMachine where
  address         := r.address
  operationIndex  := BitVec.ofNat 32 r.op_index
  fileIndex       := BitVec.ofNat 32 r.file
  line            := BitVec.ofInt 32 r.line
  column          := BitVec.ofNat 32 r.column
  isa             := BitVec.ofNat 32 r.isa
  discriminator   := BitVec.ofNat 32 r.discriminator
  isStatement     := r.is_stmt
  isBasicBlock    := r.basic_block
  isEndSequence   := r.end_sequence
  isPrologueEnd   := r.prologue_end
  isEpilogueBegin := r.epilogue_begin

namespace Instruction

-- Whether an instruction has an opcode that is known.
def known : Instruction → Bool
  | unknown .. => false
  | _ => true

-- The instructions whose operands are read: negative numbers have at most four groups, and the known extended opcodes
-- that are not skipped have no more bytes than their operands.
def Readable : Instruction → Prop
  | advanceLine n => n.last.toNat < 64 ∨ n.size ≤ 4
  | endSequence _ rest => rest = []
  | setAddress _ _ rest => rest = []
  | setDiscriminator _ _ rest => rest = []
  | _ => True

end Instruction

section

variable {σ : Type} {lp : LineNumberProgram} {callback : RunStateMachineCallback σ} {r : Registers} {s : σ}
variable {program rest : List Byte} {n : Nat} {i : Instruction}

-- What the callback is told about a row.
def called (callback : RunStateMachineCallback σ) (s : σ) (r : Registers) : σ :=
  (callback s r.address r.location r.end_sequence).1

theorem report_eq (hcb : ∀ s a l e, (callback s a l e).2 = true) {machine : StateMachine} :
    report callback r.machine r.end_sequence machine program s = .loop machine program (called callback s r) := by
  have hmore := hcb s r.address r.location r.end_sequence
  rw [report]
  show (if (callback s r.address r.location r.end_sequence).2 = true then _ else _) = _
  rw [if_pos hmore]
  rfl

theorem machine_afterRow : r.machine.afterRow = r.appended.machine :=
  rfl

theorem Registers.machine_line {line : Int} : { r.machine with line := r.machine.line + BitVec.ofInt 32 line } =
    Registers.machine { r with line := r.line + line } := by
  rw [Registers.machine, Registers.machine, BitVec.ofInt_add]

theorem machine_initial : initial lp = (Registers.start lp).machine :=
  rfl

-- The operation index is below the number of operations, so that nothing overflows.
theorem advanceAddressAndOpIndex_eq (hops : 0 < lp.maximumOperationsPerInstruction.toNat)
    (hr : r.op_index < lp.maximumOperationsPerInstruction.toNat) (hn : n < 2 ^ 28) :
    advanceAddressAndOpIndex lp r.machine (BitVec.ofNat 64 n) = some (r.advance lp n).machine := by
  have hlt := lp.maximumOperationsPerInstruction.isLt
  have hops64 : (lp.maximumOperationsPerInstruction.setWidth 64).toNat = lp.maximumOperationsPerInstruction.toNat := by
    rw [BitVec.toNat_setWidth]
    omega
  have hindex : ((BitVec.ofNat 32 r.op_index).setWidth 64 + BitVec.ofNat 64 n).toNat = r.op_index + n := by
    rw [BitVec.toNat_add, BitVec.toNat_setWidth, BitVec.toNat_ofNat, BitVec.toNat_ofNat]
    omega
  have hne : lp.maximumOperationsPerInstruction.setWidth 64 ≠ 0 := by
    rw [Ne, ← BitVec.toNat_inj, hops64]
    exact Nat.ne_of_gt hops
  rw [advanceAddressAndOpIndex]
  refine (if_neg hne).trans (congrArg some ?_)
  rw [Registers.machine, Registers.machine, Registers.advance]
  congr 1
  case e_address =>
    refine congrArg (r.address + ·) (BitVec.toNat_inj.mp ?_)
    show (_ * (((BitVec.ofNat 32 r.op_index).setWidth 64 + BitVec.ofNat 64 n) / _)).toNat = _
    rw [BitVec.toNat_mul, BitVec.toNat_udiv, hindex, hops64, BitVec.toNat_setWidth, BitVec.toNat_ofNat, Nat.mod_mul_mod]
  case e_operationIndex =>
    refine BitVec.toNat_inj.mp ?_
    show ((((BitVec.ofNat 32 r.op_index).setWidth 64 + BitVec.ofNat 64 n) % _).setWidth 32).toNat = _
    rw [BitVec.toNat_setWidth, BitVec.toNat_umod, hindex, hops64, BitVec.toNat_ofNat]

theorem iteration_standard {machine : StateMachine} {opcode : Nat} (hlt : opcode < 256) (h : opcode < lp.opcodeBase.toNat) :
    iteration lp callback (BitVec.ofNat 8 opcode) machine program s = standardOp lp callback opcode machine program s := by
  have hval : (BitVec.ofNat 8 opcode).toNat = opcode := by
    rw [BitVec.toNat_ofNat]
    exact Nat.mod_eq_of_lt hlt
  have hc : BitVec.ofNat 8 opcode < lp.opcodeBase := by
    rwa [BitVec.lt_def, hval]
  rw [iteration, if_pos hc, hval]

-- What an extended opcode does, once its length is read.
def extended (lp : LineNumberProgram) (callback : RunStateMachineCallback σ) (len : BitVec 64) (eopcode : Nat)
    (machine : StateMachine) (program : List Byte) (s : σ) : Option (Next σ) := do
  match eopcode with
  | 1 => return report callback { machine with isEndSequence := true } true (initial lp) program s
  | 2 =>
    let (address, program) ← read 8 program
    return .loop { machine with address, operationIndex := 0 } program s
  | 4 =>
    let (discriminator, program) ← readULEB128 program
    return .loop { machine with discriminator := discriminator.setWidth 32 } program s
  | _ =>
    let program ← slice (len - 1) program
    return .loop machine program s

theorem extended_eq {machine : StateMachine} {len : Leb128} {opcode : Byte} (hbase : 0 < lp.opcodeBase.toNat)
    (hlen : len.unsigned < 2 ^ 28) : iteration lp callback 0 machine (len.bytes ++ opcode :: program) s =
      extended lp callback (BitVec.ofNat 64 len.unsigned) opcode.toNat machine program s := by
  have hval : (opcode.setWidth 64).toNat = opcode.toNat := by
    rw [BitVec.toNat_setWidth]
    omega
  have hstd : iteration lp callback 0 machine (len.bytes ++ opcode :: program) s = _ :=
    iteration_standard (by decide) hbase
  rw [hstd, standardOp, extendedOp, readULEB128_bytes hlen]
  simp only [Option.bind_eq_bind, Option.bind_some, read_one, hval]
  rfl

theorem slice_append {payload : List Byte} (hn : n = 1 + payload.length) (hlt : n < 2 ^ 28) :
    slice (BitVec.ofNat 64 n - 1) (payload ++ rest) = some rest := by
  have hsub : (BitVec.ofNat 64 n - 1).toNat = payload.length := by
    rw [show (1 : BitVec 64) = BitVec.ofNat 64 1 from rfl, BitVec.toNat_sub, BitVec.toNat_ofNat, BitVec.toNat_ofNat]
    omega
  rw [slice, hsub, if_pos (by rw [List.length_append]; omega), List.drop_left]

-- An extended opcode that is skipped
theorem extendedOp_skip {machine : StateMachine} {len : Leb128} {opcode : Byte} {payload : List Byte}
    (hbase : 0 < lp.opcodeBase.toNat) (hlen : len.unsigned = 1 + payload.length) (hlt : len.unsigned < 2 ^ 28)
    (hop : opcode.toNat ∉ [1, 2, 4]) :
    iteration lp callback 0 machine (len.bytes ++ opcode :: (payload ++ rest)) s = some (.loop machine rest s) := by
  rw [extended_eq hbase hlt, extended.eq_def]
  split
  case h_1 h1 => exact absurd (by rw [h1]; decide) hop
  case h_2 h2 => exact absurd (by rw [h2]; decide) hop
  case h_3 h4 => exact absurd (by rw [h4]; decide) hop
  case h_4    => rw [slice_append hlen hlt]; rfl

-- A header that can be used
structure Valid (lp : LineNumberProgram) : Prop where
  lineRange  : 0 < lp.lineRange.toNat
  operations : 0 < lp.maximumOperationsPerInstruction.toNat
  opcodeBase : 0 < lp.opcodeBase.toNat

theorem setWidth_operand {n : Nat} : (BitVec.ofNat 64 n).setWidth 32 = BitVec.ofNat 32 n :=
  BitVec.setWidth_ofNat_of_le (by decide) n

theorem setWidth_ofInt {v : Int} : (BitVec.ofInt 64 v).setWidth 32 = BitVec.ofInt 32 v := by
  rw [← BitVec.toNat_inj, BitVec.toNat_setWidth, BitVec.toNat_ofInt, BitVec.toNat_ofInt]
  omega

-- An iteration does what the instruction does that it begins at, and ends behind it.
theorem iteration_bytes (hlp : Valid lp) (hcb : ∀ s a l e, (callback s a l e).2 = true)
    (hr : r.op_index < lp.maximumOperationsPerInstruction.toNat) (he : r.end_sequence = false) (hwf : i.WellFormed lp)
    (hi : i.Readable) (hk : i.known = true) : ∃ opcode operands, i.bytes = opcode :: operands ∧
      iteration lp callback opcode r.machine (operands ++ rest) s =
        some (.loop (i.exec lp r).1.machine rest ((i.exec lp r).2.toList.foldl (called callback) s)) := by
  have hrange : lp.lineRange ≠ 0 := by
    rintro h0
    exact absurd hlp.lineRange (by rw [h0]; decide)
  cases i
  case special opcode =>
    have hlt := opcode.isLt
    have hge : ¬opcode < lp.opcodeBase := BitVec.not_lt.mpr hwf
    have hadv : (opcode.toNat - lp.opcodeBase.toNat) / lp.lineRange.toNat < 2 ^ 28 :=
      Nat.lt_of_le_of_lt (Nat.div_le_self _ _) (by omega)
    refine ⟨opcode, [], rfl, (if_neg hge).trans ((if_neg hrange).trans ?_)⟩
    show (advanceAddressAndOpIndex lp r.machine (BitVec.ofNat 64 _)).bind _ = _
    rw [advanceAddressAndOpIndex_eq hlp.operations hr hadv, Option.bind_some]
    refine congrArg some ?_
    rw [← he, Registers.machine_line]
    exact report_eq hcb
  case copy =>
    have hb : 1 < lp.opcodeBase.toNat := hwf
    refine ⟨1, [], rfl, (iteration_standard (by decide) hb).trans (congrArg some ?_)⟩
    rw [machine_afterRow, ← he]
    exact report_eq hcb
  case advancePC n =>
    obtain ⟨hb, hn⟩ := hwf
    have hn : n.unsigned < 2 ^ 28 := Nat.lt_trans hn (by decide)
    refine ⟨2, n.bytes, rfl, (iteration_standard (by decide) hb).trans ?_⟩
    show (readULEB128 (n.bytes ++ rest)).bind _ = _
    rw [readULEB128_bytes hn, Option.bind_some]
    show (advanceAddressAndOpIndex lp r.machine (BitVec.ofNat 64 n.unsigned)).bind _ = _
    rw [advanceAddressAndOpIndex_eq hlp.operations hr hn]
    rfl
  case advanceLine n =>
    obtain ⟨hb, hn⟩ := hwf
    have hlt : n.unsigned < 2 ^ 28 := by
      rw [Leb128.signed] at hn
      split at hn
      case isTrue  => omega
      case isFalse hlast =>
        have hpow : 2 ^ (7 * n.size) ≤ 2 ^ 28 :=
          Nat.pow_le_pow_right (by decide) (Nat.mul_le_mul_left 7 (hi.resolve_left hlast))
        exact Nat.lt_of_lt_of_le Leb128.unsigned_lt hpow
    refine ⟨3, n.bytes, rfl, (iteration_standard (by decide) hb).trans ?_⟩
    show (readSLEB128 (n.bytes ++ rest)).bind _ = _
    rw [readSLEB128_bytes hlt hi, Option.bind_some]
    refine congrArg (fun line => some (Next.loop { r.machine with line } rest s)) ?_
    rw [BitVec.setWidth_add _ _ (by decide), BitVec.setWidth_setWidth_of_le _ (by decide), setWidth_ofInt,
      BitVec.setWidth_eq]
    exact (BitVec.ofInt_add _ _).symm
  case setFile n =>
    obtain ⟨hb, hn⟩ := hwf
    refine ⟨4, n.bytes, rfl, (iteration_standard (by decide) hb).trans ?_⟩
    rw [standardOp, readULEB128_bytes (Nat.lt_trans hn (by decide))]
    simp only [Option.bind_eq_bind, Option.bind_some, setWidth_operand]
    rfl
  case setColumn n =>
    obtain ⟨hb, hn⟩ := hwf
    refine ⟨5, n.bytes, rfl, (iteration_standard (by decide) hb).trans ?_⟩
    rw [standardOp, readULEB128_bytes (Nat.lt_trans hn (by decide))]
    simp only [Option.bind_eq_bind, Option.bind_some, setWidth_operand]
    rfl
  case negateStatement =>
    have hb : 6 < lp.opcodeBase.toNat := hwf
    exact ⟨6, [], rfl, iteration_standard (by decide) hb⟩
  case setBasicBlock =>
    have hb : 7 < lp.opcodeBase.toNat := hwf
    exact ⟨7, [], rfl, iteration_standard (by decide) hb⟩
  case constAddPC =>
    have hb : 8 < lp.opcodeBase.toNat := hwf
    have hadv : (255 - lp.opcodeBase.toNat) / lp.lineRange.toNat < 2 ^ 28 :=
      Nat.lt_of_le_of_lt (Nat.div_le_self _ _) (by omega)
    refine ⟨8, [], rfl, (iteration_standard (by decide) hb).trans ((if_neg hrange).trans ?_)⟩
    show (advanceAddressAndOpIndex lp r.machine (BitVec.ofNat 64 _)).bind _ = _
    rw [advanceAddressAndOpIndex_eq hlp.operations hr hadv]
    rfl
  case fixedAdvancePC n =>
    have hb : 9 < lp.opcodeBase.toNat := hwf
    refine ⟨9, littleEndian 2 n, rfl, (iteration_standard (by decide) hb).trans ?_⟩
    rw [standardOp, read_littleEndian (by decide), Nat.mod_eq_of_lt n.isLt, BitVec.ofNat_toNat]
    rfl
  case setPrologueEnd =>
    have hb : 10 < lp.opcodeBase.toNat := hwf
    exact ⟨10, [], rfl, iteration_standard (by decide) hb⟩
  case setEpilogueBegin =>
    have hb : 11 < lp.opcodeBase.toNat := hwf
    exact ⟨11, [], rfl, iteration_standard (by decide) hb⟩
  case setISA n =>
    obtain ⟨hb, hn⟩ := hwf
    refine ⟨12, n.bytes, rfl, (iteration_standard (by decide) hb).trans ?_⟩
    rw [standardOp, readULEB128_bytes (Nat.lt_trans hn (by decide))]
    simp only [Option.bind_eq_bind, Option.bind_some, setWidth_operand]
    rfl
  case unknown => cases hk
  case endSequence len rest' =>
    obtain rfl : rest' = [] := hi
    obtain ⟨hlen, -⟩ := hwf
    refine ⟨0, _, rfl, ?_⟩
    show iteration lp callback 0 r.machine (len.bytes ++ [1] ++ rest) s = _
    rw [List.append_assoc, List.cons_append, extended_eq hlp.opcodeBase (Nat.lt_trans hlen (by decide))]
    refine congrArg some ?_
    exact @report_eq σ callback { r with end_sequence := true } s rest hcb (initial lp)
  case setAddress len address rest' =>
    obtain rfl : rest' = [] := hi
    obtain ⟨hlen, -⟩ := hwf
    refine ⟨0, _, rfl, ?_⟩
    show iteration lp callback 0 r.machine (len.bytes ++ 2 :: littleEndian 8 address ++ [] ++ rest) s = _
    rw [List.append_nil, List.append_assoc, List.cons_append, extended_eq hlp.opcodeBase (Nat.lt_trans hlen (by decide)),
      extended.eq_def]
    show (read 8 (littleEndian 8 address ++ rest)).bind _ = _
    rw [read_littleEndian (by decide), Nat.mod_eq_of_lt address.isLt, BitVec.ofNat_toNat, BitVec.setWidth_eq]
    rfl
  case setDiscriminator len n rest' =>
    obtain rfl : rest' = [] := hi
    obtain ⟨hlen, -, hn⟩ := hwf
    refine ⟨0, _, rfl, ?_⟩
    show iteration lp callback 0 r.machine (len.bytes ++ 4 :: n.bytes ++ [] ++ rest) s = _
    rw [List.append_nil, List.append_assoc, List.cons_append, extended_eq hlp.opcodeBase (Nat.lt_trans hlen (by decide)),
      extended.eq_def]
    show (readULEB128 (n.bytes ++ rest)).bind _ = _
    rw [readULEB128_bytes (Nat.lt_trans hn (by decide)), Option.bind_some]
    exact congrArg (fun discriminator => some (Next.loop { r.machine with discriminator } rest s)) setWidth_operand
  case defineFile len file =>
    obtain ⟨hlt, hlen⟩ := hwf
    refine ⟨0, _, rfl, ?_⟩
    show iteration lp callback 0 r.machine (len.bytes ++ 3 :: file ++ rest) s = _
    rw [List.append_assoc, List.cons_append]
    exact extendedOp_skip hlp.opcodeBase hlen (Nat.lt_trans hlt (by decide)) (by decide)
  case vendor len opcode rest' =>
    obtain ⟨hlt, hlen, hop⟩ := hwf
    refine ⟨0, _, rfl, ?_⟩
    show iteration lp callback 0 r.machine (len.bytes ++ opcode :: rest' ++ rest) s = _
    rw [List.append_assoc, List.cons_append]
    refine extendedOp_skip hlp.opcodeBase hlen (Nat.lt_trans hlt (by decide)) fun hmem => hop ?_
    exact (by decide : [1, 2, 4] ⊆ [1, 2, 3, 4]) hmem

-- What an instruction keeps.
theorem exec_invariant (hlp : Valid lp) (hr : r.op_index < lp.maximumOperationsPerInstruction.toNat)
    (he : r.end_sequence = false) : (i.exec lp r).1.op_index < lp.maximumOperationsPerInstruction.toNat ∧
      (i.exec lp r).1.end_sequence = false := by
  have hadv (n : Nat) : (r.advance lp n).op_index < lp.maximumOperationsPerInstruction.toNat :=
    Nat.mod_lt _ hlp.operations
  cases i
  case special        => exact ⟨hadv _, he⟩
  case advancePC      => exact ⟨hadv _, he⟩
  case constAddPC     => exact ⟨hadv _, he⟩
  case fixedAdvancePC => exact ⟨hlp.operations, he⟩
  case setAddress     => exact ⟨hlp.operations, he⟩
  case endSequence    => exact ⟨hlp.operations, rfl⟩
  all_goals exact ⟨hr, he⟩

theorem iteration_unknown {opcode : Byte} {operands : List Leb128} {machine : StateMachine}
    (hwf : (Instruction.unknown opcode operands).WellFormed lp) :
    iteration lp callback opcode machine program s = some (.ret s false) := by
  obtain ⟨hop, hlt, -⟩ := hwf
  rw [iteration, if_pos hlt, standardOp.eq_def]
  split
  case h_14 => rfl
  all_goals omega

-- A program calls back with the rows that its instructions append, up to the first one that is unknown.
theorem runLoop_bytes (hlp : Valid lp) (hcb : ∀ s a l e, (callback s a l e).2 = true) {steps : Nat}
    {instructions : List Instruction} (hwf : ∀ i ∈ instructions, i.WellFormed lp) (hi : ∀ i ∈ instructions, i.Readable)
    (hr : r.op_index < lp.maximumOperationsPerInstruction.toNat) (he : r.end_sequence = false)
    (hsteps : (instructions.flatMap Instruction.bytes).length ≤ steps) :
    runLoop lp callback steps r.machine (instructions.flatMap Instruction.bytes) s =
      some ((Instruction.rows lp r (instructions.takeWhile Instruction.known)).foldl (called callback) s,
        instructions.all Instruction.known) := by
  induction instructions generalizing r s steps
  case nil =>
    cases steps <;> rfl
  case cons i instructions hind =>
    obtain ⟨hwfi, hwf⟩ := List.forall_mem_cons.mp hwf
    obtain ⟨hii, hi⟩ := List.forall_mem_cons.mp hi
    rw [List.flatMap_cons] at hsteps ⊢
    cases hk : i.known
    case false =>
      cases i
      case unknown opcode operands =>
        obtain ⟨steps, rfl⟩ : ∃ n, steps = n + 1 := Nat.exists_eq_succ_of_ne_zero (by
          rintro rfl
          cases hsteps)
        rw [List.takeWhile_cons_of_neg (Bool.eq_false_iff.mp hk)]
        show (iteration lp callback opcode r.machine _ s).bind _ = _
        rw [iteration_unknown hwfi]
        rfl
      all_goals cases hk
    case true =>
      obtain ⟨opcode, operands, hbytes, hiter⟩ := @iteration_bytes σ lp callback r s
        (instructions.flatMap Instruction.bytes) i hlp hcb hr he hwfi hii hk
      obtain ⟨hr', he'⟩ := exec_invariant (i := i) hlp hr he
      rw [hbytes, List.cons_append] at hsteps ⊢
      obtain ⟨steps, rfl⟩ : ∃ n, steps = n + 1 := Nat.exists_eq_succ_of_ne_zero (by
        rintro rfl
        cases hsteps)
      rw [List.takeWhile_cons_of_pos hk, List.all_cons, hk, Instruction.rows, List.foldl_append]
      show (iteration lp callback opcode r.machine _ s).bind _ = _
      rw [hiter, Option.bind_some]
      refine hind hwf hi hr' he' ?_
      rw [List.length_cons, List.length_append] at hsteps
      omega

-- A callback that never stops is called with the rows that a program appends, up to the first instruction that is
-- unknown. That there is none is what is returned.
theorem runStateMachine_rows (hlp : Valid lp) (hcb : ∀ s a l e, (callback s a l e).2 = true)
    {instructions : List Instruction} (hwf : ∀ i ∈ instructions, i.WellFormed lp) (hi : ∀ i ∈ instructions, i.Readable)
    (hprogram : lp.program = instructions.flatMap Instruction.bytes) :
    runStateMachine lp callback s =
      some ((Instruction.rows lp (.start lp) (instructions.takeWhile Instruction.known)).foldl (called callback) s,
        instructions.all Instruction.known) := by
  rw [runStateMachine, machine_initial, hprogram]
  exact runLoop_bytes hlp hcb hwf hi hlp.operations rfl (Nat.le_refl _)

end

section

-- A callback that collects what it is told.
def collect : RunStateMachineCallback (List (BitVec 64 × LocationInfo × Bool)) :=
  fun s address location isEndSequence => (s ++ [(address, location, isEndSequence)], true)

-- A header as compilers write it, with all of the standard opcodes and those that are unknown.
def programOf (unknown : List Byte) (instructions : List Instruction) : LineNumberProgram where
  minimumInstructionLength        := 1
  maximumOperationsPerInstruction := 1
  defaultIsStatement              := true
  lineBase                        := -5
  lineRange                       := 14
  opcodeBase                      := 13 + BitVec.ofNat 8 unknown.length
  standardOpcodeLengths           := [0, 1, 1, 1, 1, 0, 0, 0, 1, 0, 0, 1] ++ unknown
  program                         := instructions.flatMap Instruction.bytes

-- A function of three lines
def threeLines : List Instruction :=
  [.setAddress ⟨[], 9⟩ 0x401000 [], .special 75, .advanceLine ⟨[], 0x7E⟩, .copy, .endSequence ⟨[], 1⟩ []]

theorem runStateMachine_threeLines : runStateMachine (programOf [] threeLines) collect [] =
    some ([(0x401004, ⟨1, 2⟩, false), (0x401004, ⟨1, 0⟩, false), (0x401004, ⟨1, 0⟩, true)], true) := by
  have hwf : ∀ i ∈ threeLines, i.WellFormed (programOf [] threeLines) := by
    intro i hi
    simp only [threeLines, List.mem_cons, List.not_mem_nil, or_false] at hi
    obtain rfl | rfl | rfl | rfl | rfl := hi
    all_goals
      first
      | exact (by decide : (13 : Byte) ≤ 75)
      | exact (by decide : 1 < 13)
      | exact ⟨(by decide : _ < _), (by decide : _ = _)⟩
      | exact ⟨(by decide : 3 < 13), (by decide : _ < _)⟩
  have hi : ∀ i ∈ threeLines, i.Readable := by
    intro i hi
    simp only [threeLines, List.mem_cons, List.not_mem_nil, or_false] at hi
    obtain rfl | rfl | rfl | rfl | rfl := hi
    · rfl
    · trivial
    · exact .inr (by decide)
    · trivial
    · rfl
  have hlp : Valid (programOf [] threeLines) := ⟨by decide, by decide, by decide⟩
  refine (runStateMachine_rows hlp (fun _ _ _ _ => rfl) hwf hi rfl).trans ?_
  decide

-- The rows that a program appends, as the callback should be told them.
def expected (lp : LineNumberProgram) (instructions : List Instruction) : Option (List (BitVec 64 × LocationInfo × Bool) × Bool) :=
  some ((Instruction.rows lp (.start lp) instructions).foldl (called collect) [], true)

-- An unknown standard opcode without operands ends the run, a negative operand of five groups is read with wrong bits,
-- and what follows the operands of a known extended opcode is taken for opcodes.
def unknownOpcode : List Instruction :=
  [.unknown 13 [], .copy]

def fiveGroups : List Instruction :=
  [.advanceLine ⟨[0, 0x78, 0x7F, 0x7F], 0x7F⟩, .copy]

def longerLength : List Instruction :=
  [.endSequence ⟨[], 2⟩ [1]]

theorem runStateMachine_differs :
    (∀ i ∈ unknownOpcode, i.WellFormed (programOf [0] unknownOpcode)) ∧
    runStateMachine (programOf [0] unknownOpcode) collect [] ≠ expected (programOf [0] unknownOpcode) unknownOpcode ∧
    (∀ i ∈ fiveGroups, i.WellFormed (programOf [] fiveGroups)) ∧
    runStateMachine (programOf [] fiveGroups) collect [] ≠ expected (programOf [] fiveGroups) fiveGroups ∧
    (∀ i ∈ longerLength, i.WellFormed (programOf [] longerLength)) ∧
    runStateMachine (programOf [] longerLength) collect [] ≠ expected (programOf [] longerLength) longerLength := by
  refine ⟨?_, by decide, ?_, by decide, ?_, by decide⟩
  · intro i hi
    simp only [unknownOpcode, List.mem_cons, List.not_mem_nil, or_false] at hi
    obtain rfl | rfl := hi
    · exact ⟨by decide, by decide, by decide⟩
    · exact (by decide : 1 < 14)
  · intro i hi
    simp only [fiveGroups, List.mem_cons, List.not_mem_nil, or_false] at hi
    obtain rfl | rfl := hi
    · exact ⟨by decide, by decide⟩
    · exact (by decide : 1 < 13)
  · intro i hi
    simp only [longerLength, List.mem_cons, List.not_mem_nil, or_false] at hi
    obtain rfl := hi
    exact ⟨(by decide : _ < _), by decide⟩

end

end Runtime.Dwarf
