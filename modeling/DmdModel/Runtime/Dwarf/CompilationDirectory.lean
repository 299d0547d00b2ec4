import DmdModel.Runtime.Dwarf.StateMachine

-- The compilation directory of the unit that uses a line program. What would read outside of its slice has no result.

namespace Runtime.Dwarf

abbrev Str := List Byte

inductive DW_FORM
  | addr | block2 | block4 | data2 | data4 | data8 | string_ | block | block1 | data1 | flag | sdata | strp | udata
  | ref_addr | ref1 | ref2 | ref4 | ref8 | ref_udata | indirect | sec_offset | exprloc | flag_present | strx | addrx
  | ref_sup4 | strp_sup | data16 | line_strp | ref_sig8 | implicit_const | loclistx | rnglistx | ref_sup8 | strx1
  | strx2 | strx3 | strx4 | addrx1 | addrx2 | addrx3 | addrx4
  deriving DecidableEq, Repr

namespace DW_FORM

def code : DW_FORM → Nat
  | addr           => 1
  | block2         => 3
  | block4         => 4
  | data2          => 5
  | data4          => 6
  | data8          => 7
  | string_        => 8
  | block          => 9
  | block1         => 10
  | data1          => 11
  | flag           => 12
  | sdata          => 13
  | strp           => 14
  | udata          => 15
  | ref_addr       => 16
  | ref1           => 17
  | ref2           => 18
  | ref4           => 19
  | ref8           => 20
  | ref_udata      => 21
  | indirect       => 22
  | sec_offset     => 23
  | exprloc        => 24
  | flag_present   => 25
  | strx           => 26
  | addrx          => 27
  | ref_sup4       => 28
  | strp_sup       => 29
  | data16         => 30
  | line_strp      => 31
  | ref_sig8       => 32
  | implicit_const => 33
  | loclistx       => 34
  | rnglistx       => 35
  | ref_sup8       => 36
  | strx1          => 37
  | strx2          => 38
  | strx3          => 39
  | strx4          => 40
  | addrx1         => 41
  | addrx2         => 42
  | addrx3         => 43
  | addrx4         => 44

def all : List DW_FORM :=
  [addr, block2, block4, data2, data4, data8, string_, block, block1, data1, flag, sdata, strp, udata, ref_addr, ref1,
    ref2, ref4, ref8, ref_udata, indirect, sec_offset, exprloc, flag_present, strx, addrx, ref_sup4, strp_sup, data16,
    line_strp, ref_sig8, implicit_const, loclistx, rnglistx, ref_sup8, strx1, strx2, strx3, strx4, addrx1, addrx2,
    addrx3, addrx4]

-- The member with a code. A byte that was cast need not be one.
def ofCode (n : Nat) : Option DW_FORM :=
  all.find? fun f => f.code == n

end DW_FORM

structure DebugSections where
  info    : List Byte
  abbrev_ : List Byte
  str     : List Byte
  lineStr : List Byte

-- The size of an offset
def offsetSize (is64bitDwarf : Bool) : Nat :=
  if is64bitDwarf then 8 else 4

def readStringz (buffer : List Byte) : Option (Str × List Byte) :=
  if 0 ∈ buffer then
    some (buffer.takeWhile (· ≠ 0), (buffer.dropWhile (· ≠ 0)).drop 1)
  else
    none

-- data = data[size .. $]
def skip (size : Nat) (data : List Byte) : Option (Bool × List Byte) :=
  if size ≤ data.length then some (true, data.drop size) else none

-- A block whose length is in front of it
def skipBlock (size : Nat) (data : List Byte) : Option (Bool × List Byte) := do
  let (length, data) ← read size data
  skip length.toNat data

-- Whether the form is known, and the data behind the value
@[grind =]
def skipForm : (steps : Nat) → (data : List Byte) → (form : Byte) → (is64bitDwarf : Bool) → (addressSize : Byte) →
    Option (Bool × List Byte)
  | 0, _, _, _, _                                     => none
  | steps + 1, data, form, is64bitDwarf, addressSize =>
    match DW_FORM.ofCode form.toNat with
    | none   => some (false, data)
    | some f =>
      match f with
      | .flag_present | .implicit_const => some (true, data)
      | .data1 | .ref1 | .flag | .strx1 | .addrx1 => skip 1 data
      | .data2 | .ref2 | .strx2 | .addrx2 => skip 2 data
      | .strx3 | .addrx3 => skip 3 data
      | .data4 | .ref4 | .ref_sup4 | .strx4 | .addrx4 => skip 4 data
      | .data8 | .ref8 | .ref_sig8 | .ref_sup8 => skip 8 data
      | .data16 => skip 16 data
      | .addr => skip addressSize.toNat data
      | .strp | .strp_sup | .line_strp | .sec_offset | .ref_addr => skip (offsetSize is64bitDwarf) data
      | .udata | .ref_udata | .strx | .addrx | .loclistx | .rnglistx => do
        let (_, data) ← readULEB128 data
        some (true, data)
      | .sdata => do
        let (_, data) ← readSLEB128 data
        some (true, data)
      | .string_ => do
        let (_, data) ← readStringz data
        some (true, data)
      | .block1 => skipBlock 1 data
      | .block2 => skipBlock 2 data
      | .block4 => skipBlock 4 data
      | .block | .exprloc => do
        let (length, data) ← readULEB128 data
        skip length.toNat data
      | .indirect => do
        let (actualForm, copy) ← readULEB128 data
        let (known, copy) ← skipForm steps copy (actualForm.setWidth 8) is64bitDwarf addressSize
        if known then some (true, copy) else some (false, data)

def readStringAt (section_ : List Byte) (offset : BitVec 64) : Option Str :=
  if section_.length ≤ offset.toNat then
    none
  else
    let str := section_.drop offset.toNat
    if 0 ∈ str then some (str.takeWhile (· ≠ 0)) else none

def readStringForm (data : List Byte) (form : Byte) (is64bitDwarf : Bool) (sections : DebugSections) :
    Option (Option Str × List Byte) :=
  match DW_FORM.ofCode form.toNat with
  | some .string_   => do
    let (s, data) ← readStringz data
    some (some s, data)
  | some .strp      => do
    let (offset, data) ← read (offsetSize is64bitDwarf) data
    some (readStringAt sections.str offset, data)
  | some .line_strp => do
    let (offset, data) ← read (offsetSize is64bitDwarf) data
    some (readStringAt sections.lineStr offset, data)
  | _               => do
    let (_, data) ← skipForm (data.length + 1) data form is64bitDwarf 8
    some (none, data)

namespace DW_AT

def stmt_list : BitVec 64 := 0x10
def comp_dir : BitVec 64 := 0x1b

end DW_AT

-- DW_TAG.compile_unit
def compile_unit : BitVec 64 := 0x11

namespace DW_UT

def compile : Byte := 1
def type : Byte := 2
def skeleton : Byte := 4
def split_compile : Byte := 5
def split_type : Byte := 6

end DW_UT

-- An implicit constant follows its form.
def skipImplicit (isImplicit : Bool) (abbrev_ : List Byte) : Option (List Byte) :=
  if isImplicit then (readSLEB128 abbrev_).map Prod.snd else some abbrev_

-- Skips the attribute specifications of a declaration.
def skipSpecs : (steps : Nat) → (abbrev_ : List Byte) → Option (List Byte)
  | 0, _             => none
  | steps + 1, abbrev_ => do
    let (attr, abbrev_) ← readULEB128 abbrev_
    let (form, abbrev_) ← readULEB128 abbrev_
    let abbrev_ ← skipImplicit (form = 33) abbrev_
    if attr = 0 ∧ form = 0 then some abbrev_ else skipSpecs steps abbrev_

-- What follows the code of the declaration, if it is found
def findDeclaration (abbrevCode : BitVec 64) : (steps : Nat) → (abbrev_ : List Byte) → Option (Option (List Byte))
  | 0, _               => none
  | steps + 1, abbrev_ =>
    if abbrev_.length = 0 then
      some none
    else do
      let (code, abbrev_) ← readULEB128 abbrev_
      if code = 0 then
        some none
      else if code = abbrevCode then
        some (some abbrev_)
      else
        let (_, abbrev_) ← readULEB128 abbrev_
        let (_, abbrev_) ← read 1 abbrev_
        let abbrev_ ← skipSpecs (abbrev_.length + 1) abbrev_
        findDeclaration abbrevCode steps abbrev_

-- What the attributes of an entry tell
structure Found where
  compDir     : Option Str := none
  hasStmtList : Bool := false
  stmtList    : BitVec 64 := 0
  deriving DecidableEq, Repr

-- The sizes of the forms that a line program offset is read from
def stmtListSize (is64bitDwarf : Bool) (form : Byte) : Option Nat :=
  match DW_FORM.ofCode form.toNat with
  | some .sec_offset => some (offsetSize is64bitDwarf)
  | some .data4      => some 4
  | some .data8      => some 8
  | _                => none

@[grind =]
def attributes (sections : DebugSections) (is64bitDwarf : Bool) (addressSize : Byte) : (steps : Nat) →
    (abbrev_ unit : List Byte) → Found → Option Found
  | 0, _, _, _                     => none
  | steps + 1, abbrev_, unit, found => do
    let (attr, abbrev_) ← readULEB128 abbrev_
    let (code, abbrev_) ← readULEB128 abbrev_
    let form : Byte := code.setWidth 8
    let abbrev_ ← skipImplicit (form = 33) abbrev_
    if attr = 0 ∧ form = 0 then
      some found
    else if attr = DW_AT.stmt_list then
      match stmtListSize is64bitDwarf form with
      | none      => some { found with hasStmtList := true }
      | some size =>
        let (stmtList, unit) ← read size unit
        attributes sections is64bitDwarf addressSize steps abbrev_ unit
          { found with hasStmtList := true, stmtList := stmtList }
    else if attr = DW_AT.comp_dir then
      let (compDir, unit) ← readStringForm unit form is64bitDwarf sections
      attributes sections is64bitDwarf addressSize steps abbrev_ unit { found with compDir := compDir }
    else
      let (known, unit) ← skipForm (unit.length + 1) unit form is64bitDwarf addressSize
      if known then attributes sections is64bitDwarf addressSize steps abbrev_ unit found else some found

-- The loop goes on to the next unit, or the function returns.
inductive Visit
  | next
  | ret (compDir : Option Str)
  deriving DecidableEq, Repr

structure Header where
  unitType     : Byte := DW_UT.compile
  addressSize  : Byte
  abbrevOffset : BitVec 64

def readHeader (is64bitDwarf : Bool) (unitVersion : BitVec 64) (unit : List Byte) : Option (Header × List Byte) :=
  if 5 ≤ unitVersion.toNat then do
    let (unitType, unit) ← read 1 unit
    let (addressSize, unit) ← read 1 unit
    let (abbrevOffset, unit) ← read (offsetSize is64bitDwarf) unit
    some (⟨unitType.setWidth 8, addressSize.setWidth 8, abbrevOffset⟩, unit)
  else do
    let (abbrevOffset, unit) ← read (offsetSize is64bitDwarf) unit
    let (addressSize, unit) ← read 1 unit
    some (⟨DW_UT.compile, addressSize.setWidth 8, abbrevOffset⟩, unit)

section

variable (sections : DebugSections) (lineProgramOffset : BitVec 64)

-- The first entry of a unit, behind its header
def visitEntry (is64bitDwarf : Bool) (header : Header) (unit : List Byte) : Option Visit :=
  if sections.abbrev_.length ≤ header.abbrevOffset.toNat then
    some .next
  else do
    let (abbrevCode, unit) ← readULEB128 unit
    if abbrevCode = 0 then
      some .next
    else
      let abbrev_ := sections.abbrev_.drop header.abbrevOffset.toNat
      match ← findDeclaration abbrevCode (abbrev_.length + 1) abbrev_ with
      | none         => some .next
      | some abbrev_ =>
        let (tag, abbrev_) ← readULEB128 abbrev_
        let (_, abbrev_) ← read 1 abbrev_
        if tag ≠ compile_unit then
          some .next
        else
          let found ← attributes sections is64bitDwarf header.addressSize (abbrev_.length + 1) abbrev_ unit {}
          if found.hasStmtList ∧ found.stmtList = lineProgramOffset then
            some (.ret found.compDir)
          else
            some .next

def visitUnit (is64bitDwarf : Bool) (unit : List Byte) : Option Visit := do
  let (unitVersion, unit) ← read 2 unit
  if unitVersion.toNat < 2 ∨ 5 < unitVersion.toNat then
    some .next
  else
    let (header, unit) ← readHeader is64bitDwarf unitVersion unit
    if header.unitType = DW_UT.skeleton ∨ header.unitType = DW_UT.split_compile then
      let (_, unit) ← skip 8 unit
      visitEntry sections lineProgramOffset is64bitDwarf header unit
    else if header.unitType = DW_UT.type ∨ header.unitType = DW_UT.split_type then
      some .next
    else
      visitEntry sections lineProgramOffset is64bitDwarf header unit

-- The format and the length of a unit
def readUnitLength (info : List Byte) : Option (Bool × BitVec 64 × List Byte) := do
  let (unitLength, info) ← read 4 info
  if unitLength = 0xFFFFFFFF then
    let (unitLength, info) ← read 8 info
    some (true, unitLength, info)
  else
    some (false, unitLength, info)

def visitUnits : (steps : Nat) → (info : List Byte) → Option (Option Str)
  | 0, _            => none
  | steps + 1, info =>
    if info.length ≤ 4 then
      some none
    else do
      let (is64bitDwarf, unitLength, info) ← readUnitLength info
      if info.length < unitLength.toNat then
        some none
      else
        match ← visitUnit sections lineProgramOffset is64bitDwarf (info.take unitLength.toNat) with
        | .next        => visitUnits steps (info.drop unitLength.toNat)
        | .ret compDir => some compDir

def findCompilationDirectory : Option (Option Str) :=
  visitUnits sections lineProgramOffset (sections.info.length + 1) sections.info

end

end Runtime.Dwarf
