import DmdModel.Lib.FixedPoint

-- The tables for exceptions of a function, as the code generator writes them.

namespace Compiler.Backend.DwarfEh

abbrev Byte := BitVec 8

inductive OBJ
  | ELF
  | MACH
  deriving DecidableEq

structure Config where
  objfmt : OBJ
  pic    : Bool

def DW_EH_PE_omit     : Byte := 0xFF
def DW_EH_PE_absptr   : Byte := 0x00
def DW_EH_PE_pcrel    : Byte := 0x10
def DW_EH_PE_indirect : Byte := 0x80
def DW_EH_PE_uleb128  : Byte := 0x01
def DW_EH_PE_udata4   : Byte := 0x03
def DW_EH_PE_sdata4   : Byte := 0x0B

-- What has been written before, the tables, and for each type the four bytes of the reference to it.
structure Tables where
  et         : List Byte
  cstbuf     : List Byte
  atbuf      : List Byte
  typesTable : List (BitVec 32)
  aligned    : et.length % 4 = 0

-- The type is `uint`.
def uint (n : Nat) : Nat :=
  n % 2 ^ 32

def uLEB128size (value : Nat) : Nat :=
  if value / 2 ^ 7 ≠ 0 then uLEB128size (value / 2 ^ 7) + 1 else 1
termination_by value

def writeuLEB128 (value : Nat) : List Byte :=
  let b := BitVec.ofNat 8 (value % 2 ^ 7)
  if value / 2 ^ 7 ≠ 0 then (b ||| 0x80#8) :: writeuLEB128 (value / 2 ^ 7) else [b]
termination_by value

def writesLEB128 (value : Int) : List Byte :=
  let b := BitVec.ofInt 8 (value % 2 ^ 7)
  let rest := value / 2 ^ 7  -- arithmetic right shift
  if (rest = 0 ∧ b &&& 0x40#8 = 0) ∨ (rest = -1 ∧ b &&& 0x40#8 ≠ 0) then
    [b]
  else
    (b ||| 0x80#8) :: writesLEB128 rest
termination_by value.natAbs
decreasing_by
  rename_i hmore
  have hzero : value ≠ 0 := by
    rintro rfl
    exact hmore (.inl ⟨rfl, by subst b; decide⟩)
  have hone : value ≠ -1 := by
    rintro rfl
    exact hmore (.inr ⟨rfl, by subst b; decide⟩)
  omega

namespace Tables

variable (t : Tables) (config : Config)

def startsize : Nat :=
  uint t.et.length

def CallSiteTableSize : Nat :=
  uint t.cstbuf.length

-- The body of the loop. `length` is that of `et` when the base is about to be written.
def nextTTbase (length TTbase : Nat) : Nat :=
  let start := uint (length - t.startsize + uLEB128size TTbase)
  let TTbase := uint (1 + uLEB128size t.CallSiteTableSize + t.CallSiteTableSize + t.atbuf.length)
  let sz := uint (start + TTbase)
  let TTbase := uint (TTbase + uint (2 ^ 32 - sz) % 4)
  uint (TTbase + t.typesTable.length * 4)

def TType : Byte :=
  if config.pic then DW_EH_PE_indirect ||| DW_EH_PE_pcrel ||| DW_EH_PE_sdata4
  else DW_EH_PE_absptr ||| DW_EH_PE_udata4

def CallSiteFormat : Byte :=
  match config.objfmt with
  | .ELF  => DW_EH_PE_absptr ||| DW_EH_PE_uleb128
  | .MACH => DW_EH_PE_absptr ||| DW_EH_PE_udata4

def header : List Byte :=
  t.et ++ [DW_EH_PE_omit, TType config]

def TTbaseConverges (TTbase : Nat) : Prop :=
  FixedPoint.Converges (t.nextTTbase (t.header config).length) 1 TTbase

def reference (s : BitVec 32) : List Byte :=
  [s.setWidth 8, (s >>> 8).setWidth 8, (s >>> 16).setWidth 8, (s >>> 24).setWidth 8]

def afterTTbase (TTbase : Nat) : List Byte :=
  t.header config ++ writeuLEB128 TTbase

def TToffset (TTbase : Nat) : Nat :=
  uint (TTbase + (t.afterTTbase config TTbase).length - t.startsize)

def wholeHeader (TTbase : Nat) : List Byte :=
  t.afterTTbase config TTbase ++ [CallSiteFormat config] ++ writeuLEB128 t.CallSiteTableSize

-- What is written with a base.
def write (TTbase : Nat) : List Byte :=
  let et := t.wholeHeader config TTbase ++ t.cstbuf ++ t.atbuf
  let et := et ++ List.replicate (-(et.length : Int) % 4).toNat 0
  et ++ (t.typesTable.reverse.map reference).flatten

-- The assertion at the end.
def EndsAtTToffset (TTbase : Nat) : Prop :=
  t.TToffset config TTbase = (t.write config TTbase).length - t.startsize

end Tables

end Compiler.Backend.DwarfEh
