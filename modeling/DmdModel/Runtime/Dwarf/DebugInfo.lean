import DmdModel.Runtime.Dwarf.LineProgram
import DmdModel.Runtime.Dwarf.CompilationDirectory

-- What the sections .debug_info and .debug_abbrev are made of.

namespace Runtime.Dwarf

-- The sizes of the values of a form, where all of them have the same one
def DW_FORM.size (is64bitDwarf : Bool) (addressSize : Nat) : DW_FORM → Option Nat
  | .flag_present | .implicit_const => some 0
  | .data1 | .ref1 | .flag | .strx1 | .addrx1 => some 1
  | .data2 | .ref2 | .strx2 | .addrx2 => some 2
  | .strx3 | .addrx3 => some 3
  | .data4 | .ref4 | .ref_sup4 | .strx4 | .addrx4 => some 4
  | .data8 | .ref8 | .ref_sig8 | .ref_sup8 => some 8
  | .data16 => some 16
  | .addr => some addressSize
  | .strp | .strp_sup | .line_strp | .sec_offset | .ref_addr => some (offsetSize is64bitDwarf)
  | _ => none

-- A number of at most ten bytes that is below 2 ^ 31
def Fits (n : Leb128) : Prop :=
  n.size ≤ 10 ∧ n.unsigned < 2 ^ 31

-- The bytes that are a value of a form
inductive Encoded (is64bitDwarf : Bool) (addressSize : Byte) : DW_FORM → List Byte → Prop
  | fixed {f : DW_FORM} {value : List Byte} (h : f.size is64bitDwarf addressSize.toNat = some value.length) :
    Encoded is64bitDwarf addressSize f value
  | number {f : DW_FORM} (h : f ∈ [.udata, .ref_udata, .strx, .addrx, .loclistx, .rnglistx, .sdata]) (n : Leb128) :
    Encoded is64bitDwarf addressSize f n.bytes
  | string {s : Str} (h : 0 ∉ s) : Encoded is64bitDwarf addressSize .string_ (s ++ [0])
  | sizedBlock {f : DW_FORM} {size : Nat} (h : (f, size) ∈ [(.block1, 1), (.block2, 2), (.block4, 4)])
      {data : List Byte} (hdata : data.length < 2 ^ (8 * size)) :
    Encoded is64bitDwarf addressSize f (littleEndian size (BitVec.ofNat 64 data.length) ++ data)
  | block {f : DW_FORM} (h : f ∈ [.block, .exprloc]) {n : Leb128} {data : List Byte} (hn : Fits n)
      (hdata : n.unsigned = data.length) :
    Encoded is64bitDwarf addressSize f (n.bytes ++ data)
  | indirect {f : DW_FORM} {n : Leb128} {value : List Byte} (hsize : n.size ≤ 10) (hn : n.unsigned = f.code)
      (h : Encoded is64bitDwarf addressSize f value) :
    Encoded is64bitDwarf addressSize .indirect (n.bytes ++ value)

-- An attribute specification. The constant is there where the form is implicit_const.
structure Spec where
  name  : Leb128
  form  : Leb128
  const : Leb128

namespace Spec

def bytes (s : Spec) : List Byte :=
  s.name.bytes ++ s.form.bytes ++ if s.form.unsigned = 33 then s.const.bytes else []

structure WellFormed (s : Spec) : Prop where
  name     : Fits s.name
  form     : Fits s.form
  notLast  : s.name.unsigned ≠ 0

end Spec

structure Declaration where
  code        : Leb128
  tag         : Leb128
  hasChildren : Byte
  specs       : List Spec

namespace Declaration

def body (d : Declaration) : List Byte :=
  d.tag.bytes ++ d.hasChildren :: (d.specs.flatMap Spec.bytes ++ [0, 0])

def bytes (d : Declaration) : List Byte :=
  d.code.bytes ++ d.body

structure WellFormed (d : Declaration) : Prop where
  code    : Fits d.code
  notNull : d.code.unsigned ≠ 0
  tag     : Fits d.tag
  specs   : ∀ s ∈ d.specs, s.WellFormed

end Declaration

structure Attribute where
  spec  : Spec
  value : List Byte

namespace Attribute

def IsForm (a : Attribute) (f : DW_FORM) : Prop :=
  f.code = a.spec.form.unsigned

def Known (a : Attribute) : Prop :=
  ∃ f, a.IsForm f

def IsStmtList (a : Attribute) : Prop :=
  a.spec.name.unsigned = 0x10

def IsCompDir (a : Attribute) : Prop :=
  a.spec.name.unsigned = 0x1b

-- The line program offset that the attribute gives
inductive Offset (is64bitDwarf : Bool) (a : Attribute) (offset : BitVec 64) : Prop
  | data (f : DW_FORM) (size : Nat) (h : a.IsForm f)
      (hsize : (f, size) ∈ [(.sec_offset, offsetSize is64bitDwarf), (.data4, 4), (.data8, 8)])
      (hfits : offset.toNat < 2 ^ (8 * size)) (hvalue : a.value = littleEndian size offset)

-- A string of a section
def StringAt (section_ : List Byte) (offset : BitVec 64) (s : Str) : Prop :=
  0 ∉ s ∧ ∃ rest, section_.drop offset.toNat = s ++ 0 :: rest

-- The string that the attribute gives
inductive Text (sections : DebugSections) (is64bitDwarf : Bool) (a : Attribute) (s : Str) : Prop
  | inline (h : a.IsForm .string_) (hs : 0 ∉ s) (hvalue : a.value = s ++ [0])
  | strp (h : a.IsForm .strp) {offset : BitVec 64} (hfits : offset.toNat < 2 ^ (8 * offsetSize is64bitDwarf))
      (hvalue : a.value = littleEndian (offsetSize is64bitDwarf) offset) (hs : StringAt sections.str offset s)
  | lineStrp (h : a.IsForm .line_strp) {offset : BitVec 64} (hfits : offset.toNat < 2 ^ (8 * offsetSize is64bitDwarf))
      (hvalue : a.value = littleEndian (offsetSize is64bitDwarf) offset) (hs : StringAt sections.lineStr offset s)

def GiveOffset (is64bitDwarf : Bool) (offset : BitVec 64) (attributes : List Attribute) : Prop :=
  ∃ before a after, attributes = before ++ a :: after ∧ (∀ b ∈ before, b.Known) ∧ a.IsStmtList ∧
    a.Offset is64bitDwarf offset

def GiveText (sections : DebugSections) (is64bitDwarf : Bool) (s : Str) (attributes : List Attribute) : Prop :=
  ∃ before a after, attributes = before ++ a :: after ∧ (∀ b ∈ before, b.Known) ∧ a.IsCompDir ∧
    a.Text sections is64bitDwarf s

-- The code of the form has one byte where its low byte is that of a known form, the line program offset is not of
-- another form when the first line program is looked for, and the form of the directory is known, if not as a string.
structure Regular (is64bitDwarf : Bool) (offset : BitVec 64) (a : Attribute) : Prop where
  form     : ∀ f : DW_FORM, f.code = a.spec.form.unsigned % 256 → a.IsForm f
  stmtList : a.IsStmtList → (∃ offset', a.Offset is64bitDwarf offset') ∨ offset ≠ 0
  compDir  : a.IsCompDir → ∃ f, a.IsForm f ∧ Encoded is64bitDwarf 8 f a.value

end Attribute

-- The first entry of a unit, with the declarations that stand before its own one, what stands behind that, and the
-- bytes of the unit that follow the entry
structure Entry where
  before      : List Declaration
  code        : Leb128
  tag         : Leb128
  hasChildren : Byte
  attributes  : List Attribute
  after       : List Byte
  children    : List Byte

namespace Entry

def declaration (e : Entry) : Declaration where
  code        := e.code
  tag         := e.tag
  hasChildren := e.hasChildren
  specs       := e.attributes.map Attribute.spec

def bytes (e : Entry) : List Byte :=
  e.code.bytes ++ (e.attributes.flatMap Attribute.value ++ e.children)

-- The abbreviation table
def table (e : Entry) : List Byte :=
  e.before.flatMap Declaration.bytes ++ (e.declaration.bytes ++ e.after)

-- No attribute is there twice.
structure WellFormed (is64bitDwarf : Bool) (addressSize : Byte) (e : Entry) : Prop where
  before      : ∀ d ∈ e.before, d.WellFormed ∧ d.code.unsigned ≠ e.code.unsigned
  declaration : e.declaration.WellFormed
  names       : (e.attributes.map fun a => a.spec.name.unsigned).Nodup
  values      : ∀ a ∈ e.attributes, ∀ f, a.IsForm f → Encoded is64bitDwarf addressSize f a.value

end Entry

-- What follows the header of a unit. That of a type unit is left open.
inductive Content
  | types (bytes : List Byte)
  | null (code : Leb128) (rest : List Byte)
  | entry (e : Entry)

def Content.bytes : Content → List Byte
  | types bytes    => bytes
  | null code rest => code.bytes ++ rest
  | entry e        => e.bytes

structure InfoUnit where
  is64bitDwarf : Bool
  version      : Nat
  unitType     : Byte
  addressSize  : Byte
  abbrevOffset : BitVec 64
  dwoId        : List Byte
  content      : Content

namespace InfoUnit

-- The fields between the version and the content
def header (u : InfoUnit) : List Byte :=
  if 5 ≤ u.version then
    u.unitType :: u.addressSize :: (littleEndian (offsetSize u.is64bitDwarf) u.abbrevOffset ++ u.dwoId)
  else
    littleEndian (offsetSize u.is64bitDwarf) u.abbrevOffset ++ [u.addressSize]

-- What the length of the unit counts
def body (u : InfoUnit) : List Byte :=
  littleEndian 2 (BitVec.ofNat 64 u.version) ++ (u.header ++ u.content.bytes)

def bytes (u : InfoUnit) : List Byte :=
  if u.is64bitDwarf then
    [0xFF, 0xFF, 0xFF, 0xFF] ++ (littleEndian 8 (BitVec.ofNat 64 u.body.length) ++ u.body)
  else
    littleEndian 4 (BitVec.ofNat 64 u.body.length) ++ u.body

-- Whether the content is one of the unit type
def Holds (sections : DebugSections) (u : InfoUnit) : Content → Prop
  | .types _     => u.unitType = DW_UT.type ∨ u.unitType = DW_UT.split_type
  | .null code _ => (u.unitType ≠ DW_UT.type ∧ u.unitType ≠ DW_UT.split_type) ∧ code.size ≤ 10 ∧ code.unsigned = 0
  | .entry e     => (u.unitType ≠ DW_UT.type ∧ u.unitType ≠ DW_UT.split_type) ∧
      e.WellFormed u.is64bitDwarf u.addressSize ∧ sections.abbrev_.drop u.abbrevOffset.toNat = e.table

-- Lengths from 0xFFFFFFF0 on are reserved in the 32-bit format.
structure WellFormed (sections : DebugSections) (u : InfoUnit) : Prop where
  length       : u.body.length < if u.is64bitDwarf then 2 ^ 64 else 0xFFFFFFF0
  version      : 2 ≤ u.version ∧ u.version ≤ 5
  unitType     : u.version < 5 → u.unitType = DW_UT.compile
  abbrevOffset : u.abbrevOffset.toNat < 2 ^ (8 * offsetSize u.is64bitDwarf)
  dwoId        : u.dwoId.length = if u.unitType = DW_UT.skeleton ∨ u.unitType = DW_UT.split_compile then 8 else 0
  content      : u.Holds sections u.content

-- The attributes of the first entry of a compile unit
def attributes (u : InfoUnit) : List Attribute :=
  match u.content with
  | .entry e => if e.tag.unsigned = 0x11 then e.attributes else []
  | _        => []

-- The unit gives the line program offset, behind attributes of known forms.
def Uses (u : InfoUnit) (offset : BitVec 64) : Prop :=
  Attribute.GiveOffset u.is64bitDwarf offset u.attributes

-- The unit gives the directory, behind attributes of known forms.
def Gives (sections : DebugSections) (u : InfoUnit) (s : Str) : Prop :=
  Attribute.GiveText sections u.is64bitDwarf s u.attributes

end InfoUnit

end Runtime.Dwarf
