import Mathlib
import DmdModel.Lib.Lists

-- The header of the tables for exceptions, as the personality function reads it.

namespace Runtime.DwarfEh

abbrev Byte := BitVec 8

def DW_EH_PE_omit : Byte := 0xFF

-- The number of bits of a pointer.
variable (w : Nat)

-- The lowest byte is the first one. There is no result if there are too few bytes.
def littleEndian : (size : Nat) → List Byte → Option (Nat × List Byte)
  | 0, p           => some (0, p)
  | _ + 1, []      => none
  | n + 1, b :: p  => (littleEndian n p).map fun (v, rest) => (b.toNat + 256 * v, rest)

def readUnaligned (size : Nat) (signed : Bool) (p : List Byte) : Option (BitVec w × List Byte) :=
  (littleEndian size p).map fun (v, rest) =>
    let value := BitVec.ofNat (8 * size) v
    (if signed then value.signExtend w else value.setWidth w, rest)

-- The value, the last byte and the shift behind it.
def leb128Groups (result : BitVec w) (shift : Nat) : List Byte → Option (BitVec w × Byte × Nat × List Byte)
  | []     => none
  | b :: p =>
    let result := result ||| (b &&& 0x7F#8).setWidth w <<< (shift % w)
    if b &&& 0x80#8 = 0 then some (result, b, shift + 7, p) else leb128Groups result (shift + 7) p

def uLEB128 (p : List Byte) : Option (BitVec w × List Byte) :=
  (leb128Groups w 0 0 p).map fun (result, _, _, rest) => (result, rest)

def sLEB128 (p : List Byte) : Option (BitVec w × List Byte) :=
  (leb128Groups w 0 0 p).map fun (result, b, shift, rest) =>
    (if shift < w ∧ b &&& 0x40#8 ≠ 0 then result ||| -(1#w <<< shift) else result, rest)

-- There is no result for a format that terminates the program.
def dw_pe_value (pe : Byte) (p : List Byte) : Option (BitVec w × List Byte) :=
  match pe.toNat with
  | 0x0A => readUnaligned w 2 true p
  | 0x02 => readUnaligned w 2 false p
  | 0x0B => readUnaligned w 4 true p
  | 0x03 => readUnaligned w 4 false p
  | 0x0C => readUnaligned w 8 true p
  | 0x04 => readUnaligned w 8 false p
  | 0x09 => sLEB128 w p
  | 0x01 => uLEB128 w p
  | 0x00 => if w = 64 then readUnaligned w 8 false p else readUnaligned w 4 false p
  | _    => none

def readByte : List Byte → Option (Byte × List Byte)
  | []     => none
  | b :: p => some (b, p)

-- Where the tables are, from the start of the header on. The type table is read backwards from its end.
structure Positions where
  callSiteTable : Nat
  actionTable   : Nat
  tt            : Nat
  deriving DecidableEq

-- The header of `scanLSDA`. An offset is what has been read so far.
def scanHeader (lsda : List Byte) : Option Positions := do
  let offset (p : List Byte) := lsda.length - p.length
  let (LPstart, p) ← readByte lsda
  let (_, p) ← if LPstart ≠ DW_EH_PE_omit then dw_pe_value w LPstart p else some (0, p)
  let (TType, p) ← readByte p
  let (TToffset, p) ←
    if TType ≠ DW_EH_PE_omit then
      (uLEB128 w p).map fun (TTbase, rest) => (offset rest + TTbase.toNat, rest)
    else
      some (0, p)
  let (_, p) ← readByte p
  let (CallSiteTableSize, p) ← dw_pe_value w 0x01 p
  return { callSiteTable := offset p, actionTable := offset p + CallSiteTableSize.toNat, tt := TToffset }

end Runtime.DwarfEh

-- Exceptions in flight: the stack of headers of the exceptions that have been thrown and not been caught.

namespace Runtime.DwarfEh

abbrev Addr := Nat

-- The header after `ExceptionHeader.init`, by default.
structure ExceptionHeader (Object : Type) where
  object               : Option Object := none
  handler              : Int := 0
  languageSpecificData : Nat := 0
  landingPad           : Nat := 0
  next                 : Option Addr := none

-- `chain` has a pair for each object that was appended to the chain of another one.
structure Memory (Object : Type) where
  header            : Addr → ExceptionHeader Object
  chain             : List (Object × Object)
  bypassedException : Object → Option Object
  discarded         : List Addr

variable {Object Class : Type} [DecidableEq Object] (typeid : Object → Class) (isError : Class → Bool)

-- `cast(Error)o !is null`
def castError (o : Option Object) : Bool :=
  o.any (isError <| typeid ·)

namespace Memory

variable (m : Memory Object)

def next (a : Addr) : Option Addr :=
  (m.header a).next

def update (a : Addr) (h : ExceptionHeader Object) : Memory Object :=
  { m with header := Function.update m.header a h }

def chainTogether (e1 e2 : Option Object) : Option Object × Memory Object :=
  match e1, e2 with
  | none, e2           => (e2, m)
  | e1, none           => (e1, m)
  | some e1, some e2   => (some e1, { m with chain := (e1, e2) :: m.chain })

def setBypassedException (e : Object) (o : Option Object) : Memory Object :=
  { m with bypassedException := Function.update m.bypassedException e o }

-- `_Unwind_DeleteException`: the clean-up of an exception frees its header.
def delete (a : Addr) : Memory Object :=
  { m.update a {} with discarded := a :: m.discarded }

end Memory

-- The variables of the loop over the exceptions in flight.
structure Flight (Object : Type) where
  memory     : Memory Object
  eh         : Addr
  currentLsd : Nat
  bypassed   : Bool
  handler    : Int

variable (language_specific_data landing_pad : Nat)

-- One turn of the loop. There is none if the loop ends.
def step (s : Flight Object) : Option (Flight Object) :=
  let eh := s.memory.header s.eh
  match eh.next with
  | none     => none
  | some ehp =>
    let ehn := s.memory.header ehp
    if castError typeid isError eh.object && !castError typeid isError ehn.object then
      -- eh is an Error, ehn is not
      some { s with currentLsd := ehn.languageSpecificData, eh := ehp, bypassed := true }
    else if s.currentLsd ≠ ehn.languageSpecificData then
      none
    else
      let (object, memory) := s.memory.chainTogether ehn.object eh.object
      let replaced := ehn.handler ≠ s.handler ∧ !s.bypassed
      let handler := if replaced then ehn.handler else s.handler
      let eh := { eh with object, next := ehn.next }
      let eh :=
        if replaced then
          { eh with handler, languageSpecificData := language_specific_data, landingPad := landing_pad }
        else
          eh
      some { s with memory := (memory.update s.eh eh).delete ehp, handler }

def loop : (fuel : Nat) → Flight Object → Option (Flight Object)
  | 0, _        => none
  | fuel + 1, s =>
    match step typeid isError language_specific_data landing_pad s with
    | none   => some s
    | some s => loop fuel s

-- What is done after the loop when an exception was bypassed. There is no result if a null pointer is used.
def bypass (m : Memory Object) (exceptionObject : Addr) : Option (Memory Object) := do
  let eh := m.header exceptionObject
  let e ← eh.object.filter (isError <| typeid ·)
  let ehp ← eh.next
  let ehn := m.header ehp
  return ((m.setBypassedException e ehn.object).update exceptionObject { eh with next := ehn.next }).delete ehp

-- "Figure out what to do when there are multiple exceptions in flight" in the personality function. The result is the
-- memory and the handler.
def inFlight (fuel : Nat) (handler : Int) (m : Memory Object) (exceptionObject : Addr) :
    Option (Memory Object × Int) := do
  let s ← loop typeid isError language_specific_data landing_pad fuel
    { memory := m, eh := exceptionObject, currentLsd := language_specific_data, bypassed := false, handler }
  let m ← if s.bypassed then bypass typeid isError s.memory exceptionObject else some s.memory
  return (m, s.handler)

def getObject (m : Memory Object) (currentLsd : Nat) : (fuel : Nat) → Option Object → Option Addr → Option (Option Object)
  | 0, _, _               => none
  | _ + 1, ehobject, none => some ehobject
  | fuel + 1, ehobject, some ehp =>
    let ehn := m.header ehp
    if currentLsd ≠ ehn.languageSpecificData then
      some ehobject
    else if !castError typeid isError ehobject || castError typeid isError ehn.object then
      getObject m currentLsd fuel ehn.object ehn.next
    else
      getObject m currentLsd fuel ehobject ehn.next

-- The class that catch clauses are compared with.
def getClassInfo (fuel : Nat) (m : Memory Object) (exceptionObject : Addr) (currentLsd : Nat) : Option Class := do
  let eh := m.header exceptionObject
  let ehobject ← getObject typeid isError m currentLsd fuel eh.object eh.next
  ehobject.map typeid

end Runtime.DwarfEh
