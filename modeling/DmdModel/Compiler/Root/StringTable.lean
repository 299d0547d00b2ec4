import Mathlib

namespace Compiler.Root

def POOL_BITS : Nat := 12
def POOL_SIZE : Nat := 1 <<< POOL_BITS

def loadFactorNumerator : Nat := 8
def loadFactorDenominator : Nat := 10

-- The ways in which an operation does not return: a loop that does not end, and a table of a size that
-- there is no memory of.
inductive StringTable.Error
  | endless
  | outOfMemory
  deriving DecidableEq, Repr

structure StringEntry where
  hash : UInt32
  vptr : UInt32
  deriving DecidableEq, Repr

-- The value and the characters behind it, which end with a 0.
structure StringValue (T : Type) where
  value : T
  chars : List UInt8
  deriving DecidableEq, Repr

-- (StringValue!T).sizeof, in which the length of the string takes 8 bytes.
class StringValue.Layout (T : Type) where
  size    : Nat
  size_ge : 8 ≤ size

-- `pools` has the values by the number of the pool and the offset in it, `poolSize` the number of bytes
-- that a pool was allocated with. `size` is the length of the table.
structure StringTable (T : Type) where
  table        : Nat → StringEntry
  size         : Nat
  pools        : Nat → Nat → StringValue T
  poolSize     : Nat → Nat
  npools       : Nat
  nfill        : Nat
  count        : Nat
  countTrigger : Nat

namespace StringTable

variable {T : Type}

-- A pointer to a value: a pool and an offset in it.
abbrev Pointer := Nat × Nat

def deref (t : StringTable T) (p : Pointer) : StringValue T :=
  t.pools p.1 p.2

def nextpow2 (val : Nat) : Except Error Nat :=
  loop 65 1
where
  -- `res` is 0 after 64 shifts, and stays 0.
  loop : (fuel res : Nat) → Except Error Nat
    | 0, _          => .error .endless
    | fuel + 1, res => if res < val then loop fuel ((res <<< 1) % 2 ^ 64) else .ok res

-- There is no memory for a table of 2 ^ 64 bytes or more.
def xcalloc (size : Nat) : Except Error (Nat → StringEntry) :=
  if size * 8 < 2 ^ 64 then .ok fun _ => ⟨0, 0⟩ else .error .outOfMemory

def triggerOf (size : Nat) : Nat :=
  (size * loadFactorNumerator) % 2 ^ 64 / loadFactorDenominator

-- `_init`; the memory of the pools that were there before is `pools`.
def init (pools : Nat → Nat → StringValue T) (size : Nat) : Except Error (StringTable T) := do
  let size ← nextpow2 ((size * loadFactorDenominator) % 2 ^ 64 / loadFactorNumerator)
  let size := if size < 32 then 32 else size
  let table ← xcalloc size
  return {
    table        := table
    size         := size
    pools        := pools
    poolSize     := fun _ => 0
    npools       := 0
    nfill        := 0
    count        := 0
    countTrigger := triggerOf size }

def reset (t : StringTable T) (size : Nat) : Except Error (StringTable T) :=
  init t.pools size

-- null for the vptr 0.
def getValue (vptr : UInt32) : Option Pointer :=
  if vptr = 0 then
    none
  else
    some ((vptr.toNat >>> POOL_BITS) - 1, vptr.toNat &&& (POOL_SIZE - 1))

-- The string of an entry is the one that is looked for.
def isEntryOf (t : StringTable T) (se : StringEntry) (hash : UInt32) (str : List UInt8) : Bool :=
  se.hash == hash && (getValue se.vptr).any fun sv => (t.deref sv).chars == str

-- Quadratic probing. `table` is the table that is searched, with the pools of `t`.
def findSlotLoop (t : StringTable T) (table : Nat → StringEntry) (size : Nat) (hash : UInt32)
    (str : List UInt8) : (fuel i j : Nat) → Except Error Nat
  | 0, _, _        => .error .endless
  | fuel + 1, i, j =>
    if (table i).vptr = 0 ∨ t.isEntryOf (table i) hash str then
      .ok i
    else
      findSlotLoop t table size hash str fuel ((i + j) &&& (size - 1)) (j + 1)

-- Every slot is looked at in the first iterations, as many as there are slots.
def findSlotIn (t : StringTable T) (table : Nat → StringEntry) (size : Nat) (hash : UInt32)
    (str : List UInt8) : Except Error Nat :=
  t.findSlotLoop table size hash str size (hash.toNat &&& (size - 1)) 1

def findSlot (t : StringTable T) (hash : UInt32) (str : List UInt8) : Except Error Nat :=
  t.findSlotIn t.table t.size hash str

-- One iteration of the loop in `grow`, which enters an entry of the old table.
def reinsert (t : StringTable T) (ndim : Nat) (table : Nat → StringEntry) (se : StringEntry) :
    Except Error (Nat → StringEntry) :=
  match getValue se.vptr with
  | none    => .ok table
  | some sv => do
    let i ← t.findSlotIn table ndim se.hash (t.deref sv).chars
    return Function.update table i se

def grow (t : StringTable T) : Except Error (StringTable T) := do
  let ndim := t.size * 2
  let table ← xcalloc ndim
  let table ← ((List.range t.size).map t.table).foldlM (t.reinsert ndim) table
  return { t with
    table        := table
    size         := ndim
    countTrigger := triggerOf ndim }

-- Make a new pool if `nbytes` bytes do not fit into the last one.
def reserve (t : StringTable T) (nbytes : Nat) : StringTable T :=
  if t.npools = 0 ∨ t.nfill + nbytes > POOL_SIZE then
    { t with
      npools   := t.npools + 1
      poolSize := Function.update t.poolSize t.npools
        (if nbytes > POOL_SIZE then nbytes else POOL_SIZE)
      nfill    := 0 }
  else
    t

section

variable [StringValue.Layout T]

-- The bytes of a value, with its characters and the 0.
variable (T) in
def nbytes (str : List UInt8) : Nat :=
  StringValue.Layout.size T + str.length + 1

-- Write a value and a string behind those in the last pool. The fill is aligned to 8 bytes.
def put (t : StringTable T) (str : List UInt8) (value : T) : StringTable T :=
  let pool := t.npools - 1
  { t with
    pools := Function.update t.pools pool (Function.update (t.pools pool) t.nfill ⟨value, str⟩)
    nfill := t.nfill + (nbytes T str + (8 - nbytes T str % 8) % 8) }

def allocValue (t : StringTable T) (str : List UInt8) (value : T) : UInt32 × StringTable T :=
  let t := t.reserve (nbytes T str)
  ((t.npools <<< POOL_BITS ||| t.nfill).toUInt32, t.put str value)

end

-- A hash function for the strings.
variable (calcHash : List UInt8 → UInt32)

def lookup (t : StringTable T) (str : List UInt8) : Except Error (Option Pointer) := do
  let i ← t.findSlot (calcHash str) str
  return getValue (t.table i).vptr

variable [StringValue.Layout T]

-- What `insert` and `update` do at an empty slot for a string.
def enter (t : StringTable T) (str : List UInt8) (value : T) (i : Nat) :
    Except Error (Option Pointer × StringTable T) := do
  let hash := calcHash str
  let t := { t with count := t.count + 1 }
  let (t, i) ←
    if t.count > t.countTrigger then do
      let t ← t.grow
      let i ← t.findSlot hash str
      pure (t, i)
    else
      pure (t, i)
  let (vptr, t) := t.allocValue str value
  return (getValue vptr, { t with table := Function.update t.table i ⟨hash, vptr⟩ })

-- The result is null if the string is in the table already.
def insert (t : StringTable T) (str : List UInt8) (value : T) :
    Except Error (Option Pointer × StringTable T) := do
  let i ← t.findSlot (calcHash str) str
  if (t.table i).vptr ≠ 0 then
    return (none, t)
  else
    t.enter calcHash str value i

def update [Inhabited T] (t : StringTable T) (str : List UInt8) :
    Except Error (Option Pointer × StringTable T) := do
  let i ← t.findSlot (calcHash str) str
  if (t.table i).vptr = 0 then
    t.enter calcHash str default i
  else
    return (getValue (t.table i).vptr, t)

omit [StringValue.Layout T]

-- The loop over the table. The delegate gets the state of the loop that it is the body of.
def opApply {σ : Type} (t : StringTable T) (dg : StringValue T → σ → Int32 × σ) (s : σ) : Int32 × σ :=
  go ((List.range t.size).map t.table) s
where
  go : List StringEntry → σ → Int32 × σ
    | [], s        => (0, s)
    | se :: ses, s =>
      match getValue se.vptr with
      | none    => go ses s
      | some sv =>
        let (result, s) := dg (t.deref sv) s
        if result ≠ 0 then (result, s) else go ses s

end StringTable
end Compiler.Root
