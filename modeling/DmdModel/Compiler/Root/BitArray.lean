import DmdModel.Lib.WordBits

namespace Compiler.Root

abbrev Chunk := BitVec 64

-- `ptr` are the chunks from the start of the memory of the array.
structure BitArray where
  len : Nat
  ptr : Nat → Chunk

namespace BitArray

def BitsPerChunk : Nat := 64

-- The number of chunks used to store `len` bits. The sum is taken in 64 bits.
def chunks (len : Nat) : Nat :=
  (len + BitsPerChunk - 1) % 2 ^ 64 / BitsPerChunk

-- A new array has no memory.
def empty : BitArray where
  len := 0
  ptr := fun _ => 0

def setChunk (a : BitArray) (i : Nat) (x : Chunk) : BitArray :=
  { a with ptr := Function.update a.ptr i x }

-- `fresh` is what is in memory that was not the array's.
def xrealloc (ptr : Nat → Chunk) (ochunks nchunks : Nat) (fresh : Nat → Chunk) : Nat → Chunk :=
  if ochunks ≠ nchunks then fun i => if i < ochunks then ptr i else fresh i else ptr

def clearChunks (ptr : Nat → Chunk) (ochunks nchunks : Nat) : Nat → Chunk :=
  if nchunks > ochunks then fun i => if ochunks ≤ i ∧ i < nchunks then 0 else ptr i else ptr

-- If there is no chunk, then there is no last chunk to be masked.
def setLength (a : BitArray) (nlen : Nat) (fresh : Nat → Chunk) : Option BitArray :=
  let ochunks := chunks a.len
  let nchunks := chunks nlen
  let ptr := xrealloc a.ptr ochunks nchunks fresh
  let ptr := clearChunks ptr ochunks nchunks
  if nlen &&& (BitsPerChunk - 1) ≠ 0 then
    if nchunks = 0 then
      none
    else
      let mask := 1#64 <<< (nlen &&& (BitsPerChunk - 1)) - 1
      some { len := nlen, ptr := Function.update ptr (nchunks - 1) (ptr (nchunks - 1) &&& mask) }
  else
    some { len := nlen, ptr := ptr }

def opAssign (a b : BitArray) (fresh : Nat → Chunk) : Option BitArray := do
  let a ← if a.len = 0 then a.setLength b.len fresh else some a
  -- assert
  guard (a.len = b.len)
  return { a with ptr := fun i => if i < chunks a.len then b.ptr i else a.ptr i }

def opIndex (a : BitArray) (idx : Nat) : Bool :=
  (a.ptr (idx / BitsPerChunk)).getLsbD (idx % BitsPerChunk)

def bts (a : BitArray) (idx : Nat) : BitArray :=
  a.setChunk (idx / BitsPerChunk) (a.ptr (idx / BitsPerChunk) ||| 1#64 <<< (idx % BitsPerChunk))

def btc (a : BitArray) (idx : Nat) : BitArray :=
  a.setChunk (idx / BitsPerChunk) (a.ptr (idx / BitsPerChunk) ^^^ 1#64 <<< (idx % BitsPerChunk))

def opIndexAssign (a : BitArray) (val : Bool) (idx : Nat) : Option BitArray := do
  -- assert
  guard (idx < a.len)
  return if val then a.bts idx else a.btc idx

def opEquals (a b : BitArray) : Bool :=
  a.len = b.len && (List.range (chunks a.len)).all fun i => a.ptr i = b.ptr i

def zero (a : BitArray) : BitArray :=
  { a with ptr := fun i => if i < chunks a.len then 0 else a.ptr i }

def isZero (a : BitArray) : Bool :=
  (List.range (chunks a.len)).all fun i => a.ptr i = 0

def or (a b : BitArray) : Option BitArray := do
  -- assert
  guard (a.len = b.len)
  return (List.range (chunks a.len)).foldl (fun a i => a.setChunk i (a.ptr i ||| b.ptr i)) a

-- Both arrays afterwards.
def swap (a b : BitArray) : Option (BitArray × BitArray) := do
  -- assert
  guard (a.len = b.len)
  return (List.range (chunks a.len)).foldl
    (fun ab i => (ab.1.setChunk i (ab.2.ptr i), ab.2.setChunk i (ab.1.ptr i))) (a, b)

-- Operations on the arrays that some variables hold.
inductive Op
  | setLength (x nlen : Nat) (fresh : Nat → Chunk)
  | opAssign (x y : Nat) (fresh : Nat → Chunk)
  | opIndexAssign (x : Nat) (val : Bool) (idx : Nat)
  | or (x y : Nat)
  | swap (x y : Nat)
  | zero (x : Nat)

abbrev State := Nat → BitArray

def State.init : State :=
  fun _ => empty

-- The state afterwards, unless an assertion fails or a chunk is used that is not there.
def State.step (s : State) : Op → Option State
  | .setLength x nlen fresh    => return Function.update s x (← (s x).setLength nlen fresh)
  | .opAssign x y fresh        => return Function.update s x (← (s x).opAssign (s y) fresh)
  | .opIndexAssign x val idx   => return Function.update s x (← (s x).opIndexAssign val idx)
  | .or x y                    => return Function.update s x (← (s x).or (s y))
  | .swap x y                  => do
    let ab ← (s x).swap (s y)
    return Function.update (Function.update s x ab.1) y ab.2
  | .zero x                    => some (Function.update s x (s x).zero)

def State.run (s : State) (ops : List Op) : Option State :=
  ops.foldlM State.step s

-- What the operations mean for lists of booleans.

abbrev Lists := Nat → List Bool

def Lists.init : Lists :=
  fun _ => []

def resize (l : List Bool) (n : Nat) : List Bool :=
  l.take n ++ List.replicate (n - l.length) false

def Lists.step (l : Lists) : Op → Option Lists
  | .setLength x nlen _      => do
    guard (nlen < 2 ^ 64)
    return Function.update l x (resize (l x) nlen)
  | .opAssign x y _          => do
    guard (l x = [] ∨ (l x).length = (l y).length)
    return Function.update l x (l y)
  | .opIndexAssign x val idx => do
    guard (idx < (l x).length)
    return Function.update l x ((l x).set idx val)
  | .or x y                  => do
    guard ((l x).length = (l y).length)
    return Function.update l x (List.zipWith (· || ·) (l x) (l y))
  | .swap x y                => do
    guard ((l x).length = (l y).length)
    return Function.update (Function.update l x (l y)) y (l x)
  | .zero x                  => some (Function.update l x (List.replicate (l x).length false))

def Lists.run (l : Lists) (ops : List Op) : Option Lists :=
  ops.foldlM Lists.step l

end BitArray
end Compiler.Root
