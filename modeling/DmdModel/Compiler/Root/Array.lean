import Mathlib

-- Arrays that grow: the first element is stored in the array itself, more of them in a block of the heap,
-- which belongs to the array. What would access something outside of its memory has no result.

namespace Compiler.Root.Arrays

variable {T : Type}

def SMALLARRAYCAP : Nat := 1

-- cast(uint)
def uint (n : Nat) : Nat :=
  n % 2 ^ 32

-- A place for an element. It is none if nothing is known about what it holds.
abbrev Cell (T : Type) := Option T

-- The union, with the cells that the pointer points to
inductive Storage (T : Type)
  | smallarray (cell : Cell T)
  | ptr (block : List (Cell T))
  deriving DecidableEq, Repr

structure Array (T : Type) where
  length    : Nat := 0
  allocated : Nat := SMALLARRAYCAP
  storage   : Storage T := .smallarray none
  deriving DecidableEq, Repr

-- What the C library leaves where the source and the destination of a memcpy overlap, for the cells and
-- the two positions and the number of cells. That is not defined.
abbrev Overlap (T : Type) := List (Cell T) → (dst src n : Nat) → List (Cell T)

section memory

def xmalloc (n : Nat) : List (Cell T) :=
  List.replicate n none

def xrealloc (cs : List (Cell T)) (n : Nat) : List (Cell T) :=
  cs.take n ++ List.replicate (n - cs.length) none

-- `n` cells from `src` on
def read (cs : List (Cell T)) (src n : Nat) : Option (List (Cell T)) :=
  if src + n ≤ cs.length then some ((cs.drop src).take n) else none

-- The cells from `dst` on
def write (cs : List (Cell T)) (dst : Nat) (xs : List (Cell T)) : Option (List (Cell T)) :=
  if dst + xs.length ≤ cs.length then some (cs.take dst ++ xs ++ cs.drop (dst + xs.length)) else none

def memmove (cs : List (Cell T)) (dst src n : Nat) : Option (List (Cell T)) := do
  write cs dst (← read cs src n)

-- Within one block. A copy to where the cells are leaves them there.
def memcpy (overlap : Overlap T) (cs : List (Cell T)) (dst src n : Nat) : Option (List (Cell T)) :=
  if dst ≠ src ∧ dst < src + n ∧ src < dst + n then
    some (overlap cs dst src n)
  else
    memmove cs dst src n

end memory

namespace Array

-- The pointer in the union is no element.
def data (a : Array T) : Option (List (Cell T)) :=
  if a.allocated ≤ SMALLARRAYCAP then
    match a.storage with
    | .smallarray cell => some [cell]
    | .ptr _           => some [none]
  else
    match a.storage with
    | .smallarray _ => none
    | .ptr block    => some block

def setData (a : Array T) (cs : List (Cell T)) : Array T :=
  { a with storage := if a.allocated ≤ SMALLARRAYCAP then .smallarray cs.head?.join else .ptr cs }

-- The cold path of `reserve`
def enlarge (a : Array T) (nentries : Nat) : Option (Array T) := do
  guard (a.length + nentries ≤ 2 ^ 32 - 1)
  if a.allocated = 0 then
    -- Not properly initialized, someone memset it to zero
    let storage := if nentries > SMALLARRAYCAP then .ptr (xmalloc nentries) else a.storage
    return { a with storage, allocated := uint nentries }
  else if a.allocated ≤ SMALLARRAYCAP then
    let allocdim := a.length + nentries
    let p ← write (xmalloc allocdim) 0 (← read (← a.data) 0 a.length)
    return { a with storage := .ptr p, allocated := uint allocdim }
  else
    -- Increase size by 1.5x to avoid excessive memory fragmentation
    let increment := a.length / 2
    let increment := if nentries > increment then uint nentries else increment
    let allocdim := uint (a.length + increment)
    return { a with storage := .ptr (xrealloc (← a.data) allocdim), allocated := allocdim }

def reserve (a : Array T) (nentries : Nat) : Option (Array T) :=
  if uint (a.allocated + 2 ^ 32 - a.length) < nentries then a.enlarge nentries else some a

-- The gap in front of the elements from `index` on
def shiftBack (a : Array T) (index d : Nat) : Option (Array T) := do
  return a.setData (← memmove (← a.data) (index + d) index (a.length - index))

def setDim (a : Array T) (newdim : Nat) : Option (Array T) := do
  let a ← if a.length < newdim then a.reserve (newdim - a.length) else some a
  return { a with length := uint newdim }

-- data[i] = c
def store (a : Array T) (i : Nat) (c : Cell T) : Option (Array T) := do
  return a.setData (← write (← a.data) i [c])

-- data[i]
def opIndex (a : Array T) (i : Nat) : Option (Cell T) := do
  (← a.data)[i]?

def push (a : Array T) (x : T) : Option (Array T) := do
  let a ← a.reserve 1
  let a ← a.store a.length (some x)
  return { a with length := uint (a.length + 1) }

def pushSlice (a : Array T) (xs : List T) : Option (Array T) := do
  let oldLength := a.length
  let a ← a.setDim (oldLength + xs.length)
  return a.setData (← write (← a.data) oldLength (xs.map some))

-- The elements of a slice that is no part of the array
def insertSlice (a : Array T) (index : Nat) (xs : List (Cell T)) : Option (Array T) := do
  let d := xs.length
  let a ← a.reserve d
  let a ← if a.length ≠ index then a.shiftBack index d else some a
  let a := a.setData (← write (← a.data) index xs)
  return { a with length := uint (a.length + d) }

-- Another array
def insertArray (a : Array T) (index : Nat) (b : Array T) : Option (Array T) := do
  a.insertSlice index (← read (← b.data) 0 b.length)

-- The array itself, whose elements are read when they have moved
def insertSelf (overlap : Overlap T) (a : Array T) (index : Nat) : Option (Array T) := do
  let d := a.length
  let a ← a.reserve d
  let a ← if a.length ≠ index then a.shiftBack index d else some a
  let a := a.setData (← memcpy overlap (← a.data) index 0 d)
  return { a with length := uint (a.length + d) }

def insert (a : Array T) (index : Nat) (x : T) : Option (Array T) := do
  let a ← a.reserve 1
  let a ← a.shiftBack index 1
  let a ← a.store index (some x)
  return { a with length := uint (a.length + 1) }

def insertCopies (a : Array T) (index count : Nat) (value : T) : Option (Array T) :=
  if count = 0 then
    some a
  else do
    let a ← a.reserve count
    let a ← if a.length ≠ index then a.shiftBack index count else some a
    let a := a.setData (← write (← a.data) index (List.replicate count (some value)))
    return { a with length := uint (a.length + count) }

def remove (a : Array T) (i : Nat) : Option (Array T) := do
  let n := a.length - i - 1
  let cells ← a.data
  let a ← if n ≠ 0 then (memmove cells i (i + 1) n).map a.setData else some a
  return { a with length := uint (a.length + 2 ^ 32 - 1) }

def shift (a : Array T) (x : T) : Option (Array T) := do
  let a ← a.reserve 1
  let a ← a.shiftBack 0 1
  let a ← a.store 0 (some x)
  return { a with length := uint (a.length + 1) }

-- The element and the array without it
def pop (a : Array T) : Option (Cell T × Array T) := do
  let a := { a with length := uint (a.length + 2 ^ 32 - 1) }
  return (← a.opIndex a.length, a)

def zero (a : Array T) (init : T) : Option (Array T) := do
  return a.setData (← write (← a.data) 0 (List.replicate a.length (some init)))

def copy (a : Array T) : Option (Array T) := do
  let b ← (({} : Array T).setDim a.length)
  return b.setData (← write (← b.data) 0 (← read (← a.data) 0 a.length))

-- The new array and what is left
def move (a : Array T) : Option (Array T × Array T) := do
  let cells ← a.data
  let storage :=
    if a.allocated ≤ SMALLARRAYCAP then .smallarray (if a.length = 0 then none else cells.head?.join) else a.storage
  return ({ length := a.length, allocated := a.allocated, storage },
    { a with length := 0, allocated := SMALLARRAYCAP })

end Array

-- The loop of `split`
def splitLoop (index length : Nat) : (i : Nat) → Array T → Option (Array T)
  | 0, a     => some a
  | i + 1, a =>
    if i + 1 > index then do
      let a ← a.store (i + length) (← a.opIndex i)
      splitLoop index length i a
    else
      some a

-- Make room for `length` elements. What is there before they are stored is not known.
def split (a : Array T) (index length : Nat) : Option (Array T) :=
  if length > 0 then do
    let previousDim := a.length
    let a ← a.setDim (a.length + length)
    splitLoop index length previousDim a
  else
    some a

-- What is stored in the room that `split` makes
def fill (index : Nat) : List T → Array T → Option (Array T)
  | [], a      => some a
  | x :: xs, a => do fill (index + 1) xs (← a.store index (some x))

-- The loop of `reverse`: `mid` elements, from the first one on, change places with the ones opposite.
def reverseLoop : (mid i : Nat) → List T → Option (List T)
  | 0, _, a       => some a
  | mid + 1, i, a => do
    let e ← a[i]?
    let other ← a[a.length - 1 - i]?
    let a := (a.set i other).set (a.length - 1 - i) e
    reverseLoop mid (i + 1) a

def reverse (a : List T) : Option (List T) :=
  if a.length > 1 then reverseLoop ((a.length + 1) >>> 1) 0 a else some a

-- The elements of an array, reversed in place
def Array.reverse (a : Array T) : Option (Array T) := do
  let cells ← a.data
  let xs ← Arrays.reverse (← read cells 0 a.length)
  return a.setData (← write cells 0 xs)

-- Operations on the arrays that some variables hold. Where `insertArray` names an array twice the array is
-- inserted into itself; `split` is followed by stores into the room that it has made.
inductive Op (T : Type)
  | push (x : Nat) (v : T)
  | pushSlice (x : Nat) (vs : List T)
  | append (x y : Nat)
  | insertArray (x index y : Nat)
  | insertSlice (x index : Nat) (vs : List T)
  | insert (x index : Nat) (v : T)
  | insertCopies (x index count : Nat) (v : T)
  | remove (x i : Nat)
  | shift (x : Nat) (v : T)
  | pop (x : Nat)
  | opIndex (x i : Nat)
  | setDim (x n : Nat)
  | split (x index : Nat) (vs : List T)
  | move (x y : Nat)
  | copy (x y : Nat)
  | zero (x : Nat) (init : T)
  | reverse (x : Nat)

-- The arrays, and what has been read from them
structure State (T : Type) where
  arrays  : Nat → Array T := fun _ => {}
  results : List (Cell T) := []

namespace State

def set (s : State T) (x : Nat) (a : Array T) : State T :=
  { s with arrays := Function.update s.arrays x a }

def insertArray (overlap : Overlap T) (s : State T) (x index y : Nat) : Option (State T) := do
  if x = y then
    return s.set x (← (s.arrays x).insertSelf overlap index)
  else
    return s.set x (← (s.arrays x).insertArray index (s.arrays y))

def step (overlap : Overlap T) (s : State T) : Op T → Option (State T)
  | .push x v                     => return s.set x (← (s.arrays x).push v)
  | .pushSlice x vs               => return s.set x (← (s.arrays x).pushSlice vs)
  | .append x y                   => s.insertArray overlap x (s.arrays x).length y
  | .insertArray x index y        => s.insertArray overlap x index y
  | .insertSlice x index vs       => return s.set x (← (s.arrays x).insertSlice index (vs.map some))
  | .insert x index v             => return s.set x (← (s.arrays x).insert index v)
  | .insertCopies x index count v => return s.set x (← (s.arrays x).insertCopies index count v)
  | .remove x i                   => return s.set x (← (s.arrays x).remove i)
  | .shift x v                    => return s.set x (← (s.arrays x).shift v)
  | .pop x                        => do
    let (c, a) ← (s.arrays x).pop
    return { s.set x a with results := s.results ++ [c] }
  | .opIndex x i                  => return { s with results := s.results ++ [← (s.arrays x).opIndex i] }
  | .setDim x n                   => return s.set x (← (s.arrays x).setDim n)
  | .split x index vs             => do
    return s.set x (← fill index vs (← Arrays.split (s.arrays x) index vs.length))
  | .move x y                     => do
    let (moved, left) ← (s.arrays x).move
    return (s.set x left).set y moved
  | .copy x y                     => return s.set y (← (s.arrays x).copy)
  | .zero x init                  => return s.set x (← (s.arrays x).zero init)
  | .reverse x                    => return s.set x (← (s.arrays x).reverse)

def run (overlap : Overlap T) (s : State T) (ops : List (Op T)) : Option (State T) :=
  ops.foldlM (step overlap) s

end State

-- What the operations mean for lists. The arrays stay below half of what their counters can hold. `moves`
-- says that a memcpy goes well where its operands overlap, which they do where an array is inserted into
-- itself, and not at an end.

structure Lists (T : Type) where
  lists   : Nat → List T := fun _ => []
  results : List T := []

namespace Lists

def set (l : Lists T) (x : Nat) (xs : List T) : Lists T :=
  { l with lists := Function.update l.lists x xs }

-- `vs` in front of the elements from `index` on
def insertAt (l : Lists T) (x index : Nat) (vs : List T) : Option (Lists T) :=
  if index ≤ (l.lists x).length ∧ (l.lists x).length + vs.length < 2 ^ 31 then
    some (l.set x ((l.lists x).take index ++ vs ++ (l.lists x).drop index))
  else
    none

def insertArray (moves : Bool) (l : Lists T) (x index y : Nat) : Option (Lists T) :=
  if x = y ∧ index ≠ 0 ∧ index ≠ (l.lists x).length ∧ moves = false then none else l.insertAt x index (l.lists y)

def step (moves : Bool) (l : Lists T) : Op T → Option (Lists T)
  | .push x v                     => l.insertAt x (l.lists x).length [v]
  | .pushSlice x vs               => l.insertAt x (l.lists x).length vs
  | .append x y                   => l.insertArray moves x (l.lists x).length y
  | .insertArray x index y        => l.insertArray moves x index y
  | .insertSlice x index vs       => l.insertAt x index vs
  | .insert x index v             => l.insertAt x index [v]
  | .insertCopies x index count v => l.insertAt x index (List.replicate count v)
  | .remove x i                   =>
    if i < (l.lists x).length then some (l.set x ((l.lists x).eraseIdx i)) else none
  | .shift x v                    => l.insertAt x 0 [v]
  | .pop x                        => do
    let v ← (l.lists x).getLast?
    return { l.set x (l.lists x).dropLast with results := l.results ++ [v] }
  | .opIndex x i                  => return { l with results := l.results ++ [← (l.lists x)[i]?] }
  | .setDim x n                   => if n ≤ (l.lists x).length then some (l.set x ((l.lists x).take n)) else none
  | .split x index vs             => l.insertAt x index vs
  | .move x y                     => if x ≠ y then some ((l.set x []).set y (l.lists x)) else none
  | .copy x y                     => some (l.set y (l.lists x))
  | .zero x init                  => some (l.set x (List.replicate (l.lists x).length init))
  | .reverse x                    => some (l.set x (l.lists x).reverse)

def run (moves : Bool) (l : Lists T) (ops : List (Op T)) : Option (Lists T) :=
  ops.foldlM (step moves) l

end Lists

end Compiler.Root.Arrays
