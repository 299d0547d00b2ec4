import DmdModel.Compiler.Mangle.BackRef

namespace Runtime

open Runtime.Utf Compiler.Mangle

-- The text and the position in it
structure Demangle where
  buf : List Char8
  pos : Nat
  deriving DecidableEq, Repr

namespace Demangle

def empty (d : Demangle) : Bool :=
  d.pos ≥ d.buf.length

-- char.init is 0xFF.
def peek (d : Demangle) (n : Nat) : Char8 :=
  d.buf[d.pos + n]?.getD 0xFF

def front (d : Demangle) : Char8 :=
  d.buf[d.pos]?.getD 0xFF

def popFront (d : Demangle) : Option Demangle :=
  if d.pos ≥ d.buf.length then none else some { d with pos := d.pos + 1 }

-- The distance, which is 0 if it is invalid
def decodeDigits : (fuel : Nat) → (n : size_t) → Demangle → Option (size_t × Demangle)
  | 0, _, _        => none
  | fuel + 1, n, d =>
    if d.empty then
      some (0, d)
    else do
      let t := d.front
      let d ← d.popFront
      if t < chr 'A' ∨ t > chr 'Z' then
        if t < chr 'a' ∨ t > chr 'z' then
          return (0, d)
        else
          return (base * n + t.setWidth 64 - (chr 'a').setWidth 64, d)
      else
        decodeDigits fuel (base * n + t.setWidth 64 - (chr 'A').setWidth 64) d

-- The loop ends at the end of the text.
def decodeBackref (d : Demangle) : Option (size_t × Demangle) :=
  decodeDigits (d.buf.length - d.pos + 1) 0 d

-- The same with peekAt = 1, which leaves the position where it is
def peekDigits : (fuel : Nat) → (n : size_t) → (p : Nat) → Demangle → Option size_t
  | 0, _, _, _        => none
  | fuel + 1, n, p, d =>
    let t := d.peek (1 + p)
    if t < chr 'A' ∨ t > chr 'Z' then
      if t < chr 'a' ∨ t > chr 'z' then
        some 0
      else
        some (base * n + t.setWidth 64 - (chr 'a').setWidth 64)
    else
      peekDigits fuel (base * n + t.setWidth 64 - (chr 'A').setWidth 64) (p + 1) d

-- The first character at the back reference, 0 if it is invalid
def peekBackref (d : Demangle) : Option Char8 := do
  guard (d.front = chr 'Q')
  let n ← peekDigits (d.buf.length - d.pos + 1) 0 0 d
  if n = 0 ∨ n.toNat > d.pos then return 0 else d.buf[d.pos - n.toNat]?

end Demangle

-- A digit is a size_t.
def PrependHooks.encodeBackref (result : List Char8) (relpos : size_t) : Option (List Char8) := do
  let div ← firstMul 64 relpos 1
  writeDigits id 64 relpos div (result ++ [chr 'Q'])

end Runtime
