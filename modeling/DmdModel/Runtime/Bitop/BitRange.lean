import Mathlib

-- The search for the first or last bit of a word in software, and the range over the bits of an array.

namespace Runtime.Bitop

-- The unsigned types that words are of
inductive Word
  | uint
  | ulong
  deriving DecidableEq, Repr

def Word.bits : Word → Nat
  | uint  => 32
  | ulong => 64

section scan

variable {N : Word}

def mask (forward : Bool) (lo : BitVec 64) : BitVec N.bits :=
  (if forward then lo else ~~~lo).setWidth N.bits

def inc (forward : Bool) (up : Int) : Int :=
  if forward then up else -up

-- x = v & mask; if (x) v = x; else ret += inc;
def narrow (forward : Bool) (lo : BitVec 64) (up : Int) : (BitVec N.bits × Int) → BitVec N.bits × Int
  | (v, ret) =>
    let x := v &&& mask forward lo
    if x ≠ 0 then (x, ret) else (v, ret + inc forward up)

-- The first step, which also says where the search starts from
def start : (N : Word) → (forward : Bool) → (v : BitVec N.bits) → BitVec N.bits × Int
  | .ulong, forward, v =>
    let x := v &&& mask (N := .ulong) forward 0x00000000FFFFFFFF
    let (v, ret) := if x ≠ 0 then (x, if forward then 0 else 63) else (v, if forward then 32 else 31)
    narrow (N := .ulong) forward 0x0000FFFF0000FFFF 16 (v, ret)
  | .uint, forward, v =>
    let x := v &&& mask (N := .uint) forward 0x0000FFFF
    if x ≠ 0 then (x, if forward then 0 else 31) else (v, if forward then 16 else 15)

-- If forward is true, bsf is computed (the index of the first set bit).
-- If forward is false, bsr is computed (the index of the last set bit).
def softScan (forward : Bool) (v : BitVec N.bits) : Int :=
  if v = 0 then
    -1
  else
    -- This is essentially an unrolled binary search:
    let (v, ret) := start N forward v
    let (v, ret) := narrow forward 0x00FF00FF00FF00FF 8 (v, ret)
    let (v, ret) := narrow forward 0x0F0F0F0F0F0F0F0F 4 (v, ret)
    let (v, ret) := narrow forward 0x3333333333333333 2 (v, ret)
    let x := v &&& mask forward 0x5555555555555555
    if x = 0 then ret + inc forward 1 else ret

def softBsf (v : BitVec N.bits) : Int :=
  softScan true v

def softBsr (v : BitVec N.bits) : Int :=
  softScan false v

end scan

-- Range over bit set. Each element is the bit number that is set. `N` is the type of the sizes.
structure BitRange (N : Word) where
  bits : List (BitVec N.bits)        -- points at next word of bits to check
  cur  : BitVec N.bits         := 0  -- needed to allow searching bits using bsf
  idx  : BitVec N.bits         := 0  -- index of current set bit
  len  : BitVec N.bits               -- number of bits in the bit set.

namespace BitRange

variable {N : Word}

def bitsPerWord (N : Word) : BitVec N.bits :=
  BitVec.ofNat N.bits N.bits

def bsf (cur : BitVec N.bits) : BitVec N.bits :=
  BitVec.ofInt N.bits (softBsf cur)

def empty (r : BitRange N) : Bool :=
  r.idx ≥ r.len

def front (r : BitRange N) : BitVec N.bits :=
  r.idx

-- find next size_t with set bit, where `none` is an access beyond the end of the words
@[grind =]
def nextWord (len : BitVec N.bits) : (bits : List (BitVec N.bits)) → (idx : BitVec N.bits) → Option (BitRange N)
  | [], idx =>
    let idx := idx + bitsPerWord N
    if idx ≥ len then some { bits := [], idx, len } else none
  | cur :: bits, idx =>
    let idx := idx + bitsPerWord N
    if idx ≥ len then some { bits := cur :: bits, idx, len }
    else if cur = 0 then nextWord len bits idx
    else some { bits, cur, idx := idx + bsf cur, len }

def popFront (r : BitRange N) : Option (BitRange N) :=
  -- clear the current bit
  let curbit := r.idx % bitsPerWord N
  let cur := r.cur ^^^ (1 : BitVec N.bits) <<< curbit
  if cur = 0 then
    nextWord r.len r.bits (r.idx - curbit)
  else
    some { r with cur, idx := r.idx + (bsf cur - curbit) }

def new (bitarr : List (BitVec N.bits)) (numBits : BitVec N.bits) : Option (BitRange N) :=
  if numBits ≠ 0 then
    -- prime the first bit
    match bitarr with
    | []        => none
    | cur :: bits => popFront { bits, cur := cur ^^^ 1, len := numBits }
  else
    some { bits := bitarr, len := numBits }

-- The numbers that a `foreach` over the range sees, in at most `fuel` steps
@[grind =]
def foreach : (fuel : Nat) → BitRange N → Option (List (BitVec N.bits))
  | 0, _ => none
  | fuel + 1, r =>
    if r.empty then
      some []
    else do
      let rest ← foreach fuel (← r.popFront)
      return r.front :: rest

end BitRange

end Runtime.Bitop
