import DmdModel.Lib.WordBits

-- The bit vectors of the optimizer.

namespace Compiler.Backend.Dvec

abbrev Word := BitVec 64

def VECBITS : Nat  := 64
def VECMASK : Nat  := VECBITS - 1
def VECSHIFT : Nat := 6

-- The address of the first word of a vector. `none` is null.
abbrev Addr := Nat
abbrev vec_t := Option Addr

-- The word at index -2: the number of words of a vector that is in use, and the link of one in a free list.
inductive First
  | dim (n : Nat)
  | next (v : vec_t)

-- The memory of a vector: two words before its address, and `size` words from there on.
structure Block where
  first   : First
  numbits : Nat
  size    : Nat
  words   : Nat → Word

abbrev Memory := Addr → Option Block

-- A computation ends early when there is no memory left (`err_nomem`), when an assertion does not hold, and when it
-- accesses what is not the memory of a vector.
inductive Failure
  | nomem
  | assertion
  | fault
  deriving DecidableEq

def assert (p : Prop) [Decidable p] : Except Failure Unit :=
  if p then .ok () else .error .assertion

namespace Block

variable (b : Block)

def vec_dim : Except Failure Nat :=
  match b.first with
  | .dim n  => .ok n
  | .next _ => .error .fault

def next : Except Failure vec_t :=
  match b.first with
  | .dim _  => .error .fault
  | .next v => .ok v

def get (i : Nat) : Except Failure Word :=
  if i < b.size then .ok (b.words i) else .error .fault

def put (i : Nat) (x : Word) : Except Failure Block :=
  if i < b.size then .ok { b with words := Function.update b.words i x } else .error .fault

def memset (x : Word) (dim : Nat) : Except Failure Block :=
  if dim ≤ b.size then .ok { b with words := fun i => if i < dim then x else b.words i } else .error .fault

def memcpy (src : Block) (dim : Nat) : Except Failure Block :=
  if dim ≤ b.size ∧ dim ≤ src.size
  then .ok { b with words := fun i => if i < dim then src.words i else b.words i }
  else .error .fault

-- The word at index -1 is not one of the words of the vector.
def vec_clearextrabits : Except Failure Block := do
  let dim ← b.vec_dim
  if b.numbits &&& VECMASK ≠ 0 then
    if dim = 0 then .error .fault
    else
      let x ← b.get (dim - 1)
      b.put (dim - 1) (x &&& (1#64 <<< (b.numbits &&& VECMASK) - 1#64))
  else
    .ok b

end Block

namespace Memory

variable (m : Memory)

def block (v : Addr) : Except Failure Block :=
  match m v with
  | some b => .ok b
  | none   => .error .fault

def store (v : Addr) (b : Block) : Memory :=
  Function.update m v (some b)

def vec_setbit (b : Nat) (v : vec_t) : Except Failure Memory :=
  match v with
  | none   => .error .assertion
  | some v => do
    let vec ← m.block v
    assert (b < vec.numbits)
    let x ← vec.get (b >>> VECSHIFT)
    let vec ← vec.put (b >>> VECSHIFT) (x ||| 1#64 <<< (b &&& VECMASK))
    return m.store v vec

def vec_clearbit (b : Nat) (v : vec_t) : Except Failure Memory :=
  match v with
  | none   => .error .assertion
  | some v => do
    let vec ← m.block v
    assert (b < vec.numbits)
    let x ← vec.get (b >>> VECSHIFT)
    let vec ← vec.put (b >>> VECSHIFT) (x &&& ~~~(1#64 <<< (b &&& VECMASK)))
    return m.store v vec

def vec_testbit (b : Nat) (v : vec_t) : Except Failure Bool :=
  match v with
  | none   => .ok false
  | some v => do
    let vec ← m.block v
    assert (b < vec.numbits)
    let x ← vec.get (b >>> VECSHIFT)
    return x.getLsbD (b &&& VECMASK)

-- The loop over the bits of a word. It gives the bit that it stops at, and whether this one is set.
def shiftOut (starv : Word) (b : Nat) : Bool × Nat :=
  if hzero : starv = 0 then (false, b)
  else if starv.getLsbD 0 then (true, b)
  else shiftOut (starv >>> 1) ((b + 1) % 2 ^ 64)
termination_by starv.toNat
decreasing_by
  rw [BitVec.toNat_ushiftRight, Nat.shiftRight_eq_div_pow]
  have hne : starv.toNat ≠ 0 := fun h => hzero (BitVec.eq_of_toNat_eq h)
  omega

def vec_index.loop (vec : Block) (dim : Nat) (starv : Word) (b k : Nat) : Except Failure Nat :=
  match shiftOut starv b with
  | (true, b)  => .ok b
  | (false, b) =>
    if k + 1 ≥ dim then .ok vec.numbits
    else do
      let starv ← vec.get (k + 1)
      loop vec dim starv ((b + VECBITS) % 2 ^ 64 / VECBITS * VECBITS) (k + 1)
termination_by dim - k

def vec_index (b : Nat) (v : vec_t) : Except Failure Nat :=
  match v with
  | none   => .ok 0
  | some v => do
    let vec ← m.block v
    if b < vec.numbits then
      let dim ← vec.vec_dim
      let bit := b &&& VECMASK
      let k := if bit ≠ b then b >>> VECSHIFT else 0
      let x ← vec.get k
      vec_index.loop vec dim (x >>> bit) b k
    else
      .ok vec.numbits

def numbits (v : vec_t) : Except Failure Nat :=
  match v with
  | none   => .error .fault
  | some v => do
    let vec ← m.block v
    return vec.numbits

-- The loop of `vec_numBitsSet` with `i` before the call of `vec_index`.
def vec_numBitsSet.loop (v : vec_t) (length : Nat) : Nat → Nat → Nat → Except Failure (Option Nat)
  | 0, _, _          => .ok none
  | fuel + 1, i, n => do
    let i ← m.vec_index i v
    if i < length then loop v length fuel ((i + 1) % 2 ^ 64) ((n + 1) % 2 ^ 32) else .ok (some n)

-- The number of set bits, of the type `uint`. `none` is that the loop is not over yet.
def vec_numBitsSet (v : vec_t) (fuel : Nat) : Except Failure (Option Nat) := do
  let length ← m.numbits v
  vec_numBitsSet.loop m v length fuel 0 0

structure VecRange where
  i : Nat
  v : vec_t

namespace VecRange

def new (v : vec_t) : Except Failure VecRange := do
  let i ← m.vec_index 0 v
  return { i, v }

def empty (r : VecRange) : Except Failure Bool := do
  let n ← m.numbits r.v
  return r.i == n

def front (r : VecRange) : Nat :=
  r.i

def popFront (r : VecRange) : Except Failure VecRange := do
  let i ← m.vec_index ((r.i + 1) % 2 ^ 64) r.v
  return { r with i }

-- What `foreach` visits. `none` is that the loop is not over yet.
def foreach : Nat → VecRange → Except Failure (Option (List Nat))
  | 0, _        => .ok none
  | fuel + 1, r => do
    if ← r.empty m then .ok (some [])
    else
      let next ← r.popFront m
      let rest ← foreach fuel next
      return rest.map (r.front :: ·)

end VecRange

-- `*v1 = f(*v2, *v3)` for the words up to `dim`. The vectors can be the same.
def assignWords (f : Word → Word → Word) (v1 v2 v3 : Addr) (dim : Nat) : Except Failure Memory :=
  (List.range dim).foldlM (fun m i => do
    let b2 ← m.block v2
    let b3 ← m.block v3
    let x ← b2.get i
    let y ← b3.get i
    let b1 ← m.block v1
    let b1 ← b1.put i (f x y)
    return m.store v1 b1) m

-- `v1 f= v2`
def assignOp (f : Word → Word → Word) (v1 v2 : vec_t) : Except Failure Memory :=
  match v1, v2 with
  | some v1, some v2 => do
    let b1 ← m.block v1
    let b2 ← m.block v2
    assert (b1.numbits = b2.numbits)
    let dim ← b1.vec_dim
    m.assignWords f v1 v1 v2 dim
  | none, none       => .ok m
  | _, _             => .error .assertion

-- `v1 = v2 f v3`
def assign (f : Word → Word → Word) (v1 v2 v3 : vec_t) : Except Failure Memory :=
  match v1, v2, v3 with
  | some v1, some v2, some v3 => do
    let b1 ← m.block v1
    let b2 ← m.block v2
    let b3 ← m.block v3
    assert (b1.numbits = b2.numbits ∧ b1.numbits = b3.numbits)
    let dim ← b1.vec_dim
    m.assignWords f v1 v2 v3 dim
  | none, none, none          => .ok m
  | _, _, _                   => .error .assertion

def vec_andass := m.assignOp fun x y => x &&& y
def vec_xorass := m.assignOp fun x y => x ^^^ y
def vec_subass := m.assignOp fun x y => x &&& ~~~y
def vec_and    := m.assign fun x y => x &&& y
def vec_xor    := m.assign fun x y => x ^^^ y
def vec_or     := m.assign fun x y => x ||| y
def vec_sub    := m.assign fun x y => x &&& ~~~y

-- The assertions of this one on the second vector are for debugging only.
def vec_orass (v1 v2 : vec_t) : Except Failure Memory :=
  match v1, v2 with
  | some v1, some v2 => do
    let b1 ← m.block v1
    let dim ← b1.vec_dim
    m.assignWords (fun x y => x ||| y) v1 v1 v2 dim
  | none, none       => .ok m
  | some _, none     => .error .fault
  | none, some _     => .error .assertion

def vec_clear (v : vec_t) : Except Failure Memory :=
  match v with
  | none   => .ok m
  | some v => do
    let b ← m.block v
    let dim ← b.vec_dim
    let b ← b.memset 0 dim
    return m.store v b

def vec_set (v : vec_t) : Except Failure Memory :=
  match v with
  | none   => .ok m
  | some v => do
    let b ← m.block v
    let dim ← b.vec_dim
    let b ← b.memset (~~~0) dim
    let b ← b.vec_clearextrabits
    return m.store v b

def vec_copy (vto vfrom : vec_t) : Except Failure Memory :=
  if vto = vfrom then .ok m
  else
    match vto, vfrom with
    | some vto, some vfrom => do
      let bto ← m.block vto
      let bfrom ← m.block vfrom
      assert (bto.numbits = bfrom.numbits)
      let dim ← bto.vec_dim
      let b ← bto.memcpy bfrom dim
      return m.store vto b
    | _, _ => .error .assertion

-- Whether `p` holds for all pairs of words. The loop is left at the first pair for which it does not.
def allWords (p : Word → Word → Bool) (b1 b2 : Block) : List Nat → Except Failure Bool
  | []      => .ok true
  | i :: is => do
    let x ← b1.get i
    let y ← b2.get i
    if p x y then allWords p b1 b2 is else .ok false

def vec_equal (v1 v2 : vec_t) : Except Failure Bool :=
  if v1 = v2 then .ok true
  else
    match v1, v2 with
    | some v1, some v2 => do
      let b1 ← m.block v1
      let b2 ← m.block v2
      assert (b1.numbits = b2.numbits)
      let dim ← b1.vec_dim
      allWords (fun x y => x == y) b1 b2 (List.range dim)
    | _, _ => .error .assertion

def vec_disjoint (v1 v2 : vec_t) : Except Failure Bool :=
  match v1, v2 with
  | some v1, some v2 => do
    let b1 ← m.block v1
    let b2 ← m.block v2
    assert (b1.numbits = b2.numbits)
    let dim ← b1.vec_dim
    allWords (fun x y => x &&& y == 0) b1 b2 (List.range dim)
  | _, _ => .error .assertion

end Memory

-- `calloc` for a number of words: memory that is not in use, or null.
structure Allocator where
  calloc : Memory → Nat → vec_t
  fresh  : ∀ m dim v, calloc m dim = some v → m v = none

structure VecGlobal where
  count    : Int
  freelist : Nat → vec_t
  memory   : Memory

namespace VecGlobal

def initial : VecGlobal where
  count      := 0
  freelist _ := none
  memory _   := none

def freelistLength : Nat := 30

variable (A : Allocator) (g : VecGlobal)

-- The first vector in the list for this number of words, if there is such a list.
def listed (dim : Nat) : vec_t :=
  if dim < freelistLength then g.freelist dim else none

def allocate (numbits : Nat) : Except Failure (vec_t × VecGlobal) :=
  if numbits = 0 then .ok (none, g)
  else
    let dim := ((numbits + (VECBITS - 1)) % 2 ^ 64) >>> VECSHIFT
    match g.listed dim with
    | some v => do
      let b ← g.memory.block v
      let next ← b.next
      let b ← b.memset 0 dim
      return (some v, {
        count    := g.count + 1
        freelist := Function.update g.freelist dim next
        memory   := g.memory.store v { b with first := .dim dim, numbits := numbits }
      })
    | none =>
      if dim ≥ (2 ^ 64 - 1) / 8 - 1024 then .error .nomem
      else
        match A.calloc g.memory dim with
        | none   => .error .nomem
        | some v => .ok (some v, {
            count    := g.count + 1
            freelist := g.freelist
            memory   := g.memory.store v { first := .dim dim, numbits := numbits, size := dim, words := fun _ => 0 }
          })

-- The words before the vector are copied too.
def dup (v : vec_t) : Except Failure (vec_t × VecGlobal) :=
  match v with
  | none   => .ok (none, g)
  | some v => do
    let b ← g.memory.block v
    let dim ← b.vec_dim
    match g.listed dim with
    | some vc => do
      let bc ← g.memory.block vc
      let next ← bc.next
      let bc ← bc.memcpy b dim
      return (some vc, {
        count    := g.count + 1
        freelist := Function.update g.freelist dim next
        memory   := g.memory.store vc { bc with first := b.first, numbits := b.numbits }
      })
    | none =>
      match A.calloc g.memory dim with
      | none    => .error .nomem
      | some vc => do
        let bc ← Block.memcpy { first := b.first, numbits := b.numbits, size := dim, words := fun _ => 0 } b dim
        return (some vc, { g with count := g.count + 1, memory := g.memory.store vc bc })

def free (v : vec_t) : Except Failure VecGlobal :=
  match v with
  | none   => .ok g
  | some v => do
    let b ← g.memory.block v
    let dim ← b.vec_dim
    if dim < freelistLength then
      return {
        count    := g.count - 1
        freelist := Function.update g.freelist dim (some v)
        memory   := g.memory.store v { b with first := .next (g.freelist dim) }
      }
    else
      return { g with count := g.count - 1, memory := Function.update g.memory v none }

def vec_calloc (numbits : Nat) : Except Failure (vec_t × VecGlobal) :=
  g.allocate A numbits

def vec_clone (v : vec_t) : Except Failure (vec_t × VecGlobal) :=
  g.dup A v

def vec_free (v : vec_t) : Except Failure VecGlobal :=
  g.free v

def vec_realloc (v : vec_t) (numbits : Nat) : Except Failure (vec_t × VecGlobal) :=
  match v with
  | none   => g.vec_calloc A numbits
  | some v => do
    if numbits = 0 then
      let g ← g.vec_free (some v)
      return (none, g)
    else
      let vbits ← g.memory.numbits (some v)
      if numbits = vbits then return (some v, g)
      else
        let (newv, g) ← g.vec_calloc A numbits
        let g ← match newv with
          | none      => .ok g
          | some newv => do
            let b ← g.memory.block v
            let bnew ← g.memory.block newv
            let dim ← b.vec_dim
            let dimnew ← bnew.vec_dim
            let nbytes := if dim < dimnew then dim else dimnew
            let bnew ← bnew.memcpy b nbytes
            let bnew ← bnew.vec_clearextrabits
            .ok { g with memory := g.memory.store newv bnew }
        let g ← g.vec_free (some v)
        return (newv, g)

def vec_recycle (v : vec_t) (numbits : Nat) : Except Failure (vec_t × VecGlobal) := do
  let g ← g.vec_free v
  g.vec_calloc A numbits

end VecGlobal
end Compiler.Backend.Dvec

-- What the bit vectors of the optimizer are for: sets of numbers below a bound.

namespace Compiler.Backend.Dvec

-- A subset of the numbers below `numbits`.
@[ext]
structure BitSet where
  numbits : Nat
  members : Finset Nat
  within  : ∀ i ∈ members, i < numbits

namespace BitSet

def of (numbits : Nat) (f : Finset Nat) : BitSet where
  numbits := numbits
  members := f.filter (· < numbits)
  within  := fun _ h => (Finset.mem_filter.mp h).right

def empty (numbits : Nat) : BitSet :=
  of numbits ∅

def full (numbits : Nat) : BitSet :=
  of numbits (Finset.range numbits)

variable (s : BitSet)

def insert (b : Nat) : BitSet :=
  of s.numbits (Insert.insert b s.members)

def erase (b : Nat) : BitSet :=
  of s.numbits (s.members.erase b)

-- There are no vectors of size 0.
def new (numbits : Nat) : Option BitSet :=
  if numbits = 0 then none else some (empty numbits)

def resize (numbits : Nat) : Option BitSet :=
  if numbits = 0 then none else some (of numbits s.members)

end BitSet

inductive SetOp
  | and
  | or
  | xor
  | sub

def SetOp.apply : SetOp → Finset Nat → Finset Nat → Finset Nat
  | .and, s, t => s ∩ t
  | .or, s, t  => s ∪ t
  | .xor, s, t => symmDiff s t
  | .sub, s, t => s \ t

-- The vectors that are in use.
abbrev Sets := Addr → Option BitSet

namespace Sets

variable (a : Sets)

def set (v : Addr) (s : BitSet) : Sets :=
  Function.update a v (some s)

def remove (v : Addr) : Sets :=
  Function.update a v none

-- A result that is a new vector has not been in use.
def Returned (s : Option BitSet) (r : vec_t) : Prop :=
  match s, r with
  | some _, some v => a v = none
  | none, none     => True
  | _, _           => False

def place (s : Option BitSet) (r : vec_t) : Sets :=
  match s, r with
  | some s, some v => a.set v s
  | _, _           => a

-- `v1 = v2 f v3`
def combine (f : SetOp) (v1 v2 v3 : vec_t) : Option Sets :=
  match v1, v2, v3 with
  | none, none, none          => some a
  | some v1, some v2, some v3 => do
    let s1 ← a v1
    let s2 ← a v2
    let s3 ← a v3
    if s1.numbits = s2.numbits ∧ s1.numbits = s3.numbits
    then some (a.set v1 (.of s1.numbits (f.apply s2.members s3.members)))
    else none
  | _, _, _                   => none

end Sets

inductive Op
  | calloc (numbits : Nat)
  | clone (v : vec_t)
  | realloc (v : vec_t) (numbits : Nat)
  | recycle (v : vec_t) (numbits : Nat)
  | free (v : vec_t)
  | setbit (b : Nat) (v : vec_t)
  | clearbit (b : Nat) (v : vec_t)
  | set (v : vec_t)
  | clear (v : vec_t)
  | copy (vto vfrom : vec_t)
  | ass (f : SetOp) (v1 v2 : vec_t)
  | op (f : SetOp) (v1 v2 v3 : vec_t)

namespace Op

-- The sets after an operation, and the set of the vector that it returns. There is no result for operands that are not
-- in use, are of different sizes or have no such bit.
def effect : Op → Sets → Option (Sets × Option BitSet)
  | calloc n, a              => some (a, BitSet.new n)
  | clone none, a            => some (a, none)
  | clone (some v), a        => do
    let s ← a v
    return (a, some s)
  | realloc none n, a        => some (a, BitSet.new n)
  | realloc (some v) n, a    => do
    let s ← a v
    return (a.remove v, s.resize n)
  | recycle none n, a        => some (a, BitSet.new n)
  | recycle (some v) n, a    => do
    let _ ← a v
    return (a.remove v, BitSet.new n)
  | free none, a             => some (a, none)
  | free (some v), a         => do
    let _ ← a v
    return (a.remove v, none)
  | setbit _ none, _         => none
  | setbit b (some v), a     => do
    let s ← a v
    if b < s.numbits then some (a.set v (s.insert b), none) else none
  | clearbit _ none, _       => none
  | clearbit b (some v), a   => do
    let s ← a v
    if b < s.numbits then some (a.set v (s.erase b), none) else none
  | set none, a              => some (a, none)
  | set (some v), a          => do
    let s ← a v
    return (a.set v (.full s.numbits), none)
  | clear none, a            => some (a, none)
  | clear (some v), a        => do
    let s ← a v
    return (a.set v (.empty s.numbits), none)
  | copy none none, a        => some (a, none)
  | copy (some v) (some w), a => do
    let s ← a v
    let t ← a w
    if s.numbits = t.numbits then some (a.set v t, none) else none
  | copy _ _, _              => none
  | ass f v1 v2, a           => (a.combine f v1 v1 v2).map (·, none)
  | op f v1 v2 v3, a         => (a.combine f v1 v2 v3).map (·, none)

-- The size that an operation is for, if there is one.
def size : Op → Option Nat
  | calloc n    => some n
  | realloc _ n => some n
  | recycle _ n => some n
  | _           => none

-- The sizes of the type `size_t`.
def Valid (op : Op) : Prop :=
  ∀ n ∈ op.size, n < 2 ^ 64

-- The sizes that can be rounded up to a number of words without an overflow.
def Fits (op : Op) : Prop :=
  ∀ n ∈ op.size, n + 63 < 2 ^ 64

end Op

namespace VecGlobal

variable (A : Allocator) (g : VecGlobal)

-- A function that does not return a vector.
def change (m : Except Failure Memory) : Except Failure (vec_t × VecGlobal) := do
  let memory ← m
  return (none, { g with memory })

def exec : Op → Except Failure (vec_t × VecGlobal)
  | .calloc n       => g.vec_calloc A n
  | .clone v        => g.vec_clone A v
  | .realloc v n    => g.vec_realloc A v n
  | .recycle v n    => g.vec_recycle A v n
  | .free v         => do
    let g ← g.vec_free v
    return (none, g)
  | .setbit b v     => g.change (g.memory.vec_setbit b v)
  | .clearbit b v   => g.change (g.memory.vec_clearbit b v)
  | .set v          => g.change (g.memory.vec_set v)
  | .clear v        => g.change (g.memory.vec_clear v)
  | .copy v w       => g.change (g.memory.vec_copy v w)
  | .ass .and v1 v2 => g.change (g.memory.vec_andass v1 v2)
  | .ass .or v1 v2  => g.change (g.memory.vec_orass v1 v2)
  | .ass .xor v1 v2 => g.change (g.memory.vec_xorass v1 v2)
  | .ass .sub v1 v2 => g.change (g.memory.vec_subass v1 v2)
  | .op .and v1 v2 v3 => g.change (g.memory.vec_and v1 v2 v3)
  | .op .or v1 v2 v3  => g.change (g.memory.vec_or v1 v2 v3)
  | .op .xor v1 v2 v3 => g.change (g.memory.vec_xor v1 v2 v3)
  | .op .sub v1 v2 v3 => g.change (g.memory.vec_sub v1 v2 v3)

end VecGlobal

-- The states after any operations that meet `ok`, each of them with operands that are in use.
inductive Run (A : Allocator) (ok : Op → Prop) : VecGlobal → Sets → Prop
  | initial : Run A ok .initial fun _ => none
  | step {g g' : VecGlobal} {a a' : Sets} {op : Op} {s : Option BitSet} {r : vec_t} :
    Run A ok g a → ok op → op.effect a = some (a', s) → g.exec A op = .ok (r, g') → Run A ok g' (a'.place s r)

-- The smallest member from `b` on, or the number of bits if there is none.
def BitSet.IsNext (s : BitSet) (b i : Nat) : Prop :=
  (i ∈ s.members ∧ b ≤ i ∧ ∀ j ∈ s.members, b ≤ j → i ≤ j) ∨ (i = s.numbits ∧ ∀ j ∈ s.members, j < b)

-- The vectors in use hold their sets, and what the functions find in the vectors is what holds for the sets.
structure Agrees (A : Allocator) (ok : Op → Prop) (g : VecGlobal) (a : Sets) : Prop where
  -- An operation is done, unless there is no memory for a new vector.
  exec       : ∀ op a' s, ok op → op.effect a = some (a', s) →
    g.exec A op = .error .nomem ∨ ∃ r g', g.exec A op = .ok (r, g') ∧ a'.Returned s r
  numbits    : ∀ v s, a v = some s → g.memory.numbits (some v) = .ok s.numbits
  testbit    : ∀ v s b, a v = some s → b < s.numbits → g.memory.vec_testbit b (some v) = .ok (decide (b ∈ s.members))
  unused     : ∀ v s, a v = some s → ∃ b, g.memory v = some b ∧
    ∀ i < b.size * VECBITS, s.numbits ≤ i → WordBits.bit b.words i = false
  equal      : ∀ v w s t, a v = some s → a w = some t → s.numbits = t.numbits →
    g.memory.vec_equal (some v) (some w) = .ok (decide (s.members = t.members))
  disjoint   : ∀ v w s t, a v = some s → a w = some t → s.numbits = t.numbits →
    g.memory.vec_disjoint (some v) (some w) = .ok (decide (Disjoint s.members t.members))
  index      : ∀ v s b, a v = some s → ∃ i, g.memory.vec_index b (some v) = .ok i ∧ s.IsNext b i
  numBitsSet : ∀ v s, a v = some s → ∃ fuel,
    g.memory.vec_numBitsSet (some v) fuel = .ok (some (s.members.card % 2 ^ 32))
  range      : ∀ v s, a v = some s → ∃ fuel r,
    Memory.VecRange.new g.memory (some v) = .ok r ∧ r.foreach g.memory fuel = .ok (some (s.members.sort (· ≤ ·)))

end Compiler.Backend.Dvec
