import DmdModel.Runtime.GC.Basic

namespace Runtime.GC

-- The fields of a pool that the table looks at.
structure PoolTable.Pool where
  baseAddr  : Nat
  topAddr   : Nat
  freepages : Nat
  npages    : Nat
  ptIndex   : Nat
  deriving DecidableEq, Repr

def PoolTable.Pool.isFree (p : Pool) : Bool :=
  p.freepages == p.npages

-- `pools` is the memory of the array of pointers, of which the first `npools` ones are in use: the
-- pools behind them were there before and are not the table's any more. `deref` has the pools that the
-- pointers of type `P` point to.
structure PoolTable (P : Type) where
  pools   : Nat → P
  npools  : Nat
  minAddr : Nat
  maxAddr : Nat
  deref   : P → PoolTable.Pool

namespace PoolTable

variable {P : Type}

-- An empty table, before its first memory was allocated.
def init (pools : Nat → P) (deref : P → Pool) : PoolTable P where
  pools   := pools
  npools  := 0
  minAddr := 0
  maxAddr := 0
  deref   := deref

def baseAddr (t : PoolTable P) (i : Nat) : Nat :=
  (t.deref (t.pools i)).baseAddr

def topAddr (t : PoolTable P) (i : Nat) : Nat :=
  (t.deref (t.pools i)).topAddr

-- The pools in the table, as `opSlice` returns them.
def opSlice (t : PoolTable P) : List P :=
  (List.range t.npools).map t.pools

-- Move `n` pointers from `src` to `dst`.
def memmove (pools : Nat → P) (dst src n : Nat) (i : Nat) : P :=
  if dst ≤ i ∧ i < dst + n then pools (i - dst + src) else pools i

variable [DecidableEq P]

-- pools[idx].ptIndex = idx
def setPtIndex (t : PoolTable P) (idx : Nat) : PoolTable P :=
  let pool := t.pools idx
  { t with deref := Function.update t.deref pool { t.deref pool with ptIndex := idx } }

-- Sort a pool into the table. `newpools` says whether there was memory for one more pointer, which
-- keeps what the memory held before.
def insert (t : PoolTable P) (pool : P) (newpools : Bool) : Bool × PoolTable P :=
  if newpools then
    let isAfter i := decide ((t.deref pool).baseAddr < t.baseAddr i)
    let i := (List.range t.npools).findIdx isAfter
    let pools := if i ≠ t.npools then memmove t.pools (i + 1) i (t.npools - i) else t.pools
    let t := { t with pools := Function.update pools i pool, npools := t.npools + 1 }
    let t := (List.range' i (t.npools - i)).foldl setPtIndex t
    (true, { t with minAddr := t.baseAddr 0, maxAddr := t.topAddr (t.npools - 1) })
  else
    (false, t)

-- The binary search for a pool. `mid - 1` is an index outside of the table if `mid` is 0.
def findPoolLoop (t : PoolTable P) (p : Nat) : (fuel low high : Nat) → Except GCError (Option P)
  | 0, _, _ => .error .endless
  | fuel + 1, low, high =>
    if low ≤ high then
      let mid := (low + high) >>> 1
      if mid ≥ t.npools then
        .error .outOfBounds
      else if p < t.baseAddr mid then
        if mid = 0 then .error .outOfBounds else t.findPoolLoop p fuel low (mid - 1)
      else if p ≥ t.topAddr mid then
        t.findPoolLoop p fuel (mid + 1) high
      else
        .ok (some (t.pools mid))
    else
      .ok none

-- The pool that an address is in.
def findPool (t : PoolTable P) (p : Nat) : Except GCError (Option P) :=
  if p ≥ t.minAddr ∧ p < t.maxAddr then
    if t.npools = 0 then
      .error .assertion
    else if t.npools = 1 then
      .ok (some (t.pools 0))
    else
      t.findPoolLoop p (t.npools + 1) 0 (t.npools - 1)
  else
    .ok none

def isFree (t : PoolTable P) (i : Nat) : Bool :=
  (t.deref (t.pools i)).isFree

def swap (t : PoolTable P) (i j : Nat) : PoolTable P :=
  { t with pools := Function.update (Function.update t.pools i (t.pools j)) j (t.pools i) }

-- One iteration of the loop that moves the pools in use in front of the free ones. `i` is the number
-- of the pools in use so far.
def keep (ti : PoolTable P × Nat) (j : Nat) : PoolTable P × Nat :=
  let (t, i) := ti
  if !t.isFree j then ((t.swap i j).setPtIndex i, i + 1) else (t, i)

-- Drop the free pools from the table and return them.
def minimize (t : PoolTable P) : List P × PoolTable P :=
  let i := (List.range t.npools).findIdx t.isFree
  let (t, i) := (List.range' (i + 1) (t.npools - (i + 1))).foldl keep (t, i)
  let t :=
    if i ≠ 0 then
      { t with minAddr := t.baseAddr 0, maxAddr := t.topAddr (i - 1) }
    else
      { t with minAddr := 0, maxAddr := 0 }
  ((List.range' i (t.npools - i)).map t.pools, { t with npools := i })

-- The assertions that the collector checks when it is debugged.
def Invariant (t : PoolTable P) : Prop :=
  t.npools ≠ 0 →
    (∀ i < t.npools, (t.deref (t.pools i)).ptIndex = i) ∧
    (∀ i < t.npools - 1, t.baseAddr i < t.baseAddr (i + 1)) ∧
    t.minAddr = t.baseAddr 0 ∧ t.maxAddr = t.topAddr (t.npools - 1)

end PoolTable
end Runtime.GC
