import DmdModel.Runtime.GC.Basic

namespace Runtime.GC

-- `bPageOffsets` holds the length of a block or a free run in its first page (for a free run also in
-- its last one), and in the other pages of a block how far back the first one is. `attrs` are the
-- bits of the attributes by page.
structure LargeObjectPool where
  baseAddr     : Nat
  npages       : Nat
  freepages    : Nat
  pagetable    : List Bins
  bPageOffsets : List UInt32
  searchStart  : Nat
  largestFree  : Nat
  attrs        : List UInt32
  deriving DecidableEq, Repr

namespace LargeObjectPool

def topAddr (p : LargeObjectPool) : Nat :=
  p.baseAddr + p.npages * PAGESIZE

-- Page `i` of the page table, if it is inside.
def bin (p : LargeObjectPool) (i : Nat) : Except GCError Bins :=
  p.pagetable[i]?.elim (.error .outOfBounds) .ok

def pageOffset (p : LargeObjectPool) (i : Nat) : Except GCError Nat :=
  p.bPageOffsets[i]?.elim (.error .outOfBounds) fun n => .ok n.toNat

def setBin (p : LargeObjectPool) (i : Nat) (b : Bins) : Except GCError LargeObjectPool :=
  if i < p.pagetable.length then
    .ok { p with pagetable := p.pagetable.set i b }
  else
    .error .outOfBounds

def setPageOffset (p : LargeObjectPool) (i n : Nat) : Except GCError LargeObjectPool :=
  if i < p.bPageOffsets.length then
    .ok { p with bPageOffsets := p.bPageOffsets.set i n.toUInt32 }
  else
    .error .outOfBounds

-- memset(&pagetable[i], b, n)
def memset (p : LargeObjectPool) (i : Nat) (b : Bins) (n : Nat) : Except GCError LargeObjectPool :=
  (List.range' i n).foldlM (fun p j => p.setBin j b) p

-- bPageOffsets[pagenum + offset] = offset, for n offsets from the first one on
def setPageOffsets (p : LargeObjectPool) (pagenum first n : Nat) : Except GCError LargeObjectPool :=
  (List.range' first n).foldlM (fun p offset => p.setPageOffset (pagenum + offset) offset) p

def getBits (p : LargeObjectPool) (biti : Nat) : UInt32 :=
  p.attrs.getD biti 0

def clrBits (p : LargeObjectPool) (biti : Nat) (mask : UInt32) : LargeObjectPool :=
  { p with attrs := p.attrs.modify biti (· &&& ~~~mask) }

def setBits (p : LargeObjectPool) (biti : Nat) (mask : UInt32) : LargeObjectPool :=
  { p with attrs := p.attrs.modify biti (· ||| (mask &&& BlkAttr.LARGE)) }

-- A new pool. The offsets other than the first and the last one are what is found in the memory.
def fresh (baseAddr npages : Nat) (memory : List UInt32) : LargeObjectPool where
  baseAddr     := baseAddr
  npages       := npages
  freepages    := npages
  pagetable    := List.replicate npages .B_FREE
  bPageOffsets := (memory.set 0 npages.toUInt32).set (npages - 1) npages.toUInt32
  searchStart  := 0
  largestFree  := npages
  attrs        := List.replicate npages 0

-- The loop of `Invariant`, the check that the source runs in debug builds.
def invariantLoop (p : LargeObjectPool) : (fuel n : Nat) → Except GCError Unit
  | 0, _ => .error .endless
  | fuel + 1, n => do
    if n < p.npages then
      let np ← p.pageOffset n
      if ¬(np > 0 ∧ np ≤ p.npages - n) then
        throw .assertion
      match ← p.bin n with
      | .B_PAGE =>
        (List.range' 1 (np - 1)).forM fun i => do
          if (← p.bin (n + i)) ≠ .B_PAGEPLUS then
            throw .assertion
          if (← p.pageOffset (n + i)) ≠ i then
            throw .assertion
      | .B_FREE =>
        (List.range' 1 (np - 1)).forM fun i => do
          if (← p.bin (n + i)) ≠ .B_FREE then
            throw .assertion
        if (← p.pageOffset (n + np - 1)) ≠ np then
          throw .assertion
      | _ => throw .assertion
      invariantLoop p fuel (n + np)
    else
      return ()

def Invariant (p : LargeObjectPool) : Except GCError Unit :=
  p.invariantLoop (p.npages + 1) 0

-- Set the first and the last entry of a B_FREE block to the size.
def setFreePageOffsets (p : LargeObjectPool) (page num : Nat) : Except GCError LargeObjectPool := do
  if (← p.bin page) ≠ .B_FREE then
    throw .assertion
  if (← p.bin (page + num - 1)) ≠ .B_FREE then
    throw .assertion
  let p ← p.setPageOffset page num
  if num > 1 then p.setPageOffset (page + num - 1) num else return p

-- The length of the free run right before `page`, and of the one that begins at `page`; 0 if there is
-- none, or none is to be merged.
def freeBefore (p : LargeObjectPool) (bwd : Bool) (page : Nat) : Except GCError Nat := do
  if bwd ∧ page > 0 then
    if (← p.bin (page - 1)) = .B_FREE then p.pageOffset (page - 1) else return 0
  else
    return 0

def freeBehind (p : LargeObjectPool) (fwd : Bool) (page : Nat) : Except GCError Nat := do
  if fwd ∧ page < p.npages then
    if (← p.bin page) = .B_FREE then p.pageOffset page else return 0
  else
    return 0

def mergeFreePageOffsets (bwd fwd : Bool) (p : LargeObjectPool) (page num : Nat) :
    Except GCError LargeObjectPool := do
  let sz ← p.freeBefore bwd page
  let page := page - sz
  let num := num + sz
  let sz ← p.freeBehind fwd (page + num)
  p.setFreePageOffsets page (num + sz)

-- One page in the loop of `freePages`.
def freePage (p : LargeObjectPool) (i : Nat) : Except GCError LargeObjectPool := do
  if (← p.bin i) = .B_FREE then
    throw .assertion
  p.setBin i .B_FREE

-- Free npages pages starting with pagenum.
def freePages (p : LargeObjectPool) (pagenum npages : Nat) : Except GCError LargeObjectPool := do
  let p := if pagenum < p.searchStart then { p with searchStart := pagenum } else p
  let p ← (List.range' pagenum npages).foldlM freePage p
  let freepages := p.freepages + npages
  return { p with freepages := freepages, largestFree := freepages }

-- The first page from `i` on that does not start a block. `fuel` bounds the number of blocks.
def skipPages (p : LargeObjectPool) : (fuel i : Nat) → Except GCError Nat
  | 0, _ => .error .endless
  | fuel + 1, i => do
    if i < p.npages then
      if (← p.bin i) = .B_PAGE then
        skipPages p fuel (i + (← p.pageOffset i))
      else
        return i
    else
      return i

-- The label L_found of `allocPages`. The counter of its loop is an `int`, which gets negative after
-- 2^31 - 1 and then ends the loop.
def foundPages (p : LargeObjectPool) (i n : Nat) : Except GCError LargeObjectPool := do
  let p ← p.setBin i .B_PAGE
  let p ← p.setPageOffset i n
  let p ←
    if n > 1 then do
      let p ← p.memset (i + 1) .B_PAGEPLUS (n - 1)
      p.setPageOffsets i 1 (min n (2 ^ 31) - 1)
    else
      pure p
  return { p with freepages := p.freepages - n }

-- The first page at or after `i` whose absolute page number is a multiple of pageAlign.
def alignedPage (p : LargeObjectPool) (pageAlign i : Nat) : Nat :=
  let basePage := p.baseAddr / PAGESIZE
  ((basePage + i + pageAlign - 1) &&& (2 ^ 64 - pageAlign)) - basePage

-- Mark what is left of the free run of `len` pages at `i` on both sides of `n` pages in it.
def markRest (p : LargeObjectPool) (i len ialigned n : Nat) : Except GCError LargeObjectPool := do
  let p ←
    if ialigned + n < i + len then
      p.setFreePageOffsets (ialigned + n) (i + len - (ialigned + n))
    else
      pure p
  if ialigned > i then p.setFreePageOffsets i (ialigned - i) else return p

-- Allocate in the free run of `len` pages at `i`, if it has room.
def allocInRun (p : LargeObjectPool) (n pageAlign i len : Nat) :
    Except GCError (Option (Nat × LargeObjectPool)) := do
  if pageAlign > 1 then
    let ialigned := p.alignedPage pageAlign i
    if ialigned + n > i + len then
      return none
    let p ← p.markRest i len ialigned n
    return some (ialigned, ← p.foundPages ialigned n)
  else if len > n then
    let p ← p.setFreePageOffsets (i + n) (len - n)
    return some (i, ← p.foundPages i n)
  else if len = n then
    return some (i, ← p.foundPages i n)
  else
    return none

def allocPagesLoop (p : LargeObjectPool) (n pageAlign : Nat) :
    (fuel i largest : Nat) → Except GCError (Option Nat × LargeObjectPool)
  | 0, _, _ => .error .endless
  | fuel + 1, i, largest => do
    if i < p.npages then
      if (← p.bin i) ≠ .B_FREE then
        throw .assertion
      let len ← p.pageOffset i
      match ← p.allocInRun n pageAlign i len with
      | some (i, p) => return (some i, p)
      | none        =>
        let i ← p.skipPages (p.npages + 1) (i + len)
        allocPagesLoop p n pageAlign fuel i (max len largest)
    else
      -- not enough free pages found, remember largest free chunk
      return (none, { p with largestFree := largest })

-- Allocate n pages from the pool; none on failure.
def allocPages (p : LargeObjectPool) (n pageAlign : Nat) :
    Except GCError (Option Nat × LargeObjectPool) := do
  if p.largestFree < n ∨ p.searchStart + n > p.npages then
    return (none, p)
  let mut searchStart := p.searchStart
  if (← p.bin searchStart) = .B_PAGEPLUS then
    searchStart := searchStart - (← p.pageOffset searchStart) -- jump to B_PAGE
    searchStart := searchStart + (← p.pageOffset searchStart)
  searchStart ← p.skipPages (p.npages + 1) searchStart
  allocPagesLoop { p with searchStart := searchStart } n pageAlign (p.npages + 1) searchStart 0

-- Whether the pool has the address, as `findPool` tells.
def contains (p : LargeObjectPool) (ptr : Nat) : Bool :=
  p.baseAddr ≤ ptr ∧ ptr < p.topAddr

def pagenumOf (p : LargeObjectPool) (ptr : Nat) : Nat :=
  (ptr - p.baseAddr) / PAGESIZE

-- The number of pages of the allocation at `ptr`, 0 for any other pointer.
def getPages (p : LargeObjectPool) (ptr : Nat) : Except GCError Nat := do
  if ptr % PAGESIZE ≠ 0 then
    return 0
  let pagenum := p.pagenumOf ptr
  if (← p.bin pagenum) ≠ .B_PAGE then
    return 0
  p.pageOffset pagenum

def findBase (p : LargeObjectPool) (ptr : Nat) : Except GCError (Option Nat) := do
  let offset := ptr - p.baseAddr
  let pn := offset / PAGESIZE
  match ← p.bin pn with
  | .B_SMALL _  => throw .assertion
  | .B_PAGE     => return some (p.baseAddr + (offset - offset % PAGESIZE))
  | .B_PAGEPLUS =>
    let offset := offset - (← p.pageOffset pn) * PAGESIZE
    return some (p.baseAddr + (offset - offset % PAGESIZE))
  | .B_FREE     => return none

def getSize (p : LargeObjectPool) (pn : Nat) : Except GCError Nat := do
  if (← p.bin pn) ≠ .B_PAGE then
    throw .assertion
  return (← p.pageOffset pn) * PAGESIZE

def getInfo (p : LargeObjectPool) (ptr : Nat) : Except GCError BlkInfo := do
  let offset := ptr - p.baseAddr
  let pn := offset / PAGESIZE
  let bin ← p.bin pn
  let mut pn := pn
  if bin = .B_PAGEPLUS then
    pn := pn - (← p.pageOffset pn)
  else if bin ≠ .B_PAGE then
    return .init -- no info for free pages
  return { base := p.baseAddr + pn * PAGESIZE, size := ← p.getSize pn, attr := p.getBits pn }

-- `freeNoSync` for a pointer that `findPool` finds in the pool.
def freeNoSync (p : LargeObjectPool) (ptr : Nat) : Except GCError (Bool × LargeObjectPool) := do
  let pagenum := p.pagenumOf ptr
  match ← p.bin pagenum with
  | .B_PAGEPLUS | .B_FREE => return (false, p)
  | .B_SMALL _            => throw .assertion
  | .B_PAGE               =>
    let off := ptr - p.baseAddr
    if off ≠ off - off % PAGESIZE then
      return (false, p)
    let npages ← p.pageOffset pagenum
    let p ← p.freePages pagenum npages
    let p ← p.mergeFreePageOffsets true true pagenum npages
    return (true, p.clrBits pagenum (~~~BlkAttr.NONE))

-- What `extendNoSync` and `reallocNoSync` do to let a block of `psz` pages grow by `sz` pages, into the
-- free run of `freesz` pages behind it.
def growBlock (p : LargeObjectPool) (pagenum psz sz freesz : Nat) :
    Except GCError LargeObjectPool := do
  let p ← p.memset (pagenum + psz) .B_PAGEPLUS sz
  let p ← p.setPageOffset pagenum (psz + sz)
  let p ← p.setPageOffsets pagenum psz sz
  let p ← if freesz > sz then p.setFreePageOffsets (pagenum + psz + sz) (freesz - sz) else pure p
  return { p with freepages := p.freepages - sz }

-- `extendNoSync`: the new size (0 on failure) and the number of pages that the block grows by.
def extendNoSync (p : LargeObjectPool) (ptr minsize maxsize : Nat) :
    Except GCError (Nat × Nat × LargeObjectPool) := do
  let pagenum := p.pagenumOf ptr
  if (← p.bin pagenum) ≠ .B_PAGE then
    return (0, 0, p)
  let psz ← p.pageOffset pagenum
  if psz = 0 then
    throw .assertion
  let minsz := numPages minsize
  let maxsz := numPages maxsize
  if pagenum + psz ≥ p.npages then
    return (0, 0, p)
  if (← p.bin (pagenum + psz)) ≠ .B_FREE then
    return (0, 0, p)
  let freesz ← p.pageOffset (pagenum + psz)
  if freesz < minsz then
    return (0, 0, p)
  let sz := if freesz > maxsz then maxsz else freesz
  let p ← p.growBlock pagenum psz sz freesz
  return ((psz + sz) * PAGESIZE, sz, p)

-- What `reallocNoSync` does for a pointer into the pool: it returns null, it has to move the block
-- (`doMalloc`), or it keeps the block in place, with a new size in bytes and a number of pages that
-- the block grows by.
inductive Realloc
  | null
  | doMalloc
  | inPlace (allocSize grown : Nat)
  deriving DecidableEq, Repr

def reallocNoSync (p : LargeObjectPool) (ptr size : Nat) (bits : UInt32) :
    Except GCError (Realloc × LargeObjectPool) := do
  let psz ← p.getPages ptr -- get allocated size
  if psz = 0 then
    return (.null, p) -- interior pointer
  let pagenum := p.pagenumOf ptr
  if size ≤ PAGESIZE / 2 then
    return (.doMalloc, p) -- switching from large object pool to small object pool
  let newsz := numPages size
  let setAttr (p : LargeObjectPool) :=
    if bits ≠ 0 then (p.clrBits pagenum (~~~BlkAttr.NONE)).setBits pagenum bits else p
  if newsz = psz then
    return (.inPlace (newsz * PAGESIZE) 0, setAttr p)
  else if newsz < psz then
    -- Shrink in place
    let p ← p.freePages (pagenum + newsz) (psz - newsz)
    let p ← p.mergeFreePageOffsets false true (pagenum + newsz) (psz - newsz)
    let p ← p.setPageOffset pagenum newsz
    return (.inPlace (newsz * PAGESIZE) 0, setAttr p)
  else if (pagenum + newsz) % 2 ^ 64 ≤ p.npages then
    -- Attempt to expand in place
    if (← p.bin (pagenum + psz)) ≠ .B_FREE then
      return (.doMalloc, p)
    let newPages := newsz - psz
    let freesz ← p.pageOffset (pagenum + psz)
    if freesz < newPages then
      return (.doMalloc, p) -- free range too small
    let p ← p.growBlock pagenum psz newPages freesz
    return (.inPlace (newsz * PAGESIZE) newPages, setAttr p)
  else
    return (.doMalloc, p) -- does not fit into current pool

-- Free the pages of a block that is not marked, in `sweep`.
def sweepBlock (p : LargeObjectPool) (pn npages : Nat) : Except GCError LargeObjectPool := do
  let p := p.clrBits pn (~~~BlkAttr.NONE)
  let p ← p.memset pn .B_FREE npages
  let p := if pn < p.searchStart then { p with searchStart := pn } else p
  let freepages := p.freepages + npages
  return { p with freepages := freepages, largestFree := freepages }

-- Mark the `numFree` free pages before `pn` as a run.
def markFree (p : LargeObjectPool) (pn numFree : Nat) : Except GCError LargeObjectPool :=
  if numFree > 0 then p.setFreePageOffsets (pn - numFree) numFree else .ok p

-- The loop of `sweep` over the blocks and free runs. `numFree` counts the free pages right before
-- `pn`. The first result is the number of pages that are freed.
def sweepLoop (mark : Nat → Bool) (p : LargeObjectPool) :
    (fuel pn numFree freed : Nat) → Except GCError (Nat × LargeObjectPool)
  | 0, _, _, _ => .error .endless
  | fuel + 1, pn, numFree, freed => do
    if pn < p.npages then
      let npages ← p.pageOffset pn
      let bin ← p.bin pn
      if bin = .B_FREE then
        sweepLoop mark p fuel (pn + npages) (numFree + npages) freed
      else
        if bin ≠ .B_PAGE then
          throw .assertion
        if !mark pn then
          let p ← p.sweepBlock pn npages
          sweepLoop mark p fuel (pn + npages) (numFree + npages) (freed + npages)
        else
          let p ← p.markFree pn numFree
          sweepLoop mark p fuel (pn + npages) 0 freed
    else
      let p ← p.markFree pn numFree
      return (freed, p)

def sweep (p : LargeObjectPool) (mark : Nat → Bool) : Except GCError (Nat × LargeObjectPool) :=
  sweepLoop mark p (p.npages + 1) 0 0 0

end LargeObjectPool
end Runtime.GC
