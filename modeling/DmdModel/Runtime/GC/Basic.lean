import Mathlib

namespace Runtime.GC

def PAGESIZE : Nat := 4096

-- size_t.max, also the result of an allocation that fails (OPFAIL)
def SIZE_MAX : Nat := 2 ^ 64 - 1

-- The number of bins for small objects.
def B_NUMSMALL : Nat := 14

-- What a page is used for: the small bins, the first page of a large allocation, the pages it goes
-- on with, and free pages.
inductive Bins
  | B_SMALL (bin : Fin B_NUMSMALL)
  | B_PAGE
  | B_PAGEPLUS
  | B_FREE
  deriving DecidableEq, Repr

-- The ways in which an operation does not return: an access outside of the page table, a failing
-- assertion, and a loop that does not end.
inductive GCError
  | outOfBounds
  | assertion
  | endless
  deriving DecidableEq, Repr

namespace BlkAttr

def NONE : UInt32 := 0x00
def FINALIZE : UInt32 := 0x01
def NO_SCAN : UInt32 := 0x02
def APPENDABLE : UInt32 := 0x08
def NO_INTERIOR : UInt32 := 0x10
def STRUCTFINAL : UInt32 := 0x20

-- The attributes that a pool for large objects keeps one bit for.
def LARGE : UInt32 := FINALIZE ||| NO_SCAN ||| APPENDABLE ||| NO_INTERIOR ||| STRUCTFINAL

end BlkAttr

structure BlkInfo where
  base : Nat
  size : Nat
  attr : UInt32
  deriving DecidableEq, Repr

def BlkInfo.init : BlkInfo where
  base := 0
  size := 0
  attr := 0

-- The number of pages necessary for an allocation of the given size.
def numPages (size : Nat) : Nat :=
  if size > PAGESIZE * (2 ^ 32 - 1) then SIZE_MAX else (size + PAGESIZE - 1) / PAGESIZE

end Runtime.GC

namespace Runtime.GC

def N_CACHE_BLOCKS : Nat := 8

-- The block info cache of a thread. The entries are a function of the index.
structure BlkCache where
  entries    : Nat → BlkInfo
  nextBlkIdx : Nat

-- Whether the collector has marked the block of an address.
inductive IsMarked
  | no
  | yes
  | unknown
  deriving DecidableEq

namespace BlkCache

def init : BlkCache where
  entries    := fun _ => .init
  nextBlkIdx := 0

def hit (c : BlkCache) (interior i : Nat) : Bool :=
  (c.entries i).base ≠ 0 ∧ (c.entries i).base ≤ interior ∧
    interior - (c.entries i).base < (c.entries i).size

-- __getBlkInfo: the index of the entry whose block has the address. The search starts at the head,
-- goes down to the first entry, and then from the last entry down to the head.
def getBlkInfo (c : BlkCache) (interior : Nat) : Option Nat :=
  let curi := c.nextBlkIdx
  ((List.range (curi + 1)).reverse ++
    (List.range' (curi + 1) (N_CACHE_BLOCKS - 1 - curi)).reverse).find? (c.hit interior)

def set (c : BlkCache) (i : Nat) (bi : BlkInfo) : BlkCache :=
  { c with entries := Function.update c.entries i bi }

-- __insertBlkInfoCache without a position: the head moves up by one.
def insert (c : BlkCache) (bi : BlkInfo) : BlkCache :=
  let curpos := (c.nextBlkIdx + 1) &&& (N_CACHE_BLOCKS - 1)
  { c.set curpos bi with nextBlkIdx := curpos }

-- One entry in the loop of `processGCMarks`.
def processGCMark (isMarked : Nat → Except GCError IsMarked) (c : BlkCache) (i : Nat) :
    Except GCError BlkCache := do
  let e := c.entries i
  if e.base ≠ 0 then
    if (← isMarked e.base) = .no then
      return c.set i { e with base := 0 }
  return c

-- Eliminate block cache data when it might be ready to sweep.
def processGCMarks (c : BlkCache) (isMarked : Nat → Except GCError IsMarked) :
    Except GCError BlkCache :=
  (List.range N_CACHE_BLOCKS).foldlM (processGCMark isMarked) c

-- Remove the entry whose block has the address.
def invalidate (c : BlkCache) (interior : Nat) : BlkCache :=
  match c.getBlkInfo interior with
  | some i => c.set i .init
  | none   => c

end BlkCache
end Runtime.GC
