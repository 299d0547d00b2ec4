import DmdModel.Runtime.GC.Basic

namespace Runtime.GC

def binsize : Fin B_NUMSMALL → Nat :=
  ![16, 32, 48, 64, 96, 128, 176, 256, 368, 512, 816, 1024, 1360, 2048]

-- The offsets in a page where the slots of a bin begin: 0, size, 2 * size, ..., as long as <size>
-- bytes are available.
def slotOffsets (bin : Fin B_NUMSMALL) : List Nat :=
  (List.range (PAGESIZE / binsize bin)).map (· * binsize bin)

-- The offset in the page where the slot with an address begins, whose 16 byte unit is `off`. The
-- remainder of the page is added to the last slot.
def binbase (bin : Fin B_NUMSMALL) (off : Nat) : Nat :=
  let size := binsize bin
  let stop := PAGESIZE / size * size
  let bsz := size / 16
  let base := (off - off % bsz) * 16
  if base < stop then base else stop - size

def baseOffset (offset : Nat) (bin : Fin B_NUMSMALL) : Nat :=
  offset - offset % PAGESIZE + binbase bin (offset % PAGESIZE / 16)

-- The number of bits by page: one for every 16 bytes.
def PAGEBITS : Nat := PAGESIZE / 16

-- The bits that are set at the base offsets of objects.
def baseOffsetBits (bin : Fin B_NUMSMALL) (i : Nat) : Bool :=
  (slotOffsets bin).any (· / 16 == i)

-- The mark for pages that are neither in a recover chain nor in the chain of free pages.
def PageRecovered : UInt32 := 0xFFFFFFFF

-- `binPageChain` keeps chains of pages: those with the same bin that are still to be recovered, from
-- `recoverPageFirst` on, and the free pages, from `searchStart` on. `freebits` and `attrs` have a bit
-- for every 16 bytes. The tables are functions from the page or the bit.
structure SmallObjectPool where
  baseAddr         : Nat
  npages           : Nat
  freepages        : Nat
  pagetable        : Nat → Bins
  binPageChain     : Nat → UInt32
  recoverPageFirst : Fin B_NUMSMALL → UInt32
  searchStart      : Nat
  freebits         : Nat → Bool
  attrs            : Nat → UInt32

namespace BlkAttr

-- The attributes that a pool for small objects keeps a bit for.
def SMALL : UInt32 := FINALIZE ||| NO_SCAN ||| APPENDABLE ||| STRUCTFINAL

end BlkAttr

namespace SmallObjectPool

def topAddr (p : SmallObjectPool) : Nat :=
  p.baseAddr + p.npages * PAGESIZE

-- A new pool: all pages are in the chain of free pages.
def fresh (baseAddr npages : Nat) : SmallObjectPool where
  baseAddr         := baseAddr
  npages           := npages
  freepages        := npages
  pagetable        := fun _ => .B_FREE
  binPageChain     := fun n => (n + 1).toUInt32
  recoverPageFirst := fun _ => npages.toUInt32
  searchStart      := 0
  freebits         := fun _ => true
  attrs            := fun _ => 0

def getBits (p : SmallObjectPool) (biti : Nat) : UInt32 :=
  p.attrs biti

def clrBits (p : SmallObjectPool) (biti : Nat) (mask : UInt32) : SmallObjectPool :=
  { p with attrs := Function.update p.attrs biti (p.attrs biti &&& ~~~mask) }

def setBits (p : SmallObjectPool) (biti : Nat) (mask : UInt32) : SmallObjectPool :=
  { p with attrs := Function.update p.attrs biti (p.attrs biti ||| (mask &&& BlkAttr.SMALL)) }

def pagenumOf (p : SmallObjectPool) (ptr : Nat) : Nat :=
  (ptr - p.baseAddr) / PAGESIZE

-- The base address of the slot with an address; none for a free slot or page.
def findBase (p : SmallObjectPool) (ptr : Nat) : Except GCError (Option Nat) :=
  let offset := ptr - p.baseAddr
  match p.pagetable (offset / PAGESIZE) with
  | .B_SMALL bin =>
    let baseOff := baseOffset offset bin
    if p.freebits (baseOff / 16) then .ok none else .ok (some (p.baseAddr + baseOff))
  | .B_FREE      => .ok none
  | _            => .error .assertion

-- The size of the slot at `ptr`, 0 for an interior pointer or a free slot.
def getSize (p : SmallObjectPool) (ptr : Nat) : Except GCError Nat :=
  match p.pagetable (p.pagenumOf ptr) with
  | .B_SMALL bin =>
    if ptr ≠ baseOffset ptr bin then
      .ok 0
    else if p.freebits ((ptr - p.baseAddr) / 16) then
      .ok 0
    else
      .ok (binsize bin)
  | _            => .error .assertion

def getInfo (p : SmallObjectPool) (ptr : Nat) : BlkInfo :=
  match p.pagetable (p.pagenumOf ptr) with
  | .B_SMALL bin =>
    let base := baseOffset ptr bin
    let biti := (base - p.baseAddr) / 16
    if p.freebits biti then .init else ⟨base, binsize bin, p.getBits biti⟩
  | _            => .init

-- Allocate a page of bin's. The result is the list of the new slots, none without a free page.
def allocPage (p : SmallObjectPool) (bin : Fin B_NUMSMALL) :
    Except GCError (Option (List Nat × SmallObjectPool)) :=
  if p.searchStart ≥ p.npages then
    .ok none
  else if p.pagetable p.searchStart ≠ .B_FREE then
    .error .assertion
  else
    let pn := p.searchStart
    .ok <| some ((slotOffsets bin).map (p.baseAddr + pn * PAGESIZE + ·), { p with
      searchStart  := (p.binPageChain pn).toNat
      binPageChain := Function.update p.binPageChain pn PageRecovered
      pagetable    := Function.update p.pagetable pn (.B_SMALL bin)
      freepages    := p.freepages - 1 })

-- The slots to free have no attributes afterwards.
def freePageBits (p : SmallObjectPool) (pagenum : Nat) (toFree : Nat → Bool) : SmallObjectPool :=
  let inPage i := pagenum * PAGEBITS ≤ i ∧ i < (pagenum + 1) * PAGEBITS ∧ toFree (i - pagenum * PAGEBITS)
  { p with
    freebits := fun i => if inPage i then true else p.freebits i
    attrs    := fun i => if inPage i then 0 else p.attrs i }

def freeAllPageBits (p : SmallObjectPool) (pagenum : Nat) : SmallObjectPool :=
  p.freePageBits pagenum fun _ => true

def addToRecoverChain (p : SmallObjectPool) (pn : Nat) (bin : Fin B_NUMSMALL) : SmallObjectPool :=
  { p with
    binPageChain     := Function.update p.binPageChain pn (p.recoverPageFirst bin)
    recoverPageFirst := Function.update p.recoverPageFirst bin pn.toUInt32 }

-- One page in the loop of `sweep`. The result counts the pages that get free.
def sweepPage (mark : Nat → Bool) (pool : Nat × SmallObjectPool) (pn : Nat) :
    Except GCError (Nat × SmallObjectPool) :=
  let (freed, p) := pool
  match p.pagetable pn with
  | .B_SMALL bin =>
    -- the entries to free are allocated objects that are not marked
    let base := pn * PAGEBITS
    let free i := p.freebits (base + i)
    let toFree i := !free i && !mark (base + i)
    let bits := List.range PAGEBITS
    if bits.all fun i => !toFree i then
      -- nothing to free
      let hasDead := bits.any fun i => !free i != baseOffsetBits bin i
      if hasDead then
        .ok (freed, p.addToRecoverChain pn bin)
      else
        .ok (freed, { p with binPageChain := Function.update p.binPageChain pn PageRecovered })
    else if bits.any fun i => baseOffsetBits bin i && !mark (base + i) && !toFree i then
      .error .assertion
    else if bits.all fun i => !free i == toFree i then
      -- all of the allocated objects are freed
      let p := p.freeAllPageBits pn
      .ok (freed + 1, { p with
        pagetable    := Function.update p.pagetable pn .B_FREE
        binPageChain := Function.update p.binPageChain pn p.searchStart.toUInt32
        searchStart  := pn
        freepages    := p.freepages + 1 })
    else
      .ok (freed, (p.freePageBits pn toFree).addToRecoverChain pn bin)
  | _            => .ok (freed, p)

-- `sweep` for a pool with the mark bits.
def sweep (p : SmallObjectPool) (mark : Nat → Bool) : Except GCError (Nat × SmallObjectPool) :=
  (List.range p.npages).foldlM (sweepPage mark)
    (0, { p with recoverPageFirst := fun _ => p.npages.toUInt32 })

end SmallObjectPool
end Runtime.GC
