import DmdModel.Runtime.GC.Basic
import DmdModel.Runtime.GC.LargeObjectPool
import DmdModel.Runtime.GC.SmallObjectPool

namespace Runtime.GC

inductive Pool
  | large (p : LargeObjectPool)
  | small (p : SmallObjectPool)

namespace Pool

def baseAddr : Pool → Nat
  | large p => p.baseAddr
  | small p => p.baseAddr

def topAddr : Pool → Nat
  | large p => p.topAddr
  | small p => p.topAddr

def npages : Pool → Nat
  | large p => p.npages
  | small p => p.npages

def freepages : Pool → Nat
  | large p => p.freepages
  | small p => p.freepages

def isLargeObject : Pool → Bool
  | large _ => true
  | small _ => false

def isFree (p : Pool) : Bool :=
  p.npages = p.freepages

def findBase : Pool → Nat → Except GCError (Option Nat)
  | large p, ptr => p.findBase ptr
  | small p, ptr => p.findBase ptr

def slGetInfo : Pool → Nat → Except GCError BlkInfo
  | large p, ptr => p.getInfo ptr
  | small p, ptr => .ok (p.getInfo ptr)

-- The bit of an address: (p - baseAddr) >> shiftBy
def biti : Pool → Nat → Nat
  | large p, ptr => (ptr - p.baseAddr) / PAGESIZE
  | small p, ptr => (ptr - p.baseAddr) / 16

-- The mark bits, for the addresses of the marked blocks. Before marking, the mark bits of a small
-- object pool are set to its free bits.
def mark (p : Pool) (marks : Nat → Bool) (biti : Nat) : Bool :=
  match p with
  | large p => marks (p.baseAddr + biti * PAGESIZE)
  | small p => p.freebits biti || marks (p.baseAddr + biti * 16)

def getBits : Pool → Nat → UInt32
  | large p, biti => p.getBits biti
  | small p, biti => p.getBits biti

def setBits : Pool → Nat → UInt32 → Pool
  | large p, biti, mask => .large (p.setBits biti mask)
  | small p, biti, mask => .small (p.setBits biti mask)

def clrBits : Pool → Nat → UInt32 → Pool
  | large p, biti, mask => .large (p.clrBits biti mask)
  | small p, biti, mask => .small (p.clrBits biti mask)

end Pool

structure Config where
  minPoolSize : Nat
  maxPoolSize : Nat
  incPoolSize : Nat

-- A free slot in a bucket list, and its pool.
structure Slot where
  addr : Nat
  pool : Nat
  deriving DecidableEq

-- `pools` are the pools made so far, which a pointer to a pool is an index into. `pooltable` has the
-- pools in use, sorted by address; the position of a pool in it is its `ptIndex`. The counters of
-- pages are of type `uint`.
structure Gcx where
  config                      : Config
  pools                       : List Pool
  pooltable                   : List Nat
  bucket                      : Fin B_NUMSMALL → List Slot
  recoverPool                 : Fin B_NUMSMALL → Option Nat
  usedSmallPages              : Nat
  usedLargePages              : Nat
  mappedPages                 : Nat
  minimizeAfterNextCollection : Bool
  numCollections              : Nat
  blkcache                    : BlkCache

-- How the creation of a pool goes: no memory for the `Pool` itself, for its pages, for its tables, or
-- for the pool table; or pages at an address, with what is found in the memory of the table of offsets.
inductive Mapping
  | noPool
  | noPages
  | noTables
  | noTable
  | pages (baseAddr : Nat) (memory : List UInt32)

-- What `newPool` does: it returns a pool or null, or throws an OutOfMemoryError.
inductive NewPool
  | pool (id : Nat)
  | null
  | thrown

-- The creation of a pool, for the address ranges in use, the number of pages and the kind of the pool.
def Os := List (Nat × Nat) → Nat → Bool → Mapping

-- What an allocation meets: whether it is to try a new pool first (memory is not low, and collections
-- are disabled or the threshold is not reached), whether memory is low at the end of a collection and
-- after it, how the creation of pools goes for the first and the second time, and the addresses of the
-- blocks that a collection marks.
structure AllocEnv where
  grow        : Bool
  lowMem      : Bool
  lowMemAfter : Bool
  first       : Os
  second      : Os
  marks       : Nat → Bool

namespace Gcx

def init (config : Config) : Gcx where
  config                      := config
  pools                       := []
  pooltable                   := []
  bucket                      := fun _ => []
  recoverPool                 := fun _ => none
  usedSmallPages              := 0
  usedLargePages              := 0
  mappedPages                 := 0
  minimizeAfterNextCollection := false
  numCollections              := 0
  blkcache                    := .init

def pool (g : Gcx) (id : Nat) : Pool :=
  g.pools.getD id (.small (.fresh 0 0))

def setPool (g : Gcx) (id : Nat) (p : Pool) : Gcx :=
  { g with pools := g.pools.set id p }

def setBucket (g : Gcx) (bin : Fin B_NUMSMALL) (slots : List Slot) : Gcx :=
  { g with bucket := Function.update g.bucket bin slots }

def minAddr (g : Gcx) : Nat :=
  g.pooltable.head?.elim 0 fun id => (g.pool id).baseAddr

def maxAddr (g : Gcx) : Nat :=
  g.pooltable.getLast?.elim 0 fun id => (g.pool id).topAddr

-- The binary search in the pool table. `high` wraps around below 0.
def findPoolLoop (g : Gcx) (p : Nat) : (fuel low high : Nat) → Except GCError (Option Nat)
  | 0, _, _ => .error .endless
  | fuel + 1, low, high =>
    if low ≤ high then
      let mid := (low + high) >>> 1
      match g.pooltable[mid]? with
      | none    => .error .outOfBounds
      | some id =>
        if p < (g.pool id).baseAddr then
          findPoolLoop g p fuel low ((mid + (2 ^ 64 - 1)) % 2 ^ 64)
        else if p ≥ (g.pool id).topAddr then
          findPoolLoop g p fuel (mid + 1) high
        else
          .ok (some id)
    else
      .ok none

def findPool (g : Gcx) (p : Nat) : Except GCError (Option Nat) :=
  if p ≥ g.minAddr ∧ p < g.maxAddr then
    if g.pooltable.length = 1 then
      .ok g.pooltable.head?
    else
      g.findPoolLoop p (g.pooltable.length + 1) 0 (g.pooltable.length - 1)
  else
    .ok none

def findBase (g : Gcx) (p : Nat) : Except GCError (Option Nat) := do
  match ← g.findPool p with
  | some id => (g.pool id).findBase p
  | none    => return none

def getInfo (g : Gcx) (p : Nat) : Except GCError BlkInfo := do
  match ← g.findPool p with
  | some id => (g.pool id).slGetInfo p
  | none    => return .init

-- The number of pages that `newPool` asks for.
def newPoolPages (g : Gcx) (npages : Nat) : Nat :=
  let minPages := g.config.minPoolSize / PAGESIZE
  let npages :=
    if npages < minPages then
      minPages
    else if npages > minPages then
      -- Give us 150% of requested size, so there's room to extend
      let n := npages + (npages >>> 1)
      if n < SIZE_MAX / PAGESIZE then n else npages
    else
      npages
  if g.pooltable.length ≠ 0 then
    -- Allocate successively larger pools up to 8 megs
    let n := (g.config.minPoolSize + g.config.incPoolSize * g.pooltable.length) % 2 ^ 64
    let n := (if n > g.config.maxPoolSize then g.config.maxPoolSize else n) / PAGESIZE
    if npages < n then n else npages
  else
    npages

-- Sort a pool into the pool table.
def insertPool (g : Gcx) (id baseAddr : Nat) : List Nat :=
  let isBefore id := decide ¬baseAddr < (g.pool id).baseAddr
  g.pooltable.takeWhile isBefore ++ id :: g.pooltable.dropWhile isBefore

-- The address ranges of the pools.
def ranges (g : Gcx) : List (Nat × Nat) :=
  g.pooltable.map fun id => ((g.pool id).baseAddr, (g.pool id).topAddr)

-- Allocate a new pool with at least npages in it.
def newPool (g : Gcx) (npages : Nat) (isLargeObject : Bool) (os : Os) :
    Except GCError (NewPool × Gcx) := do
  let npages := g.newPoolPages npages
  let mapped (g : Gcx) := { g with mappedPages := (g.mappedPages + npages) % 2 ^ 32 }
  match os g.ranges npages isLargeObject with
  | .noPool => return (.null, mapped g)
  | mapping =>
    -- `initialize` of the pool
    if npages < 256 then
      throw .assertion
    match mapping with
    | .pages baseAddr memory =>
      if baseAddr % PAGESIZE ≠ 0 then
        throw .assertion
      let id := g.pools.length
      let p : Pool :=
        if isLargeObject then .large (.fresh baseAddr npages memory) else .small (.fresh baseAddr npages)
      return (.pool id, mapped { g with pools := g.pools ++ [p], pooltable := g.insertPool id baseAddr })
    | .noTables => return (.thrown, g)
    | _         => return (.null, g)

-- Return free pools to the OS.
def minimize (g : Gcx) : Gcx :=
  let isFree id := (g.pool id).isFree
  { g with
    pooltable   := g.pooltable.filter (! isFree ·)
    mappedPages := (g.pooltable.filter isFree).foldl
      (fun n id => (n + (2 ^ 32 - (g.pool id).npages % 2 ^ 32)) % 2 ^ 32) g.mappedPages }

-- Whether a pool has pages of the bin to recover.
def waiting (g : Gcx) (bin : Fin B_NUMSMALL) (id : Nat) : Bool :=
  match g.pool id with
  | .large _ => false
  | .small p => (p.recoverPageFirst bin).toNat < p.npages

def setNextRecoverPool (g : Gcx) (bin : Fin B_NUMSMALL) (poolIndex : Nat) : Gcx :=
  { g with
    recoverPool :=
      Function.update g.recoverPool bin ((g.pooltable.drop poolIndex).find? (g.waiting bin)) }

-- Put the free slots of a page into the bucket list, in the order of their addresses.
def recoverPage (g : Gcx) (id : Nat) (p : SmallObjectPool) (pn : Nat) (bin : Fin B_NUMSMALL) :
    Except GCError Gcx := do
  if (List.range PAGEBITS).all fun i => !p.freebits (pn * PAGEBITS + i) then
    throw .assertion
  if g.bucket bin ≠ [] then
    throw .assertion
  let slots := (slotOffsets bin).filter fun u => p.freebits (pn * PAGEBITS + u / 16)
  if slots = [] then
    throw .assertion
  return g.setBucket bin (slots.map fun u => ⟨p.baseAddr + pn * PAGESIZE + u, id⟩)

-- `fuel` bounds the number of pools.
def recoverNextPageLoop (bin : Fin B_NUMSMALL) : (fuel : Nat) → Gcx → Except GCError Gcx
  | 0, _ => .error .endless
  | fuel + 1, g =>
    match g.recoverPool bin with
    | none    => .ok g
    | some id =>
      match g.pool id with
      | .large _ => .error .assertion
      | .small p =>
        let pn := (p.recoverPageFirst bin).toNat
        if pn < p.npages then
          let p := { p with
            binPageChain     := Function.update p.binPageChain pn PageRecovered
            recoverPageFirst := Function.update p.recoverPageFirst bin (p.binPageChain pn) }
          (g.setPool id (.small p)).recoverPage id p pn bin
        else
          recoverNextPageLoop bin fuel (g.setNextRecoverPool bin (g.pooltable.idxOf id + 1))

def recoverNextPage (g : Gcx) (bin : Fin B_NUMSMALL) : Except GCError Gcx :=
  recoverNextPageLoop bin (g.pooltable.length + 1) g

def isMarked (g : Gcx) (marks : Nat → Bool) (addr : Nat) : Except GCError IsMarked := do
  match ← g.findPool addr with
  | none    => return .unknown
  | some id =>
    let test biti := if (g.pool id).mark marks biti then IsMarked.yes else .no
    match g.pool id with
    | .small p =>
      let offset := addr - p.baseAddr
      match p.pagetable (offset / PAGESIZE) with
      | .B_SMALL bin => return test (baseOffset offset bin / 16)
      | .B_FREE      => return .no
      | _            => throw .assertion
    | .large p =>
      let pn := (addr - p.baseAddr) / PAGESIZE
      match ← p.bin pn with
      | .B_PAGE     => return test pn
      | .B_PAGEPLUS => return test (pn - (← p.pageOffset pn))
      | .B_FREE     => return .no
      | .B_SMALL _  => throw .assertion

-- One pool in `sweep`. The counters are the pages freed in large and in small object pools.
def sweepPool (marks : Nat → Bool) (state : Nat × Nat × Gcx) (id : Nat) :
    Except GCError (Nat × Nat × Gcx) := do
  let (freedLargePages, freedSmallPages, g) := state
  match g.pool id with
  | .large p =>
    let (freed, p) ← p.sweep ((g.pool id).mark marks)
    return (freedLargePages + freed, freedSmallPages, g.setPool id (.large p))
  | .small p =>
    let (freed, p) ← p.sweep ((g.pool id).mark marks)
    return (freedLargePages, freedSmallPages + freed, g.setPool id (.small p))

def sweep (g : Gcx) (marks : Nat → Bool) : Except GCError Gcx := do
  let (freedLargePages, freedSmallPages, g) ← g.pooltable.foldlM (sweepPool marks) (0, 0, g)
  if ¬freedLargePages ≤ g.usedLargePages then
    throw .assertion
  if ¬freedSmallPages ≤ g.usedSmallPages then
    throw .assertion
  return { g with
    usedLargePages := g.usedLargePages - freedLargePages
    usedSmallPages := g.usedSmallPages - freedSmallPages }

def fullcollect (g : Gcx) (lowMem : Bool) (marks : Nat → Bool) : Except GCError Gcx := do
  let blkcache ← g.blkcache.processGCMarks (g.isMarked marks)
  let g ← { g with blkcache }.sweep marks
  let g :=
    if g.minimizeAfterNextCollection || lowMem then
      { g with minimizeAfterNextCollection := false }.minimize
    else
      g
  -- init bucket lists
  let g := { g with bucket := fun _ => [] }
  let g := (List.finRange B_NUMSMALL).foldl (fun g bin => g.setNextRecoverPool bin 0) g
  return { g with numCollections := g.numCollections + 1 }

-- Allocate a page of bin's in the first pool with a free page.
def allocPageLoop (bin : Fin B_NUMSMALL) : List Nat → Gcx → Except GCError Gcx
  | [], g => .ok g
  | id :: ids, g =>
    match g.pool id with
    | .large _ => allocPageLoop bin ids g
    | .small p => do
      match ← p.allocPage bin with
      | none            => allocPageLoop bin ids g
      | some (slots, p) =>
        let g := { g.setPool id (.small p) with usedSmallPages := (g.usedSmallPages + 1) % 2 ^ 32 }
        return g.setBucket bin (slots.map (⟨·, id⟩))

-- The inner function of `smallAlloc`: whether the bucket list has a slot now.
def tryAllocSmall (g : Gcx) (bin : Fin B_NUMSMALL) : Except GCError (Bool × Gcx) := do
  let g ← if g.bucket bin = [] then allocPageLoop bin g.pooltable g else pure g
  return (g.bucket bin ≠ [], g)

-- Collect, and recover a page of the bin.
def collectAndRecover (g : Gcx) (env : AllocEnv) (bin : Fin B_NUMSMALL) : Except GCError Gcx := do
  let g ← g.fullcollect env.lowMem env.marks
  let g := if env.lowMemAfter then g.minimize else g
  g.recoverNextPage bin

-- What `smallAlloc` does when there is no free slot and no free page; false without memory.
def refillSmall (g : Gcx) (env : AllocEnv) (bin : Fin B_NUMSMALL) : Except GCError (Bool × Gcx) := do
  if env.grow then
    match ← g.newPool 1 false env.first with
    | (.pool _, g) => return (true, g)
    | (.null, g)   => return (true, ← g.collectAndRecover env bin)
    | (.thrown, g) => return (false, g)
  else if g.usedSmallPages > 0 then
    return (true, ← g.collectAndRecover env bin)
  else
    return (true, g)

-- Try again, and with a new pool if that fails.
def retrySmall (g : Gcx) (env : AllocEnv) (bin : Fin B_NUMSMALL) : Except GCError (Bool × Gcx) := do
  let (found, g) ← g.tryAllocSmall bin
  if found then
    return (true, g)
  match ← g.newPool 1 false env.second with
  | (.pool _, g) => g.tryAllocSmall bin
  | (_, g)       => return (false, g)

-- The label L_hasBin of `smallAlloc`: take the first slot of the bucket list.
def takeSlot (g : Gcx) (bin : Fin B_NUMSMALL) (bits : UInt32) : Except GCError (Option Nat × Gcx) :=
  match g.bucket bin with
  | []            => .error .assertion
  | slot :: slots =>
    let g := g.setBucket bin slots
    match g.pool slot.pool with
    | .large _ => .error .assertion
    | .small p =>
      let biti := (slot.addr - p.baseAddr) / 16
      if p.freebits biti then
        let p := { p with freebits := Function.update p.freebits biti false }
        let p := if bits ≠ 0 then p.setBits biti bits else p
        .ok (some slot.addr, g.setPool slot.pool (.small p))
      else
        .error .assertion

-- `smallAlloc` for a bin. The result is none without memory.
def smallAlloc (g : Gcx) (env : AllocEnv) (bin : Fin B_NUMSMALL) (bits : UInt32) :
    Except GCError (Option Nat × Gcx) := do
  if g.bucket bin ≠ [] then
    g.takeSlot bin bits
  else
    let g ← if (g.recoverPool bin).isSome then g.recoverNextPage bin else pure g
    let (found, g) ← g.tryAllocSmall bin
    if found then
      g.takeSlot bin bits
    else
      let (going, g) ← g.refillSmall env bin
      if going then
        let (found, g) ← g.retrySmall env bin
        if found then g.takeSlot bin bits else return (none, g)
      else
        return (none, g)

-- The inner function `tryAlloc` of `bigAlloc`: the pool and the page.
def tryAllocLoop (npages pageAlign : Nat) : List Nat → Gcx →
    Except GCError (Option (Nat × Nat) × Gcx)
  | [], g => .ok (none, g)
  | id :: ids, g =>
    match g.pool id with
    | .small _ => tryAllocLoop npages pageAlign ids g
    | .large p =>
      if p.freepages < npages then
        tryAllocLoop npages pageAlign ids g
      else do
        let (pn, p) ← p.allocPages npages pageAlign
        let g := g.setPool id (.large p)
        match pn with
        | some pn => return (some (id, pn), g)
        | none    => tryAllocLoop npages pageAlign ids g

-- The inner function `tryAllocNewPool` of `bigAlloc`. The result is none if an error is thrown.
def tryAllocNewPool (g : Gcx) (npages pageAlign : Nat) (os : Os) :
    Except GCError (Option (Option (Nat × Nat)) × Gcx) := do
  match ← g.newPool ((npages + pageAlign - 1) % 2 ^ 64) true os with
  | (.thrown, g)  => return (none, g)
  | (.null, g)    => return (some none, g)
  | (.pool id, g) =>
    match g.pool id with
    | .small _ => throw .assertion
    | .large p =>
      let (pn, p) ← p.allocPages npages pageAlign
      let g := g.setPool id (.large p)
      match pn with
      | some pn => return (some (some (id, pn)), g)
      | none    => throw .assertion

-- What `bigAlloc` does when no pool has room. The result is none if an error is thrown.
def refillBig (g : Gcx) (env : AllocEnv) (npages pageAlign : Nat) :
    Except GCError (Option (Option (Nat × Nat)) × Gcx) := do
  let collect (g : Gcx) := { g with minimizeAfterNextCollection := true }.fullcollect env.lowMem env.marks
  if env.grow then
    match ← g.tryAllocNewPool npages pageAlign env.first with
    | (some none, g) => return (some none, ← collect g)
    | r              => return r
  else if g.usedLargePages > 0 then
    return (some none, ← collect g)
  else
    return (some none, g)

def retryBig (g : Gcx) (env : AllocEnv) (npages pageAlign : Nat) :
    Except GCError (Option (Nat × Nat) × Gcx) := do
  match ← tryAllocLoop npages pageAlign g.pooltable g with
  | (some found, g) => return (some found, g)
  | (none, g)       =>
    let (found, g) ← g.tryAllocNewPool npages pageAlign env.second
    return (found.join, g)

-- The number of pages that the base of a block has to be aligned to.
def pageAlignOf (bits : UInt32) : Nat :=
  let alignAttr := (bits &&& 0x1f00).toNat
  if alignAttr ≤ 0x0d00 then 1 else 2 ^ (alignAttr / 0x0100 - 1) / PAGESIZE

-- The end of `bigAlloc`: count the pages, and set the attributes of the block.
def takePages (g : Gcx) (npages : Nat) (bits : UInt32) (id pn : Nat) : Option Nat × Gcx :=
  let g := { g with usedLargePages := (g.usedLargePages + npages) % 2 ^ 32 }
  let p := g.pool id
  (some (p.baseAddr + pn * PAGESIZE), if bits ≠ 0 then g.setPool id (p.setBits pn bits) else g)

-- Allocate a chunk of memory that is larger than a page. The result is none without memory.
def bigAlloc (g : Gcx) (env : AllocEnv) (size : Nat) (bits : UInt32) :
    Except GCError (Option Nat × Gcx) := do
  let npages := numPages size
  if npages = SIZE_MAX then
    return (none, g)
  let pageAlign := pageAlignOf bits
  match ← tryAllocLoop npages pageAlign g.pooltable g with
  | (some (id, pn), g) => return g.takePages npages bits id pn
  | (none, g)          =>
    match ← g.refillBig env npages pageAlign with
    | (none, g)                 => return (none, g)
    | (some (some (id, pn)), g) => return g.takePages npages bits id pn
    | (some none, g)            =>
      match ← g.retryBig env npages pageAlign with
      | (some (id, pn), g) => return g.takePages npages bits id pn
      | (none, g)          => return (none, g)

-- The first bin with room for a size.
def binTable (size : Nat) : Option (Fin B_NUMSMALL) :=
  (List.finRange B_NUMSMALL).find? (size ≤ binsize ·)

-- The attribute for the alignment of the slots of a bin: that of the lowest bit of the size.
def binAlignAttr (bin : Fin B_NUMSMALL) : Nat :=
  (((List.range 16).find? (binsize bin).testBit).getD 0 + 1) * 0x0100

-- The first bin with room and with slots that are aligned as the attributes ask for. Without one, the
-- alignment needs big alloc.
def alignedBin (size : Nat) (bits : UInt32) : Option (Fin B_NUMSMALL) :=
  let alignAttr := (bits &&& 0x1f00).toNat
  (binTable size).bind fun bin =>
    if alignAttr > 0x0500 then
      (List.finRange B_NUMSMALL).find? fun b => bin ≤ b ∧ ¬binAlignAttr b < alignAttr
    else
      some bin

def alloc (g : Gcx) (env : AllocEnv) (size : Nat) (bits : UInt32) :
    Except GCError (Option Nat × Gcx) :=
  if size ≤ PAGESIZE / 2 then
    match alignedBin size bits with
    | some bin => g.smallAlloc env bin bits
    | none     => g.bigAlloc env size bits
  else
    g.bigAlloc env size bits

def freeNoSync (g : Gcx) (ptr : Nat) : Except GCError (Bool × Gcx) := do
  match ← g.findPool ptr with
  | none    => return (false, g)
  | some id =>
    match g.pool id with
    | .large p =>
      let (freed, p) ← p.freeNoSync ptr
      return (freed, g.setPool id (.large p))
    | .small p =>
      let pagenum := p.pagenumOf ptr
      match p.pagetable pagenum with
      | .B_SMALL bin =>
        let off := ptr - p.baseAddr
        let biti := off / 16
        if off ≠ baseOffset off bin ∨ p.freebits biti then
          return (false, g)
        -- in case the page hasn't been recovered yet, don't add the object to the free list
        let g :=
          if (g.recoverPool bin).isNone ∨ p.binPageChain pagenum = PageRecovered then
            g.setBucket bin (⟨ptr, id⟩ :: g.bucket bin)
          else
            g
        let p := { p with freebits := Function.update p.freebits biti true }
        return (true, g.setPool id (.small (p.clrBits biti (~~~BlkAttr.NONE))))
      | .B_PAGE => throw .assertion
      | _       => return (false, g)

def extendNoSync (g : Gcx) (ptr minsize maxsize : Nat) : Except GCError (Nat × Gcx) := do
  match ← g.findPool ptr with
  | none    => return (0, g)
  | some id =>
    match g.pool id with
    | .small _ => return (0, g)
    | .large p =>
      let (size, grown, p) ← p.extendNoSync ptr minsize maxsize
      return (size, { g.setPool id (.large p) with
        usedLargePages := (g.usedLargePages + grown) % 2 ^ 32 })

-- The inner function `doMalloc` of `reallocNoSync`. The outer result is none if an error is thrown.
def moveBlock (g : Gcx) (env : AllocEnv) (id ptr size biti : Nat) (bits : UInt32) :
    Except GCError (Option Nat × Gcx) := do
  let bits :=
    if bits = 0 then
      (g.pool id).getBits biti &&&
        ~~~(BlkAttr.APPENDABLE ||| BlkAttr.FINALIZE ||| BlkAttr.STRUCTFINAL)
    else
      bits
  match ← g.alloc env size bits with
  | (none, g)    => return (none, g)
  | (some p2, g) =>
    let (_, g) ← g.freeNoSync ptr
    return (some p2, g)

-- The implementation of realloc for a pointer other than null.
def reallocNoSync (g : Gcx) (env : AllocEnv) (ptr size : Nat) (bits : UInt32) :
    Except GCError (Option Nat × Gcx) := do
  if size = 0 then
    let (_, g) ← g.freeNoSync ptr
    return (none, g)
  match ← g.findPool ptr with
  | none    => return (none, g)
  | some id =>
    match g.pool id with
    | .large p =>
      match ← p.reallocNoSync ptr size bits with
      | (.null, _)            => return (none, g)
      | (.doMalloc, _)        => g.moveBlock env id ptr size (p.pagenumOf ptr) bits
      | (.inPlace _ grown, p) =>
        return (some ptr, { g.setPool id (.large p) with
          usedLargePages := (g.usedLargePages + grown) % 2 ^ 32 })
    | .small p =>
      let psize ← p.getSize ptr
      if psize = 0 then
        return (none, g) -- interior pointer
      let biti := (ptr - p.baseAddr) / 16
      if p.freebits biti then
        return (none, g)
      -- allocate if new size is bigger or less than half
      if psize < size ∨ psize > (size * 2) % 2 ^ 64 then
        g.moveBlock env id ptr size biti bits
      else if bits ≠ 0 then
        let p := (p.clrBits biti (~~~BlkAttr.NONE)).setBits biti bits
        return (some ptr, g.setPool id (.small p))
      else
        return (some ptr, g)

end Gcx
end Runtime.GC
