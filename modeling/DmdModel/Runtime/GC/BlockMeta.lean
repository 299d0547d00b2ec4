import DmdModel.Runtime.GC.Basic
import DmdModel.Runtime.GC.SmallObjectPool
import DmdModel.Lib.ByteMemory

-- The length of an array, and the type info that finalizes it, in the block of memory that holds it.

namespace Runtime.GC.BlockMeta

open ByteMemory

def BIGLENGTHMASK : Nat := 2 ^ 64 - PAGESIZE
def SMALLPAD : Nat := 1
def MEDPAD : Nat := 2
def LARGEPREFIX_MIN : Nat := 16
def MAXSMALLSIZE : Nat := 256 - SMALLPAD
def MAXMEDSIZE : Nat := PAGESIZE / 2 - MEDPAD

-- size_t.sizeof
def WORDSIZE : Nat := 8

abbrev Memory := Nat → UInt8

-- A pointer to a type info, null is 0.
abbrev TypeInfo := BitVec 64

def hasAttr (attr bit : UInt32) : Bool :=
  attr &&& bit != 0

def readWord (m : Memory) (p : Nat) : BitVec 64 :=
  BitVec.ofNat 64 (read m p WORDSIZE)

def writeWord (m : Memory) (p : Nat) (v : BitVec 64) : Memory :=
  write m p WORDSIZE v.toNat

-- The sum in 64 bits, and whether it overflows.
def addu (x y : Nat) (overflow : Bool) : Nat × Bool :=
  let r := (x + y) % 2 ^ 64
  (r, overflow || decide (r < x))

-- The header of a large array: the words `size`, `ti_alignvalid` and `align_`.
namespace LargeArrayHeader

def size (m : Memory) (hdr : Nat) : Nat :=
  read m hdr WORDSIZE

def ti_alignvalid (m : Memory) (hdr : Nat) : BitVec 64 :=
  readWord m (hdr + 8)

def align_ (m : Memory) (hdr : Nat) : Nat :=
  read m (hdr + 16) WORDSIZE

def alignment (m : Memory) (hdr : Nat) : Nat :=
  if ti_alignvalid m hdr &&& 1 ≠ 0 then align_ m hdr else LARGEPREFIX_MIN

def setAlignment (m : Memory) (hdr a : Nat) : Memory :=
  if a > LARGEPREFIX_MIN then
    let m := writeWord m (hdr + 8) (ti_alignvalid m hdr ||| 1)
    write m (hdr + 16) WORDSIZE a
  else
    writeWord m (hdr + 8) (ti_alignvalid m hdr &&& ~~~1)

def typeInfo (m : Memory) (hdr : Nat) : TypeInfo :=
  ti_alignvalid m hdr &&& ~~~1

def setTypeInfo (m : Memory) (hdr : Nat) (ti : TypeInfo) : Memory :=
  writeWord m (hdr + 8) ((ti_alignvalid m hdr &&& 1) ||| ti)

end LargeArrayHeader

-- LARGEPREFIX and LARGEPAD of an alignment
def prefixOf (alignment : Nat) : Nat :=
  if alignment > LARGEPREFIX_MIN then alignment else LARGEPREFIX_MIN

def padOf (alignment : Nat) : Nat :=
  (prefixOf alignment + 1) % 2 ^ 64

-- LARGEPREFIX and LARGEPAD of a block
def LARGEPREFIX (m : Memory) (base : Nat) : Nat :=
  LargeArrayHeader.alignment m base

def LARGEPAD (m : Memory) (base : Nat) : Nat :=
  (LARGEPREFIX m base + 1) % 2 ^ 64

-- An atomic write of `n` bytes if they have an expected value.
def cas (m : Memory) (p n expected v : Nat) : Bool × Memory :=
  if read m p n = expected then (true, write m p n v) else (false, m)

def setArrayAllocLength (m : Memory) (info : BlkInfo) (newlength : Nat) (isshared : Bool)
    (oldlength typeInfoSize : Nat) : Bool × Memory :=
  if info.size ≤ 256 then
    let (pad, overflow) := addu SMALLPAD typeInfoSize false
    let (newlength_padded, overflow) := addu newlength pad overflow
    if newlength_padded > info.size || overflow then
      -- new size does not fit inside block
      (false, m)
    else
      let length := info.base + info.size - typeInfoSize - SMALLPAD
      if oldlength ≠ SIZE_MAX then
        if isshared then
          cas m length 1 (oldlength % 2 ^ 8) (newlength % 2 ^ 8)
        else if read m length 1 = oldlength % 2 ^ 8 then
          (true, write m length 1 (newlength % 2 ^ 8))
        else
          (false, m)
      else
        -- setting the initial length, no cas needed
        (true, write m length 1 (newlength % 2 ^ 8))
  else if info.size ≤ PAGESIZE / 2 then
    if (newlength + MEDPAD + typeInfoSize) % 2 ^ 64 > info.size then
      (false, m)
    else
      let length := info.base + info.size - typeInfoSize - MEDPAD
      if oldlength ≠ SIZE_MAX then
        if isshared then
          cas m length 2 (oldlength % 2 ^ 16) (newlength % 2 ^ 16)
        else if read m length 2 = oldlength then
          (true, write m length 2 (newlength % 2 ^ 16))
        else
          (false, m)
      else
        (true, write m length 2 (newlength % 2 ^ 16))
  else
    if (newlength + LARGEPAD m info.base) % 2 ^ 64 > info.size then
      (false, m)
    else
      let length := info.base
      if oldlength ≠ SIZE_MAX then
        if isshared then
          cas m length WORDSIZE oldlength newlength
        else if read m length WORDSIZE = oldlength then
          (true, write m length WORDSIZE newlength)
        else
          (false, m)
      else
        (true, write m length WORDSIZE newlength)

def setBlockMetaInfo (m : Memory) (info : BlkInfo) (ti : TypeInfo) (alignment : Nat) : Memory :=
  if hasAttr info.attr BlkAttr.APPENDABLE && info.size > PAGESIZE / 2 then
    let context := if hasAttr info.attr BlkAttr.STRUCTFINAL then ti else 0
    let hdr := info.base
    let m := LargeArrayHeader.setTypeInfo m hdr context
    LargeArrayHeader.setAlignment m hdr alignment
  else if hasAttr info.attr BlkAttr.STRUCTFINAL then
    writeWord m (info.base + info.size - WORDSIZE) ti
  else
    m

-- There is none if the assertion that the type info is not null fails.
def getBlockFinalizerInfo (m : Memory) (info : BlkInfo) : Option TypeInfo :=
  if !hasAttr info.attr BlkAttr.STRUCTFINAL then
    some 0
  else
    let isLargeArray := hasAttr info.attr BlkAttr.APPENDABLE && info.size > PAGESIZE / 2
    let typeInfo := if isLargeArray then LargeArrayHeader.typeInfo m info.base
      else readWord m (info.base + info.size - WORDSIZE)
    if typeInfo ≠ 0 then some typeInfo else none

def typeInfoSizeOf (attr : UInt32) : Nat :=
  if hasAttr attr BlkAttr.STRUCTFINAL then WORDSIZE else 0

def arrayAllocLength (m : Memory) (info : BlkInfo) : Nat :=
  let typeInfoSize := typeInfoSizeOf info.attr
  if info.size ≤ 256 then
    read m (info.base + info.size - typeInfoSize - SMALLPAD) 1
  else if info.size ≤ PAGESIZE / 2 then
    read m (info.base + info.size - typeInfoSize - MEDPAD) 2
  else
    LargeArrayHeader.size m info.base

def arrayAllocCapacity (m : Memory) (info : BlkInfo) : Nat :=
  if info.size > PAGESIZE / 2 then
    (info.size + 2 ^ 64 - LARGEPAD m info.base) % 2 ^ 64
  else
    let typeInfoSize := typeInfoSizeOf info.attr
    let padsize := if info.size ≤ 256 then SMALLPAD else MEDPAD
    info.size - typeInfoSize - padsize

def allocPad (size alignment : Nat) (bits : UInt32) : Nat :=
  let finalizerSize := typeInfoSizeOf bits
  if hasAttr bits BlkAttr.APPENDABLE then
    if size > MAXMEDSIZE - finalizerSize then
      padOf alignment
    else
      let pad := if size > MAXSMALLSIZE - finalizerSize then MEDPAD else SMALLPAD
      pad + finalizerSize
  else
    finalizerSize

def arrayStart (m : Memory) (base size : Nat) : Nat :=
  base + if size &&& BIGLENGTHMASK ≠ 0 then LARGEPREFIX m base else 0

-- The new values of `base` and `blockSize`.
def trimExtents (m : Memory) (base blockSize : Nat) (attr : UInt32) : Nat × Nat :=
  if hasAttr attr BlkAttr.APPENDABLE then
    if blockSize > PAGESIZE / 2 then
      (base + LargeArrayHeader.alignment m base, LargeArrayHeader.size m base)
    else
      -- skip the finalizer
      let pend := base + blockSize - typeInfoSizeOf attr
      if blockSize ≤ 256 then
        (base, read m (pend - 1) 1)
      else
        (base, read m (pend - 2) 2)
  else if hasAttr attr BlkAttr.STRUCTFINAL then
    (base, blockSize - WORDSIZE)
  else
    (base, blockSize)

end Runtime.GC.BlockMeta

-- How the precise collector scans a range of memory, and the range of a large block that it scans.

namespace Runtime.GC.Mark

open BlockMeta ByteMemory

-- What a type info tells of the pointers in its values: there are none, there may be some anywhere, or the
-- size of a value and a bit for each of its words.
inductive RTInfo
  | noPointers
  | hasPointers
  | bitmap (element_size : Nat) (ptrbmp : Nat → Bool)

-- The bits for the words from `pbase` on, they repeat after `bmplength` words.
structure Bitmap where
  pbase     : Nat
  ptrbmp    : Nat → Bool
  bmplength : Nat
  pos       : 0 < bmplength

-- There is no bitmap (`pbase` is null) if the range is scanned conservatively.
structure ScanRange where
  pbot   : Nat
  ptop   : Nat
  bitmap : Option Bitmap

-- The addresses that can point into a pool.
structure Window where
  minAddr : Nat
  memSize : Nat

-- What is found at a word: a value that does not point into a pool or points to the page that was found last,
-- a word that is not a pointer by the bitmap, or a pointer. A bit that is tested is given by its position.
inductive Outcome
  | outside
  | nonPointer (bitpos : Nat)
  | pointer (bitpos : Option Nat) (p : Nat)

-- The position of a bit after whole repetitions of the bitmap are taken off, and the new base.
def reduce (bitpos pbase bmplength : Nat) (pos : 0 < bmplength) : Nat × Nat :=
  if bitpos ≥ bmplength then
    reduce (bitpos - bmplength) (pbase + WORDSIZE * bmplength) bmplength pos
  else
    (bitpos, pbase)

def inWindow (w : Window) (pcache p : Nat) : Bool :=
  (p + (2 ^ 64 - w.minAddr)) % 2 ^ 64 < w.memSize && p - p % PAGESIZE ≠ pcache

def scanWord (m : Memory) (w : Window) (pcache : Nat) (rng : ScanRange) : Outcome × Option Bitmap :=
  let p := read m rng.pbot WORDSIZE
  if inWindow w pcache p then
    match rng.bitmap with
    | none => (.pointer none p, none)
    | some b =>
      let (bitpos, pbase) := reduce ((rng.pbot - b.pbase) / WORDSIZE) b.pbase b.bmplength b.pos
      let bitmap := some { b with pbase := pbase }
      if b.ptrbmp bitpos then (.pointer (some bitpos) p, bitmap) else (.nonPointer bitpos, bitmap)
  else
    (.outside, rng.bitmap)

-- The block that a pointer points to is looked up and marked by `follow`.
def followWord {σ : Type} (follow : Nat → σ → σ) (s : σ) : Outcome → σ
  | .pointer _ p  => follow p s
  | .nonPointer _ => s
  | .outside      => s

theorem words_lt {pbot ptop : Nat} (h : pbot + WORDSIZE < ptop) : ptop - (pbot + WORDSIZE) < ptop - pbot := by
  have hw : WORDSIZE = 8 := rfl
  omega

-- The words of a range in the order in which they are scanned. The page that was found last is a part of the
-- state.
def scanRange {σ : Type} (m : Memory) (w : Window) (pcache : σ → Nat) (follow : Nat → σ → σ)
    (rng : ScanRange) (s : σ) : List (Nat × Outcome) :=
  let r := scanWord m w (pcache s) rng
  if rng.pbot + WORDSIZE < rng.ptop then
    (rng.pbot, r.1) ::
      scanRange m w pcache follow ⟨rng.pbot + WORDSIZE, rng.ptop, r.2⟩ (followWord follow s r.1)
  else
    [(rng.pbot, r.1)]
  termination_by rng.ptop - rng.pbot
  decreasing_by exact words_lt ‹_›

-- The range of a large block at `pbot`, or none if it has no pointers.
def largeRange (m : Memory) (pbot size : Nat) (rtinfo : RTInfo) (appendable : Bool) :
    Except GCError (Option ScanRange) :=
  let ptop := pbot + size
  match rtinfo with
  | .noPointers  => .ok none
  | .hasPointers => .ok (some ⟨pbot, ptop, none⟩)
  | .bitmap element_size ptrbmp =>
    let bmplength := (element_size + WORDSIZE - 1) / WORDSIZE
    if h : 0 < bmplength then
      if appendable then
        -- take advantage of knowing the layout of an array
        let arrtop := (pbot + 16 + read m pbot WORDSIZE) % 2 ^ 64
        if arrtop > pbot ∧ arrtop ≤ ptop then
          let pbot := pbot + 16
          .ok (some ⟨pbot, arrtop, some ⟨pbot, ptrbmp, bmplength, h⟩⟩)
        else
          .error .assertion
      else
        .ok (some ⟨pbot, pbot + element_size, some ⟨pbot, ptrbmp, bmplength, h⟩⟩)
    else
      .error .assertion

end Runtime.GC.Mark
