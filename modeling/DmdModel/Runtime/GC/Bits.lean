import Mathlib

namespace Runtime.GC

abbrev Word := BitVec 64

def BITS_PER_WORD : Nat := 64
def BITS_SHIFT : Nat := 6
def BITS_MASK : Nat := BITS_PER_WORD - 1
def BITS_0 : Word := 0
def BITS_1 : Word := 1
def BITS_2 : Word := 2

-- `data` are the words of the bitmap. Its indices are below `nbits`, so that no sum of them wraps.
structure GCBits where
  data  : Nat → Word
  nbits : Nat

namespace GCBits

-- Words that bits are copied from, of which some can be read. They are not part of the bitmap.
abbrev Source := Nat → Option Word

def setWord (b : GCBits) (w : Nat) (x : Word) : GCBits :=
  { b with data := Function.update b.data w x }

def test (b : GCBits) (i : Nat) : Bool :=
  (b.data (i >>> BITS_SHIFT)).getLsbD (i &&& BITS_MASK)

def set (b : GCBits) (i : Nat) : GCBits :=
  let w := i >>> BITS_SHIFT
  b.setWord w (b.data w ||| BITS_1 <<< (i &&& BITS_MASK))

def clear (b : GCBits) (i : Nat) : GCBits :=
  let w := i >>> BITS_SHIFT
  b.setWord w (b.data w &&& ~~~(BITS_1 <<< (i &&& BITS_MASK)))

structure RangeVars where
  firstWord : Nat
  firstOff  : Nat
  lastWord  : Nat
  lastOff   : Nat

def rangeVars (target len : Nat) : RangeVars :=
  let last := target + len - 1
  { firstWord := target >>> BITS_SHIFT
    firstOff  := target &&& BITS_MASK
    lastWord  := last >>> BITS_SHIFT
    lastOff   := last &&& BITS_MASK }

-- The words from `firstWord` to `lastWord`, without the last one.
def wordRange (firstWord lastWord : Nat) : List Nat :=
  List.range' firstWord (lastWord - firstWord)

def clearWords (b : GCBits) (firstWord lastWord : Nat) : GCBits :=
  (wordRange firstWord lastWord).foldl (fun b w => b.setWord w 0) b

def setWords (b : GCBits) (firstWord lastWord : Nat) : GCBits :=
  (wordRange firstWord lastWord).foldl (fun b w => b.setWord w (~~~0)) b

def copyWords (b : GCBits) (firstWord lastWord : Nat) (source : Source) : Option GCBits :=
  (wordRange firstWord lastWord).foldlM (fun b w => do
    return b.setWord w (← source (w - firstWord))) b

def copyWordsShifted (b : GCBits) (firstWord cntWords firstOff : Nat) (source : Source) :
    Option GCBits := do
  let mask := ~~~BITS_0 <<< firstOff
  let b := b.setWord firstWord ((b.data firstWord &&& ~~~mask) ||| ((← source 0) <<< firstOff))
  (wordRange 1 cntWords).foldlM (fun b w => do
    return b.setWord (firstWord + w)
      (((← source (w - 1)) >>> (BITS_PER_WORD - firstOff)) ||| ((← source w) <<< firstOff))) b

def copyRangeZ (b : GCBits) (target len : Nat) (source : Source) : Option GCBits :=
  let ⟨firstWord, firstOff, lastWord, lastOff⟩ := rangeVars target len
  if firstWord = lastWord then do
    let mask := (BITS_2 <<< (lastOff - firstOff) - 1) <<< firstOff
    return b.setWord firstWord
      ((b.data firstWord &&& ~~~mask) ||| (((← source 0) <<< firstOff) &&& mask))
  else if firstOff = 0 then do
    let b ← b.copyWords firstWord lastWord source
    let mask := BITS_2 <<< lastOff - 1
    return b.setWord lastWord
      ((b.data lastWord &&& ~~~mask) ||| ((← source (lastWord - firstWord)) &&& mask))
  else do
    let cntWords := lastWord - firstWord
    let b ← b.copyWordsShifted firstWord cntWords firstOff source
    let src := (← source (cntWords - 1)) >>> (BITS_PER_WORD - firstOff)
    -- prevent buffer overread
    let src ← if lastOff ≥ firstOff then do pure (src ||| ((← source cntWords) <<< firstOff)) else pure src
    let mask := BITS_2 <<< lastOff - 1
    return b.setWord lastWord ((b.data lastWord &&& ~~~mask) ||| (src &&& mask))

-- Copy `len` bits of the source to the bits from `target` on.
def copyRange (b : GCBits) (target len : Nat) (source : Source) : Option GCBits :=
  if len > 0 then b.copyRangeZ target len source else some b

def copyRangeRepeating (b : GCBits) (target destlen : Nat) (source : Source) (sourcelen : Nat) :
    Option GCBits :=
  loop (destlen + 1) b target destlen
where
  -- The loop does not end if `sourcelen` is 0.
  loop : (fuel : Nat) → GCBits → (target destlen : Nat) → Option GCBits
    | 0, _, _, _                   => none
    | fuel + 1, b, target, destlen =>
      if destlen > sourcelen then do
        let b ← b.copyRange target sourcelen source
        loop fuel b (target + sourcelen) (destlen - sourcelen)
      else
        b.copyRange target destlen source

def setRangeZ (b : GCBits) (target len : Nat) : GCBits :=
  let ⟨firstWord, firstOff, lastWord, lastOff⟩ := rangeVars target len
  if firstWord = lastWord then
    let mask := (BITS_2 <<< (lastOff - firstOff) - 1) <<< firstOff
    b.setWord firstWord (b.data firstWord ||| mask)
  else
    let b := b.setWord firstWord (b.data firstWord ||| ~~~BITS_0 <<< firstOff)
    let b := b.setWords (firstWord + 1) lastWord
    let mask := BITS_2 <<< lastOff - 1
    b.setWord lastWord (b.data lastWord ||| mask)

def setRange (b : GCBits) (target len : Nat) : GCBits :=
  if len > 0 then b.setRangeZ target len else b

def clrRangeZ (b : GCBits) (target len : Nat) : GCBits :=
  let ⟨firstWord, firstOff, lastWord, lastOff⟩ := rangeVars target len
  if firstWord = lastWord then
    let mask := (BITS_2 <<< (lastOff - firstOff) - 1) <<< firstOff
    b.setWord firstWord (b.data firstWord &&& ~~~mask)
  else
    let b := b.setWord firstWord (b.data firstWord &&& ~~~(~~~BITS_0 <<< firstOff))
    let b := b.clearWords (firstWord + 1) lastWord
    let mask := BITS_2 <<< lastOff - 1
    b.setWord lastWord (b.data lastWord &&& ~~~mask)

def clrRange (b : GCBits) (target len : Nat) : GCBits :=
  if len > 0 then b.clrRangeZ target len else b

-- The operations by single bits (version gcbitsSingleBitOperation).
namespace SingleBit

def setRange (b : GCBits) (target len : Nat) : GCBits :=
  (List.range len).foldl (fun b i => b.set (target + i)) b

def clrRange (b : GCBits) (target len : Nat) : GCBits :=
  (List.range len).foldl (fun b i => b.clear (target + i)) b

def copyRange (b : GCBits) (target len : Nat) (source : Source) : Option GCBits :=
  (List.range len).foldlM (fun b i => do
    let word ← source (i >>> BITS_SHIFT)
    return if word &&& BITS_1 <<< (i &&& BITS_MASK) ≠ 0 then b.set (target + i) else b.clear (target + i)) b

def copyRangeRepeating (b : GCBits) (target destlen : Nat) (source : Source) (sourcelen : Nat) :
    Option GCBits :=
  (List.range destlen).foldlM (fun b i => do
    let j := i % sourcelen
    let word ← source (j >>> BITS_SHIFT)
    return if word &&& BITS_1 <<< (j &&& BITS_MASK) ≠ 0 then b.set (target + i) else b.clear (target + i)) b

end SingleBit
end GCBits
end Runtime.GC
