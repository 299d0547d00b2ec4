import Mathlib

-- The hash function of the compiler, over its compression function.

namespace Compiler.Common.Blake3

abbrev ubyte := UInt8
abbrev uint  := BitVec 32
abbrev ulong := BitVec 64
abbrev CV    := Vector uint 8
abbrev Words := Vector uint 16

-- What is hashed. Its length is a size_t.
structure Slice where
  bytes     : List ubyte
  length_lt : bytes.length < 2 ^ 64

def IV : CV :=
  #v[0x6a09e667, 0xbb67ae85, 0x3c6ef372, 0xa54ff53a, 0x510e527f, 0x9b05688c, 0x1f83d9ab, 0x5be0cd19]

def BlockLength : Nat := 64
def ChunkLength : Nat := 1024

def ChunkStartFlag : uint := 1
def ChunkEndFlag   : uint := 2
def ParentFlag     : uint := 4
def RootFlag       : uint := 8

-- data[a .. b], which has no result if it is not inside of the data
def slice (data : List ubyte) (a b : Nat) : Option (List ubyte) :=
  if a ≤ b ∧ b ≤ data.length then some ((data.drop a).take (b - a)) else none

-- compressed[0 .. 8]
def first (compressed : Words) : CV :=
  Vector.ofFn fun i => compressed.get (i.castLE (by decide))

def byteToWord (b : ubyte) : uint :=
  b.toBitVec.setWidth 32

def wordAt (block : List ubyte) (i : Nat) : Option uint := do
  let b0 ← block[4 * i]?
  let b1 ← block[4 * i + 1]?
  let b2 ← block[4 * i + 2]?
  let b3 ← block[4 * i + 3]?
  return byteToWord b0 ||| byteToWord b1 <<< 8 ||| byteToWord b2 <<< 16 ||| byteToWord b3 <<< 24

-- ret[i] = word
def setWord (ret : Words) (i : Nat) (word : uint) : Option Words :=
  if h : i < 16 then some (ret.set i word h) else none

def bytesToWords (block : List ubyte) : Option Words :=
  (List.range (block.length / 4)).foldlM
    (fun ret i => do setWord ret i (← wordAt block i)) (Vector.replicate 16 0)

def wordToBytes (word : uint) : List ubyte :=
  [(word &&& 0xFF).setWidth 8, ((word >>> 8) &&& 0xFF).setWidth 8, ((word >>> 16) &&& 0xFF).setWidth 8,
    ((word >>> 24) &&& 0xFF).setWidth 8].map UInt8.ofBitVec

structure ChunkState where
  chainingValue    : CV              := IV
  chunkCounter     : ulong           := 0
  block            : Vector ubyte 32 := Vector.replicate 32 0
  blocksCompressed : ubyte           := 0

-- The entries of the stack, the top first
abbrev CVStack := List CV

def CVStack.push (stack : CVStack) (cv : CV) : Option CVStack :=
  if stack.length < 54 then some (cv :: stack) else none

section

variable (compress : CV → Words → uint → ulong → uint → Words)

-- for (size_t cursor = 0; cursor < ChunkLength; cursor += BlockLength)
def fullBlocks (chunk : List ubyte) (cursor : Nat) (state : ChunkState) : Option ChunkState :=
  if cursor < ChunkLength then do
    let blockWords ← bytesToWords (← slice chunk cursor (cursor + BlockLength))
    let flag :=
      if state.blocksCompressed = 0 then ChunkStartFlag
      else if state.blocksCompressed = UInt8.ofNat (ChunkLength / BlockLength - 1) then ChunkEndFlag
      else 0
    let compressed := compress state.chainingValue blockWords 64 state.chunkCounter flag
    fullBlocks chunk (cursor + BlockLength)
      { state with chainingValue := first compressed, blocksCompressed := state.blocksCompressed + 1 }
  else
    some state
termination_by ChunkLength - cursor
decreasing_by
  have hpos : 0 < BlockLength := by decide
  omega

def updateChunkStateFull (state : ChunkState) (chunk : List ubyte) : Option ChunkState := do
  let state ← fullBlocks compress chunk 0 state
  return { state with chunkCounter := state.chunkCounter + 1 }

-- The stack is popped while the number of chunks ends in a zero bit. An empty one has no result.
def addChunkToTree (stack : CVStack) (cv : CV) (totalChunks : ulong) : Option CVStack :=
  if totalChunks &&& 1 = 0 then
    match stack with
    | []           => none
    | top :: stack =>
      addChunkToTree stack (first (compress IV (top ++ cv) 64 0 ParentFlag)) (totalChunks >>> 1)
  else
    stack.push cv

-- while (data.length - cursor > ChunkLength)
def chunks (data : List ubyte) (cursor : Nat) (state : ChunkState) (stack : CVStack) :
    Option (Nat × ChunkState × CVStack) :=
  if ChunkLength < data.length - cursor then do
    let chunk ← slice data cursor (cursor + ChunkLength)
    let state ← updateChunkStateFull compress state chunk
    let stack ← addChunkToTree compress stack state.chainingValue state.chunkCounter
    chunks data (cursor + ChunkLength)
      { state with chainingValue := IV, block := Vector.replicate 32 0, blocksCompressed := 0 } stack
  else
    some (cursor, state, stack)
termination_by data.length - cursor
decreasing_by
  have hpos : 0 < ChunkLength := by decide
  omega

-- while (data.length - cursor > BlockLength)
def blocks (data : List ubyte) (cursor : Nat) (state : ChunkState) : Option (Nat × ChunkState) :=
  if BlockLength < data.length - cursor then do
    let blockWords ← bytesToWords (← slice data cursor (cursor + BlockLength))
    let flag := if state.blocksCompressed = 0 then ChunkStartFlag else 0
    let compressed := compress state.chainingValue blockWords 64 state.chunkCounter flag
    blocks data (cursor + BlockLength)
      { state with chainingValue := first compressed, blocksCompressed := state.blocksCompressed + 1 }
  else
    some (cursor, state)
termination_by data.length - cursor
decreasing_by
  have hpos : 0 < BlockLength := by decide
  omega

-- ubyte[BlockLength] lastBlock = 0; lastBlock[0 .. remainingBytes] = data[cursor .. $];
def lastBlock (rest : List ubyte) : Option (List ubyte) :=
  if rest.length ≤ BlockLength then some (rest ++ List.replicate (BlockLength - rest.length) 0) else none

-- while (!cvStack.empty)
def mergeParents : CVStack → CV → CV
  | [], cv               => cv
  | leftSib :: stack, cv =>
    mergeParents stack
      (first (compress IV (leftSib ++ cv) 64 0 (ParentFlag ||| if stack.isEmpty then RootFlag else 0)))

def blake3 (data : List ubyte) : Option (List ubyte) := do
  let (cursor, state, stack) ← chunks compress data 0 {} []
  let (cursor, state) ← blocks compress data cursor state
  let flag := ChunkEndFlag ||| if state.blocksCompressed = 0 then ChunkStartFlag else 0
  let rest ← slice data cursor data.length
  let lastBlockWords ← bytesToWords (← lastBlock rest)
  let compressed := compress state.chainingValue lastBlockWords (BitVec.ofNat 32 rest.length) state.chunkCounter
    (flag ||| if state.chunkCounter = 0 then RootFlag else 0)
  return (mergeParents compress stack (first compressed)).toList.flatMap wordToBytes

end

end Compiler.Common.Blake3
