import DmdModel.Compiler.Common.Blake3
import DmdModel.Lib.ByteMemory
import DmdModel.Lib.TreeStack

-- The hash of the tree of chunks.

namespace Compiler.Common.Blake3

variable {compress : CV → Words → uint → ulong → uint → Words} {data chunk block rest : List ubyte} {i k m n : Nat}
  {number : ulong} {root : uint}

section tree

-- The words of a block, which is filled up with zeros
def wordsOf (block : List ubyte) : Words :=
  Vector.ofFn fun i : Fin 16 => BitVec.ofNat 32 (ByteMemory.read (fun q => block.getD q 0) (4 * i.val) 4)

def blockCount (chunk : List ubyte) : Nat :=
  max 1 ((chunk.length + 63) / 64)

def blockOf (chunk : List ubyte) (i : Nat) : List ubyte :=
  (chunk.drop (64 * i)).take 64

variable (compress)

-- The chaining value of a chunk behind its first blocks
def chain (number : ulong) (root : uint) (chunk : List ubyte) : Nat → CV
  | 0     => IV
  | i + 1 =>
    first (compress (chain number root chunk i) (wordsOf (blockOf chunk i))
      (BitVec.ofNat 32 (blockOf chunk i).length) number
      ((if i = 0 then ChunkStartFlag else 0) ||| (if i + 1 = blockCount chunk then ChunkEndFlag ||| root else 0)))

def chunkHash (number : ulong) (root : uint) (chunk : List ubyte) : CV :=
  chain compress number root chunk (blockCount chunk)

def chunkCount (data : List ubyte) : Nat :=
  max 1 ((data.length + 1023) / 1024)

def chunkOf (data : List ubyte) (i : Nat) : List ubyte :=
  (data.drop (1024 * i)).take 1024

def parent (root : uint) (left right : CV) : CV :=
  first (compress IV (left ++ right) 64 0 (ParentFlag ||| root))

def leaf (data : List ubyte) (i : Nat) : CV :=
  chunkHash compress (BitVec.ofNat 64 i) 0 (chunkOf data i)

-- The tree of chunks, whose left subtree has the largest power of two of them that is less than all
def treeHash (data : List ubyte) : CV :=
  let n := chunkCount data
  if n = 1 then
    chunkHash compress 0 RootFlag (chunkOf data 0)
  else
    parent compress RootFlag (TreeStack.tree (parent compress 0) (leaf compress data) 0 (TreeStack.half n))
      (TreeStack.tree (parent compress 0) (leaf compress data) (TreeStack.half n) (n - TreeStack.half n))

def hash (data : List ubyte) : List ubyte :=
  (treeHash compress data).toList.flatMap fun word => ByteMemory.bytes 4 word.toNat

end tree

section bytes

-- A byte more in front of the others
theorem or_shiftLeft {x y : uint} (hx : x.toNat < 2 ^ n) (hy : y.toNat * 2 ^ n < 2 ^ 32) :
    (x ||| y <<< n).toNat = x.toNat + 2 ^ n * y.toNat := by
  rw [BitVec.toNat_or, BitVec.toNat_shiftLeft, Nat.shiftLeft_eq, Nat.mod_eq_of_lt hy, Nat.or_comm, ← Nat.shiftLeft_eq,
    ← Nat.shiftLeft_add_eq_or_of_lt hx, Nat.shiftLeft_eq]
  ring

theorem byteToWord_toNat (b : ubyte) : (byteToWord b).toNat = b.toNat :=
  BitVec.toNat_setWidth_of_le (by decide)

theorem word_toNat (b0 b1 b2 b3 : ubyte) :
    (byteToWord b0 ||| byteToWord b1 <<< 8 ||| byteToWord b2 <<< 16 ||| byteToWord b3 <<< 24).toNat =
      b0.toNat + 2 ^ 8 * b1.toNat + 2 ^ 16 * b2.toNat + 2 ^ 24 * b3.toNat := by
  have h0 := b0.toNat_lt
  have h1 := b1.toNat_lt
  have h2 := b2.toNat_lt
  have h3 := b3.toNat_lt
  have e1 : (byteToWord b0 ||| byteToWord b1 <<< 8).toNat = b0.toNat + 2 ^ 8 * b1.toNat := by
    rw [or_shiftLeft] <;> simp only [byteToWord_toNat] <;> omega
  have e2 : (byteToWord b0 ||| byteToWord b1 <<< 8 ||| byteToWord b2 <<< 16).toNat =
      b0.toNat + 2 ^ 8 * b1.toNat + 2 ^ 16 * b2.toNat := by
    rw [or_shiftLeft, e1] <;> simp only [e1, byteToWord_toNat] <;> omega
  rw [or_shiftLeft, e2] <;> simp only [e2, byteToWord_toNat] <;> omega

theorem wordAt_eq (h : 4 * i + 4 ≤ block.length) : wordAt block i =
    some (BitVec.ofNat 32 (ByteMemory.read (fun q => block.getD q 0) (4 * i) 4)) := by
  have hget (q : Nat) (hq : q < block.length) : block[q]? = some (block.getD q 0) := by
    rw [List.getD_eq_getElem?_getD, List.getElem?_eq_getElem hq, Option.getD_some]
  rw [wordAt, hget _ (by omega), hget _ (by omega), hget _ (by omega), hget _ (by omega)]
  refine congrArg some (BitVec.eq_of_toNat_eq ?_)
  have hlt : ByteMemory.read (fun q => block.getD q 0) (4 * i) 4 < 2 ^ 32 := ByteMemory.read_lt
  rw [BitVec.toNat_ofNat, Nat.mod_eq_of_lt hlt]
  refine (word_toNat _ _ _ _).trans ?_
  simp only [ByteMemory.read, Nat.add_zero]
  omega

theorem foldlM_words (h : block.length = 64) (hn : n ≤ 16) :
    (List.range n).foldlM (fun ret i => do setWord ret i (← wordAt block i)) (Vector.replicate 16 0) =
      some (Vector.ofFn fun i : Fin 16 => if i.val < n then (wordsOf block).get i else 0) := by
  induction n
  case zero =>
    refine congrArg some (Vector.ext fun j hj => ?_)
    rw [Vector.getElem_replicate, Vector.getElem_ofFn, if_neg (Nat.not_lt_zero _)]
  case succ n ih =>
    rw [List.range_succ, List.foldlM_append, ih (by omega), Option.bind_eq_bind, Option.bind_some, List.foldlM_cons,
      wordAt_eq (by omega)]
    change (setWord _ n _).bind some = _
    rw [setWord, dif_pos (by omega), Option.bind_some]
    refine congrArg some (Vector.ext fun j hj => ?_)
    rw [Vector.getElem_set, Vector.getElem_ofFn, Vector.getElem_ofFn]
    obtain hlt | rfl | hgt := lt_trichotomy j n
    case inl => rw [if_neg hlt.ne', if_pos hlt, if_pos (show j < n + 1 by omega)]
    case inr.inl =>
      rw [if_pos rfl, if_pos (show j < j + 1 by omega), wordsOf, Vector.get_ofFn]
    case inr.inr => rw [if_neg hgt.ne, if_neg (show ¬ j < n by omega), if_neg (show ¬ j < n + 1 by omega)]

theorem bytesToWords_eq (h : block.length = 64) : bytesToWords block = some (wordsOf block) := by
  rw [bytesToWords, h, foldlM_words h (by decide)]
  refine congrArg some (Vector.ext fun j hj => ?_)
  rw [Vector.getElem_ofFn, if_pos (by simpa using hj)]
  rfl

theorem wordToBytes_eq (word : uint) : wordToBytes word = ByteMemory.bytes 4 word.toNat := by
  have hbyte (q : Nat) : UInt8.ofBitVec (((word >>> q) &&& 0xFF).setWidth 8) = UInt8.ofNat (word.toNat / 2 ^ q) := by
    apply UInt8.toNat_inj.mp
    rw [UInt8.toNat_ofBitVec, BitVec.toNat_setWidth, BitVec.toNat_and, BitVec.toNat_ushiftRight,
      Nat.shiftRight_eq_div_pow, UInt8.toNat_ofNat']
    have hand := Nat.and_two_pow_sub_one_eq_mod (word.toNat / 2 ^ q) 8
    change (_ &&& 255) % 256 = _
    rw [hand, Nat.mod_mod]
  have hzero := hbyte 0
  rw [BitVec.ushiftRight_zero] at hzero
  rw [wordToBytes, ByteMemory.bytes, List.map_cons, List.map_cons, List.map_cons, List.map_singleton, hzero, hbyte,
    hbyte, hbyte]
  rfl

end bytes

section blocks

theorem slice_eq {a b : Nat} (hab : a ≤ b) (hb : b ≤ data.length) : slice data a b = some ((data.drop a).take (b - a)) :=
  if_pos ⟨hab, hb⟩

theorem length_blockOf (h : 64 * i + 64 ≤ chunk.length) : (blockOf chunk i).length = 64 := by
  rw [blockOf, List.length_take, List.length_drop]
  omega

theorem ofNat_eq_iff (hi : i < 256) (hn : n < 256) : UInt8.ofNat i = UInt8.ofNat n ↔ i = n := by
  rw [← UInt8.toNat_inj, UInt8.toNat_ofNat_of_lt' hi, UInt8.toNat_ofNat_of_lt' hn]

-- The state of a chunk behind its first blocks
def stateAt (compress : CV → Words → uint → ulong → uint → Words) (number : ulong) (root : uint) (chunk : List ubyte)
    (i : Nat) : ChunkState where
  chainingValue    := chain compress number root chunk i
  chunkCounter     := number
  blocksCompressed := UInt8.ofNat i

theorem ofNat_succ (i : Nat) : UInt8.ofNat i + 1 = UInt8.ofNat (i + 1) :=
  (UInt8.ofNat_add i 1).symm

theorem flag_start (hi : i < 256) :
    (if UInt8.ofNat i = 0 then ChunkStartFlag else 0) = if i = 0 then ChunkStartFlag else 0 :=
  if_congr (ofNat_eq_iff (n := 0) hi (by decide)) rfl rfl

theorem chain_succ (h : i + 1 < blockCount chunk) : chain compress number root chunk (i + 1) =
    first (compress (chain compress number root chunk i) (wordsOf (blockOf chunk i)) 64 number
      (if i = 0 then ChunkStartFlag else 0)) := by
  have hlen : (blockOf chunk i).length = 64 := by
    rw [blockCount] at h
    exact length_blockOf (by omega)
  have hor (x : uint) : x ||| 0 = x := BitVec.or_zero
  rw [chain, hlen, if_neg h.ne, hor]
  rfl

theorem fullBlocks_eq (hchunk : chunk.length = 1024) (hk : i + k = 16) :
    fullBlocks compress chunk (64 * i) (stateAt compress number 0 chunk i) =
      some (stateAt compress number 0 chunk 16) := by
  have hblocks : blockCount chunk = 16 := by
    rw [blockCount, hchunk]
    rfl
  induction k generalizing i
  case zero =>
    obtain rfl : i = 16 := by omega
    rw [fullBlocks, if_neg (by decide)]
  case succ k ih =>
    have hcursor : 64 * i < ChunkLength := by rw [ChunkLength]; omega
    have hslice : slice chunk (64 * i) (64 * i + BlockLength) = some (blockOf chunk i) := by
      rw [slice_eq (Nat.le_add_right _ _) (by rw [BlockLength]; omega), Nat.add_sub_cancel_left]
      rfl
    have hwords := bytesToWords_eq (@length_blockOf chunk i (by omega))
    have hflag : (if UInt8.ofNat i = 0 then ChunkStartFlag else
        if UInt8.ofNat i = UInt8.ofNat (ChunkLength / BlockLength - 1) then ChunkEndFlag else 0) =
        (if i = 0 then ChunkStartFlag else 0) ||| (if i + 1 = blockCount chunk then ChunkEndFlag ||| 0 else 0) := by
      have hzero : UInt8.ofNat i = 0 ↔ i = 0 := ofNat_eq_iff (by omega) (by decide)
      have hend := ofNat_eq_iff (i := i) (n := ChunkLength / BlockLength - 1) (by omega) (by decide)
      have hlast : i = ChunkLength / BlockLength - 1 ↔ i + 1 = blockCount chunk := by
        rw [hblocks]
        exact (Nat.succ_inj (a := i) (b := 15)).symm
      rw [if_congr hzero rfl rfl, if_congr (hend.trans hlast) rfl rfl]
      by_cases hi : i = 0
      case pos =>
        rw [if_pos hi, if_pos hi, hblocks, if_neg (by omega)]
        rfl
      case neg =>
        rw [if_neg hi, if_neg hi]
        split_ifs <;> rfl
    have hlen := @length_blockOf chunk i (by omega)
    rw [fullBlocks, if_pos hcursor, hslice]
    simp only [Option.bind_eq_bind, Option.bind_some, hwords]
    refine Eq.trans ?_ (ih (i := i + 1) (by omega))
    congr 1
    rw [stateAt, stateAt, ofNat_succ, chain, hlen, hflag]
    rfl

-- The last chunk, up to its last block
theorem blocks_eq (hn : n ≤ data.length) (hchunk : data.drop n = chunk) (hle : chunk.length ≤ 1024)
    (hk : i + 1 + k = blockCount chunk) :
    blocks compress data (n + 64 * i) (stateAt compress number root chunk i) =
      some (n + 64 * (i + k), stateAt compress number root chunk (i + k)) := by
  have hlen : data.length - n = chunk.length := by rw [← hchunk, List.length_drop]
  have hcount : blockCount chunk ≤ 16 := by rw [blockCount]; omega
  induction k generalizing i
  case zero =>
    have hstop : ¬ BlockLength < data.length - (n + 64 * i) := by
      rw [BlockLength]
      rw [blockCount] at hk
      omega
    rw [blocks, if_neg hstop]
    rfl
  case succ k ih =>
    have hnext : i + 1 < blockCount chunk := by omega
    have hin : 64 * i + 64 < chunk.length := by
      rw [blockCount] at hnext
      omega
    have hcursor : BlockLength < data.length - (n + 64 * i) := by
      rw [BlockLength]
      omega
    have hslice : slice data (n + 64 * i) (n + 64 * i + BlockLength) = some (blockOf chunk i) := by
      rw [slice_eq (Nat.le_add_right _ _) (by rw [BlockLength]; omega), Nat.add_sub_cancel_left, ← List.drop_drop,
        hchunk]
      rfl
    have hwords := bytesToWords_eq (@length_blockOf chunk i hin.le)
    have hzero : UInt8.ofNat i = 0 ↔ i = 0 := ofNat_eq_iff (by omega) (by decide)
    rw [blocks, if_pos hcursor, hslice]
    simp only [Option.bind_eq_bind, Option.bind_some, hwords]
    have hrest := ih (i := i + 1) (by omega)
    rw [Nat.add_right_comm i 1 k, Nat.add_assoc i k 1] at hrest
    refine Eq.trans ?_ hrest
    congr 1
    rw [stateAt, stateAt, ofNat_succ, chain_succ hnext, if_congr hzero rfl rfl]

theorem getD_append_zeros (block : List ubyte) (k q : Nat) :
    (block ++ List.replicate k 0).getD q 0 = block.getD q 0 := by
  rw [List.getD_eq_getElem?_getD, List.getD_eq_getElem?_getD]
  by_cases hq : q < block.length
  case pos => rw [List.getElem?_append_left hq]
  case neg =>
    rw [List.getElem?_append_right (not_lt.mp hq), List.getElem?_eq_none (not_lt.mp hq), List.getElem?_replicate]
    split_ifs <;> rfl

theorem lastWords (h : rest.length ≤ 64) :
    ∃ block, lastBlock rest = some block ∧ bytesToWords block = some (wordsOf rest) := by
  have hlen : (rest ++ List.replicate (BlockLength - rest.length) 0).length = 64 := by
    rw [List.length_append, List.length_replicate, BlockLength]
    omega
  refine ⟨_, if_pos h, ?_⟩
  rw [bytesToWords_eq hlen, wordsOf, wordsOf]
  simp only [getD_append_zeros]

end blocks

section stack

variable {stack : CVStack} {cv : CV} {totalChunks : ulong} {hashOf : Nat → CV}

theorem even_iff {q : Nat} (h : totalChunks.toNat = q + 1) : totalChunks &&& 1 = 0 ↔ q % 2 = 1 := by
  have hand : (totalChunks &&& 1).toNat = totalChunks.toNat % 2 := Nat.and_one_is_mod _
  rw [← BitVec.toNat_inj, hand, h]
  change _ = 0 ↔ _
  omega

-- One more chunk completes as many trees as there are trailing zero bits.
theorem addChunkToTree_forest (h : TreeStack.Forest (parent compress 0) hashOf k stack n) (hn : n + 2 ^ k < 2 ^ 54)
    (htotal : totalChunks.toNat = n / 2 ^ k + 1) :
    ∃ stack', addChunkToTree compress stack (TreeStack.tree (parent compress 0) hashOf n (2 ^ k)) totalChunks =
      some stack' ∧ TreeStack.Forest (parent compress 0) hashOf 0 stack' (n + 2 ^ k) := by
  induction stack generalizing k n totalChunks
  case nil =>
    have hodd : ¬ n / 2 ^ k % 2 = 1 := by
      rw [h.eq_zero, Nat.zero_div]
      decide
    have hpush := (h.of_even (by omega)).cons
    refine ⟨_, ?_, hpush.zero⟩
    rw [addChunkToTree, if_neg (mt (even_iff htotal).mp hodd)]
    rfl
  case cons top stack ih =>
    by_cases hodd : n / 2 ^ k % 2 = 1
    case pos =>
      obtain ⟨rest, m, hstack, rfl, hrest⟩ := h.of_odd hodd
      obtain ⟨rfl, rfl⟩ := List.cons.inj hstack
      have hpow : 2 ^ k + 2 ^ k = 2 ^ (k + 1) := by rw [pow_succ]; omega
      have hsum : m + 2 ^ k + 2 ^ k = m + 2 ^ (k + 1) := by rw [Nat.add_assoc, hpow]
      have hmerge : TreeStack.tree (parent compress 0) hashOf m (2 ^ (k + 1)) =
          parent compress 0 (TreeStack.tree (parent compress 0) hashOf m (2 ^ k))
            (TreeStack.tree (parent compress 0) hashOf (m + 2 ^ k) (2 ^ k)) := by
        rw [← hpow]
        exact TreeStack.tree_add (Nat.two_pow_pos k) le_rfl
      have hhalf : (totalChunks >>> 1).toNat = m / 2 ^ (k + 1) + 1 := by
        have heven := hrest.even
        rw [Nat.add_div_right _ (Nat.two_pow_pos k)] at htotal
        have hdiv : m / 2 ^ (k + 1) = m / 2 ^ k / 2 := by rw [pow_succ, Nat.div_div_eq_div_mul]
        rw [BitVec.toNat_ushiftRight, Nat.shiftRight_eq_div_pow, pow_one, htotal, hdiv]
        omega
      obtain ⟨stack', hadd, hforest⟩ := ih hrest (hsum ▸ hn) hhalf
      rw [hsum]
      refine ⟨stack', ?_, hforest⟩
      rw [addChunkToTree, if_pos ((even_iff htotal).mpr hodd), ← hadd, hmerge]
      rfl
    case neg =>
      have hpush := (h.of_even (by omega)).cons
      have hlen := hpush.length_le
      refine ⟨_, ?_, hpush.zero⟩
      have hroom : (top :: stack).length < 54 := by
        have hpow := Nat.le_mul_of_pos_right (2 ^ ((top :: stack).length + 1) - 1) (Nat.two_pow_pos k)
        have hlt : 2 ^ ((top :: stack).length + 1) < 2 ^ 55 := by
          rw [List.length_cons] at hlen
          omega
        have := (Nat.pow_lt_pow_iff_right (by decide : 1 < 2)).mp hlt
        omega
      rw [addChunkToTree, if_neg (mt (even_iff htotal).mp hodd), CVStack.push, if_pos hroom]

end stack

section hash

theorem mergeParents_eq (stack : CVStack) (cv : CV) :
    mergeParents compress stack cv = TreeStack.close (parent compress 0) (parent compress RootFlag) stack cv := by
  induction stack generalizing cv
  case nil => rfl
  case cons leftSib stack ih =>
    rw [mergeParents, TreeStack.close, ih]
    cases stack <;> rfl

theorem stateAt_zero : ({ chunkCounter := number } : ChunkState) = stateAt compress number root chunk 0 :=
  rfl

theorem chunks_forest (hlen : data.length < 2 ^ 64) {stack : CVStack} (hk : n + 1 + k = chunkCount data)
    (h : TreeStack.Forest (parent compress 0) (leaf compress data) 0 stack n) :
    ∃ stack', chunks compress data (1024 * n) { chunkCounter := BitVec.ofNat 64 n } stack =
      some (1024 * (n + k), { chunkCounter := BitVec.ofNat 64 (n + k) }, stack') ∧
      TreeStack.Forest (parent compress 0) (leaf compress data) 0 stack' (n + k) := by
  induction k generalizing n stack
  case zero =>
    have hstop : ¬ ChunkLength < data.length - 1024 * n := by
      rw [ChunkLength]
      rw [chunkCount] at hk
      omega
    rw [chunks, if_neg hstop]
    exact ⟨stack, rfl, h⟩
  case succ k ih =>
    have hin : 1024 * n + 1024 < data.length := by
      rw [chunkCount] at hk
      omega
    have hcursor : ChunkLength < data.length - 1024 * n := by
      rw [ChunkLength]
      omega
    have hslice : slice data (1024 * n) (1024 * n + ChunkLength) = some (chunkOf data n) := by
      rw [slice_eq (Nat.le_add_right _ _) (by rw [ChunkLength]; omega), Nat.add_sub_cancel_left]
      rfl
    have hchunk : (chunkOf data n).length = 1024 := by
      rw [chunkOf, List.length_take, List.length_drop]
      omega
    have hfull : updateChunkStateFull compress { chunkCounter := BitVec.ofNat 64 n } (chunkOf data n) = some
        { stateAt compress (BitVec.ofNat 64 n) 0 (chunkOf data n) 16 with chunkCounter := BitVec.ofNat 64 n + 1 } := by
      have hrun := @fullBlocks_eq compress _ 0 16 (BitVec.ofNat 64 n) hchunk rfl
      rw [updateChunkStateFull, stateAt_zero, ← Nat.mul_zero 64, hrun]
      rfl
    have hblocks : blockCount (chunkOf data n) = 16 := by
      rw [blockCount, hchunk]
      rfl
    have hleaf : chain compress (BitVec.ofNat 64 n) 0 (chunkOf data n) 16 =
        TreeStack.tree (parent compress 0) (leaf compress data) n (2 ^ 0) := by
      rw [pow_zero, TreeStack.tree_one, leaf, chunkHash, hblocks]
    have htotal : (BitVec.ofNat 64 n + 1).toNat = n / 2 ^ 0 + 1 := by
      rw [pow_zero, Nat.div_one]
      bv_omega
    obtain ⟨stack', hadd, hforest⟩ := addChunkToTree_forest h (by omega) htotal
    rw [← hleaf] at hadd
    obtain ⟨last, hrest, hlast⟩ := ih (by omega) hforest
    rw [pow_zero, Nat.add_right_comm n 1 k, Nat.add_assoc n k 1] at hrest hlast
    refine ⟨last, ?_, hlast⟩
    rw [chunks, if_pos hcursor, hslice]
    simp only [Option.bind_eq_bind, Option.bind_some, hfull]
    change (addChunkToTree compress stack (chain compress (BitVec.ofNat 64 n) 0 (chunkOf data n) 16) _).bind _ = _
    rw [hadd, Option.bind_some, ← hrest, BitVec.ofNat_add]
    rfl

-- A chunk ends with the block that the last loop leaves.
theorem chunkHash_last (hi : i + 1 = blockCount chunk) (root : uint) : chunkHash compress number root chunk =
    first (compress (chain compress number root chunk i) (wordsOf (blockOf chunk i))
      (BitVec.ofNat 32 (blockOf chunk i).length) number
      (ChunkEndFlag ||| (if i = 0 then ChunkStartFlag else 0) ||| root)) := by
  rw [chunkHash, ← hi, chain, if_pos hi, ← BitVec.or_assoc, BitVec.or_comm ChunkEndFlag]

theorem mergeParents_forest {stack : CVStack} (hn : n + 1 = chunkCount data)
    (h : TreeStack.Forest (parent compress 0) (leaf compress data) 0 stack n) :
    mergeParents compress stack
      (chunkHash compress (BitVec.ofNat 64 n) (if n = 0 then RootFlag else 0) (chunkOf data n)) =
      treeHash compress data := by
  rw [mergeParents_eq, treeHash]
  cases stack
  case nil =>
    obtain rfl := h.eq_zero
    exact (if_pos hn.symm).symm
  case cons t stack =>
    have hne : n ≠ 0 := by
      rintro rfl
      have hlen := h.length_le
      have hpow : 2 ≤ 2 ^ (t :: stack).length := Nat.le_self_pow (by simp) 2
      omega
    have hclose := h.close_eq (parent compress RootFlag) Nat.one_pos le_rfl
    rw [TreeStack.tree_one, hn] at hclose
    rw [if_neg hne, if_neg (by omega), ← hclose]
    rfl

theorem blake3_bytes (hlen : data.length < 2 ^ 64) : blake3 compress data = some (hash compress data) := by
  obtain ⟨n, hn⟩ : ∃ n, n + 1 = chunkCount data := ⟨chunkCount data - 1, by rw [chunkCount]; omega⟩
  obtain ⟨stack, hchunks, hforest⟩ := @chunks_forest compress _ n 0 hlen _ (by omega) .nil
  rw [Nat.mul_zero, Nat.zero_add] at hchunks
  change chunks compress data 0 {} [] = _ at hchunks
  rw [Nat.zero_add] at hforest
  have hend : 1024 * n ≤ data.length ∧ data.length ≤ 1024 * n + 1024 := by
    rw [chunkCount] at hn
    omega
  have hdrop : data.drop (1024 * n) = chunkOf data n := by
    rw [chunkOf, List.take_of_length_le]
    rw [List.length_drop]
    omega
  have hchunk : (chunkOf data n).length = data.length - 1024 * n := by rw [← hdrop, List.length_drop]
  obtain ⟨i, hi⟩ : ∃ i, i + 1 = blockCount (chunkOf data n) :=
    ⟨blockCount (chunkOf data n) - 1, by rw [blockCount]; omega⟩
  have hblock : 64 * i ≤ (chunkOf data n).length ∧ (chunkOf data n).length ≤ 64 * i + 64 := by
    rw [blockCount] at hi
    omega
  have hblocks := @blocks_eq compress _ _ 0 i _ (BitVec.ofNat 64 n) (if n = 0 then RootFlag else 0) hend.1 hdrop
    (by omega) (by omega)
  rw [Nat.mul_zero, Nat.add_zero, Nat.zero_add, ← stateAt_zero] at hblocks
  have hrest : slice data (1024 * n + 64 * i) data.length = some (blockOf (chunkOf data n) i) := by
    rw [slice_eq (by omega) le_rfl, ← List.drop_drop, hdrop, blockOf, List.take_of_length_le, List.take_of_length_le]
    all_goals rw [List.length_drop]; omega
  obtain ⟨last, hlast, hwords⟩ := @lastWords (blockOf (chunkOf data n) i) (List.length_take_le _ _)
  have hstart : UInt8.ofNat i = 0 ↔ i = 0 := ofNat_eq_iff (by omega) (by decide)
  have hroot : BitVec.ofNat 64 n = 0 ↔ n = 0 := by
    rw [← BitVec.toNat_inj, BitVec.toNat_ofNat, Nat.mod_eq_of_lt (by omega)]
    rfl
  rw [blake3, hash, ← mergeParents_forest hn hforest, chunkHash_last hi, hchunks]
  simp only [Option.bind_eq_bind, Option.bind_some, hblocks, hrest, hlast, hwords]
  change some (List.flatMap wordToBytes (mergeParents compress stack (first (compress
    (chain compress (BitVec.ofNat 64 n) (if n = 0 then RootFlag else 0) (chunkOf data n) i) _ _ _
      ((ChunkEndFlag ||| if UInt8.ofNat i = 0 then _ else _) ||| if BitVec.ofNat 64 n = 0 then _ else _)))).toList) = _
  rw [if_congr hstart rfl rfl, if_congr hroot rfl rfl, funext wordToBytes_eq]
  rfl

-- Nothing outside of the data or of the stack is accessed, and the tree hash is returned.
theorem blake3_eq (compress : CV → Words → uint → ulong → uint → Words) (data : Slice) :
    blake3 compress data.bytes = some (hash compress data.bytes) :=
  blake3_bytes data.length_lt

end hash

end Compiler.Common.Blake3
