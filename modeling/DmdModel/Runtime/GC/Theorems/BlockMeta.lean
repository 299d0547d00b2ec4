import DmdModel.Runtime.GC.BlockMeta

namespace Runtime.GC.BlockMeta

open ByteMemory

variable {m m' : Memory} {info : BlkInfo} {ti : TypeInfo} {alignment : Nat} {c w : BitVec 64}
variable {newlength oldlength : Nat} {isshared : Bool}

-- The sizes of the blocks that the allocator hands out: those of the bins, and numbers of pages.
def BlockSize (n : Nat) : Prop :=
  (∃ bin, n = binsize bin) ∨ (0 < n ∧ n < 2 ^ 64 ∧ PAGESIZE ∣ n)

theorem binsize_bounds : ∀ bin, 16 ≤ binsize bin ∧ binsize bin ≤ 2048 := by
  decide

theorem binsize_and_mask : ∀ bin, binsize bin &&& BIGLENGTHMASK = 0 := by
  decide

theorem and_mask_ne_zero {n : Nat} (hn : n < 2 ^ 64) (hp : PAGESIZE ≤ n) : n &&& BIGLENGTHMASK ≠ 0 := by
  intro h
  have hshift : (n &&& BIGLENGTHMASK) >>> 12 = n / 4096 := by
    rw [Nat.shiftRight_and_distrib, show BIGLENGTHMASK >>> 12 = 2 ^ 52 - 1 by decide,
      Nat.and_two_pow_sub_one_eq_mod, Nat.shiftRight_eq_div_pow, Nat.mod_eq_of_lt (by omega)]
  rw [h, Nat.zero_shiftRight] at hshift
  rw [PAGESIZE] at hp
  omega

-- A small or medium block, or a large one.
theorem BlockSize.cases {n : Nat} (h : BlockSize n) :
    (16 ≤ n ∧ n ≤ 2048 ∧ n &&& BIGLENGTHMASK = 0) ∨
    (4096 ≤ n ∧ n < 2 ^ 64 ∧ n &&& BIGLENGTHMASK ≠ 0) := by
  obtain ⟨bin, rfl⟩ | ⟨hpos, hlt, hdvd⟩ := h
  · exact .inl ⟨(binsize_bounds bin).1, (binsize_bounds bin).2, binsize_and_mask bin⟩
  · have hp : PAGESIZE ≤ n := Nat.le_of_dvd hpos hdvd
    exact .inr ⟨hp, hlt, and_mask_ne_zero hlt hp⟩

-- The bit that says that the alignment is valid.

theorem getLsbD_of_even (h : c &&& 1 = 0) (i : Nat) : (c.getLsbD i && BitVec.getLsbD (1 : BitVec 64) i) = false := by
  rw [← BitVec.getLsbD_and, h]
  exact BitVec.getLsbD_zero

theorem or_one_of_any : ((w &&& 1) ||| c) ||| 1 = c ||| 1 := by
  refine BitVec.eq_of_getLsbD_eq fun i hi => ?_
  simp only [BitVec.getLsbD_or, BitVec.getLsbD_and]
  cases w.getLsbD i <;> cases c.getLsbD i <;> cases BitVec.getLsbD (1 : BitVec 64) i <;> rfl

theorem and_not_one_of_any (h : c &&& 1 = 0) : ((w &&& 1) ||| c) &&& ~~~1 = c := by
  refine BitVec.eq_of_getLsbD_eq fun i hi => ?_
  have h0 := getLsbD_of_even h i
  simp only [BitVec.getLsbD_or, BitVec.getLsbD_and, BitVec.getLsbD_not, decide_eq_true hi, Bool.true_and]
  revert h0
  cases w.getLsbD i <;> cases c.getLsbD i <;> cases BitVec.getLsbD (1 : BitVec 64) i <;> decide

theorem and_not_one (h : c &&& 1 = 0) : c &&& ~~~1 = c := by
  simpa using and_not_one_of_any (w := 0) h

theorem or_one_and_not_one (h : c &&& 1 = 0) : (c ||| 1) &&& ~~~1 = c := by
  rw [BitVec.or_comm]
  exact and_not_one_of_any (w := 1) h

theorem or_one_and_one : (c ||| 1) &&& 1 ≠ 0 := by
  intro h
  have hbit := getLsbD_of_even h 0
  simp at hbit

-- The type info that is stored for an array.
def context (info : BlkInfo) (ti : TypeInfo) : TypeInfo :=
  if hasAttr info.attr BlkAttr.STRUCTFINAL then ti else 0

-- What is written once, when the block is new: the type info and the alignment in the header of a large
-- array, or the type info at the end of the block.
structure Meta (m : Memory) (info : BlkInfo) (ti : TypeInfo) (alignment : Nat) : Prop where
  word   : info.size > PAGESIZE / 2 → LargeArrayHeader.ti_alignvalid m info.base =
    if alignment > LARGEPREFIX_MIN then context info ti ||| 1 else context info ti
  align_ : info.size > PAGESIZE / 2 → alignment > LARGEPREFIX_MIN →
    LargeArrayHeader.align_ m info.base = alignment
  tail   : info.size ≤ PAGESIZE / 2 → hasAttr info.attr BlkAttr.STRUCTFINAL = true →
    readWord m (info.base + info.size - WORDSIZE) = ti

-- A block for an array whose elements have a type info, with an alignment that leaves room for them.
structure ArrayBlock (info : BlkInfo) (ti : TypeInfo) (alignment : Nat) : Prop where
  size       : BlockSize info.size
  appendable : hasAttr info.attr BlkAttr.APPENDABLE = true
  pow        : ∃ k, alignment = 2 ^ k
  fits       : info.size > PAGESIZE / 2 → prefixOf alignment + 1 ≤ info.size
  even       : ti &&& 1 = 0
  context    : hasAttr info.attr BlkAttr.STRUCTFINAL = true → ti ≠ 0

theorem readWord_writeWord {p : Nat} {v : BitVec 64} : readWord (writeWord m p v) p = v := by
  have hv : read (writeWord m p v) p WORDSIZE = v.toNat := read_write v.isLt
  rw [readWord, hv, BitVec.ofNat_toNat, BitVec.setWidth_eq]

theorem readWord_congr {p : Nat} (h : ∀ q, p ≤ q → q < p + WORDSIZE → m q = m' q) :
    readWord m p = readWord m' p := by
  rw [readWord, readWord, read_congr h]

theorem readWord_write_other {p p' n v : Nat} (h : p + 8 ≤ p' ∨ p' + n ≤ p) :
    readWord (write m p' n v) p = readWord m p :=
  readWord_congr fun _ _ hq => write_other (by rw [WORDSIZE] at hq; omega)

-- A power of two above 16 leaves room for the header.
theorem pow_ge (h : ∃ k, alignment = 2 ^ k) (hgt : alignment > LARGEPREFIX_MIN) : 32 ≤ alignment := by
  obtain ⟨k, rfl⟩ := h
  have hk : 4 < k := (Nat.pow_lt_pow_iff_right (a := 2) (n := 4) (by decide)).mp hgt
  have hpow : 2 ^ 5 ≤ 2 ^ k := Nat.pow_le_pow_right (by decide) hk
  exact hpow

namespace Meta

theorem even_context (hb : ArrayBlock info ti alignment) : BlockMeta.context info ti &&& 1 = 0 := by
  rw [BlockMeta.context]
  split
  case isTrue  => exact hb.even
  case isFalse => rfl

theorem alignment_eq (h : Meta m info ti alignment) (hb : ArrayBlock info ti alignment)
    (hl : info.size > PAGESIZE / 2) : LargeArrayHeader.alignment m info.base = prefixOf alignment := by
  rw [LargeArrayHeader.alignment, h.word hl, prefixOf]
  by_cases ha : alignment > LARGEPREFIX_MIN
  · rw [if_pos ha, if_pos or_one_and_one, if_pos ha, h.align_ hl ha]
  · rw [if_neg ha, if_neg (not_not.mpr (even_context hb)), if_neg ha]

theorem typeInfo_eq (h : Meta m info ti alignment) (hb : ArrayBlock info ti alignment)
    (hl : info.size > PAGESIZE / 2) : LargeArrayHeader.typeInfo m info.base = BlockMeta.context info ti := by
  rw [LargeArrayHeader.typeInfo, h.word hl]
  have he := even_context hb
  by_cases ha : alignment > LARGEPREFIX_MIN
  · rw [if_pos ha, or_one_and_not_one he]
  · rw [if_neg ha, and_not_one he]

theorem of_set (hb : ArrayBlock info ti alignment) :
    Meta (setBlockMetaInfo m info ti alignment) info ti alignment := by
  have he := even_context hb
  have hset : info.size > PAGESIZE / 2 → setBlockMetaInfo m info ti alignment =
      LargeArrayHeader.setAlignment (LargeArrayHeader.setTypeInfo m info.base (BlockMeta.context info ti))
        info.base alignment := by
    intro hl
    rw [setBlockMetaInfo, hb.appendable, decide_eq_true hl]
    rfl
  have hword : LargeArrayHeader.ti_alignvalid (LargeArrayHeader.setTypeInfo m info.base (BlockMeta.context info ti))
      info.base = (LargeArrayHeader.ti_alignvalid m info.base &&& 1) ||| BlockMeta.context info ti :=
    readWord_writeWord
  constructor
  case word =>
    intro hl
    rw [hset hl, LargeArrayHeader.setAlignment]
    split
    case isTrue ha =>
      rw [LargeArrayHeader.ti_alignvalid, readWord_write_other (by omega), readWord_writeWord, hword, or_one_of_any]
    case isFalse ha =>
      rw [LargeArrayHeader.ti_alignvalid, readWord_writeWord, hword, and_not_one_of_any he]
  case align_ =>
    intro hl ha
    have halign : alignment < 256 ^ WORDSIZE := by
      have hsize := hb.size.cases
      have hfits := hb.fits hl
      rw [prefixOf, if_pos ha] at hfits
      rw [WORDSIZE]
      omega
    rw [hset hl, LargeArrayHeader.setAlignment, if_pos ha]
    exact read_write halign
  case tail =>
    intro hs hf
    have hn : ¬ info.size > PAGESIZE / 2 := by omega
    rw [setBlockMetaInfo, hb.appendable, decide_eq_false hn, hf]
    exact readWord_writeWord

end Meta

-- Where the length of an array is kept, and in how many bytes.

def lengthBytes (info : BlkInfo) : Nat :=
  if info.size ≤ 256 then 1 else if info.size ≤ PAGESIZE / 2 then 2 else WORDSIZE

def lengthPtr (info : BlkInfo) : Nat :=
  if info.size ≤ PAGESIZE / 2 then info.base + info.size - typeInfoSizeOf info.attr - lengthBytes info else info.base

-- What a length is padded with.
def blockPad (m : Memory) (info : BlkInfo) : Nat :=
  if info.size ≤ PAGESIZE / 2 then lengthBytes info + typeInfoSizeOf info.attr else LARGEPAD m info.base

-- The old length as it is compared with the one that is stored.
def compared (info : BlkInfo) (isshared : Bool) (oldlength : Nat) : Nat :=
  if info.size ≤ 256 then oldlength % 2 ^ 8 else
    if info.size ≤ PAGESIZE / 2 ∧ isshared = true then oldlength % 2 ^ 16 else oldlength

-- The sum of the length and the padding is only checked for an overflow in small blocks.
def Accepted (m : Memory) (info : BlkInfo) (newlength : Nat) (isshared : Bool) (oldlength : Nat) : Prop :=
  (if info.size ≤ 256 then newlength + blockPad m info else (newlength + blockPad m info) % 2 ^ 64) ≤ info.size ∧
  (oldlength ≠ SIZE_MAX → arrayAllocLength m info = compared info isshared oldlength)

instance : Decidable (Accepted m info newlength isshared oldlength) :=
  inferInstanceAs (Decidable (_ ∧ _))

theorem typeInfoSizeOf_le (attr : UInt32) : typeInfoSizeOf attr ≤ 8 := by
  rw [typeInfoSizeOf]
  split <;> decide

theorem lengthBytes_le (info : BlkInfo) : lengthBytes info ≤ 8 := by
  rw [lengthBytes]
  split
  case isTrue  => decide
  case isFalse => split <;> simp [WORDSIZE]

theorem lengthBytes_pos (info : BlkInfo) : 0 < lengthBytes info := by
  rw [lengthBytes]
  split
  case isTrue  => exact Nat.one_pos
  case isFalse => split <;> simp [WORDSIZE]

theorem lengthBytes_large (hl : ¬ info.size ≤ PAGESIZE / 2) : lengthBytes info = WORDSIZE := by
  rw [lengthBytes, if_neg hl, if_neg fun h => hl (Nat.le_trans h (by decide))]

theorem arrayAllocLength_eq : arrayAllocLength m info = read m (lengthPtr info) (lengthBytes info) := by
  rw [arrayAllocLength, lengthPtr, lengthBytes]
  split
  case isTrue h  => rw [if_pos (Nat.le_trans h (by decide))]; rfl
  case isFalse h =>
    split
    case isTrue  => rfl
    case isFalse => rfl

theorem addu_small {t : Nat} (hn : newlength < 2 ^ 64) (ht : t ≤ 8) {n : Nat} (hs : n ≤ 256) :
    ((addu newlength (addu SMALLPAD t false).1 (addu SMALLPAD t false).2).1 > n ∨
      (addu newlength (addu SMALLPAD t false).1 (addu SMALLPAD t false).2).2 = true) ↔
      ¬ newlength + (1 + t) ≤ n := by
  have hpad : addu SMALLPAD t false = (1 + t, false) := by
    rw [addu, SMALLPAD, Nat.mod_eq_of_lt (by omega), decide_eq_false (by omega)]
    rfl
  rw [hpad, addu]
  dsimp only
  rw [Bool.false_or, decide_eq_true_iff]
  by_cases ho : newlength + (1 + t) < 2 ^ 64
  · rw [Nat.mod_eq_of_lt ho]
    omega
  · rw [show newlength + (1 + t) = (newlength + (1 + t) - 2 ^ 64) + 2 ^ 64 by omega, Nat.add_mod_right,
      Nat.mod_eq_of_lt (by omega)]
    omega

-- The write of a length, whether it is atomic or not.
theorem write_length {p n shared plain v : Nat} :
    (if oldlength ≠ SIZE_MAX then
      if isshared then cas m p n shared v
      else if read m p n = plain then (true, write m p n v) else (false, m)
    else (true, write m p n v)) =
    if oldlength ≠ SIZE_MAX → read m p n = if isshared then shared else plain then (true, write m p n v)
    else (false, m) := by
  by_cases ho : oldlength ≠ SIZE_MAX
  · rw [if_pos ho, if_congr (imp_iff_right ho) rfl rfl]
    cases isshared <;> rfl
  · rw [if_neg ho, if_pos fun h => absurd h ho]

theorem ite_and {α : Type} {p q : Prop} [Decidable p] [Decidable q] {x y : α} {t : Prop} [Decidable t]
    (ht : t ↔ ¬ p) : (if t then y else if q then x else y) = if p ∧ q then x else y := by
  by_cases hp : p
  · rw [if_neg (fun h => ht.mp h hp), if_congr (and_iff_right hp) rfl rfl]
  · rw [if_pos (ht.mpr hp), if_neg fun h => hp h.1]

-- A call changes the length, or nothing.
theorem setArrayAllocLength_eq (hn : newlength < 2 ^ 64) :
    setArrayAllocLength m info newlength isshared oldlength (typeInfoSizeOf info.attr) =
      if Accepted m info newlength isshared oldlength then
        (true, write m (lengthPtr info) (lengthBytes info) (newlength % 256 ^ lengthBytes info))
      else
        (false, m) := by
  have ht := typeInfoSizeOf_le info.attr
  rw [setArrayAllocLength]
  simp only [Accepted, arrayAllocLength_eq]
  by_cases hs : info.size ≤ 256
  · have hp : info.size ≤ PAGESIZE / 2 := Nat.le_trans hs (by decide)
    simp only [if_pos hs, lengthPtr, lengthBytes, blockPad, compared, if_pos hp]
    rw [write_length]
    refine (ite_and ?_).trans (if_congr (and_congr_right' ?_) rfl rfl)
    · rw [Bool.or_eq_true, decide_eq_true_iff]
      exact addu_small hn ht hs
    · cases isshared <;> rfl
  by_cases hp : info.size ≤ PAGESIZE / 2
  · simp only [if_neg hs, lengthPtr, lengthBytes, blockPad, compared, if_pos hp]
    rw [write_length]
    refine (ite_and ?_).trans (if_congr (and_congr_right' ?_) rfl rfl)
    · rw [Nat.not_le, Nat.add_assoc]
      rfl
    · cases isshared
      case false => rw [if_neg (c := _ ∧ _) fun h => Bool.false_ne_true h.2]; rfl
      case true  => rw [if_pos (c := _ ∧ _) ⟨hp, rfl⟩]; rfl
  · simp only [if_neg hs, lengthPtr, lengthBytes, blockPad, compared, if_neg hp]
    rw [write_length, if_neg (c := _ ∧ _) fun h => hp h.1]
    have hmod : newlength % 256 ^ WORDSIZE = newlength := Nat.mod_eq_of_lt hn
    rw [hmod]
    refine (ite_and ?_).trans (if_congr (and_congr_right' ?_) rfl rfl)
    · rw [Nat.not_le]
    · cases isshared <;> rfl

-- The bytes of the type info and the alignment.
def MetaByte (info : BlkInfo) (alignment q : Nat) : Prop :=
  if info.size ≤ PAGESIZE / 2 then
    hasAttr info.attr BlkAttr.STRUCTFINAL = true ∧ info.base + info.size - WORDSIZE ≤ q ∧ q < info.base + info.size
  else
    info.base + WORDSIZE ≤ q ∧ q < info.base + prefixOf alignment

variable (alignment) in
theorem le_prefixOf : alignment ≤ prefixOf alignment ∧ LARGEPREFIX_MIN ≤ prefixOf alignment := by
  rw [prefixOf]
  split <;> omega

namespace Meta

theorem congr (h : Meta m info ti alignment) (hb : ArrayBlock info ti alignment)
    (hm : ∀ q, MetaByte info alignment q → m q = m' q) : Meta m' info ti alignment := by
  have hinitial := le_prefixOf alignment
  rw [LARGEPREFIX_MIN] at hinitial
  constructor
  case word =>
    intro hl
    rw [← h.word hl, LargeArrayHeader.ti_alignvalid, LargeArrayHeader.ti_alignvalid]
    refine (readWord_congr fun q hq hq' => hm q ?_).symm
    rw [WORDSIZE] at hq'
    rw [MetaByte, if_neg (by omega), WORDSIZE]
    omega
  case align_ =>
    intro hl ha
    have hpow := pow_ge hb.pow ha
    rw [← h.align_ hl ha, LargeArrayHeader.align_, LargeArrayHeader.align_]
    refine (read_congr fun q hq hq' => hm q ?_).symm
    rw [WORDSIZE] at hq'
    rw [MetaByte, if_neg (by omega), WORDSIZE]
    omega
  case tail =>
    intro hs hf
    rw [← h.tail hs hf]
    refine (readWord_congr fun q hq hq' => hm q ?_).symm
    have hsize := hb.size.cases
    rw [WORDSIZE] at hq hq'
    rw [MetaByte, if_pos hs, WORDSIZE]
    exact ⟨hf, hq, by omega⟩

section

variable (h : Meta m info ti alignment) (hb : ArrayBlock info ti alignment)
include h hb

theorem finalizer : getBlockFinalizerInfo m info = some (BlockMeta.context info ti) := by
  rw [getBlockFinalizerInfo, BlockMeta.context]
  cases hf : hasAttr info.attr BlkAttr.STRUCTFINAL
  case false => rfl
  case true =>
    have hread : (if (hasAttr info.attr BlkAttr.APPENDABLE && decide (info.size > PAGESIZE / 2)) = true then
        LargeArrayHeader.typeInfo m info.base else readWord m (info.base + info.size - WORDSIZE)) = ti := by
      rw [hb.appendable, Bool.true_and]
      by_cases hl : info.size > PAGESIZE / 2
      · rw [if_pos (decide_eq_true hl), h.typeInfo_eq hb hl, BlockMeta.context, if_pos hf]
      · rw [if_neg (by simpa using hl), h.tail (by omega) hf]
    rw [if_neg (show ¬ (!true) = true by decide)]
    dsimp only
    rw [hread, if_pos (hb.context hf), if_pos rfl]

theorem blockPad_eq : blockPad m info =
    if info.size ≤ PAGESIZE / 2 then lengthBytes info + typeInfoSizeOf info.attr else prefixOf alignment + 1 := by
  rw [blockPad]
  split
  case isTrue => rfl
  case isFalse hl =>
    have hsize := hb.size.cases
    have hfits := hb.fits (by omega)
    rw [LARGEPAD, LARGEPREFIX, h.alignment_eq hb (by omega), Nat.mod_eq_of_lt (by omega)]

theorem blockPad_le : blockPad m info ≤ info.size := by
  have ht := typeInfoSizeOf_le info.attr
  have hsize := hb.size.cases
  rw [h.blockPad_eq hb]
  split
  case isTrue hs =>
    have hlen := lengthBytes_le info
    omega
  case isFalse hl => exact hb.fits (by omega)

theorem capacity_eq : arrayAllocCapacity m info = info.size - blockPad m info := by
  have hle := h.blockPad_le hb
  rw [arrayAllocCapacity]
  split
  case isTrue hl =>
    have hsize := hb.size.cases
    have hp : blockPad m info = LARGEPAD m info.base := if_neg (by omega)
    rw [← hp, show info.size + 2 ^ 64 - blockPad m info = (info.size - blockPad m info) + 2 ^ 64 by omega,
      Nat.add_mod_right, Nat.mod_eq_of_lt (by omega)]
  case isFalse hl =>
    have hs : info.size ≤ PAGESIZE / 2 := by omega
    rw [blockPad, if_pos hs, lengthBytes, SMALLPAD, MEDPAD]
    by_cases hsmall : info.size ≤ 256
    · rw [if_pos hsmall, if_pos hsmall]
      dsimp only
      omega
    · rw [if_neg hsmall, if_neg hsmall, if_pos hs]
      dsimp only
      omega

theorem arrayStart_eq : arrayStart m info.base info.size =
    info.base + if info.size ≤ PAGESIZE / 2 then 0 else prefixOf alignment := by
  rw [arrayStart]
  obtain ⟨-, hs, hm⟩ | ⟨hl, -, hm⟩ := hb.size.cases
  · have hs' : info.size ≤ PAGESIZE / 2 := hs
    rw [if_neg (not_not.mpr hm), if_pos hs']
  · have hl' : ¬ info.size ≤ PAGESIZE / 2 := fun hs => absurd (Nat.le_trans hl hs) (by decide)
    rw [if_pos hm, if_neg hl', LARGEPREFIX, h.alignment_eq hb (by omega)]

theorem trimExtents_eq : trimExtents m info.base info.size info.attr =
    (arrayStart m info.base info.size, arrayAllocLength m info) := by
  rw [h.arrayStart_eq hb, arrayAllocLength, trimExtents, if_pos hb.appendable]
  by_cases hs : info.size ≤ PAGESIZE / 2
  · rw [if_neg (by omega), if_pos hs, Nat.add_zero]
    by_cases hsmall : info.size ≤ 256
    · rw [if_pos hsmall, if_pos hsmall]
      rfl
    · rw [if_neg hsmall, if_neg hsmall, if_pos hs]
      rfl
  · have hsmall : ¬ info.size ≤ 256 := fun h => hs (Nat.le_trans h (by decide))
    rw [if_pos (by omega), if_neg hs, if_neg hsmall, if_neg hs, h.alignment_eq hb (by omega)]

end

end Meta

-- The bytes of the elements: from the start of the array, as many as its capacity.
def DataByte (m : Memory) (info : BlkInfo) (q : Nat) : Prop :=
  arrayStart m info.base info.size ≤ q ∧ q < arrayStart m info.base info.size + arrayAllocCapacity m info

def LengthByte (info : BlkInfo) (q : Nat) : Prop :=
  lengthPtr info ≤ q ∧ q < lengthPtr info + lengthBytes info

theorem metaByte_inside (hb : ArrayBlock info ti alignment) {q : Nat} (hq : MetaByte info alignment q) :
    info.base ≤ q ∧ q < info.base + info.size := by
  have hsize := hb.size.cases
  have hfits := hb.fits
  rw [MetaByte, WORDSIZE] at hq
  split at hq
  case isTrue  => omega
  case isFalse => omega

section

variable (h : Meta m info ti alignment) (hb : ArrayBlock info ti alignment) {q : Nat}
include h hb

-- The elements, the length, the type info and the alignment do not overlap.

theorem dataByte_disjoint (hq : DataByte m info q) :
    ¬ LengthByte info q ∧ ¬ MetaByte info alignment q ∧ info.base ≤ q ∧ q + 1 < info.base + info.size := by
  have ht := typeInfoSizeOf_le info.attr
  have hle := h.blockPad_le hb
  have hpre := le_prefixOf alignment
  rw [LARGEPREFIX_MIN] at hpre
  rw [DataByte, h.capacity_eq hb, h.arrayStart_eq hb] at hq
  rw [h.blockPad_eq hb] at hq hle
  rw [LengthByte, MetaByte, lengthPtr]
  by_cases hs : info.size ≤ PAGESIZE / 2
  · have hpos := lengthBytes_pos info
    have hf : hasAttr info.attr BlkAttr.STRUCTFINAL = true → typeInfoSizeOf info.attr = WORDSIZE := fun hf =>
      if_pos hf
    simp only [if_pos hs] at hq hle ⊢
    refine ⟨by omega, fun hm => ?_, by omega, by omega⟩
    have hw := hf hm.1
    omega
  · simp only [if_neg hs, lengthBytes_large hs, WORDSIZE] at hq hle ⊢
    omega

theorem lengthByte_disjoint (hq : LengthByte info q) : ¬ MetaByte info alignment q := by
  have ht := typeInfoSizeOf_le info.attr
  have hle := h.blockPad_le hb
  rw [h.blockPad_eq hb] at hle
  rw [LengthByte, lengthPtr] at hq
  rw [MetaByte]
  by_cases hs : info.size ≤ PAGESIZE / 2
  · have hf : hasAttr info.attr BlkAttr.STRUCTFINAL = true → typeInfoSizeOf info.attr = WORDSIZE := fun hf =>
      if_pos hf
    simp only [if_pos hs] at hq hle ⊢
    intro hm
    have hw := hf hm.1
    omega
  · simp only [if_neg hs, lengthBytes_large hs, WORDSIZE] at hq hle ⊢
    omega

theorem meta_of_write_length {v : Nat} :
    Meta (write m (lengthPtr info) (lengthBytes info) v) info ti alignment := by
  refine h.congr hb fun q hq => (write_other ?_).symm
  by_contra hn
  exact lengthByte_disjoint h hb (q := q) (by rw [LengthByte]; omega) hq

end

-- The memories after a block is set up: its length is set, and bytes outside of the block and bytes of
-- the elements are written.
inductive Reachable (info : BlkInfo) (ti : TypeInfo) (alignment : Nat) : Memory → Prop
  | setBlockMetaInfo {m : Memory} : Reachable info ti alignment (setBlockMetaInfo m info ti alignment)
  | setArrayAllocLength {m : Memory} {newlength : Nat} {isshared : Bool} {oldlength : Nat} :
    Reachable info ti alignment m → newlength < 2 ^ 64 →
    Reachable info ti alignment
      (setArrayAllocLength m info newlength isshared oldlength (typeInfoSizeOf info.attr)).2
  | write {m : Memory} {q : Nat} {x : UInt8} :
    Reachable info ti alignment m → DataByte m info q ∨ q < info.base ∨ info.base + info.size ≤ q →
    Reachable info ti alignment (Function.update m q x)

theorem Reachable.meta (h : Reachable info ti alignment m) (hb : ArrayBlock info ti alignment) :
    Meta m info ti alignment := by
  induction h
  case setBlockMetaInfo => exact Meta.of_set hb
  case setArrayAllocLength hn ih =>
    rw [setArrayAllocLength_eq hn]
    split
    case isTrue  => exact meta_of_write_length ih hb
    case isFalse => exact ih
  case write q x _ hq ih =>
    refine ih.congr hb fun p hp => (Function.update_of_ne ?_ _ _).symm
    rintro rfl
    obtain hd | ho := hq
    · exact (dataByte_disjoint ih hb hd).2.1 hp
    · have hin := metaByte_inside hb hp
      omega

-- What a call that succeeds leaves behind.
structure Stored (m m' : Memory) (info : BlkInfo) (ti : TypeInfo) (alignment newlength oldlength : Nat) : Prop where
  capacity  : newlength ≤ arrayAllocCapacity m info
  old       : oldlength ≠ SIZE_MAX → oldlength = arrayAllocLength m info
  length    : arrayAllocLength m' info = newlength
  finalizer : getBlockFinalizerInfo m' info = some (context info ti)
  extents   : trimExtents m' info.base info.size info.attr = (arrayStart m' info.base info.size, newlength)
  disjoint  : ∀ q, arrayStart m' info.base info.size ≤ q → q < arrayStart m' info.base info.size + newlength →
    ¬ LengthByte info q ∧ ¬ MetaByte info alignment q ∧ info.base ≤ q ∧ q + 1 < info.base + info.size

-- A call succeeds as it should, or leaves the block unchanged.
def Correct (m : Memory) (info : BlkInfo) (ti : TypeInfo) (alignment newlength : Nat) (isshared : Bool)
    (oldlength : Nat) : Prop :=
  let r := setArrayAllocLength m info newlength isshared oldlength (typeInfoSizeOf info.attr)
  (r.1 = true → Stored m r.2 info ti alignment newlength oldlength) ∧ (r.1 = false → r.2 = m)

-- Unless the old length does not compare with the one that is stored, the sum with the padding does not
-- overflow, and the old length is compared as it is or the new one is too long anyway.
def Regular (m : Memory) (info : BlkInfo) (newlength : Nat) (isshared : Bool) (oldlength : Nat) : Prop :=
  (oldlength ≠ SIZE_MAX → arrayAllocLength m info = compared info isshared oldlength) →
  (256 < info.size → newlength + blockPad m info < 2 ^ 64) ∧
  (oldlength ≠ SIZE_MAX → compared info isshared oldlength = oldlength ∨ arrayAllocCapacity m info < newlength)

section

variable (h : Meta m info ti alignment) (hb : ArrayBlock info ti alignment)
include h hb

theorem capacity_lt : arrayAllocCapacity m info < 256 ^ lengthBytes info := by
  have hsize := hb.size.cases
  have hle := h.blockPad_le hb
  have hpos := lengthBytes_pos info
  rw [h.capacity_eq hb]
  by_cases hs : info.size ≤ PAGESIZE / 2
  · have hmed : info.size ≤ 2048 := hs
    rw [h.blockPad_eq hb, if_pos hs, lengthBytes]
    by_cases hsmall : info.size ≤ 256
    · rw [if_pos hsmall]
      omega
    · rw [if_neg hsmall, if_pos hs]
      omega
  · rw [lengthBytes_large hs, WORDSIZE]
    omega

theorem accepted_iff (hr : newlength + blockPad m info < 2 ^ 64 ∨ info.size ≤ 256) :
    Accepted m info newlength isshared oldlength ↔ newlength ≤ arrayAllocCapacity m info ∧
      (oldlength ≠ SIZE_MAX → arrayAllocLength m info = compared info isshared oldlength) := by
  have hle := h.blockPad_le hb
  rw [Accepted, h.capacity_eq hb]
  refine and_congr_left' ?_
  by_cases hs : info.size ≤ 256
  · rw [if_pos hs]
    omega
  · rw [if_neg hs, Nat.mod_eq_of_lt (by omega)]
    omega

theorem stored_of (hcap : newlength ≤ arrayAllocCapacity m info)
    (hold : oldlength ≠ SIZE_MAX → oldlength = arrayAllocLength m info) :
    Stored m (write m (lengthPtr info) (lengthBytes info) (newlength % 256 ^ lengthBytes info)) info ti alignment
      newlength oldlength := by
  have hlt := Nat.lt_of_le_of_lt hcap (capacity_lt h hb)
  rw [Nat.mod_eq_of_lt hlt]
  have h' : Meta (write m (lengthPtr info) (lengthBytes info) newlength) info ti alignment :=
    meta_of_write_length h hb
  have hlength : arrayAllocLength (write m (lengthPtr info) (lengthBytes info) newlength) info = newlength := by
    rw [arrayAllocLength_eq, read_write hlt]
  constructor
  case capacity  => exact hcap
  case old       => exact hold
  case length    => exact hlength
  case finalizer => exact h'.finalizer hb
  case extents   => rw [h'.trimExtents_eq hb, hlength]
  case disjoint  =>
    intro q hq hq'
    refine dataByte_disjoint h' hb ⟨hq, ?_⟩
    rw [h'.capacity_eq hb, h'.blockPad_eq hb, ← h.blockPad_eq hb, ← h.capacity_eq hb]
    omega

theorem correct_iff (hn : newlength < 2 ^ 64) :
    Correct m info ti alignment newlength isshared oldlength ↔ Regular m info newlength isshared oldlength := by
  have hle := h.blockPad_le hb
  have hsize := hb.size.cases
  have hcap := h.capacity_eq hb
  rw [Correct, setArrayAllocLength_eq hn]
  constructor
  · intro hc hcmp
    refine ⟨fun hbig => ?_, fun ho => ?_⟩
    · by_contra hover
      have ha : Accepted m info newlength isshared oldlength := by
        refine ⟨?_, hcmp⟩
        rw [if_neg (by omega), show newlength + blockPad m info = (newlength + blockPad m info - 2 ^ 64) + 2 ^ 64
          by omega, Nat.add_mod_right, Nat.mod_eq_of_lt (by omega)]
        omega
      rw [if_pos ha] at hc
      have hfit := (hc.1 rfl).capacity
      omega
    · by_cases hlt : arrayAllocCapacity m info < newlength
      · exact .inr hlt
      · have ha : Accepted m info newlength isshared oldlength :=
          (accepted_iff h hb (by omega)).mpr ⟨by omega, hcmp⟩
        rw [if_pos ha] at hc
        exact .inl ((hcmp ho).symm.trans ((hc.1 rfl).old ho).symm)
  · intro hr
    split
    case isFalse => exact ⟨fun h => absurd h Bool.false_ne_true, fun _ => rfl⟩
    case isTrue ha =>
      refine ⟨fun _ => ?_, fun h => absurd h.symm Bool.false_ne_true⟩
      obtain ⟨hsum, hold⟩ := hr ha.2
      obtain ⟨hfit, hcmp⟩ := (accepted_iff h hb (by omega)).mp ha
      refine stored_of h hb hfit fun ho => ?_
      obtain he | hlt := hold ho
      · rw [hcmp ho, he]
      · omega

end

-- A size rounded up to one of a block.
def RoundsUp (total size : Nat) : Prop :=
  BlockSize size ∧ total ≤ size ∧ ∀ n, BlockSize n → total ≤ n → size ≤ n

theorem RoundsUp.le {total n size : Nat} (h : RoundsUp total size) (hn : ∃ bin, n = binsize bin) (ht : total ≤ n) :
    size ≤ n :=
  h.2.2 n (.inl hn) ht

theorem padOf_eq (hp : ∃ k, alignment = 2 ^ k) (ha : alignment < 2 ^ 64) :
    padOf alignment = prefixOf alignment + 1 := by
  obtain ⟨k, rfl⟩ := hp
  have hk : k < 64 := (Nat.pow_lt_pow_iff_right (by decide)).mp ha
  have hle : 2 ^ k ≤ 2 ^ 63 := Nat.pow_le_pow_right (by decide) (Nat.le_of_lt_succ hk)
  have hinitial : prefixOf (2 ^ k) ≤ 2 ^ 63 := by
    rw [prefixOf, LARGEPREFIX_MIN]
    split <;> omega
  rw [padOf, Nat.mod_eq_of_lt (by omega)]

-- A block of a size with its padding, rounded up, has room for the size.
theorem size_le_capacity {size : Nat} (happ : hasAttr info.attr BlkAttr.APPENDABLE = true)
    (hp : ∃ k, alignment = 2 ^ k) (ha : alignment < 2 ^ 64) (he : ti &&& 1 = 0)
    (hc : hasAttr info.attr BlkAttr.STRUCTFINAL = true → ti ≠ 0)
    (hr : RoundsUp (size + allocPad size alignment info.attr) info.size) :
    size ≤ arrayAllocCapacity (setBlockMetaInfo m info ti alignment) info := by
  have ht := typeInfoSizeOf_le info.attr
  have hpre := le_prefixOf alignment
  have hle := hr.2.1
  have hmed : size + allocPad size alignment info.attr ≤ 2048 → info.size ≤ 2048 := hr.le ⟨⟨13, by decide⟩, rfl⟩
  have hsmall : size + allocPad size alignment info.attr ≤ 256 → info.size ≤ 256 := hr.le ⟨⟨7, by decide⟩, rfl⟩
  have hpad := padOf_eq hp ha
  have hsum : allocPad size alignment info.attr =
      if size > 2046 - typeInfoSizeOf info.attr then prefixOf alignment + 1
      else (if size > 255 - typeInfoSizeOf info.attr then 2 else 1) + typeInfoSizeOf info.attr := by
    rw [allocPad, if_pos happ, hpad]
    rfl
  rw [LARGEPREFIX_MIN] at hpre
  have hfits : info.size > PAGESIZE / 2 → prefixOf alignment + 1 ≤ info.size ∧
      size > 2046 - typeInfoSizeOf info.attr := by
    intro hl
    have hl' : 2048 < info.size := hl
    rw [hsum] at hle hmed
    split at hle
    case isTrue h  => exact ⟨by omega, h⟩
    case isFalse h =>
      rw [if_neg h] at hmed
      split at hmed <;> omega
  have hb : ArrayBlock info ti alignment := ⟨hr.1, happ, hp, fun hl => (hfits hl).1, he, hc⟩
  have hm := Meta.of_set (m := m) hb
  rw [hm.capacity_eq hb, hm.blockPad_eq hb, lengthBytes]
  rw [hsum] at hle hmed hsmall
  by_cases hs : info.size ≤ PAGESIZE / 2
  · have hs' : info.size ≤ 2048 := hs
    have hn : ¬ size > 2046 - typeInfoSizeOf info.attr := fun h => by
      rw [if_pos h] at hle
      omega
    rw [if_neg hn] at hle hsmall
    rw [if_pos hs, if_pos hs]
    by_cases hq : size > 255 - typeInfoSizeOf info.attr
    · rw [if_pos hq] at hle
      rw [if_neg (by omega)]
      omega
    · rw [if_neg hq] at hle hsmall
      rw [if_pos (by omega)]
      omega
  · have hl := hfits (by omega)
    rw [if_pos hl.2] at hle
    rw [if_neg hs]
    omega

-- Blocks that arrays are not appended to only have the type info, at their end.

section

variable (happ : hasAttr info.attr BlkAttr.APPENDABLE = false)
include happ

theorem finalizer_of_plain (hc : hasAttr info.attr BlkAttr.STRUCTFINAL = true → ti ≠ 0) :
    getBlockFinalizerInfo (setBlockMetaInfo m info ti alignment) info = some (context info ti) := by
  rw [getBlockFinalizerInfo, setBlockMetaInfo, happ, context]
  cases hf : hasAttr info.attr BlkAttr.STRUCTFINAL
  case false => rfl
  case true =>
    rw [Bool.false_and, if_neg (show ¬ (!true) = true by decide)]
    dsimp only
    rw [if_neg Bool.false_ne_true, if_neg Bool.false_ne_true, if_pos rfl, readWord_writeWord, if_pos (hc hf), if_pos rfl]

theorem trimExtents_of_plain :
    trimExtents m info.base info.size info.attr = (info.base, info.size - typeInfoSizeOf info.attr) := by
  rw [trimExtents, happ, if_neg Bool.false_ne_true, typeInfoSizeOf]
  split <;> rfl

theorem size_le_extent {size : Nat} (hr : RoundsUp (size + allocPad size alignment info.attr) info.size) :
    size ≤ (trimExtents m info.base info.size info.attr).2 := by
  have hle := hr.2.1
  rw [allocPad, happ, if_neg Bool.false_ne_true] at hle
  rw [trimExtents_of_plain happ]
  exact Nat.le_sub_of_add_le hle

end

-- A call of setArrayAllocLength in any block for an array is correct exactly if it is regular. Other
-- blocks give their type info back, and a block for a size and its padding has room for the size.
theorem metadata_correct_iff (info : BlkInfo) (ti : TypeInfo) (alignment : Nat) :
    (∀ m newlength isshared oldlength, ArrayBlock info ti alignment →
      Reachable info ti alignment m → newlength < 2 ^ 64 →
      (Correct m info ti alignment newlength isshared oldlength ↔ Regular m info newlength isshared oldlength)) ∧
    (∀ m : Memory,
      hasAttr info.attr BlkAttr.APPENDABLE = false → (hasAttr info.attr BlkAttr.STRUCTFINAL = true → ti ≠ 0) →
      getBlockFinalizerInfo (setBlockMetaInfo m info ti alignment) info = some (context info ti) ∧
      trimExtents (setBlockMetaInfo m info ti alignment) info.base info.size info.attr =
        (info.base, info.size - typeInfoSizeOf info.attr)) ∧
    (∀ (size : Nat) (m : Memory),
      (∃ k, alignment = 2 ^ k) → alignment < 2 ^ 64 → ti &&& 1 = 0 →
      (hasAttr info.attr BlkAttr.STRUCTFINAL = true → ti ≠ 0) →
      RoundsUp (size + allocPad size alignment info.attr) info.size →
      if hasAttr info.attr BlkAttr.APPENDABLE then
        size ≤ arrayAllocCapacity (setBlockMetaInfo m info ti alignment) info
      else
        size ≤ (trimExtents (setBlockMetaInfo m info ti alignment) info.base info.size info.attr).2) := by
  refine ⟨?_, ?_, ?_⟩
  · intro m newlength isshared oldlength hb hm hn
    exact correct_iff (hm.meta hb) hb hn
  · intro m happ hc
    exact ⟨finalizer_of_plain happ hc, trimExtents_of_plain happ⟩
  · intro size m hp ha he hc hr
    split
    case isTrue happ  => exact size_le_capacity happ hp ha he hc hr
    case isFalse happ => exact size_le_extent (Bool.eq_false_of_not_eq_true happ) hr

-- A medium block with a type info.
theorem metadata_correct_medium : Correct (setBlockMetaInfo (fun _ => 0) ⟨4096, 512, 0x28⟩ 16 16) ⟨4096, 512, 0x28⟩
      16 16 100 false SIZE_MAX ∧
    getBlockFinalizerInfo (setBlockMetaInfo (fun _ => 0) ⟨4096, 512, 0x20⟩ 16 16) ⟨4096, 512, 0x20⟩ = some 16 ∧
    500 ≤ arrayAllocCapacity (setBlockMetaInfo (fun _ => 0) ⟨4096, 512, 0x28⟩ 16 16) ⟨4096, 512, 0x28⟩ := by
  have hround : RoundsUp (500 + allocPad 500 16 0x28) 512 := by
    refine ⟨.inl ⟨⟨9, by decide⟩, rfl⟩, by decide, ?_⟩
    rintro n (⟨bin, rfl⟩ | ⟨hpos, -, hdvd⟩) hn
    · revert bin
      decide
    · have hpage : PAGESIZE ≤ n := Nat.le_of_dvd hpos hdvd
      rw [PAGESIZE] at hpage
      omega
  refine ⟨((metadata_correct_iff ⟨4096, 512, 0x28⟩ 16 16).1 _ 100 false SIZE_MAX ?_ .setBlockMetaInfo (by decide)).mpr ?_,
    ((metadata_correct_iff ⟨4096, 512, 0x20⟩ 16 16).2.1 _ (by decide) (by decide)).1,
    (metadata_correct_iff ⟨4096, 512, 0x28⟩ 16 16).2.2 500 _ ⟨4, rfl⟩ (by decide) (by decide) (by decide) hround⟩
  · exact ⟨hround.1, by decide, ⟨4, rfl⟩, by decide, by decide, by decide⟩
  · exact fun _ => ⟨fun _ => by decide, fun h => absurd rfl h⟩

-- The sum with the padding of a medium block overflows.
theorem setArrayAllocLength_overflow : ∃ info ti alignment m newlength isshared oldlength,
    ArrayBlock info ti alignment ∧ Reachable info ti alignment m ∧ newlength < 2 ^ 64 ∧
    ¬ Correct m info ti alignment newlength isshared oldlength := by
  refine ⟨⟨4096, 512, 0x08⟩, 0, 16, setBlockMetaInfo (fun _ => 0) ⟨4096, 512, 0x08⟩ 0 16, 2 ^ 64 - 1, false, SIZE_MAX,
    ⟨.inl ⟨⟨9, by decide⟩, rfl⟩, by decide, ⟨4, rfl⟩, by decide, by decide, by decide⟩, .setBlockMetaInfo,
    by decide, fun hc => ?_⟩
  have hfit := (hc.1 (by decide)).capacity
  revert hfit
  decide

end Runtime.GC.BlockMeta
