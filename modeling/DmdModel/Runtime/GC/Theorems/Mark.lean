import DmdModel.Runtime.GC.BlockMeta
import DmdModel.Runtime.GC.Theorems.BlockMeta

namespace Runtime.GC.Mark

open BlockMeta ByteMemory

variable {m : Memory} {w : Window} {σ : Type} {pcache : σ → Nat} {follow : Nat → σ → σ} {s : σ}

theorem word_eq : WORDSIZE = 8 := rfl

-- The base moves by whole repetitions of the bitmap, up to the word or before it.
theorem reduce_eq {pos : 0 < bmplength} : reduce bitpos pbase bmplength pos =
    (bitpos % bmplength, pbase + WORDSIZE * (bmplength * (bitpos / bmplength))) := by
  induction bitpos using Nat.strong_induction_on generalizing pbase
  case h bitpos ih =>
    rw [reduce]
    split
    case isTrue hge =>
      rw [ih (bitpos - bmplength) (Nat.sub_lt (Nat.lt_of_lt_of_le pos hge) pos), ← Nat.mod_eq_sub_mod hge]
      have hdiv : bitpos / bmplength = (bitpos - bmplength) / bmplength + 1 := Nat.div_eq_sub_div pos hge
      rw [hdiv, Nat.mul_add_one, Nat.mul_add, Nat.add_assoc, Nat.add_comm (WORDSIZE * bmplength)]
    case isFalse hlt =>
      rw [Nat.mod_eq_of_lt (by omega), Nat.div_eq_of_lt (by omega), Nat.mul_zero, Nat.mul_zero, Nat.add_zero]

-- What is found at a word if the bitmap repeats from `start` on.
def expected (m : Memory) (w : Window) (ptrbmp : Nat → Bool) (bmplength start pcache addr : Nat) : Outcome :=
  let p := read m addr WORDSIZE
  let bitpos := (addr - start) / WORDSIZE % bmplength
  if inWindow w pcache p then
    if ptrbmp bitpos then .pointer (some bitpos) p else .nonPointer bitpos
  else
    .outside

-- The base of a bitmap after whole repetitions of it.
structure InPhase (b : Bitmap) (ptrbmp : Nat → Bool) (bmplength start addr : Nat) : Prop where
  bits   : b.ptrbmp = ptrbmp
  length : b.bmplength = bmplength
  base   : ∃ k, b.pbase = start + WORDSIZE * (bmplength * k)
  le     : b.pbase ≤ addr
  word   : ∃ i, addr = start + WORDSIZE * i

namespace InPhase

variable {b : Bitmap} {ptrbmp : Nat → Bool} {bmplength start addr : Nat}

theorem bitpos_eq (h : InPhase b ptrbmp bmplength start addr) :
    (addr - b.pbase) / WORDSIZE % b.bmplength = (addr - start) / WORDSIZE % bmplength := by
  obtain ⟨k, hk⟩ := h.base
  obtain ⟨i, rfl⟩ := h.word
  have hle := h.le
  rw [hk, Nat.add_le_add_iff_left] at hle
  have hki : bmplength * k ≤ i := Nat.le_of_mul_le_mul_left hle (by decide)
  rw [hk, h.length, Nat.add_sub_add_left, Nat.add_sub_cancel_left, ← Nat.mul_sub,
    Nat.mul_div_cancel_left _ (by decide), Nat.mul_div_cancel_left _ (by decide)]
  exact Nat.sub_mul_mod hki

theorem reduced (h : InPhase b ptrbmp bmplength start addr) :
    InPhase { b with pbase := (reduce ((addr - b.pbase) / WORDSIZE) b.pbase b.bmplength b.pos).2 } ptrbmp bmplength
      start addr := by
  obtain ⟨k, hk⟩ := h.base
  rw [reduce_eq]
  constructor
  case bits   => exact h.bits
  case length => exact h.length
  case word   => exact h.word
  case base   =>
    refine ⟨k + (addr - b.pbase) / WORDSIZE / b.bmplength, ?_⟩
    simp only
    rw [hk, h.length, Nat.add_assoc, ← Nat.mul_add, ← Nat.mul_add]
  case le     =>
    have hdiv := Nat.mul_div_le ((addr - b.pbase) / WORDSIZE) b.bmplength
    have hword := Nat.mul_div_le (addr - b.pbase) WORDSIZE
    have hmul := Nat.mul_le_mul_left WORDSIZE hdiv
    have hle := h.le
    simp only
    omega

theorem next (h : InPhase b ptrbmp bmplength start addr) : InPhase b ptrbmp bmplength start (addr + WORDSIZE) := by
  obtain ⟨i, hi⟩ := h.word
  exact ⟨h.bits, h.length, h.base, Nat.le_add_right_of_le h.le, i + 1, by rw [hi, Nat.mul_add_one, Nat.add_assoc]⟩

end InPhase

theorem scanWord_spec {rng : ScanRange} {b : Bitmap} {pc : Nat} (hb : rng.bitmap = some b)
    (h : InPhase b ptrbmp bmplength start rng.pbot) :
    (scanWord m w pc rng).1 = expected m w ptrbmp bmplength start pc rng.pbot ∧
    ∃ b', (scanWord m w pc rng).2 = some b' ∧ InPhase b' ptrbmp bmplength start rng.pbot := by
  have hpos := h.bitpos_eq
  have hred := h.reduced
  rw [scanWord, expected, hb]
  by_cases hw : inWindow w pc (read m rng.pbot WORDSIZE) = true
  · rw [if_pos hw, if_pos hw]
    simp only [reduce_eq] at hred ⊢
    rw [hpos, congrFun h.bits]
    split
    case isTrue  => exact ⟨rfl, _, rfl, hred⟩
    case isFalse => exact ⟨rfl, _, rfl, hred⟩
  · rw [if_neg hw, if_neg hw]
    exact ⟨rfl, b, rfl, h⟩

-- The words from the start of a range on are scanned, the first one also if the range is empty.
theorem mem_scanRange {rng : ScanRange} {b : Bitmap} (hb : rng.bitmap = some b)
    (h : InPhase b ptrbmp bmplength start rng.pbot) :
    (∀ addr o, (addr, o) ∈ scanRange m w pcache follow rng s →
      (∃ i, addr = rng.pbot + WORDSIZE * i ∧ (i = 0 ∨ addr < rng.ptop)) ∧
      ∃ s', o = expected m w ptrbmp bmplength start (pcache s') addr) ∧
    (∀ i, i = 0 ∨ rng.pbot + WORDSIZE * i < rng.ptop →
      ∃ o, (rng.pbot + WORDSIZE * i, o) ∈ scanRange m w pcache follow rng s) := by
  induction hn : rng.ptop - rng.pbot using Nat.strong_induction_on generalizing rng b s
  case h n ih =>
    obtain ⟨hout, b', hb', h'⟩ := @scanWord_spec m w ptrbmp bmplength start rng b (pcache s) hb h
    rw [scanRange]
    by_cases hlt : rng.pbot + WORDSIZE < rng.ptop
    case pos =>
      rw [if_pos hlt]
      have hrest := @ih (rng.ptop - (rng.pbot + WORDSIZE)) (by rw [word_eq] at hlt ⊢; omega)
        (followWord follow s (scanWord m w (pcache s) rng).1)
        ⟨rng.pbot + WORDSIZE, rng.ptop, (scanWord m w (pcache s) rng).2⟩ b' hb' h'.next rfl
      simp only at hrest
      constructor
      · intro addr o ho
        obtain he | ho := List.mem_cons.mp ho
        · obtain ⟨rfl, rfl⟩ := Prod.mk.inj he
          exact ⟨⟨0, rfl, .inl rfl⟩, s, hout⟩
        · obtain ⟨⟨i, hi, htop⟩, hs⟩ := hrest.1 addr o ho
          refine ⟨⟨i + 1, by rw [hi, Nat.mul_add_one]; omega, .inr ?_⟩, hs⟩
          obtain rfl | htop := htop
          · rw [hi]
            exact hlt
          · exact htop
      · intro i hi
        obtain _ | i := i
        · exact ⟨_, List.mem_cons_self⟩
        · obtain ⟨o, ho⟩ := hrest.2 i (.inr (by rw [Nat.mul_add_one] at hi; omega))
          refine ⟨o, List.mem_cons_of_mem _ ?_⟩
          rwa [Nat.mul_add_one, Nat.add_comm (WORDSIZE * i), ← Nat.add_assoc]
    case neg =>
      rw [if_neg hlt]
      constructor
      · intro addr o ho
        obtain ⟨rfl, rfl⟩ := Prod.mk.inj (List.mem_singleton.mp ho)
        exact ⟨⟨0, rfl, .inl rfl⟩, s, hout⟩
      · intro i hi
        obtain _ | i := i
        · exact ⟨_, List.mem_singleton.mpr rfl⟩
        · rw [Nat.mul_add_one] at hi
          omega

theorem pages_of_large (hb : ArrayBlock info ti alignment) (hl : info.size > PAGESIZE / 2) : PAGESIZE ∣ info.size := by
  obtain ⟨bin, hbin⟩ | ⟨-, -, hdvd⟩ := hb.size
  · have hle := (binsize_bounds bin).2
    exact absurd hl (Nat.not_lt.mpr (hbin ▸ hle))
  · exact hdvd

def Outcome.bitpos? : Outcome → Option Nat
  | .outside           => none
  | .nonPointer bitpos => some bitpos
  | .pointer bitpos _  => bitpos

-- The words that begin in the first `length` bytes of an array.
def UsedWord (start length addr : Nat) : Prop :=
  ∃ i, addr = start + WORDSIZE * i ∧ WORDSIZE * i < length

-- The words of the elements of an array that hold a pointer by the bitmap of an element.
def PointerWord (element_size : Nat) (ptrbmp : Nat → Bool) (start length addr : Nat) : Prop :=
  ∃ e j, (e + 1) * element_size ≤ length ∧ WORDSIZE * j < element_size ∧ ptrbmp j = true ∧
    addr = start + e * element_size + WORDSIZE * j

structure Visits (t : List (Nat × Outcome)) (element_size : Nat) (ptrbmp : Nat → Bool) (start length : Nat) :
    Prop where
  words    : ∀ addr, (∃ o, (addr, o) ∈ t) ↔ UsedWord start length addr
  phase    : ∀ addr o bitpos, (addr, o) ∈ t → o.bitpos? = some bitpos →
    bitpos = (addr - start) / WORDSIZE % ((element_size + WORDSIZE - 1) / WORDSIZE)
  pointers : ∀ addr, PointerWord element_size ptrbmp start length addr →
    ∃ o, (addr, o) ∈ t ∧ ∀ bitpos, o ≠ .nonPointer bitpos

-- The range of a large array is its used part, whatever is found in it and whatever is done about it.
def Agrees (m : Memory) (info : BlkInfo) (element_size : Nat) (ptrbmp : Nat → Bool) : Prop :=
  ∃ rng, largeRange m info.base info.size (.bitmap element_size ptrbmp) true = .ok (some rng) ∧
    ∀ (w : Window) (σ : Type) (pcache : σ → Nat) (follow : Nat → σ → σ) (s : σ),
      Visits (scanRange m w pcache follow rng s) element_size ptrbmp (arrayStart m info.base info.size)
        (arrayAllocLength m info)

-- The pointers of all elements in the first `length` bytes are words for which the repeated bitmap has a bit.
def ElementsInPhase (element_size : Nat) (ptrbmp : Nat → Bool) (length : Nat) : Prop :=
  ∀ e j, (e + 1) * element_size ≤ length → WORDSIZE * j < element_size → ptrbmp j = true →
    WORDSIZE ∣ e * element_size ∧
    ptrbmp ((e * element_size / WORDSIZE + j) % ((element_size + WORDSIZE - 1) / WORDSIZE)) = true

-- They are if an element consists of whole words.
theorem ElementsInPhase.of_dvd (h : WORDSIZE ∣ element_size) : ElementsInPhase element_size ptrbmp length := by
  obtain ⟨n, rfl⟩ := h
  intro e j _ hj hbit
  have hn : (WORDSIZE * n + WORDSIZE - 1) / WORDSIZE = n := by
    rw [Nat.add_sub_assoc (by decide), Nat.mul_add_div (by decide)]
    rfl
  have hj' : j < n := Nat.lt_of_mul_lt_mul_left hj
  have he : e * (WORDSIZE * n) = WORDSIZE * (n * e) := by
    rw [Nat.mul_left_comm, Nat.mul_comm e]
  rw [hn, he, Nat.mul_div_cancel_left _ (by decide), Nat.mul_add_mod, Nat.mod_eq_of_lt hj']
  exact ⟨⟨n * e, rfl⟩, hbit⟩

-- The memories after a length is stored in a block that was set up, with calls that fail and writes of bytes
-- outside of the block and bytes of the elements after that.
inductive Used (info : BlkInfo) (ti : TypeInfo) (alignment : Nat) : Memory → Nat → Prop
  | stored {m m' : Memory} {newlength : Nat} {isshared : Bool} {oldlength : Nat} :
    Reachable info ti alignment m → newlength < 2 ^ 64 →
    setArrayAllocLength m info newlength isshared oldlength (typeInfoSizeOf info.attr) = (true, m') →
    Used info ti alignment m' newlength
  | failed {m m' : Memory} {length newlength : Nat} {isshared : Bool} {oldlength : Nat} :
    Used info ti alignment m length → newlength < 2 ^ 64 →
    setArrayAllocLength m info newlength isshared oldlength (typeInfoSizeOf info.attr) = (false, m') →
    Used info ti alignment m' length
  | write {m : Memory} {length q : Nat} {x : UInt8} :
    Used info ti alignment m length → DataByte m info q ∨ q < info.base ∨ info.base + info.size ≤ q →
    Used info ti alignment (Function.update m q x) length

namespace Used

theorem reachable (h : Used info ti alignment m length) : Reachable info ti alignment m := by
  induction h
  case stored hm hn he => exact (Prod.mk.inj he).2 ▸ hm.setArrayAllocLength hn
  case failed hn he ih => exact (Prod.mk.inj he).2 ▸ ih.setArrayAllocLength hn
  case write hq ih     => exact ih.write hq

variable (hb : ArrayBlock info ti alignment) (hl : info.size > PAGESIZE / 2)
include hb hl

-- The length is stored as it is. With the padding it fits in the block, unless the sum overflows.
theorem length_eq (h : Used info ti alignment m length) :
    arrayAllocLength m info = length ∧ length < 2 ^ 64 ∧ (length + (prefixOf alignment + 1)) % 2 ^ 64 ≤ info.size := by
  have hbytes : lengthBytes info = WORDSIZE := lengthBytes_large (by omega)
  induction h
  case stored m m' newlength isshared oldlength hm hn he =>
    rw [setArrayAllocLength_eq hn, hbytes] at he
    by_cases ha : Accepted m info newlength isshared oldlength
    · rw [if_pos ha] at he
      have hfit := ha.1
      rw [if_neg (Nat.not_le.mpr (Nat.lt_of_le_of_lt (by decide) hl)), (hm.meta hb).blockPad_eq hb,
        if_neg (by omega)] at hfit
      rw [← (Prod.mk.inj he).2, arrayAllocLength_eq, hbytes, read_write (Nat.mod_lt _ (by decide)),
        @Nat.mod_eq_of_lt newlength (256 ^ WORDSIZE) hn]
      exact ⟨rfl, hn, hfit⟩
    · rw [if_neg ha] at he
      exact absurd (Prod.mk.inj he).1 Bool.false_ne_true
  case failed m m' length newlength isshared oldlength _ hn he ih =>
    rw [setArrayAllocLength_eq hn] at he
    by_cases ha : Accepted m info newlength isshared oldlength
    · rw [if_pos ha] at he
      exact absurd (Prod.mk.inj he).1.symm Bool.false_ne_true
    · rw [if_neg ha] at he
      exact (Prod.mk.inj he).2 ▸ ih
  case write m length q x hu hq ih =>
    refine ⟨?_, ih.2⟩
    rw [← ih.1, arrayAllocLength_eq, arrayAllocLength_eq]
    refine read_congr fun p hp hp' => Function.update_of_ne ?_ _ _
    rintro rfl
    have hlen : LengthByte info p := ⟨hp, hp'⟩
    obtain hd | ho := hq
    · exact (dataByte_disjoint (hu.reachable.meta hb) hb hd).1 hlen
    · rw [LengthByte, lengthPtr, if_neg (by omega), hbytes, word_eq] at hlen
      have hsize : 2048 < info.size := hl
      omega

end Used

theorem bmplength_pos (h : 0 < element_size) : 0 < (element_size + WORDSIZE - 1) / WORDSIZE :=
  Nat.div_pos (by rw [word_eq]; omega) (by decide)

-- The range of an array as the collector computes it: after a fixed prefix.
theorem largeRange_eq (hl : info.size > PAGESIZE / 2) (hes : 0 < element_size) :
    largeRange m info.base info.size (.bitmap element_size ptrbmp) true =
      let arrtop := (info.base + 16 + arrayAllocLength m info) % 2 ^ 64
      if arrtop > info.base ∧ arrtop ≤ info.base + info.size then
        .ok (some ⟨info.base + 16, arrtop, some ⟨info.base + 16, ptrbmp, _, bmplength_pos hes⟩⟩)
      else
        .error .assertion := by
  have hlen : arrayAllocLength m info = read m info.base WORDSIZE := by
    have hbig : 2048 < info.size := hl
    rw [arrayAllocLength, if_neg (by omega), if_neg (by omega)]
    rfl
  rw [hlen, largeRange]
  exact dif_pos (bmplength_pos hes)

theorem expected_nonPointer {pc : Nat} {bitpos : Nat}
    (h : (expected m w ptrbmp bmplength start pc addr).bitpos? = some bitpos) :
    bitpos = (addr - start) / WORDSIZE % bmplength := by
  rw [expected] at h
  split at h
  case isTrue =>
    split at h
    case isTrue  => exact (Option.some.inj h).symm
    case isFalse => exact (Option.some.inj h).symm
  case isFalse => cases h

theorem expected_ne_nonPointer {pc : Nat} {bitpos : Nat} (h : ptrbmp ((addr - start) / WORDSIZE % bmplength) = true) :
    expected m w ptrbmp bmplength start pc addr ≠ .nonPointer bitpos := by
  rw [expected, if_pos h]
  split
  case isTrue  => exact Outcome.noConfusion
  case isFalse => exact Outcome.noConfusion

-- A word is tested in a collection in which its value is the only address in a pool.
theorem tested_of_expected (h : ∀ bitpos, expected m ⟨read m addr WORDSIZE, 1⟩ ptrbmp bmplength start 1 addr ≠
    .nonPointer bitpos) : ptrbmp ((addr - start) / WORDSIZE % bmplength) = true := by
  have hlt : read m addr WORDSIZE < 2 ^ 64 := read_lt
  have hw : inWindow ⟨read m addr WORDSIZE, 1⟩ 1 (read m addr WORDSIZE) = true := by
    rw [inWindow, Nat.add_sub_of_le (Nat.le_of_lt hlt), Nat.mod_self, Bool.and_eq_true, decide_eq_true_iff,
      decide_eq_true_iff]
    refine ⟨Nat.one_pos, ?_⟩
    rw [PAGESIZE]
    omega
  rw [expected, if_pos hw] at h
  by_contra hbit
  exact h _ (if_neg hbit)

section

variable (hb : ArrayBlock info ti alignment) (hl : info.size > PAGESIZE / 2)
  (htop : info.base + info.size < 2 ^ 64) (hu : Used info ti alignment m length) (hes : 0 < element_size)
include hb hl htop hu hes

theorem agrees_of (ha : alignment ≤ LARGEPREFIX_MIN) (hpos : 0 < length) (hsum : length + 17 < 2 ^ 64)
    (hphase : ElementsInPhase element_size ptrbmp length) : Agrees m info element_size ptrbmp := by
  obtain ⟨hlen, -, hfit⟩ := hu.length_eq hb hl
  have hinitial : prefixOf alignment = 16 := if_neg (Nat.not_lt.mpr ha)
  rw [hinitial, Nat.mod_eq_of_lt hsum] at hfit
  have hstart : arrayStart m info.base info.size = info.base + 16 := by
    rw [(hu.reachable.meta hb).arrayStart_eq hb, if_neg (by omega), hinitial]
  have hmod : (info.base + 16 + length) % 2 ^ 64 = info.base + 16 + length := Nat.mod_eq_of_lt (by omega)
  rw [Agrees, largeRange_eq hl hes, hlen, hstart]
  simp only [hmod]
  rw [if_pos (by omega)]
  refine ⟨_, rfl, fun w σ pcache follow s => ?_⟩
  have hin : InPhase ⟨info.base + 16, ptrbmp, _, bmplength_pos hes⟩ ptrbmp _ (info.base + 16) (info.base + 16) :=
    ⟨rfl, rfl, ⟨0, rfl⟩, le_rfl, 0, rfl⟩
  obtain ⟨hmem, hall⟩ := @mem_scanRange m w σ pcache follow s ptrbmp _ (info.base + 16)
    ⟨info.base + 16, info.base + 16 + length, _⟩ _ rfl hin
  have hword : ∀ addr, UsedWord (info.base + 16) length addr →
      ∃ o, (addr, o) ∈ scanRange m w pcache follow ⟨info.base + 16, info.base + 16 + length,
        some ⟨info.base + 16, ptrbmp, _, bmplength_pos hes⟩⟩ s := by
    intro addr hused
    obtain ⟨i, rfl, hi⟩ := hused
    exact hall i (.inr (Nat.add_lt_add_left hi _))
  constructor
  case words =>
    refine fun addr => ⟨fun hscan => ?_, hword addr⟩
    obtain ⟨o, ho⟩ := hscan
    obtain ⟨⟨i, rfl, hi⟩, -⟩ := hmem addr o ho
    refine ⟨i, rfl, ?_⟩
    obtain rfl | hi := hi
    · exact hpos
    · exact Nat.lt_of_add_lt_add_left hi
  case phase =>
    intro addr o bitpos ho hbit
    obtain ⟨-, s', rfl⟩ := hmem addr o ho
    exact expected_nonPointer hbit
  case pointers =>
    intro addr hptr
    obtain ⟨e, j, he, hj, hbit, rfl⟩ := hptr
    obtain ⟨⟨n, hn⟩, hrep⟩ := hphase e j he hj hbit
    have haddr : info.base + 16 + e * element_size + WORDSIZE * j = info.base + 16 + WORDSIZE * (n + j) := by
      rw [hn, Nat.mul_add, Nat.add_assoc]
    rw [hn, Nat.mul_div_cancel_left _ (by decide)] at hrep
    rw [haddr]
    rw [Nat.add_one_mul, hn] at he
    obtain ⟨o, ho⟩ := hword _ ⟨n + j, rfl, by rw [Nat.mul_add]; omega⟩
    obtain ⟨-, s', rfl⟩ := hmem _ o ho
    refine ⟨_, ho, fun bitpos => expected_ne_nonPointer ?_⟩
    rwa [Nat.add_sub_cancel_left, Nat.mul_div_cancel_left _ (by decide)]

theorem of_agrees (h : Agrees m info element_size ptrbmp) : alignment ≤ LARGEPREFIX_MIN ∧ 0 < length ∧
    length + 17 < 2 ^ 64 ∧ ElementsInPhase element_size ptrbmp length := by
  obtain ⟨hlen, hlt, -⟩ := hu.length_eq hb hl
  have hstart : arrayStart m info.base info.size = info.base + prefixOf alignment := by
    rw [(hu.reachable.meta hb).arrayStart_eq hb, if_neg (by omega)]
  rw [Agrees, largeRange_eq hl hes, hlen, hstart] at h
  obtain ⟨rng, hrng, hvisits⟩ := h
  by_cases hassert : (info.base + 16 + length) % 2 ^ 64 > info.base ∧
    (info.base + 16 + length) % 2 ^ 64 ≤ info.base + info.size
  case neg => cases hrng.symm.trans (if_neg hassert)
  obtain rfl := Option.some.inj (Except.ok.inj ((if_pos hassert).symm.trans hrng))
  have hin : InPhase ⟨info.base + 16, ptrbmp, _, bmplength_pos hes⟩ ptrbmp _ (info.base + 16) (info.base + 16) :=
    ⟨rfl, rfl, ⟨0, rfl⟩, le_rfl, 0, rfl⟩
  have hscan := fun w (pc : Nat) => @mem_scanRange m w Unit (fun _ => pc) (fun _ s => s) () ptrbmp _ (info.base + 16)
    ⟨info.base + 16, (info.base + 16 + length) % 2 ^ 64, _⟩ _ rfl hin
  simp only at hscan
  have hv := fun w (pc : Nat) => hvisits w Unit (fun _ => pc) (fun _ s => s) ()
  -- the word after the fixed prefix is scanned in any case
  have hinitial : prefixOf alignment = 16 ∧ 0 < length := by
    obtain ⟨o, ho⟩ := (hscan ⟨0, 0⟩ 0).2 0 (.inl rfl)
    obtain ⟨i, hi, hpos⟩ := ((hv ⟨0, 0⟩ 0).words _).mp ⟨o, ho⟩
    have hle := (le_prefixOf alignment).2
    rw [LARGEPREFIX_MIN] at hle
    rw [word_eq] at hi hpos
    omega
  obtain ⟨hinitial, hpos⟩ := hinitial
  rw [hinitial] at hv
  have ha : alignment ≤ LARGEPREFIX_MIN := by
    have hle := (le_prefixOf alignment).1
    rw [hinitial] at hle
    exact hle
  refine ⟨ha, hpos, ?_, ?_⟩
  · by_contra hover
    obtain ⟨o, ho⟩ := ((hv ⟨0, 0⟩ 0).words (info.base + 16 + WORDSIZE * 1)).mpr ⟨1, rfl, by rw [word_eq]; omega⟩
    obtain ⟨⟨i, hi, htop'⟩, -⟩ := (hscan ⟨0, 0⟩ 0).1 _ o ho
    have hpages := pages_of_large hb hl
    rw [word_eq] at hi htop'
    rw [PAGESIZE] at hpages
    omega
  · intro e j he hj hbit
    obtain ⟨o, ho, hne⟩ := (hv ⟨read m (info.base + 16 + e * element_size + WORDSIZE * j) WORDSIZE, 1⟩ 1).pointers _
      ⟨e, j, he, hj, hbit, rfl⟩
    obtain ⟨⟨i, hi, -⟩, s', rfl⟩ := (hscan _ 1).1 _ o ho
    have htest := tested_of_expected hne
    have hdvd : e * element_size = WORDSIZE * (i - j) := by
      rw [word_eq] at hi ⊢
      omega
    rw [hdvd, Nat.add_assoc, Nat.add_sub_cancel_left, ← Nat.mul_add, Nat.mul_div_cancel_left _ (by decide)] at htest
    rw [hdvd, Nat.mul_div_cancel_left _ (by decide)]
    exact ⟨⟨_, rfl⟩, htest⟩

end

-- The range and the bits are those of the used part of the array, the pointers of all elements are visited and
-- the assertion holds, only if the array starts after the fixed prefix, is not empty and the sum of its length
-- and the padding did not overflow.
theorem precise_scan_iff (hb : ArrayBlock info ti alignment) (hl : info.size > PAGESIZE / 2)
    (htop : info.base + info.size < 2 ^ 64) (hu : Used info ti alignment m length) (hes : 0 < element_size) :
    Agrees m info element_size ptrbmp ↔ alignment ≤ LARGEPREFIX_MIN ∧ 0 < length ∧ length + 17 < 2 ^ 64 ∧
      ElementsInPhase element_size ptrbmp length :=
  ⟨of_agrees hb hl htop hu hes, fun h => agrees_of hb hl htop hu hes h.1 h.2.1 h.2.2.1 h.2.2.2⟩

-- An array of 100 bytes in one page
theorem precise_scan_page : Agrees (setArrayAllocLength (setBlockMetaInfo (fun _ => 0) ⟨4096, 4096, 0x08⟩ 0 16)
    ⟨4096, 4096, 0x08⟩ 100 false SIZE_MAX 0).2 ⟨4096, 4096, 0x08⟩ 16 (fun i => i == 1) ↔
    16 ≤ LARGEPREFIX_MIN ∧ 0 < 100 ∧ 100 + 17 < 2 ^ 64 ∧ ElementsInPhase 16 (fun i => i == 1) 100 :=
  @precise_scan_iff _ ⟨4096, 4096, 0x08⟩ 0 16 100 16 _
    ⟨.inr ⟨by decide, by decide, ⟨1, rfl⟩⟩, by decide, ⟨4, rfl⟩, by decide, by decide, by decide⟩ (by decide) (by decide)
    (@Used.stored _ _ _ _ _ 100 false SIZE_MAX .setBlockMetaInfo (by decide) (Prod.ext (by decide) rfl)) (by decide)

-- An array that is aligned to 32 bytes starts after the fixed prefix.
theorem precise_scan_aligned : ∃ info ti alignment m length element_size ptrbmp, ArrayBlock info ti alignment ∧
    info.size > PAGESIZE / 2 ∧ info.base + info.size < 2 ^ 64 ∧ Used info ti alignment m length ∧
    0 < element_size ∧ ¬ Agrees m info element_size ptrbmp := by
  have hb : ArrayBlock ⟨4096, 4096, 0x08⟩ 0 32 :=
    ⟨.inr ⟨by decide, by decide, ⟨1, rfl⟩⟩, by decide, ⟨5, rfl⟩, by decide, by decide, by decide⟩
  have hu : Used ⟨4096, 4096, 0x08⟩ 0 32 _ 64 := @Used.stored _ _ _ _ _ 64 false SIZE_MAX
    (@Reachable.setBlockMetaInfo _ _ _ fun _ => 0) (by decide) (Prod.ext (by decide) rfl)
  refine ⟨⟨4096, 4096, 0x08⟩, 0, 32, _, 64, 16, fun i => i == 1, hb, by decide, by decide, hu, by decide, fun h => ?_⟩
  exact absurd (of_agrees hb (by decide) (by decide) hu (by decide) h).1 (by decide)

end Runtime.GC.Mark
