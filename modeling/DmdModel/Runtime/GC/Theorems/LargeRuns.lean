import DmdModel.Runtime.GC.Theorems.AllocPages
import DmdModel.Runtime.GC.Theorems.Resize
import DmdModel.Runtime.GC.Theorems.Sweep

open BoundaryTags

namespace Runtime.GC.LargeObjectPool

variable {p q : LargeObjectPool} {l ptr s : Nat}

-- What `findBase` and `getInfo` tell about an address.
structure Lookup (p : LargeObjectPool) (ptr : Nat) : Prop where
  block : ∀ s l, p.IsBlock s l → s ≤ p.pagenumOf ptr → p.pagenumOf ptr < s + l →
    p.findBase ptr = .ok (some (p.baseAddr + s * PAGESIZE)) ∧
    p.getInfo ptr = .ok ⟨p.baseAddr + s * PAGESIZE, l * PAGESIZE, p.getBits s⟩
  free  : p.tag (p.pagenumOf ptr) = .free → p.findBase ptr = .ok none ∧ p.getInfo ptr = .ok .init

theorem lookup (h : p.Wf) (hc : p.contains ptr) : Lookup p ptr := by
  have hlt := pagenumOf_lt hc
  have hbin := h.tables.bin hlt
  have hoff := h.tables.pageOffset hlt
  -- the offset of the address, in pages and bytes
  obtain ⟨r, hr, hdiv⟩ : ∃ r < PAGESIZE, ptr - p.baseAddr = p.pagenumOf ptr * PAGESIZE + r :=
    ⟨_, Nat.mod_lt _ (by decide), by rw [pagenumOf, Nat.mul_comm, Nat.div_add_mod]⟩
  have hround : ∀ s, s * PAGESIZE + r - (s * PAGESIZE + r) % PAGESIZE = s * PAGESIZE := by
    intro s
    rw [Nat.mul_add_mod_of_lt hr]
    omega
  rw [pagenumOf] at hbin hoff hlt
  constructor
  case free =>
    intro ht
    rw [pagenumOf] at ht
    rw [findBase, getInfo]
    simp only [hbin, ht, Bins.ofTag, bind, Except.bind]
    exact ⟨rfl, rfl⟩
  case block =>
    intro s l hb hs hl
    have hle := hb.le
    have hpos := hb.block.pos
    have hsize : p.getSize s = .ok (l * PAGESIZE) := by
      rw [getSize, h.tables.bin (by omega), h.tables.pageOffset (by omega), hb.block.head,
        hb.block.size]
      rfl
    by_cases he : s = p.pagenumOf ptr
    case pos =>
      have ht : p.tag ((ptr - p.baseAddr) / PAGESIZE) = .head := by
        rw [← pagenumOf, ← he]
        exact hb.block.head
      rw [findBase, getInfo]
      simp only [hbin, ht, Bins.ofTag, bind, Except.bind]
      rw [← pagenumOf, hdiv, ← he, hround, hsize]
      exact ⟨rfl, rfl⟩
    case neg =>
      have hbody := hb.block.body (p.pagenumOf ptr - s) (by omega) (by omega)
      rw [show s + (p.pagenumOf ptr - s) = p.pagenumOf ptr by omega, pagenumOf] at hbody
      rw [findBase, getInfo]
      simp only [hbin, hoff, hbody.1, hbody.2, Bins.ofTag, bind, Except.bind]
      rw [← pagenumOf, hdiv, show p.pagenumOf ptr * PAGESIZE + r - (p.pagenumOf ptr - s) * PAGESIZE =
        s * PAGESIZE + r by rw [Nat.sub_mul]; have := Nat.mul_le_mul_right PAGESIZE hs; omega, hround,
        show p.pagenumOf ptr - (p.pagenumOf ptr - s) = s by omega, hsize]
      exact ⟨rfl, rfl⟩

-- The block is the same afterwards.
structure Kept (p q : LargeObjectPool) (s l : Nat) : Prop where
  block : q.IsBlock s l
  attrs : q.getBits s = p.getBits s

section Kept

variable {n pageAlign : Nat}

-- A change that affects only free pages and one block keeps the other blocks.
theorem Keeps.kept {lo hi s₀ : Nat} (hk : Keeps p q lo hi)
    (hin : ∀ i, lo ≤ i → i < hi → p.tag i = .free ∨ ∃ l₀, p.IsBlock s₀ l₀ ∧ s₀ ≤ i ∧ i < s₀ + l₀)
    (hb : p.IsBlock s l) (hne : s ≠ s₀) : Kept p q s l := by
  have hle := hb.le
  have hpos := hb.block.pos
  have hd : ∀ i, s ≤ i → i < s + l → i < lo ∨ hi ≤ i := by
    intro i hs hl
    by_contra hc
    cases hin i (by omega) (by omega) with
    | inl hf => exact hb.block.ne_free hs hl hf
    | inr hb' =>
      obtain ⟨l₀, hb', hs', hl'⟩ := hb'
      exact hne (hb.eq_of_mem hb' hs hl hs' hl').1
  exact ⟨hk.isBlock hb hd, hk.attrs s (by omega) (hd s (Nat.le_refl s) (by omega))⟩

theorem kept_self (hb : p.IsBlock s l) : Kept p p s l :=
  ⟨hb, rfl⟩

theorem Resized.kept {s₀ l₀ l' : Nat} (h : Resized p q s₀ l₀ l') (hb₀ : p.IsBlock s₀ l₀)
    (hr : p.FreeRange (s₀ + l₀) (l' - l₀)) (hb : p.IsBlock s l) (hne : s ≠ s₀) : Kept p q s l := by
  refine h.keeps.kept (fun i hi hi' => ?_) hb hne
  by_cases hl : i < s₀ + l₀
  case pos => exact .inr ⟨l₀, hb₀, hi, hl⟩
  case neg => exact .inl (hr.free i (by omega) (by omega))

theorem AllocSpec.wf {r : Option Nat × LargeObjectPool} (h : AllocSpec p n pageAlign r) : r.2.Wf := by
  cases h with
  | some _ allocated => exact allocated.wf
  | none _ wf _ => exact wf

theorem AllocSpec.kept {r : Option Nat × LargeObjectPool} (h : AllocSpec p n pageAlign r)
    (hb : p.IsBlock s l) : Kept p r.2 s l := by
  cases h with
  | some place allocated =>
    exact allocated.keeps.kept (fun i hi hi' => .inl (place.range.free i hi hi')) hb
      (Nat.ne_of_lt (Nat.lt_succ_self s))
  | none _ _ keeps =>
    exact keeps.kept (fun i _ hi => absurd hi (Nat.not_lt_zero i)) hb
      (Nat.ne_of_lt (Nat.lt_succ_self s))

theorem FreeSpec.wf {r : Bool × LargeObjectPool} (hp : p.Wf) (h : FreeSpec p ptr r) : r.2.Wf := by
  cases h with
  | freed _ _ freed => exact freed.wf
  | other => exact hp

theorem FreeSpec.kept {r : Bool × LargeObjectPool} (h : FreeSpec p ptr r) (hb : p.IsBlock s l)
    (hne : s ≠ p.pagenumOf ptr) : Kept p r.2 s l := by
  cases h with
  | freed block start freed =>
    rw [(block.start start).1] at hne
    exact freed.keeps.kept (fun i hi hi' => .inr ⟨_, block, hi, hi'⟩) hb hne
  | other => exact kept_self hb

theorem ExtendSpec.wf {minsize maxsize : Nat} {r : Nat × Nat × LargeObjectPool} (hp : p.Wf)
    (h : ExtendSpec p ptr minsize maxsize r) : r.2.2.Wf := by
  cases h with
  | grown _ _ _ _ _ resized => exact resized.wf
  | none => exact hp

theorem ExtendSpec.kept {minsize maxsize : Nat} {r : Nat × Nat × LargeObjectPool}
    (h : ExtendSpec p ptr minsize maxsize r) (hb : p.IsBlock s l) (hne : s ≠ p.pagenumOf ptr) :
    Kept p r.2.2 s l := by
  cases h with
  | grown block page room _ _ resized =>
    rw [page] at hne
    exact resized.kept block (by rwa [Nat.add_sub_cancel_left]) hb hne
  | none => exact kept_self hb

theorem ReallocSpec.wf {size : Nat} {r : Realloc × LargeObjectPool} (hp : p.Wf)
    (h : ReallocSpec p ptr size r) : r.2.Wf := by
  cases h with
  | null => exact hp
  | doMalloc => exact hp
  | inPlace _ _ _ resized => exact resized.wf

theorem ReallocSpec.kept {size : Nat} {r : Realloc × LargeObjectPool} (h : ReallocSpec p ptr size r)
    (hb : p.IsBlock s l) (hne : s ≠ p.pagenumOf ptr) : Kept p r.2 s l := by
  cases h with
  | null => exact kept_self hb
  | doMalloc => exact kept_self hb
  | inPlace block start room resized =>
    rw [(block.start start).1] at hne
    exact resized.kept block room hb hne

end Kept

inductive Op
  | allocPages (n pageAlign : Nat)
  | free (ptr : Nat)
  | extend (ptr minsize maxsize : Nat)
  | realloc (ptr size : Nat) (bits : UInt32)
  | sweep (mark : Nat → Bool)

inductive Outcome
  | page (start : Option Nat)
  | freed (freed : Bool)
  | extended (size grown : Nat)
  | realloc (result : Realloc)
  | swept (freed : Nat)

namespace Op

def run (p : LargeObjectPool) : Op → Except GCError (Outcome × LargeObjectPool)
  | allocPages n pageAlign     => return (← p.allocPages n pageAlign).map .page id
  | free ptr                   => return (← p.freeNoSync ptr).map .freed id
  | extend ptr minsize maxsize => do
    let (size, grown, p) ← p.extendNoSync ptr minsize maxsize
    return (.extended size grown, p)
  | realloc ptr size bits      => return (← p.reallocNoSync ptr size bits).map .realloc id
  | sweep mark                 => return (← p.sweep mark).map .swept id

-- The requests that callers make.
def Valid (p : LargeObjectPool) : Op → Prop
  | allocPages n pageAlign     => 0 < n ∧ n < 2 ^ 64 ∧ ∃ k < 64, pageAlign = 2 ^ k
  | free ptr                   => p.contains ptr
  | extend ptr minsize maxsize => p.contains ptr ∧ minsize ≤ maxsize ∧ maxsize < 2 ^ 64
  | realloc ptr size _         => p.contains ptr ∧ PAGESIZE / 2 < size ∧ size < 2 ^ 64
  | sweep _                    => True

-- The requests within the limits of the code: no allocation that succeeds takes more pages than the
-- `int` in `allocPages` counts, and no reallocation of the last block overflows.
def Fits (p : LargeObjectPool) : Op → Prop
  | allocPages n pageAlign => (∃ i, Place p n pageAlign i) → n ≤ 2 ^ 31
  | realloc ptr size _     => ¬p.Overflows ptr size
  | _                      => True

def Spec (p : LargeObjectPool) : Op → Outcome × LargeObjectPool → Prop
  | allocPages n pageAlign, (.page start, q)             => AllocSpec p n pageAlign (start, q)
  | free ptr, (.freed b, q)                              => FreeSpec p ptr (b, q)
  | extend ptr minsize maxsize, (.extended size grown, q) =>
    ExtendSpec p ptr minsize maxsize (size, grown, q)
  | realloc ptr size _, (.realloc result, q)             => ReallocSpec p ptr size (result, q)
  | sweep mark, (.swept n, q)                            => Swept mark p q 0 n
  | _, _                                                 => False

-- The blocks that an operation frees or resizes.
def Touches (p : LargeObjectPool) : Op → Nat → Prop
  | allocPages _ _, _                          => False
  | free ptr, s | extend ptr _ _, s | realloc ptr _ _, s => s = p.pagenumOf ptr
  | sweep mark, s                              => mark s = false

theorem run_spec (h : p.Wf) {op : Op} (hv : op.Valid p) (hf : op.Fits p) :
    ∃ r, op.run p = .ok r ∧ op.Spec p r := by
  cases op with
  | allocPages n pageAlign =>
    obtain ⟨hn, _, k, hk, rfl⟩ := hv
    obtain ⟨⟨start, q⟩, hr, hs⟩ := allocPages_spec h hk hn fun i hi => hf ⟨i, hi⟩
    exact ⟨(.page start, q), by rw [run, hr]; rfl, hs⟩
  | free ptr =>
    obtain ⟨⟨b, q⟩, hr, hs⟩ := freeNoSync_spec h hv
    exact ⟨(.freed b, q), by rw [run, hr]; rfl, hs⟩
  | extend ptr minsize maxsize =>
    obtain ⟨⟨size, grown, q⟩, hr, hs⟩ := extendNoSync_spec h hv.1 hv.2.1
    exact ⟨(.extended size grown, q), by rw [run, hr]; rfl, hs⟩
  | realloc ptr size bits =>
    obtain ⟨⟨result, q⟩, hr, hs⟩ := reallocNoSync_spec h hv.1 bits hf
    exact ⟨(.realloc result, q), by rw [run, hr]; rfl, hs⟩
  | sweep mark =>
    obtain ⟨n, q, hr, hs⟩ := sweep_spec h mark
    exact ⟨(.swept n, q), by rw [run, hr]; rfl, hs⟩

theorem Spec.wf (h : p.Wf) {op : Op} {r : Outcome × LargeObjectPool} (hs : op.Spec p r) : r.2.Wf :=
  match op, r, hs with
  | allocPages .., (.page _, _), hs    => AllocSpec.wf hs
  | free _, (.freed _, _), hs          => FreeSpec.wf h hs
  | extend .., (.extended .., _), hs   => ExtendSpec.wf h hs
  | realloc .., (.realloc _, _), hs    => ReallocSpec.wf h hs
  | sweep _, (.swept _, _), hs         => Swept.wf hs

theorem Spec.kept {op : Op} {r : Outcome × LargeObjectPool} (hs : op.Spec p r) (hb : p.IsBlock s l)
    (ht : ¬op.Touches p s) : Kept p r.2 s l :=
  match op, r, hs with
  | allocPages .., (.page _, _), hs    => AllocSpec.kept hs hb
  | free _, (.freed _, _), hs          => FreeSpec.kept hs hb ht
  | extend .., (.extended .., _), hs   => ExtendSpec.kept hs hb ht
  | realloc .., (.realloc _, _), hs    => ReallocSpec.kept hs hb ht
  | sweep _, (.swept _, _), hs         =>
    have hm := Swept.marked hs s l (.inr (by simpa [Touches] using ht)) hb
    ⟨hm.1, hm.2⟩

end Op

-- The pools of a program: a new pool, and what the operations make of it.
inductive Reachable : LargeObjectPool → Prop
  | fresh {baseAddr npages : Nat} {memory : List UInt32} (size : memory.length = npages)
    (fits : npages < 2 ^ 32) (aligned : baseAddr % PAGESIZE = 0)
    (top : baseAddr + npages * PAGESIZE ≤ 2 ^ 64) : Reachable (fresh baseAddr npages memory)
  | step {p : LargeObjectPool} {op : Op} {r : Outcome × LargeObjectPool} (reachable : Reachable p)
    (valid : op.Valid p) (fits : op.Fits p) (run : op.run p = .ok r) : Reachable r.2

theorem Reachable.wf (h : Reachable p) : p.Wf := by
  induction h with
  | fresh size fits aligned top => exact fresh_wf size fits aligned top
  | step _ valid fits run hi =>
    obtain ⟨r, hr, hs⟩ := Op.run_spec hi valid fits
    obtain rfl := Except.ok.inj (run.symm.trans hr)
    exact hs.wf hi

-- A correct state of the pool: the assertions of the source hold, the pages are tiled by blocks and
-- maximal free runs, the counters are right, and every address is found.
structure Sound (p : LargeObjectPool) : Prop where
  invariant   : p.Invariant = .ok ()
  tiles       : Tiles p.tag p.off 0 p.npages
  freepages   : p.freepages = freeCount p.tag p.npages
  searchStart : ∀ i < p.npages, p.tag i = .free → p.searchStart ≤ i
  largestFree : ∀ s l, p.FreeRange s l → l ≤ p.largestFree
  lookup      : ∀ ptr, p.contains ptr → Lookup p ptr

theorem Wf.sound (h : p.Wf) : p.Sound where
  invariant   := h.Invariant
  tiles       := h.tiles
  freepages   := h.counters.freepages
  searchStart := h.counters.searchStart
  largestFree := h.counters.largestFree
  lookup _    := lookup h

-- Every operation within the limits returns, does what it should, and keeps the other blocks.
theorem reachable_sound (h : Reachable p) :
    p.Sound ∧ ∀ op : Op, op.Valid p → op.Fits p → ∃ r, op.run p = .ok r ∧ op.Spec p r ∧ r.2.Sound ∧
      ∀ s l, p.IsBlock s l → ¬op.Touches p s → Kept p r.2 s l := by
  refine ⟨h.wf.sound, fun op hv hf => ?_⟩
  obtain ⟨r, hr, hs⟩ := Op.run_spec h.wf hv hf
  exact ⟨r, hr, hs, (hs.wf h.wf).sound, fun s l hb ht => hs.kept hb ht⟩

theorem reachable_sound_fresh :
    ∃ r, (Op.allocPages 3 1).run (fresh 0x10000 4 [0, 0, 0, 0]) = .ok r ∧ r.2.Sound :=
  have h := reachable_sound
    (@Reachable.fresh 0x10000 4 [0, 0, 0, 0] rfl (by decide) (by decide) (by decide))
  have ⟨r, hr, _, hs, _⟩ := h.2 (.allocPages 3 1) ⟨by decide, by decide, 0, by decide, rfl⟩
    fun _ => by decide
  ⟨r, hr, hs⟩

-- The runs of operations.
def runOps (p : LargeObjectPool) (ops : List Op) : Except GCError LargeObjectPool :=
  ops.foldlM (fun p op => Prod.snd <$> op.run p) p

-- Resizing the last block of a pool to more than 2^32 - 1 pages reads behind the page table.
theorem reallocNoSync_outOfBounds :
    runOps (fresh 0xFFF01000 256 (List.replicate 256 0)) [.allocPages 1 (2 ^ 20),
      .realloc 0x100000000 (PAGESIZE * (2 ^ 32 - 1) + 1) 0] = .error .outOfBounds := by
  decide +kernel

end Runtime.GC.LargeObjectPool
