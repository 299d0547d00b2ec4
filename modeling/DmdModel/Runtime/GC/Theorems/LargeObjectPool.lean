import DmdModel.Runtime.GC.Theorems.PageMap

open BoundaryTags BoundaryTags.Tiles

namespace Runtime.GC.LargeObjectPool

variable {p q : LargeObjectPool} {i l n s : Nat}

-- Free pages side by side.
structure FreeRange (p : LargeObjectPool) (s l : Nat) : Prop where
  le   : s + l ≤ p.npages
  free : ∀ i, s ≤ i → i < s + l → p.tag i = .free

-- An allocated block of `l` pages.
structure IsBlock (p : LargeObjectPool) (s l : Nat) : Prop where
  le    : s + l ≤ p.npages
  block : Block p.tag p.off s l

-- The pool `q` differs from `p` only in the pages from `lo` to `hi`, apart from what is stored for
-- free pages.
structure Keeps (p q : LargeObjectPool) (lo hi : Nat) : Prop where
  baseAddr : q.baseAddr = p.baseAddr
  npages   : q.npages = p.npages
  tag      : ∀ i < p.npages, i < lo ∨ hi ≤ i → q.tag i = p.tag i
  off      : ∀ i < p.npages, i < lo ∨ hi ≤ i → p.tag i ≠ .free → q.off i = p.off i
  attrs    : ∀ i < p.npages, i < lo ∨ hi ≤ i → q.getBits i = p.getBits i

theorem IsBlock.eq_of_mem {s' l' : Nat} (h : p.IsBlock s l) (h' : p.IsBlock s' l') (hs : s ≤ i)
    (hl : i < s + l) (hs' : s' ≤ i) (hl' : i < s' + l') : s = s' ∧ l = l' := by
  have he := h.block.eq_of_mem h'.block hs hl hs' hl'
  subst he
  exact ⟨rfl, h.block.size.symm.trans h'.block.size⟩

theorem Keeps.isBlock {lo hi : Nat} (h : Keeps p q lo hi) (hb : p.IsBlock s l)
    (hd : ∀ i, s ≤ i → i < s + l → i < lo ∨ hi ≤ i) : q.IsBlock s l where
  le    := h.npages ▸ hb.le
  block := hb.block.congr fun i hs hl =>
    have hlt : i < p.npages := Nat.lt_of_lt_of_le hl hb.le
    ⟨h.tag i hlt (hd i hs hl), h.off i hlt (hd i hs hl) (hb.block.ne_free hs hl)⟩

-- What is kept about the free pages: their number, a page before which there are none, and a bound
-- for the length of the runs.
structure Counters (p : LargeObjectPool) : Prop where
  freepages      : p.freepages = freeCount p.tag p.npages
  searchStart    : ∀ i < p.npages, p.tag i = .free → p.searchStart ≤ i
  largestFree    : ∀ s l, p.FreeRange s l → l ≤ p.largestFree
  largestFree_le : p.largestFree ≤ p.npages

structure Wf (p : LargeObjectPool) : Prop where
  tables   : p.Tables
  tiles    : Tiles p.tag p.off 0 p.npages
  counters : p.Counters
  aligned  : p.baseAddr % PAGESIZE = 0
  top_le   : p.topAddr ≤ 2 ^ 64

namespace Counters

-- The counters after taking free pages.
theorem take (h : p.Counters) (hr : p.FreeRange s l) (hn : q.npages = p.npages)
    (ht : ∀ i, s ≤ i → i < s + l → q.tag i ≠ .free)
    (hc : ∀ i < p.npages, i < s ∨ s + l ≤ i → q.tag i = p.tag i)
    (hf : q.freepages = p.freepages - l) (hs : q.searchStart = p.searchStart)
    (hl : q.largestFree = p.largestFree) : q.Counters := by
  have hfree : ∀ i < p.npages, q.tag i = .free → p.tag i = .free := by
    intro i hi hq
    by_cases hin : s ≤ i ∧ i < s + l
    case pos => exact absurd hq (ht i hin.1 hin.2)
    case neg => exact hc i hi (by omega) ▸ hq
  constructor
  case freepages =>
    have hcount := freeCount_take hr.le hr.free ht hc
    have := h.freepages
    rw [hn]
    omega
  case searchStart => exact fun i hi hq => hs ▸ h.searchStart i (hn ▸ hi) (hfree i (hn ▸ hi) hq)
  case largestFree =>
    intro s' l' hr'
    have hle := hr'.le
    exact hl ▸ h.largestFree s' l' ⟨hn ▸ hle, fun i hi hi' => hfree i (by omega) (hr'.free i hi hi')⟩
  case largestFree_le => exact hl ▸ hn ▸ h.largestFree_le

-- The counters after freeing pages.
theorem release (h : p.Counters) (hle : s + l ≤ p.npages) (hn : q.npages = p.npages)
    (hp : ∀ i, s ≤ i → i < s + l → p.tag i ≠ .free) (ht : ∀ i, s ≤ i → i < s + l → q.tag i = .free)
    (hc : ∀ i < p.npages, i < s ∨ s + l ≤ i → q.tag i = p.tag i)
    (hf : q.freepages = p.freepages + l) (hs : q.searchStart = min p.searchStart s)
    (hl : q.largestFree = p.freepages + l) : q.Counters := by
  have hcount := freeCount_take hle ht hp fun i hi hi' => (hc i hi hi').symm
  have hpages : q.freepages = freeCount q.tag q.npages := by
    have := h.freepages
    rw [hn]
    omega
  constructor
  case freepages => exact hpages
  case searchStart =>
    intro i hi hq
    by_cases hin : s ≤ i ∧ i < s + l
    case pos => omega
    case neg =>
      have := h.searchStart i (hn ▸ hi) (hc i (hn ▸ hi) (by omega) ▸ hq)
      omega
  case largestFree =>
    intro s' l' hr
    have := le_freeCount hr.le hr.free
    omega
  case largestFree_le =>
    have : freeCount q.tag q.npages ≤ q.npages := Nat.count_le _
    omega

theorem congr (h : p.Counters) (hn : q.npages = p.npages) (ht : ∀ i < p.npages, q.tag i = p.tag i)
    (hf : q.freepages = p.freepages) (hs : q.searchStart = p.searchStart)
    (hl : q.largestFree = p.largestFree) : q.Counters :=
  h.take (s := 0) (l := 0) ⟨Nat.zero_le _, fun _ _ _ => by omega⟩ hn (fun _ _ _ => by omega)
    (fun i hi _ => ht i hi) (by omega) hs hl

end Counters

namespace Wf

theorem congr (h : p.Wf) (hp : q.pagetable = p.pagetable) (ho : q.bPageOffsets = p.bPageOffsets)
    (hb : q.baseAddr = p.baseAddr) (hn : q.npages = p.npages) (hc : q.Counters) : q.Wf where
  tables   := h.tables.of_eq hp ho hn
  counters := hc
  aligned  := hb ▸ h.aligned
  top_le   := by
    rw [topAddr, hb, hn]
    exact h.top_le
  tiles    := by
    have ht : q.tag = p.tag := by
      funext i
      rw [tag, tag, hp]
    have ho : q.off = p.off := by
      funext i
      rw [off, off, ho]
    rw [ht, ho, hn]
    exact h.tiles

-- The assertions of the source hold in a pool that is well formed.
theorem invariantLoop (h : p.Tables) {fuel : Nat} (ht : Tiles p.tag p.off n p.npages)
    (hf : p.npages - n < fuel) : p.invariantLoop fuel n = .ok () := by
  obtain ⟨m, hm⟩ : ∃ m, m = p.npages := ⟨_, rfl⟩
  rw [← hm] at ht
  induction ht generalizing fuel with
  | done =>
    cases fuel with
    | zero => omega
    | succ fuel =>
      rw [LargeObjectPool.invariantLoop, if_neg (by omega)]
      rfl
  | @block s l _ block rest hi =>
    have hle := rest.le
    have hp := block.pos
    cases fuel with
    | zero => omega
    | succ fuel =>
      rw [LargeObjectPool.invariantLoop, if_pos (by omega), h.pageOffset (by omega),
        h.bin (by omega), block.head, block.size]
      have hc : ¬¬(l > 0 ∧ l ≤ p.npages - s) := by omega
      simp only [bind, Except.bind, if_neg hc, Bins.ofTag]
      rw [Except.forM_ok fun i hi' => ?_]
      · exact hi (by omega) hm
      · obtain ⟨hi₁, hi₂⟩ := List.mem_range'_1.mp hi'
        obtain ⟨ht, ho⟩ := block.body i (by omega) (by omega)
        simp [h.bin (i := s + i) (by omega), h.pageOffset (i := s + i) (by omega), ht, ho, pure,
          Except.pure]
  | @free s l _ run _ rest hi =>
    have hle := rest.le
    have hp := run.pos
    have hs : p.tag s = .free := run.free 0 hp
    cases fuel with
    | zero => omega
    | succ fuel =>
      rw [LargeObjectPool.invariantLoop, if_pos (by omega), h.pageOffset (by omega),
        h.bin (by omega), hs, run.first]
      have hc : ¬¬(l > 0 ∧ l ≤ p.npages - s) := by omega
      simp only [bind, Except.bind, if_neg hc, Bins.ofTag]
      rw [Except.forM_ok fun i hi' => ?_]
      · simp [h.pageOffset (i := s + l - 1) (by omega), run.last]
        exact hi (by omega) hm
      · obtain ⟨hi₁, hi₂⟩ := List.mem_range'_1.mp hi'
        simp [h.bin (i := s + i) (by omega), run.free i (by omega), pure, Except.pure]

theorem Invariant (h : p.Wf) : p.Invariant = .ok () :=
  invariantLoop h.tables h.tiles (by omega)

end Wf

section Fresh

variable {baseAddr npages : Nat} {memory : List UInt32}

theorem fresh_tag (i : Nat) : (fresh baseAddr npages memory).tag i = .free := by
  by_cases hi : i < npages <;> simp [tag, fresh, hi, Bins.tag]

theorem fresh_off (hm : memory.length = npages) (hn : npages < 2 ^ 32) (hp : 0 < npages) (i : Nat)
    (hi : i = 0 ∨ i = npages - 1) : (fresh baseAddr npages memory).off i = npages := by
  have hu : npages.toUInt32.toNat = npages := by simp; omega
  simp only [off, fresh, List.getD_eq_getElem?_getD, List.getElem?_set, List.length_set, hm]
  cases hi with
  | inl h => by_cases hl : npages - 1 = 0 <;> simp [h, hl, hp, hu]
  | inr h => simp [h, hu, show npages - 1 < npages by omega]

-- A new pool is one free run.
theorem fresh_wf (hm : memory.length = npages)
    (hn : npages < 2 ^ 32) (ha : baseAddr % PAGESIZE = 0)
    (ht : baseAddr + npages * PAGESIZE ≤ 2 ^ 64) : (fresh baseAddr npages memory).Wf := by
  have hcount : npages ≤ freeCount (fresh baseAddr npages memory).tag npages :=
    le_freeCount (s := 0) (by omega) fun i _ _ => fresh_tag i
  have hcount' : freeCount (fresh baseAddr npages memory).tag npages ≤ npages := Nat.count_le _
  constructor
  case aligned => exact ha
  case top_le => exact ht
  case tables =>
    constructor
    case pagetable => simp [fresh]
    case bPageOffsets => simp [fresh, hm]
    case npages_lt => exact hn
    case large =>
      intro b hb
      obtain rfl := (List.mem_replicate.mp hb).2
      rfl
  case tiles =>
    refine cons_gap (Nat.zero_le _) (fun i _ _ => fresh_tag i) (fun hp => ?_)
      (fun _ hlt => absurd hlt (Nat.lt_irrefl _)) (.done _)
    exact ⟨fresh_off hm hn hp 0 (.inl rfl), fresh_off hm hn hp _ (.inr rfl)⟩
  case counters =>
    constructor
    case freepages => exact Nat.le_antisymm hcount hcount'
    case searchStart => exact fun i _ _ => Nat.zero_le i
    case largestFree_le => exact Nat.le_refl _
    case largestFree =>
      intro s l hr
      have hle := hr.le
      simp only [fresh] at hle ⊢
      omega

end Fresh

end Runtime.GC.LargeObjectPool

open BoundaryTags

namespace Runtime.GC.LargeObjectPool

variable {p q : LargeObjectPool} {i l n ptr s : Nat}

theorem pagenumOf_lt (h : p.contains ptr) : p.pagenumOf ptr < p.npages := by
  obtain ⟨hle, hlt⟩ := of_decide_eq_true h
  rw [topAddr] at hlt
  rw [pagenumOf, Nat.div_lt_iff_lt_mul (by decide)]
  omega

-- A block that begins at `ptr` begins at the page of `ptr`.
theorem IsBlock.start (hb : p.IsBlock s l) (he : ptr = p.baseAddr + s * PAGESIZE) :
    p.pagenumOf ptr = s ∧ p.tag (p.pagenumOf ptr) = .head ∧ (ptr - p.baseAddr) % PAGESIZE = 0 := by
  have hs : p.pagenumOf ptr = s := by
    rw [pagenumOf, he, Nat.add_sub_cancel_left, Nat.mul_div_cancel _ (by decide)]
  rw [hs, he, Nat.add_sub_cancel_left, Nat.mul_mod_left]
  exact ⟨rfl, hb.block.head, rfl⟩

theorem eq_of_offset (hle : p.baseAddr ≤ ptr) (hoff : (ptr - p.baseAddr) % PAGESIZE = 0) :
    ptr = p.baseAddr + p.pagenumOf ptr * PAGESIZE := by
  rw [pagenumOf, Nat.div_mul_cancel (Nat.dvd_of_mod_eq_zero hoff)]
  omega

theorem getBits_clrBits_ne {mask : UInt32} (h : i ≠ s) : (p.clrBits s mask).getBits i = p.getBits i := by
  simp [getBits, clrBits, List.getD_eq_getElem?_getD, Ne.symm h]

-- The first page of a block, and the pages around it.
theorem Wf.isBlock (h : p.Wf) (hs : s < p.npages) (ht : p.tag s = .head) :
    p.IsBlock s (p.off s) ∧ Tiles p.tag p.off 0 s ∧ Tiles p.tag p.off (s + p.off s) p.npages := by
  obtain ⟨block, hl, hr⟩ := h.tiles.of_head (Nat.zero_le s) hs ht
  exact ⟨⟨hr.le, block⟩, hl, hr⟩

theorem Wf.tiles_of_isBlock (h : p.Wf) (hb : p.IsBlock s l) :
    Tiles p.tag p.off 0 s ∧ Tiles p.tag p.off (s + l) p.npages := by
  have hle := hb.le
  have hpos := hb.block.pos
  obtain ⟨_, hl, hr⟩ := h.isBlock (by omega) hb.block.head
  exact ⟨hl, hb.block.size ▸ hr⟩

-- The result of freeing the block of `l` pages at `s`.
structure Freed (p q : LargeObjectPool) (s l : Nat) : Prop where
  wf    : q.Wf
  free  : q.FreeRange s l
  keeps : Keeps p q s (s + l)

theorem freed (h : p.Wf) (hb : p.IsBlock s l) :
    ∃ p₁ p₂, p.freePages s l = .ok p₁ ∧ p₁.mergeFreePageOffsets true true s l = .ok p₂ ∧
      Freed p p₂ s l := by
  have hle := hb.le
  have hpos := hb.block.pos
  obtain ⟨hl, hr⟩ := h.tiles_of_isBlock hb
  have hlen := h.tables.pagetable
  have hlen' := h.tables.bPageOffsets
  have hlt := h.tables.npages_lt
  have hfree := h.tables.freePages hle fun i hi hi' => hb.block.ne_free hi hi'
  obtain ⟨p₁, hp₁⟩ : ∃ p₁, p₁ = (p.fillBins s l .free).withCounters (p.freepages + l)
    (min p.searchStart s) (p.freepages + l) := ⟨_, rfl⟩
  rw [← hp₁] at hfree
  have ht₁ : p₁.Tables := hp₁ ▸ h.tables.fillBins.withCounters
  have htag : ∀ i, p₁.tag i = if s ≤ i ∧ i < s + l then .free else p.tag i := by
    rw [hp₁, tag_withCounters]
    exact tag_fillBins (by omega)
  have hoff : p₁.off = p.off := by
    rw [hp₁]
    rfl
  have hnp : p₁.npages = p.npages := by
    rw [hp₁]
    rfl
  have hl₁ : Tiles p₁.tag p₁.off 0 s :=
    hl.congr fun i _ hi => ⟨by rw [htag, if_neg (by omega)], by rw [hoff]⟩
  have hr₁ : Tiles p₁.tag p₁.off (s + l) p₁.npages := by
    rw [hnp]
    exact hr.congr fun i hi _ => ⟨by rw [htag, if_neg (by omega)], by rw [hoff]⟩
  have hf₁ : ∀ i, s ≤ i → i < s + l → p₁.tag i = .free :=
    fun i hi hi' => by rw [htag, if_pos ⟨hi, hi'⟩]
  obtain ⟨s', hs'⟩ : ∃ s', s' = mergeLeft p₁.tag p₁.off 0 s := ⟨_, rfl⟩
  obtain ⟨e', he'⟩ : ∃ e', e' = mergeRight p₁.tag p₁.off (s + l) p₁.npages := ⟨_, rfl⟩
  have hmerge := ht₁.mergeFreePageOffsets true hpos (fun _ => hl₁) hr₁ hf₁ hs' he'
  obtain ⟨_, hss, _, _, _⟩ := hl₁.mergeLeft
  obtain ⟨hee, hen, _, _, _⟩ := hr₁.mergeRight
  rw [← hs'] at hss
  rw [← he'] at hee hen
  have hlen₁ : p₁.bPageOffsets.length = p.npages := ht₁.bPageOffsets.trans hnp
  have hoff₂ := @off_markRun p₁ s' (e' - s') (by omega) (by omega) (by omega)
  rw [show s' + (e' - s') - 1 = e' - 1 by omega] at hoff₂
  obtain ⟨htiles, hrun, _⟩ : Tiles (p₁.markRun s' (e' - s')).tag (p₁.markRun s' (e' - s')).off 0
      p₁.npages ∧ FreeRun p₁.tag (p₁.markRun s' (e' - s')).off s' (e' - s') ∧ _ :=
    hl₁.release hr₁ (by omega) hs' he'
      (fun i _ _ => by
        split
        case isTrue hi => exact hf₁ i hi.1 hi.2
        case isFalse => rfl)
      (fun i _ _ _ hi hi' => by rw [hoff₂, if_neg (by omega)])
      (by rw [hoff₂, if_pos (.inl rfl)]) (by rw [hoff₂, if_pos (.inr rfl)])
  have hcounters : p₁.Counters := by
    refine h.counters.release hle hnp (fun i hi hi' => hb.block.ne_free hi hi') hf₁
      (fun i _ hi => by rw [htag, if_neg (by omega)]) ?_ ?_ ?_ <;> rw [hp₁] <;> rfl
  have hbase : p₁.baseAddr = p.baseAddr := by
    rw [hp₁]
    rfl
  refine ⟨p₁, p₁.markRun s' (e' - s'), hfree, hmerge, ?_, ?_, ?_⟩
  · exact ⟨ht₁.markRun, htiles, hcounters.congr rfl (fun _ _ => rfl) rfl rfl rfl, hbase ▸ h.aligned,
      by rw [topAddr]; simp only [markRun_baseAddr, markRun_npages, hbase, hnp]; exact h.top_le⟩
  · exact ⟨by simp only [markRun_npages, hnp]; exact hle, hf₁⟩
  · constructor
    case baseAddr => exact hbase
    case npages => exact hnp
    case tag => exact fun i _ hi => by rw [tag_markRun, htag, if_neg (by omega)]
    case attrs =>
      intro i _ _
      rw [hp₁]
      rfl
    case off =>
      intro i hi hi' hne
      have hout : ¬(s' ≤ i ∧ i < e') := by
        intro hc
        have hf := hrun.tag_eq hc.1 (by omega)
        rw [htag, if_neg (by omega)] at hf
        exact hne hf
      rw [hoff₂, if_neg (by omega), hoff]

-- What `freeNoSync` does: it frees the block that begins at `ptr`, if there is one.
inductive FreeSpec (p : LargeObjectPool) (ptr : Nat) : Bool × LargeObjectPool → Prop
  | freed {s l : Nat} {q : LargeObjectPool} (block : p.IsBlock s l)
    (start : ptr = p.baseAddr + s * PAGESIZE) (freed : Freed p q s l) : FreeSpec p ptr (true, q)
  | other (other : ∀ s l, p.IsBlock s l → ptr ≠ p.baseAddr + s * PAGESIZE) : FreeSpec p ptr (false, p)

theorem freeNoSync_spec (h : p.Wf) (hc : p.contains ptr) :
    ∃ r, p.freeNoSync ptr = .ok r ∧ FreeSpec p ptr r := by
  have hlt := pagenumOf_lt hc
  have hle := (of_decide_eq_true hc).1
  rw [freeNoSync, h.tables.bin hlt]
  cases ht : p.tag (p.pagenumOf ptr) with
  | head =>
    obtain ⟨hb, _⟩ := h.isBlock hlt ht
    simp only [Bins.ofTag, bind, Except.bind]
    by_cases hoff : (ptr - p.baseAddr) % PAGESIZE = 0
    case pos =>
      obtain ⟨p₁, p₂, hfree, hmerge, hfreed⟩ := freed h hb
      rw [if_neg (by simp [hoff]), h.tables.pageOffset hlt]
      simp only [hfree, hmerge]
      refine ⟨_, rfl, .freed hb (eq_of_offset hle hoff) ⟨?_, ⟨hfreed.free.le, hfreed.free.free⟩, ?_⟩⟩
      · exact hfreed.wf.congr rfl rfl rfl rfl
          (hfreed.wf.counters.congr rfl (fun _ _ => rfl) rfl rfl rfl)
      · have hk := hfreed.keeps
        refine ⟨hk.baseAddr, hk.npages, hk.tag, hk.off, fun i hi hi' => ?_⟩
        rw [getBits_clrBits_ne (by have := hb.block.pos; omega)]
        exact hk.attrs i hi hi'
    case neg =>
      have hmod := Nat.mod_le (ptr - p.baseAddr) PAGESIZE
      rw [if_pos (by omega)]
      exact ⟨_, rfl, .other fun s l hb he => hoff (hb.start he).2.2⟩
  | body =>
    refine ⟨_, rfl, .other fun s l hb he => ?_⟩
    rw [(hb.start he).2.1] at ht
    cases ht
  | free =>
    refine ⟨_, rfl, .other fun s l hb he => ?_⟩
    rw [(hb.start he).2.1] at ht
    cases ht

end Runtime.GC.LargeObjectPool
