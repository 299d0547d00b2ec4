import DmdModel.Runtime.GC.Theorems.LargeObjectPool

open BoundaryTags BoundaryTags.Tiles

namespace Runtime.GC.LargeObjectPool

variable {p q : LargeObjectPool} {mark : Nat → Bool} {freed fuel i l numFree pn s : Nat}

-- The loop of `sweep` at the page `pn`. The pages before it are tiled up to the `numFree` free pages
-- right before it.
structure SweepState (p : LargeObjectPool) (pn numFree : Nat) : Prop where
  tables   : p.Tables
  counters : p.Counters
  aligned  : p.baseAddr % PAGESIZE = 0
  top_le   : p.topAddr ≤ 2 ^ 64
  le       : numFree ≤ pn
  before   : Tiles p.tag p.off 0 (pn - numFree)
  left     : 0 < pn - numFree → p.tag (pn - numFree - 1) ≠ .free
  free     : ∀ i, pn - numFree ≤ i → i < pn → p.tag i = .free
  rest     : Tiles p.tag p.off pn p.npages

-- What a sweep with the marks leaves of the pages from `pn` on: the marked blocks, and free pages.
structure Swept (mark : Nat → Bool) (p q : LargeObjectPool) (pn freed : Nat) : Prop where
  wf       : q.Wf
  baseAddr : q.baseAddr = p.baseAddr
  npages   : q.npages = p.npages
  marked   : ∀ s l, s + l ≤ pn ∨ mark s → p.IsBlock s l → q.IsBlock s l ∧ q.getBits s = p.getBits s
  unmarked : ∀ s l, pn ≤ s → mark s = false → p.IsBlock s l → q.FreeRange s l
  free     : ∀ i < p.npages, p.tag i = .free → q.tag i = .free
  counted  : q.freepages = p.freepages + freed

namespace SweepState

theorem skipFree (h : SweepState p pn numFree) (run : FreeRun p.tag p.off pn l)
    (rest : Tiles p.tag p.off (pn + l) p.npages) : SweepState p (pn + l) (numFree + l) := by
  have hle := h.le
  have hn : pn + l - (numFree + l) = pn - numFree := by omega
  constructor
  case tables => exact h.tables
  case counters => exact h.counters
  case aligned => exact h.aligned
  case top_le => exact h.top_le
  case le => omega
  case before => exact hn ▸ h.before
  case left => exact hn ▸ h.left
  case rest => exact rest
  case free =>
    intro i hi hi'
    by_cases hlt : i < pn
    case pos => exact h.free i (by omega) hlt
    case neg => exact run.tag_eq (by omega) hi'

theorem top_of_keeps {lo hi : Nat} (h : SweepState p pn numFree) (hk : Keeps p q lo hi) :
    q.baseAddr % PAGESIZE = 0 ∧ q.topAddr ≤ 2 ^ 64 := by
  rw [topAddr, hk.baseAddr, hk.npages]
  exact ⟨h.aligned, h.top_le⟩

-- The free pages before `pn` are marked as a run.
theorem markFree (h : SweepState p pn numFree) :
    ∃ q, p.markFree pn numFree = .ok q ∧ q.Tables ∧ q.Counters ∧ Tiles q.tag q.off 0 pn ∧
      Tiles q.tag q.off pn q.npages ∧ Keeps p q 0 0 ∧ q.freepages = p.freepages := by
  have hle := h.le
  have hle' := h.rest.le
  have hlen := h.tables.bPageOffsets
  have hlt := h.tables.npages_lt
  rw [LargeObjectPool.markFree]
  by_cases h0 : numFree > 0
  case neg =>
    have h0 : numFree = 0 := by omega
    subst h0
    exact ⟨p, rfl, h.tables, h.counters, h.before, h.rest,
      ⟨rfl, rfl, fun _ _ _ => rfl, fun _ _ _ _ => rfl, fun _ _ _ => rfl⟩, rfl⟩
  case pos =>
    have hoff := @off_markRun p (pn - numFree) numFree h0 (by omega) (by omega)
    rw [show pn - numFree + numFree - 1 = pn - 1 by omega] at hoff
    rw [if_pos h0, h.tables.setFreePageOffsets h0 (by omega) (h.free _ (by omega) (by omega))
      (h.free _ (by omega) (by omega))]
    have hgap : Tiles (p.markRun (pn - numFree) numFree).tag (p.markRun (pn - numFree) numFree).off
        (pn - numFree) pn := by
      refine cons_gap (by omega) h.free (fun _ => ?_) (fun _ hlt => absurd hlt (Nat.lt_irrefl _))
        (.done _)
      rw [hoff, hoff, if_pos (.inl rfl), if_pos (.inr rfl)]
      omega
    refine ⟨_, rfl, h.tables.markRun, h.counters.congr rfl (fun _ _ => rfl) rfl rfl rfl, ?_, ?_,
      ⟨rfl, rfl, fun _ _ _ => rfl, fun i hi _ hne => ?_, fun _ _ _ => rfl⟩, rfl⟩
    · refine (h.before.congr fun i _ hi => ⟨rfl, ?_⟩).append hgap fun hlt _ hf => ?_
      · rw [hoff, if_neg (by omega)]
      · exact absurd hf (h.left hlt)
    · refine h.rest.congr fun i hi _ => ⟨rfl, ?_⟩
      rw [hoff, if_neg (by omega)]
    · have hout : ¬(pn - numFree ≤ i ∧ i < pn) := fun hc => hne (h.free i hc.1 hc.2)
      rw [hoff, if_neg (by omega)]

theorem keepBlock (h : SweepState p pn numFree) (block : Block p.tag p.off pn l)
    (hle : pn + l ≤ p.npages) :
    ∃ q, p.markFree pn numFree = .ok q ∧ SweepState q (pn + l) 0 ∧ Keeps p q 0 0 ∧
      q.freepages = p.freepages := by
  have hpos := block.pos
  obtain ⟨q, hq, htables, hcounters, hbefore, hrest, hk, hf⟩ := h.markFree
  obtain ⟨haligned, htop⟩ := h.top_of_keeps hk
  have hb : q.IsBlock pn l := hk.isBlock ⟨hle, block⟩ fun i _ _ => .inr (Nat.zero_le i)
  obtain ⟨_, _, hrest'⟩ := hrest.of_head (Nat.le_refl pn) (by have := hb.le; omega) hb.block.head
  rw [hb.block.size] at hrest'
  refine ⟨q, hq, ?_, hk, hf⟩
  constructor
  case tables => exact htables
  case counters => exact hcounters
  case aligned => exact haligned
  case top_le => exact htop
  case le => omega
  case before =>
    exact hbefore.append (.block hb.block (.done _)) fun _ _ _ => by simp [hb.block.head]
  case left => exact fun _ => hb.block.ne_free (by omega) (by omega)
  case rest => exact hrest'
  case free => exact fun i hi hi' => by omega

theorem finish (h : SweepState p p.npages numFree) :
    ∃ q, p.markFree p.npages numFree = .ok q ∧ q.Wf ∧ Keeps p q 0 0 ∧ q.freepages = p.freepages := by
  obtain ⟨q, hq, htables, hcounters, hbefore, _, hk, hf⟩ := h.markFree
  obtain ⟨haligned, htop⟩ := h.top_of_keeps hk
  exact ⟨q, hq, ⟨htables, hk.npages ▸ hbefore, hcounters, haligned, htop⟩, hk, hf⟩

theorem sweepBlock (h : SweepState p pn numFree) (block : Block p.tag p.off pn l)
    (rest : Tiles p.tag p.off (pn + l) p.npages) :
    ∃ q, p.sweepBlock pn l = .ok q ∧ SweepState q (pn + l) (numFree + l) ∧ Keeps p q pn (pn + l) ∧
      q.FreeRange pn l ∧ q.freepages = p.freepages + l := by
  have hle := h.le
  have hle' := rest.le
  have hpos := block.pos
  have hlen := h.tables.pagetable
  obtain ⟨q, hq⟩ : ∃ q, q = ((p.clrBits pn (~~~BlkAttr.NONE)).fillBins pn l .free).withCounters
    (p.freepages + l) (min p.searchStart pn) (p.freepages + l) := ⟨_, rfl⟩
  have htables : (p.clrBits pn (~~~BlkAttr.NONE)).Tables := h.tables.of_eq rfl rfl rfl
  have heq : p.sweepBlock pn l = .ok q := by
    rw [LargeObjectPool.sweepBlock, show Bins.B_FREE = .ofTag .free from rfl,
      htables.memset (by rw [clrBits]; omega), hq]
    by_cases hlt : pn < p.searchStart
    case pos => simp [bind, Except.bind, clrBits, hlt, Nat.min_eq_right (Nat.le_of_lt hlt)]; rfl
    case neg => simp [bind, Except.bind, clrBits, hlt, Nat.min_eq_left (Nat.le_of_not_lt hlt)]; rfl
  have htag : ∀ i, q.tag i = if pn ≤ i ∧ i < pn + l then .free else p.tag i := by
    rw [hq, tag_withCounters]
    exact tag_fillBins (p := p.clrBits pn (~~~BlkAttr.NONE)) (by simp only [clrBits]; omega)
  have hkeeps : Keeps p q pn (pn + l) := by
    constructor
    case tag => exact fun i _ hi => by rw [htag, if_neg (by omega)]
    case attrs =>
      intro i _ hi
      rw [hq]
      exact getBits_clrBits_ne (by omega)
    all_goals
      rw [hq]
      intros
      rfl
  have hfree : ∀ i, pn ≤ i → i < pn + l → q.tag i = .free :=
    fun i hi hi' => by rw [htag, if_pos ⟨hi, hi'⟩]
  have hn := hkeeps.npages
  have hoff : q.off = p.off := by
    rw [hq]
    rfl
  obtain ⟨haligned, htop⟩ := h.top_of_keeps hkeeps
  refine ⟨q, heq, ?_, hkeeps, ⟨by omega, hfree⟩, by rw [hq]; rfl⟩
  constructor
  case tables => exact hq ▸ htables.fillBins.withCounters
  case aligned => exact haligned
  case top_le => exact htop
  case le => omega
  case counters =>
    refine h.counters.release hle' hn (fun i hi hi' => block.ne_free hi hi') hfree hkeeps.tag ?_ ?_ ?_
      <;> rw [hq] <;> rfl
  case before =>
    rw [show pn + l - (numFree + l) = pn - numFree by omega]
    exact h.before.congr fun i _ hi => ⟨by rw [htag, if_neg (by omega)], by rw [hoff]⟩
  case left =>
    rw [show pn + l - (numFree + l) = pn - numFree by omega]
    intro h0
    rw [htag, if_neg (by omega)]
    exact h.left h0
  case rest =>
    rw [hn]
    exact rest.congr fun i hi _ => ⟨by rw [htag, if_neg (by omega)], by rw [hoff]⟩
  case free =>
    intro i hi hi'
    by_cases hlt : i < pn
    case pos =>
      rw [htag, if_neg (by omega)]
      exact h.free i (by omega) hlt
    case neg => exact hfree i (by omega) hi'

end SweepState

namespace Swept

-- Steps that keep every block, or free the block at hand, before the rest of the sweep.
theorem of_keeps (hk : Keeps p q 0 0) (hf : q.freepages = p.freepages) {r : LargeObjectPool}
    (h : Swept mark q r pn freed) : Swept mark p r pn freed := by
  constructor
  case wf => exact h.wf
  case baseAddr => exact h.baseAddr.trans hk.baseAddr
  case npages => exact h.npages.trans hk.npages
  case counted => exact hf ▸ h.counted
  case free =>
    intro i hi ht
    exact h.free i (hk.npages ▸ hi) ((hk.tag i hi (.inr (Nat.zero_le i))).trans ht)
  case unmarked =>
    exact fun s l hs hm hb => h.unmarked s l hs hm (hk.isBlock hb fun i _ _ => .inr (Nat.zero_le i))
  case marked =>
    intro s l hs hb
    have hle := hb.le
    have hpos := hb.block.pos
    obtain ⟨hb', ha⟩ := h.marked s l hs (hk.isBlock hb fun i _ _ => .inr (Nat.zero_le i))
    exact ⟨hb', ha.trans (hk.attrs s (by omega) (.inr (Nat.zero_le s)))⟩

-- The blocks from the page `pn` on are the one at `pn` and the blocks behind it.
theorem of_block (hb : p.IsBlock pn l) (hm : mark pn) (h : Swept mark p q (pn + l) freed) :
    Swept mark p q pn freed := by
  constructor
  case wf => exact h.wf
  case baseAddr => exact h.baseAddr
  case npages => exact h.npages
  case counted => exact h.counted
  case free => exact h.free
  case marked => exact fun s l' hs hb' => h.marked s l' (hs.imp_left fun hs => by omega) hb'
  case unmarked =>
    intro s l' hs hm' hb'
    refine h.unmarked s l' ?_ hm' hb'
    by_contra hlt
    have hpos := hb'.block.pos
    obtain ⟨rfl, _⟩ := hb.eq_of_mem hb' hs (by omega) (Nat.le_refl s) (by omega)
    rw [hm] at hm'
    cases hm'

theorem of_free (hr : p.FreeRange pn l) (h : Swept mark p q (pn + l) freed) :
    Swept mark p q pn freed := by
  constructor
  case wf => exact h.wf
  case baseAddr => exact h.baseAddr
  case npages => exact h.npages
  case counted => exact h.counted
  case free => exact h.free
  case marked => exact fun s l' hs hb => h.marked s l' (hs.imp_left fun hs => by omega) hb
  case unmarked =>
    intro s l' hs hm hb
    refine h.unmarked s l' ?_ hm hb
    by_contra hlt
    exact hb.block.ne_free (Nat.le_refl s) (by have := hb.block.pos; omega)
      (hr.free s hs (by omega))

theorem of_freed (hb : p.IsBlock pn l) (hm : mark pn = false) (hk : Keeps p q pn (pn + l))
    (hr : q.FreeRange pn l) (hf : q.freepages = p.freepages + l) {r : LargeObjectPool}
    (h : Swept mark q r (pn + l) freed) : Swept mark p r pn (l + freed) := by
  have hle := hr.le
  have hn := hk.npages
  have hfree : r.FreeRange pn l :=
    ⟨h.npages ▸ hle, fun i hi hi' => h.free i (by omega) (hr.free i hi hi')⟩
  -- another block has no page in common with the block that is freed
  have hother : ∀ s l', p.IsBlock s l' → s ≠ pn → s + l' ≤ pn ∨ pn + l ≤ s := by
    intro s l' hb' hne
    have hpos := hb.block.pos
    have hpos' := hb'.block.pos
    by_contra hc
    exact hne (hb'.eq_of_mem hb (i := max s pn) (by omega) (by omega) (by omega) (by omega)).1
  constructor
  case wf => exact h.wf
  case baseAddr => exact h.baseAddr.trans hk.baseAddr
  case npages => exact h.npages.trans hk.npages
  case counted =>
    have := h.counted
    omega
  case free =>
    intro i hi ht
    by_cases hin : pn ≤ i ∧ i < pn + l
    case pos => exact hfree.free i hin.1 hin.2
    case neg => exact h.free i (hn ▸ hi) ((hk.tag i hi (by omega)).trans ht)
  case marked =>
    intro s l' hs hb'
    have hd : s + l' ≤ pn ∨ pn + l ≤ s := by
      cases hs with
      | inl hs => exact .inl hs
      | inr hs =>
        refine hother s l' hb' fun he => ?_
        rw [he, hm] at hs
        cases hs
    have hle' := hb'.le
    have hpos' := hb'.block.pos
    obtain ⟨hb'', ha⟩ := h.marked s l' (hs.imp_left fun hs => by omega) (hk.isBlock hb' fun i _ _ => by omega)
    exact ⟨hb'', ha.trans (hk.attrs s (by omega) (by omega))⟩
  case unmarked =>
    intro s l' hs hm' hb'
    by_cases he : s = pn
    case pos =>
      subst he
      exact (hb'.block.size.symm.trans hb.block.size) ▸ hfree
    case neg =>
      have hd := hother s l' hb' he
      have hpos' := hb'.block.pos
      exact h.unmarked s l' (by omega) hm' (hk.isBlock hb' fun i _ _ => by omega)

theorem of_finish (hwf : q.Wf) (hk : Keeps p q 0 0) (hf : q.freepages = p.freepages) :
    Swept mark p q p.npages 0 := by
  constructor
  case wf => exact hwf
  case baseAddr => exact hk.baseAddr
  case npages => exact hk.npages
  case counted => exact hf
  case free => exact fun i hi ht => (hk.tag i hi (.inr (Nat.zero_le i))).trans ht
  case marked =>
    intro s l _ hb
    have hle := hb.le
    have hpos := hb.block.pos
    exact ⟨hk.isBlock hb fun i _ _ => .inr (Nat.zero_le i), hk.attrs s (by omega) (.inr (Nat.zero_le s))⟩
  case unmarked =>
    intro s l hs _ hb
    have hle := hb.le
    have hpos := hb.block.pos
    omega

end Swept

open Swept in
theorem sweepLoop_spec (h : SweepState p pn numFree) (hfuel : p.npages - pn < fuel) (freed : Nat) :
    ∃ n q, p.sweepLoop mark fuel pn numFree freed = .ok (freed + n, q) ∧ Swept mark p q pn n := by
  induction fuel generalizing p pn numFree freed with
  | zero => omega
  | succ fuel hi =>
    rw [LargeObjectPool.sweepLoop]
    by_cases hlt : pn < p.npages
    case neg =>
      have he : pn = p.npages := Nat.le_antisymm h.rest.le (by omega)
      subst he
      obtain ⟨q, hq, hwf, hk, hf⟩ := h.finish
      rw [if_neg hlt, hq]
      exact ⟨0, q, rfl, of_finish hwf hk hf⟩
    case pos =>
      rw [if_pos hlt, h.tables.pageOffset hlt, h.tables.bin hlt]
      simp only [bind, Except.bind]
      cases ht : p.tag pn with
      | body => exact absurd ht (h.rest.tag_ne_body hlt)
      | free =>
        obtain ⟨run, rest⟩ : FreeRun p.tag p.off pn (p.off pn) ∧
            Tiles p.tag p.off (pn + p.off pn) p.npages := by
          cases h.rest with
          | done => omega
          | block block => simp [block.head] at ht
          | free run _ rest => exact ⟨run.first.symm ▸ run, run.first.symm ▸ rest⟩
        have hle := rest.le
        have hpos := run.pos
        obtain ⟨n, q, hq, hs⟩ := hi (h.skipFree run rest) (by omega) freed
        exact ⟨n, q, hq, of_free ⟨hle, fun i hi hi' => run.tag_eq hi hi'⟩ hs⟩
      | head =>
        obtain ⟨block, _, rest⟩ := h.rest.of_head (Nat.le_refl pn) hlt ht
        have hle := rest.le
        have hpos := block.pos
        cases hm : mark pn with
        | false =>
          obtain ⟨p', hp', hs', hk, hr, hf⟩ := h.sweepBlock block rest
          obtain ⟨n, q, hq, hs⟩ := hi hs' (by rw [hk.npages]; omega) (freed + p.off pn)
          refine ⟨p.off pn + n, q, ?_, of_freed ⟨hle, block⟩ hm hk hr hf hs⟩
          simp only [Bins.ofTag, hp']
          rw [← Nat.add_assoc]
          exact hq
        | true =>
          obtain ⟨p', hp', hs', hk, hf⟩ := h.keepBlock block hle
          obtain ⟨n, q, hq, hs⟩ := hi hs' (by rw [hk.npages]; omega) freed
          refine ⟨n, q, ?_, of_block ⟨hle, block⟩ hm (of_keeps hk hf hs)⟩
          simp only [Bins.ofTag, hp']
          exact hq

theorem sweep_spec (h : p.Wf) (mark : Nat → Bool) :
    ∃ n q, p.sweep mark = .ok (n, q) ∧ Swept mark p q 0 n := by
  have hs : SweepState p 0 0 := by
    constructor
    case tables => exact h.tables
    case counters => exact h.counters
    case aligned => exact h.aligned
    case top_le => exact h.top_le
    case le => exact Nat.le_refl 0
    case before => exact .done 0
    case left => exact fun h0 => absurd h0 (Nat.lt_irrefl 0)
    case free => exact fun i _ hi => absurd hi (Nat.not_lt_zero i)
    case rest => exact h.tiles
  obtain ⟨n, q, hq, hs⟩ := sweepLoop_spec hs (show p.npages - 0 < p.npages + 1 by omega) 0
  exact ⟨n, q, by rw [LargeObjectPool.sweep, hq, Nat.zero_add], hs⟩

end Runtime.GC.LargeObjectPool
