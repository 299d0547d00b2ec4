import DmdModel.Runtime.GC.Theorems.LargeObjectPool

open BoundaryTags BoundaryTags.Tiles ListFill

namespace Runtime.GC.LargeObjectPool

variable {p q : LargeObjectPool} {fuel i j l len n pageAlign s : Nat}

-- A place for `n` pages with the alignment.
structure Place (p : LargeObjectPool) (n pageAlign i : Nat) : Prop where
  range   : p.FreeRange i n
  aligned : pageAlign ∣ p.baseAddr / PAGESIZE + i

-- The pool after a block of `n` free pages is allocated.
structure Allocated (p q : LargeObjectPool) (i n : Nat) : Prop where
  wf    : q.Wf
  block : q.IsBlock i n
  keeps : Keeps p q i (i + n)

theorem skipPages_spec (h : p.Tables) (hl : Tiles p.tag p.off 0 i) (hr : Tiles p.tag p.off i p.npages)
    (hf : p.npages - i < fuel) :
    ∃ j, p.skipPages fuel i = .ok j ∧ i ≤ j ∧ Tiles p.tag p.off 0 j ∧
      Tiles p.tag p.off j p.npages ∧ (j < p.npages → p.tag j = .free) ∧
      ∀ k, i ≤ k → k < j → p.tag k ≠ .free := by
  obtain ⟨m, hm⟩ : ∃ m, m = p.npages := ⟨_, rfl⟩
  rw [← hm] at hr ⊢
  induction hr generalizing fuel with
  | done a =>
    cases fuel with
    | zero => omega
    | succ fuel =>
      rw [skipPages, if_neg (by omega)]
      exact ⟨a, rfl, Nat.le_refl a, hl, .done a, fun _ => by omega, fun _ _ _ => by omega⟩
  | @block s l _ block rest hi =>
    have hle := rest.le
    have hp := block.pos
    cases fuel with
    | zero => omega
    | succ fuel =>
      obtain ⟨j, hj, hlj, htj, hrj, hfj, hnj⟩ :=
        hi (hl.append (.block block (.done _)) fun _ _ _ => by simp [block.head])
          (show p.npages - (s + l) < fuel by omega) hm
      refine ⟨j, ?_, by omega, htj, hrj, hfj, fun k hk hk' => ?_⟩
      · rw [skipPages, if_pos (by omega), h.bin (by omega), h.pageOffset (by omega), block.head,
          block.size]
        exact hj
      · by_cases hks : k < s + l
        case pos => exact block.ne_free hk hks
        case neg => exact hnj k (by omega) hk'
  | @free s l _ run maximal rest hi =>
    have hle := rest.le
    have hp := run.pos
    have hs : p.tag s = .free := run.free 0 hp
    cases fuel with
    | zero => omega
    | succ fuel =>
      refine ⟨s, ?_, Nat.le_refl s, hl, .free run maximal rest, fun _ => hs, fun _ _ _ => by omega⟩
      rw [skipPages, if_pos (by omega), h.bin (by omega), hs]
      rfl

-- The tables that `foundPages` writes.
theorem foundPages_eq (h : p.Tables) (hn : 0 < n) (hn' : n ≤ 2 ^ 31) (hi : i + n ≤ p.npages) :
    p.foundPages i n = .ok (((((p.fillBins i 1 .head).fillOffsets i 1 fun _ => n).fillBins (i + 1)
      (n - 1) .body).fillOffsets (i + 1) (n - 1) (· - i)).withCounters (p.freepages - n)
      p.searchStart p.largestFree) := by
  have h₁ : (p.fillBins i 1 .head).Tables := h.fillBins
  have h₂ : ((p.fillBins i 1 .head).fillOffsets i 1 fun _ => n).Tables := h₁.fillOffsets
  rw [foundPages, show Bins.B_PAGE = .ofTag .head from rfl, h.setBin (by omega)]
  simp only [bind, Except.bind]
  rw [h₁.setPageOffset (by simp; omega)]
  simp only
  by_cases hg : n > 1
  case pos =>
    rw [if_pos hg, show Bins.B_PAGEPLUS = .ofTag .body from rfl, h₂.memset (by simp; omega)]
    simp only
    rw [h₂.fillBins.setPageOffsets (by simp; omega), Nat.min_eq_left hn']
    rfl
  case neg =>
    have he : n - 1 = 0 := by omega
    rw [if_neg hg, he]
    simp [fillBins, fillOffsets, withCounters, pure, Except.pure]

section Found

variable (h : p.Tables) (hn : 0 < n) (hn' : n ≤ 2 ^ 31) (hi : i + n ≤ p.npages)
  (he : p.foundPages i n = .ok q)
include h hn hn' hi he

theorem foundPages_tag (j : Nat) :
    q.tag j = if j = i then .head else if i < j ∧ j < i + n then .body else p.tag j := by
  rw [foundPages_eq h hn hn' hi] at he
  obtain rfl := Except.ok.inj he
  have hlen := h.pagetable
  rw [tag_withCounters, tag_fillOffsets, tag_fillBins (by simp; omega), tag_fillOffsets,
    tag_fillBins (by omega)]
  grind

theorem foundPages_off (j : Nat) :
    q.off j = if j = i then n else if i < j ∧ j < i + n then j - i else p.off j := by
  rw [foundPages_eq h hn hn' hi] at he
  obtain rfl := Except.ok.inj he
  have hlen := h.bPageOffsets
  rw [off_withCounters, off_fillOffsets (by simp; omega) (fun _ _ _ => by omega), off_fillBins,
    off_fillOffsets (by simp; omega) (fun _ _ _ => by omega), off_fillBins]
  grind

theorem foundPages_tables : q.Tables := by
  rw [foundPages_eq h hn hn' hi] at he
  obtain rfl := Except.ok.inj he
  exact h.fillBins.fillOffsets.fillBins.fillOffsets.withCounters

end Found

-- The free pages on both sides of a block that is taken out of a run become runs.
def splitRun (p : LargeObjectPool) (i len q n : Nat) : LargeObjectPool :=
  let p := if q + n < i + len then p.markRun (q + n) (i + len - (q + n)) else p
  if q > i then p.markRun i (q - i) else p

section Split

variable {q : Nat} (h : p.Tables) (hle : i + len ≤ p.npages) (hn : 0 < n) (hq : i ≤ q)
  (hqn : q + n ≤ i + len)

theorem splitRun_eq : p.splitRun i len q n =
    { p with bPageOffsets := (p.splitRun i len q n).bPageOffsets } := by
  rw [splitRun]
  split <;> split <;> rfl

theorem splitRun_tag : (p.splitRun i len q n).tag = p.tag := by
  rw [splitRun_eq]
  rfl

include h in
theorem splitRun_tables : (p.splitRun i len q n).Tables := by
  rw [splitRun]
  split <;> split
  · exact h.markRun.markRun
  · exact h.markRun
  · exact h.markRun
  · exact h

include h hle hn hq hqn

theorem splitRun_off (j : Nat) : (p.splitRun i len q n).off j =
    if i < q ∧ (j = i ∨ j = q - 1) then q - i
    else if q + n < i + len ∧ (j = q + n ∨ j = i + len - 1) then i + len - (q + n) else p.off j := by
  have hlen := h.bPageOffsets
  have hlt := h.npages_lt
  have hmark : ∀ j, (if q + n < i + len then p.markRun (q + n) (i + len - (q + n)) else p).off j =
      if q + n < i + len ∧ (j = q + n ∨ j = i + len - 1) then i + len - (q + n) else p.off j := by
    intro j
    split
    case isTrue hlt =>
      rw [off_markRun (by omega) (by omega) (by omega)]
      grind
    case isFalse hlt => simp [hlt]
  have hlen' : (if q + n < i + len then p.markRun (q + n) (i + len - (q + n)) else p).bPageOffsets.length
      = p.npages := by
    split <;> simp [hlen]
  simp only [splitRun]
  by_cases hgt : q > i
  case pos =>
    rw [if_pos hgt, off_markRun (by omega) (by omega) (by omega), hmark]
    grind
  case neg =>
    rw [if_neg hgt, hmark]
    simp [hgt]

theorem markRest_eq (hf : ∀ j, i ≤ j → j < i + len → p.tag j = .free) :
    p.markRest i len q n = .ok (p.splitRun i len q n) := by
  have hpost : q + n < i + len → p.setFreePageOffsets (q + n) (i + len - (q + n)) =
      .ok (p.markRun (q + n) (i + len - (q + n))) := fun hlt =>
    h.setFreePageOffsets (by omega) (by omega) (hf _ (by omega) (by omega))
      (hf _ (by omega) (by omega))
  have hpre : ∀ p' : LargeObjectPool, p'.Tables → p'.npages = p.npages → p'.tag = p.tag → q > i →
      p'.setFreePageOffsets i (q - i) = .ok (p'.markRun i (q - i)) := by
    intro p' ht hnp htag hgt
    exact ht.setFreePageOffsets (by omega) (by omega)
      (htag ▸ hf _ (by omega) (by omega)) (htag ▸ hf _ (by omega) (by omega))
  rw [markRest, splitRun]
  by_cases hlt : q + n < i + len
  case pos =>
    simp only [if_pos hlt, hpost hlt, bind, Except.bind]
    split
    case isTrue hgt => exact hpre _ h.markRun rfl rfl hgt
    case isFalse => rfl
  case neg =>
    simp only [if_neg hlt, bind, Except.bind, pure, Except.pure]
    split
    case isTrue hgt => exact hpre _ h rfl rfl hgt
    case isFalse => rfl

end Split

-- Taking a block out of a free run, after the pages on both sides have been marked.
theorem allocated_of_split (h : p.Wf) {q : Nat} (hl : Tiles p.tag p.off 0 i)
    (run : FreeRun p.tag p.off i len) (hr : Tiles p.tag p.off (i + len) p.npages)
    (left : 0 < i → p.tag (i - 1) ≠ .free) (right : i + len < p.npages → p.tag (i + len) ≠ .free)
    (hn : 0 < n) (hn' : n ≤ 2 ^ 31) (hq : i ≤ q) (hqn : q + n ≤ i + len) :
    ∃ p', (p.splitRun i len q n).foundPages q n = .ok p' ∧ Allocated p p' q n := by
  have hle := hr.le
  have ht : (p.splitRun i len q n).Tables := splitRun_tables h.tables
  have hnp : (p.splitRun i len q n).npages = p.npages := by rw [splitRun_eq]
  have hfound := foundPages_eq ht hn hn' (i := q) (by omega)
  obtain ⟨p', hp'⟩ : ∃ p', (p.splitRun i len q n).foundPages q n = .ok p' := ⟨_, hfound⟩
  have htag := foundPages_tag ht hn hn' (by omega) hp'
  have hoff := foundPages_off ht hn hn' (by omega) hp'
  have htables := foundPages_tables ht hn hn' (by omega) hp'
  simp only [splitRun_tag] at htag
  simp only [splitRun_off h.tables hle hn hq hqn] at hoff
  rw [hfound] at hp'
  refine ⟨p', hp' ▸ hfound, ?_⟩
  have hfields : p'.baseAddr = p.baseAddr ∧ p'.npages = p.npages ∧
      p'.freepages = p.freepages - n ∧ p'.searchStart = p.searchStart ∧
      p'.largestFree = p.largestFree ∧ p'.attrs = p.attrs := by
    obtain rfl := Except.ok.inj hp'
    rw [splitRun_eq]
    exact ⟨rfl, rfl, rfl, rfl, rfl, rfl⟩
  obtain ⟨hbase, hnpages, hfree, hsearch, hlargest, hattrs⟩ := hfields
  obtain ⟨htiles, hblock⟩ : Tiles p'.tag p'.off 0 p.npages ∧ Block p'.tag p'.off q n :=
    hl.carve run hr left right hq hn hqn (fun j _ _ => htag j)
      (fun j _ _ hj => by rw [hoff]; grind) (by rw [hoff]; grind)
      (fun k hk hk' => by rw [hoff]; grind) (fun hlt => by rw [hoff, hoff]; grind)
      (fun hlt => by rw [hoff, hoff]; grind)
  have hrange : p.FreeRange q n :=
    ⟨by omega, fun j hj hj' => run.tag_eq (by omega) (by omega)⟩
  have hkeeps : Keeps p p' q (q + n) := by
    constructor
    case baseAddr => exact hbase
    case npages => exact hnpages
    case tag => exact fun j _ hj => by rw [htag, if_neg (by omega), if_neg (by omega)]
    case attrs => exact fun j _ _ => by rw [getBits, getBits, hattrs]
    case off =>
      intro j _ hj hf
      have hout : ¬(i ≤ j ∧ j < i + len) := fun hc => hf (run.tag_eq hc.1 hc.2)
      rw [hoff]
      grind
  refine ⟨⟨htables, hnpages ▸ htiles, ?_, hbase ▸ h.aligned, ?_⟩, ⟨by omega, hblock⟩, hkeeps⟩
  · refine h.counters.take hrange hnpages (fun j hj hj' => ?_) hkeeps.tag hfree hsearch hlargest
    exact hblock.ne_free hj hj'
  · rw [topAddr, hbase, hnpages]
    exact h.top_le

-- Rounding up to a multiple of a power of two.
theorem and_two_pow_sub {k y : Nat} (hk : k ≤ 64) (hy : y < 2 ^ 64) :
    y &&& (2 ^ 64 - 2 ^ k) = 2 ^ k * (y / 2 ^ k) := by
  have hsplit : 2 ^ 64 - 2 ^ k = 2 ^ k * (2 ^ (64 - k) - 1) := by
    rw [Nat.mul_sub, ← Nat.pow_add, Nat.mul_one, Nat.add_sub_cancel' hk]
  apply Nat.eq_of_testBit_eq
  intro j
  rw [hsplit, Nat.testBit_and, Nat.testBit_two_pow_mul, Nat.testBit_two_pow_mul,
    Nat.testBit_two_pow_sub_one, Nat.testBit_div_two_pow]
  by_cases hj : k ≤ j
  case neg => simp [hj]
  case pos =>
    by_cases hj' : j < 64
    case pos => simp [hj, show j - k < 64 - k by omega, Nat.sub_add_cancel hj]
    case neg =>
      have hlt : y < 2 ^ j := Nat.lt_of_lt_of_le hy (Nat.pow_le_pow_right (by omega) (by omega))
      simp [hj, show ¬j - k < 64 - k by omega, Nat.sub_add_cancel hj, Nat.testBit_lt_two_pow hlt]

theorem Wf.basePage_le (h : p.Wf) : p.baseAddr / PAGESIZE + p.npages ≤ 2 ^ 52 := by
  have ha := h.aligned
  have ht := h.top_le
  rw [topAddr] at ht
  simp only [PAGESIZE] at ha ht ⊢
  omega

-- `alignedPage` is the first aligned page from `i` on.
theorem alignedPage_spec (h : p.Wf) {k : Nat} (hk : k < 64) (hi : i ≤ p.npages) :
    i ≤ p.alignedPage (2 ^ k) i ∧ 2 ^ k ∣ p.baseAddr / PAGESIZE + p.alignedPage (2 ^ k) i ∧
      ∀ q, i ≤ q → 2 ^ k ∣ p.baseAddr / PAGESIZE + q → p.alignedPage (2 ^ k) i ≤ q := by
  have hbase := h.basePage_le
  have hpow : 2 ^ k ≤ 2 ^ 63 := Nat.pow_le_pow_right (by omega) (by omega)
  have hpos := Nat.two_pow_pos k
  rw [alignedPage, and_two_pow_sub (by omega) (by omega)]
  obtain ⟨x, hx⟩ : ∃ x, x = p.baseAddr / PAGESIZE := ⟨_, rfl⟩
  rw [← hx] at hbase ⊢
  have hdiv := Nat.div_add_mod (x + i + 2 ^ k - 1) (2 ^ k)
  have hmod := Nat.mod_lt (x + i + 2 ^ k - 1) hpos
  have hge : x + i ≤ 2 ^ k * ((x + i + 2 ^ k - 1) / 2 ^ k) := by omega
  refine ⟨by omega, ?_, fun q hq hd => ?_⟩
  · rw [Nat.add_sub_cancel' (by omega)]
    exact Nat.dvd_mul_right ..
  · obtain ⟨m, hm⟩ := hd
    have hlt : (x + i + 2 ^ k - 1) / 2 ^ k < m + 1 := by
      rw [Nat.div_lt_iff_lt_mul hpos, Nat.add_mul, Nat.mul_comm m]
      omega
    have := Nat.mul_le_mul_left (2 ^ k) (Nat.le_of_lt_succ hlt)
    omega

-- A free run with room is used at its first aligned place.
theorem allocInRun_spec (h : p.Wf) {k : Nat} (hk : k < 64) (hl : Tiles p.tag p.off 0 i)
    (run : FreeRun p.tag p.off i len) (hr : Tiles p.tag p.off (i + len) p.npages)
    (left : 0 < i → p.tag (i - 1) ≠ .free) (right : i + len < p.npages → p.tag (i + len) ≠ .free)
    (hn : 0 < n) (hn' : ∀ s, Place p n (2 ^ k) s → n ≤ 2 ^ 31) :
    (∃ q p', p.allocInRun n (2 ^ k) i len = .ok (some (q, p')) ∧ Place p n (2 ^ k) q ∧
      Allocated p p' q n) ∨
    p.allocInRun n (2 ^ k) i len = .ok none ∧
      ∀ q, Place p n (2 ^ k) q → i ≤ q → i + len ≤ q := by
  have hle := hr.le
  obtain ⟨hge, hdvd, hmin⟩ := alignedPage_spec h hk (i := i) (by omega)
  -- a place that begins in the run has to fit into it
  have hfit : ∀ q, Place p n (2 ^ k) q → i ≤ q → q < i + len → q + n ≤ i + len := by
    intro q hq hiq hlt
    by_contra hc
    have := hq.range.le
    exact right (by omega) (hq.range.free (i + len) (by omega) (by omega))
  have hplace : ∀ q, i ≤ q → q + n ≤ i + len → 2 ^ k ∣ p.baseAddr / PAGESIZE + q →
      Place p n (2 ^ k) q :=
    fun q hq hqn hd => ⟨⟨by omega, fun j hj hj' => run.tag_eq (by omega) (by omega)⟩, hd⟩
  have halloc : ∀ q, i ≤ q → q + n ≤ i + len → 2 ^ k ∣ p.baseAddr / PAGESIZE + q →
      ∃ p', (p.splitRun i len q n).foundPages q n = .ok p' ∧ Allocated p p' q n :=
    fun q hq hqn hd =>
      allocated_of_split h hl run hr left right hn (hn' q (hplace q hq hqn hd)) hq hqn
  have hmark : ∀ q, i ≤ q → q + n ≤ i + len →
      p.markRest i len q n = .ok (p.splitRun i len q n) :=
    fun q hq hqn => markRest_eq h.tables hle hn hq hqn fun j hj hj' => run.tag_eq hj hj'
  rw [allocInRun]
  by_cases hk0 : 2 ^ k > 1
  case pos =>
    rw [if_pos hk0]
    obtain ⟨q, hq⟩ : ∃ q, q = p.alignedPage (2 ^ k) i := ⟨_, rfl⟩
    rw [← hq] at hge hdvd hmin ⊢
    by_cases hroom : q + n > i + len
    case pos =>
      right
      refine ⟨by simp [hroom]; rfl, fun q' hq' hi' => ?_⟩
      by_contra hc
      have := hmin q' hi' hq'.aligned
      have := hfit q' hq' hi' (by omega)
      omega
    case neg =>
      left
      obtain ⟨p', hp', ha⟩ := halloc q hge (by omega) hdvd
      refine ⟨q, p', ?_, hplace q hge (by omega) hdvd, ha⟩
      simp only [if_neg hroom, hmark q hge (by omega), bind, Except.bind, hp']
      rfl
  case neg =>
    have hk1 : 2 ^ k = 1 := by
      have := Nat.two_pow_pos k
      omega
    have hdvd' : ∀ q, 2 ^ k ∣ p.baseAddr / PAGESIZE + q := fun q => hk1 ▸ Nat.one_dvd _
    rw [if_neg hk0]
    by_cases hlt : len < n
    case pos =>
      right
      refine ⟨by rw [if_neg (by omega), if_neg (by omega)]; rfl, fun q hq hi => ?_⟩
      by_contra hc
      have := hfit q hq hi (by omega)
      omega
    case neg =>
      left
      obtain ⟨p', hp', ha⟩ := halloc i (Nat.le_refl i) (by omega) (hdvd' i)
      refine ⟨i, p', ?_, hplace i (Nat.le_refl i) (by omega) (hdvd' i), ha⟩
      have hrest := hmark i (Nat.le_refl i) (by omega)
      simp only [markRest, Nat.add_lt_add_iff_left, gt_iff_lt, Nat.lt_irrefl, if_false] at hrest
      by_cases heq : len > n
      case pos =>
        rw [if_pos heq, show i + len - (i + n) = len - n by omega, bind_pure] at hrest
        rw [if_pos heq, hrest]
        simp only [bind, Except.bind, hp']
        rfl
      case neg =>
        rw [if_neg heq] at hrest
        have hself : p = p.splitRun i len i n := Except.ok.inj hrest
        rw [if_neg heq, if_pos (by omega), hself, hp']
        rfl

-- The result of `allocPages`.
inductive AllocSpec (p : LargeObjectPool) (n pageAlign : Nat) : Option Nat × LargeObjectPool → Prop
  | some {i : Nat} {q : LargeObjectPool} (place : Place p n pageAlign i)
    (allocated : Allocated p q i n) : AllocSpec p n pageAlign (some i, q)
  | none {q : LargeObjectPool} (full : ∀ i, ¬Place p n pageAlign i) (wf : q.Wf)
    (keeps : Keeps p q 0 0) : AllocSpec p n pageAlign (none, q)

section Loop

variable {k largest : Nat} (h : p.Wf) (hk : k < 64) (hn : 0 < n)
  (hn' : ∀ s, Place p n (2 ^ k) s → n ≤ 2 ^ 31)
include h hk hn hn'

-- No place is before `i`, and `largest` bounds the free runs before `i`.
theorem allocPagesLoop_spec (hl : Tiles p.tag p.off 0 i) (hr : Tiles p.tag p.off i p.npages)
    (hfree : i < p.npages → p.tag i = .free) (left : 0 < i → i < p.npages → p.tag (i - 1) ≠ .free)
    (hfuel : p.npages - i < fuel)
    (hlargest : ∀ s l, p.FreeRange s l → 0 < l → s < i → l ≤ largest) (hle : largest ≤ p.npages)
    (hplace : ∀ s, Place p n (2 ^ k) s → i ≤ s) :
    ∃ r, p.allocPagesLoop n (2 ^ k) fuel i largest = .ok r ∧ AllocSpec p n (2 ^ k) r := by
  induction fuel generalizing i largest with
  | zero => omega
  | succ fuel ih =>
    rw [allocPagesLoop]
    by_cases hi : i < p.npages
    case neg =>
      rw [if_neg hi]
      have hc : { p with largestFree := largest }.Counters := by
        constructor
        case freepages => exact h.counters.freepages
        case searchStart => exact h.counters.searchStart
        case largestFree_le => exact hle
        case largestFree =>
          intro s l hs
          have hsl := hs.le
          by_cases hl0 : l = 0
          case pos => omega
          case neg => exact hlargest s l ⟨hsl, hs.free⟩ (by omega) (by simp only at hsl; omega)
      refine ⟨_, rfl, .none (fun s hs => ?_) (h.congr rfl rfl rfl rfl hc)
        ⟨rfl, rfl, fun _ _ _ => rfl, fun _ _ _ _ => rfl, fun _ _ _ => rfl⟩⟩
      have := hplace s hs
      have := hs.range.le
      omega
    case pos =>
      have left' : 0 < i → p.tag (i - 1) ≠ .free := fun h0 => left h0 hi
      obtain ⟨run, right, _, hr'⟩ := hr.of_free_left (Nat.le_refl i) hi (hfree hi) (by omega)
      have hle' := hr'.le
      rw [if_pos hi, h.tables.bin hi, h.tables.pageOffset hi, hfree hi]
      simp only [Bins.ofTag, bind, Except.bind, ne_eq, not_true_eq_false, if_false]
      cases allocInRun_spec h hk hl run hr' left' right hn hn' with
      | inl hfound =>
        obtain ⟨q, p', hp', hq, ha⟩ := hfound
        exact ⟨(some q, p'), by rw [hp']; rfl, .some hq ha⟩
      | inr hnone =>
        obtain ⟨hp', hnext⟩ := hnone
        rw [hp']
        simp only
        obtain ⟨j, hj, hij, hlj, hrj, hfj, hnj⟩ := skipPages_spec h.tables
          (hl.append (.free run (fun hlt => absurd hlt (Nat.lt_irrefl _)) (.done _))
            fun h0 _ hf => absurd hf (left' h0)) hr'
            (show p.npages - (i + p.off i) < p.npages + 1 by omega)
        rw [hj]
        simp only
        have hpos := run.pos
        refine ih hlj hrj hfj (fun h0 hlt => ?_) (by omega) (fun s l hs hl0 hsj => ?_) ?_
          fun s hs => ?_
        · -- the page before is not free, since it is not in the run
          by_cases he : j = i + p.off i
          case pos => exact absurd (hfj hlt) (he ▸ right (he ▸ hlt))
          case neg => exact hnj (j - 1) (by omega) (by omega)
        · by_cases hsi : s < i
          case pos =>
            have := hlargest s l hs hl0 hsi
            omega
          case neg =>
            have hsrun : s < i + p.off i := by
              by_contra hc
              exact hnj s (by omega) hsj (hs.free s (Nat.le_refl s) (by omega))
            have hend : s + l ≤ i + p.off i := by
              by_contra hc
              have := hs.le
              exact right (by omega) (hs.free _ (by omega) (by omega))
            omega
        · omega
        · have hsi := hplace s hs
          have := hnext s hs hsi
          by_contra hc
          exact hnj s this (by omega) (hs.range.free s (Nat.le_refl s) (by omega))

end Loop

-- The search of `allocPages` starts behind the block that `searchStart` points into.
theorem searchStart_spec (h : p.Wf) (hi : i < p.npages) (hs : ∀ j < p.npages, p.tag j = .free → i ≤ j) :
    ∃ j, (if p.tag i = .body then i - p.off i + p.off (i - p.off i) else i) = j ∧ i ≤ j ∧
      (p.tag i = .body → i - p.off i < p.npages) ∧ Tiles p.tag p.off 0 j ∧
      Tiles p.tag p.off j p.npages ∧ ∀ k, i ≤ k → k < j → p.tag k ≠ .free := by
  refine ⟨_, rfl, ?_⟩
  cases ht : p.tag i with
  | head =>
    obtain ⟨block, hl, hr⟩ := h.tiles.of_head (Nat.zero_le i) hi ht
    rw [if_neg (by simp)]
    exact ⟨Nat.le_refl i, by simp, hl, .block block hr, fun _ _ _ => by omega⟩
  | body =>
    obtain ⟨s, l, block, _, hsi, hil, hoff, hl, hr⟩ := h.tiles.of_body (Nat.zero_le i) hi ht
    rw [if_pos rfl, hoff, show i - (i - s) = s by omega, block.size]
    refine ⟨by omega, fun _ => by omega, hl.append (.block block (.done _)) fun _ _ _ => ?_, hr, ?_⟩
    · simp [block.head]
    · exact fun k hk hk' => block.ne_free (by omega) hk'
  | free =>
    obtain ⟨run, right, hl, hr⟩ := h.tiles.of_free_left (Nat.zero_le i) hi ht fun h0 hf => by
      have := hs (i - 1) (by omega) hf
      omega
    rw [if_neg (by simp)]
    exact ⟨Nat.le_refl i, by simp, hl, .free run right hr, fun _ _ _ => by omega⟩

theorem AllocSpec.of_searchStart {r : Option Nat × LargeObjectPool}
    (h : AllocSpec { p with searchStart := j } n pageAlign r) : AllocSpec p n pageAlign r := by
  cases h with
  | some place ha =>
    obtain ⟨⟨hle, hfree⟩, hd⟩ := place
    obtain ⟨hwf, hb, hk⟩ := ha
    exact .some ⟨⟨hle, hfree⟩, hd⟩ ⟨hwf, hb, ⟨hk.baseAddr, hk.npages, hk.tag, hk.off, hk.attrs⟩⟩
  | none full hwf hk =>
    exact .none (fun i hi => full i ⟨⟨hi.range.le, hi.range.free⟩, hi.aligned⟩) hwf
      ⟨hk.baseAddr, hk.npages, hk.tag, hk.off, hk.attrs⟩

theorem allocPages_spec (h : p.Wf) {k : Nat} (hk : k < 64) (hn : 0 < n)
    (hn' : ∀ s, Place p n (2 ^ k) s → n ≤ 2 ^ 31) :
    ∃ r, p.allocPages n (2 ^ k) = .ok r ∧ AllocSpec p n (2 ^ k) r := by
  rw [allocPages]
  by_cases hc : p.largestFree < n ∨ p.searchStart + n > p.npages
  case pos =>
    rw [if_pos hc]
    refine ⟨_, rfl, .none (fun i hi => ?_) h
      ⟨rfl, rfl, fun _ _ _ => rfl, fun _ _ _ _ => rfl, fun _ _ _ => rfl⟩⟩
    have hle := hi.range.le
    have := h.counters.largestFree i n hi.range
    have := h.counters.searchStart i (by omega) (hi.range.free i (Nat.le_refl i) (by omega))
    omega
  case neg =>
    obtain ⟨j, hj, hsj, hjle, hl, hr, hfree⟩ := searchStart_spec h (i := p.searchStart) (by omega)
      h.counters.searchStart
    obtain ⟨i, hskip, hji, hli, hri, hfi, hni⟩ := skipPages_spec h.tables hl hr
      (show p.npages - j < p.npages + 1 by omega)
    have hsearch : ∀ s < p.npages, p.tag s = .free → i ≤ s := by
      intro s hs hfs
      have hge := h.counters.searchStart s hs hfs
      by_contra hlt
      by_cases hsj' : s < j
      case pos => exact hfree s hge hsj' hfs
      case neg => exact hni s (by omega) (by omega) hfs
    have hwf : { p with searchStart := i }.Wf :=
      h.congr rfl rfl rfl rfl ⟨h.counters.freepages, hsearch, fun s l hs =>
        h.counters.largestFree s l ⟨hs.le, hs.free⟩, h.counters.largestFree_le⟩
    have hleft : 0 < i → i < p.npages → p.tag (i - 1) ≠ .free := by
      intro h0 hlt hf
      have := hsearch (i - 1) (by omega) hf
      omega
    have hplace : ∀ s l, { p with searchStart := i }.FreeRange s l → 0 < l → i ≤ s := by
      intro s l hs hl0
      have hle := hs.le
      exact hsearch s (by simp only at hle; omega) (hs.free s (Nat.le_refl s) (by omega))
    have hlargest : ∀ s l, { p with searchStart := i }.FreeRange s l → 0 < l → s < i → l ≤ 0 := by
      intro s l hs hl0 hsi
      have := hplace s l hs hl0
      omega
    obtain ⟨r, hloop, hspec⟩ := allocPagesLoop_spec hwf hk hn
      (fun s hs => hn' s ⟨⟨hs.range.le, hs.range.free⟩, hs.aligned⟩) hli hri hfi hleft
      (show p.npages - i < p.npages + 1 by omega) hlargest (Nat.zero_le _)
      fun s hs => hplace s n hs.range hn
    refine ⟨r, ?_, hspec.of_searchStart⟩
    have hbin := h.tables.bin (show p.searchStart < p.npages by omega)
    rw [if_neg hc]
    by_cases hb : p.tag p.searchStart = .body
    case pos =>
      have hlt := hjle hb
      rw [if_pos hb] at hj
      simp only [hbin, hb, Bins.ofTag, bind, Except.bind, if_pos, h.tables.pageOffset hlt,
        h.tables.pageOffset (show p.searchStart < p.npages by omega), hj, hskip]
      exact hloop
    case neg =>
      rw [if_neg hb] at hj
      rw [← hj] at hskip
      simp only [hbin, Bins.ofTag_eq_pageplus, hb, bind, Except.bind, if_false, hskip]
      exact hloop

end Runtime.GC.LargeObjectPool
