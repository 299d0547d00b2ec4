import DmdModel.Runtime.GC.Theorems.LargeObjectPool

open BoundaryTags

namespace Runtime.GC.LargeObjectPool

variable {p q : LargeObjectPool} {i k l m n ptr s : Nat}

-- The block of `l` pages at `s` has `l'` pages afterwards.
structure Resized (p q : LargeObjectPool) (s l l' : Nat) : Prop where
  wf    : q.Wf
  block : q.IsBlock s l'
  keeps : Keeps p q s (s + max l l')

section Grow

-- The tables that `growBlock` writes before it marks the rest of the run.
def grown (p : LargeObjectPool) (s l k : Nat) : LargeObjectPool :=
  ((p.fillBins (s + l) k .body).fillOffsets s 1 fun _ => l + k).fillOffsets (s + l) k (· - s)

theorem grown_tables (h : p.Tables) : (p.grown s l k).Tables :=
  h.fillBins.fillOffsets.fillOffsets

theorem grown_tag (h : p.Tables) (hle : s + l + k ≤ p.npages) (j : Nat) :
    (p.grown s l k).tag j = if s + l ≤ j ∧ j < s + l + k then .body else p.tag j := by
  rw [grown, tag_fillOffsets, tag_fillOffsets, tag_fillBins (by rw [h.pagetable]; exact hle)]

theorem grown_off (h : p.Tables) (hl : 0 < l) (hle : s + l + k ≤ p.npages) (j : Nat) :
    (p.grown s l k).off j =
      if s + l ≤ j ∧ j < s + l + k then j - s else if j = s then l + k else p.off j := by
  have hlen := h.bPageOffsets
  have hlt := h.npages_lt
  rw [grown, off_fillOffsets (by simp; omega) (fun _ _ _ => by omega),
    off_fillOffsets (by simp; omega) (fun _ _ _ => by omega), off_fillBins]
  grind

theorem growBlock_eq (h : p.Tables) (hl : 0 < l) (hle : s + l + m ≤ p.npages) (hk : k ≤ m)
    (hf : ∀ i, s + l ≤ i → i < s + l + m → p.tag i = .free) :
    p.growBlock s l k m =
      .ok ((if m > k then (p.grown s l k).markRun (s + l + k) (m - k) else p.grown s l k).withCounters
        (p.freepages - k) p.searchStart p.largestFree) := by
  have htag := grown_tag h (s := s) (l := l) (k := k) (by omega)
  have ht₁ : (p.fillBins (s + l) k .body).Tables := h.fillBins
  have hrest : m > k → (p.grown s l k).setFreePageOffsets (s + l + k) (m - k) =
      .ok ((p.grown s l k).markRun (s + l + k) (m - k)) := by
    intro hgt
    refine (grown_tables h).setFreePageOffsets (by omega) (by simp [grown]; omega) ?_ ?_
    all_goals
      rw [htag, if_neg (by omega)]
      exact hf _ (by omega) (by omega)
  rw [growBlock, show Bins.B_PAGEPLUS = .ofTag .body from rfl, h.memset (by omega)]
  simp only [bind, Except.bind]
  rw [ht₁.setPageOffset (by simp; omega)]
  simp only
  rw [ht₁.fillOffsets.setPageOffsets (by simp; omega)]
  simp only
  rw [← grown]
  split
  case isTrue hgt =>
    rw [hrest hgt]
    rfl
  case isFalse => rfl

-- A block grows into the run behind it.
theorem growBlock_spec (h : p.Wf) (hb : p.IsBlock s l) (hlt : s + l < p.npages)
    (ht : p.tag (s + l) = .free) (hk : k ≤ p.off (s + l)) :
    ∃ q, p.growBlock s l k (p.off (s + l)) = .ok q ∧ Resized p q s l (l + k) ∧
      p.FreeRange (s + l) k := by
  have hpos := hb.block.pos
  have hlen := h.tables.bPageOffsets
  have hnp := h.tables.npages_lt
  obtain ⟨hl, hr⟩ := h.tiles_of_isBlock hb
  obtain ⟨run, right, _, hr'⟩ := hr.of_free_left (Nat.le_refl _) hlt ht (by omega)
  obtain ⟨m, hm⟩ : ∃ m, m = p.off (s + l) := ⟨_, rfl⟩
  rw [← hm] at hk run right hr' ⊢
  have hle := hr'.le
  have hfree : ∀ i, s + l ≤ i → i < s + l + m → p.tag i = .free := fun i hi hi' => run.tag_eq hi hi'
  have heq := growBlock_eq h.tables hpos hle hk hfree
  obtain ⟨q, hq⟩ : ∃ q, p.growBlock s l k m = .ok q := ⟨_, heq⟩
  rw [heq] at hq
  refine ⟨q, hq ▸ heq, ?_, ⟨by omega, fun i hi hi' => hfree i hi (by omega)⟩⟩
  obtain rfl := Except.ok.inj hq
  clear heq hq
  obtain ⟨g, hg⟩ : ∃ g, g = if m > k then (p.grown s l k).markRun (s + l + k) (m - k)
    else p.grown s l k := ⟨_, rfl⟩
  rw [← hg]
  have htables : g.Tables := by
    rw [hg]
    split
    · exact (grown_tables h.tables).markRun
    · exact grown_tables h.tables
  have hbase : g.baseAddr = p.baseAddr ∧ g.npages = p.npages ∧ g.attrs = p.attrs := by
    rw [hg]
    split <;> exact ⟨rfl, rfl, rfl⟩
  have htag : ∀ j, g.tag j = if s + l ≤ j ∧ j < s + l + k then .body else p.tag j := by
    intro j
    rw [hg, ← grown_tag h.tables (by omega)]
    split <;> rfl
  have hoff : ∀ j, g.off j = if k < m ∧ (j = s + l + k ∨ j = s + l + m - 1) then m - k
      else if s + l ≤ j ∧ j < s + l + k then j - s else if j = s then l + k else p.off j := by
    intro j
    have hlen' : (p.grown s l k).bPageOffsets.length = p.npages := (grown_tables h.tables).bPageOffsets
    have hgo := grown_off h.tables hpos (s := s) (l := l) (k := k) (by omega)
    rw [hg]
    split
    case isTrue hgt =>
      rw [off_markRun (by omega) (by omega) (by omega), hgo]
      grind
    case isFalse hgt =>
      rw [hgo]
      grind
  obtain ⟨htiles, hblock⟩ : Tiles g.tag g.off 0 p.npages ∧ Block g.tag g.off s (l + k) :=
    hl.grow hb.block run hr' right hk (fun j _ _ => htag j)
      (fun j _ _ hne hj => by rw [hoff]; grind) (by rw [hoff]; grind)
      (fun c hc hc' => by rw [hoff]; grind) (fun hlt => by rw [hoff, hoff]; grind)
  obtain ⟨hbase, hnpages, hattrs⟩ := hbase
  have hrange : p.FreeRange (s + l) k := ⟨by omega, fun i hi hi' => hfree i hi (by omega)⟩
  have hkeeps : Keeps p g s (s + max l (l + k)) := by
    constructor
    case baseAddr => exact hbase
    case npages => exact hnpages
    case attrs => exact fun j _ _ => by rw [getBits, getBits, hattrs]
    case tag => exact fun j _ hj => by rw [htag, if_neg (by omega)]
    case off =>
      intro j _ hj hne
      have hout : ¬(s + l ≤ j ∧ j < s + l + m) := fun hc => hne (hfree j hc.1 hc.2)
      rw [hoff]
      grind
  refine ⟨⟨htables.withCounters, ?_, ?_, ?_, ?_⟩, ⟨?_, hblock⟩, ?_⟩
  · simp only [withCounters_npages, hnpages]
    exact htiles
  · refine h.counters.take hrange hnpages (fun j hj hj' => ?_) (fun j _ hj => ?_) rfl rfl rfl
    · rw [tag_withCounters, htag, if_pos ⟨hj, hj'⟩]
      simp
    · rw [tag_withCounters, htag, if_neg (by omega)]
  · exact hbase ▸ h.aligned
  · rw [topAddr]
    simp only [withCounters_baseAddr, withCounters_npages, hbase, hnpages]
    exact h.top_le
  · simp only [withCounters_npages, hnpages]
    omega
  · exact ⟨hkeeps.baseAddr, hkeeps.npages, hkeeps.tag, hkeeps.off, hkeeps.attrs⟩

end Grow

theorem numPages_le_uintMax {size : Nat} (h : ¬size > PAGESIZE * (2 ^ 32 - 1)) :
    numPages size ≤ 2 ^ 32 - 1 := by
  have he : numPages size = (size + PAGESIZE - 1) / PAGESIZE := if_neg h
  rw [PAGESIZE] at h he
  omega

theorem numPages_pos {size : Nat} (h : 0 < size) : 0 < numPages size := by
  by_cases hm : size > PAGESIZE * (2 ^ 32 - 1)
  case pos =>
    have he : numPages size = SIZE_MAX := if_pos hm
    rw [he]
    decide
  case neg =>
    have he : numPages size = (size + PAGESIZE - 1) / PAGESIZE := if_neg hm
    rw [PAGESIZE] at he
    omega

theorem numPages_mono {a b : Nat} (h : a ≤ b) : numPages a ≤ numPages b := by
  by_cases hb : b > PAGESIZE * (2 ^ 32 - 1)
  case neg =>
    have ha : ¬a > PAGESIZE * (2 ^ 32 - 1) := fun hc => hb (Nat.lt_of_lt_of_le hc h)
    unfold numPages
    rw [if_neg hb, if_neg ha]
    exact Nat.div_le_div_right (by omega)
  case pos =>
    have hmax : numPages b = SIZE_MAX := if_pos hb
    rw [hmax]
    by_cases ha : a > PAGESIZE * (2 ^ 32 - 1)
    case pos => exact Nat.le_of_eq (if_pos ha)
    case neg => exact Nat.le_trans (numPages_le_uintMax ha) (by decide)

-- What `extendNoSync` does: the block whose first page has `ptr` grows by at least the minimum and at
-- most the maximum, if there is room.
inductive ExtendSpec (p : LargeObjectPool) (ptr minsize maxsize : Nat) :
    Nat × Nat × LargeObjectPool → Prop
  | grown {s l sz : Nat} {q : LargeObjectPool} (block : p.IsBlock s l) (page : p.pagenumOf ptr = s)
    (room : p.FreeRange (s + l) sz) (lower : numPages minsize ≤ sz) (upper : sz ≤ numPages maxsize)
    (resized : Resized p q s l (l + sz)) :
    ExtendSpec p ptr minsize maxsize ((l + sz) * PAGESIZE, sz, q)
  | none (full : ∀ s l, p.IsBlock s l → p.pagenumOf ptr = s →
      ¬p.FreeRange (s + l) (max 1 (numPages minsize))) :
    ExtendSpec p ptr minsize maxsize (0, 0, p)

theorem extendNoSync_spec (h : p.Wf) (hc : p.contains ptr) {minsize maxsize : Nat}
    (hm : minsize ≤ maxsize) :
    ∃ r, p.extendNoSync ptr minsize maxsize = .ok r ∧ ExtendSpec p ptr minsize maxsize r := by
  have hlt := pagenumOf_lt hc
  obtain ⟨s, hs⟩ : ∃ s, s = p.pagenumOf ptr := ⟨_, rfl⟩
  have hmono := numPages_mono hm
  rw [extendNoSync]
  simp only [← hs] at hlt ⊢
  rw [h.tables.bin hlt]
  simp only [bind, Except.bind, ne_eq, Bins.ofTag_eq_page]
  by_cases ht : p.tag s = .head
  case neg =>
    rw [if_pos ht]
    refine ⟨_, rfl, .none fun s' l hb he _ => ht ?_⟩
    exact hs.trans he ▸ hb.block.head
  case pos =>
    obtain ⟨hb, hl, hr⟩ := h.isBlock hlt ht
    have hpos := hb.block.pos
    -- the block is the only one at this page
    have hsame : ∀ s' l, p.IsBlock s' l → p.pagenumOf ptr = s' → s' = s ∧ l = p.off s := by
      intro s' l hb' he
      obtain rfl := hs.trans he
      exact ⟨rfl, hb'.block.size.symm⟩
    rw [if_neg (by simp [ht]), h.tables.pageOffset hlt]
    simp only
    rw [if_neg (by omega)]
    by_cases hn : s + p.off s ≥ p.npages
    case pos =>
      rw [if_pos hn]
      refine ⟨_, rfl, .none fun s' l hb' he hf => ?_⟩
      obtain ⟨rfl, rfl⟩ := hsame s' l hb' he
      have := hf.le
      omega
    case neg =>
      rw [if_neg hn, h.tables.bin (by omega)]
      simp only [Bins.ofTag_eq_free]
      by_cases hf : p.tag (s + p.off s) = .free
      case neg =>
        rw [if_pos hf]
        refine ⟨_, rfl, .none fun s' l hb' he hr => hf ?_⟩
        obtain ⟨rfl, rfl⟩ := hsame s' l hb' he
        exact hr.free _ (Nat.le_refl _) (by omega)
      case pos =>
        obtain ⟨run, right, _, hr'⟩ := hr.of_free_left (Nat.le_refl _) (by omega) hf (by omega)
        have hpos' := run.pos
        rw [if_neg (by simp [hf]), h.tables.pageOffset (by omega)]
        simp only
        by_cases hroom : p.off (s + p.off s) < numPages minsize
        case pos =>
          rw [if_pos hroom]
          refine ⟨_, rfl, .none fun s' l hb' he hr => ?_⟩
          obtain ⟨rfl, rfl⟩ := hsame s' l hb' he
          have := hr.le
          exact right (by omega) (hr.free _ (by omega) (by omega))
        case neg =>
          rw [if_neg hroom]
          obtain ⟨sz, hsz⟩ : ∃ sz, sz = if p.off (s + p.off s) > numPages maxsize then
            numPages maxsize else p.off (s + p.off s) := ⟨_, rfl⟩
          have hle : numPages minsize ≤ sz ∧ sz ≤ numPages maxsize ∧ sz ≤ p.off (s + p.off s) := by
            rw [hsz]
            split <;> omega
          obtain ⟨q, hq, hres, hfr⟩ := growBlock_spec h hb (by omega) hf hle.2.2
          rw [← hsz, hq]
          exact ⟨_, rfl, .grown hb hs.symm hfr hle.1 hle.2.1 hres⟩

-- A block gives up its last pages, which are merged with the run behind it.
theorem shrunk (h : p.Wf) (hb : p.IsBlock s l) (hk : 0 < k) (hkl : k < l) :
    ∃ p₁ p₂ q, p.freePages (s + k) (l - k) = .ok p₁ ∧
      p₁.mergeFreePageOffsets false true (s + k) (l - k) = .ok p₂ ∧ p₂.setPageOffset s k = .ok q ∧
      Resized p q s l k := by
  have hle := hb.le
  have hlen := h.tables.pagetable
  have hnp := h.tables.npages_lt
  obtain ⟨hl, hr⟩ := h.tiles_of_isBlock hb
  have hblock : ∀ i, s + k ≤ i → i < s + k + (l - k) → p.tag i ≠ .free :=
    fun i hi hi' => hb.block.ne_free (by omega) (by omega)
  have hfree := h.tables.freePages (show s + k + (l - k) ≤ p.npages by omega) hblock
  obtain ⟨p₁, hp₁⟩ : ∃ p₁, p₁ = (p.fillBins (s + k) (l - k) .free).withCounters
    (p.freepages + (l - k)) (min p.searchStart (s + k)) (p.freepages + (l - k)) := ⟨_, rfl⟩
  rw [← hp₁] at hfree
  have ht₁ : p₁.Tables := hp₁ ▸ h.tables.fillBins.withCounters
  have htag : ∀ i, p₁.tag i = if s + k ≤ i ∧ i < s + l then .free else p.tag i := by
    intro i
    rw [hp₁, tag_withCounters, tag_fillBins (by omega), show s + k + (l - k) = s + l by omega]
  have hoff : p₁.off = p.off := by
    rw [hp₁]
    rfl
  have hnp₁ : p₁.npages = p.npages := by
    rw [hp₁]
    rfl
  have hend : s + k + (l - k) = s + l := by omega
  have hr₁ : Tiles p₁.tag p₁.off (s + l) p₁.npages := by
    rw [hnp₁]
    exact hr.congr fun i hi _ => ⟨by rw [htag, if_neg (by omega)], by rw [hoff]⟩
  obtain ⟨e, he⟩ : ∃ e, e = mergeRight p₁.tag p₁.off (s + l) p₁.npages := ⟨_, rfl⟩
  have hmerge := ht₁.mergeFreePageOffsets false (show 0 < l - k by omega)
    (fun hb => absurd hb Bool.false_ne_true) (hend.symm ▸ hr₁)
    (fun i (_ : s + k ≤ i) hi' => by rw [htag, if_pos (by omega)]) rfl (hend.symm ▸ he)
  simp only [Bool.false_eq_true, if_false] at hmerge
  obtain ⟨hee, hen, _, _, hef⟩ := hr₁.mergeRight
  rw [← he] at hee hen hef
  have hlen₁ : p₁.bPageOffsets.length = p.npages := ht₁.bPageOffsets.trans hnp₁
  have hset := (ht₁.markRun (i := s + k) (n := e - (s + k))).setPageOffset (i := s)
    (by simp only [markRun_npages, hnp₁]; omega) k
  obtain ⟨q, hq⟩ : ∃ q, q = (p₁.markRun (s + k) (e - (s + k))).fillOffsets s 1 fun _ => k := ⟨_, rfl⟩
  rw [← hq] at hset
  refine ⟨p₁, _, q, hfree, hmerge, hset, ?_⟩
  have hqtag : ∀ i, q.tag i = if s + k ≤ i ∧ i < s + l then .free else p.tag i := by
    rw [hq]
    exact htag
  have hqoff : ∀ i, q.off i =
      if i = s then k else if i = s + k ∨ i = e - 1 then e - (s + k) else p.off i := by
    intro i
    rw [hq, off_fillOffsets (by simp; omega) (fun _ _ _ => by omega),
      off_markRun (by omega) (by omega) (by omega), hoff,
      show s + k + (e - (s + k)) - 1 = e - 1 by omega]
    grind
  have he' : e = mergeRight p.tag p.off (s + l) p.npages := by
    have ht : p₁.tag (s + l) = p.tag (s + l) := by rw [htag, if_neg (by omega)]
    rw [he, mergeRight, mergeRight, hnp₁, hoff, ht]
  rw [hnp₁] at hen
  obtain ⟨htiles, hblk, _⟩ : Tiles q.tag q.off 0 p.npages ∧ Block q.tag q.off s k ∧ _ :=
    hl.shrink hb.block hr he' hk hkl (fun i _ _ => hqtag i)
      (fun i _ _ _ _ _ => by rw [hqoff, if_neg (by omega), if_neg (by omega)])
      (by rw [hqoff, if_pos rfl]) (by rw [hqoff, if_neg (by omega), if_pos (.inl rfl)])
      (by rw [hqoff, if_neg (by omega), if_pos (.inr rfl)])
  have hfields : q.baseAddr = p.baseAddr ∧ q.npages = p.npages ∧ q.attrs = p.attrs := by
    rw [hq, hp₁]
    exact ⟨rfl, rfl, rfl⟩
  obtain ⟨hbase, hnpages, hattrs⟩ := hfields
  refine ⟨⟨?_, hnpages ▸ htiles, ?_, hbase ▸ h.aligned, ?_⟩, ⟨by omega, hblk⟩, ?_⟩
  · exact hq ▸ ht₁.markRun.fillOffsets
  · refine h.counters.release (s := s + k) (l := l - k) (by omega) hnpages hblock ?_ ?_ ?_ ?_ ?_
    · exact fun i hi hi' => by rw [hqtag, if_pos (by omega)]
    · exact fun i _ hi => by rw [hqtag, if_neg (by omega)]
    all_goals
      rw [hq, hp₁]
      rfl
  · rw [topAddr, hbase, hnpages]
    exact h.top_le
  · constructor
    case baseAddr => exact hbase
    case npages => exact hnpages
    case attrs => exact fun j _ _ => by rw [getBits, getBits, hattrs]
    case tag => exact fun j _ hj => by rw [hqtag, if_neg (by omega)]
    case off =>
      intro j hj hj' hne
      have hout : j ≠ e - 1 := by
        intro hc
        by_cases hlt : j < s + l
        case pos => omega
        case neg =>
          have hf := hef j (by omega) (by omega)
          rw [htag, if_neg (by omega)] at hf
          exact hne hf
      rw [hqoff, if_neg (by omega), if_neg (by omega)]

-- What `reallocNoSync` does to the block that begins at `ptr`, if there is one.
inductive ReallocSpec (p : LargeObjectPool) (ptr size : Nat) : Realloc × LargeObjectPool → Prop
  | null (other : ∀ s l, p.IsBlock s l → ptr ≠ p.baseAddr + s * PAGESIZE) :
    ReallocSpec p ptr size (.null, p)
  | doMalloc {s l : Nat} (block : p.IsBlock s l) (start : ptr = p.baseAddr + s * PAGESIZE)
    (move : size ≤ PAGESIZE / 2 ∨
      l < numPages size ∧ ¬p.FreeRange (s + l) (numPages size - l)) :
    ReallocSpec p ptr size (.doMalloc, p)
  | inPlace {s l : Nat} {q : LargeObjectPool} (block : p.IsBlock s l)
    (start : ptr = p.baseAddr + s * PAGESIZE) (room : p.FreeRange (s + l) (numPages size - l))
    (resized : Resized p q s l (numPages size)) :
    ReallocSpec p ptr size (.inPlace (numPages size * PAGESIZE) (numPages size - l), q)

theorem getPages_spec (h : p.Wf) (hc : p.contains ptr) :
    (∃ s l, p.IsBlock s l ∧ ptr = p.baseAddr + s * PAGESIZE ∧ p.pagenumOf ptr = s ∧
      p.getPages ptr = .ok l) ∨
    p.getPages ptr = .ok 0 ∧ ∀ s l, p.IsBlock s l → ptr ≠ p.baseAddr + s * PAGESIZE := by
  have hlt := pagenumOf_lt hc
  have hle := (of_decide_eq_true hc).1
  have hmod : (ptr - p.baseAddr) % PAGESIZE = ptr % PAGESIZE := by
    have ha := h.aligned
    rw [PAGESIZE] at ha ⊢
    omega
  rw [getPages, ← hmod]
  by_cases hoff : (ptr - p.baseAddr) % PAGESIZE = 0
  case neg =>
    rw [if_pos hoff]
    exact .inr ⟨rfl, fun s l hb he => hoff (hb.start he).2.2⟩
  case pos =>
    rw [if_neg (by simp [hoff])]
    simp only [h.tables.bin hlt, h.tables.pageOffset hlt, bind, Except.bind, ne_eq,
      Bins.ofTag_eq_page]
    by_cases ht : p.tag (p.pagenumOf ptr) = .head
    case neg =>
      rw [if_pos ht]
      exact .inr ⟨rfl, fun s l hb he => ht (hb.start he).2.1⟩
    case pos =>
      obtain ⟨hb, _⟩ := h.isBlock hlt ht
      rw [if_neg (by simp [ht])]
      exact .inl ⟨_, _, hb, eq_of_offset hle hoff, rfl, rfl⟩

-- Setting the attributes of the block.
theorem Resized.setAttr {l' : Nat} {bits : UInt32} (hl : 0 < l) (h : Resized p q s l l') :
    Resized p (if bits ≠ 0 then (q.clrBits s (~~~BlkAttr.NONE)).setBits s bits else q) s l l' := by
  split
  case isFalse => exact h
  case isTrue =>
    refine ⟨h.wf.congr rfl rfl rfl rfl (h.wf.counters.congr rfl (fun _ _ => rfl) rfl rfl rfl),
      ⟨h.block.le, h.block.block⟩,
      ⟨h.keeps.baseAddr, h.keeps.npages, h.keeps.tag, h.keeps.off, fun i hi hi' => ?_⟩⟩
    rw [← h.keeps.attrs i hi hi']
    have hne : i ≠ s := by omega
    simp [getBits, setBits, clrBits, List.getD_eq_getElem?_getD, Ne.symm hne]

-- The request that `reallocNoSync` gets wrong: the number of pages overflows, and the block is the
-- last one in the pool.
def Overflows (p : LargeObjectPool) (ptr size : Nat) : Prop :=
  size > PAGESIZE * (2 ^ 32 - 1) ∧
    ∃ s l, p.IsBlock s l ∧ ptr = p.baseAddr + s * PAGESIZE ∧ 0 < s ∧ s + l = p.npages

theorem reallocNoSync_spec (h : p.Wf) (hc : p.contains ptr) {size : Nat} (bits : UInt32)
    (ho : ¬p.Overflows ptr size) :
    ∃ r, p.reallocNoSync ptr size bits = .ok r ∧ ReallocSpec p ptr size r := by
  rw [reallocNoSync]
  cases getPages_spec h hc with
  | inr hother =>
    obtain ⟨hzero, hother⟩ := hother
    rw [hzero]
    exact ⟨_, rfl, .null hother⟩
  | inl hblock =>
    obtain ⟨s, l, hb, hstart, hpage, hpages⟩ := hblock
    have hpos := hb.block.pos
    have hle := hb.le
    have hnp := h.tables.npages_lt
    rw [hpages]
    simp only [hpage, bind, Except.bind]
    rw [if_neg (by omega)]
    by_cases hsmall : size ≤ PAGESIZE / 2
    case pos =>
      rw [if_pos hsmall]
      exact ⟨_, rfl, .doMalloc hb hstart (.inl hsmall)⟩
    case neg =>
      rw [if_neg hsmall]
      have hn0 : 0 < numPages size := numPages_pos (by omega)
      have hzero : ∀ q, numPages size ≤ l → Resized p q s l (numPages size) →
          ReallocSpec p ptr size (.inPlace (numPages size * PAGESIZE) 0,
            if bits ≠ 0 then (q.clrBits s (~~~BlkAttr.NONE)).setBits s bits else q) := by
        intro q hle' hres
        have hsub : numPages size - l = 0 := by omega
        have hroom : p.FreeRange (s + l) (numPages size - l) :=
          ⟨by omega, fun i _ _ => by omega⟩
        exact hsub ▸ .inPlace hb hstart hroom (hres.setAttr hpos)
      by_cases heq : numPages size = l
      case pos =>
        rw [if_pos heq]
        refine ⟨_, rfl, hzero p (Nat.le_of_eq heq) ?_⟩
        exact ⟨h, heq.symm ▸ hb, rfl, rfl, fun _ _ _ => rfl, fun _ _ _ _ => rfl, fun _ _ _ => rfl⟩
      case neg =>
        rw [if_neg heq]
        by_cases hlt : numPages size < l
        case pos =>
          obtain ⟨p₁, p₂, q, hp₁, hp₂, hq, hres⟩ := shrunk h hb hn0 hlt
          rw [if_pos hlt, hp₁]
          simp only [hp₂, hq]
          exact ⟨_, rfl, hzero q (Nat.le_of_lt hlt) hres⟩
        case neg =>
          rw [if_neg hlt]
          have hmove : ¬p.FreeRange (s + l) (numPages size - l) →
              ReallocSpec p ptr size (.doMalloc, p) :=
            fun hr => .doMalloc hb hstart (.inr ⟨by omega, hr⟩)
          by_cases hfit : (s + numPages size) % 2 ^ 64 ≤ p.npages
          case neg =>
            rw [if_neg hfit]
            refine ⟨_, rfl, hmove fun hr => hfit ?_⟩
            have := hr.le
            rw [Nat.mod_eq_of_lt (by omega)]
            omega
          case pos =>
            -- the next page is inside of the pool, also if the sum has overflowed
            have hnext : s + l < p.npages := by
              by_cases hm : size > PAGESIZE * (2 ^ 32 - 1)
              case pos =>
                by_contra hc
                have hmax : numPages size = SIZE_MAX := if_pos hm
                refine ho ⟨hm, s, l, hb, hstart, ?_, Nat.le_antisymm hle (Nat.le_of_not_lt hc)⟩
                by_contra h0
                rw [hmax, Nat.eq_zero_of_not_pos h0] at hfit
                have : 2 ^ 32 ≤ p.npages := Nat.le_trans (by decide) hfit
                exact Nat.lt_irrefl _ (Nat.lt_of_lt_of_le hnp this)
              case neg =>
                have := numPages_le_uintMax hm
                rw [Nat.mod_eq_of_lt (by omega)] at hfit
                omega
            rw [if_pos hfit, h.tables.bin hnext]
            simp only [ne_eq, Bins.ofTag_eq_free]
            by_cases hf : p.tag (s + l) = .free
            case neg =>
              rw [if_pos hf]
              exact ⟨_, rfl, hmove fun hr => hf (hr.free _ (Nat.le_refl _) (by omega))⟩
            case pos =>
              rw [if_neg (by simp [hf]), h.tables.pageOffset hnext]
              simp only
              obtain ⟨_, hr⟩ := h.tiles_of_isBlock hb
              obtain ⟨run, right, _⟩ := hr.of_free_left (Nat.le_refl _) hnext hf (by omega)
              have hrun := run.pos
              by_cases hroom : p.off (s + l) < numPages size - l
              case pos =>
                rw [if_pos hroom]
                refine ⟨_, rfl, hmove fun hr => ?_⟩
                have := hr.le
                exact right (by omega) (hr.free _ (by omega) (by omega))
              case neg =>
                obtain ⟨q, hq, hres, hfr⟩ := growBlock_spec h hb hnext hf (k := numPages size - l)
                  (by omega)
                rw [Nat.add_sub_cancel' (by omega)] at hres
                rw [if_neg hroom, hq]
                exact ⟨_, rfl, .inPlace hb hstart hfr (hres.setAttr hpos)⟩

end Runtime.GC.LargeObjectPool
