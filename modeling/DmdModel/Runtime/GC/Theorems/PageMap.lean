import DmdModel.Lib.BoundaryTags
import DmdModel.Lib.ExceptPost
import DmdModel.Lib.Lists
import DmdModel.Runtime.GC.LargeObjectPool

open BoundaryTags ListFill

namespace Runtime.GC

-- The pages of a large object pool as a row of tagged pages.
def Bins.tag : Bins → Tag
  | .B_PAGE     => .head
  | .B_PAGEPLUS => .body
  | _           => .free

def Bins.ofTag : Tag → Bins
  | .head => .B_PAGE
  | .body => .B_PAGEPLUS
  | .free => .B_FREE

@[simp]
theorem Bins.tag_ofTag (t : Tag) : (Bins.ofTag t).tag = t := by
  cases t <;> rfl

@[simp]
theorem Bins.ofTag_eq_free {t : Tag} : Bins.ofTag t = .B_FREE ↔ t = .free := by
  cases t <;> simp [Bins.ofTag]

@[simp]
theorem Bins.ofTag_eq_page {t : Tag} : Bins.ofTag t = .B_PAGE ↔ t = .head := by
  cases t <;> simp [Bins.ofTag]

@[simp]
theorem Bins.ofTag_eq_pageplus {t : Tag} : Bins.ofTag t = .B_PAGEPLUS ↔ t = .body := by
  cases t <;> simp [Bins.ofTag]

namespace LargeObjectPool

variable {p : LargeObjectPool} {t : Tag} {i j n : Nat} {f : Nat → Nat}

def tag (p : LargeObjectPool) (i : Nat) : Tag :=
  (p.pagetable.getD i .B_FREE).tag

def off (p : LargeObjectPool) (i : Nat) : Nat :=
  (p.bPageOffsets.getD i 0).toNat

-- The tables have an entry for each page, and no page is used for small objects.
structure Tables (p : LargeObjectPool) : Prop where
  pagetable    : p.pagetable.length = p.npages
  bPageOffsets : p.bPageOffsets.length = p.npages
  large        : ∀ b ∈ p.pagetable, .ofTag b.tag = b
  npages_lt    : p.npages < 2 ^ 32

-- The writes of the operations: a range of the page table, a range of the offsets, the two ends of a
-- free run, and the counters.
@[simps]
def fillBins (p : LargeObjectPool) (i n : Nat) (t : Tag) : LargeObjectPool :=
  { p with pagetable := fill p.pagetable i n fun _ => .ofTag t }

@[simps]
def fillOffsets (p : LargeObjectPool) (i n : Nat) (f : Nat → Nat) : LargeObjectPool :=
  { p with bPageOffsets := fill p.bPageOffsets i n fun j => (f j).toUInt32 }

@[simps]
def markRun (p : LargeObjectPool) (page num : Nat) : LargeObjectPool :=
  { p with
    bPageOffsets :=
      (p.bPageOffsets.set page num.toUInt32).set (page + num - 1) num.toUInt32 }

@[simps]
def withCounters (p : LargeObjectPool) (freepages searchStart largestFree : Nat) :
    LargeObjectPool :=
  { p with freepages, searchStart, largestFree }

@[simp]
theorem tag_withCounters {a b c : Nat} : (p.withCounters a b c).tag = p.tag :=
  rfl

@[simp]
theorem off_withCounters {a b c : Nat} : (p.withCounters a b c).off = p.off :=
  rfl

@[simp]
theorem tag_fillOffsets : (p.fillOffsets i n f).tag = p.tag :=
  rfl

@[simp]
theorem tag_markRun : (p.markRun i n).tag = p.tag :=
  rfl

@[simp]
theorem off_fillBins : (p.fillBins i n t).off = p.off :=
  rfl

theorem tag_fillBins (h : i + n ≤ p.pagetable.length) (j : Nat) :
    (p.fillBins i n t).tag j = if i ≤ j ∧ j < i + n then t else p.tag j := by
  simp only [tag, fillBins, List.getD_eq_getElem?_getD, getElem?_fill]
  split
  case isTrue hj => simp [List.getElem?_eq_getElem (show j < p.pagetable.length by omega)]
  case isFalse => rfl

theorem off_fillOffsets (h : i + n ≤ p.bPageOffsets.length)
    (hf : ∀ j, i ≤ j → j < i + n → f j < 2 ^ 32) (j : Nat) :
    (p.fillOffsets i n f).off j = if i ≤ j ∧ j < i + n then f j else p.off j := by
  simp only [off, fillOffsets, List.getD_eq_getElem?_getD, getElem?_fill]
  split
  case isTrue hj =>
    have hlt := hf j hj.1 hj.2
    simp [List.getElem?_eq_getElem (show j < p.bPageOffsets.length by omega)]
    omega
  case isFalse => rfl

theorem off_markRun (hn : 0 < n) (h : i + n ≤ p.bPageOffsets.length) (hlt : n < 2 ^ 32) (j : Nat) :
    (p.markRun i n).off j = if j = i ∨ j = i + n - 1 then n else p.off j := by
  have hu : n.toUInt32.toNat = n := by simp; omega
  simp only [off, markRun, List.getD_eq_getElem?_getD, List.getElem?_set, List.length_set]
  by_cases hl : i + n - 1 = j
  case pos => simp [hl, hu, show j < p.bPageOffsets.length by omega]
  case neg =>
    by_cases he : i = j
    case pos =>
      subst he
      rw [if_neg hl]
      simp [hu, show i < p.bPageOffsets.length by omega]
    case neg => simp [hl, he, Ne.symm hl, Ne.symm he]

namespace Tables

theorem of_eq {q : LargeObjectPool} (h : p.Tables) (hp : q.pagetable = p.pagetable)
    (ho : q.bPageOffsets = p.bPageOffsets) (hn : q.npages = p.npages) : q.Tables where
  pagetable    := hp ▸ hn ▸ h.pagetable
  bPageOffsets := ho ▸ hn ▸ h.bPageOffsets
  large        := hp ▸ h.large
  npages_lt    := hn ▸ h.npages_lt

theorem fillBins (h : p.Tables) : (p.fillBins i n t).Tables where
  pagetable    := length_fill.trans h.pagetable
  bPageOffsets := h.bPageOffsets
  npages_lt    := h.npages_lt
  large b hb   := by
    obtain ⟨j, hj⟩ := List.mem_iff_getElem?.mp hb
    rw [fillBins_pagetable, getElem?_fill] at hj
    split at hj
    case isTrue =>
      obtain ⟨_, _, rfl⟩ := Option.map_eq_some_iff.mp hj
      simp
    case isFalse => exact h.large b (List.mem_of_getElem? hj)

theorem fillOffsets (h : p.Tables) : (p.fillOffsets i n f).Tables where
  pagetable    := h.pagetable
  bPageOffsets := length_fill.trans h.bPageOffsets
  npages_lt    := h.npages_lt
  large        := h.large

theorem markRun (h : p.Tables) : (p.markRun i n).Tables where
  pagetable    := h.pagetable
  bPageOffsets := by simp [h.bPageOffsets]
  npages_lt    := h.npages_lt
  large        := h.large

theorem withCounters {a b c : Nat} (h : p.Tables) : (p.withCounters a b c).Tables :=
  h.of_eq rfl rfl rfl

theorem bin (h : p.Tables) (hi : i < p.npages) : p.bin i = .ok (.ofTag (p.tag i)) := by
  have hl : i < p.pagetable.length := h.pagetable ▸ hi
  simp [LargeObjectPool.bin, tag, List.getElem?_eq_getElem hl, h.large _ (List.getElem_mem hl)]

theorem pageOffset (h : p.Tables) (hi : i < p.npages) : p.pageOffset i = .ok (p.off i) := by
  have hl : i < p.bPageOffsets.length := h.bPageOffsets ▸ hi
  simp [LargeObjectPool.pageOffset, off, List.getElem?_eq_getElem hl]

theorem setBin (h : p.Tables) (hi : i < p.npages) (t : Tag) :
    p.setBin i (.ofTag t) = .ok (p.fillBins i 1 t) := by
  rw [LargeObjectPool.setBin, if_pos (h.pagetable ▸ hi), LargeObjectPool.fillBins, fill_succ,
    fill_zero]

theorem setPageOffset (h : p.Tables) (hi : i < p.npages) (n : Nat) :
    p.setPageOffset i n = .ok (p.fillOffsets i 1 fun _ => n) := by
  rw [LargeObjectPool.setPageOffset, if_pos (h.bPageOffsets ▸ hi), LargeObjectPool.fillOffsets,
    fill_succ, fill_zero]

theorem memset (h : p.Tables) (hi : i + n ≤ p.npages) (t : Tag) :
    p.memset i (.ofTag t) n = .ok (p.fillBins i n t) := by
  refine @foldlM_fill _ _ (fun _ => .ofTag t) i n _ (fun p l => { p with pagetable := l })
    LargeObjectPool.pagetable p _ rfl fun l j hj hn hl => ?_
  have hp : j < p.pagetable.length := by
    rw [h.pagetable]
    omega
  have hlen : j < l.length :=
    (List.getElem?_eq_some_iff.mp ((hl j (Nat.le_refl j)).trans (List.getElem?_eq_getElem hp))).1
  rw [LargeObjectPool.setBin, if_pos hlen]

theorem setPageOffsets (h : p.Tables) {pagenum first : Nat} (hi : pagenum + first + n ≤ p.npages) :
    p.setPageOffsets pagenum first n =
      .ok (p.fillOffsets (pagenum + first) n fun j => j - pagenum) := by
  have hfold := @foldlM_fill UInt32 GCError (fun j => (j - pagenum).toUInt32) (pagenum + first) n _
    (fun p l => { p with bPageOffsets := l }) LargeObjectPool.bPageOffsets p
    (fun p j => p.setPageOffset j (j - pagenum)) rfl fun l j hj hn hl => ?_
  case refine_1 =>
    have hp : j < p.bPageOffsets.length := by
      rw [h.bPageOffsets]
      omega
    have hlen : j < l.length :=
      (List.getElem?_eq_some_iff.mp ((hl j (Nat.le_refl j)).trans (List.getElem?_eq_getElem hp))).1
    rw [LargeObjectPool.setPageOffset, if_pos hlen]
  rw [← List.map_add_range', List.foldlM_map] at hfold
  simp only [Nat.add_sub_cancel_left] at hfold
  exact hfold

theorem setFreePageOffsets (h : p.Tables) {page num : Nat} (hn : 0 < num)
    (hle : page + num ≤ p.npages) (hf : p.tag page = .free) (hl : p.tag (page + num - 1) = .free) :
    p.setFreePageOffsets page num = .ok (p.markRun page num) := by
  have h₁ := h.bin (i := page) (by omega)
  have h₂ := h.bin (i := page + num - 1) (by omega)
  have hset : page + num - 1 < p.bPageOffsets.length := by
    rw [h.bPageOffsets]
    omega
  rw [hf] at h₁
  rw [hl] at h₂
  have hset' : page < p.bPageOffsets.length := by omega
  simp only [LargeObjectPool.setFreePageOffsets, h₁, h₂, Bins.ofTag, LargeObjectPool.setPageOffset,
    hset', LargeObjectPool.markRun]
  by_cases he : num > 1
  case pos => simp [he, hset, bind, Except.bind]
  case neg =>
    have he : num = 1 := by omega
    subst he
    simp [bind, Except.bind, pure, Except.pure]

theorem freeBefore (h : p.Tables) {page : Nat} (hp : page ≤ p.npages)
    (ht : Tiles p.tag p.off 0 page) :
    ∃ sz ≤ page, p.freeBefore true page = .ok sz ∧ mergeLeft p.tag p.off 0 page = page - sz := by
  rw [LargeObjectPool.freeBefore, mergeLeft]
  by_cases hpos : 0 < page
  case neg => exact ⟨0, by omega, by simp [hpos]; rfl, by simp [hpos]⟩
  case pos =>
    rw [if_pos ⟨rfl, hpos⟩, h.bin (by omega), h.pageOffset (by omega)]
    by_cases hf : p.tag (page - 1) = .free
    case pos =>
      have hle := (ht.of_free_right (by omega) (by omega) hf (by omega)).1
      exact ⟨p.off (page - 1), by omega, by simp [hf, bind, Except.bind], by simp [hpos, hf]⟩
    case neg => exact ⟨0, by omega, by simp [hf, bind, Except.bind]; rfl, by simp [hf]⟩

theorem freeBehind (h : p.Tables) (page : Nat) :
    ∃ sz, p.freeBehind true page = .ok sz ∧ mergeRight p.tag p.off page p.npages = page + sz := by
  rw [LargeObjectPool.freeBehind, mergeRight]
  by_cases hlt : page < p.npages
  case neg => exact ⟨0, by simp [hlt]; rfl, by simp [hlt]⟩
  case pos =>
    rw [if_pos ⟨rfl, hlt⟩, h.bin hlt, h.pageOffset hlt]
    by_cases hf : p.tag page = .free
    case pos => exact ⟨p.off page, by simp [hf, bind, Except.bind], by simp [hlt, hf]⟩
    case neg => exact ⟨0, by simp [hf, bind, Except.bind]; rfl, by simp [hf]⟩

-- The pages that are merged are marked as one run, with the runs on both sides or only with the one
-- behind them.
theorem mergeFreePageOffsets (h : p.Tables) {page num s e : Nat} (bwd : Bool) (hn : 0 < num)
    (hl : bwd → Tiles p.tag p.off 0 page) (hr : Tiles p.tag p.off (page + num) p.npages)
    (hf : ∀ i, page ≤ i → i < page + num → p.tag i = .free)
    (hs : s = if bwd then mergeLeft p.tag p.off 0 page else page)
    (he : e = mergeRight p.tag p.off (page + num) p.npages) :
    p.mergeFreePageOffsets bwd true page num = .ok (p.markRun s (e - s)) := by
  obtain ⟨hee, heb, _, _, hrf⟩ := hr.mergeRight
  rw [← he] at hee heb hrf
  obtain ⟨sz, hle, hbefore, hsz, hlf⟩ : ∃ sz ≤ page, p.freeBefore bwd page = .ok sz ∧
      s = page - sz ∧ ∀ i, s ≤ i → i < page → p.tag i = .free := by
    cases bwd with
    | false => exact ⟨0, by omega, by simp [LargeObjectPool.freeBefore]; rfl, by simpa using hs,
      fun i hi hi' => by simp only [Bool.false_eq_true, ↓reduceIte] at hs; omega⟩
    | true =>
      obtain ⟨sz, hle, hbefore, hsz⟩ := h.freeBefore (by omega) (hl rfl)
      simp only [↓reduceIte] at hs
      exact ⟨sz, hle, hbefore, hs.trans hsz, hs ▸ (hl rfl).mergeLeft.2.2.2.2⟩
  obtain ⟨sz', hbehind, hsz'⟩ := h.freeBehind (page + num)
  have hfree : ∀ i, s ≤ i → i < e → p.tag i = .free := by
    intro i hi hi'
    by_cases hlt : i < page
    case pos => exact hlf i hi hlt
    case neg =>
      by_cases hlt' : i < page + num
      case pos => exact hf i (by omega) hlt'
      case neg => exact hrf i (by omega) hi'
  have hpage : page - sz + (num + sz) = page + num := by omega
  have hnum : num + sz + sz' = e - s := by omega
  rw [LargeObjectPool.mergeFreePageOffsets, hbefore]
  simp only [bind, Except.bind]
  rw [hpage, hbehind]
  simp only
  rw [← hsz, hnum]
  exact h.setFreePageOffsets (by omega) (by omega) (hfree s (by omega) (by omega))
    (hfree _ (by omega) (by omega))

-- The loop of `freePages`.
theorem freePages (h : p.Tables) {pagenum num : Nat} (hle : pagenum + num ≤ p.npages)
    (ht : ∀ i, pagenum ≤ i → i < pagenum + num → p.tag i ≠ .free) :
    p.freePages pagenum num = .ok ((p.fillBins pagenum num .free).withCounters (p.freepages + num)
      (min p.searchStart pagenum) (p.freepages + num)) := by
  rw [LargeObjectPool.freePages]
  have hmin : (if pagenum < p.searchStart then { p with searchStart := pagenum } else p) =
      { p with searchStart := min p.searchStart pagenum } := by
    split
    case isTrue => rw [Nat.min_eq_right (by omega)]
    case isFalse => rw [Nat.min_eq_left (by omega)]
  simp only [hmin]
  have hfold := @foldlM_fill _ GCError (fun _ => .ofTag .free) pagenum num _
    (fun p l => { p with pagetable := l }) LargeObjectPool.pagetable
    { p with searchStart := min p.searchStart pagenum } freePage rfl ?_
  case refine_1 =>
    intro l j hj hn hl
    have hp : j < p.pagetable.length := by
      rw [h.pagetable]
      omega
    obtain ⟨hlen, hget⟩ := List.getElem?_eq_some_iff.mp
      ((hl j (Nat.le_refl j)).trans (List.getElem?_eq_getElem hp))
    have hne : p.pagetable[j] ≠ .B_FREE := by
      intro hb
      refine ht j hj hn ?_
      simp [tag, List.getElem?_eq_getElem hp, hb, Bins.tag]
    simp [freePage, LargeObjectPool.bin, LargeObjectPool.setBin, hget, hne, hlen, bind, Except.bind,
      Bins.ofTag]
  rw [hfold]
  rfl

end Tables
end LargeObjectPool
end Runtime.GC
