import DmdModel.Lib.ExceptPost
import DmdModel.Runtime.GC.Heap
import DmdModel.Runtime.GC.Theorems.LargeRuns

open BoundaryTags

namespace Runtime.GC.LargeObjectPool

variable {p q : LargeObjectPool} {bwd fwd : Bool} {i l n pageAlign ptr s : Nat}

section Frames

-- Whatever comes out, `f` of the pool is as before.
def Unchanged {α : Type} (f : LargeObjectPool → α) (p : LargeObjectPool)
    (x : Except GCError LargeObjectPool) : Prop :=
  x.Post (fun q => f q = f p) fun _ => True

section Rules

variable {α β ι : Type} {f : LargeObjectPool → α} {x : Except GCError LargeObjectPool}

theorem unchanged_self : Unchanged f p (.ok p) :=
  rfl

theorem unchanged_error {e : GCError} : Unchanged f p (.error e) :=
  trivial

theorem Unchanged.eq (h : Unchanged f p x) (hx : x = .ok q) : f q = f p := by
  rw [Unchanged] at h
  exact h.of_ok hx

theorem Unchanged.of_comp {g : α → β} (h : Unchanged f p x) : Unchanged (g ∘ f) p x :=
  h.mono (fun _ h => congrArg g h) fun _ h => h

-- Reads before a change.
theorem post_read {y : Except GCError ι} {g : ι → Except GCError α} {P : α → Prop}
    (hg : ∀ a, (g a).Post P fun _ => True) : (y >>= g).Post P fun _ => True := by
  cases y with
  | error => exact trivial
  | ok a => exact hg a

theorem unchanged_read {y : Except GCError ι} {g : ι → Except GCError LargeObjectPool}
    (hg : ∀ a, Unchanged f p (g a)) : Unchanged f p (y >>= g) :=
  post_read hg

theorem Unchanged.bind {g : LargeObjectPool → Except GCError LargeObjectPool} (h : Unchanged f p x)
    (hg : ∀ q, Unchanged f q (g q)) : Unchanged f p (x >>= g) :=
  Except.Post.bind h fun q hq => (hg q).mono (fun _ h => h.trans hq) fun _ _ => trivial

theorem unchanged_foldlM {is : List ι} {g : LargeObjectPool → ι → Except GCError LargeObjectPool}
    (hg : ∀ p i, Unchanged f p (g p i)) : Unchanged f p (is.foldlM g p) := by
  induction is generalizing p with
  | nil => exact unchanged_self
  | cons i is hi =>
    rw [List.foldlM_cons]
    exact (hg p i).bind fun _ => hi

end Rules

-- The tables that do not hold the offsets of the pages.
def tables (p : LargeObjectPool) : List Bins × List UInt32 :=
  (p.pagetable, p.attrs)

theorem setPageOffset_tables : Unchanged tables p (p.setPageOffset i n) := by
  rw [setPageOffset]
  split
  · exact unchanged_self
  · exact unchanged_error

theorem setPageOffsets_tables : Unchanged tables p (p.setPageOffsets i l n) :=
  unchanged_foldlM fun _ _ => setPageOffset_tables

theorem setFreePageOffsets_tables : Unchanged tables p (p.setFreePageOffsets i n) := by
  rw [setFreePageOffsets]
  refine unchanged_read fun _ => ?_
  dsimp only
  split
  · exact trivial
  · refine unchanged_read fun _ => ?_
    split
    · exact trivial
    · refine setPageOffset_tables.bind fun _ => ?_
      split
      · exact setPageOffset_tables
      · exact unchanged_self

theorem mergeFreePageOffsets_tables : Unchanged tables p (p.mergeFreePageOffsets bwd fwd i n) :=
  unchanged_read fun _ => unchanged_read fun _ => setFreePageOffsets_tables

theorem markRest_tables : Unchanged tables p (p.markRest i l s n) := by
  have hlast (q : LargeObjectPool) :
      Unchanged tables q (if s > i then q.setFreePageOffsets i (s - i) else .ok q) := by
    split
    · exact setFreePageOffsets_tables
    · exact unchanged_self
  rw [markRest]
  dsimp only
  split
  · exact setFreePageOffsets_tables.bind hlast
  · exact hlast p

theorem attrs_of_tables {x : Except GCError LargeObjectPool} (h : Unchanged tables p x) :
    Unchanged attrs p x :=
  h.of_comp (g := Prod.snd)

theorem setBin_attrs {b : Bins} : Unchanged attrs p (p.setBin i b) := by
  rw [setBin]
  split
  · exact unchanged_self
  · exact unchanged_error

theorem memset_attrs {b : Bins} : Unchanged attrs p (p.memset i b n) :=
  unchanged_foldlM fun _ _ => setBin_attrs

theorem freePages_attrs : Unchanged attrs p (p.freePages i n) := by
  have hfold (q : LargeObjectPool) : Unchanged attrs q ((List.range' i n).foldlM freePage q) := by
    refine unchanged_foldlM fun q j => unchanged_read fun _ => ?_
    dsimp only
    split
    · exact trivial
    · exact setBin_attrs
  rw [freePages]
  refine Except.Post.bind (P := fun q => q.attrs = p.attrs) ?_ fun q hq => ?_
  · refine (hfold _).mono (fun q hq => hq.trans ?_) fun _ h => h
    split <;> rfl
  · exact hq

theorem foundPages_attrs : Unchanged attrs p (p.foundPages i n) := by
  rw [foundPages]
  refine setBin_attrs.bind fun _ => (attrs_of_tables setPageOffset_tables).bind fun q => ?_
  dsimp only
  split
  · exact memset_attrs.bind fun _ => (attrs_of_tables setPageOffsets_tables).bind fun _ => rfl
  · exact rfl

theorem growBlock_attrs {freesz : Nat} : Unchanged attrs p (p.growBlock s l n freesz) := by
  rw [growBlock]
  refine memset_attrs.bind fun _ => (attrs_of_tables setPageOffset_tables).bind fun _ =>
    (attrs_of_tables setPageOffsets_tables).bind fun q => ?_
  dsimp only
  split
  · exact (attrs_of_tables setFreePageOffsets_tables).bind fun _ => rfl
  · exact rfl

theorem allocInRun_attrs :
    (p.allocInRun n pageAlign i l).Post (fun r => ∀ x, r = some x → x.2.attrs = p.attrs)
      fun _ => True := by
  have hfound {q : LargeObjectPool} (hq : q.attrs = p.attrs) (j : Nat) :
      ((do return some (j, ← q.foundPages j n)) : Except GCError (Option (Nat × LargeObjectPool))).Post
        (fun r => ∀ x, r = some x → x.2.attrs = p.attrs) fun _ => True := by
    refine Except.Post.bind foundPages_attrs fun q' hq' x hx => ?_
    obtain rfl := Option.some.inj hx
    exact hq'.trans hq
  rw [allocInRun]
  split
  · dsimp only
    split
    · intro x hx
      cases hx
    · exact Except.Post.bind (attrs_of_tables markRest_tables) fun q hq => hfound hq _
  · split
    · exact Except.Post.bind (attrs_of_tables setFreePageOffsets_tables) fun q hq => hfound hq _
    · split
      · exact hfound rfl _
      · intro x hx
        cases hx

theorem allocPagesLoop_attrs {fuel largest : Nat} :
    (p.allocPagesLoop n pageAlign fuel i largest).Post (fun r => r.2.attrs = p.attrs)
      fun _ => True := by
  induction fuel generalizing i largest with
  | zero => exact trivial
  | succ fuel hi =>
    rw [allocPagesLoop]
    split
    · refine post_read fun _ => ?_
      dsimp only
      split
      · exact trivial
      · refine post_read fun l => allocInRun_attrs.bind fun r hr => ?_
        cases r with
        | some x => exact hr x rfl
        | none => exact post_read fun j => hi
    · exact rfl

theorem allocPages_attrs :
    (p.allocPages n pageAlign).Post (fun r => r.2.attrs = p.attrs) fun _ => True := by
  rw [allocPages]
  split
  · exact rfl
  · refine post_read fun _ => ?_
    dsimp only
    split
    · exact post_read fun _ => post_read fun _ => post_read fun _ => allocPagesLoop_attrs
    · exact post_read fun _ => allocPagesLoop_attrs

theorem extendNoSync_attrs {minsize maxsize : Nat} :
    (p.extendNoSync ptr minsize maxsize).Post (fun r => r.2.2.attrs = p.attrs) fun _ => True := by
  rw [extendNoSync]
  dsimp only
  refine post_read fun _ => ?_
  split
  · exact rfl
  · refine post_read fun psz => ?_
    split
    · exact trivial
    · split
      · exact rfl
      · refine post_read fun _ => ?_
        split
        · exact rfl
        · refine post_read fun freesz => ?_
          split
          · exact rfl
          · exact Except.Post.bind growBlock_attrs fun q hq => hq

theorem freeNoSync_attrs :
    (p.freeNoSync ptr).Post (fun r => r.1 = true →
      r.2.attrs = (p.clrBits (p.pagenumOf ptr) (~~~BlkAttr.NONE)).attrs) fun _ => True := by
  rw [freeNoSync]
  dsimp only
  refine post_read fun b => ?_
  cases b with
  | B_SMALL => exact trivial
  | B_PAGEPLUS => exact fun h => absurd h Bool.false_ne_true
  | B_FREE => exact fun h => absurd h Bool.false_ne_true
  | B_PAGE =>
    dsimp only
    split
    · exact fun h => absurd h Bool.false_ne_true
    · refine post_read fun n => Except.Post.bind freePages_attrs fun q hq =>
        Except.Post.bind (attrs_of_tables mergeFreePageOffsets_tables) fun q' hq' _ => ?_
      rw [clrBits, clrBits, hq', hq]

-- What `reallocNoSync` does to the attributes of a block that it keeps in place.
def setAttr (p : LargeObjectPool) (i : Nat) (bits : UInt32) : LargeObjectPool :=
  if bits ≠ 0 then (p.clrBits i (~~~BlkAttr.NONE)).setBits i bits else p

theorem setAttr_congr {bits : UInt32} (h : q.attrs = p.attrs) :
    (q.setAttr i bits).attrs = (p.setAttr i bits).attrs := by
  rw [setAttr, setAttr]
  split
  · rw [setBits, setBits, clrBits, clrBits, h]
  · exact h

theorem reallocNoSync_attrs {size : Nat} {bits : UInt32} :
    (p.reallocNoSync ptr size bits).Post (fun r => ∀ a b, r.1 = .inPlace a b → PAGESIZE / 2 < size ∧
      r.2.attrs = (p.setAttr (p.pagenumOf ptr) bits).attrs) fun _ => True := by
  rw [reallocNoSync]
  refine post_read fun psz => ?_
  dsimp only
  split
  · intro a b he
    cases he
  · split
    · intro a b he
      cases he
    · rename_i hlarge
      replace hlarge : PAGESIZE / 2 < size := Nat.lt_of_not_le hlarge
      split
      · exact fun _ _ _ => ⟨hlarge, rfl⟩
      · split
        · refine Except.Post.bind freePages_attrs fun q hq =>
            Except.Post.bind (attrs_of_tables mergeFreePageOffsets_tables) fun q' hq' =>
              Except.Post.bind (attrs_of_tables setPageOffset_tables) fun q'' hq'' a b _ => ?_
          exact ⟨hlarge, setAttr_congr (hq''.trans (hq'.trans hq))⟩
        · split
          · refine post_read fun _ => ?_
            split
            · intro a b he
              cases he
            · refine post_read fun freesz => ?_
              split
              · intro a b he
                cases he
              · exact Except.Post.bind growBlock_attrs fun q hq a b _ =>
                  ⟨hlarge, setAttr_congr hq⟩
          · intro a b he
            cases he

end Frames

section Blocks

-- The block of `l` pages at `s`.
def block (p : LargeObjectPool) (s l : Nat) : BlkInfo where
  base := p.baseAddr + s * PAGESIZE
  size := l * PAGESIZE
  attr := p.getBits s

def Holds (p : LargeObjectPool) (b : BlkInfo) : Prop :=
  ∃ s l, p.IsBlock s l ∧ b = p.block s l

-- Only the first page of a block has attributes.
structure Plain (p : LargeObjectPool) : Prop where
  length : p.attrs.length = p.npages
  clear  : ∀ i, p.tag i ≠ .head → p.getBits i = 0

theorem page_inj {base s' : Nat} (h : base + s * PAGESIZE = base + s' * PAGESIZE) : s = s' := by
  rw [PAGESIZE] at h
  omega

theorem IsBlock.holds_iff (hb : p.IsBlock s l) {b : BlkInfo} :
    p.Holds b ∧ b.base = p.baseAddr + s * PAGESIZE ↔ b = p.block s l := by
  constructor
  · rintro ⟨⟨s', l', hb', rfl⟩, he⟩
    obtain rfl := page_inj he
    have hpos := hb.block.pos
    have hpos' := hb'.block.pos
    rw [(hb.eq_of_mem hb' (Nat.le_refl _) (by omega) (Nat.le_refl _) (by omega)).2]
  · rintro rfl
    exact ⟨⟨s, l, hb, rfl⟩, rfl⟩

theorem FreeRange.disjoint {s' l' : Nat} (hf : p.FreeRange s l) (hb : p.IsBlock s' l') :
    s' + l' ≤ s ∨ s + l ≤ s' ∨ l = 0 := by
  by_contra hc
  have hpos := hb.block.pos
  exact hb.block.ne_free (i := max s s') (by omega) (by omega) (hf.free _ (by omega) (by omega))

theorem IsBlock.disjoint {s' l' : Nat} (hb : p.IsBlock s l) (hb' : p.IsBlock s' l') (hne : s' ≠ s) :
    s' + l' ≤ s ∨ s + l ≤ s' := by
  by_contra hc
  have hpos := hb.block.pos
  have hpos' := hb'.block.pos
  exact hne (hb'.eq_of_mem hb (i := max s s') (by omega) (by omega) (by omega) (by omega)).1

theorem holds_bounds {b : BlkInfo} (hb : p.Holds b) :
    p.baseAddr ≤ b.base ∧ b.base + b.size ≤ p.topAddr ∧ 0 < b.size := by
  obtain ⟨s, l, hb, rfl⟩ := hb
  have hle := Nat.mul_le_mul_right PAGESIZE hb.le
  have hpos := Nat.mul_pos hb.block.pos (show 0 < PAGESIZE by decide)
  rw [Nat.add_mul] at hle
  simp only [block, topAddr]
  omega

theorem holds_disjoint {b c : BlkInfo} (hb : p.Holds b) (hc : p.Holds c) :
    b = c ∨ b.base + b.size ≤ c.base ∨ c.base + c.size ≤ b.base := by
  obtain ⟨s, l, hb, rfl⟩ := hb
  obtain ⟨s', l', hc, rfl⟩ := hc
  by_cases he : s' = s
  case pos =>
    subst he
    have hpos := hb.block.pos
    have hpos' := hc.block.pos
    exact .inl (by rw [(hb.eq_of_mem hc (Nat.le_refl _) (by omega) (Nat.le_refl _) (by omega)).2])
  case neg =>
    right
    rcases hb.disjoint hc he with hle | hle <;>
    · have := Nat.mul_le_mul_right PAGESIZE hle
      rw [Nat.add_mul] at this
      simp only [block]
      omega

def heap (p : LargeObjectPool) : Heap :=
  {b | p.Holds b}

theorem block_end : (p.block s l).base + (p.block s l).size = p.baseAddr + (s + l) * PAGESIZE := by
  rw [block, Nat.add_assoc, ← Nat.add_mul]

theorem block_outside {s' l' : Nat} (h : s' + l' ≤ s ∨ s + l ≤ s') :
    (p.block s' l').base + (p.block s' l').size ≤ p.baseAddr + s * PAGESIZE ∨
      p.baseAddr + s * PAGESIZE + l * PAGESIZE ≤ (p.block s' l').base := by
  have hmul := h.imp (Nat.mul_le_mul_right PAGESIZE) (Nat.mul_le_mul_right PAGESIZE)
  rw [block_end]
  simp only [Nat.add_mul, block] at hmul ⊢
  omega

theorem FreeRange.le_top (h : p.FreeRange s l) :
    p.baseAddr + s * PAGESIZE + l * PAGESIZE ≤ p.topAddr := by
  have hle := Nat.mul_le_mul_right PAGESIZE h.le
  rw [Nat.add_mul] at hle
  rw [topAddr]
  omega

-- A page of a well-formed pool is free, or in a block.
theorem Wf.page (h : p.Wf) (hi : i < p.npages) :
    p.tag i = .free ∨ ∃ s l, p.IsBlock s l ∧ s ≤ i ∧ i < s + l := by
  obtain ⟨s, l, hs, hl, _, hr, hpiece⟩ := h.tiles.locate (Nat.zero_le i) hi
  cases hpiece with
  | block block => exact .inr ⟨s, l, ⟨hr.le, block⟩, hs, hl⟩
  | free run => exact .inl (run.tag_eq hs hl)

-- The pages are free where the heap has room.
theorem Wf.freeRange_iff (h : p.Wf) (hl : 0 < l) :
    p.FreeRange s l ↔ p.heap.Room p.topAddr (p.baseAddr + s * PAGESIZE) (l * PAGESIZE) := by
  constructor
  · refine fun hf => ⟨hf.le_top, ?_⟩
    rintro b ⟨s', l', hb, rfl⟩
    refine block_outside ?_
    rcases hf.disjoint hb with h | h | h <;> omega
  · intro hr
    have hle : s + l ≤ p.npages := by
      have hle := hr.le
      rw [topAddr, Nat.add_assoc, ← Nat.add_mul] at hle
      exact Nat.le_of_mul_le_mul_right (Nat.le_of_add_le_add_left hle) (by decide)
    refine ⟨hle, fun i hi hi' => ?_⟩
    rcases h.page (i := i) (by omega) with hf | ⟨s', l', hb, hs, hlt⟩
    · exact hf
    · exfalso
      have hout := hr.clear _ ⟨s', l', hb, rfl⟩
      rw [block_end, Nat.add_assoc, ← Nat.add_mul] at hout
      simp only [block, PAGESIZE] at hout
      omega

-- The other blocks are outside of a block and the free pages behind it.
theorem IsBlock.outside {s' l' m : Nat} (hb : p.IsBlock s l) (hf : p.FreeRange (s + l) m)
    (hb' : p.IsBlock s' l') (hne : s' ≠ s) : s' + l' ≤ s ∨ s + l + m ≤ s' := by
  have hpos := hb'.block.pos
  rcases hb.disjoint hb' hne with h | h
  · exact .inl h
  · rcases hf.disjoint hb' with h' | h' | h'
    · omega
    · exact .inr h'
    · exact .inr (by omega)

theorem IsBlock.room {m : Nat} (hb : p.IsBlock s l) (hf : p.FreeRange (s + l) m) :
    p.heap.Room p.topAddr ((p.block s l).base + (p.block s l).size) (m * PAGESIZE) := by
  rw [block_end]
  refine ⟨hf.le_top, ?_⟩
  rintro b ⟨s', l', hb', rfl⟩
  refine block_outside ?_
  by_cases hne : s' = s
  case pos =>
    subst hne
    have hpos := hb.block.pos
    have hpos' := hb'.block.pos
    have := (hb.eq_of_mem hb' (Nat.le_refl _) (by omega) (Nat.le_refl _) (by omega)).2
    omega
  case neg =>
    have := hb.outside hf hb' hne
    omega

theorem Keeps.symm {lo hi : Nat} (h : Keeps p q lo hi) : Keeps q p lo hi where
  baseAddr := h.baseAddr.symm
  npages   := h.npages.symm
  tag i hl ho := (h.tag i (h.npages ▸ hl) ho).symm
  attrs i hl ho := (h.attrs i (h.npages ▸ hl) ho).symm
  off i hl ho hf := by
    have ht := h.tag i (h.npages ▸ hl) ho
    exact (h.off i (h.npages ▸ hl) ho (ht ▸ hf)).symm

theorem Keeps.holds {lo hi : Nat} (h : Keeps p q lo hi)
    (hp : ∀ s l, p.IsBlock s l → s ≠ lo → s + l ≤ lo ∨ hi ≤ s) {b : BlkInfo} (hb : p.Holds b)
    (hne : b.base ≠ p.baseAddr + lo * PAGESIZE) : q.Holds b := by
  obtain ⟨s, l, hb, rfl⟩ := hb
  have hle := hb.le
  have hpos := hb.block.pos
  have hd := hp s l hb fun he => hne (by rw [block, he])
  refine ⟨s, l, h.isBlock hb fun i _ _ => by omega, ?_⟩
  rw [block, block, h.baseAddr, h.attrs s (by omega) (by omega)]

-- Only the block at page `lo` is another one.
theorem Keeps.holds_iff {lo hi : Nat} (h : Keeps p q lo hi)
    (hp : ∀ s l, p.IsBlock s l → s ≠ lo → s + l ≤ lo ∨ hi ≤ s)
    (hq : ∀ s l, q.IsBlock s l → s ≠ lo → s + l ≤ lo ∨ hi ≤ s) {new : Option BlkInfo}
    (hnew : ∀ b, new = some b ↔ q.Holds b ∧ b.base = p.baseAddr + lo * PAGESIZE) (b : BlkInfo) :
    q.Holds b ↔ p.Holds b ∧ b.base ≠ p.baseAddr + lo * PAGESIZE ∨ new = some b := by
  rw [hnew]
  by_cases he : b.base = p.baseAddr + lo * PAGESIZE
  case pos => simp [he]
  case neg =>
    have hback : q.Holds b → p.Holds b := fun hb => h.symm.holds hq hb (h.baseAddr ▸ he)
    have hforth : p.Holds b → q.Holds b := fun hb => h.holds hp hb he
    simp only [he, ne_eq, not_false_eq_true, and_true, and_false, or_false]
    exact ⟨hback, hforth⟩

end Blocks

section Operations

-- The block at the address `a` is another one, or is not there any more.
structure Replaced (p q : LargeObjectPool) (a : Nat) (new : Option BlkInfo) : Prop where
  wf       : q.Wf
  plain    : q.Plain
  baseAddr : q.baseAddr = p.baseAddr
  npages   : q.npages = p.npages
  holds    : ∀ b, q.Holds b ↔ p.Holds b ∧ b.base ≠ a ∨ new = some b

theorem replaced_self (h : p.Wf) (hp : p.Plain) {a : Nat} (ha : ∀ b, p.Holds b → b.base ≠ a) :
    Replaced p p a none where
  wf       := h
  plain    := hp
  baseAddr := rfl
  npages   := rfl
  holds b  := by simpa using ha b

theorem lt_of_tag {t : Tag} (h : p.Tables) (ht : p.tag i = t) (hne : t ≠ .free) : i < p.npages := by
  by_contra hc
  rw [tag, List.getD_eq_getElem?_getD, List.getElem?_eq_none (by rw [h.pagetable]; omega)] at ht
  exact hne ht.symm

theorem Plain.mono (h : p.Plain) (hn : q.npages = p.npages) (ha : q.attrs = p.attrs)
    (ht : ∀ i, p.tag i = .head → q.tag i = .head) : q.Plain where
  length      := ha ▸ hn ▸ h.length
  clear i hi  := by
    rw [getBits, ha]
    exact h.clear i fun hc => hi (ht i hc)

-- The pages that come to a block are no first pages.
theorem Keeps.head {lo hi : Nat} (h : p.Wf) (hk : Keeps p q lo hi)
    (hh : ∀ i, lo ≤ i → i < hi → p.tag i = .head → q.tag i = .head) (i : Nat) (ht : p.tag i = .head) :
    q.tag i = .head := by
  have hlt := lt_of_tag h.tables ht Tag.noConfusion
  by_cases hin : lo ≤ i ∧ i < hi
  case pos => exact hh i hin.1 hin.2 ht
  case neg => exact (hk.tag i hlt (by omega)).trans ht

theorem Keeps.freepages_eq (h : p.Wf) (hq : q.Wf) (hk : Keeps p q 0 0) : q.freepages = p.freepages := by
  rw [h.counters.freepages, hq.counters.freepages, hk.npages]
  exact freeCount_congr fun i hi => hk.tag i hi (.inr (Nat.zero_le i))

-- The free pages before and after taking pages.
theorem Keeps.freepages_take {lo l : Nat} (h : p.Wf) (hq : q.Wf) (hk : Keeps p q lo (lo + l))
    (hf : p.FreeRange lo l) (ht : ∀ i, lo ≤ i → i < lo + l → q.tag i ≠ .free) :
    q.freepages + l = p.freepages := by
  rw [h.counters.freepages, hq.counters.freepages, hk.npages]
  exact freeCount_take hf.le hf.free ht hk.tag

-- Nothing but the bookkeeping has changed.
structure Same (p q : LargeObjectPool) : Prop where
  wf        : q.Wf
  plain     : q.Plain
  baseAddr  : q.baseAddr = p.baseAddr
  npages    : q.npages = p.npages
  freepages : q.freepages = p.freepages
  holds     : ∀ b, q.Holds b ↔ p.Holds b

-- A new block of `n` pages.
structure Taken (p q : LargeObjectPool) (n pageAlign a : Nat) : Prop where
  replaced  : Replaced p q a (some ⟨a, n * PAGESIZE, 0⟩)
  fresh     : ∀ b, p.Holds b → b.base ≠ a
  page      : ∃ i, i < p.npages ∧ a = p.baseAddr + i * PAGESIZE
  aligned   : pageAlign * PAGESIZE ∣ a
  freepages : q.freepages + n = p.freepages

inductive TakeSpec (p : LargeObjectPool) (n pageAlign : Nat) : Option Nat × LargeObjectPool → Prop
  | some {i : Nat} {q : LargeObjectPool} (place : Place p n pageAlign i)
    (taken : Taken p q n pageAlign (p.baseAddr + i * PAGESIZE)) : TakeSpec p n pageAlign (some i, q)
  | none {q : LargeObjectPool} (full : ∀ i, ¬Place p n pageAlign i) (same : Same p q) :
    TakeSpec p n pageAlign (none, q)

theorem Allocated.taken (h : p.Wf) (hp : p.Plain) (hn : 0 < n) (hi : Place p n pageAlign i)
    (ha : Allocated p q i n) (hattrs : q.attrs = p.attrs) :
    Taken p q n pageAlign (p.baseAddr + i * PAGESIZE) := by
  have hle := hi.range.le
  have hbits : q.getBits i = 0 := by
    rw [getBits, hattrs]
    refine hp.clear i fun hc => ?_
    rw [hi.range.free i (Nat.le_refl i) (by omega)] at hc
    cases hc
  have hblock : q.block i n = ⟨p.baseAddr + i * PAGESIZE, n * PAGESIZE, 0⟩ := by
    rw [LargeObjectPool.block, ha.keeps.baseAddr, hbits]
  have hout {s l : Nat} (hb : p.IsBlock s l) : s + l ≤ i ∨ i + n ≤ s := by
    rcases hi.range.disjoint hb with h | h | h <;> omega
  constructor
  case replaced =>
    refine ⟨ha.wf, ?_, ha.keeps.baseAddr, ha.keeps.npages, ?_⟩
    · refine hp.mono ha.keeps.npages hattrs (ha.keeps.head h fun j hj hj' ht => ?_)
      rw [hi.range.free j hj hj'] at ht
      cases ht
    · refine ha.keeps.holds_iff (fun s l hb _ => hout hb) (fun s l hb hne => ha.block.disjoint hb hne)
        fun b => ?_
      have hnew := ha.block.holds_iff (b := b)
      rw [ha.keeps.baseAddr, hblock] at hnew
      rw [hnew, Option.some.injEq, eq_comm]
  case fresh =>
    rintro b ⟨s, l, hb, rfl⟩ he
    have hpos := hb.block.pos
    have := page_inj he
    have := hout hb
    omega
  case page => exact ⟨i, by omega, rfl⟩
  case aligned =>
    obtain ⟨m, hm⟩ := Nat.dvd_of_mod_eq_zero h.aligned
    have hd := hi.aligned
    rw [hm, Nat.mul_div_cancel_left _ (by decide)] at hd
    rw [hm, Nat.mul_comm PAGESIZE, ← Nat.add_mul]
    exact Nat.mul_dvd_mul_right hd PAGESIZE
  case freepages =>
    exact ha.keeps.freepages_take h ha.wf hi.range fun j hj hj' => ha.block.block.ne_free hj hj'

theorem Wf.allocPages (h : p.Wf) (hp : p.Plain) {k : Nat} (hk : k < 64) (hn : 0 < n)
    (hn' : ∀ i, Place p n (2 ^ k) i → n ≤ 2 ^ 31) :
    ∃ r, p.allocPages n (2 ^ k) = .ok r ∧ TakeSpec p n (2 ^ k) r := by
  obtain ⟨r, hr, hs⟩ := allocPages_spec h hk hn hn'
  refine ⟨r, hr, ?_⟩
  have hattrs := allocPages_attrs.of_ok hr
  cases hs with
  | some place allocated => exact .some place (allocated.taken h hp hn place hattrs)
  | @none q full wf keeps =>
    refine .none full ⟨wf, ?_, keeps.baseAddr, keeps.npages, keeps.freepages_eq h wf, fun b => ?_⟩
    · exact hp.mono keeps.npages hattrs (keeps.head h fun i _ hi => absurd hi (Nat.not_lt_zero i))
    · constructor
      · rintro ⟨s, l, hb, rfl⟩
        have hle := hb.le
        have hpos := hb.block.pos
        refine ⟨s, l, keeps.symm.isBlock hb fun i _ _ => .inr (Nat.zero_le i), ?_⟩
        rw [block, block, keeps.baseAddr, getBits, getBits, hattrs]
      · rintro ⟨s, l, hb, rfl⟩
        refine ⟨s, l, keeps.isBlock hb fun i _ _ => .inr (Nat.zero_le i), ?_⟩
        rw [block, block, keeps.baseAddr, getBits, getBits, hattrs]

-- What freeing and resizing does to the block of `l` pages at `s`, with what is free before and after.
theorem Keeps.replaced {l' m m' : Nat} (h : p.Wf) (hp : p.Plain) (hq : q.Wf)
    (hk : Keeps p q s (s + max l l')) (hb : p.IsBlock s l) (hf : p.FreeRange (s + l) m)
    (hm : l + m = max l l') (hb' : q.IsBlock s l') (hf' : q.FreeRange (s + l') m')
    (hm' : l' + m' = max l l') (hlength : q.attrs.length = p.attrs.length)
    (hclear : ∀ i, i ≠ s → q.getBits i = p.getBits i) :
    Replaced p q (p.baseAddr + s * PAGESIZE) (some ⟨p.baseAddr + s * PAGESIZE, l' * PAGESIZE, q.getBits s⟩) := by
  refine ⟨hq, ⟨hlength.trans (hp.length.trans hk.npages.symm), fun i hi => ?_⟩, hk.baseAddr, hk.npages,
    hk.holds_iff (fun s' l'' hb'' hne => ?_) (fun s' l'' hb'' hne => ?_) fun b => ?_⟩
  · have hne : i ≠ s := by
      rintro rfl
      exact hi hb'.block.head
    rw [hclear i hne]
    refine hp.clear i fun ht => hi (hk.head h (fun j hj hj' ht => ?_) i ht)
    by_cases he : j = s
    case pos => exact he ▸ hb'.block.head
    case neg =>
      by_cases hjl : j < s + l
      case pos =>
        have hbody := (hb.block.body (j - s) (by omega) (by omega)).1
        rw [show s + (j - s) = j by omega, ht] at hbody
        cases hbody
      case neg =>
        rw [hf.free j (by omega) (by omega)] at ht
        cases ht
  · have := hb.outside hf hb'' hne
    omega
  · have := hb'.outside hf' hb'' hne
    omega
  · have hnew := hb'.holds_iff (b := b)
    rw [hk.baseAddr, block, hk.baseAddr] at hnew
    rw [hnew, Option.some.injEq, eq_comm]

theorem freeRange_zero (h : s ≤ p.npages) : p.FreeRange s 0 :=
  ⟨h, fun i _ _ => by omega⟩

theorem getBits_clrBits (i j : Nat) :
    (p.clrBits i (~~~BlkAttr.NONE)).getBits j = if j = i then 0 else p.getBits j := by
  by_cases he : j = i
  case pos =>
    subst he
    rw [if_pos rfl, getBits, clrBits, List.getD_eq_getElem?_getD, List.getElem?_modify_eq]
    cases p.attrs[j]? with
    | none => rfl
    | some a => simp [BlkAttr.NONE]
  case neg => rw [if_neg he, getBits_clrBits_ne he]

theorem Plain.free (hp : p.Plain) (h : p.Tables) (hb : p.IsBlock s l) (hk : Keeps p q s (s + l))
    (ha : q.attrs = (p.clrBits s (~~~BlkAttr.NONE)).attrs) : q.Plain := by
  have hbits (i : Nat) : q.getBits i = if i = s then 0 else p.getBits i := by
    rw [← getBits_clrBits, getBits, getBits, ha]
  constructor
  case length => rw [ha, clrBits, List.length_modify, hp.length, hk.npages]
  case clear =>
    intro i hi
    rw [hbits]
    by_cases hs : i = s
    case pos => rw [if_pos hs]
    case neg =>
      rw [if_neg hs]
      refine hp.clear i fun ht => hi ?_
      have hlt := lt_of_tag h ht Tag.noConfusion
      by_cases hout : i < s ∨ s + l ≤ i
      case pos => exact (hk.tag i hlt hout).trans ht
      case neg =>
        have hbody := (hb.block.body (i - s) (by omega) (by omega)).1
        rw [show s + (i - s) = i by omega, ht] at hbody
        cases hbody

theorem Wf.freeNoSync (h : p.Wf) (hp : p.Plain) (hc : p.contains ptr) :
    ∃ r q, p.freeNoSync ptr = .ok (r, q) ∧ Replaced p q ptr none ∧ p.freepages ≤ q.freepages ∧
      (r = true ↔ ∃ b, p.Holds b ∧ b.base = ptr) := by
  obtain ⟨⟨r, q⟩, hr, hs⟩ := freeNoSync_spec h hc
  refine ⟨r, q, hr, ?_⟩
  cases hs with
  | other hother =>
    have hnone : ∀ b, p.Holds b → b.base ≠ ptr := by
      rintro b ⟨s, l, hb, rfl⟩ he
      exact hother s l hb he.symm
    refine ⟨replaced_self h hp hnone, Nat.le_refl _, fun hc => absurd hc Bool.false_ne_true, ?_⟩
    rintro ⟨b, hb, he⟩
    exact absurd he (hnone b hb)
  | @freed s l _ hb hstart hfreed =>
    have hattrs := freeNoSync_attrs.of_ok hr rfl
    have hpos := hb.block.pos
    have hle := hb.le
    rw [(hb.start hstart).1] at hattrs
    obtain ⟨hwf, hfree, hk⟩ := hfreed
    subst hstart
    refine ⟨⟨hwf, hp.free h.tables hb hk hattrs, hk.baseAddr, hk.npages, ?_⟩, ?_, fun _ => ?_, fun _ => rfl⟩
    · refine hk.holds_iff (fun s' l' hb' hne => hb.disjoint hb' hne) (fun s' l' hb' _ => ?_) fun b => ?_
      · rcases hfree.disjoint hb' with h | h | h <;> omega
      · refine ⟨fun h => (Option.some_ne_none b h.symm).elim, ?_⟩
        rintro ⟨⟨s', l', hb', rfl⟩, he⟩
        have hpos' := hb'.block.pos
        simp only [block, hk.baseAddr] at he
        obtain rfl := page_inj he
        rcases hfree.disjoint hb' with h | h | h <;> omega
    · rw [h.counters.freepages, hwf.counters.freepages, hk.npages]
      have := @freeCount_take q.tag p.tag l s p.npages hle hfree.free
        (fun i hi hi' => hb.block.ne_free hi hi') fun i hi hi' => (hk.tag i hi hi').symm
      omega
    · exact ⟨p.block s l, ⟨s, l, hb, rfl⟩, rfl⟩

-- The block whose first page has the address `ptr` grows.
structure Grown (p q : LargeObjectPool) (ptr size grown : Nat) (b : BlkInfo) : Prop where
  held      : p.Holds b
  le        : b.base ≤ ptr
  lt        : ptr < b.base + PAGESIZE
  room      : p.heap.Room p.topAddr (b.base + b.size) (grown * PAGESIZE)
  grows     : size = b.size + grown * PAGESIZE
  replaced  : Replaced p q b.base (some { b with size := size })
  freepages : q.freepages + grown = p.freepages

inductive GrowSpec (p : LargeObjectPool) (ptr minsize maxsize : Nat) :
    Nat × Nat × LargeObjectPool → Prop
  | grown {size grown : Nat} {b : BlkInfo} {q : LargeObjectPool} (lower : numPages minsize ≤ grown)
    (upper : grown ≤ numPages maxsize) (spec : Grown p q ptr size grown b) :
    GrowSpec p ptr minsize maxsize (size, grown, q)
  | none (full : ∀ b, p.Holds b → b.base ≤ ptr → ptr < b.base + PAGESIZE →
      ¬p.heap.Room p.topAddr (b.base + b.size) (max 1 (numPages minsize) * PAGESIZE)) :
    GrowSpec p ptr minsize maxsize (0, 0, p)

-- The free pages before and after a block gets `m` pages.
theorem Keeps.freepages_grow {m : Nat} (h : p.Wf) (hq : q.Wf) (hk : Keeps p q s (s + (l + m)))
    (hb : p.IsBlock s l) (hf : p.FreeRange (s + l) m) (hb' : q.IsBlock s (l + m)) :
    q.freepages + m = p.freepages := by
  rw [h.counters.freepages, hq.counters.freepages, hk.npages]
  refine freeCount_take hf.le hf.free (fun i hi hi' => hb'.block.ne_free (by omega) (by omega))
    fun i hi hout => ?_
  by_cases hin : s ≤ i ∧ i < s + l
  case neg => exact hk.tag i hi (by omega)
  case pos =>
    by_cases he : i = s
    case pos => rw [he, hb.block.head, hb'.block.head]
    case neg =>
      have hbody := (hb.block.body (i - s) (by omega) (by omega)).1
      have hbody' := (hb'.block.body (i - s) (by omega) (by omega)).1
      rw [show s + (i - s) = i by omega] at hbody hbody'
      rw [hbody, hbody']

theorem Wf.extendNoSync (h : p.Wf) (hp : p.Plain) (hc : p.contains ptr) {minsize maxsize : Nat}
    (hm : minsize ≤ maxsize) :
    ∃ r, p.extendNoSync ptr minsize maxsize = .ok r ∧ GrowSpec p ptr minsize maxsize r := by
  obtain ⟨r, hr, hs⟩ := extendNoSync_spec h hc hm
  refine ⟨r, hr, ?_⟩
  have hattrs := extendNoSync_attrs.of_ok hr
  cases hs with
  | none full =>
    refine .none ?_
    rintro b ⟨s, l, hb, rfl⟩ hle hlt hroom
    refine full s l hb ?_ ((h.freeRange_iff (by omega)).mpr ?_)
    · simp only [block] at hle hlt
      rw [pagenumOf, Nat.div_eq_iff (by decide)]
      omega
    · rwa [block_end] at hroom
  | @grown s l sz q hb hpage hroom hlower hupper hres =>
    have hle := hb.le
    have hle' := hres.block.le
    have hbits : q.getBits = p.getBits := by
      funext i
      rw [getBits, getBits, hattrs]
    have hmax : max l (l + sz) = l + sz := by omega
    have hfree : q.FreeRange (s + (l + sz)) 0 := freeRange_zero hle'
    have hrep := hres.keeps.replaced h hp hres.wf hb hroom hmax.symm hres.block hfree (by omega)
      (congrArg List.length hattrs) fun i _ => congrFun hbits i
    have hkeeps := hres.keeps
    rw [hmax] at hkeeps
    refine .grown hlower hupper (b := p.block s l) ⟨⟨s, l, hb, rfl⟩, ?_, ?_, hb.room hroom, ?_, ?_, ?_⟩
    · have := of_decide_eq_true hc
      simp only [block, ← hpage, pagenumOf]
      have := Nat.div_mul_le_self (ptr - p.baseAddr) PAGESIZE
      omega
    · have := of_decide_eq_true hc
      simp only [block, ← hpage, pagenumOf]
      have := Nat.lt_div_mul_add (show 0 < PAGESIZE by decide) (a := ptr - p.baseAddr)
      omega
    · rw [block, Nat.add_mul]
    · rwa [hbits] at hrep
    · exact hkeeps.freepages_grow h hres.wf hb hroom hres.block

-- The pages that a block gives up are free.
theorem reallocNoSync_shrink (h : p.Wf) (hc : p.contains ptr) (hb : p.IsBlock s l)
    (hstart : ptr = p.baseAddr + s * PAGESIZE) {size : Nat} {bits : UInt32} (hlt : numPages size < l) :
    (p.reallocNoSync ptr size bits).Post (fun r => ∀ a b, r.1 = .inPlace a b →
      ∀ i, s + numPages size ≤ i → i < s + l → r.2.tag i = .free) fun _ => True := by
  have hpos := hb.block.pos
  have hle := hb.le
  have hpages : p.getPages ptr = .ok l := by
    rcases getPages_spec h hc with ⟨s', l', hb', hstart', _, hpages⟩ | ⟨_, hother⟩
    · obtain rfl := page_inj (hstart.symm.trans hstart')
      have hpos' := hb'.block.pos
      rwa [(hb.eq_of_mem hb' (Nat.le_refl _) (by omega) (Nat.le_refl _) (by omega)).2]
    · exact absurd hstart (hother s l hb)
  rw [reallocNoSync, hpages, (hb.start hstart).1]
  simp only [bind, Except.bind]
  rw [if_neg (by omega)]
  split
  · intro a b he
    cases he
  · have hfree := @Tables.freePages p h.tables (s + numPages size) (l - numPages size) (by omega)
      fun i hi hi' => hb.block.ne_free (by omega) (by omega)
    rw [if_neg (by omega), hfree]
    refine Except.Post.bind mergeFreePageOffsets_tables fun q hq =>
      Except.Post.bind setPageOffset_tables fun q' hq' a b _ i hi hi' => ?_
    have htag : q'.tag i = .free := by
      have htable := congrArg Prod.fst (hq'.trans hq)
      simp only [tables] at htable
      rw [tag, htable, ← tag, tag_withCounters, tag_fillBins (by rw [h.tables.pagetable]; omega),
        if_pos (by omega)]
    dsimp only
    split
    · exact htag
    · exact htag

-- What `reallocNoSync` does to a block that it keeps in place.
structure InPlace (p q : LargeObjectPool) (ptr size : Nat) (bits : UInt32) (grown : Nat) (b : BlkInfo) :
    Prop where
  held      : p.Holds b
  base      : b.base = ptr
  pages     : grown * PAGESIZE = numPages size * PAGESIZE - b.size
  room      : p.heap.Room p.topAddr (b.base + b.size) (grown * PAGESIZE)
  replaced  : Replaced p q ptr (some ⟨ptr, numPages size * PAGESIZE,
    if bits ≠ 0 then bits &&& BlkAttr.LARGE else b.attr⟩)
  freepages : p.freepages ≤ q.freepages + grown
  fits      : grown ≤ p.freepages

inductive ResizeSpec (p : LargeObjectPool) (ptr size : Nat) (bits : UInt32) :
    Realloc × LargeObjectPool → Prop
  | null (other : ∀ b, p.Holds b → b.base ≠ ptr) : ResizeSpec p ptr size bits (.null, p)
  | doMalloc {b : BlkInfo} (held : p.Holds b) (base : b.base = ptr)
    (move : size ≤ PAGESIZE / 2 ∨ b.size < numPages size * PAGESIZE ∧
      ¬p.heap.Room p.topAddr (b.base + b.size) (numPages size * PAGESIZE - b.size)) :
    ResizeSpec p ptr size bits (.doMalloc, p)
  | inPlace {grown : Nat} {b : BlkInfo} {q : LargeObjectPool} (large : PAGESIZE / 2 < size)
    (spec : InPlace p q ptr size bits grown b) :
    ResizeSpec p ptr size bits (.inPlace (numPages size * PAGESIZE) grown, q)

theorem getBits_setAttr {bits : UInt32} (hi : i < p.attrs.length) (j : Nat) :
    (p.setAttr i bits).getBits j =
      if j = i ∧ bits ≠ 0 then bits &&& BlkAttr.LARGE else p.getBits j := by
  rw [setAttr]
  by_cases hb : bits ≠ 0
  case neg => rw [if_neg hb, if_neg fun h => hb h.2]
  case pos =>
    rw [if_pos hb]
    by_cases he : j = i
    case pos =>
      subst he
      rw [if_pos ⟨rfl, hb⟩, getBits, setBits, clrBits, List.getD_eq_getElem?_getD,
        List.getElem?_modify_eq, List.getElem?_modify_eq, List.getElem?_eq_getElem hi]
      simp [BlkAttr.NONE]
    case neg =>
      rw [if_neg fun h => he h.1]
      simp [getBits, setBits, clrBits, List.getD_eq_getElem?_getD, Ne.symm he]

theorem Wf.reallocNoSync (h : p.Wf) (hp : p.Plain) (hc : p.contains ptr) {size : Nat} (bits : UInt32)
    (ho : ¬p.Overflows ptr size) :
    ∃ r, p.reallocNoSync ptr size bits = .ok r ∧ ResizeSpec p ptr size bits r := by
  obtain ⟨r, hr, hs⟩ := reallocNoSync_spec h hc bits ho
  refine ⟨r, hr, ?_⟩
  cases hs with
  | null hother =>
    refine .null ?_
    rintro b ⟨s, l, hb, rfl⟩ he
    exact hother s l hb he.symm
  | @doMalloc s l hb hstart hmove =>
    refine .doMalloc ⟨s, l, hb, rfl⟩ hstart.symm (hmove.imp_right ?_)
    rintro ⟨hlt, hfull⟩
    refine ⟨Nat.mul_lt_mul_of_pos_right hlt (by decide), fun hroom => hfull ?_⟩
    rw [block_end, block, ← Nat.sub_mul] at hroom
    exact (h.freeRange_iff (by omega)).mpr hroom
  | @inPlace s l q hb hstart hroom hres =>
    have hpos := hb.block.pos
    have hle := hb.le
    have hle' := hres.block.le
    have hpos' := hres.block.block.pos
    obtain ⟨hlarge, hattrs⟩ := reallocNoSync_attrs.of_ok hr _ _ rfl
    rw [(hb.start hstart).1] at hattrs
    have hbits (j : Nat) : q.getBits j =
        if j = s ∧ bits ≠ 0 then bits &&& BlkAttr.LARGE else p.getBits j := by
      rw [← getBits_setAttr (by rw [hp.length]; omega), getBits, getBits, hattrs]
    have hlength : q.attrs.length = p.attrs.length := by
      rw [hattrs, setAttr]
      split
      · rw [setBits, clrBits, List.length_modify, List.length_modify]
      · rfl
    have hshrink : q.FreeRange (s + numPages size) (l - numPages size) := by
      by_cases hlt : numPages size < l
      case pos =>
        have hfree := (reallocNoSync_shrink h hc hb hstart hlt).of_ok hr _ _ rfl
        exact ⟨by rw [hres.keeps.npages]; omega, fun i hi hi' => hfree i hi (by omega)⟩
      case neg =>
        rw [Nat.sub_eq_zero_of_le (by omega)]
        exact freeRange_zero hle'
    have hrep := hres.keeps.replaced h hp hres.wf hb hroom (by omega) hres.block hshrink (by omega)
      hlength fun i hi => by rw [hbits, if_neg fun h => hi h.1]
    rw [hbits, ← hstart] at hrep
    have hattr : (if s = s ∧ bits ≠ 0 then bits &&& BlkAttr.LARGE else p.getBits s) =
        if bits ≠ 0 then bits &&& BlkAttr.LARGE else p.getBits s := by simp
    rw [hattr] at hrep
    refine .inPlace hlarge (b := p.block s l)
      ⟨⟨s, l, hb, rfl⟩, hstart.symm, Nat.sub_mul .., hb.room hroom, hrep, ?_, ?_⟩
    · have hk := hres.keeps
      by_cases hlt : numPages size < l
      case pos =>
        rw [Nat.max_eq_left (by omega), show l = numPages size + (l - numPages size) by omega] at hk
        rw [show l = numPages size + (l - numPages size) by omega] at hb
        have := hk.symm.freepages_grow hres.wf h hres.block hshrink hb
        omega
      case neg =>
        rw [Nat.max_eq_right (by omega), show numPages size = l + (numPages size - l) by omega] at hk
        have hblock := hres.block
        rw [show numPages size = l + (numPages size - l) by omega] at hblock
        have := hk.freepages_grow h hres.wf hb hroom hblock
        omega
    · rw [h.counters.freepages]
      exact le_freeCount hroom.le hroom.free

-- More attributes for a block.
theorem Wf.setBits (h : p.Wf) (hp : p.Plain) (hb : p.IsBlock s l) (bits : UInt32) :
    Replaced p (p.setBits s bits) (p.baseAddr + s * PAGESIZE)
      (some ⟨p.baseAddr + s * PAGESIZE, l * PAGESIZE, p.getBits s ||| (bits &&& BlkAttr.LARGE)⟩) := by
  have hpos := hb.block.pos
  have hle := hb.le
  have hlt : s < p.attrs.length := by
    rw [hp.length]
    omega
  have hbits (i : Nat) (hi : i ≠ s) : (p.setBits s bits).getBits i = p.getBits i := by
    simp [getBits, LargeObjectPool.setBits, List.getD_eq_getElem?_getD, Ne.symm hi]
  have hself : (p.setBits s bits).getBits s = p.getBits s ||| (bits &&& BlkAttr.LARGE) := by
    simp [getBits, LargeObjectPool.setBits, List.getD_eq_getElem?_getD, List.getElem?_eq_getElem hlt]
  have hk : Keeps p (p.setBits s bits) s (s + max l l) := {
    baseAddr := rfl
    npages := rfl
    tag := fun _ _ _ => rfl
    off := fun _ _ _ _ => rfl
    attrs := fun i _ hi => hbits i (by omega) }
  have hwf : (p.setBits s bits).Wf :=
    h.congr rfl rfl rfl rfl (h.counters.congr rfl (fun _ _ => rfl) rfl rfl rfl)
  have hb' : (p.setBits s bits).IsBlock s l := ⟨hb.le, hb.block⟩
  have hrep := hk.replaced h hp hwf hb (freeRange_zero hle) (Nat.max_self l).symm hb' (freeRange_zero hle)
    (Nat.max_self l).symm (List.length_modify ..) hbits
  rwa [hself] at hrep

theorem fresh_plain {baseAddr npages : Nat} {memory : List UInt32} :
    (fresh baseAddr npages memory).Plain where
  length    := List.length_replicate
  clear i _ := by
    rw [getBits, fresh, List.getD_eq_getElem?_getD, List.getElem?_replicate]
    split <;> rfl

theorem fresh_holds {baseAddr npages : Nat} {memory : List UInt32} (b : BlkInfo) :
    ¬(fresh baseAddr npages memory).Holds b := by
  rintro ⟨s, l, hb, _⟩
  have ht := hb.block.head
  rw [fresh_tag] at ht
  cases ht

end Operations

section Sweep

variable {mark : Nat → Bool} {freed fuel numFree pn : Nat}

theorem sweepBlock_attrs :
    (p.sweepBlock pn l).Post (fun q => q.attrs = (p.clrBits pn (~~~BlkAttr.NONE)).attrs) fun _ => True := by
  rw [sweepBlock]
  refine Except.Post.bind memset_attrs fun q hq => ?_
  dsimp only
  split
  · exact hq
  · exact hq

theorem markFree_tables : Unchanged tables p (p.markFree pn numFree) := by
  rw [markFree]
  split
  · exact setFreePageOffsets_tables
  · exact unchanged_self

theorem Plain.of_tables (h : p.Plain) (hn : q.npages = p.npages) (ht : q.tables = p.tables) : q.Plain := by
  refine h.mono hn (congrArg Prod.snd ht) fun i hi => ?_
  have htable := congrArg Prod.fst ht
  simp only [tables] at htable
  rwa [tag, htable]

theorem sweepLoop_plain (h : SweepState p pn numFree) (hp : p.Plain) (hfuel : p.npages - pn < fuel)
    (freed : Nat) : (p.sweepLoop mark fuel pn numFree freed).Post (fun r => r.2.Plain) fun _ => True := by
  induction fuel generalizing p pn numFree freed with
  | zero => omega
  | succ fuel hi =>
    rw [sweepLoop]
    by_cases hlt : pn < p.npages
    case neg =>
      have he : pn = p.npages := Nat.le_antisymm h.rest.le (by omega)
      subst he
      obtain ⟨q, hq, _, hk, _⟩ := h.finish
      rw [if_neg hlt, hq]
      exact hp.of_tables hk.npages (markFree_tables.eq hq)
    case pos =>
      rw [if_pos hlt, h.tables.pageOffset hlt, h.tables.bin hlt]
      simp only [bind, Except.bind]
      cases ht : p.tag pn with
      | body => exact absurd ht (h.rest.tag_ne_body hlt)
      | free =>
        obtain ⟨run, _, _, rest⟩ := h.rest.of_free_left (Nat.le_refl pn) hlt ht fun hc =>
          absurd hc (Nat.lt_irrefl pn)
        have hpos := run.pos
        exact hi (h.skipFree run rest) hp (by omega) freed
      | head =>
        obtain ⟨block, _, rest⟩ := h.rest.of_head (Nat.le_refl pn) hlt ht
        have hle := rest.le
        have hpos := block.pos
        cases hm : mark pn with
        | false =>
          obtain ⟨q, hq, hs, hk, _, _⟩ := h.sweepBlock block rest
          simp only [Bins.ofTag, hq]
          refine hi hs (hp.free h.tables ⟨hle, block⟩ hk (sweepBlock_attrs.of_ok hq)) ?_ _
          rw [hk.npages]
          omega
        | true =>
          obtain ⟨q, hq, hs, hk, _⟩ := h.keepBlock block hle
          simp only [Bins.ofTag, hq]
          refine hi hs (hp.of_tables hk.npages (markFree_tables.eq hq)) ?_ _
          rw [hk.npages]
          omega

theorem Wf.sweepState (h : p.Wf) : SweepState p 0 0 where
  tables        := h.tables
  counters      := h.counters
  aligned       := h.aligned
  top_le        := h.top_le
  le            := Nat.le_refl 0
  before        := .done 0
  left h0       := absurd h0 (Nat.lt_irrefl 0)
  free i _ hi   := absurd hi (Nat.not_lt_zero i)
  rest          := h.tiles

-- The pool after a sweep that frees `freed` pages has the marked blocks.
structure Collected (p q : LargeObjectPool) (marks : Nat → Bool) (freed : Nat) : Prop where
  wf        : q.Wf
  plain     : q.Plain
  baseAddr  : q.baseAddr = p.baseAddr
  npages    : q.npages = p.npages
  freepages : q.freepages = p.freepages + freed
  garbage   : (p.heap.garbage p.baseAddr marks).ncard = freed
  holds     : ∀ b, q.Holds b ↔ p.Holds b ∧ marks b.base = true

theorem Swept.garbage {marks : Nat → Bool}
    (hs : Swept (fun i => marks (p.baseAddr + i * PAGESIZE)) p q 0 freed) (h : p.Wf) :
    (p.heap.garbage p.baseAddr marks).ncard = freed := by
  have hn := hs.npages
  have hcount := hs.counted
  rw [hs.wf.counters.freepages, h.counters.freepages, hn, freeCount, freeCount,
    Nat.count_eq_card_filter_range, Nat.count_eq_card_filter_range] at hcount
  -- the pages that are free now and were not
  have hset : p.heap.garbage p.baseAddr marks =
      ↑((Finset.range p.npages).filter (fun i => q.tag i = .free) \
        (Finset.range p.npages).filter fun i => p.tag i = .free) := by
    ext i
    simp only [Finset.coe_sdiff, Set.mem_sdiff, Finset.mem_coe, Finset.mem_filter, Finset.mem_range]
    constructor
    · rintro ⟨b, ⟨s, l, hb, rfl⟩, hm, hle, hlt⟩
      rw [block_end] at hlt
      simp only [block] at hm hle
      replace hle : s ≤ i := Nat.le_of_mul_le_mul_right (Nat.le_of_add_le_add_left hle) (by decide)
      replace hlt : i < s + l := Nat.lt_of_mul_lt_mul_right (Nat.lt_of_add_lt_add_left hlt)
      have hbound := hb.le
      exact ⟨⟨by omega, (hs.unmarked s l (Nat.zero_le s) hm hb).free i hle hlt⟩,
        fun hf => hb.block.ne_free hle hlt hf.2⟩
    · rintro ⟨⟨hi, hfree⟩, hused⟩
      rcases h.page hi with hf | ⟨s, l, hb, hle, hlt⟩
      · exact absurd ⟨hi, hf⟩ hused
      · refine ⟨p.block s l, ⟨s, l, hb, rfl⟩, ?_, ?_, ?_⟩
        · by_contra hm
          obtain ⟨hb', _⟩ := hs.marked s l (.inr (Bool.of_not_eq_false hm)) hb
          exact hb'.block.ne_free hle hlt hfree
        · exact Nat.add_le_add_left (Nat.mul_le_mul_right PAGESIZE hle) p.baseAddr
        · rw [block_end]
          exact Nat.add_lt_add_left (Nat.mul_lt_mul_of_pos_right hlt (by decide)) p.baseAddr
  have hsub : (Finset.range p.npages).filter (fun i => p.tag i = .free) ⊆
      (Finset.range p.npages).filter fun i => q.tag i = .free := by
    refine fun i hi => ?_
    rw [Finset.mem_filter, Finset.mem_range] at hi ⊢
    exact ⟨hi.1, hs.free i hi.1 hi.2⟩
  rw [hset, Set.ncard_coe_finset, Finset.card_sdiff_of_subset hsub, hcount, Nat.add_sub_cancel_left]

theorem Wf.sweep (h : p.Wf) (hp : p.Plain) (marks : Nat → Bool) :
    ∃ freed q, p.sweep (fun i => marks (p.baseAddr + i * PAGESIZE)) = .ok (freed, q) ∧
      Collected p q marks freed := by
  obtain ⟨freed, q, hq, hs⟩ := sweep_spec h fun i => marks (p.baseAddr + i * PAGESIZE)
  have hplain := (sweepLoop_plain h.sweepState hp (by omega) 0).of_ok hq
  refine ⟨freed, q, hq, hs.wf, hplain, hs.baseAddr, hs.npages, hs.counted, hs.garbage h, fun b => ?_⟩
  constructor
  · rintro ⟨s, l, hb, rfl⟩
    have hle := hb.le
    have hpos := hb.block.pos
    have hn := hs.npages
    rcases h.page (i := s) (by omega) with hf | ⟨s', l', hb', hs', hl'⟩
    · have hfree := hs.free s (by omega) hf
      rw [hb.block.head] at hfree
      cases hfree
    · cases hm : marks (p.baseAddr + s' * PAGESIZE) with
      | false =>
        have hfree := (hs.unmarked s' l' (Nat.zero_le s') hm hb').free s hs' hl'
        rw [hb.block.head] at hfree
        cases hfree
      | true =>
        obtain ⟨hb'', ha⟩ := hs.marked s' l' (.inr hm) hb'
        obtain ⟨rfl, rfl⟩ := hb.eq_of_mem hb'' (Nat.le_refl s) (by omega) hs' hl'
        refine ⟨⟨s, l, hb', ?_⟩, ?_⟩
        · rw [block, block, ha, hs.baseAddr]
        · rw [block, hs.baseAddr]
          exact hm
  · rintro ⟨⟨s, l, hb, rfl⟩, hm⟩
    obtain ⟨hb', ha⟩ := hs.marked s l (.inr hm) hb
    refine ⟨s, l, hb', ?_⟩
    rw [block, block, ha, hs.baseAddr]

end Sweep

section Lookup

-- What `findBase` and `getInfo` tell about an address: the block that it lies in.
structure Found (p : LargeObjectPool) (ptr : Nat) (r : Option BlkInfo) : Prop where
  findBase : p.findBase ptr = .ok (r.map BlkInfo.base)
  getInfo  : p.getInfo ptr = .ok (r.getD .init)
  iff      : ∀ b, r = some b ↔ p.Holds b ∧ b.base ≤ ptr ∧ ptr < b.base + b.size

theorem mem_block (hc : p.contains ptr) : (p.block s l).base ≤ ptr ∧
    ptr < (p.block s l).base + (p.block s l).size ↔ s ≤ p.pagenumOf ptr ∧ p.pagenumOf ptr < s + l := by
  obtain ⟨hle, _⟩ := of_decide_eq_true hc
  simp only [block, pagenumOf]
  rw [Nat.le_div_iff_mul_le (by decide), Nat.div_lt_iff_lt_mul (by decide), Nat.add_mul]
  omega

theorem Wf.found (h : p.Wf) (hc : p.contains ptr) : ∃ r, p.Found ptr r := by
  have hl := lookup h hc
  rcases h.page (pagenumOf_lt hc) with hf | ⟨s, l, hb, hs, hlt⟩
  · obtain ⟨hbase, hinfo⟩ := hl.free hf
    refine ⟨none, hbase, hinfo, fun b => ⟨fun h => (Option.some_ne_none b h.symm).elim, ?_⟩⟩
    rintro ⟨⟨s, l, hb, rfl⟩, hmem⟩
    obtain ⟨hs, hlt⟩ := (mem_block hc).mp hmem
    exact absurd hf (hb.block.ne_free hs hlt)
  · obtain ⟨hbase, hinfo⟩ := hl.block s l hb hs hlt
    refine ⟨some (p.block s l), hbase, hinfo, fun b => ⟨?_, ?_⟩⟩
    · intro he
      obtain rfl := Option.some.inj he
      exact ⟨⟨s, l, hb, rfl⟩, (mem_block hc).mpr ⟨hs, hlt⟩⟩
    · rintro ⟨⟨s', l', hb', rfl⟩, hmem⟩
      obtain ⟨hs', hlt'⟩ := (mem_block hc).mp hmem
      obtain ⟨rfl, rfl⟩ := hb.eq_of_mem hb' hs hlt hs' hlt'
      rfl

end Lookup
end Runtime.GC.LargeObjectPool
