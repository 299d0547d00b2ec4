import DmdModel.Runtime.GC.Gcx
import DmdModel.Runtime.GC.Theorems.LargeBlocks
import DmdModel.Runtime.GC.Theorems.SmallSweep

open BoundaryTags

namespace Runtime.GC

-- A page that is not free.
theorem freeCount_lt {tag : Nat → Tag} {i n : Nat} (hi : i < n) (ht : tag i ≠ .free) :
    freeCount tag n < n := by
  have htake := @freeCount_take (Function.update tag i .free) tag 1 i n hi
    (fun j hj hj' => by rw [show j = i by omega, Function.update_self])
    (fun j hj hj' => by rwa [show j = i by omega])
    fun j _ hj => (Function.update_of_ne (by omega) _ _).symm
  have hle : freeCount (Function.update tag i .free) n ≤ n := Nat.count_le _
  omega

namespace SmallObjectPool

variable {p q : SmallObjectPool} {bin bin' : Fin B_NUMSMALL} {a pn u : Nat} {attr : UInt32} {free : Bool}

theorem holds_bounds {b : BlkInfo} (hb : p.Holds b) :
    p.baseAddr ≤ b.base ∧ b.base + b.size ≤ p.topAddr ∧ 0 < b.size := by
  obtain ⟨pn, bin, u, hs, _, rfl⟩ := hb
  have hle := slot_le hs.offset
  have hpn := Nat.mul_le_mul_right PAGESIZE (Nat.succ_le_of_lt hs.page)
  rw [Nat.succ_mul] at hpn
  simp only [block, topAddr]
  exact ⟨by omega, by omega, binsize_pos bin⟩

theorem slot_in (hs : p.IsSlot pn bin u) :
    p.baseAddr ≤ p.baseAddr + pn * PAGESIZE + u ∧ p.baseAddr + pn * PAGESIZE + u < p.topAddr := by
  have hle := slot_lt hs.offset
  have hpn := Nat.mul_le_mul_right PAGESIZE (Nat.succ_le_of_lt hs.page)
  rw [Nat.succ_mul] at hpn
  rw [topAddr]
  omega

theorem holds_disjoint {b c : BlkInfo} (hb : p.Holds b) (hc : p.Holds c) :
    b = c ∨ b.base + b.size ≤ c.base ∨ c.base + c.size ≤ b.base := by
  obtain ⟨pn, bin, u, hs, hf, rfl⟩ := hb
  obtain ⟨pn', bin', u', hs', hf', rfl⟩ := hc
  have hle := slot_le hs.offset
  have hle' := slot_le hs'.offset
  by_cases hpn : pn = pn'
  case pos =>
    subst hpn
    obtain rfl := hs.eq_bin hs'
    rcases Nat.lt_trichotomy u u' with hlt | rfl | hlt
    · have := slot_disjoint hs.offset hs'.offset hlt
      simp only [block]
      omega
    · exact .inl rfl
    · have := slot_disjoint hs'.offset hs.offset hlt
      simp only [block]
      omega
  case neg =>
    simp only [block, PAGESIZE] at *
    omega

-- A free slot of bin's in a page that is recovered, by its address.
def Ready (p : SmallObjectPool) (bin : Fin B_NUMSMALL) (a : Nat) : Prop :=
  ∃ pn u, p.IsSlot pn bin u ∧ p.Recovered pn ∧ p.freebits (slotBit pn u) = true ∧
    a = p.baseAddr + pn * PAGESIZE + u

def Waiting (p : SmallObjectPool) (bin : Fin B_NUMSMALL) : Prop :=
  (p.recoverPageFirst bin).toNat < p.npages

theorem fresh_holds {baseAddr npages : Nat} (b : BlkInfo) : ¬(fresh baseAddr npages).Holds b := by
  rintro ⟨pn, bin, u, hs, _⟩
  cases hs.small

theorem fresh_ready {baseAddr npages : Nat} : ¬(fresh baseAddr npages).Ready bin a := by
  rintro ⟨pn, u, hs, _⟩
  cases hs.small

theorem fresh_waiting {baseAddr npages : Nat} (hn : npages < 2 ^ 32 - 1) :
    ¬(fresh baseAddr npages).Waiting bin := by
  simp only [Waiting, fresh, Nat.not_lt]
  simp
  omega

-- What is at an address of the pool's: a free page, the middle of a slot, or the beginning of one.
inductive Spot (p : SmallObjectPool) (ptr : Nat) : Prop
  | free (page : p.pagetable (p.pagenumOf ptr) = .B_FREE) (other : ¬∃ b, p.Holds b ∧ b.base = ptr)
  | interior {bin : Fin B_NUMSMALL} (page : p.pagetable (p.pagenumOf ptr) = .B_SMALL bin)
    (offset : ptr - p.baseAddr ≠ baseOffset (ptr - p.baseAddr) bin)
    (other : ¬∃ b, p.Holds b ∧ b.base = ptr)
  | slot {bin : Fin B_NUMSMALL} {pn u : Nat} (page : p.pagenumOf ptr = pn) (slot : p.IsSlot pn bin u)
    (addr : ptr = p.baseAddr + pn * PAGESIZE + u)
    (offset : ptr - p.baseAddr = baseOffset (ptr - p.baseAddr) bin)
    (bit : (ptr - p.baseAddr) / 16 = slotBit pn u)

theorem Wf.spot (h : p.Wf) {ptr : Nat} (hle : p.baseAddr ≤ ptr) (hlt : ptr < p.topAddr) : p.Spot ptr := by
  obtain ⟨pn, hpn, off, hoff, hptr⟩ := exists_offset hle hlt
  have hpage : p.pagenumOf ptr = pn := hptr ▸ pagenumOf_eq hoff
  rcases h.kind pn hpn with hfree | ⟨bin, hsmall⟩
  · refine .free (hpage ▸ hfree) ?_
    rintro ⟨b, ⟨pn', bin', u, hs, _, rfl⟩, he⟩
    have hpage' := @pagenumOf_eq p pn' u (slot_lt hs.offset)
    rw [← hpage, ← he, block, hpage', hs.small] at hfree
    cases hfree
  · rcases slot_or_interior hle hlt (hpage.symm ▸ hsmall) with ⟨u, hs, ha⟩ | ⟨ho, hn⟩
    · rw [hpage] at hs ha
      refine .slot hpage hs ha ?_ ?_
      · rw [ha, Nat.add_assoc, Nat.add_sub_cancel_left, baseOffset_slot hs.offset]
      · rw [ha, slotBit_eq]
    · refine .interior (hpage ▸ hsmall) ho ?_
      rintro ⟨b, hb, he⟩
      exact hn b hb he

section Taken

theorem taken_waiting : (p.taken bin).Waiting bin' ↔ p.Waiting bin' :=
  .rfl

theorem Wf.searchStart_free (h : p.Wf) (hlt : p.searchStart < p.npages) :
    p.pagetable p.searchStart = .B_FREE :=
  (h.taken hlt ⟨0, by decide⟩).1

theorem IsSlot.ne_searchStart (hs : p.IsSlot pn bin u) (h : p.pagetable p.searchStart = .B_FREE) :
    pn ≠ p.searchStart := by
  rintro rfl
  rw [hs.small] at h
  cases h

theorem taken_isSlot_self (hlt : p.searchStart < p.npages) :
    (p.taken bin).IsSlot p.searchStart bin' u ↔ bin' = bin ∧ u ∈ slotOffsets bin := by
  have hself : (p.taken bin).pagetable p.searchStart = .B_SMALL bin := Function.update_self _ _ _
  constructor
  · intro h
    obtain rfl := Bins.B_SMALL.inj (h.small.symm.trans hself)
    exact ⟨rfl, h.offset⟩
  · rintro ⟨rfl, hu⟩
    exact ⟨hlt, hself, hu⟩

theorem Wf.taken_holds (h : p.Wf) (hlt : p.searchStart < p.npages) {b : BlkInfo} :
    (p.taken bin).Holds b ↔ p.Holds b := by
  have hfree := h.searchStart_free hlt
  constructor
  · rintro ⟨pn, bin', u, hs, hf, rfl⟩
    by_cases hne : pn = p.searchStart
    case pos =>
      subst hne
      exact absurd (hf.symm.trans (h.freebits_of_free hfree hs.offset)) Bool.false_ne_true
    case neg => exact ⟨pn, bin', u, (taken_isSlot_of_ne hne).mp hs, hf, rfl⟩
  · rintro ⟨pn, bin', u, hs, hf, rfl⟩
    exact ⟨pn, bin', u, (taken_isSlot_of_ne (hs.ne_searchStart hfree)).mpr hs, hf, rfl⟩

theorem Wf.taken_ready (h : p.Wf) (hlt : p.searchStart < p.npages) :
    (p.taken bin).Ready bin' a ↔ p.Ready bin' a ∨
      bin' = bin ∧ ∃ u ∈ slotOffsets bin, a = p.baseAddr + p.searchStart * PAGESIZE + u := by
  have hfree := h.searchStart_free hlt
  constructor
  · rintro ⟨pn, u, hs, hr, hf, rfl⟩
    by_cases hne : pn = p.searchStart
    case pos =>
      subst hne
      obtain ⟨rfl, hu⟩ := (taken_isSlot_self hlt).mp hs
      exact .inr ⟨rfl, u, hu, rfl⟩
    case neg =>
      exact .inl ⟨pn, u, (taken_isSlot_of_ne hne).mp hs, (taken_recovered_of_ne hne).mp hr, hf, rfl⟩
  · rintro (⟨pn, u, hs, hr, hf, rfl⟩ | ⟨rfl, u, hu, rfl⟩)
    · have hne := hs.ne_searchStart hfree
      exact ⟨pn, u, (taken_isSlot_of_ne hne).mpr hs, (taken_recovered_of_ne hne).mpr hr, hf, rfl⟩
    · exact ⟨_, u, (taken_isSlot_self hlt).mpr ⟨rfl, hu⟩, p.taken_recovered bin',
        h.freebits_of_free hfree hu, rfl⟩

end Taken

theorem setSlot_ready (hs : p.IsSlot pn bin u) : (p.setSlot (slotBit pn u) free attr).Ready bin' a ↔
    p.Ready bin' a ∧ a ≠ p.baseAddr + pn * PAGESIZE + u ∨
      free = true ∧ bin' = bin ∧ p.Recovered pn ∧ a = p.baseAddr + pn * PAGESIZE + u := by
  have hne {pn' bin' u'} (hs' : p.IsSlot pn' bin' u') (he : ¬(pn' = pn ∧ u' = u)) :
      slotBit pn' u' ≠ slotBit pn u :=
    fun hb => he (slotBit_inj hs'.offset hs.offset hb)
  constructor
  · rintro ⟨pn', u', hs', hr, hf, rfl⟩
    replace hs' : p.IsSlot pn' bin' u' := ⟨hs'.page, hs'.small, hs'.offset⟩
    by_cases he : pn' = pn ∧ u' = u
    case pos =>
      obtain ⟨rfl, rfl⟩ := he
      rw [setSlot_freebits, Function.update_self] at hf
      exact .inr ⟨hf, hs'.eq_bin hs, hr, rfl⟩
    case neg =>
      rw [setSlot_freebits, Function.update_of_ne (hne hs' he)] at hf
      exact .inl ⟨⟨pn', u', hs', hr, hf, rfl⟩, fun hb => he (slot_base_inj hs'.offset hs.offset hb)⟩
  · rintro (⟨⟨pn', u', hs', hr, hf, rfl⟩, hb⟩ | ⟨rfl, rfl, hr, rfl⟩)
    · have he : ¬(pn' = pn ∧ u' = u) := by
        rintro ⟨rfl, rfl⟩
        exact hb rfl
      refine ⟨pn', u', ⟨hs'.page, hs'.small, hs'.offset⟩, hr, ?_, rfl⟩
      rw [setSlot_freebits, Function.update_of_ne (hne hs' he)]
      exact hf
    · exact ⟨pn, u, ⟨hs.page, hs.small, hs.offset⟩, hr, by simp [setSlot], rfl⟩

@[simp]
theorem popRecover_freebits : (p.popRecover bin).freebits = p.freebits :=
  rfl

theorem popRecover_ready : (p.popRecover bin).Ready bin' a ↔ p.Ready bin' a ∨
    ∃ u, p.IsSlot (p.recoverPageFirst bin).toNat bin' u ∧
      p.freebits (slotBit (p.recoverPageFirst bin).toNat u) = true ∧
        a = p.baseAddr + (p.recoverPageFirst bin).toNat * PAGESIZE + u := by
  constructor
  · rintro ⟨pn, u, hs, hr, hf, rfl⟩
    replace hs : p.IsSlot pn bin' u := ⟨hs.page, hs.small, hs.offset⟩
    rcases popRecover_recovered.mp hr with rfl | hr
    · exact .inr ⟨u, hs, hf, rfl⟩
    · exact .inl ⟨pn, u, hs, hr, hf, rfl⟩
  · rintro (⟨pn, u, hs, hr, hf, rfl⟩ | ⟨u, hs, hf, rfl⟩)
    · exact ⟨pn, u, ⟨hs.page, hs.small, hs.offset⟩, popRecover_recovered.mpr (.inr hr), hf, rfl⟩
    · exact ⟨_, u, ⟨hs.page, hs.small, hs.offset⟩, popRecover_recovered.mpr (.inl rfl), hf, rfl⟩

theorem Swept.ready {mark : Nat → Bool} {freed : Nat} (h : Swept mark p q freed) : ¬q.Ready bin a := by
  rintro ⟨pn, u, hs, hr, hf, _⟩
  have hfull := h.full pn (h.npages ▸ hs.page) bin hs.small hr u hs.offset
  exact absurd (hf.symm.trans hfull) Bool.true_eq_false_eq_False

-- A page of the bin's is not free.
theorem Wf.freepages_lt (h : p.Wf) (hpn : pn < p.npages) (hs : p.pagetable pn = .B_SMALL bin) :
    p.freepages < p.npages := by
  rw [h.freepages]
  refine freeCount_lt hpn fun ht => ?_
  rw [tag_eq_free.mp ht] at hs
  cases hs

end SmallObjectPool

namespace Pool

variable {p q : Pool} {b c : BlkInfo} {bin : Fin B_NUMSMALL} {a ptr : Nat} {new : Option BlkInfo}

def Valid : Pool → Prop
  | large p => p.Wf ∧ p.Plain
  | small p => p.Wf

structure Wf (p : Pool) : Prop where
  valid    : p.Valid
  npages   : 0 < p.npages
  baseAddr : 0 < p.baseAddr

-- The blocks that are allocated in the pool.
def Holds : Pool → BlkInfo → Prop
  | large p => p.Holds
  | small p => p.Holds

-- The free slots that belong to a bucket list.
def Ready : Pool → Fin B_NUMSMALL → Nat → Prop
  | large _ => fun _ _ => False
  | small p => p.Ready

def Waiting : Pool → Fin B_NUMSMALL → Prop
  | large _ => fun _ => False
  | small p => p.Waiting

theorem topAddr_eq (p : Pool) : p.topAddr = p.baseAddr + p.npages * PAGESIZE := by
  cases p <;> rfl

theorem Wf.aligned (h : p.Wf) : p.baseAddr % PAGESIZE = 0 := by
  have hv := h.valid
  cases p with
  | large p => exact hv.1.aligned
  | small p => exact SmallObjectPool.Built.aligned hv

theorem Wf.top_le (h : p.Wf) : p.topAddr ≤ 2 ^ 64 := by
  have hv := h.valid
  cases p with
  | large p => exact hv.1.top_le
  | small p => exact SmallObjectPool.Built.top_le hv

theorem Wf.base_lt_top (h : p.Wf) : p.baseAddr < p.topAddr := by
  have := h.npages
  rw [topAddr_eq, PAGESIZE]
  omega

theorem Wf.freepages_le (h : p.Wf) : p.freepages ≤ p.npages := by
  have hv := h.valid
  have hcount (tag : Nat → Tag) (n : Nat) : freeCount tag n ≤ n := Nat.count_le _
  cases p with
  | large p => exact Nat.le_trans (Nat.le_of_eq hv.1.counters.freepages) (hcount _ _)
  | small p => exact Nat.le_trans (Nat.le_of_eq (SmallObjectPool.Built.freepages hv)) (hcount _ _)

theorem holds_bounds (hb : p.Holds b) :
    p.baseAddr ≤ b.base ∧ b.base + b.size ≤ p.topAddr ∧ 0 < b.size := by
  cases p with
  | large p => exact LargeObjectPool.holds_bounds hb
  | small p => exact SmallObjectPool.holds_bounds hb

theorem holds_disjoint (hb : p.Holds b) (hc : p.Holds c) :
    b = c ∨ b.base + b.size ≤ c.base ∨ c.base + c.size ≤ b.base := by
  cases p with
  | large p => exact LargeObjectPool.holds_disjoint hb hc
  | small p => exact SmallObjectPool.holds_disjoint hb hc

-- A pool with a block or a slot is not free.
theorem Valid.not_isFree (h : p.Valid) (hb : p.Holds b ∨ p.Ready bin a) : p.isFree = false := by
  suffices hlt : p.freepages < p.npages by
    rw [isFree]
    exact decide_eq_false (by omega)
  cases p with
  | large p =>
    rcases hb with ⟨s, l, hb, rfl⟩ | hr
    · have hle := hb.le
      have hpos := hb.block.pos
      refine Nat.lt_of_le_of_lt (Nat.le_of_eq h.1.counters.freepages) (freeCount_lt (i := s) (by omega) ?_)
      exact hb.block.ne_free (Nat.le_refl s) (by omega)
    · exact hr.elim
  | small p =>
    rcases hb with ⟨pn, bin, u, hs, _⟩ | ⟨pn, u, hs, _⟩
    · exact SmallObjectPool.Wf.freepages_lt h hs.page hs.small
    · exact SmallObjectPool.Wf.freepages_lt h hs.page hs.small

theorem Valid.waiting_not_isFree (h : p.Valid) (hw : p.Waiting bin) : p.isFree = false := by
  cases p with
  | large p => exact hw.elim
  | small p =>
    have hlt := SmallObjectPool.Wf.freepages_lt h hw (SmallObjectPool.Wf.firstRecover h hw).1
    exact decide_eq_false (by simp only [npages, freepages]; omega)

-- What `findBase` and `slGetInfo` tell about an address: the block that it lies in, or in the unused
-- rest of a page behind it.
structure Found (p : Pool) (ptr : Nat) (r : Option BlkInfo) : Prop where
  findBase  : p.findBase ptr = .ok (r.map BlkInfo.base)
  slGetInfo : p.slGetInfo ptr = .ok (r.getD .init)
  sound     : ∀ b, r = some b → p.Holds b ∧ b.base ≤ ptr ∧ ptr < b.base + b.size + 64
  complete  : ∀ b, p.Holds b → b.base ≤ ptr → ptr < b.base + b.size → r = some b

theorem Wf.found (h : p.Wf) (hb : p.baseAddr ≤ ptr) (ht : ptr < p.topAddr) : ∃ r, p.Found ptr r := by
  have hv := h.valid
  cases p with
  | large p =>
    obtain ⟨r, hr⟩ := @LargeObjectPool.Wf.found p ptr hv.1 (decide_eq_true ⟨hb, ht⟩)
    refine ⟨r, hr.findBase, hr.getInfo, fun b he => ?_, fun b hb hle hlt => (hr.iff b).mpr ⟨hb, hle, hlt⟩⟩
    obtain ⟨hb, hle, hlt⟩ := (hr.iff b).mp he
    exact ⟨hb, hle, by omega⟩
  | small p =>
    obtain ⟨r, hr⟩ := SmallObjectPool.Wf.found hv hb ht
    exact ⟨r, hr.findBase, congrArg Except.ok hr.getInfo, hr.sound, hr.complete⟩

-- The block at the address `a` is another one, or is not there any more.
structure Replaced (p q : Pool) (a : Nat) (new : Option BlkInfo) : Prop where
  valid    : q.Valid
  baseAddr : q.baseAddr = p.baseAddr
  npages   : q.npages = p.npages
  kind     : q.isLargeObject = p.isLargeObject
  holds    : ∀ b, q.Holds b ↔ p.Holds b ∧ b.base ≠ a ∨ new = some b

theorem Replaced.wf (h : Replaced p q a new) (hp : p.Wf) : q.Wf where
  valid    := h.valid
  npages   := h.npages ▸ hp.npages
  baseAddr := h.baseAddr ▸ hp.baseAddr

theorem Replaced.large {p q : LargeObjectPool} (h : p.Replaced q a new) :
    Replaced (.large p) (.large q) a new where
  valid    := ⟨h.wf, h.plain⟩
  baseAddr := h.baseAddr
  npages   := h.npages
  kind     := rfl
  holds    := h.holds

theorem Replaced.setSlot {p : SmallObjectPool} {pn u : Nat} {free : Bool} {attr : UInt32} (h : p.Wf)
    (hs : p.IsSlot pn bin u) (ha : free = true → attr = 0)
    (hr : free = false → p.freebits (SmallObjectPool.slotBit pn u) = false ∨ p.Recovered pn) :
    Replaced (.small p) (.small (p.setSlot (SmallObjectPool.slotBit pn u) free attr))
      (p.baseAddr + pn * PAGESIZE + u)
      (if free then none else some ⟨p.baseAddr + pn * PAGESIZE + u, binsize bin, attr⟩) where
  valid    := h.setSlot hs ha hr
  baseAddr := rfl
  npages   := rfl
  kind     := rfl
  holds b  := by
    rw [Holds, SmallObjectPool.setSlot_holds hs]
    cases free <;> simp [Holds, eq_comm]

end Pool

end Runtime.GC
