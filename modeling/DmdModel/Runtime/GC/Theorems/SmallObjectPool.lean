import DmdModel.Lib.BoundaryTags
import DmdModel.Lib.ExceptPost
import DmdModel.Lib.Threaded
import DmdModel.Runtime.GC.SmallObjectPool

open BoundaryTags Threaded

namespace Runtime.GC

section Slots

variable {bin : Fin B_NUMSMALL} {off u : Nat}

theorem binsize_bounds (bin : Fin B_NUMSMALL) :
    16 ∣ binsize bin ∧ 16 ≤ binsize bin ∧ binsize bin ≤ PAGESIZE / 2 := by
  revert bin
  decide

theorem binsize_pos (bin : Fin B_NUMSMALL) : 0 < binsize bin := by
  have := (binsize_bounds bin).2.1
  omega

-- The last slot of a page ends at most 64 bytes before the page does.
theorem unused_le (bin : Fin B_NUMSMALL) :
    PAGESIZE ≤ PAGESIZE / binsize bin * binsize bin + 64 := by
  revert bin
  decide

theorem mem_slotOffsets : u ∈ slotOffsets bin ↔ ∃ k < PAGESIZE / binsize bin, k * binsize bin = u := by
  simp [slotOffsets]

theorem slotOffsets_ne_nil (bin : Fin B_NUMSMALL) : slotOffsets bin ≠ [] := by
  revert bin
  decide

theorem slotOffsets_nodup (bin : Fin B_NUMSMALL) : (slotOffsets bin).Nodup :=
  List.nodup_range.map fun _ _ he => Nat.eq_of_mul_eq_mul_right (binsize_pos bin) he

theorem slot_le (hu : u ∈ slotOffsets bin) : u + binsize bin ≤ PAGESIZE := by
  obtain ⟨k, hk, rfl⟩ := mem_slotOffsets.mp hu
  calc
    k * binsize bin + binsize bin = (k + 1) * binsize bin := by rw [Nat.add_mul, Nat.one_mul]
    _ ≤ PAGESIZE / binsize bin * binsize bin := Nat.mul_le_mul_right _ hk
    _ ≤ PAGESIZE := Nat.div_mul_le_self _ _

theorem slot_lt (hu : u ∈ slotOffsets bin) : u < PAGESIZE := by
  have := slot_le hu
  have := binsize_pos bin
  omega

theorem dvd_slot (hu : u ∈ slotOffsets bin) : 16 ∣ u := by
  obtain ⟨k, _, rfl⟩ := mem_slotOffsets.mp hu
  exact Dvd.dvd.mul_left (binsize_bounds bin).1 k

-- Two slots of a page do not overlap.
theorem slot_disjoint {u' : Nat} (hu : u ∈ slotOffsets bin) (hu' : u' ∈ slotOffsets bin) (hlt : u < u') :
    u + binsize bin ≤ u' := by
  obtain ⟨k, _, rfl⟩ := mem_slotOffsets.mp hu
  obtain ⟨k', _, rfl⟩ := mem_slotOffsets.mp hu'
  have hk : k < k' := Nat.lt_of_mul_lt_mul_right hlt
  calc
    k * binsize bin + binsize bin = (k + 1) * binsize bin := by rw [Nat.add_mul, Nat.one_mul]
    _ ≤ k' * binsize bin := Nat.mul_le_mul_right _ hk

-- The slot with an offset in the page is the one that the division by the size tells, or the last one.
theorem binbase_eq (bin : Fin B_NUMSMALL) (off : Nat) :
    binbase bin (off / 16) =
      min (off / binsize bin) (PAGESIZE / binsize bin - 1) * binsize bin := by
  obtain ⟨⟨n, hn⟩, hmin, hmax⟩ := binsize_bounds bin
  have hpos := binsize_pos bin
  have hslots : 0 < PAGESIZE / binsize bin := Nat.div_pos (by simp only [PAGESIZE] at *; omega) hpos
  have hbase : (off / 16 - off / 16 % (binsize bin / 16)) * 16 = off / binsize bin * binsize bin := by
    have hb : binsize bin / 16 = n := by rw [hn, Nat.mul_div_cancel_left _ (by decide)]
    have hd := Nat.div_add_mod (off / 16) n
    rw [hb, show off / 16 - off / 16 % n = n * (off / 16 / n) by omega, Nat.div_div_eq_div_mul, ← hn]
    conv_rhs => rw [hn]
    rw [Nat.mul_comm, ← Nat.mul_assoc, Nat.mul_comm]
    rw [hn]
  rw [binbase]
  simp only [hbase]
  generalize binsize bin = size at *
  generalize PAGESIZE / size = slots at *
  obtain hlt | hle := Nat.lt_or_ge (off / size) slots
  · rw [if_pos (Nat.mul_lt_mul_of_pos_right hlt hpos), Nat.min_eq_left (by omega)]
  · rw [if_neg (by have := Nat.mul_le_mul_right size hle; omega), Nat.min_eq_right (by omega),
      Nat.sub_mul, Nat.one_mul]

theorem binbase_mem (bin : Fin B_NUMSMALL) (off : Nat) : binbase bin (off / 16) ∈ slotOffsets bin := by
  rw [binbase_eq]
  refine mem_slotOffsets.mpr ⟨_, ?_, rfl⟩
  have hslots : 0 < PAGESIZE / binsize bin :=
    Nat.div_pos ((binsize_bounds bin).2.2.trans (by decide)) (binsize_pos bin)
  omega

theorem binbase_of_slot (hu : u ∈ slotOffsets bin) (hle : u ≤ off) (hlt : off < u + binsize bin) :
    binbase bin (off / 16) = u := by
  obtain ⟨k, hk, rfl⟩ := mem_slotOffsets.mp hu
  have hd : off / binsize bin = k := by
    refine Nat.div_eq_of_lt_le hle ?_
    rwa [Nat.add_mul, Nat.one_mul]
  rw [binbase_eq, hd, Nat.min_eq_left (by omega)]

-- Before the end of the page, an offset lies in its slot or in the unused rest behind it.
theorem binbase_bounds (hoff : off < PAGESIZE) :
    binbase bin (off / 16) ≤ off ∧ off < binbase bin (off / 16) + binsize bin + 64 := by
  have hpos := binsize_pos bin
  have hslots : 0 < PAGESIZE / binsize bin :=
    Nat.div_pos ((binsize_bounds bin).2.2.trans (by decide)) hpos
  have hunused := unused_le bin
  have hd := Nat.div_add_mod off (binsize bin)
  have hm := Nat.mod_lt off hpos
  rw [binbase_eq]
  obtain hlt | hle := Nat.lt_or_ge (PAGESIZE / binsize bin - 1) (off / binsize bin)
  case inr =>
    rw [Nat.min_eq_left hle, Nat.mul_comm]
    omega
  case inl =>
    have hmul := Nat.mul_le_mul_right (binsize bin) hlt.le
    rw [Nat.min_eq_right hlt.le]
    have hsucc : (PAGESIZE / binsize bin - 1) * binsize bin + binsize bin =
        PAGESIZE / binsize bin * binsize bin := by
      rw [← Nat.succ_mul]
      congr 1
      omega
    rw [Nat.mul_comm] at hd
    omega

end Slots

namespace SmallObjectPool

variable {p q : SmallObjectPool} {bin : Fin B_NUMSMALL} {i n pn ptr u : Nat}

-- The number of the bit of a slot.
def slotBit (pn u : Nat) : Nat :=
  pn * PAGEBITS + u / 16

structure IsSlot (p : SmallObjectPool) (pn : Nat) (bin : Fin B_NUMSMALL) (u : Nat) : Prop where
  page   : pn < p.npages
  small  : p.pagetable pn = .B_SMALL bin
  offset : u ∈ slotOffsets bin

-- The page is in no recover chain.
def Recovered (p : SmallObjectPool) (pn : Nat) : Prop :=
  p.binPageChain pn = PageRecovered

def next (p : SmallObjectPool) (pn : Nat) : Nat :=
  (p.binPageChain pn).toNat

def tag (p : SmallObjectPool) (pn : Nat) : Tag :=
  if p.pagetable pn = .B_FREE then .free else .head

-- The pool while its recover chains are built, up to page `n`: the free pages are in their chain, those
-- of the other pages that are not recovered are in the chain of their bin and have a free slot.
structure Built (p : SmallObjectPool) (n : Nat) : Prop where
  npages_lt : p.npages < 2 ^ 32 - 1
  aligned   : p.baseAddr % PAGESIZE = 0
  top_le    : p.topAddr ≤ 2 ^ 64
  le        : n ≤ p.npages
  kind      : ∀ pn < p.npages, p.pagetable pn = .B_FREE ∨ ∃ bin, p.pagetable pn = .B_SMALL bin
  slot      : ∀ i, p.freebits i = false → ∃ pn bin u, p.IsSlot pn bin u ∧ i = slotBit pn u
  attrs     : ∀ i, p.freebits i = true → p.attrs i = 0
  freepages : p.freepages = freeCount p.tag p.npages
  free      : ∃ l, Chain p.next p.npages p.searchStart l ∧
    ∀ pn, pn ∈ l ↔ pn < p.npages ∧ p.pagetable pn = .B_FREE
  recover   : ∀ bin, ∃ l, Chain p.next p.npages (p.recoverPageFirst bin).toNat l ∧
    ∀ pn, pn ∈ l ↔ pn < n ∧ p.pagetable pn = .B_SMALL bin ∧ ¬p.Recovered pn
  dead      : ∀ pn < n, ∀ bin, p.pagetable pn = .B_SMALL bin → ¬p.Recovered pn →
    ∃ u ∈ slotOffsets bin, p.freebits (slotBit pn u) = true

def Wf (p : SmallObjectPool) : Prop :=
  p.Built p.npages

theorem tag_eq_free : p.tag pn = .free ↔ p.pagetable pn = .B_FREE := by
  by_cases h : p.pagetable pn = .B_FREE <;> simp [tag, h]

theorem slotBit_eq {base : Nat} (pn u : Nat) :
    (base + pn * PAGESIZE + u - base) / 16 = slotBit pn u := by
  simp only [slotBit, PAGESIZE, PAGEBITS]
  omega

theorem slotBit_inj {bin' : Fin B_NUMSMALL} {pn' u' : Nat} (hu : u ∈ slotOffsets bin)
    (hu' : u' ∈ slotOffsets bin') (he : slotBit pn u = slotBit pn' u') : pn = pn' ∧ u = u' := by
  have := dvd_slot hu
  have := dvd_slot hu'
  have := slot_lt hu
  have := slot_lt hu'
  simp only [slotBit, PAGESIZE, PAGEBITS] at *
  omega

-- The page that a bit belongs to.
theorem slotBit_div (hu : u ∈ slotOffsets bin) (pn : Nat) : slotBit pn u / PAGEBITS = pn := by
  have := slot_lt hu
  simp only [slotBit, PAGESIZE, PAGEBITS] at *
  omega

theorem IsSlot.eq_bin {bin' : Fin B_NUMSMALL} {u' : Nat} (h : p.IsSlot pn bin u)
    (h' : p.IsSlot pn bin' u') : bin = bin' :=
  Bins.B_SMALL.inj (h.small.symm.trans h'.small)

namespace Built

-- The slots of a free page are free.
theorem freebits_of_free (h : p.Built n) (hp : p.pagetable pn = .B_FREE) (hu : u ∈ slotOffsets bin) :
    p.freebits (slotBit pn u) = true := by
  by_contra hc
  obtain ⟨pn', bin', u', hs, he⟩ := h.slot _ (Bool.eq_false_of_not_eq_true hc)
  rw [(slotBit_inj hu hs.offset he).1, hs.small] at hp
  cases hp

-- A page in a recover chain is not recovered.
theorem not_recovered_of_mem {l : List Nat} {first : Nat} (h : p.Built n)
    (hc : Chain p.next p.npages first l) (hm : pn ∈ l) : ¬p.Recovered pn := by
  intro hr
  have hle := hc.next_le hm
  have hlt := h.npages_lt
  rw [next, hr, PageRecovered] at hle
  exact absurd hle (by simp; omega)

theorem exists_free_iff (h : p.Built n) :
    p.searchStart < p.npages ↔ ∃ pn < p.npages, p.pagetable pn = .B_FREE := by
  obtain ⟨l, hc, hm⟩ := h.free
  constructor
  · intro hlt
    obtain ⟨l', rfl, _⟩ := hc.eq_cons hlt
    exact ⟨_, (hm _).mp List.mem_cons_self⟩
  · rintro ⟨pn, hpn⟩
    by_contra hge
    rw [hc.eq_nil (by omega)] at hm
    exact List.not_mem_nil ((hm pn).mpr hpn)

end Built

section Fresh

variable {baseAddr npages : Nat}

theorem fresh_wf (hn : npages < 2 ^ 32 - 1) (ha : baseAddr % PAGESIZE = 0)
    (ht : baseAddr + npages * PAGESIZE ≤ 2 ^ 64) : (fresh baseAddr npages).Wf := by
  have htag : (fresh baseAddr npages).tag = fun _ => .free := rfl
  have hfirst : npages.toUInt32.toNat = npages := by simp; omega
  constructor
  case npages_lt => exact hn
  case aligned => exact ha
  case top_le => exact ht
  case le => exact Nat.le_refl _
  case kind => exact fun _ _ => .inl rfl
  case slot =>
    intro i hf
    cases hf
  case attrs => exact fun _ _ => rfl
  case freepages =>
    have hle : npages ≤ freeCount (fresh baseAddr npages).tag npages :=
      le_freeCount (s := 0) (by omega) fun _ _ _ => htag ▸ rfl
    exact Nat.le_antisymm hle (Nat.count_le _)
  case free =>
    refine ⟨List.range' 0 (npages - 0), (Chain.range' (Nat.zero_le _)).congr fun i hi => ?_, ?_⟩
    · have hlt : i < 0 + (npages - 0) := (List.mem_range'_1.mp hi).2
      simp only [next, fresh, Nat.toUInt32_eq, UInt32.toNat_ofNat']
      omega
    · intro pn
      simp [fresh]
  case recover =>
    intro bin
    refine ⟨[], ?_, fun pn => by simp [fresh]⟩
    show Chain _ npages npages.toUInt32.toNat []
    rw [hfirst]
    exact .nil
  case dead =>
    intro pn _ bin hs
    cases hs

end Fresh

section AllocPage

-- The pool after its first free page became one of bin's.
def taken (p : SmallObjectPool) (bin : Fin B_NUMSMALL) : SmallObjectPool :=
  { p with
    searchStart  := p.next p.searchStart
    binPageChain := Function.update p.binPageChain p.searchStart PageRecovered
    pagetable    := Function.update p.pagetable p.searchStart (.B_SMALL bin)
    freepages    := p.freepages - 1 }

theorem taken_pagetable_of_ne (hne : pn ≠ p.searchStart) :
    (p.taken bin).pagetable pn = p.pagetable pn :=
  Function.update_of_ne hne _ _

theorem taken_isSlot_of_ne {bin' : Fin B_NUMSMALL} (hne : pn ≠ p.searchStart) :
    (p.taken bin).IsSlot pn bin' u ↔ p.IsSlot pn bin' u := by
  constructor
  · exact fun h => ⟨h.page, (taken_pagetable_of_ne hne).symm.trans h.small, h.offset⟩
  · exact fun h => ⟨h.page, (taken_pagetable_of_ne hne).trans h.small, h.offset⟩

theorem taken_recovered (p : SmallObjectPool) (bin : Fin B_NUMSMALL) :
    (p.taken bin).Recovered p.searchStart :=
  Function.update_self _ _ _

theorem taken_recovered_of_ne (hne : pn ≠ p.searchStart) :
    (p.taken bin).Recovered pn ↔ p.Recovered pn := by
  rw [Recovered, Recovered, taken]
  simp only [Function.update_of_ne hne]

theorem Wf.taken (h : p.Wf) (hlt : p.searchStart < p.npages) (bin : Fin B_NUMSMALL) :
    p.pagetable p.searchStart = .B_FREE ∧ (p.taken bin).Wf := by
  obtain ⟨l, hc, hm⟩ := h.free
  obtain ⟨l', rfl, hc'⟩ := hc.eq_cons hlt
  have hfree := ((hm _).mp List.mem_cons_self).2
  have hnot := (List.nodup_cons.mp hc.nodup).1
  have hne {pn : Nat} {bin : Fin B_NUMSMALL} (hs : p.pagetable pn = .B_SMALL bin) :
      pn ≠ p.searchStart := by
    rintro rfl
    rw [hfree] at hs
    cases hs
  have hnext : (p.taken bin).next = Function.update p.next p.searchStart PageRecovered.toNat :=
    Function.comp_update _ _ _ _
  refine ⟨hfree, ?_⟩
  constructor
  case npages_lt => exact h.npages_lt
  case aligned => exact h.aligned
  case top_le => exact h.top_le
  case le => exact Nat.le_refl _
  case attrs => exact h.attrs
  case kind =>
    intro pn hpn
    by_cases hi : pn = p.searchStart
    · exact .inr ⟨bin, hi ▸ Function.update_self _ _ _⟩
    · rw [taken_pagetable_of_ne hi]
      exact h.kind pn hpn
  case slot =>
    intro i hi
    obtain ⟨pn, bin', u, hs, he⟩ := h.slot i hi
    exact ⟨pn, bin', u, (taken_isSlot_of_ne (hne hs.small)).mpr hs, he⟩
  case freepages =>
    have hcount := @freeCount_take p.tag (p.taken bin).tag 1 p.searchStart p.npages hlt
      (fun i _ _ => tag_eq_free.mpr (by rw [show i = p.searchStart by omega]; exact hfree))
      (fun i _ _ => fun hf => by
        rw [tag_eq_free, show i = p.searchStart by omega, SmallObjectPool.taken] at hf
        simp at hf)
      (fun i _ hi => by rw [tag, tag, taken_pagetable_of_ne (by omega)])
    have := h.freepages
    show p.freepages - 1 = freeCount (p.taken bin).tag p.npages
    omega
  case free =>
    refine ⟨l', ?_, fun pn => ?_⟩
    · rw [hnext]
      exact hc'.update hnot _
    · have hpn := hm pn
      rw [List.mem_cons] at hpn
      by_cases hi : pn = p.searchStart
      · subst hi
        simp [SmallObjectPool.taken, hnot]
      · rw [taken_pagetable_of_ne hi]
        exact (or_iff_right hi).symm.trans hpn
  case recover =>
    intro bin'
    obtain ⟨r, hr, hmr⟩ := h.recover bin'
    refine ⟨r, ?_, fun pn => ?_⟩
    · rw [hnext]
      exact hr.update (fun hin => hne ((hmr _).mp hin).2.1 rfl) _
    · rw [hmr]
      by_cases hi : pn = p.searchStart
      · subst hi
        simp [taken_recovered, hfree]
      · rw [taken_pagetable_of_ne hi, taken_recovered_of_ne hi]
        rfl
  case dead =>
    intro pn hpn bin' hs hr
    by_cases hi : pn = p.searchStart
    · exact absurd (hi ▸ p.taken_recovered bin) hr
    · rw [taken_pagetable_of_ne hi] at hs
      exact h.dead pn hpn bin' hs ((taken_recovered_of_ne hi).not.mp hr)

theorem allocPage_eq (h : p.Wf) (bin : Fin B_NUMSMALL) :
    p.allocPage bin = .ok (if p.searchStart < p.npages then
      some ((slotOffsets bin).map (p.baseAddr + p.searchStart * PAGESIZE + ·), p.taken bin)
    else none) := by
  rw [allocPage]
  by_cases hlt : p.searchStart < p.npages
  case pos =>
    rw [if_neg (by omega), if_neg (by simp [(h.taken hlt bin).1]), if_pos hlt]
    rfl
  case neg => rw [if_pos (by omega), if_neg hlt]

end AllocPage

section Blocks

-- The block in a slot.
def block (p : SmallObjectPool) (pn : Nat) (bin : Fin B_NUMSMALL) (u : Nat) : BlkInfo where
  base := p.baseAddr + pn * PAGESIZE + u
  size := binsize bin
  attr := p.getBits (slotBit pn u)

def Holds (p : SmallObjectPool) (b : BlkInfo) : Prop :=
  ∃ pn bin u, p.IsSlot pn bin u ∧ p.freebits (slotBit pn u) = false ∧ b = p.block pn bin u

theorem slot_base_inj {bin' : Fin B_NUMSMALL} {base pn' u' : Nat} (hu : u ∈ slotOffsets bin)
    (hu' : u' ∈ slotOffsets bin') (he : base + pn * PAGESIZE + u = base + pn' * PAGESIZE + u') :
    pn = pn' ∧ u = u' := by
  have := slot_lt hu
  have := slot_lt hu'
  simp only [PAGESIZE] at *
  omega

-- Set the state of one slot: whether it is free, and its attributes.
@[simps]
def setSlot (p : SmallObjectPool) (i : Nat) (free : Bool) (attr : UInt32) : SmallObjectPool :=
  { p with
    freebits := Function.update p.freebits i free
    attrs    := Function.update p.attrs i attr }

variable {attr : UInt32} {free : Bool}

theorem Wf.setSlot (h : p.Wf) (hs : p.IsSlot pn bin u) (ha : free = true → attr = 0)
    (hr : free = false → p.freebits (slotBit pn u) = false ∨ p.Recovered pn) :
    (p.setSlot (slotBit pn u) free attr).Wf := by
  constructor
  case npages_lt => exact h.npages_lt
  case aligned => exact h.aligned
  case top_le => exact h.top_le
  case le => exact Nat.le_refl _
  case kind => exact h.kind
  case freepages => exact h.freepages
  case free => exact h.free
  case recover => exact h.recover
  case slot =>
    intro i hi
    by_cases he : i = slotBit pn u
    · exact ⟨pn, bin, u, ⟨hs.page, hs.small, hs.offset⟩, he⟩
    · rw [setSlot_freebits, Function.update_of_ne he] at hi
      obtain ⟨pn', bin', u', hs', he'⟩ := h.slot i hi
      exact ⟨pn', bin', u', ⟨hs'.page, hs'.small, hs'.offset⟩, he'⟩
  case attrs =>
    intro i hi
    by_cases he : i = slotBit pn u
    · subst he
      simp only [setSlot_freebits, setSlot_attrs, Function.update_self] at hi ⊢
      exact ha hi
    · simp only [setSlot_freebits, setSlot_attrs, Function.update_of_ne he] at hi ⊢
      exact h.attrs i hi
  case dead =>
    intro pn' hpn bin' hs' hr'
    obtain ⟨u', hu', hf⟩ := h.dead pn' hpn bin' hs' hr'
    refine ⟨u', hu', ?_⟩
    by_cases he : slotBit pn' u' = slotBit pn u
    · rw [he, setSlot_freebits, Function.update_self]
      cases hfree : free with
      | true => rfl
      | false =>
        obtain ⟨rfl, rfl⟩ := slotBit_inj hu' hs.offset he
        cases hr hfree with
        | inl hb => exact absurd (hb.symm.trans hf) Bool.false_ne_true
        | inr hr => exact absurd hr hr'
    · rw [setSlot_freebits, Function.update_of_ne he]
      exact hf

theorem setSlot_holds (hs : p.IsSlot pn bin u) {b : BlkInfo} :
    (p.setSlot (slotBit pn u) free attr).Holds b ↔
      p.Holds b ∧ b.base ≠ p.baseAddr + pn * PAGESIZE + u ∨
        free = false ∧ b = ⟨p.baseAddr + pn * PAGESIZE + u, binsize bin, attr⟩ := by
  have hne {pn' bin' u'} (hs' : p.IsSlot pn' bin' u') (he : ¬(pn' = pn ∧ u' = u)) :
      slotBit pn' u' ≠ slotBit pn u :=
    fun hb => he (slotBit_inj hs'.offset hs.offset hb)
  constructor
  · rintro ⟨pn', bin', u', hs', hf, rfl⟩
    replace hs' : p.IsSlot pn' bin' u' := ⟨hs'.page, hs'.small, hs'.offset⟩
    by_cases he : pn' = pn ∧ u' = u
    · obtain ⟨rfl, rfl⟩ := he
      obtain rfl := hs'.eq_bin hs
      rw [setSlot_freebits, Function.update_self] at hf
      exact .inr ⟨hf, by simp [block, setSlot, getBits]⟩
    · rw [setSlot_freebits, Function.update_of_ne (hne hs' he)] at hf
      refine .inl ⟨⟨pn', bin', u', hs', hf, ?_⟩, fun hb => he (slot_base_inj hs'.offset hs.offset hb)⟩
      simp only [block, setSlot, getBits, Function.update_of_ne (hne hs' he)]
  · rintro (⟨⟨pn', bin', u', hs', hf, rfl⟩, hb⟩ | ⟨rfl, rfl⟩)
    · have he : ¬(pn' = pn ∧ u' = u) := by
        rintro ⟨rfl, rfl⟩
        exact hb rfl
      refine ⟨pn', bin', u', ⟨hs'.page, hs'.small, hs'.offset⟩, ?_, ?_⟩
      · rw [setSlot_freebits, Function.update_of_ne (hne hs' he)]
        exact hf
      · simp only [block, setSlot, getBits, Function.update_of_ne (hne hs' he)]
    · refine ⟨pn, bin, u, ⟨hs.page, hs.small, hs.offset⟩, by simp [setSlot], ?_⟩
      simp [block, setSlot, getBits]

end Blocks

section Recover

-- The pool after the first page was taken out of bin's recover chain.
def popRecover (p : SmallObjectPool) (bin : Fin B_NUMSMALL) : SmallObjectPool :=
  let pn := (p.recoverPageFirst bin).toNat
  { p with
    binPageChain     := Function.update p.binPageChain pn PageRecovered
    recoverPageFirst := Function.update p.recoverPageFirst bin (p.binPageChain pn) }

theorem popRecover_recovered :
    (p.popRecover bin).Recovered pn ↔ pn = (p.recoverPageFirst bin).toNat ∨ p.Recovered pn := by
  by_cases he : pn = (p.recoverPageFirst bin).toNat
  · simp [popRecover, Recovered, he]
  · simp [popRecover, Recovered, he]

theorem Wf.firstRecover (h : p.Wf) (hlt : (p.recoverPageFirst bin).toNat < p.npages) :
    p.pagetable (p.recoverPageFirst bin).toNat = .B_SMALL bin ∧
      ¬p.Recovered (p.recoverPageFirst bin).toNat ∧
      ∃ u ∈ slotOffsets bin, p.freebits (slotBit (p.recoverPageFirst bin).toNat u) = true := by
  obtain ⟨l, hc, hm⟩ := h.recover bin
  obtain ⟨l', rfl, _⟩ := hc.eq_cons hlt
  obtain ⟨_, hs, hr⟩ := (hm _).mp List.mem_cons_self
  exact ⟨hs, hr, h.dead _ hlt bin hs hr⟩

theorem Wf.popRecover (h : p.Wf) (hlt : (p.recoverPageFirst bin).toNat < p.npages) :
    (p.popRecover bin).Wf := by
  obtain ⟨hs, hr, _⟩ := h.firstRecover hlt
  have hnext : (p.popRecover bin).next =
      Function.update p.next (p.recoverPageFirst bin).toNat PageRecovered.toNat :=
    Function.comp_update _ _ _ _
  constructor
  case npages_lt => exact h.npages_lt
  case aligned => exact h.aligned
  case top_le => exact h.top_le
  case le => exact Nat.le_refl _
  case kind => exact h.kind
  case slot =>
    intro i hi
    obtain ⟨pn, bin', u, hs', he⟩ := h.slot i hi
    exact ⟨pn, bin', u, ⟨hs'.page, hs'.small, hs'.offset⟩, he⟩
  case attrs => exact h.attrs
  case freepages => exact h.freepages
  case free =>
    obtain ⟨l, hc, hm⟩ := h.free
    refine ⟨l, ?_, hm⟩
    rw [hnext]
    refine hc.update (fun hin => ?_) _
    rw [((hm _).mp hin).2] at hs
    cases hs
  case recover =>
    intro bin'
    obtain ⟨l, hc, hm⟩ := h.recover bin'
    rw [hnext]
    by_cases he : bin' = bin
    case pos =>
      subst he
      obtain ⟨l', rfl, hc'⟩ := hc.eq_cons hlt
      have hnot := (List.nodup_cons.mp hc.nodup).1
      refine ⟨l', ?_, fun pn => ?_⟩
      · simp only [SmallObjectPool.popRecover, Function.update_self]
        exact hc'.update hnot _
      · have hpn := hm pn
        rw [List.mem_cons] at hpn
        rw [popRecover_recovered]
        by_cases hi : pn = (p.recoverPageFirst bin').toNat
        · simp [hi, hnot]
        · simp only [hi, false_or]
          exact (or_iff_right hi).symm.trans hpn
    case neg =>
      have hne : (p.recoverPageFirst bin).toNat ∉ l := by
        intro hin
        exact he (Bins.B_SMALL.inj (((hm _).mp hin).2.1.symm.trans hs))
      refine ⟨l, ?_, fun pn => ?_⟩
      · simp only [SmallObjectPool.popRecover, Function.update_of_ne he]
        exact hc.update hne _
      · rw [popRecover_recovered]
        by_cases hi : pn = (p.recoverPageFirst bin).toNat
        · subst hi
          simp [hne]
        · simp only [hi, false_or]
          exact hm pn
  case dead =>
    intro pn hpn bin' hs' hr'
    exact h.dead pn hpn bin' hs' fun hr => hr' (popRecover_recovered.mpr (.inr hr))

theorem popRecover_holds {b : BlkInfo} : (p.popRecover bin).Holds b ↔ p.Holds b := by
  constructor
  · rintro ⟨pn, bin', u, hs, hf, he⟩
    exact ⟨pn, bin', u, ⟨hs.page, hs.small, hs.offset⟩, hf, he⟩
  · rintro ⟨pn, bin', u, hs, hf, he⟩
    exact ⟨pn, bin', u, ⟨hs.page, hs.small, hs.offset⟩, hf, he⟩

end Recover

section Lookup

-- Where an address of the pool's lies: its page, and the offset in the page.
theorem exists_offset (hb : p.baseAddr ≤ ptr) (ht : ptr < p.topAddr) :
    ∃ pn < p.npages, ∃ off < PAGESIZE, ptr = p.baseAddr + pn * PAGESIZE + off := by
  refine ⟨(ptr - p.baseAddr) / PAGESIZE, ?_, (ptr - p.baseAddr) % PAGESIZE,
    Nat.mod_lt _ (by decide), ?_⟩
  · rw [Nat.div_lt_iff_lt_mul (by decide)]
    rw [topAddr] at ht
    omega
  · have := Nat.div_add_mod (ptr - p.baseAddr) PAGESIZE
    rw [Nat.mul_comm] at this
    omega

theorem pagenumOf_eq {off : Nat} (ho : off < PAGESIZE) :
    p.pagenumOf (p.baseAddr + pn * PAGESIZE + off) = pn := by
  simp only [pagenumOf, PAGESIZE] at *
  omega

theorem baseOffset_eq {off : Nat} (ho : off < PAGESIZE) (bin : Fin B_NUMSMALL) :
    baseOffset (pn * PAGESIZE + off) bin = pn * PAGESIZE + binbase bin (off / 16) := by
  have hm : (pn * PAGESIZE + off) % PAGESIZE = off := Nat.mul_add_mod_of_lt ho
  rw [baseOffset, hm, Nat.add_sub_cancel]

theorem baseOffset_addr {off : Nat} (ha : p.baseAddr % PAGESIZE = 0) (ho : off < PAGESIZE)
    (bin : Fin B_NUMSMALL) : baseOffset (p.baseAddr + pn * PAGESIZE + off) bin =
      p.baseAddr + pn * PAGESIZE + binbase bin (off / 16) := by
  obtain ⟨n, hn⟩ := Nat.dvd_of_mod_eq_zero ha
  have hp : p.baseAddr + pn * PAGESIZE = (n + pn) * PAGESIZE := by
    rw [hn, Nat.add_mul, Nat.mul_comm]
  rw [hp, baseOffset_eq ho]

-- What `findBase` and `getInfo` tell about an address: the block that it lies in, or in the unused rest
-- of the page behind it.
structure Found (p : SmallObjectPool) (ptr : Nat) (r : Option BlkInfo) : Prop where
  findBase : p.findBase ptr = .ok (r.map BlkInfo.base)
  getInfo  : p.getInfo ptr = r.getD .init
  sound    : ∀ b, r = some b → p.Holds b ∧ b.base ≤ ptr ∧ ptr < b.base + b.size + 64
  complete : ∀ b, p.Holds b → b.base ≤ ptr → ptr < b.base + b.size → r = some b

theorem Wf.found (h : p.Wf) (hb : p.baseAddr ≤ ptr) (ht : ptr < p.topAddr) :
    ∃ r, p.Found ptr r := by
  obtain ⟨pn, hpn, off, ho, rfl⟩ := exists_offset hb ht
  have hpage : (pn * PAGESIZE + off) / PAGESIZE = pn := by
    simp only [PAGESIZE] at *
    omega
  have hoffset : p.baseAddr + pn * PAGESIZE + off - p.baseAddr = pn * PAGESIZE + off := by omega
  -- a block around the address begins in the same page
  have hsame {b : BlkInfo} (hh : p.Holds b) (hle : b.base ≤ p.baseAddr + pn * PAGESIZE + off)
      (hlt : p.baseAddr + pn * PAGESIZE + off < b.base + b.size) :
      ∃ bin u, p.IsSlot pn bin u ∧ p.freebits (slotBit pn u) = false ∧ b = p.block pn bin u ∧
        u ≤ off ∧ off < u + binsize bin := by
    obtain ⟨pn', bin, u, hs, hf, rfl⟩ := hh
    have hsl := slot_le hs.offset
    have he : pn' = pn := by
      simp only [block, PAGESIZE] at *
      omega
    subst he
    simp only [block] at hle hlt
    exact ⟨bin, u, hs, hf, rfl, by omega, by omega⟩
  rcases h.kind pn hpn with hfree | ⟨bin, hsmall⟩
  case inl =>
    refine ⟨none, ?_, ?_, fun _ he => absurd he (Option.some_ne_none _).symm, fun b hh hle hlt => ?_⟩
    · rw [SmallObjectPool.findBase]
      simp only [hoffset, hpage, hfree]
      rfl
    · rw [SmallObjectPool.getInfo, pagenumOf_eq ho, hfree]
      rfl
    · obtain ⟨bin, u, hs, _⟩ := hsame hh hle hlt
      rw [hs.small] at hfree
      cases hfree
  case inr =>
    have hmem := binbase_mem bin off
    have hbit : (pn * PAGESIZE + binbase bin (off / 16)) / 16 = slotBit pn (binbase bin (off / 16)) := by
      simp only [slotBit, PAGESIZE, PAGEBITS]
      omega
    obtain ⟨hle, hlt⟩ := @binbase_bounds bin off ho
    obtain ⟨u, hu⟩ : ∃ u, u = binbase bin (off / 16) := ⟨_, rfl⟩
    rw [← hu] at hmem hbit hle hlt
    have hs : p.IsSlot pn bin u := ⟨hpn, hsmall, hmem⟩
    have hthis {b : BlkInfo} (hh : p.Holds b) (hle : b.base ≤ p.baseAddr + pn * PAGESIZE + off)
        (hlt : p.baseAddr + pn * PAGESIZE + off < b.base + b.size) :
        p.freebits (slotBit pn u) = false ∧ b = p.block pn bin u := by
      obtain ⟨bin', u', hs', hf, rfl, hle', hlt'⟩ := hsame hh hle hlt
      obtain rfl := hs.eq_bin hs'
      have he : u' = u := by rw [hu, binbase_of_slot hs'.offset hle' hlt']
      exact he ▸ ⟨hf, rfl⟩
    cases hf : p.freebits (slotBit pn u)
    case true =>
      refine ⟨none, ?_, ?_, fun _ he => absurd he (Option.some_ne_none _).symm, fun b hh hle hlt => ?_⟩
      · rw [SmallObjectPool.findBase]
        simp only [hoffset, hpage, hsmall, baseOffset_eq ho, ← hu, hbit, hf]
        rfl
      · rw [SmallObjectPool.getInfo, pagenumOf_eq ho, hsmall]
        simp only [baseOffset_addr h.aligned ho, ← hu, slotBit_eq, hf]
        rfl
      · rw [(hthis hh hle hlt).1] at hf
        cases hf
    case false =>
      refine ⟨some (p.block pn bin u), ?_, ?_, ?_, fun b hh hle hlt => ?_⟩
      · rw [SmallObjectPool.findBase]
        simp only [hoffset, hpage, hsmall, baseOffset_eq ho, ← hu, hbit, hf]
        simp [block, Nat.add_assoc]
      · rw [SmallObjectPool.getInfo, pagenumOf_eq ho, hsmall]
        simp only [baseOffset_addr h.aligned ho, ← hu, slotBit_eq, hf]
        rfl
      · rintro b he
        cases he
        refine ⟨⟨pn, bin, u, hs, hf, rfl⟩, ?_, ?_⟩
        · simp only [block]
          omega
        · simp only [block]
          omega
      · rw [(hthis hh hle hlt).2]

theorem baseOffset_slot (hu : u ∈ slotOffsets bin) :
    baseOffset (pn * PAGESIZE + u) bin = pn * PAGESIZE + u := by
  have hpos := binsize_pos bin
  rw [baseOffset_eq (slot_lt hu), binbase_of_slot hu (Nat.le_refl u) (by omega)]

-- An address in a page of bin's is the base offset of its slot, or an interior pointer.
theorem slot_or_interior (hb : p.baseAddr ≤ ptr) (ht : ptr < p.topAddr)
    (hs : p.pagetable (p.pagenumOf ptr) = .B_SMALL bin) :
    (∃ u, p.IsSlot (p.pagenumOf ptr) bin u ∧ ptr = p.baseAddr + p.pagenumOf ptr * PAGESIZE + u) ∨
      ptr - p.baseAddr ≠ baseOffset (ptr - p.baseAddr) bin ∧ ∀ b, p.Holds b → b.base ≠ ptr := by
  obtain ⟨pn, hpn, off, ho, rfl⟩ := exists_offset hb ht
  rw [pagenumOf_eq ho] at hs ⊢
  by_cases hmem : off ∈ slotOffsets bin
  case pos => exact .inl ⟨off, ⟨hpn, hs, hmem⟩, rfl⟩
  case neg =>
    refine .inr ⟨fun he => hmem ?_, fun b hh he => hmem ?_⟩
    · rw [show p.baseAddr + pn * PAGESIZE + off - p.baseAddr = pn * PAGESIZE + off by omega,
        baseOffset_eq ho, Nat.add_left_cancel_iff] at he
      exact he ▸ binbase_mem bin off
    · obtain ⟨pn', bin', u, hs', _, rfl⟩ := hh
      have hlt := slot_lt hs'.offset
      obtain ⟨rfl, rfl⟩ : pn' = pn ∧ u = off := by
        simp only [block, PAGESIZE] at *
        omega
      exact Bins.B_SMALL.inj (hs'.small.symm.trans hs) ▸ hs'.offset

theorem holds_base (hs : p.IsSlot pn bin u) :
    (∃ b, p.Holds b ∧ b.base = p.baseAddr + pn * PAGESIZE + u) ↔ p.freebits (slotBit pn u) = false := by
  constructor
  · rintro ⟨b, ⟨pn', bin', u', hs', hf, rfl⟩, he⟩
    obtain ⟨rfl, rfl⟩ := slot_base_inj hs'.offset hs.offset he
    exact hf
  · exact fun hf => ⟨p.block pn bin u, ⟨pn, bin, u, hs, hf, rfl⟩, rfl⟩

theorem holds_eq (hs : p.IsSlot pn bin u) {b : BlkInfo} (hb : p.Holds b)
    (he : b.base = p.baseAddr + pn * PAGESIZE + u) : b = p.block pn bin u := by
  obtain ⟨pn', bin', u', hs', _, rfl⟩ := hb
  obtain ⟨rfl, rfl⟩ := slot_base_inj hs'.offset hs.offset he
  obtain rfl := hs.eq_bin hs'
  rfl

theorem Wf.getSize (h : p.Wf) (hs : p.IsSlot pn bin u) :
    p.getSize (p.baseAddr + pn * PAGESIZE + u) =
      .ok (if p.freebits (slotBit pn u) then 0 else binsize bin) := by
  have hlt := slot_lt hs.offset
  have hpos := binsize_pos bin
  rw [SmallObjectPool.getSize, pagenumOf_eq hlt, hs.small]
  simp only [baseOffset_addr h.aligned hlt,
    binbase_of_slot hs.offset (Nat.le_refl u) (by omega : u < u + binsize bin), slotBit_eq]
  by_cases hf : p.freebits (slotBit pn u) = true <;> simp [hf]

theorem Wf.getSize_interior (h : p.Wf) (hb : p.baseAddr ≤ ptr) (ht : ptr < p.topAddr)
    (hs : p.pagetable (p.pagenumOf ptr) = .B_SMALL bin)
    (hi : ptr - p.baseAddr ≠ baseOffset (ptr - p.baseAddr) bin) : p.getSize ptr = .ok 0 := by
  rw [SmallObjectPool.getSize, hs]
  refine if_pos fun he => hi ?_
  obtain ⟨pn, hpn, off, ho, rfl⟩ := exists_offset hb ht
  rw [baseOffset_addr h.aligned ho, Nat.add_left_cancel_iff] at he
  rw [show p.baseAddr + pn * PAGESIZE + off - p.baseAddr = pn * PAGESIZE + off by omega,
    baseOffset_eq ho, ← he]

end Lookup
end SmallObjectPool
end Runtime.GC
