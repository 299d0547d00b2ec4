import DmdModel.Runtime.GC.Theorems.SmallObjectPool

open BoundaryTags Threaded

namespace Runtime.GC.SmallObjectPool

variable {p q : SmallObjectPool} {bin : Fin B_NUMSMALL} {mark : Nat → Bool} {i n pn u : Nat}

-- The objects of a page that `sweep` frees, by their bits in the page.
def toFree (p : SmallObjectPool) (mark : Nat → Bool) (pn i : Nat) : Bool :=
  !p.freebits (pn * PAGEBITS + i) && !mark (pn * PAGEBITS + i)

def clean (p : SmallObjectPool) (mark : Nat → Bool) (pn : Nat) : SmallObjectPool :=
  p.freePageBits pn (p.toFree mark pn)

theorem inPage_iff : (pn * PAGEBITS ≤ i ∧ i < (pn + 1) * PAGEBITS ∧
    p.toFree mark pn (i - pn * PAGEBITS) = true) ↔
    i / PAGEBITS = pn ∧ p.freebits i = false ∧ mark i = false := by
  have hdiv : i / PAGEBITS = pn ↔ pn * PAGEBITS ≤ i ∧ i < (pn + 1) * PAGEBITS := by
    rw [Nat.div_eq_iff (by decide)]
    simp only [PAGEBITS, PAGESIZE]
    omega
  rw [hdiv, and_assoc]
  refine and_congr_right fun hle => and_congr_right fun _ => ?_
  rw [toFree, Nat.add_sub_cancel' hle]
  simp

theorem clean_freebits (i : Nat) : (p.clean mark pn).freebits i =
    if i / PAGEBITS = pn then p.freebits i || !mark i else p.freebits i := by
  rw [clean, freePageBits]
  simp only [inPage_iff]
  by_cases hi : i / PAGEBITS = pn
  case neg => simp [hi]
  case pos => cases p.freebits i <;> cases mark i <;> simp [hi]

theorem clean_attrs (i : Nat) : (p.clean mark pn).attrs i =
    if i / PAGEBITS = pn ∧ p.freebits i = false ∧ mark i = false then 0 else p.attrs i := by
  rw [clean, freePageBits]
  simp only [inPage_iff]

-- Without objects to free, nothing changes.
theorem clean_eq_self (h : ∀ i, i / PAGEBITS = pn → p.freebits i = false → mark i = true) :
    p.clean mark pn = p := by
  have hb : (p.clean mark pn).freebits = p.freebits := by
    funext i
    rw [clean_freebits]
    by_cases hi : i / PAGEBITS = pn
    case neg => rw [if_neg hi]
    case pos =>
      cases hf : p.freebits i with
      | true => simp
      | false => simp [h i hi hf]
  have ha : (p.clean mark pn).attrs = p.attrs := by
    funext i
    rw [clean_attrs]
    refine if_neg fun hc => ?_
    rw [h i hc.1 hc.2.1] at hc
    exact absurd hc.2.2 Bool.true_eq_false_eq_False
  calc
    p.clean mark pn =
      { p with freebits := (p.clean mark pn).freebits, attrs := (p.clean mark pn).attrs } := rfl
    _ = p := by rw [hb, ha]

theorem Built.clean (h : p.Built n) (mark : Nat → Bool) (pn : Nat) : (p.clean mark pn).Built n := by
  constructor
  case npages_lt => exact h.npages_lt
  case aligned => exact h.aligned
  case top_le => exact h.top_le
  case le => exact h.le
  case kind => exact h.kind
  case freepages => exact h.freepages
  case free => exact h.free
  case recover => exact h.recover
  case slot =>
    intro i hi
    have hf : p.freebits i = false := by
      rw [clean_freebits] at hi
      split at hi
      · exact (Bool.or_eq_false_iff.mp hi).1
      · exact hi
    obtain ⟨pn', bin, u, hs, he⟩ := h.slot i hf
    exact ⟨pn', bin, u, ⟨hs.page, hs.small, hs.offset⟩, he⟩
  case attrs =>
    intro i hi
    rw [clean_attrs]
    split
    case isTrue => rfl
    case isFalse hc =>
      refine h.attrs i ?_
      rw [clean_freebits] at hi
      by_contra hf
      have hf := Bool.eq_false_of_not_eq_true hf
      by_cases hp : i / PAGEBITS = pn
      · rw [if_pos hp, hf, Bool.false_or, Bool.not_eq_true'] at hi
        exact hc ⟨hp, hf, hi⟩
      · rw [if_neg hp, hf] at hi
        cases hi
  case dead =>
    intro pn' hpn bin hs hr
    obtain ⟨u, hu, hf⟩ := h.dead pn' hpn bin hs hr
    refine ⟨u, hu, ?_⟩
    rw [clean_freebits, hf]
    split <;> rfl

section Links

-- Link the next page, which is small, and set the heads of the recover chains.
@[simps]
def relink (p : SmallObjectPool) (n : Nat) (link : UInt32) (heads : Fin B_NUMSMALL → UInt32) :
    SmallObjectPool :=
  { p with
    binPageChain     := Function.update p.binPageChain n link
    recoverPageFirst := heads }

variable {link : UInt32} {heads : Fin B_NUMSMALL → UInt32}

theorem relink_next : (p.relink n link heads).next = Function.update p.next n link.toNat :=
  Function.comp_update _ _ _ _

theorem relink_recovered_of_ne (hne : pn ≠ n) :
    (p.relink n link heads).Recovered pn ↔ p.Recovered pn := by
  rw [Recovered, relink_binPageChain, Function.update_of_ne hne, Recovered]

theorem relink_recovered_self : (p.relink n link heads).Recovered n ↔ link = PageRecovered := by
  rw [Recovered, relink_binPageChain, Function.update_self]

-- A small page behind those that are linked is in no chain.
theorem not_mem_free {l : List Nat} (hs : p.pagetable n = .B_SMALL bin)
    (hm : ∀ pn, pn ∈ l ↔ pn < p.npages ∧ p.pagetable pn = .B_FREE) : n ∉ l := by
  intro hin
  rw [((hm n).mp hin).2] at hs
  cases hs

theorem not_mem_recover {l : List Nat} {P : Nat → Prop} (hm : ∀ pn, pn ∈ l ↔ pn < n ∧ P pn) : n ∉ l :=
  fun hin => absurd ((hm n).mp hin).1 (Nat.lt_irrefl n)

theorem Built.relink (h : p.Built n) (hlt : n < p.npages) (hs : p.pagetable n = .B_SMALL bin)
    (hr : ∀ bin', ∃ l, Chain (p.relink n link heads).next p.npages (heads bin').toNat l ∧
      ∀ pn, pn ∈ l ↔ pn < n + 1 ∧ p.pagetable pn = .B_SMALL bin' ∧
        ¬(p.relink n link heads).Recovered pn)
    (hd : link ≠ PageRecovered → ∃ u ∈ slotOffsets bin, p.freebits (slotBit n u) = true) :
    (p.relink n link heads).Built (n + 1) := by
  constructor
  case npages_lt => exact h.npages_lt
  case aligned => exact h.aligned
  case top_le => exact h.top_le
  case le => exact hlt
  case kind => exact h.kind
  case attrs => exact h.attrs
  case freepages => exact h.freepages
  case recover => exact hr
  case slot =>
    intro i hi
    obtain ⟨pn, bin', u, hs', he⟩ := h.slot i hi
    exact ⟨pn, bin', u, ⟨hs'.page, hs'.small, hs'.offset⟩, he⟩
  case free =>
    obtain ⟨l, hc, hm⟩ := h.free
    rw [relink_next]
    exact ⟨l, hc.update (not_mem_free hs hm) _, hm⟩
  case dead =>
    intro pn hpn bin' hs' hr'
    by_cases he : pn = n
    · subst he
      obtain rfl := Bins.B_SMALL.inj (hs'.symm.trans hs)
      exact hd fun hl => hr' (relink_recovered_self.mpr hl)
    · exact h.dead pn (by omega) bin' hs' ((relink_recovered_of_ne he).not.mp hr')

-- The page has no free slot to recover, and is in no recover chain.
theorem Built.keep (h : p.Built n) (hlt : n < p.npages) (hs : p.pagetable n = .B_SMALL bin) :
    (p.relink n PageRecovered p.recoverPageFirst).Built (n + 1) := by
  refine h.relink hlt hs (fun bin' => ?_) fun hne => absurd rfl hne
  obtain ⟨l, hc, hm⟩ := h.recover bin'
  rw [relink_next]
  refine ⟨l, hc.update (not_mem_recover hm) _, fun pn => ?_⟩
  rw [hm]
  by_cases he : pn = n
  · subst he
    simp [relink_recovered_self]
  · rw [relink_recovered_of_ne he, Nat.lt_succ_iff_lt_or_eq, or_iff_left he]

-- The page is put in front of the recover chain of its bin.
theorem Built.chain (h : p.Built n) (hlt : n < p.npages) (hs : p.pagetable n = .B_SMALL bin)
    (hd : ∃ u ∈ slotOffsets bin, p.freebits (slotBit n u) = true) :
    (p.addToRecoverChain n bin).Built (n + 1) := by
  obtain ⟨l, hc, hm⟩ := h.recover bin
  have hnp := h.npages_lt
  have hn : n.toUInt32.toNat = n := by simp; omega
  have hlink : p.recoverPageFirst bin ≠ PageRecovered := by
    intro he
    have := hc.le
    rw [he, PageRecovered] at this
    exact absurd this (by simp; omega)
  refine h.relink hlt hs (fun bin' => ?_) fun _ => hd
  rw [relink_next]
  by_cases hb : bin' = bin
  case pos =>
    subst hb
    refine ⟨n :: l, ?_, fun pn => ?_⟩
    · rw [Function.update_self, hn]
      exact hc.push hlt (not_mem_recover hm)
    · rw [List.mem_cons, hm]
      by_cases he : pn = n
      · subst he
        simp [relink_recovered_self, hlink, hs]
      · rw [relink_recovered_of_ne he, Nat.lt_succ_iff_lt_or_eq, or_iff_left he, or_iff_right he]
  case neg =>
    obtain ⟨l', hc', hm'⟩ := h.recover bin'
    refine ⟨l', ?_, fun pn => ?_⟩
    · rw [Function.update_of_ne hb]
      exact hc'.update (not_mem_recover hm') _
    · rw [hm']
      by_cases he : pn = n
      · subst he
        have hne : bin ≠ bin' := fun he => hb he.symm
        simp [hs, hne]
      · rw [relink_recovered_of_ne he, Nat.lt_succ_iff_lt_or_eq, or_iff_left he]

-- The pool after a page without objects became free.
def releasePage (p : SmallObjectPool) (n : Nat) : SmallObjectPool :=
  { p with
    pagetable    := Function.update p.pagetable n .B_FREE
    binPageChain := Function.update p.binPageChain n p.searchStart.toUInt32
    searchStart  := n
    freepages    := p.freepages + 1 }

theorem Built.releasePage (h : p.Built n) (hlt : n < p.npages) (hs : p.pagetable n = .B_SMALL bin)
    (hf : ∀ u ∈ slotOffsets bin, p.freebits (slotBit n u) = true) :
    (p.releasePage n).Built (n + 1) := by
  obtain ⟨l, hc, hm⟩ := h.free
  have hnp := h.npages_lt
  have hstart : p.searchStart.toUInt32.toNat = p.searchStart := by
    have := hc.le
    simp
    omega
  have hnext : (p.releasePage n).next = Function.update p.next n p.searchStart := by
    rw [← hstart]
    exact Function.comp_update _ _ _ _
  have hpage {pn : Nat} (hne : pn ≠ n) : (p.releasePage n).pagetable pn = p.pagetable pn :=
    Function.update_of_ne hne _ _
  have hself : (p.releasePage n).pagetable n = .B_FREE := Function.update_self _ _ _
  have hrec {pn : Nat} (hne : pn ≠ n) : (p.releasePage n).Recovered pn ↔ p.Recovered pn := by
    rw [Recovered, SmallObjectPool.releasePage]
    simp only [Function.update_of_ne hne]
    rfl
  constructor
  case npages_lt => exact hnp
  case aligned => exact h.aligned
  case top_le => exact h.top_le
  case le => exact hlt
  case attrs => exact h.attrs
  case kind =>
    intro pn hpn
    by_cases he : pn = n
    · exact .inl (he ▸ hself)
    · rw [hpage he]
      exact h.kind pn hpn
  case slot =>
    intro i hi
    obtain ⟨pn, bin', u, hs', he⟩ := h.slot i hi
    have hne : pn ≠ n := by
      rintro rfl
      obtain rfl := Bins.B_SMALL.inj (hs'.small.symm.trans hs)
      have := hf u hs'.offset
      rw [← he] at this
      exact absurd (hi.symm.trans this) Bool.false_ne_true
    exact ⟨pn, bin', u, ⟨hs'.page, (hpage hne).trans hs'.small, hs'.offset⟩, he⟩
  case freepages =>
    have hcount := @freeCount_take (p.releasePage n).tag p.tag 1 n p.npages hlt
      (fun i _ _ => tag_eq_free.mpr (by rw [show i = n by omega]; exact hself))
      (fun i _ _ hf => by
        rw [tag_eq_free, show i = n by omega, hs] at hf
        cases hf)
      (fun i _ hi => by rw [tag, tag, hpage (by omega)])
    have := h.freepages
    show p.freepages + 1 = freeCount (p.releasePage n).tag p.npages
    omega
  case free =>
    rw [hnext]
    refine ⟨n :: l, hc.push hlt (not_mem_free hs hm), fun pn => ?_⟩
    rw [List.mem_cons, hm]
    by_cases he : pn = n
    · subst he
      simp [hself]
      exact hlt
    · rw [hpage he, or_iff_right he]
      rfl
  case recover =>
    intro bin'
    obtain ⟨l', hc', hm'⟩ := h.recover bin'
    rw [hnext]
    refine ⟨l', hc'.update (not_mem_recover hm') _, fun pn => ?_⟩
    rw [hm']
    by_cases he : pn = n
    · subst he
      simp [hself]
    · rw [hpage he, hrec he, Nat.lt_succ_iff_lt_or_eq, or_iff_left he]
  case dead =>
    intro pn hpn bin' hs' hr'
    by_cases he : pn = n
    · rw [he, hself] at hs'
      cases hs'
    · rw [hpage he] at hs'
      exact h.dead pn (by omega) bin' hs' ((hrec he).not.mp hr')

end Links

section Sweep

-- What `sweep` does to one page: the objects that are not marked are freed, and the page is free if that
-- leaves none in it.
structure SweptPage (mark : Nat → Bool) (p q : SmallObjectPool) (n freed : Nat) : Prop where
  baseAddr  : q.baseAddr = p.baseAddr
  npages    : q.npages = p.npages
  pagetable : ∀ pn, q.pagetable pn = p.pagetable pn ∨ pn = n ∧ q.pagetable pn = .B_FREE
  freebits  : ∀ i, q.freebits i = if i / PAGEBITS = n then p.freebits i || !mark i else p.freebits i
  attrs     : ∀ i, q.freebits i = false → q.attrs i = p.attrs i
  freepages : q.freepages = p.freepages + freed
  recovered : ∀ pn, pn ≠ n → (q.Recovered pn ↔ p.Recovered pn)

-- A page that is recovered has no free slot.
def Full (p : SmallObjectPool) (pn : Nat) : Prop :=
  ∀ bin, p.pagetable pn = .B_SMALL bin → p.Recovered pn →
    ∀ u ∈ slotOffsets bin, p.freebits (slotBit pn u) = false

theorem full_of_free (h : p.pagetable pn = .B_FREE) : p.Full pn := by
  intro bin hs
  rw [hs] at h
  cases h

theorem Built.addToRecoverChain_full (h : p.Built n) (bin : Fin B_NUMSMALL) (pn : Nat) :
    (p.addToRecoverChain pn bin).Full pn := by
  intro bin' _ hr
  obtain ⟨l, hc, _⟩ := h.recover bin
  have hle := hc.le
  have hlt := h.npages_lt
  have hself : (p.addToRecoverChain pn bin).binPageChain pn = p.recoverPageFirst bin :=
    Function.update_self _ _ _
  rw [← hself, hr, PageRecovered] at hle
  exact absurd hle (by simp; omega)

-- The bits of a page are those of its 16 byte units.
theorem exists_bit (hi : i / PAGEBITS = n) : ∃ k ∈ List.range PAGEBITS, i = n * PAGEBITS + k := by
  refine ⟨i % PAGEBITS, List.mem_range.mpr (Nat.mod_lt _ (by decide)), ?_⟩
  have := Nat.div_add_mod i PAGEBITS
  rw [hi, Nat.mul_comm] at this
  exact this.symm

theorem bit_div {k : Nat} (hk : k ∈ List.range PAGEBITS) : (n * PAGEBITS + k) / PAGEBITS = n := by
  have := List.mem_range.mp hk
  rw [Nat.mul_comm, Nat.mul_add_div (by decide), Nat.div_eq_of_lt this, Nat.add_zero]

theorem baseOffsetBits_iff {k : Nat} : baseOffsetBits bin k = true ↔ ∃ u ∈ slotOffsets bin, u / 16 = k := by
  simp [baseOffsetBits]

-- An allocated object begins at a base offset.
theorem Built.base_of_allocated {k : Nat} (h : p.Built n) (hs : p.pagetable n = .B_SMALL bin)
    (hk : k ∈ List.range PAGEBITS) (hf : p.freebits (n * PAGEBITS + k) = false) :
    ∃ u ∈ slotOffsets bin, u / 16 = k := by
  obtain ⟨pn, bin', u, hs', he⟩ := h.slot _ hf
  have hpn : n = pn := by rw [← slotBit_div hs'.offset pn, ← he, bit_div hk]
  subst hpn
  obtain rfl := Bins.B_SMALL.inj (hs'.small.symm.trans hs)
  refine ⟨u, hs'.offset, ?_⟩
  rw [slotBit] at he
  omega

theorem clean_swept : SweptPage mark p (p.clean mark n) n 0 where
  baseAddr     := rfl
  npages       := rfl
  pagetable _  := .inl rfl
  freebits     := clean_freebits
  freepages    := rfl
  recovered _ _ := .rfl
  attrs i hi   := by
    rw [clean_attrs]
    refine if_neg fun hc => ?_
    rw [clean_freebits, if_pos hc.1, hc.2.1, hc.2.2] at hi
    exact absurd hi Bool.true_eq_false_eq_False

-- Whether a page is free, and how it is linked, does not affect the objects.
theorem SweptPage.link {q' : SmallObjectPool} {freed : Nat} (h : SweptPage mark p q n 0)
    (hb : q'.baseAddr = q.baseAddr) (hn : q'.npages = q.npages)
    (hp : ∀ pn, q'.pagetable pn = q.pagetable pn ∨ pn = n ∧ q'.pagetable pn = .B_FREE)
    (hf : q'.freebits = q.freebits) (ha : q'.attrs = q.attrs)
    (hc : q'.freepages = q.freepages + freed)
    (hr : ∀ pn, pn ≠ n → q'.binPageChain pn = q.binPageChain pn) : SweptPage mark p q' n freed where
  baseAddr     := hb.trans h.baseAddr
  npages       := hn.trans h.npages
  pagetable pn := by
    rcases hp pn with he | he
    · exact he ▸ h.pagetable pn
    · exact .inr he
  freebits i   := hf ▸ h.freebits i
  attrs i hi   := ha ▸ h.attrs i (hf ▸ hi)
  freepages    := hc.trans (congrArg (· + freed) h.freepages)
  recovered pn hpn := by
    rw [Recovered, hr pn hpn]
    exact h.recovered pn hpn

theorem freeAllPageBits_eq (h : p.Built n)
    (hall : ∀ i, i / PAGEBITS = n → p.freebits i = false → mark i = false) :
    p.freeAllPageBits n = p.clean mark n := by
  have hin (i : Nat) : (n * PAGEBITS ≤ i ∧ i < (n + 1) * PAGEBITS) ↔ i / PAGEBITS = n := by
    rw [Nat.div_eq_iff (by decide)]
    simp only [PAGEBITS, PAGESIZE]
    omega
  have hb : (p.freeAllPageBits n).freebits = (p.clean mark n).freebits := by
    funext i
    rw [clean_freebits, freeAllPageBits, freePageBits]
    simp only [and_true, hin]
    by_cases hi : i / PAGEBITS = n
    case neg => rw [if_neg hi, if_neg hi]
    case pos =>
      cases hf : p.freebits i with
      | true => simp
      | false => simp [hi, hall i hi hf]
  have ha : (p.freeAllPageBits n).attrs = (p.clean mark n).attrs := by
    funext i
    rw [clean_attrs, freeAllPageBits, freePageBits]
    simp only [and_true, hin]
    by_cases hi : i / PAGEBITS = n
    case neg => simp [hi]
    case pos =>
      cases hf : p.freebits i with
      | true => simp [h.attrs i hf]
      | false => simp [hi, hall i hi hf]
  calc
    p.freeAllPageBits n = { p with
      freebits := (p.freeAllPageBits n).freebits
      attrs    := (p.freeAllPageBits n).attrs } := rfl
    _ = p.clean mark n := by
      rw [hb, ha]
      rfl

theorem sweepPage_eq (hs : p.pagetable n = .B_SMALL bin) (freed : Nat) :
    sweepPage mark (freed, p) n =
      if (List.range PAGEBITS).all fun i => !p.toFree mark n i then
        if (List.range PAGEBITS).any fun i =>
            !p.freebits (n * PAGEBITS + i) != baseOffsetBits bin i then
          .ok (freed, p.addToRecoverChain n bin)
        else
          .ok (freed, p.relink n PageRecovered p.recoverPageFirst)
      else if (List.range PAGEBITS).any fun i =>
          baseOffsetBits bin i && !mark (n * PAGEBITS + i) && !p.toFree mark n i then
        .error .assertion
      else if (List.range PAGEBITS).all fun i =>
          !p.freebits (n * PAGEBITS + i) == p.toFree mark n i then
        .ok (freed + 1, (p.freeAllPageBits n).releasePage n)
      else
        .ok (freed, (p.clean mark n).addToRecoverChain n bin) := by
  rw [sweepPage]
  simp only [hs]
  rfl

theorem sweepPage_spec (h : p.Built n) (hlt : n < p.npages)
    (hm : ∀ i, i / PAGEBITS = n → p.freebits i = true → mark i = true) (freed : Nat) :
    ∃ q k, sweepPage mark (freed, p) n = .ok (freed + k, q) ∧ q.Built (n + 1) ∧
      SweptPage mark p q n k ∧ q.Full n := by
  rcases h.kind n hlt with hfree | ⟨bin, hs⟩
  case inl =>
    have hbits : ∀ i, i / PAGEBITS = n → p.freebits i = true := by
      intro i hi
      by_contra hf
      obtain ⟨pn, bin, u, hs, he⟩ := h.slot i (Bool.eq_false_of_not_eq_true hf)
      rw [he, slotBit_div hs.offset] at hi
      rw [← hi, hs.small] at hfree
      cases hfree
    have hself : p.clean mark n = p :=
      clean_eq_self fun i hi hf => absurd (hf.symm.trans (hbits i hi)) Bool.false_ne_true
    have hsmall {bin : Fin B_NUMSMALL} : p.pagetable n ≠ .B_SMALL bin := by simp [hfree]
    refine ⟨p, 0, by rw [sweepPage]; simp [hfree], ?_, ?_, full_of_free hfree⟩
    case refine_2 =>
      have hc := @clean_swept p mark n
      rwa [hself] at hc
    constructor
    case npages_lt => exact h.npages_lt
    case aligned => exact h.aligned
    case top_le => exact h.top_le
    case le => exact hlt
    case kind => exact h.kind
    case slot => exact h.slot
    case attrs => exact h.attrs
    case freepages => exact h.freepages
    case free => exact h.free
    case recover =>
      intro bin
      obtain ⟨l, hc, hm⟩ := h.recover bin
      refine ⟨l, hc, fun pn => ?_⟩
      rw [hm, Nat.lt_succ_iff_lt_or_eq]
      by_cases he : pn = n
      · subst he
        simp [hfree]
      · rw [or_iff_left he]
    case dead =>
      intro pn hpn bin hs hr
      have hne : pn ≠ n := by
        rintro rfl
        exact hsmall hs
      exact h.dead pn (by omega) bin hs hr
  case inr =>
    -- the bits of the page, and those of the objects to free
    have hunit {k : Nat} (hk : k ∈ List.range PAGEBITS) := @bit_div n k hk
    have hfreed {k : Nat} : p.toFree mark n k = true ↔
        p.freebits (n * PAGEBITS + k) = false ∧ mark (n * PAGEBITS + k) = false := by
      simp [toFree]
    have hdead {k : Nat} (hk : k ∈ List.range PAGEBITS) (hu : ∃ u ∈ slotOffsets bin, u / 16 = k)
        (hf : p.freebits (n * PAGEBITS + k) = true ∨ mark (n * PAGEBITS + k) = false) :
        ∃ u ∈ slotOffsets bin, (p.clean mark n).freebits (slotBit n u) = true := by
      obtain ⟨u, hu, rfl⟩ := hu
      refine ⟨u, hu, ?_⟩
      rw [slotBit, clean_freebits, if_pos (hunit hk)]
      rcases hf with hf | hf <;> simp [hf]
    have hclean := h.clean mark n
    have hswept := @clean_swept p mark n
    have hs' : (p.clean mark n).pagetable n = .B_SMALL bin := hs
    rw [sweepPage_eq hs]
    by_cases hnone : (List.range PAGEBITS).all (fun i => !p.toFree mark n i) = true
    case pos =>
      -- there is nothing to free
      have hself : p.clean mark n = p := by
        refine clean_eq_self fun i hi hf => ?_
        obtain ⟨k, hk, rfl⟩ := exists_bit hi
        have hk' := List.all_eq_true.mp hnone k hk
        by_contra hmark
        rw [hfreed.mpr ⟨hf, Bool.eq_false_of_not_eq_true hmark⟩] at hk'
        cases hk'
      rw [if_pos hnone]
      by_cases hany : ((List.range PAGEBITS).any fun i =>
          !p.freebits (n * PAGEBITS + i) != baseOffsetBits bin i) = true
      case pos =>
        rw [if_pos hany]
        obtain ⟨k, hk, hne⟩ := List.any_eq_true.mp hany
        refine ⟨_, 0, rfl, h.chain hlt hs (hself ▸ hdead hk ?_ ?_), ?_, h.addToRecoverChain_full bin n⟩
        · by_cases hf : p.freebits (n * PAGEBITS + k) = true
          · rw [hf] at hne
            exact baseOffsetBits_iff.mp (by simpa using hne)
          · exact h.base_of_allocated hs hk (Bool.eq_false_of_not_eq_true hf)
        · by_contra hc
          obtain ⟨hf, _⟩ := not_or.mp hc
          have hf := Bool.eq_false_of_not_eq_true hf
          rw [hf, baseOffsetBits_iff.mpr (h.base_of_allocated hs hk hf)] at hne
          cases hne
        · rw [hself] at hswept
          exact hswept.link rfl rfl (fun _ => .inl rfl) rfl rfl rfl fun pn hpn => Function.update_of_ne hpn _ _
      case neg =>
        rw [if_neg hany]
        refine ⟨_, 0, rfl, h.keep hlt hs, ?_, fun bin' hs'' _ u hu => ?_⟩
        · rw [hself] at hswept
          exact hswept.link rfl rfl (fun _ => .inl rfl) rfl rfl rfl fun pn hpn => Function.update_of_ne hpn _ _
        · -- the bits of the allocated objects are those of all slots
          obtain rfl := Bins.B_SMALL.inj (hs.symm.trans hs'')
          have hlt := slot_lt hu
          have hk : u / 16 ∈ List.range PAGEBITS := by
            rw [List.mem_range, PAGEBITS]
            simp only [PAGESIZE] at *
            omega
          have heq := List.any_eq_false.mp (Bool.eq_false_of_not_eq_true hany) _ hk
          rw [baseOffsetBits_iff.mpr ⟨u, hu, rfl⟩] at heq
          simpa [relink, slotBit] using heq
    case neg =>
      rw [if_neg hnone, if_neg]
      case hnc =>
        -- an object that is not marked is not free, and so it is to be freed
        intro hany
        obtain ⟨k, hk, hc⟩ := List.any_eq_true.mp hany
        have hmark : mark (n * PAGEBITS + k) = false := by
          by_contra hmark
          simp [Bool.eq_true_of_not_eq_false hmark] at hc
        have hf : p.freebits (n * PAGEBITS + k) = false := by
          by_contra hf
          exact absurd (hmark.symm.trans (hm _ (hunit hk) (Bool.eq_true_of_not_eq_false hf)))
            Bool.false_ne_true
        rw [hfreed.mpr ⟨hf, hmark⟩] at hc
        simp at hc
      by_cases hall : ((List.range PAGEBITS).all fun i =>
          !p.freebits (n * PAGEBITS + i) == p.toFree mark n i) = true
      case pos =>
        have hunmarked : ∀ i, i / PAGEBITS = n → p.freebits i = false → mark i = false := by
          intro i hi hf
          obtain ⟨k, hk, rfl⟩ := exists_bit hi
          have hk' := List.all_eq_true.mp hall k hk
          rw [hf] at hk'
          exact (hfreed.mp (by simpa using hk')).2
        refine ⟨(p.clean mark n).releasePage n, 1, ?_, hclean.releasePage hlt hs' fun u hu => ?_, ?_,
          full_of_free (Function.update_self _ _ _)⟩
        · rw [if_pos hall, freeAllPageBits_eq h hunmarked]
        · rw [clean_freebits, if_pos (slotBit_div hu n)]
          cases hf : p.freebits (slotBit n u) with
          | true => rfl
          | false => rw [hunmarked _ (slotBit_div hu n) hf]; rfl
        · refine hswept.link rfl rfl (fun pn => ?_) rfl rfl rfl fun pn hpn => Function.update_of_ne hpn _ _
          by_cases he : pn = n
          · exact .inr ⟨he, he ▸ Function.update_self _ _ _⟩
          · exact .inl (Function.update_of_ne he _ _)
      case neg =>
        refine ⟨(p.clean mark n).addToRecoverChain n bin, 0, if_neg hall, ?_, ?_,
          hclean.addToRecoverChain_full bin n⟩
        · obtain ⟨k, hk, hf⟩ : ∃ k ∈ List.range PAGEBITS, p.toFree mark n k = true := by
            by_contra hc
            refine hnone (List.all_eq_true.mpr fun k hk => ?_)
            rw [Bool.not_eq_true']
            exact Bool.eq_false_of_not_eq_true fun hf => hc ⟨k, hk, hf⟩
          obtain ⟨hf, hmark⟩ := hfreed.mp hf
          exact hclean.chain hlt hs' (hdead hk (h.base_of_allocated hs hk hf) (.inr hmark))
        · exact hswept.link rfl rfl (fun _ => .inl rfl) rfl rfl rfl fun pn hpn => Function.update_of_ne hpn _ _

-- What `sweep` does to the pages up to `n`.
structure SweptTo (mark : Nat → Bool) (p q : SmallObjectPool) (n freed : Nat) : Prop where
  built     : q.Built n
  baseAddr  : q.baseAddr = p.baseAddr
  npages    : q.npages = p.npages
  pagetable : ∀ pn, q.pagetable pn = p.pagetable pn ∨ q.pagetable pn = .B_FREE
  freebits  : ∀ i, q.freebits i = if i / PAGEBITS < n then p.freebits i || !mark i else p.freebits i
  attrs     : ∀ i, q.freebits i = false → q.attrs i = p.attrs i
  freepages : q.freepages = p.freepages + freed
  full      : ∀ pn < n, q.Full pn

def Swept (mark : Nat → Bool) (p q : SmallObjectPool) (freed : Nat) : Prop :=
  SweptTo mark p q p.npages freed

-- The recover chains are empty to begin with.
theorem Wf.restart (h : p.Wf) :
    { p with recoverPageFirst := fun _ => p.npages.toUInt32 }.Built 0 := by
  have hn : p.npages.toUInt32.toNat = p.npages := by
    have := h.npages_lt
    simp
    omega
  constructor
  case npages_lt => exact h.npages_lt
  case aligned => exact h.aligned
  case top_le => exact h.top_le
  case le => exact Nat.zero_le _
  case kind => exact h.kind
  case attrs => exact h.attrs
  case freepages => exact h.freepages
  case free => exact h.free
  case dead => exact fun pn hpn => absurd hpn (Nat.not_lt_zero pn)
  case slot =>
    intro i hi
    obtain ⟨pn, bin, u, hs, he⟩ := h.slot i hi
    exact ⟨pn, bin, u, ⟨hs.page, hs.small, hs.offset⟩, he⟩
  case recover =>
    refine fun bin => ⟨[], ?_, fun pn => by simp⟩
    show Chain _ p.npages p.npages.toUInt32.toNat []
    rw [hn]
    exact .nil

theorem SweptTo.step {freed : Nat} (hm : ∀ i, p.freebits i = true → mark i = true)
    (h : SweptTo mark p q n freed) (hlt : n < p.npages) :
    ∃ q' k, sweepPage mark (freed, q) n = .ok (freed + k, q') ∧ SweptTo mark p q' (n + 1) (freed + k) := by
  have hbit {i : Nat} (hi : i / PAGEBITS = n) : q.freebits i = p.freebits i := by
    rw [h.freebits, if_neg (by omega)]
  obtain ⟨q', k, hr, hb, hs, hfull⟩ := sweepPage_spec h.built (h.npages ▸ hlt)
    (fun i hi hf => hm i (hbit hi ▸ hf)) freed
  refine ⟨q', k, hr, hb, hs.baseAddr.trans h.baseAddr, hs.npages.trans h.npages, fun pn => ?_,
    fun i => ?_, fun i hi => ?_, ?_, fun pn hpn => ?_⟩
  · rcases hs.pagetable pn with he | ⟨_, he⟩
    · rw [he]
      exact h.pagetable pn
    · exact .inr he
  · rw [hs.freebits]
    by_cases hi : i / PAGEBITS = n
    · rw [if_pos hi, if_pos (by omega), hbit hi]
    · rw [if_neg hi, h.freebits]
      by_cases hlt : i / PAGEBITS < n
      · rw [if_pos hlt, if_pos (by omega)]
      · rw [if_neg hlt, if_neg (by omega)]
  · rw [hs.attrs i hi]
    refine h.attrs i ?_
    rw [hs.freebits] at hi
    split at hi
    · exact (Bool.or_eq_false_iff.mp hi).1
    · exact hi
  · rw [hs.freepages, h.freepages, Nat.add_assoc]
  · by_cases he : pn = n
    · exact he ▸ hfull
    · intro bin hsmall hr u hu
      have hsmall' : q.pagetable pn = .B_SMALL bin := by
        rcases hs.pagetable pn with h | ⟨h, _⟩
        · exact h ▸ hsmall
        · exact absurd h he
      rw [hs.freebits, if_neg (by rw [slotBit_div hu]; exact he)]
      exact h.full pn (by omega) bin hsmall' ((hs.recovered pn he).mp hr) u hu

theorem sweep_spec (h : p.Wf) (hm : ∀ i, p.freebits i = true → mark i = true) :
    ∃ freed q, p.sweep mark = .ok (freed, q) ∧ Swept mark p q freed := by
  have hto : ∀ n ≤ p.npages, ∃ freed q, (List.range n).foldlM (sweepPage mark)
      (0, { p with recoverPageFirst := fun _ => p.npages.toUInt32 }) = .ok (freed, q) ∧
      SweptTo mark p q n freed := by
    intro n hn
    induction n with
    | zero =>
      exact ⟨0, _, rfl, h.restart, rfl, rfl, fun _ => .inl rfl,
        fun i => (if_neg (Nat.not_lt_zero _)).symm, fun _ _ => rfl, rfl,
        fun pn hpn => absurd hpn (Nat.not_lt_zero pn)⟩
    | succ n hi =>
      obtain ⟨freed, q, hr, hs⟩ := hi (by omega)
      obtain ⟨q', k, hr', hs'⟩ := hs.step hm hn
      refine ⟨freed + k, q', ?_, hs'⟩
      rw [List.range_succ, List.foldlM_append, hr]
      simp only [List.foldlM_cons, List.foldlM_nil, bind, Except.bind, hr']
      rfl
  exact hto p.npages (Nat.le_refl _)

theorem Swept.wf {freed : Nat} (h : Swept mark p q freed) : q.Wf := by
  rw [Wf, h.npages]
  exact h.built

-- The objects that are marked are those that are left.
theorem Swept.holds {marks : Nat → Bool} {freed : Nat} {b : BlkInfo}
    (h : Swept (fun i => p.freebits i || marks (p.baseAddr + i * 16)) p q freed) :
    q.Holds b ↔ p.Holds b ∧ marks b.base = true := by
  have hbit {pn u : Nat} {bin : Fin B_NUMSMALL} (hu : u ∈ slotOffsets bin) :
      p.baseAddr + slotBit pn u * 16 = p.baseAddr + pn * PAGESIZE + u := by
    have := dvd_slot hu
    simp only [slotBit, PAGESIZE, PAGEBITS]
    omega
  constructor
  · rintro ⟨pn, bin, u, hs, hf, rfl⟩
    have hpn : pn < p.npages := h.npages ▸ hs.page
    have hsmall : p.pagetable pn = .B_SMALL bin := by
      rcases h.pagetable pn with he | he
      · exact he ▸ hs.small
      · rw [hs.small] at he
        cases he
    have hattr := h.attrs _ hf
    rw [h.freebits, slotBit_div hs.offset, if_pos hpn] at hf
    obtain ⟨hf, hmark⟩ := Bool.or_eq_false_iff.mp hf
    rw [hf, Bool.false_or, Bool.not_eq_false', @hbit pn u bin hs.offset] at hmark
    refine ⟨⟨pn, bin, u, ⟨hpn, hsmall, hs.offset⟩, hf, ?_⟩, ?_⟩
    · simp only [block, getBits, h.baseAddr, hattr]
    · simp only [block, h.baseAddr]
      exact hmark
  · rintro ⟨⟨pn, bin, u, hs, hf, rfl⟩, hmark⟩
    have hmark' : marks (p.baseAddr + slotBit pn u * 16) = true := by rwa [@hbit pn u bin hs.offset]
    have hf' : q.freebits (slotBit pn u) = false := by
      rw [h.freebits, slotBit_div hs.offset, if_pos hs.page, hf, hmark']
      rfl
    obtain ⟨pn', bin', u', hs', he⟩ := h.built.slot _ hf'
    obtain ⟨rfl, rfl⟩ := slotBit_inj hs.offset hs'.offset he
    have hsmall : q.pagetable pn = .B_SMALL bin := by
      rcases h.pagetable pn with he | he
      · exact he ▸ hs.small
      · rw [hs'.small] at he
        cases he
    refine ⟨pn, bin, u, ⟨h.npages ▸ hs.page, hsmall, hs.offset⟩, hf', ?_⟩
    simp only [block, getBits, h.baseAddr, h.attrs _ hf']

end Sweep
end Runtime.GC.SmallObjectPool
