import DmdModel.Runtime.GC.Theorems.Gcx.Table

namespace Runtime.GC.Gcx

variable {g g' : Gcx} {id a ptr : Nat} {q : Pool} {bin : Fin B_NUMSMALL} {new : Option BlkInfo} {ids : List Nat}

-- A state of the collector: the bucket lists have free slots of pages that are recovered, and no pool
-- before the next one to recover has pages that are not.
structure Wf (g : Gcx) : Prop where
  table       : g.Table
  bucket      : ∀ bin, ∀ s ∈ g.bucket bin, s.pool ∈ g.pooltable ∧ (g.pool s.pool).Ready bin s.addr
  nodup       : ∀ bin, (g.bucket bin).Nodup
  recoverPool : ∀ bin id, g.recoverPool bin = some id →
    id ∈ g.pooltable ∧ (g.pool id).isLargeObject = false ∧ (g.pool id).isFree = false
  waiting     : ∀ bin, ∀ id ∈ g.pooltable, (g.pool id).Waiting bin →
    ∃ first, g.recoverPool bin = some first ∧ (g.pool first).baseAddr ≤ (g.pool id).baseAddr

-- A change of one pool that keeps its place.
structure Keeps (p q : Pool) : Prop where
  wf       : q.Wf
  baseAddr : q.baseAddr = p.baseAddr
  npages   : q.npages = p.npages
  kind     : q.isLargeObject = p.isLargeObject
  used     : p.isLargeObject = false → p.isFree = false → q.isFree = false
  waiting  : ∀ bin, q.Waiting bin → p.Waiting bin

theorem Wf.updated (h : g.Wf) (hu : Updated g g' id q) (hi : id ∈ g.pooltable)
    (hq : Keeps (g.pool id) q)
    (hbucket : ∀ bin, ∀ s ∈ g'.bucket bin, s.pool = id ∧ q.Ready bin s.addr ∨
      s.pool ≠ id ∧ s ∈ g.bucket bin)
    (hnodup : ∀ bin, (g'.bucket bin).Nodup) : g'.Wf where
  table   := hu.table h.table hi hq.wf hq.baseAddr hq.npages
  nodup   := hnodup
  bucket bin s hs := by
    rcases hbucket bin s hs with ⟨rfl, hr⟩ | ⟨hne, hs⟩
    · exact ⟨hu.pooltable ▸ hi, (hu.pool_self h.table hi).symm ▸ hr⟩
    · obtain ⟨hmem, hr⟩ := h.bucket bin s hs
      exact ⟨hu.pooltable ▸ hmem, (hu.pool_of_ne hne).symm ▸ hr⟩
  recoverPool bin j hj := by
    rw [hu.recoverPool] at hj
    obtain ⟨hmem, hsmall, hfree⟩ := h.recoverPool bin j hj
    refine ⟨hu.pooltable ▸ hmem, ?_⟩
    by_cases he : j = id
    case pos =>
      subst he
      rw [hu.pool_self h.table hi]
      exact ⟨hq.kind.trans hsmall, hq.used hsmall hfree⟩
    case neg => exact (hu.pool_of_ne he).symm ▸ ⟨hsmall, hfree⟩
  waiting bin j hj hw := by
    rw [hu.pooltable] at hj
    rw [hu.recoverPool, hu.baseAddr_eq h.table hi hq.baseAddr]
    have hw' : (g.pool j).Waiting bin := by
      by_cases he : j = id
      case pos =>
        subst he
        rw [hu.pool_self h.table hi] at hw
        exact hq.waiting bin hw
      case neg => exact hu.pool_of_ne he ▸ hw
    obtain ⟨first, hf, hle⟩ := h.waiting bin j hj hw'
    exact ⟨first, hf, (hu.baseAddr_eq h.table hi hq.baseAddr first).symm ▸ hle⟩

section Buckets

variable {f : Fin B_NUMSMALL → List Slot} {l : List Slot} {bin' : Fin B_NUMSMALL} {s s' : Slot}

theorem mem_update (hs : s ∈ Function.update f bin l bin') :
    bin' = bin ∧ s ∈ l ∨ bin' ≠ bin ∧ s ∈ f bin' := by
  by_cases he : bin' = bin
  case pos =>
    subst he
    rw [Function.update_self] at hs
    exact .inl ⟨rfl, hs⟩
  case neg =>
    rw [Function.update_of_ne he] at hs
    exact .inr ⟨he, hs⟩

theorem nodup_update (h : ∀ bin, (f bin).Nodup) (hl : l.Nodup) (bin' : Fin B_NUMSMALL) :
    (Function.update f bin l bin').Nodup := by
  by_cases he : bin' = bin
  case pos => rwa [he, Function.update_self]
  case neg =>
    rw [Function.update_of_ne he]
    exact h bin'

-- A slot is in one bucket list.
theorem Wf.slot_unique (h : g.Wf) (hs : s ∈ g.bucket bin) (hs' : s' ∈ g.bucket bin')
    (hp : s.pool = s'.pool) (ha : s.addr = s'.addr) : bin = bin' ∧ s = s' := by
  obtain ⟨_, hr⟩ := h.bucket bin s hs
  obtain ⟨_, hr'⟩ := h.bucket bin' s' hs'
  have heq : s = s' := by
    cases s
    cases s'
    exact Slot.mk.injEq .. ▸ ⟨ha, hp⟩
  subst heq
  refine ⟨?_, rfl⟩
  cases hpool : g.pool s.pool with
  | large p =>
    rw [hpool] at hr
    exact hr.elim
  | small p =>
    rw [hpool] at hr hr'
    obtain ⟨pn, u, hslot, _, _, haddr⟩ := hr
    obtain ⟨pn', u', hslot', _, _, haddr'⟩ := hr'
    obtain ⟨rfl, rfl⟩ := SmallObjectPool.slot_base_inj hslot.offset hslot'.offset (haddr.symm.trans haddr')
    exact hslot.eq_bin hslot'

-- The slots of a small pool are those that were in the bucket lists and still are ready, and new ones.
theorem Wf.small_updated (h : g.Wf) (hi : id ∈ g.pooltable) {p q : SmallObjectPool}
    (hp : g.pool id = .small p) (hu : Updated g g' id (.small q)) (hq : Keeps (.small p) (.small q))
    (hbucket : ∀ bin, ∀ s ∈ g'.bucket bin, s.pool = id ∧ q.Ready bin s.addr ∨
      s ∈ g.bucket bin ∧ (s.pool = id → p.Ready bin s.addr → q.Ready bin s.addr))
    (hnodup : ∀ bin, (g'.bucket bin).Nodup) : g'.Wf := by
  refine h.updated hu hi (hp ▸ hq) (fun bin s hs => ?_) hnodup
  rcases hbucket bin s hs with hnew | ⟨hold, hr⟩
  · exact .inl hnew
  · by_cases he : s.pool = id
    case neg => exact .inr ⟨he, hold⟩
    case pos =>
      obtain ⟨_, hready⟩ := h.bucket bin s hold
      rw [he, hp] at hready
      exact .inl ⟨he, hr he hready⟩

-- A large pool has no slots.
theorem Wf.large_updated (h : g.Wf) (hi : id ∈ g.pooltable) {p q : LargeObjectPool}
    (hp : g.pool id = .large p) (hu : Updated g g' id (.large q)) (hbucket : g'.bucket = g.bucket)
    (hq : Keeps (.large p) (.large q)) : g'.Wf := by
  refine h.updated hu hi (hp ▸ hq) (fun bin s hs => ?_) fun bin => hbucket ▸ h.nodup bin
  rw [hbucket] at hs
  refine .inr ⟨fun he => ?_, hs⟩
  obtain ⟨_, hr⟩ := h.bucket bin s hs
  rw [he, hp] at hr
  exact hr

end Buckets

section Used

-- The pages in use in a pool, if it is of the kind.
def usedOf (large : Bool) (p : Pool) : Nat :=
  if p.isLargeObject = large then p.npages - p.freepages else 0

def used (g : Gcx) (large : Bool) : Nat :=
  (g.pooltable.map fun id => usedOf large (g.pool id)).sum

def counter (g : Gcx) (large : Bool) : Nat :=
  if large then g.usedLargePages else g.usedSmallPages

-- The counters cover the pages in use.
def Counted (g : Gcx) : Prop :=
  ∀ large, g.used large ≤ g.counter large

-- The counters are far from wrapping around.
structure Slack (g : Gcx) : Prop where
  large : g.usedLargePages < 2 ^ 31
  small : g.usedSmallPages < 2 ^ 31

-- Except for `n` pages in large pools, the counters go up with the pages in use.
def Owes (n : Nat) (g g' : Gcx) : Prop :=
  ∀ large, g'.used large + g.counter large ≤ g.used large + g'.counter large + if large then n else 0

theorem Owes.counted (h : Owes 0 g g') (hc : g.Counted) : g'.Counted := by
  intro large
  have hle := h large
  have hc := hc large
  rw [ite_self] at hle
  omega

theorem Owes.trans {g₁ : Gcx} {n : Nat} (h : Owes 0 g g₁) (h' : Owes n g₁ g') : Owes n g g' := by
  intro large
  have hle := h large
  have hle' := h' large
  rw [ite_self] at hle
  omega

-- The pages are counted afterwards.
theorem Owes.pay {g₁ : Gcx} {n : Nat} (h : Owes n g g₁) (hu : ∀ large, g'.used large = g₁.used large)
    (hs : g'.usedSmallPages = g₁.usedSmallPages) (hl : g'.usedLargePages = g₁.usedLargePages + n) :
    Owes 0 g g' := by
  intro large
  have hle := h large
  rw [hu]
  cases large with
  | true =>
    simp only [counter, if_true] at hle ⊢
    omega
  | false =>
    simp only [counter, Bool.false_eq_true, if_false] at hle ⊢
    omega

theorem used_congr (hp : g'.pools = g.pools) (ht : g'.pooltable = g.pooltable) (large : Bool) :
    g'.used large = g.used large := by
  simp only [used, pool_congr hp, ht]

theorem owes_of_eq (hu : ∀ large, g'.used large = g.used large)
    (hc : ∀ large, g'.counter large = g.counter large) : Owes 0 g g' := fun large => by
  rw [hu, hc]
  exact Nat.le_add_right _ _

-- A sum over a list where one term changes.
theorem sum_map_change {f f' : Nat → Nat} (hn : ids.Nodup) (hi : id ∈ ids)
    (hf : ∀ j, j ≠ id → f' j = f j) : (ids.map f').sum + f id = (ids.map f).sum + f' id := by
  induction ids with
  | nil => cases hi
  | cons j ids ih =>
    obtain ⟨hnot, hn⟩ := List.nodup_cons.mp hn
    rw [List.map_cons, List.map_cons, List.sum_cons, List.sum_cons]
    by_cases he : j = id
    case pos =>
      subst he
      have hsame : ids.map f' = ids.map f :=
        List.map_congr_left fun i hi' => hf i fun hc => hnot (hc ▸ hi')
      rw [hsame]
      omega
    case neg =>
      have hrest := ih hn ((List.mem_cons.mp hi).resolve_left (Ne.symm he))
      rw [hf j he]
      omega

theorem Updated.used (hu : Updated g g' id q) (ht : g.Table) (hi : id ∈ g.pooltable) (large : Bool) :
    g'.used large + usedOf large (g.pool id) = g.used large + usedOf large q := by
  have hsum := @sum_map_change id g.pooltable (fun j => usedOf large (g.pool j))
    (fun j => usedOf large (g'.pool j)) ht.nodup hi fun j hj => by rw [hu.pool_of_ne hj]
  rw [hu.pool_self ht hi] at hsum
  rw [Gcx.used, Gcx.used, hu.pooltable]
  exact hsum

-- A pool changes together with the counter of its kind.
theorem Updated.owes {kind : Bool} {n : Nat} (hu : Updated g g' id q) (ht : g.Table) (hi : id ∈ g.pooltable)
    (hp : (g.pool id).isLargeObject = kind) (hq : q.isLargeObject = kind)
    (hc : g'.counter (!kind) = g.counter (!kind))
    (hk : q.npages - q.freepages + g.counter kind ≤
      (g.pool id).npages - (g.pool id).freepages + g'.counter kind + if kind then n else 0) :
    Owes n g g' := by
  intro large
  have hused := hu.used ht hi large
  rw [usedOf, usedOf, hp, hq] at hused
  by_cases he : kind = large
  case pos =>
    subst he
    rw [if_pos rfl, if_pos rfl] at hused
    omega
  case neg =>
    obtain rfl : large = !kind := Bool.eq_not.mpr (Ne.symm he)
    rw [if_neg he, if_neg he] at hused
    rw [hc]
    omega

theorem Updated.owes_large {p q : LargeObjectPool} {n : Nat} (hu : Updated g g' id (.large q))
    (ht : g.Table) (hi : id ∈ g.pooltable) (hp : g.pool id = .large p)
    (hs : g'.usedSmallPages = g.usedSmallPages)
    (hl : q.npages - q.freepages + g.usedLargePages ≤ p.npages - p.freepages + g'.usedLargePages + n) :
    Owes n g g' :=
  hu.owes ht hi (by rw [hp]; rfl) rfl hs (by rw [hp]; exact hl)

theorem Updated.owes_small {p q : SmallObjectPool} (hu : Updated g g' id (.small q))
    (ht : g.Table) (hi : id ∈ g.pooltable) (hp : g.pool id = .small p)
    (hl : g'.usedLargePages = g.usedLargePages)
    (hs : q.npages - q.freepages + g.usedSmallPages ≤ p.npages - p.freepages + g'.usedSmallPages) :
    Owes 0 g g' :=
  hu.owes ht hi (by rw [hp]; rfl) rfl hl (by rw [hp]; exact hs)

end Used

-- What an operation does to the blocks, while the counters go up with the pages in use.
structure Effect (g g' : Gcx) (h' : Heap) : Prop where
  wf   : g'.Wf
  heap : g'.heap = h'
  owes : Owes 0 g g'

theorem Wf.keep (h : g.Wf) : Effect g g g.heap :=
  ⟨h, rfl, owes_of_eq (fun _ => rfl) fun _ => rfl⟩

theorem Wf.congr (h : g.Wf) (hp : g'.pools = g.pools) (ht : g'.pooltable = g.pooltable)
    (hb : g'.bucket = g.bucket) (hr : g'.recoverPool = g.recoverPool) : g'.Wf := by
  refine ⟨h.table.congr hp ht, ?_, hb ▸ h.nodup, ?_, ?_⟩
  all_goals simp only [pool_congr hp, ht, hb, hr]
  · exact h.bucket
  · exact h.recoverPool
  · exact h.waiting

section TakeSlot

-- The effect of taking a slot on the pool.
theorem takeSlot_pool {p : SmallObjectPool} {biti : Nat} {bits : UInt32} (ha : p.attrs biti = 0) :
    (if bits ≠ 0 then
      SmallObjectPool.setBits { p with freebits := Function.update p.freebits biti false } biti bits
    else { p with freebits := Function.update p.freebits biti false }) =
      p.setSlot biti false (bits &&& BlkAttr.SMALL) := by
  by_cases hb : bits = 0
  case pos =>
    have hself : Function.update p.attrs biti 0 = p.attrs := by
      rw [← ha, Function.update_eq_self]
    simp [hb, SmallObjectPool.setSlot, hself]
  case neg => simp [hb, SmallObjectPool.setSlot, SmallObjectPool.setBits, ha]

-- The first slot of a bucket list becomes a block.
theorem Wf.take_slot (h : g.Wf) {slot : Slot} {slots : List Slot} (hs : g.bucket bin = slot :: slots)
    {p : SmallObjectPool} (hp : g.pool slot.pool = .small p) {pn u : Nat} (hslot : p.IsSlot pn bin u)
    (hr : p.Recovered pn) (ha : slot.addr = p.baseAddr + pn * PAGESIZE + u) {attr : UInt32}
    (hu : Updated g g' slot.pool (.small (p.setSlot (SmallObjectPool.slotBit pn u) false attr)))
    (hbucket : g'.bucket = Function.update g.bucket bin slots) (hl : g'.usedLargePages = g.usedLargePages)
    (hsmall : g'.usedSmallPages = g.usedSmallPages) :
    Effect g g' (g.heap.replace slot.addr (some ⟨slot.addr, binsize bin, attr⟩)) := by
  have hfirst : slot ∈ g.bucket bin := hs ▸ List.mem_cons_self
  obtain ⟨hi, _⟩ := h.bucket bin slot hfirst
  have hnodup := h.nodup bin
  rw [hs] at hnodup
  obtain ⟨hnot, hrest⟩ := List.nodup_cons.mp hnodup
  have hwf := h.table.pools _ hi
  rw [hp] at hwf
  have hrep := @Pool.Replaced.setSlot bin p pn u false attr hwf.valid hslot
    (fun hc => absurd hc Bool.false_ne_true) fun _ => .inr hr
  have hin := SmallObjectPool.slot_in hslot
  rw [← ha] at hrep hin
  refine ⟨h.small_updated hi hp hu ⟨hrep.wf hwf, rfl, rfl, rfl, fun _ hfree => hfree, fun _ hw => hw⟩ ?_ ?_,
    hu.heap_replace h.table hi (hp ▸ hrep) (hp ▸ hin.1) (hp ▸ hin.2),
    hu.owes_small h.table hi hp hl (hsmall ▸ Nat.le_refl _)⟩
  · intro bin' s hm
    have hold : s ∈ g.bucket bin' ∧ ¬(bin = bin' ∧ slot = s) := by
      rcases mem_update (hbucket ▸ hm) with ⟨rfl, hm⟩ | ⟨hne, hm⟩
      · refine ⟨hs ▸ List.mem_cons_of_mem slot hm, ?_⟩
        rintro ⟨_, rfl⟩
        exact hnot hm
      · exact ⟨hm, fun hc => hne hc.1.symm⟩
    refine .inr ⟨hold.1, fun he hready => (SmallObjectPool.setSlot_ready hslot).mpr (.inl ⟨hready, ?_⟩)⟩
    rw [← ha]
    exact fun hc => hold.2 (h.slot_unique hfirst hold.1 he.symm hc.symm)
  · rw [hbucket]
    exact nodup_update h.nodup hrest

theorem Wf.takeSlot (h : g.Wf) (hne : g.bucket bin ≠ []) (bits : UInt32) :
    ∃ a g', g.takeSlot bin bits = .ok (some a, g') ∧
      Effect g g' (g.heap.replace a (some ⟨a, binsize bin, bits &&& BlkAttr.SMALL⟩)) ∧
      (∀ b ∈ g.heap, b.base ≠ a) := by
  obtain ⟨slot, slots, hs⟩ := List.exists_cons_of_ne_nil hne
  obtain ⟨hi, hready⟩ := h.bucket bin slot (hs ▸ List.mem_cons_self)
  have hpool := h.table.pools slot.pool hi
  rw [Gcx.takeSlot, hs]
  dsimp only
  rw [show (g.setBucket bin slots).pool slot.pool = g.pool slot.pool from rfl]
  cases hp : g.pool slot.pool with
  | large p =>
    rw [hp] at hready
    exact hready.elim
  | small p =>
    rw [hp] at hready hpool
    have hwf : p.Wf := hpool.valid
    obtain ⟨pn, u, hslot, hrec, hfree, haddr⟩ := hready
    have hbiti : (slot.addr - p.baseAddr) / 16 = SmallObjectPool.slotBit pn u := by
      rw [haddr, SmallObjectPool.slotBit_eq]
    have hin := SmallObjectPool.slot_in hslot
    dsimp only
    rw [hbiti, if_pos hfree, takeSlot_pool (hwf.attrs _ hfree)]
    refine ⟨slot.addr, _, rfl, h.take_slot hs hp hslot hrec haddr ⟨rfl, rfl, rfl⟩ rfl rfl rfl,
      fun b hb he => ?_⟩
    rw [← haddr] at hin
    have hpos := heap_pos hb
    have hb' := h.table.holds hi (hp ▸ hin.1) (hp ▸ hin.2) hb (Nat.le_of_eq he) (by omega)
    rw [hp] at hb'
    have hfalse := (SmallObjectPool.holds_base hslot).mp ⟨b, hb', he.trans haddr⟩
    exact absurd (hfree.symm.trans hfalse) Bool.true_eq_false_eq_False

end TakeSlot

section Free

-- The effect of freeing a slot on the pool.
theorem freeSlot_pool {p : SmallObjectPool} {biti : Nat} :
    SmallObjectPool.clrBits { p with freebits := Function.update p.freebits biti true } biti
      (~~~BlkAttr.NONE) = p.setSlot biti true 0 := by
  simp [SmallObjectPool.setSlot, SmallObjectPool.clrBits, BlkAttr.NONE]

-- Without pages to recover, all pages of the bin's are recovered.
theorem recovered_of_not_waiting {p : SmallObjectPool} {pn u : Nat} (h : p.Wf) (hs : p.IsSlot pn bin u)
    (hw : ¬p.Waiting bin) : p.Recovered pn := by
  obtain ⟨l, hc, hm⟩ := h.recover bin
  by_contra hr
  have hmem := (hm pn).mpr ⟨hs.page, hs.small, hr⟩
  rw [hc.eq_nil (Nat.le_of_not_lt hw)] at hmem
  cases hmem

theorem Wf.large_replaced (h : g.Wf) (hi : id ∈ g.pooltable) {p q : LargeObjectPool}
    (hp : g.pool id = .large p) (hu : Updated g g' id (.large q)) (hbucket : g'.bucket = g.bucket)
    (hr : p.Replaced q a new) (hle : p.baseAddr ≤ a) (hlt : a < p.topAddr) :
    g'.Wf ∧ g'.heap = g.heap.replace a new := by
  have hwf := h.table.pools id hi
  have hr' : (g.pool id).Replaced (.large q) a new := hp ▸ Pool.Replaced.large hr
  refine ⟨h.large_updated hi hp hu hbucket ⟨hr'.wf hwf, hr.baseAddr, hr.npages, rfl,
    fun hc => absurd hc Bool.true_eq_false_eq_False, fun _ hw => hw⟩, hu.heap_replace h.table hi hr' ?_ ?_⟩
  · rw [hp]
    exact hle
  · rw [hp]
    exact hlt

theorem Wf.large_same (h : g.Wf) (hi : id ∈ g.pooltable) {p q : LargeObjectPool}
    (hp : g.pool id = .large p) (hu : Updated g g' id (.large q)) (hbucket : g'.bucket = g.bucket)
    (hs : p.Same q) : g'.Wf ∧ g'.heap = g.heap := by
  have hwf := h.table.pools id hi
  rw [hp] at hwf
  refine ⟨h.large_updated hi hp hu hbucket ⟨⟨⟨hs.wf, hs.plain⟩, ?_, ?_⟩, hs.baseAddr, hs.npages,
    rfl, fun hc => absurd hc Bool.true_eq_false_eq_False, fun _ hw => hw⟩, hu.heap_eq h.table hi ?_⟩
  · exact Nat.lt_of_lt_of_eq hwf.npages hs.npages.symm
  · exact Nat.lt_of_lt_of_eq hwf.baseAddr hs.baseAddr.symm
  · intro b
    rw [hp]
    exact hs.holds b

-- The block at an address in a pool is in that pool.
theorem Table.holds_base (h : g.Table) (hi : id ∈ g.pooltable) (hle : (g.pool id).baseAddr ≤ ptr)
    (hlt : ptr < (g.pool id).topAddr) : (∃ b ∈ g.heap, b.base = ptr) ↔
      ∃ b, (g.pool id).Holds b ∧ b.base = ptr := by
  constructor
  · rintro ⟨b, hb, rfl⟩
    have hpos := heap_pos hb
    exact ⟨b, h.holds hi hle hlt hb (Nat.le_refl _) (by omega), rfl⟩
  · rintro ⟨b, hb, he⟩
    exact ⟨b, ⟨id, hi, hb⟩, he⟩

-- What `freeNoSync` does: it frees the block that begins at `ptr`, if there is one.
structure FreeSpec (g : Gcx) (ptr : Nat) (r : Bool) (g' : Gcx) : Prop where
  effect : Effect g g' (g.heap.replace ptr none)
  found  : r = true ↔ ∃ b ∈ g.heap, b.base = ptr

theorem Wf.free_other (h : g.Wf) (hn : ¬∃ b ∈ g.heap, b.base = ptr) : FreeSpec g ptr false g where
  effect := ⟨h, (Heap.replace_none fun b hb he => hn ⟨b, hb, he⟩).symm, h.keep.owes⟩
  found  := ⟨fun hc => absurd hc Bool.false_ne_true, fun hc => absurd hc hn⟩

theorem Wf.free_slot (h : g.Wf) (hi : id ∈ g.pooltable) {p : SmallObjectPool} (hp : g.pool id = .small p)
    {pn u : Nat} (hs : p.IsSlot pn bin u) (hf : p.freebits (SmallObjectPool.slotBit pn u) = false)
    (hu : Updated g g' id (.small (p.setSlot (SmallObjectPool.slotBit pn u) true 0)))
    (hbucket : g'.bucket = g.bucket ∨ p.Recovered pn ∧ g'.bucket = Function.update g.bucket bin
      (⟨p.baseAddr + pn * PAGESIZE + u, id⟩ :: g.bucket bin))
    (hl : g'.usedLargePages = g.usedLargePages) (hsmall : g'.usedSmallPages = g.usedSmallPages) :
    Effect g g' (g.heap.replace (p.baseAddr + pn * PAGESIZE + u) none) := by
  have hwf := h.table.pools id hi
  rw [hp] at hwf
  have hrep := @Pool.Replaced.setSlot bin p pn u true 0 hwf.valid hs (fun _ => rfl)
    fun hc => absurd hc Bool.true_eq_false_eq_False
  have hin := SmallObjectPool.slot_in hs
  -- the slot is not in the bucket lists
  have hnot {bin' : Fin B_NUMSMALL} {s : Slot} (hr : p.Ready bin' s.addr) :
      s.addr ≠ p.baseAddr + pn * PAGESIZE + u := by
    intro ha
    obtain ⟨pn', u', hs', _, hf', ha'⟩ := hr
    obtain ⟨rfl, rfl⟩ := SmallObjectPool.slot_base_inj hs'.offset hs.offset (ha'.symm.trans ha)
    exact absurd (hf'.symm.trans hf) Bool.true_eq_false_eq_False
  have hold {bin' : Fin B_NUMSMALL} {s : Slot} (hm : s ∈ g.bucket bin') : s ∈ g.bucket bin' ∧ (s.pool = id →
      p.Ready bin' s.addr → (p.setSlot (SmallObjectPool.slotBit pn u) true 0).Ready bin' s.addr) :=
    ⟨hm, fun _ hr => (SmallObjectPool.setSlot_ready hs).mpr (.inl ⟨hr, hnot hr⟩)⟩
  refine ⟨h.small_updated hi hp hu ⟨hrep.wf hwf, rfl, rfl, rfl, fun _ hfree => hfree, fun _ hw => hw⟩ ?_ ?_,
    hu.heap_replace h.table hi (hp ▸ hrep) (hp ▸ hin.1) (hp ▸ hin.2),
    hu.owes_small h.table hi hp hl (hsmall ▸ Nat.le_refl _)⟩
  · intro bin' s hm
    rcases hbucket with hb | ⟨hr, hb⟩
    · exact .inr (hold (hb ▸ hm))
    · rcases mem_update (hb ▸ hm) with ⟨rfl, hm⟩ | ⟨_, hm⟩
      · rcases List.mem_cons.mp hm with rfl | hm
        · exact .inl ⟨rfl, (SmallObjectPool.setSlot_ready hs).mpr (.inr ⟨rfl, rfl, hr, rfl⟩)⟩
        · exact .inr (hold hm)
      · exact .inr (hold hm)
  · intro bin'
    rcases hbucket with hb | ⟨hr, hb⟩
    · exact hb ▸ h.nodup bin'
    · rw [hb]
      refine nodup_update h.nodup (List.nodup_cons.mpr ⟨fun hm => ?_, h.nodup bin⟩) bin'
      obtain ⟨_, hready⟩ := h.bucket bin _ hm
      rw [hp] at hready
      exact hnot hready rfl

theorem Wf.freeNoSync (h : g.Wf) (ptr : Nat) :
    ∃ r g', g.freeNoSync ptr = .ok (r, g') ∧ FreeSpec g ptr r g' := by
  obtain ⟨r, hr, hpool⟩ := h.table.findPool ptr
  rw [Gcx.freeNoSync, hr]
  cases r with
  | none =>
    refine ⟨false, g, rfl, h.free_other ?_⟩
    rintro ⟨b, ⟨id, hi, hb⟩, rfl⟩
    have hbounds := Pool.holds_bounds hb
    exact absurd ((hpool id).mpr ⟨hi, by omega, by omega⟩) (Option.some_ne_none id).symm
  | some id =>
    obtain ⟨hi, hle, hlt⟩ := (hpool id).mp rfl
    have hbase := h.table.holds_base hi hle hlt
    have hwf := h.table.pools id hi
    simp only [bind, Except.bind]
    cases hp : g.pool id with
    | large p =>
      rw [hp] at hwf hle hlt hbase
      obtain ⟨r, q, hr, hrep, hfree, hfound⟩ :=
        @LargeObjectPool.Wf.freeNoSync p ptr hwf.valid.1 hwf.valid.2 (decide_eq_true ⟨hle, hlt⟩)
      simp only [hr]
      have hu : Updated g (g.setPool id (.large q)) id (.large q) := ⟨rfl, rfl, rfl⟩
      obtain ⟨hwf', hheap⟩ := h.large_replaced hi hp hu rfl hrep hle hlt
      refine ⟨r, _, rfl, ⟨hwf', hheap, hu.owes_large h.table hi hp rfl ?_⟩, hfound.trans hbase.symm⟩
      rw [hrep.npages]
      simp only [setPool]
      omega
    | small p =>
      rw [hp] at hwf hle hlt hbase
      have hwf' : p.Wf := hwf.valid
      dsimp only
      cases hwf'.spot hle hlt with
      | free page other =>
        rw [page]
        exact ⟨false, g, rfl, h.free_other (hbase.not.mpr other)⟩
      | interior page offset other =>
        rw [page]
        dsimp only
        rw [if_pos (.inl offset)]
        exact ⟨false, g, rfl, h.free_other (hbase.not.mpr other)⟩
      | @slot bin pn u page slot addr offset bit =>
        rw [page, slot.small]
        dsimp only
        rw [bit, freeSlot_pool]
        have hiff := SmallObjectPool.holds_base slot
        rw [← addr] at hiff
        cases hf : p.freebits (SmallObjectPool.slotBit pn u) with
        | true =>
          rw [if_pos (.inr rfl)]
          refine ⟨false, g, rfl, h.free_other (hbase.not.mpr fun hc => ?_)⟩
          exact absurd (hf.symm.trans (hiff.mp hc)) Bool.true_eq_false_eq_False
        | false =>
          rw [if_neg (by rintro (hc | hc); exacts [hc offset, absurd hc Bool.false_ne_true])]
          refine ⟨true, _, rfl, ?_, iff_of_true rfl (hbase.mpr (hiff.mpr hf))⟩
          rw [addr]
          by_cases hc : (g.recoverPool bin).isNone ∨ p.binPageChain pn = PageRecovered
          case pos =>
            refine h.free_slot hi hp slot hf ?_ (.inr ⟨?_, ?_⟩) (by rw [if_pos hc]; rfl) (by rw [if_pos hc]; rfl)
            · rw [if_pos hc]
              exact ⟨rfl, rfl, rfl⟩
            · rcases hc with hn | hr
              · refine recovered_of_not_waiting hwf' slot fun hw => ?_
                obtain ⟨first, hfirst, _⟩ := h.waiting bin id hi (hp ▸ hw)
                rw [hfirst] at hn
                cases hn
              · exact hr
            · rw [if_pos hc]
              rfl
          case neg =>
            refine h.free_slot hi hp slot hf ?_ (.inl ?_) (by rw [if_neg hc]; rfl) (by rw [if_neg hc]; rfl)
            · rw [if_neg hc]
              exact ⟨rfl, rfl, rfl⟩
            · rw [if_neg hc]
              rfl

end Free

section Extend

-- What `extendNoSync` does: the block whose first page has the address gets the size, if it can.
inductive ExtendSpec (g : Gcx) (ptr minsize maxsize : Nat) : Nat → Gcx → Prop
  | grown {size grown : Nat} {b : BlkInfo} {g' : Gcx} (held : b ∈ g.heap) (le : b.base ≤ ptr)
    (lt : ptr < b.base + PAGESIZE) (lower : numPages minsize ≤ grown) (upper : grown ≤ numPages maxsize)
    (grows : size = b.size + grown * PAGESIZE)
    (effect : Effect g g' (g.heap.replace b.base (some { b with size := size }))) :
    ExtendSpec g ptr minsize maxsize size g'
  | none {g' : Gcx} (effect : Effect g g' g.heap) : ExtendSpec g ptr minsize maxsize 0 g'

theorem Wf.extendNoSync (h : g.Wf) (hslack : g.Slack) (ptr : Nat) {minsize maxsize : Nat}
    (hm : minsize ≤ maxsize) :
    ∃ r g', g.extendNoSync ptr minsize maxsize = .ok (r, g') ∧ ExtendSpec g ptr minsize maxsize r g' := by
  obtain ⟨r, hr, hpool⟩ := h.table.findPool ptr
  rw [Gcx.extendNoSync, hr]
  cases r with
  | none => exact ⟨0, g, rfl, .none h.keep⟩
  | some id =>
    obtain ⟨hi, hle, hlt⟩ := (hpool id).mp rfl
    have hwf := h.table.pools id hi
    simp only [bind, Except.bind]
    cases hp : g.pool id with
    | small p => exact ⟨0, g, rfl, .none h.keep⟩
    | large p =>
      rw [hp] at hwf hle hlt
      obtain ⟨⟨size, grown, q⟩, hr, hs⟩ :=
        @LargeObjectPool.Wf.extendNoSync p ptr hwf.valid.1 hwf.valid.2 (decide_eq_true ⟨hle, hlt⟩) _ _ hm
      simp only [hr]
      have hu : Updated g { g.setPool id (.large q) with
        usedLargePages := (g.usedLargePages + grown) % 2 ^ 32 } id (.large q) := ⟨rfl, rfl, rfl⟩
      have hlarge := hslack.large
      refine ⟨size, _, rfl, ?_⟩
      cases hs with
      | none full =>
        obtain ⟨hwf', hheap⟩ := h.large_same hi hp hu rfl
          ⟨hwf.valid.1, hwf.valid.2, rfl, rfl, rfl, fun _ => .rfl⟩
        refine .none ⟨hwf', hheap, hu.owes_large h.table hi hp rfl ?_⟩
        dsimp only
        omega
      | @grown _ _ b _ lower upper spec =>
        have hbounds := LargeObjectPool.holds_bounds spec.held
        obtain ⟨hwf', hheap⟩ := h.large_replaced hi hp hu rfl spec.replaced hbounds.1 (by omega)
        refine .grown ⟨id, hi, hp ▸ spec.held⟩ spec.le spec.lt lower upper spec.grows
          ⟨hwf', hheap, hu.owes_large h.table hi hp rfl ?_⟩
        have hle := hwf.freepages_le
        have hlimit := h.table.npages_le hi
        have hpages := spec.freepages
        rw [hp, pageLimit] at hlimit
        simp only [Pool.npages, Pool.freepages] at hle hlimit
        rw [spec.replaced.npages]
        dsimp only
        omega

end Extend

section AllocPage

-- A page of bin's gives new slots.
theorem Wf.taken (h : g.Wf) (hi : id ∈ g.pooltable) {p : SmallObjectPool} (hp : g.pool id = .small p)
    (hlt : p.searchStart < p.npages) (hu : Updated g g' id (.small (p.taken bin)))
    (hbucket : g'.bucket = Function.update g.bucket bin
      ((slotOffsets bin).map fun u => ⟨p.baseAddr + p.searchStart * PAGESIZE + u, id⟩))
    (hl : g'.usedLargePages = g.usedLargePages) (hs : g'.usedSmallPages = g.usedSmallPages + 1) :
    Effect g g' g.heap := by
  have hwf := h.table.pools id hi
  rw [hp] at hwf
  have hwf' : p.Wf := hwf.valid
  have hle := hwf.freepages_le
  have hnpages := hwf.npages
  simp only [Pool.npages, Pool.freepages] at hle hnpages
  have hused : (Pool.small (p.taken bin)).isFree = false := by
    have hne : p.npages ≠ p.freepages - 1 := by omega
    exact decide_eq_false hne
  refine ⟨h.small_updated hi hp hu ⟨⟨(hwf'.taken hlt bin).2, hwf.npages, hwf.baseAddr⟩, rfl, rfl, rfl,
    fun _ _ => hused, fun _ hw => hw⟩ ?_ ?_, hu.heap_eq h.table hi fun b => ?_,
    hu.owes_small h.table hi hp hl ?_⟩
  · intro bin' s hm
    rcases mem_update (hbucket ▸ hm) with ⟨rfl, hm⟩ | ⟨_, hm⟩
    · obtain ⟨u, hu, rfl⟩ := List.mem_map.mp hm
      exact .inl ⟨rfl, (hwf'.taken_ready hlt).mpr (.inr ⟨rfl, u, hu, rfl⟩)⟩
    · exact .inr ⟨hm, fun _ hr => (hwf'.taken_ready hlt).mpr (.inl hr)⟩
  · rw [hbucket]
    refine nodup_update h.nodup ((slotOffsets_nodup bin).map fun u v huv => ?_)
    simpa using huv
  · rw [hp]
    exact hwf'.taken_holds hlt
  · rw [hs]
    simp only [SmallObjectPool.taken]
    omega

theorem Wf.allocPageLoop (h : g.Wf) (hslack : g.Slack) (hids : ∀ id ∈ ids, id ∈ g.pooltable) :
    ∃ g', allocPageLoop bin ids g = .ok g' ∧ Effect g g' g.heap := by
  induction ids with
  | nil => exact ⟨g, rfl, h.keep⟩
  | cons id ids hi =>
    have hrest := hi fun j hj => hids j (List.mem_cons_of_mem id hj)
    have hmem := hids id List.mem_cons_self
    have hwf := h.table.pools id hmem
    rw [Gcx.allocPageLoop]
    cases hp : g.pool id with
    | large p => exact hrest
    | small p =>
      rw [hp] at hwf
      have hwf' : p.Wf := hwf.valid
      dsimp only
      rw [SmallObjectPool.allocPage_eq hwf']
      by_cases hlt : p.searchStart < p.npages
      case neg =>
        rw [if_neg hlt]
        exact hrest
      case pos =>
        rw [if_pos hlt]
        have hsmall := hslack.small
        refine ⟨_, rfl, h.taken hmem hp hlt ⟨rfl, rfl, rfl⟩ ?_ rfl (Nat.mod_eq_of_lt (by omega))⟩
        simp only [setBucket, setPool, List.map_map]
        rfl

theorem Wf.tryAllocSmall (h : g.Wf) (hslack : g.Slack) (bin : Fin B_NUMSMALL) :
    ∃ r g', g.tryAllocSmall bin = .ok (r, g') ∧ Effect g g' g.heap ∧ (r = true ↔ g'.bucket bin ≠ []) := by
  rw [Gcx.tryAllocSmall]
  by_cases he : g.bucket bin = []
  case pos =>
    obtain ⟨g', hr, hs⟩ := @Wf.allocPageLoop g bin g.pooltable h hslack fun _ hi => hi
    rw [if_pos he, hr]
    exact ⟨_, g', rfl, hs, decide_eq_true_iff⟩
  case neg =>
    rw [if_neg he]
    exact ⟨_, g, rfl, h.keep, decide_eq_true_iff⟩

end AllocPage

section AllocPages

-- What `tryAlloc` of `bigAlloc` does: it finds a place in one of the pools, or none.
inductive PlaceSpec (g : Gcx) (n pageAlign : Nat) : Option (Nat × Nat) → Gcx → Prop
  | some {id pn a : Nat} {g' : Gcx} (pool : id ∈ g'.pooltable) (large : (g'.pool id).isLargeObject = true)
    (addr : a = (g'.pool id).baseAddr + pn * PAGESIZE) (lt : a < (g'.pool id).topAddr)
    (aligned : pageAlign * PAGESIZE ∣ a) (fresh : ∀ b ∈ g.heap, b.base ≠ a) (wf : g'.Wf)
    (heap : g'.heap = g.heap.replace a (some ⟨a, n * PAGESIZE, 0⟩)) (owes : Owes n g g')
    (counter : g'.usedLargePages = g.usedLargePages) :
    PlaceSpec g n pageAlign (some (id, pn)) g'
  | none {g' : Gcx} (effect : Effect g g' g.heap) : PlaceSpec g n pageAlign none g'

theorem PlaceSpec.of_same {n pageAlign : Nat} {g₁ : Gcx} {r : Option (Nat × Nat)}
    (h : PlaceSpec g₁ n pageAlign r g') (hs : Effect g g₁ g.heap)
    (hc : g₁.usedLargePages = g.usedLargePages) : PlaceSpec g n pageAlign r g' := by
  have hh := hs.heap
  cases h with
  | some pool large addr lt aligned fresh wf heap owes counter =>
    exact .some pool large addr lt aligned (hh ▸ fresh) wf (hh ▸ heap) (hs.owes.trans owes) (counter.trans hc)
  | none effect => exact .none ⟨effect.wf, effect.heap.trans hh, hs.owes.trans effect.owes⟩

theorem Wf.place (h : g.Wf) (hi : id ∈ g.pooltable) {p q : LargeObjectPool} (hp : g.pool id = .large p)
    {n pageAlign pn : Nat} (ht : p.Taken q n pageAlign (p.baseAddr + pn * PAGESIZE)) :
    PlaceSpec g n pageAlign (some (id, pn)) (g.setPool id (.large q)) := by
  have hu : Updated g (g.setPool id (.large q)) id (.large q) := ⟨rfl, rfl, rfl⟩
  obtain ⟨i, hlt, hpage⟩ := ht.page
  have hin : p.baseAddr + pn * PAGESIZE < p.topAddr := by
    rw [hpage, LargeObjectPool.topAddr]
    exact Nat.add_lt_add_left (Nat.mul_lt_mul_of_pos_right hlt (by decide)) p.baseAddr
  obtain ⟨hwf, hheap⟩ := h.large_replaced hi hp hu rfl ht.replaced (Nat.le_add_right _ _) hin
  refine .some hi ?_ ?_ ?_ ht.aligned (fun b hb he => ?_) hwf hheap (hu.owes_large h.table hi hp rfl ?_) rfl
  · rw [hu.pool_self h.table hi]
    rfl
  · rw [hu.pool_self h.table hi]
    exact congrArg (· + pn * PAGESIZE) ht.replaced.baseAddr.symm
  · rw [hu.pool_self h.table hi]
    simp only [Pool.topAddr, LargeObjectPool.topAddr, ht.replaced.baseAddr, ht.replaced.npages] at hin ⊢
    exact hin
  · have hbase := @Table.holds_base g id (p.baseAddr + pn * PAGESIZE) h.table hi
      (hp ▸ Nat.le_add_right _ _) (hp ▸ hin)
    obtain ⟨c, hc, hce⟩ := hbase.mp ⟨b, hb, he⟩
    rw [hp] at hc
    exact ht.fresh c hc hce
  · have hpages := ht.freepages
    rw [ht.replaced.npages]
    simp only [setPool]
    omega

theorem Wf.tryAllocLoop (h : g.Wf) {n k : Nat} (hk : k < 64) (hn : 0 < n) (hn' : n ≤ 2 ^ 31)
    (hids : ∀ id ∈ ids, id ∈ g.pooltable) :
    ∃ r g', tryAllocLoop n (2 ^ k) ids g = .ok (r, g') ∧ PlaceSpec g n (2 ^ k) r g' := by
  induction ids generalizing g with
  | nil => exact ⟨none, g, rfl, .none h.keep⟩
  | cons id ids hi =>
    have hmem := hids id List.mem_cons_self
    have hids' : ∀ j ∈ ids, j ∈ g.pooltable := fun j hj => hids j (List.mem_cons_of_mem id hj)
    have hwf := h.table.pools id hmem
    rw [Gcx.tryAllocLoop]
    cases hp : g.pool id with
    | small p => exact hi h hids'
    | large p =>
      rw [hp] at hwf
      dsimp only
      by_cases hfree : p.freepages < n
      case pos =>
        rw [if_pos hfree]
        exact hi h hids'
      case neg =>
        rw [if_neg hfree]
        obtain ⟨r, hr, hs⟩ := LargeObjectPool.Wf.allocPages hwf.valid.1 hwf.valid.2 hk hn fun _ _ => hn'
        simp only [hr, bind, Except.bind]
        cases hs with
        | @some pn q place taken => exact ⟨_, _, rfl, h.place hmem hp taken⟩
        | @none q full same =>
          have hu : Updated g (g.setPool id (.large q)) id (.large q) := ⟨rfl, rfl, rfl⟩
          obtain ⟨hwf', hheap⟩ := h.large_same hmem hp hu rfl same
          obtain ⟨r, g', hr, hs⟩ := hi hwf' hids'
          refine ⟨r, g', hr, hs.of_same ⟨hwf', hheap, hu.owes_large h.table hmem hp rfl ?_⟩ rfl⟩
          rw [same.npages, same.freepages]
          exact Nat.le_refl _

-- The attributes of a new block are set.
theorem Wf.takePages (h : g.Wf) (hi : id ∈ g.pooltable) (hl : (g.pool id).isLargeObject = true)
    {b : BlkInfo} (hb : b ∈ g.heap) {pn : Nat} (hbase : b.base = (g.pool id).baseAddr + pn * PAGESIZE)
    (hlt : b.base < (g.pool id).topAddr) (hattr : b.attr = 0) (n : Nat) (bits : UInt32) :
    ∃ g', g.takePages n bits id pn = (some b.base, g') ∧ g'.Wf ∧
      g'.heap = g.heap.replace b.base (some { b with attr := bits &&& BlkAttr.LARGE }) ∧
      (∀ large, g'.used large = g.used large) ∧ g'.usedSmallPages = g.usedSmallPages ∧
      g'.usedLargePages = (g.usedLargePages + n) % 2 ^ 32 := by
  have hle : (g.pool id).baseAddr ≤ b.base := hbase ▸ Nat.le_add_right _ _
  have hwf := h.table.pools id hi
  cases hp : g.pool id with
  | small p =>
    rw [hp] at hl
    cases hl
  | large p =>
    rw [hp] at hwf hbase hle hlt
    -- the block in the pool
    have hpos := heap_pos hb
    have hheld := h.table.holds hi (hp ▸ hle) (hp ▸ hlt) hb (Nat.le_refl _) (by omega)
    rw [hp] at hheld
    obtain ⟨s, l, hblock, rfl⟩ := hheld
    obtain rfl : s = pn := LargeObjectPool.page_inj hbase
    have hrep := hwf.valid.1.setBits hwf.valid.2 hblock bits
    have hzero : p.getBits s = 0 := hattr
    rw [hzero, UInt32.zero_or] at hrep
    have hpool : Gcx.pool { g with usedLargePages := (g.usedLargePages + n) % 2 ^ 32 } id = .large p := hp
    rw [Gcx.takePages]
    simp only [hpool]
    rw [← hbase]
    by_cases hz : bits = 0
    case pos =>
      subst hz
      rw [if_neg (not_not_intro rfl)]
      have hsame : ({ p.block s l with attr := 0 &&& BlkAttr.LARGE } : BlkInfo) = p.block s l := by
        rw [UInt32.zero_and, ← hattr]
      have hcounted : Wf { g with usedLargePages := (g.usedLargePages + n) % 2 ^ 32 } :=
        h.congr rfl rfl rfl rfl
      rw [hsame, Heap.replace_self hb fun c hc => h.table.eq_of_base hb hc]
      exact ⟨_, rfl, hcounted, heap_congr rfl rfl, used_congr rfl rfl, rfl, rfl⟩
    case neg =>
      rw [if_pos hz]
      have hu : Updated g (setPool { g with usedLargePages := (g.usedLargePages + n) % 2 ^ 32 } id
        (.large (p.setBits s bits))) id (.large (p.setBits s bits)) := ⟨rfl, rfl, rfl⟩
      obtain ⟨hwf', hheap⟩ := h.large_replaced hi hp hu rfl hrep hle hlt
      refine ⟨_, rfl, hwf', hheap, fun large => ?_, rfl, rfl⟩
      have hused := hu.used h.table hi large
      rw [hp] at hused
      exact Nat.add_right_cancel hused

end AllocPages

section NewPool

-- The operating system gives memory that is aligned, above 0 and not in use, as long as the pools stay
-- within the limit.
structure Maps (g : Gcx) (npages baseAddr : Nat) (memory : List UInt32) : Prop where
  size     : memory.length = npages
  pos      : 0 < baseAddr
  aligned  : baseAddr % PAGESIZE = 0
  top_le   : baseAddr + npages * PAGESIZE ≤ 2 ^ 64
  limit    : (g.pooltable.map fun id => (g.pool id).npages).sum + npages ≤ pageLimit
  disjoint : ∀ id ∈ g.pooltable, (g.pool id).topAddr ≤ baseAddr ∨
    baseAddr + npages * PAGESIZE ≤ (g.pool id).baseAddr

def newPoolOf (npages baseAddr : Nat) (memory : List UInt32) (isLargeObject : Bool) : Pool :=
  if isLargeObject then .large (.fresh baseAddr npages memory) else .small (.fresh baseAddr npages)

variable {npages baseAddr : Nat} {memory : List UInt32} {isLargeObject : Bool}

@[simp]
theorem newPoolOf_baseAddr : (newPoolOf npages baseAddr memory isLargeObject).baseAddr = baseAddr := by
  cases isLargeObject <;> rfl

@[simp]
theorem newPoolOf_npages : (newPoolOf npages baseAddr memory isLargeObject).npages = npages := by
  cases isLargeObject <;> rfl

theorem newPoolOf_holds (b : BlkInfo) : ¬(newPoolOf npages baseAddr memory isLargeObject).Holds b := by
  cases isLargeObject
  · exact SmallObjectPool.fresh_holds b
  · exact LargeObjectPool.fresh_holds b

theorem Maps.wf (h : Maps g npages baseAddr memory) (hn : 0 < npages) :
    (newPoolOf npages baseAddr memory isLargeObject).Wf := by
  have hlimit := h.limit
  rw [pageLimit] at hlimit
  refine ⟨?_, ?_, ?_⟩
  · cases isLargeObject
    · exact SmallObjectPool.fresh_wf (by omega) h.aligned h.top_le
    · exact ⟨LargeObjectPool.fresh_wf h.size (by omega) h.aligned h.top_le, LargeObjectPool.fresh_plain⟩
  · rwa [newPoolOf_npages]
  · rw [newPoolOf_baseAddr]
    exact h.pos

theorem Maps.waiting (h : Maps g npages baseAddr memory) (bin : Fin B_NUMSMALL) :
    ¬(newPoolOf npages baseAddr memory isLargeObject).Waiting bin := by
  have hlimit := h.limit
  rw [pageLimit] at hlimit
  cases isLargeObject
  · exact SmallObjectPool.fresh_waiting (by omega)
  · exact not_false

-- The pools in the table before the new one, and those behind it.
theorem Table.insertPool_eq (h : g.Table) (hm : Maps g npages baseAddr memory) (hn : 0 < npages) (id : Nat) :
    ∃ l r, g.pooltable = l ++ r ∧ g.insertPool id baseAddr = l ++ id :: r ∧
      (∀ j ∈ l, (g.pool j).topAddr ≤ baseAddr) ∧
      ∀ j ∈ r, baseAddr + npages * PAGESIZE ≤ (g.pool j).baseAddr := by
  refine ⟨_, _, (List.takeWhile_append_dropWhile).symm, rfl, fun j hj => ?_, fun j hj => ?_⟩
  · have hbefore := List.mem_takeWhile_imp hj
    rw [decide_eq_true_eq] at hbefore
    have hmem : j ∈ g.pooltable := (List.takeWhile_sublist _).mem hj
    have hpos := Nat.mul_pos hn (show 0 < PAGESIZE by decide)
    have := hm.disjoint j hmem
    have := (h.pools j hmem).base_lt_top
    omega
  · have hmem : j ∈ g.pooltable := (List.dropWhile_sublist _).mem hj
    suffices hlt : baseAddr < (g.pool j).baseAddr by
      have := hm.disjoint j hmem
      have := (h.pools j hmem).base_lt_top
      omega
    -- the first pool behind the new one begins after it, and so do the others
    generalize hr : g.pooltable.dropWhile (fun id => decide ¬baseAddr < (g.pool id).baseAddr) = r at hj
    cases r with
    | nil => cases hj
    | cons first r =>
      have hfirst : baseAddr < (g.pool first).baseAddr := by
        have hnot := List.head_dropWhile_not (fun id => decide ¬baseAddr < (g.pool id).baseAddr)
          (l := g.pooltable) (by rw [hr]; exact List.cons_ne_nil _ _)
        simp only [hr, List.head_cons] at hnot
        simpa using hnot
      cases hj with
      | head => exact hfirst
      | tail _ hj =>
        have hsub : (first :: r).Sublist g.pooltable := hr ▸ List.dropWhile_sublist _
        have := (List.pairwise_cons.mp (h.sorted.sublist hsub)).1 j hj
        have := (h.pools first (hsub.mem List.mem_cons_self)).base_lt_top
        omega

theorem Wf.insertPool (h : g.Wf) (hm : Maps g npages baseAddr memory) (hn : 0 < npages)
    (hp : g'.pools = g.pools ++ [newPoolOf npages baseAddr memory isLargeObject])
    (ht : g'.pooltable = g.insertPool g.pools.length baseAddr) (hb : g'.bucket = g.bucket)
    (hr : g'.recoverPool = g.recoverPool) (hc : ∀ large, g'.counter large = g.counter large) :
    Effect g g' g.heap := by
  obtain ⟨l, r, htable, hinsert, hbefore, hbehind⟩ := h.table.insertPool_eq hm hn g.pools.length
  rw [hinsert] at ht
  have hold {j : Nat} (hj : j ∈ g.pooltable) : g'.pool j = g.pool j := by
    rw [pool, pool, hp, List.getD_eq_getElem?_getD, List.getD_eq_getElem?_getD,
      List.getElem?_append_left (h.table.lt j hj)]
  have hnew : g'.pool g.pools.length = newPoolOf npages baseAddr memory isLargeObject := by
    rw [pool, hp, List.getD_eq_getElem?_getD, List.getElem?_concat_length]
    rfl
  have hmem {j : Nat} : j ∈ g'.pooltable ↔ j = g.pools.length ∨ j ∈ g.pooltable := by
    rw [ht, htable, List.mem_append, List.mem_cons, List.mem_append]
    tauto
  have hl {j : Nat} (hj : j ∈ l) : j ∈ g.pooltable := htable ▸ List.mem_append_left r hj
  have hr' {j : Nat} (hj : j ∈ r) : j ∈ g.pooltable := htable ▸ List.mem_append_right l hj
  have hwf := @Maps.wf g npages baseAddr memory isLargeObject hm hn
  refine ⟨⟨⟨?_, ?_, ?_, ?_⟩, ?_, fun bin => hb ▸ h.nodup bin, ?_, ?_⟩, ?_, owes_of_eq (fun large => ?_) hc⟩
  case refine_1 =>
    intro j hj
    rw [hp, List.length_append, List.length_singleton]
    rcases hmem.mp hj with rfl | hj
    · exact Nat.lt_succ_self _
    · have := h.table.lt j hj
      omega
  case refine_2 =>
    have hsorted := h.table.sorted
    rw [htable] at hsorted
    obtain ⟨hsl, hsr, hlr⟩ := List.pairwise_append.mp hsorted
    rw [ht]
    refine List.pairwise_append.mpr ⟨?_, List.pairwise_cons.mpr ⟨fun j hj => ?_, ?_⟩, fun i hi j hj => ?_⟩
    · exact hsl.imp_of_mem fun hi hj hij => by rwa [hold (hl hi), hold (hl hj)]
    · rw [hnew, hold (hr' hj), Pool.topAddr_eq, newPoolOf_baseAddr, newPoolOf_npages]
      exact hbehind j hj
    · exact hsr.imp_of_mem fun hi hj hij => by rwa [hold (hr' hi), hold (hr' hj)]
    · rw [hold (hl hi)]
      rcases List.mem_cons.mp hj with rfl | hj
      · rw [hnew, newPoolOf_baseAddr]
        exact hbefore i hi
      · rw [hold (hr' hj)]
        exact hlr i hi j hj
  case refine_3 =>
    intro j hj
    rcases hmem.mp hj with rfl | hj
    · exact hnew ▸ hwf
    · exact hold hj ▸ h.table.pools j hj
  case refine_4 =>
    have hsum : (g'.pooltable.map fun id => (g'.pool id).npages).sum =
        (g.pooltable.map fun id => (g.pool id).npages).sum + npages := by
      rw [ht, htable, List.map_append, List.map_cons, List.map_append, List.sum_append, List.sum_cons,
        List.sum_append, List.map_congr_left fun j hj => by rw [hold (hl hj)],
        List.map_congr_left (l := r) fun j hj => by rw [hold (hr' hj)], hnew, newPoolOf_npages]
      omega
    rw [hsum]
    exact hm.limit
  case refine_5 =>
    intro bin s hs
    rw [hb] at hs
    obtain ⟨hi, hready⟩ := h.bucket bin s hs
    exact ⟨hmem.mpr (.inr hi), (hold hi).symm ▸ hready⟩
  case refine_6 =>
    intro bin j hj
    obtain ⟨hj, hkind⟩ := h.recoverPool bin j (hr ▸ hj)
    exact ⟨hmem.mpr (.inr hj), (hold hj).symm ▸ hkind⟩
  case refine_7 =>
    intro bin j hj hw
    rcases hmem.mp hj with rfl | hj
    · exact absurd (hnew ▸ hw) (hm.waiting bin)
    · obtain ⟨first, hfirst, hle⟩ := h.waiting bin j hj (hold hj ▸ hw)
      refine ⟨first, hr ▸ hfirst, ?_⟩
      rwa [hold hj, hold (h.recoverPool bin first hfirst).1]
  case refine_8 =>
    ext b
    constructor
    · rintro ⟨j, hj, hb⟩
      rcases hmem.mp hj with rfl | hj
      · exact absurd (hnew ▸ hb) (newPoolOf_holds b)
      · exact ⟨j, hj, hold hj ▸ hb⟩
    · rintro ⟨j, hj, hb⟩
      exact ⟨j, hmem.mpr (.inr hj), (hold hj).symm ▸ hb⟩
  case refine_9 =>
    have hzero : usedOf large (newPoolOf npages baseAddr memory isLargeObject) = 0 := by
      cases isLargeObject <;> simp [usedOf, newPoolOf, Pool.npages, Pool.freepages,
        SmallObjectPool.fresh, LargeObjectPool.fresh]
    rw [used, used, ht, htable, List.map_append, List.map_cons, List.map_append, List.sum_append,
      List.sum_cons, List.sum_append, List.map_congr_left fun j hj => by rw [hold (hl hj)],
      List.map_congr_left (l := r) fun j hj => by rw [hold (hr' hj)], hnew, hzero, Nat.zero_add]

theorem Wf.newPool (h : g.Wf) {n : Nat} {os : Os} (hn : 256 ≤ g.newPoolPages n)
    (hos : ∀ baseAddr memory, os g.ranges (g.newPoolPages n) isLargeObject = .pages baseAddr memory →
      Maps g (g.newPoolPages n) baseAddr memory) :
    ∃ r g', g.newPool n isLargeObject os = .ok (r, g') ∧ Effect g g' g.heap := by
  rw [Gcx.newPool]
  dsimp only
  cases hmap : os g.ranges (g.newPoolPages n) isLargeObject with
  | noPool =>
    exact ⟨_, _, rfl, h.congr rfl rfl rfl rfl, heap_congr rfl rfl,
      owes_of_eq (used_congr rfl rfl) fun _ => rfl⟩
  | noPages =>
    simp only [if_neg (Nat.not_lt.mpr hn)]
    exact ⟨_, _, rfl, h.keep⟩
  | noTables =>
    simp only [if_neg (Nat.not_lt.mpr hn)]
    exact ⟨_, _, rfl, h.keep⟩
  | noTable =>
    simp only [if_neg (Nat.not_lt.mpr hn)]
    exact ⟨_, _, rfl, h.keep⟩
  | pages baseAddr memory =>
    have hm := hos baseAddr memory hmap
    simp only [if_neg (Nat.not_lt.mpr hn)]
    rw [if_neg (by simpa using hm.aligned)]
    exact ⟨_, _, rfl, h.insertPool hm (by omega) rfl rfl rfl rfl fun _ => rfl⟩

end NewPool
end Runtime.GC.Gcx
