import DmdModel.Runtime.GC.Theorems.Pool

namespace Runtime.GC.Gcx

variable {g : Gcx} {id j ptr : Nat} {p q : Pool}

-- The most pages that all pools together have.
def pageLimit : Nat := 2 ^ 31

-- The pool table: the pools are sorted by their addresses and do not overlap.
structure Table (g : Gcx) : Prop where
  lt     : ∀ id ∈ g.pooltable, id < g.pools.length
  sorted : g.pooltable.Pairwise fun i j => (g.pool i).topAddr ≤ (g.pool j).baseAddr
  pools  : ∀ id ∈ g.pooltable, (g.pool id).Wf
  pages  : (g.pooltable.map fun id => (g.pool id).npages).sum ≤ pageLimit

-- The blocks that are allocated in the pools.
def heap (g : Gcx) : Heap :=
  {b | ∃ id ∈ g.pooltable, (g.pool id).Holds b}

namespace Table

theorem disjoint (h : g.Table) (hi : id ∈ g.pooltable) (hj : j ∈ g.pooltable) (hne : id ≠ j) :
    (g.pool id).topAddr ≤ (g.pool j).baseAddr ∨ (g.pool j).topAddr ≤ (g.pool id).baseAddr := by
  obtain ⟨m, hm, rfl⟩ := List.mem_iff_getElem.mp hi
  obtain ⟨n, hn, rfl⟩ := List.mem_iff_getElem.mp hj
  rcases Nat.lt_trichotomy m n with hlt | rfl | hlt
  · exact .inl (List.pairwise_iff_getElem.mp h.sorted m n hm hn hlt)
  · exact absurd rfl hne
  · exact .inr (List.pairwise_iff_getElem.mp h.sorted n m hn hm hlt)

theorem nodup (h : g.Table) : g.pooltable.Nodup := by
  refine List.Pairwise.imp_of_mem (fun hi _ hij he => ?_) h.sorted
  subst he
  have := (h.pools _ hi).base_lt_top
  omega

-- The pool of an address is unique.
theorem eq_of_mem (h : g.Table) (hi : id ∈ g.pooltable) (hj : j ∈ g.pooltable)
    (hb : (g.pool id).baseAddr ≤ ptr) (ht : ptr < (g.pool id).topAddr)
    (hb' : (g.pool j).baseAddr ≤ ptr) (ht' : ptr < (g.pool j).topAddr) : id = j := by
  by_contra hne
  have := h.disjoint hi hj hne
  omega

theorem first_le (h : g.Table) {first : Nat} (hf : g.pooltable[0]? = some first)
    (hi : id ∈ g.pooltable) : (g.pool first).baseAddr ≤ (g.pool id).baseAddr := by
  obtain ⟨n, hn, rfl⟩ := List.mem_iff_getElem.mp hi
  obtain ⟨h0, rfl⟩ := List.getElem?_eq_some_iff.mp hf
  by_cases hz : 0 < n
  case pos =>
    have := List.pairwise_iff_getElem.mp h.sorted 0 n h0 hn hz
    have := (h.pools _ (List.getElem_mem h0)).base_lt_top
    omega
  case neg =>
    obtain rfl : n = 0 := by omega
    exact Nat.le_refl _

theorem le_last (h : g.Table) {last : Nat} (hl : g.pooltable.getLast? = some last)
    (hi : id ∈ g.pooltable) : (g.pool id).topAddr ≤ (g.pool last).topAddr := by
  obtain ⟨n, hn, rfl⟩ := List.mem_iff_getElem.mp hi
  rw [List.getLast?_eq_getElem?] at hl
  obtain ⟨hlt, rfl⟩ := List.getElem?_eq_some_iff.mp hl
  by_cases he : n = g.pooltable.length - 1
  case pos =>
    subst he
    exact Nat.le_refl _
  case neg =>
    have := List.pairwise_iff_getElem.mp h.sorted n _ hn hlt (by omega)
    have := (h.pools _ (List.getElem_mem hlt)).base_lt_top
    omega

theorem npages_le (h : g.Table) (hi : id ∈ g.pooltable) : (g.pool id).npages ≤ pageLimit :=
  Nat.le_trans (List.single_le_sum (fun _ _ => Nat.zero_le _) _
    (List.mem_map_of_mem (f := fun id => (g.pool id).npages) hi)) h.pages

theorem length_le (h : g.Table) : g.pooltable.length ≤ pageLimit := by
  refine Nat.le_trans ?_ h.pages
  have hle := List.length_le_sum_of_one_le (g.pooltable.map fun id => (g.pool id).npages) ?_
  · rwa [List.length_map] at hle
  · intro n hn
    obtain ⟨id, hid, rfl⟩ := List.mem_map.mp hn
    exact (h.pools id hid).npages

end Table

section FindPool

-- The pool that an address is in.
def IsPool (g : Gcx) (ptr : Nat) (r : Option Nat) : Prop :=
  ∀ id, r = some id ↔ id ∈ g.pooltable ∧ (g.pool id).baseAddr ≤ ptr ∧ ptr < (g.pool id).topAddr

theorem Table.isPool_some (h : g.Table) (hi : id ∈ g.pooltable) (hb : (g.pool id).baseAddr ≤ ptr)
    (ht : ptr < (g.pool id).topAddr) : g.IsPool ptr (some id) := by
  intro j
  constructor
  · intro he
    obtain rfl := Option.some.inj he
    exact ⟨hi, hb, ht⟩
  · rintro ⟨hj, hb', ht'⟩
    rw [h.eq_of_mem hi hj hb ht hb' ht']

theorem isPool_none (h : ∀ id ∈ g.pooltable, ptr < (g.pool id).baseAddr ∨ (g.pool id).topAddr ≤ ptr) :
    g.IsPool ptr none := by
  intro id
  constructor
  · intro he
    cases he
  · rintro ⟨hi, hb, ht⟩
    have := h id hi
    omega

-- The pools before `low` end before the address, those behind `high` begin after it.
theorem Table.findPoolLoop (h : g.Table) {fuel low high : Nat} (hlow : low ≤ high + 1)
    (hhigh : high < g.pooltable.length)
    (hfirst : ∀ id, g.pooltable[0]? = some id → (g.pool id).baseAddr ≤ ptr)
    (hbefore : ∀ j < low, ∀ id, g.pooltable[j]? = some id → (g.pool id).topAddr ≤ ptr)
    (hbehind : ∀ j > high, ∀ id, g.pooltable[j]? = some id → ptr < (g.pool id).baseAddr)
    (hfuel : high + 1 - low < fuel) :
    ∃ r, g.findPoolLoop ptr fuel low high = .ok r ∧ g.IsPool ptr r := by
  have hsorted {i j : Nat} (hij : i < j) {id id' : Nat} (hi : g.pooltable[i]? = some id)
      (hj : g.pooltable[j]? = some id') : (g.pool id).topAddr ≤ (g.pool id').baseAddr := by
    obtain ⟨hil, rfl⟩ := List.getElem?_eq_some_iff.mp hi
    obtain ⟨hjl, rfl⟩ := List.getElem?_eq_some_iff.mp hj
    exact List.pairwise_iff_getElem.mp h.sorted i j hil hjl hij
  induction fuel generalizing low high with
  | zero => omega
  | succ fuel hi =>
    rw [Gcx.findPoolLoop]
    by_cases hle : low ≤ high
    case neg =>
      rw [if_neg hle]
      refine ⟨none, rfl, isPool_none fun id hid => ?_⟩
      obtain ⟨j, hj⟩ := List.mem_iff_getElem?.mp hid
      by_cases hlt : j < low
      case pos => exact .inr (hbefore j hlt id hj)
      case neg => exact .inl (hbehind j (by omega) id hj)
    case pos =>
      rw [if_pos hle]
      obtain ⟨mid, hmid⟩ : ∃ mid, mid = (low + high) >>> 1 := ⟨_, rfl⟩
      have hmid' : mid = (low + high) / 2 := hmid
      obtain ⟨id, hid⟩ : ∃ id, g.pooltable[mid]? = some id :=
        ⟨_, List.getElem?_eq_getElem (show mid < g.pooltable.length by omega)⟩
      simp only [← hmid, hid]
      have hmem := List.mem_of_getElem? hid
      by_cases hb : ptr < (g.pool id).baseAddr
      case pos =>
        rw [if_pos hb]
        have hne : mid ≠ 0 := by
          intro h0
          have := hfirst id (h0 ▸ hid)
          omega
        have hlen := h.length_le
        have hpred : (mid + (2 ^ 64 - 1)) % 2 ^ 64 = mid - 1 := by
          rw [show mid + (2 ^ 64 - 1) = mid - 1 + 2 ^ 64 by omega, Nat.add_mod_right,
            Nat.mod_eq_of_lt]
          rw [pageLimit] at hlen
          omega
        rw [hpred]
        refine hi (by omega) (by omega) hbefore (fun j hj id' hj' => ?_) (by omega)
        by_cases he : j = mid
        case pos =>
          rw [he, hid] at hj'
          exact Option.some.inj hj' ▸ hb
        case neg =>
          have := hsorted (show mid < j by omega) hid hj'
          have := (h.pools id hmem).base_lt_top
          omega
      case neg =>
        rw [if_neg hb]
        by_cases ht : ptr ≥ (g.pool id).topAddr
        case neg =>
          rw [if_neg ht]
          exact ⟨some id, rfl, h.isPool_some hmem (by omega) (by omega)⟩
        case pos =>
          rw [if_pos ht]
          refine hi (by omega) hhigh (fun j hj id' hj' => ?_) hbehind (by omega)
          by_cases he : j = mid
          case pos =>
            rw [he, hid] at hj'
            exact Option.some.inj hj' ▸ ht
          case neg =>
            have := hsorted (show j < mid by omega) hj' hid
            have := (h.pools id hmem).base_lt_top
            omega

theorem Table.findPool (h : g.Table) (ptr : Nat) : ∃ r, g.findPool ptr = .ok r ∧ g.IsPool ptr r := by
  rw [Gcx.findPool]
  rcases List.eq_nil_or_concat g.pooltable with he | ⟨l, last, he⟩
  case inl =>
    have hmax : g.maxAddr = 0 := by rw [maxAddr, he]; rfl
    rw [if_neg (by omega)]
    refine ⟨none, rfl, isPool_none fun id hid => ?_⟩
    rw [he] at hid
    cases hid
  case inr =>
    have hlen := h.length_le
    obtain ⟨first, hfirst⟩ : ∃ first, g.pooltable[0]? = some first :=
      ⟨_, List.getElem?_eq_getElem (by rw [he]; simp)⟩
    have hhead : g.pooltable.head? = some first := by rw [List.head?_eq_getElem?, hfirst]
    have hlast : g.pooltable.getLast? = some last := by
      rw [he, List.concat_eq_append, List.getLast?_concat]
    have hmem := List.mem_of_getElem? hfirst
    have hmem' := List.mem_of_getLast? hlast
    have hmin : g.minAddr = (g.pool first).baseAddr := by rw [minAddr, hhead]; rfl
    have hmax : g.maxAddr = (g.pool last).topAddr := by rw [maxAddr, hlast]; rfl
    by_cases hc : ptr ≥ g.minAddr ∧ ptr < g.maxAddr
    case neg =>
      rw [if_neg hc]
      refine ⟨none, rfl, isPool_none fun id hid => ?_⟩
      by_contra hin
      refine hc ⟨?_, ?_⟩
      · by_cases hf : id = first
        case pos =>
          subst hf
          omega
        case neg =>
          have := h.first_le hfirst hid
          omega
      · have := h.le_last hlast hid
        omega
    case pos =>
      rw [if_pos hc]
      rw [hmin, hmax] at hc
      by_cases hone : g.pooltable.length = 1
      case pos =>
        rw [if_pos hone]
        obtain ⟨id, hid⟩ := List.length_eq_one_iff.mp hone
        rw [hid] at hhead hlast
        obtain rfl := Option.some.inj hhead
        obtain rfl := Option.some.inj hlast
        exact ⟨some id, by rw [hid]; rfl, h.isPool_some hmem hc.1 hc.2⟩
      case neg =>
        rw [if_neg hone]
        have hpos : 0 < g.pooltable.length := List.length_pos_of_mem hmem
        refine h.findPoolLoop (by omega) (by omega) ?_ (fun j hj => absurd hj (Nat.not_lt_zero j)) ?_
          (by omega)
        · intro id hid
          rw [hfirst] at hid
          exact Option.some.inj hid ▸ hc.1
        · intro j hj id hid
          have := (List.getElem?_eq_some_iff.mp hid).1
          omega

-- What `findBase` and `getInfo` tell about an address: the block that it lies in, or in the unused rest
-- of a page behind it.
structure Found (g : Gcx) (ptr : Nat) (r : Option BlkInfo) : Prop where
  findBase : g.findBase ptr = .ok (r.map BlkInfo.base)
  getInfo  : g.getInfo ptr = .ok (r.getD .init)
  sound    : ∀ b, r = some b → b ∈ g.heap ∧ b.base ≤ ptr ∧ ptr < b.base + b.size + 64
  complete : ∀ b ∈ g.heap, b.base ≤ ptr → ptr < b.base + b.size → r = some b

-- A block with an address in a pool is in that pool.
theorem Table.holds (h : g.Table) (hi : id ∈ g.pooltable) (hb : (g.pool id).baseAddr ≤ ptr)
    (ht : ptr < (g.pool id).topAddr) {b : BlkInfo} (hm : b ∈ g.heap) (hle : b.base ≤ ptr)
    (hlt : ptr < b.base + b.size) : (g.pool id).Holds b := by
  obtain ⟨j, hj, hb'⟩ := hm
  have hbounds := Pool.holds_bounds hb'
  rwa [h.eq_of_mem hi hj hb ht (by omega) (by omega)]

theorem Table.found (h : g.Table) (ptr : Nat) : ∃ r, g.Found ptr r := by
  obtain ⟨r, hr, hpool⟩ := h.findPool ptr
  cases r with
  | none =>
    refine ⟨none, ?_, ?_, fun b he => (Option.some_ne_none b he.symm).elim, ?_⟩
    · rw [Gcx.findBase, hr]
      rfl
    · rw [Gcx.getInfo, hr]
      rfl
    · rintro b ⟨id, hi, hb⟩ hle hlt
      have hbounds := Pool.holds_bounds hb
      exact absurd ((hpool id).mpr ⟨hi, by omega, by omega⟩) (Option.some_ne_none id).symm
  | some id =>
    obtain ⟨hi, hb, ht⟩ := (hpool id).mp rfl
    obtain ⟨r, hfound⟩ := (h.pools id hi).found hb ht
    refine ⟨r, ?_, ?_, fun b he => ?_, fun b hm hle hlt => ?_⟩
    · rw [Gcx.findBase, hr]
      exact hfound.findBase
    · rw [Gcx.getInfo, hr]
      exact hfound.slGetInfo
    · obtain ⟨hb', hle, hlt⟩ := hfound.sound b he
      exact ⟨⟨id, hi, hb'⟩, hle, hlt⟩
    · exact hfound.complete b (h.holds hi hb ht hm hle hlt) hle hlt

theorem heap_pos {b : BlkInfo} (hb : b ∈ g.heap) : 0 < b.size := by
  obtain ⟨id, _, hb⟩ := hb
  exact (Pool.holds_bounds hb).2.2

theorem Table.separate (h : g.Table) : g.heap.Separate := by
  rintro b ⟨i, hi, hb⟩ c ⟨j, hj, hc⟩
  by_cases he : i = j
  case pos =>
    subst he
    exact Pool.holds_disjoint hb hc
  case neg =>
    have hdisjoint := h.disjoint hi hj he
    have hb' := Pool.holds_bounds hb
    have hc' := Pool.holds_bounds hc
    omega

theorem Table.eq_of_base (h : g.Table) {b c : BlkInfo} (hb : b ∈ g.heap) (hc : c ∈ g.heap)
    (he : c.base = b.base) : c = b := by
  have := heap_pos hb
  have := heap_pos hc
  rcases h.separate c hc b hb with he | hle | hle
  · exact he
  · omega
  · omega

end FindPool

section Updated

variable {g' : Gcx} {a : Nat} {new : Option BlkInfo} {b : BlkInfo}

theorem pool_congr (hp : g'.pools = g.pools) (j : Nat) : g'.pool j = g.pool j := by
  rw [pool, pool, hp]

theorem Table.congr (h : g.Table) (hp : g'.pools = g.pools) (ht : g'.pooltable = g.pooltable) :
    g'.Table := by
  constructor
  case lt => exact hp ▸ ht ▸ h.lt
  all_goals simp only [pool_congr hp, ht]
  case sorted => exact h.sorted
  case pools => exact h.pools
  case pages => exact h.pages

theorem heap_congr (hp : g'.pools = g.pools) (ht : g'.pooltable = g.pooltable) : g'.heap = g.heap := by
  simp only [heap, pool_congr hp, ht]

-- One pool is another one, and the buckets and the counters may have changed.
structure Updated (g g' : Gcx) (id : Nat) (q : Pool) : Prop where
  pools       : g'.pools = g.pools.set id q
  pooltable   : g'.pooltable = g.pooltable
  recoverPool : g'.recoverPool = g.recoverPool

namespace Updated

theorem pool_of_ne (h : Updated g g' id q) (hne : j ≠ id) : g'.pool j = g.pool j := by
  rw [pool, pool, h.pools, List.getD_eq_getElem?_getD, List.getD_eq_getElem?_getD,
    List.getElem?_set_ne hne.symm]

theorem pool_self_of_lt (h : Updated g g' id q) (hi : id < g.pools.length) : g'.pool id = q := by
  rw [pool, h.pools, List.getD_eq_getElem?_getD, List.getElem?_set_self hi]
  rfl

variable (h : Updated g g' id q) (ht : g.Table) (hi : id ∈ g.pooltable)
include h ht hi

theorem pool_self : g'.pool id = q :=
  h.pool_self_of_lt (ht.lt id hi)

theorem baseAddr_eq (hb : q.baseAddr = (g.pool id).baseAddr) (j : Nat) :
    (g'.pool j).baseAddr = (g.pool j).baseAddr := by
  by_cases he : j = id
  case pos => rw [he, h.pool_self ht hi, hb]
  case neg => rw [h.pool_of_ne he]

theorem table (hq : q.Wf) (hb : q.baseAddr = (g.pool id).baseAddr)
    (hn : q.npages = (g.pool id).npages) : g'.Table := by
  have hbase := h.baseAddr_eq ht hi hb
  have hnpages (j : Nat) : (g'.pool j).npages = (g.pool j).npages := by
    by_cases he : j = id
    case pos => rw [he, h.pool_self ht hi, hn]
    case neg => rw [h.pool_of_ne he]
  constructor
  case lt =>
    intro j hj
    rw [h.pools, List.length_set]
    exact ht.lt j (h.pooltable ▸ hj)
  case sorted =>
    rw [h.pooltable]
    refine ht.sorted.imp fun hij => ?_
    rwa [Pool.topAddr_eq, hbase, hnpages, ← Pool.topAddr_eq, hbase]
  case pools =>
    intro j hj
    by_cases he : j = id
    case pos => rwa [he, h.pool_self ht hi]
    case neg =>
      rw [h.pool_of_ne he]
      exact ht.pools j (h.pooltable ▸ hj)
  case pages =>
    rw [h.pooltable, List.map_congr_left fun j _ => hnpages j]
    exact ht.pages

theorem mem_heap : b ∈ g'.heap ↔ q.Holds b ∨ ∃ j ∈ g.pooltable, j ≠ id ∧ (g.pool j).Holds b := by
  constructor
  · rintro ⟨j, hj, hb⟩
    rw [h.pooltable] at hj
    by_cases he : j = id
    case pos =>
      rw [he, h.pool_self ht hi] at hb
      exact .inl hb
    case neg =>
      rw [h.pool_of_ne he] at hb
      exact .inr ⟨j, hj, he, hb⟩
  · rintro (hb | ⟨j, hj, he, hb⟩)
    · exact ⟨id, h.pooltable ▸ hi, (h.pool_self ht hi).symm ▸ hb⟩
    · exact ⟨j, h.pooltable ▸ hj, (h.pool_of_ne he).symm ▸ hb⟩

theorem heap_eq (hq : ∀ b, q.Holds b ↔ (g.pool id).Holds b) : g'.heap = g.heap := by
  ext b
  rw [h.mem_heap ht hi, hq]
  constructor
  · rintro (hb | ⟨j, hj, _, hb⟩)
    · exact ⟨id, hi, hb⟩
    · exact ⟨j, hj, hb⟩
  · rintro ⟨j, hj, hb⟩
    by_cases he : j = id
    case pos => exact .inl (he ▸ hb)
    case neg => exact .inr ⟨j, hj, he, hb⟩

theorem heap_replace (hr : (g.pool id).Replaced q a new) (hle : (g.pool id).baseAddr ≤ a)
    (hlt : a < (g.pool id).topAddr) : g'.heap = g.heap.replace a new := by
  ext b
  rw [h.mem_heap ht hi, hr.holds]
  constructor
  · rintro ((⟨hb, hne⟩ | hnew) | ⟨j, hj, he, hb⟩)
    · exact .inl ⟨⟨id, hi, hb⟩, hne⟩
    · exact .inr hnew
    · have hdisjoint := ht.disjoint hj hi he
      have hbounds := Pool.holds_bounds hb
      exact .inl ⟨⟨j, hj, hb⟩, by omega⟩
  · rintro (⟨⟨j, hj, hb⟩, hne⟩ | hnew)
    · by_cases he : j = id
      case pos => exact .inl (.inl ⟨he ▸ hb, hne⟩)
      case neg => exact .inr ⟨j, hj, he, hb⟩
    · exact .inl (.inr hnew)

end Updated

end Updated

end Runtime.GC.Gcx
