import DmdModel.Runtime.GC.PoolTable

namespace Runtime.GC
namespace PoolTable

variable {P : Type} {t t' : PoolTable P} {i j n p : Nat} {pool q : P}

@[simp]
theorem opSlice_length : t.opSlice.length = t.npools := by
  simp [opSlice]

@[simp]
theorem opSlice_getElem (h : i < t.opSlice.length) : t.opSlice[i] = t.pools i := by
  simp [opSlice]

theorem mem_opSlice : q ∈ t.opSlice ↔ ∃ i < t.npools, t.pools i = q := by
  simp [opSlice]

-- One pool lies before another one.
def Before (t : PoolTable P) (q r : P) : Prop :=
  (t.deref q).topAddr ≤ (t.deref r).baseAddr

-- The pools are in the order of their addresses.
structure Sorted (t : PoolTable P) : Prop where
  nonempty : ∀ q ∈ t.opSlice, (t.deref q).baseAddr < (t.deref q).topAddr
  ordered  : t.opSlice.Pairwise t.Before

namespace Sorted

theorem base_lt_top (h : t.Sorted) (hi : i < t.npools) : t.baseAddr i < t.topAddr i :=
  h.nonempty _ <| (mem_opSlice).mpr ⟨i, hi, rfl⟩

theorem top_le_base (h : t.Sorted) (hij : i < j) (hj : j < t.npools) :
    t.topAddr i ≤ t.baseAddr j := by
  have hp := List.pairwise_iff_getElem.mp h.ordered i j (by simp; omega) (by simpa using hj) hij
  rw [opSlice_getElem, opSlice_getElem] at hp
  exact hp

theorem base_lt_base (h : t.Sorted) (hij : i < j) (hj : j < t.npools) :
    t.baseAddr i < t.baseAddr j :=
  Nat.lt_of_lt_of_le (h.base_lt_top <| hij.trans hj) (h.top_le_base hij hj)

theorem injOn (h : t.Sorted) (hi : i < t.npools) (hj : j < t.npools)
    (he : t.pools i = t.pools j) : i = j := by
  have hb : t.baseAddr i = t.baseAddr j := by rw [baseAddr, he, baseAddr]
  rcases Nat.lt_trichotomy i j with hl | he | hl
  · have := h.base_lt_base hl hj
    omega
  · exact he
  · have := h.base_lt_base hl hi
    omega

theorem nodup (h : t.Sorted) : t.opSlice.Nodup := by
  refine List.Nodup.map_on (fun i hi j hj => ?_) List.nodup_range
  exact h.injOn (List.mem_range.mp hi) (List.mem_range.mp hj)

end Sorted

-- What holds of the table between operations.
structure Searchable (t : PoolTable P) : Prop extends t.Sorted where
  index : ∀ i < t.npools, (t.deref (t.pools i)).ptIndex = i
  min   : t.npools ≠ 0 → t.minAddr = t.baseAddr 0
  max   : t.npools ≠ 0 → t.maxAddr = t.topAddr (t.npools - 1)
  empty : t.npools = 0 → t.minAddr = 0 ∧ t.maxAddr = 0

theorem Searchable.invariant (h : t.Searchable) : t.Invariant := by
  intro hn
  refine ⟨h.index, fun i hi => ?_, h.min hn, h.max hn⟩
  exact h.base_lt_base (Nat.lt_succ_self i) (by omega)

-- Two pools do not have an address in common.
def Disjoint (t : PoolTable P) (q r : P) : Prop :=
  t.Before q r ∨ t.Before r q

-- An address of a pool's.
def Contains (t : PoolTable P) (q : P) (p : Nat) : Prop :=
  (t.deref q).baseAddr ≤ p ∧ p < (t.deref q).topAddr

theorem Sorted.contains_unique (h : t.Sorted) (hi : i < t.npools) (hj : j < t.npools)
    (hp : t.Contains (t.pools i) p) (hq : t.Contains (t.pools j) p) : i = j := by
  have ⟨h₁, h₂⟩ := hp
  have ⟨h₃, h₄⟩ := hq
  rcases Nat.lt_trichotomy i j with hl | he | hl
  · have := h.top_le_base hl hj
    simp only [topAddr, baseAddr] at this
    omega
  · exact he
  · have := h.top_le_base hl hi
    simp only [topAddr, baseAddr] at this
    omega

-- The result of a search: the pool that an address is in.
def IsPoolOf (t : PoolTable P) (p : Nat) (r : Option P) : Prop :=
  ∀ q, r = some q ↔ q ∈ t.opSlice ∧ t.Contains q p

theorem Sorted.isPoolOf_some (h : t.Sorted) (hi : i < t.npools)
    (hp : t.Contains (t.pools i) p) : t.IsPoolOf p (some (t.pools i)) := by
  intro q
  constructor
  · intro he
    cases he
    exact ⟨(mem_opSlice).mpr ⟨i, hi, rfl⟩, hp⟩
  · intro hq
    obtain ⟨j, hj, rfl⟩ := (mem_opSlice).mp hq.left
    rw [h.contains_unique hi hj hp hq.right]

theorem isPoolOf_none (h : ∀ i < t.npools, ¬t.Contains (t.pools i) p) : t.IsPoolOf p none := by
  intro q
  constructor
  · intro he
    cases he
  · intro hq
    obtain ⟨j, hj, rfl⟩ := (mem_opSlice).mp hq.left
    exact absurd hq.right (h j hj)

-- The pools before `low` end before the address, those behind `high` begin after it. `high` does not
-- become less than 0, as the address is not less than the first base address.
theorem findPoolLoop_spec (h : t.Sorted) {fuel low high : Nat} (hp : t.baseAddr 0 ≤ p)
    (hh : high < t.npools) (hl : ∀ i < low, i < t.npools → t.topAddr i ≤ p)
    (hg : ∀ i, high < i → i < t.npools → p < t.baseAddr i) (hf : high + 1 - low < fuel) :
    ∃ r, t.findPoolLoop p fuel low high = .ok r ∧ t.IsPoolOf p r := by
  induction fuel generalizing low high
  case zero => exact absurd hf (Nat.not_lt_zero _)
  case succ fuel hi =>
    rw [findPoolLoop]
    by_cases hlh : low ≤ high
    case neg =>
      refine ⟨none, by simp [hlh], isPoolOf_none fun i hin hc => ?_⟩
      have ⟨hb, ht⟩ := hc
      by_cases hil : i < low
      case pos => exact absurd (hl i hil hin) (Nat.not_le.mpr ht)
      case neg => exact absurd (hg i (by omega) hin) (Nat.not_lt.mpr hb)
    case pos =>
      have hm : (low + high) >>> 1 = (low + high) / 2 := by rw [Nat.shiftRight_eq_div_pow, Nat.pow_one]
      simp only [hlh, if_true, hm]
      have hlm : low ≤ (low + high) / 2 := by omega
      have hmh : (low + high) / 2 ≤ high := by omega
      generalize (low + high) / 2 = mid at hlm hmh ⊢
      rw [if_neg (by omega)]
      by_cases hb : p < t.baseAddr mid
      case pos =>
        have hm0 : mid ≠ 0 := by
          rintro rfl
          omega
        rw [if_pos hb, if_neg hm0]
        refine hi (by omega) hl (fun i hmi hin => ?_) (by omega)
        obtain rfl | hlt := Nat.eq_or_lt_of_le (show mid ≤ i by omega)
        · exact hb
        · exact hb.trans (h.base_lt_base hlt hin)
      case neg =>
        rw [if_neg hb]
        by_cases ht : p ≥ t.topAddr mid
        case pos =>
          rw [if_pos ht]
          refine hi hh (fun i him hin => ?_) hg (by omega)
          obtain rfl | hlt := Nat.eq_or_lt_of_le (show i ≤ mid by omega)
          · exact ht
          · have := h.top_le_base hlt (by omega)
            have := h.base_lt_top (show mid < t.npools by omega)
            omega
        case neg =>
          rw [if_neg ht]
          exact ⟨_, rfl, h.isPoolOf_some (by omega) ⟨Nat.not_lt.mp hb, Nat.not_le.mp ht⟩⟩

theorem Searchable.findPool (h : t.Searchable) (p : Nat) :
    ∃ r, t.findPool p = .ok r ∧ t.IsPoolOf p r := by
  rw [PoolTable.findPool]
  by_cases hb : p ≥ t.minAddr ∧ p < t.maxAddr
  case neg =>
    rw [if_neg hb]
    -- the bounds are those of the first and of the last pool
    refine ⟨none, rfl, isPoolOf_none fun i hi hc => ?_⟩
    have ⟨h₁, h₂⟩ := hc
    have hn : t.npools ≠ 0 := by omega
    rw [h.min hn, h.max hn] at hb
    have hmin : t.baseAddr 0 ≤ t.baseAddr i := by
      obtain rfl | hlt := Nat.eq_zero_or_pos i
      · exact Nat.le_refl _
      · exact (h.base_lt_base hlt hi).le
    have hmax : t.topAddr i ≤ t.topAddr (t.npools - 1) := by
      obtain rfl | hlt := Nat.eq_or_lt_of_le (show i ≤ t.npools - 1 by omega)
      · exact Nat.le_refl _
      · have := h.top_le_base hlt (by omega)
        have := h.base_lt_top (show t.npools - 1 < t.npools by omega)
        omega
    exact hb ⟨hmin.trans h₁, Nat.lt_of_lt_of_le h₂ hmax⟩
  case pos =>
    have hn : t.npools ≠ 0 := by
      intro hn
      have ⟨_, hmax⟩ := h.empty hn
      omega
    rw [h.min hn, h.max hn] at hb
    rw [if_pos (by rw [h.min hn, h.max hn]; exact hb), if_neg hn]
    by_cases h1 : t.npools = 1
    case pos =>
      rw [if_pos h1]
      rw [h1] at hb
      exact ⟨_, rfl, h.isPoolOf_some (by omega) ⟨hb.left, hb.right⟩⟩
    case neg =>
      rw [if_neg h1]
      exact findPoolLoop_spec h.toSorted hb.left (by omega) (by omega) (by omega) (by omega)

-- What an update of `ptIndex` leaves as it is.
structure SamePools (t t' : PoolTable P) : Prop where
  npools   : t'.npools = t.npools
  baseAddr : ∀ q, (t'.deref q).baseAddr = (t.deref q).baseAddr
  topAddr  : ∀ q, (t'.deref q).topAddr = (t.deref q).topAddr
  isFree   : ∀ q, (t'.deref q).isFree = (t.deref q).isFree

namespace SamePools

theorem refl (t : PoolTable P) : t.SamePools t where
  npools     := rfl
  baseAddr _ := rfl
  topAddr _  := rfl
  isFree _   := rfl

theorem trans {t'' : PoolTable P} (h₁ : t.SamePools t') (h₂ : t'.SamePools t'') :
    t.SamePools t'' where
  npools     := h₂.npools.trans h₁.npools
  baseAddr q := (h₂.baseAddr q).trans (h₁.baseAddr q)
  topAddr q  := (h₂.topAddr q).trans (h₁.topAddr q)
  isFree q   := (h₂.isFree q).trans (h₁.isFree q)

theorem before (h : t.SamePools t') : t'.Before = t.Before := by
  funext q r
  rw [Before, Before, h.topAddr, h.baseAddr]

end SamePools

theorem SamePools.sorted (hs : t.SamePools t') (hp : t'.pools = t.pools) (h : t.Sorted) :
    t'.Sorted := by
  have ho : t'.opSlice = t.opSlice := by rw [opSlice, opSlice, hs.npools, hp]
  constructor
  case nonempty =>
    intro q hq
    rw [hs.baseAddr, hs.topAddr]
    exact h.nonempty q <| ho ▸ hq
  case ordered =>
    rw [ho, hs.before]
    exact h.ordered

-- The index that a pool is sorted in at.
def insertIndex (t : PoolTable P) (pool : P) : Nat :=
  (List.range t.npools).findIdx fun i => decide ((t.deref pool).baseAddr < t.baseAddr i)

-- The table with the pool in it, before the pools from there on get their new numbers.
def inserted (t : PoolTable P) (pool : P) : PoolTable P :=
  let i := t.insertIndex pool
  let pools := memmove t.pools (i + 1) i (t.npools - i)
  { t with pools := Function.update pools i pool, npools := t.npools + 1 }

theorem insertIndex_le (t : PoolTable P) (pool : P) : t.insertIndex pool ≤ t.npools := by
  have h : t.insertIndex pool ≤ (List.range t.npools).length := List.findIdx_le_length
  rwa [List.length_range] at h

theorem le_of_lt_insertIndex (h : i < t.insertIndex pool) :
    t.baseAddr i ≤ (t.deref pool).baseAddr := by
  have hn := List.not_of_lt_findIdx h
  simpa using hn

theorem lt_of_insertIndex (h : t.insertIndex pool < t.npools) :
    (t.deref pool).baseAddr < t.baseAddr (t.insertIndex pool) := by
  have hg := List.findIdx_getElem (p := fun i => decide ((t.deref pool).baseAddr < t.baseAddr i))
    (w := by rw [List.length_range]; exact h)
  rw [List.getElem_range] at hg
  exact of_decide_eq_true hg

theorem inserted_pools : (t.inserted pool).pools = Function.update
    (memmove t.pools (t.insertIndex pool + 1) (t.insertIndex pool) (t.npools - t.insertIndex pool))
    (t.insertIndex pool) pool :=
  rfl

-- Without pools behind the new one there is nothing to move.
theorem inserted_eq : t.inserted pool =
    let i := t.insertIndex pool
    let pools := if i ≠ t.npools then memmove t.pools (i + 1) i (t.npools - i) else t.pools
    { t with pools := Function.update pools i pool, npools := t.npools + 1 } := by
  by_cases hi : t.insertIndex pool = t.npools
  case neg => simp only [ne_eq, hi, not_false_eq_true, if_true, inserted]
  case pos =>
    have hm : memmove t.pools (t.npools + 1) t.npools 0 = t.pools := by
      funext i
      rw [memmove, if_neg (by omega)]
    simp only [ne_eq, hi, not_true_eq_false, if_false, inserted, Nat.sub_self, hm]

theorem inserted_opSlice : (t.inserted pool).opSlice =
    t.opSlice.take (t.insertIndex pool) ++ pool :: t.opSlice.drop (t.insertIndex pool) := by
  have hle := t.insertIndex_le pool
  refine List.ext_getElem ?_ fun i hi hj => ?_
  case refine_1 =>
    simp only [opSlice_length, inserted, List.length_append, List.length_take, List.length_cons,
      List.length_drop]
    omega
  case refine_2 =>
    rw [opSlice_length] at hi
    replace hi : i < t.npools + 1 := hi
    rw [opSlice_getElem, inserted_pools]
    obtain hlt | rfl | hlt := Nat.lt_trichotomy i (t.insertIndex pool)
    · rw [List.getElem_append_left (by simp; omega), List.getElem_take, opSlice_getElem]
      rw [Function.update_of_ne (by omega), memmove, if_neg (by omega)]
    · rw [List.getElem_append_right (by simp)]
      simp [hle]
    · rw [List.getElem_append_right (by simp; omega)]
      rw [Function.update_of_ne (by omega), memmove, if_pos (by omega)]
      simp only [List.length_take, opSlice_length, Nat.min_eq_left hle]
      obtain ⟨k, rfl⟩ := Nat.exists_eq_add_of_lt hlt
      simp only [show t.insertIndex pool + k + 1 - t.insertIndex pool = k + 1 by omega,
        List.getElem_cons_succ, List.getElem_drop, opSlice_getElem]
      congr 1
      omega

theorem Sorted.inserted (h : t.Sorted) (hne : (t.deref pool).baseAddr < (t.deref pool).topAddr)
    (hd : ∀ q ∈ t.opSlice, t.Disjoint q pool) : (t.inserted pool).Sorted := by
  have hk := t.insertIndex_le pool
  have hmem {i : Nat} (hi : i < t.npools) : t.pools i ∈ t.opSlice := (mem_opSlice).mpr ⟨i, hi, rfl⟩
  constructor
  case nonempty =>
    intro q hq
    rw [inserted_opSlice] at hq
    obtain hq | rfl | hq := List.mem_append.mp hq |>.imp id List.mem_cons.mp
    · exact h.nonempty q <| List.mem_of_mem_take hq
    · exact hne
    · exact h.nonempty q <| List.mem_of_mem_drop hq
  case ordered =>
    -- the pools up to the index do not begin after the new one, those from there on do
    have hbefore : ∀ q ∈ t.opSlice.take (t.insertIndex pool), t.Before q pool := by
      intro q hq
      obtain ⟨i, hi, rfl⟩ := List.mem_take_iff_getElem.mp hq
      rw [opSlice_length] at hi
      rw [opSlice_getElem]
      have hle := le_of_lt_insertIndex (show i < t.insertIndex pool by omega)
      have hlt := h.base_lt_top (show i < t.npools by omega)
      refine (hd _ <| hmem (by omega)).resolve_right fun hb => ?_
      simp only [Before, baseAddr] at hb hle hlt
      omega
    have hafter : ∀ q ∈ t.opSlice.drop (t.insertIndex pool), t.Before pool q := by
      intro q hq
      obtain ⟨i, hi, rfl⟩ := List.mem_drop_iff_getElem.mp hq
      rw [opSlice_length] at hi
      rw [opSlice_getElem]
      have hlt := lt_of_insertIndex (show t.insertIndex pool < t.npools by omega)
      have hne := h.base_lt_top (show t.insertIndex pool + i < t.npools by omega)
      have hle : t.baseAddr (t.insertIndex pool) ≤ t.baseAddr (t.insertIndex pool + i) := by
        obtain rfl | hpos := Nat.eq_zero_or_pos i
        · exact Nat.le_refl _
        · exact (h.base_lt_base (by omega) (by omega)).le
      refine (hd _ <| hmem (by omega)).resolve_left fun hb => ?_
      simp only [Before, baseAddr, topAddr] at hb hle hlt hne
      omega
    rw [inserted_opSlice]
    refine List.pairwise_append.mpr ⟨h.ordered.sublist (List.take_sublist _ _), ?_, ?_⟩
    · exact List.pairwise_cons.mpr ⟨hafter, h.ordered.sublist (List.drop_sublist _ _)⟩
    · intro q hq r hr
      obtain rfl | hr := List.mem_cons.mp hr
      · exact hbefore q hq
      · have ho := h.ordered
        rw [← List.take_append_drop (t.insertIndex pool) t.opSlice] at ho
        exact (List.pairwise_append.mp ho).right.right q hq r hr

theorem swap_pools :
    (t.swap i j).pools = Function.update (Function.update t.pools i (t.pools j)) j (t.pools i) :=
  rfl

theorem swap_pools_of_ne (hi : n ≠ i) (hj : n ≠ j) : (t.swap i j).pools n = t.pools n := by
  rw [swap_pools, Function.update_of_ne hj, Function.update_of_ne hi]

theorem swap_pools_left : (t.swap i j).pools i = t.pools j := by
  by_cases he : i = j
  case pos => rw [he, swap_pools, Function.update_self]
  case neg => rw [swap_pools, Function.update_of_ne he, Function.update_self]

theorem swap_pools_right : (t.swap i j).pools j = t.pools i := by
  rw [swap_pools, Function.update_self]

theorem swap_freed (hij : i ≤ j) : ((List.range' (i + 1) (j - i)).map (t.swap i j).pools).Perm
    ((List.range' i (j - i)).map t.pools) := by
  obtain rfl | hlt := Nat.eq_or_lt_of_le hij
  case inl => simp
  case inr =>
    obtain ⟨n, rfl⟩ := Nat.exists_eq_add_of_lt hlt
    have hn : i + n + 1 - i = n + 1 := by omega
    have hm : (List.range' (i + 1) n).map (t.swap i (i + n + 1)).pools =
        (List.range' (i + 1) n).map t.pools := by
      refine List.map_congr_left fun k hk => ?_
      have hk := List.mem_range'_1.mp hk
      exact swap_pools_of_ne (by omega) (by omega)
    have hi : (t.swap i (i + n + 1)).pools (i + 1 + n) = t.pools i := by
      rw [show i + 1 + n = i + n + 1 by omega, swap_pools_right]
    rw [hn, List.range'_1_concat, List.map_append, hm, List.map_singleton, hi]
    rw [List.range'_succ, List.map_cons]
    exact List.perm_append_singleton _ _

-- The loop of `minimize` with the first `j` pools behind it: the pools in use are in front, in their
-- order, and the free ones behind them.
structure Partitioned (t₀ : PoolTable P) (j : Nat) (t : PoolTable P) (i : Nat) : Prop where
  same  : t₀.SamePools t
  le    : i ≤ j
  used  : (List.range i).map t.pools =
    ((List.range j).map t₀.pools).filter fun q => !(t₀.deref q).isFree
  freed : ((List.range' i (j - i)).map t.pools).Perm
    (((List.range j).map t₀.pools).filter fun q => (t₀.deref q).isFree)
  rest  : ∀ k, j ≤ k → t.pools k = t₀.pools k
  index : ∀ k < i, (t.deref (t.pools k)).ptIndex = k

namespace Partitioned

variable {t₀ : PoolTable P}

theorem isFree (h : t₀.Partitioned j t i) : t.isFree j = (t₀.deref (t₀.pools j)).isFree := by
  rw [PoolTable.isFree, h.rest j (Nat.le_refl j), h.same.isFree]

theorem skip (h : t₀.Partitioned j t i) (hf : t.isFree j = true) : t₀.Partitioned (j + 1) t i := by
  rw [h.isFree] at hf
  refine ⟨h.same, h.le.trans (Nat.le_succ j), ?_, ?_, fun k hk => h.rest k (by omega), h.index⟩
  case refine_1 => simp [List.range_succ, h.used, hf]
  case refine_2 =>
    have hl : j + 1 - i = (j - i) + 1 := Nat.succ_sub h.le
    have hj : i + (j - i) = j := Nat.add_sub_cancel' h.le
    rw [hl, List.range'_1_concat, hj, List.range_succ]
    simp only [List.map_append, List.filter_append, List.map_singleton, List.filter_singleton, hf,
      h.rest j (Nat.le_refl j)]
    exact h.freed.append_right _

end Partitioned

-- The loop starts at the first free pool.
theorem Searchable.partitioned (h : t.Searchable) :
    t.Partitioned ((List.range t.npools).findIdx t.isFree) t
      ((List.range t.npools).findIdx t.isFree) := by
  have hle : (List.range t.npools).findIdx t.isFree ≤ (List.range t.npools).length :=
    List.findIdx_le_length
  rw [List.length_range] at hle
  have hused {i : Nat} (hi : i < (List.range t.npools).findIdx t.isFree) :
      (t.deref (t.pools i)).isFree = false := by
    have hn := List.not_of_lt_findIdx hi
    rw [List.getElem_range] at hn
    exact hn
  refine ⟨.refl t, Nat.le_refl _, ?_, ?_, fun _ _ => rfl, fun i hi => h.index i (by omega)⟩
  case refine_1 =>
    refine (List.filter_eq_self.mpr fun q hq => ?_).symm
    obtain ⟨i, hi, rfl⟩ := List.mem_map.mp hq
    rw [hused <| List.mem_range.mp hi]
    rfl
  case refine_2 =>
    rw [Nat.sub_self, List.filter_eq_nil_iff.mpr]
    · rfl
    · intro q hq
      obtain ⟨i, hi, rfl⟩ := List.mem_map.mp hq
      rw [hused <| List.mem_range.mp hi]
      exact Bool.false_ne_true

-- The table with the first `i` pools only.
def truncate (t : PoolTable P) (i : Nat) : PoolTable P :=
  { t with
    npools  := i
    minAddr := if i ≠ 0 then t.baseAddr 0 else 0
    maxAddr := if i ≠ 0 then t.topAddr (i - 1) else 0 }

theorem Partitioned.searchable {t₀ : PoolTable P} (h : t₀.Partitioned t₀.npools t i)
    (hs : t₀.Sorted) : (t.truncate i).Searchable ∧
      (t.truncate i).opSlice = t₀.opSlice.filter (fun q => !(t₀.deref q).isFree) := by
  have ho : (t.truncate i).opSlice = t₀.opSlice.filter (fun q => !(t₀.deref q).isFree) := h.used
  have hi := h.le
  refine ⟨⟨⟨fun q hq => ?_, ?_⟩, h.index, fun hn => ?_, fun hn => ?_, fun hn => ?_⟩, ho⟩
  case refine_1 =>
    rw [ho] at hq
    show (t.deref q).baseAddr < (t.deref q).topAddr
    rw [h.same.baseAddr, h.same.topAddr]
    exact hs.nonempty q (List.mem_filter.mp hq).left
  case refine_2 =>
    rw [ho]
    show List.Pairwise t.Before _
    rw [h.same.before]
    exact hs.ordered.filter _
  case refine_3 => exact if_pos hn
  case refine_4 => exact if_pos hn
  case refine_5 =>
    replace hn : i = 0 := hn
    subst hn
    exact ⟨rfl, rfl⟩

theorem init_searchable {pools : Nat → P} {deref : P → Pool} : (init pools deref).Searchable where
  nonempty q hq := by cases hq
  ordered       := .nil
  index i hi    := absurd hi (Nat.not_lt_zero i)
  min hn        := absurd rfl hn
  max hn        := absurd rfl hn
  empty _       := ⟨rfl, rfl⟩

theorem write_searchable (h : t.Searchable) {deref : P → Pool}
    (hw : ∀ q ∈ t.opSlice, (deref q).baseAddr = (t.deref q).baseAddr ∧
      (deref q).topAddr = (t.deref q).topAddr ∧ (deref q).ptIndex = (t.deref q).ptIndex) :
    { t with deref := deref }.Searchable := by
  have hmem {i : Nat} (hi : i < t.npools) := hw (t.pools i) ((mem_opSlice).mpr ⟨i, hi, rfl⟩)
  refine ⟨⟨fun q hq => ?_, ?_⟩, fun i hi => ?_, fun hn => ?_, fun hn => ?_, h.empty⟩
  case refine_1 =>
    have ⟨hb, ht, _⟩ := hw q hq
    show (deref q).baseAddr < (deref q).topAddr
    rw [hb, ht]
    exact h.nonempty q hq
  case refine_2 =>
    refine h.ordered.imp_of_mem fun hq hr ho => ?_
    show (deref _).topAddr ≤ (deref _).baseAddr
    rw [(hw _ hq).right.left, (hw _ hr).left]
    exact ho
  case refine_3 => exact (hmem hi).right.right.trans (h.index i hi)
  case refine_4 => exact (h.min hn).trans (hmem (Nat.pos_of_ne_zero hn)).left.symm
  case refine_5 => exact (h.max hn).trans (hmem (Nat.pred_lt hn)).right.left.symm

variable [DecidableEq P]

theorem setPtIndex_deref : (t.setPtIndex i).deref =
    Function.update t.deref (t.pools i) { t.deref (t.pools i) with ptIndex := i } :=
  rfl

theorem setPtIndex_samePools : t.SamePools (t.setPtIndex i) := by
  refine ⟨rfl, fun q => ?_, fun q => ?_, fun q => ?_⟩
  all_goals
    rw [setPtIndex_deref]
    by_cases hq : q = t.pools i
    · simp [hq, Pool.isFree]
    · rw [Function.update_of_ne hq]

theorem setPtIndex_ptIndex : ((t.setPtIndex i).deref (t.pools i)).ptIndex = i := by
  rw [setPtIndex_deref, Function.update_self]

theorem setPtIndex_ptIndex_ne (h : q ≠ t.pools i) :
    ((t.setPtIndex i).deref q).ptIndex = (t.deref q).ptIndex := by
  rw [setPtIndex_deref, Function.update_of_ne h]

-- A loop that numbers the pools from `i` on.
theorem renumber_spec (hinj : ∀ j < i + n, ∀ k < i + n, t.pools j = t.pools k → j = k)
    (hx : ∀ j < i, (t.deref (t.pools j)).ptIndex = j) :
    let t' := (List.range' i n).foldl setPtIndex t
    t.SamePools t' ∧ t'.pools = t.pools ∧ ∀ j < i + n, (t'.deref (t.pools j)).ptIndex = j := by
  induction n generalizing i t
  case zero => exact ⟨.refl t, rfl, hx⟩
  case succ n hi =>
    rw [List.range'_succ, List.foldl_cons]
    have ⟨hs, hp, hxs⟩ := hi (i := i + 1) (t := t.setPtIndex i)
      (fun j hj k hk => hinj j (by omega) k (by omega)) fun j hj => by
        obtain rfl | hlt := Nat.eq_or_lt_of_le (Nat.le_of_lt_succ hj)
        · exact setPtIndex_ptIndex
        · refine (setPtIndex_ptIndex_ne fun he => ?_).trans (hx j hlt)
          have := hinj j (by omega) i (by omega) he
          omega
    exact ⟨(setPtIndex_samePools).trans hs, hp, fun j hj => hxs j (by omega)⟩

theorem insert_true : t.insert pool true =
    let i := t.insertIndex pool
    let t' := (List.range' i (t.npools + 1 - i)).foldl setPtIndex (t.inserted pool)
    (true, { t' with minAddr := t'.baseAddr 0, maxAddr := t'.topAddr (t'.npools - 1) }) := by
  rw [insert, if_pos rfl, inserted_eq]
  rfl

-- The table after a pool was sorted into it.
theorem insert_spec (h : t.Searchable) (hne : (t.deref pool).baseAddr < (t.deref pool).topAddr)
    (hd : ∀ q ∈ t.opSlice, t.Disjoint q pool) :
    let t' := (t.insert pool true).2
    t'.Searchable ∧ t'.opSlice = (t.inserted pool).opSlice ∧ (t.inserted pool).SamePools t' := by
  have hk := t.insertIndex_le pool
  have hs := h.inserted hne hd
  have hx : ∀ j < t.insertIndex pool,
      ((t.inserted pool).deref ((t.inserted pool).pools j)).ptIndex = j := by
    intro j hj
    rw [inserted_pools, Function.update_of_ne (by omega), memmove, if_neg (by omega)]
    exact h.index j (by omega)
  have hn : t.insertIndex pool + (t.npools + 1 - t.insertIndex pool) = (t.inserted pool).npools :=
    Nat.add_sub_cancel' (by omega)
  have ⟨hsame, hp, hi⟩ := renumber_spec (t := t.inserted pool) (n := t.npools + 1 - t.insertIndex pool)
    (fun j hj k hk he => hs.injOn (by omega) (by omega) he) hx
  have hsorted := hsame.sorted hp hs
  rw [insert_true]
  refine ⟨⟨⟨hsorted.nonempty, hsorted.ordered⟩, fun i hi' => ?_, fun _ => rfl, fun _ => rfl, ?_⟩, ?_, ?_⟩
  case refine_1 =>
    rw [hp]
    exact hi i (by rw [hn, ← hsame.npools]; exact hi')
  case refine_2 =>
    intro h0
    rw [hsame.npools] at h0
    cases h0
  case refine_3 => rw [opSlice, opSlice, hp, hsame.npools]
  case refine_4 => exact ⟨hsame.npools, hsame.baseAddr, hsame.topAddr, hsame.isFree⟩

namespace Partitioned

variable {t₀ : PoolTable P}

theorem keep (h : t₀.Partitioned j t i) (hs : t₀.Sorted) (hj : j < t₀.npools)
    (hf : t.isFree j = false) : t₀.Partitioned (j + 1) ((t.swap i j).setPtIndex i) (i + 1) := by
  rw [h.isFree] at hf
  have hswap : t.SamePools (t.swap i j) := ⟨rfl, fun _ => rfl, fun _ => rfl, fun _ => rfl⟩
  refine ⟨h.same.trans (hswap.trans setPtIndex_samePools), Nat.succ_le_succ h.le, ?_, ?_, fun k hk => ?_, fun k hk => ?_⟩
  case refine_1 =>
    have hm : (List.range i).map (t.swap i j).pools = (List.range i).map t.pools :=
      List.map_congr_left fun k hk => by
        have := List.mem_range.mp hk
        have := h.le
        exact swap_pools_of_ne (by omega) (by omega)
    rw [List.range_succ, List.map_append, List.range_succ, List.map_append, List.filter_append]
    rw [List.map_singleton, List.map_singleton, List.filter_singleton, hf, ← h.used]
    show (List.range i).map (t.swap i j).pools ++ [(t.swap i j).pools i] = _
    rw [hm, swap_pools_left, h.rest j (Nat.le_refl j)]
    rfl
  case refine_2 =>
    rw [Nat.succ_sub_succ, List.range_succ, List.map_append, List.filter_append, List.map_singleton,
      List.filter_singleton, hf]
    rw [cond_false, List.append_nil]
    exact (swap_freed h.le).trans h.freed
  case refine_3 =>
    have := h.le
    show (t.swap i j).pools k = _
    rw [swap_pools_of_ne (by omega) (by omega)]
    exact h.rest k (by omega)
  case refine_4 =>
    show (((t.swap i j).setPtIndex i).deref ((t.swap i j).pools k)).ptIndex = k
    obtain rfl | hlt := Nat.eq_or_lt_of_le (Nat.le_of_lt_succ hk)
    · exact setPtIndex_ptIndex
    · -- the pool at `k` is not the one that moves to `i`
      have := h.le
      rw [setPtIndex_ptIndex_ne, swap_pools_of_ne (by omega) (by omega)]
      · exact h.index k hlt
      · rw [swap_pools_of_ne (by omega) (by omega), swap_pools_left, h.rest j (Nat.le_refl j)]
        intro he
        have hm : t.pools k ∈ (List.range i).map t.pools :=
          List.mem_map_of_mem (List.mem_range.mpr hlt)
        rw [h.used, he, List.mem_filter, List.mem_map] at hm
        obtain ⟨k', hk', he'⟩ := hm.left
        have hk' := List.mem_range.mp hk'
        have := hs.injOn (by omega) hj he'
        omega

theorem loop (h : t₀.Partitioned j t i) (hs : t₀.Sorted) (hj : j + n = t₀.npools) :
    t₀.Partitioned t₀.npools ((List.range' j n).foldl PoolTable.keep (t, i)).1
      ((List.range' j n).foldl PoolTable.keep (t, i)).2 := by
  induction n generalizing i j t
  case zero => exact hj ▸ h
  case succ n hi =>
    rw [List.range'_succ, List.foldl_cons]
    cases hf : t.isFree j
    case true =>
      have hk : PoolTable.keep (t, i) j = (t, i) := by simp [PoolTable.keep, hf]
      rw [hk]
      exact hi (h.skip hf) (by omega)
    case false =>
      have hk : PoolTable.keep (t, i) j = ((t.swap i j).setPtIndex i, i + 1) := by
        simp [PoolTable.keep, hf]
      rw [hk]
      exact hi (h.keep hs (by omega) hf) (by omega)

end Partitioned

-- The loop does nothing at the pool that it starts behind.
theorem keep_findIdx :
    let i := (List.range t.npools).findIdx t.isFree
    (List.range' (i + 1) (t.npools - (i + 1))).foldl keep (t, i) =
      (List.range' i (t.npools - i)).foldl keep (t, i) := by
  intro i
  have hle : i ≤ (List.range t.npools).length := List.findIdx_le_length
  rw [List.length_range] at hle
  obtain he | hlt := Nat.eq_or_lt_of_le hle
  case inl =>
    rw [he, Nat.sub_self, Nat.sub_eq_zero_of_le (Nat.le_succ _)]
    rfl
  case inr =>
    have hf : t.isFree i = true := by
      have hg := List.findIdx_getElem (p := t.isFree) (w := by rw [List.length_range]; exact hlt)
      rwa [List.getElem_range] at hg
    have hn : t.npools - i = (t.npools - (i + 1)) + 1 := by omega
    have hk : keep (t, i) i = (t, i) := by simp [keep, hf]
    rw [hn, List.range'_succ, List.foldl_cons, hk]

theorem minimize_eq {i : Nat} {ti : PoolTable P × Nat}
    (hi : i = (List.range t.npools).findIdx t.isFree)
    (h : (List.range' i (t.npools - i)).foldl keep (t, i) = ti) :
    t.minimize = ((List.range' ti.2 (ti.1.npools - ti.2)).map ti.1.pools, ti.1.truncate ti.2) := by
  subst hi
  rw [minimize, keep_findIdx, h]
  by_cases h0 : ti.2 = 0
  case pos => simp [truncate, h0]
  case neg => simp [truncate, h0]

-- The table and the pools that were dropped from it.
theorem minimize_spec (h : t.Searchable) :
    t.minimize.2.Searchable ∧
    t.minimize.2.opSlice = t.opSlice.filter (fun q => !(t.deref q).isFree) ∧
    t.minimize.1.Perm (t.opSlice.filter fun q => (t.deref q).isFree) := by
  have hle : (List.range t.npools).findIdx t.isFree ≤ (List.range t.npools).length :=
    List.findIdx_le_length
  rw [List.length_range] at hle
  have hp := h.partitioned.loop h.toSorted (Nat.add_sub_cancel' hle)
  have ⟨hs, ho⟩ := hp.searchable h.toSorted
  rw [minimize_eq rfl rfl]
  refine ⟨hs, ho, ?_⟩
  show (List.map _ (List.range' _ (_ - _))).Perm _
  rw [hp.same.npools]
  exact hp.freed

-- A step of the collector: a pool is sorted into the table or there is no memory for it, the free
-- pools are dropped, or the pools change in what the table does not look at between these, which
-- includes all that there is about pools that are not in the table.
inductive Step (t : PoolTable P) : PoolTable P → Prop
  | insert {pool : P} (hne : (t.deref pool).baseAddr < (t.deref pool).topAddr)
      (hd : ∀ q ∈ t.opSlice, t.Disjoint q pool) : Step t (t.insert pool true).2
  | insertFailed {pool : P} : Step t (t.insert pool false).2
  | minimize : Step t t.minimize.2
  | write {deref : P → Pool} (h : ∀ q ∈ t.opSlice, (deref q).baseAddr = (t.deref q).baseAddr ∧
      (deref q).topAddr = (t.deref q).topAddr ∧ (deref q).ptIndex = (t.deref q).ptIndex) :
      Step t { t with deref := deref }

inductive Reachable : PoolTable P → Prop
  | init {pools : Nat → P} {deref : P → Pool} : Reachable (.init pools deref)
  | step {t t' : PoolTable P} (h : Reachable t) (hs : t.Step t') : Reachable t'

theorem Step.searchable (hs : t.Step t') (h : t.Searchable) : t'.Searchable := by
  cases hs with
  | insert hne hd => exact (insert_spec h hne hd).left
  | insertFailed  => exact h
  | minimize      => exact (minimize_spec h).left
  | write hw      => exact write_searchable h hw

theorem Reachable.searchable (h : t.Reachable) : t.Searchable := by
  induction h with
  | init         => exact init_searchable
  | step _ hs hi => exact hs.searchable hi

-- The table holds its invariant and answers for every address, an insertion adds the pool, and the
-- pools that are dropped are the free ones, while the others keep their order.
theorem stays_searchable (h : t.Reachable) :
    t.Invariant ∧
    (∀ p, ∃ r, t.findPool p = .ok r ∧ t.IsPoolOf p r) ∧
    (∀ pool, (t.deref pool).baseAddr < (t.deref pool).topAddr → (∀ q ∈ t.opSlice, t.Disjoint q pool) →
      (t.insert pool true).2.opSlice.Perm (pool :: t.opSlice)) ∧
    t.minimize.2.opSlice = t.opSlice.filter (fun q => !(t.deref q).isFree) ∧
    t.minimize.1.Perm (t.opSlice.filter fun q => (t.deref q).isFree) := by
  have hs := h.searchable
  have ⟨_, hk, hf⟩ := minimize_spec hs
  refine ⟨hs.invariant, hs.findPool, fun pool hne hd => ?_, hk, hf⟩
  have ⟨_, ho, _⟩ := insert_spec hs hne hd
  rw [ho, inserted_opSlice]
  refine List.perm_middle.trans (.cons _ ?_)
  rw [List.take_append_drop]

section twoPools

-- Pools of a page each, at the addresses 4096 and 8192, of which the second one is free.
def pages (n : Nat) : Pool where
  baseAddr  := 4096 * n
  topAddr   := 4096 * (n + 1)
  freepages := n - 1
  npages    := 1
  ptIndex   := 0

def twoPools : PoolTable Nat :=
  ((init id pages).insert 2 true).2.insert 1 true |>.2

theorem twoPools_reachable : twoPools.Reachable := by
  have h : ((init id pages).insert 2 true).2.Reachable := by
    refine .step .init (.insert (by decide) fun q hq => ?_)
    cases hq
  refine .step h (.insert (by decide) fun q hq => .inr ?_)
  rw [List.mem_singleton.mp (show q ∈ [2] from hq)]
  show (pages 1).topAddr ≤ (pages 2).baseAddr
  decide

theorem twoPools_searchable :
    twoPools.Invariant ∧ (∃ r, twoPools.findPool 8200 = .ok r ∧ twoPools.IsPoolOf 8200 r) ∧
    twoPools.minimize.1.Perm [2] := by
  have ⟨hi, hp, _, _, hf⟩ := stays_searchable twoPools_reachable
  exact ⟨hi, hp 8200, hf⟩

end twoPools

end PoolTable
end Runtime.GC
