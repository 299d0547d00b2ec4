import DmdModel.Compiler.Root.Theorems.FindSlot
import DmdModel.Lib.AssocMap
import DmdModel.Lib.Lists

namespace Compiler.Root
namespace StringTable

open OpenAddressing Visit

variable {T : Type} {t : StringTable T} {size i : Nat} {str : List UInt8} {se : StringEntry}
variable {calcHash : List UInt8 → UInt32}

variable [StringValue.Layout T]

-- The invariant of a table. `pending` is the number of strings that were counted but not entered yet.
structure Wf (calcHash : List UInt8 → UInt32) (pending : Nat) (t : StringTable T) : Prop where
  size       : ∃ k, t.size = 2 ^ k
  size_ge    : 32 ≤ t.size
  memory     : t.size * 8 < 2 ^ 64
  trigger    : t.countTrigger = triggerOf t.size
  count      : t.count = (contents isFree t.table t.size).length + pending
  count_le   : t.count ≤ t.countTrigger
  searchable : Searchable calcHash t t.table t.size
  pools      : t.Pools (contents isFree t.table t.size)

theorem triggerOf_eq (h : size * 8 < 2 ^ 64) : triggerOf size = size * 8 / 10 := by
  rw [triggerOf, loadFactorNumerator, Nat.mod_eq_of_lt h, loadFactorDenominator]

namespace Wf

variable {pending : Nat}

theorem room (w : t.Wf calcHash pending) : ∃ i < t.size, isFree (t.table i) = true := by
  refine exists_free ?_
  have hc := w.count
  have hl := w.count_le
  have hs := w.size_ge
  rw [w.trigger, triggerOf_eq w.memory] at hl
  omega

theorem findSlot (w : t.Wf calcHash pending) (str : List UInt8) :
    ∃ i < t.size, t.findSlot (calcHash str) str = .ok i ∧
      Found t t.table t.size (calcHash str).toNat str i := by
  have ⟨k, hk⟩ := w.size
  exact w.searchable.findSlotIn hk w.room str

-- At most 2 ^ 28 entries fit into 2 ^ 20 pools.
theorem count_bound (w : t.Wf calcHash 0) (hp : t.npools < 2 ^ 20) : t.count ≤ 2 ^ 28 := by
  have hb := w.pools.bound
  have hc := w.count
  have hmin := Nat.min_le_right t.nfill POOL_SIZE
  have hs : POOL_SIZE = 4096 := rfl
  rw [hs] at hb hmin
  omega

end Wf

-- There is a slot for one more string.
structure HasSlot (calcHash : List UInt8 → UInt32) (t : StringTable T) (str : List UInt8) (i : Nat) :
    Prop extends t.Wf calcHash 1 where
  lt     : i < t.size
  free   : isFree (t.table i) = true
  comes  : Comes isFree t.table t.size (calcHash str).toNat i
  absent : ∀ se ∈ contents isFree t.table t.size, (t.valueOf se).chars ≠ str

-- The entry that a string gets.
def newEntry (calcHash : List UInt8 → UInt32) (t : StringTable T) (str : List UInt8) (value : T) :
    StringEntry :=
  ⟨calcHash str, (t.allocValue str value).1⟩

-- The table after the string was entered at a slot.
def entered (calcHash : List UInt8 → UInt32) (t : StringTable T) (str : List UInt8) (value : T)
    (i : Nat) : StringTable T :=
  { (t.allocValue str value).2 with
    table := Function.update (t.allocValue str value).2.table i (t.newEntry calcHash str value) }

theorem HasSlot.entered {value : T} (h : t.HasSlot calcHash str i)
    (hp : (t.entered calcHash str value i).npools < 2 ^ 20) :
    let t' := t.entered calcHash str value i
    let se := t.newEntry calcHash str value
    t'.Wf calcHash 0 ∧ isFree se = false ∧ t'.valueOf se = ⟨value, str⟩ ∧
    (contents isFree t'.table t'.size).Perm (se :: contents isFree t.table t.size) ∧
    ∀ se ∈ contents isFree t.table t.size, t'.valueOf se = t.valueOf se := by
  have ⟨htable, hsize, hcount, htrigger⟩ := allocValue_fields t str value
  replace hp : (t.allocValue str value).2.npools < 2 ^ 20 := hp
  have ⟨hv, hnew, hold, hpools⟩ := allocValue_spec h.pools hp
  rw [StringTable.entered, newEntry]
  generalize t.allocValue str value = r at *
  obtain ⟨vptr, t₁⟩ := r
  dsimp only at htable hsize hcount htrigger hv hnew hold hpools ⊢
  have hu : isFree ⟨calcHash str, vptr⟩ = false := isFree_eq_false_iff.mpr hv
  have hval : t₁.valueOf ⟨calcHash str, vptr⟩ = ⟨value, str⟩ := hnew
  rw [htable, hsize, hcount, htrigger]
  have hperm := contents_update h.lt h.free hu
  have hs : Searchable calcHash t₁ (Function.update t.table i ⟨calcHash str, vptr⟩) t.size := by
    refine (h.searchable.congr hold).update h.lt h.free h.comes hu ?_ fun se hse => ?_
    · rw [hval]
    · rw [hold se hse, hval]
      exact h.absent se hse
  have hpools := (hpools (calcHash str)).perm hperm
  refine ⟨⟨h.size, h.size_ge, h.memory, h.trigger, ?_, h.count_le, ?_, ?_⟩, hu, hval, hperm, hold⟩
  case refine_1 =>
    rw [h.count, hperm.length_eq, List.length_cons]
  case refine_2 => exact ⟨hs.reached, hs.hashed, hs.distinct⟩
  case refine_3 =>
    exact ⟨hpools.poolSize, hpools.fits, hpools.filled, hpools.apart, hpools.aligned, hpools.bound⟩

-- The last string that was counted needs a larger table, or there is a slot for it already.
theorem Wf.grown (w : t.Wf calcHash 0) (hp : t.npools < 2 ^ 20) (hc : t.count + 1 > t.countTrigger)
    (ha : ∀ se ∈ contents isFree t.table t.size, (t.valueOf se).chars ≠ str) :
    ∃ t' i, { t with count := t.count + 1 }.grow = .ok t' ∧
      t'.findSlot (calcHash str) str = .ok i ∧ t'.HasSlot calcHash str i ∧
      t'.pools = t.pools ∧ t'.npools = t.npools ∧
      (contents isFree t'.table t'.size).Perm (contents isFree t.table t.size) := by
  have ⟨k, hk⟩ := w.size
  have hb := w.count_bound hp
  have htr := w.trigger
  rw [triggerOf_eq w.memory] at htr
  have hge := w.size_ge
  have hm : t.size * 2 * 8 < 2 ^ 64 := by omega
  have hcount := w.count
  have hs := w.searchable
  have hq := w.pools
  have ⟨table, hg, hs', hperm⟩ := grow_spec (t := { t with count := t.count + 1 })
    hk hm (show Searchable calcHash _ t.table t.size from ⟨hs.reached, hs.hashed, hs.distinct⟩)
  have hq := hq.perm hperm
  have w' : Wf calcHash 1 { t with
      count        := t.count + 1
      table        := table
      size         := t.size * 2
      countTrigger := triggerOf (t.size * 2) } := by
    refine ⟨⟨k + 1, ?_⟩, ?_, hm, rfl, ?_, ?_, ⟨hs'.reached, hs'.hashed, hs'.distinct⟩,
      ⟨hq.poolSize, hq.fits, hq.filled, hq.apart, hq.aligned, hq.bound⟩⟩
    · show t.size * 2 = _
      rw [hk, pow_succ]
    · show 32 ≤ t.size * 2
      omega
    · show t.count + 1 = (contents isFree table (t.size * 2)).length + 1
      rw [hperm.length_eq, hcount]
    · show t.count + 1 ≤ triggerOf (t.size * 2)
      have hl := w.count_le
      rw [triggerOf_eq hm]
      omega
  have ⟨i, hi, hf, hfound⟩ := w'.findSlot str
  have habsent : ∀ se ∈ contents isFree table (t.size * 2), (t.valueOf se).chars ≠ str :=
    fun se hse => ha se (hperm.mem_iff.mp hse)
  cases hfound with
  | entry hu he => exact absurd he (habsent _ (mem_contents.mpr ⟨i, hi, rfl, hu⟩))
  | free hfree hcomes _ =>
    exact ⟨_, i, hg, hf, ⟨w', hi, hfree, hcomes, habsent⟩, rfl, rfl, hperm⟩

def entries (t : StringTable T) : List StringEntry :=
  contents isFree t.table t.size

-- The entries that are there stay, with their pointers and values.
def Keeps (t t' : StringTable T) : Prop :=
  ∀ se ∈ t.entries, se ∈ t'.entries ∧ t'.valueOf se = t.valueOf se

-- A string and its value got an entry.
structure Enters (calcHash : List UInt8 → UInt32) (t : StringTable T) (str : List UInt8) (value : T)
    (r : Option Pointer) (t' : StringTable T) : Prop where
  wf    : t'.Wf calcHash 0
  keeps : t.Keeps t'
  entry : ∃ se, r = some (pointer se.vptr) ∧ t'.valueOf se = ⟨value, str⟩ ∧
    t'.entries.Perm (se :: t.entries)

-- `t₁` is the table with its slots in another order.
theorem HasSlot.enters {t₁ : StringTable T} {value : T} (h : t₁.HasSlot calcHash str i)
    (hpools : t₁.pools = t.pools) (hperm : t₁.entries.Perm t.entries)
    (hp : (t₁.entered calcHash str value i).npools < 2 ^ 20) :
    Enters calcHash t str value (getValue (t₁.newEntry calcHash str value).vptr)
      (t₁.entered calcHash str value i) := by
  have ⟨w, hu, hv, hc, hold⟩ := h.entered hp
  refine ⟨w, fun se hse => ?_, t₁.newEntry calcHash str value, ?_, hv, hc.trans (hperm.cons _)⟩
  · have hse₁ := hperm.mem_iff.mpr hse
    refine ⟨hc.mem_iff.mpr (List.mem_cons_of_mem _ hse₁), (hold se hse₁).trans ?_⟩
    rw [valueOf, deref, hpools]
    rfl
  · exact getValue_of_ne (isFree_eq_false_iff.mp hu)

theorem Wf.enter (w : t.Wf calcHash 0) (hp : t.npools < 2 ^ 20) (hi : i < t.size)
    (hf : Found t t.table t.size (calcHash str).toNat str i) (hfree : (t.table i).vptr = 0)
    (value : T) : ∃ r t', t.enter calcHash str value i = .ok (r, t') ∧
      (t'.npools < 2 ^ 20 → Enters calcHash t str value r t') := by
  cases hf with
  | entry hu => exact absurd hfree (isFree_eq_false_iff.mp hu)
  | free hfree hcomes habsent =>
    by_cases hc : t.count + 1 > t.countTrigger
    case pos =>
      have ⟨t₁, j, hg, hfs, hslot, hpools, _, hperm⟩ := w.grown hp hc habsent
      refine ⟨_, t₁.entered calcHash str value j, ?_, hslot.enters hpools hperm⟩
      rw [StringTable.enter]
      dsimp only
      rw [if_pos hc, hg]
      show (t₁.findSlot (calcHash str) str >>= fun i => _) = _
      rw [hfs]
      rfl
    case neg =>
      have hs := w.searchable
      have hq := w.pools
      have hslot : HasSlot calcHash { t with count := t.count + 1 } str i := by
        refine ⟨⟨w.size, w.size_ge, w.memory, w.trigger, ?_, Nat.not_lt.mp hc,
          ⟨hs.reached, hs.hashed, hs.distinct⟩,
          ⟨hq.poolSize, hq.fits, hq.filled, hq.apart, hq.aligned, hq.bound⟩⟩, hi, hfree, hcomes,
          habsent⟩
        exact congrArg (· + 1) w.count
      refine ⟨_, _, ?_, hslot.enters rfl (.refl _)⟩
      rw [StringTable.enter]
      dsimp only
      rw [if_neg hc]
      rfl

-- What a search for a string finds.
theorem Wf.findSlot_cases (w : t.Wf calcHash 0) (str : List UInt8) :
    ∃ i < t.size, t.findSlot (calcHash str) str = .ok i ∧
      Found t t.table t.size (calcHash str).toNat str i ∧
      ((t.table i ∈ t.entries ∧ (t.valueOf (t.table i)).chars = str ∧ (t.table i).vptr ≠ 0) ∨
        (t.table i).vptr = 0 ∧ ∀ se ∈ t.entries, (t.valueOf se).chars ≠ str) := by
  have ⟨i, hi, he, hf⟩ := w.findSlot str
  refine ⟨i, hi, he, hf, ?_⟩
  cases hf with
  | entry hu hs =>
    exact .inl ⟨mem_contents.mpr ⟨i, hi, rfl, hu⟩, hs, isFree_eq_false_iff.mp hu⟩
  | free hfree _ habsent => exact .inr ⟨of_decide_eq_true hfree, habsent⟩

def pair (t : StringTable T) (se : StringEntry) : List UInt8 × T :=
  ((t.valueOf se).chars, (t.valueOf se).value)

-- The entries are those of a map.
structure Represents (calcHash : List UInt8 → UInt32) (t : StringTable T)
    (m : AssocMap (List UInt8) T) : Prop where
  wf   : t.Wf calcHash 0
  perm : (t.entries.map t.pair).Perm m.toList

namespace Represents

variable {m : AssocMap (List UInt8) T} {r : Option Pointer} {t' : StringTable T}

theorem get?_of_mem (h : t.Represents calcHash m) (hse : se ∈ t.entries)
    (hs : (t.valueOf se).chars = str) : m.get? str = some (t.valueOf se).value :=
  AssocMap.get?_eq_some_iff.mpr
    ⟨t.pair se, h.perm.mem_iff.mp (List.mem_map_of_mem hse), by simp [pair, hs], rfl⟩

theorem get?_of_absent (h : t.Represents calcHash m)
    (ha : ∀ se ∈ t.entries, (t.valueOf se).chars ≠ str) : m.get? str = none := by
  refine AssocMap.get?_eq_none_iff.mpr fun p hp => ?_
  obtain ⟨se, hse, rfl⟩ := List.mem_map.mp (h.perm.mem_iff.mpr hp)
  simpa [pair] using (ha se hse).symm

theorem enters {value : T} (h : t.Represents calcHash m) (he : Enters calcHash t str value r t')
    (hn : m.get? str = none) : t'.Represents calcHash (m.insertIfNew str value) := by
  obtain ⟨se, _, hv, hp⟩ := he.entry
  refine ⟨he.wf, (hp.map _).trans ?_⟩
  have hold : t.entries.map t'.pair = t.entries.map t.pair :=
    List.map_congr_left fun se hse => by rw [pair, (he.keeps se hse).right, pair]
  rw [AssocMap.insertIfNew_of_none hn, List.map_cons, hold, pair, hv]
  exact h.perm.cons _

theorem lookup (h : t.Represents calcHash m) (str : List UInt8) :
    (∃ se ∈ t.entries, t.lookup calcHash str = .ok (some (pointer se.vptr)) ∧
      t.valueOf se = ⟨(t.valueOf se).value, str⟩ ∧ m.get? str = some (t.valueOf se).value) ∨
    t.lookup calcHash str = .ok none ∧ m.get? str = none := by
  have ⟨i, _, he, _, hc⟩ := h.wf.findSlot_cases str
  have hl : t.lookup calcHash str = .ok (getValue (t.table i).vptr) := by
    rw [StringTable.lookup, he]
    rfl
  obtain ⟨hse, hs, h0⟩ | ⟨h0, ha⟩ := hc
  · left
    refine ⟨_, hse, by rw [hl, getValue_of_ne h0], ?_, h.get?_of_mem hse hs⟩
    rw [← hs]
  · right
    refine ⟨by rw [hl, h0]; rfl, h.get?_of_absent ha⟩

theorem lookup_deref (h : t.Represents calcHash m) (str : List UInt8) :
    ∃ r, t.lookup calcHash str = .ok r ∧ r.map t.deref = (m.get? str).map fun v => ⟨v, str⟩ := by
  obtain ⟨se, _, hl, hv, hg⟩ | ⟨hl, hg⟩ := h.lookup str
  · refine ⟨_, hl, ?_⟩
    rw [hg]
    exact congrArg some hv
  · exact ⟨none, hl, by rw [hg]; rfl⟩

theorem insert (h : t.Represents calcHash m) (hp : t.npools < 2 ^ 20) (str : List UInt8) (value : T) :
    ∃ r t', t.insert calcHash str value = .ok (r, t') ∧
      (((m.get? str).isSome ∧ r = none ∧ t' = t) ∨
        m.get? str = none ∧ (t'.npools < 2 ^ 20 → Enters calcHash t str value r t')) := by
  have ⟨i, hi, he, hf, hc⟩ := h.wf.findSlot_cases str
  obtain ⟨hse, hs, h0⟩ | ⟨h0, ha⟩ := hc
  · refine ⟨none, t, ?_, .inl ⟨?_, rfl, rfl⟩⟩
    · rw [StringTable.insert, he]
      exact if_pos h0
    · rw [h.get?_of_mem hse hs]
      rfl
  · have ⟨r, t', hr, hen⟩ := h.wf.enter hp hi hf h0 value
    refine ⟨r, t', ?_, .inr ⟨h.get?_of_absent ha, hen⟩⟩
    rw [StringTable.insert, he, ← hr]
    exact if_neg (not_not.mpr h0)

theorem update [Inhabited T] (h : t.Represents calcHash m) (hp : t.npools < 2 ^ 20)
    (str : List UInt8) :
    ∃ r t', t.update calcHash str = .ok (r, t') ∧
      (((m.get? str).isSome ∧ t.lookup calcHash str = .ok r ∧ t' = t) ∨
        m.get? str = none ∧ (t'.npools < 2 ^ 20 → Enters calcHash t str default r t')) := by
  have ⟨i, hi, he, hf, hc⟩ := h.wf.findSlot_cases str
  obtain ⟨hse, hs, h0⟩ | ⟨h0, ha⟩ := hc
  · refine ⟨getValue (t.table i).vptr, t, ?_, .inl ⟨?_, ?_, rfl⟩⟩
    · rw [StringTable.update, he]
      exact if_neg h0
    · rw [h.get?_of_mem hse hs]
      rfl
    · rw [StringTable.lookup, he]
      rfl
  · have ⟨r, t', hr, hen⟩ := h.wf.enter hp hi hf h0 default
    refine ⟨r, t', ?_, .inr ⟨h.get?_of_absent ha, hen⟩⟩
    rw [StringTable.update, he, ← hr]
    exact if_pos h0

end Represents

theorem nextpow2_loop {val fuel j : Nat} (hv : val ≤ 2 ^ 63) (hf : j + fuel = 65)
    (hj : j = 0 ∨ 2 ^ j < 2 * val) :
    ∃ k, nextpow2.loop val fuel (2 ^ j) = .ok (2 ^ k) ∧ (k = 0 ∨ 2 ^ k < 2 * val) := by
  induction fuel generalizing j with
  | zero =>
    have hp : 2 ^ 65 ≤ 2 ^ j := Nat.pow_le_pow_right Nat.two_pos (by omega)
    omega
  | succ fuel hi =>
    rw [nextpow2.loop]
    by_cases hlt : 2 ^ j < val
    case neg => exact ⟨j, if_neg hlt, hj⟩
    case pos =>
      have hs : (2 ^ j <<< 1) % 2 ^ 64 = 2 ^ (j + 1) := by
        rw [Nat.shiftLeft_eq, Nat.pow_one, ← pow_succ, Nat.mod_eq_of_lt]
        rw [pow_succ]
        omega
      rw [if_pos hlt, hs]
      refine hi (by omega) (.inr ?_)
      rw [pow_succ]
      omega

-- An empty table. There is no memory for a large one.
theorem init_cases [Inhabited T] (calcHash : List UInt8 → UInt32) (pools : Nat → Nat → StringValue T)
    (n : Nat) :
    (∃ t, init pools n = .ok t ∧ t.Represents calcHash ∅ ∧ t.npools = 0) ∨
    init pools n = .error .outOfMemory ∧ 2 ^ 60 < n * 10 % 2 ^ 64 / 8 := by
  have hv : n * 10 % 2 ^ 64 / 8 ≤ 2 ^ 63 := by omega
  obtain ⟨k, hk, hkv⟩ := nextpow2_loop hv (show 0 + 65 = 65 from rfl) (.inl rfl)
  have hsize : ∃ j, (if 2 ^ k < 32 then 32 else 2 ^ k) = 2 ^ j ∧ 32 ≤ 2 ^ j ∧
      (2 ^ j = 32 ∨ 2 ^ j < 2 * (n * 10 % 2 ^ 64 / 8)) := by
    split
    case isTrue    => exact ⟨5, rfl, Nat.le_refl _, .inl rfl⟩
    case isFalse h =>
      refine ⟨k, rfl, Nat.not_lt.mp h, .inr (hkv.resolve_left ?_)⟩
      rintro rfl
      exact h (by decide)
  obtain ⟨j, hj, hge, hlt⟩ := hsize
  have hinit : init pools n = xcalloc (2 ^ j) >>= fun table => pure ⟨table, 2 ^ j, pools, fun _ => 0,
      0, 0, 0, triggerOf (2 ^ j)⟩ := by
    rw [init]
    show (nextpow2.loop (n * 10 % 2 ^ 64 / 8) 65 (2 ^ 0) >>= fun size => _) = _
    rw [hk, ← hj]
    rfl
  by_cases hm : 2 ^ j * 8 < 2 ^ 64
  case neg =>
    right
    refine ⟨?_, ?_⟩
    · rw [hinit, xcalloc, if_neg hm]
      rfl
    · omega
  case pos =>
    left
    have hpools (t : StringTable T) (hn : t.npools = 0) (hf : t.nfill = 0) : t.Pools [] := by
      refine ⟨fun i hi => ?_, fun se hse => ?_, fun se hse => ?_, .nil, ?_, Nat.zero_le _⟩
      · omega
      · cases hse
      · cases hse
      · rw [hf]
    refine ⟨_, by rw [hinit, xcalloc, if_pos hm]; rfl, ⟨⟨⟨j, rfl⟩, hge, hm, rfl, ?_, Nat.zero_le _,
      empty_searchable, ?_⟩, ?_⟩, rfl⟩
    · rw [contents_empty]
      rfl
    · rw [contents_empty]
      exact hpools _ rfl rfl
    · rw [entries, contents_empty]
      exact .nil

omit [StringValue.Layout T] in
theorem opApply_eq {σ : Type} {dg : StringValue T → σ → Int32 × σ} {s : σ} :
    t.opApply dg s = visit dg (t.entries.map t.valueOf) s := by
  rw [opApply, entries, contents, visit_map]
  induction (List.range t.size).map t.table generalizing s with
  | nil => rfl
  | cons se ses hi =>
    rw [opApply.go]
    by_cases h0 : se.vptr = 0
    case pos =>
      rw [List.filter_cons_of_neg (by simp [isFree, h0]), h0]
      exact hi
    case neg =>
      rw [List.filter_cons_of_pos (by simp [isFree, h0]), getValue_of_ne h0, visit]
      dsimp only
      by_cases hr : (dg (t.deref (pointer se.vptr)) s).1 = 0
      case pos => simp [hr, hi, valueOf]
      case neg => simp [hr, valueOf]

inductive Op (T : Type)
  | insert (str : List UInt8) (value : T)
  | update (str : List UInt8)
  | lookup (str : List UInt8)
  | reset (size : Nat)

def Op.apply [Inhabited T] (calcHash : List UInt8 → UInt32) (t : StringTable T) :
    Op T → Except Error (Option Pointer × StringTable T)
  | insert str value => t.insert calcHash str value
  | update str       => t.update calcHash str
  | lookup str       => (t.lookup calcHash str).map (·, t)
  | reset size       => (t.reset size).map (none, ·)

-- What the operations do to a map.
def Op.applyMap [Inhabited T] (m : AssocMap (List UInt8) T) : Op T → AssocMap (List UInt8) T
  | insert str value => m.insertIfNew str value
  | update str       => m.insertIfNew str default
  | lookup _         => m
  | reset _          => ∅

-- The tables that operations lead to, as long as the pools are few enough.
inductive Reaches [Inhabited T] (calcHash : List UInt8 → UInt32) : List (Op T) → StringTable T → Prop
  | init {pools : Nat → Nat → StringValue T} {size : Nat} {t : StringTable T}
    (h : init pools size = .ok t) : Reaches calcHash [] t
  | step {ops : List (Op T)} {op : Op T} {t t' : StringTable T} {r : Option Pointer}
    (h : Reaches calcHash ops t) (ho : op.apply calcHash t = .ok (r, t')) (hp : t'.npools < 2 ^ 20) :
    Reaches calcHash (ops ++ [op]) t'

section run

variable [Inhabited T] {m : AssocMap (List UInt8) T} {t' : StringTable T} {r : Option Pointer}
variable {op : Op T} {ops : List (Op T)}

theorem Represents.apply (h : t.Represents calcHash m) (hp : t.npools < 2 ^ 20)
    (ho : op.apply calcHash t = .ok (r, t')) (hp' : t'.npools < 2 ^ 20) :
    t'.Represents calcHash (op.applyMap m) ∧ ((∀ n, op ≠ .reset n) → t.Keeps t') := by
  have hkeep : t.Keeps t := fun se hse => ⟨hse, rfl⟩
  have hadd {str : List UInt8} {value : T} (hc : ((m.get? str).isSome ∧ t' = t) ∨
      m.get? str = none ∧ Enters calcHash t str value r t') :
      t'.Represents calcHash (m.insertIfNew str value) ∧ t.Keeps t' := by
    obtain ⟨hs, rfl⟩ | ⟨hn, he⟩ := hc
    · obtain ⟨v, hv⟩ := Option.isSome_iff_exists.mp hs
      rw [AssocMap.insertIfNew_of_some hv]
      exact ⟨h, hkeep⟩
    · exact ⟨h.enters he hn, he.keeps⟩
  cases op with
  | insert str value =>
    have ⟨r₁, t₁, hr, hc⟩ := h.insert hp str value
    rw [Op.apply, hr] at ho
    cases ho
    have ⟨hrep, hk⟩ := hadd <| hc.imp (fun ⟨hs, _, ht⟩ => ⟨hs, ht⟩) fun ⟨hn, he⟩ => ⟨hn, he hp'⟩
    exact ⟨hrep, fun _ => hk⟩
  | update str =>
    have ⟨r₁, t₁, hr, hc⟩ := h.update hp str
    rw [Op.apply, hr] at ho
    cases ho
    have ⟨hrep, hk⟩ := hadd <| hc.imp (fun ⟨hs, _, ht⟩ => ⟨hs, ht⟩) fun ⟨hn, he⟩ => ⟨hn, he hp'⟩
    exact ⟨hrep, fun _ => hk⟩
  | lookup str =>
    have ⟨r₁, hl, _⟩ := h.lookup_deref str
    rw [Op.apply, hl] at ho
    cases ho
    exact ⟨h, fun _ => hkeep⟩
  | reset n =>
    refine ⟨?_, fun hn => absurd rfl (hn n)⟩
    obtain ⟨t₁, ht, hrep, _⟩ | ⟨he, _⟩ := init_cases calcHash t.pools n
    · rw [Op.apply, StringTable.reset, ht] at ho
      cases ho
      exact hrep
    · rw [Op.apply, StringTable.reset, he] at ho
      cases ho

omit [Inhabited T] in
-- The bytes of an entry lie in its pool, and not among those of another entry.
theorem Represents.storage {str' : List UInt8} {p p' : Pointer} (h : t.Represents calcHash m)
    (hl : t.lookup calcHash str = .ok (some p)) (hl' : t.lookup calcHash str' = .ok (some p')) :
    (p.1 < t.npools ∧ p.2 + nbytes T str ≤ t.poolSize p.1) ∧
    (str ≠ str' → p.1 ≠ p'.1 ∨ p.2 + nbytes T str ≤ p'.2 ∨ p'.2 + nbytes T str' ≤ p.2) := by
  obtain ⟨se, hse, he, hv, _⟩ | ⟨he, _⟩ := h.lookup str
  case inr =>
    rw [hl] at he
    cases he
  obtain ⟨se', hse', he', hv', _⟩ | ⟨he', _⟩ := h.lookup str'
  case inr =>
    rw [hl'] at he'
    cases he'
  rw [hl] at he
  rw [hl'] at he'
  cases he
  cases he'
  have hext : t.extent se = nbytes T str := by rw [extent, hv]
  have hext' : t.extent se' = nbytes T str' := by rw [extent, hv']
  refine ⟨hext ▸ h.wf.pools.fits se hse, fun hne => ?_⟩
  have : Std.Symm t.Apart := ⟨fun _ _ => Apart.symm⟩
  have ha := h.wf.pools.apart.forall hse hse' fun hs => hne <| by
    rw [hs, hv'] at hv
    exact (congrArg StringValue.chars hv).symm
  rw [Apart, hext, hext'] at ha
  exact ha

end run

section collision

theorem eight_le_sixteen : 8 ≤ 16 := by decide

-- The value is a number of 4 bytes, in front of the length.
instance : StringValue.Layout UInt32 where
  size    := 16
  size_ge := eight_le_sixteen

end collision

end StringTable
end Compiler.Root
