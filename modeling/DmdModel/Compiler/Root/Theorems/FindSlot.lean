import DmdModel.Compiler.Root.StringTable
import DmdModel.Lib.OpenAddressing

namespace Compiler.Root
namespace StringTable

variable {T : Type} {t : StringTable T} {se se' : StringEntry} {ses : List StringEntry}
variable {str : List UInt8} {value : T} {vptr : UInt32}

-- The pointer that a vptr other than 0 is for.
def pointer (vptr : UInt32) : Pointer :=
  ((vptr.toNat >>> POOL_BITS) - 1, vptr.toNat &&& (POOL_SIZE - 1))

theorem getValue_of_ne (h : vptr ≠ 0) : getValue vptr = some (pointer vptr) :=
  if_neg h

-- The value and the string of an entry.
def valueOf (t : StringTable T) (se : StringEntry) : StringValue T :=
  t.deref (pointer se.vptr)

theorem pointer_pack {npools nfill : Nat} (hp : npools < 2 ^ 20) (hf : nfill < 2 ^ 12) :
    pointer (npools <<< POOL_BITS ||| nfill).toUInt32 = (npools - 1, nfill) := by
  have hadd : npools <<< POOL_BITS ||| nfill = npools * 2 ^ 12 + nfill := by
    rw [POOL_BITS, ← Nat.shiftLeft_add_eq_or_of_lt hf, Nat.shiftLeft_eq]
  have hn : (npools <<< POOL_BITS ||| nfill).toUInt32.toNat = npools * 2 ^ 12 + nfill := by
    rw [hadd, Nat.toUInt32_eq, UInt32.toNat_ofNat']
    exact Nat.mod_eq_of_lt (by omega)
  have hmask : POOL_SIZE - 1 = 2 ^ 12 - 1 := rfl
  rw [pointer, hn, hmask, Nat.and_two_pow_sub_one_eq_mod, POOL_BITS, Nat.shiftRight_eq_div_pow]
  refine Prod.ext ?_ ?_
  · show (npools * 2 ^ 12 + nfill) / 2 ^ 12 - 1 = npools - 1
    omega
  · show (npools * 2 ^ 12 + nfill) % 2 ^ 12 = nfill
    omega

theorem pack_ne_zero {npools nfill : Nat} (h0 : npools ≠ 0) (hp : npools < 2 ^ 20)
    (hf : nfill < 2 ^ 12) : (npools <<< POOL_BITS ||| nfill).toUInt32 ≠ 0 := by
  have hadd : npools <<< POOL_BITS ||| nfill = npools * 2 ^ 12 + nfill := by
    rw [POOL_BITS, ← Nat.shiftLeft_add_eq_or_of_lt hf, Nat.shiftLeft_eq]
  intro he
  have hn := congrArg UInt32.toNat he
  rw [hadd, Nat.toUInt32_eq, UInt32.toNat_ofNat', Nat.mod_eq_of_lt (by omega)] at hn
  have : npools * 2 ^ 12 + nfill = 0 := hn
  omega

variable [StringValue.Layout T]

theorem nbytes_gt (str : List UInt8) : 8 < nbytes T str := by
  have := StringValue.Layout.size_ge (T := T)
  rw [nbytes]
  omega

-- The number of bytes that an entry takes in its pool.
def extent (t : StringTable T) (se : StringEntry) : Nat :=
  nbytes T (t.valueOf se).chars

-- Two entries do not have a byte in common.
def Apart (t : StringTable T) (se se' : StringEntry) : Prop :=
  let p := pointer se.vptr
  let p' := pointer se'.vptr
  p.1 ≠ p'.1 ∨ p.2 + t.extent se ≤ p'.2 ∨ p'.2 + t.extent se' ≤ p.2

-- The pools have room for the entries.
structure Pools (t : StringTable T) (ses : List StringEntry) : Prop where
  poolSize : ∀ i < t.npools, POOL_SIZE ≤ t.poolSize i
  fits     : ∀ se ∈ ses, (pointer se.vptr).1 < t.npools ∧
    (pointer se.vptr).2 + t.extent se ≤ t.poolSize (pointer se.vptr).1
  filled   : ∀ se ∈ ses, (pointer se.vptr).1 + 1 = t.npools →
    (pointer se.vptr).2 + t.extent se ≤ t.nfill
  apart    : ses.Pairwise t.Apart
  aligned  : t.nfill % 8 = 0
  bound    : 16 * ses.length ≤ POOL_SIZE * (t.npools - 1) + min t.nfill POOL_SIZE

theorem Apart.symm (h : t.Apart se se') : t.Apart se' se :=
  h.imp Ne.symm Or.symm

namespace Pools

variable {n : Nat} {ses' : List StringEntry}

theorem perm (h : t.Pools ses) (hp : ses'.Perm ses) : t.Pools ses' where
  poolSize      := h.poolSize
  fits se hse   := h.fits se (hp.mem_iff.mp hse)
  filled se hse := h.filled se (hp.mem_iff.mp hse)
  apart         := (hp.pairwise_iff fun ha => ha.symm).mpr h.apart
  aligned       := h.aligned
  bound         := by rw [hp.length_eq]; exact h.bound

-- The pool has room for one more value of `n` bytes.
structure Room (t : StringTable T) (n : Nat) : Prop where
  npools : t.npools ≠ 0
  fits   : t.nfill + n ≤ t.poolSize (t.npools - 1)
  lt     : t.nfill < POOL_SIZE
  full   : t.nfill ≠ 0 → t.nfill + n ≤ POOL_SIZE

theorem reserve (h : t.Pools ses) (hn : 0 < n) : (t.reserve n).Pools ses ∧ Room (t.reserve n) n := by
  rw [StringTable.reserve]
  split
  case isTrue hc =>
    have hmax : n ≤ if n > POOL_SIZE then n else POOL_SIZE := by
      split <;> omega
    have hpool : POOL_SIZE ≤ if n > POOL_SIZE then n else POOL_SIZE := by
      split <;> omega
    refine ⟨⟨fun i hi => ?_, fun se hse => ?_, fun se hse hl => ?_, h.apart, rfl, ?_⟩,
      Nat.succ_ne_zero _, ?_, Nat.two_pow_pos 12, fun h0 => absurd rfl h0⟩
    case refine_1 =>
      replace hi : i < t.npools + 1 := hi
      show POOL_SIZE ≤ Function.update t.poolSize t.npools _ i
      by_cases he : i = t.npools
      · rw [he, Function.update_self]
        exact hpool
      · rw [Function.update_of_ne he]
        exact h.poolSize i (by omega)
    case refine_2 =>
      have ⟨hlt, hle⟩ := h.fits se hse
      refine ⟨Nat.lt_succ_of_lt hlt, ?_⟩
      show _ ≤ Function.update t.poolSize t.npools _ _
      rw [Function.update_of_ne (Nat.ne_of_lt hlt)]
      exact hle
    case refine_3 =>
      have := (h.fits se hse).left
      have : (pointer se.vptr).1 + 1 = t.npools + 1 := hl
      omega
    case refine_4 =>
      have hb := h.bound
      show 16 * ses.length ≤ POOL_SIZE * (t.npools + 1 - 1) + min 0 POOL_SIZE
      have hmin := Nat.min_le_right t.nfill POOL_SIZE
      cases hnp : t.npools with
      | zero =>
        have hnil : ses = [] := List.eq_nil_iff_forall_not_mem.mpr fun se hse => by
          have := (h.fits se hse).left
          omega
        simp [hnil]
      | succ k =>
        rw [hnp, Nat.add_sub_cancel] at hb
        rw [Nat.add_sub_cancel, Nat.mul_succ]
        omega
    case refine_5 =>
      show 0 + n ≤ Function.update t.poolSize t.npools _ (t.npools + 1 - 1)
      rw [Nat.add_sub_cancel, Function.update_self, Nat.zero_add]
      exact hmax
  case isFalse hc =>
    rw [not_or, Nat.not_lt] at hc
    obtain ⟨hnp, hle⟩ := hc
    exact ⟨h, hnp, hle.trans <| h.poolSize _ (by omega), by omega, fun _ => hle⟩

omit [StringValue.Layout T] in
theorem reserve_pools : (t.reserve n).pools = t.pools := by
  rw [StringTable.reserve]
  split <;> rfl

theorem put_pools : (t.put str value).pools = Function.update t.pools (t.npools - 1)
    (Function.update (t.pools (t.npools - 1)) t.nfill ⟨value, str⟩) :=
  rfl

theorem put_deref_self : (t.put str value).deref (t.npools - 1, t.nfill) = ⟨value, str⟩ := by
  rw [deref, put_pools, Function.update_self, Function.update_self]

theorem put_deref_of_ne {p : Pointer} (h : p ≠ (t.npools - 1, t.nfill)) :
    (t.put str value).deref p = t.deref p := by
  obtain ⟨i, off⟩ := p
  rw [deref, put_pools, deref]
  by_cases hi : i = t.npools - 1
  case pos =>
    have hoff : off ≠ t.nfill := fun he => h (by rw [hi, he])
    rw [hi, Function.update_self, Function.update_of_ne hoff]
  case neg => rw [Function.update_of_ne hi]

-- The fill is behind the entries of the last pool.
theorem pointer_ne (h : t.Pools ses) (hse : se ∈ ses) : pointer se.vptr ≠ (t.npools - 1, t.nfill) := by
  intro he
  have ⟨hlt, _⟩ := h.fits se hse
  have hf := h.filled se hse
  have hn := nbytes_gt (T := T) (t.valueOf se).chars
  rw [he] at hlt hf
  have := hf (Nat.sub_add_cancel (by omega))
  rw [extent] at this
  omega

theorem put (h : t.Pools ses) (hr : Room t (nbytes T str)) (hp : pointer vptr = (t.npools - 1, t.nfill))
    (hash : UInt32) : (t.put str value).Pools (⟨hash, vptr⟩ :: ses) := by
  have hold : ∀ se ∈ ses, (t.put str value).valueOf se = t.valueOf se :=
    fun se hse => put_deref_of_ne (h.pointer_ne hse)
  have hext : ∀ se ∈ ses, (t.put str value).extent se = t.extent se :=
    fun se hse => by rw [extent, hold se hse, extent]
  have hnew : (t.put str value).extent ⟨hash, vptr⟩ = nbytes T str := by
    rw [extent, valueOf, hp, put_deref_self]
  have hn := nbytes_gt (T := T) str
  have hnp := hr.npools
  have hlt := hr.lt
  have hfill : (t.put str value).nfill = t.nfill + (nbytes T str + (8 - nbytes T str % 8) % 8) := rfl
  refine ⟨h.poolSize, fun se hse => ?_, fun se hse hl => ?_, ?_, ?_, ?_⟩
  case refine_1 =>
    obtain rfl | hse := List.mem_cons.mp hse
    · rw [hnew, hp]
      exact ⟨Nat.sub_one_lt hnp, hr.fits⟩
    · rw [hext se hse]
      exact h.fits se hse
  case refine_2 =>
    obtain rfl | hse := List.mem_cons.mp hse
    · rw [hnew, hp, hfill]
      omega
    · have := h.filled se hse hl
      rw [hext se hse, hfill]
      omega
  case refine_3 =>
    refine List.pairwise_cons.mpr ⟨fun se hse => ?_, h.apart.imp_of_mem fun hse hse' ha => ?_⟩
    · by_cases hl : (pointer se.vptr).1 + 1 = t.npools
      case pos =>
        have := h.filled se hse hl
        refine .inr (.inr ?_)
        rw [hext se hse, hp]
        exact this
      case neg =>
        left
        rw [hp]
        omega
    · rw [Apart, hext _ hse, hext _ hse']
      exact ha
  case refine_4 =>
    have := h.aligned
    rw [hfill]
    omega
  case refine_5 =>
    have hb := h.bound
    have ha := h.aligned
    have hnp' : (t.put str value).npools = t.npools := rfl
    have hsize : POOL_SIZE = 4096 := rfl
    rw [hfill, hnp', List.length_cons]
    have hmul : POOL_SIZE * (t.npools - 1) = 4096 * (t.npools - 1) := rfl
    rw [hsize] at hb hlt ⊢
    have hfull := hr.full
    rw [hsize] at hfull
    omega

end Pools

variable (t str value) in
theorem allocValue_fields : (t.allocValue str value).2.table = t.table ∧
    (t.allocValue str value).2.size = t.size ∧ (t.allocValue str value).2.count = t.count ∧
    (t.allocValue str value).2.countTrigger = t.countTrigger := by
  show (t.reserve _).table = _ ∧ (t.reserve _).size = _ ∧ (t.reserve _).count = _ ∧
    (t.reserve _).countTrigger = _
  rw [reserve]
  split <;> exact ⟨rfl, rfl, rfl, rfl⟩

-- The values that are there stay, and the new one gets bytes of its own.
theorem allocValue_spec (h : t.Pools ses) (hp : (t.allocValue str value).2.npools < 2 ^ 20) :
    let vptr := (t.allocValue str value).1
    let t' := (t.allocValue str value).2
    vptr ≠ 0 ∧ t'.deref (pointer vptr) = ⟨value, str⟩ ∧
    (∀ se ∈ ses, t'.valueOf se = t.valueOf se) ∧
    ∀ hash, t'.Pools (⟨hash, vptr⟩ :: ses) := by
  have ⟨hr, hroom⟩ := h.reserve (Nat.zero_lt_of_lt (nbytes_gt (T := T) str))
  replace hp : (t.reserve (nbytes T str)).npools < 2 ^ 20 := hp
  have hpack := pointer_pack hp hroom.lt
  refine ⟨pack_ne_zero hroom.npools hp hroom.lt, ?_, fun se hse => ?_, hr.put hroom hpack⟩
  · rw [← Pools.put_deref_self (t := t.reserve (nbytes T str)), ← hpack]
    rfl
  · show ((t.reserve _).put str value).deref _ = _
    rw [Pools.put_deref_of_ne (hr.pointer_ne hse), deref, Pools.reserve_pools]
    rfl

end StringTable
end Compiler.Root

namespace Compiler.Root
namespace StringTable

open TriangularProbe OpenAddressing

variable {T : Type} {t : StringTable T} {table : Nat → StringEntry} {size k i : Nat} {hash : UInt32}
variable {str : List UInt8} {se : StringEntry} {calcHash : List UInt8 → UInt32}

def isFree (se : StringEntry) : Bool :=
  se.vptr = 0

def hashOf (se : StringEntry) : Nat :=
  se.hash.toNat

theorem and_mask (hk : size = 2 ^ k) (x : Nat) : x &&& (size - 1) = x % size := by
  rw [hk, Nat.and_two_pow_sub_one_eq_mod]

theorem isFree_eq_false_iff : isFree se = false ↔ se.vptr ≠ 0 := by
  simp [isFree]

theorem isEntryOf_iff : t.isEntryOf se hash str ↔
    isFree se = false ∧ se.hash = hash ∧ (t.valueOf se).chars = str := by
  rw [isFree_eq_false_iff, isEntryOf]
  by_cases h0 : se.vptr = 0
  case pos => simp [h0, getValue]
  case neg => simp [h0, getValue_of_ne h0, valueOf]

section findSlot

-- What ends a search.
def Stops (t : StringTable T) (hash : UInt32) (str : List UInt8) (se : StringEntry) : Prop :=
  isFree se ∨ t.isEntryOf se hash str

theorem findSlotLoop_first (hk : size = 2 ^ k) {fuel n : Nat}
    (hn : ∀ m < n, ¬t.Stops hash str (table (probe size hash.toNat m)))
    (hf : ∃ m < n + fuel, t.Stops hash str (table (probe size hash.toNat m))) :
    ∃ i, t.findSlotLoop table size hash str fuel (probe size hash.toNat n) (n + 1) = .ok i ∧
      First (t.Stops hash str) table size hash.toNat i := by
  induction fuel generalizing n with
  | zero =>
    have ⟨m, hm, hs⟩ := hf
    exact absurd hs (hn m hm)
  | succ fuel hi =>
    rw [findSlotLoop]
    by_cases hs : t.Stops hash str (table (probe size hash.toNat n))
    case pos =>
      refine ⟨_, if_pos ?_, hs, n, rfl, hn⟩
      exact hs.imp_left of_decide_eq_true
    case neg =>
      have hp : (probe size hash.toNat n + (n + 1)) % size = probe size hash.toNat (n + 1) := rfl
      rw [if_neg fun h => hs (h.imp_left decide_eq_true), and_mask hk, hp]
      refine hi (fun m hm => ?_) ?_
      · obtain rfl | hlt := Nat.eq_or_lt_of_le (Nat.le_of_lt_succ hm)
        · exact hs
        · exact hn m hlt
      · have ⟨m, hm, hst⟩ := hf
        exact ⟨m, by omega, hst⟩

variable (hash str) in
-- The search ends, as there is a free slot that it comes to.
theorem findSlotIn_first (hk : size = 2 ^ k) (hf : ∃ i < size, isFree (table i) = true) :
    ∃ i, t.findSlotIn table size hash str = .ok i ∧ First (t.Stops hash str) table size hash.toNat i := by
  rw [findSlotIn, and_mask hk]
  refine findSlotLoop_first hk (n := 0) (fun m hm => absurd hm (Nat.not_lt_zero m)) ?_
  have ⟨i, hi, hfree⟩ := hf
  subst hk
  have ⟨m, hm, he⟩ := @probe_surjective hash.toNat k i hi
  exact ⟨m, by omega, .inl (he ▸ hfree)⟩

-- The entries of a table: their hashes are those of their strings, no string is there twice, and a
-- search for a string comes to its slot.
structure Searchable (calcHash : List UInt8 → UInt32) (t : StringTable T) (table : Nat → StringEntry)
    (size : Nat) : Prop where
  reached  : Reached isFree hashOf table size
  hashed   : ∀ se ∈ contents isFree table size, se.hash = calcHash (t.valueOf se).chars
  distinct : (contents isFree table size).Pairwise fun a b => (t.valueOf a).chars ≠ (t.valueOf b).chars

-- A search ends at the entry with the string, or at the first free slot if there is no such entry.
inductive Found (t : StringTable T) (table : Nat → StringEntry) (size : Nat) (start : Nat)
    (str : List UInt8) (i : Nat) : Prop
  | entry (used : isFree (table i) = false) (eq : (t.valueOf (table i)).chars = str)
  | free (free : isFree (table i) = true) (comes : Comes isFree table size start i)
    (absent : ∀ se ∈ contents isFree table size, (t.valueOf se).chars ≠ str)

theorem Searchable.findSlotIn (h : Searchable calcHash t table size) (hk : size = 2 ^ k)
    (hf : ∃ i < size, isFree (table i) = true) (str : List UInt8) :
    ∃ i < size, t.findSlotIn table size (calcHash str) str = .ok i ∧
      Found t table size (calcHash str).toNat str i := by
  have ⟨i, he, hfirst⟩ := t.findSlotIn_first (calcHash str) str hk hf
  refine ⟨i, hfirst.lt (hk ▸ Nat.two_pow_pos k), he, ?_⟩
  by_cases hm : t.isEntryOf (table i) (calcHash str) str
  case pos =>
    have ⟨hu, _, hs⟩ := (isEntryOf_iff).mp hm
    exact .entry hu hs
  case neg =>
    refine .free (hfirst.holds.resolve_right hm) hfirst.comes fun se hse heq => ?_
    obtain ⟨j, hj, rfl, hu⟩ := mem_contents.mp hse
    have hh := heq ▸ h.hashed _ hse
    have hc := h.reached j hj hu
    rw [hashOf, hh] at hc
    exact hm <| hfirst.isMatch_of_comes hc hu ((isEntryOf_iff).mpr ⟨hu, hh, heq⟩)

-- An entry for a string that is not there yet is put at the slot that the search ends at.
theorem Searchable.update (h : Searchable calcHash t table size) (hi : i < size)
    (hf : isFree (table i) = true) (hc : Comes isFree table size (hashOf se) i)
    (hu : isFree se = false) (hh : se.hash = calcHash (t.valueOf se).chars)
    (ha : ∀ se' ∈ contents isFree table size, (t.valueOf se').chars ≠ (t.valueOf se).chars) :
    Searchable calcHash t (Function.update table i se) size := by
  have hp := contents_update hi hf hu
  refine ⟨h.reached.update hc hu, fun se' hse' => ?_, ?_⟩
  · obtain rfl | hse' := List.mem_cons.mp (hp.mem_iff.mp hse')
    · exact hh
    · exact h.hashed se' hse'
  · refine (hp.pairwise_iff fun hne => hne.symm).mpr (List.pairwise_cons.mpr ⟨?_, h.distinct⟩)
    exact fun se' hse' => (ha se' hse').symm

end findSlot

section grow

variable {ndim : Nat} {ses : List StringEntry}

def used (ses : List StringEntry) : List StringEntry :=
  ses.filter fun se => !isFree se

-- The loop over the old table. The entries that are still to come have other strings than those in the
-- new table.
theorem reinsert_loop (hk : ndim = 2 ^ k) (h : Searchable calcHash t table ndim)
    (hh : ∀ se ∈ used ses, se.hash = calcHash (t.valueOf se).chars)
    (hd : (contents isFree table ndim ++ used ses).Pairwise
      fun a b => (t.valueOf a).chars ≠ (t.valueOf b).chars)
    (hl : (contents isFree table ndim ++ used ses).length < ndim) :
    ∃ table', ses.foldlM (t.reinsert ndim) table = .ok table' ∧
      Searchable calcHash t table' ndim ∧
      (contents isFree table' ndim).Perm (contents isFree table ndim ++ used ses) := by
  induction ses generalizing table with
  | nil => exact ⟨table, rfl, h, by rw [used, List.filter_nil, List.append_nil]⟩
  | cons se ses hi =>
    rw [List.foldlM_cons, reinsert]
    by_cases h0 : se.vptr = 0
    case pos =>
      have hu : used (se :: ses) = used ses := List.filter_cons_of_neg (by simp [isFree, h0])
      rw [hu] at hh hd hl ⊢
      rw [h0]
      exact hi h hh hd hl
    case neg =>
      have hf := (isFree_eq_false_iff).mpr h0
      have hu : used (se :: ses) = se :: used ses := List.filter_cons_of_pos (by simp [hf])
      rw [hu] at hh hd hl ⊢
      have hroom : (contents isFree table ndim).length < ndim := by
        rw [List.length_append] at hl
        omega
      have ⟨i, hin, he, hfound⟩ := h.findSlotIn hk (exists_free hroom) (t.valueOf se).chars
      have hse : se.hash = calcHash (t.valueOf se).chars := hh se List.mem_cons_self
      have hmid := (List.perm_middle.pairwise_iff fun hne => hne.symm).mp hd
      have ⟨hne, _⟩ := List.pairwise_cons.mp hmid
      -- the slot does not have an entry with the same string
      cases hfound with
      | entry hused heq =>
        have hm : table i ∈ contents isFree table ndim := mem_contents.mpr ⟨i, hin, rfl, hused⟩
        exact absurd heq (hne _ (List.mem_append_left _ hm)).symm
      | free hfree hcomes habsent =>
        have hp := contents_update hin hfree hf
        have h' := h.update hin hfree (by rw [hashOf, hse]; exact hcomes) hf hse habsent
        have hperm : (contents isFree (Function.update table i se) ndim ++ used ses).Perm
            (contents isFree table ndim ++ se :: used ses) :=
          (hp.append_right _).trans List.perm_middle.symm
        have ⟨table', ht, hs, hc⟩ := hi h' (fun se' hse' => hh se' (List.mem_cons_of_mem _ hse'))
          ((hperm.pairwise_iff fun hne => hne.symm).mpr hd) (by rw [hperm.length_eq]; exact hl)
        refine ⟨table', ?_, hs, hc.trans hperm⟩
        rw [getValue_of_ne h0]
        dsimp only
        rw [hse]
        show ((t.findSlotIn table ndim _ (t.valueOf se).chars >>= fun i => _) >>= _) = _
        rw [he]
        exact ht

theorem contents_empty : contents isFree (fun _ => ⟨0, 0⟩) size = [] := by
  rw [contents, List.filter_eq_nil_iff]
  intro se hse
  obtain ⟨_, _, rfl⟩ := List.mem_map.mp hse
  simp [isFree]

theorem empty_searchable : Searchable calcHash t (fun _ => ⟨0, 0⟩) size where
  reached i _ hf  := by simp [isFree] at hf
  hashed se hse   := by rw [contents_empty] at hse; cases hse
  distinct        := by rw [contents_empty]; exact .nil

theorem grow_spec (hk : t.size = 2 ^ k) (hm : t.size * 2 * 8 < 2 ^ 64)
    (h : Searchable calcHash t t.table t.size) :
    ∃ table, t.grow = .ok { t with
        table        := table
        size         := t.size * 2
        countTrigger := triggerOf (t.size * 2) } ∧
      Searchable calcHash t table (t.size * 2) ∧
      (contents isFree table (t.size * 2)).Perm (contents isFree t.table t.size) := by
  have hk2 : t.size * 2 = 2 ^ (k + 1) := by rw [hk, pow_succ]
  have hpos : 0 < t.size := hk ▸ Nat.two_pow_pos k
  have hu : used ((List.range t.size).map t.table) = contents isFree t.table t.size := rfl
  have hnil : contents isFree (fun _ => ⟨0, 0⟩) (t.size * 2) ++
      used ((List.range t.size).map t.table) = contents isFree t.table t.size := by
    rw [contents_empty, List.nil_append, hu]
  have hl : (contents isFree t.table t.size).length ≤ t.size := by
    refine (List.length_filter_le _ _).trans (Nat.le_of_eq ?_)
    rw [List.length_map, List.length_range]
  have ⟨table, ht, hs, hp⟩ := reinsert_loop hk2 empty_searchable h.hashed (hnil ▸ h.distinct)
    (by rw [hnil]; omega)
  refine ⟨table, ?_, hs, hnil ▸ hp⟩
  rw [grow, xcalloc, if_pos hm]
  show (((List.range t.size).map t.table).foldlM (t.reinsert (t.size * 2)) (fun _ => ⟨0, 0⟩) >>=
    fun table => _) = _
  rw [ht]
  rfl

end grow

theorem Searchable.congr {t' : StringTable T} (h : Searchable calcHash t table size)
    (he : ∀ se ∈ contents isFree table size, t'.valueOf se = t.valueOf se) :
    Searchable calcHash t' table size where
  reached       := h.reached
  hashed se hse := by rw [he se hse]; exact h.hashed se hse
  distinct      := h.distinct.imp_of_mem fun ha hb hne => by rw [he _ ha, he _ hb]; exact hne

end StringTable
end Compiler.Root
