import DmdModel.Runtime.NewAA.Theorems.Table

open TriangularProbe

namespace Runtime.NewAA

variable {K V : Type _} [BEq K] [Hashable K] {bs : List (Bucket K V)} {key : K}

-- The `n`-th bucket that is looked at for a hash.
def slot (bs : List (Bucket K V)) (hash : UInt64) (n : Nat) : Nat :=
  probe bs.length hash.toNat n

-- The invariant of a bucket array. `reach` says that a search for a key passes only nonempty buckets
-- before it gets to the bucket with that key.
structure TableWf (bs : List (Bucket K V)) : Prop where
  size     : ∃ k, bs.length = 2 ^ k
  ok       : ∀ b ∈ bs, b.Ok
  distinct : (entries bs).Pairwise (fun a b => (a.key == b.key) = false)
  reach    : ∀ i e, (bucketAt bs i).entry = some e → ∃ n, slot bs (calcHash e.key) n = i ∧
    ∀ m < n, (bucketAt bs (slot bs (calcHash e.key) m)).empty = false

section Size

variable {k : Nat}

omit [BEq K] [Hashable K] in
theorem and_mask (h : bs.length = 2 ^ k) (i : Nat) : i &&& mask bs = i % bs.length := by
  rw [mask, h, Nat.and_two_pow_sub_one_eq_mod]

omit [BEq K] [Hashable K] in
theorem slot_lt (h : bs.length = 2 ^ k) (hash : UInt64) (n : Nat) : slot bs hash n < bs.length :=
  probe_lt (h ▸ Nat.two_pow_pos k) n

omit [BEq K] [Hashable K] in
theorem slot_zero (h : bs.length = 2 ^ k) (hash : UInt64) :
    hash.toNat &&& mask bs = slot bs hash 0 := by
  rw [and_mask h, slot, probe]

omit [BEq K] [Hashable K] in
theorem slot_succ (h : bs.length = 2 ^ k) (hash : UInt64) (n : Nat) :
    (slot bs hash n + (n + 1)) &&& mask bs = slot bs hash (n + 1) := by
  rw [and_mask h, slot, slot, probe]

omit [BEq K] [Hashable K] in
theorem slot_surjective (h : bs.length = 2 ^ k) (hash : UInt64) {i : Nat} (hi : i < bs.length) :
    ∃ n < bs.length, slot bs hash n = i := by
  have ⟨n, hn, he⟩ := @probe_surjective hash.toNat k i (h ▸ hi)
  exact ⟨n, h ▸ hn, by rw [slot, h, he]⟩

omit [BEq K] [Hashable K] in
theorem findSlotInsertLoop_spec (h : bs.length = 2 ^ k) (hash : UInt64) (fuel n : Nat)
    (hf : ∀ m < n, (bucketAt bs (slot bs hash m)).filled) :
    (findSlotInsertLoop bs fuel (slot bs hash n) (n + 1)).Post
      (fun i => (bucketAt bs i).filled = false ∧
        ∃ m, slot bs hash m = i ∧ ∀ l < m, (bucketAt bs (slot bs hash l)).filled)
      (fun e => e = .endless ∧ ∀ m < n + fuel, (bucketAt bs (slot bs hash m)).filled) := by
  induction fuel generalizing n
  case zero => exact ⟨rfl, hf⟩
  case succ fuel hi =>
    rw [findSlotInsertLoop]
    cases hb : (bucketAt bs (slot bs hash n)).filled
    case false => exact ⟨hb, n, rfl, hf⟩
    case true =>
      have hf' : ∀ m < n + 1, (bucketAt bs (slot bs hash m)).filled := by
        intro m hm
        cases Nat.lt_succ_iff_lt_or_eq.mp hm with
        | inl hm => exact hf m hm
        | inr he => exact he ▸ hb
      rw [slot_succ h]
      simpa [Nat.add_assoc, Nat.add_comm 1] using hi (n + 1) hf'

-- The search for a free bucket finds the first one on the way, and fails only in a full table.
omit [BEq K] [Hashable K] in
theorem findSlotInsert_spec (h : bs.length = 2 ^ k) (hash : UInt64) :
    (findSlotInsert bs hash).Post
      (fun i => i < bs.length ∧ (bucketAt bs i).filled = false ∧
        ∃ m, slot bs hash m = i ∧ ∀ l < m, (bucketAt bs (slot bs hash l)).filled)
      (fun e => e = .endless ∧ ∀ i < bs.length, (bucketAt bs i).filled) := by
  rw [findSlotInsert, slot_zero h]
  apply (findSlotInsertLoop_spec h hash bs.length 0 (by simp)).mono
  · intro i ⟨hn, m, he, hl⟩
    exact ⟨he ▸ slot_lt h hash m, hn, m, he, hl⟩
  · intro e ⟨he, hl⟩
    refine ⟨he, fun i hi => ?_⟩
    have ⟨n, hn, hs⟩ := slot_surjective h hash hi
    exact hs ▸ hl n (by omega)

-- The bucket holds the key that is looked for.
abbrev Hit (hash : UInt64) (key : K) (b : Bucket K V) : Prop :=
  b.hash == hash && b.entry.any (key == ·.key)

omit [Hashable K] in
theorem findSlotLookupLoop_spec (h : bs.length = 2 ^ k) (hash : UInt64) (key : K) (fuel n : Nat)
    (hf : ∀ m < n, ¬Hit hash key (bucketAt bs (slot bs hash m)) ∧
      (bucketAt bs (slot bs hash m)).empty = false) :
    (findSlotLookupLoop bs hash key fuel (slot bs hash n) (n + 1)).Post
      (fun
        | some i => Hit hash key (bucketAt bs i)
        | none   => ∃ m, (bucketAt bs (slot bs hash m)).empty ∧
          ∀ l ≤ m, ¬Hit hash key (bucketAt bs (slot bs hash l)))
      (fun e => e = .endless ∧ ∀ m < n + fuel, ¬Hit hash key (bucketAt bs (slot bs hash m)) ∧
        (bucketAt bs (slot bs hash m)).empty = false) := by
  induction fuel generalizing n
  case zero => exact ⟨rfl, hf⟩
  case succ fuel hi =>
    rw [findSlotLookupLoop]
    by_cases hh : Hit hash key (bucketAt bs (slot bs hash n))
    case pos => rw [if_pos hh]; exact hh
    case neg =>
      rw [if_neg hh]
      cases hb : (bucketAt bs (slot bs hash n)).empty
      case true =>
        refine ⟨n, hb, fun l hl => ?_⟩
        cases Nat.lt_or_eq_of_le hl with
        | inl hl => exact (hf l hl).1
        | inr he => exact he ▸ hh
      case false =>
        have hf' : ∀ m < n + 1, ¬Hit hash key (bucketAt bs (slot bs hash m)) ∧
            (bucketAt bs (slot bs hash m)).empty = false := by
          intro m hm
          cases Nat.lt_succ_iff_lt_or_eq.mp hm with
          | inl hm => exact hf m hm
          | inr he => exact he ▸ ⟨hh, hb⟩
        rw [slot_succ h]
        simpa [Nat.add_assoc, Nat.add_comm 1] using hi (n + 1) hf'

end Size

-- No entry of the table has the key.
def Absent (bs : List (Bucket K V)) (key : K) : Prop :=
  ∀ e ∈ entries bs, (key == e.key) = false

omit [Hashable K] in
theorem Absent.perm {bs' : List (Bucket K V)} (h : Absent bs key)
    (hp : (entries bs').Perm (entries bs)) : Absent bs' key :=
  fun e he => h e (hp.mem_iff.mp he)

namespace TableWf

theorem okAt (w : TableWf bs) (i : Nat) : (bucketAt bs i).Ok := by
  by_cases h : i < bs.length
  case pos =>
    rw [bucketAt_eq_getElem h]
    exact w.ok _ (List.getElem_mem h)
  case neg =>
    rw [bucketAt_of_le (Nat.le_of_not_lt h)]
    exact .empty

theorem hit_iff [LawfulHashable K] (w : TableWf bs) {i : Nat} :
    Hit (calcHash key) key (bucketAt bs i) ↔ ∃ e, (bucketAt bs i).entry = some e ∧ key == e.key := by
  simp only [Hit, Bool.and_eq_true, beq_iff_eq, Option.any_eq_true]
  constructor
  case mp => exact fun ⟨_, h⟩ => h
  case mpr =>
    intro ⟨e, he, hk⟩
    refine ⟨?_, e, he, hk⟩
    rw [(w.okAt i).eq_filled he, calcHash_congr hk]

-- A lookup finds the bucket of the key, and returns null only if there is none.
theorem findSlotLookup_spec [EquivBEq K] [LawfulHashable K] (w : TableWf bs) (key : K) :
    (findSlotLookup bs (calcHash key) key).Post
      (fun
        | some i => ∃ e, (bucketAt bs i).entry = some e ∧ key == e.key
        | none   => Absent bs key)
      (fun e => e = .endless ∧ Absent bs key ∧ ∀ i < bs.length, (bucketAt bs i).empty = false) := by
  have ⟨k, h⟩ := w.size
  rw [findSlotLookup, slot_zero h]
  apply (findSlotLookupLoop_spec h (calcHash key) key bs.length 0 (by simp)).mono
  · rintro (_ | i) hr
    case some => exact w.hit_iff.mp hr
    case none =>
      have ⟨m, hm, hl⟩ := hr
      intro e he
      have ⟨i, hi⟩ := mem_entries_iff.mp he
      cases hk : key == e.key
      case false => rfl
      case true =>
        have ⟨n, hn, hr⟩ := w.reach i e hi
        rw [← calcHash_congr hk] at hn hr
        by_cases hnm : n ≤ m
        case pos => exact absurd (w.hit_iff.mpr ⟨e, hn ▸ hi, hk⟩) (hl n hnm)
        case neg => simp [hr m (Nat.lt_of_not_le hnm)] at hm
  · intro e ⟨he, hl⟩
    have hall {i : Nat} (hi : i < bs.length) : ¬Hit (calcHash key) key (bucketAt bs i) ∧
        (bucketAt bs i).empty = false := by
      have ⟨n, hn, hs⟩ := slot_surjective h (calcHash key) hi
      exact hs ▸ hl n (by omega)
    refine ⟨he, fun e he => ?_, fun i hi => (hall hi).2⟩
    have ⟨i, hi⟩ := mem_entries_iff.mp he
    cases hk : key == e.key
    case false => rfl
    case true => exact absurd (w.hit_iff.mpr ⟨e, hi, hk⟩) (hall (lt_length_of_entry hi)).1

-- What it takes for a search to get to a bucket with this key in slot `i`.
def Reachable (bs : List (Bucket K V)) (key : K) (i : Nat) : Prop :=
  ∃ n, slot bs (calcHash key) n = i ∧ ∀ m < n, (bucketAt bs (slot bs (calcHash key) m)).empty = false

omit [BEq K] in
-- Only an emptied bucket can cut off a search.
theorem Reachable.mono {bs' : List (Bucket K V)} {i : Nat} (r : Reachable bs key i)
    (hl : bs'.length = bs.length)
    (hn : ∀ j, (bucketAt bs j).empty = false → (bucketAt bs' j).empty = false) :
    Reachable bs' key i := by
  have ⟨n, he, hr⟩ := r
  have hs (m : Nat) : slot bs' (calcHash key) m = slot bs (calcHash key) m := by
    rw [slot, slot, hl]
  exact ⟨n, (hs n).trans he, fun m hm => hs m ▸ hn _ (hr m hm)⟩

omit [BEq K] in
theorem Reachable.set {i j : Nat} {b : Bucket K V} (r : Reachable bs key i) (hb : b.empty = false) :
    Reachable (bs.set j b) key i :=
  r.mono (List.length_set ..) fun _ h => bucketAt_set_not_empty hb h

-- Put an entry with a new key into a bucket that a search for the key gets to.
theorem place [EquivBEq K] (w : TableWf bs) {i : Nat} {e : Entry K V} (hi : i < bs.length)
    (hn : (bucketAt bs i).entry = none) (ha : Absent bs e.key) (hr : Reachable bs e.key i) :
    TableWf (bs.set i ⟨calcHash e.key, some e⟩) ∧
      (entries (bs.set i ⟨calcHash e.key, some e⟩)).Perm (e :: entries bs) := by
  have hp : (entries (bs.set i ⟨calcHash e.key, some e⟩)).Perm (e :: entries bs) := by
    have hp := @entries_set_perm K V bs i ⟨calcHash e.key, some e⟩ hi
    rwa [hn] at hp
  refine ⟨?_, hp⟩
  constructor
  case size => simpa using w.size
  case ok =>
    intro b hb
    cases List.mem_or_eq_of_mem_set hb with
    | inl hb => exact w.ok b hb
    | inr he => exact he ▸ .filled e
  case distinct =>
    refine (hp.pairwise_iff fun h => by rwa [BEq.comm]).mpr ?_
    exact List.pairwise_cons.mpr ⟨ha, w.distinct⟩
  case reach =>
    intro j e' he
    by_cases hj : i = j
    case pos =>
      subst hj
      rw [bucketAt_set_self hi] at he
      cases he
      exact hr.set (Bucket.Ok.empty_filled e)
    case neg =>
      rw [bucketAt_set_ne hj] at he
      exact Reachable.set (w.reach j e' he) (Bucket.Ok.empty_filled e)

-- Turn a filled bucket into a deleted one.
theorem remove [EquivBEq K] (w : TableWf bs) {i : Nat} {e : Entry K V}
    (he : (bucketAt bs i).entry = some e) :
    TableWf (bs.set i ⟨HASH_DELETED, none⟩) ∧
      (e :: entries (bs.set i ⟨HASH_DELETED, none⟩)).Perm (entries bs) := by
  have hi := lt_length_of_entry he
  have hp : (e :: entries (bs.set i ⟨HASH_DELETED, none⟩)).Perm (entries bs) := by
    have hp := @entries_set_perm K V bs i ⟨HASH_DELETED, none⟩ hi
    rwa [he] at hp
  refine ⟨?_, hp⟩
  constructor
  case size => simpa using w.size
  case ok =>
    intro b hb
    cases List.mem_or_eq_of_mem_set hb with
    | inl hb => exact w.ok b hb
    | inr he => exact he ▸ .deleted
  case distinct =>
    have hd := (hp.pairwise_iff fun h => by rwa [BEq.comm]).mpr w.distinct
    exact (List.pairwise_cons.mp hd).2
  case reach =>
    intro j e' he'
    by_cases hj : i = j
    case pos =>
      subst hj
      rw [bucketAt_set_self hi] at he'
      cases he'
    case neg =>
      rw [bucketAt_set_ne hj] at he'
      exact Reachable.set (w.reach j e' he') rfl

-- Set the value of an entry.
theorem setValue [EquivBEq K] (w : TableWf bs) {i : Nat} {e : Entry K V}
    (he : (bucketAt bs i).entry = some e) (v : V) :
    TableWf (bs.set i ⟨calcHash e.key, some ⟨e.key, v⟩⟩) ∧
      ∃ l, (e :: l).Perm (entries bs) ∧
        (⟨e.key, v⟩ :: l).Perm (entries (bs.set i ⟨calcHash e.key, some ⟨e.key, v⟩⟩)) := by
  have hi := lt_length_of_entry he
  have ⟨_, hp⟩ := w.remove he
  let b : Bucket K V := ⟨calcHash e.key, some ⟨e.key, v⟩⟩
  have hp' : (entries (bs.set i b)).Perm (⟨e.key, v⟩ :: entries (bs.set i ⟨HASH_DELETED, none⟩)) := by
    have hs := @entries_set_perm K V (bs.set i ⟨HASH_DELETED, none⟩) i b (by rwa [List.length_set])
    rwa [bucketAt_set_self hi, List.set_set] at hs
  refine ⟨?_, _, hp, hp'.symm⟩
  constructor
  case size => simpa using w.size
  case ok =>
    intro b hb
    cases List.mem_or_eq_of_mem_set hb with
    | inl hb => exact w.ok b hb
    | inr he => exact he ▸ .filled ⟨e.key, v⟩
  case distinct =>
    have hd := (hp.pairwise_iff fun h => by rwa [BEq.comm]).mpr w.distinct
    refine (hp'.pairwise_iff fun h => by rwa [BEq.comm]).mpr ?_
    exact List.pairwise_cons.mpr (List.pairwise_cons.mp hd)
  case reach =>
    have hb : b.empty = false := Bucket.Ok.empty_filled ⟨e.key, v⟩
    intro j e' he'
    by_cases hj : i = j
    case pos =>
      subst hj
      rw [bucketAt_set_self hi] at he'
      cases he'
      exact Reachable.set (w.reach i e he) hb
    case neg =>
      rw [bucketAt_set_ne hj] at he'
      exact Reachable.set (w.reach j e' he') hb

omit [BEq K] [Hashable K] in
theorem entries_replicate (n : Nat) : entries (List.replicate n (.init : Bucket K V)) = [] := by
  simp [entries, Bucket.init]

theorem replicate (k : Nat) : TableWf (List.replicate (2 ^ k) (.init : Bucket K V)) where
  size := ⟨k, by simp⟩
  ok b hb := by
    rw [List.eq_of_mem_replicate hb]
    exact .empty
  distinct := by simp [entries_replicate]
  reach i e h := by
    rw [bucketAt_replicate] at h
    cases h

omit [Hashable K] in
theorem absent_of_entries_nil (h : entries bs = []) : Absent bs key := by
  simp [Absent, h]

-- The first bucket on the way that is not filled can take the key.
theorem reachable_of_filled (w : TableWf bs) {m : Nat}
    (h : ∀ l < m, (bucketAt bs (slot bs (calcHash key) l)).filled) :
    Reachable bs key (slot bs (calcHash key) m) := by
  refine ⟨m, rfl, fun l hl => ?_⟩
  have hf := h l hl
  have ho := w.okAt (slot bs (calcHash key) l)
  rw [ho.filled_eq, Option.isSome_iff_exists] at hf
  have ⟨e, he⟩ := hf
  rw [ho.eq_filled he, Bucket.Ok.empty_filled]

theorem findSlotInsert_spec [EquivBEq K] (w : TableWf bs) (key : K) :
    (findSlotInsert bs (calcHash key)).Post
      (fun i => i < bs.length ∧ (bucketAt bs i).entry = none ∧ Reachable bs key i)
      (fun e => e = .endless ∧ bs.length = (entries bs).length) := by
  have ⟨k, h⟩ := w.size
  apply (NewAA.findSlotInsert_spec h (calcHash key)).mono
  · intro i ⟨hi, hf, m, hm, hl⟩
    refine ⟨hi, ?_, hm ▸ w.reachable_of_filled hl⟩
    rw [(w.okAt i).filled_eq] at hf
    simpa using hf
  · intro e ⟨he, hl⟩
    refine ⟨he, ?_⟩
    have hall : ∀ b ∈ bs, b.entry.isSome := by
      intro b hb
      have ⟨i, hi, hb⟩ := List.mem_iff_getElem.mp hb
      have := hl i hi
      rwa [bucketAt_eq_getElem hi, hb, (w.ok b (hb ▸ List.getElem_mem hi)).filled_eq] at this
    rw [entries, List.length_filterMap_eq_countP]
    exact (List.countP_eq_length.mpr hall).symm

end TableWf
end Runtime.NewAA

namespace Runtime.NewAA

variable {K V : Type _} [BEq K] [Hashable K]

omit [BEq K] [Hashable K] in
theorem AA.empty_some_iff {t : Impl K V} : AA.empty (some t) = true ↔ t.length = 0 :=
  beq_iff_eq

namespace Impl

-- The invariant of an implementation: the counters count the nonempty and the deleted buckets, and
-- all buckets below `firstUsed` are empty.
structure Wf (t : Impl K V) : Prop where
  table   : TableWf t.buckets
  used    : t.used.toNat = t.buckets.countP fun b => !b.empty
  deleted : t.deleted.toNat = t.buckets.countP Bucket.deleted
  first   : ∀ i < t.firstUsed.toNat, bucketAt t.buckets i = .init
  two_le  : 2 ≤ t.dim
  le      : t.dim ≤ 2 ^ 31

-- At least one bucket is truly empty, which is what ends a search for a key that is not there.
def HasEmpty (t : Impl K V) : Prop :=
  t.used.toNat < t.dim

namespace Wf

variable {t : Impl K V}

theorem used_eq (w : t.Wf) : t.used.toNat = (entries t.buckets).length + t.deleted.toNat := by
  rw [w.used, w.deleted, countP_not_empty w.table.ok]

theorem used_le (w : t.Wf) : t.used.toNat ≤ t.dim :=
  w.used ▸ List.countP_le_length

theorem length_eq (w : t.Wf) : t.length = (entries t.buckets).length := by
  have h := w.used_eq
  rw [Impl.length, UInt32.toNat_sub_of_le _ _ (UInt32.le_iff_toNat_le.mpr (by omega))]
  omega

theorem length_le (w : t.Wf) : t.length ≤ t.used.toNat := by
  rw [w.length_eq, w.used_eq]
  exact Nat.le_add_right ..

theorem not_hasEmpty (w : t.Wf) (h : ∀ i < t.dim, (bucketAt t.buckets i).empty = false) :
    ¬t.HasEmpty := by
  rw [HasEmpty, w.used, countP_not_empty_of_full h]
  exact Nat.lt_irrefl _

theorem findSlotLookup_spec [EquivBEq K] [LawfulHashable K] (w : t.Wf) (key : K) :
    (findSlotLookup t.buckets (calcHash key) key).Post
      (fun
        | some i => ∃ e, (bucketAt t.buckets i).entry = some e ∧ key == e.key
        | none   => Absent t.buckets key)
      (fun e => e = .endless ∧ ¬t.HasEmpty) :=
  (w.table.findSlotLookup_spec key).mono (fun _ h => h) fun _ ⟨he, _, h⟩ => ⟨he, w.not_hasEmpty h⟩

-- All entries stand in the buckets from `firstUsed` on.
theorem entries_drop (w : t.Wf) :
    entries (t.buckets.drop t.firstUsed.toNat) = entries t.buckets := by
  have h : entries (t.buckets.take t.firstUsed.toNat) = [] := by
    refine List.filterMap_eq_nil_iff.mpr fun b hb => ?_
    have ⟨i, hi, hb⟩ := List.mem_iff_getElem.mp hb
    rw [List.length_take, Nat.lt_min] at hi
    have he := w.first i hi.1
    rw [bucketAt_eq_getElem hi.2] at he
    rw [← hb, List.getElem_take, he]
    rfl
  have hs : entries (t.buckets.take t.firstUsed.toNat) ++
      entries (t.buckets.drop t.firstUsed.toNat) = entries t.buckets := by
    rw [entries, entries, ← List.filterMap_append, List.take_append_drop, entries]
  rw [← hs, h, List.nil_append]

theorem ok_of_mem_drop (w : t.Wf) : ∀ b ∈ t.buckets.drop t.firstUsed.toNat, b.Ok :=
  fun b hb => w.table.ok b (List.mem_of_mem_drop hb)

end Wf
end Impl

-- A table that entries are copied into. It has no deleted buckets.
structure Loading (bs : List (Bucket K V)) : Prop where
  table     : TableWf bs
  noDeleted : ∀ b ∈ bs, b.deleted = false

namespace Loading

variable {bs : List (Bucket K V)}

theorem replicate (k : Nat) : Loading (List.replicate (2 ^ k) (.init : Bucket K V)) where
  table := .replicate k
  noDeleted b hb := by
    rw [List.eq_of_mem_replicate hb]
    rfl

theorem countP_deleted (l : Loading bs) : bs.countP Bucket.deleted = 0 :=
  List.countP_eq_zero.mpr fun b hb => by simp [l.noDeleted b hb]

theorem countP_not_empty (l : Loading bs) :
    bs.countP (fun b => !b.empty) = (entries bs).length := by
  rw [NewAA.countP_not_empty l.table.ok, l.countP_deleted, Nat.add_zero]

theorem wf {t : Impl K V} (l : Loading t.buckets) (hu : t.used.toNat = (entries t.buckets).length)
    (hd : t.deleted = 0) (hf : ∀ i < t.firstUsed.toNat, bucketAt t.buckets i = .init)
    (hge : 2 ≤ t.dim) (hle : t.dim ≤ 2 ^ 31) : t.Wf where
  table   := l.table
  used    := hu.trans l.countP_not_empty.symm
  deleted := by rw [hd, l.countP_deleted]; rfl
  first   := hf
  two_le  := hge
  le      := hle

-- The next entry goes to the slot that the search for a free slot finds.
theorem place [EquivBEq K] (l : Loading bs) {e : Entry K V} (ha : Absent bs e.key)
    (hroom : (entries bs).length < bs.length) :
    (findSlotInsert bs (calcHash e.key)).Post
      (fun i => i < bs.length ∧ bucketAt bs i = .init ∧
        Loading (bs.set i ⟨calcHash e.key, some e⟩) ∧
        (entries (bs.set i ⟨calcHash e.key, some e⟩)).Perm (e :: entries bs))
      (fun _ => False) := by
  apply (l.table.findSlotInsert_spec e.key).mono
  · intro i ⟨hi, hn, hr⟩
    have ⟨hw, hp⟩ := l.table.place hi hn ha hr
    have he : (bucketAt bs i).deleted = false := by
      rw [bucketAt_eq_getElem hi]
      exact l.noDeleted _ (List.getElem_mem hi)
    have hb : bucketAt bs i = .init := by
      rw [(l.table.okAt i).deleted_eq_not_empty hn, Bool.not_eq_false'] at he
      exact (l.table.okAt i).eq_init he
    refine ⟨hi, hb, ⟨hw, fun b hb => ?_⟩, hp⟩
    cases List.mem_or_eq_of_mem_set hb with
    | inl hb => exact l.noDeleted b hb
    | inr he => exact he ▸ Bucket.Ok.deleted_filled e
  · intro _ ⟨_, h⟩
    omega

end Loading

-- The invariant of a loop that copies the entries of a list of buckets: `bs` has room for those
-- that are still to come, and these have keys that are new to it.
structure Copying (src : List (Bucket K V)) (all : List (Entry K V)) (bs : List (Bucket K V)) : Prop
    where
  loading : Loading bs
  ok      : ∀ b ∈ src, b.Ok
  perm    : (entries src ++ entries bs).Perm all
  room    : (entries src).length + (entries bs).length ≤ bs.length
  fresh   : (entries src ++ entries bs).Pairwise fun a b => (a.key == b.key) = false

namespace Copying

variable {src bs : List (Bucket K V)} {all : List (Entry K V)} {b : Bucket K V}

theorem skip (c : Copying (b :: src) all bs) (hb : b.entry = none) : Copying src all bs := by
  have he : entries (b :: src) = entries src := List.filterMap_cons_none hb
  constructor
  case loading => exact c.loading
  case ok => exact fun b hb => c.ok b (List.mem_cons_of_mem _ hb)
  case perm => exact he ▸ c.perm
  case room => exact he ▸ c.room
  case fresh => exact he ▸ c.fresh

theorem place [EquivBEq K] {e : Entry K V} (c : Copying (b :: src) all bs) (hb : b.entry = some e) :
    (findSlotInsert bs (calcHash e.key)).Post
      (fun i => i < bs.length ∧ bucketAt bs i = .init ∧
        Copying src all (bs.set i ⟨calcHash e.key, some e⟩))
      (fun _ => False) := by
  have he : entries (b :: src) = e :: entries src := List.filterMap_cons_some hb
  have hroom := c.room
  have hperm := c.perm
  have hfresh := c.fresh
  rw [he, List.length_cons] at hroom
  rw [he, List.cons_append] at hperm hfresh
  have ha : Absent bs e.key := fun e' he' =>
    (List.pairwise_cons.mp hfresh).1 e' (List.mem_append_right _ he')
  apply (c.loading.place ha (by omega)).mono _ fun _ h => h
  intro i ⟨hi, hn, hl, hp⟩
  have hm : (entries src ++ entries (bs.set i ⟨calcHash e.key, some e⟩)).Perm
      (e :: (entries src ++ entries bs)) := (hp.append_left _).trans List.perm_middle
  refine ⟨hi, hn, hl, fun b hb => c.ok b (List.mem_cons_of_mem _ hb), hm.trans hperm, ?_, ?_⟩
  · rw [hp.length_eq, List.length_set, List.length_cons]
    omega
  · exact (hm.pairwise_iff fun h => by rwa [BEq.comm]).mpr hfresh

-- Copying all entries of an array to new buckets.
theorem start {t : Impl K V} (w : t.Wf) {k : Nat} (h : t.length ≤ 2 ^ k) :
    Copying (t.buckets.drop t.firstUsed.toNat) (entries t.buckets) (.replicate (2 ^ k) .init) := by
  have he : entries (List.replicate (2 ^ k) (.init : Bucket K V)) = [] := TableWf.entries_replicate _
  constructor
  case loading => exact .replicate k
  case ok => exact w.ok_of_mem_drop
  case perm => simp [he, w.entries_drop]
  case room => simpa [he, w.entries_drop, w.length_eq] using h
  case fresh => simpa [he, w.entries_drop] using w.table.distinct

theorem reinsert_spec [EquivBEq K] (c : Copying (b :: src) all bs) :
    (Impl.reinsert bs b).Post (fun bs' => Copying src all bs' ∧ bs'.length = bs.length)
      (fun _ => False) := by
  have hb := c.ok b List.mem_cons_self
  rw [Impl.reinsert, hb.filled_eq]
  cases he : b.entry with
  | none => exact ⟨c.skip he, rfl⟩
  | some e =>
    rw [hb.eq_filled he]
    refine (c.place he).bind fun i ⟨_, _, hc⟩ => ?_
    exact ⟨hc, List.length_set ..⟩

end Copying
end Runtime.NewAA
