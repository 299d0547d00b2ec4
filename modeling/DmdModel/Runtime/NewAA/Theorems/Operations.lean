import DmdModel.Runtime.NewAA.Theorems.Resize
import DmdModel.Lib.AssocMap

namespace Runtime.NewAA

variable {K V : Type _} [BEq K] [EquivBEq K] [Hashable K] {key : K}

-- A slot that an entry with the key can go to.
structure InsertSlot (t : Impl K V) (key : K) (pi : Nat) : Prop where
  lt    : pi < t.dim
  free  : (bucketAt t.buckets pi).entry = none
  reach : TableWf.Reachable t.buckets key pi

namespace Impl

variable {t : Impl K V} {pi : Nat}

-- The number of nonempty buckets once the slot is filled.
def usedAfter (t : Impl K V) (pi : Nat) : Nat :=
  t.used.toNat + (bucketAt t.buckets pi).empty.toNat

-- An insertion that takes the last empty bucket, as the load check does not see that it has to grow.
def fillsLast (t : Impl K V) (hash : UInt64) : Bool :=
  match findSlotInsert t.buckets hash with
  | .ok pi   => (bucketAt t.buckets pi).empty && !t.exceedsLoad && t.used.toNat + 1 == t.dim
  | .error _ => false

-- What filling a slot with a new entry does to an array.
structure Filled (t t' : Impl K V) (e : Entry K V) (pi : Nat) : Prop where
  wf    : t'.Wf
  perm  : (entries t'.buckets).Perm (e :: entries t.buckets)
  dim   : t'.dim = t.dim
  used  : t'.used.toNat = t.usedAfter pi
  later : Later t t'

theorem Wf.fillSlot_spec (w : t.Wf) (s : InsertSlot t key pi) (ha : Absent t.buckets key) (v : V) :
    Filled t (fillSlot t t.generation pi (calcHash key) ⟨key, v⟩) ⟨key, v⟩ pi := by
  let e : Entry K V := ⟨key, v⟩
  let b : Bucket K V := ⟨calcHash key, some e⟩
  let p := bucketAt t.buckets pi
  have he : fillSlot t t.generation pi (calcHash key) e = {
      buckets   := t.buckets.set pi b
      used      := if p.deleted then t.used else t.used + 1
      deleted   := if p.deleted then t.deleted - 1 else t.deleted
      firstUsed := min t.firstUsed pi.toUInt32
      obuckets  := t.obuckets } := by
    simp [fillSlot, setArray, array, p, b]
  rw [he]
  have ⟨hw, hp⟩ := @TableWf.place K V _ _ t.buckets _ w.table pi e s.lt s.free ha s.reach
  have hlen : (t.buckets.set pi b).length = t.dim := List.length_set ..
  have hdel := (w.table.okAt pi).deleted_eq_not_empty s.free
  have hu := @countP_set_add K V (fun b => !b.empty) t.buckets pi b s.lt
  have hd := @countP_set_add K V Bucket.deleted t.buckets pi b s.lt
  have hbe : b.empty = false := Bucket.Ok.empty_filled e
  have hbd : b.deleted = false := Bucket.Ok.deleted_filled e
  rw [hbe, ← w.used] at hu
  rw [hbd, hdel, ← w.deleted] at hd
  have hle := w.used_le
  have h31 := w.le
  have hused : (if p.deleted then t.used else t.used + 1).toNat = t.usedAfter pi := by
    rw [usedAfter, hdel]
    cases p.empty with
    | true => exact toNat_succ (hle.trans h31)
    | false => rfl
  have hdeleted : (if p.deleted then t.deleted - 1 else t.deleted).toNat =
      (t.buckets.set pi b).countP Bucket.deleted := by
    rw [hdel]
    cases he : p.empty with
    | true => simpa [p, he] using hd.symm
    | false =>
      have hd : (t.buckets.set pi b).countP Bucket.deleted + 1 = t.deleted.toNat := by
        simpa [p, he] using hd
      exact (toNat_pred (by omega)).trans (by omega)
  have hcount : t.usedAfter pi = (t.buckets.set pi b).countP fun b => !b.empty := by
    rw [usedAfter]
    cases he : p.empty with
    | true => simpa [p, he] using hu.symm
    | false => simpa [p, he] using hu.symm
  exact {
    wf := {
      table   := hw
      used    := hused.trans hcount
      deleted := hdeleted
      first   := fun i h => first_set w.first (s.lt.le.trans w.le) b h
      two_le  := w.two_le.trans_eq hlen.symm
      le      := hlen.trans_le w.le
    }
    perm  := hp
    dim   := hlen
    used  := hused
    later := .set hbe rfl rfl
  }

omit [EquivBEq K] in
theorem Filled.hasEmpty {t' : Impl K V} {e : Entry K V} (h : Filled t t' e pi)
    (hu : t.usedAfter pi < t.dim) : t'.HasEmpty := by
  rwa [HasEmpty, h.used, h.dim]

-- What the choice of a slot for a new key does to an array.
structure Slotted (t t' : Impl K V) (key : K) (pi : Nat) : Prop where
  wf       : t'.Wf
  perm     : (entries t'.buckets).Perm (entries t.buckets)
  slot     : InsertSlot t' key pi
  hasEmpty : t.HasEmpty → t'.HasEmpty
  room     : t.HasEmpty → t.fillsLast (calcHash key) = false → t'.usedAfter pi < t'.dim
  later    : Later t t'

theorem Wf.findSlotInsert_spec (w : t.Wf) (key : K) :
    (findSlotInsert t.buckets (calcHash key)).Post (InsertSlot t key)
      (fun e => e = .endless ∧ ¬t.HasEmpty) := by
  apply (w.table.findSlotInsert_spec key).mono
  · exact fun i ⟨hi, hn, hr⟩ => ⟨hi, hn, hr⟩
  · intro e ⟨he, hl⟩
    have hu := w.used_eq
    have hd : t.dim = (entries t.buckets).length := hl
    exact ⟨he, by rw [HasEmpty]; omega⟩

-- After growing, the slot that the second search finds is truly empty.
theorem Wf.slotForInsert_grown (w : t.Wf) (h : t.exceedsLoad) (key : K) :
    (do
      let t ← t.grow
      let pi ← findSlotInsert t.buckets (calcHash key)
      if !(bucketAt t.buckets pi).empty then
        throw .assertion
      return (t, pi) : Except AAError (Impl K V × Nat)).Post
      (fun (t', pi) => Slotted t t' key pi) (fun _ => False) := by
  refine (w.grow_spec h).bind fun t' ⟨ndim, r, hl⟩ => ?_
  have he : t'.HasEmpty := by
    rw [HasEmpty, r.used, r.dim]
    omega
  have hs := (r.wf.findSlotInsert_spec key).mono (fun _ h => h) fun _ h => h.2 he
  refine hs.bind fun pi s => ?_
  have hd : (bucketAt t'.buckets pi).deleted = false := by
    rw [bucketAt_eq_getElem s.lt]
    exact r.loading.noDeleted _ (List.getElem_mem s.lt)
  have hpe : (bucketAt t'.buckets pi).empty := by
    simpa [hd] using ((r.wf.table.okAt pi).deleted_eq_not_empty s.free).symm
  simp only [hpe, Bool.not_true, Bool.false_eq_true, if_false]
  refine ⟨r.wf, r.perm, s, fun _ => he, fun _ _ => ?_, r.later⟩
  rw [usedAfter, r.used, r.dim, hpe]
  exact hl

theorem Wf.slotForInsert_spec (w : t.Wf) (key : K) :
    (slotForInsert t (calcHash key)).Post (fun (t', pi) => Slotted t t' key pi)
      (fun e => e = .endless ∧ ¬t.HasEmpty) := by
  refine (w.findSlotInsert_spec key).with_eq.bind fun pi ⟨hf, s⟩ => ?_
  have hd := (w.table.okAt pi).deleted_eq_not_empty s.free
  split
  case isTrue h =>
    have hl : t.exceedsLoad := (Bool.and_eq_true_iff.mp h).2
    exact (w.slotForInsert_grown hl key).mono (fun _ h => h) fun _ h => h.elim
  case isFalse h =>
    refine ⟨w, .rfl, s, fun he => he, fun he hl => ?_, .refl t⟩
    rw [usedAfter]
    rw [HasEmpty] at he
    rw [fillsLast, hf] at hl
    cases hb : (bucketAt t.buckets pi).empty with
    | false => exact he
    | true =>
      simp only [hd, hb, Bool.not_true, Bool.not_false, Bool.true_and, Bool.not_eq_true] at h
      simp only [h, hb, Bool.not_false, Bool.true_and, beq_eq_false_iff_ne] at hl
      exact Nat.lt_of_le_of_ne he hl

-- Some key is in the table or it is not.
theorem Wf.findSlotLookup_cases [LawfulHashable K] (w : t.Wf) (he : t.HasEmpty) (key : K) :
    (∃ i e, findSlotLookup t.buckets (calcHash key) key = .ok (some i) ∧
      (bucketAt t.buckets i).entry = some e ∧ key == e.key) ∨
    findSlotLookup t.buckets (calcHash key) key = .ok none ∧ Absent t.buckets key := by
  have h := w.findSlotLookup_spec key
  cases hf : findSlotLookup t.buckets (calcHash key) key with
  | error e =>
    rw [hf] at h
    exact absurd he h.2
  | ok r =>
    rw [hf] at h
    cases r with
    | none => exact .inr ⟨rfl, h⟩
    | some i =>
      have ⟨e, hi, hk⟩ := h
      exact .inl ⟨i, e, rfl, hi, hk⟩

-- Deleting the entry of a bucket.
theorem Wf.delete_spec (w : t.Wf) {i : Nat} {e : Entry K V}
    (he : (bucketAt t.buckets i).entry = some e) :
    let t' := { t with buckets := t.buckets.set i ⟨HASH_DELETED, none⟩, deleted := t.deleted + 1 }
    t'.Wf ∧ (e :: entries t'.buckets).Perm (entries t.buckets) ∧ Later t t' := by
  have hi := lt_length_of_entry he
  have hb := (w.table.okAt i).eq_filled he
  let b : Bucket K V := ⟨HASH_DELETED, none⟩
  have ⟨hw, hp⟩ := w.table.remove he
  have hu := @countP_set_add K V (fun b => !b.empty) t.buckets i b hi
  have hd := @countP_set_add K V Bucket.deleted t.buckets i b hi
  have hlen : (t.buckets.set i b).length = t.dim := List.length_set ..
  have hbe : b.empty = false := rfl
  have hbd : b.deleted = true := rfl
  rw [hb, Bucket.Ok.empty_filled, hbe] at hu
  rw [hb, Bucket.Ok.deleted_filled, hbd] at hd
  have hdle := w.used_eq
  have hule := w.used_le
  have hle := w.le
  have hwf : Impl.Wf { t with buckets := t.buckets.set i b, deleted := t.deleted + 1 } := by
    constructor
    case table => exact hw
    case used => exact w.used.trans (Nat.add_right_cancel hu).symm
    case deleted => exact ((toNat_succ (by omega)).trans (by rw [w.deleted]; rfl)).trans hd.symm
    case first =>
      intro j hj
      have hj := w.first j hj
      by_cases hij : i = j
      case pos =>
        rw [← hij] at hj
        rw [hj] at he
        cases he
      case neg => exact (bucketAt_set_ne hij).trans hj
    case two_le => exact w.two_le.trans_eq hlen.symm
    case le => exact hlen.trans_le w.le
  exact ⟨hwf, hp, .set hbe rfl rfl⟩

-- What `_d_aaDel` returns for a key and leaves behind.
inductive DelResult (t : Impl K V) (key : K) : Bool → Impl K V → Prop
  | deleted {e : Entry K V} {t' : Impl K V} (eq : key == e.key)
      (perm : (e :: entries t'.buckets).Perm (entries t.buckets)) : DelResult t key true t'
  | absent (absent : Absent t.buckets key) : DelResult t key false t

omit [EquivBEq K] in
theorem Wf.absent_of_length_eq_zero (w : t.Wf) (h : t.length = 0) : Absent t.buckets key :=
  TableWf.absent_of_entries_nil (List.eq_nil_of_length_eq_zero (w.length_eq ▸ h))

theorem Wf.aaDel_spec [LawfulHashable K] (w : t.Wf) (key : K) (inFinalizer : Bool) :
    (_d_aaDel (some t) key inFinalizer).Post
      (fun (r, a) => ∃ t', a = some t' ∧ t'.Wf ∧ DelResult t key r t' ∧ Later t t' ∧
        (t.HasEmpty → t'.HasEmpty))
      (fun e => e = .endless ∧ ¬t.HasEmpty) := by
  simp only [_d_aaDel]
  split
  case isTrue h =>
    have hl := AA.empty_some_iff.mp h
    exact ⟨t, rfl, w, .absent (w.absent_of_length_eq_zero hl), .refl t, fun h => h⟩
  case isFalse =>
    refine (w.findSlotLookup_spec key).bind fun r hr => ?_
    cases r with
    | none => exact ⟨t, rfl, w, .absent hr, .refl t, fun h => h⟩
    | some i =>
      obtain ⟨e, he, hk⟩ := hr
      obtain ⟨hw, hp, hl⟩ := w.delete_spec he
      show Except.Post (ite _ _ _) _ _
      split
      case isTrue hs =>
        have hs := hw.shrink_spec hs.1
        refine (hs.mono (fun _ h => h) fun _ h => h.elim).bind fun t' ht' => ?_
        obtain ⟨hw', hp', he', hl'⟩ := ht'
        refine ⟨t', rfl, hw', .deleted hk ((hp'.cons e).trans hp), hl.trans hl', fun h => he' ?_⟩
        rw [HasEmpty, Impl.dim, List.length_set]
        exact h
      case isFalse =>
        refine ⟨_, rfl, hw, .deleted hk hp, hl, fun h => ?_⟩
        rw [HasEmpty, Impl.dim, List.length_set]
        exact h

end Impl

-- A value expression that does not touch the array.
def yields (v : V) : LazyValue K V :=
  fun a => .ok (some v, a)

namespace Impl

variable {t : Impl K V}

-- What `_aaGetX` returns for such a value and leaves behind.
inductive GetResult (t : Impl K V) (key : K) (v : V) : GetX V → Impl K V → Prop
  | found {e : Entry K V} (mem : e ∈ entries t.buckets) (eq : key == e.key) :
    GetResult t key v (.found e.value) t
  | inserted {t' : Impl K V} (absent : Absent t.buckets key)
      (perm : (entries t'.buckets).Perm (⟨key, v⟩ :: entries t.buckets)) :
    GetResult t key v (.inserted v) t'

theorem Wf.aaGetX_spec [LawfulHashable K] (w : t.Wf) (key : K) (v : V) :
    (_aaGetX (some t) key (yields v)).Post
      (fun (r, a) => ∃ t', a = some t' ∧ t'.Wf ∧ GetResult t key v r t' ∧ Later t t' ∧
        (t.HasEmpty → Absent t.buckets key → t.fillsLast (calcHash key) = false → t'.HasEmpty))
      (fun e => e = .endless ∧ ¬t.HasEmpty) := by
  show Except.Post (findSlotLookup t.buckets (calcHash key) key >>= fun i => _) _ _
  refine (w.findSlotLookup_spec key).bind fun r hr => ?_
  cases r with
  | some i =>
    have ⟨e, he, hk⟩ := hr
    have hm := mem_entries_iff.mpr ⟨i, he⟩
    simp only [Option.bind_some, he]
    exact ⟨t, rfl, w, .found hm hk, .refl t, fun h _ _ => h⟩
  | none =>
    refine (w.slotForInsert_spec key).bind fun (t₁, pi) s => ?_
    have ha : Absent t₁.buckets key := Absent.perm hr s.perm
    have f := s.wf.fillSlot_spec s.slot ha v
    refine ⟨_, rfl, f.wf, .inserted hr (f.perm.trans (s.perm.cons _)), s.later.trans f.later, ?_⟩
    intro he _ hl
    exact f.hasEmpty (s.room he hl)

end Impl
end Runtime.NewAA

namespace Runtime.NewAA

variable {K V : Type _} [BEq K] [Hashable K] {key : K} {v : V}

def Entry.pair (e : Entry K V) : K × V :=
  (e.key, e.value)

-- The entries of a well-formed array are those of a finite map.
structure Impl.Models (t : Impl K V) (m : AssocMap K V) : Prop where
  wf   : t.Wf
  perm : ((entries t.buckets).map Entry.pair).Perm m.toList

-- The abstraction relation: null is the empty map, and every other array has an empty bucket left.
inductive Represents : AA K V → AssocMap K V → Prop
  | null : Represents none ∅
  | impl {t : Impl K V} {m : AssocMap K V} (models : t.Models m) (hasEmpty : t.HasEmpty) :
    Represents (some t) m

namespace Impl.Models

variable {t t' : Impl K V} {m : AssocMap K V}

theorem mem_iff (h : t.Models m) {p : K × V} :
    p ∈ m.toList ↔ ∃ e ∈ entries t.buckets, e.pair = p := by
  rw [← h.perm.mem_iff, List.mem_map]

theorem absent_iff (h : t.Models m) : Absent t.buckets key ↔ m.get? key = none := by
  rw [AssocMap.get?_eq_none_iff]
  constructor
  case mp =>
    intro ha p hp
    have ⟨e, he, hp⟩ := h.mem_iff.mp hp
    exact hp ▸ ha e he
  case mpr => exact fun hn e he => hn e.pair (h.mem_iff.mpr ⟨e, he, rfl⟩)

theorem length_eq (h : t.Models m) : t.length = m.size := by
  rw [h.wf.length_eq, AssocMap.size, ← h.perm.length_eq, List.length_map]

theorem of_perm (h : t.Models m) (w : t'.Wf) (hp : (entries t'.buckets).Perm (entries t.buckets)) :
    t'.Models m :=
  ⟨w, (hp.map _).trans h.perm⟩

variable [EquivBEq K]

theorem get?_of_mem (h : t.Models m) {e : Entry K V} (he : e ∈ entries t.buckets)
    (hk : key == e.key) : m.get? key = some e.value :=
  AssocMap.get?_eq_some_iff.mpr ⟨e.pair, h.mem_iff.mpr ⟨e, he, rfl⟩, hk, rfl⟩

omit [EquivBEq K] in
theorem insertIfNew (h : t.Models m) (w : t'.Wf) (ha : Absent t.buckets key)
    (hp : (entries t'.buckets).Perm (⟨key, v⟩ :: entries t.buckets)) :
    t'.Models (m.insertIfNew key v) where
  wf   := w
  perm := by
    rw [AssocMap.insertIfNew_of_none (h.absent_iff.mp ha)]
    exact (hp.map Entry.pair).trans (h.perm.cons (key, v))

theorem erase (h : t.Models m) (w : t'.Wf) {e : Entry K V} (hk : key == e.key)
    (hp : (e :: entries t'.buckets).Perm (entries t.buckets)) : t'.Models (m.erase key) where
  wf   := w
  perm := AssocMap.erase_perm hk ((hp.map Entry.pair).trans h.perm)

-- What insert-or-get returns, in terms of the map.
theorem getResult (h : t.Models m) (w : t'.Wf) {r : GetX V} (hr : GetResult t key v r t') :
    t'.Models (m.insertIfNew key v) ∧ r = (m.get? key).elim (.inserted v) .found := by
  cases hr with
  | found hm hk =>
    have hg := h.get?_of_mem hm hk
    rw [AssocMap.insertIfNew_of_some hg, hg]
    exact ⟨h, rfl⟩
  | inserted ha hp =>
    rw [h.absent_iff.mp ha]
    exact ⟨h.insertIfNew w ha hp, rfl⟩

theorem delResult (h : t.Models m) (w : t'.Wf) {r : Bool} (hr : DelResult t key r t') :
    t'.Models (m.erase key) ∧ r = (m.get? key).isSome := by
  cases hr with
  | @deleted e _ hk hp =>
    have hm := hp.mem_iff.mp List.mem_cons_self
    rw [h.get?_of_mem hm hk]
    exact ⟨h.erase w hk hp, rfl⟩
  | absent ha =>
    have hn := h.absent_iff.mp ha
    rw [hn]
    exact ⟨⟨w, AssocMap.erase_of_none hn ▸ h.perm⟩, rfl⟩

end Impl.Models

-- The implementation that `_aaGetX` works on, a new one for a null array.
theorem Represents.base {a : AA K V} {m : AssocMap K V} (h : Represents a m) :
    ∃ t, a.elim (Impl.new INIT_NUM_BUCKETS) .ok = .ok t ∧ t.Models m ∧ t.HasEmpty ∧
      (a = some t ∨ a = none ∧ t = Impl.ofDim INIT_NUM_BUCKETS) := by
  cases h with
  | impl hm he => exact ⟨_, rfl, hm, he, .inl rfl⟩
  | null =>
    have ⟨hw, he, hn⟩ := @Impl.ofDim_wf K V _ _ 3 (by decide) (by decide)
    have hp : ((entries (Impl.ofDim (2 ^ 3) : Impl K V).buckets).map Entry.pair).Perm [] := by
      rw [hn]
      exact .nil
    exact ⟨_, Impl.new_eq (by decide), ⟨hw, hp⟩, he, .inr ⟨rfl, rfl⟩⟩

end Runtime.NewAA
