import DmdModel.Runtime.NewAA.Theorems.Slots

namespace Runtime.NewAA

variable {K V : Type _} [BEq K] [Hashable K]

omit [BEq K] [Hashable K] in
theorem allocBuckets_eq {dim : Nat} (h : dim ≤ 2 ^ 31) :
    allocBuckets dim = .ok (List.replicate dim (.init : Bucket K V)) :=
  if_pos (by omega)

namespace Impl

-- As long as the bucket array is not replaced, it keeps its size and no bucket gets empty.
structure Later (t t' : Impl K V) : Prop where
  generation : t.generation ≤ t'.generation
  dim        : t'.generation = t.generation → t'.dim = t.dim
  nonempty   : t'.generation = t.generation → ∀ i, (bucketAt t.buckets i).empty = false →
    (bucketAt t'.buckets i).empty = false

namespace Later

variable {t t' t'' : Impl K V}

omit [BEq K] [Hashable K] in
theorem refl (t : Impl K V) : Later t t :=
  ⟨Nat.le_refl _, fun _ => rfl, fun _ _ h => h⟩

omit [BEq K] [Hashable K] in
theorem trans (h : Later t t') (h' : Later t' t'') : Later t t'' := by
  have hg := h.generation
  have hg' := h'.generation
  constructor
  case generation => exact hg.trans hg'
  case dim => exact fun he => (h'.dim (by omega)).trans (h.dim (by omega))
  case nonempty => exact fun he i hn => h'.nonempty (by omega) i (h.nonempty (by omega) i hn)

omit [BEq K] [Hashable K] in
theorem of_generation_lt (h : t.generation < t'.generation) : Later t t' :=
  ⟨h.le, fun he => absurd he h.ne', fun he => absurd he h.ne'⟩

omit [BEq K] [Hashable K] in
theorem set {i : Nat} {b : Bucket K V} (hb : b.empty = false) (hg : t'.generation = t.generation)
    (ht : t'.buckets = t.buckets.set i b) : Later t t' := by
  refine ⟨hg.ge, fun _ => ?_, fun _ j hj => ?_⟩
  · rw [Impl.dim, ht, List.length_set, Impl.dim]
  · rw [ht]
    exact bucketAt_set_not_empty hb hj

end Later

-- What `resize` does to an array.
structure Resized (t t' : Impl K V) (ndim : Nat) : Prop where
  wf         : t'.Wf
  dim        : t'.dim = ndim
  perm       : (entries t'.buckets).Perm (entries t.buckets)
  used       : t'.used.toNat = t.length
  loading    : Loading t'.buckets
  generation : t'.generation = t.generation + 1

theorem Resized.later {t t' : Impl K V} {ndim : Nat} (r : Resized t t' ndim) : Later t t' :=
  .of_generation_lt (r.generation ▸ Nat.lt_succ_self _)

namespace Wf

variable [EquivBEq K] {t : Impl K V}

theorem resize_spec (w : t.Wf) {k : Nat} (hle : 2 ^ k ≤ 2 ^ 31) (hge : 2 ≤ 2 ^ k)
    (hroom : t.length ≤ 2 ^ k) :
    (t.resize (2 ^ k)).Post (fun t' => Resized t t' (2 ^ k)) (fun _ => False) := by
  rw [Impl.resize, allocBuckets_eq hle]
  let src := t.buckets.drop t.firstUsed.toNat
  let I rest bs := Copying rest (entries t.buckets) bs ∧ bs.length = 2 ^ k
  have hstart : I src (.replicate (2 ^ k) .init) := ⟨.start w hroom, List.length_replicate⟩
  have hloop : (src.foldlM reinsert (List.replicate (2 ^ k) .init)).Post (I []) (fun _ => False) := by
    refine Except.Post.foldlM_rest I (fun b is bs ⟨hc, hl⟩ => ?_) hstart
    exact hc.reinsert_spec.mono (fun bs' ⟨hc', hl'⟩ => ⟨hc', hl'.trans hl⟩) fun _ h => h
  refine hloop.bind fun bs ⟨hc, hl⟩ => ?_
  have hp : (entries bs).Perm (entries t.buckets) := hc.perm
  have hu : (t.used - t.deleted).toNat = (entries bs).length := by
    rw [hp.length_eq, ← w.length_eq]
    rfl
  have hw := @Loading.wf K V _ _ {
    buckets   := bs
    used      := t.used - t.deleted
    deleted   := 0
    firstUsed := 0
    obuckets  := t.buckets :: t.obuckets } hc.loading hu rfl (fun i hi => by cases hi)
    (hge.trans_eq hl.symm) (hl.trans_le hle)
  exact ⟨hw, hl, hp, rfl, hc.loading, List.length_cons⟩

end Wf

omit [BEq K] [Hashable K] in
theorem exceedsLoad_dim_lt {t : Impl K V} (h : t.exceedsLoad) : t.dim < 2 ^ 30 := by
  have := ((t.used + 1) * GROW_DEN).toNat_lt
  have hn : GROW_NUM.toNat = 4 := rfl
  simp only [exceedsLoad, hn, decide_eq_true_eq] at h
  omega

-- Below 2^30 buckets the load check is exact, and an insertion leaves an empty bucket.
theorem Wf.used_succ_lt {t : Impl K V} (w : t.Wf) (h : t.exceedsLoad = false)
    (hd : t.dim < 2 ^ 30) : t.used.toNat + 1 < t.dim := by
  have ⟨k, hk⟩ := w.table.size
  have hd' : t.dim ≤ 2 ^ 29 := by
    have hk' : k < 30 := (Nat.pow_lt_pow_iff_right Nat.one_lt_two).mp (hk ▸ hd)
    rw [Impl.dim, hk]
    exact Nat.pow_le_pow_right Nat.two_pos (by omega)
  have hu := w.used_le
  have h2 := w.two_le
  have hm : ((t.used + 1) * GROW_DEN).toNat = (t.used.toNat + 1) * 5 := by
    have hg : GROW_DEN.toNat = 5 := rfl
    rw [UInt32.toNat_mul, UInt32.toNat_add, hg, UInt32.toNat_one,
      Nat.mod_eq_of_lt (by omega), Nat.mod_eq_of_lt (by omega)]
  have hn : GROW_NUM.toNat = 4 := rfl
  simp only [exceedsLoad, hm, hn, decide_eq_false_iff_not] at h
  omega

section

variable [EquivBEq K] {t : Impl K V}

-- After growing there is room for one more entry.
theorem Wf.grow_spec (w : t.Wf) (h : t.exceedsLoad) :
    t.grow.Post (fun t' => ∃ ndim, Resized t t' ndim ∧ t.length + 1 < ndim) (fun _ => False) := by
  have ⟨k, hk⟩ := w.table.size
  have hk : t.dim = 2 ^ k := hk
  have hd := exceedsLoad_dim_lt h
  have h2 := w.two_le
  have hl : t.length ≤ t.dim := w.length_le.trans w.used_le
  have h30 : k < 30 := (Nat.pow_lt_pow_iff_right Nat.one_lt_two).mp (hk ▸ hd)
  rw [grow]
  split
  case isTrue hp =>
    rw [hk]
    apply (w.resize_spec (by omega) (by omega) (by omega)).mono _ fun _ h => h
    refine fun t' r => ⟨_, r, ?_⟩
    have hs : SHRINK_DEN = 8 ∧ GROW_FAC = 4 ∧ SHRINK_NUM = 1 := ⟨rfl, rfl, rfl⟩
    rw [hs.1, hs.2.1, hs.2.2] at hp
    -- a power of two that is more than one is not three
    have h3 : t.dim ≠ 3 := by
      rw [hk]
      match k with
      | 0 | 1 => decide
      | k + 2 => rw [Nat.pow_add_one]; omega
    omega
  case isFalse =>
    have h4 : GROW_FAC * t.dim = 2 ^ (k + 2) := by
      rw [hk, Nat.pow_add, Nat.mul_comm]
      rfl
    have hle : 2 ^ (k + 2) ≤ 2 ^ 31 := Nat.pow_le_pow_right Nat.two_pos (by omega)
    have he : 2 ^ (k + 2) = 4 * t.dim := h4.symm
    rw [h4]
    apply (w.resize_spec hle (by omega) (by omega)).mono _ fun _ h => h
    exact fun t' r => ⟨_, r, by omega⟩

theorem Wf.shrink_spec (w : t.Wf) (h : t.length * SHRINK_DEN < t.dim * SHRINK_NUM) :
    t.shrink.Post
      (fun t' => t'.Wf ∧ (entries t'.buckets).Perm (entries t.buckets) ∧
        (t.HasEmpty → t'.HasEmpty) ∧ Later t t')
      (fun _ => False) := by
  have ⟨k, hk⟩ := w.table.size
  have hk : t.dim = 2 ^ k := hk
  have hs : SHRINK_DEN = 8 ∧ GROW_FAC = 4 ∧ SHRINK_NUM = 1 ∧ INIT_NUM_BUCKETS = 8 :=
    ⟨rfl, rfl, rfl, rfl⟩
  rw [hs.1, hs.2.2.1] at h
  rw [shrink, hs.2.1, hs.2.2.2]
  split
  case isFalse => exact ⟨w, .rfl, fun h => h, .refl t⟩
  case isTrue hd =>
    have h3 : 3 < k := (Nat.pow_lt_pow_iff_right Nat.one_lt_two).mp (hk ▸ hd)
    have ⟨j, hj⟩ : ∃ j, k = j + 2 := ⟨k - 2, by omega⟩
    have hdiv : t.dim / 4 = 2 ^ j := by
      rw [hk, hj, Nat.pow_add]
      exact Nat.mul_div_cancel _ (by decide)
    have hle := w.le
    rw [hdiv]
    apply (w.resize_spec (by omega) (by omega) (by omega)).mono _ fun _ h => h
    refine fun t' r => ⟨r.wf, r.perm, fun _ => ?_, r.later⟩
    rw [HasEmpty, r.used, r.dim]
    omega

end

theorem toNat_toUInt32 {n : Nat} (h : n ≤ 2 ^ 31) : n.toUInt32.toNat = n :=
  Nat.mod_eq_of_lt (by omega)

theorem toNat_succ {n : UInt32} (h : n.toNat ≤ 2 ^ 31) : (n + 1).toNat = n.toNat + 1 := by
  rw [UInt32.toNat_add, UInt32.toNat_one]
  exact Nat.mod_eq_of_lt (by omega)

theorem toNat_pred {n : UInt32} (h : 0 < n.toNat) : (n - 1).toNat = n.toNat - 1 :=
  UInt32.toNat_sub_of_le _ _ (UInt32.le_iff_toNat_le.mpr h)

theorem toNat_min (a b : UInt32) : (min a b).toNat = min a.toNat b.toNat := by
  have hm : min a b = if a ≤ b then a else b := rfl
  rw [hm]
  split
  case isTrue h => exact (Nat.min_eq_left (UInt32.le_iff_toNat_le.mp h)).symm
  case isFalse h =>
    exact (Nat.min_eq_right (Nat.le_of_not_le fun hle => h (UInt32.le_iff_toNat_le.mpr hle))).symm

omit [BEq K] [Hashable K] in
-- Lowering `firstUsed` to a bucket that is changed keeps all buckets below it empty.
theorem first_set {bs : List (Bucket K V)} {firstUsed : UInt32} {pi : Nat}
    (hf : ∀ i < firstUsed.toNat, bucketAt bs i = .init) (hpi : pi ≤ 2 ^ 31) (b : Bucket K V) {i : Nat}
    (h : i < (min firstUsed pi.toUInt32).toNat) : bucketAt (bs.set pi b) i = .init := by
  rw [toNat_min, toNat_toUInt32 hpi, Nat.lt_min] at h
  rw [bucketAt_set_ne (Nat.ne_of_gt h.2)]
  exact hf i h.1

-- An array without entries: all buckets are empty.
theorem wf_of_empty {t : Impl K V} {k : Nat} (hb : t.buckets = List.replicate (2 ^ k) .init)
    (hu : t.used = 0) (hd : t.deleted = 0) (hge : 2 ≤ 2 ^ k) (hle : 2 ^ k ≤ 2 ^ 31) :
    t.Wf ∧ t.HasEmpty ∧ entries t.buckets = [] := by
  have hl : Loading t.buckets := hb ▸ .replicate k
  have he : entries t.buckets = [] := hb ▸ TableWf.entries_replicate _
  have hdim : t.dim = 2 ^ k := by rw [Impl.dim, hb, List.length_replicate]
  have hw := hl.wf (by rw [hu, he]; rfl) hd (fun i _ => hb ▸ bucketAt_replicate) (hdim ▸ hge)
    (hdim ▸ hle)
  refine ⟨hw, ?_, he⟩
  rw [HasEmpty, hu, hdim]
  exact Nat.two_pow_pos k

theorem Wf.clear_buckets {t : Impl K V} (w : t.Wf) :
    t.clear.buckets = List.replicate t.dim .init := by
  refine List.eq_replicate_iff.mpr ⟨?_, fun b hb => ?_⟩
  · simp [clear, Impl.dim]
    omega
  · cases List.mem_append.mp hb with
    | inr hb => exact List.eq_of_mem_replicate hb
    | inl hb =>
      have ⟨i, hi, hb⟩ := List.mem_iff_getElem.mp hb
      rw [List.length_take, Nat.lt_min] at hi
      have he := w.first i hi.1
      rw [bucketAt_eq_getElem hi.2] at he
      rw [← hb, List.getElem_take, he]

theorem Wf.clear_spec {t : Impl K V} (w : t.Wf) :
    t.clear.Wf ∧ t.clear.HasEmpty ∧ entries t.clear.buckets = [] := by
  have ⟨k, hk⟩ := w.table.size
  have hk : t.dim = 2 ^ k := hk
  exact wf_of_empty (hk ▸ w.clear_buckets) rfl rfl (hk ▸ w.two_le) (hk ▸ w.le)

-- An array of empty buckets.
def ofDim (dim : Nat) : Impl K V where
  buckets   := .replicate dim .init
  used      := 0
  deleted   := 0
  firstUsed := dim.toUInt32
  obuckets  := []

omit [BEq K] [Hashable K] in
theorem new_eq {dim : Nat} (h : dim ≤ 2 ^ 31) :
    (Impl.new dim : Except AAError (Impl K V)) = .ok (ofDim dim) := by
  rw [Impl.new, allocBuckets_eq h, ofDim]
  show Except.ok _ = _
  rw [List.length_replicate]

theorem ofDim_wf {k : Nat} (hge : 2 ≤ 2 ^ k) (hle : 2 ^ k ≤ 2 ^ 31) :
    (ofDim (2 ^ k) : Impl K V).Wf ∧ (ofDim (2 ^ k) : Impl K V).HasEmpty ∧
      entries (ofDim (2 ^ k) : Impl K V).buckets = [] :=
  wf_of_empty rfl rfl rfl hge hle

end Impl
end Runtime.NewAA
