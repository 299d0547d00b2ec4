import DmdModel.Runtime.NewAA.Theorems.Operations

namespace Runtime.NewAA

-- The number of buckets for which `nextpow2` is a power of two: `1 << s` is an `int`.
theorem nextpow2_spec {n : Nat} (h2 : 2 ≤ n) (hn : n ≤ 2 ^ 30) :
    ∃ k, nextpow2 n = 2 ^ k ∧ n ≤ 2 ^ k ∧ 2 ≤ 2 ^ k ∧ 2 ^ k ≤ 2 ^ 31 := by
  have h0 : n ≠ 0 := by omega
  have hlog : 2 ^ n.log2 ≤ n := Nat.log2_self_le h0
  have hlt : n < 2 ^ (n.log2 + 1) := Nat.lt_log2_self
  have hshift {s : Nat} (hs : s ≤ 30) : intShl s = 2 ^ s := by
    have hm : s % 32 = s := Nat.mod_eq_of_lt (by omega)
    rw [intShl, hm, if_neg (by omega)]
  have hpow : (n - 1) &&& n = 0 ↔ n.isPowerOfTwo := by
    rw [Nat.and_comm, Nat.and_sub_one_eq_zero_iff_isPowerOfTwo h0]
  rw [nextpow2, if_neg h0]
  by_cases hp : n.isPowerOfTwo
  case pos =>
    have ⟨j, hj⟩ := hp
    have hl : n.log2 = j := by rw [hj, Nat.log2_two_pow]
    have hj30 : j ≤ 30 := (Nat.pow_le_pow_iff_right Nat.one_lt_two).mp (hj ▸ hn)
    refine ⟨j, ?_, hj.le, by omega, by omega⟩
    simp only [hpow.mpr hp, if_true, hl, Nat.add_zero]
    exact hshift hj30
  case neg =>
    have hl : n.log2 + 1 ≤ 30 := by
      have hle : n.log2 ≤ 30 := (Nat.pow_le_pow_iff_right Nat.one_lt_two).mp (hlog.trans hn)
      have hne : n.log2 ≠ 30 := by
        intro he
        rw [he] at hlog
        exact hp ⟨30, by omega⟩
      omega
    refine ⟨n.log2 + 1, ?_, hlt.le, by omega, ?_⟩
    · have hn : ¬(n - 1) &&& n = 0 := mt hpow.mp hp
      simp only [hn, if_false]
      exact hshift hl
    · exact Nat.pow_le_pow_right Nat.two_pos (by omega)

-- The most entries for which a literal or a rehash gets the number of buckets it asks for.
def maxFit : Nat := 483183821

theorem buckets_spec {n : Nat} (h0 : n ≠ 0) (hn : n ≤ maxFit) :
    ∃ k, nextpow2 (INIT_DEN * n / INIT_NUM) = 2 ^ k ∧ n < 2 ^ k ∧ 2 ≤ 2 ^ k ∧ 2 ^ k ≤ 2 ^ 31 := by
  have hc : INIT_DEN = 40 ∧ INIT_NUM = 18 := ⟨rfl, rfl⟩
  rw [maxFit] at hn
  rw [hc.1, hc.2]
  have hle : 40 * n / 18 ≤ 2 ^ 30 := by omega
  have hlt : n < 40 * n / 18 := by omega
  have ⟨k, hk, hle', h⟩ := nextpow2_spec (by omega : 2 ≤ 40 * n / 18) hle
  exact ⟨k, hk, by omega, h⟩

variable {K V : Type _} [BEq K] [EquivBEq K] [Hashable K]

namespace Represents

variable {a : AA K V} {m : AssocMap K V}

omit [EquivBEq K] in
theorem length_eq (h : Represents a m) : a.length = m.size := by
  cases h with
  | null => rfl
  | impl hm _ => exact hm.length_eq

omit [EquivBEq K] [Hashable K] in
theorem eq_empty_of_size (h : m.size = 0) : m = ∅ := by
  cases m with
  | mk l d =>
    cases List.eq_nil_of_length_eq_zero h
    rfl

theorem aaRehash (h : Represents a m) (hn : m.size ≤ maxFit) :
    ∃ a', _aaRehash a = .ok a' ∧ Represents a' m := by
  cases h with
  | null => exact ⟨none, rfl, .null⟩
  | @impl t _ hm he =>
    rw [_aaRehash]
    by_cases h0 : t.length = 0
    case pos =>
      rw [if_pos (AA.empty_some_iff.mpr h0)]
      exact ⟨_, rfl, .impl hm he⟩
    case neg =>
      have ⟨k, hk, hlt, hge, hle⟩ := buckets_spec h0 (hm.length_eq ▸ hn)
      rw [if_neg (mt AA.empty_some_iff.mp h0), hk]
      refine ((hm.wf.resize_spec hle hge hlt.le).bind fun t' r => ?_).exists_ok
      refine .impl (hm.of_perm r.wf r.perm) ?_
      rw [Impl.HasEmpty, r.used, r.dim]
      exact hlt

end Represents

-- A new table that a loop fills: its counters are set at the end.
structure Filling (t : Impl K V) (k : Nat) : Prop where
  loading : Loading t.buckets
  deleted : t.deleted = 0
  first   : ∀ i < t.firstUsed.toNat, bucketAt t.buckets i = .init
  dim     : t.dim = 2 ^ k

namespace Filling

variable {t : Impl K V} {k : Nat}

omit [EquivBEq K] in
theorem ofDim (hge : 2 ≤ 2 ^ k) (hle : 2 ^ k ≤ 2 ^ 31) :
    Filling (.ofDim (2 ^ k) : Impl K V) k where
  loading := .replicate k
  deleted := rfl
  first   := (Impl.ofDim_wf hge hle).1.first
  dim     := List.length_replicate

omit [EquivBEq K] in
theorem set (f : Filling t k) (hle : 2 ^ k ≤ 2 ^ 31) {pi : Nat} {b : Bucket K V} (hpi : pi < t.dim)
    (hl : Loading (t.buckets.set pi b)) :
    Filling { t with buckets := t.buckets.set pi b, firstUsed := min t.firstUsed pi.toUInt32 } k where
  loading := hl
  deleted := f.deleted
  first   := fun _ h => Impl.first_set f.first (hpi.le.trans (f.dim ▸ hle)) b h
  dim     := (List.length_set ..).trans f.dim

omit [EquivBEq K] in
theorem done (f : Filling t k) (hge : 2 ≤ 2 ^ k) (hle : 2 ^ k ≤ 2 ^ 31) {n : Nat}
    (hn : n = (entries t.buckets).length) (hlt : n < 2 ^ k) :
    Impl.Wf { t with used := n.toUInt32 } ∧ Impl.HasEmpty { t with used := n.toUInt32 } := by
  have hu : n.toUInt32.toNat = n := Impl.toNat_toUInt32 (by omega)
  have hd := f.dim
  have hw := @Loading.wf K V _ _ { t with used := n.toUInt32 } f.loading (hu.trans hn) f.deleted
    f.first (hd ▸ hge) (hd ▸ hle)
  exact ⟨hw, by rw [Impl.HasEmpty, hu]; exact hlt.trans_eq hd.symm⟩

end Filling

theorem Copying.dupBucket_spec {src : List (Bucket K V)} {all : List (Entry K V)} {b : Bucket K V}
    {t : Impl K V} {k : Nat} (sameHash : Bool) (c : Copying (b :: src) all t.buckets)
    (f : Filling t k) (hle : 2 ^ k ≤ 2 ^ 31) :
    (dupBucket sameHash t b).Post (fun t' => Copying src all t'.buckets ∧ Filling t' k)
      (fun _ => False) := by
  have hb := c.ok b List.mem_cons_self
  rw [dupBucket, hb.filled_eq]
  cases he : b.entry with
  | none => exact ⟨c.skip he, f⟩
  | some e =>
    have hh : (if sameHash then b.hash else calcHash e.key) = calcHash e.key := by
      rw [hb.eq_filled he, ite_self]
    simp only [Option.isSome_some, hh]
    exact (c.place he).bind fun i ⟨hi, _, hc⟩ => ⟨hc, f.set hle hi hc.loading⟩

theorem Represents.aaDup {a : AA K V} {m : AssocMap K V} (h : Represents a m) (sameHash : Bool) :
    ∃ a', _aaDup a sameHash = .ok a' ∧ Represents a' m := by
  cases h with
  | null => exact ⟨none, rfl, .null⟩
  | @impl t _ hm he =>
    simp only [_aaDup]
    by_cases h0 : t.length = 0
    case pos =>
      rw [if_pos h0]
      exact ⟨none, rfl, eq_empty_of_size (hm.length_eq ▸ h0) ▸ .null⟩
    case neg =>
      rw [if_neg h0]
      have ⟨k, hk⟩ := hm.wf.table.size
      have hk : t.dim = 2 ^ k := hk
      have hge := hm.wf.two_le
      have hle := hm.wf.le
      have hlt : t.length < 2 ^ k := hk ▸ Nat.lt_of_le_of_lt hm.wf.length_le he
      let src := t.buckets.drop t.firstUsed.toNat
      let I rest (t' : Impl K V) := Copying rest (entries t.buckets) t'.buckets ∧ Filling t' k
      have hp : (do
          let impl ← Impl.new t.dim
          let impl ← src.foldlM (dupBucket sameHash) impl
          return some { impl with used := t.length.toUInt32 } : Except AAError (AA K V)).Post
          (fun a' => Represents a' m) (fun _ => False) := by
        rw [hk, Impl.new_eq (hk ▸ hle)]
        have hstart : I src (.ofDim (2 ^ k)) :=
          ⟨.start hm.wf hlt.le, .ofDim (hk ▸ hge) (hk ▸ hle)⟩
        have hloop := Except.Post.foldlM_rest I (fun b rest t' ⟨hc, hf⟩ =>
          hc.dupBucket_spec sameHash hf (hk ▸ hle)) hstart
        refine hloop.bind fun t' ⟨hc, hf⟩ => ?_
        have hperm : (entries t'.buckets).Perm (entries t.buckets) := hc.perm
        have hn : t.length = (entries t'.buckets).length := by
          rw [hm.wf.length_eq, hperm.length_eq]
        have ⟨hw, he'⟩ := hf.done (hk ▸ hge) (hk ▸ hle) hn hlt
        exact .impl (hm.of_perm hw hperm) he'
      exact hp.exists_ok

section Literal

variable [LawfulHashable K] {t : Impl K V} {k : Nat} {m : AssocMap K V}

-- A table with room for one more entry has an empty bucket.
omit [EquivBEq K] [LawfulHashable K] in
theorem Filling.exists_empty (f : Filling t k) (h : (entries t.buckets).length < 2 ^ k)
    (hn : ∀ i < t.buckets.length, (bucketAt t.buckets i).empty = false) : False := by
  have hc := countP_not_empty_of_full hn
  have hd : t.buckets.length = 2 ^ k := f.dim
  rw [f.loading.countP_not_empty] at hc
  omega

-- The state of the loop of a literal: the table stands for the map of the entries so far.
structure LiteralState (t : Impl K V) (k : Nat) (m : AssocMap K V) : Prop where
  filling : Filling t k
  perm    : ((entries t.buckets).map Entry.pair).Perm m.toList

-- One entry sets a value or takes a new bucket.
theorem LiteralState.literalEntry_spec (s : LiteralState t k m) (hle : 2 ^ k ≤ 2 ^ 31)
    (hroom : m.size < 2 ^ k) (n : Nat) (e : Entry K V) :
    (literalEntry (t, n) e).Post
      (fun (t', n') => LiteralState t' k (m.insert e.key e.value) ∧
        n' + (m.insert e.key e.value).size = n + m.size + 1)
      (fun _ => False) := by
  have hlen : (entries t.buckets).length = m.size := by
    rw [AssocMap.size, ← s.perm.length_eq, List.length_map]
  have hl := (s.filling.loading.table.findSlotLookup_spec e.key).mono (fun _ h => h)
    fun _ h => s.filling.exists_empty (hlen ▸ hroom) h.2.2
  refine hl.bind fun r hr => ?_
  cases r with
  | some i =>
    obtain ⟨old, he, hk⟩ := hr
    obtain ⟨hw, l, hp, hp'⟩ := s.filling.loading.table.setValue he e.value
    have hb := (s.filling.loading.table.okAt i).eq_filled he
    have hi := lt_length_of_entry he
    have hm : m.get? e.key = some old.value := by
      refine AssocMap.get?_eq_some_iff.mpr ⟨old.pair, ?_, hk, rfl⟩
      exact s.perm.mem_iff.mp (List.mem_map_of_mem (mem_entries_iff.mpr ⟨i, he⟩))
    rw [AssocMap.insert_of_some hm, AssocMap.size_replace]
    simp only [hb]
    let b : Bucket K V := ⟨calcHash old.key, some ⟨old.key, e.value⟩⟩
    have hd : ∀ b' ∈ t.buckets.set i b, b'.deleted = false := by
      intro b' hb'
      cases List.mem_or_eq_of_mem_set hb' with
      | inl hb' => exact s.filling.loading.noDeleted b' hb'
      | inr he => exact he ▸ Bucket.Ok.deleted_filled ⟨old.key, e.value⟩
    refine ⟨⟨⟨⟨hw, hd⟩, s.filling.deleted, ?_, ?_⟩, ?_⟩, by omega⟩
    · intro j hj
      have hj := s.filling.first j hj
      by_cases hij : i = j
      case pos =>
        rw [← hij, hb] at hj
        have := congrArg Bucket.entry hj
        cases this
      case neg => exact (bucketAt_set_ne hij).trans hj
    · exact (List.length_set ..).trans s.filling.dim
    · have hp := (hp.map Entry.pair).trans s.perm
      exact (hp'.map Entry.pair).symm.trans (AssocMap.replace_perm hk hp)
  | none =>
    have hm : m.get? e.key = none := by
      refine AssocMap.get?_eq_none_iff.mpr fun p hp => ?_
      obtain ⟨e', he', hp⟩ := List.mem_map.mp (s.perm.mem_iff.mpr hp)
      exact hp ▸ hr e' he'
    have hdim : t.buckets.length = 2 ^ k := s.filling.dim
    refine (s.filling.loading.place hr (by omega)).bind fun i hi => ?_
    obtain ⟨hi, _, hl, hp⟩ := hi
    have hperm := (hp.map Entry.pair).trans (s.perm.cons e.pair)
    have hs : (m.insert e.key e.value).size = m.size + 1 := by
      rw [AssocMap.size, AssocMap.insert_of_none hm]
      rfl
    refine ⟨⟨s.filling.set hle hi hl, ?_⟩, by omega⟩
    rw [AssocMap.insert_of_none hm]
    exact hperm

theorem Represents.aaLiteral {es : List (Entry K V)} (hn : es.length ≤ maxFit) :
    ∃ a, _d_assocarrayliteralTX es = .ok a ∧ Represents a (.ofList (es.map Entry.pair)) := by
  rw [_d_assocarrayliteralTX]
  by_cases h0 : es.length = 0
  case pos =>
    rw [if_pos h0, List.eq_nil_of_length_eq_zero h0]
    exact ⟨none, rfl, .null⟩
  case neg =>
    obtain ⟨k, hk, hlt, hge, hle⟩ := buckets_spec h0 hn
    rw [if_neg h0, hk, Impl.new_eq hle]
    -- the entries that are still to come, in a map with those before them, give the whole map
    let I (rest : List (Entry K V)) (acc : Impl K V × Nat) := ∃ m, LiteralState acc.1 k m ∧
      acc.2 + m.size + rest.length = es.length ∧
      rest.foldl (fun m e => m.insert e.key e.value) m = .ofList (es.map Entry.pair)
    have hstart : I es (.ofDim (2 ^ k), 0) := by
      refine ⟨∅, ⟨.ofDim hge hle, ?_⟩, ?_, ?_⟩
      · rw [(Impl.ofDim_wf hge hle).2.2]
        exact .nil
      · exact Nat.zero_add _
      · rw [AssocMap.ofList, List.foldl_map]
        rfl
    have hloop : (es.foldlM literalEntry (.ofDim (2 ^ k), 0)).Post (I []) (fun _ => False) := by
      refine Except.Post.foldlM_rest I (fun e rest (t, n) ⟨m, hs, hc, hm⟩ => ?_) hstart
      rw [List.length_cons] at hc
      apply (hs.literalEntry_spec hle (by omega) n e).mono _ fun _ h => h
      exact fun (t', n') ⟨hs', hc'⟩ => ⟨_, hs', by omega, hm⟩
    refine (hloop.bind fun (t, n) ⟨m, hs, hc, hm⟩ => ?_).exists_ok
    have hm : m = .ofList (es.map Entry.pair) := hm
    have hlen : (entries t.buckets).length = m.size := by
      rw [AssocMap.size, ← hs.perm.length_eq, List.length_map]
    have hc : n + m.size = es.length := hc
    obtain ⟨hw, he⟩ := hs.filling.done hge hle (by omega : es.length - n = (entries t.buckets).length)
      (by omega)
    exact hm ▸ .impl ⟨hw, hs.perm⟩ he

end Literal
end Runtime.NewAA
