import DmdModel.Runtime.Container.Theorems.Resize
import DmdModel.Lib.AssocMap
import DmdModel.Lib.Lists

namespace Runtime.Container
namespace HashTab

open Visit

section chains

variable {α : Type _} {n : Nat}

-- The elements of a list, sorted into groups by a number below `n`.
theorem flatMap_filter_perm (l : List α) (f : α → Nat) :
    ((List.range n).flatMap fun i => l.filter fun x => f x = i).Perm
      (l.filter fun x => f x < n) := by
  induction n with
  | zero => simp
  | succ n hi =>
    have hp := List.filter_append_perm (fun x => decide (f x < n)) (l.filter fun x => f x < n + 1)
    rw [List.filter_filter, List.filter_filter] at hp
    have h₁ : (fun x => decide (f x < n) && decide (f x < n + 1)) = fun x => decide (f x < n) := by
      funext x
      by_cases h : f x < n
      · simp [h, Nat.lt_succ_of_lt h]
      · simp [h]
    have h₂ : (fun x => !decide (f x < n) && decide (f x < n + 1)) = fun x => decide (f x = n) := by
      funext x
      by_cases h : f x = n
      · simp [h]
      · by_cases hlt : f x < n
        · simp [h, hlt]
        · simp [h, hlt, show ¬f x < n + 1 by omega]
    rw [h₁, h₂] at hp
    rw [List.range_succ, List.flatMap_append, List.flatMap_singleton]
    exact (hi.append_right _).trans hp

end chains

variable {K V : Type _} [BEq K] [Hashable K] {t : HashTab K V} {m : AssocMap K V}
variable {key : K} {v : V} {p q i k : Nat}

def pair (t : HashTab K V) (p : Nat) : K × V :=
  ((t.nodes p).key, (t.nodes p).value)

-- The bucket of a key.
def index (t : HashTab K V) (key : K) : Nat :=
  hashOf key &&& t.mask

-- The table has the pairs of a map: each bucket has those whose keys it is selected for.
structure Represents (t : HashTab K V) (m : AssocMap K V) : Prop where
  idle   : t.inOpApply = false
  sizes  : t.nbuckets = 0 ∧ m.toList = [] ∨ ∃ k, t.nbuckets = 2 ^ (k + 2)
  length : t.length = m.size
  bucket : ∀ i < t.nbuckets,
    ((t.buckets i).map t.pair).Perm (m.toList.filter fun p => t.index p.1 = i)
  old    : ∀ i < t.nbuckets, ∀ p ∈ t.buckets i, p < t.free

-- The table after the node with a key was taken out of its chain.
def eraseNode (t : HashTab K V) (key : K) : HashTab K V :=
  { t with
    buckets := Function.update t.buckets (t.index key)
      ((t.buckets (t.index key)).eraseP fun p => t.key p == key)
    length  := t.length - 1 }

-- The node with the key that a pointer points to.
structure Holds (t : HashTab K V) (key : K) (p : Nat) : Prop where
  lt  : t.index key < t.nbuckets
  mem : p ∈ t.buckets (t.index key)
  eq  : key == t.key p

omit [BEq K] in
theorem index_lt (hn : t.nbuckets = 2 ^ k) : t.index key < t.nbuckets := by
  rw [index, mask, and_mask hn]
  exact Nat.mod_lt _ (hn ▸ Nat.two_pow_pos k)

omit [BEq K] in
theorem grow_index_mod (hn : t.nbuckets = 2 ^ k) : t.grow.index key % t.nbuckets = t.index key := by
  have hn' : t.grow.nbuckets = 2 ^ (k + 1) := by
    show 2 * t.nbuckets = _
    rw [hn, pow_succ, Nat.mul_comm]
  rw [index, mask, and_mask hn', hn', index, mask, and_mask hn, hn, pow_succ, Nat.mod_mul_right_mod]

theorem index_congr [LawfulHashable K] {key' : K} (h : key == key') : t.index key = t.index key' := by
  rw [index, index, hashOf, hashOf, hash_eq h]

namespace Represents

variable (h : t.Represents m)

include h

theorem index_key (hi : i < t.nbuckets) (hp : p ∈ t.buckets i) : t.index (t.key p) = i := by
  have hm := (h.bucket i hi).mem_iff.mp (List.mem_map_of_mem hp)
  exact of_decide_eq_true (List.mem_filter.mp hm).right

theorem pair_mem (hi : i < t.nbuckets) (hp : p ∈ t.buckets i) : t.pair p ∈ m.toList := by
  have hm := (h.bucket i hi).mem_iff.mp (List.mem_map_of_mem hp)
  exact (List.mem_filter.mp hm).left

theorem grow (hn : t.nbuckets ≠ 0) : t.grow.Represents m := by
  obtain ⟨h0, _⟩ | ⟨k, hk⟩ := h.sizes
  case inl => exact absurd h0 hn
  case inr =>
    have hn' : t.grow.nbuckets = 2 * t.nbuckets := rfl
    have hplace : ∀ i < t.nbuckets, ∀ p ∈ t.buckets i, t.place t.mask p = i :=
      fun i hi p hp => h.index_key hi hp
    have hb {i : Nat} (hi : i < t.grow.nbuckets) := grow_buckets hk hplace (hn' ▸ hi)
    have hlt (i : Nat) : i % t.nbuckets < t.nbuckets := Nat.mod_lt i (Nat.pos_of_ne_zero hn)
    refine ⟨h.idle, .inr ⟨k + 1, by rw [hn', hk]; ring⟩, h.length, fun i hi => ?_, fun i hi p hp => ?_⟩
    case refine_1 =>
      have hmap : ((t.buckets (i % t.nbuckets)).filter fun p => t.place t.grow.mask p = i).map t.pair =
          ((t.buckets (i % t.nbuckets)).map t.pair).filter fun q => t.grow.index q.1 = i := by
        rw [List.filter_map]
        rfl
      refine ((hb hi).map t.pair).trans ?_
      rw [hmap]
      refine ((h.bucket _ (hlt i)).filter _).trans ?_
      rw [List.filter_filter, List.filter_congr]
      intro q _
      by_cases hq : t.grow.index q.1 = i
      case pos =>
        have hm : t.index q.1 = i % t.nbuckets := by rw [← hq, grow_index_mod hk]
        simp [hq, hm]
      case neg => simp [hq]
    case refine_2 =>
      have hp := (hb hi).mem_iff.mp hp
      exact h.old _ (hlt i) p (List.mem_of_mem_filter hp)

theorem shrink (hn : t.nbuckets = 2 ^ (k + 3)) : t.shrink.Represents m := by
  have hn' : t.shrink.nbuckets = 2 ^ (k + 2) := shrink_nbuckets hn
  have h2 : t.nbuckets = 2 ^ (k + 2) + 2 ^ (k + 2) := by
    rw [hn]
    ring
  refine ⟨h.idle, .inr ⟨k, hn'⟩, h.length, fun i hi => ?_, fun i hi p hp => ?_⟩
  case refine_1 =>
    rw [hn'] at hi
    have hl := h.bucket i (by omega)
    have hr := h.bucket (i + 2 ^ (k + 2)) (by omega)
    have hp := List.filter_append_perm (fun q => decide (t.index q.1 = i))
      (m.toList.filter fun q => t.shrink.index q.1 = i)
    have hindex (q : K × V) : t.shrink.index q.1 = i ↔
        t.index q.1 = i ∨ t.index q.1 = i + 2 ^ (k + 2) := by
      rw [index, mask, and_mask hn', hn', index, mask, and_mask hn, h2, ← Nat.mul_two, Nat.mod_mul]
      have := Nat.mod_lt (hashOf q.1) (Nat.two_pow_pos (k + 2))
      rcases Nat.mod_two_eq_zero_or_one (hashOf q.1 / 2 ^ (k + 2)) with h0 | h1
      · rw [h0]
        omega
      · rw [h1]
        omega
    rw [shrink_buckets hn hi, List.map_append]
    refine (hl.append hr).trans (.trans ?_ hp)
    rw [List.filter_filter, List.filter_filter]
    refine (List.Perm.of_eq ?_).append (List.Perm.of_eq ?_)
    · refine List.filter_congr fun q _ => ?_
      by_cases hq : t.index q.1 = i
      · simp [hq, (hindex q).mpr (.inl hq)]
      · simp [hq]
    · refine List.filter_congr fun q _ => ?_
      by_cases hq : t.index q.1 = i
      · simp [hq]
      · simp [hq, hindex q]
  case refine_2 =>
    rw [hn'] at hi
    rw [shrink_buckets hn hi, List.mem_append] at hp
    exact hp.elim (h.old i (by omega) p) (h.old (i + 2 ^ (k + 2)) (by omega) p)

variable [EquivBEq K]

-- Nodes of a bucket have different keys.
theorem distinct (hi : i < t.nbuckets) :
    (t.buckets i).Pairwise fun p q => (t.key p == t.key q) = false := by
  have hd := (h.bucket i hi).pairwise_iff (R := fun a b : K × V => (a.1 == b.1) = false)
    fun h => by rwa [BEq.comm]
  have hm := hd.mpr (m.distinct.filter _)
  rwa [List.pairwise_map] at hm

theorem eq_of_key (hi : i < t.nbuckets) (hp : p ∈ t.buckets i) (hq : q ∈ t.buckets i)
    (hk : t.key p == t.key q) : p = q := by
  have : Std.Symm fun p q => (t.key p == t.key q) = false := ⟨fun _ _ h => by rwa [BEq.comm]⟩
  by_contra hn
  have := (h.distinct hi).forall hp hq hn
  rw [hk] at this
  cases this

theorem holds_unique (hp : t.Holds key p) (hq : t.Holds key q) : p = q :=
  h.eq_of_key hp.lt hp.mem hq.mem (BEq.trans (BEq.symm hp.eq) hq.eq)

variable [LawfulHashable K]

variable (key) in
-- What a lookup finds.
theorem opBinaryRight_cases : (∃ p, t.opBinaryRight key = some p ∧ t.Holds key p ∧
      m.get? key = some (t.nodes p).value) ∨
    t.opBinaryRight key = none ∧ m.get? key = none := by
  rw [opBinaryRight]
  obtain ⟨hn, hm⟩ | ⟨k, hn⟩ := h.sizes
  case inl =>
    right
    rw [if_neg (not_not.mpr hn)]
    exact ⟨rfl, AssocMap.get?_eq_none_iff.mpr fun p hp => by rw [hm] at hp; cases hp⟩
  case inr =>
    have hi : t.index key < t.nbuckets := index_lt hn
    have hpos : t.nbuckets ≠ 0 := by omega
    rw [if_pos hpos]
    cases hf : (t.buckets (hashOf key &&& t.mask)).find? fun p => t.key p == key with
    | some p =>
      left
      have hk := List.find?_some hf
      replace hk : key == t.key p := BEq.symm hk
      have hp := List.mem_of_find?_eq_some hf
      refine ⟨p, rfl, ⟨hi, hp, hk⟩, AssocMap.get?_eq_some_iff.mpr ⟨_, h.pair_mem hi hp, hk, rfl⟩⟩
    | none =>
      right
      refine ⟨rfl, AssocMap.get?_eq_none_iff.mpr fun q hq => ?_⟩
      by_contra hk
      replace hk : key == q.1 := by simpa using hk
      -- the pair would be in the bucket of the key
      have hmem : q ∈ m.toList.filter fun p => t.index p.1 = t.index key :=
        List.mem_filter.mpr ⟨hq, by simpa using (index_congr hk).symm⟩
      obtain ⟨p, hp, rfl⟩ := List.mem_map.mp ((h.bucket _ hi).mem_iff.mpr hmem)
      have := List.find?_eq_none.mp hf p hp
      exact this (BEq.symm hk)

theorem opBinaryRight_value :
    (t.opBinaryRight key).map (fun p => (t.nodes p).value) = m.get? key := by
  obtain ⟨p, hp, _, hg⟩ | ⟨hp, hg⟩ := h.opBinaryRight_cases key
  · rw [hp, hg]
    rfl
  · rw [hp, hg]
    rfl

-- The pairs with the key of the map are at the pointer in the table.
theorem setValue (hp : t.Holds key p) (v : V) : (t.setValue p v).Represents (m.replace key v) := by
  have hpair {i : Nat} (hi : i < t.nbuckets) : ∀ q ∈ t.buckets i,
      (t.setValue p v).pair q = if key == (t.pair q).1 then ((t.pair q).1, v) else t.pair q := by
    intro q hq
    by_cases hqp : q = p
    case pos =>
      have hk : key == (t.pair p).1 := hp.eq
      rw [hqp, if_pos hk]
      simp [pair, HashTab.setValue]
    case neg =>
      have hk : ¬(key == (t.pair q).1) := by
        intro hk
        have hqi : i = t.index key := (h.index_key hi hq).symm.trans (index_congr hk).symm
        exact hqp <| h.holds_unique ⟨hp.lt, hqi ▸ hq, hk⟩ hp
      rw [if_neg hk]
      simp [pair, HashTab.setValue, hqp]
  obtain ⟨h0, _⟩ | hk := h.sizes
  case inl =>
    have := hp.lt
    omega
  refine ⟨h.idle, .inr hk, ?_, fun i hi => ?_, h.old⟩
  case refine_1 =>
    rw [AssocMap.size_replace]
    exact h.length
  case refine_2 =>
    have hb := (h.bucket i hi).map fun a => if key == a.1 then (a.1, v) else a
    rw [List.map_map] at hb
    show ((t.buckets i).map _).Perm _
    rw [List.map_congr_left (hpair hi), AssocMap.replace, List.filter_map]
    refine hb.trans (List.Perm.of_eq ?_)
    congr 1
    refine List.filter_congr fun q _ => ?_
    simp only [Function.comp]
    split <;> rfl

omit [LawfulHashable K] in
-- A new node becomes the first one of its bucket.
theorem insertNew (hn : t.nbuckets ≠ 0) (hm : m.get? key = none) (v : V) :
    let t' := { t with
      nodes   := Function.update t.nodes t.free ⟨key, v⟩
      free    := t.free + 1
      buckets := Function.update t.buckets (t.index key) (t.free :: t.buckets (t.index key))
      length  := t.length + 1 }
    t'.Represents (m.insertIfNew key v) ∧ t'.Holds key t.free := by
  intro t'
  obtain ⟨h0, _⟩ | ⟨k, hk⟩ := h.sizes
  case inl => exact absurd h0 hn
  have hi' : t.index key < t.nbuckets := index_lt hk
  have hpair : t'.pair t.free = (key, v) := by simp [t', pair]
  have hold {i : Nat} (hi : i < t.nbuckets) : (t.buckets i).map t'.pair = (t.buckets i).map t.pair := by
    refine List.map_congr_left fun q hq => ?_
    have hq : q ≠ t.free := Nat.ne_of_lt (h.old i hi q hq)
    simp [t', pair, hq]
  refine ⟨⟨h.idle, .inr ⟨k, hk⟩, ?_, fun i hi => ?_, fun i hi q hq => ?_⟩, hi', ?_, ?_⟩
  case refine_1 =>
    rw [AssocMap.size, AssocMap.insertIfNew_of_none hm, List.length_cons]
    exact congrArg (· + 1) h.length
  case refine_2 =>
    rw [AssocMap.insertIfNew_of_none hm]
    show ((Function.update t.buckets (t.index key) _ i).map t'.pair).Perm
      (List.filter (fun p => decide (t.index p.1 = i)) _)
    by_cases hik : i = t.index key
    case pos =>
      rw [hik, Function.update_self, List.map_cons, hold hi', hpair,
        List.filter_cons_of_pos (by simp)]
      exact (h.bucket _ hi').cons _
    case neg =>
      rw [Function.update_of_ne hik, hold hi, List.filter_cons_of_neg (by simpa using Ne.symm hik)]
      exact h.bucket i hi
  case refine_3 =>
    show q < t.free + 1
    replace hq : q ∈ Function.update t.buckets (t.index key) (t.free :: t.buckets (t.index key)) i := hq
    by_cases hik : i = t.index key
    case pos =>
      rw [hik, Function.update_self] at hq
      obtain rfl | hq := List.mem_cons.mp hq
      · exact Nat.lt_succ_self _
      · exact Nat.lt_succ_of_lt (h.old _ hi' q hq)
    case neg =>
      rw [Function.update_of_ne hik] at hq
      exact Nat.lt_succ_of_lt (h.old i hi q hq)
  case refine_4 =>
    show t.free ∈ Function.update t.buckets (t.index key) _ (t.index key)
    rw [Function.update_self]
    exact List.mem_cons_self
  case refine_5 =>
    show key == (t'.pair t.free).1
    rw [hpair]
    exact BEq.rfl

omit [EquivBEq K] in
-- A pointer stays one to a node of the table when the table grows.
theorem grow_holds (hp : t.Holds key p) : t.grow.Holds key p := by
  obtain ⟨h0, _⟩ | ⟨k, hk⟩ := h.sizes
  case inl =>
    have := hp.lt
    omega
  have hn' : t.grow.nbuckets = 2 ^ (k + 3) := by
    show 2 * t.nbuckets = _
    rw [hk]
    ring
  have hlt : t.grow.index key < t.grow.nbuckets := index_lt hn'
  have hplace : ∀ i < t.nbuckets, ∀ p ∈ t.buckets i, t.place t.mask p = i :=
    fun i hi p hp => h.index_key hi hp
  refine ⟨hlt, (grow_buckets hk hplace hlt).mem_iff.mpr ?_, hp.eq⟩
  rw [grow_index_mod hk, List.mem_filter]
  have he : t.grow.index (t.key p) = t.grow.index key := (index_congr hp.eq).symm
  exact ⟨hp.mem, decide_eq_true he⟩

omit [EquivBEq K] [LawfulHashable K] in
theorem setLength (hn : t.nbuckets = 0) : (t.setLength 4).Represents m := by
  obtain ⟨_, hm⟩ | ⟨k, hk⟩ := h.sizes
  case inr =>
    have := Nat.two_pow_pos (k + 2)
    omega
  have hb (i : Nat) : (t.setLength 4).buckets i = [] := if_neg (by omega)
  refine ⟨h.idle, .inr ⟨0, rfl⟩, h.length, fun i hi => ?_, fun i hi p hp => ?_⟩
  · rw [hb, hm]
    exact .nil
  · rw [hb] at hp
    cases hp

variable (key) in
theorem get [Inhabited V] : ∃ p t', t.get key = .ok (p, t') ∧ t'.Holds key p ∧
    t'.Represents (m.insertIfNew key default) := by
  rw [HashTab.get]
  obtain ⟨p, hp, hh, hg⟩ | ⟨hp, hg⟩ := h.opBinaryRight_cases key
  case inl =>
    rw [hp]
    exact ⟨p, t, rfl, hh, by rwa [AssocMap.insertIfNew_of_some hg]⟩
  case inr =>
    rw [hp]
    simp only [h.idle, Bool.false_eq_true, if_false]
    have h₁ : (if t.nbuckets = 0 then t.setLength 4 else t).Represents m := by
      split
      case isTrue hn => exact h.setLength hn
      case isFalse   => exact h
    have hn : (if t.nbuckets = 0 then t.setLength 4 else t).nbuckets ≠ 0 := by
      split
      case isTrue    => exact Nat.succ_ne_zero 3
      case isFalse h => exact h
    generalize (if t.nbuckets = 0 then t.setLength 4 else t) = t₁ at h₁ hn ⊢
    have ⟨h₂, hh⟩ := h₁.insertNew hn hg default
    refine ⟨_, _, rfl, ?_⟩
    split
    · exact ⟨h₂.grow_holds hh, h₂.grow hn⟩
    · exact ⟨hh, h₂⟩

theorem opIndexAssign [Inhabited V] (v : V) :
    ∃ t', t.opIndexAssign v key = .ok t' ∧ t'.Represents (m.insert key v) := by
  have ⟨p, t', hg, hp, hr⟩ := h.get key
  refine ⟨t'.setValue p v, ?_, ?_⟩
  · rw [HashTab.opIndexAssign, hg]
    rfl
  · have hs := hr.setValue hp v
    rwa [AssocMap.replace_insertIfNew] at hs

theorem eraseNode (hp : t.Holds key p) : (t.eraseNode key).Represents (m.erase key) := by
  obtain ⟨h0, _⟩ | hk := h.sizes
  case inl =>
    have := hp.lt
    omega
  refine ⟨h.idle, .inr hk, ?_, fun i hi => ?_, fun i hi q hq => ?_⟩
  case refine_1 =>
    have hs := AssocMap.size_erase (h.pair_mem hp.lt hp.mem)
    have hkp : key == (t.pair p).1 := hp.eq
    rw [AssocMap.erase_congr hkp]
    show t.length - 1 = _
    rw [h.length, ← hs, Nat.add_sub_cancel]
  case refine_2 =>
    show ((Function.update t.buckets (t.index key) _ i).map t.pair).Perm
      (List.filter (fun q => decide (t.index q.1 = i)) (m.toList.filter fun q => !(key == q.1)))
    have hb := h.bucket i hi
    have hcomm : (m.toList.filter fun q => !(key == q.1)).filter (fun q => decide (t.index q.1 = i)) =
        (m.toList.filter fun q => decide (t.index q.1 = i)).filter fun q => !(key == q.1) := by
      rw [List.filter_filter, List.filter_filter]
      exact List.filter_congr fun q _ => Bool.and_comm ..
    rw [hcomm]
    by_cases hik : i = t.index key
    case pos =>
      subst hik
      obtain ⟨q, l, r, _, hq, hl, he⟩ := List.exists_of_eraseP hp.mem (p := fun p => t.key p == key)
        (BEq.symm hp.eq)
      rw [Function.update_self, he]
      let sub : AssocMap K V :=
        ⟨m.toList.filter fun q => t.index q.1 = t.index key, m.distinct.filter _⟩
      refine AssocMap.erase_perm (m := sub) (BEq.symm hq) (k := t.key q) (v := (t.nodes q).value) ?_
      refine .trans ?_ hb
      rw [hl, List.map_append, List.map_append, List.map_cons]
      exact List.perm_middle.symm
    case neg =>
      rw [Function.update_of_ne hik, List.filter_eq_self.mpr]
      · exact hb
      · intro q hq
        have hq := of_decide_eq_true (List.mem_filter.mp hq).right
        by_contra hne
        have hkq : key == q.1 := by simpa using hne
        exact hik (hq.symm.trans (index_congr hkq).symm)
  case refine_3 =>
    replace hq : q ∈ Function.update t.buckets (t.index key) _ i := hq
    by_cases hik : i = t.index key
    case pos =>
      subst hik
      rw [Function.update_self] at hq
      exact h.old _ hi q (List.mem_of_mem_eraseP hq)
    case neg =>
      rw [Function.update_of_ne hik] at hq
      exact h.old i hi q hq

theorem remove (hk : (m.get? key).isSome) :
    ∃ t', t.remove key = .ok t' ∧ t'.Represents (m.erase key) := by
  obtain ⟨p, hp, hh, hg⟩ | ⟨_, hg⟩ := h.opBinaryRight_cases key
  case inr =>
    rw [hg] at hk
    cases hk
  case inl =>
    have hr := h.eraseNode hh
    have hn : (t.eraseNode key).nbuckets = t.nbuckets := rfl
    have he : t.remove key = .ok (if (t.eraseNode key).length < (t.eraseNode key).nbuckets ∧
        (t.eraseNode key).length ≥ 4 then (t.eraseNode key).shrink else t.eraseNode key) := by
      rw [HashTab.remove, if_neg (by simp [hp, h.idle])]
      rfl
    refine ⟨_, he, ?_⟩
    split
    case isFalse => exact hr
    case isTrue hs =>
      -- there are more than four buckets
      obtain ⟨h0, _⟩ | ⟨k, hk⟩ := hr.sizes
      case inl => omega
      case inr =>
        cases k with
        | zero   => omega
        | succ k => exact hr.shrink hk

omit [EquivBEq K] [LawfulHashable K] in
theorem reset : t.reset.Represents (∅ : AssocMap K V) where
  idle       := h.idle
  sizes      := .inl ⟨rfl, rfl⟩
  length     := rfl
  bucket i hi := absurd hi (Nat.not_lt_zero i)
  old i hi    := absurd hi (Nat.not_lt_zero i)

end Represents

-- The pairs in the order of an iteration.
def pairs (t : HashTab K V) : List (K × V) :=
  ((List.range t.nbuckets).flatMap t.buckets).map t.pair

omit [BEq K] [Hashable K] in
theorem opApply_eq {σ : Type _} {dg : K → V → σ → Int32 × σ} {s : σ} :
    t.opApply dg s = visit (fun p => dg p.1 p.2) t.pairs s := by
  rw [opApply, pairs, visit_map]
  induction (List.range t.nbuckets).flatMap t.buckets generalizing s with
  | nil => rfl
  | cons p ps hi =>
    rw [opApply.go, visit]
    by_cases hr : (dg (t.nodes p).key (t.nodes p).value s).1 = 0
    case pos => simp [hr, hi, pair]
    case neg => simp [hr, pair]

theorem Represents.pairs_perm (h : t.Represents m) : t.pairs.Perm m.toList := by
  have hgroups : t.pairs.Perm
      ((List.range t.nbuckets).flatMap fun i => m.toList.filter fun p => t.index p.1 = i) := by
    rw [pairs, List.map_flatMap]
    exact List.Perm.flatMap_left _ fun i hi => h.bucket i (List.mem_range.mp hi)
  refine (hgroups.trans <| flatMap_filter_perm _ _).trans (List.Perm.of_eq ?_)
  refine List.filter_eq_self.mpr fun p hp => ?_
  obtain ⟨_, hm⟩ | ⟨k, hk⟩ := h.sizes
  · rw [hm] at hp
    cases hp
  · exact decide_eq_true (index_lt hk)

theorem init_represents {nodes : Nat → Node K V} {free : Nat} :
    (init nodes free).Represents (∅ : AssocMap K V) where
  idle        := rfl
  sizes       := .inl ⟨rfl, rfl⟩
  length      := rfl
  bucket i hi := absurd hi (Nat.not_lt_zero i)
  old i hi    := absurd hi (Nat.not_lt_zero i)

inductive Op (K V : Type _)
  | assign (value : V) (key : K)
  | get (key : K)
  | remove (key : K)
  | reset

def Op.apply [Inhabited V] (t : HashTab K V) : Op K V → Except Error (HashTab K V)
  | assign value key => t.opIndexAssign value key
  | get key          => (t.get key).map (·.2)
  | remove key       => t.remove key
  | reset            => .ok t.reset

-- What the operations do to a map. A key that is removed must be there.
def Op.applyMap [Inhabited V] (m : AssocMap K V) : Op K V → Option (AssocMap K V)
  | assign value key => some (m.insert key value)
  | get key          => some (m.insertIfNew key default)
  | remove key       => if (m.get? key).isSome then some (m.erase key) else none
  | reset            => some ∅

variable [EquivBEq K] [LawfulHashable K] [Inhabited V] {m' : AssocMap K V}

theorem Represents.apply (h : t.Represents m) {op : Op K V} (ho : op.applyMap m = some m') :
    ∃ t', op.apply t = .ok t' ∧ t'.Represents m' := by
  cases op with
  | assign value key =>
    cases ho
    exact h.opIndexAssign value
  | get key =>
    cases ho
    have ⟨p, t', hg, _, hr⟩ := h.get key
    refine ⟨t', ?_, hr⟩
    rw [Op.apply, hg]
    rfl
  | remove key =>
    rw [Op.applyMap] at ho
    split at ho
    case isTrue hk =>
      cases ho
      exact h.remove hk
    case isFalse => cases ho
  | reset =>
    cases ho
    exact ⟨_, rfl, h.reset⟩

theorem Represents.run (h : t.Represents m) {ops : List (Op K V)}
    (ho : ops.foldlM Op.applyMap m = some m') :
    ∃ t', ops.foldlM Op.apply t = .ok t' ∧ t'.Represents m' := by
  induction ops generalizing t m with
  | nil =>
    cases ho
    exact ⟨t, rfl, h⟩
  | cons op ops hi =>
    rw [List.foldlM_cons] at ho
    obtain ⟨m₁, hm, ho⟩ := Option.bind_eq_some_iff.mp ho
    have ⟨t₁, ht, h₁⟩ := h.apply hm
    have ⟨t', hr, h'⟩ := hi h₁ ho
    refine ⟨t', ?_, h'⟩
    rw [List.foldlM_cons, ht]
    exact hr

theorem isMap (nodes : Nat → Node K V) (free : Nat) {ops : List (Op K V)}
    (h : ops.foldlM Op.applyMap ∅ = some m) :
    ∃ t, ops.foldlM Op.apply (init nodes free) = .ok t ∧
      (∀ key, (t.opBinaryRight key).map (fun p => (t.nodes p).value) = m.get? key) ∧
      (∀ key, t.opIndex key = (m.get? key).elim (.error .nullPointer) .ok) ∧
      t.length = m.size ∧
      (∃ pairs : List (K × V), pairs.Perm m.toList ∧
        ∀ (σ : Type) (dg : K → V → σ → Int32 × σ) (s : σ),
          t.opApply dg s = visit (fun p => dg p.1 p.2) pairs s) ∧
      (t.nbuckets = 0 ∧ m.toList = [] ∨ ∃ k, t.nbuckets = 2 ^ (k + 2)) ∧
      (∀ i < t.nbuckets, ∀ p ∈ t.buckets i, hashOf (t.key p) &&& t.mask = i) := by
  have h₀ : (init nodes free).Represents (∅ : AssocMap K V) := init_represents
  have ⟨t, ht, hr⟩ := h₀.run h
  refine ⟨t, ht, fun key => hr.opBinaryRight_value, fun key => ?_, hr.length,
    ⟨t.pairs, hr.pairs_perm, fun _ _ _ => opApply_eq⟩, hr.sizes, fun i hi p hp => hr.index_key hi hp⟩
  rw [opIndex, ← hr.opBinaryRight_value]
  cases t.opBinaryRight key <;> rfl

-- Keys that hash to the same bucket, and a table that grows.
theorem isMap_nat :
    ∃ t, [Op.assign true 0, .assign true 4, .get 8, .remove 4].foldlM Op.apply
        (init (fun _ => ⟨0, false⟩) 0 : HashTab Nat Bool) = .ok t ∧
      (t.opBinaryRight 4).map (fun p => (t.nodes p).value) = none := by
  have h : [Op.assign true 0, .assign true 4, .get 8, .remove 4].foldlM Op.applyMap
      (∅ : AssocMap Nat Bool) = some (((∅ : AssocMap Nat Bool).insert 0 true |>.insert 4 true
        |>.insertIfNew 8 default).erase 4) := rfl
  have ⟨t, ht, hv, _⟩ := isMap (fun _ => ⟨0, false⟩) 0 h
  exact ⟨t, ht, hv 4⟩

end HashTab
end Runtime.Container
