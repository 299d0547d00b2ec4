import Mathlib

-- Finite maps over keys with an equality test, as lists of pairs that hold no key twice. Lists with
-- the same pairs in different orders are the same map.

structure AssocMap (K V : Type _) [BEq K] where
  toList   : List (K × V)
  distinct : toList.Pairwise fun a b => (a.1 == b.1) = false

namespace AssocMap

variable {K V : Type _} [BEq K]

instance : EmptyCollection (AssocMap K V) where
  emptyCollection := ⟨[], .nil⟩

def size (m : AssocMap K V) : Nat :=
  m.toList.length

def get? (m : AssocMap K V) (key : K) : Option V :=
  (m.toList.find? (key == ·.1)).map (·.2)

def keys (m : AssocMap K V) : List K :=
  m.toList.map (·.1)

def values (m : AssocMap K V) : List V :=
  m.toList.map (·.2)

def erase (m : AssocMap K V) (key : K) : AssocMap K V where
  toList   := m.toList.filter fun p => !(key == p.1)
  distinct := m.distinct.filter _

-- Two maps are equal if they have the same keys with equal values.
def Equal [BEq V] (m₁ m₂ : AssocMap K V) : Prop :=
  ∀ key, (m₁.get? key = none ∧ m₂.get? key = none) ∨
    ∃ v₁ v₂, m₁.get? key = some v₁ ∧ m₂.get? key = some v₂ ∧ v₁ == v₂

section

variable [EquivBEq K]

theorem eq_of_mem (m : AssocMap K V) {p q : K × V} (hp : p ∈ m.toList) (hq : q ∈ m.toList)
    (h : p.1 == q.1) : p = q := by
  have : Std.Symm fun a b : K × V => (a.1 == b.1) = false := ⟨fun _ _ h => by rwa [BEq.comm]⟩
  by_contra hn
  have hd : (p.1 == q.1) = false := m.distinct.forall hp hq hn
  simp [h] at hd

omit [EquivBEq K] in
theorem get?_eq_none_iff {m : AssocMap K V} {key : K} :
    m.get? key = none ↔ ∀ p ∈ m.toList, (key == p.1) = false := by
  simp [get?]

theorem get?_eq_some_iff {m : AssocMap K V} {key : K} {v : V} :
    m.get? key = some v ↔ ∃ p ∈ m.toList, key == p.1 ∧ p.2 = v := by
  rw [get?, Option.map_eq_some_iff]
  constructor
  case mp =>
    intro ⟨p, hp, hv⟩
    have hk := List.find?_some hp
    exact ⟨p, List.mem_of_find?_eq_some hp, hk, hv⟩
  case mpr =>
    intro ⟨p, hp, hk, hv⟩
    cases hf : m.toList.find? (key == ·.1) with
    | none =>
      have := List.find?_eq_none.mp hf p hp
      exact absurd hk this
    | some q =>
      have hq := List.mem_of_find?_eq_some hf
      have hkq := List.find?_some hf
      exact ⟨q, rfl, m.eq_of_mem hp hq (BEq.trans (BEq.symm hk) hkq) ▸ hv⟩

-- The value does not depend on the order of the pairs.
theorem get?_perm {m₁ m₂ : AssocMap K V} (h : m₁.toList.Perm m₂.toList) (key : K) :
    m₁.get? key = m₂.get? key := by
  apply Option.ext
  intro v
  simp only [get?_eq_some_iff, h.mem_iff]

-- A key that the map does not have yet gets the value, every other key keeps its own.
def insertIfNew (m : AssocMap K V) (key : K) (v : V) : AssocMap K V :=
  match h : m.get? key with
  | some _ => m
  | none   => ⟨(key, v) :: m.toList, List.pairwise_cons.mpr ⟨get?_eq_none_iff.mp h, m.distinct⟩⟩

omit [EquivBEq K] in
theorem insertIfNew_of_some {m : AssocMap K V} {key : K} {v w : V} (h : m.get? key = some w) :
    m.insertIfNew key v = m := by
  rw [insertIfNew]
  split
  case h_1 => rfl
  case h_2 hn => simp [h] at hn

omit [EquivBEq K] in
theorem insertIfNew_of_none {m : AssocMap K V} {key : K} {v : V} (h : m.get? key = none) :
    (m.insertIfNew key v).toList = (key, v) :: m.toList := by
  rw [insertIfNew]
  split
  case h_1 hs => simp [h] at hs
  case h_2 => rfl

omit [EquivBEq K] in
theorem get?_insertIfNew_of_ne {m : AssocMap K V} {key k : K} {v : V} (h : m.get? key = none)
    (hk : (key == k) = false) : (m.insertIfNew k v).get? key = none := by
  cases hm : m.get? k with
  | some _ => rwa [insertIfNew_of_some hm]
  | none =>
    rw [get?_eq_none_iff, insertIfNew_of_none hm]
    exact List.forall_mem_cons.mpr ⟨hk, get?_eq_none_iff.mp h⟩

omit [EquivBEq K] in
theorem get?_erase_of_none {m : AssocMap K V} {key k : K} (h : m.get? key = none) :
    (m.erase k).get? key = none :=
  get?_eq_none_iff.mpr fun p hp => get?_eq_none_iff.mp h p (List.mem_of_mem_filter hp)

omit [EquivBEq K] in
theorem erase_of_none {m : AssocMap K V} {key : K} (h : m.get? key = none) :
    (m.erase key).toList = m.toList :=
  List.filter_eq_self.mpr fun p hp => by simp [get?_eq_none_iff.mp h p hp]

-- If the pairs are those of a list whose head has the key, the tail is what remains.
theorem erase_perm {m : AssocMap K V} {key k : K} {v : V} {l : List (K × V)} (hk : key == k)
    (h : ((k, v) :: l).Perm m.toList) : l.Perm (m.erase key).toList := by
  have hd := (h.pairwise_iff fun h => by rwa [BEq.comm]).mpr m.distinct
  have hl : l.filter (fun p => !(key == p.1)) = l := by
    apply List.filter_eq_self.mpr
    intro p hp
    have hf : (k == p.1) = false := (List.pairwise_cons.mp hd).1 p hp
    simp [BEq.congr_left hk, hf]
  have hp := h.filter fun p => !(key == p.1)
  rw [List.filter_cons_of_neg (by simp [hk]), hl] at hp
  exact hp

-- Set the value of a key that the map has, and keep the stored key.
def replace (m : AssocMap K V) (key : K) (v : V) : AssocMap K V where
  toList   := m.toList.map fun p => if key == p.1 then (p.1, v) else p
  distinct := by
    refine List.pairwise_map.mpr (m.distinct.imp fun {a b} h => ?_)
    split <;> split <;> exact h

omit [EquivBEq K] in
theorem size_replace (m : AssocMap K V) (key : K) (v : V) : (m.replace key v).size = m.size :=
  List.length_map ..

theorem replace_perm {m : AssocMap K V} {key k : K} {v w : V} {l : List (K × V)} (hk : key == k)
    (h : ((k, w) :: l).Perm m.toList) : ((k, v) :: l).Perm (m.replace key v).toList := by
  have hd := (h.pairwise_iff fun h => by rwa [BEq.comm]).mpr m.distinct
  have hl : l.map (fun p => if key == p.1 then (p.1, v) else p) = l := by
    rw [List.map_congr_left (g := id), List.map_id]
    intro p hp
    have hf : (k == p.1) = false := (List.pairwise_cons.mp hd).1 p hp
    simp [BEq.congr_left hk, hf]
  have hp := h.map fun p => if key == p.1 then (p.1, v) else p
  rw [List.map_cons, hl, if_pos hk] at hp
  exact hp

-- Set the value of a key, which is added if the map does not have it yet.
def insert (m : AssocMap K V) (key : K) (v : V) : AssocMap K V :=
  if (m.get? key).isSome then m.replace key v else m.insertIfNew key v

omit [EquivBEq K] in
theorem insert_of_some {m : AssocMap K V} {key : K} {v w : V} (h : m.get? key = some w) :
    m.insert key v = m.replace key v := by
  simp [insert, h]

omit [EquivBEq K] in
theorem insert_of_none {m : AssocMap K V} {key : K} {v : V} (h : m.get? key = none) :
    (m.insert key v).toList = (key, v) :: m.toList := by
  simp [insert, h, insertIfNew_of_none]

-- A key that was added with another value before.
theorem replace_insertIfNew (m : AssocMap K V) (key : K) (v w : V) :
    (m.insertIfNew key w).replace key v = m.insert key v := by
  cases hg : m.get? key with
  | some _ => rw [insertIfNew_of_some hg, insert_of_some hg]
  | none =>
    have hm : m.toList.map (fun p => if key == p.1 then (p.1, v) else p) = m.toList := by
      rw [List.map_congr_left (g := id), List.map_id]
      intro p hp
      simp [get?_eq_none_iff.mp hg p hp]
    have hl : ((m.insertIfNew key w).replace key v).toList = (m.insert key v).toList := by
      rw [insert_of_none hg]
      show List.map _ (m.insertIfNew key w).toList = _
      rw [insertIfNew_of_none hg, List.map_cons, hm, if_pos BEq.rfl]
    cases hr : (m.insertIfNew key w).replace key v
    cases hi : m.insert key v
    rw [hr, hi] at hl
    cases hl
    rfl

theorem erase_congr {m : AssocMap K V} {key key' : K} (h : key == key') :
    m.erase key = m.erase key' := by
  simp only [erase, BEq.congr_left h]

-- The last pair of a list with a key decides its value, the first one is its stored key.
def ofList (l : List (K × V)) : AssocMap K V :=
  l.foldl (fun m p => m.insert p.1 p.2) ∅

theorem size_erase {m : AssocMap K V} {p : K × V} (hp : p ∈ m.toList) :
    (m.erase p.1).size + 1 = m.size := by
  have ⟨l, r, hl⟩ := List.append_of_mem hp
  have hperm : ((p.1, p.2) :: (l ++ r)).Perm m.toList := hl ▸ List.perm_middle.symm
  have he := erase_perm BEq.rfl hperm
  rw [size, ← he.length_eq, size, ← hperm.length_eq, List.length_cons]

omit [EquivBEq K] in
theorem mem_erase {m : AssocMap K V} {key : K} {p : K × V} :
    p ∈ (m.erase key).toList ↔ p ∈ m.toList ∧ (key == p.1) = false := by
  simp [erase]

-- Different keys that all occur in a map are at most as many as its keys.
theorem length_le_size {l : List (K × V)} {m : AssocMap K V}
    (hd : l.Pairwise fun a b => (a.1 == b.1) = false)
    (h : ∀ p ∈ l, ∃ q ∈ m.toList, p.1 == q.1) : l.length ≤ m.size := by
  induction l generalizing m
  case nil => exact Nat.zero_le _
  case cons p l hi =>
    have ⟨q, hq, hpq⟩ := h p List.mem_cons_self
    have ⟨hp, hd⟩ := List.pairwise_cons.mp hd
    rw [List.length_cons, ← size_erase hq]
    refine Nat.succ_le_succ (hi hd fun p' hp' => ?_)
    have ⟨q', hq', hpq'⟩ := h p' (List.mem_cons_of_mem _ hp')
    refine ⟨q', (mem_erase).mpr ⟨hq', ?_⟩, hpq'⟩
    by_contra hne
    have hqq : q.1 == q'.1 := by simpa using hne
    have := hp p' hp'
    rw [BEq.trans hpq (BEq.trans hqq (BEq.symm hpq'))] at this
    cases this

section Equal

variable [BEq V] {m₁ m₂ : AssocMap K V}

theorem Equal.size_le (h : m₁.Equal m₂) : m₁.size ≤ m₂.size ∧ m₂.size ≤ m₁.size := by
  have hmem {m : AssocMap K V} {p : K × V} (hp : p ∈ m.toList) : m.get? p.1 = some p.2 :=
    get?_eq_some_iff.mpr ⟨p, hp, BEq.rfl, rfl⟩
  have hkey {m : AssocMap K V} {key : K} {v : V} (hv : m.get? key = some v) :
      ∃ q ∈ m.toList, key == q.1 := by
    have ⟨q, hq, hk, _⟩ := get?_eq_some_iff.mp hv
    exact ⟨q, hq, hk⟩
  constructor
  · refine length_le_size m₁.distinct fun p hp => ?_
    cases h p.1 with
    | inl hn => rw [hmem hp] at hn; cases hn.1
    | inr hs =>
      have ⟨_, _, _, hv, _⟩ := hs
      exact hkey hv
  · refine length_le_size m₂.distinct fun p hp => ?_
    cases h p.1 with
    | inl hn => rw [hmem hp] at hn; cases hn.2
    | inr hs =>
      have ⟨_, _, hv, _⟩ := hs
      exact hkey hv

-- For maps of one size it is enough to compare the pairs of the first one.
theorem equal_iff (hs : m₁.size = m₂.size) :
    m₁.Equal m₂ ↔ ∀ p ∈ m₁.toList, ∃ v, m₂.get? p.1 = some v ∧ p.2 == v := by
  constructor
  case mp =>
    intro h p hp
    have hg : m₁.get? p.1 = some p.2 := get?_eq_some_iff.mpr ⟨p, hp, BEq.rfl, rfl⟩
    cases h p.1 with
    | inl hn => rw [hg] at hn; cases hn.1
    | inr hs =>
      have ⟨v₁, v₂, h₁, h₂, hv⟩ := hs
      rw [hg] at h₁
      cases h₁
      exact ⟨v₂, h₂, hv⟩
  case mpr =>
    intro h key
    have hkeys : ∀ p ∈ m₁.toList, ∃ q ∈ m₂.toList, p.1 == q.1 := by
      intro p hp
      have ⟨v, hv, _⟩ := h p hp
      have ⟨q, hq, hk, _⟩ := get?_eq_some_iff.mp hv
      exact ⟨q, hq, hk⟩
    cases h₁ : m₁.get? key with
    | some v₁ =>
      have ⟨p, hp, hk, hv⟩ := get?_eq_some_iff.mp h₁
      have ⟨v, hg, he⟩ := h p hp
      refine .inr ⟨v₁, v, rfl, ?_, hv ▸ he⟩
      have ⟨q, hq, hkq, hvq⟩ := get?_eq_some_iff.mp hg
      exact get?_eq_some_iff.mpr ⟨q, hq, BEq.trans hk hkq, hvq⟩
    | none =>
      refine .inl ⟨rfl, ?_⟩
      cases h₂ : m₂.get? key with
      | none => rfl
      | some v₂ =>
        -- without this key, the second map would have room for fewer keys than the first one has
        have ⟨q, hq, hk, _⟩ := get?_eq_some_iff.mp h₂
        have hle : m₁.size ≤ (m₂.erase q.1).size := by
          refine length_le_size m₁.distinct fun p hp => ?_
          have ⟨q', hq', hk'⟩ := hkeys p hp
          refine ⟨q', (mem_erase).mpr ⟨hq', ?_⟩, hk'⟩
          by_contra hne
          have hqq : q.1 == q'.1 := by simpa using hne
          have hn := get?_eq_none_iff.mp h₁ p hp
          rw [BEq.trans hk (BEq.trans hqq (BEq.symm hk'))] at hn
          cases hn
        have he := size_erase hq
        omega

end Equal
end
end AssocMap
