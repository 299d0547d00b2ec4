import Mathlib

-- Distances in a graph: walks by their length, and shortest paths.
namespace Distances

open Relation

variable {α : Type*} {E : α → α → Prop} {a b c : α} {n k : Nat} {p : List α}

inductive Walk (E : α → α → Prop) (a : α) : Nat → α → Prop
  | refl : Walk E a 0 a
  | tail {n : Nat} {b c : α} : Walk E a n b → E b c → Walk E a (n + 1) c

def IsDist (E : α → α → Prop) (a b : α) (n : Nat) : Prop :=
  IsLeast {n | Walk E a n b} n

-- A path without its first node, of least length
structure ShortestPath (E : α → α → Prop) (a b : α) (p : List α) : Prop where
  walk  : List.IsChain E (a :: p)
  ends  : (a :: p).getLast? = some b
  least : ∀ q, List.IsChain E (a :: q) → (a :: q).getLast? = some b → p.length ≤ q.length

theorem Walk.reflTransGen (h : Walk E a n b) : ReflTransGen E a b := by
  induction h with
  | refl => exact .refl
  | tail _ e hi => exact hi.tail e

theorem walk_of_reflTransGen (h : ReflTransGen E a b) : ∃ n, Walk E a n b := by
  induction h with
  | refl => exact ⟨0, .refl⟩
  | tail _ e hi =>
    obtain ⟨n, hn⟩ := hi
    exact ⟨n + 1, hn.tail e⟩

theorem walk_of_isChain {q : List α} (h : List.IsChain E (a :: q)) (hb : (a :: q).getLast? = some b) :
    Walk E a q.length b := by
  induction q using List.reverseRecOn generalizing b with
  | nil =>
    obtain rfl : a = b := Option.some.inj hb
    exact .refl
  | append_singleton q c hi =>
    rw [← List.cons_append, List.isChain_append] at h
    rw [← List.cons_append, List.getLast?_append, List.getLast?_singleton] at hb
    obtain rfl : c = b := Option.some.inj hb
    rw [List.length_append, List.length_singleton]
    have hlast := List.getLast?_eq_some_getLast (List.cons_ne_nil a q)
    exact (hi h.1 hlast).tail (h.2.2 _ hlast c (by simp))

namespace IsDist

theorem reflTransGen (h : IsDist E a b n) : ReflTransGen E a b :=
  h.1.reflTransGen

theorem eq (h : IsDist E a b n) (h' : IsDist E a b k) : n = k :=
  h.unique h'

theorem zero_iff : IsDist E a b 0 ↔ a = b := by
  constructor
  case mp =>
    intro h
    cases h.1
    rfl
  case mpr =>
    rintro rfl
    exact ⟨.refl, fun _ _ => Nat.zero_le _⟩

-- A node that is next to one at a distance, and not closer
theorem tail (h : IsDist E a b n) (e : E b c) (hc : ∀ k ≤ n, ¬IsDist E a c k) : IsDist E a c (n + 1) := by
  refine ⟨h.1.tail e, fun m hm => ?_⟩
  by_contra! hlt
  classical
  have hex : ∃ m, Walk E a m c := ⟨m, hm⟩
  exact hc (Nat.find hex) ((Nat.find_min' hex hm).trans (Nat.le_of_lt_succ hlt))
    ⟨Nat.find_spec hex, fun _ h => Nat.find_min' hex h⟩

-- The last but one node of a shortest walk
theorem pred (h : IsDist E a c (n + 1)) : ∃ b, IsDist E a b n ∧ E b c := by
  obtain ⟨hw, hleast⟩ := h
  cases hw with
  | @tail _ b _ hw e => exact ⟨b, ⟨hw, fun m hm => Nat.le_of_succ_le_succ (hleast (hm.tail e))⟩, e⟩

theorem exists_of_le (h : IsDist E a b n) (hk : k ≤ n) : ∃ c, IsDist E a c k := by
  induction n generalizing b with
  | zero => exact ⟨b, by rwa [Nat.le_zero.mp hk]⟩
  | succ n hi =>
    obtain rfl | hk := Nat.eq_or_lt_of_le hk
    · exact ⟨b, h⟩
    · obtain ⟨c, hc, -⟩ := h.pred
      exact hi hc (Nat.le_of_lt_succ hk)

-- There is a node at each of the smaller distances.
theorem lt_card {s : Finset α} (hs : ∀ c, ReflTransGen E a c → c ∈ s) (h : IsDist E a b n) : n < s.card := by
  have : Nonempty α := ⟨a⟩
  choose! node hnode using fun k (hk : k ≤ n) => h.exists_of_le hk
  have hcard := Finset.card_le_card_of_injOn (s := Finset.range (n + 1)) (t := s) node
    (fun k hk => hs _ (hnode k (Finset.mem_range_succ_iff.mp hk)).reflTransGen) (by
      intro k hk j hj he
      have hj' := hnode j (Finset.mem_range_succ_iff.mp hj)
      rw [← he] at hj'
      exact (hnode k (Finset.mem_range_succ_iff.mp hk)).eq hj')
  rwa [Finset.card_range] at hcard

end IsDist

theorem exists_isDist (h : ReflTransGen E a b) : ∃ n, IsDist E a b n := by
  classical
  have hex := walk_of_reflTransGen h
  exact ⟨Nat.find hex, Nat.find_spec hex, fun _ h => Nat.find_min' hex h⟩

theorem ShortestPath.of_isDist (h : IsDist E a b p.length) (hp : List.IsChain E (a :: p))
    (hb : (a :: p).getLast? = some b) : ShortestPath E a b p :=
  ⟨hp, hb, fun _ hq hqb => h.2 (walk_of_isChain hq hqb)⟩

end Distances
