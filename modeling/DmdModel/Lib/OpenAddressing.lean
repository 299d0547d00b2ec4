import Mathlib

-- Probing at triangular distances: the `n`-th probe looks at `start + n(n+1)/2` modulo the size. If
-- the size is a power of two, the first probes visit every slot.

namespace TriangularProbe

-- The sequence as a loop computes it: the distance between two probes grows by one each time.
def probe (size start : Nat) : Nat → Nat
  | 0     => start % size
  | n + 1 => (probe size start n + (n + 1)) % size

variable {size start : Nat}

theorem probe_lt (h : 0 < size) : (n : Nat) → probe size start n < size
  | 0 | _ + 1 => Nat.mod_lt _ h

theorem probe_eq (n : Nat) : probe size start n = (start + n * (n + 1) / 2) % size := by
  induction n
  case zero => simp [probe]
  case succ n hi =>
    have ht : (n + 1) * (n + 1 + 1) / 2 = n * (n + 1) / 2 + (n + 1) := by
      rw [← Nat.add_mul_div_left _ _ Nat.two_pos]
      congr 1
      ring
    rw [probe, hi, ht, Nat.mod_add_mod, Nat.add_assoc]

theorem two_mul_triangle (n : Nat) : 2 * (n * (n + 1) / 2) = n * (n + 1) :=
  Nat.mul_div_cancel' (Nat.even_mul_succ_self n).two_dvd

-- Of the two factors `b - a` and `b + a + 1` one is odd, so a power of two that divides the product
-- divides the other one, which is too small for that.
theorem probe_injOn {k a b : Nat} (hab : a < b) (hb : b < 2 ^ k) :
    probe (2 ^ k) start a ≠ probe (2 ^ k) start b := by
  intro he
  rw [probe_eq, probe_eq] at he
  replace he : a * (a + 1) / 2 ≡ b * (b + 1) / 2 [MOD 2 ^ k] := Nat.ModEq.add_left_cancel' start he
  have hle : a * (a + 1) / 2 ≤ b * (b + 1) / 2 :=
    Nat.div_le_div_right (Nat.mul_le_mul hab.le (Nat.succ_le_succ hab.le))
  have hd : 2 ^ k ∣ b * (b + 1) / 2 - a * (a + 1) / 2 := (Nat.modEq_iff_dvd' hle).mp he
  have hd : 2 ^ (k + 1) ∣ (b - a) * (b + a + 1) := by
    have h2 := Nat.mul_dvd_mul_left 2 hd
    rw [Nat.mul_sub, two_mul_triangle, two_mul_triangle] at h2
    obtain ⟨c, rfl⟩ := Nat.exists_eq_add_of_lt hab
    have hc : (a + c + 1) * (a + c + 1 + 1) - a * (a + 1) =
        (a + c + 1 - a) * (a + c + 1 + a + 1) := by
      rw [Nat.add_assoc a c 1, Nat.add_sub_cancel_left, Nat.sub_eq_iff_eq_add]
      · ring
      · exact Nat.mul_le_mul (by omega) (by omega)
    rw [← hc, pow_succ, Nat.mul_comm]
    exact h2
  have hpow : 2 ^ (k + 1) = 2 * 2 ^ k := by rw [pow_succ, Nat.mul_comm]
  rcases Nat.even_or_odd (b - a) with h | h
  · -- the difference is even, the sum is odd
    have hodd : Odd (b + a + 1) := by
      obtain ⟨c, hc⟩ := h
      exact ⟨c + a, by omega⟩
    have := (Nat.Coprime.pow_left (k + 1) (Nat.coprime_two_left.mpr hodd)).dvd_of_dvd_mul_right hd
    have := Nat.le_of_dvd (by omega) this
    omega
  · have := (Nat.Coprime.pow_left (k + 1) (Nat.coprime_two_left.mpr h)).dvd_of_dvd_mul_left hd
    have := Nat.le_of_dvd (by omega) this
    omega

theorem probe_surjective {k i : Nat} (hi : i < 2 ^ k) :
    ∃ n < 2 ^ k, probe (2 ^ k) start n = i := by
  have hpos : 0 < 2 ^ k := Nat.two_pow_pos k
  let f : Fin (2 ^ k) → Fin (2 ^ k) := fun n => ⟨probe (2 ^ k) start n, probe_lt hpos n⟩
  have hf : Function.Injective f := by
    intro a b h
    have h : probe (2 ^ k) start a = probe (2 ^ k) start b := congrArg Fin.val h
    rcases Nat.lt_trichotomy a b with hlt | he | hlt
    · exact absurd h (probe_injOn hlt b.isLt)
    · exact Fin.ext he
    · exact absurd h.symm (probe_injOn hlt a.isLt)
  have ⟨n, hn⟩ := Finite.surjective_of_injective hf ⟨i, hi⟩
  exact ⟨n, n.isLt, congrArg Fin.val hn⟩

-- No probe after the first `2 ^ k` ones looks at a slot that these have not looked at.
theorem probe_visited (k n : Nat) : ∃ m < 2 ^ k, probe (2 ^ k) start m = probe (2 ^ k) start n :=
  probe_surjective (probe_lt (Nat.two_pow_pos k) n)

end TriangularProbe

-- Tables of slots that are searched by probing and that nothing is ever removed from. The slots from 0
-- to `size` are in use, and a free one of them ends a search.

namespace OpenAddressing

open TriangularProbe

variable {α : Type _}

-- The slots that are not free.
def contents (free : α → Bool) (table : Nat → α) (size : Nat) : List α :=
  ((List.range size).map table).filter fun x => !free x

-- A search comes to slot `i` before it comes to a free slot.
def Comes (free : α → Bool) (table : Nat → α) (size start i : Nat) : Prop :=
  ∃ n, probe size start n = i ∧ ∀ m < n, free (table (probe size start m)) = false

-- A search for an element comes to its slot.
def Reached (free : α → Bool) (hash : α → Nat) (table : Nat → α) (size : Nat) : Prop :=
  ∀ i < size, free (table i) = false → Comes free table size (hash (table i)) i

variable {free : α → Bool} {hash : α → Nat} {table : Nat → α} {size start i k : Nat} {x : α}

theorem mem_contents : x ∈ contents free table size ↔ ∃ i < size, table i = x ∧ free x = false := by
  rw [contents, List.mem_filter, List.mem_map]
  constructor
  · intro ⟨⟨i, hi, he⟩, hf⟩
    exact ⟨i, List.mem_range.mp hi, he, by simpa using hf⟩
  · intro ⟨i, hi, he, hf⟩
    exact ⟨⟨i, List.mem_range.mpr hi, he⟩, by simpa using hf⟩

theorem contents_update (hi : i < size) (hf : free (table i)) (hx : free x = false) :
    (contents free (Function.update table i x) size).Perm (x :: contents free table size) := by
  obtain ⟨l, r, hl⟩ := List.append_of_mem (List.mem_range.mpr hi)
  have hd : (l ++ i :: r).Nodup := hl ▸ List.nodup_range
  have hn := List.nodup_middle.mp hd
  have hne := (List.nodup_cons.mp hn).left
  have hmap {l' : List Nat} (hsub : ∀ j ∈ l', j ∈ l ++ r) :
      l'.map (Function.update table i x) = l'.map table := by
    refine List.map_congr_left fun j hj => Function.update_of_ne ?_ _ _
    rintro rfl
    exact hne (hsub j hj)
  rw [contents, contents, hl, List.map_append, List.map_cons, List.map_append, List.map_cons,
    hmap fun j hj => List.mem_append_left _ hj, hmap fun j hj => List.mem_append_right _ hj,
    Function.update_self, List.filter_append, List.filter_append,
    List.filter_cons_of_pos (by simp [hx]), List.filter_cons_of_neg (by simp [hf])]
  exact List.perm_middle

-- An element takes the place of another one.
theorem contents_replace (hi : i < size) (hf : free (table i) = false) (hx : free x = false) :
    ∃ l, (contents free table size).Perm (table i :: l) ∧
      (contents free (Function.update table i x) size).Perm (x :: l) := by
  obtain ⟨l, r, hl⟩ := List.append_of_mem (List.mem_range.mpr hi)
  have hd : (l ++ i :: r).Nodup := hl ▸ List.nodup_range
  have hne := (List.nodup_cons.mp (List.nodup_middle.mp hd)).left
  have hmap {l' : List Nat} (hsub : ∀ j ∈ l', j ∈ l ++ r) :
      l'.map (Function.update table i x) = l'.map table := by
    refine List.map_congr_left fun j hj => Function.update_of_ne ?_ _ _
    rintro rfl
    exact hne (hsub j hj)
  refine ⟨(l.map table ++ r.map table).filter fun x => !free x, ?_, ?_⟩
  · rw [contents, hl, List.map_append, List.map_cons, List.filter_append, List.filter_append,
      List.filter_cons_of_pos (by simp [hf])]
    exact List.perm_middle
  · rw [contents, hl, List.map_append, List.map_cons, hmap fun j hj => List.mem_append_left _ hj,
      hmap fun j hj => List.mem_append_right _ hj, Function.update_self, List.filter_append,
      List.filter_append, List.filter_cons_of_pos (by simp [hx])]
    exact List.perm_middle

theorem exists_free (h : (contents free table size).length < size) :
    ∃ i < size, free (table i) = true := by
  by_contra hn
  push Not at hn
  have hall : contents free table size = (List.range size).map table := by
    refine List.filter_eq_self.mpr fun x hx => ?_
    obtain ⟨i, hi, rfl⟩ := List.mem_map.mp hx
    simpa using hn i (List.mem_range.mp hi)
  rw [hall, List.length_map, List.length_range] at h
  exact absurd h (Nat.lt_irrefl size)

-- Filling a slot does not get into the way of a search.
theorem Comes.update (h : Comes free table size start i) {j : Nat} (hx : free x = false) :
    Comes free (Function.update table j x) size start i := by
  have ⟨n, hn, hm⟩ := h
  refine ⟨n, hn, fun m hmn => ?_⟩
  by_cases hj : probe size start m = j
  · rw [hj, Function.update_self, hx]
  · rw [Function.update_of_ne hj, hm m hmn]

theorem Reached.update (h : Reached free hash table size) (hi : Comes free table size (hash x) i)
    (hx : free x = false) : Reached free hash (Function.update table i x) size := by
  intro j hj hf
  by_cases hji : j = i
  case pos =>
    subst hji
    rw [Function.update_self]
    exact hi.update hx
  case neg =>
    rw [Function.update_of_ne hji] at hf ⊢
    exact (h j hj hf).update hx

-- The first slot on the way of a search with a property.
structure First (stop : α → Prop) (table : Nat → α) (size start i : Nat) : Prop where
  holds : stop (table i)
  way   : ∃ n, probe size start n = i ∧ ∀ m < n, ¬stop (table (probe size start m))

theorem First.lt {stop : α → Prop} (h : First stop table size start i) (hs : 0 < size) :
    i < size := by
  have ⟨n, hn, _⟩ := h.way
  exact hn ▸ probe_lt hs n

theorem First.congr {stop stop' : α → Prop} (h : First stop table size start i) (hs : ∀ x, stop x ↔ stop' x) :
    First stop' table size start i where
  holds := (hs _).mp h.holds
  way   := by
    obtain ⟨n, hn, hm⟩ := h.way
    exact ⟨n, hn, fun m hmn hstop => hm m hmn ((hs _).mpr hstop)⟩

section search

-- A search ends at the free slots, and at those that match what is searched for.
variable {isMatch : α → Prop}

theorem First.comes (h : First (fun x => free x ∨ isMatch x) table size start i) :
    Comes free table size start i := by
  have ⟨n, hn, hm⟩ := h.way
  refine ⟨n, hn, fun m hmn => ?_⟩
  by_contra hf
  exact hm m hmn <| .inl (by simpa using hf)

-- A search does not end at a free slot if there is one that matches.
theorem First.isMatch_of_comes {j : Nat}
    (h : First (fun x => free x ∨ isMatch x) table size start i)
    (hj : Comes free table size start j) (hf : free (table j) = false) (hm : isMatch (table j)) :
    isMatch (table i) := by
  have ⟨m, hi, hmw⟩ := h.way
  have ⟨n, hjn, hnw⟩ := hj
  refine h.holds.resolve_left fun hfree => ?_
  rcases Nat.lt_trichotomy m n with hlt | rfl | hgt
  · have := hnw m hlt
    rw [hi, hfree] at this
    cases this
  · rw [← hjn, hi, hfree] at hf
    cases hf
  · exact absurd (.inr (hjn ▸ hm)) (hmw n hgt)

end search

end OpenAddressing
