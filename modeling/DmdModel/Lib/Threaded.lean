import Mathlib

-- Lists that are threaded through a table. The table has the successor of every entry, and the index
-- `stop` ends the list.

namespace Threaded

inductive Chain (next : Nat → Nat) (stop : Nat) : Nat → List Nat → Prop
  | nil : Chain next stop stop []
  | cons {i : Nat} {l : List Nat} (lt : i < stop) (rest : Chain next stop (next i) l) :
    Chain next stop i (i :: l)

namespace Chain

variable {next next' : Nat → Nat} {stop first i : Nat} {l l' : List Nat}

theorem congr (h : Chain next stop first l) (hn : ∀ i ∈ l, next' i = next i) :
    Chain next' stop first l := by
  induction h with
  | nil => exact .nil
  | @cons i l lt rest hi =>
    refine .cons lt ?_
    rw [hn i List.mem_cons_self]
    exact hi fun j hj => hn j (List.mem_cons_of_mem i hj)

theorem le (h : Chain next stop first l) : first ≤ stop := by
  cases h with
  | nil => exact Nat.le_refl _
  | cons lt => exact lt.le

theorem lt_of_mem (h : Chain next stop first l) (hi : i ∈ l) : i < stop := by
  induction h with
  | nil => cases hi
  | cons lt _ hi' =>
    cases hi with
    | head => exact lt
    | tail _ hi => exact hi' hi

theorem next_le (h : Chain next stop first l) (hi : i ∈ l) : next i ≤ stop := by
  induction h with
  | nil => cases hi
  | cons _ rest hi' =>
    cases hi with
    | head => exact rest.le
    | tail _ hi => exact hi' hi

-- The list begins with the first index, unless it is empty.
theorem eq_nil (h : Chain next stop first l) (hf : stop ≤ first) : l = [] := by
  cases h with
  | nil => rfl
  | cons lt => omega

theorem eq_cons (h : Chain next stop first l) (hf : first < stop) :
    ∃ l', l = first :: l' ∧ Chain next stop (next first) l' := by
  cases h with
  | nil => exact absurd hf (Nat.lt_irrefl _)
  | cons _ rest => exact ⟨_, rfl, rest⟩

theorem eq_nil_iff (h : Chain next stop first l) : l = [] ↔ stop ≤ first := by
  constructor
  · rintro rfl
    cases h
    exact Nat.le_refl _
  · exact h.eq_nil

theorem unique (h : Chain next stop first l) (h' : Chain next stop first l') : l = l' := by
  induction h generalizing l' with
  | nil => exact (h'.eq_nil (Nat.le_refl _)).symm
  | cons lt _ hi =>
    obtain ⟨l'', rfl, hr⟩ := h'.eq_cons lt
    rw [hi hr]

theorem tail_of_mem (h : Chain next stop first l) (hi : i ∈ l) :
    ∃ l', Chain next stop i l' ∧ l'.length ≤ l.length := by
  induction h with
  | nil => cases hi
  | @cons j l lt rest hi' =>
    cases hi with
    | head => exact ⟨_, .cons lt rest, Nat.le_refl _⟩
    | tail _ hi =>
      obtain ⟨l', h', hl⟩ := hi' hi
      exact ⟨l', h', hl.trans (Nat.le_succ _)⟩

-- An entry does not come back, as the list would not end.
theorem nodup (h : Chain next stop first l) : l.Nodup := by
  induction h with
  | nil => exact List.nodup_nil
  | @cons i l lt rest hi =>
    refine List.nodup_cons.mpr ⟨fun hm => ?_, hi⟩
    obtain ⟨l', h', hl⟩ := rest.tail_of_mem hm
    rw [h'.unique (.cons lt rest), List.length_cons] at hl
    omega

-- Put an entry in front.
theorem push (h : Chain next stop first l) (hi : i < stop) (hm : i ∉ l) :
    Chain (Function.update next i first) stop i (i :: l) := by
  refine .cons hi ?_
  rw [Function.update_self]
  exact h.congr fun j hj => Function.update_of_ne (ne_of_mem_of_not_mem hj hm) _ _

-- Change an entry that is not in the list.
theorem update (h : Chain next stop first l) (hm : i ∉ l) (n : Nat) :
    Chain (Function.update next i n) stop first l :=
  h.congr fun _ hj => Function.update_of_ne (ne_of_mem_of_not_mem hj hm) _ _

-- Every index from `first` on, in their order.
theorem range' (hf : first ≤ stop) : Chain (· + 1) stop first (List.range' first (stop - first)) := by
  obtain ⟨n, rfl⟩ := Nat.exists_eq_add_of_le hf
  rw [Nat.add_sub_cancel_left]
  clear hf
  induction n generalizing first with
  | zero => exact .nil
  | succ n hi =>
    rw [List.range'_succ]
    refine .cons (by omega) ?_
    have h := @hi (first + 1)
    rwa [show first + 1 + n = first + (n + 1) by omega] at h

end Chain
end Threaded
