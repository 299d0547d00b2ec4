import Mathlib

-- Loops that compute a value from itself until it stays the same.

namespace FixedPoint

variable {α : Type*} [DecidableEq α] {f : α → α} {fuel n : Nat} {a b x y : α}

-- There is no result if the fuel does not last.
def iterate (f : α → α) : (fuel : Nat) → α → Option α
  | 0, _        => none
  | fuel + 1, x => if f x = x then some x else iterate f fuel (f x)

def Converges (f : α → α) (x y : α) : Prop :=
  ∃ fuel, iterate f fuel x = some y

theorem iterate_fixed (h : iterate f fuel x = some y) : f y = y := by
  induction fuel generalizing x
  case zero => cases h
  case succ fuel ih =>
    rw [iterate] at h
    split at h
    case isTrue hfix => exact Option.some.inj h ▸ hfix
    case isFalse     => exact ih h

theorem Converges.fixed (h : Converges f x y) : f y = y := by
  obtain ⟨fuel, h⟩ := h
  exact iterate_fixed h

theorem converges_self (h : f x = x) : Converges f x x :=
  ⟨1, if_pos h⟩

theorem converges_next (h : Converges f (f x) y) : Converges f x y := by
  by_cases hfix : f x = x
  case pos => rwa [hfix] at h
  case neg =>
    obtain ⟨fuel, h⟩ := h
    exact ⟨fuel + 1, (if_neg hfix).trans h⟩

theorem converges_next_iff : Converges f x y ↔ Converges f (f x) y := by
  refine ⟨fun h => ?_, converges_next⟩
  obtain ⟨fuel, h⟩ := h
  cases fuel
  case zero => cases h
  case succ fuel =>
    rw [iterate] at h
    split at h
    case isTrue hfix =>
      rw [hfix, ← Option.some.inj h]
      exact converges_self hfix
    case isFalse => exact ⟨fuel, h⟩

theorem iterate_alternating (hab : f a = b) (hba : f b = a) (hne : a ≠ b) : iterate f fuel a = none := by
  induction fuel generalizing a b
  case zero => rfl
  case succ fuel ih =>
    rw [iterate, if_neg (fun h => hne (h.symm.trans hab)), hab]
    exact ih hba hab hne.symm

-- A loop that gets to two values that alternate does not end.
theorem not_converges_alternating (hab : f a = b) (hba : f b = a) (hne : a ≠ b) : ¬Converges f a y := by
  intro ⟨fuel, h⟩
  rw [iterate_alternating hab hba hne] at h
  cases h

end FixedPoint
