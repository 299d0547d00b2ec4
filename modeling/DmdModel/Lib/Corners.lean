import Mathlib

-- Bounds of a function of two arguments over a box, from its values in the corners.

namespace Corners

variable {α β γ : Type*} [Preorder α] [Preorder β] [LinearOrder γ]

-- A function that goes one way between two points
def OneWay (f : α → γ) (a₀ a₁ : α) : Prop :=
  MonotoneOn f (Set.Icc a₀ a₁) ∨ AntitoneOn f (Set.Icc a₀ a₁)

theorem OneWay.comp {δ : Type*} [LinearOrder δ] {f : α → γ} {g : γ → δ} {a₀ a₁ : α} (h : OneWay f a₀ a₁)
    (hg : Monotone g) : OneWay (g ∘ f) a₀ a₁ := by
  obtain h | h := h
  case inl => exact .inl (hg.comp_monotoneOn h)
  case inr => exact .inr (hg.comp_antitoneOn h)

theorem OneWay.between {f : α → γ} {a₀ a₁ a : α} (h : OneWay f a₀ a₁) (ha : a ∈ Set.Icc a₀ a₁) :
    min (f a₀) (f a₁) ≤ f a ∧ f a ≤ max (f a₀) (f a₁) := by
  have hle := ha.1.trans ha.2
  have h₀ : a₀ ∈ Set.Icc a₀ a₁ := ⟨le_rfl, hle⟩
  have h₁ : a₁ ∈ Set.Icc a₀ a₁ := ⟨hle, le_rfl⟩
  obtain h | h := h
  case inl => exact ⟨min_le_of_left_le (h h₀ ha ha.1), le_max_of_le_right (h ha h₁ ha.2)⟩
  case inr => exact ⟨min_le_of_right_le (h ha h₁ ha.2), le_max_of_le_left (h h₀ ha ha.1)⟩

variable {f : α → β → γ} {a₀ a₁ a : α} {b₀ b₁ b : β}

theorem between (hf : ∀ b ∈ Set.Icc b₀ b₁, OneWay (f · b) a₀ a₁) (hf₀ : OneWay (f a₀) b₀ b₁)
    (hf₁ : OneWay (f a₁) b₀ b₁) (ha : a ∈ Set.Icc a₀ a₁) (hb : b ∈ Set.Icc b₀ b₁) :
    min (min (f a₀ b₀) (f a₀ b₁)) (min (f a₁ b₀) (f a₁ b₁)) ≤ f a b ∧
      f a b ≤ max (max (f a₀ b₀) (f a₀ b₁)) (max (f a₁ b₀) (f a₁ b₁)) := by
  have hab := (hf b hb).between ha
  have h₀ := hf₀.between hb
  have h₁ := hf₁.between hb
  exact ⟨(min_le_min h₀.1 h₁.1).trans hab.1, hab.2.trans (max_le_max h₀.2 h₁.2)⟩

end Corners
