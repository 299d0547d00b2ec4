import Mathlib

-- Postconditions of computations that can fail: `Post x P Q` says that `x` either returns a value
-- with `P` or fails with an error with `Q`.

namespace Except

variable {ε α β σ ι : Type _}

def Post (x : Except ε α) (P : α → Prop) (Q : ε → Prop) : Prop :=
  match x with
  | .ok a    => P a
  | .error e => Q e

namespace Post

variable {x : Except ε α} {P P' : α → Prop} {Q Q' : ε → Prop}

@[simp]
theorem ok_iff {a : α} : Post (.ok a : Except ε α) P Q ↔ P a :=
  .rfl

@[simp]
theorem error_iff {e : ε} : Post (.error e : Except ε α) P Q ↔ Q e :=
  .rfl

@[simp]
theorem pure_iff {a : α} : Post (pure a : Except ε α) P Q ↔ P a :=
  .rfl

theorem mono (h : Post x P Q) (hp : ∀ a, P a → P' a) (hq : ∀ e, Q e → Q' e) : Post x P' Q' :=
  match x, h with
  | .ok _, h    => hp _ h
  | .error _, h => hq _ h

theorem bind {f : α → Except ε β} {P' : β → Prop} (h : Post x P Q) (hf : ∀ a, P a → Post (f a) P' Q) :
    Post (x >>= f) P' Q :=
  match x, h with
  | .ok _, h    => hf _ h
  | .error _, h => h

theorem with_eq (h : Post x P Q) : Post x (fun a => x = .ok a ∧ P a) Q :=
  match x, h with
  | .ok _, h    => ⟨rfl, h⟩
  | .error _, h => h

theorem exists_ok (h : Post x P fun _ => False) : ∃ a, x = .ok a ∧ P a :=
  match x, h with
  | .ok a, h => ⟨a, rfl, h⟩

theorem of_ok {a : α} (h : Post x P Q) (he : x = .ok a) : P a := by
  subst he
  exact h

theorem of_error {e : ε} (h : Post x P Q) (he : x = .error e) : Q e := by
  subst he
  exact h

-- The rule for loops: `step` preserves the invariant `I`, moves up in the preorder `le`, and
-- establishes `D` for the element at hand, which later iterations do not lose.
theorem foldlM {f : σ → ι → Except ε σ} {is : List ι} {s : σ} (I : σ → Prop) (le : σ → σ → Prop)
    (D : ι → σ → Prop) (refl : ∀ s, le s s) (trans : ∀ {s₁ s₂ s₃}, le s₁ s₂ → le s₂ s₃ → le s₁ s₃)
    (stable : ∀ {i s₁ s₂}, le s₁ s₂ → D i s₁ → D i s₂)
    (step : ∀ i ∈ is, ∀ s₁, le s s₁ → I s₁ → Post (f s₁ i) (fun s₂ => I s₂ ∧ le s₁ s₂ ∧ D i s₂) Q)
    (init : I s) : Post (is.foldlM f s) (fun s' => I s' ∧ le s s' ∧ ∀ i ∈ is, D i s') Q := by
  induction is generalizing s
  case nil => exact ⟨init, refl s, by simp⟩
  case cons i is hi =>
    rw [List.foldlM_cons]
    refine (step i List.mem_cons_self s (refl s) init).bind fun s₁ ⟨h₁, hl₁, hd⟩ => ?_
    refine (hi (fun j hj s₂ hl => step j (List.mem_cons_of_mem _ hj) s₂ (trans hl₁ hl)) h₁).mono ?_
      fun _ h => h
    intro s₂ ⟨h₂, hl₂, hds⟩
    refine ⟨h₂, trans hl₁ hl₂, fun j hj => ?_⟩
    cases List.mem_cons.mp hj with
    | inl he => exact he ▸ stable hl₂ hd
    | inr hj => exact hds j hj

-- The rule for loops whose invariant speaks about the elements that are still to come.
theorem foldlM_rest {f : σ → ι → Except ε σ} {is : List ι} {s : σ} (I : List ι → σ → Prop)
    (step : ∀ i is s, I (i :: is) s → Post (f s i) (I is) Q) (init : I is s) :
    Post (is.foldlM f s) (I []) Q := by
  induction is generalizing s
  case nil => exact init
  case cons i is hi =>
    rw [List.foldlM_cons]
    exact (step i is s init).bind fun s h => hi h

end Post

-- A loop of checks that all pass.
theorem forM_ok {f : ι → Except ε PUnit} {is : List ι} (h : ∀ i ∈ is, f i = .ok ⟨⟩) :
    is.forM f = .ok ⟨⟩ := by
  induction is with
  | nil => rfl
  | cons i is hi =>
    have hs : (i :: is).forM f = f i >>= fun _ => is.forM f := rfl
    rw [hs, h i List.mem_cons_self]
    exact hi fun j hj => h j (List.mem_cons_of_mem i hj)

end Except
