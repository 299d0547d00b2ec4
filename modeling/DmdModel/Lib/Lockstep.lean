import Mathlib

-- Deterministic systems whose steps emit events and may end a run with an outcome, and the
-- equivalence of two of them by a relation that a few steps of each side lead back to.
namespace Lockstep

variable {C D F E O : Type*}

-- What k steps emit, and the state or the outcome that they lead to.
@[grind =]
def run (step : C → List E × (C ⊕ O)) : ℕ → C → List E × (C ⊕ O)
  | 0, c => ([], .inl c)
  | k + 1, c =>
    match step c with
    | (t, .inr o) => (t, .inr o)
    | (t, .inl c') => (t ++ (run step k c').1, (run step k c').2)

section

variable (step : C → List E × (C ⊕ O)) (c : C)

-- The events are the beginning of those of the run from c.
def Emits (t : List E) : Prop :=
  ∃ k, t <+: (run step k c).1

-- The run from c ends with the outcome o, after the events.
def Ends (t : List E) (o : O) : Prop :=
  ∃ k, run step k c = (t, .inr o)

def Diverges : Prop :=
  ∀ k, ∃ c', (run step k c).2 = .inl c'

end

-- The runs from c and d emit the same events, and end with the same outcome or not at all.
structure Equivalent (step : C → List E × (C ⊕ O)) (step' : D → List E × (D ⊕ O)) (c : C) (d : D) :
    Prop where
  emits : ∀ t, Emits step c t ↔ Emits step' d t
  ends  : ∀ t o, Ends step c t o ↔ Ends step' d t o

-- A few steps of each side emit the same events and lead back to R, or to the same outcome.
inductive Matches (step : C → List E × (C ⊕ O)) (step' : D → List E × (D ⊕ O)) (R : C → D → Prop)
    (c : C) (d : D) : Prop
  | go   (hi : run step (i + 1) c = (t, .inl c')) (hj : run step' (j + 1) d = (t, .inl d'))
    (h : R c' d')
  | stop (hi : run step i c = (t, .inr o)) (hj : run step' j d = (t, .inr o))

variable {step : C → List E × (C ⊕ O)} {step' : D → List E × (D ⊕ O)}
variable {step'' : F → List E × (F ⊕ O)} {c c' : C} {d d' : D} {f : F} {t t' : List E} {o : O}
variable {i j k : ℕ}

theorem run_add (hi : run step i c = (t, .inl c')) :
    run step (i + k) c = (t ++ (run step k c').1, (run step k c').2) := by
  induction i generalizing c t with
  | zero =>
    cases hi
    rw [zero_add, List.nil_append]
  | succ i ih =>
    rw [Nat.add_right_comm, run]
    rw [run] at hi
    split at hi
    case h_1 => cases hi
    case h_2 c₁ hs =>
      simp only [Prod.mk.injEq] at hi
      obtain ⟨rfl, hi⟩ := hi
      have h₁ : run step i c₁ = ((run step i c₁).1, .inl c') := Prod.ext rfl hi
      simp only [ih h₁, List.append_assoc]

theorem run_ended (hi : run step i c = (t, .inr o)) (hk : i ≤ k) : run step k c = (t, .inr o) := by
  induction i generalizing c t k with
  | zero => cases hi
  | succ i ih =>
    obtain ⟨k, rfl⟩ := Nat.exists_eq_add_of_le' (Nat.le_of_add_left_le hk)
    rw [run] at hi ⊢
    split at hi
    case h_1 => exact hi
    case h_2 c₁ hs =>
      simp only [Prod.mk.injEq] at hi
      obtain ⟨rfl, hi⟩ := hi
      have h₁ : run step i c₁ = ((run step i c₁).1, .inr o) := Prod.ext rfl hi
      simp only [ih h₁ (Nat.le_of_succ_le_succ hk)]

theorem run_prefix (hk : i ≤ k) : (run step i c).1 <+: (run step k c).1 := by
  cases hr : run step i c with
  | mk t r =>
    cases r with
    | inr o => rw [run_ended hr hk]
    | inl c' =>
      obtain ⟨m, rfl⟩ := Nat.exists_eq_add_of_le hk
      rw [run_add hr]
      exact List.prefix_append ..

theorem run_one : run step 1 c = step c := by
  match h : step c with
  | (t, .inl c') => simp [run, h]
  | (t, .inr o)  => simp [run, h]

-- One step before k others.
theorem run_step_add (hc : step c = (t, .inl c')) :
    run step (k + 1) c = (t ++ (run step k c').1, (run step k c').2) := by
  rw [run, hc]

theorem run_step_ended (hc : step c = (t, .inr o)) : run step (k + 1) c = (t, .inr o) := by
  rw [run, hc]

theorem run_one_go (hc : step c = (t, .inl c')) : run step 1 c = (t, .inl c') := by
  simp [run, hc]

theorem run_one_stop (hc : step c = (t, .inr o)) : run step 1 c = (t, .inr o) := by
  simp [run, hc]

theorem Ends.unique {o' : O} (h : Ends step c t o) (h' : Ends step c t' o') : t = t' ∧ o = o' := by
  obtain ⟨i, hi⟩ := h
  obtain ⟨j, hj⟩ := h'
  have heq := (run_ended hi (Nat.le_add_right i j)).symm.trans (run_ended hj (Nat.le_add_left j i))
  simpa using heq

theorem diverges_iff : Diverges step c ↔ ¬∃ t o, Ends step c t o := by
  constructor
  case mp =>
    rintro h ⟨t, o, k, hk⟩
    obtain ⟨c', hc'⟩ := h k
    rw [hk] at hc'
    cases hc'
  case mpr =>
    intro h k
    cases hr : (run step k c).2 with
    | inl c' => exact ⟨c', rfl⟩
    | inr o  => exact absurd ⟨_, o, k, Prod.ext rfl hr⟩ h

-- A run that stays among states from which there is always another step.
theorem diverges_of_invariant {P : C → Prop} (h : ∀ c, P c → ∃ t c', step c = (t, .inl c') ∧ P c')
    (hc : P c) : Diverges step c := by
  intro k
  induction k generalizing c with
  | zero => exact ⟨c, rfl⟩
  | succ k ih =>
    obtain ⟨t, c', hs, hc'⟩ := h c hc
    rw [run_step_add hs]
    exact ih hc'

namespace Equivalent

theorem refl (c : C) : Equivalent step step c c where
  emits _  := .rfl
  ends _ _ := .rfl

theorem symm (h : Equivalent step step' c d) : Equivalent step' step d c where
  emits t  := (h.emits t).symm
  ends t o := (h.ends t o).symm

theorem trans (h : Equivalent step step' c d) (h' : Equivalent step' step'' d f) :
    Equivalent step step'' c f where
  emits t  := (h.emits t).trans (h'.emits t)
  ends t o := (h.ends t o).trans (h'.ends t o)

theorem diverges_iff (h : Equivalent step step' c d) : Diverges step c ↔ Diverges step' d := by
  simp only [Lockstep.diverges_iff, h.ends]

end Equivalent

variable {R : C → D → Prop}

theorem Matches.symm (h : Matches step step' R c d) : Matches step' step (fun d c => R c d) d c := by
  cases h with
  | go hi hj h   => exact .go hj hi h
  | stop hi hj   => exact .stop hj hi

-- Some steps of each side come to the same.
theorem Matches.of_run {step step' : C → List E × (C ⊕ O)} {P : C → Prop}
    (h : run step (i + 1) c = run step' (j + 1) c')
    (hP : ∀ c'', (run step (i + 1) c).2 = .inl c'' → P c'') :
    Matches step step' (fun c d => c = d ∧ P c) c c' := by
  match hr : run step (i + 1) c with
  | (t, .inl c'') => exact .go hr (h.symm.trans hr) ⟨rfl, hP c'' (by rw [hr])⟩
  | (t, .inr o)   => exact .stop hr (h.symm.trans hr)

-- One step of each side.
theorem Matches.step_go (hc : step c = (t, .inl c')) (hd : step' d = (t, .inl d')) (h : R c' d') :
    Matches step step' R c d :=
  .go (i := 0) (j := 0) (run_one_go hc) (run_one_go hd) h

theorem Matches.step_stop (hc : step c = (t, .inr o)) (hd : step' d = (t, .inr o)) :
    Matches step step' R c d :=
  .stop (run_one_stop hc) (run_one_stop hd)

-- A state in which both take the same step.
theorem Matches.of_eq {step step' : C → List E × (C ⊕ O)} (h : step c = step' c) :
    Matches step step' Eq c c := by
  match hc : step c with
  | (t, .inl c') => exact .step_go hc (h.symm.trans hc) rfl
  | (t, .inr o)  => exact .step_stop hc (h.symm.trans hc)

-- The other side gets as far as k steps do.
theorem follows (h : ∀ c d, R c d → Matches step step' R c d) (hR : R c d) (k : ℕ) :
    ∃ k', (run step k c).1 <+: (run step' k' d).1 ∧
      ∀ o, (run step k c).2 = .inr o → run step' k' d = ((run step k c).1, .inr o) := by
  induction k using Nat.strong_induction_on generalizing c d with
  | _ k ih =>
    cases h c d hR with
    | @stop i t o j hi hj =>
      refine ⟨j, ?_, fun o' ho' => ?_⟩
      case refine_1 =>
        rw [hj]
        cases le_total k i with
        | inl hk =>
          have hp : (run step k c).1 <+: (run step i c).1 := run_prefix hk
          rwa [hi] at hp
        | inr hk => rw [run_ended hi hk]
      case refine_2 =>
        have hk : run step k c = (t, .inr o) := by
          cases le_total i k with
          | inl hk => exact run_ended hi hk
          | inr hk =>
            have hk' : run step k c = ((run step k c).1, .inr o') := Prod.ext rfl ho'
            have hi' := run_ended hk' hk
            rw [hi] at hi'
            rw [hk', ← hi']
        rw [hk] at ho' ⊢
        cases ho'
        exact hj
    | @go i t c' j d' hi hj hR' =>
      cases Nat.lt_or_ge i k with
      | inr hk =>
        refine ⟨j + 1, ?_, fun o ho => ?_⟩
        case refine_1 =>
          rw [hj]
          have hp : (run step k c).1 <+: (run step (i + 1) c).1 := run_prefix (Nat.le_succ_of_le hk)
          rwa [hi] at hp
        case refine_2 =>
          have hk' : run step k c = ((run step k c).1, .inr o) := Prod.ext rfl ho
          have hi' := run_ended hk' (Nat.le_succ_of_le hk)
          rw [hi] at hi'
          cases hi'
      | inl hk =>
        obtain ⟨m, rfl⟩ := Nat.exists_eq_add_of_le hk
        obtain ⟨k', hpre, hend⟩ := ih m (by omega) hR'
        rw [run_add hi]
        refine ⟨j + 1 + k', ?_, fun o ho => ?_⟩
        all_goals rw [run_add hj]
        case refine_1 => exact (List.prefix_append_right_inj t).mpr hpre
        case refine_2 => rw [hend o ho]

-- The simulation principle.
theorem equivalent_of_matches (h : ∀ c d, R c d → Matches step step' R c d) (hR : R c d) :
    Equivalent step step' c d where
  emits t := by
    constructor
    case mp =>
      rintro ⟨k, hk⟩
      obtain ⟨k', hpre, -⟩ := follows h hR k
      exact ⟨k', hk.trans hpre⟩
    case mpr =>
      rintro ⟨k, hk⟩
      obtain ⟨k', hpre, -⟩ := follows (R := fun d c => R c d) (fun d c hR => (h c d hR).symm) hR k
      exact ⟨k', hk.trans hpre⟩
  ends t o := by
    constructor
    case mp =>
      rintro ⟨k, hk⟩
      obtain ⟨k', -, hend⟩ := follows h hR k
      exact ⟨k', by rw [hend o (by rw [hk]), hk]⟩
    case mpr =>
      rintro ⟨k, hk⟩
      obtain ⟨k', -, hend⟩ := follows (R := fun d c => R c d) (fun d c hR => (h c d hR).symm) hR k
      exact ⟨k', by rw [hend o (by rw [hk]), hk]⟩

end Lockstep
