import Mathlib

-- Uses and definitions of one location in the traces of a piece of code, and their summary by two
-- bits: whether some trace uses the location before it defines it, and whether all traces define it.
namespace UseDef

variable {α : Type*} {uses defs : α → Prop} {a : α} {t u : List α}

-- Some step of the trace uses the location, and none before it defines it.
def UsedFirst (uses defs : α → Prop) : List α → Prop
  | []     => False
  | a :: t => uses a ∨ ¬defs a ∧ UsedFirst uses defs t

-- No step of the trace defines the location.
def Passes (defs : α → Prop) (t : List α) : Prop :=
  ∀ a ∈ t, ¬defs a

@[simp]
theorem Passes.nil : Passes defs [] := by
  simp [Passes]

theorem passes_append : Passes defs (t ++ u) ↔ Passes defs t ∧ Passes defs u := by
  simp [Passes, or_imp, forall_and]

theorem passes_singleton : Passes defs [a] ↔ ¬defs a := by
  simp [Passes]

theorem usedFirst_singleton : UsedFirst uses defs [a] ↔ uses a := by
  simp [UsedFirst]

theorem usedFirst_append :
    UsedFirst uses defs (t ++ u) ↔
      UsedFirst uses defs t ∨ Passes defs t ∧ UsedFirst uses defs u := by
  induction t with
  | nil => simp [UsedFirst]
  | cons a t ih =>
    have hp : Passes defs (a :: t) ↔ ¬defs a ∧ Passes defs t := List.forall_mem_cons
    rw [List.cons_append, UsedFirst, UsedFirst, ih, hp]
    tauto

theorem exists_mem_singleton {p : List α → Prop} : (∃ t ∈ ({[a]} : Language α), p t) ↔ p [a] :=
  ⟨fun ⟨_, ht, h⟩ => Set.mem_singleton_iff.mp ht ▸ h, fun h => ⟨[a], rfl, h⟩⟩

theorem UsedFirst.intro (ha : uses a) (ht : Passes defs t) :
    UsedFirst uses defs (t ++ a :: u) :=
  (usedFirst_append).mpr <| .inr ⟨ht, .inl ha⟩

theorem UsedFirst.mono {uses' : α → Prop} (hu : ∀ a, uses a → uses' a)
    (h : UsedFirst uses defs t) : UsedFirst uses' defs t := by
  induction t with
  | nil => exact h
  | cons a t ih =>
    cases h with
    | inl h => exact .inl (hu a h)
    | inr h => exact .inr ⟨h.left, ih h.right⟩

-- The step that uses the location.
theorem UsedFirst.exists (h : UsedFirst uses defs t) :
    ∃ pre a post, t = pre ++ a :: post ∧ uses a ∧ Passes defs pre := by
  induction t with
  | nil => cases h
  | cons a t ih =>
    cases h with
    | inl h => exact ⟨[], a, t, rfl, h, .nil⟩
    | inr h =>
      obtain ⟨pre, b, post, rfl, hb, hpre⟩ := ih h.right
      exact ⟨a :: pre, b, post, rfl, hb, List.forall_mem_cons.mpr ⟨h.left, hpre⟩⟩

-- The bits g and k before a piece of code with the traces T, and g' and k' after it.
structure Summarizes (uses defs : α → Prop) (T : Language α) (g k g' k' : Prop) : Prop where
  some     : ∃ t, t ∈ T
  gen      : g' ↔ g ∨ ¬k ∧ ∃ t ∈ T, UsedFirst uses defs t
  mono     : k → k'
  kill     : k' → k ∨ ∀ t ∈ T, ¬Passes defs t
  gap      : ¬g' → ¬k' → ∃ t ∈ T, Passes defs t
  disjoint : ¬(g ∧ k) → ¬(g' ∧ k')

namespace Summarizes

variable {T U : Language α} {g k g' k' g₁ k₁ g₂ k₂ : Prop}

theorem gen_mono (h : Summarizes uses defs T g k g' k') (hg : g) : g' :=
  h.gen.mpr (.inl hg)

theorem gen_iff (h : Summarizes uses defs T False False g' k') :
    g' ↔ ∃ t ∈ T, UsedFirst uses defs t := by
  simpa using h.gen

theorem not_kill (h : Summarizes uses defs T g k g' k') (hk : ¬k) (ht : t ∈ T)
    (hp : Passes defs t) : ¬k' :=
  fun hk' => (h.kill hk').elim hk fun hT => hT t ht hp

theorem refl : Summarizes uses defs 1 g k g k where
  some     := ⟨[], Language.nil_mem_one⟩
  gen      := by simp [Language.mem_one, UsedFirst]
  mono     := id
  kill     := .inl
  gap      := fun _ _ => ⟨[], Language.nil_mem_one, .nil⟩
  disjoint := id

theorem skip (hu : ¬uses a) (hd : ¬defs a) : Summarizes uses defs {[a]} g k g k where
  some     := ⟨[a], rfl⟩
  gen      := by simp [exists_mem_singleton, usedFirst_singleton, hu]
  mono     := id
  kill     := .inl
  gap      := fun _ _ => ⟨[a], rfl, (passes_singleton).mpr hd⟩
  disjoint := id

theorem use (hu : uses a) : Summarizes uses defs {[a]} g k (g ∨ ¬k) k where
  some     := ⟨[a], rfl⟩
  gen      := by simp [exists_mem_singleton, usedFirst_singleton, hu]
  mono     := id
  kill     := .inl
  gap      := fun h hk => absurd (.inr hk) h
  disjoint := fun h hgk => hgk.left.elim (fun hg => h ⟨hg, hgk.right⟩) (fun hk => hk hgk.right)

theorem define (hu : ¬uses a) (hd : defs a) : Summarizes uses defs {[a]} g k g (k ∨ ¬g) where
  some     := ⟨[a], rfl⟩
  gen      := by simp [exists_mem_singleton, usedFirst_singleton, hu]
  mono     := .inl
  kill     := fun _ => .inr fun t ht => by
    rw [Set.mem_singleton_iff.mp ht, passes_singleton]
    exact not_not_intro hd
  gap      := fun hg h => absurd (.inr hg) h
  disjoint := fun h hgk => hgk.right.elim (fun hk => h ⟨hgk.left, hk⟩) (fun hg => hg hgk.left)

-- A definition of a location that a bit is set for already.
theorem redefine (hu : ¬uses a) (h : g ∨ k) : Summarizes uses defs {[a]} g k g k where
  some     := ⟨[a], rfl⟩
  gen      := by simp [exists_mem_singleton, usedFirst_singleton, hu]
  mono     := id
  kill     := .inl
  gap      := fun hg hk => absurd h (not_or.mpr ⟨hg, hk⟩)
  disjoint := id

-- What a trace of two pieces of code uses first: the first piece uses it, or it lets it pass.
theorem exists_usedFirst_mul (hU : ∃ u, u ∈ U) :
    (∃ t ∈ T * U, UsedFirst uses defs t) ↔
      (∃ t ∈ T, UsedFirst uses defs t) ∨
        (∃ t ∈ T, Passes defs t) ∧ ∃ u ∈ U, UsedFirst uses defs u := by
  constructor
  case mp =>
    rintro ⟨_, htu, h⟩
    obtain ⟨t, ht, u, hu, rfl⟩ := Language.mem_mul.mp htu
    cases (usedFirst_append).mp h with
    | inl h => exact .inl ⟨t, ht, h⟩
    | inr h => exact .inr ⟨⟨t, ht, h.left⟩, ⟨u, hu, h.right⟩⟩
  case mpr =>
    rintro (⟨t, ht, h⟩ | ⟨⟨t, ht, hp⟩, ⟨u, hu, h⟩⟩)
    case inl =>
      obtain ⟨u, hu⟩ := hU
      exact ⟨t ++ u, Language.append_mem_mul ht hu, (usedFirst_append).mpr (.inl h)⟩
    case inr =>
      exact ⟨t ++ u, Language.append_mem_mul ht hu, (usedFirst_append).mpr (.inr ⟨hp, h⟩)⟩

theorem exists_passes_mul :
    (∃ t ∈ T * U, Passes defs t) ↔ (∃ t ∈ T, Passes defs t) ∧ ∃ u ∈ U, Passes defs u := by
  constructor
  case mp =>
    rintro ⟨_, htu, h⟩
    obtain ⟨t, ht, u, hu, rfl⟩ := Language.mem_mul.mp htu
    obtain ⟨h₁, h₂⟩ := (passes_append).mp h
    exact ⟨⟨t, ht, h₁⟩, ⟨u, hu, h₂⟩⟩
  case mpr =>
    rintro ⟨⟨t, ht, h₁⟩, ⟨u, hu, h₂⟩⟩
    exact ⟨t ++ u, Language.append_mem_mul ht hu, (passes_append).mpr ⟨h₁, h₂⟩⟩

-- The bits that a second piece of code adds to those of the first.
theorem gen_seq (h : Summarizes uses defs T g k g₁ k₁) (hU : ∃ u, u ∈ U) :
    (g₁ ∨ ¬k₁ ∧ ∃ u ∈ U, UsedFirst uses defs u) ↔
      g ∨ ¬k ∧ ∃ t ∈ T * U, UsedFirst uses defs t := by
  rw [exists_usedFirst_mul hU]
  constructor
  case mp =>
    rintro (hg | ⟨hk, hu⟩)
    case inl => exact (h.gen.mp hg).imp_right fun h => ⟨h.left, .inl h.right⟩
    case inr =>
      by_cases hg : g₁
      case pos => exact (h.gen.mp hg).imp_right fun h => ⟨h.left, .inl h.right⟩
      case neg => exact .inr ⟨mt h.mono hk, .inr ⟨h.gap hg hk, hu⟩⟩
  case mpr =>
    rintro (hg | ⟨hk, ht | ⟨⟨t, ht, hp⟩, hu⟩⟩)
    case inl       => exact .inl (h.gen_mono hg)
    case inr.inl   => exact .inl (h.gen.mpr (.inr ⟨hk, ht⟩))
    case inr.inr   => exact .inr ⟨h.not_kill hk ht hp, hu⟩

theorem seq (h₁ : Summarizes uses defs T g k g₁ k₁) (h₂ : Summarizes uses defs U g₁ k₁ g' k') :
    Summarizes uses defs (T * U) g k g' k' where
  some     := by
    obtain ⟨t, ht⟩ := h₁.some
    obtain ⟨u, hu⟩ := h₂.some
    exact ⟨t ++ u, Language.append_mem_mul ht hu⟩
  gen      := by rw [h₂.gen, h₁.gen_seq h₂.some]
  mono     := fun hk => h₂.mono (h₁.mono hk)
  kill     := fun hk => by
    rw [or_iff_not_imp_left]
    intro hn t ht hp
    obtain ⟨⟨t, ht, hp₁⟩, ⟨u, hu, hp₂⟩⟩ := (exists_passes_mul).mp ⟨t, ht, hp⟩
    exact h₂.not_kill (h₁.not_kill hn ht hp₁) hu hp₂ hk
  gap      := fun hg hk => by
    have hg₁ : ¬g₁ := mt h₂.gen_mono hg
    have hk₁ : ¬k₁ := mt h₂.mono hk
    exact (exists_passes_mul).mpr ⟨h₁.gap hg₁ hk₁, h₂.gap hg hk⟩
  disjoint := fun h => h₂.disjoint (h₁.disjoint h)

-- Two arms, each summarized on its own.
theorem arms (h₁ : Summarizes uses defs T False False g₁ k₁)
    (h₂ : Summarizes uses defs U False False g₂ k₂) :
    Summarizes uses defs (T + U) g k (g ∨ (g₁ ∨ g₂) ∧ ¬k)
      (k ∨ (k₁ ∧ k₂) ∧ ¬(g ∨ (g₁ ∨ g₂) ∧ ¬k)) where
  some     := by
    obtain ⟨t, ht⟩ := h₁.some
    exact ⟨t, .inl ht⟩
  gen      := by
    rw [h₁.gen_iff, h₂.gen_iff, and_comm]
    simp only [Language.mem_add, or_and_right, exists_or]
  mono     := .inl
  kill     := by
    rintro (hk | ⟨⟨hk₁, hk₂⟩, -⟩)
    case inl => exact .inl hk
    case inr =>
      refine .inr fun t ht hp => ?_
      cases ht with
      | inl ht => exact h₁.not_kill not_false ht hp hk₁
      | inr ht => exact h₂.not_kill not_false ht hp hk₂
  gap      := by
    intro hg hk
    obtain ⟨hng, hn⟩ := not_or.mp hg
    obtain ⟨hnk, hk'⟩ := not_or.mp hk
    have hg₁ : ¬g₁ := fun h => hn ⟨.inl h, hnk⟩
    have hg₂ : ¬g₂ := fun h => hn ⟨.inr h, hnk⟩
    by_cases hk₁ : k₁
    case pos =>
      have hk₂ : ¬k₂ := fun h => hk' ⟨⟨hk₁, h⟩, hg⟩
      obtain ⟨t, ht, hp⟩ := h₂.gap hg₂ hk₂
      exact ⟨t, .inr ht, hp⟩
    case neg =>
      obtain ⟨t, ht, hp⟩ := h₁.gap hg₁ hk₁
      exact ⟨t, .inl ht, hp⟩
  disjoint := by tauto

-- A second piece of code that may not run.
theorem maybe (h₁ : Summarizes uses defs T g k g₁ k₁)
    (h₂ : Summarizes uses defs U False False g₂ k₂) :
    Summarizes uses defs (T + T * U) g k (g₁ ∨ g₂ ∧ ¬k₁) k₁ where
  some     := by
    obtain ⟨t, ht⟩ := h₁.some
    exact ⟨t, .inl ht⟩
  gen      := by
    rw [and_comm, h₂.gen_iff, h₁.gen_seq h₂.some]
    simp only [Language.mem_add, or_and_right, exists_or, exists_usedFirst_mul h₂.some]
    rw [← or_assoc (a := ∃ t ∈ T, UsedFirst uses defs t), or_self]
  mono     := h₁.mono
  kill     := fun hk => by
    rw [or_iff_not_imp_left]
    intro hn t ht hp
    cases ht with
    | inl ht => exact h₁.not_kill hn ht hp hk
    | inr ht =>
      obtain ⟨⟨t, ht, hp⟩, -⟩ := (exists_passes_mul).mp ⟨t, ht, hp⟩
      exact h₁.not_kill hn ht hp hk
  gap      := fun hg hk => by
    obtain ⟨t, ht, hp⟩ := h₁.gap (fun h => hg (.inl h)) hk
    exact ⟨t, .inl ht, hp⟩
  disjoint := fun h hgk => by
    have := h₁.disjoint h
    tauto

theorem congr (h : Summarizes uses defs T g k g₁ k₁) (hg : g' ↔ g₁) (hk : k' ↔ k₁) :
    Summarizes uses defs T g k g' k' := by
  rwa [propext hg, propext hk]

end Summarizes

end UseDef
