import Mathlib

-- Backward flow over a graph whose nodes are visited again and again in descending order. What
-- reaches a node in k rounds is what reaches it along a path with fewer than k edges to the same or a
-- smaller node.
namespace BackwardFlow

variable {ι : Type*} [LinearOrder ι]

-- A graph, the nodes at which the flow starts, those that it passes, and the exits at which it starts
-- if they let it pass.
structure Problem (ι : Type*) where
  succ  : ι → List ι
  start : ι → Prop
  pass  : ι → Prop
  exits : Prop

inductive Reaches (P : Problem ι) : ℕ → ι → Prop
  | start   (h : P.start b) : Reaches P k b
  | forward (hp : P.pass b) (hs : s ∈ P.succ b) (hl : b < s) (h : Reaches P (k + 1) s) :
    Reaches P (k + 1) b
  | retreat (hp : P.pass b) (hs : s ∈ P.succ b) (hl : s ≤ b) (h : Reaches P k s) :
    Reaches P (k + 1) b
  | exit    (hp : P.pass b) (hs : P.succ b = []) (he : P.exits) : Reaches P (k + 1) b

-- What leaves a node in a round.
inductive Leaves (P : Problem ι) (k : ℕ) (b : ι) : Prop
  | forward (hs : s ∈ P.succ b) (hl : b < s) (h : Reaches P (k + 1) s)
  | retreat (hs : s ∈ P.succ b) (hl : s ≤ b) (h : Reaches P k s)
  | exit    (hs : P.succ b = []) (he : P.exits)

variable {P Q : Problem ι} {j k : ℕ} {b s : ι}

theorem reaches_zero_iff : Reaches P 0 b ↔ P.start b :=
  ⟨fun | .start h => h, .start⟩

theorem reaches_succ_iff : Reaches P (k + 1) b ↔ P.start b ∨ P.pass b ∧ Leaves P k b := by
  constructor
  case mp =>
    intro h
    cases h with
    | start h            => exact .inl h
    | forward hp hs hl h => exact .inr ⟨hp, .forward hs hl h⟩
    | retreat hp hs hl h => exact .inr ⟨hp, .retreat hs hl h⟩
    | exit hp hs he      => exact .inr ⟨hp, .exit hs he⟩
  case mpr =>
    rintro (h | ⟨hp, ⟨hs, hl, h⟩ | ⟨hs, hl, h⟩ | ⟨hs, he⟩⟩)
    case inl => exact .start h
    · exact .forward hp hs hl h
    · exact .retreat hp hs hl h
    · exact .exit hp hs he

theorem Reaches.succ (h : Reaches P k b) : Reaches P (k + 1) b := by
  induction h with
  | start h              => exact .start h
  | forward hp hs hl _ h => exact .forward hp hs hl h
  | retreat hp hs hl _ h => exact .retreat hp hs hl h
  | exit hp hs he        => exact .exit hp hs he

theorem Reaches.mono (h : Reaches P j b) (hk : j ≤ k) : Reaches P k b := by
  induction hk with
  | refl      => exact h
  | step _ hi => exact hi.succ

-- The flow along any path.
def Reached (P : Problem ι) (b : ι) : Prop :=
  ∃ k, Reaches P k b

-- No node is reached in a further round that was not reached before.
def Stable (P : Problem ι) (k : ℕ) : Prop :=
  ∀ b, Reaches P (k + 1) b → Reaches P k b

theorem Stable.reaches (hk : Stable P k) (h : Reaches P j b) : Reaches P k b := by
  induction h with
  | start h              => exact .start h
  | forward hp hs hl _ h => exact hk _ (.forward hp hs hl h.succ)
  | retreat hp hs hl _ h => exact hk _ (.retreat hp hs hl h)
  | exit hp hs he        => exact hk _ (.exit hp hs he)

theorem Stable.reached_iff (hk : Stable P k) : Reached P b ↔ Reaches P k b :=
  ⟨fun ⟨_, h⟩ => hk.reaches h, fun h => ⟨k, h⟩⟩

theorem Stable.mono (h : Stable P j) (hk : j ≤ k) : Stable P k :=
  fun _ hr => (h.reaches hr).mono hk

theorem stable_iff : Stable P k ↔ ∀ b, Reached P b → Reaches P k b :=
  ⟨fun h _ => h.reached_iff.mp, fun h b hr => h b ⟨k + 1, hr⟩⟩

namespace Reached

theorem start (h : P.start b) : Reached P b :=
  ⟨0, .start h⟩

theorem exit (hp : P.pass b) (hs : P.succ b = []) (he : P.exits) : Reached P b :=
  ⟨1, .exit hp hs he⟩

theorem step (hp : P.pass b) (hs : s ∈ P.succ b) (h : Reached P s) : Reached P b := by
  obtain ⟨k, h⟩ := h
  cases le_or_gt s b with
  | inl hl => exact ⟨k + 1, .retreat hp hs hl h⟩
  | inr hl => exact ⟨k + 1, .forward hp hs hl h.succ⟩

-- The equation that the reached nodes solve.
theorem iff :
    Reached P b ↔
      P.start b ∨ P.pass b ∧ ((∃ s ∈ P.succ b, Reached P s) ∨ P.succ b = [] ∧ P.exits) := by
  constructor
  case mp =>
    rintro ⟨k, h⟩
    cases h with
    | start h            => exact .inl h
    | forward hp hs hl h => exact .inr ⟨hp, .inl ⟨_, hs, _, h⟩⟩
    | retreat hp hs hl h => exact .inr ⟨hp, .inl ⟨_, hs, _, h⟩⟩
    | exit hp hs he      => exact .inr ⟨hp, .inr ⟨hs, he⟩⟩
  case mpr =>
    rintro (h | ⟨hp, ⟨s, hs, h⟩ | ⟨hs, he⟩⟩)
    case inl => exact .start h
    · exact .step hp hs h
    · exact .exit hp hs he

-- Every other solution has at least the reached nodes.
theorem least {R : ι → Prop}
    (hR : ∀ b, P.start b ∨ P.pass b ∧ ((∃ s ∈ P.succ b, R s) ∨ P.succ b = [] ∧ P.exits) → R b)
    (h : Reached P b) : R b := by
  obtain ⟨k, h⟩ := h
  induction h with
  | start h               => exact hR _ (.inl h)
  | forward hp hs hl _ hi => exact hR _ (.inr ⟨hp, .inl ⟨_, hs, hi⟩⟩)
  | retreat hp hs hl _ hi => exact hR _ (.inr ⟨hp, .inl ⟨_, hs, hi⟩⟩)
  | exit hp hs he         => exact hR _ (.inr ⟨hp, .inr ⟨hs, he⟩⟩)

end Reached

-- After a round that changes nothing, what leaves a node does not depend on the rounds.
theorem Stable.leaves_iff (hk : Stable P k) :
    Leaves P k b ↔ (∃ s ∈ P.succ b, Reached P s) ∨ P.succ b = [] ∧ P.exits := by
  constructor
  case mp =>
    rintro (⟨hs, hl, h⟩ | ⟨hs, hl, h⟩ | ⟨hs, he⟩)
    · exact .inl ⟨_, hs, _, h⟩
    · exact .inl ⟨_, hs, _, h⟩
    · exact .inr ⟨hs, he⟩
  case mpr =>
    rintro (⟨s, hs, h⟩ | ⟨hs, he⟩)
    case inr => exact .exit hs he
    case inl =>
      have h := hk.reached_iff.mp h
      cases le_or_gt s b with
      | inl hl => exact .retreat hs hl h
      | inr hl => exact .forward hs hl h.succ

-- Problems over one graph, where one starts at more nodes.
theorem Reaches.imp (h : Reaches P k b) (hsucc : P.succ = Q.succ)
    (hstart : ∀ b, P.start b → Q.start b) (hpass : ∀ b, P.pass b → Q.start b ∨ Q.pass b)
    (hexits : P.exits → Q.exits) : Reaches Q k b := by
  induction h with
  | start h => exact .start (hstart _ h)
  | forward hp hs hl _ h =>
    rw [reaches_succ_iff]
    exact (hpass _ hp).imp_right fun hp => ⟨hp, .forward (hsucc ▸ hs) hl h⟩
  | retreat hp hs hl _ h =>
    rw [reaches_succ_iff]
    exact (hpass _ hp).imp_right fun hp => ⟨hp, .retreat (hsucc ▸ hs) hl h⟩
  | exit hp hs he =>
    rw [reaches_succ_iff]
    exact (hpass _ hp).imp_right fun hp => ⟨hp, .exit (hsucc ▸ hs) (hexits he)⟩

end BackwardFlow
