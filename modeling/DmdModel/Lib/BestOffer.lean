import Mathlib.Order.Defs.LinearOrder
import Mathlib.Order.Lattice

-- A search is offered values, each at a cost. It keeps the first one of the cheapest, and ends at one that is
-- cheap enough.

namespace Lib.BestOffer

@[ext]
structure Best (α γ : Type) where
  value : Option α
  cost  : γ
  deriving DecidableEq, Repr

variable {κ α γ : Type} [LinearOrder γ] {enough : γ} {look : κ → Option α × γ}

-- The new best one, and whether it is cheap enough
def Best.offer (enough : γ) (best : Best α γ) (new : Option α) (cost : γ) : Best α γ × Bool :=
  if new.isSome ∧ cost < best.cost then (⟨new, cost⟩, decide (cost ≤ enough)) else (best, false)

@[ext]
structure Scan (κ α γ : Type) where
  tried   : List κ
  best    : Best α γ
  stopped : Bool

-- The offers of `look` for the keys of a list, one after the other
def scan (enough : γ) (look : κ → Option α × γ) : List κ → Best α γ → Scan κ α γ
  | [], best      => ⟨[], best, false⟩
  | k :: ks, best =>
    if (best.offer enough (look k).1 (look k).2).2 then
      ⟨[k], (best.offer enough (look k).1 (look k).2).1, true⟩
    else
      let rest := scan enough look ks (best.offer enough (look k).1 (look k).2).1
      ⟨k :: rest.tried, rest.best, rest.stopped⟩

namespace Best

theorem offer_none (best : Best α γ) (cost : γ) : best.offer enough none cost = (best, false) := by
  simp [offer]

theorem offer_of_lt {best : Best α γ} {v : α} {cost : γ} (h : cost < best.cost) :
    best.offer enough (some v) cost = (⟨some v, cost⟩, decide (cost ≤ enough)) := by
  simp [offer, h]

theorem offer_of_le {best : Best α γ} {new : Option α} {cost : γ} (h : best.cost ≤ cost) :
    best.offer enough new cost = (best, false) := by
  simp [offer, not_lt.mpr h]

theorem offer_cost_le (best : Best α γ) (new : Option α) (cost : γ) :
    (best.offer enough new cost).1.cost ≤ best.cost := by
  unfold offer
  split
  case isTrue h  => exact h.2.le
  case isFalse h => exact le_rfl

theorem offer_cost_le_new {best : Best α γ} {new : Option α} {cost : γ} (h : new.isSome) :
    (best.offer enough new cost).1.cost ≤ cost := by
  unfold offer
  split
  case isTrue   => exact le_rfl
  case isFalse hn => exact not_lt.mp fun hlt => hn ⟨h, hlt⟩

-- What goes on is not cheap enough.
theorem lt_offer_cost {best : Best α γ} {new : Option α} {cost : γ} (hb : enough < best.cost)
    (h : (best.offer enough new cost).2 = false) : enough < (best.offer enough new cost).1.cost := by
  unfold offer at h ⊢
  split at h
  case isTrue hn  => simpa [hn] using h
  case isFalse hn => simpa [hn] using hb

theorem offer_eq_or (best : Best α γ) (new : Option α) (cost : γ) :
    (best.offer enough new cost).1 = best ∨
    new.isSome ∧ (best.offer enough new cost).1 = ⟨new, cost⟩ ∧ cost < best.cost := by
  unfold offer
  split
  case isTrue h  => exact .inr ⟨h.1, rfl, h.2⟩
  case isFalse h => exact .inl rfl

end Best

theorem scan_append (ks ks' : List κ) (best : Best α γ) :
    scan enough look (ks ++ ks') best =
      if (scan enough look ks best).stopped then
        scan enough look ks best
      else
        ⟨ks ++ (scan enough look ks' (scan enough look ks best).best).tried,
          (scan enough look ks' (scan enough look ks best).best).best,
          (scan enough look ks' (scan enough look ks best).best).stopped⟩ := by
  induction ks generalizing best with
  | nil          => simp [scan]
  | cons k ks ih =>
    rw [List.cons_append, scan, scan]
    split
    case isTrue h  => simp
    case isFalse h =>
      simp only [ih]
      split <;> simp

-- A search that ends was offered something that is cheap enough, and nothing like that before.
theorem scan_stopped {ks : List κ} {best : Best α γ} (hb : enough < best.cost)
    (h : (scan enough look ks best).stopped = true) :
    ∃ l k, (scan enough look ks best).tried = l ++ [k] ∧ l ++ [k] <+: ks ∧ (look k).1.isSome ∧ (look k).2 ≤ enough ∧
      (scan enough look ks best).best = ⟨(look k).1, (look k).2⟩ ∧
      ∀ k' ∈ l, (look k').1.isSome → enough < (look k').2 := by
  induction ks generalizing best with
  | nil          => simp [scan] at h
  | cons k ks ih =>
    rw [scan] at h ⊢
    split at h
    case isTrue hk  =>
      have hnew : (look k).1.isSome ∧ (look k).2 < best.cost := by
        by_contra hn
        simp [Best.offer, hn] at hk
      have hle : (look k).2 ≤ enough := by simpa [Best.offer, hnew] using hk
      refine ⟨[], k, ?_, ?_, hnew.1, hle, ?_, by simp⟩
      · simp [hk]
      · exact ⟨ks, rfl⟩
      · simp [Best.offer, hnew, hle]
    case isFalse hk =>
      have hk' : (best.offer enough (look k).1 (look k).2).2 = false := by simpa using hk
      obtain ⟨l, k', htried, hpre, hsome, hle, hbest, hl⟩ := ih (Best.lt_offer_cost hb hk') h
      refine ⟨k :: l, k', ?_, ?_, hsome, hle, ?_, ?_⟩
      · simp [hk', htried]
      · exact (List.prefix_cons_inj k).mpr hpre
      · simpa [hk'] using hbest
      · intro k'' hmem hsome'
        cases List.mem_cons.mp hmem with
        | inr hin => exact hl k'' hin hsome'
        | inl heq =>
          subst heq
          exact lt_of_lt_of_le (Best.lt_offer_cost hb hk') (Best.offer_cost_le_new hsome')

-- A search that does not end was offered everything, and has one of the cheapest.
theorem scan_finished {ks : List κ} {best : Best α γ} (hb : enough < best.cost)
    (h : (scan enough look ks best).stopped = false) :
    (scan enough look ks best).tried = ks ∧ enough < (scan enough look ks best).best.cost ∧
    (scan enough look ks best).best.cost ≤ best.cost ∧
    (∀ k ∈ ks, (look k).1.isSome → (scan enough look ks best).best.cost ≤ (look k).2) ∧
    ((scan enough look ks best).best = best ∨
      ∃ k ∈ ks, (look k).1.isSome ∧ (look k).2 < best.cost ∧
        (scan enough look ks best).best = ⟨(look k).1, (look k).2⟩) := by
  induction ks generalizing best with
  | nil          => simpa [scan] using hb
  | cons k ks ih =>
    rw [scan] at h ⊢
    split at h
    case isTrue hk  => simp at h
    case isFalse hk =>
      have hk' : (best.offer enough (look k).1 (look k).2).2 = false := by simpa using hk
      obtain ⟨htried, hcost, hle, hall, hor⟩ := ih (Best.lt_offer_cost hb hk') h
      simp only [hk', Bool.false_eq_true, if_false]
      refine ⟨by rw [htried], hcost, hle.trans (Best.offer_cost_le ..), ?_, ?_⟩
      · intro k' hmem hsome
        cases List.mem_cons.mp hmem with
        | inr hin => exact hall k' hin hsome
        | inl heq =>
          subst heq
          exact hle.trans (Best.offer_cost_le_new hsome)
      · obtain heq | ⟨k', hmem, hsome, hlt, heq⟩ := hor
        · rw [heq]
          obtain hsame | ⟨hsome, hnew, hlt⟩ := @Best.offer_eq_or _ _ _ enough best (look k).1 (look k).2
          · exact .inl hsame
          · exact .inr ⟨k, List.mem_cons_self, hsome, hlt, hnew⟩
        · exact .inr ⟨k', List.mem_cons_of_mem _ hmem, hsome, hlt.trans_le (Best.offer_cost_le ..), heq⟩

namespace Best

-- Something cheap enough ends the search, whatever the best one was.
theorem offer_of_le_enough {best : Best α γ} {new : Option α} {cost : γ} (hb : enough < best.cost)
    (hnew : new.isSome) (hle : cost ≤ enough) : best.offer enough new cost = (⟨new, cost⟩, true) := by
  have hlt : cost < best.cost := hle.trans_lt hb
  simp [offer, hnew, hlt, hle]

theorem le_enough_of_offer {best : Best α γ} {new : Option α} {cost : γ}
    (h : (best.offer enough new cost).2 = true) : new.isSome ∧ cost ≤ enough := by
  unfold offer at h
  split at h
  case isTrue hn  => exact ⟨hn.1, by simpa using h⟩
  case isFalse hn => simp at h

-- The better one of two searches, after another offer to the second one
theorem offer_offer {best worse : Best α γ} {new : Option α} {cost : γ}
    (hnone : worse.value = none → best.cost ≤ worse.cost) (h : (worse.offer enough new cost).2 = false) :
    (best.offer enough worse.value worse.cost).1.offer enough new cost =
      ((best.offer enough (worse.offer enough new cost).1.value (worse.offer enough new cost).1.cost).1, false) := by
  have hcost : (best.offer enough worse.value worse.cost).1.cost = min best.cost worse.cost := by
    unfold offer
    split
    case isTrue hw  => simp [hw.2.le]
    case isFalse hw =>
      have hle : best.cost ≤ worse.cost := by
        cases hv : worse.value with
        | none   => exact hnone hv
        | some v => exact not_lt.mp fun hlt => hw ⟨by simp [hv], hlt⟩
      simp [hle]
  by_cases hn : new.isSome ∧ cost < worse.cost
  · have hlt : enough < cost := by simpa [offer, hn] using h
    have hsnd : (worse.offer enough new cost).1 = ⟨new, cost⟩ := by simp [offer, hn]
    rw [hsnd]
    by_cases hbest : cost < best.cost
    · simp [offer.eq_def _ _ new, hcost, hn, hbest, hlt]
    · have hle : best.cost ≤ cost := not_lt.mp hbest
      have hsame : best.offer enough worse.value worse.cost = (best, false) :=
        offer_of_le (hle.trans hn.2.le)
      rw [hsame, offer_of_le hle]
  · have hsnd : (worse.offer enough new cost).1 = worse := by simp [offer, hn]
    rw [hsnd]
    have hno : ¬(new.isSome ∧ cost < (best.offer enough worse.value worse.cost).1.cost) := by
      intro hyes
      exact hn ⟨hyes.1, hyes.2.trans_le (hcost.trans_le (min_le_right ..))⟩
    generalize (best.offer enough worse.value worse.cost).1 = held at hno
    simp [offer, hno]

end Best

-- Offering the outcome of a search that was begun at `worse` is the same as going on with it at once.
theorem scan_offer {ks : List κ} {best worse : Best α γ} (hb : enough < best.cost) (hw : enough < worse.cost)
    (hnone : worse.value = none → best.cost ≤ worse.cost) :
    (scan enough look ks worse).tried =
      (scan enough look ks (best.offer enough worse.value worse.cost).1).tried ∧
    best.offer enough (scan enough look ks worse).best.value (scan enough look ks worse).best.cost =
      ((scan enough look ks (best.offer enough worse.value worse.cost).1).best,
        (scan enough look ks (best.offer enough worse.value worse.cost).1).stopped) := by
  induction ks generalizing worse with
  | nil          =>
    refine ⟨rfl, ?_⟩
    simp only [scan]
    unfold Best.offer
    split
    case isTrue h  => simp [hw]
    case isFalse h => rfl
  | cons k ks ih =>
    have hheld : enough < (best.offer enough worse.value worse.cost).1.cost := by
      obtain hsame | ⟨-, hnew, -⟩ := @Best.offer_eq_or _ _ _ enough best worse.value worse.cost
      · rwa [hsame]
      · rwa [hnew]
    rw [scan, scan]
    cases hk : (worse.offer enough (look k).1 (look k).2).2 with
    | true  =>
      obtain ⟨hsome, hle⟩ := Best.le_enough_of_offer hk
      have hends := Best.offer_of_le_enough hw hsome hle
      have hends' := Best.offer_of_le_enough hheld hsome hle
      have hends'' := Best.offer_of_le_enough hb hsome hle
      simp [hends, hends', hends'']
    | false =>
      have hnone' : (worse.offer enough (look k).1 (look k).2).1.value = none →
          best.cost ≤ (worse.offer enough (look k).1 (look k).2).1.cost := by
        obtain hsame | ⟨hsome, hnew, -⟩ := @Best.offer_eq_or _ _ _ enough worse (look k).1 (look k).2
        · rwa [hsame]
        · rw [hnew]
          intro hvalue
          simp [show (look k).1 = none from hvalue] at hsome
      have hgoes := Best.offer_offer hnone hk
      obtain ⟨htried, hoffer⟩ := ih (Best.lt_offer_cost hw hk) hnone'
      simp [hgoes, htried, hoffer]

end Lib.BestOffer
