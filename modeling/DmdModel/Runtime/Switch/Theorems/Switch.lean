import DmdModel.Runtime.Switch.Basic
import DmdModel.Lib.Lists

-- A `switch` on strings goes to the case whose label equals the condition.

namespace Runtime.Switch

open SortedSearch

variable {T : Type} [CodeUnit T] {ctfe : Bool} {labels : List (List T)} {condition label : List T}
  {low high mid : Nat} {r : Int}

instance : Std.Asymm (Before (T := T)) :=
  inferInstanceAs (Std.Asymm (List.Shortlex (· < ·)))

theorem before_iff {s t : List T} : Before s t ↔ s.length < t.length ∨ s.length = t.length ∧ s < t :=
  List.shortlex_def

-- The sign of `r` tells on which side of the label the condition is.
theorem order_zero_iff : order ctfe condition label = 0 ↔ condition = label := by
  rw [order]
  split_ifs with hlength hgt
  case pos => exact CodeUnit.cmp_zero_iff ..
  all_goals
    refine iff_of_false (by decide) ?_
    rintro rfl
    exact hlength rfl

theorem order_neg_iff : order ctfe condition label < 0 ↔ Before condition label := by
  rw [order, before_iff]
  split_ifs with hlength hgt
  case pos => simp [hlength, CodeUnit.cmp_neg_iff]
  case pos => simp [hlength, not_lt_of_gt hgt]
  case neg => simp [hlength, lt_of_le_of_ne (not_lt.mp hgt) hlength]

theorem before_of_order_pos (h : 0 < order ctfe condition label) : Before label condition := by
  have hne : condition ≠ label := fun heq => by simp [(order_zero_iff).mpr heq] at h
  have hnot : ¬ Before condition label := fun hbefore => absurd ((order_neg_iff).mpr hbefore) (not_lt_of_gt h)
  rw [before_iff] at hnot ⊢
  push Not at hnot
  rcases Nat.lt_or_eq_of_le hnot.left with hlength | hlength
  case inl => exact Or.inl hlength
  case inr => exact Or.inr ⟨hlength, lt_of_le_of_ne (hnot.right hlength.symm) hne.symm⟩

omit [CodeUnit T] in
theorem castInt_eq (h : mid < 2 ^ 31) : castInt mid = mid := by
  apply Int.bmod_eq_of_le
  · omega
  · omega

theorem CaseLabels.pairwise (c : CaseLabels T) : c.labels.Pairwise Before := by
  have hboth := c.sorted.and c.distinct
  exact hboth.imp fun h => h.left.resolve_left h.right

theorem Finds.hit (hs : labels.Pairwise Before) (h : labels[mid]? = some condition) : Finds labels condition mid := by
  refine ⟨fun i => ?_, fun habsent => (habsent (List.mem_of_getElem? h)).elim⟩
  rw [Nat.cast_inj]
  constructor
  case mp =>
    rintro rfl
    exact h
  case mpr => exact fun hi => index_unique hs h hi

omit [CodeUnit T] in
theorem Finds.absent (h : condition ∉ labels) (hr : r < 0) : Finds labels condition r := by
  refine ⟨fun i => iff_of_false (by omega) ?_, fun _ => hr⟩
  exact fun hi => h (List.mem_of_getElem? hi)

-- The search at run time: the interval from `low` to `high` is not empty, is inside of the table and contains all
-- indices of the condition. It gets smaller with each round.
theorem switchSearch_loop (hs : labels.Pairwise Before) (hlen : labels.length < 2 ^ 31) (hlt : low < high)
    (hhigh : high ≤ labels.length) (hw : Within labels condition low high) :
    ∃ r, switchSearch.loop ctfe labels condition low high = some r ∧ Finds labels condition r := by
  induction hn : high - low using Nat.strong_induction_on generalizing low high
  case h n ih =>
    have hmid : (low + high) / 2 < labels.length := by omega
    have hlabel := List.getElem?_eq_getElem hmid
    rw [switchSearch.loop, hlabel]
    dsimp only
    generalize labels[(low + high) / 2] = label at hlabel
    split_ifs with hzero hpos hright hleft
    case pos =>
      rw [order_zero_iff] at hzero
      rw [castInt_eq (by omega)]
      rw [← hzero] at hlabel
      exact ⟨_, rfl, Finds.hit hs hlabel⟩
    case pos => exact ih _ (by omega) hright hhigh (hw.right hs hlabel (before_of_order_pos hpos)) rfl
    case neg =>
      have habsent := (hw.right hs hlabel (before_of_order_pos hpos)).absent (not_lt.mp hright)
      exact ⟨_, rfl, Finds.absent habsent (by decide)⟩
    case pos =>
      have hbefore := (order_neg_iff).mp (lt_of_le_of_ne (not_lt.mp hpos) hzero)
      exact ih _ (by omega) hleft (by omega) (hw.left hs hlabel hbefore) rfl
    case neg =>
      have hbefore := (order_neg_iff).mp (lt_of_le_of_ne (not_lt.mp hpos) hzero)
      have habsent := (hw.left hs hlabel hbefore).absent (not_lt.mp hleft)
      exact ⟨_, rfl, Finds.absent habsent (by decide)⟩

-- The unrolled search adds the offsets of the right sides to `int.min`, which stays below the number of labels.
def FindsUnrolled (labels : List (List T)) (condition : List T) (r : Int) : Prop :=
  Finds labels condition r ∧ (condition ∉ labels → r ≤ intMin + labels.length)

theorem FindsUnrolled.hit (hs : labels.Pairwise Before) (h : labels[mid]? = some condition) :
    FindsUnrolled labels condition mid :=
  ⟨Finds.hit hs h, fun habsent => (habsent (List.mem_of_getElem? h)).elim⟩

omit [CodeUnit T] in
theorem FindsUnrolled.absent (hlen : labels.length < 7) (h : condition ∉ labels) (hr : r ≤ intMin + labels.length) :
    FindsUnrolled labels condition r := by
  refine ⟨Finds.absent h ?_, fun _ => hr⟩
  rw [intMin] at hr
  omega

omit [CodeUnit T] in
theorem FindsUnrolled.of_take (h : FindsUnrolled (labels.take mid) condition r) (hlen : labels.length < 7)
    (hw : Within labels condition 0 mid) : FindsUnrolled labels condition r := by
  by_cases hmem : condition ∈ labels
  case pos =>
    refine ⟨⟨fun i => ?_, fun habsent => (habsent hmem).elim⟩, fun habsent => (habsent hmem).elim⟩
    rw [h.left.left i, List.getElem?_take]
    split_ifs with hi
    case pos => rfl
    case neg => exact iff_of_false (by simp) fun hcond => hi (hw i hcond).right
  case neg =>
    have hr := h.right fun htake => hmem (List.mem_of_mem_take htake)
    rw [List.length_take] at hr
    exact FindsUnrolled.absent hlen hmem (by omega)

omit [CodeUnit T] in
theorem FindsUnrolled.of_drop (h : FindsUnrolled (labels.drop (mid + 1)) condition r) (hlen : labels.length < 7)
    (hmid : mid < labels.length) (hw : Within labels condition (mid + 1) labels.length) :
    FindsUnrolled labels condition (r + mid + 1) := by
  by_cases hmem : condition ∈ labels
  case pos =>
    have ⟨j, hj⟩ := List.mem_iff_getElem?.mp hmem
    have ⟨k, hk⟩ := Nat.exists_eq_add_of_le (hw j hj).left
    rw [hk, ← List.getElem?_drop] at hj
    have hr := (h.left.left k).mpr hj
    refine ⟨⟨fun i => ?_, fun habsent => (habsent hmem).elim⟩, fun habsent => (habsent hmem).elim⟩
    constructor
    case mp =>
      intro hi
      rw [List.getElem?_drop] at hj
      rwa [show i = mid + 1 + k by omega]
    case mpr =>
      intro hi
      have ⟨l, hl⟩ := Nat.exists_eq_add_of_le (hw i hi).left
      rw [hl, ← List.getElem?_drop] at hi
      have hrl := (h.left.left l).mpr hi
      omega
  case neg =>
    have hr := h.right fun hdrop => hmem (List.mem_of_mem_drop hdrop)
    rw [List.length_drop] at hr
    exact FindsUnrolled.absent hlen hmem (by omega)

variable (ctfe condition) in
-- The unrolled search has the labels before or after the one in the middle left.
theorem switch_unrolled (hs : labels.Pairwise Before) (hlen : labels.length < 7) :
    ∃ r, switch ctfe labels condition = some r ∧ FindsUnrolled labels condition r := by
  induction hn : labels.length using Nat.strong_induction_on generalizing labels
  case h n ih =>
    rw [switch]
    by_cases hzero : labels.length = 0
    case pos =>
      rw [if_pos hzero]
      rw [List.length_eq_zero_iff] at hzero
      exact ⟨_, rfl, FindsUnrolled.absent hlen (by simp [hzero]) (by omega)⟩
    case neg =>
      rw [if_neg hzero]
      by_cases hone : labels.length = 1
      case pos =>
        have ⟨label, hlabel⟩ := List.length_eq_one_iff.mp hone
        rw [if_pos hone]
        refine ⟨if CodeUnit.cmp ctfe condition label = 0 then 0 else intMin, by rw [hlabel]; rfl, ?_⟩
        simp only [CodeUnit.cmp_zero_iff]
        split_ifs with heq
        case pos => exact FindsUnrolled.hit hs (by rw [hlabel, heq]; rfl)
        case neg => exact FindsUnrolled.absent hlen (by simp [hlabel, heq]) (by omega)
      case neg =>
        have hmid : labels.length / 2 < labels.length := by omega
        have hlabel := List.getElem?_eq_getElem hmid
        rw [if_neg hone, if_pos hlen]
        dsimp only
        rw [hlabel]
        dsimp only
        generalize labels[labels.length / 2] = label at hlabel
        generalize labels.length / 2 = mid at hlabel hmid
        split_ifs with hz hneg
        case pos =>
          rw [order_zero_iff] at hz
          rw [← hz] at hlabel
          exact ⟨mid, rfl, FindsUnrolled.hit hs hlabel⟩
        case pos =>
          have htake : (labels.take mid).length < labels.length := by rw [List.length_take]; omega
          have ⟨r, hr, hfinds⟩ := ih _ (hn ▸ htake) hs.take (by omega) rfl
          exact ⟨r, hr, hfinds.of_take hlen (Within.all.left hs hlabel ((order_neg_iff).mp hneg))⟩
        case neg =>
          have hdrop : (labels.drop (mid + 1)).length < labels.length := by rw [List.length_drop]; omega
          have ⟨r, hr, hfinds⟩ := ih _ (hn ▸ hdrop) hs.drop (by omega) rfl
          have hpos : 0 < order ctfe condition label := lt_of_le_of_ne (not_lt.mp hneg) (Ne.symm hz)
          rw [hr]
          exact ⟨r + mid + 1, rfl, hfinds.of_drop hlen hmid (Within.all.right hs hlabel (before_of_order_pos hpos))⟩

-- The result of `switch` is the index of the label that equals the condition, and negative if there is none. No label is
-- read outside of the table.
theorem switch_finds (c : CaseLabels T) (ctfe : Bool) (condition : List T) :
    ∃ r, switch ctfe c.labels condition = some r ∧ Finds c.labels condition r := by
  by_cases hlen : c.labels.length < 7
  case pos =>
    have ⟨r, hr, hfinds⟩ := switch_unrolled ctfe condition c.pairwise hlen
    exact ⟨r, hr, hfinds.left⟩
  case neg =>
    have hfits := c.fits
    rw [switch, if_neg (by omega), if_neg (by omega), if_neg hlen]
    exact switchSearch_loop c.pairwise (by omega) (by omega) le_rfl Within.all

end Runtime.Switch
