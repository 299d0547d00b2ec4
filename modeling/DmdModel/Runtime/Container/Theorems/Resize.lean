import DmdModel.Runtime.Container.HashTab

namespace Runtime.Container
namespace HashTab

variable {K V : Type _} [Hashable K] {t : HashTab K V} {key : K} {v : V} {p i j k n : Nat}

theorem and_mask (hk : n = 2 ^ k) (x : Nat) : x &&& (n - 1) = x % n := by
  rw [hk, Nat.and_two_pow_sub_one_eq_mod]

section grow

variable {nmask : Nat} {b : Nat → List Nat} {kept chain : List Nat}

-- The bucket of a node for a mask.
def place (t : HashTab K V) (nmask p : Nat) : Nat :=
  hashOf (t.key p) &&& nmask

theorem split_keep (hp : t.place nmask p = i) :
    t.split nmask i b kept (p :: chain) = t.split nmask i b (kept ++ [p]) chain := by
  rw [split]
  exact if_neg (not_not.mpr hp)

theorem split_move (hp : t.place nmask p = j) (hij : i ≠ j) :
    t.split nmask i b kept (p :: chain) =
      t.split nmask i (Function.update b j (p :: b j)) kept chain := by
  rw [split, ← hp]
  exact if_pos fun he => hij (he.symm.trans hp)

-- The nodes of a bucket that is split belong to this bucket or to one other.
theorem split_spec (hij : i ≠ j) (h : ∀ p ∈ chain, t.place nmask p = i ∨ t.place nmask p = j) :
    t.split nmask i b kept chain =
      Function.update
        (Function.update b j ((chain.filter fun p => t.place nmask p = j).reverse ++ b j)) i
        (kept ++ chain.filter fun p => t.place nmask p = i) := by
  induction chain generalizing b kept with
  | nil => simp [split]
  | cons p chain hi =>
    have ⟨hp, hc⟩ := List.forall_mem_cons.mp h
    obtain hp | hp := hp
    · rw [split_keep hp, hi hc]
      simp [hp, hij]
    · rw [split_move hp hij, hi hc]
      simp [hp, hij.symm]

-- The buckets after the first `c` ones of `n` were split in two.
def splitUpTo (t : HashTab K V) (n c i : Nat) : List Nat :=
  if i < c then
    (t.buckets i).filter fun p => t.place (2 * n - 1) p = i
  else if i < n then
    t.buckets i
  else if i < n + c then
    ((t.buckets (i - n)).filter fun p => t.place (2 * n - 1) p = i).reverse
  else
    []

theorem split_loop (h : ∀ i < t.nbuckets, ∀ p ∈ t.buckets i,
      t.place (2 * t.nbuckets - 1) p = i ∨ t.place (2 * t.nbuckets - 1) p = i + t.nbuckets)
    {c : Nat} (hc : c ≤ t.nbuckets) :
    (List.range c).foldl
        (fun buckets i => t.split (2 * t.nbuckets - 1) i buckets [] (buckets i))
        (t.setLength (2 * t.nbuckets)).buckets =
      t.splitUpTo t.nbuckets c := by
  induction c with
  | zero =>
    funext i
    by_cases hi : i < t.nbuckets <;> simp [splitUpTo, setLength, hi]
  | succ c hi =>
    rw [List.range_succ, List.foldl_append, hi (by omega), List.foldl_cons, List.foldl_nil]
    have hb : t.splitUpTo t.nbuckets c c = t.buckets c := by
      rw [splitUpTo, if_neg (by omega), if_pos (by omega)]
    have hn : t.splitUpTo t.nbuckets c (c + t.nbuckets) = [] := by
      rw [splitUpTo, if_neg (by omega), if_neg (by omega), if_neg (by omega)]
    rw [split_spec (j := c + t.nbuckets) (by omega) (hb ▸ h c (by omega)), hb, hn]
    funext i
    by_cases hic : i = c
    case pos =>
      subst hic
      rw [Function.update_self, splitUpTo, if_pos (Nat.lt_succ_self i), List.nil_append]
    case neg =>
      rw [Function.update_of_ne hic]
      by_cases hin : i = c + t.nbuckets
      case pos =>
        subst hin
        rw [Function.update_self, splitUpTo, if_neg (by omega), if_neg (by omega), if_pos (by omega),
          Nat.add_sub_cancel, List.append_nil]
      case neg =>
        have h₁ : i < c + 1 ↔ i < c := by omega
        have h₂ : i < t.nbuckets + (c + 1) ↔ i < t.nbuckets + c := by omega
        rw [Function.update_of_ne hin]
        simp only [splitUpTo, h₁, h₂]

-- Every node goes to the bucket that the new mask selects, and stays there or comes from the bucket
-- that the old one selects.
theorem grow_buckets (hn : t.nbuckets = 2 ^ k)
    (h : ∀ i < t.nbuckets, ∀ p ∈ t.buckets i, t.place t.mask p = i) (hi : i < 2 * t.nbuckets) :
    (t.grow.buckets i).Perm
      ((t.buckets (i % t.nbuckets)).filter fun p => t.place t.grow.mask p = i) := by
  have hpos : 0 < t.nbuckets := hn ▸ Nat.two_pow_pos k
  have hn2 : 2 * t.nbuckets = 2 ^ (k + 1) := by rw [hn, pow_succ, Nat.mul_comm]
  -- one more bit of the hash
  have hplace : ∀ i < t.nbuckets, ∀ p ∈ t.buckets i,
      t.place (2 * t.nbuckets - 1) p = i ∨ t.place (2 * t.nbuckets - 1) p = i + t.nbuckets := by
    intro i hi p hp
    have he := h i hi p hp
    rw [place, mask, and_mask hn] at he
    rw [place, and_mask hn2, ← he]
    rw [Nat.mul_comm 2, Nat.mod_mul]
    rcases Nat.mod_two_eq_zero_or_one (hashOf (t.key p) / t.nbuckets) with h2 | h2
    · left
      rw [h2, Nat.mul_zero, Nat.add_zero]
    · right
      rw [h2, Nat.mul_one]
  have hb : t.grow.buckets = t.splitUpTo t.nbuckets t.nbuckets :=
    split_loop hplace (Nat.le_refl _)
  have hm : t.grow.mask = 2 * t.nbuckets - 1 := rfl
  rw [hb, hm, splitUpTo]
  by_cases hlt : i < t.nbuckets
  case pos => rw [if_pos hlt, Nat.mod_eq_of_lt hlt]
  case neg =>
    have hmod : i % t.nbuckets = i - t.nbuckets := by
      rw [Nat.mod_eq_sub_mod (by omega), Nat.mod_eq_of_lt (by omega)]
    rw [if_neg hlt, if_neg hlt, if_pos (by omega), hmod]
    exact List.reverse_perm _

end grow

section shrink

-- The buckets from `n` to `n + c` became the tails of those before `n`.
theorem concat_loop {b : Nat → List Nat} {c : Nat} (hn : n = 2 ^ k) (hc : c ≤ n) :
    (∀ i < n, ((List.range' n c).foldl (concat (n - 1)) b) i =
      if i < c then b i ++ b (i + n) else b i) ∧
    ∀ i, n + c ≤ i → ((List.range' n c).foldl (concat (n - 1)) b) i = b i := by
  induction c with
  | zero => exact ⟨fun i hi => by simp, fun i hi => by simp⟩
  | succ c hi =>
    have ⟨hlow, hhigh⟩ := hi (by omega)
    rw [List.range'_1_concat, List.foldl_append, List.foldl_cons, List.foldl_nil]
    generalize (List.range' n c).foldl (concat (n - 1)) b = b' at hlow hhigh ⊢
    have htail : b' (n + c) = b (c + n) := by rw [hhigh (n + c) (Nat.le_refl _), Nat.add_comm]
    have hnidx : (n + c) &&& (n - 1) = c := by
      rw [and_mask hn, Nat.add_mod_left, Nat.mod_eq_of_lt (by omega)]
    have hc' : b' c = b c := by rw [hlow c (by omega), if_neg (Nat.lt_irrefl c)]
    have hcon (i : Nat) (hne : i ≠ n + c) :
        concat (n - 1) b' (n + c) i = if i = c then b c ++ b (c + n) else b' i := by
      simp only [concat, hnidx, htail, hc']
      by_cases ht : b (c + n) = []
      case pos =>
        rw [if_neg (not_not.mpr ht), ht, List.append_nil]
        split
        case isTrue h => rw [h, hc']
        case isFalse => rfl
      case neg => rw [if_pos ht, Function.update_of_ne hne, Function.update_apply]
    constructor
    · intro i hin
      rw [hcon i (by omega), hlow i hin]
      by_cases hic : i = c
      case pos => rw [if_pos hic, if_pos (by omega), hic]
      case neg =>
        have hiff : i < c + 1 ↔ i < c := by omega
        simp only [hic, if_false, hiff]
    · intro i hin
      rw [hcon i (by omega), if_neg (by omega), hhigh i (by omega)]

omit [Hashable K] in
theorem shrink_nbuckets (hn : t.nbuckets = 2 ^ (k + 1)) : t.shrink.nbuckets = 2 ^ k := by
  have h : t.shrink.nbuckets = t.nbuckets >>> 1 := rfl
  rw [h, hn, Nat.shiftRight_eq_div_pow, pow_succ, Nat.pow_one, Nat.mul_div_cancel _ Nat.two_pos]

omit [Hashable K] in
theorem shrink_buckets (hn : t.nbuckets = 2 ^ (k + 1)) (hi : i < 2 ^ k) :
    t.shrink.buckets i = t.buckets i ++ t.buckets (i + 2 ^ k) := by
  have hhalf : t.nbuckets >>> 1 = 2 ^ k := shrink_nbuckets hn
  have hsub : t.nbuckets - 2 ^ k = 2 ^ k := by
    rw [hn, pow_succ]
    omega
  have hlt : i < t.nbuckets := by
    rw [hn, pow_succ]
    omega
  have hb : t.shrink.buckets i = if i < t.nbuckets then
      ((List.range' (t.nbuckets >>> 1) (t.nbuckets - t.nbuckets >>> 1)).foldl
        (concat (t.nbuckets >>> 1 - 1)) t.buckets) i else [] := rfl
  rw [hb, if_pos hlt, hhalf, hsub, (concat_loop rfl (Nat.le_refl _)).left i hi, if_pos hi]

end shrink

end HashTab
end Runtime.Container
