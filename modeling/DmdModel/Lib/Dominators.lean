import Mathlib

-- Dominators of a flow graph, and the passes that compute them in the order of a list.
namespace Dominators

variable {ι : Type*}

section paths

-- A path from the node start to the node b.
structure Path (E : ι → ι → Prop) (start b : ι) (path : List ι) : Prop where
  head  : path.head? = some start
  last  : path.getLast? = some b
  chain : path.IsChain E

-- Every path from the node start to b goes through a.
def Dominates (E : ι → ι → Prop) (start a b : ι) : Prop :=
  ∀ path, Path E start b path → a ∈ path

variable {E : ι → ι → Prop} {start a b x y : ι} {path : List ι}

theorem Path.singleton : Path E start start [start] where
  head  := rfl
  last  := rfl
  chain := List.isChain_singleton start

theorem Path.concat (h : Path E start x path) (he : E x y) : Path E start y (path ++ [y]) where
  head  := by rw [List.head?_append, h.head]; rfl
  last  := List.getLast?_concat
  chain := by
    refine List.IsChain.append h.chain (List.isChain_singleton y) fun z hz w hw => ?_
    rw [h.last, Option.mem_some_iff] at hz
    exact hz ▸ Option.mem_some_iff.mp hw ▸ he

theorem Path.cons (h : Path E y b path) (he : E x y) : Path E x b (x :: path) where
  head := rfl
  last := by
    cases path with
    | nil => cases h.head
    | cons z path => rw [List.getLast?_cons_cons, h.last]
  chain := by
    refine List.isChain_cons.mpr ⟨fun z hz => ?_, h.chain⟩
    rw [h.head] at hz
    exact Option.mem_some_iff.mp hz ▸ he

variable [DecidableEq ι]

-- How often a path does not go on in the order of a list.
def retreats (order : List ι) : List ι → ℕ
  | x :: y :: path => retreats order (y :: path) + if order.idxOf x < order.idxOf y then 0 else 1
  | _ => 0

-- Where a path avoids a node of the list, one that does so goes back at most limit times.
def Shallow (E : ι → ι → Prop) (start : ι) (order : List ι) (limit : ℕ) : Prop :=
  ∀ a ∈ order, ∀ b path, Path E start b path → a ∉ path →
    ∃ path, Path E start b path ∧ a ∉ path ∧ retreats order path ≤ limit

-- There is a path to b that avoids a, and goes back at most r times.
inductive Escapes (E : ι → ι → Prop) (start : ι) (order : List ι) (a : ι) : (r : ℕ) → (b : ι) → Prop
  | start {r : ℕ} :
    start ≠ a → Escapes E start order a r start
  | advance {r : ℕ} {x y : ι} :
    Escapes E start order a r x → E x y → y ≠ a → order.idxOf x < order.idxOf y →
    Escapes E start order a r y
  | retreat {r : ℕ} {x y : ι} :
    Escapes E start order a r x → E x y → y ≠ a → Escapes E start order a (r + 1) y

variable {order : List ι} {r r' : ℕ}

theorem retreats_concat (h : path.getLast? = some x) : retreats order (path ++ [y]) =
    retreats order path + if order.idxOf x < order.idxOf y then 0 else 1 := by
  induction path with
  | nil => cases h
  | cons z path ih =>
    cases path with
    | nil =>
      obtain rfl : z = x := Option.some.inj h
      simp [retreats]
    | cons w path =>
      rw [List.getLast?_cons_cons] at h
      have ih := ih h
      simp only [List.cons_append, retreats] at ih ⊢
      omega

namespace Escapes

theorem ne (h : Escapes E start order a r b) : b ≠ a := by
  cases h with
  | start h         => exact h
  | advance _ _ h _ => exact h
  | retreat _ _ h   => exact h

theorem succ (h : Escapes E start order a r b) : Escapes E start order a (r + 1) b := by
  induction h with
  | start h               => exact .start h
  | advance _ he ha hi ih => exact .advance ih he ha hi
  | retreat _ he ha ih    => exact .retreat ih he ha

theorem mono (hr : r ≤ r') (h : Escapes E start order a r b) : Escapes E start order a r' b := by
  induction hr with
  | refl => exact h
  | step _ ih => exact ih.succ

theorem exists_path (h : Escapes E start order a r b) :
    ∃ path, Path E start b path ∧ a ∉ path ∧ retreats order path ≤ r := by
  induction h with
  | start h => exact ⟨[start], .singleton, by simpa using h.symm, Nat.zero_le _⟩
  | advance _ he ha hi ih =>
    obtain ⟨path, hp, hap, hr⟩ := ih
    refine ⟨_, hp.concat he, by simp [hap, ha.symm], ?_⟩
    rwa [retreats_concat hp.last, if_pos hi]
  | retreat _ he ha ih =>
    obtain ⟨path, hp, hap, hr⟩ := ih
    refine ⟨_, hp.concat he, by simp [hap, ha.symm], ?_⟩
    rw [retreats_concat hp.last]
    split <;> omega

theorem along (h : Escapes E start order a r x) (hc : (x :: path).IsChain E) (ha : a ∉ path)
    (hb : (x :: path).getLast? = some b) :
    Escapes E start order a (r + retreats order (x :: path)) b := by
  induction path generalizing x r with
  | nil =>
    obtain rfl : x = b := Option.some.inj hb
    exact h
  | cons y path ih =>
    obtain ⟨hay, ha⟩ := not_or.mp (List.mem_cons.not.mp ha)
    obtain ⟨he, hc⟩ := List.isChain_cons_cons.mp hc
    rw [List.getLast?_cons_cons] at hb
    by_cases hi : order.idxOf x < order.idxOf y
    case pos =>
      rw [retreats, if_pos hi]
      exact ih (.advance h he (Ne.symm hay) hi) hc ha hb
    case neg =>
      have h' := ih (.retreat h he (Ne.symm hay)) hc ha hb
      rw [retreats, if_neg hi]
      rwa [Nat.add_right_comm, Nat.add_assoc] at h'

end Escapes

theorem Path.escapes (h : Path E start b path) (ha : a ∉ path) :
    Escapes E start order a (retreats order path) b := by
  cases path with
  | nil => cases h.head
  | cons x path =>
    obtain rfl : x = start := Option.some.inj h.head
    obtain ⟨hax, ha⟩ := not_or.mp (List.mem_cons.not.mp ha)
    have h₀ : Escapes E x order a 0 x := .start (Ne.symm hax)
    have h' := h₀.along h.chain ha h.last
    rwa [Nat.zero_add] at h'

theorem escapes_iff : Escapes E start order a r b ↔
    ∃ path, Path E start b path ∧ a ∉ path ∧ retreats order path ≤ r :=
  ⟨Escapes.exists_path, fun ⟨_, hp, ha, hr⟩ => (hp.escapes ha).mono hr⟩

theorem not_dominates_iff :
    ¬Dominates E start a b ↔ ∃ r, Escapes E start order a r b := by
  simp only [Dominates, not_forall, escapes_iff]
  constructor
  case mp =>
    rintro ⟨path, hp, ha⟩
    exact ⟨_, path, hp, ha, le_rfl⟩
  case mpr =>
    rintro ⟨_, path, hp, ha, -⟩
    exact ⟨path, hp, ha⟩

theorem shallow_iff {limit : ℕ} : Shallow E start order limit ↔
    ∀ a ∈ order, ∀ b r, Escapes E start order a r b → Escapes E start order a limit b := by
  simp only [Shallow, escapes_iff]
  constructor
  case mp =>
    rintro h a ha b r ⟨path, hp, hap, -⟩
    exact h a ha b path hp hap
  case mpr =>
    exact fun h a ha b path hp hap => h a ha b _ ⟨path, hp, hap, le_rfl⟩

end paths

section passes

variable [DecidableEq ι] (preds : ι → List ι) (all : Finset ι)

-- The nodes that dominate b if D has those that dominate its predecessors.
def meet (D : ι → Finset ι) (b : ι) : Finset ι :=
  insert b (if preds b = [] then ∅ else (preds b).foldl (fun t p => t ∩ D p) all)

-- One pass over the nodes of a list, each with what the pass has found for those before it.
def pass (l : List ι) (D : ι → Finset ι) : ι → Finset ι :=
  l.foldl (fun D b => Function.update D b (meet preds all D b)) D

-- The start node dominates itself only, and the others are dominated by all until shown otherwise.
def init (start b : ι) : Finset ι :=
  if b = start then {start} else all

variable {preds all} {D : ι → Finset ι} {start a b : ι} {l rest : List ι}

theorem mem_foldl_inter {t : Finset ι} : a ∈ l.foldl (fun t p => t ∩ D p) t ↔
    a ∈ t ∧ ∀ p ∈ l, a ∈ D p := by
  induction l generalizing t with
  | nil => simp
  | cons p l ih => rw [List.foldl_cons, ih, Finset.mem_inter, List.forall_mem_cons, and_assoc]

theorem not_mem_meet_iff (ha : a ∈ all) (hb : preds b ≠ []) :
    a ∉ meet preds all D b ↔ b ≠ a ∧ ∃ p ∈ preds b, a ∉ D p := by
  rw [meet, if_neg hb, Finset.mem_insert, mem_foldl_inter, not_or, eq_comm]
  simp [ha]

theorem meet_subset (hb : b ∈ all) : meet preds all D b ⊆ all := by
  refine Finset.insert_subset hb ?_
  split
  case isTrue => exact Finset.empty_subset all
  case isFalse =>
    intro a ha
    exact ((mem_foldl_inter).mp ha).left

theorem pass_of_not_mem (hb : b ∉ l) : pass preds all l D b = D b := by
  induction l generalizing D with
  | nil => rfl
  | cons c l ih =>
    obtain ⟨hbc, hbl⟩ := not_or.mp (List.mem_cons.not.mp hb)
    exact (ih hbl).trans (Function.update_of_ne hbc ..)

theorem pass_append {l' : List ι} :
    pass preds all (l ++ l') D = pass preds all l' (pass preds all l D) :=
  List.foldl_append

theorem pass_cons {c : ι} : pass preds all (c :: l) D =
    pass preds all l (Function.update D c (meet preds all D c)) :=
  rfl

-- What a pass changes at the first node stays changed.
theorem pass_cons_ne {c : ι} (hc : c ∉ l) (h : D c ≠ meet preds all D c) :
    pass preds all (c :: l) D ≠ D := by
  intro h'
  rw [pass_cons] at h'
  have hc' := congrFun h' c
  rw [pass_of_not_mem hc, Function.update_self] at hc'
  exact h hc'.symm

end passes

section convergence

variable [DecidableEq ι]

-- The nodes of a list, the first of which is the start node, with the edges between them.
structure Flow (E : ι → ι → Prop) (preds : ι → List ι) (start : ι) (rest : List ι) : Prop where
  nodup     : (start :: rest).Nodup
  closed    : ∀ x ∈ start :: rest, ∀ y, E x y → y ∈ start :: rest
  mem_preds : ∀ b ∈ start :: rest, ∀ p, p ∈ preds b ↔ p ∈ start :: rest ∧ E p b
  entered   : ∀ b ∈ rest, preds b ≠ []

namespace Flow

variable {E : ι → ι → Prop} {preds : ι → List ι} {start a b : ι} {rest pre post : List ι}

-- What comes before b in the list.
theorem idxOf_lt_iff (h : Flow E preds start (pre ++ b :: post)) :
    (start :: (pre ++ b :: post)).idxOf a < (start :: (pre ++ b :: post)).idxOf b ↔
      a ∈ start :: pre := by
  have hnd : ((start :: pre) ++ b :: post).Nodup := h.nodup
  have hb : b ∉ start :: pre := fun hb => (List.nodup_append'.mp hnd).right.right hb (by simp)
  rw [← List.cons_append, List.idxOf_append_of_notMem hb, List.idxOf_cons_self, Nat.add_zero]
  by_cases ha : a ∈ start :: pre
  case pos => simp only [List.idxOf_append_of_mem ha, List.idxOf_lt_length_iff]
  case neg =>
    rw [List.idxOf_append_of_notMem ha]
    exact iff_of_false (by omega) ha

-- What one pass finds, when F holds of what is not found before it: for the predecessors that come first in
-- the list it is known from the same pass.
theorem not_mem_pass_iff (h : Flow E preds start rest) {F G : ι → ι → Prop} {D : ι → Finset ι}
    (hD : ∀ a ∈ start :: rest, ∀ b ∈ start :: rest, a ∉ D b ↔ F a b)
    (hstart : ∀ a ∈ start :: rest, G a start ↔ F a start)
    (hG : ∀ a ∈ start :: rest, ∀ b ∈ rest, G a b ↔ b ≠ a ∧ ∃ p ∈ preds b,
      if (start :: rest).idxOf p < (start :: rest).idxOf b then G a p else F a p) :
    ∀ a ∈ start :: rest, ∀ b ∈ start :: rest,
      a ∉ pass preds (start :: rest).toFinset rest D b ↔ G a b := by
  intro a ha
  -- what holds when the pass has come to the end of pre
  have hinitial (pre : List ι) : ∀ post, rest = pre ++ post → ∀ b ∈ start :: pre,
      a ∉ pass preds (start :: rest).toFinset pre D b ↔ G a b := by
    induction pre using List.reverseRecOn with
    | nil =>
      intro post _ b hb
      obtain rfl := List.mem_singleton.mp hb
      exact (hD a ha b List.mem_cons_self).trans (hstart a ha).symm
    | append_singleton pre c ih =>
      intro post hrest b hb
      rw [List.append_assoc, List.singleton_append] at hrest
      have ih := ih (c :: post) hrest
      have hnd : ((start :: pre) ++ c :: post).Nodup := by
        have hnd := h.nodup
        rwa [hrest] at hnd
      have hc : c ∉ start :: pre := fun hc => (List.nodup_append'.mp hnd).right.right hc (by simp)
      have hpass : pass preds (start :: rest).toFinset (pre ++ [c]) D = Function.update
          (pass preds (start :: rest).toFinset pre D) c
          (meet preds (start :: rest).toFinset (pass preds (start :: rest).toFinset pre D) c) :=
        pass_append
      rw [hpass]
      by_cases hbc : b = c
      case neg =>
        rw [Function.update_of_ne hbc]
        refine ih b ?_
        rw [← List.cons_append] at hb
        exact (List.mem_append.mp hb).resolve_right (fun hb => hbc (List.mem_singleton.mp hb))
      case pos =>
        subst hbc
        have hb' : b ∈ rest := by simp [hrest]
        rw [Function.update_self, not_mem_meet_iff (List.mem_toFinset.mpr ha) (h.entered b hb'),
          hG a ha b hb']
        refine and_congr_right fun _ => exists_congr fun p => and_congr_right fun hp => ?_
        have hidx : (start :: rest).idxOf p < (start :: rest).idxOf b ↔ p ∈ start :: pre := by
          subst hrest
          exact h.idxOf_lt_iff
        have hp' := ((h.mem_preds b (List.mem_cons_of_mem _ hb') p).mp hp).left
        split
        case isTrue hi => exact ih p (hidx.mp hi)
        case isFalse hi =>
          have hpre : p ∉ pre := fun hpre => hi (hidx.mpr (List.mem_cons_of_mem _ hpre))
          rw [pass_of_not_mem hpre]
          exact hD a ha p hp'
  exact hinitial rest [] (List.append_nil rest).symm

variable {r : ℕ} (h : Flow E preds start rest)

-- What the passes have found when they are done k times.
def after (preds : ι → List ι) (start : ι) (rest : List ι) (k : ℕ) : ι → Finset ι :=
  (pass preds (start :: rest).toFinset rest)^[k] (init (start :: rest).toFinset start)

theorem after_succ (k : ℕ) : after preds start rest (k + 1)
    = pass preds (start :: rest).toFinset rest (after preds start rest k) :=
  Function.iterate_succ_apply' ..

-- When a pass changes nothing, the later ones do not either.
theorem after_add {k : ℕ} (heq : after preds start rest (k + 1) = after preds start rest k) (j : ℕ) :
    after preds start rest (k + j) = after preds start rest k := by
  induction j with
  | zero => rfl
  | succ j ih => rw [← Nat.add_assoc, after_succ, ih, ← after_succ, heq]

include h

theorem mem_of_escapes (he : Escapes E start (start :: rest) a r b) : b ∈ start :: rest := by
  induction he with
  | start _               => exact List.mem_cons_self
  | advance _ he _ _ ih   => exact h.closed _ ih _ he
  | retreat _ he _ ih     => exact h.closed _ ih _ he

omit [DecidableEq ι] in
theorem start_ne (hb : b ∈ rest) : b ≠ start :=
  fun hbs => (List.nodup_cons.mp h.nodup).left (hbs ▸ hb)

theorem idxOf_start_lt (hb : b ∈ rest) :
    (start :: rest).idxOf start < (start :: rest).idxOf b := by
  rw [List.idxOf_cons_self, List.idxOf_cons_ne rest (h.start_ne hb).symm]
  exact Nat.succ_pos _

-- The last edge of a path that avoids a.
theorem escapes_iff_of_mem_rest (hb : b ∈ rest) {G : ι → Prop}
    (hG : ∀ p, G p → ∃ r', r = r' + 1 ∧ Escapes E start (start :: rest) a r' p)
    (hG' : ∀ p r', r = r' + 1 → Escapes E start (start :: rest) a r' p → G p) :
    Escapes E start (start :: rest) a r b ↔ b ≠ a ∧ ∃ p ∈ preds b,
      if (start :: rest).idxOf p < (start :: rest).idxOf b then
        Escapes E start (start :: rest) a r p
      else
        G p := by
  have hpred := h.mem_preds b (List.mem_cons_of_mem start hb)
  constructor
  case mp =>
    intro he
    refine ⟨he.ne, ?_⟩
    cases he with
    | start _ => exact absurd rfl (h.start_ne hb)
    | @advance _ p _ he hpb _ hi =>
      refine ⟨p, (hpred p).mpr ⟨h.mem_of_escapes he, hpb⟩, ?_⟩
      rwa [if_pos hi]
    | @retreat _ p _ he hpb _ =>
      refine ⟨p, (hpred p).mpr ⟨h.mem_of_escapes he, hpb⟩, ?_⟩
      split
      case isTrue  => exact he.succ
      case isFalse => exact hG' p _ rfl he
  case mpr =>
    rintro ⟨hba, p, hp, he⟩
    have hpb := ((hpred p).mp hp).right
    split at he
    case isTrue hi => exact .advance he hpb hba hi
    case isFalse =>
      obtain ⟨r', rfl, he⟩ := hG p he
      exact .retreat he hpb hba

omit h in
theorem not_mem_init_iff (ha : a ∈ start :: rest) :
    a ∉ init (start :: rest).toFinset start b ↔ b = start ∧ start ≠ a := by
  rw [init]
  split
  case isTrue hbs => simp [hbs, eq_comm]
  case isFalse hbs => simp [hbs, List.mem_cons.mp ha]

-- After pass r + 1, a node is known not to dominate another if there is a path to that other one that avoids
-- it and goes back at most r times.
theorem not_mem_after_iff : ∀ a ∈ start :: rest, ∀ b ∈ start :: rest,
    a ∉ after preds start rest (r + 1) b ↔ Escapes E start (start :: rest) a r b := by
  induction r with
  | zero =>
    rw [after_succ]
    refine h.not_mem_pass_iff (fun a ha b _ => not_mem_init_iff ha)
      (fun a _ => ⟨fun he => ⟨rfl, he.ne⟩, fun hs => .start hs.right⟩) fun a _ b hb => ?_
    rw [h.escapes_iff_of_mem_rest (G := fun _ => False) hb (fun _ => False.elim)
      fun _ _ hr => absurd hr (Nat.succ_ne_zero _).symm]
    refine and_congr_right fun _ => exists_congr fun p => and_congr_right fun _ => ?_
    split
    case isTrue => exact Iff.rfl
    case isFalse hi =>
      refine iff_of_false id ?_
      rintro ⟨rfl, -⟩
      exact hi (h.idxOf_start_lt hb)
  | succ r ih =>
    rw [after_succ]
    refine h.not_mem_pass_iff ih
      (fun a _ => ⟨fun he => .start he.ne, fun he => .start he.ne⟩) fun a _ b hb => ?_
    refine h.escapes_iff_of_mem_rest hb (fun p he => ⟨r, rfl, he⟩) fun p r' hr he => ?_
    exact Nat.succ.inj hr ▸ he

omit h in
theorem after_subset (k : ℕ) : ∀ b ∈ start :: rest,
    after preds start rest k b ⊆ (start :: rest).toFinset := by
  have hpass (l : List ι) : ∀ D : ι → Finset ι, l ⊆ start :: rest →
      (∀ b ∈ start :: rest, D b ⊆ (start :: rest).toFinset) →
      ∀ b ∈ start :: rest, pass preds (start :: rest).toFinset l D b ⊆ (start :: rest).toFinset := by
    induction l with
    | nil => exact fun D _ hD => hD
    | cons c l ih =>
      intro D hl hD
      obtain ⟨hc, hl⟩ := List.cons_subset.mp hl
      refine ih (Function.update D c (meet preds (start :: rest).toFinset D c)) hl fun b hb => ?_
      by_cases hbc : b = c
      case pos =>
        subst hbc
        rw [Function.update_self]
        exact meet_subset (List.mem_toFinset.mpr hb)
      case neg =>
        rw [Function.update_of_ne hbc]
        exact hD b hb
  induction k with
  | zero =>
    intro b _
    rw [after, Function.iterate_zero_apply, init]
    split
    case isTrue  => simp
    case isFalse => exact Finset.Subset.rfl
  | succ k ih =>
    rw [after_succ]
    exact hpass rest _ (List.subset_cons_self start rest) ih

-- The passes come to an end with pass r + 2 at the latest if no path needs to go back more often.
theorem after_eq_iff : after preds start rest (r + 2) = after preds start rest (r + 1) ↔
    Shallow E start (start :: rest) r := by
  rw [shallow_iff]
  constructor
  case mp =>
    intro heq a ha b r' he
    have hsucc (y : ι) (hy : Escapes E start (start :: rest) a (r + 1) y) :
        Escapes E start (start :: rest) a r y := by
      have hy' := h.mem_of_escapes hy
      rw [← h.not_mem_after_iff a ha y hy'] at hy ⊢
      rwa [heq] at hy
    induction he with
    | start hs                => exact .start hs
    | advance _ he hya hi ih  => exact .advance ih he hya hi
    | retreat _ he hya ih     => exact hsucc _ (.retreat ih he hya)
  case mpr =>
    intro hs
    funext b
    by_cases hb : b ∈ rest
    case neg => rw [after_succ (r + 1), pass_of_not_mem hb]
    case pos =>
      have hb' := List.mem_cons_of_mem start hb
      ext a
      by_cases ha : a ∈ start :: rest
      case pos =>
        rw [← not_iff_not, h.not_mem_after_iff a ha b hb', h.not_mem_after_iff a ha b hb']
        exact ⟨hs a ha b (r + 1), Escapes.succ⟩
      case neg =>
        have hsub (k : ℕ) (hk : a ∈ after preds start rest k b) : False :=
          ha (List.mem_toFinset.mp (after_subset k b hb' hk))
        exact iff_of_false (hsub _) (hsub _)

-- Then they have found the dominators.
theorem mem_after_iff_dominates (hs : Shallow E start (start :: rest) r)
    (ha : a ∈ start :: rest) (hb : b ∈ start :: rest) :
    a ∈ after preds start rest (r + 1) b ↔ Dominates E start a b := by
  rw [← not_iff_not, h.not_mem_after_iff a ha b hb, not_dominates_iff]
  exact ⟨fun he => ⟨r, he⟩, fun ⟨r', he⟩ => (shallow_iff).mp hs a ha b r' he⟩

end Flow

end convergence

end Dominators
