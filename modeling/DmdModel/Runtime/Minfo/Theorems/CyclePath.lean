import DmdModel.Lib.Distances
import DmdModel.Runtime.Minfo.CyclePath
import DmdModel.Runtime.Minfo.Theorems.IgnoredCycles

open Relation Distances

namespace Runtime.Minfo.ModuleGroup

variable {g : ModuleGroup} {a b i j k n v target : Nat} {is done ns : List Nat} {distance : Nat → Option Nat}
  {acc : (Nat → Option Nat) × Bool}

section levels

-- The labels up to a distance are those of the modules at this distance or closer.
def Labels (g : ModuleGroup) (a k : Nat) (distance : Nat → Option Nat) : Prop :=
  ∀ v j, j ≤ k → (distance v = some j ↔ IsDist g.Edge a v j)

-- The labels while the modules at the distance `k` are looked at: those of `seen` have labelled their
-- dependencies.
structure Labelling (g : ModuleGroup) (a k : Nat) (seen : Nat → Nat → Prop) (acc : (Nat → Option Nat) × Bool) : Prop where
  labels : Labels g a k acc.1
  le     : ∀ v j, acc.1 v = some j → j ≤ k + 1
  next   : ∀ v, acc.1 v = some (k + 1) ↔ IsDist g.Edge a v (k + 1) ∧ ∃ i, IsDist g.Edge a i k ∧ seen i v
  done   : acc.2 = true ↔ ∀ v, acc.1 v ≠ some (k + 1)

theorem Labelling.congr {seen seen' : Nat → Nat → Prop} (h : Labelling g a k seen acc)
    (hs : ∀ i v, IsDist g.Edge a i k → (seen i v ↔ seen' i v)) : Labelling g a k seen' acc where
  labels := h.labels
  le := h.le
  next v := by
    rw [h.next]
    exact and_congr_right fun _ => exists_congr fun i => and_congr_right fun hi => hs i v hi
  done := h.done

-- One more dependency of a module at the distance `k`
theorem Labelling.relax {seen : Nat → Nat → Prop} (h : Labelling g a k seen acc) (hi : IsDist g.Edge a i k)
    (e : g.Edge i n) : Labelling g a k (fun i' v => seen i' v ∨ i' = i ∧ v = n) (relax k acc n) := by
  rw [ModuleGroup.relax]
  split_ifs with hn
  case pos =>
    have hfar : IsDist g.Edge a n (k + 1) := by
      refine hi.tail e fun j hj hd => ?_
      rw [(h.labels n j hj).mpr hd] at hn
      cases hn
    constructor
    case labels =>
      intro v j hj
      dsimp only
      rw [Function.update_apply]
      split_ifs with hv
      case pos =>
        subst hv
        refine iff_of_false (fun he => ?_) fun hd => ?_
        · have := Option.some.inj he
          omega
        · have := hfar.eq hd
          omega
      case neg => exact h.labels v j hj
    case le =>
      intro v j hv
      dsimp only at hv
      rw [Function.update_apply] at hv
      split_ifs at hv
      case pos => exact (Option.some.inj hv).ge
      case neg => exact h.le v j hv
    case next =>
      intro v
      dsimp only
      rw [Function.update_apply]
      split_ifs with hv
      case pos => exact iff_of_true rfl ⟨hv ▸ hfar, i, hi, .inr ⟨rfl, hv⟩⟩
      case neg =>
        rw [h.next]
        exact and_congr_right fun _ => exists_congr fun i' => and_congr_right fun _ =>
          (or_iff_left fun h => hv h.2).symm
    case done => exact iff_of_false (Bool.false_ne_true) fun hall => hall n (Function.update_self ..)
  case neg =>
    refine ⟨h.labels, h.le, fun v => ?_, h.done⟩
    rw [h.next]
    refine and_congr_right fun hv => ⟨fun hex => ?_, ?_⟩
    · obtain ⟨i', hi', hs⟩ := hex
      exact ⟨i', hi', .inl hs⟩
    · rintro ⟨i', hi', hs | ⟨rfl, rfl⟩⟩
      · exact ⟨i', hi', hs⟩
      · -- it has its label already
        obtain ⟨j, hj⟩ := Option.ne_none_iff_exists'.mp hn
        by_cases hjk : j ≤ k
        case pos =>
          have := hv.eq ((h.labels v j hjk).mp hj)
          omega
        case neg =>
          obtain rfl : j = k + 1 := by have := h.le v j hj; omega
          exact ((h.next v).mp hj).2

theorem Labelling.edges {seen : Nat → Nat → Prop} (h : Labelling g a k seen acc) (hi : IsDist g.Edge a i k)
    (hns : ∀ n ∈ ns, g.Edge i n) :
    Labelling g a k (fun i' v => seen i' v ∨ i' = i ∧ v ∈ ns) (ns.foldl (ModuleGroup.relax k) acc) := by
  induction ns generalizing acc seen with
  | nil => exact h.congr fun i' v _ => by simp
  | cons n ns hi' =>
    rw [List.forall_mem_cons] at hns
    refine (hi' (h.relax hi hns.1) hns.2).congr fun i' v _ => ?_
    rw [List.mem_cons, or_assoc, ← and_or_left]

-- What the loop over the modules leaves, for a target that is not at the distance
theorem level_spec (h : Labelling g a k (fun i v => i ∈ done ∧ g.Edge i v) acc) (ht : ¬IsDist g.Edge a target k) :
    Labelling g a k (fun i v => i ∈ done ++ is ∧ g.Edge i v) (g.level target k is acc) := by
  induction is generalizing acc done with
  | nil => rwa [List.append_nil]
  | cons i is hi =>
    rw [level]
    have hlabel := h.labels i k le_rfl
    have hrest {acc : (Nat → Option Nat) × Bool}
        (h : Labelling g a k (fun i' v => i' ∈ done ++ [i] ∧ g.Edge i' v) acc) :
        Labelling g a k (fun i' v => i' ∈ done ++ i :: is ∧ g.Edge i' v) (g.level target k is acc) := by
      have h' := hi h
      rwa [List.append_assoc, List.singleton_append] at h'
    split_ifs with hd ht'
    case pos => exact absurd (hlabel.mp hd) (ht' ▸ ht)
    case neg =>
      refine hrest ((h.edges (hlabel.mp hd) fun _ => id).congr fun i' v _ => ?_)
      rw [List.mem_append, List.mem_singleton, or_and_right]
      exact or_congr_right (and_congr_right fun he => by rw [he]; rfl)
    case neg =>
      refine hrest (h.congr fun i' v hi' => ?_)
      have hne : i' ≠ i := fun he => hd (hlabel.mpr (he ▸ hi'))
      rw [List.mem_append, List.mem_singleton, or_iff_left hne]

-- At the target the loop ends early.
theorem level_target (h : Labelling g a k (fun i v => i ∈ done ∧ g.Edge i v) acc) (ht : IsDist g.Edge a target k)
    (hm : target ∈ is) : (g.level target k is acc).2 = true ∧ Labels g a k (g.level target k is acc).1 := by
  induction is generalizing acc done with
  | nil => cases hm
  | cons i is hi =>
    rw [level]
    have hlabel := h.labels i k le_rfl
    by_cases ht' : i = target
    case pos =>
      rw [if_pos (hlabel.mpr (ht' ▸ ht)), if_pos ht']
      exact ⟨rfl, h.labels⟩
    case neg =>
      have hm' : target ∈ is := (List.mem_cons.mp hm).resolve_left fun he => ht' he.symm
      rw [if_neg ht']
      split_ifs with hd
      case pos =>
        refine @hi (done ++ [i]) _ ((h.edges (hlabel.mp hd) fun _ => id).congr fun i' v _ => ?_) hm'
        rw [List.mem_append, List.mem_singleton, or_and_right]
        exact or_congr_right (and_congr_right fun he => by rw [he]; rfl)
      case neg =>
        refine @hi (done ++ [i]) _ (h.congr fun i' v hi' => ?_) hm'
        have hne : i' ≠ i := fun he => hd (hlabel.mpr (he ▸ hi'))
        rw [List.mem_append, List.mem_singleton, or_iff_left hne]

-- The labels before the modules at the distance `k` are looked at
structure Start (g : ModuleGroup) (a k : Nat) (distance : Nat → Option Nat) : Prop where
  labels : Labels g a k distance
  le     : ∀ v j, distance v = some j → j ≤ k

theorem Start.labelling (h : Start g a k distance) :
    Labelling g a k (fun i v => i ∈ [] ∧ g.Edge i v) (distance, true) where
  labels := h.labels
  le v j hv := (h.le v j hv).trans (Nat.le_succ k)
  next v := by
    refine iff_of_false (fun hv => ?_) fun hv => ?_
    · have := h.le v _ hv
      omega
    · obtain ⟨-, i, -, hi, -⟩ := hv
      exact List.not_mem_nil hi
  done := by
    refine iff_of_true rfl fun v hv => ?_
    have := h.le v _ hv
    omega

theorem Start.next (hlen : ∀ i, ReflTransGen g.Edge a i → i < g.len)
    (h : Labelling g a k (fun i v => i ∈ [] ++ List.range g.len ∧ g.Edge i v) acc) : Start g a (k + 1) acc.1 where
  labels v j hj := by
    obtain hj | rfl := Nat.lt_or_eq_of_le hj
    · exact h.labels v j (Nat.le_of_lt_succ hj)
    · rw [h.next]
      refine and_iff_left_of_imp fun hv => ?_
      obtain ⟨i, hi, e⟩ := hv.pred
      exact ⟨i, hi, List.mem_range.mpr (hlen i hi.reflTransGen), e⟩
  le := h.le

theorem start_init : Start g a 0 (Function.update (fun _ => none) a (some 0)) where
  labels v j hj := by
    obtain rfl := Nat.le_zero.mp hj
    rw [IsDist.zero_iff, Function.update_apply]
    split_ifs with hv
    case pos => exact iff_of_true rfl hv.symm
    case neg => exact iff_of_false id fun h => hv h.symm
  le v j hv := by
    rw [Function.update_apply] at hv
    split_ifs at hv
    exact (Option.some.inj hv).ge

-- The levels end at the distance of the target.
theorem levels_spec {f : Nat} (hlen : ∀ i, ReflTransGen g.Edge a i → i < g.len) (ht : IsDist g.Edge a target n)
    (h : Start g a k distance) (hk : k ≤ n) (hf : n < k + f) :
    ∃ distance', g.levels target f k distance = .ok (n, distance') ∧ Labels g a n distance' := by
  induction f generalizing k distance with
  | zero => omega
  | succ f hi =>
    rw [levels]
    obtain rfl | hlt := Nat.eq_or_lt_of_le hk
    case inl =>
      obtain ⟨hdone, hlabels⟩ := level_target h.labelling ht (List.mem_range.mpr (hlen _ ht.reflTransGen))
      simp only [hdone, if_true]
      exact ⟨_, rfl, hlabels⟩
    case inr =>
      have hne : ¬IsDist g.Edge a target k := fun hd => Nat.ne_of_lt hlt (hd.eq ht)
      have hlevel := @level_spec _ _ _ _ (List.range g.len) _ _ h.labelling hne
      have hnext := Start.next hlen hlevel
      -- there is a module at the next distance
      obtain ⟨v, hv⟩ := ht.exists_of_le (Nat.succ_le_of_lt hlt)
      have hdone : ¬(g.level target k (List.range g.len) (distance, true)).2 = true := fun hd =>
        hlevel.done.mp hd v ((hnext.labels v (k + 1) le_rfl).mpr hv)
      simp only [if_neg hdone]
      exact hi hnext (Nat.succ_le_of_lt hlt) (by omega)

end levels

section paths

-- The path back from the target is a shortest one.
theorem subpath_spec (hlen : ∀ i, ReflTransGen g.Edge a i → i < g.len) (hlabels : Labels g a n distance)
    (hk : k + 1 ≤ n) (ht : IsDist g.Edge a target (k + 1)) : ∃ p, g.subpath distance (k + 1) target = .ok p ∧
      p.length = k + 1 ∧ List.IsChain g.Edge (a :: p) ∧ (a :: p).getLast? = some target := by
  induction k generalizing target with
  | zero =>
    obtain ⟨b, hb, e⟩ := ht.pred
    obtain rfl := IsDist.zero_iff.mp hb
    exact ⟨[target], rfl, rfl, List.isChain_pair.mpr e, rfl⟩
  | succ k hi =>
    obtain ⟨b, hb, e⟩ := ht.pred
    have hfind : ((List.range g.len).find? fun m => distance m = some (k + 1) ∧ target ∈ g.edges m).isSome := by
      rw [List.find?_isSome]
      refine ⟨b, List.mem_range.mpr (hlen b hb.reflTransGen), decide_eq_true ⟨?_, e⟩⟩
      exact (hlabels b (k + 1) (Nat.le_of_succ_le hk)).mpr hb
    obtain ⟨m, hm⟩ := Option.isSome_iff_exists.mp hfind
    have hfound := List.find?_some hm
    obtain ⟨hlabel, hedge⟩ := of_decide_eq_true hfound
    obtain ⟨p, hp, hlength, hchain, hlast⟩ :=
      hi (Nat.le_of_succ_le hk) ((hlabels m (k + 1) (Nat.le_of_succ_le hk)).mp hlabel)
    refine ⟨p ++ [target], ?_, by rw [List.length_append, hlength, List.length_singleton], ?_, ?_⟩
    · rw [subpath, hm, Option.getD_some, hp]
      rfl
    · rw [← List.cons_append, List.isChain_append]
      refine ⟨hchain, List.isChain_singleton _, fun x hx y hy => ?_⟩
      rw [hlast] at hx
      obtain rfl := Option.some.inj hx
      obtain rfl : target = y := Option.some.inj hy
      exact hedge
    · rw [← List.cons_append, List.getLast?_append, List.getLast?_singleton, Option.some_or]

theorem shortest_spec (hlen : ∀ i, ReflTransGen g.Edge a i → i < g.len) (hne : a ≠ b) (hab : ReflTransGen g.Edge a b)
    (hn : n ≤ g.len) : ∃ p, g.shortest a b n = .ok p ∧ ShortestPath g.Edge a b p ∧ p.length < g.len := by
  obtain ⟨d, hd⟩ := exists_isDist hab
  have hlt : d < g.len := by
    have h := hd.lt_card (s := Finset.range g.len) fun c hc => Finset.mem_range.mpr (hlen c hc)
    rwa [Finset.card_range] at h
  obtain ⟨distance, hlevels, hlabels⟩ := levels_spec (f := g.len + 1) hlen hd start_init (Nat.zero_le d) (by omega)
  obtain ⟨k, rfl⟩ : ∃ k, d = k + 1 := by
    refine Nat.exists_eq_succ_of_ne_zero ?_
    rintro rfl
    exact hne (IsDist.zero_iff.mp hd)
  obtain ⟨p, hp, hlength, hchain, hlast⟩ := subpath_spec hlen hlabels le_rfl hd
  refine ⟨p, ?_, ShortestPath.of_isDist (hlength ▸ hd) hchain hlast, hlength ▸ hlt⟩
  have hlabel : distance b = some (k + 1) := (hlabels b (k + 1) le_rfl).mpr hd
  have hroom : ¬n + (k + 1) > g.len * 2 := by omega
  rw [shortest, hlevels]
  simp only [bind, Except.bind, hlabel, ne_eq, not_true, if_false, hroom, hp]

end paths

-- What is printed for a cycle: the way from the one module to the other and back, both as short as possible
structure CycleReport (g : ModuleGroup) (src target : Nat) (cyclePath there back : List Nat) : Prop where
  eq    : cyclePath = there ++ back
  there : ShortestPath g.Edge src target there
  back  : ShortestPath g.Edge target src back
  room  : cyclePath.length ≤ 2 * g.len

theorem genCyclePath_spec (hne : a ≠ b) (hab : ReflTransGen g.Edge a b) (hba : ReflTransGen g.Edge b a) :
    ∃ p q, g.genCyclePath a b = .ok (p ++ q) ∧ CycleReport g a b (p ++ q) p q := by
  have hlen {i j : Nat} (h : ReflTransGen g.Edge i j) (hi : i < g.len) : j < g.len := by
    induction h with
    | refl => exact hi
    | tail _ e _ => exact g.edges_lt_len e
  have ha : a < g.len := by
    obtain rfl | ⟨c, -, e⟩ := ReflTransGen.cases_tail hba
    · exact absurd rfl hne
    · exact g.edges_lt_len e
  obtain ⟨p, hp, hpath, hlt⟩ := shortest_spec (n := 0) (fun i hi => hlen hi ha) hne hab (Nat.zero_le _)
  obtain ⟨q, hq, hback, hlt'⟩ := shortest_spec (n := p.length) (fun i hi => hlen hi (hlen hab ha)) hne.symm hba hlt.le
  refine ⟨p, q, ?_, rfl, hpath, hback, ?_⟩
  · rw [genCyclePath, hp]
    simp only [bind, Except.bind, hq, pure, Except.pure]
  · rw [List.length_append]
    omega

-- The error of a sorting names two modules that depend on each other.
theorem sortCtors_cycle {cycleHandling : String} (h : g.sortCtors cycleHandling = .error (.cycle a b)) :
    a ≠ b ∧ ReflTransGen g.Edge a b ∧ ReflTransGen g.Edge b a := by
  have herror {flags : UInt32} (h : g.doSort .abort flags = .error (.cycle a b)) :
      a ≠ b ∧ ReflTransGen g.Edge a b ∧ ReflTransGen g.Edge b a :=
    ((doSort_spec g flags).of_error h).2.2
  cases hc : onCycleOf cycleHandling with
  | none =>
    rw [sortCtors, hc] at h
    cases h
  | some onCycle =>
    by_cases habort : onCycle = .abort
    case neg =>
      obtain ⟨r, hr, -⟩ := sortCtors_going g cycleHandling onCycle hc habort
      rw [hr] at h
      cases h
    case pos =>
      rw [sortCtors_eq (habort ▸ hc)] at h
      cases h₁ : g.doSort .abort Pass.shared.relevantFlags with
      | error e =>
        rw [h₁] at h
        cases h
        exact herror h₁
      | ok ctors =>
        rw [h₁] at h
        cases h₂ : g.doSort .abort Pass.tls.relevantFlags with
        | error e =>
          simp only [h₂, Except.bind] at h
          cases h
          exact herror h₂
        | ok tlsctors =>
          simp only [h₂, Except.bind] at h
          cases h

-- For two modules that depend on each other, such as those that the error of a sorting names, the path
-- that is printed is a cycle through both, along the imports, and no array is left.
theorem genCyclePath_isCycle (g : ModuleGroup) (a b : Nat)
    (h : (a ≠ b ∧ TransGen g.Imports a b ∧ TransGen g.Imports b a) ∨
      ∃ cycleHandling, g.sortCtors cycleHandling = .error (.cycle a b)) :
    ∃ p q, g.genCyclePath a b = .ok (p ++ q) ∧ CycleReport g a b (p ++ q) p q := by
  obtain ⟨hne, hab, hba⟩ | ⟨cycleHandling, h⟩ := h
  case inl => exact genCyclePath_spec hne ((transGen_imports_iff hne).mp hab) ((transGen_imports_iff hne.symm).mp hba)
  case inr =>
    obtain ⟨hne, hab, hba⟩ := sortCtors_cycle h
    exact genCyclePath_spec hne hab hba

theorem genCyclePath_isCycle_mutualImports :
    ∃ p q, mutualImports.genCyclePath 0 1 = .ok (p ++ q) ∧ CycleReport mutualImports 0 1 (p ++ q) p q :=
  genCyclePath_isCycle mutualImports 0 1 (.inl ⟨by decide, .single ⟨_, _, rfl, rfl, by decide⟩,
    .single ⟨_, _, rfl, rfl, by decide⟩⟩)

example : mutualImports.genCyclePath 0 1 = .ok [1, 0] := by decide

end Runtime.Minfo.ModuleGroup
