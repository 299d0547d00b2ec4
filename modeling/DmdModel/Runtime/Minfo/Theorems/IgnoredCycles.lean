import DmdModel.Runtime.Minfo.Theorems.SortCtors

-- The modes that go on after a cycle: every constructor is still sorted once, and the ones that are not
-- on a cycle still come after those that they depend on.

open Relation

namespace Runtime.Minfo.ModuleGroup

variable {g : ModuleGroup} {relevant ctorstart ctordone : Finset Nat} {first : List Nat} {s s' : SortState}
  {idx : Nat} {onCycle : OnCycle}

-- A search that does not abort takes no notice of the started modules.
theorem findDepsLoop_going (h : onCycle ≠ .abort) (stack : List StackFrame) (reachable : Finset Nat) :
    g.findDepsLoop onCycle relevant ctorstart ctordone idx stack reachable =
      g.findDepsLoop .abort relevant ∅ ctordone idx stack reachable := by
  induction stack, reachable using findDepsLoop.induct g onCycle relevant ctorstart ctordone with
  | case1 => rw [findDepsLoop, findDepsLoop]
  | case2 sp stack reachable hd midx hr ih =>
    rw [findDepsLoop, dif_pos hd, dif_pos hr, findDepsLoop.eq_2 g .abort, dif_pos hd, dif_pos hr, ih]
  | case3 sp stack reachable hd midx hr hm hs => exact absurd hs.2 h
  | case4 sp stack reachable hd midx hr hm hs ih =>
    have hempty : ¬(midx ∈ (∅ : Finset Nat) ∧ OnCycle.abort = .abort) := fun he => Finset.notMem_empty _ he.1
    rw [findDepsLoop, dif_pos hd, dif_neg hr, if_pos hm, if_neg hs, findDepsLoop.eq_2 g .abort, dif_pos hd,
      dif_neg hr, if_pos hm, if_neg hempty, ih]
  | case5 sp stack reachable hd midx hr hm hc hl =>
    rw [findDepsLoop, dif_pos hd, dif_neg hr, if_neg hm, if_pos hc, if_pos hl, findDepsLoop.eq_2 g .abort, dif_pos hd,
      dif_neg hr, if_neg hm, if_pos hc, if_pos hl]
  | case6 sp stack reachable hd midx hr hm hc hl ih =>
    rw [findDepsLoop, dif_pos hd, dif_neg hr, if_neg hm, if_pos hc, if_neg hl, findDepsLoop.eq_2 g .abort, dif_pos hd,
      dif_neg hr, if_neg hm, if_pos hc, if_neg hl, ih]
  | case7 sp stack reachable hd midx hr hm hc ih =>
    rw [findDepsLoop, dif_pos hd, dif_neg hr, if_neg hm, if_neg hc, findDepsLoop.eq_2 g .abort, dif_pos hd,
      dif_neg hr, if_neg hm, if_neg hc, ih]
  | case8 sp stack reachable hd ih =>
    rw [findDepsLoop, dif_neg hd, findDepsLoop.eq_2 g .abort, dif_neg hd, ih]

theorem findDeps_going (h : onCycle ≠ .abort) (hi : idx ∈ relevant) (hl : idx < g.len) :
    (g.findDeps onCycle relevant ctorstart ctordone idx).Post (Found g relevant ∅ ctordone idx) fun _ => False := by
  have heq : g.findDeps onCycle relevant ctorstart ctordone idx = g.findDeps .abort relevant ∅ ctordone idx :=
    findDepsLoop_going h _ _
  rw [heq]
  refine (findDeps_spec hi hl (Finset.notMem_empty idx)).mono (fun _ => id) fun e he => ?_
  cases e with
  | cycle a b => exact Finset.notMem_empty b he.2.2.1
  | _ => exact he

-- A module that reaches another relevant one, which reaches it
def OnACycle (g : ModuleGroup) (relevant : Finset Nat) (a : Nat) : Prop :=
  ∃ c ∈ relevant, c ≠ a ∧ ReflTransGen g.Edge a c ∧ ReflTransGen g.Edge c a

-- The invariant of a sorting that goes on: a started module can be marked as done while it is processed,
-- but what it imports need not be done before that is over.
structure GoingInv (g : ModuleGroup) (relevant : Finset Nat) (first : List Nat) (s : SortState) : Prop where
  started : s.ctorstart ⊆ relevant
  closed  : ∀ x ∈ s.ctordone, x ∉ s.ctorstart → ∀ y, g.Edge x y → y ∈ s.ctordone
  mem     : ∀ x, x ∈ s.ctors ↔ x ∈ first ∨ (x ∈ relevant ∧ x ∈ s.ctordone ∧ x ∉ s.ctorstart)
  nodup   : s.ctors.Nodup
  order   : ∀ a ∈ s.ctordone, a ∉ s.ctorstart → a ∈ relevant → ¬OnACycle g relevant a →
    ∀ b ∈ relevant, ReflTransGen g.Edge a b → b ≠ a → Before s.ctors b a

namespace GoingInv

theorem start (i : GoingInv g relevant first s) (hi : idx ∈ relevant) (hd : idx ∉ s.ctordone) :
    GoingInv g relevant first { s with ctorstart := insert idx s.ctorstart } where
  started := Finset.insert_subset hi i.started
  closed x hx hs := i.closed x hx fun h => hs (Finset.mem_insert_of_mem h)
  mem x := by
    have hne : x ∈ s.ctordone → x ≠ idx := fun hx he => hd (he ▸ hx)
    rw [i.mem, Finset.mem_insert]
    tauto
  nodup := i.nodup
  order a ha hs := i.order a ha fun h => hs (Finset.mem_insert_of_mem h)

-- All that `processMod` does once the relevant dependencies of `idx` are done or started
theorem finish {start reachable done : Finset Nat} (i : GoingInv g relevant first s)
    (hs : s.ctorstart = insert idx start) (hi : idx ∈ relevant) (hf : idx ∉ first) (hn : idx ∉ start)
    (hd : done ⊆ s.ctordone) (f : Found g relevant ∅ done idx reachable)
    (hr : ∀ x ∈ reachable, x ≠ idx → x ∈ relevant → x ∈ s.ctordone ∨ x ∈ start)
    (hp : ∀ x ∈ start, ReflTransGen g.Edge x idx) :
    GoingInv g relevant first {
      ctorstart := s.ctorstart.erase idx
      ctordone  := insert idx s.ctordone ∪ reachable
      ctors     := s.ctors ++ [idx]
    } := by
  have hstart : s.ctorstart.erase idx = start := by rw [hs, Finset.erase_insert hn]
  have hstarted {x : Nat} (hx : x ∉ start) (hne : x ≠ idx) : x ∉ s.ctorstart := by
    rw [hs, Finset.mem_insert]
    exact not_or_intro hne hx
  -- a relevant module that is marked now and not started is `idx` or was done before
  have hrel {x : Nat} (hx : x ∈ relevant) (hm : x ∈ insert idx s.ctordone ∪ reachable) (hx' : x ∉ start) :
      x = idx ∨ x ∈ s.ctordone := by
    simp only [Finset.mem_union, Finset.mem_insert] at hm
    by_cases he : x = idx
    case pos => exact .inl he
    case neg =>
      rcases hm with (hm | hm) | hm
      · exact .inl hm
      · exact .inr hm
      · exact .inr ((hr x hm he hx).resolve_right hx')
  have hcl : ∀ x ∈ insert idx s.ctordone ∪ reachable, x ∉ start → ∀ y, g.Edge x y →
      y ∈ insert idx s.ctordone ∪ reachable := by
    intro x hx hx' y e
    by_cases hne : x = idx
    case pos => exact Finset.mem_union_right _ (f.closed x (hne ▸ f.source) (.inl hne) y e)
    case neg =>
      have hdone (hm : x ∈ s.ctordone) : y ∈ insert idx s.ctordone ∪ reachable :=
        Finset.mem_union_left _ (Finset.mem_insert_of_mem (i.closed x hm (hstarted hx' hne) y e))
      simp only [Finset.mem_union, Finset.mem_insert] at hx
      rcases hx with (hm | hm) | hm
      · exact absurd hm hne
      · exact hdone hm
      · by_cases hxr : x ∈ relevant
        case pos => exact hdone ((hr x hm hne hxr).resolve_right hx')
        case neg =>
          by_cases hxd : x ∈ done
          case pos => exact hdone (hd hxd)
          case neg => exact Finset.mem_union_right _ (f.closed x hm (.inr ⟨hxr, hxd⟩) y e)
  have hmem (x : Nat) : x ∈ s.ctors ++ [idx] ↔
      x ∈ first ∨ (x ∈ relevant ∧ x ∈ insert idx s.ctordone ∪ reachable ∧ x ∉ start) := by
    rw [List.mem_append, List.mem_singleton, i.mem, or_assoc]
    refine or_congr_right ⟨?_, ?_⟩
    · rintro (⟨hx, hm, hx'⟩ | rfl)
      · exact ⟨hx, by simp [hm], fun h => hx' (hs ▸ Finset.mem_insert_of_mem h)⟩
      · exact ⟨hi, by simp, hn⟩
    · rintro ⟨hx, hm, hx'⟩
      obtain rfl | hm := hrel hx hm hx'
      · exact .inr rfl
      · by_cases hne : x = idx
        case pos => exact .inr hne
        case neg => exact .inl ⟨hx, hm, hstarted hx' hne⟩
  have hidx : idx ∉ s.ctors := by
    rw [i.mem, hs]
    simp [hf]
  constructor
  case started => exact (Finset.erase_subset ..).trans i.started
  case closed => exact hstart.symm ▸ hcl
  case mem => exact hstart.symm ▸ hmem
  case nodup =>
    refine List.nodup_append.mpr ⟨i.nodup, List.nodup_singleton _, ?_⟩
    rintro x hx y hy rfl
    exact hidx (List.mem_singleton.mp hy ▸ hx)
  case order =>
    rw [hstart]
    intro a ha ha' har hac b hb hab hne
    by_cases he : a = idx
    case neg =>
      have had := (hrel har ha ha').resolve_left he
      exact (i.order a had (hstarted ha' he) har hac b hb hab hne).append _
    case pos =>
      subst he
      -- no module on the way is started, since a started one reaches `a`
      have hway {x : Nat} (hx : ReflTransGen g.Edge a x) : x ∉ start := fun hm =>
        hac ⟨x, i.started (hs ▸ Finset.mem_insert_of_mem hm), fun he => hn (he ▸ hm), hx, hp x hm⟩
      have hbd : b ∈ insert a s.ctordone ∪ reachable := by
        clear hne hb
        induction hab
        case refl => exact ha
        case tail hx e hi => exact hcl _ hi (hway hx) _ e
      have hbm := (hmem b).mpr (.inr ⟨hb, hbd, hway hab⟩)
      rw [List.mem_append, List.mem_singleton] at hbm
      exact Before.of_mem (hbm.resolve_right hne)

end GoingInv

theorem processMod_going {fuel : Nat} (h : onCycle ≠ .abort) (i : GoingInv g relevant first s) (hi : idx ∈ relevant)
    (hl : ∀ x ∈ relevant, x < g.len) (hf : ∀ x ∈ relevant, x ∉ first) (hs : idx ∉ s.ctorstart)
    (hd : idx ∉ s.ctordone) (hp : ∀ x ∈ s.ctorstart, ReflTransGen g.Edge x idx)
    (hc : (relevant \ s.ctorstart).card ≤ fuel) :
    (g.processMod onCycle relevant fuel idx s).Post
      (fun s' => GoingInv g relevant first s' ∧ s.Le s' ∧ idx ∈ s'.ctordone) fun _ => False := by
  induction fuel generalizing idx s
  case zero =>
    have hm : idx ∈ relevant \ s.ctorstart := Finset.mem_sdiff.mpr ⟨hi, hs⟩
    have hpos := Finset.card_pos.mpr ⟨_, hm⟩
    omega
  case succ fuel ih =>
    rw [processMod]
    refine (findDeps_going h hi (hl _ hi)).bind fun reachable f => ?_
    refine (Except.Post.foldlM (GoingInv g relevant first) SortState.Le
      (fun j s₁ => j ≠ idx → j ∈ relevant → j ∈ s₁.ctordone ∨ j ∈ s.ctorstart) .refl .trans
      (fun hle hd h₁ h₂ => (hd h₁ h₂).imp_left (hle.ctordone ·)) ?step (i.start hi hd)).bind ?done
    case done =>
      rintro s₁ ⟨i₁, hle, hall⟩
      rw [Except.Post.pure_iff]
      have hfin := i₁.finish hle.ctorstart hi (hf _ hi) hs hle.ctordone f
        (fun x hx hne hrel => hall x ((mem_bitRange).mpr ⟨hl x hrel, hx⟩) hne hrel) hp
      refine ⟨hfin, ⟨?_, fun x hx => ?_⟩, ?_⟩
      · simp [hle.ctorstart, hs]
      · exact Finset.mem_union_left _ (Finset.mem_insert_of_mem (hle.ctordone hx))
      · simp
    case step =>
      intro j hj s₁ hle i₁
      have hjr := ((mem_bitRange).mp hj).2
      split
      case isFalse hn =>
        refine ⟨i₁, .refl _, fun hne hrel => ?_⟩
        by_contra! hnd
        refine hn ⟨hne, hrel, hnd.1, fun hm => ?_⟩
        rw [hle.ctorstart] at hm
        exact hnd.2 ((Finset.mem_insert.mp hm).resolve_left hne)
      case isTrue hn =>
        obtain ⟨_, hrel, hnd, hns⟩ := hn
        refine (ih i₁ hrel hns hnd ?_ ?_).mono
          (fun _ h => ⟨h.1, h.2.1, fun _ _ => .inl h.2.2⟩) fun _ => id
        · intro x hx
          have hij := ReflTransGen.mono (fun _ _ => DepStep.edge) _ _ (f.sound j hjr)
          rw [hle.ctorstart] at hx
          cases Finset.mem_insert.mp hx with
          | inl he => exact he ▸ hij
          | inr hx => exact (hp x hx).trans hij
        · have hlt : (relevant \ insert idx s.ctorstart).card < (relevant \ s.ctorstart).card := by
            rw [Finset.sdiff_insert]
            exact Finset.card_erase_lt_of_mem (Finset.mem_sdiff.mpr ⟨hi, hs⟩)
          rw [hle.ctorstart]
          exact Nat.le_of_lt_succ (lt_of_lt_of_le hlt hc)

-- A relevant module that another one depends on, which it depends on itself
def Tangled (g : ModuleGroup) (relevantFlags : UInt32) (a : Nat) : Prop :=
  ∃ c ∈ g.relevant relevantFlags, c ≠ a ∧ TransGen g.Imports a c ∧ TransGen g.Imports c a

theorem onACycle_iff {flags : UInt32} {a : Nat} : OnACycle g (g.relevant flags) a ↔ g.Tangled flags a := by
  refine exists_congr fun c => and_congr_right fun _ => and_congr_right fun hne => ?_
  rw [transGen_imports_iff hne.symm, transGen_imports_iff hne]

-- Each constructor once, and those of the modules that are not on a cycle behind their dependencies
structure SortedAround (g : ModuleGroup) (relevantFlags : UInt32) (ctors : List Nat) : Prop where
  nodup : ctors.Nodup
  mem   : ∀ i, i ∈ ctors ↔ i < g.len ∧ g.hasFlags relevantFlags i
  order : ∀ a ∈ g.relevant relevantFlags, ¬g.Tangled relevantFlags a →
    ∀ b ∈ g.relevant relevantFlags, a ≠ b → TransGen g.Imports a b → Before ctors b a

theorem doSort_going (h : onCycle ≠ .abort) (flags : UInt32) :
    ∃ ctors, g.doSort onCycle flags = .ok ctors ∧ g.SortedAround flags ctors := by
  apply Except.Post.exists_ok
  let first := (List.range g.len).filter fun idx => g.hasFlags flags idx && g.standalone idx
  have hl : ∀ x ∈ g.relevant flags, x < g.len := fun x hx => Finset.mem_range.mp (Finset.mem_filter.mp hx).1
  have hf : ∀ x ∈ g.relevant flags, x ∉ first := by simp [relevant, first]; tauto
  have hinit : GoingInv g (g.relevant flags) first ⟨∅, ∅, first⟩ := by
    constructor <;> simp
    exact List.nodup_range.filter _
  rw [doSort]
  apply (Except.Post.foldlM (fun s => GoingInv g (g.relevant flags) first s ∧ s.ctorstart = ∅)
    SortState.Le (fun i s => i ∈ s.ctordone) .refl .trans (fun h hd => h.ctordone hd)
    ?step ⟨hinit, rfl⟩).bind ?done
  case step =>
    rintro i hi s - ⟨hs, he⟩
    split
    case isFalse hd => exact ⟨⟨hs, he⟩, .refl _, not_not.mp hd⟩
    case isTrue hd =>
      have hr := ((mem_bitRange).mp hi).2
      have hc : (g.relevant flags \ s.ctorstart).card ≤ g.len := by
        have hsub : g.relevant flags ⊆ Finset.range g.len := fun x hx => Finset.mem_range.mpr (hl x hx)
        simpa [he] using Finset.card_le_card hsub
      apply (processMod_going h hs hr hl hf (by simp [he]) hd (by simp [he]) hc).mono _ fun _ => id
      rintro s' ⟨h₁, h₂, h₃⟩
      exact ⟨⟨h₁, h₂.ctorstart.trans he⟩, h₂, h₃⟩
  case done =>
    rintro s ⟨⟨hs, he⟩, -, hd⟩
    replace hd : ∀ i ∈ g.relevant flags, i ∈ s.ctordone ∧ i ∉ s.ctorstart :=
      fun i hi => ⟨hd i ((mem_bitRange).mpr ⟨hl i hi, hi⟩), by simp [he]⟩
    constructor
    case nodup => exact hs.nodup
    case mem =>
      intro i
      rw [hs.mem, and_iff_left_of_imp (hd i)]
      simp only [first, relevant, List.mem_filter, List.mem_range, Finset.mem_filter, Finset.mem_range, Bool.and_eq_true]
      by_cases hst : g.standalone i <;> simp [hst]
    case order =>
      intro a ha hac b hb hne t
      exact hs.order a (hd a ha).1 (hd a ha).2 ha (fun h => hac ((onACycle_iff).mp h)) b hb
        ((transGen_imports_iff hne).mp t) hne.symm

-- With cycles ignored or printed the sorting does not fail, and neither pass loses or repeats a
-- constructor, whatever the cycles are. Only the modules on a cycle can come before their dependencies.
theorem sortCtors_going (g : ModuleGroup) (cycleHandling : String) (onCycle : OnCycle)
    (h : onCycleOf cycleHandling = some onCycle) (hne : onCycle ≠ .abort) :
    ∃ r, g.sortCtors cycleHandling = .ok r ∧ ∀ pass : Pass, g.SortedAround pass.relevantFlags (pass.ctors r) := by
  obtain ⟨ctors, hctors, hsorted⟩ := @doSort_going g onCycle hne Pass.shared.relevantFlags
  obtain ⟨tlsctors, htlsctors, htlssorted⟩ := @doSort_going g onCycle hne Pass.tls.relevantFlags
  refine ⟨(ctors, tlsctors), ?_, fun pass => ?_⟩
  · rw [sortCtors, h]
    simp only [Pass.relevantFlags] at hctors htlsctors
    simp only [hctors, htlsctors, bind, Except.bind, pure, Except.pure]
  · cases pass
    case shared => exact hsorted
    case tls => exact htlssorted

-- Two modules with constructors that import each other, and a third one that imports the first
def mutualImports : ModuleGroup where
  modules := [⟨100, MIctor, [200]⟩, ⟨200, MIctor, [100]⟩, ⟨300, MIctor, [100]⟩]
  nodup := by decide

theorem sortCtors_going_mutualImports : ∃ r, mutualImports.sortCtors "ignore" = .ok r ∧
    ∀ pass : Pass, mutualImports.SortedAround pass.relevantFlags (pass.ctors r) :=
  sortCtors_going mutualImports "ignore" .ignore rfl (OnCycle.noConfusion ·)

end Runtime.Minfo.ModuleGroup
