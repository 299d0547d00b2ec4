import DmdModel.Runtime.Minfo.Theorems.FindDeps

open Relation

namespace Runtime.Minfo.ModuleGroup

variable {g : ModuleGroup} {relevant : Finset Nat} {first : List Nat} {s s' : SortState} {idx : Nat}

-- `b` stands before `a` in the list.
def Before (l : List Nat) (b a : Nat) : Prop :=
  [b, a].Sublist l

theorem Before.append {l : List Nat} {a b : Nat} (h : Before l b a) (l' : List Nat) :
    Before (l ++ l') b a :=
  h.trans (List.sublist_append_left ..)

theorem Before.of_mem {l : List Nat} {a b : Nat} (h : b ∈ l) : Before (l ++ [a]) b a :=
  (List.singleton_sublist.mpr h).append (List.Sublist.refl [a])

theorem Before.asymm {l : List Nat} {a b : Nat} (hn : l.Nodup) (h₁ : Before l b a) :
    ¬Before l a b := by
  intro h₂
  induction l
  case nil => cases h₁
  case cons x l hi =>
    have ⟨hx, hn⟩ := List.nodup_cons.mp hn
    cases h₁ <;> cases h₂
    case cons.cons h₁ h₂ => exact hi hn h₁ h₂
    case cons.cons_cons h₁ _ => exact hx (h₁.subset (by simp))
    case cons_cons.cons _ h₂ => exact hx (h₂.subset (by simp))
    case cons_cons.cons_cons h₁ _ => exact hx (h₁.subset (by simp))

-- The invariant of the sorting: started modules are relevant and not done, everything a done module
-- imports is done, and the relevant modules that are done are exactly the sorted ones.
structure SortInv (g : ModuleGroup) (relevant : Finset Nat) (first : List Nat) (s : SortState) :
    Prop where
  started : s.ctorstart ⊆ relevant
  undone  : ∀ x ∈ s.ctorstart, x ∉ s.ctordone
  closed  : ∀ x ∈ s.ctordone, ∀ y, g.Edge x y → y ∈ s.ctordone
  mem     : ∀ x, x ∈ s.ctors ↔ x ∈ first ∨ (x ∈ relevant ∧ x ∈ s.ctordone)
  nodup   : s.ctors.Nodup
  order   : ∀ a ∈ s.ctordone, a ∈ relevant → ∀ b ∈ relevant, ReflTransGen g.Edge a b → b ≠ a →
    Before s.ctors b a

namespace SortInv

theorem closed_reach (i : SortInv g relevant first s) {x y : Nat} (hx : x ∈ s.ctordone)
    (h : ReflTransGen g.Edge x y) : y ∈ s.ctordone := by
  induction h
  case refl => exact hx
  case tail e hi => exact i.closed _ hi _ e

theorem start (i : SortInv g relevant first s) (hi : idx ∈ relevant) (hd : idx ∉ s.ctordone) :
    SortInv g relevant first { s with ctorstart := insert idx s.ctorstart } where
  started := Finset.insert_subset hi i.started
  undone x hx := (Finset.mem_insert.mp hx).elim (· ▸ hd) (i.undone x)
  closed := i.closed
  mem := i.mem
  nodup := i.nodup
  order := i.order

-- All that `processMod` does once the relevant dependencies of `idx` are done.
theorem finish {start : Finset Nat} {reachable : Finset Nat} {done : Finset Nat}
    (i : SortInv g relevant first s) (hs : s.ctorstart = insert idx start) (hi : idx ∈ relevant)
    (hf : idx ∉ first) (hn : idx ∉ start) (hd : done ⊆ s.ctordone)
    (f : Found g relevant start done idx reachable)
    (hr : ∀ x ∈ reachable, x ≠ idx → x ∈ relevant → x ∈ s.ctordone) :
    SortInv g relevant first {
      ctorstart := s.ctorstart.erase idx
      ctordone  := insert idx s.ctordone ∪ reachable
      ctors     := s.ctors ++ [idx]
    } := by
  have hu : idx ∉ s.ctordone := i.undone idx (by simp [hs])
  have hc : idx ∉ s.ctors := by simp [i.mem, hf, hu]
  -- a reached module is relevant only if it is `idx` or done already
  have hrel {x : Nat} (hx : x ∈ relevant) (hm : x ∈ insert idx s.ctordone ∪ reachable) :
      x = idx ∨ x ∈ s.ctordone := by
    simp only [Finset.mem_union, Finset.mem_insert] at hm
    rcases hm with (hm | hm) | hm
    · exact .inl hm
    · exact .inr hm
    · by_cases he : x = idx
      case pos => exact .inl he
      case neg => exact .inr (hr x hm he hx)
  have hcl : ∀ x ∈ insert idx s.ctordone ∪ reachable, ∀ y, g.Edge x y →
      y ∈ insert idx s.ctordone ∪ reachable := by
    have hreach {x y : Nat} (hm : x ∈ reachable) (e : g.Edge x y) :
        y ∈ insert idx s.ctordone ∪ reachable := by
      by_cases hx : Expands relevant done idx x
      case pos => exact Finset.mem_union_right _ (f.closed x hm hx y e)
      case neg =>
        have hxd : x ∈ s.ctordone := by
          simp only [Expands, not_or, not_and, not_not] at hx
          by_cases hxr : x ∈ relevant
          case pos => exact hr x hm hx.1 hxr
          case neg => exact hd (hx.2 hxr)
        exact Finset.mem_union_left _ (Finset.mem_insert_of_mem (i.closed x hxd y e))
    intro x hx y e
    simp only [Finset.mem_union, Finset.mem_insert] at hx
    rcases hx with (rfl | hx) | hx
    · exact hreach f.source e
    · exact Finset.mem_union_left _ (Finset.mem_insert_of_mem (i.closed x hx y e))
    · exact hreach hx e
  constructor
  case started => exact (Finset.erase_subset ..).trans i.started
  case undone =>
    intro x hx hm
    have ⟨hne, hx⟩ := Finset.mem_erase.mp hx
    exact i.undone x hx ((hrel (i.started hx) hm).resolve_left hne)
  case closed => exact hcl
  case mem =>
    intro x
    simp only [List.mem_append, List.mem_singleton, i.mem, or_assoc]
    refine or_congr_right ⟨?_, fun ⟨hx, hm⟩ => ?_⟩
    · rintro (⟨hx, hm⟩ | rfl)
      · exact ⟨hx, by simp [hm]⟩
      · exact ⟨hi, by simp⟩
    · exact (hrel hx hm).elim .inr fun hm => .inl ⟨hx, hm⟩
  case nodup =>
    refine List.nodup_append.mpr ⟨i.nodup, List.nodup_singleton _, ?_⟩
    rintro x hx y hy rfl
    exact hc (List.mem_singleton.mp hy ▸ hx)
  case order =>
    intro a ha har b hb hab hne
    cases hrel har ha with
    | inr ha => exact (i.order a ha har b hb hab hne).append _
    | inl ha =>
      subst ha
      -- the set of done modules is closed, so `b` was done before
      have hbd : b ∈ insert a s.ctordone ∪ reachable := by
        clear hne hb
        induction hab
        case refl => exact ha
        case tail e hi => exact hcl _ hi _ e
      have hb' := (hrel hb hbd).resolve_left hne
      exact Before.of_mem ((i.mem b).mpr (.inr ⟨hb, hb'⟩))

end SortInv

-- What happens to the bit arrays between two calls of `processMod`.
structure SortState.Le (s s' : SortState) : Prop where
  ctorstart : s'.ctorstart = s.ctorstart
  ctordone  : s.ctordone ⊆ s'.ctordone

namespace SortState.Le

theorem refl (s : SortState) : s.Le s :=
  ⟨rfl, le_rfl⟩

theorem trans {s₁ s₂ s₃ : SortState} (h₁ : s₁.Le s₂) (h₂ : s₂.Le s₃) : s₁.Le s₃ :=
  ⟨h₂.ctorstart.trans h₁.ctorstart, h₁.ctordone.trans h₂.ctordone⟩

end SortState.Le

-- The only error of a sorting that aborts on cycles: two relevant modules that reach each other.
def CycleError (g : ModuleGroup) (relevant : Finset Nat) : SortError → Prop
  | .cycle a b => a ∈ relevant ∧ b ∈ relevant ∧ a ≠ b ∧ ReflTransGen g.Edge a b ∧
    ReflTransGen g.Edge b a
  | _ => False

theorem mem_bitRange {bits : Finset Nat} {i : Nat} : i ∈ g.bitRange bits ↔ i < g.len ∧ i ∈ bits := by
  simp [bitRange]

theorem processMod_spec {fuel : Nat} (i : SortInv g relevant first s) (hi : idx ∈ relevant)
    (hl : ∀ x ∈ relevant, x < g.len) (hf : ∀ x ∈ relevant, x ∉ first)
    (hs : idx ∉ s.ctorstart) (hd : idx ∉ s.ctordone)
    (hp : ∀ x ∈ s.ctorstart, ReflTransGen g.Edge x idx)
    (hc : (relevant \ s.ctorstart).card ≤ fuel) :
    (g.processMod .abort relevant fuel idx s).Post
      (fun s' => SortInv g relevant first s' ∧ s.Le s' ∧ idx ∈ s'.ctordone)
      (CycleError g relevant) := by
  induction fuel generalizing idx s
  case zero =>
    have : idx ∈ relevant \ s.ctorstart := Finset.mem_sdiff.mpr ⟨hi, hs⟩
    have := Finset.card_pos.mpr ⟨_, this⟩
    omega
  case succ fuel ih =>
    rw [processMod]
    have fd : (g.findDeps .abort relevant s.ctorstart s.ctordone idx).Post
        (Found g relevant s.ctorstart s.ctordone idx) (CycleError g relevant) := by
      refine (findDeps_spec hi (hl _ hi) hs).mono (fun _ => id) fun e he => ?_
      cases e with
      | cycle a b =>
        obtain ⟨rfl, hb, hbs, hab⟩ := he
        exact ⟨hi, hb, fun h => hs (h ▸ hbs), hab, hp b hbs⟩
      | _ => exact he
    refine fd.bind fun reachable f => ?_
    refine (Except.Post.foldlM (SortInv g relevant first) SortState.Le
      (fun i s => i ≠ idx → i ∈ relevant → i ∈ s.ctordone) .refl .trans
      (fun h hd h₁ h₂ => h.ctordone (hd h₁ h₂)) ?step (i.start hi hd)).bind ?done
    case done =>
      intro s₁ ⟨i₁, hle, hall⟩
      rw [Except.Post.pure_iff]
      have hfin := i₁.finish hle.ctorstart hi (hf _ hi) hs hle.ctordone f fun x hx hne hrel =>
        hall x ((mem_bitRange).mpr ⟨hl x hrel, hx⟩) hne hrel
      refine ⟨hfin, ⟨?_, fun x hx => ?_⟩, ?_⟩
      · simp [hle.ctorstart, hs]
      · exact Finset.mem_union_left _ (Finset.mem_insert_of_mem (hle.ctordone hx))
      · simp
    case step =>
      intro j hj s₁ hle i₁
      have hjr := ((mem_bitRange).mp hj).2
      split
      case isFalse hn =>
        refine ⟨i₁, .refl _, fun hne hrel => ?_⟩
        simp only [not_and, not_not] at hn
        by_contra hnd
        -- a reached module that was started makes the search fail
        have := hn hne hrel hnd
        rw [hle.ctorstart] at this
        exact f.fresh j hjr hrel ((Finset.mem_insert.mp this).resolve_left hne)
      case isTrue hn =>
        obtain ⟨_, hrel, hnd, hns⟩ := hn
        refine (ih i₁ hrel hns hnd ?_ ?_).mono (fun _ ⟨h₁, h₂, h₃⟩ => ⟨h₁, h₂, fun _ _ => h₃⟩)
          fun _ => id
        · intro x hx
          have hij := ReflTransGen.mono (fun _ _ => DepStep.edge) _ _ (f.sound j hjr)
          rw [hle.ctorstart] at hx
          cases Finset.mem_insert.mp hx with
          | inl he => exact he ▸ hij
          | inr hx => exact (hp x hx).trans hij
        · have hlt : (relevant \ insert idx s.ctorstart).card < (relevant \ s.ctorstart).card := by
            rw [Finset.sdiff_insert]
            exact Finset.card_erase_lt_of_mem (Finset.mem_sdiff.mpr ⟨hi, hs⟩)
          rw [hle.ctorstart]
          exact Nat.le_of_lt_succ (lt_of_lt_of_le hlt hc)

-- Two different relevant modules import each other, through any modules.
def Cyclic (g : ModuleGroup) (relevantFlags : UInt32) : Prop :=
  ∃ a ∈ g.relevant relevantFlags, ∃ b ∈ g.relevant relevantFlags,
    a ≠ b ∧ TransGen g.Imports a b ∧ TransGen g.Imports b a

-- A list of module constructors in an order in which they can run.
structure Sorted (g : ModuleGroup) (relevantFlags : UInt32) (ctors : List Nat) : Prop where
  nodup : ctors.Nodup
  mem   : ∀ i, i ∈ ctors ↔ i < g.len ∧ g.hasFlags relevantFlags i
  order : ∀ a ∈ g.relevant relevantFlags, ∀ b ∈ g.relevant relevantFlags,
    a ≠ b → TransGen g.Imports a b → Before ctors b a

theorem Sorted.not_cyclic {flags : UInt32} {ctors : List Nat} (h : g.Sorted flags ctors) :
    ¬g.Cyclic flags := by
  intro ⟨a, ha, b, hb, hne, hab, hba⟩
  exact (h.order a ha b hb hne hab).asymm h.nodup (h.order b hb a ha hne.symm hba)

theorem doSort_spec (g : ModuleGroup) (flags : UInt32) :
    (g.doSort .abort flags).Post (g.Sorted flags) (CycleError g (g.relevant flags)) := by
  let first := (List.range g.len).filter fun idx => g.hasFlags flags idx && g.standalone idx
  have hl : ∀ x ∈ g.relevant flags, x < g.len := by simp [relevant]; tauto
  have hf : ∀ x ∈ g.relevant flags, x ∉ first := by simp [relevant, first]; tauto
  have hinit : SortInv g (g.relevant flags) first ⟨∅, ∅, first⟩ := by
    constructor <;> simp
    exact List.nodup_range.filter _
  rw [doSort]
  apply (Except.Post.foldlM (fun s => SortInv g (g.relevant flags) first s ∧ s.ctorstart = ∅)
    SortState.Le (fun i s => i ∈ s.ctordone) .refl .trans (fun h hd => h.ctordone hd)
    ?step ⟨hinit, rfl⟩).bind ?done
  case step =>
    intro i hi s _ ⟨hs, he⟩
    split
    case isFalse hd => exact ⟨⟨hs, he⟩, .refl _, not_not.mp hd⟩
    case isTrue hd =>
      have hr := ((mem_bitRange).mp hi).2
      have hc : (g.relevant flags \ s.ctorstart).card ≤ g.len := by
        have hsub : g.relevant flags ⊆ Finset.range g.len := fun x hx => by simpa using hl x hx
        simpa [he] using Finset.card_le_card hsub
      apply (processMod_spec hs hr hl hf (by simp [he]) hd (by simp [he]) hc).mono _ fun _ => id
      intro s' ⟨h₁, h₂, h₃⟩
      exact ⟨⟨h₁, h₂.ctorstart.trans he⟩, h₂, h₃⟩
  case done =>
    intro s ⟨⟨hs, _⟩, _, hd⟩
    replace hd : ∀ i ∈ g.relevant flags, i ∈ s.ctordone :=
      fun i hi => hd i ((mem_bitRange).mpr ⟨hl i hi, hi⟩)
    constructor
    case nodup => exact hs.nodup
    case mem =>
      intro i
      rw [hs.mem]
      simp only [first, relevant, List.mem_filter, List.mem_range, Finset.mem_filter,
        Finset.mem_range, Bool.and_eq_true]
      constructor
      case mp => rintro (⟨h, hf, _⟩ | ⟨⟨h, hf, _⟩, _⟩) <;> exact ⟨h, hf⟩
      case mpr =>
        intro ⟨h, hf⟩
        by_cases hst : g.standalone i
        case pos => exact .inl ⟨h, hf, hst⟩
        case neg => exact .inr ⟨⟨h, hf, hst⟩, hd i (by simp [relevant, h, hf, hst])⟩
    case order =>
      intro a ha b hb hne t
      exact hs.order a (hd a ha) ha b hb ((transGen_imports_iff hne).mp t) hne.symm

theorem doSort_cases (g : ModuleGroup) (flags : UInt32) :
    (∃ ctors, g.doSort .abort flags = .ok ctors ∧ g.Sorted flags ctors) ∨
    (∃ a b, g.doSort .abort flags = .error (.cycle a b) ∧ g.Cyclic flags) := by
  have h := doSort_spec g flags
  cases hd : g.doSort .abort flags with
  | ok ctors => exact .inl ⟨ctors, rfl, h.of_ok hd⟩
  | error e =>
    have h := h.of_error hd
    cases e with
    | cycle a b =>
      have ⟨ha, hb, hne, hab, hba⟩ := h
      refine .inr ⟨a, b, rfl, a, ha, b, hb, hne, ?_, ?_⟩
      · exact (transGen_imports_iff hne).mpr hab
      · exact (transGen_imports_iff hne.symm).mpr hba
    | _ => exact h.elim

-- One sorting pass raises the cycle error exactly on the cyclic groups, and otherwise returns an
-- order in which every dependency comes first.
theorem doSort_error_iff (g : ModuleGroup) (flags : UInt32) :
    (∃ a b, g.doSort .abort flags = .error (.cycle a b)) ↔ g.Cyclic flags := by
  rcases doSort_cases g flags with ⟨ctors, h, hs⟩ | ⟨a, b, h, hc⟩
  · simp [h, hs.not_cyclic]
  · simp [h, hc]

inductive Pass
  | shared
  | tls

def Pass.relevantFlags : Pass → UInt32
  | shared => MIctor ||| MIdtor
  | tls    => MItlsctor ||| MItlsdtor

def Pass.ctors : Pass → List Nat × List Nat → List Nat
  | shared => Prod.fst
  | tls    => Prod.snd

theorem sortCtors_eq {cycleHandling : String} (h : onCycleOf cycleHandling = some .abort) :
    g.sortCtors cycleHandling = (g.doSort .abort Pass.shared.relevantFlags).bind fun ctors =>
      (g.doSort .abort Pass.tls.relevantFlags).bind fun tlsctors => .ok (ctors, tlsctors) := by
  rw [sortCtors, h]
  rfl

theorem sortCtors_cases (g : ModuleGroup) {cycleHandling : String} (h : onCycleOf cycleHandling = some .abort) :
    (∃ r, g.sortCtors cycleHandling = .ok r ∧
      ∀ pass : Pass, g.Sorted pass.relevantFlags (pass.ctors r)) ∨
    (∃ a b, g.sortCtors cycleHandling = .error (.cycle a b) ∧
      ∃ pass : Pass, g.Cyclic pass.relevantFlags) := by
  rw [sortCtors_eq h]
  rcases doSort_cases g Pass.shared.relevantFlags with ⟨c, h₁, hc⟩ | ⟨a, b, h₁, hc⟩
  case inr => exact .inr ⟨a, b, by simp [h₁, Except.bind], .shared, hc⟩
  case inl =>
    rcases doSort_cases g Pass.tls.relevantFlags with ⟨t, h₂, ht⟩ | ⟨a, b, h₂, ht⟩
    case inr => exact .inr ⟨a, b, by simp [h₁, h₂, Except.bind], .tls, ht⟩
    case inl =>
      refine .inl ⟨(c, t), by simp [h₁, h₂, Except.bind], fun pass => ?_⟩
      cases pass
      case shared => exact hc
      case tls => exact ht

-- In the default mode the sorting fails with the cycle error exactly if one of the passes has two
-- relevant modules that depend on each other, and otherwise both passes yield an order in which
-- every dependency comes first.
theorem sortCtors_decides_module_order (g : ModuleGroup) (cycleHandling : String)
    (h : onCycleOf cycleHandling = some .abort) :
    ((∃ a b, g.sortCtors cycleHandling = .error (.cycle a b)) ↔
      ∃ pass : Pass, g.Cyclic pass.relevantFlags) ∧
    ((¬∃ a b, g.sortCtors cycleHandling = .error (.cycle a b)) →
      ∃ r, g.sortCtors cycleHandling = .ok r ∧
        ∀ pass : Pass, g.Sorted pass.relevantFlags (pass.ctors r)) ∧
    ∀ pass : Pass,
      ((∃ a b, g.doSort .abort pass.relevantFlags = .error (.cycle a b)) ↔
        g.Cyclic pass.relevantFlags) ∧
      ((¬∃ a b, g.doSort .abort pass.relevantFlags = .error (.cycle a b)) →
        ∃ ctors, g.doSort .abort pass.relevantFlags = .ok ctors ∧
          g.Sorted pass.relevantFlags ctors) := by
  refine ⟨?_, fun hn => ?_, fun pass => ⟨doSort_error_iff g _, fun hn => ?_⟩⟩
  · rcases sortCtors_cases g h with ⟨r, he, hs⟩ | ⟨a, b, he, hc⟩
    · simp [he, fun pass => (hs pass).not_cyclic]
    · simp [he, hc]
  · have ⟨r, he, hs⟩ := (sortCtors_cases g h).resolve_right fun ⟨a, b, he, _⟩ => hn ⟨a, b, he⟩
    exact ⟨r, he, hs⟩
  · have ⟨c, he, hs⟩ := (doSort_cases g _).resolve_right fun ⟨a, b, he, _⟩ => hn ⟨a, b, he⟩
    exact ⟨c, he, hs⟩

-- A module with a constructor that imports one with both kinds.
def importChain : ModuleGroup where
  modules := [⟨100, MIctor, [100, 200, 200]⟩, ⟨200, MIctor ||| MItlsdtor, [300]⟩]
  nodup := by decide

theorem sortCtors_decides_importChain :
    (∃ a b, importChain.sortCtors "" = .error (.cycle a b)) ↔
      ∃ pass : Pass, importChain.Cyclic pass.relevantFlags :=
  (sortCtors_decides_module_order importChain "" rfl).1

end Runtime.Minfo.ModuleGroup
