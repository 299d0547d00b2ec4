import DmdModel.Runtime.Minfo.Basic
import DmdModel.Lib.ExceptPost

open Relation

namespace Runtime.Minfo.ModuleGroup

variable {g : ModuleGroup} {relevant ctorstart ctordone : Finset Nat} {idx : Nat}

-- Module `a` imports module `b`, both given by their index in the group.
def Imports (g : ModuleGroup) (a b : Nat) : Prop :=
  ∃ m n, g.modules[a]? = some m ∧ g.modules[b]? = some n ∧ n.ptr ∈ m.importedModules

def Edge (g : ModuleGroup) (a b : Nat) : Prop :=
  b ∈ g.edges a

theorem modIndexes_eq_some_iff {ptr i : Nat} :
    g.modIndexes ptr = some i ↔ ∃ m, g.modules[i]? = some m ∧ m.ptr = ptr := by
  simp only [modIndexes, List.findIdx?_eq_some_iff_getElem, beq_iff_eq]
  constructor
  case mp =>
    intro ⟨h, hp, _⟩
    exact ⟨_, List.getElem?_eq_getElem h, hp⟩
  case mpr =>
    intro ⟨m, hm, hp⟩
    obtain ⟨h, rfl⟩ := List.getElem?_eq_some_iff.mp hm
    refine ⟨h, hp, fun j hj he => ?_⟩
    -- two positions with one pointer are the same position
    have hn := List.nodup_iff_injective_get.mp g.nodup
    have := @hn ⟨j, by simp; omega⟩ ⟨i, by simpa using h⟩ (by simp [he, hp])
    simp only [Fin.mk.injEq] at this
    omega

theorem mem_foldl_addEdge {m : ModuleInfo} {is : List Nat} {acc : Finset Nat × List Nat} {i : Nat}
    (ha : ∀ j, j ∈ acc.1 ↔ j ∈ acc.2) :
    i ∈ (is.foldl (g.addEdge m) acc).2 ↔
      i ∈ acc.2 ∨ ∃ imp ∈ is, imp ≠ m.ptr ∧ g.modIndexes imp = some i := by
  induction is generalizing acc
  case nil => simp
  case cons imp is hi =>
    have ha' (j : Nat) : j ∈ (g.addEdge m acc imp).1 ↔ j ∈ (g.addEdge m acc imp).2 := by
      simp only [addEdge]
      split
      · exact ha j
      · split
        · exact ha j
        · split
          · exact ha j
          · simp [ha j, or_comm]
    rw [List.foldl_cons, hi ha']
    simp only [addEdge, List.mem_cons, exists_eq_or_imp, ← or_assoc]
    refine or_congr_left ?_
    split
    · simp [*]
    · split
      · simp [*]
      · rename_i impidx hf
        split
        · rename_i hm
          simp only [hf, Option.some.injEq]
          exact ⟨.inl, fun h => h.elim id fun h => h.2 ▸ (ha _).mp hm⟩
        · simp [*, eq_comm]

theorem edge_iff {a b : Nat} : g.Edge a b ↔ g.Imports a b ∧ a ≠ b := by
  simp only [Edge, edges, Imports]
  cases ha : g.modules[a]? with
  | none => simp
  | some m =>
    have hfold (i : Nat) := @mem_foldl_addEdge g m m.importedModules (∅, []) i (by simp)
    simp only [hfold, List.not_mem_nil, false_or, Option.some.injEq, modIndexes_eq_some_iff]
    constructor
    case mp =>
      rintro ⟨_, hm, hne, n, hb, rfl⟩
      refine ⟨⟨m, n, rfl, hb, hm⟩, ?_⟩
      rintro rfl
      exact hne <| by rw [Option.some.inj (hb.symm.trans ha)]
    case mpr =>
      rintro ⟨⟨_, n, rfl, hb, hm⟩, hne⟩
      refine ⟨n.ptr, hm, fun he => hne ?_, n, hb, rfl⟩
      have h₁ := (modIndexes_eq_some_iff).mpr ⟨m, ha, rfl⟩
      have h₂ := (modIndexes_eq_some_iff).mpr ⟨n, hb, he⟩
      exact Option.some.inj (h₁.symm.trans h₂)

-- Importing transitively is following edges, except for the modules that import themselves.
theorem transGen_imports_iff {a b : Nat} (h : a ≠ b) :
    TransGen g.Imports a b ↔ ReflTransGen g.Edge a b := by
  constructor
  case mp =>
    intro t
    clear h
    induction t with
    | @single b s =>
      by_cases he : a = b
      case pos => exact he ▸ .refl
      case neg => exact .single ((edge_iff).mpr ⟨s, he⟩)
    | @tail b c _ s hi =>
      by_cases he : b = c
      case pos => exact he ▸ hi
      case neg => exact hi.tail ((edge_iff).mpr ⟨s, he⟩)
  case mpr =>
    intro r
    have r := ReflTransGen.mono (fun _ _ e => ((edge_iff).mp e).1) _ _ r
    exact (reflTransGen_iff_eq_or_transGen.mp r).resolve_left h.symm

-- The search goes past the source module and past the modules that are neither relevant nor done.
def Expands (relevant ctordone : Finset Nat) (idx x : Nat) : Prop :=
  x = idx ∨ (x ∉ relevant ∧ x ∉ ctordone)

def DepStep (g : ModuleGroup) (relevant ctordone : Finset Nat) (idx x y : Nat) : Prop :=
  Expands relevant ctordone idx x ∧ g.Edge x y

theorem DepStep.edge {x y : Nat} (s : g.DepStep relevant ctordone idx x y) : g.Edge x y :=
  s.2

-- What `findDeps` finds when no cycle is detected.
structure Found (g : ModuleGroup) (relevant ctorstart ctordone : Finset Nat) (idx : Nat)
    (reachable : Finset Nat) : Prop where
  source : idx ∈ reachable
  sound  : ∀ x ∈ reachable, ReflTransGen (g.DepStep relevant ctordone idx) idx x
  closed : ∀ x ∈ reachable, Expands relevant ctordone idx x → ∀ y, g.Edge x y → y ∈ reachable
  fresh  : ∀ x ∈ reachable, x ∈ relevant → x ∉ ctorstart

-- The invariant of the search loop: a frame below the top waits for a dependency that has been
-- reached, and a reached module that is expanded misses none of its edges but those still to be
-- looked at by its own frame.
structure SearchInv (g : ModuleGroup) (relevant ctorstart ctordone : Finset Nat) (idx : Nat)
    (stack : List StackFrame) (reachable : Finset Nat) : Prop where
  source : idx ∈ reachable
  sound  : ∀ x ∈ reachable, ReflTransGen (g.DepStep relevant ctordone idx) idx x
  fresh  : ∀ x ∈ reachable, x ∈ relevant → x ∉ ctorstart
  frames : ∀ f ∈ stack, f.curMod ∈ reachable ∧ Expands relevant ctordone idx f.curMod ∧
    f.curMod < g.len
  nodup  : (stack.map (·.curMod)).Nodup
  busy   : ∀ f ∈ stack.tail, ∀ y, (g.edges f.curMod)[f.curDep]? = some y → y ∈ reachable
  closed : ∀ x ∈ reachable, Expands relevant ctordone idx x → ∀ (k y : Nat),
    (g.edges x)[k]? = some y → y ∈ reachable ∨ ∃ f ∈ stack, f.curMod = x ∧ f.curDep ≤ k

namespace SearchInv

variable {stack : List StackFrame} {sp : StackFrame} {reachable : Finset Nat}

theorem found (i : SearchInv g relevant ctorstart ctordone idx [] reachable) :
    Found g relevant ctorstart ctordone idx reachable where
  source := i.source
  sound := i.sound
  fresh := i.fresh
  closed x hx he y hy := by
    obtain ⟨k, hk⟩ := List.getElem?_of_mem hy
    simpa using i.closed x hx he k y hk

-- The top frame moves on after the dependency it points to has been reached.
theorem next (i : SearchInv g relevant ctorstart ctordone idx (sp :: stack) reachable)
    (h : ∀ y, (g.edges sp.curMod)[sp.curDep]? = some y → y ∈ reachable) :
    SearchInv g relevant ctorstart ctordone idx (nextDep (sp :: stack)) reachable where
  source := i.source
  sound := i.sound
  fresh := i.fresh
  frames f hf := by
    simp only [nextDep, List.mem_cons] at hf
    cases hf with
    | inl he => exact he ▸ i.frames sp (by simp)
    | inr hf => exact i.frames f (by simp [hf])
  nodup := by simpa [nextDep] using i.nodup
  busy := i.busy
  closed x hx he k y hk := by
    cases i.closed x hx he k y hk with
    | inl hy => exact .inl hy
    | inr hf =>
      obtain ⟨f, hf, rfl, hle⟩ := hf
      cases List.mem_cons.mp hf with
      | inr hf => exact .inr ⟨f, by simp [nextDep, hf], rfl, hle⟩
      | inl he =>
        subst he
        by_cases hd : f.curDep = k
        case pos => exact .inl (h y (hd ▸ hk))
        case neg => exact .inr ⟨_, List.mem_cons_self, rfl, by simp; omega⟩

theorem insert_midx {midx : Nat}
    (i : SearchInv g relevant ctorstart ctordone idx (sp :: stack) reachable)
    (he : g.Edge sp.curMod midx) (hs : midx ∈ relevant → midx ∉ ctorstart)
    (hx : ¬Expands relevant ctordone idx midx) :
    SearchInv g relevant ctorstart ctordone idx (sp :: stack) (insert midx reachable) where
  source := Finset.mem_insert_of_mem i.source
  sound x hx := by
    cases Finset.mem_insert.mp hx with
    | inr hx => exact i.sound x hx
    | inl hx =>
      have ⟨hr, hf, _⟩ := i.frames sp (by simp)
      exact hx ▸ (i.sound _ hr).tail ⟨hf, he⟩
  fresh x hx hm := by
    cases Finset.mem_insert.mp hx with
    | inr hx => exact i.fresh x hx hm
    | inl hx => exact hx ▸ hs (hx ▸ hm)
  frames f hf := by
    have ⟨h₁, h₂⟩ := i.frames f hf
    exact ⟨Finset.mem_insert_of_mem h₁, h₂⟩
  nodup := i.nodup
  busy f hf y hy := Finset.mem_insert_of_mem (i.busy f hf y hy)
  closed x hm hn k y hk := by
    cases Finset.mem_insert.mp hm with
    | inl he => exact absurd (he ▸ hn) hx
    | inr hm => exact (i.closed x hm hn k y hk).imp_left Finset.mem_insert_of_mem

theorem push {midx : Nat} (i : SearchInv g relevant ctorstart ctordone idx (sp :: stack) reachable)
    (hd : (g.edges sp.curMod)[sp.curDep]? = some midx) (hr : midx ∉ reachable)
    (hm : midx ∉ relevant) (hc : midx ∉ ctordone) :
    SearchInv g relevant ctorstart ctordone idx (⟨midx, 0⟩ :: sp :: stack)
      (insert midx reachable) where
  source := Finset.mem_insert_of_mem i.source
  sound x hx := by
    cases Finset.mem_insert.mp hx with
    | inr hx => exact i.sound x hx
    | inl hx =>
      have ⟨hr, hf, _⟩ := i.frames sp (by simp)
      exact hx ▸ (i.sound _ hr).tail ⟨hf, List.mem_of_getElem? hd⟩
  fresh x hx hrel := by
    cases Finset.mem_insert.mp hx with
    | inr hx => exact i.fresh x hx hrel
    | inl hx => exact absurd (hx ▸ hrel) hm
  frames f hf := by
    cases List.mem_cons.mp hf with
    | inl he => exact he ▸ ⟨by simp, .inr ⟨hm, hc⟩, g.edges_lt_len (List.mem_of_getElem? hd)⟩
    | inr hf =>
      have ⟨h₁, h₂⟩ := i.frames f hf
      exact ⟨Finset.mem_insert_of_mem h₁, h₂⟩
  nodup := by
    rw [List.map_cons, List.nodup_cons]
    refine ⟨fun hmem => hr ?_, i.nodup⟩
    obtain ⟨f, hf, rfl⟩ := List.mem_map.mp hmem
    exact (i.frames f hf).1
  busy f hf y hy := by
    rw [List.tail_cons] at hf
    cases List.mem_cons.mp hf with
    | inl he =>
      have : y = midx := Option.some.inj ((he ▸ hy).symm.trans hd)
      simp [this]
    | inr hf => exact Finset.mem_insert_of_mem (i.busy f hf y hy)
  closed x hx hn k y hk := by
    cases Finset.mem_insert.mp hx with
    | inl he => exact .inr ⟨_, List.mem_cons_self, he.symm, by simp⟩
    | inr hx =>
      cases i.closed x hx hn k y hk with
      | inl hy => exact .inl (Finset.mem_insert_of_mem hy)
      | inr hf =>
        obtain ⟨f, hf, h⟩ := hf
        exact .inr ⟨f, List.mem_cons_of_mem _ hf, h⟩

theorem pop (i : SearchInv g relevant ctorstart ctordone idx (sp :: stack) reachable)
    (hd : ¬sp.curDep < (g.edges sp.curMod).length) :
    SearchInv g relevant ctorstart ctordone idx stack reachable where
  source := i.source
  sound := i.sound
  fresh := i.fresh
  frames f hf := i.frames f (List.mem_cons_of_mem _ hf)
  nodup := (List.nodup_cons.mp i.nodup).2
  busy f hf := i.busy f (List.mem_of_mem_tail hf)
  closed x hx hn k y hk := by
    cases i.closed x hx hn k y hk with
    | inl hy => exact .inl hy
    | inr hf =>
      obtain ⟨f, hf, rfl, hle⟩ := hf
      cases List.mem_cons.mp hf with
      | inr hf => exact .inr ⟨f, hf, rfl, hle⟩
      | inl he =>
        subst he
        have := (List.getElem?_eq_some_iff.mp hk).1
        omega

theorem length_lt (i : SearchInv g relevant ctorstart ctordone idx (sp :: stack) reachable)
    {midx : Nat} (hl : midx < g.len) (hr : midx ∉ reachable) : (sp :: stack).length < g.len := by
  have hs : (midx :: (sp :: stack).map (·.curMod)).Nodup := by
    refine List.nodup_cons.mpr ⟨fun hm => hr ?_, i.nodup⟩
    obtain ⟨f, hf, rfl⟩ := List.mem_map.mp hm
    exact (i.frames f hf).1
  have hsub : midx :: (sp :: stack).map (·.curMod) ⊆ List.range g.len := by
    intro x hx
    rw [List.mem_range]
    cases List.mem_cons.mp hx with
    | inl he => exact he ▸ hl
    | inr hx =>
      obtain ⟨f, hf, he⟩ := List.mem_map.mp hx
      exact he ▸ (i.frames f hf).2.2
  have hle := (hs.subperm hsub).length_le
  rw [List.length_cons, List.length_map, List.length_range] at hle
  exact hle

end SearchInv

-- The error of a search that aborts on cycles: the source module reaches a started module.
def FindDepsError (g : ModuleGroup) (relevant ctorstart : Finset Nat) (idx : Nat) :
    SortError → Prop
  | .cycle a b => a = idx ∧ b ∈ relevant ∧ b ∈ ctorstart ∧ ReflTransGen g.Edge idx b
  | _ => False

theorem findDepsLoop_spec {stack : List StackFrame} {reachable : Finset Nat}
    (i : SearchInv g relevant ctorstart ctordone idx stack reachable) (hi : idx ∈ relevant) :
    (g.findDepsLoop .abort relevant ctorstart ctordone idx stack reachable).Post
      (Found g relevant ctorstart ctordone idx) (FindDepsError g relevant ctorstart idx) := by
  induction stack, reachable using findDepsLoop.induct g .abort relevant ctorstart ctordone with
  | case1 => simpa [findDepsLoop] using i.found
  | case2 sp stack reachable hd midx hr ih =>
    rw [findDepsLoop, dif_pos hd, dif_pos hr]
    refine ih (i.next fun y hy => ?_)
    rw [List.getElem?_eq_getElem hd] at hy
    exact Option.some.inj hy ▸ hr
  | case3 sp stack reachable hd midx hr hm hs =>
    rw [findDepsLoop, dif_pos hd, dif_neg hr, if_pos hm, if_pos hs]
    have ⟨hf, he, _⟩ := i.frames sp (by simp)
    have hp := (i.sound _ hf).tail ⟨he, List.getElem_mem hd⟩
    exact ⟨rfl, hm, hs.1, ReflTransGen.mono (fun _ _ => DepStep.edge) _ _ hp⟩
  | case4 sp stack reachable hd midx hr hm hs ih =>
    rw [findDepsLoop, dif_pos hd, dif_neg hr, if_pos hm, if_neg hs]
    have hx : ¬Expands relevant ctordone idx midx := by
      rintro (he | he)
      · exact hr (he ▸ i.source)
      · exact he.1 hm
    refine ih ((i.insert_midx (List.getElem_mem hd) (fun _ h => hs ⟨h, rfl⟩) hx).next fun y hy => ?_)
    rw [List.getElem?_eq_getElem hd] at hy
    simp [← Option.some.inj hy]
  | case5 sp stack reachable hd midx hr hm hc hl =>
    have := i.length_lt (g.edges_lt_len (List.getElem_mem hd)) hr
    omega
  | case6 sp stack reachable hd midx hr hm hc hl ih =>
    rw [findDepsLoop, dif_pos hd, dif_neg hr, if_neg hm, if_pos hc, if_neg hl]
    exact ih (i.push (List.getElem?_eq_getElem hd) hr hm hc)
  | case7 sp stack reachable hd midx hr hm hc ih =>
    rw [findDepsLoop, dif_pos hd, dif_neg hr, if_neg hm, if_neg hc]
    have hx : ¬Expands relevant ctordone idx midx := by
      rintro (he | he)
      · exact hm (he ▸ hi)
      · exact hc he.2
    refine ih ((i.insert_midx (List.getElem_mem hd) (fun h => absurd h hm) hx).next fun y hy => ?_)
    rw [List.getElem?_eq_getElem hd] at hy
    simp [← Option.some.inj hy]
  | case8 sp stack reachable hd ih =>
    rw [findDepsLoop, dif_neg hd]
    -- the frame below the popped one waits for a dependency that has been reached
    cases stack with
    | nil => exact ih (i.pop hd)
    | cons f fs => exact ih ((i.pop hd).next (i.busy f (by simp)))

theorem findDeps_spec (hi : idx ∈ relevant) (hl : idx < g.len) (hs : idx ∉ ctorstart) :
    (g.findDeps .abort relevant ctorstart ctordone idx).Post
      (Found g relevant ctorstart ctordone idx) (FindDepsError g relevant ctorstart idx) := by
  refine findDepsLoop_spec ?_ hi
  constructor
  case source => simp
  case sound => simpa using ReflTransGen.refl
  case fresh => simpa using fun _ => hs
  case frames => simpa using ⟨.inl rfl, hl⟩
  case nodup => simp
  case busy => simp
  case closed =>
    intro x hx _ k y _
    exact .inr ⟨_, List.mem_singleton_self _, (Finset.mem_singleton.mp hx).symm, by simp⟩

end Runtime.Minfo.ModuleGroup
