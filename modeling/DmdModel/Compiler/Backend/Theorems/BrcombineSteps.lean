import DmdModel.Compiler.Backend.Theorems.Brcombine
import DmdModel.Compiler.Backend.Theorems.BroptSteps

namespace Compiler.Backend.BlockOpt

open Lockstep

variable {n : Nat} {σ V E : Type} {I : Interp n σ V E} {bo bo' : BlockOpt n}
variable {b b2 b3 c s bsucc x : Nat} {u : σ} {e e2 e3 : Elem n}

section follow

-- After what a goto block evaluates, control goes to x.
def follow (x : Nat) : Result σ Unit E → List E × ((Nat × σ) ⊕ Outcome V)
  | (t, some (s, _)) => (t, .inl (x, s))
  | (t, none) => (t, .inr .exited)

theorem step_eq_follow (hbc : (bo.block b).bc = .goto_) (hs : (bo.block b).Bsucc[0]? = some x) :
    I.step bo (b, u) = follow x (I.evalBlock (bo.block b).Belem u).discard := by
  obtain ⟨t, ht⟩ | ⟨t, u', w, ht⟩ := (I.evalBlock (bo.block b).Belem u).cases
  case inl =>
    rw [Interp.step_eq_none ht, ht]
    rfl
  case inr =>
    rw [step_goto hbc hs ht, ht]
    simp [follow, Result.discard, Result.bind, Result.pure]

theorem follow_bind {r : Result σ V E} {f : σ → V → Result σ Unit E} {t : List E} {u' : σ} {v : V}
    (h : r = (t, some (u', v))) : follow (V := V) x (r.bind f) =
      (t ++ (follow (V := V) x (f u' v)).1, (follow (V := V) x (f u' v)).2) := by
  rw [Result.bind_eq_some h]
  match f u' v with
  | (t', none)           => rfl
  | (t', some (u'', ())) => rfl

theorem follow_target {r : Result σ Unit E} {y : Nat × σ}
    (h : (follow (V := V) x r).2 = .inl y) : y.1 = x := by
  match r with
  | (t, none)         => cases h
  | (t, some (u, ())) => cases h; rfl

-- What a block returns.
def returning : Result σ V E → List E × ((Nat × σ) ⊕ Outcome V)
  | (t, some (_, v)) => (t, .inr (.returned (some v)))
  | (t, none) => (t, .inr .exited)

theorem step_eq_returning (hbc : (bo.block b).bc = .retexp) (he : (bo.block b).Belem = some e) :
    I.step bo (b, u) = returning (I.eval e u) := by
  obtain ⟨t, ht⟩ | ⟨t, u', w, ht⟩ := (I.eval e u).cases
  case inl =>
    rw [step_exited he ht, ht]
    rfl
  case inr =>
    have hnext : I.next (bo.block b) (some w) = .inr (.returned (some w)) := by
      unfold Interp.next
      rw [hbc]
    rw [Interp.step_eq_stop (he ▸ Interp.evalBlock_eq_some ht) hnext, ht]
    rfl

theorem returning_bind {r : Result σ V E} {f : σ → V → Result σ V E} {t : List E} {u' : σ} {v : V}
    (h : r = (t, some (u', v))) :
    returning (r.bind f) = (t ++ (returning (f u' v)).1, (returning (f u' v)).2) := by
  rw [Result.bind_eq_some h]
  match f u' v with
  | (t', none)          => rfl
  | (t', some (u'', w)) => rfl

theorem returning_ne_inl {r : Result σ V E} {y : Nat × σ} : (returning r).2 ≠ .inl y := by
  match r with
  | (t, none)        => exact nofun
  | (t, some (u, v)) => exact nofun

-- The expression that takes the place of b's and its arms'.
theorem combineGotoElem_discard {e2 e3 : Option (Elem n)} :
    (I.evalBlock (some (combineGotoElem e e2 e3)) u).discard =
      (I.eval e u).bind fun u v =>
        if I.truth v then (I.evalBlock e2 u).discard else (I.evalBlock e3 u).discard := by
  rw [Interp.evalBlock_discard]
  cases e2 with
  | some e2 =>
    cases e3 with
    | some e3 =>
      rw [combineGotoElem, I.cond _ _ _ _ _ _ _ _ _ (.inr rfl), Result.discard_bind]
      congr 1
      funext u v
      rw [Interp.evalBlock_discard, Interp.evalBlock_discard]
      split <;> rfl
    | none =>
      rw [combineGotoElem, I.andand, Result.discard_bind]
      congr 1
      funext u v
      rw [Interp.evalBlock_discard]
      split
      case isTrue  => rw [Result.discard_bind_pure]
      case isFalse => rfl
  | none =>
    cases e3 with
    | some e3 =>
      rw [combineGotoElem, I.oror, Result.discard_bind]
      congr 1
      funext u v
      rw [Interp.evalBlock_discard]
      split
      case isTrue  => rfl
      case isFalse => rw [Result.discard_bind_pure]
    | none =>
      rw [combineGotoElem]
      simp only [Interp.evalBlock, ite_self]
      rfl

end follow

section elsewhere

-- Where a block goes on to.
theorem step_targets {t : List E} {y : Nat × σ} (h : I.step bo (c, u) = (t, .inl y)) :
    bo.Targets c y.1 := by
  have hgo {i : Nat} {x : Nat} (hx : Interp.next.goOn (V := V) (bo.block c) i = .inl x) :
      (bo.block c).Bsucc[i]? = some x := by
    unfold Interp.next.goOn at hx
    split at hx
    case h_1 s hs => cases hx; exact hs
    case h_2      => cases hx
  have hnext {v : Option V} {x : Nat} (hx : I.next (bo.block c) v = .inl x) : bo.Targets c x := by
    unfold Interp.next at hx
    unfold Targets
    split at hx
    case h_1 hbc => rw [hbc]; exact hgo hx
    case h_2 _ hbc =>
      rw [hbc]
      split at hx
      case isTrue  => exact .inl (hgo hx)
      case isFalse => exact .inr (hgo hx)
    case h_3 _ hbc => rw [hbc]; exact List.mem_of_getElem? (hgo hx)
    all_goals cases hx
  obtain ⟨r, hr⟩ | ⟨r, u', v, hr⟩ := (I.evalBlock (bo.block c).Belem u).cases
  case inl =>
    rw [Interp.step_eq_none hr] at h
    cases h
  case inr =>
    cases hn : I.next (bo.block c) v
    case inl x =>
      rw [Interp.step_eq_go hr hn] at h
      cases h
      exact hnext hn
    case inr o =>
      rw [Interp.step_eq_stop hr hn] at h
      cases h

-- A block that is left as it is, and does not go on to what is gone.
theorem matches_elsewhere {P : Nat → Prop} (h : (bo'.block c).code = (bo.block c).code)
    (hP : ∀ x, bo.Targets c x → P x) :
    Matches (I.step bo) (I.step bo') (fun c d => c = d ∧ P c.1) (c, u) (c, u) := by
  refine .of_run (i := 0) (j := 0) ?_ fun y hy => ?_
  case refine_1 => rw [run_one, run_one, Interp.step_congr h]
  case refine_2 =>
    rw [run_one] at hy
    exact hP _ (step_targets (Prod.ext rfl hy))

-- Runs that do not begin where something is gone.
theorem runs_of_matches {P : Nat → Prop} (h : ∀ c u, P c →
      Matches (I.step bo) (I.step bo') (fun c d => c = d ∧ P c.1) (c, u) (c, u))
    (hb : P b) : Equivalent (I.step bo) (I.step bo') (b, u) (b, u) := by
  refine equivalent_of_matches (R := fun c d => c = d ∧ P c.1) ?_ ⟨rfl, hb⟩
  rintro ⟨c, u⟩ _ ⟨rfl, hc⟩
  exact h c u hc

theorem sameBehaviour_of_matches {P : Nat → Prop} (hl : bo'.list = bo.list)
    (hs : ∀ b, bo.startblock = some b → P b)
    (h : ∀ c u, P c →
      Matches (I.step bo) (I.step bo') (fun c d => c = d ∧ P c.1) (c, u) (c, u)) :
    I.SameBehaviour bo bo' := by
  intro b hb
  refine ⟨b, ?_, fun u => runs_of_matches h (hs b hb)⟩
  rwa [startblock, hl]

end elsewhere

section arms

variable {t : List E} {u' : σ} {v : V}

-- One step of b, and what its arm does then.
theorem Arms.run_two (ha : Arms b b2 b3 bo) (he : (bo.block b).Belem = some e)
    (hev : I.eval e u = (t, some (u', v))) : run (I.step bo) 2 (b, u) =
      (t ++ (I.step bo (if I.truth v then b2 else b3, u')).1,
        (I.step bo (if I.truth v then b2 else b3, u')).2) := by
  rw [run_step_add (step_iftrue ha.bc he ha.Bsucc hev), run_one]

theorem run_exited (he : (bo.block b).Belem = some e)
    (hev : I.eval e u = (t, none)) {k : Nat} :
    run (I.step bo) (k + 1) (b, u) = (t, .inr .exited) :=
  run_step_ended (step_exited he hev)

-- Where two gotos go on to, that is where the combined block goes on to.
theorem combineGoto_matches (h : Combinable bo) (ha : Arms b b2 b3 bo) (hb : Sole b b3 bo)
    (hbc₂ : (bo.block b2).bc = .goto_) (hbc₃ : (bo.block b3).bc = .goto_)
    (hs₂ : (bo.block b2).Bsucc[0]? = some bsucc) (hs₃ : (bo.block b3).Bsucc[0]? = some bsucc)
    (hc : c ≠ b2 ∧ c ≠ b3) :
    Matches (I.step bo) (I.step (bo.combineGoto b b2 b3 bsucc))
      (fun c d => c = d ∧ c.1 ≠ b2 ∧ c.1 ≠ b3) (c, u) (c, u) := by
  obtain ⟨hne₂, hne₃, hb₂, hb₃⟩ := combineGoto_ne ha hb hbc₂ hbc₃ hs₂ hs₃
  by_cases hcb : c = b
  case neg =>
    refine matches_elsewhere (P := fun c => c ≠ b2 ∧ c ≠ b3)
      (combineGoto_code hcb hc.left hc.right) fun x hx => ⟨?_, ?_⟩
    case refine_1 => rintro rfl; exact hcb (ha.sole c hx)
    case refine_2 => rintro rfl; exact hcb (hb.sole c hx)
  case pos =>
    subst hcb
    obtain ⟨e, he⟩ := h.belem ha.bc
    have hself : ((bo.combineGoto c b2 b3 bsucc).block c).code = _ := combineGoto_self hne₂ hne₃
    have he' : ((bo.combineGoto c b2 b3 bsucc).block c).Belem = _ := (congrArg Block.Belem hself :)
    rw [he, Option.map_some] at he'
    have hnew : I.step (bo.combineGoto c b2 b3 bsucc) (c, u) = follow bsucc _ :=
      step_eq_follow (congrArg Block.bc hself :) (congrArg (·[0]?) (congrArg Block.Bsucc hself :))
    rw [he', combineGotoElem_discard] at hnew
    have hrun : run (I.step bo) 2 (c, u) =
        run (I.step (bo.combineGoto c b2 b3 bsucc)) 1 (c, u) := by
      rw [run_one, hnew]
      obtain ⟨t, ht⟩ | ⟨t, u', v, ht⟩ := (I.eval e u).cases
      case inl =>
        rw [run_exited he ht, Result.bind_eq_none ht]
        rfl
      case inr =>
        rw [ha.run_two he ht, follow_bind ht]
        cases I.truth v with
        | true  => simp only [if_true, step_eq_follow hbc₂ hs₂]
        | false => simp only [Bool.false_eq_true, if_false, step_eq_follow hbc₃ hs₃]
    refine .of_run (i := 1) (j := 0) (P := fun c => c.1 ≠ b2 ∧ c.1 ≠ b3) hrun fun y hy => ?_
    rw [hrun, run_one, hnew] at hy
    rw [follow_target hy]
    exact ⟨hb₂, hb₃⟩

-- The value that one of the arms returns is the value that the combined block returns.
theorem combineRetexp_matches (h : Combinable bo) (ha : Arms b b2 b3 bo) (hb : Sole b b3 bo)
    (hbc₂ : (bo.block b2).bc = .retexp) (hbc₃ : (bo.block b3).bc = .retexp)
    (he₂ : (bo.block b2).Belem = some e2) (he₃ : (bo.block b3).Belem = some e3)
    (hc : c ≠ b2 ∧ c ≠ b3) :
    Matches (I.step bo) (I.step (bo.combineRetexp b b2 b3 e2 e3))
      (fun c d => c = d ∧ c.1 ≠ b2 ∧ c.1 ≠ b3) (c, u) (c, u) := by
  have hne₂ : b ≠ b2 := ha.ne_of_bc (by rw [hbc₂]; exact nofun)
  have hne₃ : b ≠ b3 := ha.ne_of_bc (by rw [hbc₃]; exact nofun)
  by_cases hcb : c = b
  case neg =>
    refine matches_elsewhere (P := fun c => c ≠ b2 ∧ c ≠ b3)
      (congrArg Block.code (combineRetexp_of_ne hcb hc.left hc.right)) fun x hx => ⟨?_, ?_⟩
    case refine_1 => rintro rfl; exact hcb (ha.sole c hx)
    case refine_2 => rintro rfl; exact hcb (hb.sole c hx)
  case pos =>
    subst hcb
    obtain ⟨e, he⟩ := h.belem ha.bc
    have hself : (bo.combineRetexp c b2 b3 e2 e3).block c = _ := combineRetexp_self hne₂ hne₃
    have hbc' : ((bo.combineRetexp c b2 b3 e2 e3).block c).bc = .retexp := by rw [hself]
    have he' : ((bo.combineRetexp c b2 b3 e2 e3).block c).Belem =
        some (.binary .cond e2.Ety 0 e (.binary .colon2 e2.Ety 0 e2 e3)) := by
      rw [hself, he]
      rfl
    have hnew : I.step (bo.combineRetexp c b2 b3 e2 e3) (c, u) =
        returning ((I.eval e u).bind fun u v => if I.truth v then I.eval e2 u else I.eval e3 u) := by
      rw [step_eq_returning hbc' he', I.cond _ _ _ _ _ _ _ _ _ (.inr rfl)]
    have hrun : run (I.step bo) 2 (c, u) =
        run (I.step (bo.combineRetexp c b2 b3 e2 e3)) 1 (c, u) := by
      rw [run_one, hnew]
      obtain ⟨t, ht⟩ | ⟨t, u', v, ht⟩ := (I.eval e u).cases
      case inl =>
        rw [run_exited he ht, Result.bind_eq_none ht]
        rfl
      case inr =>
        rw [ha.run_two he ht, returning_bind ht]
        cases I.truth v with
        | true  => simp only [if_true, step_eq_returning hbc₂ he₂]
        | false => simp only [Bool.false_eq_true, if_false, step_eq_returning hbc₃ he₃]
    refine .of_run (i := 1) (j := 0) (P := fun c => c.1 ≠ b2 ∧ c.1 ≠ b3) hrun fun y hy => ?_
    rw [hrun, run_one, hnew] at hy
    exact (returning_ne_inl hy).elim

-- The first arm is still entered, but has nothing left to do.
theorem combineAnd_matches (h : Combinable bo) (ha : Arms b b2 b3 bo)
    (hbc : (bo.block b2).bc = .goto_) (hs : (bo.block b2).Bsucc[0]? = some b3) (hc : c ≠ b2) :
    Matches (I.step bo) (I.step (bo.combineAnd b b2)) (fun c d => c = d ∧ c.1 ≠ b2) (c, u) (c, u) := by
  have hne : b ≠ b2 := ha.ne_of_bc (by rw [hbc]; exact nofun)
  by_cases hcb : c = b
  case neg =>
    refine matches_elsewhere (P := (· ≠ b2)) (congrArg Block.code (combineAnd_of_ne hcb hc))
      fun x hx => ?_
    rintro rfl
    exact hcb (ha.sole c hx)
  case pos =>
    subst hcb
    obtain ⟨e, he⟩ := h.belem ha.bc
    obtain ⟨hbc', hbc₂'⟩ := combineAnd_bc ha hbc
    have he' : ((bo.combineAnd c b2).block c).Belem =
        some (combineGotoElem e (bo.block b2).Belem none) := by
      rw [combineAnd_self hne, he]
      rfl
    have hs' : ((bo.combineAnd c b2).block c).Bsucc[0]? = some b2 := by
      rw [combineAnd_self hne]
      dsimp only
      rw [ha.Bsucc]
      rfl
    have hempty : EmptyGoto ((bo.combineAnd c b2).block b2) :=
      ⟨hbc₂', by rw [combineAnd_arm hne]⟩
    have hnew : run (I.step (bo.combineAnd c b2)) 2 (c, u) =
        follow b3 (I.evalBlock (some (combineGotoElem e (bo.block b2).Belem none)) u).discard := by
      have hstep := step_eq_follow (I := I) (u := u) hbc' hs'
      rw [he'] at hstep
      match hr : (I.evalBlock (some (combineGotoElem e (bo.block b2).Belem none)) u).discard with
      | (t, none) =>
        rw [hr] at hstep
        exact run_step_ended hstep
      | (t, some (u', ())) =>
        rw [hr] at hstep
        rw [run_step_add hstep, run_one,
          step_emptyGoto hempty (combineAnd_arm_succ hne hs ha.ne), List.append_nil]
        rfl
    rw [combineGotoElem_discard] at hnew
    have htarget {y : Nat × σ} (hy : (run (I.step (bo.combineAnd c b2)) 2 (c, u)).2 = .inl y) :
        y.1 ≠ b2 := by
      rw [hnew] at hy
      rw [follow_target hy]
      exact Ne.symm ha.ne
    obtain ⟨t, ht⟩ | ⟨t, u', v, ht⟩ := (I.eval e u).cases
    case inl =>
      have hrun : run (I.step bo) 2 (c, u) = run (I.step (bo.combineAnd c b2)) 2 (c, u) := by
        rw [hnew, run_exited he ht, Result.bind_eq_none ht]
        rfl
      exact .of_run (i := 1) (j := 1) (P := (·.1 ≠ b2)) hrun fun y hy => htarget (hrun ▸ hy)
    case inr =>
      rw [follow_bind ht] at hnew
      cases htr : I.truth v with
      | true =>
        have hrun : run (I.step bo) 2 (c, u) = run (I.step (bo.combineAnd c b2)) 2 (c, u) := by
          rw [ha.run_two he ht, hnew]
          simp only [htr, if_true, step_eq_follow hbc hs]
        exact .of_run (i := 1) (j := 1) (P := (·.1 ≠ b2)) hrun fun y hy => htarget (hrun ▸ hy)
      | false =>
        have hrun : run (I.step bo) 1 (c, u) = run (I.step (bo.combineAnd c b2)) 2 (c, u) := by
          rw [run_one, step_iftrue ha.bc he ha.Bsucc ht, hnew]
          simp [htr, Interp.evalBlock, Result.discard, Result.pure, Result.bind, follow]
        exact .of_run (i := 0) (j := 1) (P := (·.1 ≠ b2)) hrun fun y hy => htarget (hrun ▸ hy)

end arms

end Compiler.Backend.BlockOpt
