import DmdModel.Compiler.Backend.Theorems.Bropt
import DmdModel.Compiler.Backend.Theorems.Evaluation
import DmdModel.Compiler.Backend.Theorems.Brrear

namespace Compiler.Backend.BlockOpt

variable {n : Nat} {σ V E : Type} {I : Interp n σ V E} {p : Passes n} {bo bo' : BlockOpt n}
variable {b : Nat} {e : Elem n} {s : σ}

section next

variable {blk : Block Nat n} {v : V} {w : Option V}

theorem next_goto (h : blk.bc = .goto_) : I.next blk w = Interp.next.goOn blk 0 := by
  unfold Interp.next
  rw [h]

theorem next_iftrue (h : blk.bc = .iftrue) :
    I.next blk (some v) = Interp.next.goOn blk (if I.truth v then 0 else 1) := by
  unfold Interp.next
  rw [h]

theorem next_switch (h : blk.bc = .switch_) :
    I.next blk (some v) = Interp.next.goOn blk (caseOf blk.Bswitch (I.number v)) := by
  unfold Interp.next
  rw [h]

theorem goOn_eq {blk' : Block Nat n} {i j : Nat} (h : blk.Bsucc[i]? = blk'.Bsucc[j]?) :
    Interp.next.goOn (V := V) blk i = Interp.next.goOn blk' j := by
  unfold Interp.next.goOn
  rw [h]

end next

theorem step_exited {t : List E} (he : (bo.block b).Belem = some e) (hev : I.eval e s = (t, none)) :
    I.step bo (b, s) = (t, .inr .exited) :=
  Interp.step_eq_none (he ▸ Interp.evalBlock_eq_none hev)

theorem toExit_step (he : (bo.block b).Belem = some e) (hn : I.NeverReturns e) :
    I.step (bo.toExit b) (b, s) = I.step bo (b, s) := by
  obtain ⟨t, ht⟩ := hn.eval_eq s
  have hB : ((bo.toExit b).block b).Belem = (bo.block b).Belem := (congrArg Block.Belem toExit_code :)
  rw [step_exited (hB.trans he) ht, step_exited he ht]

-- An expression that is not needed for its value is optimized.
theorem discardValue_step (hp : I.KeepsEffects p.doptelem) (hbc : (bo.block b).bc = .goto_) :
    I.step (bo.discardValue p b) (b, s) = I.step bo (b, s) := by
  have hcode : ((bo.discardValue p b).block b).code = _ := discardValue_code
  have hB : ((bo.discardValue p b).block b).Belem = (bo.block b).Belem.bind p.doptelem :=
    (congrArg Block.Belem hcode :)
  have hbc' : ((bo.discardValue p b).block b).bc = .goto_ := (congrArg Block.bc hcode :).trans hbc
  refine Interp.step_eq_of_discard ?_ fun t s' v w _ _ => ?_
  case refine_1 =>
    rw [hB]
    cases (bo.block b).Belem with
    | none   => rfl
    | some e => exact (hp e s).trans Interp.evalBlock_discard.symm
  case refine_2 =>
    rw [next_goto hbc', next_goto hbc]
    exact goOn_eq (congrArg (·[0]?) (congrArg Block.Bsucc hcode :))

section iftrue

variable {s0 s1 x db : Nat}

theorem step_iftrue {t : List E} {s' : σ} {v : V} (hbc : (bo.block b).bc = .iftrue)
    (he : (bo.block b).Belem = some e) (hs : (bo.block b).Bsucc = [s0, s1])
    (hev : I.eval e s = (t, some (s', v))) :
    I.step bo (b, s) = (t, .inl (if I.truth v then s0 else s1, s')) := by
  refine Interp.step_eq_go (he ▸ Interp.evalBlock_eq_some hev) ?_
  rw [next_iftrue hbc, Interp.next.goOn, hs]
  cases I.truth v <;> rfl

theorem step_goto {t : List E} {s' : σ} {w : Option V} (hbc : (bo.block b).bc = .goto_)
    (hs : (bo.block b).Bsucc[0]? = some x)
    (hev : I.evalBlock (bo.block b).Belem s = (t, some (s', w))) :
    I.step bo (b, s) = (t, .inl (x, s')) := by
  refine Interp.step_eq_go hev ?_
  rw [next_goto hbc, Interp.next.goOn, hs]

theorem broptNot_step (hbc : (bo.block b).bc = .iftrue) (he : (bo.block b).Belem = some e)
    (hs : (bo.block b).Bsucc = [s0, s1]) :
    I.step (broptNot bo b e).1 (b, s) = I.step bo (b, s) := by
  obtain h | ⟨ty, E1, hn, h⟩ := broptNot_cases bo b e
  case inl => rw [h]
  case inr =>
    have hbc₁ : ((broptNot bo b e).1.block b).bc = .iftrue := broptNot_bc.trans hbc
    have he₁ : ((broptNot bo b e).1.block b).Belem = some (e.removeNot E1.Ety) := by
      rw [h, modify_block_self]
    have hs₁ : ((broptNot bo b e).1.block b).Bsucc = [s1, s0] := by
      rw [h, modify_block_self]
      dsimp only
      rw [hs]
      rfl
    have hev : I.eval e s = (I.eval (e.removeNot E1.Ety) s).bind _ := Interp.removeNot_eval hn
    obtain ⟨t, ht⟩ | ⟨t, s', v, ht⟩ := (I.eval (e.removeNot E1.Ety) s).cases
    case inl =>
      rw [Result.bind_eq_none ht] at hev
      rw [step_exited he hev, step_exited he₁ ht]
    case inr =>
      rw [Result.bind_eq_some ht, Result.pure, List.append_nil] at hev
      rw [step_iftrue hbc he hs hev, step_iftrue hbc₁ he₁ hs₁ ht, I.truth_bool]
      cases I.truth v <;> rfl

theorem broptNot_truth (ht : I.Typed e) (h : (broptNot bo b e).2.iftrue) :
    I.Values (I.truth ·) (broptNot bo b e).2 := by
  obtain heq | ⟨ty, E1, hn, heq⟩ := broptNot_cases bo b e
  all_goals rw [heq] at h ⊢
  case inl => exact ht.truth_of_iftrue h
  case inr =>
    have ht₁ := ht.scancommas
    rw [hn] at ht₁
    refine .removeNot hn (ht₁.right.truth_of_iftrue ?_)
    rwa [← Elem.removeNot_iftrue hn]

theorem broptNot_not_truth (ht : I.Typed e) (h : (broptNot bo b e).2.iffalse) :
    I.Values (¬I.truth ·) (broptNot bo b e).2 := by
  obtain heq | ⟨ty, E1, hn, heq⟩ := broptNot_cases bo b e
  all_goals rw [heq] at h ⊢
  case inl => exact ht.truth_of_iffalse h
  case inr =>
    have ht₁ := ht.scancommas
    rw [hn] at ht₁
    refine .removeNot hn (ht₁.right.truth_of_iffalse ?_)
    rwa [← Elem.removeNot_iffalse hn]

-- The successor that is kept is the one that the value decides for.
theorem cutSucc_step (hbc : (bo.block b).bc = .iftrue) (he : (bo.block b).Belem = some e)
    (hs : (bo.block b).Bsucc = [s0, s1]) (hx : ((bo.block b).Bsucc.erase db)[0]? = some x)
    (hv : I.Values (fun v => (if I.truth v then s0 else s1) = x) e) :
    I.step (bo.cutSucc b db) (b, s) = I.step bo (b, s) := by
  have hbc' : ((bo.cutSucc b db).block b).bc = .goto_ := (congrArg Block.bc cutSucc_code :)
  have hs' : ((bo.cutSucc b db).block b).Bsucc[0]? = some x :=
    (congrArg (·[0]?) (congrArg Block.Bsucc cutSucc_code :)).trans hx
  have he' : ((bo.cutSucc b db).block b).Belem = some e :=
    (congrArg Block.Belem cutSucc_code :).trans he
  obtain ⟨t, ht⟩ | ⟨t, s', v, ht⟩ := (I.eval e s).cases
  case inl =>
    rw [step_exited he' ht, step_exited he ht]
  case inr =>
    rw [step_iftrue hbc he hs ht, hv _ _ _ _ ht,
      step_goto hbc' hs' (he' ▸ Interp.evalBlock_eq_some ht)]

theorem broptIftrue_step (hp : I.KeepsEffects p.doptelem) (ht : I.Typed e)
    (hbc : (bo.block b).bc = .iftrue) (he : (bo.block b).Belem = some e)
    (hlen : (bo.block b).Bsucc.length = 2) (h : broptIftrue p bo b e = some bo') :
    I.step bo' (b, s) = I.step bo (b, s) := by
  obtain ⟨r0, r1, hr⟩ := List.length_eq_two.mp hlen
  rw [← broptNot_step hbc he hr]
  have hbc₁ : ((broptNot bo b e).1.block b).bc = .iftrue := broptNot_bc.trans hbc
  have hcut {db : Nat} : (((broptNot bo b e).1.cutSucc b db).block b).bc = .goto_ :=
    (congrArg Block.bc cutSucc_code :)
  have he₁ : ((broptNot bo b e).1.block b).Belem = some (broptNot bo b e).2 := by
    obtain h | ⟨ty, E1, -, h⟩ := broptNot_cases bo b e
    case inl => rw [h]; exact he
    case inr => rw [h, modify_block_self]
  obtain ⟨s0, s1, succs, hs, hcases⟩ := broptIftrue_cases h
  have hsuccs : succs = [] := by
    have hl := (broptNot_Bsucc (b := b) (e := e)).length_eq.trans hlen
    simpa [hs] using hl
  rw [hsuccs] at hs
  have hhead : (([s0, s1] : List Nat).erase s1)[0]? = some s0 := by
    rw [List.erase_cons]
    split
    case isTrue h  => rw [beq_iff_eq.mp h]; rfl
    case isFalse h => rfl
  obtain ⟨hi, rfl⟩ | ⟨hi, rfl⟩ | ⟨rfl, rfl⟩ | rfl := hcases
  case inl =>
    rw [discardValue_step hp hcut]
    refine cutSucc_step (x := s0) hbc₁ he₁ hs (hs ▸ hhead) ?_
    intro s t s' v hev
    rw [if_pos (broptNot_truth ht hi _ _ _ _ hev)]
  case inr.inl =>
    rw [discardValue_step hp hcut]
    refine cutSucc_step (x := s1) hbc₁ he₁ hs (by rw [hs]; simp) ?_
    intro s t s' v hev
    rw [if_neg (broptNot_not_truth ht hi _ _ _ _ hev)]
  case inr.inr.inl =>
    refine cutSucc_step (x := s0) hbc₁ he₁ hs (by rw [hs]; simp) ?_
    intro s t s' v hev
    exact ite_self s0
  case inr.inr.inr => rfl

end iftrue

section switch

variable {ty : Ty} {value : Int} {db : Nat}

theorem broptSwitch_step (hp : I.KeepsEffects p.doptelem) (hv : Visitable b bo)
    (hbc : (bo.block b).bc = .switch_) (he : (bo.block b).Belem = some e)
    (hc : e.el_scancommas = .const ty (.integral value))
    (hdb : (bo.block b).Bsucc[caseOf (bo.block b).Bswitch value]? = some db)
    (h : broptSwitch p bo b e = some bo') : I.step bo' (b, s) = I.step bo (b, s) := by
  obtain ⟨bo₁, h₁, -, hcode, -⟩ := broptSwitch_const (p := p) hc hdb hv.counts
  cases h.symm.trans h₁
  have hbc' : (bo'.block b).bc = .goto_ := (congrArg Block.bc hcode :)
  have hs' : (bo'.block b).Bsucc = [db, db] := (congrArg Block.Bsucc hcode :)
  have he' : (bo'.block b).Belem = (bo.block b).Belem.bind p.doptelem :=
    (congrArg Block.Belem hcode :)
  have hvalue : I.Values (I.number · = value) e := by
    refine Interp.Values.of_scancommas ?_
    rw [hc]
    exact Interp.values_const (I.number_constant value)
  refine Interp.step_eq_of_discard ?_ fun t s' v w hv hw => ?_
  case refine_1 =>
    rw [he', he]
    exact (hp e s).trans Interp.evalBlock_discard.symm
  case refine_2 =>
    rw [he] at hw
    obtain ⟨u, rfl, hu⟩ := Interp.evalBlock_some hw
    rw [next_goto hbc', next_switch hbc, hvalue _ _ _ _ hu]
    refine goOn_eq ?_
    rw [hdb, hs']
    rfl

end switch

section bropt

theorem broptBlock_step (hp : I.KeepsEffects p.doptelem) (hv : Visitable b bo)
    (ht : ∀ e ∈ (bo.block b).Belem, I.Typed e) (h : broptBlock p bo b = some bo') :
    I.step bo' (b, s) = I.step bo (b, s) := by
  cases broptBlock_cases h hv.complete with
  | exit _ hn h =>
    obtain ⟨e, he, hty⟩ := hn
    rw [h]
    exact toExit_step he (((ht e he).scancommas.neverReturns hty).of_scancommas)
  | iftrue hbc he h =>
    have ha := hv.arity
    simp only [Block.Arity, hbc] at ha
    exact broptIftrue_step hp (ht _ he) hbc he ha h
  | switch hc he hconst hdb h => exact broptSwitch_step hp hv hc.left he hconst hdb h
  | keep h                    => rw [h]

-- Every block executes as it did before.
theorem bropt_step (hp : I.KeepsEffects p.doptelem) (hwf : WellFormed bo)
    (hcomplete : ∀ b, (bo.block b).Complete) (ht : ∀ b, ∀ e ∈ (bo.block b).Belem, I.Typed e)
    (h : bropt p bo = some bo') : I.step bo' = I.step bo := by
  obtain ⟨bo₁, h₁, hv⟩ := exists_bropt (p := p) hwf hcomplete
  cases h.symm.trans h₁
  funext c
  obtain ⟨b, s⟩ := c
  by_cases hb : b ∈ bo.list
  case neg => exact Interp.step_congr (hv.same b hb).code s
  case pos =>
    obtain ⟨bo₁, bo₂, hs₁, hstep, hs₂⟩ := hv.visit b hb
    have hvis := (hwf.visitable (hcomplete b)).congr hs₁
    have ht₁ : ∀ e ∈ (bo₁.block b).Belem, I.Typed e := by
      rw [Block.code_Belem hs₁.code]
      exact ht b
    calc I.step bo' (b, s)
      _ = I.step bo₂ (b, s) := Interp.step_congr hs₂.code s
      _ = I.step bo₁ (b, s) := broptBlock_step hp hvis ht₁ hstep
      _ = I.step bo (b, s)  := Interp.step_congr hs₁.code s

theorem bropt_sameBehaviour (hp : I.KeepsEffects p.doptelem) (hwf : WellFormed bo)
    (hcomplete : ∀ b, (bo.block b).Complete) (ht : ∀ b, ∀ e ∈ (bo.block b).Belem, I.Typed e)
    (h : bropt p bo = some bo') : I.SameBehaviour bo bo' := by
  obtain ⟨bo₁, h₁, hv⟩ := exists_bropt (p := p) hwf hcomplete
  cases h.symm.trans h₁
  intro b hb
  refine ⟨b, ?_, fun s => ?_⟩
  case refine_1 => rwa [startblock, hv.list]
  case refine_2 =>
    rw [bropt_step hp hwf hcomplete ht h]
    exact .refl _

end bropt

end Compiler.Backend.BlockOpt

namespace Compiler.Backend.BlockOpt

open Relation Lockstep

variable {n : Nat} {σ V E : Type} {I : Interp n σ V E} {bo bo' bo'' : BlockOpt n}
variable {b i s t bt x : Nat}

section next

variable {blk blk' : Block Nat n} {v : Option V}

-- One successor of a block is another.
theorem next_set (hbc : blk'.bc = blk.bc) (hsw : blk'.Bswitch = blk.Bswitch)
    (hi : blk.Bsucc[i]? = some bt) (hs : blk'.Bsucc = blk.Bsucc.set i t) :
    I.next blk' v = I.next blk v ∨ (I.next blk v = .inl bt ∧ I.next blk' v = .inl t) := by
  have hgo (j : Nat) : Interp.next.goOn (V := V) blk' j = Interp.next.goOn blk j ∨
      (Interp.next.goOn (V := V) blk j = .inl bt ∧ Interp.next.goOn (V := V) blk' j = .inl t) := by
    by_cases hj : i = j
    case pos =>
      subst hj
      have hi' : blk'.Bsucc[i]? = some t := by
        rw [hs]
        exact List.getElem?_set_self (List.getElem?_eq_some_iff.mp hi).1
      exact .inr ⟨by rw [Interp.next.goOn, hi], by rw [Interp.next.goOn, hi']⟩
    case neg => exact .inl (goOn_eq (by rw [hs, List.getElem?_set_ne hj]))
  unfold Interp.next
  rw [hbc, hsw]
  split
  case h_1 => exact hgo _
  case h_2 => exact hgo _
  case h_3 => exact hgo _
  all_goals exact .inl rfl

end next

theorem step_emptyGoto {u : σ} (he : EmptyGoto (bo.block b))
    (ht : (bo.block b).Bsucc[0]? = some t) : I.step bo (b, u) = ([], .inl (t, u)) := by
  refine step_goto (w := none) he.left ht ?_
  rw [he.right]
  rfl

-- The block that control is transferred to by way of an empty block is reached at once.
theorem Hop.matches (h : Hop b bo bo') (c : Nat × σ) :
    Matches (I.step bo) (I.step bo') Eq c c := by
  obtain ⟨x, u⟩ := c
  by_cases hx : x = b
  case neg => exact .of_eq (Interp.step_congr (h.rewrites.code hx) u).symm
  case pos =>
    subst hx
    cases h with
    | @intro i bt t hi he ht h =>
      have hspec : Retargeted x i t bo bo' := h ▸ retarget_spec
      obtain ⟨r, hr⟩ | ⟨r, u', v, hr⟩ := (I.evalBlock (bo.block x).Belem u).cases
      all_goals have hr' : I.evalBlock (bo'.block x).Belem u = _ := hspec.Belem ▸ hr
      case inl => exact .step_stop (Interp.step_eq_none hr) (Interp.step_eq_none hr')
      case inr =>
        obtain hn | ⟨hn, hn'⟩ := next_set (I := I) (v := v) hspec.bc hspec.Bswitch hi hspec.Bsucc
        case inl =>
          refine .of_eq ?_
          simp only [Interp.step, hr, hr', hn]
        case inr =>
          have h₁ := run_one_go (Interp.step_eq_go hr hn)
          have h₂ := run_one_go (step_emptyGoto (I := I) (u := u') he ht)
          refine .go (i := 1) (j := 0) (t := r) ?_ (run_one_go (Interp.step_eq_go hr' hn')) rfl
          rw [run_add h₁, h₂, List.append_nil]

theorem Hop.sameRuns (h : Hop b bo bo') : I.SameRuns bo bo' :=
  fun c => equivalent_of_matches (R := Eq) (fun c _ hc => hc ▸ h.matches c) (rfl : c = c)

theorem hops_sameRuns {l : List Nat} (h : ReflTransGen (HopIn l) bo bo') : I.SameRuns bo bo' := by
  induction h with
  | refl => exact .refl
  | tail _ h ih =>
    obtain ⟨b, -, h⟩ := h
    exact ih.trans h.sameRuns

theorem brrear_sameBehaviour (hc : bo.Continues) :
    ∃ bo', bo.brrear = some bo' ∧ I.SameBehaviour bo bo' := by
  obtain ⟨bo', hbo', hr⟩ := exists_brrear hc
  exact ⟨bo', hbo', (hops_sameRuns hr).sameBehaviour (HopIn.list hr).left⟩

end Compiler.Backend.BlockOpt
