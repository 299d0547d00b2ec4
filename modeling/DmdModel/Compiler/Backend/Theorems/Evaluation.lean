import DmdModel.Compiler.Backend.Semantics
import DmdModel.Compiler.Backend.Theorems.WellFormed

namespace Compiler.Backend

variable {n : Nat} {σ V W X E : Type}

namespace Result

variable {r : Result σ V E} {r' : Result σ W E} {f : σ → V → Result σ W E}

theorem bind_eq_none {t : List E} (h : r = (t, none)) : r.bind f = (t, none) := by
  rw [h, bind]

theorem bind_eq_some {t : List E} {s : σ} {v : V} (h : r = (t, some (s, v))) :
    r.bind f = (t ++ (f s v).1, (f s v).2) := by
  rw [h, bind]

theorem eq_of_bind_eq_some {t : List E} {s' : σ} {w : W} (h : r.bind f = (t, some (s', w))) :
    ∃ t₁ s₁ v t₂, r = (t₁, some (s₁, v)) ∧ f s₁ v = (t₂, some (s', w)) ∧ t = t₁ ++ t₂ := by
  match r with
  | (t₁, none) => cases h
  | (t₁, some (s₁, v)) =>
    rw [bind_eq_some rfl] at h
    simp only [Prod.mk.injEq] at h
    exact ⟨t₁, s₁, v, (f s₁ v).1, rfl, Prod.ext rfl h.right, h.left.symm⟩

theorem discard_bind : (r.bind f).discard = r.bind fun s v => (f s v).discard :=
  bind_assoc ..

theorem discard_bind_pure (g : σ → V → W) : (r.bind fun s v => pure s (g s v)).discard = r.discard := by
  simp [discard, bind_assoc]

theorem not_returns_iff : ¬r.Returns ↔ r.2 = none := by
  rw [Returns, Option.not_isSome_iff_eq_none]

-- A result and its events, state and value.
theorem cases (r : Result σ V E) : (∃ t, r = (t, none)) ∨ ∃ t s v, r = (t, some (s, v)) := by
  match r with
  | (t, none)        => exact .inl ⟨t, rfl⟩
  | (t, some (s, v)) => exact .inr ⟨t, s, v, rfl⟩

-- Two results with the same effects.
theorem cases_of_discard (h : r.discard = r'.discard) :
    (∃ t, r = (t, none) ∧ r' = (t, none)) ∨
      ∃ t s v w, r = (t, some (s, v)) ∧ r' = (t, some (s, w)) := by
  match r, r' with
  | (t, none), (u, none) =>
    cases h
    exact .inl ⟨t, rfl, rfl⟩
  | (t, none), (u, some (s, w)) => cases h
  | (t, some (s, v)), (u, none) => cases h
  | (t, some (s, v)), (u, some (s', w)) =>
    simp only [discard, bind, pure, List.append_nil, Prod.mk.injEq, Option.some.injEq] at h
    obtain ⟨rfl, rfl, -⟩ := h
    exact .inr ⟨t, s, v, w, rfl, rfl⟩

end Result

namespace Elem

variable {e E1 : Elem n} {ty tym : Ty}

theorem setTypes_iftrue : (e.setTypes tym).iftrue = e.iftrue := by
  induction e using setTypes.induct with
  | case1 ty ET e1 e2 ih => rw [setTypes, iftrue, iftrue, ih]
  | case2 e hne          => rw [setTypes.eq_2 tym e hne]

theorem setTypes_iffalse : (e.setTypes tym).iffalse = e.iffalse := by
  induction e using setTypes.induct with
  | case1 ty ET e1 e2 ih => rw [setTypes, iffalse, iffalse, ih]
  | case2 e hne          => rw [setTypes.eq_2 tym e hne]

theorem removeNot_iftrue (h : e.el_scancommas = .unary .not ty E1) :
    (e.removeNot tym).iftrue = E1.iftrue := by
  induction e using el_scancommas.induct with
  | case1 ty ET e1 e2 ih => exact ih h
  | case2 e hne =>
    rw [el_scancommas.eq_2 e hne] at h
    rw [h, removeNot, setTypes_iftrue]

theorem removeNot_iffalse (h : e.el_scancommas = .unary .not ty E1) :
    (e.removeNot tym).iffalse = E1.iffalse := by
  induction e using el_scancommas.induct with
  | case1 ty ET e1 e2 ih => exact ih h
  | case2 e hne =>
    rw [el_scancommas.eq_2 e hne] at h
    rw [h, removeNot, setTypes_iffalse]

end Elem

namespace Interp

variable {I : Interp n σ V E} {bo bo' : BlockOpt n} {b b' : Nat} {s : σ} {e e' : Elem n}

theorem next_congr {blk blk' : Block Nat n} (h : blk.code = blk'.code) (v : Option V) :
    I.next blk v = I.next blk' v := by
  have hs (i : Nat) : next.goOn (V := V) blk i = next.goOn blk' i := by
    rw [next.goOn, next.goOn, Block.code_Bsucc h]
  unfold next
  rw [Block.code_bc h, Block.code_Bswitch h]
  simp only [hs]

-- The execution of a block depends on the block's code only.
theorem step_congr (h : (bo.block b).code = (bo'.block b).code) (s : σ) :
    I.step bo (b, s) = I.step bo' (b, s) := by
  simp only [step, Block.code_Belem h, next_congr h]

theorem step_eq_none {t : List E} (h : I.evalBlock (bo.block b).Belem s = (t, none)) :
    I.step bo (b, s) = (t, .inr .exited) := by
  rw [step, h]

theorem step_eq_go {t : List E} {s' : σ} {v : Option V}
    (h : I.evalBlock (bo.block b).Belem s = (t, some (s', v)))
    (hn : I.next (bo.block b) v = .inl b') : I.step bo (b, s) = (t, .inl (b', s')) := by
  simp only [step, h, hn]

theorem step_eq_stop {t : List E} {s' : σ} {v : Option V} {o : Outcome V}
    (h : I.evalBlock (bo.block b).Belem s = (t, some (s', v)))
    (hn : I.next (bo.block b) v = .inr o) : I.step bo (b, s) = (t, .inr o) := by
  simp only [step, h, hn]

-- What a block that goes on as next says does after its expression.
def conclude (next : V → Nat ⊕ Outcome W) : Result σ V E → List E × ((Nat × σ) ⊕ Outcome W)
  | (t, none) => (t, .inr .exited)
  | (t, some (s, v)) =>
    match next v with
    | .inl b => (t, .inl (b, s))
    | .inr o => (t, .inr o)

theorem step_eq_conclude :
    I.step bo (b, s) = conclude (I.next (bo.block b)) (I.evalBlock (bo.block b).Belem s) := by
  rw [step]
  match I.evalBlock (bo.block b).Belem s with
  | (t, none)        => rfl
  | (t, some (s, v)) => rfl

theorem conclude_bind {next : W → Nat ⊕ Outcome X} {r : Result σ V E} {f : σ → V → Result σ W E}
    {t : List E} {s : σ} {v : V} (h : r = (t, some (s, v))) : conclude next (r.bind f) =
      (t ++ (conclude next (f s v)).1, (conclude next (f s v)).2) := by
  rw [Result.bind_eq_some h]
  match f s v with
  | (t', none)         => rfl
  | (t', some (s', w)) =>
    simp only [conclude]
    cases next w <;> rfl

-- Blocks with the same effects that go on to the same place execute the same.
theorem step_eq_of_discard
    (hd : (I.evalBlock (bo.block b).Belem s).discard = (I.evalBlock (bo'.block b).Belem s).discard)
    (hn : ∀ t s' v w, I.evalBlock (bo.block b).Belem s = (t, some (s', v)) →
      I.evalBlock (bo'.block b).Belem s = (t, some (s', w)) →
      I.next (bo.block b) v = I.next (bo'.block b) w) :
    I.step bo (b, s) = I.step bo' (b, s) := by
  obtain ⟨t, h, h'⟩ | ⟨t, s', v, w, h, h'⟩ := Result.cases_of_discard hd
  case inl => rw [step_eq_none h, step_eq_none h']
  case inr => simp only [step, h, h', hn t s' v w h h']

theorem evalBlock_discard : (I.evalBlock (some e) s).discard = (I.eval e s).discard :=
  Result.discard_bind_pure _

-- The value of a block that returns.
theorem evalBlock_some {t : List E} {s' : σ} {v : Option V}
    (h : I.evalBlock (some e) s = (t, some (s', v))) :
    ∃ w, v = some w ∧ I.eval e s = (t, some (s', w)) := by
  obtain ⟨u, hu⟩ | ⟨u, s₁, w, hu⟩ := (I.eval e s).cases
  case inl => rw [evalBlock, Result.bind_eq_none hu] at h; cases h
  case inr =>
    rw [evalBlock, Result.bind_eq_some hu] at h
    simp only [Result.pure, List.append_nil, Prod.mk.injEq, Option.some.injEq] at h
    obtain ⟨rfl, rfl, rfl⟩ := h
    exact ⟨w, rfl, hu⟩

theorem evalBlock_eq_some {t : List E} {s' : σ} {w : V} (h : I.eval e s = (t, some (s', w))) :
    I.evalBlock (some e) s = (t, some (s', some w)) := by
  rw [evalBlock, Result.bind_eq_some h]
  simp [Result.pure]

theorem evalBlock_eq_none {t : List E} (h : I.eval e s = (t, none)) :
    I.evalBlock (some e) s = (t, none) := by
  rw [evalBlock, Result.bind_eq_none h]

section behaviour

variable {bo'' : BlockOpt n}

theorem SameRuns.refl : I.SameRuns bo bo :=
  fun _ => .refl _

theorem SameRuns.trans (h : I.SameRuns bo bo') (h' : I.SameRuns bo' bo'') : I.SameRuns bo bo'' :=
  fun c => (h c).trans (h' c)

theorem SameRuns.sameBehaviour (h : I.SameRuns bo bo') (hl : bo'.list = bo.list) :
    I.SameBehaviour bo bo' := by
  intro b hb
  refine ⟨b, ?_, fun s => h (b, s)⟩
  rwa [BlockOpt.startblock, hl]

theorem SameBehaviour.trans (h : I.SameBehaviour bo bo') (h' : I.SameBehaviour bo' bo'') :
    I.SameBehaviour bo bo'' := by
  intro b hb
  obtain ⟨b', hb', he⟩ := h b hb
  obtain ⟨b'', hb'', he'⟩ := h' b' hb'
  exact ⟨b'', hb'', fun s => (he s).trans (he' s)⟩

end behaviour

section values

variable {P : V → Prop} {e1 e2 E1 : Elem n} {ty tym : Ty} {ET : Nat}

-- The value of e has the property, if e returns.
def Values (I : Interp n σ V E) (P : V → Prop) (e : Elem n) : Prop :=
  ∀ s t s' v, I.eval e s = (t, some (s', v)) → P v

theorem NeverReturns.eval_eq (h : I.NeverReturns e) (s : σ) : ∃ t, I.eval e s = (t, none) := by
  refine (I.eval e s).cases.resolve_right ?_
  rintro ⟨t, s', v, he⟩
  exact h s (by rw [Result.Returns, he]; rfl)

theorem NeverReturns.values (h : I.NeverReturns e) : I.Values P e := by
  intro s t s' v he
  obtain ⟨u, hu⟩ := h.eval_eq s
  cases hu.symm.trans he

theorem NeverReturns.comma (h : I.NeverReturns e2) : I.NeverReturns (.binary .comma ty ET e1 e2) := by
  intro s
  rw [Result.not_returns_iff, I.comma]
  obtain ⟨t, ht⟩ | ⟨t, s', v, ht⟩ := (I.eval e1 s).cases
  case inl => rw [Result.bind_eq_none ht]
  case inr =>
    rw [Result.bind_eq_some ht]
    exact Result.not_returns_iff.mp (h s')

theorem NeverReturns.of_scancommas (h : I.NeverReturns e.el_scancommas) : I.NeverReturns e := by
  fun_induction Elem.el_scancommas e with
  | case1 ty ET e1 e2 ih => exact (ih h).comma
  | case2 e hne          => exact h

theorem Values.comma (h : I.Values P e2) : I.Values P (.binary .comma ty ET e1 e2) := by
  intro s t s' v he
  rw [I.comma] at he
  obtain ⟨t₁, s₁, v₁, t₂, -, h₂, -⟩ := Result.eq_of_bind_eq_some he
  exact h _ _ _ _ h₂

theorem Values.of_scancommas (h : I.Values P e.el_scancommas) : I.Values P e := by
  fun_induction Elem.el_scancommas e with
  | case1 ty ET e1 e2 ih => exact (ih h).comma
  | case2 e hne          => exact h

theorem Values.info (h : I.Values P e2) : I.Values P (.binary .info ty ET e1 e2) := by
  intro s t s' v he
  obtain ⟨s₁, t₁, s₂, he⟩ := I.info _ _ _ _ _ _ _ _ he
  exact h _ _ _ _ he

theorem values_const {c : Const} (h : P (I.constant c)) : I.Values P (.const ty c) := by
  intro s t s' v he
  rw [I.const] at he
  cases he
  exact h

theorem Typed.neverReturns (h : I.Typed e) (hty : e.Ety.TYnoreturn) : I.NeverReturns e := by
  cases e with
  | unary  => exact h.left hty
  | binary => exact h.left hty
  | _      => exact h hty

theorem Typed.scancommas (h : I.Typed e) : I.Typed e.el_scancommas := by
  fun_induction Elem.el_scancommas e with
  | case1 ty ET e1 e2 ih => exact ih h.right.right
  | case2 e hne          => exact h

-- What is found to evaluate to true does so.
theorem Typed.truth_of_iftrue (h : I.Typed e) (ht : e.iftrue) : I.Values (I.truth ·) e := by
  fun_induction Elem.iftrue e with
  | case1 ty ET e1 e2 ih => exact (ih h.right.right ht).comma
  | case2 ty ET e1 e2 ih => exact (ih h.right.right ht).info
  | case3 ty c           => exact values_const (by rwa [I.truth_constant])
  | case4 ty =>
    intro s t s' v he
    obtain ⟨w, hw, htw⟩ := I.address .relconst ty s (.inl rfl)
    cases hw.symm.trans he
    exact htw
  | case5 ty =>
    intro s t s' v he
    obtain ⟨w, hw, htw⟩ := I.address .string ty s (.inr rfl)
    cases hw.symm.trans he
    exact htw
  | case6 ty ET e1 e2 =>
    intro s t s' v he
    rw [I.oror] at he
    obtain ⟨t₁, s₁, v₁, t₂, -, h₂, -⟩ := Result.eq_of_bind_eq_some he
    split at h₂
    case isTrue =>
      cases h₂
      exact I.truth_bool true
    case isFalse =>
      obtain ⟨u, hu⟩ := (h.right.right.neverReturns ht).eval_eq s₁
      rw [Result.bind_eq_none hu] at h₂
      cases h₂
  | case7 e => simp_all

-- What is found to evaluate to false does so.
theorem Typed.truth_of_iffalse (h : I.Typed e) (hf : e.iffalse) : I.Values (¬I.truth ·) e := by
  fun_induction Elem.iffalse e with
  | case1 ty ET e1 e2 ih => exact (ih h.right.right hf).comma
  | case2 ty ET e1 e2 ih => exact (ih h.right.right hf).info
  | case3 ty c =>
    refine values_const ?_
    rw [I.truth_constant]
    simpa [Elem.iffalse] using hf
  | case4 ty ET e1 e2 =>
    intro s t s' v he
    rw [I.andand] at he
    obtain ⟨t₁, s₁, v₁, t₂, -, h₂, -⟩ := Result.eq_of_bind_eq_some he
    split at h₂
    case isTrue =>
      obtain ⟨u, hu⟩ := (h.right.right.neverReturns hf).eval_eq s₁
      rw [Result.bind_eq_none hu] at h₂
      cases h₂
    case isFalse =>
      cases h₂
      simp [I.truth_bool]
  | case5 e => simp_all

@[simp]
theorem setTypes_eval : I.eval (e.setTypes tym) s = I.eval e s := by
  fun_induction Elem.setTypes tym e generalizing s with
  | case1 ty ET e1 e2 ih => simp only [I.comma, ih]
  | case2 e hne          => rfl

-- The removed negation, put around the whole.
theorem removeNot_eval (h : e.el_scancommas = .unary .not ty E1) :
    I.eval e s = (I.eval (e.removeNot tym) s).bind fun s v => .pure s (I.bool (!I.truth v)) := by
  fun_induction Elem.el_scancommas e generalizing s with
  | case1 ty ET e1 e2 ih =>
    simp only [Elem.removeNot, I.comma, Result.bind_assoc]
    congr 1
    funext s _
    exact ih h
  | case2 e hne =>
    rw [h, I.not, Elem.removeNot, setTypes_eval]

theorem Values.removeNot (h : e.el_scancommas = .unary .not ty E1) (hv : I.Values P E1) :
    I.Values P (e.removeNot tym) := by
  fun_induction Elem.el_scancommas e with
  | case1 ty ET e1 e2 ih => exact (ih h).comma
  | case2 e hne =>
    rw [h, Elem.removeNot]
    intro s t s' v he
    rw [setTypes_eval] at he
    exact hv _ _ _ _ he

end values

end Interp

end Compiler.Backend
