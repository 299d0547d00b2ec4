import DmdModel.Compiler.Backend.Cgelem.Theorems.BitField
import DmdModel.Compiler.Backend.Cgelem.Theorems.Chain
import DmdModel.Compiler.Backend.Cgelem.Theorems.Elcmp
import DmdModel.Compiler.Backend.Cgelem.Theorems.Eval

-- Chains of equality tests are what the bit test is that replaces them.
namespace Compiler.Backend.Cgelem

open Machine LowBits

section

variable [Target] {σ E : Type} {M : Machine σ E} {s : σ} {e e' e0 e1 e2 eq ex ey : Elem} {array xs ys rest : List Elem}
  {op cmpop : BinaryOp} {ty ty1 tyc : Ty} {stop b : Bool} {x m v emin emax d : Value} {w w' : Window} {i k : Nat}

section numbers

omit [Target]

-- A constant is compared with the value of the elem in its own width, and with the number of a bit as a small number.
theorem low_sub_eq_iff (hk : 8 ≤ k) (hx : x.toNat < 2 ^ k) (hm : (m - emin).toNat < 64) :
    low k (x - emin) = m - emin ↔ x = low k m := by
  have hpow : 2 ^ 8 ≤ 2 ^ k := Nat.pow_le_pow_right Nat.two_pos hk
  have hsmall : low k (m - emin) = m - emin := by
    rw [← BitVec.toNat_inj, toNat_low]
    exact Nat.mod_eq_of_lt (by omega)
  have hlow : low k x = x := by
    rw [← BitVec.toNat_inj, toNat_low]
    exact Nat.mod_eq_of_lt hx
  constructor
  case mp =>
    intro h
    rw [← BitVec.sub_add_cancel m emin, ← h, low_add_left, BitVec.sub_add_cancel, hlow]
  case mpr =>
    intro h
    rw [h, low_sub_left, hsmall]

-- What is subtracted from the constants
def base (w : Window) : Value :=
  if w.emax < 32 then 0 else w.emin

theorem toNat_sub_base (hmin : w.emin ≤ m) (hmax : m ≤ w.emax) :
    (m - base w).toNat ≤ (w.emax - base w).toNat := by
  rw [BitVec.le_def] at hmin hmax
  rw [base]
  split_ifs
  case pos => rwa [sub_zero, sub_zero]
  case neg =>
    rw [BitVec.toNat_sub_of_le (BitVec.le_def.mpr hmin), BitVec.toNat_sub_of_le (BitVec.le_def.mpr (hmin.trans hmax))]
    omega

end numbers

theorem regsize_cases : (REGSIZE = 8 ∧ Target.I64 = true) ∨ (REGSIZE = 4 ∧ Target.I64 = false) := by
  rw [REGSIZE]
  cases Target.I64 <;> simp

theorem toNat_emax_sub_base (h : w.emax - w.emin < BitVec.ofNat 64 (REGSIZE * 8)) :
    (w.emax - base w).toNat < 64 ∧ (32 ≤ (w.emax - base w).toNat → Target.I64 = true) := by
  rw [base]
  split_ifs with hsmall
  case pos =>
    rw [BitVec.lt_def] at hsmall
    have hlt : w.emax.toNat < 32 := hsmall
    rw [sub_zero]
    exact ⟨by omega, fun hge => by omega⟩
  case neg =>
    rw [BitVec.lt_def] at h
    rcases regsize_cases with ⟨hsize, hI64⟩ | ⟨hsize, hI64⟩
    case inl =>
      rw [hsize] at h
      exact ⟨h, fun _ => hI64⟩
    case inr =>
      rw [hsize] at h
      have hlt : (w.emax - w.emin).toNat < 32 := h
      exact ⟨by omega, fun hge => by omega⟩

-- A value of a type, of which bool has two.
def IsValue (ty : Ty) (v : Value) : Prop :=
  v.toNat < if ty.tybasic = .TYbool then 2 else 2 ^ (8 * ty.tysize)

-- A comparison of an elem with a constant of its size.
structure TypedComparison (M : Machine σ E) (e1 : Elem) (ty : Ty) (v : Value) : Prop where
  integral : e1.Ety.tyintegral
  tysize   : ty.tysize = e1.Ety.tysize
  promoted : e1.Promoted
  constant : IsValue e1.Ety (ty.trunc v)
  value    : ∀ s x, M.eval e1 s = .pure s x → IsValue e1.Ety x

theorem comparison_eq_some (h : comparison cmpop eq = some (e1, m)) :
    ∃ ty ty2 v, eq = .binary cmpop ty e1 (.const ty2 v) ∧ ty2.tyintegral ∧ e1.el_sideeffect = false ∧
      m = (Elem.const ty2 v).el_tolong := by
  rw [comparison.eq_def] at h
  split at h
  case h_2 => cases h
  case h_1 op ty e ty2 v =>
    split_ifs at h with hcond
    rw [Option.some.injEq, Prod.mk.injEq] at h
    obtain ⟨rfl, rfl⟩ := h
    exact ⟨ty, ty2, v, by rw [hcond.1], hcond.2.1, by simpa using hcond.2.2, rfl⟩

-- An operand that compares an elem that matches e0 with a constant of the window.
def InWindow (cmpop : BinaryOp) (w : Window) (e0 eq : Elem) : Prop :=
  ∃ e1 m, comparison cmpop eq = some (e1, m) ∧ w.emin ≤ m ∧ m ≤ w.emax ∧ (e1 = e0 ∨ e0.el_match e1)

-- The window that the loop has found.
structure Found (cmpop : BinaryOp) (array : List Elem) (w : Window) (e0 : Elem) : Prop where
  le    : w.first ≤ w.last
  head  : ∃ eq, array[w.first]? = some eq ∧ leftOperand eq = some e0
  tests : ∀ j, w.first ≤ j → j ≤ w.last → ∃ eq, array[j]? = some eq ∧ InWindow cmpop w e0 eq
  max   : ∃ j eq e1, w.first ≤ j ∧ j ≤ w.last ∧ array[j]? = some eq ∧ comparison cmpop eq = some (e1, w.emax)

theorem InWindow.mono (h : InWindow cmpop w e0 eq) (hmin : w'.emin ≤ w.emin) (hmax : w.emax ≤ w'.emax) :
    InWindow cmpop w' e0 eq := by
  have ⟨e1, m, hc, hm, hm', hmatch⟩ := h
  exact ⟨e1, m, hc, BitVec.le_trans hmin hm, BitVec.le_trans hm' hmax, hmatch⟩

theorem Found.start (hi : array[i]? = some eq) (hc : comparison cmpop eq = some (e1, m)) :
    Found cmpop array (.start i m) e1 where
  le := le_rfl
  head := by
    have ⟨ty, ty2, v, heq, _⟩ := comparison_eq_some hc
    exact ⟨eq, hi, by rw [heq, leftOperand]⟩
  tests j hj hj' := by
    have hji : j = i := Nat.le_antisymm hj' hj
    rw [hji]
    exact ⟨eq, hi, e1, m, hc, BitVec.le_refl m, BitVec.le_refl m, Or.inl rfl⟩
  max := ⟨i, eq, e1, le_rfl, le_rfl, hi, hc⟩

theorem Found.extend (h : Found cmpop array w e0) (hlast : w.last + 1 = i) (hi : array[i]? = some eq)
    (hc : comparison cmpop eq = some (e1, m)) (hmatch : e0.el_match e1) :
    Found cmpop array (w.extend i m) e0 := by
  have hle := h.le
  have hmin : (if m < w.emin then m else w.emin) ≤ w.emin ∧ (if m < w.emin then m else w.emin) ≤ m := by
    split_ifs with hm
    case pos => exact ⟨BitVec.le_of_lt hm, BitVec.le_refl m⟩
    case neg => exact ⟨BitVec.le_refl _, BitVec.not_lt.mp hm⟩
  have hmax : w.emax ≤ (if m > w.emax then m else w.emax) ∧ m ≤ (if m > w.emax then m else w.emax) := by
    split_ifs with hm
    case pos => exact ⟨BitVec.le_of_lt hm, BitVec.le_refl m⟩
    case neg => exact ⟨BitVec.le_refl _, BitVec.not_lt.mp hm⟩
  constructor
  case le => exact Nat.le_trans hle (hlast ▸ Nat.le_succ w.last)
  case head => exact h.head
  case tests =>
    intro j hj hj'
    by_cases hji : j = i
    case pos =>
      rw [hji]
      exact ⟨eq, hi, e1, m, hc, hmin.2, hmax.2, Or.inr hmatch⟩
    case neg =>
      have hji' : j ≤ i := hj'
      have ⟨eq', heq', hin⟩ := h.tests j hj (by omega)
      exact ⟨eq', heq', hin.mono hmin.1 hmax.1⟩
  case max =>
    rw [Window.extend]
    dsimp only
    split_ifs
    case pos => exact ⟨i, eq, e1, by omega, le_rfl, hi, hc⟩
    case neg =>
      have ⟨j, eq', e1', hj, hj', heq', hc'⟩ := h.max
      exact ⟨j, eq', e1', hj, by omega, heq', hc'⟩

-- The constants that operands are compared with.
def Compared (cmpop : BinaryOp) (xs : List Elem) (m : Value) : Prop :=
  ∃ eq ∈ xs, ∃ e1, comparison cmpop eq = some (e1, m)

theorem compared_cons (hc : comparison cmpop eq = some (e1, m)) {P : Value → Prop} :
    (∃ m, Compared cmpop (eq :: xs) m ∧ P m) ↔ P m ∨ ∃ m, Compared cmpop xs m ∧ P m := by
  constructor
  case mp =>
    rintro ⟨m', ⟨eq', hmem, e', hc'⟩, hp⟩
    rcases List.mem_cons.mp hmem with rfl | hmem
    case inl =>
      rw [hc, Option.some.injEq, Prod.mk.injEq] at hc'
      exact Or.inl (hc'.2 ▸ hp)
    case inr => exact Or.inr ⟨m', ⟨eq', hmem, e', hc'⟩, hp⟩
  case mpr =>
    rintro (hp | ⟨m', ⟨eq', hmem, e', hc'⟩, hp⟩)
    case inl => exact ⟨m, ⟨eq, List.mem_cons_self, e1, hc⟩, hp⟩
    case inr => exact ⟨m', ⟨eq', List.mem_cons_of_mem eq hmem, e', hc'⟩, hp⟩

theorem not_compared_nil {P : Value → Prop} : ¬ ∃ m, Compared cmpop [] m ∧ P m := by
  rintro ⟨m, ⟨eq, hmem, _⟩, _⟩
  cases hmem

-- The mask has the bits of the constants.
theorem bitMask_eq (h : ∀ eq ∈ xs, ∃ e1 m, comparison cmpop eq = some (e1, m) ∧ (m - emin).toNat < 64) (bits : Value) :
    ∃ bits', bitMask emin xs bits = some bits' ∧
      ∀ k < 64, bits'.getLsbD k ↔ bits.getLsbD k ∨ ∃ m, Compared cmpop xs m ∧ (m - emin).toNat = k := by
  induction xs generalizing bits
  case nil => exact ⟨bits, rfl, fun k _ => (or_iff_left not_compared_nil).symm⟩
  case cons eq xs ih =>
    have ⟨e1, m, hc, hlt⟩ := h eq List.mem_cons_self
    obtain ⟨ty, ty2, v, rfl, _, _, rfl⟩ := comparison_eq_some hc
    have ⟨bits', hbits, hiff⟩ := ih (fun eq heq => h eq (List.mem_cons_of_mem _ heq))
      (bits ||| 1#64 <<< ((Elem.const ty2 v).el_tolong - emin).toNat)
    refine ⟨bits', by rw [bitMask, if_pos hlt, hbits], fun k hk => ?_⟩
    rw [hiff k hk, compared_cons hc, BitVec.getLsbD_or, Bool.or_eq_true, or_assoc]
    have hone : (1#64 <<< ((Elem.const ty2 v).el_tolong - emin).toNat).getLsbD k = true ↔
        ((Elem.const ty2 v).el_tolong - emin).toNat = k := by
      rw [← BitVec.twoPow, BitVec.getLsbD_twoPow, decide_eq_true hlt, Bool.true_and, decide_eq_true_iff]
    rw [hone]

-- Whether a comparison ends the evaluation of the chain depends on the value of its elem.
theorem eval_eq_comparison {cmpop : BinaryOp} (hcmpop : cmpop = if op = .andand then .ne else .eqeq) (hop : logical op)
    {ty2 : Ty} (he1 : M.eval e1 s = .pure s x) :
    ∃ y, M.eval (.binary cmpop ty e1 (.const ty2 v)) s = .pure s y ∧
      (decide (y ≠ 0) = stopOf op ↔ x = ty2.trunc v) := by
  rcases hop with rfl | rfl
  case inl =>
    rw [if_pos rfl] at hcmpop
    subst hcmpop
    rw [eval_arithmetic (by decide), he1, Result.pure_bind, eval_const, Result.pure_bind]
    refine ⟨_, rfl, ?_⟩
    rw [evalBinary, decide_ofBool, stopOf]
    simp
  case inr =>
    rw [if_neg (by decide)] at hcmpop
    subst hcmpop
    rw [eval_arithmetic (by decide), he1, Result.pure_bind, eval_const, Result.pure_bind]
    refine ⟨_, rfl, ?_⟩
    rw [evalBinary, decide_ofBool, stopOf]
    simp

-- The comparisons have no side effects, and their truth is that of the question whether one of the constants is the
-- value of the elem.
theorem evalChain_comparisons
    (h : ∀ eq ∈ xs, ∃ e1 m y, comparison cmpop eq = some (e1, m) ∧ M.eval eq s = .pure s y ∧
      (decide (y ≠ 0) = stop ↔ x = tyc.trunc m)) :
    ∃ b, M.evalChain stop xs s = .pure s (ofBool b) ∧
      (b = stop ↔ ∃ m, Compared cmpop xs m ∧ x = tyc.trunc m) := by
  induction xs
  case nil => exact ⟨!stop, rfl, iff_of_false (Bool.not_ne_self stop) not_compared_nil⟩
  case cons eq xs ih =>
    have ⟨e1, m, y, hc, hy, hiff⟩ := h eq List.mem_cons_self
    have ⟨b, hb, hbiff⟩ := ih fun eq heq => h eq (List.mem_cons_of_mem _ heq)
    rw [evalChain, hy, Result.pure_bind]
    split_ifs with hstop
    case pos => exact ⟨stop, rfl, iff_of_true rfl ((compared_cons hc).mpr (Or.inl (hiff.mp hstop)))⟩
    case neg =>
      refine ⟨b, hb, hbiff.trans ?_⟩
      rw [compared_cons hc, or_iff_right fun hx => hstop (hiff.mpr hx)]

-- A constant of one byte
theorem toNat_el_tolong_lt (hsize : ty.tysize = 1) (h : (ty.trunc v).toNat < 2) :
    (Elem.const ty v).el_tolong.toNat < 2 := by
  have hcases : v.setWidth 8 = 0#8 ∨ v.setWidth 8 = 1#8 := by
    have hv : (v.setWidth 8).toNat < 2 := by
      rw [Ty.toNat_trunc, hsize] at h
      rwa [BitVec.toNat_setWidth]
    rcases Nat.lt_succ_iff_lt_or_eq.mp hv with hlt | heq
    case inl => exact Or.inl (BitVec.eq_of_toNat_eq (by simpa using hlt))
    case inr => exact Or.inr (BitVec.eq_of_toNat_eq (by simpa using heq))
  rw [Elem.el_tolong]
  rw [Ty.tysize] at hsize
  split
  case h_1 => rcases hcases with h' | h' <;> rw [h'] <;> decide
  case h_6 => exact h
  all_goals
    rename_i hty
    rw [hty] at hsize
    cases hsize

theorem IsValue.lt (h : IsValue ty v) : v.toNat < 2 ^ (8 * ty.tysize) := by
  rw [IsValue] at h
  split_ifs at h with hbool
  case pos =>
    have hsize : ty.tysize = 1 := by
      rw [Ty.tysize, hbool]
      rfl
    rw [hsize]
    omega
  case neg => exact h

-- What is subtracted from the elem, and what is left
theorem eval_min (h : M.eval e1 s = .pure s x) : M.eval (.binary .min tyc e1 (el_long tyc emin)) s =
    .pure s (tyc.trunc (x - emin)) := by
  rw [eval_arithmetic (by decide), h, Result.pure_bind, el_long, eval_const, Result.pure_bind, evalBinary]
  exact congrArg _ low_sub_right

theorem trunc_of_small (hty : ty.tyintegral) (hv : v.toNat < 64) : ty.trunc v = v := by
  have hsize := Ty.size_pos hty
  have hpow : 2 ^ 8 ≤ 2 ^ (8 * ty.tysize) := Nat.pow_le_pow_right Nat.two_pos (by omega)
  exact Ty.trunc_eq_self_iff.mpr (by omega)

-- The comparison of the guard is one without signs. The values of bool are not signed either.
theorem less_touns (hty : tyc.tyintegral) (hbool : tyc.tybasic = .TYbool → m.toNat < 2 ∧ d.toNat < 2) :
    less (tyc.tybasic.touns : Ty) tyc m d = decide (m.toNat < d.toNat) := by
  rw [less]
  by_cases hb : tyc.tybasic = .TYbool
  case pos =>
    have hsize : tyc.tysize = 1 := by
      rw [Ty.tysize, hb]
      rfl
    have hext (ty : Ty) (hty : ty.tysize = 1) (v : Value) (hv : v.toNat < 2) : extend ty v = v := by
      have hcases : v = 0#64 ∨ v = 1#64 := by
        rcases Nat.lt_succ_iff_lt_or_eq.mp hv with h | h
        case inl => exact Or.inl (BitVec.eq_of_toNat_eq (by simpa using h))
        case inr => exact Or.inr (BitVec.eq_of_toNat_eq (by simpa using h))
      rw [extend, hty]
      rcases hcases with rfl | rfl <;> decide
    obtain ⟨hm, hd⟩ := hbool hb
    rw [if_neg (by rw [Ty.tyuns, Ty.tyuns, hb]; decide), hext _ (by rw [Ty.tysize, hb]; rfl) m hm, hext tyc hsize d hd,
      BitVec.slt, BitVec.toInt_eq_toNat_of_lt (by omega), BitVec.toInt_eq_toNat_of_lt (by omega)]
    exact decide_eq_decide.mpr Int.ofNat_lt
  case neg =>
    have huns : (tyc.tybasic.touns : Ty).tyuns = true := by
      have hty' : tyc.tybasic.tyintegral = true := hty
      show tyc.tybasic.touns.tyuns = true
      revert hty' hb
      cases tyc.tybasic <;> decide
    rw [huns, Bool.true_or, if_pos rfl]
    rfl

-- The number of the bit is kept by the conversions to an int.
theorem eval_shiftCount (hty : tyc.tyintegral) (ey : Elem) :
    ∃ ey', shiftCount tyc ey = some ey' ∧
      ∀ s d, M.eval ey s = .pure s d → ∃ w, M.eval ey' s = .pure s w ∧ (d.toNat < 64 → w = d) := by
  have hint (d : Value) (hd : d.toNat < 64) : (Tybasic.TYint : Ty).trunc d = d := trunc_of_small rfl hd
  rcases Ty.tysize_cases hty with h | h | h | h
  case inl =>
    refine ⟨.unary .u16_32 Tybasic.TYint (.unary .u8_16 Tybasic.TYint ey), by rw [shiftCount, h]; rfl, fun s d hey => ?_⟩
    rw [eval_unary (by decide), eval_unary (by decide), hey, Result.pure_bind, Result.pure_bind]
    refine ⟨_, rfl, fun hd => ?_⟩
    rw [evalUnary, evalUnary, hint d hd, hint d hd]
  case inr.inl =>
    refine ⟨.unary .u16_32 Tybasic.TYint ey, by rw [shiftCount, h]; rfl, fun s d hey => ?_⟩
    rw [eval_unary (by decide), hey, Result.pure_bind]
    refine ⟨_, rfl, fun hd => ?_⟩
    rw [evalUnary, hint d hd]
  case inr.inr.inl => exact ⟨ey, by rw [shiftCount, h]; rfl, fun s d hey => ⟨d, hey, fun _ => rfl⟩⟩
  case inr.inr.inr =>
    refine ⟨.unary .ll64_32 Tybasic.TYint ey, by rw [shiftCount, h]; rfl, fun s d hey => ?_⟩
    rw [eval_unary (by decide), hey, Result.pure_bind]
    refine ⟨_, rfl, fun hd => ?_⟩
    rw [evalUnary, hint d hd]

variable (ty tyc v) in
theorem eval_btst {y : Value} (hey : M.eval ey s = .pure s y) :
    M.eval (.binary .btst ty (el_long tyc v) ey) s = .pure s (ofBool ((tyc.trunc v).getLsbD y.toNat)) := by
  have hirregular : BinaryOp.btst ∉ irregular := by decide
  rw [eval_regular hirregular rfl, if_neg (by decide), el_long, eval_const, Result.pure_bind, hey, Result.pure_bind, apply,
    if_neg (by decide), evalBinary]

variable (ty) in
-- The guard, without or with its negation
theorem eval_guard (hty : e1.Ety.tyintegral) (he1 : M.eval e1 s = .pure s x) (hm : m.toNat < 64)
    (hd : d = e1.Ety.trunc (x - emin)) (hbool : e1.Ety.tybasic = .TYbool → m.toNat < 2 ∧ d.toNat < 2) :
    M.eval (.binary .gt ty (.binary .min e1.Ety e1 (el_long e1.Ety emin)) (el_long e1.Ety.tybasic.touns m)) s =
        .pure s (ofBool (decide (m.toNat < d.toNat))) ∧
      M.eval (.binary .le ty (.binary .min e1.Ety e1 (el_long e1.Ety emin)) (el_long e1.Ety.tybasic.touns m)) s =
        .pure s (ofBool !decide (m.toNat < d.toNat)) := by
  have hmin : M.eval (.binary .min e1.Ety e1 (el_long e1.Ety emin)) s = .pure s (e1.Ety.trunc (x - emin)) :=
    eval_min he1
  have hconst : M.eval (el_long e1.Ety.tybasic.touns m) s = .pure s m := by
    have hsize : (e1.Ety.tybasic.touns : Ty).tysize = e1.Ety.tysize := Tybasic.tysize_touns e1.Ety.tybasic
    have hsmall : (e1.Ety.tybasic.touns : Ty).trunc m = m := by
      rw [Ty.trunc_congr hsize]
      exact trunc_of_small hty hm
    rw [el_long, eval_const, hsmall]
  have hless := less_touns hty hbool
  constructor
  case left =>
    rw [eval_arithmetic (by decide), hmin, Result.pure_bind, hconst, Result.pure_bind, evalBinary, ← hd]
    exact congrArg _ (congrArg ofBool hless)
  case right =>
    rw [eval_arithmetic (by decide), hmin, Result.pure_bind, hconst, Result.pure_bind, evalBinary, ← hd]
    exact congrArg _ (congrArg ofBool (congrArg not hless))

-- What replaces the window of comparisons
def tests (op : BinaryOp) (ty : Ty) (e1 : Elem) (emin m : Value) (tybits : Ty) (bits : Value) (ey : Elem) : Elem :=
  .binary (if op = .andand then .oror else .andand) ty
    (.binary (if op = .andand then .gt else .le) Tybasic.TYbool (.binary .min e1.Ety e1 (el_long e1.Ety emin))
      (el_long e1.Ety.tybasic.touns m))
    (.binary .btst Tybasic.TYbool (el_long tybits (if op = .andand then ~~~bits else bits)) ey)

variable (ty) in
-- The bit d is looked at only if it is one of the bits up to m.
theorem eval_tests (tybits : Ty) (bits : Value) {y : Value} (hop : logical op) (hty : e1.Ety.tyintegral)
    (he1 : M.eval e1 s = .pure s x) (hm : m.toNat < 64) (hd : d = e1.Ety.trunc (x - emin))
    (hbool : e1.Ety.tybasic = .TYbool → m.toNat < 2 ∧ d.toNat < 2) (hbits : m.toNat < 8 * tybits.tysize)
    (hey : M.eval ey s = .pure s y) (hy : d.toNat < 64 → y = d) :
    M.ShiftsInRange (tests op ty e1 emin m tybits bits ey) s ∧
      ∃ b, M.eval (tests op ty e1 emin m tybits bits ey) s = .pure s (ofBool b) ∧
        (b = stopOf op ↔ d.toNat ≤ m.toNat ∧ bits.getLsbD d.toNat) := by
  have ⟨hgt, hle⟩ := eval_guard Tybasic.TYbool hty he1 hm hd hbool
  have hbit (v : Value) (hdm : d.toNat ≤ m.toNat) : (tybits.trunc v).getLsbD y.toNat = v.getLsbD d.toNat := by
    rw [hy (by omega), getLsbD_trunc, decide_eq_true (show d.toNat < 8 * tybits.tysize by omega), Bool.true_and]
  have hrange (v : Value) (hdm : d.toNat ≤ m.toNat) : M.ShiftsInRange (.binary .btst Tybasic.TYbool (el_long tybits v) ey) s := by
    rw [ShiftsInRange, el_long, eval_const, Result.all_pure, hey, Result.all_pure, hy (by omega)]
    exact lt_of_le_of_lt hdm hbits
  have hguardRange {cmp : BinaryOp} {l r : Elem} (hcmp : cmp = .gt ∨ cmp = .le) :
      M.ShiftsInRange (.binary cmp Tybasic.TYbool l r) s := by
    rcases hcmp with rfl | rfl <;> trivial
  rcases hop with rfl | rfl
  case inl =>
    rw [tests, if_pos rfl, if_pos rfl, if_pos rfl]
    have hbtst := eval_btst Tybasic.TYbool tybits (~~~bits) hey
    constructor
    case left =>
      rw [ShiftsInRange, hgt, Result.all_pure, ofBool_ne_zero_iff, decide_eq_true_iff]
      exact ⟨hguardRange (Or.inl rfl), fun hlt => hrange _ (not_lt.mp hlt)⟩
    case right =>
      rw [eval, hgt, Result.pure_bind, hbtst, Result.pure_bind]
      by_cases hlt : m.toNat < d.toNat
      case pos =>
        rw [if_pos (ofBool_ne_zero_iff.mpr (decide_eq_true hlt))]
        exact ⟨true, rfl, iff_of_false (by decide) fun h => Nat.not_lt_of_le h.1 hlt⟩
      case neg =>
        rw [if_neg fun h => hlt (of_decide_eq_true (ofBool_ne_zero_iff.mp h)), decide_ofBool]
        refine ⟨_, rfl, ?_⟩
        rw [hbit _ (not_lt.mp hlt), BitVec.getLsbD_not, decide_eq_true (show d.toNat < 64 by omega), Bool.true_and]
        simp [stopOf, not_lt.mp hlt]
  case inr =>
    rw [tests, if_neg (by decide), if_neg (by decide), if_neg (by decide)]
    have hbtst := eval_btst Tybasic.TYbool tybits bits hey
    constructor
    case left =>
      rw [ShiftsInRange, hle, Result.all_pure, ofBool_ne_zero_iff, Bool.not_eq_true', decide_eq_false_iff_not]
      exact ⟨hguardRange (Or.inr rfl), fun hlt => hrange _ (not_lt.mp hlt)⟩
    case right =>
      rw [eval, hle, Result.pure_bind, hbtst, Result.pure_bind]
      by_cases hlt : m.toNat < d.toNat
      case pos =>
        rw [decide_eq_true hlt, if_neg (by decide)]
        exact ⟨false, rfl, iff_of_false (by decide) fun h => Nat.not_lt_of_le h.1 hlt⟩
      case neg =>
        rw [decide_eq_false hlt, if_pos (by decide), decide_ofBool]
        refine ⟨_, rfl, ?_⟩
        rw [hbit _ (not_lt.mp hlt)]
        simp [stopOf, not_lt.mp hlt]

-- The operands of the window
def Window.operands (w : Window) (array : List Elem) : List Elem :=
  (array.drop w.first).take (w.last - w.first + 1)

namespace Found

theorem last_lt (h : Found cmpop array w e0) : w.last < array.length := by
  have ⟨eq, heq, _⟩ := h.tests w.last h.le le_rfl
  exact (List.getElem?_eq_some_iff.mp heq).1

theorem mem_operands (h : Found cmpop array w e0) : eq ∈ w.operands array ↔
    ∃ j, w.first ≤ j ∧ j ≤ w.last ∧ array[j]? = some eq := by
  have hle := h.le
  rw [Window.operands, List.mem_iff_getElem?]
  constructor
  case mp =>
    rintro ⟨k, hk⟩
    rw [List.getElem?_take, List.getElem?_drop] at hk
    split_ifs at hk with hlt
    exact ⟨w.first + k, by omega, by omega, hk⟩
  case mpr =>
    rintro ⟨j, hj, hj', heq⟩
    refine ⟨j - w.first, ?_⟩
    rw [List.getElem?_take, List.getElem?_drop, if_pos (by omega), Nat.add_sub_cancel' hj, heq]

theorem inWindow (h : Found cmpop array w e0) (hmem : eq ∈ w.operands array) : InWindow cmpop w e0 eq := by
  have ⟨j, hj, hj', heq⟩ := h.mem_operands.mp hmem
  have ⟨eq', heq', hin⟩ := h.tests j hj hj'
  rw [heq, Option.some.injEq] at heq'
  exact heq' ▸ hin

theorem split (h : Found cmpop array w e0) :
    array = array.take w.first ++ (w.operands array ++ array.drop (w.last + 1)) := by
  have hle := h.le
  have hdrop : array.drop (w.last + 1) = (array.drop w.first).drop (w.last - w.first + 1) := by
    rw [List.drop_drop]
    congr 1
    omega
  rw [hdrop, Window.operands, List.take_append_drop, List.take_append_drop]

end Found

-- The comparisons of a chain with constants are those of the operands' types.
def Typed (M : Machine σ E) (cmpop : BinaryOp) (array : List Elem) : Prop :=
  ∀ ty e1 ty2 v, .binary cmpop ty e1 (.const ty2 v) ∈ array → ty2.tyintegral → e1.el_sideeffect = false →
    TypedComparison M e1 ty2 v

-- An operand of the window is a comparison of what e0 is.
structure Equates (M : Machine σ E) (cmpop : BinaryOp) (e0 eq e1 : Elem) (ty2 : Ty) (v : Value) : Prop where
  form  : ∃ ty, eq = .binary cmpop ty e1 (.const ty2 v)
  typed : TypedComparison M e1 ty2 v
  bool  : e1.Ety.tybasic = .TYbool ↔ e0.Ety.tybasic = .TYbool
  trunc : ty2.trunc v = e0.Ety.trunc (Elem.const ty2 v).el_tolong
  eval  : ∀ s, M.eval e1 s = M.eval e0 s

theorem Found.head_typed (h : Found cmpop array w e0) (htyped : Typed M cmpop array) :
    ∃ ty2 v, TypedComparison M e0 ty2 v ∧ e0.el_sideeffect = false := by
  have ⟨eq, heq, hleft⟩ := h.head
  have hmem : eq ∈ w.operands array := h.mem_operands.mpr ⟨w.first, le_rfl, h.le, heq⟩
  have ⟨e1, m, hc, _⟩ := h.inWindow hmem
  obtain ⟨ty, ty2, v, rfl, hint, hside, _⟩ := comparison_eq_some hc
  rw [leftOperand, Option.some.injEq] at hleft
  subst hleft
  exact ⟨ty2, v, htyped ty e1 ty2 v (List.mem_of_getElem? heq) hint hside, hside⟩

theorem Found.equates (h : Found cmpop array w e0) (htyped : Typed M cmpop array) (hmem : eq ∈ w.operands array) :
    ∃ e1 ty2 v, comparison cmpop eq = some (e1, (Elem.const ty2 v).el_tolong) ∧ Equates M cmpop e0 eq e1 ty2 v := by
  have ⟨e1, m, hc, _, _, hmatch⟩ := h.inWindow hmem
  have ⟨j, _, _, heq⟩ := h.mem_operands.mp hmem
  obtain ⟨ty, ty2, v, rfl, hint, hside, rfl⟩ := comparison_eq_some hc
  have ht := htyped ty e1 ty2 v (List.mem_of_getElem? heq) hint hside
  have ⟨_, _, ht0, hside0⟩ := h.head_typed htyped
  have htrunc : ty2.trunc v = e1.Ety.trunc (Elem.const ty2 v).el_tolong := by
    rw [← trunc_el_tolong hint, Ty.trunc_congr ht.tysize]
  refine ⟨e1, ty2, v, hc, ⟨ty, rfl⟩, ht, ?_, ?_, ?_⟩
  case refine_1 =>
    rcases hmatch with rfl | hmatch
    case inl => exact Iff.rfl
    case inr =>
      have hty := tyequiv_of_el_match hmatch
      revert hty
      cases e1.Ety.tybasic <;> cases e0.Ety.tybasic <;> decide
  case refine_2 =>
    rcases hmatch with rfl | hmatch
    case inl => exact htrunc
    case inr => rw [htrunc, Ty.trunc_congr (tysize_congr (tyequiv_of_el_match hmatch))]
  case refine_3 =>
    intro s
    rcases hmatch with rfl | hmatch
    case inl => rfl
    case inr => exact (eval_eq_of_el_match hmatch hside0 ht0.promoted ht.promoted s).symm

variable (op ty) in
-- The test that is built has the bits of the constants, in a type that is large enough, and counts the bits with the
-- elem of the window.
theorem Found.bitTest (h : Found cmpop array w e0) (htyped : Typed M cmpop array) (hlong : w.last - w.first > 2)
    (hsize : w.emax - w.emin < BitVec.ofNat 64 (REGSIZE * 8)) :
    ∃ tybits bits ey, bitTest op ty array w = some (Cgelem.tests op ty e0 (base w) (w.emax - base w) tybits bits ey) ∧
      (w.emax - base w).toNat < 8 * tybits.tysize ∧
      (∀ k < 64, bits.getLsbD k ↔ ∃ m, Compared cmpop (w.operands array) m ∧ (m - base w).toNat = k) ∧
      ∀ s x, M.eval e0 s = .pure s x → ∃ y, M.eval ey s = .pure s y ∧
        ((e0.Ety.trunc (x - base w)).toNat < 64 → y = e0.Ety.trunc (x - base w)) := by
  have ⟨h64, hI64⟩ := toNat_emax_sub_base hsize
  have hcompared : ∀ eq ∈ w.operands array, ∃ e1 m, comparison cmpop eq = some (e1, m) ∧ (m - base w).toNat < 64 := by
    intro eq hmem
    have ⟨e1, m, hc, hmin, hmax, _⟩ := h.inWindow hmem
    exact ⟨e1, m, hc, Nat.lt_of_le_of_lt (toNat_sub_base hmin hmax) h64⟩
  have ⟨bits, hbits, hiff⟩ := bitMask_eq hcompared 0
  have ⟨first, hfirst, hleft⟩ := h.head
  have ⟨second, hsecond, hin⟩ := h.tests (w.first + 1) (by omega) (by omega)
  have hmem : second ∈ w.operands array := h.mem_operands.mpr ⟨w.first + 1, by omega, by omega, hsecond⟩
  have ⟨e1, ty2, v, hc, heq⟩ := h.equates htyped hmem
  have hleft' : leftOperand second = some e1 := by
    obtain ⟨ty, rfl⟩ := heq.form
    rfl
  have ⟨_, _, ht, _⟩ := h.head_typed htyped
  have ⟨ey, hey, hcount⟩ := eval_shiftCount (M := M) ht.integral
    (.binary .min e0.Ety e1 (el_long e0.Ety (base w)))
  have hwide : (w.emax - base w).toNat < 8 * (if w.emax - base w ≥ 32 then .TYullong else .TYuint : Tybasic).tysize := by
    split_ifs with hge
    case pos => exact h64
    case neg => exact BitVec.lt_def.mp (BitVec.not_le.mp hge)
  refine ⟨(if w.emax - base w ≥ 32 then .TYullong else .TYuint : Tybasic), bits, ey, ?_, hwide, ?_, ?_⟩
  case refine_1 =>
    rw [Cgelem.bitTest]
    simp only [← base.eq_def, ← Window.operands.eq_def, hbits, hfirst, hsecond, hleft, hleft', hey,
      Option.bind_eq_bind, Option.bind_some]
    by_cases hge : w.emax - base w ≥ 32
    case pos =>
      simp only [hge, if_true, hI64 (BitVec.le_def.mp hge)]
      rfl
    case neg =>
      simp only [hge, if_false]
      rfl
  case refine_2 =>
    intro k hk
    have hzero : ¬(0 : Value).getLsbD k = true := by simp
    rw [hiff k hk, or_iff_right hzero]
  case refine_3 =>
    intro s x hx
    exact hcount s _ (eval_min ((heq.eval s).trans hx))

-- A bool is compared with 0 and 1 only.
theorem Found.bool (h : Found cmpop array w e0) (htyped : Typed M cmpop array) (hbool : e0.Ety.tybasic = .TYbool)
    (hx : IsValue e0.Ety x) :
    (w.emax - base w).toNat < 2 ∧ (e0.Ety.trunc (x - base w)).toNat < 2 := by
  have ⟨j, eq, e1', hj, hj', heq, hc'⟩ := h.max
  have ⟨e1, ty2, v, hc, hequates⟩ := h.equates htyped (h.mem_operands.mpr ⟨j, hj, hj', heq⟩)
  rw [hc, Option.some.injEq, Prod.mk.injEq] at hc'
  have hbool1 : e1.Ety.tybasic = .TYbool := hequates.bool.mpr hbool
  have hconst := hequates.typed.constant
  rw [IsValue, if_pos hbool1] at hconst
  have hsize : ty2.tysize = 1 := by
    rw [hequates.typed.tysize, Ty.tysize, hbool1]
    rfl
  have hemax : w.emax.toNat < 2 := by
    rw [← hc'.2]
    exact toNat_el_tolong_lt hsize hconst
  rw [IsValue, if_pos hbool] at hx
  have hbase : base w = 0 := if_pos (BitVec.lt_def.mpr (Nat.lt_trans hemax (by decide)))
  rw [hbase, sub_zero, sub_zero, Ty.toNat_trunc]
  exact ⟨hemax, Nat.lt_of_le_of_lt (Nat.mod_le _ _) hx⟩

-- The bit of what is left of a value is set if the value is one of the constants.
theorem Found.bit_iff (h : Found cmpop array w e0) (htyped : Typed M cmpop array)
    (hsize : w.emax - w.emin < BitVec.ofNat 64 (REGSIZE * 8)) (hx : IsValue e0.Ety x) {bits : Value}
    (hbits : ∀ k < 64, bits.getLsbD k ↔ ∃ m, Compared cmpop (w.operands array) m ∧ (m - base w).toNat = k) :
    (e0.Ety.trunc (x - base w)).toNat ≤ (w.emax - base w).toNat ∧
        bits.getLsbD (e0.Ety.trunc (x - base w)).toNat ↔
      ∃ m, Compared cmpop (w.operands array) m ∧ x = e0.Ety.trunc m := by
  have ⟨_, _, ht, _⟩ := h.head_typed htyped
  have hpos := Ty.size_pos ht.integral
  have ⟨h64, _⟩ := toNat_emax_sub_base hsize
  have hle {m : Value} (hm : Compared cmpop (w.operands array) m) : (m - base w).toNat ≤ (w.emax - base w).toNat := by
    obtain ⟨eq, hmem, e1, hc⟩ := hm
    have ⟨e1', m', hc', hmin, hmax, _⟩ := h.inWindow hmem
    rw [hc, Option.some.injEq, Prod.mk.injEq] at hc'
    rw [hc'.2]
    exact toNat_sub_base hmin hmax
  have heq {m : Value} (hm : Compared cmpop (w.operands array) m) :
      e0.Ety.trunc (x - base w) = m - base w ↔ x = e0.Ety.trunc m :=
    low_sub_eq_iff (by omega) hx.lt (Nat.lt_of_le_of_lt (hle hm) h64)
  constructor
  case mp =>
    rintro ⟨hmax, hbit⟩
    have ⟨m, hm, hmbit⟩ := (hbits _ (Nat.lt_of_le_of_lt hmax h64)).mp hbit
    exact ⟨m, hm, (heq hm).mp (BitVec.eq_of_toNat_eq hmbit).symm⟩
  case mpr =>
    rintro ⟨m, hm, hxm⟩
    rw [(heq hm).mpr hxm]
    exact ⟨hle hm, (hbits _ (Nat.lt_of_le_of_lt (hle hm) h64)).mpr ⟨m, hm, rfl⟩⟩

theorem cmpop_eq (h : Equates M cmpop e0 eq e1 ty2 v) (he : M.eval e0 s = .pure s x) (hop : logical op)
    (hcmpop : cmpop = if op = .andand then .ne else .eqeq) :
    ∃ y, M.eval eq s = .pure s y ∧
      (decide (y ≠ 0) = stopOf op ↔ x = e0.Ety.trunc (Elem.const ty2 v).el_tolong) := by
  obtain ⟨ty, rfl⟩ := h.form
  rw [← h.trunc]
  exact eval_eq_comparison hcmpop hop ((h.eval s).trans he)

variable (ty) in
-- What replaces the operands of the window is what they are, without effects.
theorem Found.replace (h : Found cmpop array w e0) (htyped : Typed M cmpop array) (hlong : w.last - w.first > 2)
    (hsize : w.emax - w.emin < BitVec.ofNat 64 (REGSIZE * 8)) (hop : logical op)
    (hcmpop : cmpop = if op = .andand then .ne else .eqeq) :
    ∃ ex, Cgelem.bitTest op ty array w = some ex ∧ ∀ s, M.ShiftsInRange ex s ∧
      M.evalChain (stopOf op) (w.operands array) s = M.eval ex s ∧ truth (M.eval ex s) = M.eval ex s := by
  have ⟨tybits, bits, ey, hbitTest, hwide, hbits, hey⟩ := h.bitTest op ty htyped hlong hsize
  refine ⟨_, hbitTest, fun s => ?_⟩
  have ⟨_, _, ht, hside⟩ := h.head_typed htyped
  have ⟨h64, _⟩ := toNat_emax_sub_base hsize
  have ⟨x, hx⟩ := M.exists_eval_eq_pure hside s
  have hvalue := ht.value s x hx
  have ⟨y, hy, hcount⟩ := hey s x hx
  have ⟨hrange, b, hb, hbiff⟩ := eval_tests ty tybits bits hop ht.integral hx h64 rfl
    (fun hbool => h.bool htyped hbool hvalue) hwide hy hcount
  have hcomparisons : ∀ eq ∈ w.operands array, ∃ e1 m y, comparison cmpop eq = some (e1, m) ∧ M.eval eq s = .pure s y ∧
      (decide (y ≠ 0) = stopOf op ↔ x = e0.Ety.trunc m) := by
    intro eq hmem
    have ⟨e1, ty2, v, hc, hequates⟩ := h.equates htyped hmem
    have ⟨y, hy⟩ := cmpop_eq hequates hx hop hcmpop
    exact ⟨e1, _, y, hc, hy⟩
  have ⟨b', hb', hbiff'⟩ := evalChain_comparisons hcomparisons
  have hbool : b' = b := by
    rw [Bool.eq_iff_iff]
    have hstop : b' = stopOf op ↔ b = stopOf op := by
      rw [hbiff, hbiff', h.bit_iff htyped hsize hvalue hbits]
    revert hstop
    cases b <;> cases b' <;> cases stopOf op <;> decide
  refine ⟨hrange, by rw [hb, hb', hbool], ?_⟩
  rw [hb, truth, Result.pure_bind, decide_ofBool]

end

section

open Tybasic

end

end Compiler.Backend.Cgelem
