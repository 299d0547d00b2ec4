import DmdModel.Compiler.Backend.Cgelem.Elcmp
import DmdModel.Compiler.Backend.Cgelem.Theorems.Eval

namespace Compiler.Backend.Cgelem

open Machine

section numbers

variable {u u' z : Bool} {k l x y : Nat} {op : BinaryOp} {a b a' b' : Int}

-- The number that a value of k bits stands for.
def number (uns : Bool) (k n : Nat) : Int :=
  if uns = true ∨ 2 * n < 2 ^ k then n else n - (2 ^ k : Nat)

def relational : List BinaryOp :=
  [.eqeq, .ne, .lt, .le, .gt, .ge]

def holds (op : BinaryOp) (a b : Int) : Bool :=
  match op with
  | .eqeq => a = b
  | .ne   => a ≠ b
  | .lt   => a < b
  | .gt   => b < a
  | .le   => a ≤ b
  | .ge   => b ≤ a
  | _     => false

-- A value of k bits that is extended to l bits, by zeros or by its sign.
def extended (zero : Bool) (k l n : Nat) : Nat :=
  if zero = true ∨ 2 * n < 2 ^ k then n else n + 2 ^ l - 2 ^ k

theorem number_inj (hx : x < 2 ^ k) (hy : y < 2 ^ k) : number u k x = number u k y ↔ x = y := by
  cases u <;> simp only [number, Bool.false_eq_true, false_or, true_or, if_true]
  · split <;> split <;> omega
  · exact Int.ofNat_inj

theorem number_true : number true k x = x :=
  if_pos (.inl rfl)

theorem holds_congr (h : a < b ↔ a' < b') (h' : b < a ↔ b' < a') : holds op a b = holds op a' b' := by
  have heq : a = b ↔ a' = b' := by omega
  have hle : a ≤ b ↔ a' ≤ b' := by omega
  have hge : b ≤ a ↔ b' ≤ a' := by omega
  cases op
  case eqeq => exact decide_eq_decide.mpr heq
  case ne   => exact decide_eq_decide.mpr (not_congr heq)
  case lt   => exact decide_eq_decide.mpr h
  case gt   => exact decide_eq_decide.mpr h'
  case le   => exact decide_eq_decide.mpr hle
  case ge   => exact decide_eq_decide.mpr hge
  all_goals rfl

theorem extended_lt (hx : x < 2 ^ k) (hkl : k < l) : extended z k l x < 2 ^ l := by
  have hpow : 2 ^ k < 2 ^ l := Nat.pow_lt_pow_right (by decide) hkl
  rw [extended]
  split <;> omega

-- Extended values compare like those that are extended, without signs if one side is unsigned or is extended by
-- zeros.
theorem number_extended_lt_iff (hx : x < 2 ^ k) (hy : y < 2 ^ k) (hkl : k < l) :
    number u l (extended z k l x) < number u l (extended z k l y) ↔
      number (u || z) k x < number (u || z) k y := by
  have hpow : 2 * 2 ^ k ≤ 2 ^ l := by
    rw [← Nat.pow_succ']
    exact Nat.pow_le_pow_right (by decide) hkl
  cases u <;> cases z <;> simp only [number, extended, Bool.or_true, Bool.or_false, Bool.false_eq_true, true_or,
    false_or, if_true]
  · split_ifs <;> omega
  · rw [if_pos (by omega), if_pos (by omega)]
  · split_ifs <;> omega

theorem holds_extended (hx : x < 2 ^ k) (hy : y < 2 ^ k) (hkl : k < l) :
    holds op (number u l (extended z k l x)) (number u l (extended z k l y)) =
      holds op (number (u || z) k x) (number (u || z) k y) :=
  holds_congr (number_extended_lt_iff hx hy hkl) (number_extended_lt_iff hy hx hkl)

end numbers

section

variable [Target] {σ E : Type} {M : Machine σ E} {s : σ} {ty ty1 ty2 : Ty} {v w : Value} {op : BinaryOp}

-- A value that fits in a type
def Fits (ty : Ty) (v : Value) : Prop :=
  v.toNat < 2 ^ (8 * ty.tysize)

theorem fits_trunc : Fits ty (ty.trunc v) := by
  rw [Fits, Ty.toNat_trunc]
  exact Nat.mod_lt _ (Nat.two_pow_pos _)

theorem Fits.congr (h : Fits ty1 v) (hs : ty1.tysize = ty2.tysize) : Fits ty2 v := by
  rwa [Fits, ← hs]

theorem toInt_extend (hs : ty.tysize ≤ 8) (hv : Fits ty v) :
    (extend ty v).toInt = number false (8 * ty.tysize) v.toNat := by
  rw [extend, BitVec.toInt_signExtend_of_le (by omega), BitVec.toInt_eq_toNat_cond, BitVec.toNat_setWidth,
    Nat.mod_eq_of_lt hv, number]
  simp only [Bool.false_eq_true, false_or]

theorem less_eq (hs : ty1.tysize = ty2.tysize) (h8 : ty1.tysize ≤ 8) (hv : Fits ty1 v) (hw : Fits ty2 w) :
    less ty1 ty2 v w = decide (number (ty1.tyuns || ty2.tyuns) (8 * ty1.tysize) v.toNat <
      number (ty1.tyuns || ty2.tyuns) (8 * ty1.tysize) w.toNat) := by
  rw [less]
  cases hu : ty1.tyuns || ty2.tyuns
  case true =>
    rw [if_pos rfl, BitVec.ult, number_true, number_true]
    exact decide_eq_decide.mpr Int.ofNat_lt.symm
  case false =>
    rw [if_neg Bool.false_ne_true, BitVec.slt, toInt_extend h8 hv, toInt_extend (hs ▸ h8) hw, hs]

-- Operands are compared by the numbers that they stand for, without signs if one of them is unsigned.
theorem evalBinary_relational (h : op ∈ relational) (hs : ty1.tysize = ty2.tysize) (h8 : ty1.tysize ≤ 8)
    (hv : Fits ty1 v) (hw : Fits ty2 w) : M.evalBinary op ty ty1 ty2 v w s =
      ofBool (holds op (number (ty1.tyuns || ty2.tyuns) (8 * ty1.tysize) v.toNat)
        (number (ty1.tyuns || ty2.tyuns) (8 * ty1.tysize) w.toNat)) := by
  have hlt := less_eq hs h8 hv hw
  have hgt := less_eq hs.symm (hs ▸ h8) hw hv
  rw [Bool.or_comm ty2.tyuns, ← hs] at hgt
  have heq : v = w ↔ number (ty1.tyuns || ty2.tyuns) (8 * ty1.tysize) v.toNat =
      number (ty1.tyuns || ty2.tyuns) (8 * ty1.tysize) w.toNat := by
    rw [number_inj hv (hw.congr hs.symm), BitVec.toNat_inj]
  simp only [relational, List.mem_cons, List.not_mem_nil, or_false] at h
  obtain rfl | rfl | rfl | rfl | rfl | rfl := h
  · exact congrArg ofBool (decide_eq_decide.mpr heq)
  · exact congrArg ofBool (decide_eq_decide.mpr (not_congr heq))
  · exact congrArg ofBool hlt
  · refine congrArg ofBool ?_
    rw [hgt, holds, ← decide_not]
    exact decide_eq_decide.mpr not_lt
  · exact congrArg ofBool hgt
  · refine congrArg ofBool ?_
    rw [hlt, holds, ← decide_not]
    exact decide_eq_decide.mpr not_lt

end

section

variable [Target] {σ E : Type} {M : Machine σ E} {s s' : σ} {ty ty1 : Ty} {v : Value} {e : Elem} {t : List E}

-- The extensions: whether they are by zeros, and the size of what they extend.
def extension : UnaryOp → Option (Bool × Nat)
  | .u8_16  => some (true, 1)
  | .s8_16  => some (false, 1)
  | .u16_32 => some (true, 2)
  | .s16_32 => some (false, 2)
  | .u32_64 => some (true, 4)
  | .s32_64 => some (false, 4)
  | _       => none

-- The operands that are compared: variables, constants, extensions, masks and assignments.
inductive Side : Elem → Prop
  | const {ty : Ty} {v : Value} : ty.tyintegral = true → Side (.const ty v)
  | var {ty : Ty} {sym : Symbol} {offset : Value} : ty.tyintegral = true → Side (.var ty sym offset)
  | ext {op : UnaryOp} {ty : Ty} {e : Elem} {z : Bool} :
    Side e → ty.tyintegral = true → extension op = some (z, e.Ety.tysize) → ty.tysize = 2 * e.Ety.tysize →
    Side (.unary op ty e)
  | mask {ty : Ty} {e1 e2 : Elem} :
    Side e1 → Side e2 → ty.tyintegral = true → e1.Ety.tysize = ty.tysize → e2.Ety.tysize = ty.tysize →
    Side (.binary .and ty e1 e2)
  | assign {ty ty1 : Ty} {sym : Symbol} {offset : Value} {e : Elem} :
    Side e → ty.tyintegral = true → ty1.tysize = ty.tysize → e.Ety.tysize = ty.tysize →
    Side (.binary .eq ty (.var ty1 sym offset) e)

omit [Target] in
theorem OTsideff_of_extension {op : UnaryOp} {z : Bool} {n : Nat} (h : extension op = some (z, n)) :
    op.OTsideff = false := by
  cases op <;> first | rfl | cases h

-- The extended value
theorem toNat_evalUnary_extension {op : UnaryOp} {z : Bool} {n : Nat} (h : extension op = some (z, n))
    (h1 : ty1.tysize = n) (hty : ty.tysize = 2 * n) (hv : Fits ty1 v) :
    (M.evalUnary op ty ty1 v s).toNat = extended z (8 * n) (8 * (2 * n)) v.toNat := by
  rw [Fits, h1] at hv
  have hzero : n ≤ 4 → (ty.trunc v).toNat = extended true (8 * n) (8 * (2 * n)) v.toNat := by
    intro hn
    have hpow : 2 ^ (8 * n) ≤ 2 ^ (8 * (2 * n)) := Nat.pow_le_pow_right (by decide) (by omega)
    rw [Ty.toNat_trunc, hty, Nat.mod_eq_of_lt (Nat.lt_of_lt_of_le hv hpow)]
    exact (if_pos (.inl rfl)).symm
  have hsign : n = 1 ∨ n = 2 ∨ n = 4 → (ty.trunc (extend ty1 v)).toNat =
      extended false (8 * n) (8 * (2 * n)) v.toNat := by
    intro hn
    have hmsb : (v.setWidth (8 * ty1.tysize)).msb = decide (2 ^ (8 * n) ≤ 2 * v.toNat) := by
      rw [BitVec.msb_eq_decide, BitVec.toNat_setWidth, h1, Nat.mod_eq_of_lt hv]
      obtain rfl | rfl | rfl := hn <;> exact decide_eq_decide.mpr (by omega)
    rw [Ty.toNat_trunc, extend, BitVec.toNat_signExtend, hmsb, BitVec.toNat_setWidth, BitVec.toNat_setWidth, h1, hty,
      extended]
    obtain rfl | rfl | rfl := hn <;> simp only [Bool.false_eq_true, false_or, decide_eq_true_eq] <;>
      split_ifs <;> omega
  cases op <;> cases h
  · exact hsign (.inr (.inl rfl))
  · exact hzero (by decide)
  · exact hzero (by decide)
  · exact hsign (.inl rfl)
  · exact hzero (by decide)
  · exact hsign (.inr (.inr rfl))

namespace Side

theorem integral (h : Side e) : e.Ety.tyintegral = true := by
  cases h <;> assumption

theorem fits (h : Side e) (hr : M.eval e s = (t, some (s', v))) : Fits e.Ety v := by
  cases h
  case const ty v h =>
    rw [eval_const] at hr
    obtain ⟨-, rfl⟩ := Prod.mk.inj (Option.some.inj (Prod.mk.inj hr).2)
    exact fits_trunc
  case var h =>
    rw [eval_var] at hr
    obtain ⟨-, rfl⟩ := Prod.mk.inj (Option.some.inj (Prod.mk.inj hr).2)
    exact fits_trunc
  case ext op _ _ _ _ _ hext _ =>
    rw [eval_unary (OTsideff_of_extension hext)] at hr
    obtain ⟨_, _, _, _, -, hr⟩ := Result.exists_of_bind_eq_some hr
    obtain ⟨-, rfl⟩ := Prod.mk.inj (Option.some.inj (Prod.mk.inj hr).2)
    cases op <;> first | cases hext | exact fits_trunc
  case mask h1 h2 hty hs1 hs2 =>
    rw [eval_arithmetic (by decide)] at hr
    obtain ⟨_, _, _, _, -, hr⟩ := Result.exists_of_bind_eq_some hr
    obtain ⟨_, _, _, _, -, hr⟩ := Result.exists_of_bind_eq_some hr
    obtain ⟨-, rfl⟩ := Prod.mk.inj (Option.some.inj (Prod.mk.inj hr).2)
    exact fits_trunc
  case assign h hty hs1 hs2 =>
    rw [eval_eq] at hr
    obtain ⟨_, _, _, _, -, hr⟩ := Result.exists_of_bind_eq_some hr
    rw [locate_var, Result.pure_bind] at hr
    obtain ⟨_, _, _, _, -, hr⟩ := Result.exists_of_bind_eq_some hr
    obtain ⟨-, rfl⟩ := Prod.mk.inj (Option.some.inj (Prod.mk.inj hr).2)
    exact (fits_trunc).congr hs1

-- The type of an operand matters only by its size.
theorem eval_setEty {ty : Ty} (h : Side e) (hs : ty.tysize = e.Ety.tysize) : M.eval (e.setEty ty) s = M.eval e s := by
  cases h
  case const h => rw [Elem.setEty, eval_const, eval_const, Ty.trunc_congr hs]; rfl
  case var h   =>
    rw [Elem.setEty, eval_var, eval_var, Ty.trunc_congr hs, hs]
    rfl
  case ext op _ _ _ _ _ hext _ =>
    rw [Elem.setEty, eval_unary (OTsideff_of_extension hext), eval_unary (OTsideff_of_extension hext)]
    refine Result.bind_congr fun t s v _ => congrArg (Result.pure s) ?_
    cases op <;> first | cases hext | exact Ty.trunc_congr hs
  case mask h1 h2 hty hs1 hs2 =>
    rw [Elem.setEty, eval_arithmetic (by decide), eval_arithmetic (by decide)]
    refine Result.bind_congr fun t s v _ => Result.bind_congr fun t s w _ => congrArg (Result.pure s) ?_
    exact Ty.trunc_congr hs
  case assign h hty hs1 hs2 => rw [Elem.setEty, eval_eq, eval_eq]

end Side

end

section

variable [Target] {σ E : Type} {M : Machine σ E} {s : σ} {ty ty1 ty2 : Ty} {v w c : Value} {e1 e2 x : Elem}
variable {op : BinaryOp}

omit [Target] in
theorem relational_arithmetic (h : op ∈ relational) : op ∈ arithmetic := by
  revert h
  cases op <;> decide

-- A comparison with an operand that has the same value in all states
theorem eval_relational_const (h : op ∈ relational) (hs : e1.Ety.tysize = e2.Ety.tysize) (h8 : e1.Ety.tysize ≤ 8)
    (hf : ∀ s t s' v, M.eval e1 s = (t, some (s', v)) → Fits e1.Ety v) (hc : ∀ s, M.eval e2 s = .pure s w)
    (hw : Fits e2.Ety w) : M.eval (.binary op ty e1 e2) s = (M.eval e1 s).bind fun s v =>
      .pure s (ofBool (holds op (number (e1.Ety.tyuns || e2.Ety.tyuns) (8 * e1.Ety.tysize) v.toNat)
        (number (e1.Ety.tyuns || e2.Ety.tyuns) (8 * e1.Ety.tysize) w.toNat))) := by
  rw [eval_arithmetic (relational_arithmetic h)]
  refine Result.bind_congr fun t s' v hv => ?_
  rw [hc, Result.pure_bind, evalBinary_relational h hs h8 (hf _ _ _ _ hv) hw]

-- A comparison of an operand with a constant
theorem eval_compare (h : op ∈ relational) (h1 : Side e1) (hs : e1.Ety.tysize = ty2.tysize) :
    M.eval (.binary op ty e1 (.const ty2 c)) s = (M.eval e1 s).bind fun s v =>
      .pure s (ofBool (holds op (number (e1.Ety.tyuns || ty2.tyuns) (8 * e1.Ety.tysize) v.toNat)
        (number (e1.Ety.tyuns || ty2.tyuns) (8 * e1.Ety.tysize) (ty2.trunc c).toNat))) := by
  have h8 := Ty.tysize_cases h1.integral
  exact eval_relational_const h hs (by omega) (fun _ _ _ _ => h1.fits) (fun _ => eval_const) fits_trunc

variable {eop conv : UnaryOp} {z : Bool} {n : Nat} {tym : Tybasic}

-- A comparison of an extended operand with a constant can be done before it is extended, if the constant is one
-- that is extended, too.
theorem eval_narrowed (h : op ∈ relational) (hx : Side x) (hext : extension eop = some (z, x.Ety.tysize))
    (h1 : ty1.tysize = 2 * x.Ety.tysize) (h2 : ty2.tysize = 2 * x.Ety.tysize) (hm : tym.tysize = x.Ety.tysize)
    (hu : tym.tyuns = (ty1.tyuns || ty2.tyuns || z)) (hconv : conv = .l32_16 ∨ conv = .w16_8)
    (hi : ty1.tyintegral = true)
    (hc : c.toNat % 2 ^ (8 * (2 * x.Ety.tysize)) =
      extended z (8 * x.Ety.tysize) (8 * (2 * x.Ety.tysize)) (c.toNat % 2 ^ (8 * x.Ety.tysize))) :
    M.eval (.binary op ty (selectAs tym (.unary eop ty1 x) x) (.unary conv tym (.const ty2 c))) s =
      M.eval (.binary op ty (.unary eop ty1 x) (.const ty2 c)) s := by
  have hside : Side (.unary eop ty1 x) := hx.ext hi hext h1
  have h8 := Ty.tysize_cases hx.integral
  have hsize (volatile : Bool) (modifiers : Nat) :
      Ty.tysize { tybasic := tym, volatile, modifiers } = x.Ety.tysize := hm
  have huns (volatile : Bool) (modifiers : Nat) :
      Ty.tyuns { tybasic := tym, volatile, modifiers } = (ty1.tyuns || ty2.tyuns || z) := hu
  have hety : (selectAs tym (.unary eop ty1 x) x).Ety = { ty1 with tybasic := tym } := by
    rw [selectAs]
    cases x <;> rfl
  have hsel (s : σ) : M.eval (selectAs tym (.unary eop ty1 x) x) s = M.eval x s := hx.eval_setEty hm
  have hconst (s : σ) : M.eval (.unary conv tym (.const ty2 c)) s =
      .pure s (Ty.trunc { tybasic := tym } (ty2.trunc c)) := by
    obtain rfl | rfl := hconv <;> rw [eval_unary rfl, eval_const, Result.pure_bind] <;> rfl
  have hcval : (Ty.trunc { tybasic := tym } (ty2.trunc c)).toNat = c.toNat % 2 ^ (8 * x.Ety.tysize) := by
    have hdvd : 2 ^ (8 * x.Ety.tysize) ∣ 2 ^ (8 * (2 * x.Ety.tysize)) := Nat.pow_dvd_pow 2 (by omega)
    rw [Ty.toNat_trunc, Ty.toNat_trunc, h2, hsize, Nat.mod_mod_of_dvd _ hdvd]
  rw [eval_relational_const h (by rw [hety, hsize]; exact hm.symm) (by rw [hety, hsize]; omega)
    (fun s t s' v hv => by
      rw [hsel] at hv
      rw [hety]
      exact (hx.fits hv).congr (hsize _ _).symm) hconst ((fits_trunc).congr rfl),
    eval_compare h hside (h1.trans h2.symm), hsel, eval_unary (OTsideff_of_extension hext), Result.bind_assoc]
  refine Result.bind_congr fun t s' v hv => ?_
  have hlt : 8 * x.Ety.tysize < 8 * (2 * x.Ety.tysize) := by omega
  rw [Result.pure_bind, toNat_evalUnary_extension hext rfl h1 (hx.fits hv), hcval, Ty.toNat_trunc, h2, hety, huns,
    hsize, show (Elem.unary eop ty1 x).Ety = ty1 from rfl, h1, hc,
    holds_extended (hx.fits hv) (Nat.mod_lt _ (Nat.two_pow_pos _)) hlt,
    show (Elem.unary conv (tym : Ty) (Elem.const ty2 c)).Ety = tym from rfl, huns, Bool.or_self]

end

section

variable [Target] {ty : Ty} {v c : Value} {k l : Nat} {e1 : Elem}

omit [Target] in
theorem toNat_signExtend_setWidth (hk : 0 < k) (hkl : k ≤ l) : ((c.setWidth k).signExtend l).toNat =
    extended false k l (c.toNat % 2 ^ k) := by
  have hpow : 2 ^ k ≤ 2 ^ l := Nat.pow_le_pow_right (by decide) hkl
  have hlt : c.toNat % 2 ^ k < 2 ^ k := Nat.mod_lt _ (Nat.two_pow_pos _)
  have hhalf : 2 * 2 ^ (k - 1) = 2 ^ k := by
    rw [← Nat.pow_succ', Nat.succ_eq_add_one, Nat.sub_add_cancel hk]
  rw [BitVec.toNat_signExtend, BitVec.msb_eq_decide, BitVec.toNat_setWidth, BitVec.toNat_setWidth,
    Nat.mod_eq_of_lt (Nat.lt_of_lt_of_le hlt hpow), extended]
  simp only [Bool.false_eq_true, false_or, decide_eq_true_eq]
  split_ifs <;> omega

omit [Target] in
theorem fits16_spec (h : fits16 e1 c = true) : ∃ eop ty1 x, e1 = .unary eop ty1 x ∧
    extension eop = some (isZeroExt e1, 2) ∧
    c.toNat % 2 ^ 32 = extended (isZeroExt e1) 16 32 (c.toNat % 2 ^ 16) := by
  rw [fits16.eq_def] at h
  split at h
  case h_1 ty1 x =>
    rw [decide_eq_true_eq] at h
    refine ⟨_, ty1, x, rfl, rfl, ?_⟩
    rw [isZeroExt, extended, if_pos (.inl rfl)]
    omega
  case h_2 ty1 x =>
    have hn := congrArg BitVec.toNat (of_decide_eq_true h)
    rw [BitVec.toNat_setWidth, toNat_signExtend_setWidth (by decide) (by decide)] at hn
    exact ⟨_, ty1, x, rfl, rfl, hn⟩
  case h_3 => cases h

omit [Target] in
theorem fits8_spec (h : fits8 e1 c = true) : ∃ eop ty1 x, e1 = .unary eop ty1 x ∧
    extension eop = some (isZeroExt e1, 1) ∧
    c.toNat % 2 ^ 16 = extended (isZeroExt e1) 8 16 (c.toNat % 2 ^ 8) := by
  rw [fits8.eq_def] at h
  split at h
  case h_1 ty1 x =>
    rw [decide_eq_true_eq] at h
    refine ⟨_, ty1, x, rfl, rfl, ?_⟩
    rw [isZeroExt, extended, if_pos (.inl rfl)]
    omega
  case h_2 ty1 x =>
    have hn := congrArg BitVec.toNat (of_decide_eq_true h)
    rw [BitVec.toNat_setWidth, toNat_signExtend_setWidth (by decide) (by decide)] at hn
    refine ⟨_, ty1, x, rfl, rfl, ?_⟩
    rw [show isZeroExt (.unary .s8_16 ty1 x) = false from rfl]
    simp only [extended, Bool.false_eq_true, false_or] at hn ⊢
    split_ifs at hn ⊢ <;> omega
  case h_3 => cases h

-- What is extracted from a constant is a value of its type.
theorem trunc_el_tolong (h : ty.tyintegral = true) : ty.trunc (Elem.const ty v).el_tolong = ty.trunc v := by
  have hext (k : Nat) (hk : 8 * ty.tysize = k) (h8 : k = 8 ∨ k = 16 ∨ k = 32) :
      ty.trunc ((v.setWidth k).signExtend 64) = ty.trunc v := by
    rw [← BitVec.toNat_inj, Ty.toNat_trunc, Ty.toNat_trunc, toNat_signExtend_setWidth (by omega) (by omega), extended, hk]
    obtain rfl | rfl | rfl := h8 <;> split_ifs <;> omega
  rw [Elem.el_tolong]
  split
  case h_1 ht => exact hext 8 (by rw [Ty.tysize, ht]; rfl) (.inl rfl)
  case h_2 ht => exact hext 16 (by rw [Ty.tysize, ht]; rfl) (.inr (.inl rfl))
  case h_3 ht => exact hext 32 (by rw [Ty.tysize, ht]; rfl) (.inr (.inr rfl))
  case h_4 ht => exact hext 32 (by rw [Ty.tysize, ht]; rfl) (.inr (.inr rfl))
  case h_5 ht =>
    rw [Ty.tyintegral, ht] at h
    exact absurd h Bool.false_ne_true
  case h_6 => exact Ty.trunc_trunc

theorem trunc_eq_of_el_tolong (h : ty.tyintegral = true) {n : Nat} (he : (Elem.const ty c).el_tolong.toNat = n)
    (hn : n < 256) : (ty.trunc c).toNat = n := by
  have hpow : 2 ^ 8 ≤ 2 ^ (8 * ty.tysize) := Nat.pow_le_pow_right (by decide) (by have := Ty.size_pos h; omega)
  rw [← trunc_el_tolong h, Ty.toNat_trunc, he, Nat.mod_eq_of_lt (by omega)]

omit [Target] in
theorem toNat_lt_of_and_not (h : v &&& ~~~0xFF = 0) : v.toNat < 256 := by
  have hv : v = v &&& 0xFF := by
    refine BitVec.eq_of_getLsbD_eq fun i hi => ?_
    have hbit : (v &&& ~~~0xFF).getLsbD i = false := by
      rw [h]
      exact BitVec.getLsbD_zero
    simp only [BitVec.getLsbD_and, BitVec.getLsbD_not, hi, decide_true, Bool.true_and] at hbit ⊢
    revert hbit
    cases v.getLsbD i <;> cases BitVec.getLsbD (0xFF : BitVec 64) i <;> decide
  rw [hv, BitVec.toNat_and]
  exact Nat.lt_succ_of_le Nat.and_le_right

end

end Compiler.Backend.Cgelem
