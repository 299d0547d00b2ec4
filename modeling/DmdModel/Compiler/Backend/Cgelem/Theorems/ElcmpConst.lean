import DmdModel.Compiler.Backend.Cgelem.Theorems.Compare

namespace Compiler.Backend.Cgelem

open Machine Tybasic

variable [Target] {σ E : Type} {M : Machine σ E} {s : σ} {ty ty1 ty2 : Ty} {v w c c2 : Value} {e1 e2 x y : Elem}
variable {op : BinaryOp}

-- The same number in all types that it fits in with a bit to spare
omit [Target] in
theorem number_small {u : Bool} {k n : Nat} (h : 2 * n < 2 ^ k) : number u k n = n :=
  if_pos (.inr h)

-- Conversions to smaller types keep the lowest bits.
theorem eval_conv {op : UnaryOp} {f : σ → Result σ Value E} {g : Value → Value}
    (hop : op = .w16_8 ∨ op = .l32_16 ∨ op = .ll64_32)
    (he : ∀ s, M.eval x s = (f s).bind fun s v => .pure s (g v)) :
    M.eval (.unary op ty x) s = (f s).bind fun s v => .pure s (ty.trunc (g v)) := by
  obtain rfl | rfl | rfl := hop <;> rw [eval_unary rfl, he, Result.bind_assoc] <;> rfl

theorem trunc_trunc_of_le (h : ty1.tysize ≤ ty2.tysize) : ty1.trunc (ty2.trunc v) = ty1.trunc v := by
  rw [← BitVec.toNat_inj, Ty.toNat_trunc, Ty.toNat_trunc, Ty.toNat_trunc,
    Nat.mod_mod_of_dvd _ (Nat.pow_dvd_pow 2 (by omega))]

-- A mask of one byte takes the lowest byte only.
omit [Target] in
theorem toNat_and_byte (h : w.toNat < 256) : (v &&& w).toNat = v.toNat % 2 ^ 8 &&& w.toNat := by
  rw [BitVec.toNat_and, ← Nat.and_two_pow_sub_one_eq_mod, Nat.and_assoc, Nat.and_comm (2 ^ 8 - 1),
    Nat.and_two_pow_sub_one_eq_mod, Nat.mod_eq_of_lt h]

theorem eval_toByte {sz : Nat} : M.eval (toByte sz x) s = (M.eval x s).bind fun s v => .pure s (Ty.trunc TYuchar v) := by
  have hself (s : σ) : M.eval x s = (M.eval x s).bind fun s v => .pure s v := (Result.bind_pure _).symm
  have h12 : Ty.tysize TYuchar ≤ Ty.tysize TYushort := Nat.le_of_ble_eq_true rfl
  have h14 : Ty.tysize TYuchar ≤ Ty.tysize TYulong := Nat.le_of_ble_eq_true rfl
  rw [toByte]
  split_ifs
  · rw [eval_conv (.inl rfl) fun s => eval_conv (.inr (.inl rfl)) fun s => eval_conv (.inr (.inr rfl)) hself]
    refine Result.bind_congr fun _ s v _ => congrArg (Result.pure s) ?_
    rw [trunc_trunc_of_le h12, trunc_trunc_of_le h14]
  · rw [eval_conv (.inl rfl) fun s => eval_conv (.inr (.inl rfl)) hself]
    refine Result.bind_congr fun _ s v _ => congrArg (Result.pure s) ?_
    exact trunc_trunc_of_le h12
  · exact eval_conv (.inl rfl) hself

theorem eval_elcmpMask (h : op ∈ relational) (h1 : Side e1) (hs : e1.Ety.tysize = ty2.tysize)
    (hi : ty2.tyintegral = true) (hsz : 1 < ty2.tysize) (hf : fitsMask e1 ty2 c2 = true) :
    M.eval (elcmpMask op ty e1 ty2 c2) s = M.eval (.binary op ty e1 (.const ty2 c2)) s := by
  rw [fitsMask.eq_def] at hf
  split at hf
  case h_2 => cases hf
  case h_1 ty1 x ty12 c12 =>
    cases h1
    case mask hi1 hx hsx hm hsm =>
    obtain ⟨hf2, hf12⟩ := Bool.and_eq_true_iff.mp hf
    have hs1 : ty1.tysize = ty2.tysize := hs
    have hs12 : ty12.tysize = ty1.tysize := hsm
    have hc2 := toNat_lt_of_and_not (of_decide_eq_true hf2)
    have hc12 := toNat_lt_of_and_not (of_decide_eq_true hf12)
    have hv2 := trunc_eq_of_el_tolong hi rfl hc2
    have hv12 : (ty12.trunc c12).toNat = (Elem.const ty12 c12).el_tolong.toNat :=
      trunc_eq_of_el_tolong hm.integral rfl hc12
    have hlow (ty : Ty) (hty : 1 < ty.tysize) (c : Value) (hc : (ty.trunc c).toNat < 256) :
        Ty.trunc TYuchar c = ty.trunc c := by
      rw [← @trunc_trunc_of_le _ TYuchar ty c (Nat.le_of_lt hty), ← BitVec.toNat_inj, Ty.toNat_trunc]
      exact Nat.mod_eq_of_lt hc
    have hnew (s : σ) : M.eval (.binary .and TYuchar (toByte ty2.tysize x) (.const TYuchar c12)) s =
        (M.eval x s).bind fun s v => .pure s (Ty.trunc TYuchar (Ty.trunc TYuchar v &&& ty12.trunc c12)) := by
      rw [eval_arithmetic (by decide), eval_toByte, Result.bind_assoc]
      refine Result.bind_congr fun t s v _ => ?_
      rw [Result.pure_bind, eval_const, Result.pure_bind, hlow ty12 (by omega) c12 (by omega)]
      rfl
    have hsize : (Elem.binary .and TYuchar (toByte ty2.tysize x) (.const TYuchar c12)).Ety.tysize =
        (Elem.const TYuchar c2).Ety.tysize := rfl
    have hfit (s : σ) (t : List E) (s' : σ) (v : Value) (hv : M.eval (.binary .and TYuchar (toByte ty2.tysize x)
        (.const TYuchar c12)) s = (t, some (s', v))) : Fits TYuchar v := by
      rw [hnew] at hv
      obtain ⟨_, _, _, _, -, hv⟩ := Result.exists_of_bind_eq_some hv
      obtain ⟨-, rfl⟩ := Prod.mk.inj (Option.some.inj (Prod.mk.inj hv).2)
      exact fits_trunc
    rw [eval_compare h (hx.mask hm hi1 hsx hsm) hs, eval_arithmetic (by decide), elcmpMask,
      eval_relational_const h hsize (Nat.le_of_ble_eq_true rfl) hfit (fun s => eval_const) fits_trunc, hnew,
      Result.bind_assoc, Result.bind_assoc]
    refine Result.bind_congr fun t s v hv => ?_
    rw [Result.pure_bind, eval_const, Result.pure_bind, Result.pure_bind]
    -- both sides compare the same two numbers below 256
    have hle : (v &&& ty12.trunc c12).toNat < 256 := by
      rw [BitVec.toNat_and]
      exact Nat.lt_of_le_of_lt Nat.and_le_right (hv12 ▸ hc12)
    have hpow : 2 ^ 16 ≤ 2 ^ (8 * ty2.tysize) := Nat.pow_le_pow_right (by decide) (by omega)
    have hnew' : (Ty.trunc TYuchar (Ty.trunc TYuchar v &&& ty12.trunc c12)).toNat = (v &&& ty12.trunc c12).toNat := by
      rw [Ty.toNat_trunc, toNat_and_byte (hv12 ▸ hc12), Ty.toNat_trunc, toNat_and_byte (hv12 ▸ hc12)]
      show (v.toNat % 2 ^ 8 % 2 ^ 8 &&& _) % 2 ^ 8 = _
      rw [Nat.mod_mod]
      exact Nat.mod_eq_of_lt (Nat.lt_of_le_of_lt Nat.and_le_right (hv12 ▸ hc12))
    have hold : (M.evalBinary .and ty1 x.Ety (Elem.const ty12 c12).Ety v (ty12.trunc c12) s).toNat =
        (v &&& ty12.trunc c12).toNat := by
      rw [show M.evalBinary .and ty1 x.Ety (Elem.const ty12 c12).Ety v (ty12.trunc c12) s =
        ty1.trunc (v &&& ty12.trunc c12) from rfl, Ty.toNat_trunc, hs1, Nat.mod_eq_of_lt (by omega)]
    rw [hold, hnew', hlow ty2 hsz c2 (by omega)]
    refine congrArg (fun b => Result.pure s (ofBool b)) ?_
    show holds op (number true 8 _) (number true 8 _) = holds op (number _ (8 * ty1.tysize) _) (number _ (8 * ty1.tysize) _)
    rw [number_true, number_true, number_small (by rw [hs1]; omega), number_small (by rw [hs1]; omega)]

omit [Target] in
theorem ofBool_inj {a b : Bool} : ofBool a = ofBool b ↔ a = b := by
  cases a <;> cases b <;> decide

-- The low 32 bits that a constant is set to
omit [Target] in
theorem toNat_setLow {low : BitVec 32} : (setLow c low).toNat % 2 ^ 32 = low.toNat := by
  have h : (setLow c low).setWidth 32 = low := by
    refine BitVec.eq_of_getLsbD_eq fun i hi => ?_
    have hmask : (0xFFFFFFFF : BitVec 64).getLsbD i = true := by
      rw [show (0xFFFFFFFF : BitVec 64) = (BitVec.allOnes 32).setWidth 64 from rfl, BitVec.getLsbD_setWidth,
        BitVec.getLsbD_allOnes, decide_eq_true hi, decide_eq_true (Nat.lt_trans hi (by decide))]
      rfl
    rw [setLow, BitVec.getLsbD_setWidth, BitVec.getLsbD_or, BitVec.getLsbD_and, BitVec.getLsbD_not, hmask,
      BitVec.getLsbD_setWidth, decide_eq_true hi, decide_eq_true (Nat.lt_trans hi (by decide : 32 < 64))]
    simp only [Bool.not_true, Bool.and_false, Bool.false_or, Bool.true_and]
  have hn := congrArg BitVec.toNat h
  rwa [BitVec.toNat_setWidth] at hn

theorem trunc_setLow_zero (h : ty.tysize ≤ 4) : ty.trunc (setLow c 0) = 0 := by
  rw [← BitVec.toNat_inj, Ty.toNat_trunc,
    ← Nat.mod_mod_of_dvd _ (Nat.pow_dvd_pow 2 (show 8 * ty.tysize ≤ 32 by omega)), toNat_setLow]
  exact Nat.zero_mod _

-- The upper half of an operand of 8 bytes
theorem eval_msw (h : e1.Ety.tysize = 8) : M.eval (.unary .msw ty e1) s =
    (M.eval e1 s).bind fun s v => .pure s (ty.trunc (v >>> 32)) := by
  rw [eval_unary rfl]
  refine Result.bind_congr fun _ s v _ => congrArg (Result.pure s) ?_
  rw [show M.evalUnary .msw ty e1.Ety v s = ty.trunc (v >>> (4 * e1.Ety.tysize)) from rfl, h]

theorem toNat_upper (hty : ty.tysize = 4) : (ty.trunc (v >>> 32)).toNat = v.toNat / 2 ^ 32 := by
  rw [Ty.toNat_trunc, BitVec.toNat_ushiftRight, hty, Nat.shiftRight_eq_div_pow]
  exact Nat.mod_eq_of_lt (Nat.div_lt_of_lt_mul v.isLt)

-- A comparison of the upper half of an operand with zero
theorem eval_compare_msw {tym : Ty} (h : op ∈ relational) (h1 : e1.Ety.tysize = 8) (hm : tym.tysize = 4)
    (hc : tym.trunc c = 0) : M.eval (.binary op ty (.unary .msw tym e1) (.const tym c)) s =
      (M.eval e1 s).bind fun s v => .pure s (ofBool (holds op (number tym.tyuns 32 (v.toNat / 2 ^ 32)) 0)) := by
  have hfit (s : σ) (t : List E) (s' : σ) (v : Value) (hv : M.eval (.unary .msw tym e1) s = (t, some (s', v))) :
      Fits tym v := by
    rw [eval_msw h1] at hv
    obtain ⟨_, _, _, _, -, hv⟩ := Result.exists_of_bind_eq_some hv
    obtain ⟨-, rfl⟩ := Prod.mk.inj (Option.some.inj (Prod.mk.inj hv).2)
    exact fits_trunc
  have hsize : (Elem.unary .msw tym e1).Ety.tysize = (Elem.const tym c).Ety.tysize := rfl
  have h8 : (Elem.unary .msw tym e1).Ety.tysize ≤ 8 := by
    rw [show (Elem.unary .msw tym e1).Ety = tym from rfl, hm]
    decide
  rw [eval_relational_const h hsize h8 hfit (fun s => eval_const) fits_trunc, eval_msw h1, Result.bind_assoc]
  refine Result.bind_congr fun t s v _ => ?_
  rw [Result.pure_bind, toNat_upper hm, hc, show (Elem.unary .msw tym e1).Ety = tym from rfl,
    show (Elem.const tym c).Ety = tym from rfl, Bool.or_self, hm]
  refine congrArg (fun b => Result.pure s (ofBool b)) (congrArg (holds op _) ?_)
  exact number_small (by decide)

-- An operand is more than all values of 32 bits if its upper half is not zero, and it is not negative.
theorem eval_compare_max (h1 : Side e1) (hs : e1.Ety.tysize = 8) (hs2 : ty2.tysize = 8) :
    M.eval (.binary .ne ty (.unary .msw TYulong e1) (.const TYulong (setLow 0xFFFFFFFF 0))) s =
        M.eval (.binary .gt ty e1 (.const ty2 0xFFFFFFFF)) s ↔
      ∀ t s' v, M.eval e1 s = (t, some (s', v)) → (e1.Ety.tyuns || ty2.tyuns) = true ∨ v.toNat < 2 ^ 63 := by
  have htrunc : (ty2.trunc 0xFFFFFFFF).toNat = 0xFFFFFFFF := by
    rw [Ty.toNat_trunc, hs2]
    rfl
  rw [eval_compare_msw (by decide) hs rfl (trunc_setLow_zero (Nat.le_of_ble_eq_true rfl)),
    eval_compare (by decide) h1 (hs.trans hs2.symm), Result.bind_pure_eq_iff]
  refine forall_congr' fun t => forall_congr' fun s' => forall_congr' fun v => imp_congr_right fun hv => ?_
  have hlt := v.isLt
  rw [htrunc, hs, show Ty.tyuns TYulong = true from rfl, number_true, ofBool_inj, holds, holds, decide_eq_decide]
  cases e1.Ety.tyuns || ty2.tyuns
  case true =>
    rw [number_true, number_true]
    refine iff_of_true ?_ (.inl rfl)
    omega
  case false =>
    rw [number_small (by decide), number]
    simp only [Bool.false_eq_true, false_or]
    split_ifs <;> omega

theorem trunc_of_not_boolres (hi : ty2.tyintegral = true) (hz : (Elem.const ty2 c2).boolres = false) :
    ty2.trunc c2 = 0 := by
  have he : (Elem.const ty2 c2).el_tolong = 0 := not_not.mp (of_decide_eq_false hz)
  rw [← trunc_el_tolong hi, he, ← BitVec.toNat_inj, Ty.toNat_trunc]
  exact Nat.zero_mod _

-- A comparison that depends on the value of the operand only
theorem eval_compare_zero (h : op ∈ relational) (h1 : Side e1) (hs : e1.Ety.tysize = ty2.tysize)
    (hz : ty2.trunc c2 = 0) {f : Value → Bool} {e : Elem}
    (he : M.eval e s = (M.eval e1 s).bind fun s v => .pure s (ofBool (f v)))
    (hf : ∀ v, Fits e1.Ety v → f v = holds op (number (e1.Ety.tyuns || ty2.tyuns) (8 * e1.Ety.tysize) v.toNat) 0) :
    M.eval e s = M.eval (.binary op ty e1 (.const ty2 c2)) s := by
  rw [he, eval_compare h h1 hs]
  refine Result.bind_congr fun _ s v hv => congrArg (fun b => Result.pure s (ofBool b)) ?_
  rw [hf v (h1.fits hv), hz]
  refine congrArg (holds op _) (number_small ?_).symm
  exact Nat.two_pow_pos _

-- The sign is in the upper half.
theorem eval_mswZero (h : op = .lt ∨ op = .ge) (h1 : Side e1) (hs : e1.Ety.tysize = ty2.tysize)
    (hi : ty2.tyintegral = true) (hz : ty2.trunc c2 = 0) (hu : (e1.Ety.tyuns || ty2.tyuns) = false)
    (hsz : ty2.tysize = 2 * REGSIZE) {tym : Tybasic}
    (hm : tym = if ty2.tysize = 4 then TYint else if ty2.tysize = 8 then TYint else TYlong) :
    M.eval (.binary op ty (.unary .msw tym e1) (.const tym c2)) s = M.eval (.binary op ty e1 (.const ty2 c2)) s := by
  have h8 : ty2.tysize = 8 := by
    have hreg : REGSIZE = 8 ∨ REGSIZE = 4 := by
      rw [REGSIZE]
      split
      case isTrue  => exact .inl rfl
      case isFalse => exact .inr rfl
    have hcases := Ty.tysize_cases hi
    omega
  rw [if_neg (by omega), if_pos h8] at hm
  subst hm
  have hc2 : c2 = 0 := by
    have htrunc := Ty.trunc_eq_self_iff.mpr (show c2.toNat < 2 ^ (8 * ty2.tysize) by rw [h8]; exact c2.isLt)
    rw [← htrunc, hz]
  have hrel : op ∈ relational := by
    obtain rfl | rfl := h <;> decide
  have hlow : Ty.trunc TYint c2 = 0 := by
    rw [hc2, ← BitVec.toNat_inj, Ty.toNat_trunc]
    exact Nat.zero_mod _
  refine eval_compare_zero hrel h1 hs hz (eval_compare_msw hrel (hs.trans h8) rfl hlow) fun v hv => ?_
  have hlt := v.isLt
  have hneg : number false 32 (v.toNat / 2 ^ 32) < 0 ↔ number false (8 * 8) v.toNat < 0 := by
    rw [number, number]
    simp only [Bool.false_eq_true, false_or]
    split_ifs <;> omega
  rw [hu, hs, h8, show Ty.tyuns TYint = false from rfl]
  obtain rfl | rfl := h
  · exact decide_eq_decide.mpr hneg
  · refine decide_eq_decide.mpr ?_
    rw [← not_lt, hneg, not_lt]

theorem eval_elcmpZero (h : op ∈ relational) (h1 : Side e1) (hs : e1.Ety.tysize = ty2.tysize)
    (hi : ty2.tyintegral = true) (hz : (Elem.const ty2 c2).boolres = false) {e : Elem}
    (he : elcmpZero op ty (e1.Ety.tyuns || ty2.tyuns) e1 ty2 c2 = some e) :
    M.eval e s = M.eval (.binary op ty e1 (.const ty2 c2)) s := by
  have hc2 := trunc_of_not_boolres hi hz
  have hnot : M.eval (.unary .not ty e1) s = (M.eval e1 s).bind fun s v => .pure s (ofBool (v = 0)) := eval_unary rfl
  have hbool : M.eval (.unary .bool ty e1) s = (M.eval e1 s).bind fun s v => .pure s (ofBool (v ≠ 0)) := eval_unary rfl
  have hcomma (i : Bool) : M.eval (.binary .comma ty e1 (.const TYint (setLow c2 (if i then 1 else 0)))) s =
      (M.eval e1 s).bind fun s _ => .pure s (ofBool i) := by
    rw [eval_comma]
    refine Result.bind_congr fun _ s v _ => ?_
    rw [eval_const]
    refine congrArg (Result.pure s) (BitVec.toNat_inj.mp ?_)
    rw [Ty.toNat_trunc, show 8 * Ty.tysize TYint = 32 from rfl, toNat_setLow]
    cases i <;> rfl
  have hzero (v : Value) (u : Bool) (k : Nat) (hv : v.toNat < 2 ^ k) : v = 0 ↔ number u k v.toNat = 0 := by
    have h0 : number u k 0 = 0 := number_small (Nat.two_pow_pos _)
    rw [← h0, number_inj hv (Nat.two_pow_pos _), ← BitVec.toNat_inj]
    rfl
  have hmsw {e : Elem} (h : op = .lt ∨ op = .ge) (hu : (e1.Ety.tyuns || ty2.tyuns) = false)
      (he : (if (e1.Ety.tyintegral && decide (ty2.tysize = 2 * REGSIZE)) = true then
        let tyMsw : Tybasic := if ty2.tysize = 4 then .TYint else if ty2.tysize = 8 then .TYint else .TYlong
        some (Elem.binary op ty (.unary .msw tyMsw e1) (.const tyMsw c2)) else none) = some e) :
      M.eval e s = M.eval (.binary op ty e1 (.const ty2 c2)) s := by
    split at he
    case isFalse => cases he
    case isTrue hc =>
      rw [← Option.some.inj he]
      exact eval_mswZero h h1 hs hi hc2 hu (of_decide_eq_true (Bool.and_eq_true_iff.mp hc).2) rfl
  simp only [relational, List.mem_cons, List.not_mem_nil, or_false] at h
  obtain rfl | rfl | rfl | rfl | rfl | rfl := h
  · rw [← Option.some.inj he]
    exact eval_compare_zero (by decide) h1 hs hc2 hnot fun v hv => decide_eq_decide.mpr (hzero v _ _ hv)
  · rw [← Option.some.inj he]
    exact eval_compare_zero (by decide) h1 hs hc2 hbool fun v hv =>
      decide_eq_decide.mpr (not_congr (hzero v _ _ hv))
  all_goals
    rw [elcmpZero] at he
    cases hu : e1.Ety.tyuns || ty2.tyuns
    all_goals rw [hu] at he
  case inr.inr.inl.false => exact hmsw (.inl rfl) hu he
  case inr.inr.inl.true =>
    rw [← Option.some.inj he]
    refine eval_compare_zero (by decide) h1 hs hc2 (hcomma false) fun v hv => ?_
    have hnot : ¬ number true (8 * e1.Ety.tysize) v.toNat < 0 := by
      rw [number_true]
      omega
    rw [hu]
    exact (decide_eq_false hnot).symm
  case inr.inr.inr.inl.false => cases he
  case inr.inr.inr.inl.true =>
    rw [← Option.some.inj he]
    refine eval_compare_zero (by decide) h1 hs hc2 hnot fun v hv => ?_
    rw [hu]
    refine decide_eq_decide.mpr ((hzero v true _ hv).trans ?_)
    rw [number_true]
    omega
  case inr.inr.inr.inr.inl.false => cases he
  case inr.inr.inr.inr.inl.true =>
    rw [← Option.some.inj he]
    refine eval_compare_zero (by decide) h1 hs hc2 hbool fun v hv => ?_
    rw [hu]
    refine decide_eq_decide.mpr ((not_congr (hzero v true _ hv)).trans ?_)
    rw [number_true]
    omega
  case inr.inr.inr.inr.inr.false => exact hmsw (.inr rfl) hu he
  case inr.inr.inr.inr.inr.true =>
    rw [← Option.some.inj he]
    refine eval_compare_zero (by decide) h1 hs hc2 (hcomma true) fun v hv => ?_
    have hle : 0 ≤ number true (8 * e1.Ety.tysize) v.toNat := by
      rw [number_true]
      omega
    rw [hu]
    exact (decide_eq_true hle).symm

theorem Side.setEty {ty : Ty} (h : Side e1) (hi : ty.tyintegral = true) (hs : ty.tysize = e1.Ety.tysize) :
    Side (e1.setEty ty) := by
  cases h
  case const                 => exact .const hi
  case var                   => exact .var hi
  case ext hx _ hext h2      => exact hx.ext hi hext (hs.trans h2)
  case mask hx hy _ hsx hsy  => exact hx.mask hy hi (hsx.trans hs.symm) (hsy.trans hs.symm)
  case assign hx _ hs1 hsx   => exact hx.assign hi (hs1.trans hs.symm) (hsx.trans hs.symm)

omit [Target] in
theorem Ety_setEty : (e1.setEty ty).Ety = ty := by
  cases e1 <;> rfl

-- The numbers of 16 bits below 0x8000 are those that are not negative with signs.
theorem eval_compare_half (h : op = .lt ∨ op = .ge) (h1 : Side e1) (hs : e1.Ety.tysize = ty2.tysize)
    (hu : (e1.Ety.tyuns || ty2.tyuns) = true) (h2 : ty2.tysize = 2) (hc : c2.toNat % 2 ^ 16 = 0x8000) :
    M.eval (.binary (if op = .lt then .ge else .lt) ty (e1.setEty { e1.Ety with tybasic := TYshort })
        (.const { ty2 with tybasic := TYshort } (setLow c2 0))) s = M.eval (.binary op ty e1 (.const ty2 c2)) s := by
  have hsize : Ty.tysize { e1.Ety with tybasic := TYshort } = e1.Ety.tysize := (hs.trans h2).symm
  have hrel : (if op = .lt then BinaryOp.ge else .lt) ∈ relational := by
    split <;> decide
  have hrel' : op ∈ relational := by
    obtain rfl | rfl := h <;> decide
  have hside : Side (e1.setEty { e1.Ety with tybasic := TYshort }) := h1.setEty rfl hsize
  have hsize2 : Ty.tysize { ty2 with tybasic := TYshort } = 2 := rfl
  rw [eval_compare hrel hside (by rw [Ety_setEty]; rfl), eval_compare hrel' h1 hs, h1.eval_setEty hsize]
  refine Result.bind_congr fun _ s v hv => congrArg (fun b => Result.pure s (ofBool b)) ?_
  have hlt := h1.fits hv
  rw [Fits, hs, h2] at hlt
  rw [Ety_setEty, hu, trunc_setLow_zero (by rw [hsize2]; decide), hs, h2, number_true, number_true, Ty.toNat_trunc, h2, hc,
    show Ty.tyuns { e1.Ety with tybasic := TYshort } = false from rfl,
    show Ty.tyuns { ty2 with tybasic := TYshort } = false from rfl,
    show Ty.tysize { e1.Ety with tybasic := TYshort } = 2 from rfl]
  have hzero : number false (8 * 2) 0 = 0 := number_small (by decide)
  have hneg : 0 ≤ number false (8 * 2) v.toNat ↔ (v.toNat : Int) < (0x8000 : Nat) := by
    rw [number]
    simp only [Bool.false_eq_true, false_or]
    split_ifs <;> omega
  rw [Bool.or_self, show (0 : Value).toNat = 0 from rfl, hzero]
  obtain rfl | rfl := h
  case inl =>
    rw [if_pos rfl, holds, holds]
    exact decide_eq_decide.mpr hneg
  case inr =>
    rw [if_neg (by decide), holds, holds]
    refine decide_eq_decide.mpr ?_
    rw [← not_le, hneg, not_lt]

-- An assigned constant is the value of the assignment.
theorem eval_compare_assigned {ty12 : Ty} (h : op ∈ relational) (h1 : Side (.binary .eq ty1 x (.const ty12 c)))
    (hs : ty1.tysize = ty2.tysize) :
    M.eval (.binary .comma ty (.binary .eq ty1 x (.const ty12 c)) (.binary op ty (.const ty1 c) (.const ty2 c2))) s =
      M.eval (.binary op ty (.binary .eq ty1 x (.const ty12 c)) (.const ty2 c2)) s := by
  rw [eval_comma, eval_compare h h1 hs]
  refine Result.bind_congr fun t s' v hv => ?_
  have hval : v = ty1.trunc c := by
    cases h1
    case assign hi hsx he hsc =>
      rw [eval_eq, eval_const, Result.pure_bind, locate_var, Result.pure_bind] at hv
      obtain ⟨_, _, _, _, -, hv⟩ := Result.exists_of_bind_eq_some hv
      obtain ⟨-, rfl⟩ := Prod.mk.inj (Option.some.inj (Prod.mk.inj hv).2)
      rw [Ty.trunc_congr hsx]
      exact trunc_trunc_of_le (Nat.le_of_eq hsc.symm)
  have hconst : Side (.const ty1 c) := .const h1.integral
  rw [eval_compare h hconst hs, eval_const, Result.pure_bind, hval]
  rfl

end Compiler.Backend.Cgelem
