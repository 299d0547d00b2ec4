import DmdModel.Compiler.Backend.Cgelem.Theorems.ElcmpConst

namespace Compiler.Backend.Cgelem

open Machine Tybasic

section bits

variable [Target] {σ E : Type} {M : Machine σ E} {s : σ} {ty : Ty} {e e' e1 e2 : Elem} {sz n : Nat}

-- The elems that are the value of one bit, of which only the size of the type matters.
structure OneBit (M : Machine σ E) (e : Elem) : Prop where
  le    : ∀ s t s' v, M.eval e s = (t, some (s', v)) → v.toNat ≤ 1
  retype : ∀ ty : Ty, ty.tysize = e.Ety.tysize → ∀ s, M.eval (e.setEty ty) s = M.eval e s

theorem trunc_bit {v : Value} (h : 1 ≤ ty.tysize) (hv : v.toNat ≤ 1) : ty.trunc v = v := by
  have hpow : 2 ^ 8 ≤ 2 ^ (8 * ty.tysize) := Nat.pow_le_pow_right (by decide) (by omega)
  exact Ty.trunc_eq_self_iff.mpr (by omega)

theorem const_of_isOne (h : isOne e = true) : ∃ ty v, e = .const ty v ∧ (Elem.const ty v).el_tolong = 1 := by
  rw [isOne.eq_def] at h
  split at h
  case h_1 ty v => exact ⟨ty, v, rfl, of_decide_eq_true h⟩
  case h_2      => cases h

theorem oneBit_of_isBit (h : isBit e = true) (h1 : Side e) : OneBit M e := by
  refine ⟨fun s t s' v hv => ?_, fun ty hty s => h1.eval_setEty hty⟩
  rw [isBit.eq_def] at h
  split at h
  case h_2 => cases h
  case h_1 ty x ty12 c12 =>
    cases h1
    case mask hi hx hsx hc hsc =>
      have hone : ty12.trunc c12 = 1 := by
        rw [← BitVec.toNat_inj]
        exact trunc_eq_of_el_tolong hc.integral (congrArg BitVec.toNat (of_decide_eq_true h)) (by decide)
      rw [eval_arithmetic (by decide)] at hv
      obtain ⟨_, _, vx, _, -, hv⟩ := Result.exists_of_bind_eq_some hv
      rw [eval_const, Result.pure_bind] at hv
      obtain ⟨-, rfl⟩ := Prod.mk.inj (Option.some.inj (Prod.mk.inj hv).2)
      rw [show M.evalBinary .and ty x.Ety (Elem.const ty12 c12).Ety vx (ty12.trunc c12) _ =
        ty.trunc (vx &&& ty12.trunc c12) from rfl, Ty.toNat_trunc, hone, BitVec.toNat_and]
      exact Nat.le_trans (Nat.mod_le _ _) Nat.and_le_right

-- A conversion to any size keeps it.
theorem OneBit.convert {conv : UnaryOp} (h : OneBit M e)
    (hconv : conv ∈ [UnaryOp.u8_16, .u16_32, .u32_64, .w16_8, .l32_16, .ll64_32]) (hty : 1 ≤ ty.tysize) :
    OneBit M (.unary conv ty e) ∧ ∀ s, M.eval (.unary conv ty e) s = M.eval e s := by
  have heval (ty : Ty) (hty : 1 ≤ ty.tysize) (s : σ) : M.eval (.unary conv ty e) s = M.eval e s := by
    have hval : M.eval (.unary conv ty e) s = (M.eval e s).bind fun s v => .pure s (ty.trunc v) := by
      simp only [List.mem_cons, List.not_mem_nil, or_false] at hconv
      obtain rfl | rfl | rfl | rfl | rfl | rfl := hconv <;> exact eval_unary rfl
    rw [hval, ← Result.bind_pure (M.eval e s), Result.bind_assoc]
    refine Result.bind_congr fun _ s' v hv => ?_
    rw [Result.pure_bind, trunc_bit hty (h.le _ _ _ _ hv)]
  refine ⟨⟨fun s t s' v hv => h.le s t s' v (heval ty hty s ▸ hv), fun ty' hty' s => ?_⟩, heval ty hty⟩
  have hty' : ty'.tysize = ty.tysize := hty'
  rw [Elem.setEty, heval ty' (hty' ▸ hty), heval ty hty]

theorem OneBit.toSize {steps : Nat} (h : OneBit M e) (he : toSize sz steps e = some e') :
    OneBit M e' ∧ e'.Ety.tysize = sz ∧ ∀ s, M.eval e' s = M.eval e s := by
  induction steps generalizing e
  case zero =>
    rw [Cgelem.toSize] at he
    split at he
    case isTrue hsz  => exact Option.some.inj he ▸ ⟨h, hsz, fun _ => rfl⟩
    case isFalse     => cases he
  case succ steps hi =>
    have hstep {conv : UnaryOp} {tym : Tybasic} (he : Cgelem.toSize sz steps (.unary conv tym e) = some e')
        (hconv : conv ∈ [UnaryOp.u8_16, .u16_32, .u32_64, .w16_8, .l32_16, .ll64_32])
        (hty : 1 ≤ Ty.tysize tym) : OneBit M e' ∧ e'.Ety.tysize = sz ∧ ∀ s, M.eval e' s = M.eval e s := by
      obtain ⟨hbit, heval⟩ := h.convert hconv hty
      obtain ⟨hbit', hsz, heval'⟩ := hi hbit he
      exact ⟨hbit', hsz, fun s => (heval' s).trans (heval s)⟩
    rw [Cgelem.toSize] at he
    split at he
    case isTrue hsz => exact Option.some.inj he ▸ ⟨h, hsz, fun _ => rfl⟩
    case isFalse =>
      split at he
      · exact hstep he (by decide) (Nat.le_of_ble_eq_true rfl)
      · split at he
        · exact hstep he (by decide) (Nat.le_of_ble_eq_true rfl)
        · exact hstep he (by decide) (Nat.le_of_ble_eq_true rfl)
      · split at he
        · exact hstep he (by decide) (Nat.le_of_ble_eq_true rfl)
        · exact hstep he (by decide) (Nat.le_of_ble_eq_true rfl)
      · exact hstep he (by decide) (Nat.le_of_ble_eq_true rfl)
      · cases he

-- The loop ends, unless a smaller elem is converted to eight bytes.
theorem toSize_eq_none (h : e.Ety.tysize = 1 ∨ e.Ety.tysize = 2 ∨ e.Ety.tysize = 4) (steps : Nat) :
    toSize 8 steps e = none := by
  induction steps generalizing e
  case zero => exact if_neg (by omega)
  case succ steps hi =>
    rw [toSize, if_neg (by omega)]
    obtain h | h | h := h <;> rw [h]
    · exact hi (.inr (.inl rfl))
    · exact hi (.inr (.inr rfl))
    · exact hi (.inr (.inl rfl))

theorem exists_toSize (h : e.Ety.tysize = 1 ∨ e.Ety.tysize = 2 ∨ e.Ety.tysize = 4 ∨ e.Ety.tysize = 8)
    (hsz : sz = 1 ∨ sz = 2 ∨ sz = 4 ∨ sz = 8) (hne : sz = 8 → e.Ety.tysize = 8) :
    ∃ e', toSize sz 3 e = some e' := by
  have hdone {e : Elem} {steps : Nat} (h : e.Ety.tysize = sz) : toSize sz steps e = some e := by
    cases steps <;> exact if_pos h
  by_cases heq : e.Ety.tysize = sz
  case pos => exact ⟨e, hdone heq⟩
  case neg =>
    rw [toSize, if_neg heq]
    obtain rfl | rfl | rfl | rfl := hsz <;> obtain h | h | h | h := h
    all_goals
      first
      | exact absurd h heq
      | exact absurd (hne rfl) heq
      | rw [h]; exact ⟨_, rfl⟩

end bits

section extensions

variable [Target] {σ E : Type} {M : Machine σ E} {s : σ} {ty ty1 ty2 : Ty} {v w : Value} {e1 e2 x y : Elem}
variable {op : BinaryOp} {z : Bool} {optelem : Elem → Elem}

-- Whether the numbers of two values of a type have the same sign if they are taken to have one.
def sameSign (ty : Ty) (v w : Value) : Prop :=
  2 ^ (8 * ty.tysize) ≤ 2 * v.toNat ↔ 2 ^ (8 * ty.tysize) ≤ 2 * w.toNat

-- Two operands that are extended in the same way: whether it is by zeros, and what they extend.
def sameExt (e1 e2 : Elem) : Option (Bool × Elem × Elem) :=
  match e1, e2 with
  | .unary .u8_16 _ x, .unary .u8_16 _ y | .unary .u16_32 _ x, .unary .u16_32 _ y => some (true, x, y)
  | .unary .s8_16 _ x, .unary .s8_16 _ y | .unary .s16_32 _ x, .unary .s16_32 _ y => some (false, x, y)
  | _, _ => none

-- Whether what two extensions extend is compared without signs.
def strippedUns (uns : Bool) (x y : Elem) : Bool :=
  if uns then x.Ety.tybasic.touns.tyuns || y.Ety.tybasic.touns.tyuns else x.Ety.tyuns || y.Ety.tyuns

omit [Target] in
theorem sameExt_eq_some (h : sameExt e1 e2 = some (z, x, y)) : ∃ eop ty1 ty2 n, e1 = .unary eop ty1 x ∧
    e2 = .unary eop ty2 y ∧ extension eop = some (z, n) := by
  rw [sameExt.eq_def] at h
  split at h
  case h_5 => cases h
  all_goals
    obtain ⟨rfl, rfl, rfl⟩ := Option.some.inj h
    exact ⟨_, _, _, _, rfl, rfl, rfl⟩

theorem elcmp_of_sameExt (h : sameExt e1 e2 = some (z, x, y)) : elcmp optelem op ty e1 e2 =
    some (optelem (elcmpExt op ty (e1.Ety.tyuns || e2.Ety.tyuns) x y)) := by
  have hone : isOne e2 = false := by
    obtain ⟨eop, ty1, ty2, n, rfl, rfl, hext⟩ := sameExt_eq_some h
    rfl
  rw [elcmp.eq_def, hone, Bool.and_false, Bool.false_and, if_neg Bool.false_ne_true]
  rw [sameExt.eq_def] at h
  split at h
  case h_5 => cases h
  all_goals
    obtain ⟨rfl, rfl, rfl⟩ := Option.some.inj h
    rfl

theorem elcmp_of_sameExt_none (h : sameExt e1 e2 = none) (hc : ∀ ty v, e2 ≠ .const ty v) :
    elcmp optelem op ty e1 e2 = some (.binary op ty e1 e2) := by
  have hone : isOne e2 = false := by
    rw [← Bool.not_eq_true]
    intro hone
    obtain ⟨ty, v, he, -⟩ := const_of_isOne hone
    exact hc ty v he
  rw [elcmp.eq_def, hone, Bool.and_false, Bool.false_and, if_neg Bool.false_ne_true]
  rw [sameExt.eq_def] at h
  split at h
  case h_5 hu8 hu16 hs8 hs16 =>
    split
    case h_1 => exact absurd rfl (hc _ _)
    case h_2 =>
      split
      · exact (hu8 _ _ _ _ rfl rfl).elim
      · exact (hs8 _ _ _ _ rfl rfl).elim
      · exact (hu16 _ _ _ _ rfl rfl).elim
      · exact (hs16 _ _ _ _ rfl rfl).elim
      · rfl
  all_goals cases h

-- A comparison of two operands of the same size
theorem eval_compare_sides (h : op ∈ relational) (h1 : Side e1) (h2 : Side e2) (hs : e1.Ety.tysize = e2.Ety.tysize) :
    M.eval (.binary op ty e1 e2) s = (M.eval e1 s).bind fun s v => (M.eval e2 s).bind fun s w =>
      .pure s (ofBool (holds op (number (e1.Ety.tyuns || e2.Ety.tyuns) (8 * e1.Ety.tysize) v.toNat)
        (number (e1.Ety.tyuns || e2.Ety.tyuns) (8 * e1.Ety.tysize) w.toNat))) := by
  have h8 := Ty.tysize_cases h1.integral
  rw [eval_arithmetic (relational_arithmetic h)]
  refine Result.bind_congr fun t s' v hv => Result.bind_congr fun t' s'' w hw => ?_
  rw [evalBinary_relational h hs (by omega) (h1.fits hv) (h2.fits hw)]

-- Values compare alike with and without signs if they have the same sign, or are compared for equality.
omit [Target] in
theorem holds_sign_iff {u u' : Bool} {k m n : Nat} (h : op ∈ relational) (hu : u ≠ u') (hm : m < 2 ^ k)
    (hn : n < 2 ^ k) : holds op (number u k m) (number u k n) = holds op (number u' k m) (number u' k n) ↔
      (op ≠ .eqeq → op ≠ .ne → (2 ^ k ≤ 2 * m ↔ 2 ^ k ≤ 2 * n)) := by
  have heq : (number u k m = number u k n ↔ number u' k m = number u' k n) :=
    (number_inj hm hn).trans (number_inj hm hn).symm
  have hord {op : BinaryOp} {p : Prop} (h1 : op ≠ .eqeq) (h2 : op ≠ .ne) : (op ≠ .eqeq → op ≠ .ne → p) ↔ p :=
    ⟨fun h => h h1 h2, fun h _ _ => h⟩
  have hlt {m n : Nat} (hm : m < 2 ^ k) (hn : n < 2 ^ k) :
      (number u k m < number u k n ↔ number u' k m < number u' k n) ↔ (2 ^ k ≤ 2 * m ↔ 2 ^ k ≤ 2 * n) := by
    cases u <;> cases u' <;> first | exact absurd rfl hu | skip
    all_goals
      simp only [number, Bool.false_eq_true, false_or, true_or, if_true]
      split_ifs <;> omega
  simp only [relational, List.mem_cons, List.not_mem_nil, or_false] at h
  obtain rfl | rfl | rfl | rfl | rfl | rfl := h
  all_goals
    rw [holds, holds, decide_eq_decide]
  case inl => exact iff_of_true heq fun hne => absurd rfl hne
  case inr.inl => exact iff_of_true (not_congr heq) fun _ hne => absurd rfl hne
  case inr.inr.inl =>
    rw [hord (by decide) (by decide)]
    exact hlt hm hn
  case inr.inr.inr.inl =>
    rw [hord (by decide) (by decide), ← not_lt, ← not_lt, not_iff_not, hlt hn hm]
    exact Iff.comm
  case inr.inr.inr.inr.inl =>
    rw [hord (by decide) (by decide), hlt hn hm]
    exact Iff.comm
  case inr.inr.inr.inr.inr =>
    rw [hord (by decide) (by decide), ← not_lt, ← not_lt, not_iff_not]
    exact hlt hm hn

-- Extended operands compare like those that are extended, without signs if one side is unsigned or the extension is
-- by zeros.
theorem eval_compare_ext {eop : UnaryOp} {n : Nat} (h : op ∈ relational) (h1 : Side (.unary eop ty1 x))
    (h2 : Side (.unary eop ty2 y)) (hs : ty1.tysize = ty2.tysize) (hext : extension eop = some (z, n))
    (hx : Side x) (hy : Side y) (hsx : x.Ety.tysize = n) (hsy : y.Ety.tysize = n) (hs1 : ty1.tysize = 2 * n) :
    M.eval (.binary op ty (.unary eop ty1 x) (.unary eop ty2 y)) s = (M.eval x s).bind fun s v =>
      (M.eval y s).bind fun s w => .pure s (ofBool (holds op (number (ty1.tyuns || ty2.tyuns || z) (8 * n)
        v.toNat) (number (ty1.tyuns || ty2.tyuns || z) (8 * n) w.toNat))) := by
  have hn := Ty.size_pos hx.integral
  have hlt : 8 * n < 8 * (2 * n) := by omega
  rw [eval_compare_sides h h1 h2 hs, eval_unary (OTsideff_of_extension hext), Result.bind_assoc]
  refine Result.bind_congr fun t s v hv => ?_
  rw [Result.pure_bind, eval_unary (OTsideff_of_extension hext), Result.bind_assoc]
  refine Result.bind_congr fun t s w hw => ?_
  have hv := hx.fits hv
  have hw := hy.fits hw
  rw [Result.pure_bind, toNat_evalUnary_extension hext hsx hs1 hv,
    toNat_evalUnary_extension hext hsy (hs.symm.trans hs1) hw]
  rw [Fits, hsx] at hv
  rw [Fits, hsy] at hw
  refine congrArg (fun b => Result.pure s (ofBool b)) ?_
  rw [← holds_extended hv hw hlt]
  exact congrArg₂ (holds op) (by rw [← hs1]; rfl) (by rw [← hs1]; rfl)

-- A comparison of extended operands is one of those that are extended, with signs that differ from the right ones
-- only in what `strippedUns` says.
theorem eval_elcmpExt_iff (h : op ∈ relational) (h1 : Side e1) (h2 : Side e2) (hs : e1.Ety.tysize = e2.Ety.tysize)
    (he : sameExt e1 e2 = some (z, x, y)) :
    M.eval (elcmpExt op ty (e1.Ety.tyuns || e2.Ety.tyuns) x y) s = M.eval (.binary op ty e1 e2) s ↔
      (op ≠ .eqeq → op ≠ .ne →
        strippedUns (e1.Ety.tyuns || e2.Ety.tyuns) x y ≠ (e1.Ety.tyuns || e2.Ety.tyuns || z) →
          ∀ t s' v t' s'' w, M.eval x s = (t, some (s', v)) → M.eval y s' = (t', some (s'', w)) →
            sameSign x.Ety v w) := by
  obtain ⟨eop, ty1, ty2, n, rfl, rfl, hext⟩ := sameExt_eq_some he
  have hval {ty1 : Ty} {x : Elem} (h1 : Side (.unary eop ty1 x)) : Side x ∧ x.Ety.tysize = n ∧ ty1.tysize = 2 * n ∧
      ty1.tyintegral = true := by
    cases h1
    case ext hi hx hext' hs1 =>
      rw [hext] at hext'
      obtain ⟨-, rfl⟩ := Prod.mk.inj (Option.some.inj hext')
      exact ⟨hx, rfl, hs1, hi⟩
  obtain ⟨hx, hsx, hs1, hi1⟩ := hval h1
  obtain ⟨hy, hsy, hs2, hi2⟩ := hval h2
  have hn := Ty.tysize_cases hx.integral
  rw [hsx] at hn
  -- what is extended, with the types that are compared
  have hnew : M.eval (elcmpExt op ty (ty1.tyuns || ty2.tyuns) x y) s = (M.eval x s).bind fun s v =>
      (M.eval y s).bind fun s w => .pure s (ofBool (holds op (number (strippedUns (ty1.tyuns || ty2.tyuns) x y) (8 * n)
        v.toNat) (number (strippedUns (ty1.tyuns || ty2.tyuns) x y) (8 * n) w.toNat))) := by
    rw [elcmpExt, strippedUns]
    cases ty1.tyuns || ty2.tyuns
    case false =>
      simp only [Bool.false_eq_true, if_false]
      rw [eval_compare_sides h hx hy (hsx.trans hsy.symm), hsx]
    case true =>
      have hretype {x : Elem} (hx : Side x) : Side (x.setEty x.Ety.tybasic.touns) ∧
          Ty.tysize x.Ety.tybasic.touns = x.Ety.tysize := by
        have hsize : Ty.tysize x.Ety.tybasic.touns = x.Ety.tysize := tysize_touns _
        refine ⟨hx.setEty ?_ hsize, hsize⟩
        have hi := hx.integral
        rw [Ty.tyintegral] at hi ⊢
        revert hi
        cases x.Ety.tybasic <;> decide
      obtain ⟨hx', hsx'⟩ := hretype hx
      obtain ⟨hy', hsy'⟩ := hretype hy
      simp only [if_true]
      rw [eval_compare_sides h hx' hy' (by rw [Ety_setEty, Ety_setEty, hsx', hsy', hsx, hsy]), Ety_setEty, Ety_setEty,
        hsx', hsx, hx.eval_setEty hsx']
      refine Result.bind_congr fun t s v _ => ?_
      rw [hy.eval_setEty hsy']
      rfl
  have hold := @eval_compare_ext _ _ _ M s ty ty1 ty2 x y op z eop n h h1 h2 hs hext hx hy hsx hsy hs1
  rw [show (Elem.unary eop ty1 x).Ety = ty1 from rfl, show (Elem.unary eop ty2 y).Ety = ty2 from rfl, hnew, hold]
  simp only [Result.bind_eq_bind_iff, Result.pure_inj, ofBool_inj]
  have hsign {t t' : List E} {s s' s'' : σ} {v w : Value} (hv : M.eval x s = (t, some (s', v)))
      (hw : M.eval y s' = (t', some (s'', w))) {u u' : Bool} (hne : u ≠ u') :
      holds op (number u (8 * n) v.toNat) (number u (8 * n) w.toNat) =
        holds op (number u' (8 * n) v.toNat) (number u' (8 * n) w.toNat) ↔
          (op ≠ .eqeq → op ≠ .ne → sameSign x.Ety v w) := by
    have hv := hx.fits hv
    have hw := hy.fits hw
    rw [Fits, hsx] at hv
    rw [Fits, hsy] at hw
    rw [sameSign, hsx]
    exact holds_sign_iff h hne hv hw
  constructor
  case mp =>
    intro hall hop hop' hne t s' v t' s'' w hv hw
    exact (hsign hv hw hne).mp (hall t s' v hv t' s'' w hw) hop hop'
  case mpr =>
    intro hall t s' v hv t' s'' w hw
    by_cases hne : strippedUns (ty1.tyuns || ty2.tyuns) x y = (ty1.tyuns || ty2.tyuns || z)
    case pos => rw [hne]
    case neg => exact (hsign hv hw hne).mpr fun hop hop' => hall hop hop' hne t s' v t' s'' w hv hw

end extensions

section

variable [Target] {σ E : Type} {M : Machine σ E} {s : σ} {ty ty2 : Ty} {c2 : Value} {e1 e2 x y : Elem}
variable {op : BinaryOp} {optelem : Elem → Elem}

-- Whether `e1 > uint.max` becomes a comparison of the upper half of `e1` with zero.
def comparesUpper (op : BinaryOp) (e2 : Elem) : Bool :=
  match e2 with
  | .const ty2 c2 => Target.OPTIMIZER && !Target.I64 && op = .gt && ty2.tysize = 8 && c2 = 0xFFFFFFFF
  | _ => false

theorem elcmpConst_of_comparesUpper (h : comparesUpper op (.const ty2 c2) = true) (h1 : Side e1)
    (hs : e1.Ety.tysize = ty2.tysize) (hi : ty2.tyintegral = true) :
    op = .gt ∧ ty2.tysize = 8 ∧ c2 = 0xFFFFFFFF ∧ elcmpConst optelem op ty e1 ty2 c2 =
      some (optelem (.binary .ne ty (.unary .msw TYulong e1) (.const TYulong (setLow c2 0)))) := by
  have hc : (Target.OPTIMIZER && !Target.I64 && op = .gt && ty2.tysize = 8 && c2 = 0xFFFFFFFF) = true := h
  have hall := hc
  simp only [Bool.and_eq_true, decide_eq_true_eq] at hall
  obtain ⟨⟨⟨-, hop⟩, h8⟩, hmax⟩ := hall
  have h16 : fits16 e1 c2 = false := by
    rw [← Bool.not_eq_true]
    intro h16
    obtain ⟨eop, ty1, x, rfl, hext, -⟩ := fits16_spec h16
    cases h1
    case ext hi hx hext' hs1 =>
      rw [hext] at hext'
      have hx2 := (Prod.mk.inj (Option.some.inj hext')).2
      have hs1' : ty1.tysize = 8 := hs.trans h8
      omega
  have hmask : fitsMask e1 ty2 c2 = false := by
    rw [← Bool.not_eq_true]
    intro hf
    rw [fitsMask.eq_def] at hf
    split at hf
    case h_2 => cases hf
    case h_1 =>
      have hlt := toNat_lt_of_and_not (of_decide_eq_true (Bool.and_eq_true_iff.mp hf).1)
      have hv := trunc_eq_of_el_tolong hi rfl hlt
      rw [Ty.toNat_trunc, h8] at hv
      rw [← hv, hmax] at hlt
      exact absurd hlt (by decide)
  refine ⟨hop, h8, hmax, ?_⟩
  rw [elcmpConst.eq_def, h16, hmask, hi, Bool.true_or, Bool.not_true]
  simp only [Bool.and_false, Bool.false_eq_true, if_false]
  exact if_pos hc

theorem eval_elcmpConst (hopt : ∀ e s, M.eval (optelem e) s = M.eval e s) (h : op ∈ relational)
    (hu : comparesUpper op (.const ty2 c2) = false) (h1 : Side e1) (hs : e1.Ety.tysize = ty2.tysize)
    (hi : ty2.tyintegral = true) : ∃ e, elcmpConst optelem op ty e1 ty2 c2 = some e ∧
      ∀ s, M.eval e s = M.eval (.binary op ty e1 (.const ty2 c2)) s := by
  have hnarrow {eop conv : UnaryOp} {z : Bool} {n : Nat} {tys tyu : Tybasic} {ty1 : Ty} {x : Elem}
      (he : e1 = .unary eop ty1 x) (hext : extension eop = some (z, n)) (hz : isZeroExt e1 = z)
      (hc : c2.toNat % 2 ^ (8 * (2 * n)) = extended z (8 * n) (8 * (2 * n)) (c2.toNat % 2 ^ (8 * n)))
      (hconv : conv = .l32_16 ∨ conv = .w16_8) (hsu : tyu.tysize = n) (hss : tys.tysize = n)
      (huu : tyu.tyuns = true) (hus : tys.tyuns = false) (s : σ) :
      M.eval (.binary op ty (selectAs (if e1.Ety.tyuns || ty2.tyuns || isZeroExt e1 then tyu else tys) e1
        (operand e1)) (.unary conv ((if e1.Ety.tyuns || ty2.tyuns || isZeroExt e1 then tyu else tys : Tybasic) : Ty)
          (.const ty2 c2))) s = M.eval (.binary op ty e1 (.const ty2 c2)) s := by
    subst he
    rw [hz]
    cases h1
    case ext hi1 hx hext' hs1 =>
      rw [hext] at hext'
      obtain ⟨-, rfl⟩ := Prod.mk.inj (Option.some.inj hext')
      have hty1 : ty1.tysize = ty2.tysize := hs
      refine eval_narrowed h hx hext hs1 (hty1.symm.trans hs1) ?_ ?_ hconv hi1 hc
      · split <;> assumption
      · show _ = ((Elem.unary eop ty1 x).Ety.tyuns || ty2.tyuns || z)
        split
        case isTrue hu  => rw [huu, hu]
        case isFalse hu => rw [hus, Bool.eq_false_iff.mpr hu]
  rw [elcmpConst.eq_def]
  split
  case isTrue h16 =>
    obtain ⟨eop, ty1, x, he, hext, hc⟩ := fits16_spec (Bool.and_eq_true_iff.mp h16).2
    exact ⟨_, rfl, fun s => (hopt _ s).trans (hnarrow he hext rfl hc (.inl rfl) rfl rfl rfl rfl s)⟩
  split
  case isTrue hm =>
    rw [hi, Bool.true_or, Bool.not_true, Bool.and_false] at hm
    cases hm
  split
  case isTrue hm =>
    obtain ⟨hm, hf⟩ := Bool.and_eq_true_iff.mp hm
    have hsz : 1 < ty2.tysize := by
      rw [isMask.eq_def] at hm
      split at hm
      case h_1 => exact of_decide_eq_true (Bool.and_eq_true_iff.mp hm).2
      case h_2 => cases hm
    exact ⟨_, rfl, fun s => (hopt _ s).trans (eval_elcmpMask h h1 hs hi hsz hf)⟩
  rw [if_neg (show ¬(Target.OPTIMIZER && !Target.I64 && op = .gt && ty2.tysize = 8 && c2 = 0xFFFFFFFF) = true
    from Bool.eq_false_iff.mp hu)]
  split
  case isTrue h8 =>
    obtain ⟨eop, ty1, x, he, hext, hc⟩ := fits8_spec h8
    exact ⟨_, rfl, fun s => (hopt _ s).trans (hnarrow he hext rfl hc (.inr rfl) rfl rfl rfl rfl s)⟩
  split
  case isTrue hz =>
    have hz : (Elem.const ty2 c2).boolres = false := by
      rwa [Bool.not_eq_true'] at hz
    split
    case h_1 e he => exact ⟨_, rfl, fun s => (hopt e s).trans (eval_elcmpZero h h1 hs hi hz he)⟩
    case h_2      => exact ⟨_, rfl, fun _ => rfl⟩
  split
  case isTrue hc =>
    simp only [Bool.and_eq_true, Bool.or_eq_true, decide_eq_true_eq] at hc
    obtain ⟨⟨⟨⟨-, huns⟩, h2⟩, hc2⟩, hop⟩ := hc
    exact ⟨_, rfl, fun s => eval_compare_half hop h1 hs (Bool.or_eq_true_iff.mpr huns) h2 hc2⟩
  split
  case h_1 ty1 x ty12 c12 => exact ⟨_, rfl, fun s => (hopt _ s).trans (eval_compare_assigned h h1 hs)⟩
  case h_2 => exact ⟨_, rfl, fun _ => rfl⟩

end

section

variable [Target] {σ E : Type} {M : Machine σ E} {s : σ} {ty : Ty} {e1 e2 : Elem} {op : BinaryOp}
variable {optelem : Elem → Elem}

-- A bit is equal to one if it is one.
theorem eval_bit_eq_one (hone : isOne e2 = true) (hbit : isBit e1 = true) (h1 : Side e1) (h2 : Side e2)
    (hs : e1.Ety.tysize = e2.Ety.tysize) : M.eval (.binary .eqeq ty e1 e2) s = M.eval e1 s := by
  obtain ⟨ty2, c2, rfl, hc2⟩ := const_of_isOne hone
  have hs : e1.Ety.tysize = ty2.tysize := hs
  have hone : (ty2.trunc c2).toNat = 1 := trunc_eq_of_el_tolong h2.integral (congrArg BitVec.toNat hc2) (by decide)
  rw [eval_compare (by decide) h1 hs, ← Result.bind_pure (M.eval e1 s), Result.bind_assoc]
  refine Result.bind_congr fun _ s v hv => ?_
  have hle := (oneBit_of_isBit hbit h1).le _ _ _ _ hv
  have hfits := h1.fits hv
  have hlt1 : 1 < 2 ^ (8 * e1.Ety.tysize) := Nat.one_lt_two_pow (by have := Ty.size_pos h1.integral; omega)
  have heq (u : Bool) : holds .eqeq (number u (8 * e1.Ety.tysize) v.toNat) (number u (8 * e1.Ety.tysize) 1) =
      decide (v.toNat = 1) := decide_eq_decide.mpr (number_inj hfits hlt1)
  rw [Result.pure_bind, hone, heq]
  refine congrArg (Result.pure s) ?_
  obtain rfl | rfl : v = 0 ∨ v = 1 := by
    rw [← BitVec.toNat_inj, ← BitVec.toNat_inj]
    exact Nat.le_one_iff_eq_zero_or_eq_one.mp hle
  all_goals rfl

-- When a comparison keeps its meaning. What goes wrong: one bit is never converted to eight bytes, the upper half
-- of a negative number is not zero, and extensions are taken off operands that have other signs than them.
structure KeptByElcmp (M : Machine σ E) (s : σ) (op : BinaryOp) (ty : Ty) (e1 e2 : Elem) : Prop where
  ends     : ¬(Target.OPTIMIZER = true ∧ op = .eqeq ∧ isOne e2 = true ∧ isBit e1 = true ∧ ty.tysize = 8 ∧
    e1.Ety.tysize ≠ 8)
  positive : comparesUpper op e2 = true → (e1.Ety.tyuns || e2.Ety.tyuns) = false →
    ∀ t s' v, M.eval e1 s = (t, some (s', v)) → v.toNat < 2 ^ 63
  signs    : ∀ z x y, sameExt e1 e2 = some (z, x, y) → op ≠ .eqeq → op ≠ .ne →
    strippedUns (e1.Ety.tyuns || e2.Ety.tyuns) x y ≠ (e1.Ety.tyuns || e2.Ety.tyuns || z) →
      ∀ t s' v t' s'' w, M.eval x s = (t, some (s', v)) → M.eval y s' = (t', some (s'', w)) → sameSign x.Ety v w

-- Comparisons are simplified as they should be exactly if they are ones that `KeptByElcmp` tells.
theorem elcmp_iff (hopt : ∀ e s, M.eval (optelem e) s = M.eval e s) (h : op ∈ relational) (h1 : Side e1)
    (h2 : Side e2) (hs : e1.Ety.tysize = e2.Ety.tysize) (ht : ty.tyintegral = true) :
    (∃ e, elcmp optelem op ty e1 e2 = some e ∧ M.eval e s = M.eval (.binary op ty e1 e2) s) ↔
      KeptByElcmp M s op ty e1 e2 := by
  have hexists {o : Option Elem} {e : Elem} {p : Elem → Prop} (ho : o = some e) : (∃ e, o = some e ∧ p e) ↔ p e := by
    constructor
    case mp =>
      rintro ⟨e', he, hp⟩
      rw [ho] at he
      exact Option.some.inj he ▸ hp
    case mpr => exact fun hp => ⟨e, ho, hp⟩
  by_cases hbit : (Target.OPTIMIZER && op = .eqeq && isOne e2 && isBit e1) = true
  case pos =>
    have helcmp : elcmp optelem op ty e1 e2 = (toSize ty.tysize 3 e1).map fun e => optelem (e.setEty ty) := by
      rw [elcmp.eq_def]
      exact if_pos hbit
    simp only [Bool.and_eq_true, decide_eq_true_eq] at hbit
    obtain ⟨⟨⟨hO, rfl⟩, hone⟩, hbit⟩ := hbit
    have hsize1 := Ty.tysize_cases h1.integral
    constructor
    case mp =>
      rintro ⟨e, he, -⟩
      refine ⟨?ends, ?positive, fun _ _ _ _ hne => absurd rfl hne⟩
      case ends =>
        rintro ⟨-, -, -, -, h8, hne⟩
        rw [helcmp, h8, toSize_eq_none (by omega)] at he
        cases he
      case positive =>
        intro hu
        obtain ⟨ty2, c2, rfl, -⟩ := const_of_isOne hone
        exact absurd (@elcmpConst_of_comparesUpper _ ty ty2 c2 e1 _ optelem hu h1 hs h2.integral).1 (by decide)
    case mpr =>
      intro hkept
      have hne : ty.tysize = 8 → e1.Ety.tysize = 8 := fun h8 =>
        not_not.mp fun hne => hkept.ends ⟨hO, rfl, hone, hbit, h8, hne⟩
      obtain ⟨e', he'⟩ := exists_toSize hsize1 (Ty.tysize_cases ht) hne
      obtain ⟨hbit', hsz, heval⟩ := (oneBit_of_isBit (M := M) hbit h1).toSize he'
      refine ⟨optelem (e'.setEty ty), by rw [helcmp, he']; rfl, ?_⟩
      rw [hopt, hbit'.retype ty hsz.symm, heval, eval_bit_eq_one hone hbit h1 h2 hs]
  case neg =>
    have hends : ¬(Target.OPTIMIZER = true ∧ op = .eqeq ∧ isOne e2 = true ∧ isBit e1 = true ∧ ty.tysize = 8 ∧
        e1.Ety.tysize ≠ 8) := by
      rintro ⟨hO, hop, hone, hb, -, -⟩
      exact hbit (by rw [hO, hone, hb, decide_eq_true hop]; rfl)
    by_cases hconst : ∃ ty2 c2, e2 = .const ty2 c2
    case pos =>
      obtain ⟨ty2, c2, rfl⟩ := hconst
      have helcmp : elcmp optelem op ty e1 (.const ty2 c2) = elcmpConst optelem op ty e1 ty2 c2 := by
        rw [elcmp.eq_def]
        exact if_neg hbit
      have hsame (z : Bool) (x y : Elem) (he : sameExt e1 (.const ty2 c2) = some (z, x, y)) : False := by
        obtain ⟨_, _, _, _, -, he2, -⟩ := sameExt_eq_some he
        cases he2
      rw [helcmp]
      cases hu : comparesUpper op (.const ty2 c2)
      case true =>
        obtain ⟨rfl, h8, rfl, hnew⟩ := @elcmpConst_of_comparesUpper _ ty ty2 _ e1 op optelem hu h1 hs h2.integral
        rw [hexists hnew, hopt, eval_compare_max h1 (hs.trans h8) h8]
        constructor
        case mp =>
          refine fun hpos => ⟨hends, fun _ huns t s' v hv => ?_, fun z x y he => (hsame z x y he).elim⟩
          exact (hpos t s' v hv).resolve_left (Bool.eq_false_iff.mp huns)
        case mpr =>
          intro hkept t s' v hv
          cases huns : e1.Ety.tyuns || ty2.tyuns
          case true  => exact .inl rfl
          case false => exact .inr (hkept.positive hu huns t s' v hv)
      case false =>
        obtain ⟨e, he, heval⟩ := eval_elcmpConst hopt h hu h1 hs h2.integral
        refine iff_of_true ⟨e, he, heval s⟩ ⟨hends, fun ht => ?_, fun z x y he => (hsame z x y he).elim⟩
        exact absurd (hu.symm.trans ht) Bool.false_ne_true
    case neg =>
      have hu : comparesUpper op e2 = false := by
        rw [comparesUpper.eq_def]
        split
        case h_1 ty2 c2 => exact absurd ⟨ty2, c2, rfl⟩ hconst
        case h_2        => rfl
      have hpos : comparesUpper op e2 = true → (e1.Ety.tyuns || e2.Ety.tyuns) = false →
          ∀ t s' v, M.eval e1 s = (t, some (s', v)) → v.toNat < 2 ^ 63 :=
        fun ht => absurd (hu.symm.trans ht) Bool.false_ne_true
      cases hse : sameExt e1 e2
      case none =>
        rw [hexists (elcmp_of_sameExt_none hse fun ty v he => hconst ⟨ty, v, he⟩)]
        refine iff_of_true rfl ⟨hends, hpos, fun z x y he => ?_⟩
        rw [hse] at he
        cases he
      case some zxy =>
        obtain ⟨z, x, y⟩ := zxy
        rw [hexists (elcmp_of_sameExt hse), hopt, eval_elcmpExt_iff h h1 h2 hs hse]
        constructor
        case mp =>
          intro hsign
          refine ⟨hends, hpos, fun z' x' y' he => ?_⟩
          rw [hse] at he
          obtain ⟨rfl, rfl, rfl⟩ := Option.some.inj he
          exact hsign
        case mpr => exact fun hkept => hkept.signs z x y hse

end

section

-- A target with registers of 4 bytes, and one with registers of 8 bytes.
@[reducible]
def I32 : Target where
  I64       := false
  OPTIMIZER := true
  AArch64   := false

@[reducible]
def I64 : Target where
  I64       := true
  OPTIMIZER := true
  AArch64   := false

-- A machine with one variable
def oneVariable : Machine Value Empty where
  address      := fun _ _ => 0
  read         := fun _ _ s => s
  write        := fun _ _ v _ => .pure v ()
  leaf         := fun _ _ _ => 0
  unary        := fun _ _ _ _ _ => 0
  binary       := fun _ _ _ _ _ _ _ => 0
  leafEffect   := fun _ _ s => .pure s 0
  unaryEffect  := fun _ _ _ _ s => .pure s 0
  binaryEffect := fun _ _ _ _ _ _ s => .pure s 0

-- A variable of a type
def variableOf (ty : Tybasic) : Elem :=
  .var ty { id := 0 } 0

-- A byte that is extended by zeros, and compared with 200
theorem elcmp_byte : ∃ e,
    @elcmp I64 id .lt TYint (.unary .u8_16 TYshort (variableOf TYuchar)) (.const TYshort 200) = some e ∧
      @Machine.eval I64 _ _ oneVariable e 7 = @Machine.eval I64 _ _ oneVariable
        (.binary .lt TYint (.unary .u8_16 TYshort (variableOf TYuchar)) (.const TYshort 200)) 7 := by
  let _ := I64
  have h1 : Side (.unary .u8_16 TYshort (variableOf TYuchar)) := Side.ext (.var rfl) rfl rfl rfl
  have h2 : Side (.const TYshort 200) := .const rfl
  refine (elcmp_iff (fun _ _ => rfl) (by decide) h1 h2 rfl rfl).mpr ⟨?_, fun hu => ?_, fun z x y he => ?_⟩
  · rintro ⟨-, hop, -⟩
    cases hop
  · cases hu
  · cases he

-- -1 is not more than 0xFFFFFFFF, but its upper half is not zero.
theorem elcmp_negative : ∃ e,
    @elcmp I32 id .gt TYint (variableOf TYllong) (.const TYllong 0xFFFFFFFF) = some e ∧
      @Machine.eval I32 _ _ oneVariable e (-1) = .pure (-1) 1 ∧
      @Machine.eval I32 _ _ oneVariable (.binary .gt TYint (variableOf TYllong) (.const TYllong 0xFFFFFFFF)) (-1) =
        .pure (-1) 0 := by
  exact ⟨_, rfl, rfl, rfl⟩

end

end Compiler.Backend.Cgelem
