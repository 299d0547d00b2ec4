import DmdModel.Compiler.Backend.Cgelem.BitField
import DmdModel.Compiler.Backend.Cgelem.Theorems.Compare

namespace Compiler.Backend.Cgelem

open Machine Tybasic

section bits

variable [Target] {ty t : Ty} {u v m : Value} {wb i : Nat}

theorem getLsbD_trunc : (ty.trunc v).getLsbD i = (decide (i < 8 * ty.tysize) && v.getLsbD i) := by
  rw [Ty.trunc, LowBits.low, BitVec.getLsbD_setWidth, BitVec.getLsbD_setWidth]
  by_cases hi : i < 64
  case pos => rw [decide_eq_true hi, Bool.true_and]
  case neg => rw [BitVec.getLsbD_of_ge v i (by omega), Bool.and_false, Bool.and_false]

omit [Target] in
theorem mask_eq {w : Nat} (h : w ≤ 64) : mask w = (BitVec.allOnes w).setWidth 64 := by
  rw [mask, ← BitVec.toNat_inj, BitVec.toNat_setWidth, BitVec.toNat_allOnes]
  split
  case isTrue h64 =>
    rw [h64]
    rfl
  case isFalse h64 =>
    have hpow : 2 ^ w ≤ 2 ^ 63 := Nat.pow_le_pow_right (by decide) (by omega)
    have hpos := Nat.two_pow_pos w
    rw [BitVec.toNat_sub, BitVec.toNat_shiftLeft, show (1 : Value).toNat = 1 from rfl, Nat.one_shiftLeft,
      Nat.mod_eq_of_lt (show 2 ^ w < 2 ^ 64 by omega)]
    omega

omit [Target] in
theorem getLsbD_mask {w : Nat} (h : w ≤ 64) : (mask w).getLsbD i = decide (i < w) := by
  rw [mask_eq h, BitVec.getLsbD_setWidth, BitVec.getLsbD_allOnes]
  by_cases hi : i < w
  case pos => rw [decide_eq_true hi, decide_eq_true (Nat.lt_of_lt_of_le hi h)]; rfl
  case neg => rw [decide_eq_false hi, Bool.and_false]

omit [Target] in
theorem getLsbD_getField : (getField wb u).getLsbD i = (decide (i < width wb) && u.getLsbD (rightOf wb + i)) := by
  rw [getField, BitVec.getLsbD_extractLsb']

omit [Target] in
theorem getLsbD_setField {f : BitVec (width wb)} (hi : i < 64) : (setField wb u f).getLsbD i =
    if rightOf wb ≤ i ∧ i < rightOf wb + width wb then f.getLsbD (i - rightOf wb) else u.getLsbD i := by
  simp only [setField, BitVec.getLsbD_or, BitVec.getLsbD_and, BitVec.getLsbD_not, BitVec.getLsbD_shiftLeft,
    BitVec.getLsbD_setWidth, BitVec.getLsbD_allOnes, hi, decide_true, Bool.true_and]
  by_cases hb : rightOf wb ≤ i
  case neg =>
    rw [if_neg (fun h => hb h.1), decide_eq_true (Nat.lt_of_not_le hb)]
    simp
  case pos =>
    rw [decide_eq_false (Nat.not_lt.mpr hb)]
    by_cases hw : i - rightOf wb < width wb
    case pos =>
      rw [if_pos ⟨hb, by omega⟩]
      simp [hw, show i - rightOf wb < 64 by omega]
    case neg =>
      rw [if_neg (by omega), BitVec.getLsbD_of_ge f _ (by omega)]
      simp [hw]

-- The unit with the new contents of the field, as it is put together from both.
theorem setField_eq {w : Value} (ht : t.tysize = ty.tysize) (h8 : ty.tysize ≤ 8)
    (hwb : width wb + rightOf wb ≤ 8 * ty.tysize)
    (hm : m = mask (width wb) ∨ m = -1 ∧ width wb + rightOf wb = 8 * ty.tysize) :
    t.trunc (t.trunc (t.trunc (w &&& t.trunc m) <<< rightOf wb) |||
      t.trunc (ty.trunc u &&& t.trunc (~~~(mask (width wb) <<< rightOf wb)))) =
        setField wb (ty.trunc u) (w.setWidth (width wb)) := by
  refine BitVec.eq_of_getLsbD_eq fun i hi => ?_
  have hw : width wb ≤ 64 := by omega
  rw [getLsbD_setField hi]
  simp only [getLsbD_trunc, BitVec.getLsbD_or, BitVec.getLsbD_and, BitVec.getLsbD_shiftLeft, BitVec.getLsbD_not,
    getLsbD_mask hw, BitVec.getLsbD_setWidth, ht, hi, decide_true, Bool.true_and]
  by_cases hn : i < 8 * ty.tysize
  case neg =>
    rw [decide_eq_false hn, if_neg (by omega)]
    simp only [Bool.false_and]
  case pos =>
    by_cases hb : rightOf wb ≤ i
    case neg =>
      rw [if_neg (fun h => hb h.1), decide_eq_true (Nat.lt_of_not_le hb)]
      simp [hn]
    case pos =>
      have hsub : i - rightOf wb < 8 * ty.tysize := by omega
      rw [decide_eq_false (Nat.not_lt.mpr hb)]
      by_cases hlt : i - rightOf wb < width wb
      case pos =>
        have hbit : m.getLsbD (i - rightOf wb) = true := by
          obtain rfl | ⟨rfl, -⟩ := hm
          case inl => rw [getLsbD_mask hw, decide_eq_true hlt]
          case inr =>
            rw [show (-1 : Value) = BitVec.allOnes 64 from rfl, BitVec.getLsbD_allOnes]
            exact decide_eq_true (by omega)
        rw [if_pos ⟨hb, by omega⟩]
        simp [hn, hlt, hbit, hsub]
      case neg =>
        have hbit : m.getLsbD (i - rightOf wb) = false := by
          obtain rfl | ⟨-, hjust⟩ := hm
          case inl => rw [getLsbD_mask hw, decide_eq_false hlt]
          case inr => omega
        rw [if_neg (by omega)]
        simp [hn, hlt, hbit]

-- An unsigned field is what is behind the shift, masked if there is more.
theorem unsigned_eq (ht : t.tysize = ty.tysize) (h8 : ty.tysize ≤ 8) (hwb : width wb + rightOf wb ≤ 8 * ty.tysize)
    (hm : m = mask (width wb) ∨ m = -1 ∧ width wb + rightOf wb = 8 * ty.tysize) :
    t.trunc (t.trunc (ty.trunc u >>> rightOf wb) &&& t.trunc m) = ty.trunc ((getField wb (ty.trunc u)).setWidth 64) := by
  refine BitVec.eq_of_getLsbD_eq fun i hi => ?_
  have hw : width wb ≤ 64 := by omega
  simp only [getLsbD_trunc, BitVec.getLsbD_and, BitVec.getLsbD_ushiftRight, BitVec.getLsbD_setWidth, getLsbD_getField,
    ht, hi, decide_true, Bool.true_and]
  by_cases hn : i < 8 * ty.tysize
  case neg => simp [hn]
  case pos =>
    by_cases hlt : i < width wb
    case pos =>
      have hbit : m.getLsbD i = true := by
        obtain rfl | ⟨rfl, -⟩ := hm
        case inl => rw [getLsbD_mask hw, decide_eq_true hlt]
        case inr =>
          rw [show (-1 : Value) = BitVec.allOnes 64 from rfl, BitVec.getLsbD_allOnes]
          exact decide_eq_true hi
      simp [hn, hlt, hbit]
    case neg =>
      have hbit : m.getLsbD i = false ∨ ¬rightOf wb + i < 8 * ty.tysize := by
        obtain rfl | ⟨-, hjust⟩ := hm
        case inl => exact .inl (by rw [getLsbD_mask hw, decide_eq_false hlt])
        case inr => exact .inr (by omega)
      obtain hbit | hbit := hbit <;> simp [hn, hlt, hbit]

theorem getLsbD_extend (hpos : 0 < ty.tysize) (h8 : ty.tysize ≤ 8) (hi : i < 64) : (extend ty v).getLsbD i =
    if i < 8 * ty.tysize then v.getLsbD i else v.getLsbD (8 * ty.tysize - 1) := by
  rw [extend, BitVec.getLsbD_signExtend, decide_eq_true hi, Bool.true_and]
  split
  case isTrue hn  => rw [BitVec.getLsbD_setWidth, decide_eq_true hn, Bool.true_and]
  case isFalse hn =>
    rw [BitVec.msb_eq_getLsbD_last, BitVec.getLsbD_setWidth, decide_eq_true (by omega), Bool.true_and]

-- The sign of a field is copied by the shifts to the left end and back.
theorem signed_eq {b w : Nat} (h8 : ty.tysize ≤ 8) (hpos : 0 < w) (hwb : w + b ≤ 8 * ty.tysize) :
    ty.trunc ((extend ty (ty.trunc (v <<< (8 * ty.tysize - (w + b))))).sshiftRight (8 * ty.tysize - w)) =
      ty.trunc ((v.extractLsb' b w).signExtend 64) := by
  refine BitVec.eq_of_getLsbD_eq fun i hi => ?_
  have hmsb (x : BitVec 64) : (extend ty x).msb = x.getLsbD (8 * ty.tysize - 1) := by
    rw [BitVec.msb_eq_getLsbD_last, getLsbD_extend (by omega) h8 (by decide)]
    split
    case isTrue hn  => rw [show 8 * ty.tysize - 1 = 64 - 1 by omega]
    case isFalse    => rfl
  -- the bits above those of the field are all the last one of it
  have hlast : (if 8 * ty.tysize - w + i < 64 then
      (extend ty (ty.trunc (v <<< (8 * ty.tysize - (w + b))))).getLsbD (8 * ty.tysize - w + i)
        else (extend ty (ty.trunc (v <<< (8 * ty.tysize - (w + b))))).msb) =
      if i < w then v.getLsbD (b + i) else v.getLsbD (b + (w - 1)) := by
    have hy (j : Nat) (hj : 8 * ty.tysize - (w + b) ≤ j) (hjn : j < 8 * ty.tysize) :
        (ty.trunc (v <<< (8 * ty.tysize - (w + b)))).getLsbD j = v.getLsbD (j - (8 * ty.tysize - (w + b))) := by
      rw [getLsbD_trunc, BitVec.getLsbD_shiftLeft, decide_eq_true hjn, decide_eq_true (show j < 64 by omega),
        decide_eq_false (Nat.not_lt.mpr hj)]
      rfl
    have htop : v.getLsbD (8 * ty.tysize - 1 - (8 * ty.tysize - (w + b))) = v.getLsbD (b + (w - 1)) := by
      rw [show 8 * ty.tysize - 1 - (8 * ty.tysize - (w + b)) = b + (w - 1) by omega]
    rw [hmsb, hy _ (by omega) (by omega), htop]
    by_cases hiw : i < w
    case pos =>
      rw [if_pos (by omega), if_pos hiw, getLsbD_extend (by omega) h8 (by omega), if_pos (by omega),
        hy _ (by omega) (by omega), show 8 * ty.tysize - w + i - (8 * ty.tysize - (w + b)) = b + i by omega]
    case neg =>
      rw [if_neg hiw]
      split
      case isFalse     => rfl
      case isTrue hlt =>
        rw [getLsbD_extend (by omega) h8 hlt, if_neg (by omega), hy _ (by omega) (by omega), htop]
  rw [getLsbD_trunc, getLsbD_trunc, BitVec.getLsbD_sshiftRight, hlast, BitVec.getLsbD_signExtend,
    BitVec.msb_eq_getLsbD_last, BitVec.getLsbD_extractLsb', BitVec.getLsbD_extractLsb', decide_eq_true hi,
    decide_eq_false (Nat.not_le.mpr hi), decide_eq_true (show w - 1 < w by omega)]
  by_cases hiw : i < w <;> simp [hiw]

theorem shifted_eq {b w : Nat} (h8 : ty.tysize ≤ 8) (hwb : w + b ≤ 8 * ty.tysize) :
    ty.trunc (ty.trunc (v <<< (8 * ty.tysize - (w + b))) >>> (8 * ty.tysize - w)) =
      ty.trunc ((v.extractLsb' b w).setWidth 64) := by
  refine BitVec.eq_of_getLsbD_eq fun i hi => ?_
  simp only [getLsbD_trunc, BitVec.getLsbD_ushiftRight, BitVec.getLsbD_shiftLeft, BitVec.getLsbD_setWidth,
    BitVec.getLsbD_extractLsb', hi, decide_true, Bool.true_and]
  by_cases hiw : i < w
  case pos =>
    rw [decide_eq_true hiw, decide_eq_true (show 8 * ty.tysize - w + i < 8 * ty.tysize by omega),
      decide_eq_true (show 8 * ty.tysize - w + i < 64 by omega),
      decide_eq_false (show ¬8 * ty.tysize - w + i < 8 * ty.tysize - (w + b) by omega),
      show 8 * ty.tysize - w + i - (8 * ty.tysize - (w + b)) = b + i by omega]
    rfl
  case neg =>
    rw [decide_eq_false hiw, decide_eq_false (show ¬8 * ty.tysize - w + i < 8 * ty.tysize by omega)]
    simp only [Bool.false_and]

theorem masked_eq {w : Nat} (ht : t.tysize = ty.tysize) (hw : w ≤ 64) :
    t.trunc (v &&& t.trunc (mask w)) = ty.trunc ((v.setWidth w).setWidth 64) := by
  refine BitVec.eq_of_getLsbD_eq fun i hi => ?_
  simp only [getLsbD_trunc, BitVec.getLsbD_and, BitVec.getLsbD_setWidth, getLsbD_mask hw, ht, hi, decide_true,
    Bool.true_and]
  cases decide (i < 8 * ty.tysize) <;> cases decide (i < w) <;> simp

omit [Target] in
theorem extractLsb'_zero {w : Nat} : v.extractLsb' 0 w = v.setWidth w := by
  refine BitVec.eq_of_getLsbD_eq fun i hi => ?_
  rw [BitVec.getLsbD_extractLsb', BitVec.getLsbD_setWidth, Nat.zero_add]

theorem setWidth_trunc {n : Nat} (h : n ≤ 8 * ty.tysize) : (ty.trunc v).setWidth n = v.setWidth n := by
  refine BitVec.eq_of_getLsbD_eq fun i hi => ?_
  rw [BitVec.getLsbD_setWidth, BitVec.getLsbD_setWidth, getLsbD_trunc, decide_eq_true (show i < 8 * ty.tysize by omega),
    Bool.true_and]

-- A field of one byte at the right end
theorem byte_eq (hw : width wb = 8) (hb : rightOf wb = 0) : Ty.trunc TYuchar v = (getField wb v).setWidth 64 ∧
    extend TYschar (Ty.trunc TYschar v) = (getField wb v).signExtend 64 := by
  constructor
  case left =>
    refine BitVec.eq_of_getLsbD_eq fun i hi => ?_
    rw [getLsbD_trunc, BitVec.getLsbD_setWidth, getLsbD_getField, hw, hb, decide_eq_true hi, Nat.zero_add]
    rfl
  case right =>
    have hbits (i : Nat) : (Ty.trunc TYschar v).getLsbD i = (decide (i < 8) && v.getLsbD i) := getLsbD_trunc
    refine BitVec.eq_of_getLsbD_eq fun i hi => ?_
    rw [getLsbD_extend (Nat.le_of_ble_eq_true rfl) (Nat.le_of_ble_eq_true rfl) hi, BitVec.getLsbD_signExtend,
      BitVec.msb_eq_getLsbD_last, getLsbD_getField, getLsbD_getField, hbits, hbits, hw, hb, decide_eq_true hi,
      Nat.zero_add, Nat.zero_add, Bool.true_and]
    rfl

end bits

section reads

variable [Target] {σ E : Type} {M : Machine σ E} {s s' : σ} {ty : Ty} {e1 : Elem} {u v w : Value} {wb : Nat}

-- The constants of shifts
theorem eval_shift {n : Nat} (h : n < 2 ^ 32) : M.eval (el_long TYint (BitVec.ofNat 64 n)) s = .pure s (BitVec.ofNat 64 n) ∧
    (BitVec.ofNat 64 n).toNat = n := by
  have hn : (BitVec.ofNat 64 n).toNat = n := by
    rw [BitVec.toNat_ofNat]
    omega
  have hfits : (BitVec.ofNat 64 n : Value).toNat < 2 ^ (8 * Ty.tysize TYint) := by
    rw [hn]
    exact h
  exact ⟨by rw [el_long, eval_const, Ty.trunc_eq_self_iff.mpr hfits], hn⟩

theorem eval_shl {n : Nat} (h : n < 2 ^ 32) (he : M.eval e1 s = .pure s' v) :
    M.eval (.binary .shl ty e1 (el_long TYint (BitVec.ofNat 64 n))) s = .pure s' (ty.trunc (v <<< n)) := by
  obtain ⟨heval, hn⟩ := @eval_shift _ _ _ M s' n h
  rw [eval_arithmetic (by decide), he, Result.pure_bind, heval, Result.pure_bind]
  show Result.pure s' (ty.trunc (v <<< (BitVec.ofNat 64 n).toNat)) = _
  rw [hn]

theorem eval_shr {n : Nat} (h : n < 2 ^ 32) (he : M.eval e1 s = .pure s' v) :
    M.eval (.binary .shr ty e1 (el_long TYint (BitVec.ofNat 64 n))) s = .pure s' (ty.trunc (v >>> n)) := by
  obtain ⟨heval, hn⟩ := @eval_shift _ _ _ M s' n h
  rw [eval_arithmetic (by decide), he, Result.pure_bind, heval, Result.pure_bind]
  show Result.pure s' (ty.trunc (v >>> (BitVec.ofNat 64 n).toNat)) = _
  rw [hn]

theorem eval_ashr {n : Nat} (h : n < 2 ^ 32) (he : M.eval e1 s = .pure s' v) :
    M.eval (.binary .ashr ty e1 (el_long TYint (BitVec.ofNat 64 n))) s =
      .pure s' (ty.trunc ((extend e1.Ety v).sshiftRight n)) := by
  obtain ⟨heval, hn⟩ := @eval_shift _ _ _ M s' n h
  rw [eval_arithmetic (by decide), he, Result.pure_bind, heval, Result.pure_bind]
  show Result.pure s' (ty.trunc ((extend e1.Ety v).sshiftRight (BitVec.ofNat 64 n).toNat)) = _
  rw [hn]

theorem eval_and {m : Value} {tym : Ty} (he : M.eval e1 s = .pure s' v) :
    M.eval (.binary .and ty e1 (el_long tym m)) s = .pure s' (ty.trunc (v &&& tym.trunc m)) := by
  rw [eval_arithmetic (by decide), he, Result.pure_bind, el_long, eval_const, Result.pure_bind]
  rfl

theorem Ety_elbit : (elbit ty e1 wb).Ety = ty := by
  rw [elbit]
  split_ifs <;> rfl

-- A field is read.
theorem eval_elbit (hi : e1.Ety.tyintegral = true) (ht : ty.tysize = e1.Ety.tysize) (hpos : 0 < width wb)
    (hwb : width wb + rightOf wb ≤ 8 * e1.Ety.tysize) (he : M.eval e1 s = .pure s' (e1.Ety.trunc u)) :
    M.eval (elbit ty e1 wb) s = .pure s' (fieldValue e1.Ety (getField wb (e1.Ety.trunc u))) := by
  have hsize := Ty.tysize_cases hi
  have h8 : e1.Ety.tysize ≤ 8 := by omega
  have hw : wb / 256 % 256 = width wb := Nat.mod_eq_of_lt (show width wb < 256 by omega)
  have hones : ty.trunc (-1) = ty.trunc (BitVec.allOnes 64) := rfl
  have hall (x : Value) : ty.trunc (e1.Ety.trunc x &&& ty.trunc (-1)) = e1.Ety.trunc x := by
    refine BitVec.eq_of_getLsbD_eq fun i hi => ?_
    rw [hones]
    simp only [getLsbD_trunc, BitVec.getLsbD_and, BitVec.getLsbD_allOnes, hi, decide_true, ht]
    cases decide (i < 8 * e1.Ety.tysize) <;> simp
  rw [elbit, hw, fieldValue, show wb % 256 = rightOf wb from rfl]
  cases hu : e1.Ety.tyuns
  case true =>
    simp only [if_true, Bool.true_or]
    split
    case isTrue hbyte =>
      obtain ⟨hw8, -, hb⟩ := hbyte
      rw [eval_unary rfl, eval_unary rfl, he, Result.pure_bind, Result.pure_bind]
      refine congrArg (Result.pure s') ?_
      show ty.trunc (Ty.trunc TYuchar (e1.Ety.trunc u)) = _
      rw [(byte_eq hw8 hb).1, Ty.trunc_congr ht]
    case isFalse =>
      have hm : (if width wb + rightOf wb = 8 * e1.Ety.tysize then -1 else mask (width wb)) = mask (width wb) ∨
          (if width wb + rightOf wb = 8 * e1.Ety.tysize then -1 else mask (width wb)) = -1 ∧
            width wb + rightOf wb = 8 * e1.Ety.tysize := by
        split
        case isTrue h  => exact .inr ⟨rfl, h⟩
        case isFalse h => exact .inl rfl
      have hshl := @eval_shl _ _ _ M s s' e1.Ety e1 (e1.Ety.trunc u) 0 (by decide) he
      rw [BitVec.shiftLeft_zero, Ty.trunc_trunc] at hshl
      rw [eval_and (eval_shr (by omega : rightOf wb < 2 ^ 32) hshl)]
      refine congrArg (Result.pure s') ?_
      rw [← unsigned_eq ht h8 hwb hm, Ty.trunc_congr ht.symm]
  case false =>
    have hshl := @eval_shl _ _ _ M s s' e1.Ety e1 (e1.Ety.trunc u) (8 * e1.Ety.tysize - (width wb + rightOf wb))
      (by omega) he
    simp only [Bool.false_eq_true, if_false, Bool.false_or, decide_eq_true_eq]
    split
    case isTrue hbyte =>
      obtain ⟨hw8, h16, hb⟩ := hbyte
      have hne : ¬e1.Ety.tybasic = TYbool := by
        intro hbool
        rw [Ty.tysize, hbool] at h16
        cases h16
      rw [eval_unary rfl, eval_unary rfl, he, Result.pure_bind, Result.pure_bind, if_neg hne]
      refine congrArg (Result.pure s') ?_
      show ty.trunc (extend TYschar (Ty.trunc TYschar (e1.Ety.trunc u))) = _
      rw [(byte_eq hw8 hb).2, Ty.trunc_congr ht]
    case isFalse =>
      by_cases hbool : e1.Ety.tybasic = TYbool
      case pos =>
        rw [if_pos hbool, if_pos hbool, eval_and (eval_shr (by omega) hshl), hall, shifted_eq h8 hwb]
        rfl
      case neg =>
        rw [if_neg hbool, if_neg hbool, eval_and (eval_ashr (by omega) hshl),
          show (Elem.binary BinaryOp.shl e1.Ety e1 _).Ety = e1.Ety from rfl, hall, signed_eq h8 hpos hwb]
        rfl

end reads

end Compiler.Backend.Cgelem
