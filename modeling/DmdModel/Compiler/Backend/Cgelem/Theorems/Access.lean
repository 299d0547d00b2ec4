import DmdModel.Compiler.Backend.Cgelem.Theorems.BitFieldAccess

namespace Compiler.Backend.Cgelem

open Machine Tybasic Plain

section fields

variable [Target] {ty t : Ty} {u v w x y : Value} {wb n : Nat} {f g : BitVec n}

omit [Target] in
theorem getField_setField {f : BitVec (width wb)} (h : width wb + rightOf wb ≤ 64) : getField wb (setField wb u f) = f := by
  refine BitVec.eq_of_getLsbD_eq fun i hi => ?_
  rw [getLsbD_getField, getLsbD_setField (by omega), decide_eq_true hi, if_pos (by omega), Nat.add_sub_cancel_left]
  rfl

theorem trunc_setField {f : BitVec (width wb)} (h : width wb + rightOf wb ≤ 8 * ty.tysize) :
    ty.trunc (setField wb (ty.trunc u) f) = setField wb (ty.trunc u) f := by
  refine BitVec.eq_of_getLsbD_eq fun i hi => ?_
  rw [getLsbD_trunc, getLsbD_setField hi, getLsbD_trunc]
  by_cases hlt : i < 8 * ty.tysize
  case pos => rw [decide_eq_true hlt, Bool.true_and, Bool.true_and]
  case neg => rw [decide_eq_false hlt, Bool.false_and, Bool.false_and, if_neg (by omega)]

-- The value of a field has its contents in its lowest bits.
theorem setWidth_fieldValue (h : n ≤ 8 * ty.tysize) (h64 : n ≤ 64) : (fieldValue ty f).setWidth n = f := by
  rw [fieldValue, setWidth_trunc h]
  refine BitVec.eq_of_getLsbD_eq fun i hi => ?_
  rw [BitVec.getLsbD_setWidth, decide_eq_true hi, Bool.true_and]
  split
  · rw [BitVec.getLsbD_setWidth, decide_eq_true (by omega), Bool.true_and]
  · rw [BitVec.getLsbD_signExtend, decide_eq_true (by omega), Bool.true_and, if_pos hi]

theorem setWidth_shown (h : n ≤ 8 * ty.tysize) (h64 : n ≤ 64) : (shown ty f).setWidth n = f := by
  rw [shown, setWidth_trunc h]
  refine BitVec.eq_of_getLsbD_eq fun i hi => ?_
  rw [BitVec.getLsbD_setWidth, decide_eq_true hi, Bool.true_and]
  split
  · rw [BitVec.getLsbD_setWidth, decide_eq_true (by omega), Bool.true_and]
  · rw [BitVec.getLsbD_signExtend, decide_eq_true (by omega), Bool.true_and, if_pos hi]

-- What an assignment yields is extended by the sign in units of type bool, too.
def Unsigned (ty : Ty) (f : BitVec n) : Prop :=
  ty.tybasic = TYbool → n = 8 ∨ f.msb = false

theorem shown_eq_iff (h : n ≤ 8 * ty.tysize) (h64 : n ≤ 64) : shown ty g = fieldValue ty f ↔ g = f ∧ Unsigned ty f := by
  have hgf (heq : shown ty g = fieldValue ty f) : g = f := by
    rw [← @setWidth_shown _ ty n g h h64, heq, setWidth_fieldValue h h64]
  suffices hsame : shown ty f = fieldValue ty f ↔ Unsigned ty f by
    constructor
    case mp =>
      intro heq
      obtain rfl := hgf heq
      exact ⟨rfl, hsame.mp heq⟩
    case mpr =>
      rintro ⟨rfl, hu⟩
      exact hsame.mpr hu
  rw [shown, fieldValue, Unsigned]
  by_cases hbool : ty.tybasic = TYbool
  case neg =>
    rw [decide_eq_false hbool, Bool.or_false]
    exact iff_of_true rfl fun hb => absurd hb hbool
  case pos =>
    have hsize : ty.tysize = 1 := by
      rw [Ty.tysize, hbool]
      rfl
    have huns : ty.tyuns = false := by
      rw [Ty.tyuns, hbool]
      rfl
    have hbit (i : Nat) (hi : i < 8) : (ty.trunc (f.signExtend 64)).getLsbD i =
        if i < n then f.getLsbD i else f.msb := by
      rw [getLsbD_trunc, hsize, decide_eq_true hi, BitVec.getLsbD_signExtend, decide_eq_true (by omega)]
      rfl
    have hbit' (i : Nat) (hi : i < 8) : (ty.trunc (f.setWidth 64)).getLsbD i = f.getLsbD i := by
      rw [getLsbD_trunc, hsize, decide_eq_true hi, BitVec.getLsbD_setWidth, decide_eq_true (by omega)]
      rfl
    rw [huns, decide_eq_true hbool, Bool.false_or, if_pos rfl, if_neg Bool.false_ne_true]
    constructor
    case mp =>
      intro heq _
      by_cases h8 : n = 8
      case pos => exact .inl h8
      case neg =>
        have hn := congrArg (fun v => BitVec.getLsbD v n) heq
        simp only [hbit n (by omega), hbit' n (by omega), Nat.lt_irrefl, if_false] at hn
        exact .inr (hn.trans (BitVec.getLsbD_of_ge f n (Nat.le_refl n)))
    case mpr =>
      intro hu
      refine BitVec.eq_of_getLsbD_eq fun i _ => ?_
      by_cases hi : i < 8
      case neg => rw [getLsbD_trunc, getLsbD_trunc, hsize, decide_eq_false hi, Bool.false_and, Bool.false_and]
      case pos =>
        rw [hbit i hi, hbit' i hi]
        split
        case isTrue      => rfl
        case isFalse hin =>
          rw [BitVec.getLsbD_of_ge f i (Nat.not_lt.mp hin)]
          exact (hu hbool).resolve_left (by omega)

-- Subtracting what was added gives back a value if the sum is what it was subtracted from.
theorem trunc_sub_eq_iff (hi : ty.tyintegral = true) (hx : ty.trunc x = x) (hv : ty.trunc v = v) :
    ty.trunc (x - ty.trunc y) = v ↔ x = ty.trunc (v + y) := by
  have hsize := Ty.tysize_cases hi
  have hxlt := Ty.trunc_eq_self_iff.mp hx
  have hvlt := Ty.trunc_eq_self_iff.mp hv
  rw [← BitVec.toNat_inj, ← BitVec.toNat_inj, Ty.toNat_trunc, Ty.toNat_trunc, BitVec.toNat_sub, BitVec.toNat_add,
    Ty.toNat_trunc]
  obtain hs | hs | hs | hs := hsize
  all_goals
    rw [hs] at hxlt hvlt ⊢
    omega

end fields

-- The accesses to a bit field.
inductive Access
  | read
  | assign (r : Elem)
  | op (Eoper : BinaryOp) (r : Elem)
  | post (Eoper : BinaryOp) (e2 : Elem)

section

variable [Target] {E : Type} (M : Machine (Loc → Value) E) (tmp tmp' : Symbol) (goal : Bool) (s : Loc → Value) (l : Elem)
variable (loc : Loc) (t : Ty) (wb : Nat) (w w' : Value)

namespace Access

-- The tree that is built for an access.
def tree : Access → Elem
  | read => elbit t l wb
  | assign r => eleq tmp tmp' goal t l wb r
  | op Eoper r => elopass tmp tmp' goal Eoper t l wb r
  | post Eoper e2 => elpost tmp tmp' Eoper t l wb e2

-- The right operand has the value w. If it is a leaf it has the value w' once the field is set. That of a post access is
-- a constant.
def Operand : Access → Prop
  | read => True
  | assign r => r.Ety.tysize = l.Ety.tysize ∧ Evaluates M tmp tmp' s r w ∧
    (goal = true → r.OTleaf = true → Evaluates M tmp tmp' (assigned s l loc wb (w.setWidth (width wb))) r w')
  | op Eoper r => Eoper ∈ compound ∧ Evaluates M tmp tmp' s r w
  | post Eoper e2 => (Eoper = .postinc ∨ Eoper = .postdec) ∧
    ∃ ty c, e2 = .const ty c ∧ ty.tyintegral = true ∧ ty.tysize = l.Ety.tysize ∧ w = ty.trunc c

-- The value of the field.
def old : Value :=
  fieldValue l.Ety (getField wb (unitOf s l loc))

-- What a post access makes of it.
def stepped (Eoper : BinaryOp) : Value :=
  if Eoper = .postinc then old s l loc wb + w else old s l loc wb - w

-- The contents of the field after an access.
def contents : Access → BitVec (width wb)
  | read => getField wb (unitOf s l loc)
  | assign _ => w.setWidth (width wb)
  | op Eoper r => changed M s Eoper t l loc wb r.Ety w
  | post Eoper _ => (stepped s l loc wb w Eoper).setWidth (width wb)

-- What an access yields, and whether it yields something.
def value : Access → Value
  | post _ _ => old s l loc wb
  | a => fieldValue l.Ety (contents M s l loc t wb w a)

def yields : Access → Bool
  | assign _ | op _ _ => goal
  | _ => true

-- When what an access yields is right: fields of type bool are not extended by their sign, the right operand is the same
-- when it is evaluated again, and signed fields do not overflow when they are incremented.
def Exact : Access → Prop
  | read => True
  | assign r => goal = true → (r.OTleaf = true → w'.setWidth (width wb) = w.setWidth (width wb)) ∧
    Unsigned l.Ety (w.setWidth (width wb))
  | op Eoper r => goal = true → Unsigned l.Ety (changed M s Eoper t l loc wb r.Ety w)
  | post Eoper _ => l.Ety.tyuns = true ∨
    l.Ety.trunc (((stepped s l loc wb w Eoper).setWidth (width wb)).signExtend 64) = l.Ety.trunc (stepped s l loc wb w Eoper)

end Access

-- A tree implements an access if the field has its new contents, all other bits of the unit and all other locations but
-- the temporaries are as they were, and it yields what it should.
structure Implements (a : Access) (s' : Loc → Value) (x : Value) : Prop where
  eval    : M.eval (a.tree tmp tmp' goal l t wb) s = .pure s' x
  field   : getField wb (unitOf s' l loc) = a.contents M s l loc t wb w
  outside : ∀ i, ¬(rightOf wb ≤ i ∧ i < rightOf wb + width wb) →
    (unitOf s' l loc).getLsbD i = (unitOf s l loc).getLsbD i
  other   : ∀ loc', loc' ≠ loc → loc' ≠ .var tmp 0 → loc' ≠ .var tmp' 0 → s' loc' = s loc'
  value   : a.yields goal = true → x = a.value M s l loc t wb w

end

section

variable [Target] {E : Type} {M : Machine (Loc → Value) E} {tmp tmp' : Symbol} {goal : Bool} {s s' : Loc → Value}
variable {l : Elem} {loc : Loc} {t : Ty} {wb : Nat} {w w' : Value} {a : Access}

-- The state in which an access ends
structure Ends (tmp tmp' : Symbol) (s s' : Loc → Value) (l : Elem) (loc : Loc) (wb : Nat) (f : BitVec (width wb)) : Prop where
  unit  : unitOf s' l loc = setField wb (unitOf s l loc) f
  other : ∀ loc', loc' ≠ loc → loc' ≠ .var tmp 0 → loc' ≠ .var tmp' 0 → s' loc' = s loc'

theorem Ends.of_agree {f : BitVec (width wb)} (h : FieldAt tmp tmp' l loc t wb)
    (hs : Agree tmp tmp' (assigned s l loc wb f) s') : Ends tmp tmp' s s' l loc wb f where
  unit := by
    rw [unitOf, hs loc h.apart.1 h.apart.2, assigned, Function.update_self]
    exact trunc_setField h.fits
  other := by
    intro loc' hne h1 h2
    rw [hs loc' h1 h2, assigned, Function.update_of_ne hne]

theorem Ends.of_read (h : FieldAt tmp tmp' l loc t wb) (hs : Agree tmp tmp' s s') :
    Ends tmp tmp' s s' l loc wb (getField wb (unitOf s l loc)) where
  unit := by
    refine BitVec.eq_of_getLsbD_eq fun i hi => ?_
    rw [unitOf, hs loc h.apart.1 h.apart.2, getLsbD_setField hi]
    split
    case isTrue hb =>
      rw [getLsbD_getField, decide_eq_true (by omega), Nat.add_sub_cancel' hb.1]
      rfl
    case isFalse => rfl
  other := fun loc' _ h1 h2 => hs loc' h1 h2

theorem width_le (h : FieldAt tmp tmp' l loc t wb) : width wb ≤ 8 * l.Ety.tysize ∧ width wb ≤ 64 := by
  have hsize := Ty.tysize_cases h.integral
  have hfits := h.fits
  omega

theorem eval_elopass {o : BinaryOp} {r : Elem} (hM : Plain M) (h : FieldAt tmp tmp' l loc t wb)
    (hl : UnitAt M tmp tmp' s l loc) (ho : o ∈ compound) (hr : Evaluates M tmp tmp' s r w) :
    ∃ s' x, M.eval (elopass tmp tmp' goal o t l wb r) s = .pure s' x ∧
      Ends tmp tmp' s s' l loc wb (changed M s o t l loc wb r.Ety w) ∧
      (goal = true → x = shown l.Ety (changed M s o t l loc wb r.Ety w)) := by
  cases hu : l.Ety.tyuns
  case true =>
    obtain ⟨s', x, heval, hs, hx⟩ := eval_elopass_unsigned hM h hl ho hr hu
    exact ⟨s', x, heval, .of_agree h hs, hx⟩
  case false =>
    obtain ⟨s', x, heval, hs, hx⟩ := eval_elopass_signed hM h hl ho hr hu
    exact ⟨s', x, heval, .of_agree h hs, fun _ => hx⟩

theorem trunc_add_congr {v y y' : Value} (hi : t.tyintegral = true) (h : t.trunc y = t.trunc y') :
    t.trunc (v + y) = t.trunc (v + y') := by
  have hsize := Ty.tysize_cases hi
  rw [← BitVec.toNat_inj, Ty.toNat_trunc, Ty.toNat_trunc] at h
  rw [← BitVec.toNat_inj, Ty.toNat_trunc, Ty.toNat_trunc, BitVec.toNat_add, BitVec.toNat_add]
  obtain hs | hs | hs | hs := hsize
  all_goals
    rw [hs] at h ⊢
    omega

theorem trunc_neg_congr {y y' : Value} (hi : t.tyintegral = true) (h : t.trunc y = t.trunc y') :
    t.trunc (-y) = t.trunc (-y') := by
  have hsize := Ty.tysize_cases hi
  rw [← BitVec.toNat_inj, Ty.toNat_trunc, Ty.toNat_trunc] at h
  rw [← BitVec.toNat_inj, Ty.toNat_trunc, Ty.toNat_trunc, BitVec.toNat_neg, BitVec.toNat_neg]
  obtain hs | hs | hs | hs := hsize
  all_goals
    rw [hs] at h ⊢
    omega

-- A post access undoes what it does to the value.
theorem eval_elpost {o : BinaryOp} {ty2 : Ty} {c : Value} (hM : Plain M) (h : FieldAt tmp tmp' l loc t wb)
    (hl : UnitAt M tmp tmp' s l loc) (ht : t.tyintegral = true) (ho : o = .postinc ∨ o = .postdec)
    (hi : ty2.tyintegral = true) (hsize : ty2.tysize = l.Ety.tysize) :
    ∃ s' x, M.eval (elpost tmp tmp' o t l wb (.const ty2 c)) s = .pure s' x ∧
      Ends tmp tmp' s s' l loc wb ((Access.stepped s l loc wb (ty2.trunc c) o).setWidth (width wb)) ∧
      (x = Access.old s l loc wb ↔ l.Ety.tyuns = true ∨
        l.Ety.trunc (((Access.stepped s l loc wb (ty2.trunc c) o).setWidth (width wb)).signExtend 64) =
          l.Ety.trunc (Access.stepped s l loc wb (ty2.trunc c) o)) := by
  obtain ⟨hw, h64⟩ := width_le h
  have hnarrow : wb / 256 % 256 = width wb := Nat.mod_eq_of_lt (show width wb < 256 by omega)
  have hr : Evaluates M tmp tmp' s (.const ty2 c) (ty2.trunc c) := fun _ _ => eval_const
  -- what is added, and what is subtracted again
  obtain ⟨op, r, y, hop, hstep, hry, hchanged, htree⟩ : ∃ (op : BinaryOp) (r y : Value), op ∈ compound ∧
      Access.stepped s l loc wb (ty2.trunc c) o = Access.old s l loc wb + y ∧ t.trunc r = t.trunc y ∧
      changed M s op t l loc wb ty2 (ty2.trunc c) =
        (Access.stepped s l loc wb (ty2.trunc c) o).setWidth (width wb) ∧
      elpost tmp tmp' o t l wb (.const ty2 c) =
        if l.Ety.tyuns then .binary .and t (.binary .min t (elopass tmp tmp' true op t l wb (.const ty2 c)) (el_long t r))
          (el_long t (mask (width wb)))
        else .binary .min t (elopass tmp tmp' true op t l wb (.const ty2 c)) (el_long t r) := by
    have hlong : t.trunc (Elem.const ty2 c).el_tolong = t.trunc (ty2.trunc c) := by
      rw [← trunc_el_tolong hi, Ty.trunc_congr (h.size.trans hsize.symm), Ty.trunc_congr (h.size.trans hsize.symm),
        Ty.trunc_trunc]
    have hwt : width wb ≤ 8 * t.tysize := h.size ▸ hw
    obtain rfl | rfl := ho
    case inl =>
      refine ⟨.addass, (Elem.const ty2 c).el_tolong, ty2.trunc c, by decide, rfl, hlong, setWidth_trunc hwt, ?_⟩
      rw [elpost, hnarrow]
      rfl
    case inr =>
      refine ⟨.minass, -(Elem.const ty2 c).el_tolong, -ty2.trunc c, by decide, ?_, trunc_neg_congr ht hlong,
        setWidth_trunc hwt, ?_⟩
      case refine_1 =>
        rw [← BitVec.sub_eq_add_neg]
        rfl
      case refine_2 =>
        rw [elpost, hnarrow]
        rfl
  obtain ⟨s', x, heval, hs, hx⟩ := @eval_elopass _ E M tmp tmp' true s l loc t wb _ op _ hM h hl hop hr
  have hx := hx rfl
  rw [show (Elem.const ty2 c).Ety = ty2 from rfl, hchanged] at hs hx
  have hsub : M.eval (.binary .min t (elopass tmp tmp' true op t l wb (.const ty2 c)) (el_long t r)) s =
      .pure s' (t.trunc (x - t.trunc r)) := by
    rw [eval_arithmetic (by decide), heval, Result.pure_bind, el_long, eval_const, Result.pure_bind]
    rfl
  rw [htree]
  cases hu : l.Ety.tyuns
  case true =>
    have hback : (t.trunc (x - t.trunc r)).setWidth (width wb) = getField wb (unitOf s l loc) := by
      have hwt : width wb ≤ 8 * t.tysize := h.size ▸ hw
      have hr : (t.trunc r).setWidth (width wb) = y.setWidth (width wb) := by
        rw [hry, setWidth_trunc hwt]
      rw [setWidth_trunc hwt, BitVec.sub_eq_add_neg, BitVec.setWidth_add _ _ h64, BitVec.setWidth_neg_of_le h64, hr, hx,
        setWidth_shown hw h64, hstep, BitVec.setWidth_add _ _ h64, ← BitVec.sub_eq_add_neg, BitVec.add_sub_cancel]
      exact setWidth_fieldValue hw h64
    refine ⟨s', _, (eval_and hsub).trans (congrArg (Result.pure s') (masked_eq h.size h64)), hs, ?_⟩
    refine iff_of_true ?_ (.inl rfl)
    rw [hback, Access.old, fieldValue, hu]
    rfl
  case false =>
    refine ⟨s', _, hsub, hs, ?_⟩
    have hshown : t.trunc x = x := by
      rw [hx, shown, Ty.trunc_congr h.size, Ty.trunc_trunc]
    have hold : t.trunc (Access.old s l loc wb) = Access.old s l loc wb := by
      rw [Access.old, fieldValue, Ty.trunc_congr h.size, Ty.trunc_trunc]
    rw [trunc_sub_eq_iff ht hshown hold, trunc_add_congr ht hry, ← hstep, Ty.trunc_congr h.size, hx, shown, hu,
      if_neg Bool.false_ne_true]
    exact (or_iff_right Bool.false_ne_true).symm

-- What an access does: it sets the field, and yields what is right exactly if it is exact.
theorem bitField_eval (hM : Plain M) (h : FieldAt tmp tmp' l loc t wb) (hl : UnitAt M tmp tmp' s l loc)
    (ht : t.tyintegral = true) (ha : a.Operand M tmp tmp' goal s l loc wb w w') : ∃ s' x,
      M.eval (a.tree tmp tmp' goal l t wb) s = .pure s' x ∧
      Ends tmp tmp' s s' l loc wb (a.contents M s l loc t wb w) ∧
      ((a.yields goal = true → x = a.value M s l loc t wb w) ↔ a.Exact M goal s l loc t wb w w') := by
  obtain ⟨hw, h64⟩ := width_le h
  cases a
  case read =>
    obtain ⟨-, hfirst⟩ := hM.copies_self hl
    obtain ⟨s₂, hs₂, -, heval, -⟩ := hfirst s Agree.refl trivial
    exact ⟨s₂, _, eval_elbit h.integral h.size h.pos h.fits heval, .of_read h hs₂, iff_of_true (fun _ => rfl) trivial⟩
  case assign r =>
    obtain ⟨hsize, hr, hr'⟩ := ha
    obtain ⟨s', x, heval, hs, hx⟩ := eval_eleq hM h (hM.copies_eq h.ne hl) hsize (hr s Agree.refl) Agree.refl trivial hr'
    refine ⟨s', x, heval, .of_agree h hs, ?_⟩
    cases goal
    case false => exact iff_of_true Bool.noConfusion Bool.noConfusion
    case true =>
      rw [hx rfl]
      refine imp_congr_right fun _ => (shown_eq_iff hw h64).trans (and_congr_left' ?_)
      cases r.OTleaf
      case true  => exact ⟨fun hg _ => hg, fun hg => hg rfl⟩
      case false => exact iff_of_true rfl Bool.noConfusion
  case op o r =>
    obtain ⟨ho, hr⟩ := ha
    obtain ⟨s', x, heval, hs, hx⟩ := eval_elopass hM h hl ho hr
    refine ⟨s', x, heval, hs, ?_⟩
    cases goal
    case false => exact iff_of_true Bool.noConfusion Bool.noConfusion
    case true =>
      rw [hx rfl]
      refine imp_congr_right fun _ => (shown_eq_iff hw h64).trans ?_
      exact and_iff_right rfl
  case post o e2 =>
    obtain ⟨ho, ty2, c, rfl, hi, hsize, rfl⟩ := ha
    obtain ⟨s', x, heval, hs, hx⟩ := @eval_elpost _ E M tmp tmp' s l loc t wb o ty2 c hM h hl ht ho hi hsize
    refine ⟨s', x, heval, hs, ?_⟩
    rw [Access.Exact, ← hx]
    exact forall_prop_of_true rfl

-- Accesses to bit fields implement them exactly if they are exact.
theorem bitField_iff (hM : Plain M) (h : FieldAt tmp tmp' l loc t wb) (hl : UnitAt M tmp tmp' s l loc)
    (ht : t.tyintegral = true) (ha : a.Operand M tmp tmp' goal s l loc wb w w') :
    (∃ s' x, Implements M tmp tmp' goal s l loc t wb w a s' x) ↔ a.Exact M goal s l loc t wb w w' := by
  obtain ⟨s', x, heval, hs, hx⟩ := bitField_eval hM h hl ht ha
  rw [← hx]
  constructor
  case mp =>
    rintro ⟨s₂, y, himp⟩
    obtain ⟨rfl, rfl⟩ := Prod.mk.inj (Option.some.inj (Prod.mk.inj (heval.symm.trans himp.eval)).2)
    exact himp.value
  case mpr =>
    intro hvalue
    refine ⟨s', x, heval, ?_, fun i hi => ?_, hs.other, hvalue⟩
    case refine_1 =>
      rw [hs.unit]
      exact getField_setField (by have := Ty.tysize_cases h.integral; have := h.fits; omega)
    case refine_2 =>
      rw [hs.unit]
      by_cases h64 : i < 64
      case pos => rw [getLsbD_setField h64, if_neg hi]
      case neg => rw [BitVec.getLsbD_of_ge _ i (Nat.not_lt.mp h64), BitVec.getLsbD_of_ge _ i (Nat.not_lt.mp h64)]

end

section

@[reducible]
def Amd64 : Target where
  I64       := true
  OPTIMIZER := true
  AArch64   := false

-- A machine with a value at each location
def locations : Machine (Loc → Value) Empty where
  address      := fun _ _ => 0
  read         := fun loc _ s => s loc
  write        := fun loc _ v s => .pure (Function.update s loc v) ()
  leaf         := fun _ _ _ => 0
  unary        := fun _ _ _ _ _ => 0
  binary       := fun _ _ _ _ _ _ _ => 0
  leafEffect   := fun _ _ s => .pure s 0
  unaryEffect  := fun _ _ _ _ s => .pure s 0
  binaryEffect := fun _ _ _ _ _ _ s => .pure s 0

-- A unit in which the lowest three bits are a signed field.
def unitElem : Elem :=
  .var TYint { id := 0 } 0

-- A field that holds 2 is incremented.
theorem bitField_increment : ∃ s' x, @Implements Amd64 Empty locations { id := 1 } { id := 2 } true (fun _ => 2) unitElem
    (.var { id := 0 } 0) TYint 0x300 1 (.post .postinc (.const TYint 1)) s' x := by
  let _ := Amd64
  have hapart : (Loc.var { id := 0 } 0) ≠ .var { id := 1 } 0 ∧ (Loc.var { id := 0 } 0) ≠ .var { id := 2 } 0 := by
    decide
  have hM : Plain locations := ⟨fun _ _ _ => rfl, fun _ _ _ _ => rfl⟩
  have hfield : FieldAt { id := 1 } { id := 2 } unitElem (.var { id := 0 } 0) TYint 0x300 :=
    ⟨by decide, hapart, rfl, rfl, by decide, by decide⟩
  have hunit : UnitAt locations { id := 1 } { id := 2 } (fun _ => 2) unitElem (.var { id := 0 } 0) :=
    .var (by decide) (by decide)
  have ha : Access.Operand locations { id := 1 } { id := 2 } true (fun _ => 2) unitElem (.var { id := 0 } 0) 0x300 1 0
      (.post .postinc (.const TYint 1)) := ⟨.inl rfl, TYint, 1, rfl, rfl, rfl, rfl⟩
  exact (bitField_iff hM hfield hunit rfl ha).mpr (.inr rfl)

-- One that holds 3 holds -4 then, and -5 is yielded.
theorem bitField_overflow : ∃ s', @Machine.eval Amd64 _ _ locations
      (@elpost Amd64 { id := 1 } { id := 2 } .postinc TYint unitElem 0x300 (.const TYint 1)) (fun _ => 3) =
        .pure s' 0xFFFFFFFB ∧
    @fieldValue Amd64 TYint _ (getField 0x300 (s' (.var { id := 0 } 0))) = 0xFFFFFFFC ∧
    @fieldValue Amd64 TYint _ (getField 0x300 3) = 3 :=
  ⟨_, rfl, rfl, rfl⟩

end

end Compiler.Backend.Cgelem
