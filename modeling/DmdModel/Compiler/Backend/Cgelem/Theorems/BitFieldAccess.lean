import DmdModel.Compiler.Backend.Cgelem.Theorems.BitField

namespace Compiler.Backend.Cgelem

open Machine Tybasic

variable [Target] {E : Type} {M : Machine (Loc → Value) E} {tmp tmp' : Symbol} {s s' s₁ : Loc → Value}
variable {l p r : Elem} {loc : Loc} {ty t : Ty} {a u v w : Value} {wb : Nat}

-- A memory that holds a value at each location.
structure Plain (M : Machine (Loc → Value) E) : Prop where
  read  : ∀ loc n s, M.read loc n s = s loc
  write : ∀ loc n v s, M.write loc n v s = .pure (Function.update s loc v) ()

-- Two states that differ in the temporaries only.
def Agree (tmp tmp' : Symbol) (s s' : Loc → Value) : Prop :=
  ∀ loc, loc ≠ .var tmp 0 → loc ≠ .var tmp' 0 → s' loc = s loc

-- An operand that has a value, whatever the temporaries are.
def Evaluates (M : Machine (Loc → Value) E) (tmp tmp' : Symbol) (s : Loc → Value) (e : Elem) (v : Value) : Prop :=
  ∀ s', Agree tmp tmp' s s' → M.eval e s' = .pure s' v

-- A unit: a variable, or a location with an address.
inductive UnitAt (M : Machine (Loc → Value) E) (tmp tmp' : Symbol) (s : Loc → Value) : Elem → Loc → Prop
  | var {ty : Ty} {sym : Symbol} {offset : Value} : sym ≠ tmp → sym ≠ tmp' →
    UnitAt M tmp tmp' s (.var ty sym offset) (.var sym offset)
  | ind {ty : Ty} {p : Elem} {a : Value} : Evaluates M tmp tmp' s p a → Fits p.Ety a →
    UnitAt M tmp tmp' s (.unary .ind ty p) (.mem a)

omit [Target] in
theorem Agree.refl : Agree tmp tmp' s s :=
  fun _ _ _ => rfl

omit [Target] in
theorem Agree.trans (h : Agree tmp tmp' s s') (h' : Agree tmp tmp' s' s₁) : Agree tmp tmp' s s₁ :=
  fun loc hne hne' => (h' loc hne hne').trans (h loc hne hne')

omit [Target] in
theorem Agree.update (h : Agree tmp tmp' s s') : Agree tmp tmp' s (Function.update s' (.var tmp 0) v) :=
  fun loc hne hne' => (Function.update_of_ne hne _ _).trans (h loc hne hne')

omit [Target] in
theorem Agree.update' (h : Agree tmp tmp' s s') : Agree tmp tmp' s (Function.update s' (.var tmp' 0) v) :=
  fun loc hne hne' => (Function.update_of_ne hne' _ _).trans (h loc hne hne')

theorem UnitAt.ne (h : UnitAt M tmp tmp' s l loc) : loc ≠ .var tmp 0 ∧ loc ≠ .var tmp' 0 := by
  cases h
  case var hne hne' =>
    refine ⟨fun heq => hne ?_, fun heq => hne' ?_⟩
    · exact (Loc.var.inj heq).1
    · exact (Loc.var.inj heq).1
  case ind =>
    refine ⟨fun heq => ?_, fun heq => ?_⟩
    · cases heq
    · cases heq

namespace Plain

theorem eval_var (hM : Plain M) {sym : Symbol} {offset : Value} :
    M.eval (.var ty sym offset) s = .pure s (ty.trunc (s (.var sym offset))) := by
  rw [Machine.eval_var, hM.read]

theorem eval_ind (hM : Plain M) (he : M.eval p s = .pure s' a) : M.eval (.unary .ind ty p) s = .pure s' (ty.trunc (s' (.mem a))) := by
  rw [eval_unary rfl, he, Result.pure_bind]
  show Result.pure s' (ty.trunc (M.read (.mem a) ty.tysize s')) = _
  rw [hM.read]

theorem store_eq (hM : Plain M) : M.store { loc, ty } v s = .pure (Function.update s loc (ty.trunc v)) (ty.trunc v) := by
  show (M.write loc ty.tysize (ty.trunc v) s).bind _ = _
  rw [hM.write]
  rfl

-- A temporary is set, and has that value until it is set again.
theorem eval_fixside (hM : Plain M) (he : M.eval p s = .pure s' v) :
    M.eval (fixside tmp p).1 s = .pure (Function.update s' (.var tmp 0) (p.Ety.trunc v)) (p.Ety.trunc v) := by
  rw [fixside, eval_eq, he, Result.pure_bind, locate_var, Result.pure_bind, hM.store_eq]

theorem eval_temporary (hM : Plain M) (h : s (.var tmp 0) = p.Ety.trunc v) : M.eval (fixside tmp p).2 s = .pure s (p.Ety.trunc v) := by
  rw [fixside, hM.eval_var, h, Ty.trunc_trunc]

-- Two copies of a unit. The first one is evaluated if the temporary is as P tells, and then the second one is, as long
-- as the temporary is what it was then.
structure Copies (M : Machine (Loc → Value) E) (tmp tmp' : Symbol) (s : Loc → Value) (P : Value → Prop)
    (l l2 l1 : Elem) (loc : Loc) : Prop where
  Ety   : l1.Ety = l.Ety ∧ l2.Ety = l.Ety
  first : ∀ s', Agree tmp tmp' s s' → P (s' (.var tmp 0)) → ∃ s₂, Agree tmp tmp' s s₂ ∧
    s₂ (.var tmp' 0) = s' (.var tmp' 0) ∧ M.eval l2 s' = .pure s₂ (l.Ety.trunc (s loc)) ∧
    ∀ s₃, Agree tmp tmp' s s₃ → s₃ (.var tmp 0) = s₂ (.var tmp 0) →
      M.eval l1 s₃ = .pure s₃ (l.Ety.trunc (s loc)) ∧ M.locate l1 s₃ = .pure s₃ { loc, ty := l.Ety }

theorem copies_self (hM : Plain M) (h : UnitAt M tmp tmp' s l loc) : Copies M tmp tmp' s (fun _ => True) l l l loc := by
  have hloc := h.ne
  have hboth (s₂ : Loc → Value) (hs : Agree tmp tmp' s s₂) : M.eval l s₂ = .pure s₂ (l.Ety.trunc (s loc)) ∧
      M.locate l s₂ = .pure s₂ { loc, ty := l.Ety } := by
    cases h
    case var =>
      rw [hM.eval_var, locate_var, hs _ hloc.1 hloc.2]
      exact ⟨rfl, rfl⟩
    case ind hp hfits =>
      rw [hM.eval_ind (hp s₂ hs), hs _ hloc.1 hloc.2, locate, hp s₂ hs]
      exact ⟨rfl, rfl⟩
  exact ⟨⟨rfl, rfl⟩, fun s' hs _ => ⟨s', hs, rfl, (hboth s' hs).1, fun s₃ hs₃ _ => hboth s₃ hs₃⟩⟩

-- The location at an address, as it is evaluated first, with the temporary set, and then through the temporary.
theorem eval_indirection (hM : Plain M) (hp : Evaluates M tmp tmp' s p a) (hfits : Fits p.Ety a)
    (hs : Agree tmp tmp' s s') :
    M.eval (.unary .ind ty (fixside tmp p).1) s' = .pure (Function.update s' (.var tmp 0) a) (ty.trunc (s (.mem a))) := by
  have htrunc : p.Ety.trunc a = a := Ty.trunc_eq_self_iff.mpr hfits
  have heval : M.eval (.unary .ind ty (fixside tmp p).1) s' = _ :=
    hM.eval_ind (@eval_fixside _ E M tmp s' s' p a hM (hp s' hs))
  have hs' : Agree tmp tmp' s (Function.update s' (.var tmp 0) a) := hs.update
  rw [htrunc, hs' _ Loc.noConfusion Loc.noConfusion] at heval
  exact heval

theorem eval_through (hM : Plain M) (hfits : Fits p.Ety a) (hs : Agree tmp tmp' s s') (htmp : s' (.var tmp 0) = a) :
    M.eval (.unary .ind ty (fixside tmp p).2) s' = .pure s' (ty.trunc (s (.mem a))) ∧
      M.locate (.unary .ind ty (fixside tmp p).2) s' = .pure s' { loc := .mem a, ty } := by
  have htrunc : p.Ety.trunc a = a := Ty.trunc_eq_self_iff.mpr hfits
  have heval := @eval_temporary _ E M tmp s' p a hM (htmp.trans htrunc.symm)
  rw [htrunc] at heval
  have hind : M.eval (.unary .ind ty (fixside tmp p).2) s' = _ := hM.eval_ind heval
  rw [hs _ Loc.noConfusion Loc.noConfusion] at hind
  refine ⟨hind, ?_⟩
  rw [locate, heval, Result.pure_bind]

theorem copies_indirections (hM : Plain M) (hne : tmp ≠ tmp') (h : UnitAt M tmp tmp' s l loc) :
    Copies M tmp tmp' s (fun _ => True) l (indirections tmp l).1 (indirections tmp l).2 loc := by
  cases h
  case var sym offset hne hne' => exact copies_self hM (.var hne hne')
  case ind ty p a hp hfits =>
    refine ⟨⟨rfl, rfl⟩, fun s' hs _ => ⟨Function.update s' (.var tmp 0) a, hs.update, ?_, ?_, ?_⟩⟩
    case refine_1 => exact Function.update_of_ne (fun heq => hne (Loc.var.inj heq).1.symm) _ _
    case refine_2 => exact hM.eval_indirection hp hfits hs
    case refine_3 => exact fun s₃ hs₃ htmp => hM.eval_through hfits hs₃ (htmp.trans (Function.update_self _ _ _))

theorem copies_eq (hM : Plain M) (hne : tmp ≠ tmp') (h : UnitAt M tmp tmp' s l loc) :
    Copies M tmp tmp' s (fun _ => True) l (copies tmp l).1 (copies tmp l).2 loc := by
  rw [copies.eq_def]
  split
  case h_1 =>
    split
    case isTrue  => exact hM.copies_self h
    case isFalse => exact hM.copies_indirections hne h
  case h_2 => exact hM.copies_self h

-- A field in a unit. The type of the access has the size of the unit.
structure FieldAt (tmp tmp' : Symbol) (l : Elem) (loc : Loc) (t : Ty) (wb : Nat) : Prop where
  ne       : tmp ≠ tmp'
  apart    : loc ≠ .var tmp 0 ∧ loc ≠ .var tmp' 0
  integral : l.Ety.tyintegral = true
  size     : t.tysize = l.Ety.tysize
  pos      : 0 < width wb
  fits     : width wb + rightOf wb ≤ 8 * l.Ety.tysize

-- The contents of the unit, and its contents after the field is set.
def unitOf (s : Loc → Value) (l : Elem) (loc : Loc) : Value :=
  l.Ety.trunc (s loc)

def assigned (s : Loc → Value) (l : Elem) (loc : Loc) (wb : Nat) (f : BitVec (width wb)) : Loc → Value :=
  Function.update s loc (setField wb (unitOf s l loc) f)

-- The new contents of the unit are put together from what the field is set to and from what it was before.
theorem eval_set {l1 l2 e : Elem} {s₂ s₃ : Loc → Value} {x m : Value} (hM : Plain M)
    (h : FieldAt tmp tmp' l loc t wb) (hm : m = mask (width wb) ∨ m = -1 ∧ width wb + rightOf wb = 8 * l.Ety.tysize)
    (hs₃ : Agree tmp tmp' s s₃) (he : M.eval e s' = .pure s₂ (t.trunc (x &&& t.trunc m)))
    (hl : M.eval l2 s₂ = .pure s₃ (unitOf s l loc)) (hloc : M.locate l1 s₃ = .pure s₃ { loc, ty := l.Ety }) :
    ∃ s₄ y, M.eval (.binary .eq t l1 (.binary .or t (.binary .shl t e (el_long TYint (BitVec.ofNat 64 (rightOf wb))))
        (.binary .and t l2 (el_long t (~~~(mask (width wb) <<< rightOf wb)))))) s' = .pure s₄ y ∧
      Agree tmp tmp' (assigned s l loc wb (x.setWidth (width wb))) s₄ ∧ s₄ (.var tmp' 0) = s₃ (.var tmp' 0) := by
  have hsize := Ty.tysize_cases h.integral
  have hne := h.apart
  have hfits := h.fits
  have hnew : l.Ety.trunc (t.trunc (t.trunc (t.trunc (x &&& t.trunc m) <<< rightOf wb) |||
      t.trunc (unitOf s l loc &&& t.trunc (~~~(mask (width wb) <<< rightOf wb))))) =
        setField wb (unitOf s l loc) (x.setWidth (width wb)) := by
    rw [Ty.trunc_congr h.size.symm, Ty.trunc_trunc]
    exact setField_eq h.size (by omega) h.fits hm
  refine ⟨Function.update s₃ loc (setField wb (unitOf s l loc) (x.setWidth (width wb))),
    setField wb (unitOf s l loc) (x.setWidth (width wb)), ?_, ?_, ?_⟩
  · rw [eval_eq, eval_arithmetic (by decide), eval_shl (by omega : rightOf wb < 2 ^ 32) he, Result.pure_bind, eval_and hl,
      Result.pure_bind, Result.pure_bind, hloc, Result.pure_bind, hM.store_eq]
    exact congrArg (fun v => Result.pure (Function.update s₃ loc v) v) hnew
  · intro loc' h1 h2
    rw [assigned]
    by_cases heq : loc' = loc
    case pos => rw [heq, Function.update_self, Function.update_self]
    case neg => rw [Function.update_of_ne heq, Function.update_of_ne heq, hs₃ loc' h1 h2]
  · exact Function.update_of_ne (Ne.symm hne.2) _ _

-- What a field is shown as by shifts, or by a mask.
def shown (ty : Ty) {n : Nat} (f : BitVec n) : Value :=
  ty.trunc (if ty.tyuns then f.setWidth 64 else f.signExtend 64)

-- The value of an assignment, which is taken from the right operand.
theorem eval_shown {e : Elem} (h : FieldAt tmp tmp' l loc t wb) (he : M.eval e s₁ = .pure s₁ v) :
    M.eval (if l.Ety.tyuns then .binary .and t e (el_long t (mask (width wb)))
      else .binary .ashr t (.binary .shl l.Ety e (el_long TYint (BitVec.ofNat 64 (8 * l.Ety.tysize - width wb))))
        (el_long TYint (BitVec.ofNat 64 (8 * l.Ety.tysize - width wb)))) s₁ =
      .pure s₁ (shown l.Ety (v.setWidth (width wb))) := by
  have hsize := Ty.tysize_cases h.integral
  have hfits := h.fits
  rw [shown]
  split
  case isTrue  => rw [eval_and he, masked_eq h.size (by omega)]
  case isFalse =>
    have hshift : 8 * l.Ety.tysize - width wb < 2 ^ 32 := by omega
    rw [eval_ashr hshift (eval_shl hshift he), Ty.trunc_congr h.size]
    refine congrArg (Result.pure s₁) ?_
    have hsign := @signed_eq _ l.Ety v 0 (width wb) (by omega) h.pos (by omega)
    rwa [Nat.add_zero, extractLsb'_zero] at hsign

theorem eval_comma_pure {e1 e2 : Elem} {x : Value} (he : M.eval e1 s = .pure s' x) :
    M.eval (.binary .comma t e1 e2) s = M.eval e2 s' := by
  rw [eval_comma, he, Result.pure_bind]

theorem eval_eleq {goal : Bool} {w' : Value} {P : Value → Prop} {s'' : Loc → Value} (hM : Plain M)
    (h : FieldAt tmp tmp' l loc t wb) (hcopies : Copies M tmp tmp' s P l (copies tmp l).1 (copies tmp l).2 loc)
    (hsize : r.Ety.tysize = l.Ety.tysize) (hr : M.eval r s' = .pure s'' w) (hs : Agree tmp tmp' s s'')
    (hP : P (s'' (.var tmp 0)))
    (hr' : goal = true → r.OTleaf = true →
      Evaluates M tmp tmp' (assigned s l loc wb (w.setWidth (width wb))) r w') :
    ∃ s₄ x, M.eval (eleq tmp tmp' goal t l wb r) s' = .pure s₄ x ∧
      Agree tmp tmp' (assigned s l loc wb (w.setWidth (width wb))) s₄ ∧
      (goal = true → x = shown l.Ety ((if r.OTleaf then w' else w).setWidth (width wb))) := by
  have hm : (if Target.OPTIMIZER && width wb + rightOf wb = 8 * l.Ety.tysize then -1 else mask (width wb)) =
      mask (width wb) ∨ (if Target.OPTIMIZER && width wb + rightOf wb = 8 * l.Ety.tysize then -1 else
        mask (width wb)) = -1 ∧ width wb + rightOf wb = 8 * l.Ety.tysize := by
    split
    case isTrue hc  => exact .inr ⟨rfl, of_decide_eq_true (Bool.and_eq_true_iff.mp hc).2⟩
    case isFalse    => exact .inl rfl
  rw [eleq]
  generalize copies tmp l = cs at hcopies
  obtain ⟨l2, l1⟩ := cs
  by_cases hfix : (goal && !r.OTleaf) = true
  case neg =>
    obtain ⟨s₃, hs₃, -, hl2, hl1⟩ := hcopies.first s'' hs hP
    have hset := eval_set hM h hm hs₃ (eval_and hr) hl2 (hl1 s₃ hs₃ rfl).2
    obtain ⟨s₄, y, heres, hs₄, -⟩ := hset
    cases hgoal : goal
    case false =>
      refine ⟨s₄, y, ?_, hs₄, Bool.noConfusion⟩
      exact heres
    case true =>
      have hleaf : r.OTleaf = true := by
        rw [hgoal, Bool.true_and, Bool.not_eq_true', Bool.not_eq_false] at hfix
        exact hfix
      have hvalue := eval_shown h (hr' hgoal hleaf s₄ hs₄)
      refine ⟨s₄, shown l.Ety (w'.setWidth (width wb)), ?_, hs₄, fun _ => by rw [if_pos hleaf]⟩
      rw [← hvalue, hleaf]
      cases l.Ety.tyuns <;> exact eval_comma_pure heres
  case pos =>
    obtain ⟨hgoal, hleaf⟩ := Bool.and_eq_true_iff.mp hfix
    rw [Bool.not_eq_true'] at hleaf
    have hwidth : (r.Ety.trunc w).setWidth (width wb) = w.setWidth (width wb) :=
      setWidth_trunc (by have := h.fits; omega)
    have hfirst := @eval_fixside _ E M tmp' s' s'' r w hM hr
    have hs' : Agree tmp tmp' s (Function.update s'' (.var tmp' 0) (r.Ety.trunc w)) := hs.update'
    have hP' : P (Function.update s'' (.var tmp' 0) (r.Ety.trunc w) (.var tmp 0)) := by
      rwa [Function.update_of_ne fun heq => h.ne (Loc.var.inj heq).1]
    obtain ⟨s₃, hs₃, htmp, hl2, hl1⟩ := hcopies.first _ hs' hP'
    have hset := eval_set hM h hm hs₃ (eval_and hfirst) hl2 (hl1 s₃ hs₃ rfl).2
    obtain ⟨s₄, y, heres, hs₄, htmp₄⟩ := hset
    rw [hwidth] at hs₄
    rw [htmp, Function.update_self] at htmp₄
    have hvalue := eval_shown h (@eval_temporary _ E M tmp' s₄ r w hM htmp₄)
    refine ⟨s₄, shown l.Ety (w.setWidth (width wb)), ?_, hs₄, fun _ => by rw [hleaf]; rfl⟩
    rw [← hwidth, ← hvalue, hgoal, hleaf]
    cases l.Ety.tyuns <;> exact eval_comma_pure heres

-- The operators that fields are changed with.
def compound : List BinaryOp :=
  [.addass, .minass, .mulass, .andass, .orass, .xorass, .shlass, .shrass, .ashrass]

omit [Target] in
theorem opeqtoop_arithmetic {o : BinaryOp} (h : o ∈ compound) : o.opeqtoop ∈ arithmetic := by
  revert h
  cases o <;> decide

-- Their types matter only by their sizes.
theorem evalBinary_congr {o : BinaryOp} {t' ty1 ty1' ty2 ty2' : Ty} (h : o ∈ compound) (ht : t.tysize = t'.tysize)
    (h1 : ty1.tysize = ty1'.tysize) :
    M.evalBinary o.opeqtoop t ty1 ty2 v w s = M.evalBinary o.opeqtoop t' ty1' ty2' v w s' := by
  have hext : extend ty1 v = extend ty1' v := by
    rw [extend, extend, h1]
  simp only [compound, List.mem_cons, List.not_mem_nil, or_false] at h
  obtain rfl | rfl | rfl | rfl | rfl | rfl | rfl | rfl | rfl := h
  case inr.inr.inr.inr.inr.inr.inr.inr =>
    show t.trunc ((extend ty1 v).sshiftRight w.toNat) = t'.trunc ((extend ty1' v).sshiftRight w.toNat)
    rw [hext, Ty.trunc_congr ht]
  all_goals exact Ty.trunc_congr ht

-- The contents of a field after it is changed.
def changed (M : Machine (Loc → Value) E) (s : Loc → Value) (o : BinaryOp) (t : Ty) (l : Elem) (loc : Loc) (wb : Nat)
    (ty2 : Ty) (w : Value) : BitVec (width wb) :=
  (M.evalBinary o.opeqtoop t t ty2 (fieldValue l.Ety (getField wb (unitOf s l loc))) w s).setWidth (width wb)

-- What an unsigned field is set to.
theorem eval_changed {o : BinaryOp} {t' : Ty} {l2 : Elem} {s₂ : Loc → Value} (h : FieldAt tmp tmp' l loc t wb)
    (ht : t'.tysize = l.Ety.tysize) (ho : o ∈ compound) (hu : l.Ety.tyuns = true)
    (hl : M.eval l2 s' = .pure s₂ (unitOf s l loc)) (hr : M.eval r s₂ = .pure s₂ w) :
    M.eval (.binary .and t' (.binary o.opeqtoop t' (.binary .and t'
        (.binary .shr t' l2 (el_long TYint (BitVec.ofNat 64 (rightOf wb)))) (el_long t' (mask (width wb)))) r)
        (el_long t' (mask (width wb)))) s' =
      .pure s₂ (t'.trunc (M.evalBinary o.opeqtoop t t r.Ety (fieldValue l.Ety (getField wb (unitOf s l loc))) w s &&&
        t'.trunc (mask (width wb)))) := by
  have hsize := Ty.tysize_cases h.integral
  have hfits := h.fits
  have hread : t'.trunc (t'.trunc (unitOf s l loc >>> rightOf wb) &&& t'.trunc (mask (width wb))) =
      fieldValue l.Ety (getField wb (unitOf s l loc)) := by
    rw [fieldValue, hu, Bool.true_or, if_pos rfl]
    exact unsigned_eq ht (by omega) hfits (.inl rfl)
  have hold : M.eval (.binary .and t' (.binary .shr t' l2 (el_long TYint (BitVec.ofNat 64 (rightOf wb))))
      (el_long t' (mask (width wb)))) s' = .pure s₂ (fieldValue l.Ety (getField wb (unitOf s l loc))) := by
    rw [eval_and (eval_shr (by omega : rightOf wb < 2 ^ 32) hl), hread]
  refine eval_and ?_
  rw [eval_arithmetic (opeqtoop_arithmetic ho), hold, Result.pure_bind, hr, Result.pure_bind]
  exact congrArg (Result.pure s₂) (evalBinary_congr ho (ht.trans h.size.symm) (ht.trans h.size.symm))

theorem eval_elopass_unsigned {o : BinaryOp} {goal : Bool} (hM : Plain M) (h : FieldAt tmp tmp' l loc t wb)
    (hl : UnitAt M tmp tmp' s l loc) (ho : o ∈ compound) (hr : Evaluates M tmp tmp' s r w)
    (hu : l.Ety.tyuns = true) :
    ∃ s₄ x, M.eval (elopass tmp tmp' goal o t l wb r) s = .pure s₄ x ∧
      Agree tmp tmp' (assigned s l loc wb (changed M s o t l loc wb r.Ety w)) s₄ ∧
      (goal = true → x = shown l.Ety (changed M s o t l loc wb r.Ety w)) := by
  have hsize := Ty.tysize_cases h.integral
  have hfits := h.fits
  have ht : Ty.tysize t.tybasic.touns = t.tysize := tysize_touns _
  have h' : FieldAt tmp tmp' l loc t.tybasic.touns wb := { h with size := ht.trans h.size }
  have hcopies := hM.copies_eq h.ne hl
  have hw : wb / 256 % 256 = width wb := Nat.mod_eq_of_lt (show width wb < 256 by omega)
  rw [elopass, if_pos hu, hw]
  generalize copies tmp l = cs at hcopies
  obtain ⟨l2, l1⟩ := cs
  obtain ⟨s₂, hs₂, -, hl2, hl1⟩ := hcopies.first s Agree.refl trivial
  have hvalue := @eval_changed _ E M tmp tmp' s s l r loc t w wb o t.tybasic.touns _ s₂ h h'.size ho hu hl2 (hr s₂ hs₂)
  rw [changed]
  generalize M.evalBinary o.opeqtoop t t r.Ety (fieldValue l.Ety (getField wb (unitOf s l loc))) w s = x at hvalue ⊢
  cases goal
  case false =>
    obtain ⟨heval, hloc⟩ := hl1 s₂ hs₂ rfl
    obtain ⟨s₄, y, heres, hs₄, -⟩ := eval_set hM h' (.inl rfl) hs₂ hvalue heval hloc
    exact ⟨s₄, y, heres, hs₄, Bool.noConfusion⟩
  case true =>
    have hfirst := @eval_fixside _ E M tmp' s s₂ _ _ hM hvalue
    rw [show (Elem.binary .and t.tybasic.touns _ _).Ety = t.tybasic.touns from rfl, Ty.trunc_trunc] at hfirst
    have hs₃ : Agree tmp tmp' s (Function.update s₂ (.var tmp' 0) (Ty.trunc t.tybasic.touns
      (x &&& Ty.trunc t.tybasic.touns (mask (width wb))))) := hs₂.update'
    obtain ⟨heval, hloc⟩ := hl1 _ hs₃ (Function.update_of_ne (fun heq => h.ne (Loc.var.inj heq).1) _ _)
    obtain ⟨s₄, y, heres, hs₄, htmp⟩ := eval_set hM h' (.inl rfl) hs₃ hfirst heval hloc
    rw [Function.update_self] at htmp
    refine ⟨s₄, _, (eval_comma_pure heres).trans (hM.eval_var.trans ?_), hs₄, fun _ => rfl⟩
    rw [htmp, shown, if_pos hu]
    exact congrArg (Result.pure s₄) (Ty.trunc_trunc.trans (masked_eq h'.size (by omega)))

-- The copies of an lvalue that are needed for a signed field: the one that is assigned needs no more copies.
theorem copies_assigned (hM : Plain M) (hne : tmp ≠ tmp') (hl : UnitAt M tmp tmp' s l loc) : ∃ P : Value → Prop,
    (∀ s', Agree tmp tmp' s s' → ∃ s₂, Agree tmp tmp' s s₂ ∧ P (s₂ (.var tmp 0)) ∧
      M.eval (indirections tmp l).1 s' = .pure s₂ (unitOf s l loc)) ∧
    Copies M tmp tmp' s P (indirections tmp l).2 (copies tmp (indirections tmp l).2).1
      (copies tmp (indirections tmp l).2).2 loc ∧ (indirections tmp l).1.Ety = l.Ety ∧
      (indirections tmp l).2.Ety = l.Ety := by
  have hcopies := hM.copies_indirections hne hl
  cases hl
  case var ty sym offset h1 h2 =>
    refine ⟨fun _ => True, fun s' hs => ?_, hM.copies_self (.var h1 h2), rfl, rfl⟩
    obtain ⟨s₂, hs₂, -, heval, -⟩ := hcopies.first s' hs trivial
    exact ⟨s₂, hs₂, trivial, heval⟩
  case ind ty p a hp hfits =>
    refine ⟨fun v => v = a, fun s' hs => ?_, ?_, rfl, rfl⟩
    case refine_1 =>
      exact ⟨_, hs.update, Function.update_self _ _ _, hM.eval_indirection hp hfits hs⟩
    case refine_2 =>
      refine ⟨⟨rfl, rfl⟩, fun s' hs htmp => ⟨s', hs, rfl, (hM.eval_through hfits hs htmp).1, ?_⟩⟩
      exact fun s₃ hs₃ htmp₃ => hM.eval_through hfits hs₃ (htmp₃.trans htmp)

theorem eval_elopass_signed {o : BinaryOp} {goal : Bool} (hM : Plain M) (h : FieldAt tmp tmp' l loc t wb)
    (hl : UnitAt M tmp tmp' s l loc) (ho : o ∈ compound) (hr : Evaluates M tmp tmp' s r w)
    (hu : l.Ety.tyuns = false) :
    ∃ s₄ x, M.eval (elopass tmp tmp' goal o t l wb r) s = .pure s₄ x ∧
      Agree tmp tmp' (assigned s l loc wb (changed M s o t l loc wb r.Ety w)) s₄ ∧
      x = shown l.Ety (changed M s o t l loc wb r.Ety w) := by
  have hsize := Ty.tysize_cases h.integral
  have ht : Ty.tysize t.tybasic.touns = t.tysize := tysize_touns _
  obtain ⟨P, hfirst, hcopies, hety2, hety1⟩ := hM.copies_assigned h.ne hl
  rw [elopass, if_neg (Bool.eq_false_iff.mp hu)]
  generalize indirections tmp l = cs at hfirst hcopies hety1 hety2
  obtain ⟨l2, l1⟩ := cs
  obtain ⟨s₂, hs₂, hP, hl2⟩ := hfirst s Agree.refl
  have hety2 : l2.Ety = l.Ety := hety2
  have hety1 : l1.Ety = l.Ety := hety1
  have hl2 : M.eval l2 s = .pure s₂ (l.Ety.trunc (s loc)) := hl2
  have hread : M.eval (elbit l2.Ety l2 wb) s = .pure s₂ (fieldValue l.Ety (getField wb (unitOf s l loc))) := by
    rw [← hety2] at hl2
    rw [eval_elbit (hety2 ▸ h.integral) rfl h.pos (hety2 ▸ h.fits) hl2, hety2]
    rfl
  have hx : M.eval (.binary o.opeqtoop t.tybasic.touns (elbit l2.Ety l2 wb) r) s = .pure s₂
      (M.evalBinary o.opeqtoop t t r.Ety (fieldValue l.Ety (getField wb (unitOf s l loc))) w s) := by
    rw [eval_arithmetic (opeqtoop_arithmetic ho), hread, Result.pure_bind, hr s₂ hs₂, Result.pure_bind]
    exact congrArg (Result.pure s₂) (evalBinary_congr ho ht (by rw [Ety_elbit, hety2, h.size]))
  have h1 : FieldAt tmp tmp' l1 loc t wb :=
    ⟨h.ne, h.apart, hety1 ▸ h.integral, hety1 ▸ h.size, h.pos, hety1 ▸ h.fits⟩
  obtain ⟨s₄, x, heval, hs₄, hx⟩ := @eval_eleq _ E M tmp tmp' s s l1 _ loc t _ wb true 0 P s₂ hM h1 hcopies
    (by rw [hety1, ← h.size]; exact ht) hx hs₂ hP (fun _ hleaf => by cases hleaf)
  refine ⟨s₄, x, heval, ?_, ?_⟩
  · rwa [assigned, unitOf, hety1] at hs₄
  · rw [hx rfl, shown, hety1]
    rfl

end Plain

end Compiler.Backend.Cgelem
