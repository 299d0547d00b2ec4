import DmdModel.Compiler.Backend.Cgelem.Eval

namespace Compiler.Backend

namespace Result

variable {σ V W E : Type}

-- What follows matters only for the values and states with which the first part can return.
theorem bind_congr {r : Result σ V E} {f g : σ → V → Result σ W E}
    (h : ∀ t s v, r = (t, some (s, v)) → f s v = g s v) : r.bind f = r.bind g := by
  match r with
  | (t, none)        => rfl
  | (t, some (s, v)) => rw [bind, bind, h t s v rfl]

theorem bind_eq_bind_iff {r : Result σ V E} {f g : σ → V → Result σ W E} :
    r.bind f = r.bind g ↔ ∀ t s v, r = (t, some (s, v)) → f s v = g s v := by
  match r with
  | (t, none) =>
    refine iff_of_true rfl fun _ _ _ h => ?_
    cases (Prod.mk.inj h).2
  | (t, some (s, v)) =>
    constructor
    case mp =>
      intro h t' s' v' hr
      obtain ⟨rfl, rfl⟩ := Prod.mk.inj (Option.some.inj (Prod.mk.inj hr).2)
      obtain ⟨ht, hs⟩ := Prod.mk.inj h
      exact Prod.ext (List.append_cancel_left ht) hs
    case mpr => exact bind_congr

theorem pure_inj {s : σ} {v w : V} : (pure s v : Result σ V E) = pure s w ↔ v = w :=
  ⟨fun h => (Prod.mk.inj (Option.some.inj (Prod.mk.inj h).2)).2, congrArg (pure s)⟩

theorem bind_pure_eq_iff {r : Result σ V E} {f g : V → W} :
    (r.bind fun s v => pure s (f v)) = (r.bind fun s v => pure s (g v)) ↔
      ∀ t s v, r = (t, some (s, v)) → f v = g v := by
  rw [bind_eq_bind_iff]
  simp only [pure_inj]

theorem exists_of_bind_eq_some {r : Result σ V E} {f : σ → V → Result σ W E} {t : List E} {s : σ} {w : W}
    (h : r.bind f = (t, some (s, w))) : ∃ t₁ s₁ v t₂, r = (t₁, some (s₁, v)) ∧ f s₁ v = (t₂, some (s, w)) := by
  match r with
  | (t₁, none)         => cases (Prod.mk.inj h).2
  | (t₁, some (s₁, v)) =>
    refine ⟨t₁, s₁, v, (f s₁ v).1, rfl, ?_⟩
    exact Prod.ext rfl (Prod.mk.inj h).2

end Result

namespace Cgelem

variable [Target]

namespace Ty

variable {ty ty' : Ty} {v w : Value}

theorem trunc_congr (h : ty.tysize = ty'.tysize) : ty.trunc v = ty'.trunc v := by
  rw [trunc, trunc, h]

theorem toNat_trunc : (ty.trunc v).toNat = v.toNat % 2 ^ (8 * ty.tysize) :=
  LowBits.toNat_low

@[simp]
theorem trunc_trunc : ty.trunc (ty.trunc v) = ty.trunc v :=
  LowBits.low_low

theorem trunc_eq_self_iff : ty.trunc v = v ↔ v.toNat < 2 ^ (8 * ty.tysize) := by
  rw [← BitVec.toNat_inj, toNat_trunc]
  exact ⟨fun h => h ▸ Nat.mod_lt _ (Nat.two_pow_pos _), Nat.mod_eq_of_lt⟩

theorem size_pos (h : ty.tyintegral = true) : 1 ≤ ty.tysize := by
  have hc := ty.tybasic
  revert h
  rw [tysize, tyintegral]
  cases ty.tybasic <;> simp [Tybasic.tyintegral, Tybasic.tysize]

theorem tysize_cases (h : ty.tyintegral = true) :
    ty.tysize = 1 ∨ ty.tysize = 2 ∨ ty.tysize = 4 ∨ ty.tysize = 8 := by
  revert h
  rw [tysize, tyintegral]
  cases ty.tybasic <;> simp [Tybasic.tyintegral, Tybasic.tysize]

end Ty

namespace Machine

variable {σ E : Type} {M : Machine σ E} {s : σ} {ty : Ty} {e e1 e2 : Elem}

theorem eval_const {v : Value} : M.eval (.const ty v) s = .pure s (ty.trunc v) := by
  rw [eval]

theorem eval_var {sym : Symbol} {offset : Value} : M.eval (.var ty sym offset) s =
    .pure s (ty.trunc (M.read (.var sym offset) ty.tysize s)) := by
  rw [eval]

theorem eval_unary {op : UnaryOp} (h : op.OTsideff = false) : M.eval (.unary op ty e) s =
    (M.eval e s).bind fun s v => .pure s (M.evalUnary op ty e.Ety v s) := by
  have hn : op ≠ .negass := fun hn => absurd h (by rw [hn]; decide)
  rw [eval]
  · simp only [h, Bool.false_eq_true, if_false]
  · exact hn

-- The operators with two operands that are evaluated from left to right, and nothing else.
def arithmetic : List BinaryOp :=
  [.add, .min, .mul, .and, .or, .xor, .shl, .shr, .ashr, .eqeq, .ne, .lt, .le, .gt, .ge]

theorem eval_arithmetic {op : BinaryOp} (h : op ∈ arithmetic) : M.eval (.binary op ty e1 e2) s =
    (M.eval e1 s).bind fun s v => (M.eval e2 s).bind fun s w =>
      .pure s (M.evalBinary op ty e1.Ety e2.Ety v w s) := by
  simp only [arithmetic, List.mem_cons, List.not_mem_nil, or_false] at h
  rcases h with rfl | rfl | rfl | rfl | rfl | rfl | rfl | rfl | rfl | rfl | rfl | rfl | rfl | rfl | rfl <;>
    rw [eval] <;> first | rfl | exact BinaryOp.noConfusion

theorem eval_comma : M.eval (.binary .comma ty e1 e2) s = (M.eval e1 s).bind fun s _ => M.eval e2 s := by
  rw [eval]

theorem eval_eq : M.eval (.binary .eq ty e1 e2) s =
    (M.eval e2 s).bind fun s w => (M.locate e1 s).bind fun s p => M.store p w s := by
  rw [eval]

theorem locate_var {sym : Symbol} {offset : Value} : M.locate (.var ty sym offset) s =
    .pure s { loc := .var sym offset, ty } := by
  rw [locate]

end Machine

end Cgelem

end Compiler.Backend

-- Elems without side effects have a value in each state, and elems that match have the same one.
namespace Compiler.Backend.Cgelem

open Tybasic

variable [Target] {σ E : Type} {M : Machine σ E} {s : σ} {e e' e1 e2 : Elem} {op : BinaryOp} {ty ty' ty1 ty1' ty2 ty2' : Ty}
  {v w : Value}

-- The binary operators that do more, or less, than to evaluate both of their operands.
def irregular : List BinaryOp :=
  [.comma, .andand, .oror, .cond, .bit, .eq, .postinc, .postdec]

theorem Machine.eval_regular (h : op ∉ irregular) (hopeq : op.OTopeq = false) :
    M.eval (.binary op ty e1 e2) s =
      if op.OTrtol then
        (M.eval e2 s).bind fun s w => (M.eval e1 s).bind fun s v => M.apply op ty e1.Ety e2.Ety v w s
      else
        (M.eval e1 s).bind fun s v => (M.eval e2 s).bind fun s w => M.apply op ty e1.Ety e2.Ety v w s := by
  simp only [irregular, List.mem_cons, List.not_mem_nil, or_false, not_or] at h
  rw [Machine.eval]
  all_goals try exact fun hop => absurd hop (by tauto)
  simp only [hopeq, Bool.false_eq_true, if_false]

omit [Target] in
theorem regular_of_sideff (h : op.OTsideff = false) :
    op.OTopeq = false ∧ (op ∉ irregular ∨ op = .comma ∨ op = .andand ∨ op = .oror ∨ op = .cond ∨ op = .bit) := by
  cases op <;> revert h <;> decide

omit [Target] in
theorem not_negass {op : UnaryOp} (h : op.OTsideff = false) : op ≠ .negass := by
  rintro rfl
  cases h

omit [Target] in
theorem sizeOf_left : sizeOf e1 < sizeOf (Elem.binary op ty e1 e2) := by
  rw [Elem.binary.sizeOf_spec]
  omega

omit [Target] in
theorem sizeOf_right : sizeOf e2 < sizeOf (Elem.binary op ty e1 e2) := by
  rw [Elem.binary.sizeOf_spec]
  omega

namespace Machine

theorem eval_leaf {op : LeafOp} {sym : Symbol} {offset : Value} : M.eval (.leaf op ty sym offset) s =
    if op = .relconst ∨ op = .string then .pure s (ty.trunc (M.address op sym + offset))
    else if op.OTsideff then M.leafEffect op ty.tybasic.tyequiv s
    else .pure s (ty.trunc (M.leaf op ty.tybasic.tyequiv s)) := by
  cases op <;> rw [eval] <;> simp

-- An elem without side effects has a value, which depends on the state only.
theorem exists_eval_eq_pure (h : e.el_sideeffect = false) (s : σ) : ∃ v, M.eval e s = .pure s v := by
  induction hn : sizeOf e using Nat.strong_induction_on generalizing e
  case h n ih =>
    subst hn
    cases e
    case const ty v => exact ⟨_, eval_const⟩
    case var ty sym offset => exact ⟨_, eval_var⟩
    case leaf op ty sym offset =>
      rw [Elem.el_sideeffect, Bool.or_eq_false_iff] at h
      rw [eval_leaf, h.2, if_neg Bool.false_ne_true]
      split_ifs
      all_goals exact ⟨_, rfl⟩
    case unary op ty e =>
      rw [Elem.el_sideeffect, Bool.or_eq_false_iff, Bool.or_eq_false_iff] at h
      have ⟨v, hv⟩ := ih (sizeOf e) (by simp) h.2 rfl
      exact ⟨_, by rw [eval_unary h.1.2, hv, Result.pure_bind]⟩
    case binary op ty e1 e2 =>
      rw [Elem.el_sideeffect, Bool.or_eq_false_iff, Bool.or_eq_false_iff, Bool.or_eq_false_iff] at h
      obtain ⟨⟨⟨-, hop⟩, h1⟩, h2⟩ := h
      have ⟨v, hv⟩ := ih (sizeOf e1) sizeOf_left h1 rfl
      have ⟨w, hw⟩ := ih (sizeOf e2) sizeOf_right h2 rfl
      obtain ⟨hopeq, hreg | rfl | rfl | rfl | rfl | rfl⟩ := regular_of_sideff hop
      case inl =>
        simp only [eval_regular hreg hopeq, hv, hw, Result.pure_bind, apply, hop, Bool.false_eq_true, if_false]
        split_ifs
        all_goals exact ⟨_, rfl⟩
      case inr.inl => exact ⟨w, by rw [eval_comma, hv, Result.pure_bind, hw]⟩
      case inr.inr.inl =>
        rw [eval, hv, Result.pure_bind, hw, Result.pure_bind]
        split_ifs
        all_goals exact ⟨_, rfl⟩
      case inr.inr.inr.inl =>
        rw [eval, hv, Result.pure_bind, hw, Result.pure_bind]
        split_ifs
        all_goals exact ⟨_, rfl⟩
      case inr.inr.inr.inr.inl =>
        rw [eval, hv, Result.pure_bind]
        split
        case h_1 op' ty' e3 e4 =>
          rw [Elem.el_sideeffect, Bool.or_eq_false_iff, Bool.or_eq_false_iff] at h2
          split_ifs
          case pos => exact ih (sizeOf e3) ((sizeOf_left).trans sizeOf_right) h2.1.2 rfl
          case neg => exact ih (sizeOf e4) ((sizeOf_right).trans sizeOf_right) h2.2 rfl
        case h_2 => exact ⟨_, rfl⟩
      case inr.inr.inr.inr.inr => exact ⟨_, by rw [eval, hv, Result.pure_bind]⟩

end Machine

-- The operators whose meaning depends on whether their operands have signs.
def signedOps : List BinaryOp :=
  [.div, .mod, .lt, .gt, .le, .ge, .bit]

-- Characters are converted to integers before such operators are applied. The width and position of a bit field are an
-- unsigned int.
def Elem.Promoted : Elem → Prop
  | .unary _ _ e       => e.Promoted
  | .binary op _ e1 e2 =>
    (op ∈ signedOps → e1.Ety.tybasic ≠ .TYchar ∧ e2.Ety.tybasic ≠ .TYchar) ∧
      (op = .bit → e2.Ety.tybasic = .TYuint) ∧ e1.Promoted ∧ e2.Promoted
  | _                  => True

omit [Target] in
theorem tyequiv_of_matchTypes (h : Elem.matchTypes ty ty') : ty.tybasic.tyequiv = ty'.tybasic.tyequiv := by
  simp only [Elem.matchTypes, Bool.and_eq_true, decide_eq_true_iff] at h
  exact h.2

theorem tysize_congr (h : ty.tybasic.tyequiv = ty'.tybasic.tyequiv) : ty.tysize = ty'.tysize := by
  rw [Ty.tysize, Ty.tysize, ← Tybasic.tysize_tyequiv ty.tybasic, h, Tybasic.tysize_tyequiv]

omit [Target] in
theorem tyuns_congr (h : ty.tybasic.tyequiv = ty'.tybasic.tyequiv) (hc : ty.tybasic ≠ .TYchar)
    (hc' : ty'.tybasic ≠ .TYchar) : ty.tyuns = ty'.tyuns := by
  revert h hc hc'
  rw [Ty.tyuns, Ty.tyuns]
  cases ty.tybasic <;> cases ty'.tybasic <;> decide

namespace Machine

theorem extend_congr (h : ty.tysize = ty'.tysize) : extend ty v = extend ty' v := by
  rw [extend, extend, h]

theorem evalUnary_congr {op : UnaryOp} (hty : ty.tybasic.tyequiv = ty'.tybasic.tyequiv)
    (hty1 : ty1.tybasic.tyequiv = ty1'.tybasic.tyequiv) :
    M.evalUnary op ty ty1 v s = M.evalUnary op ty' ty1' v s := by
  have hs := tysize_congr hty
  have hs1 := tysize_congr hty1
  have ht (x : Value) : ty.trunc x = ty'.trunc x := Ty.trunc_congr hs
  have hx (x : Value) : extend ty1 x = extend ty1' x := extend_congr hs1
  cases op <;> simp only [evalUnary, ht, hx, hs, hs1, hty, hty1]

theorem evalBinary_congr (hty : ty.tybasic.tyequiv = ty'.tybasic.tyequiv)
    (hty1 : ty1.tybasic.tyequiv = ty1'.tybasic.tyequiv) (hty2 : ty2.tybasic.tyequiv = ty2'.tybasic.tyequiv)
    (huns : op ∈ signedOps → ty1.tyuns = ty1'.tyuns ∧ ty2.tyuns = ty2'.tyuns) :
    M.evalBinary op ty ty1 ty2 v w s = M.evalBinary op ty' ty1' ty2' v w s := by
  have ht (x : Value) : ty.trunc x = ty'.trunc x := Ty.trunc_congr (tysize_congr hty)
  have hx1 (x : Value) : extend ty1 x = extend ty1' x := extend_congr (tysize_congr hty1)
  have hx2 (x : Value) : extend ty2 x = extend ty2' x := extend_congr (tysize_congr hty2)
  by_cases hop : op ∈ signedOps
  case pos =>
    have ⟨hu1, hu2⟩ := huns hop
    have hless (x y : Value) : less ty1 ty2 x y = less ty1' ty2' x y := by rw [less, less, hu1, hu2, hx1, hx2]
    have hless' (x y : Value) : less ty2 ty1 x y = less ty2' ty1' x y := by rw [less, less, hu1, hu2, hx1, hx2]
    cases op <;> simp only [evalBinary, ht, hx1, hx2, hu1, hu2, hless, hless', hty, hty1, hty2]
  case neg =>
    cases op <;> first
      | exact absurd (by decide) hop
      | simp only [evalBinary, ht, hx1, hty, hty1, hty2]

theorem apply_congr (hop : op.OTsideff = false) (hty : ty.tybasic.tyequiv = ty'.tybasic.tyequiv)
    (hty1 : ty1.tybasic.tyequiv = ty1'.tybasic.tyequiv) (hty2 : ty2.tybasic.tyequiv = ty2'.tybasic.tyequiv)
    (huns : op ∈ signedOps → ty1.tyuns = ty1'.tyuns ∧ ty2.tyuns = ty2'.tyuns) :
    M.apply op ty ty1 ty2 v w s = M.apply op ty' ty1' ty2' v w s := by
  simp only [apply, hop, Bool.false_eq_true, if_false, evalBinary_congr hty hty1 hty2 huns]

end Machine

theorem tyequiv_of_el_match (h : e.el_match e') : e.Ety.tybasic.tyequiv = e'.Ety.tybasic.tyequiv := by
  cases e <;> cases e' <;> simp only [Elem.el_match, Bool.and_eq_true, Bool.false_eq_true] at h
  case const.const   => exact tyequiv_of_matchTypes h.1
  case var.var       => exact tyequiv_of_matchTypes h.1.1
  case leaf.leaf     => exact tyequiv_of_matchTypes h.1.2
  case unary.unary   => exact tyequiv_of_matchTypes h.1.2
  case binary.binary => exact tyequiv_of_matchTypes h.1.1.2

-- The width and position of a bit field
theorem Vuns_congr (h : e.el_match e') (hty : e.Ety.tybasic = .TYuint) : e.Vuns = e'.Vuns := by
  cases e <;> cases e' <;> simp only [Elem.el_match, Bool.and_eq_true, Bool.false_eq_true, decide_eq_true_iff] at h
  case const.const ty v ty' v' =>
    have hsize : 8 * ty.tysize = 32 := by
      rw [Ty.tysize, show ty.tybasic = .TYuint from hty]
      rfl
    have hv := congrArg BitVec.toNat h.2
    rwa [Ty.toNat_trunc, Ty.toNat_trunc, hsize] at hv
  all_goals rfl

namespace Machine

theorem eval_eq_of_el_match (h : e.el_match e') (hs : e.el_sideeffect = false) (hp : e.Promoted) (hp' : e'.Promoted)
    (s : σ) : M.eval e s = M.eval e' s := by
  induction hn : sizeOf e using Nat.strong_induction_on generalizing e e'
  case h n ih =>
    subst hn
    have hty := tyequiv_of_el_match h
    cases e <;> cases e' <;> simp only [Elem.el_match, Bool.and_eq_true, Bool.false_eq_true, decide_eq_true_iff] at h
    case const.const ty v ty' v' =>
      rw [eval_const, eval_const, h.2]
      exact congrArg _ (Ty.trunc_congr (tysize_congr hty))
    case var.var ty sym offset ty' sym' offset' =>
      rw [eval_var, eval_var, h.1.2, h.2, tysize_congr (show ty.tybasic.tyequiv = ty'.tybasic.tyequiv from hty)]
      exact congrArg _ (Ty.trunc_congr (tysize_congr hty))
    case leaf.leaf op ty sym offset op' ty' sym' offset' =>
      have htrunc (v : Value) : ty.trunc v = ty'.trunc v := Ty.trunc_congr (tysize_congr hty)
      have htyequiv : ty.tybasic.tyequiv = ty'.tybasic.tyequiv := hty
      rw [eval_leaf, eval_leaf, ← h.1.1]
      split_ifs with haddress
      case pos =>
        rcases haddress with rfl | rfl
        all_goals
          simp only [Bool.and_eq_true, decide_eq_true_iff] at h
          rw [h.2.1, h.2.2, htrunc]
      case pos => rw [htyequiv]
      case neg => rw [htrunc, htyequiv]
    case unary.unary op ty e op' ty' e' =>
      rw [Elem.el_sideeffect, Bool.or_eq_false_iff, Bool.or_eq_false_iff] at hs
      have he := ih (sizeOf e) (by rw [Elem.unary.sizeOf_spec]; omega) h.2 hs.2 hp hp' rfl
      have hop (v : Value) (s : σ) : M.evalUnary op ty e.Ety v s = M.evalUnary op ty' e'.Ety v s :=
        evalUnary_congr hty (tyequiv_of_el_match h.2)
      rw [← h.1.1, eval_unary hs.1.2, eval_unary hs.1.2, he]
      simp only [hop]
    case binary.binary op ty e1 e2 op' ty' e1' e2' =>
      rw [Elem.el_sideeffect, Bool.or_eq_false_iff, Bool.or_eq_false_iff, Bool.or_eq_false_iff] at hs
      obtain ⟨⟨⟨rfl, -⟩, h2⟩, h1⟩ := h
      obtain ⟨⟨⟨-, hop⟩, hs1⟩, hs2⟩ := hs
      obtain ⟨hchar, hbit, hp1, hp2⟩ := hp
      obtain ⟨hchar', -, hp1', hp2'⟩ := hp'
      have he1 := ih (sizeOf e1) sizeOf_left h1 hs1 hp1 hp1' rfl
      have he2 := ih (sizeOf e2) sizeOf_right h2 hs2 hp2 hp2' rfl
      have hty1 := tyequiv_of_el_match h1
      have hty2 := tyequiv_of_el_match h2
      have huns (hsigned : op ∈ signedOps) : e1.Ety.tyuns = e1'.Ety.tyuns ∧ e2.Ety.tyuns = e2'.Ety.tyuns :=
        ⟨tyuns_congr hty1 (hchar hsigned).1 (hchar' hsigned).1, tyuns_congr hty2 (hchar hsigned).2 (hchar' hsigned).2⟩
      obtain ⟨hopeq, hreg | rfl | rfl | rfl | rfl | rfl⟩ := regular_of_sideff hop
      case inl =>
        have happly (v w : Value) (s : σ) : M.apply op ty e1.Ety e2.Ety v w s = M.apply op ty' e1'.Ety e2'.Ety v w s :=
          apply_congr hop hty hty1 hty2 huns
        obtain ⟨v, hv⟩ := M.exists_eval_eq_pure hs1 s
        obtain ⟨w, hw⟩ := M.exists_eval_eq_pure hs2 s
        simp only [eval_regular hreg hopeq, ← he1, ← he2, hv, hw, Result.pure_bind, happly]
      case inr.inl =>
        obtain ⟨v, hv⟩ := M.exists_eval_eq_pure hs1 s
        rw [eval_comma, eval_comma, ← he1, hv, Result.pure_bind, Result.pure_bind, he2]
      case inr.inr.inl =>
        obtain ⟨v, hv⟩ := M.exists_eval_eq_pure hs1 s
        rw [eval, eval, ← he1, hv, Result.pure_bind, Result.pure_bind, he2]
      case inr.inr.inr.inl =>
        obtain ⟨v, hv⟩ := M.exists_eval_eq_pure hs1 s
        rw [eval, eval, ← he1, hv, Result.pure_bind, Result.pure_bind, he2]
      case inr.inr.inr.inr.inl =>
        obtain ⟨v, hv⟩ := M.exists_eval_eq_pure hs1 s
        rw [eval, eval, ← he1, hv, Result.pure_bind, Result.pure_bind]
        cases e2 <;> cases e2' <;> simp only [Elem.el_match, Bool.and_eq_true, Bool.false_eq_true] at h2
        case binary.binary op ty3 e3 e4 op' ty3' e3' e4' =>
          rw [Elem.el_sideeffect, Bool.or_eq_false_iff, Bool.or_eq_false_iff] at hs2
          have he3 := ih (sizeOf e3) ((sizeOf_left).trans sizeOf_right) h2.2 hs2.1.2 hp2.2.2.1 hp2'.2.2.1 rfl
          have he4 := ih (sizeOf e4) ((sizeOf_right).trans sizeOf_right) h2.1.2 hs2.2 hp2.2.2.2 hp2'.2.2.2 rfl
          dsimp only
          rw [he3, he4]
        all_goals rfl
      case inr.inr.inr.inr.inr =>
        obtain ⟨v, hv⟩ := M.exists_eval_eq_pure hs1 s
        rw [eval, eval, ← he1, hv, Result.pure_bind, Result.pure_bind, ← Vuns_congr h2 (hbit rfl)]
        have huns' := (huns (by decide)).1
        have htrunc (x : Value) : e1.Ety.trunc x = e1'.Ety.trunc x := Ty.trunc_congr (tysize_congr hty1)
        have hbool : e1.Ety.tybasic = .TYbool ↔ e1'.Ety.tybasic = .TYbool := by
          revert hty1
          cases e1.Ety.tybasic <;> cases e1'.Ety.tybasic <;> decide
        simp only [fieldValue, huns', hbool, htrunc]

end Machine

end Compiler.Backend.Cgelem
