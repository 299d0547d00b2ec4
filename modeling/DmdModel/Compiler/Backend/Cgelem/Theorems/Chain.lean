import DmdModel.Compiler.Backend.Cgelem.BitField
import DmdModel.Compiler.Backend.Cgelem.Theorems.Eval

-- Chains of || and && by their operands.
namespace Compiler.Backend

namespace Result

variable {σ V W E : Type} {r : Result σ V E} {P Q : σ → V → Prop}

-- What holds for the state and the value, if there are any.
def All (r : Result σ V E) (P : σ → V → Prop) : Prop :=
  match r with
  | (_, some (s, v)) => P s v
  | (_, none)        => True

@[simp]
theorem all_pure {s : σ} {v : V} : (pure s v : Result σ V E).All P ↔ P s v :=
  Iff.rfl

theorem All.mono (h : r.All P) (hpq : ∀ s v, P s v → Q s v) : r.All Q := by
  cases r with | mk t x =>
    cases x
    case none   => trivial
    case some p => exact hpq p.1 p.2 h

end Result

namespace Cgelem

open Machine

variable [Target] {σ E : Type} {M : Machine σ E} {s : σ} {e e' e1 e2 : Elem} {xs ys : List Elem} {op : BinaryOp} {ty : Ty}
  {stop b : Bool} {v : Value}

omit [Target] in
theorem ofBool_ne_zero_iff : ofBool b ≠ 0 ↔ b = true := by
  cases b <;> decide

omit [Target] in
@[simp]
theorem decide_ofBool : decide (ofBool b ≠ 0) = b := by
  cases b <;> rfl

-- The truth of what an elem gives
def truth (r : Result σ Value E) : Result σ Value E :=
  r.bind fun s v => .pure s (ofBool (v ≠ 0))

namespace Machine

variable (M) in
-- The operands are evaluated up to the first one that has the truth value `stop`.
@[grind =]
def evalChain (stop : Bool) : List Elem → σ → Result σ Value E
  | [], s      => .pure s (ofBool !stop)
  | e :: es, s =>
    (M.eval e s).bind fun s v => if decide (v ≠ 0) = stop then .pure s (ofBool stop) else evalChain stop es s

-- The truth value that ends the evaluation of a chain.
def stopOf (op : BinaryOp) : Bool :=
  op = .oror

def logical (op : BinaryOp) : Prop :=
  op = .andand ∨ op = .oror

variable (M) in
-- The bit tests that are evaluated in a chain, an operand of which can be a chain itself, are for bits of their left
-- operands. Those in operands of other operators are not looked at.
def ShiftsInRange : Elem → σ → Prop
  | .binary .andand _ e1 e2, s => ShiftsInRange e1 s ∧ (M.eval e1 s).All fun s v => v ≠ 0 → ShiftsInRange e2 s
  | .binary .oror _ e1 e2, s   => ShiftsInRange e1 s ∧ (M.eval e1 s).All fun s v => ¬ v ≠ 0 → ShiftsInRange e2 s
  | .binary .btst _ e1 e2, s   =>
    (M.eval e1 s).All fun s _ => (M.eval e2 s).All fun _ w => w.toNat < 8 * e1.Ety.tysize
  | _, _                       => True

end Machine

end Cgelem

end Compiler.Backend
