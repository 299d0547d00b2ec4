import DmdModel.Lib.Lockstep
import DmdModel.Compiler.Backend.BlockOpt

namespace Compiler.Backend

-- What evaluating an elem emits, and the state and the value that it returns with, if it returns.
abbrev Result (σ V E : Type) := List E × Option (σ × V)

namespace Result

variable {σ V W X E : Type}

def pure (s : σ) (v : V) : Result σ V E :=
  ([], some (s, v))

@[grind =]
def bind (r : Result σ V E) (f : σ → V → Result σ W E) : Result σ W E :=
  match r with
  | (t, some (s, v)) => (t ++ (f s v).1, (f s v).2)
  | (t, none) => (t, none)

-- What happens when the value is not looked at.
def discard (r : Result σ V E) : Result σ Unit E :=
  r.bind fun s _ => pure s ()

def Returns (r : Result σ V E) : Prop :=
  r.2.isSome

@[simp]
theorem pure_bind (s : σ) (v : V) (f : σ → V → Result σ W E) : (pure s v).bind f = f s v := by
  simp [pure, bind]

@[simp]
theorem bind_pure (r : Result σ V E) : r.bind pure = r := by
  match r with
  | (t, some (s, v)) => simp [bind, pure]
  | (t, none)        => rfl

theorem bind_assoc (r : Result σ V E) (f : σ → V → Result σ W E) (g : σ → W → Result σ X E) :
    (r.bind f).bind g = r.bind fun s v => (f s v).bind g := by
  match r with
  | (t, none)        => rfl
  | (t, some (s, v)) =>
    simp only [bind]
    match f s v with
    | (u, none)        => rfl
    | (u, some (s, v)) => simp [List.append_assoc]

end Result

-- A meaning of elems. Constants, commas, negation and the conditional operators mean what they do in
-- the source language; calls of functions that are marked so never return; everything else is any
-- transformer of states that evaluates its operands.
structure Interp (n : Nat) (σ V E : Type) where
  eval     : Elem n → σ → Result σ V E
  constant : Const → V
  bool     : Bool → V
  truth    : V → Bool
  number   : V → Int
  const    : ∀ ty c s, eval (.const ty c) s = .pure s (constant c)
  -- the address of a symbol or a string
  address  : ∀ op ty s, op = .relconst ∨ op = .string →
    ∃ v, eval (.leaf op ty) s = .pure s v ∧ truth v
  comma    : ∀ ty ET e1 e2 s,
    eval (.binary .comma ty ET e1 e2) s = (eval e1 s).bind fun s _ => eval e2 s
  not      : ∀ ty e s,
    eval (.unary .not ty e) s = (eval e s).bind fun s v => .pure s (bool (!truth v))
  andand   : ∀ ty ET e1 e2 s, eval (.binary .andand ty ET e1 e2) s =
    (eval e1 s).bind fun s v =>
      if truth v then (eval e2 s).bind fun s w => .pure s (bool (truth w)) else .pure s (bool false)
  oror     : ∀ ty ET e1 e2 s, eval (.binary .oror ty ET e1 e2) s =
    (eval e1 s).bind fun s v =>
      if truth v then .pure s (bool true) else (eval e2 s).bind fun s w => .pure s (bool (truth w))
  cond     : ∀ ty ET op ty' ET' e1 e2 e3 s, op = .colon ∨ op = .colon2 →
    eval (.binary .cond ty ET e1 (.binary op ty' ET' e2 e3)) s =
      (eval e1 s).bind fun s v => if truth v then eval e2 s else eval e3 s
  -- the value is that of the second operand
  info     : ∀ ty ET e1 e2 s t s' v, eval (.binary .info ty ET e1 e2) s = (t, some (s', v)) →
    ∃ s₁ t₁ s₂, eval e2 s₁ = (t₁, some (s₂, v))
  -- what never returns
  halt       : ∀ ty s, (eval (.leaf .halt ty) s).2 = none
  exit_ucall : ∀ ty ty' id offset s,
    (eval (.unary .ucall ty (.var ty' (.other id true) offset)) s).2 = none
  exit_call  : ∀ ty ET ty' id offset e s,
    (eval (.binary .call ty ET (.var ty' (.other id true) offset) e) s).2 = none
  operand    : ∀ op ty e, (∀ s, (eval e s).2 = none) → ∀ s, (eval (.unary op ty e) s).2 = none
  left       : ∀ op ty ET e1 e2, op ≠ .colon → op ≠ .colon2 → (∀ s, (eval e1 s).2 = none) →
    ∀ s, (eval (.binary op ty ET e1 e2) s).2 = none
  right      : ∀ op ty ET e1 e2, op ≠ .andand → op ≠ .oror → op ≠ .colon → op ≠ .colon2 →
    (∀ s, (eval e2 s).2 = none) → ∀ s, (eval (.binary op ty ET e1 e2) s).2 = none
  colon      : ∀ op ty ET e1 e2, (∀ s, (eval e1 s).2 = none) → (∀ s, (eval e2 s).2 = none) →
    ∀ s, (eval (.binary op ty ET e1 e2) s).2 = none
  truth_constant  : ∀ c, truth (constant c) = Elem.boolres c
  number_constant : ∀ value, number (constant (.integral value)) = value
  truth_bool      : ∀ b, truth (bool b) = b
  bool_true       : bool true = constant (.integral 1)

-- How a run ends.
inductive Outcome (V : Type)
  | returned (value : Option V)
  | exited
  -- a block that lacks the expression or the successor that its kind needs
  | stuck

namespace Interp

variable {n : Nat} {σ V E : Type} (I : Interp n σ V E)

def NeverReturns (e : Elem n) : Prop :=
  ∀ s, ¬(I.eval e s).Returns

-- What has the type noreturn does not return.
@[grind =]
def Typed : Elem n → Prop
  | .unary op ty E1 =>
    (ty.TYnoreturn → I.NeverReturns (.unary op ty E1)) ∧ Typed E1
  | .binary op ty ET E1 E2 =>
    (ty.TYnoreturn → I.NeverReturns (.binary op ty ET E1 E2)) ∧ Typed E1 ∧ Typed E2
  | e => e.Ety.TYnoreturn → I.NeverReturns e

@[grind =]
def evalBlock : Option (Elem n) → σ → Result σ (Option V) E
  | none, s => .pure s none
  | some e, s => (I.eval e s).bind fun s v => .pure s (some v)

-- What an optimizer of elems must keep when the value is not needed.
def KeepsEffects (doptelem : Elem n → Option (Elem n)) : Prop :=
  ∀ e s, (I.evalBlock (doptelem e) s).discard = (I.eval e s).discard

-- Only elems with equal meaning match.
def Respects (el_match : Option (Elem n) → Option (Elem n) → Bool) : Prop :=
  ∀ e e', el_match e e' → ∀ s, I.evalBlock e s = I.evalBlock e' s

-- Where a block goes on to with the value of its expression.
@[grind =]
def next (blk : Block Nat n) (v : Option V) : Nat ⊕ Outcome V :=
  match blk.bc, v with
  | .goto_, _ => goOn blk 0
  | .iftrue, some v => goOn blk (if I.truth v then 0 else 1)
  | .switch_, some v => goOn blk (BlockOpt.caseOf blk.Bswitch (I.number v))
  | .ret, _ => .inr (.returned none)
  | .retexp, some v => .inr (.returned (some v))
  | .exit, _ => .inr .exited
  | _, none => .inr .stuck
where
  goOn (blk : Block Nat n) (i : Nat) : Nat ⊕ Outcome V :=
    match blk.Bsucc[i]? with
    | some s => .inl s
    | none => .inr .stuck

-- The execution of one block.
@[grind =]
def step (bo : BlockOpt n) : Nat × σ → List E × ((Nat × σ) ⊕ Outcome V)
  | (b, s) =>
    match I.evalBlock (bo.block b).Belem s with
    | (t, none) => (t, .inr .exited)
    | (t, some (s, v)) =>
      match I.next (bo.block b) v with
      | .inl b => (t, .inl (b, s))
      | .inr o => (t, .inr o)

-- The runs of two lists of blocks, from the start and in any state, emit the same, return the same
-- and diverge in the same cases.
def SameBehaviour (bo bo' : BlockOpt n) : Prop :=
  ∀ b, bo.startblock = some b → ∃ b', bo'.startblock = some b' ∧
    ∀ s, Lockstep.Equivalent (I.step bo) (I.step bo') (b, s) (b', s)

-- The same, from every block.
def SameRuns (bo bo' : BlockOpt n) : Prop :=
  ∀ c, Lockstep.Equivalent (I.step bo) (I.step bo') c c

end Interp

end Compiler.Backend

-- An interpretation that can be run: the state are the values of the symbols, and a call emits its argument.
namespace Compiler.Backend.Evaluator

variable {n : Nat}

abbrev State (n : Nat) := Fin n → Int

def constant : Const → Int
  | .integral value => value
  | .other _ zero => if zero then 0 else 1

def bool (b : Bool) : Int :=
  if b then 1 else 0

def truth (v : Int) : Bool :=
  v ≠ 0

def assign (e : Elem n) (v : Int) (s : State n) : State n :=
  match e with
  | .var _ (.intab i) _ => Function.update s i v
  | _ => s

-- The function that is called is marked as never returning.
def exits : Elem n → Bool
  | .var _ (.other _ SFLexit) _ => SFLexit
  | _ => false

def call (e : Elem n) (v : Int) (s : State n) : Result (State n) Int Int :=
  ([v], if exits e then none else some (s, 0))

-- Evaluates an elem; where it is a colon, the arm is the one to evaluate.
@[grind =]
def run : Elem n → (arm : Option Bool) → State n → Result (State n) Int Int
  | .var _ (.intab i) _, _, s => .pure s (s i)
  | .var _ (.other ..) _, _, s => .pure s 0
  | .const _ c, _, s => .pure s (constant c)
  | .leaf op _, _, s => if op = .halt then ([], none) else .pure s 1
  | .unary op _ e, _, s =>
    (run e none s).bind fun s v =>
      match op with
      | .not => .pure s (bool (!truth v))
      | .ucall => call e 0 s
      | _ => .pure s v
  | .binary op _ _ e1 e2, arm, s =>
    match op with
    | .comma | .info => (run e1 none s).bind fun s _ => run e2 none s
    | .andand =>
      (run e1 none s).bind fun s v =>
        if truth v then (run e2 none s).bind fun s w => .pure s (bool (truth w))
        else .pure s (bool false)
    | .oror =>
      (run e1 none s).bind fun s v =>
        if truth v then .pure s (bool true)
        else (run e2 none s).bind fun s w => .pure s (bool (truth w))
    | .cond => (run e1 none s).bind fun s v => run e2 (some (truth v)) s
    | .colon | .colon2 =>
      match arm with
      | some true => run e1 none s
      | some false => run e2 none s
      | none => if (run e1 none s).2.isSome then run e1 none s else run e2 none s
    | .eq =>
      (run e2 none s).bind fun s v => (run e1 none s).bind fun s _ => .pure (assign e1 v s) v
    | .call => (run e2 none s).bind fun s v => (run e1 none s).bind fun s _ => call e1 v s
    | _ => (run e1 none s).bind fun s _ => run e2 none s

section never

variable {r : Result (State n) Int Int} {f : State n → Int → Result (State n) Int Int}
variable {e e1 e2 : Elem n} {op : BinaryOp} {ty : Ty} {ET : Nat}

theorem bind_none (h : r.2 = none ∨ ∀ s v, (f s v).2 = none) : (r.bind f).2 = none := by
  match r, h with
  | (t, none), _             => rfl
  | (t, some (s, v)), .inr h => exact h s v

theorem bind_left (h : r.2 = none) : (r.bind f).2 = none :=
  bind_none (.inl h)

theorem bind_right (h : ∀ s v, (f s v).2 = none) : (r.bind f).2 = none :=
  bind_none (.inr h)

-- An elem that never returns does not do so as an operand of a conditional operator.
theorem run_arm (h : ∀ s, (run e none s).2 = none) (arm : Option Bool) (s : State n) :
    (run e arm s).2 = none := by
  match e with
  | .var _ (.intab _) _  => exact h s
  | .var _ (.other ..) _ => exact h s
  | .const ..            => exact h s
  | .leaf ..             => exact h s
  | .unary ..            => exact h s
  | .binary op _ _ e1 e2 =>
    have hs := h s
    unfold run at hs ⊢
    split at hs
    case h_6 | h_7 =>
      have h₁ (s : State n) : (run e1 none s).2 = none := by
        have hs := h s
        simp only [run] at hs
        split at hs
        case isTrue  => exact hs
        case isFalse h => exact Option.not_isSome_iff_eq_none.mp h
      have h₂ (s : State n) : (run e2 none s).2 = none := by
        have hs := h s
        simp only [run] at hs
        rwa [h₁ s] at hs
      match arm with
      | some true  => exact h₁ s
      | some false => exact h₂ s
      | none       => exact hs
    all_goals exact hs

theorem run_left (h₁ : op ≠ .colon) (h₂ : op ≠ .colon2) (h : ∀ s, (run e1 none s).2 = none)
    (s : State n) : (run (.binary op ty ET e1 e2) none s).2 = none := by
  unfold run
  split
  case h_6 => exact absurd rfl h₁
  case h_7 => exact absurd rfl h₂
  case h_8 => exact bind_right fun _ _ => bind_left (h _)
  case h_9 => exact bind_right fun _ _ => bind_left (h _)
  all_goals exact bind_left (h s)

theorem run_right (h₁ : op ≠ .andand) (h₂ : op ≠ .oror) (h₃ : op ≠ .colon) (h₄ : op ≠ .colon2)
    (h : ∀ s, (run e2 none s).2 = none) (s : State n) :
    (run (.binary op ty ET e1 e2) none s).2 = none := by
  unfold run
  split
  case h_3 => exact absurd rfl h₁
  case h_4 => exact absurd rfl h₂
  case h_5 => exact bind_right fun s v => run_arm h _ s
  case h_6 => exact absurd rfl h₃
  case h_7 => exact absurd rfl h₄
  case h_8 | h_9 => exact bind_left (h s)
  all_goals exact bind_right fun s _ => h s

theorem run_both (h₁ : ∀ s, (run e1 none s).2 = none) (h₂ : ∀ s, (run e2 none s).2 = none)
    (s : State n) : (run (.binary op ty ET e1 e2) none s).2 = none := by
  by_cases hop : op = .colon ∨ op = .colon2
  case neg => exact run_left (fun h => hop (.inl h)) (fun h => hop (.inr h)) h₁ s
  case pos =>
    obtain rfl | rfl := hop
    all_goals
      simp only [run, h₁ s]
      exact h₂ s

end never

def interp (n : Nat) : Interp n (State n) Int Int where
  eval e s := run e none s
  constant := constant
  bool := bool
  truth := truth
  number := id
  const _ _ _ := rfl
  address op _ s h := by
    obtain rfl | rfl := h
    all_goals exact ⟨1, rfl, rfl⟩
  comma _ _ _ _ _ := rfl
  not _ _ _ := rfl
  andand _ _ _ _ _ := rfl
  oror _ _ _ _ _ := rfl
  cond _ _ op _ _ e1 e2 e3 s h := by
    obtain rfl | rfl := h
    all_goals
      simp only [run]
      congr 1
      funext s v
      cases truth v <;> rfl
  info _ _ e1 e2 s t s' v h := by
    simp only [run] at h
    match run e1 none s, h with
    | (t₁, some (s₁, v₁)), h =>
      simp only [Result.bind, Prod.mk.injEq] at h
      exact ⟨s₁, _, s', Prod.ext rfl h.right⟩
  halt _ _ := rfl
  exit_ucall _ _ _ _ _ := rfl
  exit_call _ _ _ _ _ e s := by
    simp only [run]
    exact bind_right fun _ _ => rfl
  operand op _ e h s := bind_left (h s)
  left op _ _ e1 e2 h₁ h₂ h := run_left h₁ h₂ h
  right op _ _ e1 e2 h₁ h₂ h₃ h₄ h := run_right h₁ h₂ h₃ h₄ h
  colon op _ _ e1 e2 h₁ h₂ := run_both h₁ h₂
  truth_constant c := by
    cases c with
    | integral value => rfl
    | other _ zero   => cases zero <;> rfl
  number_constant _ := rfl
  truth_bool b := by cases b <;> rfl
  bool_true := rfl

end Compiler.Backend.Evaluator
