import DmdModel.Lib.UseDef
import DmdModel.Compiler.Backend.LiveVars

namespace Compiler.Backend.LiveVars

open UseDef

variable {n : Nat}

-- What an elem does to the variables in the table while it executes.
inductive Access (n : Nat)
  | read  (si : Fin n)
  -- a dereference or a call
  | ambig
  -- a dereference by a bit test and modification
  | bits
  | asm
  | write (si : Fin n) (Voffset size : Nat)

namespace Access

-- The access may read the variable.
def Reads (globsym : Fin n → SymbolInfo) (v : Fin n) : Access n → Prop
  | read si      => si = v
  | ambig | bits => (globsym v).SFLdistinct = false
  | asm          => True
  | write ..     => False

-- The reads other than those by a bit test and modification.
def Notes (globsym : Fin n → SymbolInfo) (v : Fin n) (a : Access n) : Prop :=
  a.Reads globsym v ∧ a ≠ bits

-- The access overwrites the whole variable.
def Overwrites (globsym : Fin n → SymbolInfo) (v : Fin n) : Access n → Prop
  | write si Voffset size => si = v ∧ Voffset = 0 ∧ size = (globsym v).type_size
  | _ => False

theorem Notes.reads {globsym : Fin n → SymbolInfo} {v : Fin n} {a : Access n}
    (h : a.Notes globsym v) : a.Reads globsym v :=
  h.left

end Access

-- What operators access on their own, after their operands are evaluated.
def unaryReads : UnaryOp → Language (Access n)
  | .ind | .ucall | .ucallns | .strlen => {[.ambig]}
  | _ => 1

def binaryReads : BinaryOp → Language (Access n)
  | .call | .callns | .strcpy | .memcpy | .memset | .strcat | .memcmp | .strcmp | .bt =>
    {[.ambig]}
  | .btc | .btr | .bts => {[.bits]}
  | _ => 1

def store (size : Nat) : Elem n → Language (Access n)
  | .var _ (.intab si) Voffset => {[.write si Voffset size]}
  | _ => 1

-- The traces of accesses of an elem. Each operand that need not execute may or may not, and all calls
-- return.
def traces (config : Config) : Elem n → Language (Access n)
  | .var _ (.intab si) _ => {[.read si]}
  | .var _ (.other ..) _ => 1
  | .const .. => 1
  | .leaf op _ => if op = .asm then {[.asm]} else 1
  | .unary op _ E1 =>
    traces config E1 * unaryReads op * (if op = .negass then store E1.Ety.tysize E1 else 1)
  | .binary op ty ET E1 E2 =>
    if op = .colon ∨ op = .colon2 then
      traces config E1 + traces config E2
    else if op = .andand ∨ op = .oror then
      traces config E1 + traces config E1 * traces config E2
    else if op = .eq ∨ op = .streq then
      -- The lvalue is not read; what evaluates is its address.
      match E1 with
      | .unary _ _ t1 => traces config E2 * traces config t1
      | t => traces config E2 * store (if op = .streq then ET else t.Ety.tysize) t
    else
      (if ERTOL config op ty then traces config E2 * traces config E1
        else traces config E1 * traces config E2) *
      binaryReads op * (if op.stores then store E1.Ety.tysize E1 else 1)

section

variable {config : Config} {globsym : Fin n → SymbolInfo} {ambigsym : BitVec n} {v : Fin n}
variable {gk gk' gk₁ l r : GenKill n} {T U : Language (Access n)}

-- The GEN and KILL bits of v before and after a piece of code.
def Accumulates (globsym : Fin n → SymbolInfo) (v : Fin n) (T : Language (Access n))
    (gk gk' : GenKill n) : Prop :=
  Summarizes (Access.Notes globsym v) (Access.Overwrites globsym v) T
    (vec_testbit v gk.GEN) (vec_testbit v gk.KILL) (vec_testbit v gk'.GEN) (vec_testbit v gk'.KILL)

def Disjoint (v : Fin n) (gk : GenKill n) : Prop :=
  ¬(vec_testbit v gk.GEN ∧ vec_testbit v gk.KILL)

-- A bit for v is set.
def Touched (v : Fin n) (gk : GenKill n) : Prop :=
  vec_testbit v gk.GEN ∨ vec_testbit v gk.KILL

theorem disjoint_empty : Disjoint v GenKill.empty := by
  simp [Disjoint, GenKill.empty]

namespace Accumulates

theorem seq (h₁ : Accumulates globsym v T gk gk₁) (h₂ : Accumulates globsym v U gk₁ gk') :
    Accumulates globsym v (T * U) gk gk' :=
  Summarizes.seq h₁ h₂

-- What is accumulated from empty sets.
theorem fromEmpty (h : Accumulates globsym v T .empty gk') :
    Summarizes (Access.Notes globsym v) (Access.Overwrites globsym v) T
      False False (vec_testbit v gk'.GEN) (vec_testbit v gk'.KILL) := by
  have h : Summarizes _ _ T _ _ _ _ := h
  simpa [GenKill.empty] using h

theorem touched (h : Accumulates globsym v T gk gk') (ht : Touched v gk) : Touched v gk' :=
  ht.imp h.gen_mono h.mono

theorem genVar (si : Fin n) : Accumulates globsym v {[.read si]} gk (gk.genVar (.intab si)) := by
  have hd : ¬(Access.read si).Overwrites globsym v := not_false
  by_cases hv : si = v
  case pos =>
    subst hv
    have hu : (Access.read si).Notes globsym si := ⟨rfl, nofun⟩
    refine (Summarizes.use hu).congr ?_ ?_
    all_goals simp only [GenKill.genVar]
    all_goals split <;> simp_all
  case neg =>
    have hu : ¬(Access.read si).Notes globsym v := fun h => hv h.left
    refine (Summarizes.skip hu hd).congr ?_ ?_
    all_goals simp only [GenKill.genVar]
    all_goals split <;> simp_all

theorem touched_genVar : Touched v (gk.genVar (.intab v)) := by
  simp only [Touched, GenKill.genVar]
  split <;> simp_all

theorem gen (ha : ∀ i, vec_testbit i ambigsym = !(globsym i).SFLdistinct) (hd : Disjoint v gk) :
    Accumulates globsym v {[.ambig]} gk (gk.gen ambigsym) := by
  have hv := ha v
  have ho : ¬Access.ambig.Overwrites globsym v := not_false
  by_cases hs : (globsym v).SFLdistinct = false
  case pos =>
    have hu : Access.ambig.Notes globsym v := ⟨hs, nofun⟩
    refine (Summarizes.use hu).congr ?_ .rfl
    simp_all [Disjoint, GenKill.gen]
  case neg =>
    have hu : ¬Access.ambig.Notes globsym v := fun h => hs h.left
    refine (Summarizes.skip hu ho).congr ?_ .rfl
    simp_all [Disjoint, GenKill.gen]

theorem asm (hd : Disjoint v gk) :
    Accumulates globsym v {[.asm]} gk
      { gk with GEN := BitVec.allOnes n &&& ~~~gk.KILL } := by
  have hu : Access.asm.Notes globsym v := ⟨trivial, nofun⟩
  refine (Summarizes.use hu).congr ?_ .rfl
  simp_all [Disjoint]

theorem bits : Accumulates globsym v {[.bits]} gk gk :=
  Summarizes.skip (fun h => h.right rfl) (by exact not_false)

theorem killVar (si : Fin n) (Voffset size : Nat) :
    Accumulates globsym v {[.write si Voffset size]} gk
      (gk.killVar globsym Voffset size (.intab si)) := by
  have hu : ¬(Access.write si Voffset size).Notes globsym v := fun h => h.left
  by_cases hw : (Access.write si Voffset size).Overwrites globsym v
  case pos =>
    refine (Summarizes.define hu hw).congr ?_ ?_
    all_goals obtain ⟨rfl, rfl, rfl⟩ := hw
    all_goals cases hg : gk.GEN[(si : ℕ)] <;> simp [GenKill.killVar, hg]
  case neg =>
    refine (Summarizes.skip hu hw).congr ?_ ?_
    all_goals simp only [GenKill.killVar]
    all_goals split <;> simp only []
    case refine_2.isTrue h =>
      have hv : si ≠ v := by
        rintro rfl
        simp only [Bool.and_eq_true, beq_iff_eq] at h
        exact hw ⟨rfl, h.left.right, h.right⟩
      simp [hv]

theorem rewrite (si : Fin n) (Voffset size : Nat) (h : si = v → Touched v gk) :
    Accumulates globsym v {[.write si Voffset size]} gk gk := by
  have hu : ¬(Access.write si Voffset size).Notes globsym v := fun h => h.left
  by_cases hv : si = v
  case pos => exact Summarizes.redefine hu (h hv)
  case neg => exact Summarizes.skip hu fun h => hv h.left

theorem arms (hl : Accumulates globsym v T .empty l) (hr : Accumulates globsym v U .empty r) :
    Accumulates globsym v (T + U) gk (gk.arms l r) := by
  refine (Summarizes.arms (k := vec_testbit v gk.KILL = true) hl.fromEmpty hr.fromEmpty).congr ?_ ?_
  case refine_1 => simp [GenKill.arms]
  case refine_2 => cases hk : vec_testbit v gk.KILL <;> simp [GenKill.arms, hk]

theorem maybe (hl : Accumulates globsym v T gk gk₁) (hr : Accumulates globsym v U .empty r) :
    Accumulates globsym v (T + T * U) gk (gk₁.maybe r) := by
  refine (Summarizes.maybe hl hr.fromEmpty).congr ?_ ?_
  all_goals simp [GenKill.maybe]

end Accumulates

theorem accumulates_store (hl : e.isLvalue) (size : Nat)
    (ht : ∀ ty off, e = .var ty (.intab v) off → Touched v gk) :
    Accumulates globsym v (store size e) gk gk := by
  cases e with
  | var ty s off =>
    cases s with
    | intab si => exact .rewrite si off size fun h => ht ty off (h ▸ rfl)
    | other    => exact .refl
  | unary op ty E1 =>
    cases op with
    | ind => exact .refl
    | _   => cases hl
  | _ => cases hl

variable (ha : ∀ i, vec_testbit i ambigsym = !(globsym i).SFLdistinct)

theorem accumlv_touched {ty : Ty} {off : Nat} :
    Touched v (accumlv config globsym ambigsym gk (.var ty (.intab v) off)) :=
  Accumulates.touched_genVar

-- The binary operators that `accumlv` has no case for.
def plain : BinaryOp → Bool
  | .colon | .colon2 | .andand | .oror | .call | .callns | .strcpy | .memcpy | .memset | .strcat
  | .eq | .streq | .memcmp | .strcmp | .bt => false
  | _ => true

theorem accumlv_plain (h : plain op) :
    accumlv config globsym ambigsym gk (.binary op ty ET E1 E2) =
      if ERTOL config op ty then
        accumlv config globsym ambigsym (accumlv config globsym ambigsym gk E2) E1
      else
        accumlv config globsym ambigsym (accumlv config globsym ambigsym gk E1) E2 := by
  cases op <;> first | rfl | cases h

-- What an assignment does with its left operand.
def assigned (config : Config) (op : BinaryOp) (ET : Nat) : Elem n → Language (Access n)
  | .unary _ _ t1 => traces config t1
  | t => store (if op = .streq then ET else t.Ety.tysize) t

theorem traces_binary :
    traces config (.binary op ty ET E1 E2) =
      if op = .colon ∨ op = .colon2 then
        traces config E1 + traces config E2
      else if op = .andand ∨ op = .oror then
        traces config E1 + traces config E1 * traces config E2
      else if op = .eq ∨ op = .streq then
        traces config E2 * assigned config op ET E1
      else
        (if ERTOL config op ty then traces config E2 * traces config E1
          else traces config E1 * traces config E2) *
        binaryReads op * (if op.stores then store E1.Ety.tysize E1 else 1) := by
  cases E1 <;> simp only [traces, assigned]

theorem traces_plain (h : plain op) :
    traces config (.binary op ty ET E1 E2) =
      (if ERTOL config op ty then traces config E2 * traces config E1
        else traces config E1 * traces config E2) *
      binaryReads op * (if op.stores then store E1.Ety.tysize E1 else 1) := by
  have h₁ : ¬(op = .colon ∨ op = .colon2) := by rintro (rfl | rfl) <;> cases h
  have h₂ : ¬(op = .andand ∨ op = .oror) := by rintro (rfl | rfl) <;> cases h
  have h₃ : ¬(op = .eq ∨ op = .streq) := by rintro (rfl | rfl) <;> cases h
  rw [traces_binary, if_neg h₁, if_neg h₂, if_neg h₃]

theorem accumulates_binaryReads (h : plain op) :
    Accumulates globsym v (binaryReads op) gk gk := by
  cases op <;> first | exact .refl | exact .bits | cases h

include ha in
theorem accumlv_accumulates (e : Elem n) (gk : GenKill n) (hwf : e.WellFormed)
    (hd : Disjoint v gk) :
    Accumulates globsym v (traces config e) gk (accumlv config globsym ambigsym gk e) := by
  match e with
  | .var _ (.intab si) _ => exact .genVar si
  | .var _ (.other ..) _ => exact .refl
  | .const ..            => exact .refl
  | .leaf op ty          =>
    by_cases hop : op = .asm
    case pos => subst hop; exact .asm hd
    case neg =>
      simp only [traces, hop, if_false, accumlv]
      exact .refl
  | .unary op ty E1 =>
    have h₁ := accumlv_accumulates E1 gk hwf.right hd
    rw [traces]
    split
    case isTrue hop =>
      subst hop
      refine (h₁.seq .refl).seq (accumulates_store (hwf.left rfl) _ fun _ _ h => ?_)
      subst h
      exact accumlv_touched
    case isFalse =>
      rw [mul_one]
      cases op
      case ind | ucall | ucallns | strlen => exact h₁.seq (.gen ha (h₁.disjoint hd))
      all_goals exact h₁.seq .refl
  | .binary op ty ET E1 E2 =>
    obtain ⟨hl, hwf₁, hwf₂⟩ := hwf
    have h₁ {gk} := accumlv_accumulates E1 gk hwf₁
    have h₂ {gk} := accumlv_accumulates E2 gk hwf₂
    have hlr := (h₁ hd).seq (h₂ ((h₁ hd).disjoint hd))
    have hrl := (h₂ hd).seq (h₁ ((h₂ hd).disjoint hd))
    by_cases hop : plain op
    case pos =>
      rw [traces_plain hop, accumlv_plain hop]
      split
      case isTrue =>
        refine (hrl.seq (accumulates_binaryReads hop)).seq ?_
        split
        case isTrue hs =>
          refine accumulates_store (hl hs) _ fun _ _ h => ?_
          subst h
          exact accumlv_touched
        case isFalse => exact .refl
      case isFalse =>
        refine (hlr.seq (accumulates_binaryReads hop)).seq ?_
        split
        case isTrue hs =>
          refine accumulates_store (hl hs) _ fun _ _ h => (h₂ ((h₁ hd).disjoint hd)).touched ?_
          subst h
          exact accumlv_touched
        case isFalse => exact .refl
    case neg =>
      rw [traces_binary]
      cases op <;> try exact absurd rfl hop
      case colon | colon2 => exact (h₁ disjoint_empty).arms (h₂ disjoint_empty)
      case andand | oror => exact (h₁ hd).maybe (h₂ disjoint_empty)
      case call | callns | strcpy | memcpy | memset =>
        exact (hrl.seq (.gen ha (hrl.disjoint hd))).seq .refl
      case strcat | memcmp | strcmp | bt =>
        exact (hlr.seq (.gen ha (hlr.disjoint hd))).seq .refl
      case eq | streq =>
        refine (h₂ hd).seq ?_
        clear hlr hrl h₁
        have hl := hl rfl
        cases E1 with
        | var ty s off =>
          cases s with
          | intab si => exact .killVar si off _
          | other    => exact .refl
        | unary op ty t1 =>
          cases op with
          | ind => exact accumlv_accumulates t1 _ hwf₁.right ((h₂ hd).disjoint hd)
          | _   => cases hl
        | _ => cases hl

end

end Compiler.Backend.LiveVars
