import DmdModel.Compiler.Backend.Gother.Ranges
import DmdModel.Compiler.Backend.Cgelem.Theorems.Compare

namespace Compiler.Backend.Cgelem.Gother

open LastWriter Tybasic

variable [Target] {fn : Function} {rel : Elemdata Elem} {s s' : RunState} {m m' : Memory} {d : Nat} {IN : Nat → Bool}
variable {op : BinaryOp} {ty ty1 ty2 ty3 : Ty} {v : Symbol} {Voffset c c' w : Value}

-- The value of a variable
def valueOf (ty : Ty) (v : Symbol) (Voffset : Value) (m : Memory) : Value :=
  ty.trunc (BitVec.ofNat 64 (ByteMemory.read (fun q => m (v, q)) Voffset.toNat ty.tysize))

-- What a definition sets its variable to.
def newValue (op : BinaryOp) (old w : Value) : Value :=
  match op with
  | .addass | .postinc => old + w
  | .minass | .postdec => old - w
  | _ => w

-- A variable is set, and nothing else.
theorem store_eq : ∃ m', symbolMemory.store { loc := .var v Voffset, ty } w m = .pure m' (ty.trunc w) ∧
    valueOf ty v Voffset m' = ty.trunc w ∧ ∀ c, c ∉ cells v Voffset.toNat ty.tysize → m' c = m c := by
  refine ⟨_, rfl, ?_, fun c hc => ?_⟩
  case refine_1 =>
    have hlt : (ty.trunc w).toNat < 256 ^ ty.tysize := by
      rw [Ty.toNat_trunc, show 256 = 2 ^ 8 from rfl, ← pow_mul]
      exact Nat.mod_lt _ (Nat.two_pow_pos _)
    rw [valueOf]
    simp only [if_true]
    rw [ByteMemory.read_write hlt, BitVec.ofNat_toNat, BitVec.setWidth_eq, Ty.trunc_trunc]
  case refine_2 =>
    obtain ⟨v', q⟩ := c
    dsimp only
    split_ifs with hv
    case neg => rfl
    case pos =>
      obtain rfl : v' = v := hv
      rw [ByteMemory.write_other]
      by_contra hq
      exact hc ⟨rfl, by omega, by omega⟩

section run

variable {meets : RunState → Nat → Prop} {startblock b : Nat}

theorem Run.reaches (h : Run fn meets startblock b s) : Reaches (fun s d s' => meets s d ∧ Define fn s d s') s := by
  induction h
  case start                    => exact .start
  case goto ih                  => exact ih
  case define hmeets hdefine ih => exact .next ih ⟨hmeets, hdefine⟩

end run

section lists

end lists

-- Constants that are the same value of their size are extended alike.
def ExtendedAlike (ty2 : Ty) (c : Value) (ty3 : Ty) (c' : Value) : Prop :=
  ty3.trunc c' = ty2.trunc c → (Elem.const ty3 c').el_tolong = (Elem.const ty2 c).el_tolong

def Nonnegative (ty : Ty) (w : Value) : Prop :=
  2 * w.toNat < 2 ^ (8 * ty.tysize)

-- What a definition that reaches a comparison must meet when it is executed. For == and != its constant is extended like
-- the one that is compared with. For the others it sets just the variable, and the variable does not become negative.
def Meets (fn : Function) (rel : Elemdata Elem) (s : RunState) (d : Nat) : Prop :=
  match rel.pelem, DNelem fn d with
  | .binary op _ (.var ty1 v Voffset) (.const ty2 c), some (.binary op' _ (.var ty1' _ Voffset') (.const ty2' c')) =>
    d ∈ rel.rdlist → op' ∈ assigning →
      if op = .eqeq ∨ op = .ne then
        ExtendedAlike ty2 c ty2' c'
      else
        ty1'.tysize = ty1.tysize ∧ Voffset' = Voffset ∧
          Nonnegative ty1 (ty1.trunc (newValue op' (valueOf ty1 v Voffset s.mem) (ty2'.trunc c')))
  | _, _ => True

section

variable {startblock b : Nat} {inclist : List (Elemdata Nat)}

end

section

end

end Compiler.Backend.Cgelem.Gother
