import DmdModel.Compiler.Backend.Block

namespace Compiler.Backend

namespace Elem

variable {n : Nat}

-- The boolean result of a constant.
def boolres : Const → Bool
  | .integral value => value ≠ 0
  | .other _ zero => !zero

-- The expression will always evaluate to true.
@[grind =]
def iftrue : Elem n → Bool
  | binary .comma _ _ _ E2 | binary .info _ _ _ E2 => E2.iftrue
  | const _ value => boolres value
  | leaf .relconst _ | leaf .string _ => true
  | binary .oror _ _ _ E2 => E2.Ety.TYnoreturn
  | _ => false

-- The expression will always evaluate to false.
def iffalse : Elem n → Bool
  | binary .comma _ _ _ E2 | binary .info _ _ _ E2 => E2.iffalse
  | const _ value => !boolres value
  | binary .andand _ _ _ E2 => E2.Ety.TYnoreturn
  | _ => false

-- The commas down to the controlling elem get the type tym.
@[grind =]
def setTypes (tym : Ty) : Elem n → Elem n
  | binary .comma _ ET E1 E2 => binary .comma tym ET E1 (E2.setTypes tym)
  | e => e

-- !e in the place of the controlling elem is replaced by e; tym is the type of e.
@[grind =]
def removeNot (tym : Ty) : Elem n → Elem n
  | binary .comma _ ET E1 E2 => binary .comma tym ET E1 (E2.removeNot tym)
  | unary .not _ E1 => E1.setTypes tym
  | e => e

end Elem

-- The blocks of a function. A block that is not allocated yet is empty.
structure BlockOpt (n : Nat) where
  block : Nat → Block Nat n
  -- startblock, and the blocks that Bnext leads to from there
  list  : List Nat
  -- the next block that `block_calloc` returns
  fresh : Nat

-- The parts of the compiler that the passes over blocks call.
structure Passes (n : Nat) where
  -- optimizes an elem of which the value is not needed
  doptelem : Elem n → Option (Elem n)
  el_match : Option (Elem n) → Option (Elem n) → Bool

namespace BlockOpt

variable {n : Nat}

def startblock (bo : BlockOpt n) : Option Nat :=
  bo.list.head?

def modify (bo : BlockOpt n) (b : Nat) (f : Block Nat n → Block Nat n) : BlockOpt n :=
  { bo with block := Function.update bo.block b (f (bo.block b)) }

-- Adds b to the predecessors of s.
def pushPred (bo : BlockOpt n) (s b : Nat) : BlockOpt n :=
  bo.modify s fun blk => { blk with Bpred := blk.Bpred ++ [b] }

-- Removes the first b from the predecessors of s.
def subtractPred (bo : BlockOpt n) (s b : Nat) : BlockOpt n :=
  bo.modify s fun blk => { blk with Bpred := blk.Bpred.erase b }

-- Block b becomes an exit block, which has no successors.
def toExit (bo : BlockOpt n) (b : Nat) : BlockOpt n :=
  let bo := bo.modify b fun blk => { blk with bc := .exit }
  let bo := (bo.block b).Bsucc.foldl (fun bo s => bo.subtractPred s b) bo
  bo.modify b fun blk => { blk with Bsucc := [] }

section bropt

variable (p : Passes n)

-- Block b goes on to its other successor than db only.
def cutSucc (bo : BlockOpt n) (b db : Nat) : BlockOpt n :=
  let bo := bo.modify b fun blk => { blk with Bsucc := blk.Bsucc.erase db }
  let bo := bo.subtractPred db b
  bo.modify b fun blk => { blk with bc := .goto_ }

-- The expression of b is evaluated for its effects only.
def discardValue (bo : BlockOpt n) (b : Nat) : BlockOpt n :=
  bo.modify b fun blk => { blk with Belem := blk.Belem.bind p.doptelem }

-- Replace IF (!e) GOTO ...
def broptNot (bo : BlockOpt n) (b : Nat) (e : Elem n) : BlockOpt n × Elem n :=
  match e.el_scancommas with
  | .unary .not _ E1 =>
    let e := e.removeNot E1.Ety
    (bo.modify b fun blk => { blk with Belem := some e, Bsucc := blk.Bsucc.reverse }, e)
  | _ => (bo, e)

def broptIftrue (bo : BlockOpt n) (b : Nat) (e : Elem n) : Option (BlockOpt n) :=
  let (bo, e) := broptNot bo b e
  match (bo.block b).Bsucc with
  | s0 :: s1 :: _ =>
    if e.iftrue then
      some ((bo.cutSucc b s1).discardValue p b)
    else if e.iffalse then
      some ((bo.cutSucc b s0).discardValue p b)
    -- Look for both destinations being the same
    else if s0 = s1 then
      some (bo.cutSucc b s0)
    else
      some bo
  | _ => none

-- Removes b from the predecessors of its successors, but not from those of the i-th.
def subtractOtherPreds (bo : BlockOpt n) (b : Nat) : (succs : List Nat) → (i : Nat) → Option (BlockOpt n)
  | [], _ => some bo
  | _ :: succs, 0 => subtractAllPreds bo succs
  | s :: succs, i + 1 => do
    guard (b ∈ (bo.block s).Bpred)
    subtractOtherPreds (bo.subtractPred s b) b succs i
where
  subtractAllPreds (bo : BlockOpt n) : List Nat → Option (BlockOpt n)
  | [] => some bo
  | s :: succs => do
    guard (b ∈ (bo.block s).Bpred)
    subtractAllPreds (bo.subtractPred s b) succs

-- The position of the successor that a switch goes on to.
def caseOf (Bswitch : List Int) (value : Int) : Nat :=
  match Bswitch.idxOf? value with
  | some j => j + 1
  -- 0 means the default case
  | none => 0

def broptSwitch (bo : BlockOpt n) (b : Nat) (e : Elem n) : Option (BlockOpt n) :=
  match e.el_scancommas with
  | .const _ (.integral value) => do
    let i := caseOf (bo.block b).Bswitch value
    let db ← (bo.block b).Bsucc[i]?
    let bo ← bo.subtractOtherPreds b (bo.block b).Bsucc i
    let bo := bo.modify b fun blk => { blk with Bsucc := [db, db], bc := .goto_ }
    return bo.discardValue p b
  -- assert(tyintegral(n.Ety))
  | .const _ (.other ..) => none
  | _ => some bo

def broptBlock (bo : BlockOpt n) (b : Nat) : Option (BlockOpt n) :=
  let blk := bo.block b
  -- look for conditional that never returns
  if blk.bc ≠ .exit ∧ ∃ e ∈ blk.Belem, e.el_scancommas.Ety.TYnoreturn then
    some (bo.toExit b)
  else
    match blk.bc with
    | .iftrue => blk.Belem.bind (broptIftrue p bo b)
    | .switch_ => blk.Belem.bind (broptSwitch p bo b)
    | _ => some bo

-- Branch optimization; none if an assertion fails.
def bropt (bo : BlockOpt n) : Option (BlockOpt n) :=
  bo.list.foldlM (broptBlock p) bo

end bropt

section brrear

-- Block b takes on the flags of bt.
def orFlags (bo : BlockOpt n) (b bt : Nat) : BlockOpt n :=
  let flags := bo.block bt
  bo.modify b fun blk => { blk with
    label := blk.label || flags.label
    separate := blk.separate || flags.separate
    visited := blk.visited || flags.visited
  }

-- The i-th successor of b, bt, is replaced by t, where bt goes on to.
def retarget (bo : BlockOpt n) (b i bt t : Nat) : BlockOpt n :=
  let bo := bo.modify b fun blk => { blk with Bsucc := blk.Bsucc.set i t }
  let bo := bo.orFlags b bt
  (bo.pushPred t b).subtractPred bt b

-- If bt consists of nothing but an unconditional transfer, replace transfer address with that transfer
-- address. There are infinite loops; the number of iterations is limited.
def brrearEdge (bo : BlockOpt n) (b i : Nat) : (iterations : Nat) → (bt : Nat) → Option (BlockOpt n)
  | 0, _ => some bo
  | iterations + 1, bt =>
    if (bo.block bt).bc = .goto_ ∧ (bo.block bt).Belem = none then do
      let t ← (bo.block bt).Bsucc[0]?
      (bo.retarget b i bt t).brrearEdge b i iterations t
    else
      some bo

def brrearBlock (bo : BlockOpt n) (b : Nat) : Option (BlockOpt n) :=
  (List.range (bo.block b).Bsucc.length).foldlM
    (fun bo i => do bo.brrearEdge b i 9 (← (bo.block b).Bsucc[i]?)) bo

-- Branch rearrangement; none if a goto block has no successor.
def brrear (bo : BlockOpt n) : Option (BlockOpt n) :=
  bo.list.foldlM brrearBlock bo

end brrear

section brcombine

def TYint : Ty where
  tysize := 4

-- [e1 IFFALSE L3,L2] L2: [e2 GOTO L3] L3: [e3] becomes [(e1 && e2),e3].
def combineAnd (bo : BlockOpt n) (b b2 : Nat) : BlockOpt n :=
  let e2 := (bo.block b2).Belem
  let bo := bo.modify b fun blk => { blk with bc := .goto_ }
  let bo := match e2 with
    | some e2 =>
      let bo := bo.modify b fun blk =>
        { blk with Belem := blk.Belem.map fun e => .binary .andand TYint 0 e e2 }
      bo.modify b2 fun blk => { blk with Belem := none }
    | none => bo
  let bo := bo.modify b2 fun blk => { blk with Bsucc := blk.Bsucc.erase b2 }
  bo.subtractPred b2 b

-- if e1 return e2 else return e3 becomes return e1 ? e2 : e3.
def combineRetexp (bo : BlockOpt n) (b b2 b3 : Nat) (e2 e3 : Elem n) : BlockOpt n :=
  let bo := bo.modify b fun blk =>
    { blk with
      Belem := blk.Belem.map fun e => .binary .cond e2.Ety 0 e (.binary .colon2 e2.Ety 0 e2 e3)
      bc := .retexp }
  let bo := bo.modify b2 fun blk => { blk with Belem := none }
  let bo := bo.modify b3 fun blk => { blk with Belem := none }
  let bo := bo.modify b fun blk => { blk with Bsucc := [] }
  (bo.subtractPred b2 b).subtractPred b3 b

-- The expression of b when the gotos b2 and b3 to one block are put into it.
def combineGotoElem (e : Elem n) : (e2 e3 : Option (Elem n)) → Elem n
  | some e2, some e3 => .binary .cond e2.Ety 0 e (.binary .colon2 e2.Ety 0 e2 e3)
  | some e2, none => .binary .andand TYint 0 e e2
  | none, some e3 => .binary .oror TYint 0 e e3
  | none, none => e

-- if e1 goto e2 else goto e3, where b2 and b3 go on to bsucc.
def combineGoto (bo : BlockOpt n) (b b2 b3 bsucc : Nat) : BlockOpt n :=
  let e2 := (bo.block b2).Belem
  let e3 := (bo.block b3).Belem
  let bo := bo.modify b2 fun blk => { blk with Belem := none }
  let bo := bo.modify b fun blk =>
    { blk with Belem := blk.Belem.map (combineGotoElem · e2 e3), bc := .goto_ }
  let bo := bo.modify b3 fun blk => { blk with Belem := none }
  let bo := bo.modify b fun blk => { blk with Bsucc := [bsucc] }
  let bo := bo.pushPred bsucc b
  let bo := bo.modify b2 fun blk => { blk with Bpred := [], Bsucc := [] }
  let bo := bo.modify b3 fun blk => { blk with Bsucc := [] }
  let bo := bo.modify b2 fun blk => { blk with bc := .ret }
  let bo := bo.modify b3 fun blk => { blk with bc := .ret }
  (bo.subtractPred bsucc b2).subtractPred bsucc b3

def leafOrNone : Option (Elem n) → Bool
  | none => true
  | some e => e.OTleaf

-- The second half of the case analysis for b; bc2 is the kind that b2 had before.
def brcombineReturns (bo : BlockOpt n) (b b2 b3 : Nat) (bc2 : BC) : Option (BlockOpt n) :=
  let blk2 := bo.block b2
  let blk3 := bo.block b3
  if bc2 = .retexp ∧ blk3.bc = .retexp then do
    let e3 ← blk3.Belem
    if e3.OTleaf then
      let e2 ← blk2.Belem
      return bo.combineRetexp b b2 b3 e2 e3
    else
      return bo
  else if bc2 = .goto_ ∧ blk3.bc = .goto_ then do
    let s2 ← blk2.Bsucc[0]?
    let s3 ← blk3.Bsucc[0]?
    if s2 = s3 ∧ (blk2.Belem.isSome → leafOrNone blk3.Belem) then
      return bo.combineGoto b b2 b3 s2
    else
      return bo
  else
    some bo

def brcombineBlock (bo : BlockOpt n) (b : Nat) : Option (BlockOpt n) :=
  if (bo.block b).bc = .iftrue then do
    let b2 ← (bo.block b).Bsucc[0]?
    let b3 ← (bo.block b).Bsucc[1]?
    let blk2 := bo.block b2
    if blk2.Bpred.length > 1 ∨ b2 = b3 ∨ bo.startblock = some b2 ∨ ¬leafOrNone blk2.Belem then
      return bo
    else if blk2.bc = .goto_ ∧ blk2.Bsucc[0]? = some b3 then
      (bo.combineAnd b b2).brcombineReturns b b2 b3 .goto_
    else if (bo.block b3).Bpred.length > 1 ∨ bo.startblock = some b3 then
      return bo
    else
      bo.brcombineReturns b b2 b3 blk2.bc
  else
    some bo

-- Resolves if-else, goto and return statements into &&, || and ?:.
def brcombine (bo : BlockOpt n) : Option (BlockOpt n) :=
  bo.list.foldlM brcombineBlock bo

end brcombine

end BlockOpt

end Compiler.Backend
