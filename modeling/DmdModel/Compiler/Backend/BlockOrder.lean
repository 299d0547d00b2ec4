import DmdModel.Compiler.Backend.BlockMerge

namespace Compiler.Backend

namespace Elem

variable {n : Nat}

-- If any OPframeptr's.
@[grind =]
def el_anyframeptr : Elem n → Bool
  | unary _ _ E1 => E1.el_anyframeptr
  | binary _ _ _ E1 E2 => E2.el_anyframeptr || E1.el_anyframeptr
  | leaf op _ => op = .frameptr
  | _ => false

-- A call of the function funcsym.
def callsSelf (funcsym : Nat) : Elem n → Bool
  | unary op _ (var _ (.other id _) _) => (op = .ucall || op = .ucallns) && id = funcsym
  | binary op _ _ (var _ (.other id _) _) _ => (op = .call || op = .callns) && id = funcsym
  | _ => false

-- The arms of a conditional expression.
def arms : Elem n → Option (Elem n × Elem n)
  | binary op _ _ _ (binary _ _ _ E1 E2) => if op = .cond then some (E1, E2) else none
  | _ => none

-- One of the tails of the expression is a call of the function itself.
@[grind =]
def isCandidate (funcsym : Nat) : Elem n → Bool
  | binary op ty ET E1 (binary op' ty' ET' E2 E3) =>
    if op = .comma then (binary op' ty' ET' E2 E3).isCandidate funcsym
    else if op = .cond then E2.isCandidate funcsym || E3.isCandidate funcsym
    else (binary op ty ET E1 (binary op' ty' ET' E2 E3)).callsSelf funcsym
  | binary op ty ET E1 E2 =>
    if op = .comma then E2.isCandidate funcsym else (binary op ty ET E1 E2).callsSelf funcsym
  | e => e.callsSelf funcsym

-- Puts an expression in the place of the controlling elem.
def setControlling (e : Elem n) : Elem n → Elem n
  | binary .comma ty ET E1 E2 => binary .comma ty ET E1 (setControlling e E2)
  | _ => e

def left : Elem n → Elem n
  | binary _ _ _ E1 _ | unary _ _ E1 => E1
  | e => e

-- The number of elems.
@[grind =]
def nodes : Elem n → Nat
  | unary _ _ E1 => E1.nodes + 1
  | binary _ _ _ E1 E2 => E1.nodes + E2.nodes + 1
  | _ => 1

end Elem

namespace BlockOpt

variable {n : Nat}

section compdfo

def block_clearvisit (bo : BlockOpt n) : BlockOpt n :=
  bo.list.foldl (fun bo b => bo.modify b fun blk => { blk with visited := false }) bo

-- Adds b's successors to dfo, then b.
def walkDFO : (depth : Nat) → (b : Nat) → BlockOpt n × List Nat → Option (BlockOpt n × List Nat)
  | 0, _, _ => none
  | depth + 1, b, (bo, dfo) => do
    let bo := bo.modify b fun blk => { blk with visited := true }
    let (bo, dfo) ← (bo.block b).Bsucc.foldlM
      (fun st bs => if (st.1.block bs).visited then some st else walkDFO depth bs st) (bo, dfo)
    return (bo, dfo ++ [b])

-- Computes depth first order.
def compdfo (bo : BlockOpt n) : Option (BlockOpt n × List Nat) := do
  let bo := bo.block_clearvisit
  let (bo, dfo) ← walkDFO bo.fresh (← bo.startblock) (bo, [])
  return (bo, dfo.reverse)

end compdfo

section elimblks

-- A block that is neither visited nor needs a label.
def eliminable (blk : Block Nat n) : Bool :=
  !blk.visited && !blk.label

def elimblksBlock (bo : BlockOpt n) (b : Nat) : BlockOpt n :=
  if eliminable (bo.block b) then
    let bo := (bo.block b).Bsucc.foldl
      (fun bo s => if (bo.block s).visited then bo.subtractPred s b else bo) bo
    { bo with list := bo.list.filter (· ≠ b) }
  else
    bo

-- A block that is freed is cleared before it is used again.
def block_free (bo : BlockOpt n) (b : Nat) : BlockOpt n :=
  bo.modify b fun _ => { bc := .ret }

-- Removes blocks not marked as visited; they are freed when all are removed.
def elimblks (bo : BlockOpt n) : BlockOpt n :=
  let bf := bo.list.filter fun b => eliminable (bo.block b)
  bf.foldl block_free (bo.list.foldl elimblksBlock bo)

end elimblks

section brmin

-- The place after which the blocks before bs are moved: the first block that control does not go on from, as
-- long as the move is worthwhile.
def moveDistance (bo : BlockOpt n) : (bss : List Nat) → Nat
  | [] => 0
  | [_] => 1
  | b :: bss => if (bo.block b).Bsucc = [] then 1 else bo.moveDistance bss + 1

-- The blocks after b when those between b and its successor bs are moved away.
def moveToSucc (bo : BlockOpt n) (blocks rest : List Nat) (bs : Nat) : Option (List Nat) := do
  -- BC.exit should have been optimized by blexit().
  guard ((bo.block bs).bc ≠ .exit)
  -- Skip successors that are already closest to one of its predecessors.
  guard (∀ blp ∈ (bo.block bs).Bpred, (following blocks blp).head? ≠ some bs)
  let interlopers := rest.takeWhile (· ≠ bs)
  let bss := rest.dropWhile (· ≠ bs)
  guard (bss ≠ [])
  let distance := bo.moveDistance bss
  let moveCost := if distance > 5 then distance * 5 / 16 else 0
  let keepCost := interlopers.length * 5 / 16 + 5
  guard (moveCost ≤ keepCost)
  return bss.take distance ++ interlopers ++ bss.drop distance

def brminBlock (bo : BlockOpt n) (before : List Nat) (b : Nat) (rest : List Nat) : List Nat :=
  -- Skip the block if one of the successors is already at Bnext.
  if ∃ bnext ∈ rest.head?, bnext ∈ (bo.block b).Bsucc then
    rest
  else
    ((bo.block b).Bsucc.findSome? (bo.moveToSucc (before ++ b :: rest) rest)).getD rest

def brminFrom (bo : BlockOpt n) : (length : Nat) → (before rest : List Nat) → List Nat
  | length + 1, before, b :: rest =>
    let rest := bo.brminBlock before b rest
    b :: bo.brminFrom length (before ++ [b]) rest
  | _, _, rest => rest

-- Rearranges blocks to minimize jmp's.
def brmin (bo : BlockOpt n) : BlockOpt n :=
  match bo.list with
  | [] => bo
  | start :: rest => { bo with list := start :: bo.brminFrom rest.length [start] rest }

end brmin

section brtailrecursion

-- What tail recursion depends on.
structure TailRecursion (n : Nat) where
  -- allowed for the function, which takes no address of a local
  enabled      : Bool
  funcsym      : Nat
  -- converts the parameters of a call to assignment statements
  assignparams : Elem n → Elem n

variable (tr : TailRecursion n)

-- The empty return block that b goes on to, or none for a return block.
def returnBlock (bo : BlockOpt n) (b : Nat) : Option (Option Nat) :=
  let blk := bo.block b
  match blk.bc with
  | .ret | .retexp => some none
  | .goto_ => do
    let bn ← blk.Bsucc[0]?
    if (bo.block bn).Belem = none ∧ (bo.block bn).bc = .ret then some (some bn) else none
  | _ => none

-- Block b does not go on to bn any more.
def unlink (bo : BlockOpt n) (b : Nat) : (bn : Option Nat) → BlockOpt n
  | none => bo
  | some bn => (bo.modify b fun blk => { blk with Bsucc := blk.Bsucc.erase bn }).subtractPred bn b

-- The block x, which one arm of a conditional expression becomes, goes on to bn.
def linkArm (bo : BlockOpt n) (x : Nat) : (bn : Option Nat) → BlockOpt n
  | none => bo
  | some bn => (bo.modify x fun blk => { blk with Bsucc := blk.Bsucc ++ [bn] }).subtractPred bn x

-- Splits OPcond into a BC.iftrue block and two return blocks.
def splitCond (bo : BlockOpt n) (b : Nat) (bn : Option Nat) (e E1 E2 : Elem n) : BlockOpt n :=
  let b1 := bo.fresh
  let bo := bo.alloc { bc := .ret, Belem := some E1 }
  let b2 := bo.fresh
  let bo := bo.alloc { bc := .ret, Belem := some E2 }
  let bo := bo.modify b fun blk =>
    { blk with Belem := some (Elem.setControlling e.el_scancommas.left e) }
  let bo := ((bo.unlink b bn).linkArm b1 bn).linkArm b2 bn
  let bo := bo.modify b fun blk => { blk with Bsucc := blk.Bsucc ++ [b1, b2] }
  let bo := (bo.pushPred b1 b).pushPred b2 b
  let bc := (bo.block b).bc
  let bo := bo.modify b1 fun blk => { blk with bc := bc }
  let bo := bo.modify b2 fun blk => { blk with bc := bc }
  let bo := bo.modify b fun blk => { blk with bc := .iftrue }
  { bo with list := insertAfter b1 b2 (insertAfter b b1 bo.list) }

-- What takes the place of a call of the function itself.
def replaceCall : Elem n → Elem n
  | .binary _ _ _ _ E2 => tr.assignparams E2
  | _ => .const TYint (.integral 0)

-- A tail call becomes a goto to the start block, before which a new one is put.
def tailCall (bo : BlockOpt n) (b start : Nat) (bn : Option Nat) (e : Elem n) : BlockOpt n :=
  let bo := bo.modify b fun blk =>
    { blk with Belem := some (Elem.setControlling (replaceCall tr e.el_scancommas) e) }
  let bo := bo.unlink b bn
  let bo := bo.modify b fun blk => { blk with bc := .goto_, Bsucc := blk.Bsucc ++ [start] }
  let bo := bo.pushPred start b
  let bs := bo.fresh
  let bo := bo.alloc { bc := .goto_, Bsucc := [start] }
  let bo := bo.pushPred start bs
  { bo with list := bs :: bo.list }

-- The rest is what Bnext leads to.
def brtailrecursionFrom : (iterations : Nat) → List Nat → BlockOpt n → Option (BlockOpt n)
  | _, [], bo => some bo
  | 0, _ :: _, _ => none
  | iterations + 1, b :: rest, bo =>
    match (bo.block b).Belem, bo.returnBlock b with
    | some e, some bn =>
      if e.el_anyframeptr then
        some bo
      else
        match e.el_scancommas.arms with
        | some (E1, E2) =>
          if E1.isCandidate tr.funcsym || E2.isCandidate tr.funcsym then
            brtailrecursionFrom iterations (bo.fresh :: (bo.fresh + 1) :: rest)
              (bo.splitCond b bn e E1 E2)
          else
            brtailrecursionFrom iterations rest bo
        | none =>
          if e.el_scancommas.callsSelf tr.funcsym then do
            let start ← bo.startblock
            brtailrecursionFrom iterations rest (bo.tailCall tr b start bn e)
          else
            brtailrecursionFrom iterations rest bo
    | _, _ => brtailrecursionFrom iterations rest bo

-- Tail recursion.
def brtailrecursion (bo : BlockOpt n) : Option (BlockOpt n) :=
  if tr.enabled then
    let elems (b : Nat) : Nat := ((bo.block b).Belem.map Elem.nodes).getD 0
    brtailrecursionFrom tr (bo.list.map fun b => elems b + 1).sum bo.list bo
  else
    some bo

end brtailrecursion

end BlockOpt

end Compiler.Backend

namespace Compiler.Backend

-- A natural loop; the vectors over dfo are sets of blocks.
structure Loop where
  Lhead      : Nat
  Ltail      : Nat
  -- all blocks of the loop, and those that leave it
  Lloop      : Finset Nat
  Lexit      : Finset Nat
  -- the block that dominates the head and goes on to it only
  Lpreheader : Option Nat
  deriving DecidableEq

namespace BlockOpt

variable {n : Nat} (bo : BlockOpt n)

section compdom

-- The dominators of b, from those of its predecessors.
def domFromPreds (dfo : List Nat) (Bdom : Nat → Finset Nat) (b : Nat) : Finset Nat :=
  let Bpred := (bo.block b).Bpred
  let t1 := if Bpred ≠ [] then Bpred.foldl (fun t1 bl => t1 ∩ Bdom bl) dfo.toFinset else ∅
  -- each block doms itself
  insert b t1

def compdomBlock (dfo : List Nat) (st : (Nat → Finset Nat) × Bool) (b : Nat) :
    (Nat → Finset Nat) × Bool :=
  let (Bdom, changes) := st
  let t1 := bo.domFromPreds dfo Bdom b
  if changes then (Function.update Bdom b t1, true)
  else if Bdom b ≠ t1 then (Function.update Bdom b t1, true)
  else (Bdom, false)

-- None if there are changes in the last of the passes that the assertion allows.
def compdomFrom (dfo : List Nat) : (passes : Nat) → (Bdom : Nat → Finset Nat) → Option (Nat → Finset Nat)
  | 0, _ => none
  | passes + 1, Bdom =>
    let (Bdom, changes) := dfo.tail.foldl (bo.compdomBlock dfo) (Bdom, false)
    if changes then compdomFrom dfo passes Bdom else some Bdom

-- Computes dominators (Bdom) for each block; none if an assertion fails.
def compdom (dfo : List Nat) : Option (Nat → Finset Nat) := do
  let sb ← dfo.head?
  -- assert(counter < 50), after each pass
  bo.compdomFrom dfo 49 fun b => if b = sb then {sb} else dfo.toFinset

end compdom

section findloops

-- Adds a block and all its predecessors to v.
def buildloop.insert : (depth : Nat) → (b : Nat) → (v : Finset Nat) → Option (Finset Nat)
  | 0, b, v => if b ∈ v then some v else none
  | depth + 1, b, v =>
    -- if block is not in loop
    if b ∉ v then
      (bo.block b).Bpred.foldlM (fun v bl => insert depth bl v) (Insert.insert b v)
    else
      some v

-- The blocks of the loop that return, exit or have successors outside the loop.
def findExits (Lloop : Finset Nat) : Finset Nat :=
  Lloop.filter fun i =>
    let blk := bo.block i
    blk.bc = .ret ∨ blk.bc = .retexp ∨ blk.bc = .exit ∨ ∃ bl ∈ blk.Bsucc, bl ∉ Lloop

-- Looks for the preheader among the predecessors of the head.
def findPreheader (Lloop : Finset Nat) : (Bpred : List Nat) → (Lpreheader : Option Nat) → Option Nat
  | [], Lpreheader => Lpreheader
  | b :: Bpred, Lpreheader =>
    if b ∉ Lloop then
      match Lpreheader with
      -- can only be one
      | some _ => none
      | none =>
        -- if more than 1 successor, b can't be a preheader
        if (bo.block b).Bsucc.length > 1 then none else findPreheader Lloop Bpred (some b)
    else
      findPreheader Lloop Bpred Lpreheader

-- The loop once its blocks are known.
def completeLoop (head tail : Nat) (Lloop : Finset Nat) : Loop where
  Lhead      := head
  Ltail      := tail
  Lloop      := Lloop
  Lexit      := bo.findExits Lloop
  Lpreheader := bo.findPreheader Lloop (bo.block head).Bpred none

-- Constructs the natural loop of a back edge, or merges it into the one that there is with the same head.
def buildloop (dfo : List Nat) (head tail : Nat) : (loops : List Loop) → Option (List Loop)
  | [] => do
    let Lloop ← buildloop.insert bo dfo.length tail {head}
    return [bo.completeLoop head tail Lloop]
  | lp :: loops =>
    if lp.Lhead = head then do
      let v ← buildloop.insert bo dfo.length tail {head}
      return bo.completeLoop head lp.Ltail (lp.Lloop ∪ v) :: loops
    else do
      return lp :: (← buildloop dfo head tail loops)

-- Finds all the loops, the most nested ones first.
def findloops (dfo : List Nat) (Bdom : Nat → Finset Nat) : Option (List Loop) :=
  dfo.reverse.foldlM (fun loops b =>
    (bo.block b).Bsucc.foldlM (fun loops s =>
      -- if s dominates b
      if s ∈ Bdom b then bo.buildloop dfo s b loops else some loops) loops) []

end findloops

end BlockOpt

end Compiler.Backend
