import DmdModel.Compiler.Backend.BlockOpt

namespace Compiler.Backend

namespace Elem

variable {n : Nat}

-- The expressions of a comma expression.
@[grind =]
def bl_enlist2 : Elem n → List (Elem n)
  | binary .comma _ _ E1 E2 => E1.bl_enlist2 ++ E2.bl_enlist2
  | e => [e]

-- A list of expressions as one expression.
def bl_delist2 (elems : List (Elem n)) : Option (Elem n) :=
  elems.foldl (fun result e => el_combine result (some e)) none

-- What is left of a comma expression without its last expression.
@[grind =]
def snipTrailingOPcomma : Elem n → Option (Elem n)
  | binary .comma ty ET E1 E2 =>
    match E2.snipTrailingOPcomma with
    | some E2 => some (binary .comma ty ET E1 E2)
    | none => some E1
  | _ => none

-- The function is marked as never returning.
def callsExit : Elem n → Bool
  | var _ (.other _ SFLexit) _ => SFLexit
  | _ => false

-- The expression may return.
@[grind =]
def el_returns : Elem n → Bool
  | binary op _ _ E1 E2 =>
    if op = .call then !E1.callsExit
    else if op = .andand ∨ op = .oror then E1.el_returns
    else if op = .colon ∨ op = .colon2 then E1.el_returns || E2.el_returns
    else E2.el_returns && E1.el_returns
  | unary op _ E1 => if op = .ucall then !E1.callsExit else E1.el_returns
  | leaf op _ => op ≠ .halt
  | _ => true

-- The number of `OPdctor` leaves; `OPddtor` is a unary operator and does not count.
def accumDctor : Elem n → Nat
  | unary _ _ E1 => E1.accumDctor
  | binary _ _ _ E1 E2 => E1.accumDctor + E2.accumDctor
  | leaf .dctor _ => 1
  | _ => 0

-- E1 and E2 of an expression E1 || E2 where E2 is a call that never returns.
def assertion : Elem n → Option (Elem n × Elem n)
  | binary .oror _ _ E1 (binary .call ty ET f args) =>
    if f.callsExit then some (E1, binary .call ty ET f args) else none
  | _ => none

end Elem

namespace BlockOpt

variable {n : Nat}

-- The list with x after b.
def insertAfter (b x : Nat) : List Nat → List Nat
  | [] => []
  | c :: l => if c = b then c :: x :: l else c :: insertAfter b x l

-- A new block.
def alloc (bo : BlockOpt n) (blk : Block Nat n) : BlockOpt n :=
  { bo with block := Function.update bo.block bo.fresh blk, fresh := bo.fresh + 1 }

-- The blocks that Bnext leads to from b.
def following (l : List Nat) (b : Nat) : List Nat :=
  (l.dropWhile (· ≠ b)).tail

section blident

variable (p : Passes n)

-- Blocks are identical if BC, successors and elems match.
def identical (bo : BlockOpt n) (bn b : Nat) : Bool :=
  let blkn := bo.block bn
  let blk := bo.block b
  blk.bc = blkn.bc && (!blk.separate || blk.Bsucc.isEmpty) && blk.Bsucc = blkn.Bsucc &&
    p.el_match blk.Belem blkn.Belem && (blk.bc ≠ .switch_ || blk.Bswitch = blkn.Bswitch)

-- Changes the successors bn of bp to b.
def redirectPred (bn b : Nat) (bo : BlockOpt n) (bp : Nat) : BlockOpt n :=
  let k := (bo.block bp).Bsucc.count bn
  let bo := bo.modify bp fun blk =>
    { blk with Bsucc := blk.Bsucc.map fun bls => if bls = bn then b else bls }
  bo.modify b fun blk => { blk with Bpred := blk.Bpred ++ List.replicate k bp }

-- Changes successors to predecessors of bn to point to b instead of bn. elimblks will delete bn entirely.
def eliminate (bo : BlockOpt n) (bn b : Nat) : BlockOpt n :=
  let bo := (bo.block bn).Bpred.foldl (redirectPred bn b) bo
  bo.modify bn fun blk => { blk with Bpred := [] }

def blidentBlock (bo : BlockOpt n) (bn : Nat) : BlockOpt n :=
  if (bo.block bn).separate then
    bo
  -- can't handle predecessors to startblock
  else if bo.startblock = some bn then
    bo
  else
    match (following bo.list bn).find? (bo.identical p bn) with
    | some b => bo.eliminate bn b
    | none => bo

-- Combines together blocks that are identical.
def blident (bo : BlockOpt n) : BlockOpt n :=
  bo.list.foldl (blidentBlock p) bo

end blident

section blreturn

-- Splits b into a goto and a b.
def splitReturn (bo : BlockOpt n) (b : Nat) : BlockOpt n :=
  let bn := bo.fresh
  let bo := bo.alloc { bc := .ret, Bpred := [b] }
  let bo := bo.modify b fun blk => { blk with bc := .goto_, Bsucc := blk.Bsucc ++ [bn] }
  { bo with list := insertAfter b bn bo.list }

def blreturnBlock (bo : BlockOpt n) (b : Nat) : BlockOpt n :=
  let blk := bo.block b
  if blk.bc = .ret ∧ blk.Belem.isSome then bo.splitReturn b else bo

-- Splits out return blocks so the returns can be combined into a single block by blident, if the code is
-- optimized for space.
def blreturn (p : Passes n) (MFtime : Bool) (bo : BlockOpt n) : BlockOpt n :=
  if MFtime then
    bo
  else if bo.list.countP (fun b => (bo.block b).bc = .ret) < 2 then
    bo
  else
    (bo.list.foldl blreturnBlock bo).blident p

end blreturn

section bltailmerge

variable (p : Passes n)

def sameTail (bo : BlockOpt n) (b bn : Nat) : Bool :=
  let blk := bo.block b
  let blkn := bo.block bn
  blk.bc = blkn.bc && blk.Bsucc = blkn.Bsucc && blkn.Belem.isSome &&
    (blk.bc ≠ .switch_ || blk.Bswitch = blkn.Bswitch) &&
    p.el_match (blk.Belem.map Elem.el_scancommas) (blkn.Belem.map Elem.el_scancommas)

-- The predecessors b and bn of bl become bnew.
def mergePreds (b bn bnew : Nat) (bo : BlockOpt n) (bl : Nat) : BlockOpt n :=
  ((bo.subtractPred bl b).subtractPred bl bn).pushPred bl bnew

-- What b and bn become, of which the last expression is in bnew.
def snipTail (bnew : Nat) (blk : Block Nat n) : Block Nat n :=
  { blk with
    bc := .goto_
    Belem := blk.Belem.bind Elem.snipTrailingOPcomma
    Bsucc := [bnew]
    Bswitch := if blk.bc = .switch_ then [] else blk.Bswitch }

-- Splits off a new block after bn with the last expression of b and bn.
def tailMerge (bo : BlockOpt n) (b bn : Nat) : BlockOpt n :=
  let bnew := bo.fresh
  let blk := bo.block b
  let bo := bo.alloc
    { bc := blk.bc
      Belem := blk.Belem.map Elem.el_scancommas
      Bsucc := blk.Bsucc
      Bpred := [b, bn]
      Bswitch := if blk.bc = .switch_ then blk.Bswitch else [] }
  let bo := (bo.modify b (snipTail bnew)).modify bn (snipTail bnew)
  let bo := blk.Bsucc.foldl (mergePreds b bn bnew) bo
  { bo with list := insertAfter bn bnew bo.list }

-- The blocks that are left to be compared are those in the list. No other block but b and bn has their new
-- successor, so that b is compared no further after it is merged.
def bltailmergeFrom : (iterations : Nat) → List Nat → BlockOpt n → Option (BlockOpt n)
  | _, [], bo => some bo
  | 0, _ :: _, _ => none
  | iterations + 1, b :: rest, bo =>
    if (bo.block b).Belem.isSome then
      match rest.find? (bo.sameTail p b) with
      | some bn => bltailmergeFrom iterations (insertAfter bn bo.fresh rest) (bo.tailMerge b bn)
      | none => bltailmergeFrom iterations rest bo
    else
      bltailmergeFrom iterations rest bo

-- An upper bound of the number of tails that can be split off from a block.
def tailCount (bo : BlockOpt n) (b : Nat) : Nat :=
  match (bo.block b).Belem with
  | some e => e.bl_enlist2.length
  | none => 0

-- Tail merging.
def bltailmerge (bo : BlockOpt n) : Option (BlockOpt n) :=
  bltailmergeFrom p (bo.list.map fun b => bo.tailCount b + 1).sum bo.list bo

end bltailmerge

section blassertsplit

-- Splits b after the expressions of which E1 is the last one; it goes on to a new block, or if E1 is false
-- to a new exit block at the end of the list, which evaluates E2.
def splitAssert (bo : BlockOpt n) (b : Nat) (elems : List (Elem n)) (E1 E2 : Elem n) : BlockOpt n :=
  let bexit := bo.fresh
  let blk := bo.block b
  let bo := bo.alloc { bc := .exit, Belem := some E2, Bpred := [b] }
  let bo := { bo with list := bo.list ++ [bexit] }
  let b2 := bo.fresh
  let bo := bo.alloc { bc := blk.bc, Bsucc := blk.Bsucc, Bpred := [b], Bswitch := blk.Bswitch }
  let bo := { bo with list := insertAfter b b2 bo.list }
  let bo := bo.modify b fun blk => { blk with Belem := Elem.bl_delist2 (elems ++ [E1]) }
  let bo := blk.Bsucc.foldl (fun bo b2s =>
    bo.modify b2s fun blk => { blk with Bpred := blk.Bpred.map fun x => if x = b then b2 else x }) bo
  bo.modify b fun blk => { blk with bc := .iftrue, Bsucc := [b2, bexit] }

-- The block that is split, its expressions so far, and the number of their dctors.
structure Splitting (n : Nat) where
  bo    : BlockOpt n
  b     : Nat
  elems : List (Elem n) := []
  dctor : Nat := 0

def blassertsplitElem (st : Splitting n) (e : Elem n) : Splitting n :=
  let keep := { st with elems := st.elems ++ [e], dctor := st.dctor + e.accumDctor }
  -- don't split block between a dctor..ddtor pair
  if st.dctor = 0 then
    match e.assertion with
    | some (E1, E2) =>
      if E1.accumDctor = 0 then
        { bo := st.bo.splitAssert st.b st.elems E1 E2, b := st.bo.fresh + 1 }
      else
        keep
    | none => keep
  else
    keep

def blassertsplitBlock (bo : BlockOpt n) (b : Nat) : BlockOpt n :=
  if (bo.block b).bc = .exit then
    bo
  else
    let elems := ((bo.block b).Belem.map Elem.bl_enlist2).getD []
    let st := elems.foldl blassertsplitElem { bo := bo, b := b }
    let bo := st.bo.modify st.b fun blk => { blk with Belem := Elem.bl_delist2 st.elems }
    if (bo.block st.b).bc = .retexp ∧ (bo.block st.b).Belem = none then
      bo.modify st.b fun blk => { blk with Belem := some (.const TYint (.integral 1)) }
    else
      bo

-- Splits off asserts into their very own exit blocks after the end of the function.
def blassertsplit (bo : BlockOpt n) : BlockOpt n :=
  bo.list.foldl blassertsplitBlock bo

end blassertsplit

section blexit

-- The blocks so far, and the exit blocks that are not at the end.
def blexitBlock : BlockOpt n × List Nat → (b : Nat) → BlockOpt n × List Nat
  | (bo, bexits), b =>
    let bnext := (following bo.list b).head?
    if (bo.block b).bc = .exit then
      if bo.startblock ≠ some b ∧ ∃ bn ∈ bnext, (bo.block bn).bc ≠ .exit then
        (bo, bexits ++ [b])
      else
        (bo, bexits)
    else if ∃ e ∈ (bo.block b).Belem, ¬e.el_returns then
      (bo.toExit b, if bo.startblock ≠ some b ∧ bnext.isSome then bexits ++ [b] else bexits)
    else
      (bo, bexits)

-- Detects exit blocks and moves them to the end.
def blexit (bo : BlockOpt n) : BlockOpt n :=
  let (bo, bexits) := bo.list.foldl blexitBlock (bo, [])
  { bo with list := bo.list.filter (· ∉ bexits) ++ bexits }

end blexit

end BlockOpt

end Compiler.Backend
