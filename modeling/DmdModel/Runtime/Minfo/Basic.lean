import Mathlib

namespace Runtime.Minfo

-- The module flags the sorting looks at. The values are those of the `MI...` constants.
def MIstandalone : UInt32 := 0x4
def MItlsctor : UInt32 := 8
def MItlsdtor : UInt32 := 0x10
def MIctor : UInt32 := 0x20
def MIdtor : UInt32 := 0x40

-- A `ModuleInfo` is referred to by pointer everywhere, so `ptr` is the module's identity and
-- `importedModules` holds the pointers of the imported modules.
structure ModuleInfo where
  ptr : Nat
  flags : UInt32
  importedModules : List Nat
  deriving DecidableEq, Repr

structure ModuleGroup where
  modules : List ModuleInfo
  nodup : (modules.map (·.ptr)).Nodup

inductive OnCycle
  | abort
  | print
  | ignore
  deriving DecidableEq, Repr

-- `cycle` is the thrown "Cyclic dependency" error, with the two modules it names. `stackOverflow` is
-- the abort of the dependency search. `depth` says that the recursion of `processMod` ran deeper
-- than the model allows; `doSort` never yields it.
inductive SortError
  | invalidOption
  | cycle (sourceIdx cycleIdx : Nat)
  | stackOverflow
  | depth
  deriving DecidableEq, Repr

namespace ModuleGroup

variable (g : ModuleGroup)

def len : Nat :=
  g.modules.length

-- The hash table from module pointers to indices. Imports from other groups are not in it.
def modIndexes (ptr : Nat) : Option Nat :=
  g.modules.findIdx? (·.ptr == ptr)

-- One iteration of the loop over the imported modules of `m`: the bit array `reachable` prevents
-- duplicates.
def addEdge (m : ModuleInfo) (acc : Finset Nat × List Nat) (imp : Nat) : Finset Nat × List Nat :=
  if imp = m.ptr then
    acc
  else
    match g.modIndexes imp with
    | none => acc
    | some impidx =>
      if impidx ∈ acc.1 then acc else (insert impidx acc.1, acc.2 ++ [impidx])

def edges (idx : Nat) : List Nat :=
  match g.modules[idx]? with
  | none => []
  | some m => (m.importedModules.foldl (g.addEdge m) (∅, [])).2

theorem edges_lt_len {idx midx : Nat} (h : midx ∈ g.edges idx) : midx < g.len := by
  have aux (m : ModuleInfo) (is : List Nat) (acc : Finset Nat × List Nat)
      (ha : ∀ i ∈ acc.2, i < g.len) : ∀ i ∈ (is.foldl (g.addEdge m) acc).2, i < g.len := by
    induction is generalizing acc
    case nil => exact ha
    case cons imp is hi =>
      refine hi _ fun i hm => ?_
      simp only [addEdge] at hm
      split at hm
      · exact ha i hm
      · split at hm
        · exact ha i hm
        · rename_i impidx hf
          split at hm
          · exact ha i hm
          · simp only [List.mem_append, List.mem_singleton] at hm
            cases hm with
            | inl hm => exact ha i hm
            | inr he => exact he ▸ (List.findIdx?_eq_some_iff_findIdx_eq.mp hf).1
  simp only [edges] at h
  split at h
  · simp at h
  · exact aux _ _ _ (by simp) midx h

structure StackFrame where
  curMod : Nat
  curDep : Nat
  deriving DecidableEq, Repr

-- How much work the frames of a stack still stand for.
def pending (stack : List StackFrame) : Nat :=
  (stack.map fun f => (g.edges f.curMod).length + 1 - f.curDep).sum

-- The frame below a popped frame, and the current frame itself, move on to their next dependency.
def nextDep : List StackFrame → List StackFrame
  | [] => []
  | f :: fs => { f with curDep := f.curDep + 1 } :: fs

theorem length_nextDep (stack : List StackFrame) : (nextDep stack).length = stack.length := by
  cases stack <;> simp [nextDep]

theorem pending_nextDep_le (stack : List StackFrame) : g.pending (nextDep stack) ≤ g.pending stack := by
  cases stack <;> simp [nextDep, pending]
  omega

theorem card_unreached_lt {reachable : Finset Nat} {midx : Nat}
    (hl : midx < g.len) (h : midx ∉ reachable) :
    (Finset.range g.len \ insert midx reachable).card < (Finset.range g.len \ reachable).card := by
  refine Finset.card_lt_card ⟨Finset.sdiff_subset_sdiff le_rfl (Finset.subset_insert ..), fun hs => ?_⟩
  have := hs (Finset.mem_sdiff.mpr ⟨Finset.mem_range.mpr hl, h⟩)
  simp at this

-- The loop of `findDeps`. The head of `stack` is the frame `sp` points to.
def findDepsLoop (onCycle : OnCycle) (relevant ctorstart ctordone : Finset Nat) (idx : Nat) :
    List StackFrame → Finset Nat → Except SortError (Finset Nat)
  | [], reachable => .ok reachable
  | sp :: stack, reachable =>
    if hd : sp.curDep < (g.edges sp.curMod).length then
      let midx := (g.edges sp.curMod)[sp.curDep]
      if hr : midx ∈ reachable then
        findDepsLoop onCycle relevant ctorstart ctordone idx (nextDep (sp :: stack)) reachable
      else if midx ∈ relevant then
        -- need to process this node, don't recurse
        if midx ∈ ctorstart ∧ onCycle = .abort then
          .error (.cycle idx midx)
        else
          findDepsLoop onCycle relevant ctorstart ctordone idx (nextDep (sp :: stack))
            (insert midx reachable)
      else if midx ∉ ctordone then
        -- non-relevant, and hasn't been exhaustively processed, recurse
        if g.len ≤ (sp :: stack).length then
          .error .stackOverflow
        else
          findDepsLoop onCycle relevant ctorstart ctordone idx (⟨midx, 0⟩ :: sp :: stack)
            (insert midx reachable)
      else
        findDepsLoop onCycle relevant ctorstart ctordone idx (nextDep (sp :: stack))
          (insert midx reachable)
    else
      findDepsLoop onCycle relevant ctorstart ctordone idx (nextDep stack) reachable
  termination_by stack reachable =>
    ((Finset.range g.len \ reachable).card, g.pending stack, stack.length)
  decreasing_by
    · refine Prod.Lex.right _ (Prod.Lex.left _ _ ?_)
      simp only [nextDep, pending, List.map_cons, List.sum_cons]
      omega
    · exact Prod.Lex.left _ _ (g.card_unreached_lt (g.edges_lt_len (List.getElem_mem hd)) hr)
    · exact Prod.Lex.left _ _ (g.card_unreached_lt (g.edges_lt_len (List.getElem_mem hd)) hr)
    · exact Prod.Lex.left _ _ (g.card_unreached_lt (g.edges_lt_len (List.getElem_mem hd)) hr)
    · have hp := g.pending_nextDep_le stack
      have hc : g.pending (sp :: stack) =
        (g.edges sp.curMod).length + 1 - sp.curDep + g.pending stack := by simp [pending]
      refine Prod.Lex.right _ ?_
      by_cases hlt : g.pending (nextDep stack) < g.pending (sp :: stack)
      case pos => exact Prod.Lex.left _ _ hlt
      case neg =>
        have he : g.pending (nextDep stack) = g.pending (sp :: stack) := by omega
        rw [he]
        exact Prod.Lex.right _ (by simp [length_nextDep])

-- Find all the non-trivial dependencies of a given module. Doing this, we can skip over the trivial
-- modules to get at the non-trivial ones.
def findDeps (onCycle : OnCycle) (relevant ctorstart ctordone : Finset Nat) (idx : Nat) :
    Except SortError (Finset Nat) :=
  g.findDepsLoop onCycle relevant ctorstart ctordone idx [⟨idx, 0⟩] {idx}

structure SortState where
  ctorstart : Finset Nat
  ctordone : Finset Nat
  ctors : List Nat

def bitRange (bits : Finset Nat) : List Nat :=
  (List.range g.len).filter (· ∈ bits)

-- The recursion over the relevant modules. `fuel` bounds its depth.
def processMod (onCycle : OnCycle) (relevant : Finset Nat) :
    (fuel : Nat) → (curidx : Nat) → SortState → Except SortError SortState
  | 0, _, _ => .error .depth
  | fuel + 1, curidx, s => do
    let reachable ← g.findDeps onCycle relevant s.ctorstart s.ctordone curidx
    let s ← (g.bitRange reachable).foldlM
      (fun s i =>
        if i ≠ curidx ∧ i ∈ relevant ∧ i ∉ s.ctordone ∧ i ∉ s.ctorstart then
          processMod onCycle relevant fuel i s
        else
          pure s)
      { s with ctorstart := insert curidx s.ctorstart }
    return {
      ctorstart := s.ctorstart.erase curidx
      ctordone  := insert curidx s.ctordone ∪ reachable
      ctors     := s.ctors ++ [curidx]
    }

def hasFlags (relevantFlags : UInt32) (idx : Nat) : Bool :=
  (g.modules[idx]?.elim 0 (·.flags)) &&& relevantFlags != 0

def standalone (idx : Nat) : Bool :=
  (g.modules[idx]?.elim 0 (·.flags)) &&& MIstandalone != 0

-- The bit array of the modules that have to be sorted.
def relevant (relevantFlags : UInt32) : Finset Nat :=
  (Finset.range g.len).filter fun idx => g.hasFlags relevantFlags idx ∧ ¬g.standalone idx

def doSort (onCycle : OnCycle) (relevantFlags : UInt32) : Except SortError (List Nat) := do
  let relevant := g.relevant relevantFlags
  -- Standalone modules can run at any time. Just run them first.
  let first := (List.range g.len).filter fun idx => g.hasFlags relevantFlags idx && g.standalone idx
  let s ← (g.bitRange relevant).foldlM
    (fun s idx =>
      if idx ∉ s.ctordone then g.processMod onCycle relevant g.len idx s else pure s)
    { ctorstart := ∅, ctordone := ∅, ctors := first }
  return s.ctors

def onCycleOf : String → Option OnCycle
  | "deprecate" => some .abort
  | "abort" => some .abort
  | "print" => some .print
  | "ignore" => some .ignore
  | "" => some .abort
  | _ => none

-- The two module lists `_ctors` and `_tlsctors`.
def sortCtors (cycleHandling : String) : Except SortError (List Nat × List Nat) :=
  match onCycleOf cycleHandling with
  | none => .error .invalidOption
  | some onCycle => do
    let ctors ← g.doSort onCycle (MIctor ||| MIdtor)
    let tlsctors ← g.doSort onCycle (MItlsctor ||| MItlsdtor)
    return (ctors, tlsctors)

end ModuleGroup
end Runtime.Minfo
