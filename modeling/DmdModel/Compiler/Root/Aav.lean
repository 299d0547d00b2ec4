import DmdModel.Lib.AssocMap

-- Maps from pointers to pointers, which nothing is removed from. The single entry of most of them is stored
-- where others have their buckets.

namespace Compiler.Root.Aav

abbrev Key := BitVec 64
abbrev Value := BitVec 64

-- support null as key
def KEY_EMPTY : Key :=
  ~~~0

-- The ways in which an operation does not return: an assertion that fails, a loop that does not end, a table
-- of a size that there is no memory of, and a member of the union that is not the one stored last.
inductive Error
  | assertion
  | endless
  | outOfMemory
  | union
  deriving DecidableEq, Repr

def hash (a : BitVec 64) : BitVec 64 :=
  let a := a ^^^ (a >>> 20 ^^^ a >>> 12)
  a ^^^ a >>> 7 ^^^ a >>> 4

structure KeyValue where
  key   : Key
  value : Value
  deriving DecidableEq, Repr

-- KeyValue[]
structure Buckets where
  ptr    : Nat → KeyValue
  length : Nat

inductive Storage
  | binit (kv : KeyValue)
  | b (buckets : Buckets)

structure AA where
  nodes   : Nat
  storage : Storage

-- &aa.binit.value, &aa.b[i].value
inductive Pointer
  | binit
  | b (i : Nat)
  deriving DecidableEq, Repr

namespace AA

def binit (aa : AA) : Except Error KeyValue :=
  match aa.storage with
  | .binit kv => .ok kv
  | .b _      => .error .union

def b (aa : AA) : Except Error Buckets :=
  match aa.storage with
  | .binit _   => .error .union
  | .b buckets => .ok buckets

def load (aa : AA) : Pointer → Except Error Value
  | .binit => return (← aa.binit).value
  | .b i   => return ((← aa.b).ptr i).value

def store (aa : AA) (v : Value) : Pointer → Except Error AA
  | .binit => return { aa with storage := .binit { ← aa.binit with value := v } }
  | .b i   => do
    let b ← aa.b
    return { aa with storage := .b { b with ptr := Function.update b.ptr i { b.ptr i with value := v } } }

end AA

def dmd_aaLen (aa : Option AA) : Nat :=
  match aa with
  | none    => 0
  | some aa => aa.nodes

-- The loops that look for a key, or for an empty slot
def probe (ends : KeyValue → Bool) (b : Buckets) : (fuel i j : Nat) → Except Error Nat
  | 0, _, _        => .error .endless
  | fuel + 1, i, j => if ends (b.ptr i) then .ok i else probe ends b fuel ((i + j) &&& (b.length - 1)) (j + 1)

-- Every slot is looked at in the first iterations, as many as there are slots.
def search (ends : KeyValue → Bool) (b : Buckets) (key : Key) : Except Error Nat :=
  probe ends b b.length ((hash key).toNat &&& (b.length - 1)) 1

-- Newly allocated, with empty slots. There is no memory for a table of 2 ^ 64 bytes or more.
def xmalloc (len : Nat) : Except Error Buckets :=
  if len * 16 < 2 ^ 64 then .ok ⟨fun _ => ⟨KEY_EMPTY, 0⟩, len⟩ else .error .outOfMemory

-- One iteration of the loop in `dmd_aaRehash`
def reinsert (newb : Buckets) (kv : KeyValue) : Except Error Buckets :=
  if kv.key ≠ KEY_EMPTY then do
    let i ← search (fun kv => kv.key = KEY_EMPTY) newb kv.key
    return { newb with ptr := Function.update newb.ptr i kv }
  else
    .ok newb

def dmd_aaRehash (b : Buckets) : Except Error Buckets := do
  ((List.range b.length).map b.ptr).foldlM reinsert (← xmalloc (b.length * 4))

-- The end of `dmd_aaGet`, when the buckets are enough for one more key
def AA.getIn (aa : AA) (b : Buckets) (key : Key) : Except Error (Pointer × AA) := do
  let i ← search (fun kv => key = kv.key ∨ kv.key = KEY_EMPTY) b key
  if key = (b.ptr i).key then
    return (.b i, { aa with storage := .b b })
  else
    -- Not found, create new elem
    let b := { b with ptr := Function.update b.ptr i { b.ptr i with key } }
    return (.b i, { nodes := aa.nodes + 1, storage := .b b })

def dmd_aaGet (aa : Option AA) (key : Key) : Except Error (Pointer × AA) :=
  if key = KEY_EMPTY then
    .error .assertion
  else
    match aa with
    | none    => .ok (.binit, { nodes := 1, storage := .binit ⟨key, 0⟩ })
    | some aa =>
      if aa.nodes = 0 then
        .error .assertion
      else if aa.nodes = 1 then do
        let kv ← aa.binit
        if key = kv.key then
          return (.binit, aa)
        else
          aa.getIn (← dmd_aaRehash ⟨fun _ => kv, 1⟩) key
      else do
        let b ← aa.b
        let b ← if aa.nodes * 2 > b.length then dmd_aaRehash b else .ok b
        aa.getIn b key

def dmd_aaGetRvalue (aa : Option AA) (key : Key) : Except Error Value :=
  if key = KEY_EMPTY then
    .error .assertion
  else
    match aa with
    | none    => .ok 0
    | some aa =>
      if aa.nodes = 1 then do
        let kv ← aa.binit
        return if key = kv.key then kv.value else 0
      else do
        let b ← aa.b
        let i ← search (fun kv => key = kv.key ∨ kv.key = KEY_EMPTY) b key
        return if key = (b.ptr i).key then (b.ptr i).value else 0

structure AARange where
  aa     : Option AA
  bIndex : Nat := 0

namespace AARange

def buckets (r : AARange) : Except Error Buckets :=
  match r.aa with
  | none    => .ok ⟨fun _ => ⟨KEY_EMPTY, 0⟩, 0⟩
  | some aa =>
    if aa.nodes = 1 then do
      let kv ← aa.binit
      return ⟨fun _ => kv, 1⟩
    else
      aa.b

def empty (r : AARange) : Except Error Bool :=
  return r.bIndex ≥ (← r.buckets).length

def front (r : AARange) : Except Error KeyValue :=
  return (← r.buckets).ptr r.bIndex

-- As many iterations as there are slots left
def toNextLoop (b : Buckets) : (fuel bIndex : Nat) → Nat
  | 0, bIndex        => bIndex
  | fuel + 1, bIndex =>
    if bIndex < b.length ∧ (b.ptr bIndex).key = KEY_EMPTY then toNextLoop b fuel (bIndex + 1) else bIndex

def toNext (r : AARange) : Except Error AARange := do
  let b ← r.buckets
  return { r with bIndex := toNextLoop b (b.length - r.bIndex) r.bIndex }

def popFront (r : AARange) : Except Error AARange :=
  { r with bIndex := r.bIndex + 1 }.toNext

-- The elements that foreach visits
def visit : (fuel : Nat) → AARange → Except Error (List KeyValue)
  | 0, _        => .error .endless
  | fuel + 1, r => do
    if ← r.empty then
      return []
    else
      return (← r.front) :: (← visit fuel (← r.popFront))

end AARange

def asRange (aa : Option AA) : Except Error AARange :=
  ({ aa } : AARange).toNext

namespace AssocArray

-- What is written through the pointer of `getLvalue`, if something is
inductive Op
  | getLvalue (key : Key) (write : Option Value)
  | opIndex (key : Key)
  | length
  | asRange
  deriving DecidableEq, Repr

-- What is read, for `getLvalue` through its pointer
inductive Result
  | value (v : Value)
  | length (n : Nat)
  | range (kvs : List KeyValue)
  deriving DecidableEq, Repr

def step (aa : Option AA) : Op → Except Error (Result × Option AA)
  | .getLvalue key write => do
    let (p, aa) ← dmd_aaGet aa key
    let v ← aa.load p
    match write with
    | none   => return (.value v, some aa)
    | some w => return (.value v, some (← aa.store w p))
  | .opIndex key         => return (.value (← dmd_aaGetRvalue aa key), aa)
  | .length              => return (.length (dmd_aaLen aa), aa)
  | .asRange             => do
    let r ← Aav.asRange aa
    return (.range (← r.visit ((← r.buckets).length + 1)), aa)

def run (aa : Option AA) : List Op → Except Error (List Result × Option AA)
  | []        => .ok ([], aa)
  | op :: ops => do
    let (r, aa) ← step aa op
    let (rs, aa) ← run aa ops
    return (r :: rs, aa)

end AssocArray

-- What the operations mean for finite maps, which have the pairs in some order.

abbrev Map := AssocMap Key Value

namespace Map

open AssocArray (Op Result)

def step (m : Map) : Op → Result × Map
  | .getLvalue key write =>
    let m := m.insertIfNew key 0
    (.value ((m.get? key).getD 0), match write with
      | none   => m
      | some w => m.replace key w)
  | .opIndex key         => (.value ((m.get? key).getD 0), m)
  | .length              => (.length m.size, m)
  | .asRange             => (.range (m.toList.map fun p => ⟨p.1, p.2⟩), m)

def run (m : Map) : List Op → List Result × Map
  | []        => ([], m)
  | op :: ops =>
    let (r, m) := m.step op
    let (rs, m) := run m ops
    (r :: rs, m)

end Map

end Compiler.Root.Aav
