import Mathlib

namespace Runtime.Container

-- The ways in which an operation does not return: a failing assertion, and the use of a null pointer.
inductive HashTab.Error
  | assertion
  | nullPointer
  deriving DecidableEq, Repr

-- The chain that `_next` makes of the nodes is a list of pointers in the table.
structure HashTab.Node (K V : Type _) where
  key   : K
  value : V
  deriving DecidableEq, Repr

-- `nodes` is the memory of the nodes, in which the addresses from `free` on were not allocated yet.
-- `buckets` has the chains of the first `nbuckets` indices, the length of the array.
structure HashTab (K V : Type _) where
  nodes     : Nat → HashTab.Node K V
  free      : Nat
  buckets   : Nat → List Nat
  nbuckets  : Nat
  length    : Nat
  inOpApply : Bool

namespace HashTab

variable {K V : Type _} [BEq K] [Hashable K]

-- An empty table, whose first node will be at `free`.
def init (nodes : Nat → Node K V) (free : Nat) : HashTab K V where
  nodes     := nodes
  free      := free
  buckets   := fun _ => []
  nbuckets  := 0
  length    := 0
  inOpApply := false

def hashOf (key : K) : Nat :=
  (hash key).toNat

def mask (t : HashTab K V) : Nat :=
  t.nbuckets - 1

def key (t : HashTab K V) (p : Nat) : K :=
  (t.nodes p).key

-- The length of the array of buckets is set; new buckets are null.
def setLength (t : HashTab K V) (nlength : Nat) : HashTab K V :=
  { t with
    buckets  := fun i => if i < t.nbuckets then t.buckets i else []
    nbuckets := nlength }

def reset (t : HashTab K V) : HashTab K V :=
  { t.setLength 0 with length := 0 }

-- key in t: a pointer to the node that the value is in.
def opBinaryRight (t : HashTab K V) (key : K) : Option Nat :=
  if t.nbuckets ≠ 0 then
    (t.buckets (hashOf key &&& t.mask)).find? fun p => t.key p == key
  else
    none

-- The loop over the chain of a bucket, in which the pointer `pp` has passed the nodes `kept`. Nodes
-- that belong to another bucket become the first ones there.
def split (t : HashTab K V) (nmask i : Nat) :
    (buckets : Nat → List Nat) → (kept chain : List Nat) → Nat → List Nat
  | buckets, kept, []        => Function.update buckets i kept
  | buckets, kept, p :: next =>
    let nidx := hashOf (t.key p) &&& nmask
    if nidx ≠ i then
      split t nmask i (Function.update buckets nidx (p :: buckets nidx)) kept next
    else
      split t nmask i buckets (kept ++ [p]) next

def grow (t : HashTab K V) : HashTab K V :=
  let ocnt := t.nbuckets
  let nmask := 2 * ocnt - 1
  let grown := t.setLength (2 * ocnt)
  { grown with
    buckets := (List.range ocnt).foldl (fun buckets i => t.split nmask i buckets [] (buckets i))
      grown.buckets }

-- One iteration of `shrink`: the chain of bucket `i` becomes the tail of another one.
def concat (nmask : Nat) (buckets : Nat → List Nat) (i : Nat) : Nat → List Nat :=
  let tail := buckets i
  if tail ≠ [] then
    let nidx := i &&& nmask
    Function.update (Function.update buckets nidx (buckets nidx ++ tail)) i []
  else
    buckets

def shrink (t : HashTab K V) : HashTab K V :=
  let ocnt := t.nbuckets
  let ncnt := ocnt >>> 1
  let nmask := ncnt - 1
  { t with buckets := (List.range' ncnt (ocnt - ncnt)).foldl (concat nmask) t.buckets }.setLength ncnt

-- A pointer to the node with a key, which is a new one with the initial value if there was none.
def get [Inhabited V] (t : HashTab K V) (key : K) : Except Error (Nat × HashTab K V) :=
  match t.opBinaryRight key with
  | some p => .ok (p, t)
  | none   =>
    if t.inOpApply then
      .error .assertion
    else
      let t := if t.nbuckets = 0 then t.setLength 4 else t
      let hash := hashOf key &&& t.mask
      let p := t.free
      let t := { t with
        nodes   := Function.update t.nodes p ⟨key, default⟩
        free    := t.free + 1
        buckets := Function.update t.buckets hash (p :: t.buckets hash)
        length  := t.length + 1 }
      .ok (p, if t.length ≥ 2 * t.nbuckets then t.grow else t)

-- Write the value that a pointer points to.
def setValue (t : HashTab K V) (p : Nat) (value : V) : HashTab K V :=
  { t with nodes := Function.update t.nodes p { t.nodes p with value := value } }

-- t[key] = value
def opIndexAssign [Inhabited V] (t : HashTab K V) (value : V) (key : K) :
    Except Error (HashTab K V) := do
  let (p, t) ← t.get key
  return t.setValue p value

-- t[key]
def opIndex (t : HashTab K V) (key : K) : Except Error V :=
  match t.opBinaryRight key with
  | some p => .ok (t.nodes p).value
  | none   => .error .nullPointer

-- The key must be in the table, so that the loop over the chain finds it.
def remove (t : HashTab K V) (key : K) : Except Error (HashTab K V) :=
  if (t.opBinaryRight key).isNone ∨ t.inOpApply then
    .error .assertion
  else
    let hash := hashOf key &&& t.mask
    let t := { t with
      buckets := Function.update t.buckets hash ((t.buckets hash).eraseP fun p => t.key p == key)
      length  := t.length - 1 }
    .ok (if t.length < t.nbuckets ∧ t.length ≥ 4 then t.shrink else t)

-- The loops over the buckets and their chains. The delegate gets the state of the loop that it is the
-- body of.
def opApply {σ : Type _} (t : HashTab K V) (dg : K → V → σ → Int32 × σ) (s : σ) : Int32 × σ :=
  go ((List.range t.nbuckets).flatMap t.buckets) s
where
  go : List Nat → σ → Int32 × σ
    | [], s      => (0, s)
    | p :: ps, s =>
      let (res, s) := dg (t.nodes p).key (t.nodes p).value s
      if res ≠ 0 then (res, s) else go ps s

end HashTab
end Runtime.Container
