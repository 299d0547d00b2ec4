import Mathlib

namespace Runtime.Container

-- The generator of the priorities.
structure Rand where
  rngState : UInt64
  deriving DecidableEq, Repr

namespace Rand

def front (r : Rand) : UInt32 :=
  (r.rngState >>> 32).toUInt32

def popFront (r : Rand) : Rand where
  rngState := 2862933555777941757 * r.rngState + 1

end Rand

-- A pointer to a node is the tree below it.
inductive Treap.Node (E : Type)
  | null
  | node (left right : Node E) (element : E) (priority : UInt32)
  deriving DecidableEq, Repr

structure Treap (E : Type) where
  root : Treap.Node E
  rand : Rand
  deriving DecidableEq, Repr

namespace Treap
namespace Node

variable {E : Type}

-- `null` does not have a priority.
def priority? : Node E → Option UInt32
  | null             => none
  | node _ _ _ prio  => some prio

def rotateL : Node E → Node E
  | node left (node pleft pright pelement pprio) element prio =>
    node (node left pleft element prio) pright pelement pprio
  | root => root

def rotateR : Node E → Node E
  | node (node pleft pright pelement pprio) right element prio =>
    node pleft (node pright right element prio) pelement pprio
  | root => root

variable [LinearOrder E]

@[grind =]
def insert (rand : Rand) : Node E → E → Node E × Rand
  | null, element => (node null null element rand.front, rand.popFront)
  | node left right x prio, element =>
    if element < x then
      let (left, rand) := insert rand left element
      let root := node left right x prio
      (if left.priority?.any (· < prio) then root.rotateR else root, rand)
    else if element > x then
      let (right, rand) := insert rand right element
      let root := node left right x prio
      (if right.priority?.any (· < prio) then root.rotateL else root, rand)
    else
      (node left right x prio, rand)

-- The loop that a node to be removed goes down in, until one of its children is null and the other
-- one takes its place. The first two cases are rotations to the right and to the left.
@[grind =]
def sink : Node E → Node E
  | node (node lleft lright lelement lprio) (node rleft rright relement rprio) element prio =>
    if lprio < rprio then
      node lleft (sink (node lright (node rleft rright relement rprio) element prio)) lelement lprio
    else
      node (sink (node (node lleft lright lelement lprio) rleft element prio)) rright relement rprio
  | node null right _ _ => right
  | node left null _ _  => left
  | null                => null
termination_by node => sizeOf node

@[grind =]
def remove : Node E → E → Node E
  | null, _ => null
  | node left right x prio, element =>
    if element < x then
      node (remove left element) right x prio
    else if element > x then
      node left (remove right element) x prio
    else
      sink (node left right x prio)

-- `dg` gets the state of the loop that it is the body of.
@[grind =]
def opApplyHelper {σ : Type} (dg : E → σ → Int32 × σ) : Node E → σ → Int32 × σ
  | null, s => (0, s)
  | node left right element _, s =>
    let (result, s) := opApplyHelper dg left s
    if result ≠ 0 then
      (result, s)
    else
      let (result, s) := dg element s
      if result ≠ 0 then (result, s) else opApplyHelper dg right s

end Node

variable {E : Type} [LinearOrder E]

-- A new treap, after `initialize`.
def init (randSeed : UInt64) : Treap E where
  root := .null
  rand := ⟨randSeed⟩

def insert (t : Treap E) (element : E) : Treap E :=
  let (root, rand) := t.root.insert t.rand element
  { root, rand }

def remove (t : Treap E) (element : E) : Treap E :=
  { t with root := t.root.remove element }

def removeAll (t : Treap E) : Treap E :=
  { t with root := .null }

def opApply {σ : Type} (t : Treap E) (dg : E → σ → Int32 × σ) (s : σ) : Int32 × σ :=
  t.root.opApplyHelper dg s

end Treap
end Runtime.Container
