import DmdModel.Runtime.Minfo.Basic

namespace Runtime.Minfo

-- Where the search for a path stops: at the check of the distance, or beyond the bounds of an array.
-- `endless` says that the levels did not end within the fuel of the model.
inductive PathError
  | internal
  | outOfBounds
  | endless
  deriving DecidableEq, Repr

namespace ModuleGroup

variable (g : ModuleGroup)

-- The loop over the edges of a module at the current distance. A distance of int.max is none.
def relax (curdist : Nat) (acc : (Nat → Option Nat) × Bool) (n : Nat) : (Nat → Option Nat) × Bool :=
  if acc.1 n = none then (Function.update acc.1 n (some (curdist + 1)), false) else acc

-- The loop over the distances. `done` is also set where it ends early, at the target.
def level (target curdist : Nat) : List Nat → (Nat → Option Nat) × Bool → (Nat → Option Nat) × Bool
  | [], acc      => acc
  | i :: is, acc =>
    if acc.1 i = some curdist then
      if i = target then
        (acc.1, true)
      else
        level target curdist is ((g.edges i).foldl (relax curdist) acc)
    else
      level target curdist is acc

def levels (target : Nat) : (fuel curdist : Nat) → (Nat → Option Nat) → Except PathError (Nat × (Nat → Option Nat))
  | 0, _, _                    => .error .endless
  | fuel + 1, curdist, distance =>
    let (distance, done) := g.level target curdist (List.range g.len) (distance, true)
    if done then .ok (curdist, distance) else levels target fuel (curdist + 1) distance

-- The path, back from the target. Where no previous module is found the target stays as it is.
def subpath (distance : Nat → Option Nat) : (curdist target : Nat) → Except PathError (List Nat)
  | 0, _                => .error .outOfBounds
  | 1, target           => .ok [target]
  | curdist + 2, target =>
    let prev := (List.range g.len).find? fun m => distance m = some (curdist + 1) ∧ target ∈ g.edges m
    return (← subpath distance (curdist + 1) (prev.getD target)) ++ [target]

-- The shortest path between two modules. It is stored behind `totalMods` others in an array for twice as
-- many modules as there are.
def shortest (start target totalMods : Nat) : Except PathError (List Nat) := do
  let (curdist, distance) ← g.levels target (g.len + 1) 0 (Function.update (fun _ => none) start (some 0))
  if distance target ≠ some curdist then
    throw .internal
  if totalMods + curdist > g.len * 2 then
    throw .outOfBounds
  g.subpath distance curdist target

def genCyclePath (srcidx targetidx : Nat) : Except PathError (List Nat) := do
  -- first get to the target
  let there ← g.shortest srcidx targetidx 0
  -- now get back
  let back ← g.shortest targetidx srcidx there.length
  return there ++ back

end ModuleGroup

end Runtime.Minfo
