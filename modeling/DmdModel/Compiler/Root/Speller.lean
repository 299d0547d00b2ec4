import DmdModel.Runtime.Utf.Basic
import DmdModel.Lib.BestOffer
import Mathlib.Order.Basic

-- The spelling checker. What would index outside of a buffer has no result.

namespace Compiler.Root.Speller

open Runtime.Utf Lib.BestOffer

abbrev Str := List Char8

-- The values of an `int`
@[ext]
structure Cost where
  val    : Int
  bounds : -2 ^ 31 ≤ val ∧ val < 2 ^ 31

theorem Cost.val_injective : Function.Injective Cost.val := by
  intro c c' h
  exact Cost.ext h

instance : LinearOrder Cost := LinearOrder.lift' Cost.val Cost.val_injective

instance : Zero Cost := ⟨0, by decide⟩

-- int.max
def Cost.max : Cost := ⟨2 ^ 31 - 1, by decide⟩

-- The strings that have been looked up are recorded.
abbrev Run (α : Type) := StateT (List Str) Option α

-- What stands in a function that may return its best result at any time
abbrev Body (T α : Type) := ExceptT (Best T Cost) (StateT (List Str) Option) α

variable {T α : Type}

def outOfRange : Body T α :=
  ExceptT.mk fun _ => none

-- buf[i]
def load (buf : Str) (i : Nat) : Body T Char8 :=
  match buf[i]? with
  | some c => pure c
  | none   => outOfRange

-- buf[i] = c
def store (buf : Str) (i : Nat) (c : Char8) : Body T Str :=
  if i < buf.length then pure (buf.set i c) else outOfRange

-- buf[a .. b]
def slice (buf : Str) (a b : Nat) : Body T Str :=
  if a ≤ b ∧ b ≤ buf.length then pure ((buf.take b).drop a) else outOfRange

-- buf[a .. b] = s
def fill (buf : Str) (a b : Nat) (s : Str) : Body T Str :=
  if a ≤ b ∧ b ≤ buf.length ∧ s.length = b - a then
    pure (buf.take a ++ s ++ buf.drop b)
  else
    outOfRange

-- abcdefghijklmnopqrstuvwxyzABCDEFGHIJKLMNOPQRSTUVWXYZ0123456789_
def idchars : List Char8 :=
  (List.range 26).map (fun i => BitVec.ofNat 8 (97 + i)) ++ (List.range 26).map (fun i => BitVec.ofNat 8 (65 + i)) ++
    (List.range 10).map (fun i => BitVec.ofNat 8 (48 + i)) ++ [95]

def combineSpellerResult (best : Best T Cost) (np : Option T) (ncost : Cost) : Best T Cost × Bool :=
  if np.isSome ∧ ncost.val < best.cost.val then
    (⟨np, ncost⟩, decide (ncost.val ≤ 0))
  else
    (best, false)

-- dg(s, ncost)
def call (dg : Str → Option T × Cost) (s : Str) : Run (Option T × Cost) := do
  modify (· ++ [s])
  pure (dg s)

-- auto np = look(s, index, ncost);
-- if (combineSpellerResult(p, cost, np, ncost))
--     return p;
def tryOut (look : Str → Nat → Run (Option T × Cost)) (s : Str) (index : Nat) (best : Best T Cost) :
    Body T (Best T Cost) := do
  let new ← look s index
  if (combineSpellerResult best new.1 new.2).2 then
    throw (combineSpellerResult best new.1 new.2).1
  else
    pure (combineSpellerResult best new.1 new.2).1

section

variable (look : Str → Nat → Run (Option T × Cost)) (seed : Str)

-- foreach (s; idchars), with s at buf[i] and buf[0 .. len] looked up
def tryIdchars (len i index : Nat) : (chars : List Char8) → Str → Best T Cost → Body T (Str × Best T Cost)
  | [], buf, best         => pure (buf, best)
  | s :: chars, buf, best => do
    let buf ← store buf i s
    let best ← tryOut look (← slice buf 0 len) index best
    tryIdchars len i index chars buf best

-- The loops for the last `k` indices, from `i` on
def deletions : (k i : Nat) → Str → Best T Cost → Body T (Str × Best T Cost)
  | 0, _, buf, best     => pure (buf, best)
  | k + 1, i, buf, best => do
    let best ← tryOut look (← slice buf 0 (seed.length - 1)) i best
    let buf ← store buf i (← load seed i)
    deletions k (i + 1) buf best

def transpositions : (k i : Nat) → Str → Best T Cost → Body T (Str × Best T Cost)
  | 0, _, buf, best     => pure (buf, best)
  | k + 1, i, buf, best => do
    let buf ← store buf i (← load seed (i + 1))
    let buf ← store buf (i + 1) (← load seed i)
    let best ← tryOut look (← slice buf 0 seed.length) i best
    let buf ← store buf i (← load seed i)
    transpositions k (i + 1) buf best

def substitutions : (k i : Nat) → Str → Best T Cost → Body T (Str × Best T Cost)
  | 0, _, buf, best     => pure (buf, best)
  | k + 1, i, buf, best => do
    let (buf, best) ← tryIdchars look seed.length i (i + 1) idchars buf best
    let buf ← store buf i (← load seed i)
    substitutions k (i + 1) buf best

def insertions : (k i : Nat) → Str → Best T Cost → Body T (Str × Best T Cost)
  | 0, _, buf, best     => pure (buf, best)
  | k + 1, i, buf, best => do
    let (buf, best) ← tryIdchars look (seed.length + 1) i (i + 1) idchars buf best
    let buf ← if i < seed.length then store buf i (← load seed i) else pure buf
    insertions k (i + 1) buf best

end

-- The result of a function, where it did not return before
def Body.returned (body : Body T (Best T Cost)) : Run (Best T Cost) := do
  match ← body.run with
  | .error best => pure best
  | .ok best    => pure best

section

-- What a new buffer for a seed holds is left open.
variable (void : Str → Nat → Char8) (dg : Str → Option T × Cost)

def smallBuffer (seed : Str) : Str :=
  (List.range (seed.length + 1)).map (void seed)

def spellerY (seed : Str) (index : Nat) : Run (Option T × Cost) :=
  if seed.length = 0 then
    pure (none, 0)
  else do
    let best ← Body.returned do
      let buf ← fill (smallBuffer void seed) 0 index (← slice seed 0 index)
      let best : Best T Cost := ⟨none, Cost.max⟩
      -- Delete character at seed[index]
      let (buf, best) ← if index < seed.length then do
          let buf ← fill buf index (seed.length - 1) (← slice seed (index + 1) seed.length)
          let best ← tryOut (fun s _ => call dg s) (← slice buf 0 (seed.length - 1)) index best
          pure (buf, best)
        else
          pure (buf, best)
      -- Substitute character at seed[index]
      let (buf, best) ← if index < seed.length then do
          let buf ← fill buf 0 seed.length seed
          tryIdchars (fun s _ => call dg s) seed.length index index idchars buf best
        else
          pure (buf, best)
      -- Insert character at seed[index]
      let buf ← fill buf (index + 1) (seed.length + 1) (← slice seed index seed.length)
      let (_, best) ← tryIdchars (fun s _ => call dg s) (seed.length + 1) index index idchars buf best
      pure best
    pure (best.value, best.cost)

def spellerX (seed : Str) (flag : Bool) : Run (Option T) :=
  if seed.length = 0 then
    pure none
  else do
    let look := if flag then spellerY void dg else fun s _ => call dg s
    let best ← Body.returned do
      let best : Best T Cost := ⟨none, Cost.max⟩
      let buf ← fill (smallBuffer void seed) 0 (seed.length - 1) (← slice seed 1 seed.length)
      let (buf, best) ← deletions look seed seed.length 0 buf best
      let (buf, best) ← if !flag then do
          let buf ← fill buf 0 seed.length seed
          transpositions look seed (seed.length - 1) 0 buf best
        else
          pure (buf, best)
      let buf ← fill buf 0 seed.length seed
      let (buf, best) ← substitutions look seed seed.length 0 buf best
      let buf ← fill buf 1 (seed.length + 1) seed
      let (_, best) ← insertions look seed (seed.length + 1) 0 buf best
      pure best
    pure best.value

def maxdist (seed : Str) : Nat :=
  if seed.length < 4 then seed.length / 2 else 2

-- foreach (distance; ...)
def distances (seed : Str) : List Nat → Run (Option T)
  | []               => pure none
  | distance :: rest => do
    let p ← spellerX void dg seed (distance ≠ 0)
    if p.isSome then pure p else distances seed rest

def speller (seed : Str) : Run (Option T) :=
  distances void dg seed (List.range (maxdist seed))

end

end Compiler.Root.Speller
