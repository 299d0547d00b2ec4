import DmdModel.Runtime.Utf.Basic
import DmdModel.Lib.Lists

-- The loops of foreach and foreach_reverse over strings whose characters have another type than the
-- code units.

namespace Runtime.Utf

open Visit

-- The body of a loop, on which the loop ends if its result is not 0.
abbrev Body (A σ : Type) := A → σ → Int × σ

abbrev Result (σ : Type) := Except UtfError Int × σ

-- What a step of a loop gives: the code units for the body, and the index where the next step begins.
abbrev Step (U : Type) := Nat → Except UtfError (List U × Nat)

variable {U A σ : Type}

-- The loop from the index `i` up to `len`. The body takes a code unit and perhaps an index.
@[grind =]
def forward (arg : Nat → U → A) (step : Step U) (len : Nat) (dg : Body A σ) : (fuel i : Nat) → σ → Result σ
  | 0, _, s        => (.error .endless, s)
  | fuel + 1, i, s =>
    if i < len then
      match step i with
      | .error e          => (.error e, s)
      | .ok (units, next) =>
        let (result, s) := visit dg (units.map (arg i)) s
        if result ≠ 0 then (.ok result, s) else forward arg step len dg fuel next s
    else
      (.ok 0, s)

-- The loop from the index `i` down to 0. A step gives the index where its code units begin.
@[grind =]
def backward (arg : Nat → U → A) (step : Step U) (dg : Body A σ) : (fuel i : Nat) → σ → Result σ
  | 0, _, s        => (.error .endless, s)
  | fuel + 1, i, s =>
    if i ≠ 0 then
      match step i with
      | .error e           => (.error e, s)
      | .ok (units, start) =>
        let (result, s) := visit dg (units.map (arg start)) s
        if result ≠ 0 then (.ok result, s) else backward arg step dg fuel start s
    else
      (.ok 0, s)

-- The arguments of the body: the code unit, or the index and the code unit.
def plain (_ : Nat) (c : U) : U := c
def indexed (i : Nat) (c : U) : Nat × U := (i, c)

def foreach (arg : Nat → U → A) (step : Step U) (len : Nat) (dg : Body A σ) (s : σ) : Result σ :=
  forward arg step len dg (len + 1) 0 s

def foreachReverse (arg : Nat → U → A) (step : Step U) (len : Nat) (dg : Body A σ) (s : σ) : Result σ :=
  backward arg step dg (len + 1) len s

-- The steps of the loops that go forward.

-- The value of the code unit at `i`, or with the code unit before it if it is a low surrogate.
def assemble (aa : List WChar) (i : Nat) : Except UtfError (DChar × Nat) := do
  let d ← unit aa i
  if d ≥ 0xDC00 ∧ d ≤ 0xDFFF then
    if i = 0 then
      onUnicodeError "Invalid UTF-16 sequence" 0
    else
      let u ← unit aa (i - 1)
      return (WChar.pair u d, i - 1)
  else
    return (d.setWidth 32, i)

variable (contracts : Bool)

end Runtime.Utf
