import DmdModel.Runtime.Utf.Basic

-- The response files of the command line. What would access something outside of its array has no result.

namespace Compiler.Root.Response

open Runtime.Utf

abbrev Str := List Char8
abbrev int := BitVec 32

-- The string that begins at `p`
def cString (buffer : Str) (p : Nat) : Str :=
  (buffer.drop p).takeWhile fun c => c ≠ 0

-- An argument that was there before, or that points into the buffer
inductive Arg
  | given (s : Str)
  | pointer (p : Nat)
  deriving DecidableEq, Repr

def Arg.text (buffer : Str) : Arg → Str
  | given s   => s
  | pointer p => cString buffer p

-- args.insert(argIndex, &buffer[p])
def insert (args : List Arg) (argIndex : Nat) (arg : Arg) : Option (List Arg) :=
  if argIndex ≤ args.length then some (args.take argIndex ++ arg :: args.drop argIndex) else none

-- buffer[d] = c
def write (buffer : Str) (d : Nat) (c : Char8) : Option Str :=
  if d < buffer.length then some (buffer.set d c) else none

-- d--; buffer[d] = '\0';
def takeBack : (numSlashes : Nat) → Str → Nat → Option (Str × Nat)
  | 0, buffer, d              => some (buffer, d)
  | numSlashes + 1, buffer, d => do
    if d = 0 then
      none
    else
      takeBack numSlashes (← write buffer (d - 1) 0) (d - 1)

-- The loop that is running
inductive Mode
  | outer
  | inner (d : Nat) (instring : Bool) (numSlashes : int)
  deriving DecidableEq, Repr

structure State where
  buffer   : Str
  p        : Nat := 0
  mode     : Mode := .outer
  comment  : Bool := false
  recurse  : Bool := false
  args     : List Arg
  argIndex : Nat
  deriving DecidableEq, Repr

-- A pass of a loop goes on, or the function returns.
inductive Outcome
  | next (s : State)
  | done (s : State)
  deriving DecidableEq, Repr

def outerStep (s : State) : Option Outcome := do
  if s.buffer.length ≤ s.p then
    return .done s
  else
    let c ← s.buffer[s.p]?
    if c = 26 then
      return .done s
    else if c = chr '\r' ∨ c = chr '\n' then
      return .next { s with comment := false, p := s.p + 1 }
    else if c = 0 ∨ c = chr ' ' ∨ c = chr '\t' then
      return .next { s with p := s.p + 1 }
    else if c = chr '#' then
      return .next { s with comment := true, p := s.p + 1 }
    else if s.comment then
      return .next { s with p := s.p + 1 }
    else
      let args ← insert s.args s.argIndex (.pointer s.p)
      return .next { s with
        recurse := s.recurse || c = chr '@', args := args, argIndex := s.argIndex + 1, mode := .inner s.p false 0 }

-- case '"'. What is counted is taken back by half, and a backslash that is left over makes the quote literal.
def quote (s : State) (d : Nat) (instring : Bool) (numSlashes : int) : Option Outcome := do
  let nonSlashes := numSlashes.srem 2
  let half := numSlashes.sdiv 2
  let (buffer, d) ← takeBack half.toInt.toNat s.buffer d
  let numSlashes := if 0 < half.toInt then 0 else half
  if nonSlashes ≠ 0 then
    if d = 0 then
      none
    else
      let buffer ← write buffer (d - 1) (chr '"')
      return .next { s with buffer := buffer, p := s.p + 1, mode := .inner d instring numSlashes }
  else
    return .next { s with buffer := buffer, p := s.p + 1, mode := .inner d (!instring) numSlashes }

-- Whether a character ends the argument
def ends (c : Char8) (instring : Bool) : Bool :=
  (!instring && (c = chr ' ' || c = chr '\t')) || c = chr '\n' || c = 0

def innerStep (s : State) (d : Nat) (instring : Bool) (numSlashes : int) : Option Outcome := do
  if s.buffer.length ≤ s.p then
    return .done { s with buffer := ← write s.buffer d 0 }
  else
    let c ← s.buffer[s.p]?
    if c = chr '"' then
      quote s d instring numSlashes
    else if c = 26 then
      return .done { s with buffer := ← write s.buffer d 0 }
    else if c = chr '\r' then
      return .next { s with p := s.p + 1 }
    else if ends c instring then
      return .next { s with buffer := ← write s.buffer d 0, p := s.p + 1, mode := .outer }
    else
      let numSlashes := if c = chr '\\' then numSlashes + 1 else 0
      return .next { s with buffer := ← write s.buffer d c, p := s.p + 1, mode := .inner (d + 1) instring numSlashes }

def step (s : State) : Option Outcome :=
  match s.mode with
  | .outer                       => outerStep s
  | .inner d instring numSlashes => innerStep s d instring numSlashes

def run : (fuel : Nat) → State → Option State
  | 0, _        => none
  | fuel + 1, s => do
    match ← step s with
    | .next s => run fuel s
    | .done s => return s

structure Inserted where
  recurse  : Bool
  args     : List Str
  argIndex : Nat
  deriving DecidableEq, Repr

def start (buffer : Str) (args : List Str) (argIndex : Nat) : State where
  buffer   := buffer
  args     := args.map .given
  argIndex := argIndex

-- Every character is passed once, and one more pass begins each argument.
def insertArgumentsFromResponse (buffer : Str) (args : List Str) (argIndex : Nat) : Option Inserted := do
  let s ← run (2 * buffer.length + 1) (start buffer args argIndex)
  return ⟨s.recurse, s.args.map (Arg.text s.buffer), s.argIndex⟩

-- What response names are resolved to: buffers that end with a zero
structure Environment where
  lookup     : Str → Option Str
  terminated : ∀ name buffer, lookup name = some buffer → buffer.getLast? = some 0
  finite     : (Set.range lookup).Finite

-- The name of a response, which is behind a @
def reference : Str → Option Str
  | []        => none
  | c :: name => if c = chr '@' then some name else none

-- for (size_t i = 0; i < args.length;), with `n` arguments to go. An error is the one that could not be found.
def responseExpandPass (env : Environment) :
    (n : Nat) → (args : List Str) → (i : Nat) → (recurse : Bool) → Option (Except Str (List Str × Bool))
  | 0, args, _, recurse     => some (.ok (args, recurse))
  | n + 1, args, i, recurse => do
    let cp ← args[i]?
    match reference cp with
    | none      => responseExpandPass env n args (i + 1) recurse
    | some name =>
      match env.lookup name with
      | none        => return .error cp
      | some buffer =>
        let r ← insertArgumentsFromResponse buffer (args.eraseIdx i) i
        responseExpandPass env n r.args r.argIndex (r.recurse || recurse)

-- There is no result if the fuel does not suffice.
def responseExpandFrom (env : Environment) : (fuel : Nat) → List Str → Option (Except Str (List Str))
  | 0, _           => none
  | fuel + 1, args => do
    match ← responseExpandPass env args.length args 0 false with
    | .error missingFile     => return .error missingFile
    | .ok (args, recurse) =>
      if recurse then
        responseExpandFrom env fuel args
      else
        return .ok args

end Compiler.Root.Response
