import DmdModel.Runtime.Checkedint.Basic
import DmdModel.Runtime.Utf.Basic

-- The numeric options of the runtime.

namespace Runtime.Parseoptions

open Runtime.Utf Runtime.Checkedint

abbrev Str := List Char8

def ascii (s : String) : Str :=
  s.toList.map chr

def isdigit (c : Char8) : Bool :=
  chr '0' ≤ c && c ≤ chr '9'

def find (pred : Char8 → Bool) : Str → Str
  | []       => []
  | c :: str => if pred c then c :: str else find pred str

-- The machines by the width of their addresses
inductive Target
  | bits32
  | bits64
  deriving DecidableEq, Repr

def Target.size : Target → Nat
  | bits32 => 32
  | bits64 => 64

abbrev size_t (t : Target) := BitVec t.size

def mulu : (t : Target) → size_t t → uint → Bool → Checked t.size
  | .bits32, x, y, overflow => muluUint x y overflow
  | .bits64, x, y, overflow => muluUlongUint x y overflow

-- What is printed if an option is not accepted
inductive Report
  | parseError (exp : String) (opt got errName : Str)
  | overflowedError (opt got : Str)
  deriving DecidableEq, Repr

def Report.text : Report → Str
  | parseError exp opt got errName =>
    ascii "Expecting " ++ ascii exp ++ ascii " as argument for " ++ errName ++ ascii " option '" ++ opt ++
      ascii "', got '" ++ got ++ ascii "' instead.\n"
  | overflowedError opt got =>
    ascii "Argument for " ++ opt ++ ascii " option '" ++ got ++ ascii "' is too big.\n"

-- Whether the option is accepted, and the two arguments that are passed by reference
structure Parsed (w : Nat) where
  report : Option Report
  str    : Str
  res    : BitVec w
  deriving DecidableEq, Repr

-- The ways out of the loop
inductive Exit (t : Target)
  | done (i : Nat) (v : size_t t)
  | error (report : Report)

-- The switch over the suffix. There is no value in its default branch, and no result if `mulu` does not return.
def suffix (t : Target) (v : size_t t) (c : Char8) : Option (Option (size_t t × Bool)) :=
  if c = chr 'G' then
    (mulu t v (1024 * 1024 * 1024) false).toOption.map some
  else if c = chr 'M' then
    (mulu t v (1024 * 1024) false).toOption.map some
  else if c = chr 'K' then
    (mulu t v 1024 false).toOption.map some
  else if c = chr 'B' then
    some (some (v, false))
  else
    some none

section

variable (t : Target) (optname str : Str) (mayHaveSuffix : Bool)

-- for (; i < len; i++), with `n` characters to go. An index out of range has no result.
def loop (len : Nat) : (n i : Nat) → size_t t → Option (Exit t)
  | 0, i, v     => some (.done i v)
  | n + 1, i, v => do
    let c ← str[i]?
    if isdigit c then
      loop len n (i + 1) (10 * v + c.setWidth t.size - (chr '0').setWidth t.size)
    else if mayHaveSuffix && i = len - 1 then
      match ← suffix t v c with
      | none => return .error (.parseError "value with unit type M, K or B" optname str (ascii "with suffix"))
      | some (v, overflowed) =>
        if overflowed then
          return .error (.overflowedError optname str)
        else
          return .done (i + 1) v
    else
      return .done 0 v

-- str[len - 1]
def last (len : Nat) : Option Char8 :=
  if len = 0 then none else str[len - 1]?

-- No suffix found, default to megabytes
def megabytes (len : Nat) (v : size_t t) : Option (size_t t × Bool) := do
  if mayHaveSuffix then
    let c ← last str len
    if isdigit c then
      (mulu t v (1024 * 1024) false).toOption
    else
      return (v, false)
  else
    return (v, false)

-- An unsigned type, with T.max.stringof
structure Unsigned where
  size        : Nat
  maxStringof : String

-- if (v > res.max)
def orBelow (T : Unsigned) : String :=
  "a number " ++ T.maxStringof ++ " or below"

-- The instance for size_t. There is no result if an assertion fails either.
def parseSizeT (maxStringof : String) (res : size_t t) (errName : Str) : Option (Parsed t.size) := do
  if str = [] then
    none
  else
    let tail := find (fun c => c = chr ' ') str
    let len := str.length - tail.length
    match ← loop t optname str mayHaveSuffix len len 0 0 with
    | .error report => return ⟨some report, str, res⟩
    | .done i v     =>
      if i = 0 then
        return ⟨some (.parseError "a number" optname str errName), str, res⟩
      else
        let (v, overflowed) ← megabytes t str mayHaveSuffix len v
        if overflowed then
          return ⟨some (.overflowedError optname str), str, res⟩
        else if BitVec.allOnes t.size < v then
          return ⟨some (.parseError (orBelow ⟨t.size, maxStringof⟩) optname (str.take i) errName), str, res⟩
        else
          return ⟨none, str.drop i, v⟩

-- The instance for the other types
def parse (maxStringof : String) (T : Unsigned) (res : BitVec T.size) (errName : Str) : Option (Parsed T.size) := do
  if str = [] then
    none
  else
    let oldStr := str
    let r ← parseSizeT t optname str mayHaveSuffix maxStringof 0 errName
    if r.report.isSome then
      return ⟨r.report, r.str, res⟩
    else if (BitVec.allOnes T.size).toNat < r.res.toNat then
      let got := oldStr.take (oldStr.length - r.str.length)
      return ⟨some (.parseError (orBelow T) optname got errName), r.str, res⟩
    else
      return ⟨none, r.str, r.res.setWidth T.size⟩

end

end Runtime.Parseoptions
