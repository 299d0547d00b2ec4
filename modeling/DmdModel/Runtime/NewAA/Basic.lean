import Mathlib

namespace Runtime.NewAA

-- grow threshold
def GROW_NUM : UInt32 := 4
def GROW_DEN : UInt32 := 5
-- shrink threshold
def SHRINK_NUM : Nat := 1
def SHRINK_DEN : Nat := 8
-- grow factor
def GROW_FAC : Nat := 4
-- initial load factor (for literals), mean of both thresholds
def INIT_NUM : Nat := (5 * SHRINK_NUM + 4 * SHRINK_DEN) / 2
def INIT_DEN : Nat := SHRINK_DEN * 5

def INIT_NUM_BUCKETS : Nat := 8
-- magic hash constants to distinguish empty, deleted, and filled buckets
def HASH_EMPTY : UInt64 := 0
def HASH_DELETED : UInt64 := 1
def HASH_FILLED_MARK : UInt64 := 0x8000000000000000

-- The ways in which an operation does not return: a probe loop that finds no slot and goes on
-- forever, an allocation of more bytes than there are addresses, a failing assertion, and a use of
-- an array that has no implementation.
inductive AAError
  | endless
  | outOfMemory
  | assertion
  | nullImpl
  deriving DecidableEq, Repr

structure Entry (K V : Type _) where
  key : K
  value : V
  deriving DecidableEq, Repr

-- The entry pointer is null in empty and deleted buckets.
structure Bucket (K V : Type _) where
  hash : UInt64
  entry : Option (Entry K V)
  deriving DecidableEq, Repr

namespace Bucket

variable {K V : Type _}

def init : Bucket K V :=
  ⟨HASH_EMPTY, none⟩

def empty (b : Bucket K V) : Bool :=
  b.hash == HASH_EMPTY

def deleted (b : Bucket K V) : Bool :=
  b.hash == HASH_DELETED

-- The sign bit of the hash.
def filled (b : Bucket K V) : Bool :=
  HASH_FILLED_MARK ≤ b.hash

end Bucket

-- Mix hash to "fix" bad hash functions.
def mix (h : UInt64) : UInt64 :=
  let h := h ^^^ (h >>> 13)
  let h := h * 0x5bd1e995
  h ^^^ (h >>> 15)

-- The `int` expression `1 << s` as a `size_t`: the shift instruction takes the count modulo 32, and
-- the result is sign extended.
def intShl (s : Nat) : Nat :=
  if s % 32 = 31 then 2 ^ 64 - 2 ^ 31 else 2 ^ (s % 32)

def nextpow2 (n : Nat) : Nat :=
  if n = 0 then
    1
  else
    let isPowerOf2 := (n - 1) &&& n = 0
    intShl (n.log2 + if isPowerOf2 then 0 else 1)

section Buckets

variable {K V : Type _}

def bucketAt (buckets : List (Bucket K V)) (i : Nat) : Bucket K V :=
  buckets[i]?.getD .init

def mask (buckets : List (Bucket K V)) : Nat :=
  buckets.length - 1

-- A bucket takes 16 bytes.
def allocBuckets (dim : Nat) : Except AAError (List (Bucket K V)) :=
  if dim * 16 < 2 ^ 64 then .ok (List.replicate dim .init) else .error .outOfMemory

-- `fuel` bounds the number of probes.
def findSlotInsertLoop (buckets : List (Bucket K V)) : (fuel i j : Nat) → Except AAError Nat
  | 0, _, _ => .error .endless
  | fuel + 1, i, j =>
    if !(bucketAt buckets i).filled then
      .ok i
    else
      findSlotInsertLoop buckets fuel ((i + j) &&& mask buckets) (j + 1)

-- Find the first slot to insert a value with hash.
def findSlotInsert (buckets : List (Bucket K V)) (hash : UInt64) : Except AAError Nat :=
  findSlotInsertLoop buckets buckets.length (hash.toNat &&& mask buckets) 1

def findSlotLookupLoop [BEq K] (buckets : List (Bucket K V)) (hash : UInt64) (key : K) :
    (fuel i j : Nat) → Except AAError (Option Nat)
  | 0, _, _ => .error .endless
  | fuel + 1, i, j =>
    let b := bucketAt buckets i
    if b.hash == hash && b.entry.any (key == ·.key) then
      .ok (some i)
    else if b.empty then
      .ok none
    else
      findSlotLookupLoop buckets hash key fuel ((i + j) &&& mask buckets) (j + 1)

-- Lookup a key.
def findSlotLookup [BEq K] (buckets : List (Bucket K V)) (hash : UInt64) (key : K) :
    Except AAError (Option Nat) :=
  findSlotLookupLoop buckets hash key buckets.length (hash.toNat &&& mask buckets) 1

end Buckets

-- `obuckets` are the bucket arrays that `resize` has replaced, the latest one first. They are not
-- freed, and references to their buckets stay valid.
structure Impl (K V : Type _) where
  buckets : List (Bucket K V)
  used : UInt32
  deleted : UInt32
  firstUsed : UInt32
  obuckets : List (List (Bucket K V))
  deriving DecidableEq, Repr

variable {K V : Type _}

namespace Impl

def new (sz : Nat) : Except AAError (Impl K V) := do
  let buckets ← allocBuckets sz
  return {
    buckets   := buckets
    used      := 0
    deleted   := 0
    firstUsed := buckets.length.toUInt32
    obuckets  := []
  }

def length (t : Impl K V) : Nat :=
  (t.used - t.deleted).toNat

def dim (t : Impl K V) : Nat :=
  t.buckets.length

-- One bucket of the old array, in the loop of `resize`.
def reinsert (buckets : List (Bucket K V)) (b : Bucket K V) :
    Except AAError (List (Bucket K V)) := do
  if b.filled then
    let i ← findSlotInsert buckets b.hash
    return buckets.set i b
  else
    return buckets

def resize (t : Impl K V) (ndim : Nat) : Except AAError (Impl K V) := do
  let buckets ← allocBuckets ndim
  let buckets ← (t.buckets.drop t.firstUsed.toNat).foldlM reinsert buckets
  return {
    buckets   := buckets
    used      := t.used - t.deleted
    deleted   := 0
    firstUsed := 0
    obuckets  := t.buckets :: t.obuckets
  }

def grow (t : Impl K V) : Except AAError (Impl K V) :=
  -- If there are so many deleted entries, that growing would push us
  -- below the shrink threshold, we just purge deleted entries instead.
  if t.length * SHRINK_DEN < GROW_FAC * t.dim * SHRINK_NUM then
    t.resize t.dim
  else
    t.resize (GROW_FAC * t.dim)

def shrink (t : Impl K V) : Except AAError (Impl K V) :=
  if t.dim > INIT_NUM_BUCKETS then t.resize (t.dim / GROW_FAC) else .ok t

def clear (t : Impl K V) : Impl K V where
  buckets   := t.buckets.take t.firstUsed.toNat ++
    List.replicate (t.buckets.length - t.firstUsed.toNat) .init
  used      := 0
  deleted   := 0
  firstUsed := t.dim.toUInt32
  obuckets  := t.obuckets

-- The load factor check. The left side is computed in `uint`.
def exceedsLoad (t : Impl K V) : Bool :=
  ((t.used + 1) * GROW_DEN).toNat > t.dim * GROW_NUM.toNat

-- The number that identifies the current bucket array.
def generation (t : Impl K V) : Nat :=
  t.obuckets.length

-- A bucket array by its number, the current one or a replaced one.
def array (t : Impl K V) (gen : Nat) : List (Bucket K V) :=
  if gen = t.generation then t.buckets else t.obuckets.getD (t.generation - 1 - gen) []

def setArray (t : Impl K V) (gen : Nat) (buckets : List (Bucket K V)) : Impl K V :=
  if gen = t.generation then
    { t with buckets := buckets }
  else
    { t with obuckets := t.obuckets.set (t.generation - 1 - gen) buckets }

end Impl

-- An associative array is null until its first insertion.
abbrev AA (K V : Type _) := Option (Impl K V)

namespace AA

def length (a : AA K V) : Nat :=
  a.elim 0 (·.length)

def empty (a : AA K V) : Bool :=
  a.length == 0

end AA

section

variable [BEq K] [Hashable K]

-- The highest bit is set to distinguish empty/deleted from filled buckets.
def calcHash (key : K) : UInt64 :=
  mix (hash key) ||| HASH_FILLED_MARK

-- What `_aaGetX` hands back: the value that was there, the value of the new entry, or the exception
-- of the lazy value.
inductive GetX (V : Type _)
  | found (value : V)
  | inserted (value : V)
  | thrown
  deriving DecidableEq, Repr

-- The lazy value runs with access to the array and either yields a value or throws.
abbrev LazyValue (K V : Type _) := AA K V → Except AAError (Option V × AA K V)

-- The slot for a key that is not in the table, after growing the table where that is needed.
def slotForInsert (t : Impl K V) (hash : UInt64) : Except AAError (Impl K V × Nat) := do
  let pi ← findSlotInsert t.buckets hash
  -- check load factor and possibly grow
  if !(bucketAt t.buckets pi).deleted && t.exceedsLoad then
    let t ← t.grow
    let pi ← findSlotInsert t.buckets hash
    if !(bucketAt t.buckets pi).empty then
      throw .assertion
    return (t, pi)
  else
    return (t, pi)

-- Fill the bucket `pi` of the array number `gen`, and update the counters.
def fillSlot (t : Impl K V) (gen pi : Nat) (hash : UInt64) (e : Entry K V) : Impl K V :=
  let p := bucketAt (t.array gen) pi
  let t' := t.setArray gen ((t.array gen).set pi ⟨hash, some e⟩)
  {
    buckets   := t'.buckets
    used      := if p.deleted then t.used else t.used + 1
    deleted   := if p.deleted then t.deleted - 1 else t.deleted
    firstUsed := min t.firstUsed pi.toUInt32
    obuckets  := t'.obuckets
  }

def _aaGetX (a : AA K V) (key : K) (v2 : LazyValue K V) :
    Except AAError (GetX V × AA K V) := do
  -- lazily alloc implementation
  let aa ← a.elim (Impl.new INIT_NUM_BUCKETS) .ok
  let hash := calcHash key
  match (← findSlotLookup aa.buckets hash key).bind (bucketAt aa.buckets · |>.entry) with
  | some e => return (.found e.value, some aa)
  | none =>
    let (aa, pi) ← slotForInsert aa hash
    -- `p` stays a reference into the array of this moment while the lazy value runs
    let gen := aa.generation
    match ← v2 (some aa) with
    | (none, a) => return (.thrown, a)
    | (some _, none) => throw .nullImpl
    | (some value, some aa) => return (.inserted value, some (fillSlot aa gen pi hash ⟨key, value⟩))

def _d_aaIn (a : AA K V) (key : K) : Except AAError (Option V) := do
  match a with
  | none => return none
  | some aa =>
    if a.empty then
      return none
    let p ← findSlotLookup aa.buckets (calcHash key) key
    return p.bind fun i => (bucketAt aa.buckets i).entry.map (·.value)

-- Delete an entry, return true if it was present.
def _d_aaDel (a : AA K V) (key : K) (inFinalizer : Bool) : Except AAError (Bool × AA K V) := do
  match a with
  | none => return (false, none)
  | some aa =>
    if a.empty then
      return (false, a)
    match ← findSlotLookup aa.buckets (calcHash key) key with
    | none => return (false, a)
    | some i =>
      let aa := { aa with
        buckets := aa.buckets.set i ⟨HASH_DELETED, none⟩
        deleted := aa.deleted + 1 }
      if aa.length * SHRINK_DEN < aa.dim * SHRINK_NUM ∧ !inFinalizer then
        return (true, some (← aa.shrink))
      else
        return (true, some aa)

def _aaClear (a : AA K V) : AA K V :=
  if a.empty then a else a.map (·.clear)

def _aaRehash (a : AA K V) : Except AAError (AA K V) := do
  match a with
  | none => return none
  | some aa =>
    if a.empty then
      return a
    return some (← aa.resize (nextpow2 (INIT_DEN * aa.length / INIT_NUM)))

-- One bucket of the original, in the loop of `_aaDup`. The new table takes over the stored hash if
-- `sameHash`, else it computes it again.
def dupBucket (sameHash : Bool) (impl : Impl K V) (b : Bucket K V) :
    Except AAError (Impl K V) := do
  match b.filled, b.entry with
  | true, some e =>
    let hash := if sameHash then b.hash else calcHash e.key
    let pi ← findSlotInsert impl.buckets hash
    return { impl with
      buckets   := impl.buckets.set pi ⟨hash, some e⟩
      firstUsed := min impl.firstUsed pi.toUInt32 }
  | _, _ => return impl

def _aaDup (a : AA K V) (sameHash : Bool) : Except AAError (AA K V) := do
  match a with
  | none => return none
  | some aa =>
    let len := aa.length
    if len = 0 then
      return none
    let impl ← Impl.new aa.dim
    let impl ← (aa.buckets.drop aa.firstUsed.toNat).foldlM (dupBucket sameHash) impl
    return some { impl with used := len.toUInt32 }

-- One entry of a literal. The second component counts the duplicate keys.
def literalEntry (acc : Impl K V × Nat) (e : Entry K V) : Except AAError (Impl K V × Nat) := do
  let (aa, duplicates) := acc
  let hash := calcHash e.key
  match ← findSlotLookup aa.buckets hash e.key with
  | some i =>
    let b := bucketAt aa.buckets i
    let entry := b.entry.map fun old => { old with value := e.value }
    return ({ aa with buckets := aa.buckets.set i { b with entry := entry } }, duplicates + 1)
  | none =>
    let pi ← findSlotInsert aa.buckets hash
    return ({ aa with
      buckets   := aa.buckets.set pi ⟨hash, some e⟩
      firstUsed := min aa.firstUsed pi.toUInt32 }, duplicates)

def _d_assocarrayliteralTX (es : List (Entry K V)) : Except AAError (AA K V) := do
  let length := es.length
  if length = 0 then
    return none
  let aa ← Impl.new (nextpow2 (INIT_DEN * length / INIT_NUM))
  let (aa, duplicates) ← es.foldlM literalEntry (aa, 0)
  return some { aa with used := (length - duplicates).toUInt32 }

end

-- The filled buckets from the first one that can be used, in order.
def liveEntries (t : Impl K V) : List (Entry K V) :=
  (t.buckets.drop t.firstUsed.toNat).filterMap fun b => if b.filled then b.entry else none

def _aaKeys (a : AA K V) : List K :=
  if a.empty then [] else a.elim [] fun t => (liveEntries t).map (·.key)

def _aaValues (a : AA K V) : List V :=
  if a.empty then [] else a.elim [] fun t => (liveEntries t).map (·.value)

-- `_d_aaApply2` looks at all buckets; the result lists the calls of the delegate.
def _d_aaApply2 (a : AA K V) : List (Entry K V) :=
  if a.empty then []
  else a.elim [] fun t => t.buckets.filterMap fun b => if b.filled then b.entry else none

structure AARange (K V : Type _) where
  impl : AA K V
  idx : Nat

-- The index of the next filled bucket; `i` is the index of the head of the list.
def nextFilled : List (Bucket K V) → (i : Nat) → Nat
  | [], i => i
  | b :: bs, i => if b.filled then i else nextFilled bs (i + 1)

def _aaRange (a : AA K V) : AARange K V where
  impl := a
  idx  := a.elim 0 fun t => nextFilled (t.buckets.drop t.firstUsed.toNat) t.firstUsed.toNat

namespace AARange

def dim (r : AARange K V) : Nat :=
  r.impl.elim 0 (·.dim)

def empty (r : AARange K V) : Bool :=
  r.impl.isNone || r.dim ≤ r.idx

def front (r : AARange K V) : Option (Entry K V) :=
  r.impl.bind fun t => (bucketAt t.buckets r.idx).entry

def popFront (r : AARange K V) : AARange K V :=
  match r.impl with
  | none => r
  | some t =>
    if r.dim ≤ r.idx then r
    else { r with idx := nextFilled (t.buckets.drop (r.idx + 1)) (r.idx + 1) }

end AARange

section Equal

variable [BEq K] [Hashable K] [BEq V]

-- The comparison loop over the buckets of the first array.
def equalLoop (t₂ : Impl K V) (sameHash : Bool) : List (Bucket K V) → Except AAError Bool
  | [] => .ok true
  | b₁ :: bs =>
    match b₁.filled, b₁.entry with
    | true, some e => do
      let hash := if sameHash then b₁.hash else calcHash e.key
      match (← findSlotLookup t₂.buckets hash e.key).bind (bucketAt t₂.buckets · |>.entry) with
      | none => return false
      | some e₂ => if e.value == e₂.value then equalLoop t₂ sameHash bs else return false
    | _, _ => equalLoop t₂ sameHash bs

-- `isSame` says whether both arrays are one reference.
def _aaEqual (isSame sameHash : Bool) (a₁ a₂ : AA K V) : Except AAError Bool :=
  if isSame then
    .ok true
  else if a₁.length ≠ a₂.length then
    .ok false
  else if a₁.length = 0 then
    .ok true
  else
    match a₁, a₂ with
    | some t₁, some t₂ => equalLoop t₂ sameHash (t₁.buckets.drop t₁.firstUsed.toNat)
    | _, _ => .error .nullImpl

end Equal

end Runtime.NewAA
