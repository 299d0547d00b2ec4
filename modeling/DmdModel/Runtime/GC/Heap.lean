import DmdModel.Runtime.GC.Basic

namespace Runtime.GC

-- What a pool manages: the allocated blocks.
abbrev Heap := Set BlkInfo

namespace Heap

-- The block at the address `a` is another one, or is not there any more.
def replace (h : Heap) (a : Nat) (new : Option BlkInfo) : Heap :=
  {b | b ∈ h ∧ b.base ≠ a ∨ new = some b}

theorem replace_none {h : Heap} {a : Nat} (ha : ∀ b ∈ h, b.base ≠ a) : h.replace a none = h := by
  ext b
  simpa [replace] using ha b

theorem replace_replace {h : Heap} {a : Nat} {old new : Option BlkInfo} (ho : ∀ b, old = some b → b.base = a) :
    (h.replace a old).replace a new = h.replace a new := by
  ext b
  have := ho b
  simp only [replace, Set.mem_ofPred_eq]
  tauto

theorem replace_self {h : Heap} {b : BlkInfo} (hb : b ∈ h) (hs : ∀ c ∈ h, c.base = b.base → c = b) :
    h.replace b.base (some b) = h := by
  ext c
  constructor
  · rintro (⟨hc, _⟩ | he)
    · exact hc
    · exact Option.some.inj he ▸ hb
  · intro hc
    by_cases he : c.base = b.base
    case pos => exact .inr (congrArg some (hs c hc he).symm)
    case neg => exact .inl ⟨hc, he⟩

-- The blocks that a collection with the marked addresses leaves.
def collect (h : Heap) (marks : Nat → Bool) : Heap :=
  {b | b ∈ h ∧ marks b.base = true}

-- The pages of the blocks that such a collection frees, counted from the address `base`.
def garbage (h : Heap) (base : Nat) (marks : Nat → Bool) : Set Nat :=
  {i | ∃ b ∈ h, marks b.base = false ∧ b.base ≤ base + i * PAGESIZE ∧ base + i * PAGESIZE < b.base + b.size}

-- Below the address `top`, there are `size` bytes at `a` that belong to no block.
structure Room (h : Heap) (top a size : Nat) : Prop where
  le    : a + size ≤ top
  clear : ∀ b ∈ h, b.base + b.size ≤ a ∨ a + size ≤ b.base

-- The blocks are not empty, and in the memory from `base` to `top`.
def Within (h : Heap) (base top : Nat) : Prop :=
  ∀ b ∈ h, base ≤ b.base ∧ b.base + b.size ≤ top ∧ 0 < b.size

-- No two blocks have a byte in common.
def Separate (h : Heap) : Prop :=
  ∀ b ∈ h, ∀ c ∈ h, b = c ∨ b.base + b.size ≤ c.base ∨ c.base + c.size ≤ b.base

-- The block that has the address.
def Owner (h : Heap) (ptr : Nat) (r : Option BlkInfo) : Prop :=
  ∀ b, r = some b ↔ b ∈ h ∧ b.base ≤ ptr ∧ ptr < b.base + b.size

end Heap
end Runtime.GC
