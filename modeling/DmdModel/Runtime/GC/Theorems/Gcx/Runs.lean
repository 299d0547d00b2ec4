import DmdModel.Runtime.GC.Theorems.Gcx.Collect

namespace Runtime.GC.Gcx

-- The steps that the functions of the collector consist of, with the results that matter: the address of
-- a block, and the size of a block that grew.
inductive Op
  | newPool (npages : Nat) (isLargeObject : Bool) (os : Os)
  | tryAllocSmall (bin : Fin B_NUMSMALL)
  | takeSlot (bin : Fin B_NUMSMALL) (bits : UInt32)
  | tryAlloc (npages pageAlign : Nat) (bits : UInt32)
  | free (ptr : Nat)
  | extend (ptr minsize maxsize : Nat)
  | fullcollect (lowMem : Bool) (marks : Nat → Bool)
  | recoverNextPage (bin : Fin B_NUMSMALL)
  | minimize

inductive Outcome
  | done
  | block (base : Option Nat)
  | freed (freed : Bool)
  | extended (size : Nat)

variable {g g' : Gcx} {op : Op} {trace : List (Op × Outcome)}

namespace Op

def run (g : Gcx) : Op → Except GCError (Outcome × Gcx)
  | newPool npages isLargeObject os => return (.done, (← g.newPool npages isLargeObject os).2)
  | tryAllocSmall bin               => return (.done, (← g.tryAllocSmall bin).2)
  | takeSlot bin bits               => return (← g.takeSlot bin bits).map .block id
  | tryAlloc npages pageAlign bits  => do
    match ← tryAllocLoop npages pageAlign g.pooltable g with
    | (some (pool, pn), g) => return (g.takePages npages bits pool pn).map .block id
    | (none, g)            => return (.block none, g)
  | free ptr                        => return (← g.freeNoSync ptr).map .freed id
  | extend ptr minsize maxsize      => return (← g.extendNoSync ptr minsize maxsize).map .extended id
  | fullcollect lowMem marks        => return (.done, ← g.fullcollect lowMem marks)
  | recoverNextPage bin             => return (.done, ← g.recoverNextPage bin)
  | minimize                        => return (.done, g.minimize)

-- The requests that callers make, with an operating system that gives memory that is not in use. Where
-- pages are counted, the counters are far from wrapping around.
def Valid (g : Gcx) : Op → Prop
  | newPool npages isLargeObject os => 256 ≤ g.newPoolPages npages ∧ ∀ baseAddr memory,
    os g.ranges (g.newPoolPages npages) isLargeObject = .pages baseAddr memory →
      Maps g (g.newPoolPages npages) baseAddr memory
  | tryAllocSmall _                 => g.Slack
  | takeSlot bin _                  => g.bucket bin ≠ []
  | tryAlloc npages pageAlign _     =>
    g.Slack ∧ 0 < npages ∧ npages ≤ 2 ^ 31 ∧ ∃ k < 64, pageAlign = 2 ^ k
  | free _                          => True
  | extend _ minsize maxsize        => g.Slack ∧ minsize ≤ maxsize
  | fullcollect _ _                 => True
  | recoverNextPage bin             => g.bucket bin = []
  | minimize                        => True

-- What the operations return and do to the blocks.
inductive Changes (h : Heap) : Op → Outcome → Heap → Prop
  | newPool {npages : Nat} {isLargeObject : Bool} {os : Os} :
    Changes h (.newPool npages isLargeObject os) .done h
  | tryAllocSmall {bin : Fin B_NUMSMALL} : Changes h (.tryAllocSmall bin) .done h
  | takeSlot {bin : Fin B_NUMSMALL} {bits : UInt32} {a : Nat} (fresh : ∀ b ∈ h, b.base ≠ a) :
    Changes h (.takeSlot bin bits) (.block (some a))
      (h.replace a (some ⟨a, binsize bin, bits &&& BlkAttr.SMALL⟩))
  | tryAlloc {npages pageAlign a : Nat} {bits : UInt32} (fresh : ∀ b ∈ h, b.base ≠ a)
    (aligned : pageAlign * PAGESIZE ∣ a) :
    Changes h (.tryAlloc npages pageAlign bits) (.block (some a))
      (h.replace a (some ⟨a, npages * PAGESIZE, bits &&& BlkAttr.LARGE⟩))
  | full {npages pageAlign : Nat} {bits : UInt32} :
    Changes h (.tryAlloc npages pageAlign bits) (.block none) h
  | free {ptr : Nat} {r : Bool} (found : r = true ↔ ∃ b ∈ h, b.base = ptr) :
    Changes h (.free ptr) (.freed r) (h.replace ptr none)
  | extend {ptr minsize maxsize size grown : Nat} {b : BlkInfo} (held : b ∈ h) (le : b.base ≤ ptr)
    (lt : ptr < b.base + PAGESIZE) (lower : numPages minsize ≤ grown) (upper : grown ≤ numPages maxsize)
    (grows : size = b.size + grown * PAGESIZE) :
    Changes h (.extend ptr minsize maxsize) (.extended size) (h.replace b.base (some { b with size := size }))
  | extendNone {ptr minsize maxsize : Nat} : Changes h (.extend ptr minsize maxsize) (.extended 0) h
  | fullcollect {lowMem : Bool} {marks : Nat → Bool} :
    Changes h (.fullcollect lowMem marks) .done (h.collect marks)
  | recoverNextPage {bin : Fin B_NUMSMALL} : Changes h (.recoverNextPage bin) .done h
  | minimize : Changes h .minimize .done h

-- The runs over the blocks.
inductive Traces : Heap → List (Op × Outcome) → Heap → Prop
  | refl {h : Heap} : Traces h [] h
  | step {h₁ h₂ h₃ : Heap} {op : Op} {o : Outcome} {trace : List (Op × Outcome)}
    (changes : op.Changes h₁ o h₂) (rest : Traces h₂ trace h₃) : Traces h₁ ((op, o) :: trace) h₃

-- The runs of the collector.
inductive Runs : Gcx → List (Op × Outcome) → Gcx → Prop
  | refl {g : Gcx} : Runs g [] g
  | step {g g' : Gcx} {op : Op} {r : Outcome × Gcx} {trace : List (Op × Outcome)} (valid : op.Valid g)
    (run : op.run g = .ok r) (rest : Runs r.2 trace g') : Runs g ((op, r.1) :: trace) g'

theorem run_changes (h : g.Wf) (hc : g.Counted) (hv : op.Valid g) :
    ∃ r h', op.run g = .ok r ∧ op.Changes g.heap r.1 h' ∧ Effect g r.2 h' := by
  cases op with
  | newPool npages isLargeObject os =>
    obtain ⟨r, g', hr, hs⟩ := h.newPool hv.1 hv.2
    exact ⟨(.done, g'), _, by rw [run, hr]; rfl, .newPool, hs⟩
  | tryAllocSmall bin =>
    obtain ⟨r, g', hr, hs, _⟩ := h.tryAllocSmall hv bin
    exact ⟨(.done, g'), _, by rw [run, hr]; rfl, .tryAllocSmall, hs⟩
  | takeSlot bin bits =>
    obtain ⟨a, g', hr, hs, hfresh⟩ := h.takeSlot hv bits
    exact ⟨(.block (some a), g'), _, by rw [run, hr]; rfl, .takeSlot hfresh, hs⟩
  | tryAlloc npages pageAlign bits =>
    obtain ⟨hslack, hn, hn', k, hk, rfl⟩ := hv
    obtain ⟨r, g₁, hr, hs⟩ := h.tryAllocLoop hk hn hn' fun _ hi => hi
    cases hs with
    | @some id pn a _ pool large addr lt aligned fresh wf heap owes counter =>
      have hb : ⟨a, npages * PAGESIZE, 0⟩ ∈ g₁.heap := heap ▸ .inr rfl
      obtain ⟨g', hr', hwf, hheap, hused, hsmall, hlarge⟩ :=
        wf.takePages pool large hb addr lt rfl npages bits
      refine ⟨(.block (some a), g'), _, ?_, .tryAlloc fresh aligned, hwf, hheap.trans ?_, ?_⟩
      · rw [run, hr]
        simp only [bind, Except.bind, hr']
        rfl
      · rw [heap]
        exact Heap.replace_replace fun b hb => Option.some.inj hb ▸ rfl
      · exact owes.pay hused hsmall (by rw [hlarge, counter]; have := hslack.large; omega)
    | none effect => exact ⟨(.block none, g₁), _, by rw [run, hr]; rfl, .full, effect⟩
  | free ptr =>
    obtain ⟨r, g', hr, hs⟩ := h.freeNoSync ptr
    exact ⟨(.freed r, g'), _, by rw [run, hr]; rfl, .free hs.found, hs.effect⟩
  | extend ptr minsize maxsize =>
    obtain ⟨r, g', hr, hs⟩ := h.extendNoSync hv.1 ptr hv.2
    cases hs with
    | grown held le lt lower upper grows effect =>
      exact ⟨(.extended _, g'), _, by rw [run, hr]; rfl, .extend held le lt lower upper grows, effect⟩
    | none effect => exact ⟨(.extended 0, g'), _, by rw [run, hr]; rfl, .extendNone, effect⟩
  | fullcollect lowMem marks =>
    obtain ⟨g', hr, hs⟩ := h.fullcollect hc lowMem marks
    exact ⟨(.done, g'), _, by rw [run, hr]; rfl, .fullcollect, hs⟩
  | recoverNextPage bin =>
    obtain ⟨g', hr, hs⟩ := h.recoverNextPage hv
    exact ⟨(.done, g'), _, by rw [run, hr]; rfl, .recoverNextPage, hs⟩
  | minimize => exact ⟨(.done, g.minimize), _, rfl, .minimize, h.minimize⟩

theorem Runs.wf (hr : Runs g trace g') (h : g.Wf) (hc : g.Counted) :
    Traces g.heap trace g'.heap ∧ g'.Wf ∧ g'.Counted := by
  induction hr with
  | refl => exact ⟨.refl, h, hc⟩
  | @step g g' op r trace valid run _ hi =>
    obtain ⟨r', h₁, hrun, hchanges, heffect⟩ := run_changes h hc valid
    obtain rfl := Except.ok.inj (run.symm.trans hrun)
    obtain ⟨htraces, hwf⟩ := hi heffect.wf (heffect.owes.counted hc)
    exact ⟨.step hchanges (heffect.heap ▸ htraces), hwf⟩

end Op

-- What the collector is for: whatever is done, its blocks are those of a plain set of blocks, it knows
-- exactly these blocks, and it can go on.
structure Serves (g : Gcx) (trace : List (Op × Outcome)) : Prop where
  traces   : Op.Traces ∅ trace g.heap
  separate : g.heap.Separate
  lookup   : ∀ ptr, ∃ r, g.Found ptr r
  progress : ∀ op : Op, op.Valid g → ∃ r, op.run g = .ok r

end Runtime.GC.Gcx
