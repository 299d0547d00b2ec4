import DmdModel.Runtime.GC.Theorems.LargeBlocks

namespace Runtime.GC.LargeObjectPool

variable {p q : LargeObjectPool} {base top : Nat} {h h' : Heap} {op : Op} {o : Outcome}
  {trace : List (Op × Outcome)}

namespace Op

-- What the operations return and do to the blocks, for a pool with the memory from `base` to `top`.
inductive Changes (base top : Nat) (h : Heap) : Op → Outcome → Heap → Prop
  | allocated {n pageAlign i : Nat} (aligned : pageAlign * PAGESIZE ∣ base + i * PAGESIZE)
    (room : h.Room top (base + i * PAGESIZE) (n * PAGESIZE)) :
    Changes base top h (.allocPages n pageAlign) (.page (some i))
      (h.replace (base + i * PAGESIZE) (some ⟨base + i * PAGESIZE, n * PAGESIZE, 0⟩))
  | full {n pageAlign : Nat} (noRoom : ∀ i, pageAlign * PAGESIZE ∣ base + i * PAGESIZE →
      ¬h.Room top (base + i * PAGESIZE) (n * PAGESIZE)) :
    Changes base top h (.allocPages n pageAlign) (.page none) h
  | free {ptr : Nat} {r : Bool} (found : r = true ↔ ∃ b ∈ h, b.base = ptr) :
    Changes base top h (.free ptr) (.freed r) (h.replace ptr none)
  | extend {ptr minsize maxsize grown : Nat} {b : BlkInfo} (held : b ∈ h) (le : b.base ≤ ptr)
    (lt : ptr < b.base + PAGESIZE) (lower : numPages minsize ≤ grown) (upper : grown ≤ numPages maxsize)
    (room : h.Room top (b.base + b.size) (grown * PAGESIZE)) :
    Changes base top h (.extend ptr minsize maxsize) (.extended (b.size + grown * PAGESIZE) grown)
      (h.replace b.base (some { b with size := b.size + grown * PAGESIZE }))
  | extendNone {ptr minsize maxsize : Nat} (noRoom : ∀ b ∈ h, b.base ≤ ptr → ptr < b.base + PAGESIZE →
      ¬h.Room top (b.base + b.size) (max 1 (numPages minsize) * PAGESIZE)) :
    Changes base top h (.extend ptr minsize maxsize) (.extended 0 0) h
  | reallocNull {ptr size : Nat} {bits : UInt32} (other : ∀ b ∈ h, b.base ≠ ptr) :
    Changes base top h (.realloc ptr size bits) (.realloc .null) h
  | reallocMove {ptr size : Nat} {bits : UInt32} {b : BlkInfo} (held : b ∈ h) (start : b.base = ptr)
    (lt : b.size < numPages size * PAGESIZE)
    (noRoom : ¬h.Room top (b.base + b.size) (numPages size * PAGESIZE - b.size)) :
    Changes base top h (.realloc ptr size bits) (.realloc .doMalloc) h
  | reallocInPlace {ptr size grown : Nat} {bits : UInt32} {b : BlkInfo} (held : b ∈ h)
    (start : b.base = ptr) (pages : grown * PAGESIZE = numPages size * PAGESIZE - b.size)
    (room : h.Room top (b.base + b.size) (grown * PAGESIZE)) :
    Changes base top h (.realloc ptr size bits) (.realloc (.inPlace (numPages size * PAGESIZE) grown))
      (h.replace ptr (some ⟨ptr, numPages size * PAGESIZE,
        if bits ≠ 0 then bits &&& BlkAttr.LARGE else b.attr⟩))
  | sweep {mark : Nat → Bool} {marks : Nat → Bool} (pages : ∀ i, mark i = marks (base + i * PAGESIZE)) :
    Changes base top h (.sweep mark) (.swept (h.garbage base marks).ncard) (h.collect marks)

-- The runs over the blocks.
inductive Traces (base top : Nat) : Heap → List (Op × Outcome) → Heap → Prop
  | refl {h : Heap} : Traces base top h [] h
  | step {h₁ h₂ h₃ : Heap} {op : Op} {o : Outcome} {trace : List (Op × Outcome)}
    (changes : op.Changes base top h₁ o h₂) (rest : Traces base top h₂ trace h₃) :
    Traces base top h₁ ((op, o) :: trace) h₃

-- The runs of the pool.
inductive Runs : LargeObjectPool → List (Op × Outcome) → LargeObjectPool → Prop
  | refl {p : LargeObjectPool} : Runs p [] p
  | step {p q : LargeObjectPool} {op : Op} {r : Outcome × LargeObjectPool} {trace : List (Op × Outcome)}
    (valid : op.Valid p) (fits : op.Fits p) (run : op.run p = .ok r) (rest : Runs r.2 trace q) :
    Runs p ((op, r.1) :: trace) q

-- The pool is well-formed, and its memory and its blocks are as in `base`, `top` and `h`.
structure Refines (p : LargeObjectPool) (base top : Nat) (h : Heap) : Prop where
  wf       : p.Wf
  plain    : p.Plain
  baseAddr : p.baseAddr = base
  topAddr  : p.topAddr = top
  heap     : p.heap = h

end Op

theorem Replaced.refines {a : Nat} {new : Option BlkInfo} (h : Replaced p q a new) :
    Op.Refines q p.baseAddr p.topAddr (p.heap.replace a new) where
  wf       := h.wf
  plain    := h.plain
  baseAddr := h.baseAddr
  topAddr  := by rw [topAddr, topAddr, h.baseAddr, h.npages]
  heap     := Set.ext h.holds

theorem place_iff (hp : p.Wf) {n pageAlign i : Nat} (hn : 0 < n) : Place p n pageAlign i ↔
    pageAlign * PAGESIZE ∣ p.baseAddr + i * PAGESIZE ∧
      p.heap.Room p.topAddr (p.baseAddr + i * PAGESIZE) (n * PAGESIZE) := by
  obtain ⟨m, hm⟩ := Nat.dvd_of_mod_eq_zero hp.aligned
  have haligned : pageAlign * PAGESIZE ∣ p.baseAddr + i * PAGESIZE ↔
      pageAlign ∣ p.baseAddr / PAGESIZE + i := by
    rw [hm, Nat.mul_div_cancel_left _ (by decide), Nat.mul_comm PAGESIZE, ← Nat.add_mul]
    exact Nat.mul_dvd_mul_iff_right (by decide)
  rw [haligned, ← hp.freeRange_iff hn]
  exact ⟨fun h => ⟨h.aligned, h.range⟩, fun h => ⟨h.2, h.1⟩⟩

namespace Op

theorem Refines.self (hp : p.Wf) (hplain : p.Plain) : Refines p p.baseAddr p.topAddr p.heap :=
  ⟨hp, hplain, rfl, rfl, rfl⟩

-- Every operation returns, and does to the blocks what it should.
theorem run_changes (hp : p.Wf) (hplain : p.Plain) (hv : op.Valid p) (hf : op.Fits p) :
    ∃ r h', op.run p = .ok r ∧ op.Changes p.baseAddr p.topAddr p.heap r.1 h' ∧
      Refines r.2 p.baseAddr p.topAddr h' := by
  cases op with
  | allocPages n pageAlign =>
    obtain ⟨hn, _, k, hk, rfl⟩ := hv
    obtain ⟨r, hr, hs⟩ := hp.allocPages hplain hk hn fun i hi => hf ⟨i, hi⟩
    cases hs with
    | @some i q place taken =>
      obtain ⟨haligned, hroom⟩ := (place_iff hp hn).mp place
      exact ⟨(.page (.some i), q), _, by rw [run, hr]; rfl, .allocated haligned hroom,
        taken.replaced.refines⟩
    | @none q full same =>
      refine ⟨(.page .none, q), p.heap, by rw [run, hr]; rfl, .full fun i ha hr => ?_,
        ⟨same.wf, same.plain, same.baseAddr, ?_, Set.ext same.holds⟩⟩
      · exact full i ((place_iff hp hn).mpr ⟨ha, hr⟩)
      · rw [topAddr, topAddr, same.baseAddr, same.npages]
  | free ptr =>
    obtain ⟨r, q, hr, hs, _, hfound⟩ := hp.freeNoSync hplain hv
    exact ⟨(.freed r, q), _, by rw [run, hr]; rfl, .free hfound, hs.refines⟩
  | extend ptr minsize maxsize =>
    obtain ⟨r, hr, hs⟩ := hp.extendNoSync hplain hv.1 hv.2.1
    cases hs with
    | @grown size grown b q lower upper spec =>
      obtain ⟨held, le, lt, room, rfl, hreplaced, _⟩ := spec
      exact ⟨(.extended _ grown, q), _, by rw [run, hr]; rfl, .extend held le lt lower upper room,
        hreplaced.refines⟩
    | none full =>
      exact ⟨(.extended 0 0, p), _, by rw [run, hr]; rfl, .extendNone full, .self hp hplain⟩
  | realloc ptr size bits =>
    obtain ⟨hc, hlarge, _⟩ := hv
    obtain ⟨r, hr, hs⟩ := hp.reallocNoSync hplain hc bits hf
    cases hs with
    | null other =>
      exact ⟨(.realloc .null, p), _, by rw [run, hr]; rfl, .reallocNull other, .self hp hplain⟩
    | doMalloc held start move =>
      obtain ⟨hlt, hroom⟩ := move.resolve_left (Nat.not_le_of_lt hlarge)
      exact ⟨(.realloc .doMalloc, p), _, by rw [run, hr]; rfl, .reallocMove held start hlt hroom,
        .self hp hplain⟩
    | @inPlace grown b q _ spec =>
      exact ⟨(.realloc _, q), _, by rw [run, hr]; rfl,
        .reallocInPlace spec.held spec.base spec.pages spec.room, spec.replaced.refines⟩
  | sweep mark =>
    obtain ⟨marks, hmarks⟩ : ∃ marks : Nat → Bool, ∀ i, mark i = marks (p.baseAddr + i * PAGESIZE) := by
      refine ⟨fun a => mark ((a - p.baseAddr) / PAGESIZE), fun i => ?_⟩
      dsimp only
      rw [Nat.add_sub_cancel_left, Nat.mul_div_cancel _ (by decide)]
    obtain ⟨freed, q, hr, hs⟩ := hp.sweep hplain marks
    rw [← funext hmarks] at hr
    obtain rfl := hs.garbage
    refine ⟨(.swept _, q), _, by rw [run, hr]; rfl, .sweep hmarks,
      ⟨hs.wf, hs.plain, hs.baseAddr, ?_, Set.ext hs.holds⟩⟩
    rw [topAddr, topAddr, hs.baseAddr, hs.npages]

theorem Refines.run (hr : Refines p base top h) (hruns : Runs p trace q) :
    ∃ h', Traces base top h trace h' ∧ Refines q base top h' := by
  induction hruns generalizing h with
  | refl => exact ⟨h, .refl, hr⟩
  | step valid fits run _ hi =>
    obtain ⟨wf, plain, rfl, rfl, rfl⟩ := hr
    obtain ⟨r, h₁, hrun, hchanges, h₁'⟩ := run_changes wf plain valid fits
    obtain rfl := Except.ok.inj (run.symm.trans hrun)
    obtain ⟨h', htraces, h'⟩ := hi h₁'
    exact ⟨_, .step hchanges htraces, h'⟩

end Op

theorem heap_fresh {baseAddr npages : Nat} {memory : List UInt32} :
    (fresh baseAddr npages memory).heap = ∅ :=
  Set.eq_empty_of_forall_notMem fresh_holds

-- What a pool is for: whatever is done with it, it returns the blocks that a heap without any pages would
-- allow, it knows exactly these blocks, and it can go on.
structure Serves (p : LargeObjectPool) (base top : Nat) (trace : List (Op × Outcome)) : Prop where
  traces   : Op.Traces base top ∅ trace p.heap
  within   : p.heap.Within base top
  separate : p.heap.Separate
  lookup   : ∀ ptr, base ≤ ptr → ptr < top → ∃ r, p.heap.Owner ptr r ∧
    p.findBase ptr = .ok (r.map BlkInfo.base) ∧ p.getInfo ptr = .ok (r.getD .init)
  progress : ∀ op : Op, op.Valid p → op.Fits p → ∃ r, op.run p = .ok r

theorem runs_serve {baseAddr npages : Nat} {memory : List UInt32} (hm : memory.length = npages)
    (hn : npages < 2 ^ 32) (ha : baseAddr % PAGESIZE = 0) (ht : baseAddr + npages * PAGESIZE ≤ 2 ^ 64)
    (hr : Op.Runs (fresh baseAddr npages memory) trace q) :
    q.Serves baseAddr (baseAddr + npages * PAGESIZE) trace := by
  have hfresh : Op.Refines (fresh baseAddr npages memory) baseAddr (baseAddr + npages * PAGESIZE) ∅ :=
    ⟨fresh_wf hm hn ha ht, fresh_plain, rfl, rfl, heap_fresh⟩
  obtain ⟨h', htraces, hq⟩ := hfresh.run hr
  obtain ⟨wf, plain, hbase, htop, rfl⟩ := hq
  constructor
  case traces => exact htraces
  case within =>
    intro b hb
    rw [← htop, ← hbase]
    exact holds_bounds hb
  case separate => exact fun _ hb _ hc => holds_disjoint hb hc
  case lookup =>
    intro ptr hle hlt
    obtain ⟨r, hfound⟩ := @Wf.found q ptr wf (decide_eq_true (hbase ▸ htop ▸ ⟨hle, hlt⟩))
    exact ⟨r, hfound.iff, hfound.findBase, hfound.getInfo⟩
  case progress =>
    intro op hv hf
    obtain ⟨r, _, hrun, _⟩ := Op.run_changes wf plain hv hf
    exact ⟨r, hrun⟩

theorem runs_serve_one : ∃ r, (Op.allocPages 3 1).run (fresh 0x10000 4 [0, 0, 0, 0]) = .ok r ∧
    r.2.Serves 0x10000 0x14000 [(.allocPages 3 1, r.1)] := by
  have hvalid : (Op.allocPages 3 1).Valid (fresh 0x10000 4 [0, 0, 0, 0]) :=
    ⟨by decide, by decide, 0, by decide, rfl⟩
  have hfits : (Op.allocPages 3 1).Fits (fresh 0x10000 4 [0, 0, 0, 0]) := fun _ => by decide
  obtain ⟨r, hr⟩ := (@runs_serve _ [] 0x10000 4 [0, 0, 0, 0] rfl (by decide) (by decide) (by decide)
    .refl).progress _ hvalid hfits
  exact ⟨r, hr, @runs_serve _ _ 0x10000 4 [0, 0, 0, 0] rfl (by decide) (by decide) (by decide)
    (.step hvalid hfits hr .refl)⟩

end Runtime.GC.LargeObjectPool
