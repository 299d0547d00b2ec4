import DmdModel.Compiler.Backend.Theorems.DvecIndex
import DmdModel.Compiler.Backend.Theorems.DvecBits
import DmdModel.Lib.Lists

-- The bit vectors of the optimizer do what the same operations on finite sets do.

namespace Compiler.Backend.Dvec

open WordBits LinkedList Except

variable {A : Allocator} {g g' : VecGlobal} {a a' : Sets} {b c : Block} {s t : BitSet} {m : Memory} {v w : Addr}
  {p q r : vec_t} {d n : Nat} {xs : List Addr}

-- The link of a vector in a free list.
def Memory.link (m : Memory) (v : Addr) : vec_t :=
  match m v with
  | none   => none
  | some b => match b.first with
    | .dim _  => none
    | .next w => w

-- The free list for vectors of `d` words.
structure FreeList (m : Memory) (p : vec_t) (d : Nat) (xs : List Addr) : Prop where
  linked : Linked m.link p xs
  nodup  : xs.Nodup
  blocks : ∀ x ∈ xs, ∃ b w, m x = some b ∧ b.first = .next w ∧ b.size = d

namespace FreeList

theorem not_mem_of_none (h : FreeList m p d xs) (hv : m v = none) : v ∉ xs := by
  intro hmem
  have ⟨b, w, hb, _, _⟩ := h.blocks v hmem
  rw [hv] at hb
  cases hb

theorem not_mem_of_dim (h : FreeList m p d xs) (hv : m v = some b) (hdim : b.first = .dim n) : v ∉ xs := by
  intro hmem
  have ⟨b', w, hb', hnext, _⟩ := h.blocks v hmem
  rw [hv, Option.some.injEq] at hb'
  rw [← hb', hdim] at hnext
  cases hnext

theorem not_mem_of_size (h : FreeList m p d xs) (hv : m v = some b) (hsize : b.size ≠ d) : v ∉ xs := by
  intro hmem
  have ⟨b', w, hb', _, hsize'⟩ := h.blocks v hmem
  rw [hv, Option.some.injEq] at hb'
  exact hsize (hb' ▸ hsize')

-- A list depends on the memory of its vectors only.
theorem update {x : Option Block} (h : FreeList m p d xs) (hv : v ∉ xs) : FreeList (Function.update m v x) p d xs where
  linked := by
    refine (linked_congr fun y hy => ?_).mp h.linked
    have hne : y ≠ v := fun heq => hv (heq ▸ hy)
    rw [Memory.link, Memory.link, Function.update_of_ne hne]
  nodup  := h.nodup
  blocks := fun y hy => by
    have hne : y ≠ v := fun heq => hv (heq ▸ hy)
    rw [Function.update_of_ne hne]
    exact h.blocks y hy

theorem pop (h : FreeList m (some v) d xs) :
    ∃ b w ys, m v = some b ∧ b.first = .next w ∧ b.size = d ∧ FreeList m w d ys ∧ v ∉ ys := by
  cases xs
  case nil => cases h.linked
  case cons x xs =>
    obtain ⟨hx, hlinked⟩ := h.linked
    rw [Option.some.injEq] at hx
    subst hx
    have ⟨b, w, hb, hnext, hsize⟩ := h.blocks v List.mem_cons_self
    have hlink : m.link v = w := by rw [Memory.link, hb]; simp only [hnext]
    rw [hlink] at hlinked
    exact ⟨b, w, xs, hb, hnext, hsize,
      { linked := hlinked, nodup := h.nodup.of_cons, blocks := fun y hy => h.blocks y (List.mem_cons_of_mem v hy) },
      (List.nodup_cons.mp h.nodup).left⟩

theorem push (h : FreeList m p d xs) (hv : v ∉ xs) (hnext : b.first = .next p) (hsize : b.size = d) :
    FreeList (m.store v b) (some v) d (v :: xs) where
  linked := by
    have hlink : (m.store v b).link v = p := by
      rw [Memory.link, Memory.store, Function.update_self]
      simp only [hnext]
    exact ⟨rfl, hlink ▸ (h.update hv).linked⟩
  nodup  := List.nodup_cons.mpr ⟨hv, h.nodup⟩
  blocks := by
    intro y hy
    rcases List.mem_cons.mp hy with rfl | hy
    case inl => exact ⟨b, p, by rw [Memory.store, Function.update_self], hnext, hsize⟩
    case inr => exact (h.update hv).blocks y hy

end FreeList

-- The state of the package: the vectors in use hold their sets, and the others can be used again.
structure Refines (g : VecGlobal) (a : Sets) : Prop where
  live  : ∀ v s, a v = some s → ∃ b, g.memory v = some b ∧ Holds b s
  lists : ∀ d < VecGlobal.freelistLength, ∃ xs, FreeList g.memory (g.freelist d) d xs

-- A vector that can be given to the caller, with the free lists that there are then.
structure Free (g : VecGlobal) (a : Sets) (freelist : Nat → vec_t) (v : Addr) : Prop where
  unused : a v = none
  lists  : ∀ d < VecGlobal.freelistLength, ∃ xs, FreeList g.memory (freelist d) d xs ∧ v ∉ xs

namespace Refines

theorem initial : Refines .initial fun _ => none where
  live _ _ h := by cases h
  lists d _  := ⟨[], { linked := rfl, nodup := List.nodup_nil, blocks := by simp }⟩

theorem store' {freelist : Nat → vec_t} {count : Int} (h : Refines g a)
    (hlists : ∀ d < VecGlobal.freelistLength, ∃ xs, FreeList g.memory (freelist d) d xs ∧ v ∉ xs) (hb : Holds b s) :
    Refines { count := count, freelist := freelist, memory := g.memory.store v b } (a.set v s) where
  live w t ht := by
    dsimp only [Memory.store]
    by_cases hwv : w = v
    case pos =>
      rw [hwv, Sets.set, Function.update_self, Option.some.injEq] at ht
      rw [hwv, Function.update_self]
      exact ⟨b, rfl, ht ▸ hb⟩
    case neg =>
      rw [Sets.set, Function.update_of_ne hwv] at ht
      rw [Function.update_of_ne hwv]
      exact h.live w t ht
  lists d hd := by
    have ⟨xs, hxs, hv⟩ := hlists d hd
    exact ⟨xs, hxs.update hv⟩

theorem lists_of_live (h : Refines g a) (hv : a v = some s) (d : Nat) (hd : d < VecGlobal.freelistLength) :
    ∃ xs, FreeList g.memory (g.freelist d) d xs ∧ v ∉ xs := by
  have ⟨b, hb, hholds⟩ := h.live v s hv
  have ⟨xs, hxs⟩ := h.lists d hd
  exact ⟨xs, hxs, hxs.not_mem_of_dim hb hholds.first⟩

-- The words of a vector in use are changed.
theorem store (h : Refines g a) (hv : a v = some s) (hb : Holds b t) :
    Refines { g with memory := g.memory.store v b } (a.set v t) :=
  h.store' (h.lists_of_live hv) hb

theorem free_of_calloc (h : Refines g a) (hv : A.calloc g.memory d = some v) : Free g a g.freelist v where
  unused := by
    cases hav : a v
    case none => rfl
    case some s =>
      have ⟨b, hb, _⟩ := h.live v s hav
      rw [A.fresh _ _ _ hv] at hb
      cases hb
  lists d hd := by
    have ⟨xs, hxs⟩ := h.lists d hd
    exact ⟨xs, hxs, hxs.not_mem_of_none (A.fresh _ _ _ hv)⟩

theorem free_of_listed (h : Refines g a) (hv : g.listed d = some v) :
    ∃ b w, g.memory v = some b ∧ b.first = .next w ∧ b.size = d ∧ Free g a (Function.update g.freelist d w) v := by
  rw [VecGlobal.listed] at hv
  split_ifs at hv with hd
  have ⟨xs, hxs⟩ := h.lists d hd
  rw [hv] at hxs
  have ⟨b, w, ys, hb, hnext, hsize, hys, hnot⟩ := hxs.pop
  refine ⟨b, w, hb, hnext, hsize, ?_, fun d' hd' => ?_⟩
  case refine_1 =>
    cases hav : a v
    case none => rfl
    case some s =>
      have ⟨b', hb', hholds⟩ := h.live v s hav
      rw [hb, Option.some.injEq] at hb'
      have hfirst := hholds.first
      rw [← hb', hnext] at hfirst
      cases hfirst
  case refine_2 =>
    by_cases hdd : d' = d
    case pos =>
      rw [hdd, Function.update_self]
      exact ⟨ys, hys, hnot⟩
    case neg =>
      have ⟨zs, hzs⟩ := h.lists d' hd'
      rw [Function.update_of_ne hdd]
      exact ⟨zs, hzs, hzs.not_mem_of_size hb (hsize ▸ Ne.symm hdd)⟩

-- The result of an operation that returns a vector with the set.
def Gives (a : Sets) (s : Option BitSet) (p : vec_t × VecGlobal) : Prop :=
  a.Returned s p.1 ∧ Refines p.2 (a.place s p.1)

theorem gives {freelist : Nat → vec_t} {count : Int} (h : Refines g a) (hv : Free g a freelist v) (hb : Holds b s) :
    Gives a (some s) (some v, { count := count, freelist := freelist, memory := g.memory.store v b }) :=
  ⟨hv.unused, h.store' hv.lists hb⟩

-- The vector is empty, whatever has been in its memory.
theorem allocate (h : Refines g a) (hn : n + 63 < 2 ^ 64) :
    Post (g.allocate A n) (Gives a (BitSet.new n)) (· = .nomem) := by
  have hdim : ((n + (VECBITS - 1)) % 2 ^ 64) >>> VECSHIFT = dims n := by
    have hmod : (n + (VECBITS - 1)) % 2 ^ 64 = n + 63 := Nat.mod_eq_of_lt hn
    rw [hmod, shift_eq, dims]
  rw [VecGlobal.allocate, hdim, BitSet.new]
  split_ifs with hzero
  case pos => exact ⟨trivial, h⟩
  case neg =>
    have hholds {words : Nat → Word} (hwords : ∀ i < dims n, words i = 0) :
        Holds { first := .dim (dims n), numbits := n, size := dims n, words := words } (.empty n) := by
      have hshaped : Shaped { first := .dim (dims n), numbits := n, size := dims n, words := words } n :=
        { pos := Nat.pos_of_ne_zero hzero, fits := hn, first := rfl, numbits := rfl, size := rfl }
      refine hshaped.holds rfl fun i hi => ?_
      have hempty : decide (i ∈ (BitSet.empty n).members) = false := by simp [BitSet.empty, BitSet.mem_of]
      have hdiv : i / 64 < dims n := Nat.div_lt_of_lt_mul (by omega)
      rw [hempty, bit]
      dsimp only
      rw [hwords _ hdiv]
      exact BitVec.getLsbD_zero
    dsimp only
    split
    case h_1 v hlisted =>
      obtain ⟨b, w, hb, hnext, hsize, hfree⟩ := h.free_of_listed hlisted
      have hget : b.next = .ok w := by rw [Block.next, hnext]
      simp only [bind, Except.bind, pure, Except.pure, block_ok hb, hget, Block.memset, hsize, le_refl, if_true]
      exact h.gives hfree (hholds fun i hi => if_pos hi)
    case h_2 =>
      split_ifs with hoverflow
      case pos => rfl
      case neg =>
        split
        case h_1 => rfl
        case h_2 v hcalloc => exact h.gives (h.free_of_calloc hcalloc) (hholds fun _ _ => rfl)

-- The copy has the same words, and so has the same set.
theorem dup (h : Refines g a) (hv : a v = some s) : Post (g.dup A (some v)) (Gives a (some s)) (· = .nomem) := by
  have ⟨b, hb, hholds⟩ := h.live v s hv
  have hcopy (words : Nat → Word) :
      Holds {
        first   := b.first
        numbits := b.numbits
        size    := dims s.numbits
        words   := fun i => if i < dims s.numbits then b.words i else words i
      } s := by
    have hshaped : Shaped { first := b.first, numbits := b.numbits, size := dims s.numbits, words := words } s.numbits :=
      { pos := hholds.pos, fits := hholds.fits, first := hholds.first, numbits := hholds.numbits, size := rfl }
    exact Holds.map₂ (f := fun x _ => x) (g := fun x _ => x) hshaped hholds hholds rfl rfl rfl (fun _ _ _ _ => rfl)
      fun _ => rfl
  simp only [VecGlobal.dup, bind, Except.bind, pure, Except.pure, block_ok hb, hholds.vec_dim]
  split
  case h_1 vc hlisted =>
    have ⟨bc, w, hbc, hnext, hsize, hfree⟩ := h.free_of_listed hlisted
    have hget : bc.next = .ok w := by rw [Block.next, hnext]
    rw [block_ok hbc]
    dsimp only
    rw [hget]
    dsimp only
    rw [memcpy_ok hsize.symm.le hholds.size.symm.le]
    exact h.gives hfree (hsize ▸ hcopy bc.words)
  case h_2 =>
    split
    case h_1 => rfl
    case h_2 vc hcalloc =>
      rw [memcpy_ok le_rfl hholds.size.symm.le]
      exact h.gives (h.free_of_calloc hcalloc) (hcopy _)

-- A vector that is freed goes to the free list for its number of words, if there is one.
theorem free (h : Refines g a) (hv : a v = some s) : ∃ g', g.free (some v) = .ok g' ∧ Refines g' (a.remove v) := by
  have ⟨b, hb, hholds⟩ := h.live v s hv
  have hlive {x : Option Block} (w : Addr) (t : BitSet) (ht : a.remove v w = some t) :
      ∃ c, Function.update g.memory v x w = some c ∧ Holds c t := by
    by_cases hwv : w = v
    case pos =>
      rw [hwv, Sets.remove, Function.update_self] at ht
      cases ht
    case neg =>
      rw [Sets.remove, Function.update_of_ne hwv] at ht
      rw [Function.update_of_ne hwv]
      exact h.live w t ht
  simp only [VecGlobal.free, bind, Except.bind, pure, Except.pure, block_ok hb, hholds.vec_dim]
  split_ifs with hlist
  case pos =>
    refine ⟨_, rfl, hlive, fun d hd => ?_⟩
    have ⟨xs, hxs, hnot⟩ := h.lists_of_live hv d hd
    dsimp only
    by_cases hdim : d = dims s.numbits
    case pos =>
      rw [← hdim, Function.update_self]
      exact ⟨v :: xs, hxs.push hnot rfl (hdim ▸ hholds.size)⟩
    case neg =>
      rw [Function.update_of_ne hdim]
      exact ⟨xs, hxs.update hnot⟩
  case neg =>
    refine ⟨_, rfl, hlive, fun d hd => ?_⟩
    have ⟨xs, hxs, hnot⟩ := h.lists_of_live hv d hd
    exact ⟨xs, hxs.update hnot⟩

theorem ne_zero (h : Refines g a) (hv : a v = some s) : s.numbits ≠ 0 := by
  have ⟨_, _, hholds⟩ := h.live v s hv
  exact Nat.ne_of_gt hholds.pos

-- The words that both vectors have are copied. The bits that are too many for the new vector are cleared.
theorem copied (hb : Holds b s) (hc : Holds c (.empty n)) :
    ∃ c' c'', c.memcpy b (if dims s.numbits < dims n then dims s.numbits else dims n) = .ok c' ∧
      c'.vec_clearextrabits = .ok c'' ∧ Holds c'' (.of n s.members) := by
  have hmin : (if dims s.numbits < dims n then dims s.numbits else dims n) = min (dims s.numbits) (dims n) := by
    split_ifs <;> omega
  have hsize : c.size = dims n := hc.size
  rw [hmin, memcpy_ok (hsize ▸ min_le_right _ _) (hb.size ▸ min_le_left _ _)]
  have hshaped : Shaped {
      c with words := fun i => if i < min (dims s.numbits) (dims n) then b.words i else c.words i
    } n := hc.words
  have hbits (i : Nat) (hi : i < n) :
      bit (fun i => if i < min (dims s.numbits) (dims n) then b.words i else c.words i) i =
        decide (i ∈ (BitSet.of n s.members).members) := by
    have hmem : decide (i ∈ (BitSet.of n s.members).members) = decide (i ∈ s.members) := by
      simp [BitSet.mem_of, hi]
    rw [bit_ite, hmem]
    split_ifs with hdiv
    case pos => exact hb.bits i (by omega)
    case neg =>
      have hempty : decide (i ∈ (BitSet.empty n).members) = false := by simp [BitSet.empty, BitSet.mem_of]
      have hdims : i / 64 < dims n := div_lt_dims hi
      have hlt : ¬ i < s.numbits := fun hlt => hdiv (lt_min (div_lt_dims hlt) hdims)
      rw [hc.bits i (lt_dims hi), hempty, decide_eq_false fun hs => hlt (s.within i hs)]
  obtain ⟨c'', hclear, hholds⟩ := hshaped.vec_clearextrabits (t := .of n s.members) rfl hbits
  exact ⟨_, c'', rfl, hclear, hholds⟩

theorem of_self : BitSet.of s.numbits s.members = s := by
  ext i
  case numbits => rfl
  case members => exact BitSet.mem_of.trans (and_iff_left_of_imp (s.within i))

theorem realloc (h : Refines g a) (hv : a v = some s) (hn : n + 63 < 2 ^ 64) :
    Post (g.vec_realloc A (some v) n) (Gives (a.remove v) (s.resize n)) (· = .nomem) := by
  have ⟨b, hb, hholds⟩ := h.live v s hv
  rw [VecGlobal.vec_realloc, BitSet.resize]
  dsimp only
  by_cases hzero : n = 0
  case pos =>
    have ⟨g', hfree, hrefines⟩ := h.free hv
    simp only [hzero, if_true, VecGlobal.vec_free, bind, Except.bind, pure, Except.pure, hfree]
    exact ⟨trivial, hrefines⟩
  case neg =>
    rw [if_neg hzero, if_neg hzero]
    simp only [numbits_ok hb hholds, bind, Except.bind, pure, Except.pure]
    by_cases hsame : n = s.numbits
    case pos =>
      rw [if_pos hsame]
      have hremoved : a.remove v v = none := by rw [Sets.remove, Function.update_self]
      refine ⟨hremoved, ?_⟩
      have hset : (a.remove v).set v (.of n s.members) = a := by
        rw [hsame, of_self, Sets.set, Sets.remove, Function.update_idem, ← hv]
        exact Function.update_eq_self v a
      rw [Sets.place, hset]
      exact h
    case neg =>
      rw [if_neg hsame]
      have hpost := h.allocate (A := A) hn
      rw [VecGlobal.vec_calloc]
      cases hal : g.allocate A n
      case error e => exact hpost.of_error hal
      case ok p =>
        obtain ⟨r, g₁⟩ := p
        have hgives := hpost.of_ok hal
        rw [BitSet.new, if_neg hzero] at hgives
        cases r
        case none => exact hgives.left.elim
        case some newv =>
          have hunused : a newv = none := hgives.left
          have hne : v ≠ newv := fun heq => by
            rw [← heq, hv] at hunused
            cases hunused
          have h₁ : Refines g₁ (a.set newv (.empty n)) := hgives.right
          have hv₁ : a.set newv (.empty n) v = some s := by rw [Sets.set, Function.update_of_ne hne, hv]
          have hnew₁ : a.set newv (.empty n) newv = some (.empty n) := Function.update_self newv _ a
          have ⟨b₁, hb₁, hholds₁⟩ := h₁.live v s hv₁
          have ⟨c, hc, hempty⟩ := h₁.live newv _ hnew₁
          have ⟨c', c'', hcopy, hclear, hcopied⟩ := copied hholds₁ hempty
          have h₂ := h₁.store hnew₁ hcopied
          have hv₂ : (a.set newv (.empty n)).set newv (.of n s.members) v = some s := by
            rw [Sets.set, Function.update_of_ne hne, hv₁]
          have ⟨g', hfree, h'⟩ := h₂.free hv₂
          have hdimc : c.vec_dim = .ok (dims n) := hempty.vec_dim
          simp only [block_ok hb₁, block_ok hc, hholds₁.vec_dim, hdimc, hcopy, hclear, VecGlobal.vec_free, hfree]
          have hsets : ((a.set newv (.empty n)).set newv (.of n s.members)).remove v =
              (a.remove v).set newv (.of n s.members) := by
            rw [Sets.set, Sets.set, Sets.remove, Function.update_idem, Function.update_comm hne.symm]
            rfl
          have hremoved : a.remove v newv = none := by rw [Sets.remove, Function.update_of_ne hne.symm, hunused]
          rw [hsets] at h'
          exact ⟨hremoved, h'⟩

theorem recycle (h : Refines g a) (hv : a v = some s) (hn : n + 63 < 2 ^ 64) :
    Post (g.vec_recycle A (some v) n) (Gives (a.remove v) (BitSet.new n)) (· = .nomem) := by
  have ⟨g', hfree, hrefines⟩ := h.free hv
  simp only [VecGlobal.vec_recycle, VecGlobal.vec_free, hfree, bind, Except.bind]
  exact hrefines.allocate hn

-- A function that changes the words of a vector, and returns nothing.
theorem change {x : Except Failure Memory} (h : Refines g a) (hv : a v = some s)
    (hx : ∃ b', x = .ok (g.memory.store v b') ∧ Holds b' t) :
    Post (g.change x) (Gives (a.set v t) none) (· = .nomem) := by
  have ⟨b', hok, hholds⟩ := hx
  rw [hok]
  exact ⟨trivial, h.store hv hholds⟩

theorem change_none (h : Refines g a) : Post (g.change (.ok g.memory)) (Gives a none) (· = .nomem) :=
  ⟨trivial, h⟩

-- The operands of an operation on words are null, or are vectors of the same size.
theorem combine_some {f : SetOp} (h : a.combine f p q r = some a') :
    (p = none ∧ q = none ∧ r = none ∧ a' = a) ∨
    ∃ v w z s t u, p = some v ∧ q = some w ∧ r = some z ∧ a v = some s ∧ a w = some t ∧ a z = some u ∧
      s.numbits = t.numbits ∧ s.numbits = u.numbits ∧ a' = a.set v (.of s.numbits (f.apply t.members u.members)) := by
  cases p <;> cases q <;> cases r <;> simp only [Sets.combine, reduceCtorEq, Option.some.injEq] at h
  case none.none.none => exact Or.inl ⟨rfl, rfl, rfl, h.symm⟩
  case some.some.some v w z =>
    simp only [Option.bind_eq_bind, Option.bind_eq_some_iff, Option.ite_none_right_eq_some, Option.some.injEq] at h
    have ⟨s, hs, t, ht, u, hu, hn, ha⟩ := h
    exact Or.inr ⟨v, w, z, s, t, u, rfl, rfl, rfl, hs, ht, hu, hn.left, hn.right, ha.symm⟩

-- The operations on the words of vectors, of which the first one is changed.
theorem words {f : SetOp} {x : Except Failure Memory} (h : Refines g a) (hcombine : a.combine f p q r = some a')
    (hnone : p = none → q = none → r = none → x = .ok g.memory)
    (hsome : ∀ v w z b c d s t u, p = some v → q = some w → r = some z →
      g.memory v = some b → g.memory w = some c → g.memory z = some d → Holds b s → Holds c t → Holds d u →
      s.numbits = t.numbits → s.numbits = u.numbits → x = g.memory.assignWords f.word v w z (dims s.numbits)) :
    Post (g.change x) (Gives a' none) (· = .nomem) := by
  rcases combine_some hcombine with ⟨hp, hq, hr, ha⟩ | ⟨v, w, z, s, t, u, hp, hq, hr, hs, ht, hu, hst, hsu, ha⟩
  case inl =>
    rw [hnone hp hq hr, ha]
    exact h.change_none
  case inr =>
    have ⟨b, hb, hholds⟩ := h.live v s hs
    have ⟨c, hc, hholds'⟩ := h.live w t ht
    have ⟨d, hd, hholds''⟩ := h.live z u hu
    rw [hsome v w z b c d s t u hp hq hr hb hc hd hholds hholds' hholds'' hst hsu, ha]
    exact h.change hs (assignWords_holds hb hc hd hholds.toShaped hholds' hholds'' hst.symm hsu.symm)

theorem exec_ass {f : SetOp} (h : Refines g a) (hcombine : a.combine f p p q = some a') :
    Post (g.exec A (.ass f p q)) (Gives a' none) (· = .nomem) := by
  cases f
  case or =>
    refine h.words hcombine (fun hp _ hq => by rw [hp, hq]; rfl) ?_
    intro v w z b c d s t u hp hp' hq hb hc hd hs ht hu hst hsu
    rw [hp, Option.some.injEq] at hp'
    rw [hp, hq, ← hp']
    exact vec_orass_eq hb hs
  all_goals
    refine h.words hcombine (fun hp _ hq => by rw [hp, hq]; rfl) ?_
    intro v w z b c d s t u hp hp' hq hb hc hd hs ht hu hst hsu
    rw [hp, Option.some.injEq] at hp'
    rw [hp, hq, ← hp']
    exact assignOp_eq hb hd hs hu hsu

theorem exec_op {f : SetOp} (h : Refines g a) (hcombine : a.combine f p q r = some a') :
    Post (g.exec A (.op f p q r)) (Gives a' none) (· = .nomem) := by
  cases f
  all_goals
    refine h.words hcombine (fun hp hq hr => by rw [hp, hq, hr]; rfl) ?_
    intro v w z b c d s t u hp hq hr hb hc hd hs ht hu hst hsu
    rw [hp, hq, hr]
    exact assign_eq hb hc hd hs ht hu hst hsu

-- Each operation does to the vectors what it does to the sets.
theorem exec {op : Op} {s : Option BitSet} (h : Refines g a) (hfits : op.Fits) (heffect : op.effect a = some (a', s)) :
    Post (g.exec A op) (Gives a' s) (· = .nomem) := by
  cases op
  case calloc n =>
    simp only [Op.effect, Option.some.injEq, Prod.mk.injEq] at heffect
    rw [← heffect.left, ← heffect.right]
    exact h.allocate (hfits n rfl)
  case clone v =>
    cases v
    case none =>
      simp only [Op.effect, Option.some.injEq, Prod.mk.injEq] at heffect
      rw [← heffect.left, ← heffect.right]
      exact ⟨trivial, h⟩
    case some v =>
      simp only [Op.effect, Option.bind_eq_bind, Option.bind_eq_some_iff, Option.pure_def, Option.some.injEq,
        Prod.mk.injEq] at heffect
      have ⟨t, hv, ha, hs⟩ := heffect
      rw [← ha, ← hs]
      exact h.dup hv
  case realloc v n =>
    cases v
    case none =>
      simp only [Op.effect, Option.some.injEq, Prod.mk.injEq] at heffect
      rw [← heffect.left, ← heffect.right]
      exact h.allocate (hfits n rfl)
    case some v =>
      simp only [Op.effect, Option.bind_eq_bind, Option.bind_eq_some_iff, Option.pure_def, Option.some.injEq,
        Prod.mk.injEq] at heffect
      have ⟨t, hv, ha, hs⟩ := heffect
      rw [← ha, ← hs]
      exact h.realloc hv (hfits n rfl)
  case recycle v n =>
    cases v
    case none =>
      simp only [Op.effect, Option.some.injEq, Prod.mk.injEq] at heffect
      rw [← heffect.left, ← heffect.right]
      exact h.allocate (hfits n rfl)
    case some v =>
      simp only [Op.effect, Option.bind_eq_bind, Option.bind_eq_some_iff, Option.pure_def, Option.some.injEq,
        Prod.mk.injEq] at heffect
      have ⟨t, hv, ha, hs⟩ := heffect
      rw [← ha, ← hs]
      exact h.recycle hv (hfits n rfl)
  case free v =>
    cases v
    case none =>
      simp only [Op.effect, Option.some.injEq, Prod.mk.injEq] at heffect
      rw [← heffect.left, ← heffect.right]
      exact ⟨trivial, h⟩
    case some v =>
      simp only [Op.effect, Option.bind_eq_bind, Option.bind_eq_some_iff, Option.pure_def, Option.some.injEq,
        Prod.mk.injEq] at heffect
      have ⟨t, hv, ha, hs⟩ := heffect
      have ⟨g', hfree, hrefines⟩ := h.free hv
      rw [← ha, ← hs]
      simp only [VecGlobal.exec, VecGlobal.vec_free, bind, Except.bind, pure, Except.pure, hfree]
      exact ⟨trivial, hrefines⟩
  case setbit b v =>
    cases v
    case none => cases heffect
    case some v =>
      simp only [Op.effect, Option.bind_eq_bind, Option.bind_eq_some_iff, Option.ite_none_right_eq_some,
        Option.some.injEq, Prod.mk.injEq] at heffect
      have ⟨t, hv, hb, ha, hs⟩ := heffect
      have ⟨vec, hvec, hholds⟩ := h.live v t hv
      rw [← ha, ← hs]
      exact h.change hv (vec_setbit_ok hvec hholds hb)
  case clearbit b v =>
    cases v
    case none => cases heffect
    case some v =>
      simp only [Op.effect, Option.bind_eq_bind, Option.bind_eq_some_iff, Option.ite_none_right_eq_some,
        Option.some.injEq, Prod.mk.injEq] at heffect
      have ⟨t, hv, hb, ha, hs⟩ := heffect
      have ⟨vec, hvec, hholds⟩ := h.live v t hv
      rw [← ha, ← hs]
      exact h.change hv (vec_clearbit_ok hvec hholds hb)
  case set v =>
    cases v
    case none =>
      simp only [Op.effect, Option.some.injEq, Prod.mk.injEq] at heffect
      rw [← heffect.left, ← heffect.right]
      exact h.change_none
    case some v =>
      simp only [Op.effect, Option.bind_eq_bind, Option.bind_eq_some_iff, Option.pure_def, Option.some.injEq,
        Prod.mk.injEq] at heffect
      have ⟨t, hv, ha, hs⟩ := heffect
      have ⟨vec, hvec, hholds⟩ := h.live v t hv
      rw [← ha, ← hs]
      exact h.change hv (vec_set_ok hvec hholds)
  case clear v =>
    cases v
    case none =>
      simp only [Op.effect, Option.some.injEq, Prod.mk.injEq] at heffect
      rw [← heffect.left, ← heffect.right]
      exact h.change_none
    case some v =>
      simp only [Op.effect, Option.bind_eq_bind, Option.bind_eq_some_iff, Option.pure_def, Option.some.injEq,
        Prod.mk.injEq] at heffect
      have ⟨t, hv, ha, hs⟩ := heffect
      have ⟨vec, hvec, hholds⟩ := h.live v t hv
      rw [← ha, ← hs]
      exact h.change hv (vec_clear_ok hvec hholds)
  case copy v w =>
    cases v <;> cases w <;> simp only [Op.effect, reduceCtorEq] at heffect
    case none.none =>
      simp only [Option.some.injEq, Prod.mk.injEq] at heffect
      rw [← heffect.left, ← heffect.right]
      exact h.change_none
    case some.some v w =>
      simp only [Option.bind_eq_bind, Option.bind_eq_some_iff, Option.ite_none_right_eq_some, Option.some.injEq,
        Prod.mk.injEq] at heffect
      have ⟨t, hv, u, hw, hn, ha, hs⟩ := heffect
      have ⟨vec, hvec, hholds⟩ := h.live v t hv
      have ⟨wec, hwec, hholds'⟩ := h.live w u hw
      rw [← ha, ← hs]
      exact h.change hv (vec_copy_ok hvec hwec hholds hholds' hn)
  case ass f p q =>
    simp only [Op.effect, Option.map_eq_some_iff, Prod.mk.injEq] at heffect
    have ⟨_, hcombine, ha, hs⟩ := heffect
    rw [← ha, ← hs]
    exact h.exec_ass hcombine
  case op f p q r =>
    simp only [Op.effect, Option.map_eq_some_iff, Prod.mk.injEq] at heffect
    have ⟨_, hcombine, ha, hs⟩ := heffect
    rw [← ha, ← hs]
    exact h.exec_op hcombine

-- What is found in the vectors of such a state.
theorem agrees (h : Refines g a) : Agrees A Op.Fits g a where
  exec op a' s hfits heffect := by
    have hpost := h.exec (A := A) hfits heffect
    cases hexec : g.exec A op
    case error e => exact Or.inl (congrArg Except.error (hpost.of_error hexec))
    case ok p    => exact Or.inr ⟨p.1, p.2, rfl, (hpost.of_ok hexec).left⟩
  numbits v s hv := by
    have ⟨b, hb, hholds⟩ := h.live v s hv
    exact numbits_ok hb hholds
  testbit v s i hv hi := by
    have ⟨b, hb, hholds⟩ := h.live v s hv
    exact vec_testbit_ok hb hholds hi
  unused v s hv := by
    have ⟨b, hb, hholds⟩ := h.live v s hv
    refine ⟨b, hb, fun i hi hn => ?_⟩
    rw [hholds.bits i (hholds.size ▸ hi)]
    exact decide_eq_false fun hmem => Nat.not_lt_of_le hn (s.within i hmem)
  equal v w s t hv hw hn := by
    have ⟨b, hb, hholds⟩ := h.live v s hv
    have ⟨c, hc, hholds'⟩ := h.live w t hw
    exact vec_equal_ok hb hc hholds hholds' hn
  disjoint v w s t hv hw hn := by
    have ⟨b, hb, hholds⟩ := h.live v s hv
    have ⟨c, hc, hholds'⟩ := h.live w t hw
    exact vec_disjoint_ok hb hc hholds hholds' hn
  index v s i hv := by
    have ⟨b, hb, hholds⟩ := h.live v s hv
    exact vec_index_ok hb hholds
  numBitsSet v s hv := by
    have ⟨b, hb, hholds⟩ := h.live v s hv
    exact vec_numBitsSet_ok hb hholds
  range v s hv := by
    have ⟨b, hb, hholds⟩ := h.live v s hv
    exact range_ok hb hholds

end Refines

theorem Run.refines (h : Run A Op.Fits g a) : Refines g a := by
  induction h
  case initial => exact .initial
  case step hfits heffect hexec ih => exact ((ih.exec hfits heffect).of_ok hexec).right

-- If no operation is for a size that overflows when it is rounded up, then the vectors are sets after any operations.
theorem vectors_agree (h : Run A Op.Fits g a) : Agrees A Op.Fits g a :=
  h.refines.agrees

-- Memory for one vector.
def oneBlock : Allocator where
  calloc m _    := if (m 0).isNone then some 0 else none
  fresh m _ v h := by
    split_ifs at h with hnone
    rw [Option.some.injEq] at h
    rw [← h]
    exact Option.isNone_iff_eq_none.mp hnone

-- The state after the allocation of a vector of `d` words.
def oneVector (n d : Nat) : VecGlobal where
  count      := 1
  freelist _ := none
  memory     := Memory.store (fun _ => none) 0 { first := .dim d, numbits := n, size := d, words := fun _ => 0 }

theorem run_oneVector {ok : Op → Prop} (hok : ok (.calloc n)) (hn : n ≠ 0) (hd : ((n + 63) % 2 ^ 64) / 64 = d)
    (hlt : d < 1000) : Run oneBlock ok (oneVector n d) (Sets.set (fun _ => none) 0 (.empty n)) := by
  have hdim : ((n + (VECBITS - 1)) % 2 ^ 64) >>> VECSHIFT = d := by rwa [shift_eq]
  have hlisted : VecGlobal.initial.listed d = none := by
    rw [VecGlobal.listed]
    split_ifs <;> rfl
  have hexec : VecGlobal.initial.exec oneBlock (.calloc n) = .ok (some 0, oneVector n d) := by
    rw [VecGlobal.exec, VecGlobal.vec_calloc, VecGlobal.allocate, if_neg hn, hdim]
    dsimp only
    rw [hlisted]
    dsimp only
    rw [if_neg (by omega)]
    rfl
  have hnew : BitSet.new n = some (.empty n) := if_neg hn
  have hrun := Run.step .initial hok rfl hexec
  rwa [hnew] at hrun

theorem vector_agrees : Agrees oneBlock Op.Fits (oneVector 65 2) (Sets.set (fun _ => none) 0 (.empty 65)) := by
  have hok : Op.Fits (.calloc 65) := by
    intro n hn
    rw [Op.size, Option.mem_def, Option.some.injEq] at hn
    omega
  exact vectors_agree (run_oneVector hok (by decide) (by norm_num) (by decide))

-- The size 2 ^ 64 - 1 is rounded up to 0 words, so that the vector has no word for its first bit.
theorem largest_disagrees : ¬ ∀ A g a, Run A Op.Valid g a → Agrees A Op.Valid g a := by
  intro h
  obtain ⟨n, hn⟩ : ∃ n, n = 2 ^ 64 - 1 := ⟨_, rfl⟩
  have hok : Op.Valid (.calloc n) := by
    intro k hk
    rw [Op.size, Option.mem_def, Option.some.injEq] at hk
    omega
  have hrun := run_oneVector (d := 0) hok (by omega) (by omega) (by decide)
  have hset : Op.Valid (.setbit 0 (some 0)) := by
    intro k hk
    cases hk
  have heffect : (Op.setbit 0 (some 0)).effect (Sets.set (fun _ => none) 0 (.empty n)) =
      some (Sets.set (Sets.set (fun _ => none) 0 (.empty n)) 0 ((BitSet.empty n).insert 0), none) := by
    have hlt : 0 < (BitSet.empty n).numbits := by
      show 0 < n
      omega
    rw [Op.effect, Sets.set, Function.update_self]
    exact if_pos hlt
  have hfault : (oneVector n 0).exec oneBlock (.setbit 0 (some 0)) = .error .fault := by
    have hpos : 0 < n := by omega
    simp [VecGlobal.exec, VecGlobal.change, Memory.vec_setbit, oneVector, Memory.block, Memory.store, assert, hpos,
      Block.get, bind, Except.bind]
  rcases (h _ _ _ hrun).exec _ _ _ hset heffect with hnomem | ⟨r, g', hok', _⟩
  case inl =>
    rw [hfault] at hnomem
    cases hnomem
  case inr =>
    rw [hfault] at hok'
    cases hok'

end Compiler.Backend.Dvec
