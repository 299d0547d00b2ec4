import DmdModel.Compiler.Backend.Dvec
import DmdModel.Lib.ExceptPost

-- The memory of a single vector holds a set.

namespace Compiler.Backend.Dvec

open WordBits

variable {b b' src : Block} {s t : BitSet} {i j k n dim : Nat} {x : Word} {m : Memory} {v : Addr}

-- The number of words for some bits.
def dims (numbits : Nat) : Nat :=
  (numbits + 63) / 64

-- The memory of a vector in use for some bits.
structure Shaped (b : Block) (n : Nat) : Prop where
  pos     : 0 < n
  fits    : n + 63 < 2 ^ 64
  first   : b.first = .dim (dims n)
  numbits : b.numbits = n
  size    : b.size = dims n

-- The bits that are not used are 0.
structure Holds (b : Block) (s : BitSet) : Prop extends Shaped b s.numbits where
  bits : ∀ i < dims s.numbits * 64, bit b.words i = decide (i ∈ s.members)

theorem lt_dims (h : i < n) : i < dims n * 64 := by
  rw [dims]
  omega

theorem dims_pos (h : 0 < n) : 0 < dims n := by
  rw [dims]
  omega

theorem div_lt_dims (h : i < n) : i / 64 < dims n := by
  rw [dims]
  omega

theorem shift_eq : i >>> VECSHIFT = i / 64 := by
  rw [Nat.shiftRight_eq_div_pow, VECSHIFT]

theorem mask_eq : i &&& VECMASK = i % 64 :=
  Nat.and_two_pow_sub_one_eq_mod i 6

theorem Block.get_ok (h : i < b.size) : b.get i = .ok (b.words i) :=
  if_pos h

theorem Block.put_ok (h : i < b.size) : b.put i x = .ok { b with words := Function.update b.words i x } :=
  if_pos h

theorem BitSet.mem_of {f : Finset Nat} : i ∈ (BitSet.of n f).members ↔ i ∈ f ∧ i < n :=
  Finset.mem_filter

namespace Shaped

theorem vec_dim (h : Shaped b n) : b.vec_dim = .ok (dims n) := by
  rw [Block.vec_dim, h.first]

-- A vector whose words are changed.
theorem words {words : Nat → Word} (h : Shaped b n) : Shaped { b with words := words } n where
  pos     := h.pos
  fits    := h.fits
  first   := h.first
  numbits := h.numbits
  size    := h.size

theorem holds (h : Shaped b n) (hn : t.numbits = n) (hbits : ∀ i < dims n * 64, bit b.words i = decide (i ∈ t.members)) :
    Holds b t where
  toShaped := hn ▸ h
  bits     := hn ▸ hbits

-- The last word has the bits from `dims * 64 - 64` on, of which those from `numbits` on are cleared.
theorem vec_clearextrabits (h : Shaped b n) (hn : t.numbits = n) (hbits : ∀ i < n, bit b.words i = decide (i ∈ t.members)) :
    ∃ b', b.vec_clearextrabits = .ok b' ∧ Holds b' t := by
  have hpos := dims_pos h.pos
  have hnot (i : Nat) (hi : n ≤ i) : decide (i ∈ t.members) = false :=
    decide_eq_false fun hmem => Nat.not_lt_of_le hi (hn ▸ t.within i hmem)
  rw [Block.vec_clearextrabits, h.vec_dim, h.numbits, mask_eq]
  simp only [bind, Except.bind]
  by_cases hmod : n % 64 = 0
  case pos =>
    rw [if_neg (not_not.mpr hmod)]
    refine ⟨_, rfl, h.holds hn fun i hi => hbits i ?_⟩
    rw [dims] at hi
    omega
  case neg =>
    have hlast : dims n - 1 = n / 64 := by
      rw [dims]
      omega
    have hsize : n / 64 < b.size := by
      rw [h.size]
      omega
    rw [if_pos hmod, if_neg (by omega), hlast, Block.get_ok hsize]
    dsimp only
    rw [Block.put_ok hsize]
    refine ⟨_, rfl, h.words.holds hn fun i hi => ?_⟩
    rw [bit_update]
    split_ifs with hdiv
    case pos =>
      rw [BitVec.getLsbD_and, getLsbD_one_shl_sub_one (Nat.mod_lt _ (by decide)), ← hdiv, ← bit]
      by_cases hlt : i < n
      case pos =>
        have hmodlt : decide (i % 64 < n % 64) = true := decide_eq_true (by omega)
        rw [hbits i hlt, hmodlt, Bool.and_true]
      case neg =>
        have hmodlt : decide (i % 64 < n % 64) = false := decide_eq_false (by omega)
        rw [hmodlt, Bool.and_false, hnot i (by omega)]
    case neg =>
      refine hbits i ?_
      rw [dims] at hi
      omega
end Shaped

namespace Holds

-- The bit `b` of the word that holds it is changed.
theorem of_update (val : Bool) (h : Holds b s) (hi : i < s.numbits) (hn : t.numbits = s.numbits)
    (hx : ∀ j < 64, x.getLsbD j = if j = i % 64 then val else (b.words (i / 64)).getLsbD j)
    (hmem : ∀ j < s.numbits, decide (j ∈ t.members) = if j = i then val else decide (j ∈ s.members)) :
    Holds { b with words := Function.update b.words (i / 64) x } t := by
  refine h.words.holds hn fun j hj => ?_
  have hjs : decide (j ∈ t.members) = if j = i then val else decide (j ∈ s.members) := by
    by_cases hlt : j < s.numbits
    case pos => exact hmem j hlt
    case neg =>
      rw [if_neg (by omega), decide_eq_decide]
      exact iff_of_false (fun hjt => hlt (hn ▸ t.within j hjt)) fun hjs => hlt (s.within j hjs)
  rw [bit_update, hjs, hx _ (Nat.mod_lt j (by decide)), ← h.bits j hj]
  by_cases hji : j = i
  case pos => rw [hji, if_pos rfl, if_pos rfl, if_pos rfl]
  case neg =>
    rw [if_neg hji]
    split_ifs with hdiv hmod
    case pos => omega
    case neg => rw [← hdiv, bit]
    case neg => rfl

theorem get_bit (h : Holds b s) (hi : i < s.numbits) : (b.words (i / 64)).getLsbD (i % 64) = decide (i ∈ s.members) :=
  h.bits i (lt_dims hi)

theorem memset_zero (h : Holds b s) :
    ∃ b', b.memset 0 (dims s.numbits) = .ok b' ∧ Holds b' (.empty s.numbits) := by
  rw [Block.memset, if_pos (le_of_eq h.size.symm)]
  refine ⟨_, rfl, h.words.holds rfl fun i hi => ?_⟩
  have hdiv : i / 64 < dims s.numbits := Nat.div_lt_of_lt_mul (by omega)
  have hempty : decide (i ∈ (BitSet.empty s.numbits).members) = false := by simp [BitSet.empty, BitSet.mem_of]
  rw [hempty, bit]
  dsimp only
  rw [if_pos hdiv]
  exact BitVec.getLsbD_zero

theorem vec_set (h : Holds b s) :
    ∃ b' b'', b.memset (~~~0) (dims s.numbits) = .ok b' ∧ b'.vec_clearextrabits = .ok b'' ∧
      Holds b'' (.full s.numbits) := by
  rw [Block.memset, if_pos (le_of_eq h.size.symm)]
  have hbits (i : Nat) (hi : i < s.numbits) :
      bit (fun i => if i < dims s.numbits then ~~~0 else b.words i) i = decide (i ∈ (BitSet.full s.numbits).members) := by
    have hfull : decide (i ∈ (BitSet.full s.numbits).members) = true := by simp [BitSet.full, BitSet.mem_of, hi]
    rw [bit, if_pos (div_lt_dims hi), hfull]
    exact BitVec.getLsbD_allOnes.trans (decide_eq_true (Nat.mod_lt i (by decide)))
  have hset : Shaped { b with words := fun i => if i < dims s.numbits then ~~~0 else b.words i } s.numbits := h.words
  obtain ⟨b'', hclear, hholds⟩ := hset.vec_clearextrabits (t := .full s.numbits) rfl hbits
  exact ⟨_, b'', rfl, hclear, hholds⟩

-- Every bit of the words up to `dims` is computed from the same bits of other vectors.
theorem map₂ {f : Word → Word → Word} {g : Bool → Bool → Bool} {b₁ b₂ : Block} {s₁ s₂ : BitSet} (h : Shaped b n)
    (h₁ : Holds b₁ s₁) (h₂ : Holds b₂ s₂) (hn₁ : s₁.numbits = n) (hn₂ : s₂.numbits = n) (hn : t.numbits = n)
    (hf : ∀ x y i, i < 64 → (f x y).getLsbD i = g (x.getLsbD i) (y.getLsbD i))
    (hg : ∀ i, decide (i ∈ t.members) = g (decide (i ∈ s₁.members)) (decide (i ∈ s₂.members))) :
    Holds { b with words := fun i => if i < dims n then f (b₁.words i) (b₂.words i) else b.words i } t := by
  refine h.words.holds hn fun i hi => ?_
  have hdiv : i / 64 < dims n := Nat.div_lt_of_lt_mul (by omega)
  rw [bit]
  dsimp only
  rw [if_pos hdiv, hf _ _ _ (Nat.mod_lt i (by decide)), hg, ← h₁.bits i (hn₁ ▸ hi), ← h₂.bits i (hn₂ ▸ hi)]
  rfl

end Holds

theorem memcpy_ok (hb : dim ≤ b.size) (hsrc : dim ≤ src.size) :
    b.memcpy src dim = .ok { b with words := fun i => if i < dim then src.words i else b.words i } :=
  if_pos ⟨hb, hsrc⟩

theorem allWords_ok {p : Word → Word → Bool} {is : List Nat} (h : ∀ i ∈ is, i < b.size) (h' : ∀ i ∈ is, i < b'.size) :
    Memory.allWords p b b' is = .ok (is.all fun i => p (b.words i) (b'.words i)) := by
  induction is
  case nil => rfl
  case cons i is ih =>
    rw [Memory.allWords, Block.get_ok (h i List.mem_cons_self), Block.get_ok (h' i List.mem_cons_self),
      List.all_cons]
    have ih := ih (fun j hj => h j (List.mem_cons_of_mem i hj)) fun j hj => h' j (List.mem_cons_of_mem i hj)
    cases hp : p (b.words i) (b'.words i)
    case true  => simpa [bind, Except.bind, hp] using ih
    case false => simp [bind, Except.bind, hp]

theorem block_ok (hv : m v = some b) : m.block v = .ok b := by
  rw [Memory.block, hv]

theorem assert_ok {p : Prop} [Decidable p] (h : p) : assert p = .ok () :=
  if_pos h

theorem vec_testbit_ok (hv : m v = some b) (h : Holds b s) (hi : i < s.numbits) :
    m.vec_testbit i (some v) = .ok (decide (i ∈ s.members)) := by
  have hlt : i < b.numbits := h.numbits ▸ hi
  have hsize : i / 64 < b.size := h.size ▸ div_lt_dims hi
  rw [Memory.vec_testbit, block_ok hv]
  simp only [bind, Except.bind, pure, Except.pure, assert_ok hlt, shift_eq, mask_eq, Block.get_ok hsize, h.get_bit hi]

-- The words up to `dims` are the same if the sets are.
theorem words_eq_iff {c : Block} (h : Holds b s) (h' : Holds c t) (hn : s.numbits = t.numbits) :
    (∀ i < dims s.numbits, b.words i = c.words i) ↔ s.members = t.members := by
  constructor
  case mp =>
    intro hw
    ext i
    by_cases hi : i < s.numbits
    case pos =>
      rw [← decide_eq_decide, ← h.get_bit hi, ← h'.get_bit (hn ▸ hi), hw _ (div_lt_dims hi)]
    case neg =>
      exact iff_of_false (fun hs => hi (s.within i hs)) fun ht => hi (hn ▸ t.within i ht)
  case mpr =>
    intro hmem i hi
    refine ext_lt (n := dims s.numbits) (fun j hj => ?_) hi
    rw [h.bits j hj, h'.bits j (hn ▸ hj), hmem]

theorem words_disjoint_iff {c : Block} (h : Holds b s) (h' : Holds c t) (hn : s.numbits = t.numbits) :
    (∀ i < dims s.numbits, b.words i &&& c.words i = 0) ↔ Disjoint s.members t.members := by
  rw [Finset.disjoint_left]
  constructor
  case mp =>
    intro hw i hs ht
    have hi := s.within i hs
    have hbit : (b.words (i / 64) &&& c.words (i / 64)).getLsbD (i % 64) = true := by
      rw [BitVec.getLsbD_and, h.get_bit hi, h'.get_bit (hn ▸ hi), decide_eq_true hs, decide_eq_true ht, Bool.true_and]
    rw [hw _ (div_lt_dims hi)] at hbit
    exact absurd hbit (by simp)
  case mpr =>
    intro hd i hi
    refine BitVec.eq_of_getLsbD_eq fun j hj => ?_
    have hbits : i * 64 + j < dims s.numbits * 64 := by omega
    rw [BitVec.getLsbD_and, ← bit_mul_add hj, ← bit_mul_add hj, h.bits _ hbits, h'.bits _ (hn ▸ hbits)]
    by_cases hs : i * 64 + j ∈ s.members
    case pos => simp [hd hs]
    case neg => simp [hs]

theorem allWords_range {p : Word → Word → Bool} {c : Block} (h : Holds b s) (h' : Holds c t) (hn : s.numbits = t.numbits) :
    Memory.allWords p b c (List.range (dims s.numbits)) =
      .ok (decide (∀ i < dims s.numbits, p (b.words i) (c.words i) = true)) := by
  rw [allWords_ok]
  case h  => exact fun i hi => h.size ▸ List.mem_range.mp hi
  case h' => exact fun i hi => h'.size ▸ hn ▸ List.mem_range.mp hi
  rw [Except.ok.injEq, Bool.eq_iff_iff, List.all_eq_true, decide_eq_true_iff]
  simp only [List.mem_range]

theorem vec_equal_ok {w : Addr} {c : Block} (hv : m v = some b) (hw : m w = some c) (h : Holds b s) (h' : Holds c t)
    (hn : s.numbits = t.numbits) : m.vec_equal (some v) (some w) = .ok (decide (s.members = t.members)) := by
  have hnum : b.numbits = c.numbits := by rw [h.numbits, h'.numbits, hn]
  rw [Memory.vec_equal]
  split_ifs with heq
  case pos =>
    rw [Option.some.injEq] at heq
    rw [heq, hw, Option.some.injEq] at hv
    subst hv
    rw [decide_eq_true ((words_eq_iff h h' hn).mp fun _ _ => rfl)]
  case neg =>
    simp only [bind, Except.bind, block_ok hv, block_ok hw, assert_ok hnum, h.vec_dim, allWords_range h h' hn,
      beq_iff_eq, words_eq_iff h h' hn]

theorem vec_disjoint_ok {w : Addr} {c : Block} (hv : m v = some b) (hw : m w = some c) (h : Holds b s) (h' : Holds c t)
    (hn : s.numbits = t.numbits) :
    m.vec_disjoint (some v) (some w) = .ok (decide (Disjoint s.members t.members)) := by
  have hnum : b.numbits = c.numbits := by rw [h.numbits, h'.numbits, hn]
  rw [Memory.vec_disjoint]
  simp only [bind, Except.bind, block_ok hv, block_ok hw, assert_ok hnum, h.vec_dim, allWords_range h h' hn,
    beq_iff_eq, words_disjoint_iff h h' hn]

end Compiler.Backend.Dvec

-- The operations on vectors do to the sets what their names say.

namespace Compiler.Backend.Dvec

open WordBits

variable {b c d : Block} {s t u : BitSet} {i n : Nat} {m : Memory} {v w z : Addr} {f : Word → Word → Word}

theorem vec_setbit_ok (hv : m v = some b) (h : Holds b s) (hi : i < s.numbits) :
    ∃ b', m.vec_setbit i (some v) = .ok (m.store v b') ∧ Holds b' (s.insert i) := by
  have hlt : i < b.numbits := h.numbits ▸ hi
  have hsize : i / 64 < b.size := h.size ▸ div_lt_dims hi
  rw [Memory.vec_setbit, block_ok hv]
  simp only [bind, Except.bind, pure, Except.pure, assert_ok hlt, shift_eq, mask_eq, Block.get_ok hsize,
    Block.put_ok hsize]
  refine ⟨_, rfl, Holds.of_update true h hi rfl (fun j _ => ?_) fun j hj => ?_⟩
  case refine_1 =>
    rw [BitVec.getLsbD_or, getLsbD_one_shl (Nat.mod_lt i (by decide))]
    split_ifs with hji
    case pos => rw [decide_eq_true hji, Bool.or_true]
    case neg => rw [decide_eq_false hji, Bool.or_false]
  case refine_2 =>
    simp only [BitSet.insert, BitSet.mem_of, Finset.mem_insert, hj, and_true]
    split_ifs with hji
    case pos => simp [hji]
    case neg => simp [hji]

theorem vec_clearbit_ok (hv : m v = some b) (h : Holds b s) (hi : i < s.numbits) :
    ∃ b', m.vec_clearbit i (some v) = .ok (m.store v b') ∧ Holds b' (s.erase i) := by
  have hlt : i < b.numbits := h.numbits ▸ hi
  have hsize : i / 64 < b.size := h.size ▸ div_lt_dims hi
  rw [Memory.vec_clearbit, block_ok hv]
  simp only [bind, Except.bind, pure, Except.pure, assert_ok hlt, shift_eq, mask_eq, Block.get_ok hsize,
    Block.put_ok hsize]
  refine ⟨_, rfl, Holds.of_update false h hi rfl (fun j hj => ?_) fun j hj => ?_⟩
  case refine_1 =>
    rw [BitVec.getLsbD_and, BitVec.getLsbD_not, getLsbD_one_shl (Nat.mod_lt i (by decide)), decide_eq_true hj,
      Bool.true_and]
    split_ifs with hji
    case pos => rw [decide_eq_true hji, Bool.not_true, Bool.and_false]
    case neg => rw [decide_eq_false hji, Bool.not_false, Bool.and_true]
  case refine_2 =>
    simp only [BitSet.erase, BitSet.mem_of, Finset.mem_erase, hj, and_true]
    split_ifs with hji
    case pos => simp [hji]
    case neg => simp [hji]

theorem vec_set_ok (hv : m v = some b) (h : Holds b s) :
    ∃ b', m.vec_set (some v) = .ok (m.store v b') ∧ Holds b' (.full s.numbits) := by
  have ⟨b', b'', hset, hclear, hholds⟩ := h.vec_set
  refine ⟨b'', ?_, hholds⟩
  rw [Memory.vec_set, block_ok hv]
  simp only [bind, Except.bind, pure, Except.pure, h.vec_dim, hset, hclear]

theorem vec_clear_ok (hv : m v = some b) (h : Holds b s) :
    ∃ b', m.vec_clear (some v) = .ok (m.store v b') ∧ Holds b' (.empty s.numbits) := by
  have ⟨b', hset, hholds⟩ := h.memset_zero
  refine ⟨b', ?_, hholds⟩
  rw [Memory.vec_clear, block_ok hv]
  simp only [bind, Except.bind, pure, Except.pure, h.vec_dim, hset]

theorem store_self (hv : m v = some b) : m.store v b = m := by
  rw [Memory.store, ← hv]
  exact Function.update_eq_self v m

theorem vec_copy_ok (hv : m v = some b) (hw : m w = some c) (h : Holds b s) (h' : Holds c t)
    (hn : s.numbits = t.numbits) : ∃ b', m.vec_copy (some v) (some w) = .ok (m.store v b') ∧ Holds b' t := by
  have hnum : b.numbits = c.numbits := by rw [h.numbits, h'.numbits, hn]
  rw [Memory.vec_copy]
  split_ifs with heq
  case pos =>
    rw [Option.some.injEq] at heq
    subst heq
    exact ⟨c, by rw [store_self hw], h'⟩
  case neg =>
    have hb : dims s.numbits ≤ b.size := h.size.symm.le
    have hc : dims s.numbits ≤ c.size := hn ▸ h'.size.symm.le
    simp only [bind, Except.bind, pure, Except.pure, block_ok hv, block_ok hw, assert_ok hnum, h.vec_dim,
      memcpy_ok hb hc]
    exact ⟨_, rfl, Holds.map₂ (f := fun x _ => x) (g := fun x _ => x) h.toShaped h' h' hn.symm hn.symm hn.symm
      (fun _ _ _ _ => rfl) fun _ => rfl⟩

-- A word that has not been written yet is read from any of the vectors as it was.
theorem get_of_unchanged (words : Nat → Word) (hv : m v = some b) (hw : m w = some c) (hn : n < c.size)
    (hword : words n = b.words n) :
    ∃ c', (m.store v { b with words := words }).block w = .ok c' ∧ c'.get n = .ok (c.words n) := by
  by_cases hwv : w = v
  case pos =>
    rw [hwv, hv, Option.some.injEq] at hw
    subst hw
    refine ⟨{ b with words := words }, block_ok (by rw [hwv, Memory.store, Function.update_self]), ?_⟩
    rw [← hword]
    exact Block.get_ok hn
  case neg =>
    refine ⟨c, block_ok ?_, Block.get_ok hn⟩
    rw [Memory.store, Function.update_of_ne hwv, hw]

theorem store_store {b b' : Block} : (m.store v b).store v b' = m.store v b' := by
  rw [Memory.store, Memory.store, Function.update_idem]
  rfl

-- The loop writes a word only after it has been read.
theorem assignWords_ok (hv : m v = some b) (hw : m w = some c) (hz : m z = some d) (hb : n ≤ b.size) (hc : n ≤ c.size)
    (hd : n ≤ d.size) :
    m.assignWords f v w z n =
      .ok (m.store v { b with words := fun i => if i < n then f (c.words i) (d.words i) else b.words i }) := by
  rw [Memory.assignWords]
  induction n
  case zero =>
    simp only [Nat.not_lt_zero, if_false, store_self hv]
    rfl
  case succ n ih =>
    have hword : (if n < n then f (c.words n) (d.words n) else b.words n) = b.words n := if_neg (Nat.lt_irrefl n)
    have ⟨c', hc', hcget⟩ := get_of_unchanged (fun i => if i < n then f (c.words i) (d.words i) else b.words i)
      hv hw hc hword
    have ⟨d', hd', hdget⟩ := get_of_unchanged (fun i => if i < n then f (c.words i) (d.words i) else b.words i)
      hv hz hd hword
    rw [List.range_succ, List.foldlM_append, ih (by omega) (by omega) (by omega)]
    simp only [bind, Except.bind, pure, Except.pure, List.foldlM_cons, List.foldlM_nil, hc', hd', hcget, hdget]
    rw [block_ok (by rw [Memory.store, Function.update_self])]
    dsimp only
    rw [Block.put_ok (by exact hb)]
    dsimp only
    rw [store_store]
    congr 3
    funext i
    rw [Function.update_apply]
    split_ifs with hin hlt hlt
    case pos => rw [hin]
    all_goals first | rfl | omega

def SetOp.word : SetOp → Word → Word → Word
  | .and, x, y => x &&& y
  | .or, x, y  => x ||| y
  | .xor, x, y => x ^^^ y
  | .sub, x, y => x &&& ~~~y

def SetOp.bit : SetOp → Bool → Bool → Bool
  | .and, p, q => p && q
  | .or, p, q  => p || q
  | .xor, p, q => p ^^ q
  | .sub, p, q => p && !q

variable {op : SetOp}

theorem SetOp.getLsbD_word {x y : Word} (hi : i < 64) :
    (op.word x y).getLsbD i = op.bit (x.getLsbD i) (y.getLsbD i) := by
  cases op
  case and => exact BitVec.getLsbD_and
  case or  => exact BitVec.getLsbD_or
  case xor => exact BitVec.getLsbD_xor
  case sub => rw [word, bit, BitVec.getLsbD_and, BitVec.getLsbD_not, decide_eq_true hi, Bool.true_and]

theorem SetOp.mem_apply {p q : Finset Nat} : decide (i ∈ op.apply p q) = op.bit (decide (i ∈ p)) (decide (i ∈ q)) := by
  cases op
  case and => simp [apply, bit]
  case or  => simp [apply, bit]
  case xor =>
    rw [apply, bit, Bool.eq_iff_iff, decide_eq_true_iff, Finset.mem_symmDiff]
    by_cases hp : i ∈ p
    case pos => simp [hp]
    case neg => simp [hp]
  case sub => simp [apply, bit]

-- No member is lost by the bound of the result.
theorem SetOp.mem_of (hs : s.numbits = n) (ht : t.numbits = n) :
    decide (i ∈ (BitSet.of n (op.apply s.members t.members)).members) =
      op.bit (decide (i ∈ s.members)) (decide (i ∈ t.members)) := by
  rw [← mem_apply, decide_eq_decide, BitSet.mem_of, and_iff_left_iff_imp]
  intro hmem
  by_contra hi
  have hbits : decide (i ∈ op.apply s.members t.members) = _ := mem_apply
  rw [decide_eq_true hmem, decide_eq_false fun h => hi (hs ▸ s.within i h),
    decide_eq_false fun h => hi (ht ▸ t.within i h)] at hbits
  cases op <;> simp [bit] at hbits

theorem assignWords_holds (hv : m v = some b) (hw : m w = some c) (hz : m z = some d) (h : Shaped b n)
    (hs : Holds c s) (ht : Holds d t) (hns : s.numbits = n) (hnt : t.numbits = n) :
    ∃ b', m.assignWords op.word v w z (dims n) = .ok (m.store v b') ∧
      Holds b' (.of n (op.apply s.members t.members)) := by
  have hb : dims n ≤ b.size := h.size.symm.le
  have hc : dims n ≤ c.size := hns ▸ hs.size.symm.le
  have hd : dims n ≤ d.size := hnt ▸ ht.size.symm.le
  rw [assignWords_ok hv hw hz hb hc hd]
  exact ⟨_, rfl, Holds.map₂ h hs ht hns hnt rfl (fun _ _ _ hi => SetOp.getLsbD_word hi) fun _ => SetOp.mem_of hns hnt⟩

theorem assignOp_eq (hv : m v = some b) (hw : m w = some c) (h : Holds b s) (h' : Holds c t)
    (hn : s.numbits = t.numbits) :
    m.assignOp f (some v) (some w) = m.assignWords f v v w (dims s.numbits) := by
  have hnum : b.numbits = c.numbits := by rw [h.numbits, h'.numbits, hn]
  simp only [Memory.assignOp, bind, Except.bind, block_ok hv, block_ok hw, assert_ok hnum, h.vec_dim]

theorem vec_orass_eq (hv : m v = some b) (h : Holds b s) :
    m.vec_orass (some v) (some w) = m.assignWords SetOp.or.word v v w (dims s.numbits) := by
  simp only [Memory.vec_orass, bind, Except.bind, block_ok hv, h.vec_dim]
  rfl

theorem assign_eq (hv : m v = some b) (hw : m w = some c) (hz : m z = some d) (h : Holds b s) (h' : Holds c t)
    (h'' : Holds d u) (hn : s.numbits = t.numbits) (hn' : s.numbits = u.numbits) :
    m.assign f (some v) (some w) (some z) = m.assignWords f v w z (dims s.numbits) := by
  have hnum : b.numbits = c.numbits ∧ b.numbits = d.numbits := by
    rw [h.numbits, h'.numbits, h''.numbits]
    exact ⟨hn, hn'⟩
  simp only [Memory.assign, bind, Except.bind, block_ok hv, block_ok hw, block_ok hz, assert_ok hnum, h.vec_dim]

end Compiler.Backend.Dvec
