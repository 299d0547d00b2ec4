import DmdModel.Compiler.Root.Array

namespace Compiler.Root.Arrays

variable {T : Type} {cs xs w l m r rest tail : List (Cell T)} {vs : List T} {c : Cell T} {n index : Nat}
  {a a' b : Array T} {overlap : Overlap T}

section memory

@[simp]
theorem uint_of_lt (h : n < 2 ^ 32) : uint n = n :=
  Nat.mod_eq_of_lt h

-- `cast(uint)` of what `length--` leaves
theorem uint_pred (h₀ : 0 < n) (h : n < 2 ^ 32) : uint (n + 2 ^ 32 - 1) = n - 1 := by
  rw [uint, show n + 2 ^ 32 - 1 = n - 1 + 2 ^ 32 by omega, Nat.add_mod_right, Nat.mod_eq_of_lt (by omega)]

theorem read_append (h : l.length = index) (hn : m.length = n) : read (l ++ m ++ r) index n = some m := by
  subst h hn
  rw [read, if_pos (by simp only [List.length_append]; omega), List.append_assoc, List.drop_left, List.take_left]

theorem write_append (h : l.length = index) (hm : m.length = w.length) :
    write (l ++ m ++ r) index w = some (l ++ w ++ r) := by
  subst h
  rw [write, if_pos (by simp only [List.length_append]; omega), ← hm, ← List.length_append, List.drop_left,
    List.append_assoc l m r, List.take_left]

theorem getElem?_append (h : l.length = index) : (l ++ c :: r)[index]? = some c := by
  subst h
  simp

-- What the elements `r` leave behind when they move up by `n`
def gap (r rest : List (Cell T)) (n : Nat) : List (Cell T) :=
  (r ++ rest).take n

theorem length_gap (hn : n ≤ rest.length) : (gap r rest n).length = n := by
  rw [gap, List.length_take, List.length_append]
  omega

theorem memmove_up {d : Nat} (hl : l.length = index) (hr : r.length = n) (hd : d ≤ rest.length) :
    memmove (l ++ r ++ rest) (index + d) index n = some (l ++ gap r rest d ++ r ++ rest.drop d) := by
  have hgap := length_gap (r := r) hd
  have hsplit : l ++ r ++ rest = l ++ gap r rest d ++ ((r ++ rest).drop d).take r.length ++ rest.drop d := by
    have hdrop : rest.drop d = ((r ++ rest).drop d).drop r.length := by
      rw [List.drop_drop, Nat.add_comm, ← List.drop_drop, List.drop_left]
    rw [hdrop, List.append_assoc _ (List.take _ _) (List.drop _ _), List.take_append_drop, gap,
      List.append_assoc l (List.take _ _), List.take_append_drop, List.append_assoc]
  rw [memmove, read_append hl hr, Option.bind_eq_bind, Option.bind_some]
  conv_lhs => rw [hsplit]
  refine write_append ?_ ?_
  · rw [List.length_append, hgap, hl]
  · simp only [List.length_take, List.length_drop, List.length_append]
    omega

-- A memcpy that is a memmove
def Moves (overlap : Overlap T) : Prop :=
  ∀ cs dst src n, src + n ≤ cs.length → dst + n ≤ cs.length → memmove cs dst src n = some (overlap cs dst src n)

theorem memcpy_eq_memmove {dst src : Nat} (hsrc : src + n ≤ cs.length) (hdst : dst + n ≤ cs.length)
    (h : dst = src ∨ src + n ≤ dst ∨ Moves overlap) : memcpy overlap cs dst src n = memmove cs dst src n := by
  rw [memcpy]
  split_ifs with hover
  case neg => rfl
  case pos =>
    obtain rfl | h | h := h
    · exact absurd rfl hover.1
    · exact absurd hover.2.1 h.not_gt
    · exact (h cs dst src n hsrc hdst).symm

end memory

-- The cells of an array that has been initialized
structure Has (a : Array T) (cs : List (Cell T)) : Prop where
  data      : a.data = some cs
  length    : cs.length = a.allocated
  allocated : 0 < a.allocated
  lt        : a.allocated < 2 ^ 32

namespace Has

theorem small (h : Has a cs) (ha : a.allocated ≤ SMALLARRAYCAP) : ∃ c, cs = [c] := by
  refine List.length_eq_one_iff.mp ?_
  have := h.length
  have := h.allocated
  rw [SMALLARRAYCAP] at ha
  omega

theorem setData (h : Has a cs) (hx : w.length = cs.length) : Has (a.setData w) w where
  data := by
    rw [Array.data, Array.setData]
    by_cases ha : a.allocated ≤ SMALLARRAYCAP
    case pos =>
      obtain ⟨c, rfl⟩ := h.small ha
      obtain ⟨x, rfl⟩ := List.length_eq_one_iff.mp hx
      simp [ha]
    case neg => simp [ha]
  length := hx.trans h.length
  allocated := h.allocated
  lt := h.lt

theorem setLength (h : Has a cs) : Has { a with length := n } cs :=
  ⟨h.data, h.length, h.allocated, h.lt⟩

theorem store (h : Has a (l ++ m ++ r)) (hl : l.length = index) (hm : m.length = 1) :
    ∃ a', a.store index c = some a' ∧ Has a' (l ++ [c] ++ r) ∧ a'.length = a.length := by
  refine ⟨a.setData (l ++ [c] ++ r), ?_, h.setData ?_, rfl⟩
  · rw [Array.store, h.data, Option.bind_eq_bind, Option.bind_some, write_append hl hm]
    rfl
  · simp only [List.length_append, List.length_singleton, hm]

theorem opIndex (h : Has a (l ++ c :: r)) (hl : l.length = index) : a.opIndex index = some c := by
  rw [Array.opIndex, h.data, Option.bind_eq_bind, Option.bind_some, getElem?_append hl]

end Has

-- The elements of an array
def Holds (a : Array T) (xs : List (Cell T)) : Prop :=
  ∃ rest, Has a (xs ++ rest) ∧ a.length = xs.length

theorem Holds.length_le (h : Holds a xs) : a.length ≤ a.allocated := by
  obtain ⟨rest, hh, hlen⟩ := h
  rw [hlen, ← hh.length, List.length_append]
  exact Nat.le_add_right ..

theorem Holds.empty : Holds ({} : Array T) [] :=
  ⟨[none], ⟨rfl, rfl, Nat.one_pos, Nat.one_lt_two_pow (by decide)⟩, rfl⟩

-- There is room afterwards, and the elements are where they were.
theorem reserve_spec (h : Has a (xs ++ rest)) (hlen : a.length = xs.length) (hn : xs.length + n < 2 ^ 31) :
    ∃ a' rest', a.reserve n = some a' ∧ Has a' (xs ++ rest') ∧ a'.length = xs.length ∧ n ≤ rest'.length := by
  have hle := h.length
  rw [List.length_append] at hle
  have := h.lt
  have hroom : uint (a.allocated + 2 ^ 32 - a.length) = rest.length := by
    rw [uint, show a.allocated + 2 ^ 32 - a.length = rest.length + 2 ^ 32 by omega, Nat.add_mod_right,
      Nat.mod_eq_of_lt (by omega)]
  rw [Array.reserve, hroom]
  by_cases hcold : rest.length < n
  case neg => exact ⟨a, rest, if_neg hcold, h, hlen, by omega⟩
  case pos =>
    have hpos := h.allocated
    rw [if_pos hcold, Array.enlarge, guard, if_pos (by omega), if_neg hpos.ne']
    by_cases ha : a.allocated ≤ SMALLARRAYCAP
    case pos =>
      have hread : read (xs ++ rest) 0 a.length = some xs := read_append (l := []) rfl hlen.symm
      have hwrite : write (xmalloc (a.length + n)) 0 xs = some (xs ++ List.replicate n none) := by
        rw [xmalloc, List.replicate_add, hlen]
        exact write_append (l := []) rfl List.length_replicate
      have hdim : uint (a.length + n) = a.length + n := uint_of_lt (by omega)
      simp only [if_pos ha, h.data, hread, hwrite, hdim, Option.pure_def, Option.bind_eq_bind, Option.bind_some]
      rw [SMALLARRAYCAP] at ha
      refine ⟨_, List.replicate n none, rfl, ⟨if_neg ?_, ?_, ?_, ?_⟩, hlen, List.length_replicate.ge⟩
      case refine_2 => rw [List.length_append, List.length_replicate, hlen]
      all_goals dsimp only [SMALLARRAYCAP]; omega
    case neg =>
      have hdim (k : Nat) (hk : k < 2 ^ 31) : uint (a.length + k) = a.length + k := uint_of_lt (by omega)
      -- one half more, or what is asked for
      obtain ⟨increment, hinc, hge, hlt⟩ : ∃ increment,
          (if n > a.length / 2 then uint n else a.length / 2) = increment ∧ n ≤ increment ∧ increment < 2 ^ 31 := by
        refine ⟨_, rfl, ?_⟩
        rw [uint_of_lt (by omega)]
        split_ifs <;> omega
      simp only [if_neg ha, h.data, hinc, hdim increment hlt, Option.pure_def, Option.bind_eq_bind, Option.bind_some]
      rw [SMALLARRAYCAP] at ha
      have hrealloc : xrealloc (xs ++ rest) (a.length + increment) =
          xs ++ (rest ++ List.replicate (increment - rest.length) none) := by
        rw [xrealloc, List.take_of_length_le (by rw [List.length_append]; omega), List.append_assoc, List.length_append,
          hlen, Nat.add_sub_add_left]
      refine ⟨_, rest ++ List.replicate (increment - rest.length) none, rfl, ⟨(if_neg ?_).trans ?_, ?_, ?_, ?_⟩, hlen, ?_⟩
      case refine_2 => exact congrArg some hrealloc
      case refine_3 => simp only [List.length_append, List.length_replicate]; omega
      case refine_6 => simp only [List.length_append, List.length_replicate]; omega
      all_goals dsimp only [SMALLARRAYCAP]; omega

-- The new length is still to be set.
theorem gap_spec (h : Has a (l ++ r ++ rest)) (hl : l.length = index) (hlen : a.length = (l ++ r).length)
    (hn : n ≤ rest.length) :
    ∃ a', a.shiftBack index n = some a' ∧ Has a' (l ++ gap r rest n ++ r ++ rest.drop n) ∧ a'.length = a.length := by
  have hr : r.length = a.length - index := by rw [hlen, List.length_append, ← hl, Nat.add_sub_cancel_left]
  refine ⟨_, ?_, h.setData (w := l ++ gap r rest n ++ r ++ rest.drop n) ?_, rfl⟩
  · rw [Array.shiftBack, h.data, Option.bind_eq_bind, Option.bind_some, memmove_up hl hr hn]
    rfl
  · simp only [List.length_append, List.length_drop, length_gap hn]
    omega

-- Nothing moves where the gap is at the end.
theorem shiftBack_spec (h : Has a (l ++ r ++ rest)) (hl : l.length = index) (hlen : a.length = (l ++ r).length)
    (hn : n ≤ rest.length) :
    ∃ a', (if a.length ≠ index then a.shiftBack index n else some a) = some a' ∧
      Has a' (l ++ gap r rest n ++ r ++ rest.drop n) ∧ a'.length = a.length := by
  split_ifs with hend
  case pos => exact gap_spec h hl hlen hn
  case neg =>
    obtain rfl : r = [] := by
      rw [List.length_append] at hlen
      exact List.length_eq_zero_iff.mp (by omega)
    refine ⟨a, rfl, ?_, rfl⟩
    rw [List.append_nil, gap, List.nil_append, List.append_assoc, List.take_append_drop]
    rwa [List.append_nil] at h

-- An `if` in front of the rest of a function
theorem ite_bind {p : Prop} [Decidable p] {x : Option (Array T)} {f : Array T → Option (Array T)} :
    (if p then x.bind f else f a) = (if p then x else some a).bind f := by
  split_ifs <;> rfl

theorem write_gap (hl : l.length = index) (hm : m.length = w.length) :
    write (l ++ m ++ r ++ rest) index w = some (l ++ w ++ r ++ rest) := by
  rw [List.append_assoc _ r rest, List.append_assoc _ r rest, write_append hl hm]

-- What is stored in the gap becomes part of the array.
theorem Has.fill (h : Has a (l ++ m ++ r ++ rest)) (hlen : a.length = (l ++ r).length) (hm : m.length = w.length)
    (hn : (l ++ r).length + w.length < 2 ^ 31) :
    Holds { a.setData (l ++ w ++ r ++ rest) with length := uint (a.length + w.length) } (l ++ w ++ r) := by
  refine ⟨rest, (h.setData ?_).setLength, ?_⟩
  · simp only [List.length_append, hm]
  · dsimp only
    rw [uint_of_lt (by omega), hlen]
    simp only [List.length_append]
    omega

theorem insertSlice_spec (h : Holds a (l ++ r)) (hl : l.length = index) (hn : (l ++ r).length + w.length < 2 ^ 31) :
    ∃ a', a.insertSlice index w = some a' ∧ Holds a' (l ++ w ++ r) := by
  obtain ⟨rest, hh, hlen⟩ := h
  obtain ⟨a₁, rest₁, h₁, hh₁, hlen₁, hroom⟩ := reserve_spec hh hlen hn
  obtain ⟨a₂, h₂, hh₂, hlen₂⟩ := shiftBack_spec hh₁ hl hlen₁ hroom
  have hgap := length_gap (r := r) hroom
  refine ⟨_, ?_, hh₂.fill (hlen₂.trans hlen₁) hgap hn⟩
  simp only [Array.insertSlice, h₁, Option.bind_eq_bind, Option.bind_some, Option.pure_def]
  rw [ite_bind, h₂]
  simp only [hh₂.data, write_gap hl hgap, Option.bind_some]
  rfl

theorem insert_spec {v : T} (h : Holds a (l ++ r)) (hl : l.length = index) (hn : (l ++ r).length + 1 < 2 ^ 31) :
    ∃ a', a.insert index v = some a' ∧ Holds a' (l ++ [some v] ++ r) := by
  obtain ⟨rest, hh, hlen⟩ := h
  obtain ⟨a₁, rest₁, h₁, hh₁, hlen₁, hroom⟩ := reserve_spec hh hlen hn
  obtain ⟨a₂, h₂, hh₂, hlen₂⟩ := gap_spec hh₁ hl hlen₁ hroom
  have hgap := length_gap (r := r) hroom
  refine ⟨_, ?_, hh₂.fill (w := [some v]) (hlen₂.trans hlen₁) hgap hn⟩
  simp only [Array.insert, Array.store, h₁, h₂, hh₂.data, write_gap (w := [some v]) hl hgap, Option.bind_eq_bind,
    Option.bind_some, Option.pure_def]
  rfl

theorem shift_spec {v : T} (h : Holds a xs) (hn : xs.length + 1 < 2 ^ 31) :
    ∃ a', a.shift v = some a' ∧ Holds a' (some v :: xs) := by
  have hshift : a.shift v = a.insert 0 v := rfl
  rw [hshift]
  exact insert_spec (l := []) h rfl hn

theorem Has.room (h : Has a (xs ++ rest)) (hn : n ≤ rest.length) :
    ∃ m, m.length = n ∧ Has a (xs ++ m ++ [] ++ rest.drop n) := by
  refine ⟨rest.take n, by rw [List.length_take, Nat.min_eq_left hn], ?_⟩
  rwa [List.append_nil, List.append_assoc, List.take_append_drop]

theorem push_spec {v : T} (h : Holds a xs) (hn : xs.length + 1 < 2 ^ 31) :
    ∃ a', a.push v = some a' ∧ Holds a' (xs ++ [some v]) := by
  obtain ⟨rest, hh, hlen⟩ := h
  obtain ⟨a₁, rest₁, h₁, hh₁, hlen₁, hroom⟩ := reserve_spec hh hlen hn
  obtain ⟨m, hm, hh₂⟩ := hh₁.room hroom
  have hfill := hh₂.fill (w := [some v]) (by rwa [List.append_nil]) hm (by rwa [List.append_nil])
  rw [List.append_nil] at hfill
  refine ⟨_, ?_, hfill⟩
  simp only [Array.push, Array.store, h₁, hh₂.data, write_gap (w := [some v]) hlen₁.symm hm, Option.bind_eq_bind,
    Option.bind_some, Option.pure_def]
  rw [List.append_nil]
  rfl

theorem setDim_grow (h : Has a (xs ++ rest)) (hlen : a.length = xs.length) (hn : xs.length + n < 2 ^ 31) :
    ∃ a' rest', a.setDim (xs.length + n) = some a' ∧ Has a' (xs ++ rest') ∧ a'.length = xs.length + n ∧
      n ≤ rest'.length := by
  have hdim : uint (xs.length + n) = xs.length + n := uint_of_lt (by omega)
  rw [Array.setDim, hlen, Nat.add_sub_cancel_left]
  rcases n.eq_zero_or_pos with rfl | hpos
  case inl => exact ⟨_, rest, if_neg (Nat.lt_irrefl _), h.setLength, hdim, Nat.zero_le _⟩
  case inr =>
    obtain ⟨a₁, rest₁, h₁, hh₁, -, hroom⟩ := reserve_spec h hlen hn
    refine ⟨_, rest₁, ?_, hh₁.setLength, hdim, hroom⟩
    rw [if_pos (Nat.lt_add_of_pos_right hpos), h₁]
    rfl

theorem pushSlice_spec (h : Holds a xs) (hn : xs.length + vs.length < 2 ^ 31) :
    ∃ a', a.pushSlice vs = some a' ∧ Holds a' (xs ++ vs.map some) := by
  obtain ⟨rest, hh, hlen⟩ := h
  obtain ⟨a₁, rest₁, h₁, hh₁, hlen₁, hroom⟩ := setDim_grow hh hlen hn
  obtain ⟨m, hm, hh₂⟩ := hh₁.room hroom
  rw [List.append_nil] at hh₂
  have hm' : m.length = (vs.map some).length := by rwa [List.length_map]
  refine ⟨_, ?_, rest₁.drop vs.length, hh₂.setData (w := xs ++ vs.map some ++ rest₁.drop vs.length) ?_, ?_⟩
  · simp only [Array.pushSlice, hlen, h₁, hh₂.data, write_append rfl hm', Option.bind_eq_bind, Option.bind_some,
      Option.pure_def]
  · simp only [List.length_append, hm']
  · rw [List.length_append, List.length_map]
    exact hlen₁

theorem setDim_le (h : Holds a xs) (hn : n ≤ xs.length) : ∃ a', a.setDim n = some a' ∧ Holds a' (xs.take n) := by
  have hle := h.length_le
  obtain ⟨rest, hh, hlen⟩ := h
  have := hh.lt
  refine ⟨{ a with length := uint n }, ?_, xs.drop n ++ rest, ?_, ?_⟩
  · rw [Array.setDim, if_neg (by omega)]
    rfl
  · rw [← List.append_assoc, List.take_append_drop]
    exact hh.setLength
  · rw [List.length_take, Nat.min_eq_left hn]
    exact uint_of_lt (by omega)

theorem remove_spec (h : Holds a (l ++ c :: r)) (hl : l.length = index) :
    ∃ a', a.remove index = some a' ∧ Holds a' (l ++ r) := by
  have hle := h.length_le
  obtain ⟨rest, hh, hlen⟩ := h
  have := hh.lt
  rw [List.length_append, List.length_cons] at hlen
  have hn : a.length - index - 1 = r.length := by omega
  -- the elements behind move down, onto the one to be removed
  have hmove : ∃ a₁ rest₁, (if r.length ≠ 0 then
      (memmove (l ++ c :: r ++ rest) index (index + 1) r.length).map a.setData else some a) = some a₁ ∧
      Has a₁ (l ++ r ++ rest₁) ∧ a₁.length = a.length := by
    split_ifs with hr
    case pos =>
      have hread : read (l ++ c :: r ++ rest) (index + 1) r.length = some r := by
        rw [List.append_cons l c r]
        exact read_append (by rw [List.length_append, hl]; rfl) rfl
      have hsplit : l ++ c :: r ++ rest = l ++ (c :: r).take r.length ++ ((c :: r).drop r.length ++ rest) := by
        rw [List.append_assoc l (List.take _ _), ← List.append_assoc (List.take _ _), List.take_append_drop,
          List.append_assoc]
      have hm : ((c :: r).take r.length).length = r.length := by
        rw [List.length_take, List.length_cons, Nat.min_eq_left (Nat.le_succ _)]
      refine ⟨a.setData (l ++ r ++ ((c :: r).drop r.length ++ rest)), (c :: r).drop r.length ++ rest, ?_, hh.setData ?_, rfl⟩
      · rw [memmove, hread, Option.bind_eq_bind, Option.bind_some]
        conv_lhs => rw [hsplit, write_append hl hm]
        rfl
      · rw [hsplit]
        simp only [List.length_append, hm]
    case neg =>
      obtain rfl := List.length_eq_zero_iff.mp (not_not.mp hr)
      refine ⟨a, c :: rest, rfl, ?_, rfl⟩
      rwa [List.append_nil, List.append_cons]
  obtain ⟨a₁, rest₁, h₁, hh₁, hlen₁⟩ := hmove
  refine ⟨_, ?_, rest₁, hh₁.setLength (n := uint (a₁.length + 2 ^ 32 - 1)), ?_⟩
  · rw [Array.remove, hh.data, Option.bind_eq_bind, Option.bind_some, hn]
    dsimp only
    rw [Option.bind_eq_bind, Option.bind_some, ite_bind, h₁]
    rfl
  · rw [List.length_append]
    exact (uint_pred (by omega) (by omega)).trans (by omega)

theorem pop_spec (h : Holds a (xs ++ [c])) : ∃ a', a.pop = some (c, a') ∧ Holds a' xs := by
  have hle := h.length_le
  obtain ⟨rest, hh, hlen⟩ := h
  have := hh.lt
  rw [List.length_append, List.length_singleton] at hlen
  have hpred : uint (a.length + 2 ^ 32 - 1) = xs.length := (uint_pred (by omega) (by omega)).trans (by omega)
  rw [List.append_assoc, List.singleton_append] at hh
  refine ⟨_, ?_, c :: rest, hh.setLength (n := uint (a.length + 2 ^ 32 - 1)), hpred⟩
  rw [Array.pop]
  dsimp only
  rw [(hh.setLength (n := uint (a.length + 2 ^ 32 - 1))).opIndex hpred.symm]
  rfl

theorem opIndex_spec (h : Holds a xs) (hi : xs[index]? = some c) : a.opIndex index = some c := by
  obtain ⟨rest, hh, -⟩ := h
  rw [Array.opIndex, hh.data, Option.bind_eq_bind, Option.bind_some, List.getElem?_append_left, hi]
  exact List.getElem?_eq_some_iff.mp hi |>.1

theorem Holds.read (h : Holds a xs) : ∃ cs, a.data = some cs ∧ read cs 0 a.length = some xs := by
  obtain ⟨rest, hh, hlen⟩ := h
  exact ⟨_, hh.data, read_append (l := []) rfl hlen.symm⟩

-- Other elements, as many as there were
theorem Holds.overwrite (h : Holds a xs) (hy : w.length = xs.length) :
    ∃ cs cs', a.data = some cs ∧ write cs 0 w = some cs' ∧ Holds (a.setData cs') w := by
  obtain ⟨rest, hh, hlen⟩ := h
  refine ⟨_, w ++ rest, hh.data, write_append (l := []) rfl hy.symm, rest, hh.setData ?_, hlen.trans hy.symm⟩
  rw [List.length_append, List.length_append, hy]

theorem insertArray_spec {b : Array T} (h : Holds a (l ++ r)) (hb : Holds b xs) (hl : l.length = index)
    (hn : (l ++ r).length + xs.length < 2 ^ 31) : ∃ a', a.insertArray index b = some a' ∧ Holds a' (l ++ xs ++ r) := by
  obtain ⟨cs, hcs, hread⟩ := hb.read
  rw [Array.insertArray, hcs, Option.bind_eq_bind, Option.bind_some, hread, Option.bind_some]
  exact insertSlice_spec h hl hn

theorem zero_spec {v : T} (h : Holds a xs) :
    ∃ a', a.zero v = some a' ∧ Holds a' (List.replicate xs.length (some v)) := by
  obtain ⟨cs, cs', hcs, hwrite, ha'⟩ := h.overwrite (w := List.replicate xs.length (some v)) List.length_replicate
  obtain ⟨-, -, hlen⟩ := h
  refine ⟨_, ?_, ha'⟩
  simp only [Array.zero, hcs, hlen, hwrite, Option.bind_eq_bind, Option.bind_some, Option.pure_def]

theorem copy_spec (h : Holds a xs) (hn : xs.length < 2 ^ 31) : ∃ a', a.copy = some a' ∧ Holds a' xs := by
  obtain ⟨cs, hcs, hread⟩ := h.read
  obtain ⟨-, -, hlen⟩ := h
  obtain ⟨rest₀, h₀, hlen₀⟩ := Holds.empty (T := T)
  obtain ⟨b, rest, hb, hhb, hlenb, hroom⟩ := setDim_grow (n := xs.length) h₀ hlen₀ (by rwa [List.length_nil, Nat.zero_add])
  rw [List.length_nil, Nat.zero_add] at hb hlenb
  obtain ⟨m, hm, hhb'⟩ := hhb.room hroom
  rw [List.nil_append, List.append_nil] at hhb'
  have hbm : Holds b m := ⟨_, hhb', hlenb.trans hm.symm⟩
  obtain ⟨cs₁, cs₂, hcs₁, hwrite, hb'⟩ := hbm.overwrite hm.symm
  rw [hlen] at hread
  refine ⟨_, ?_, hb'⟩
  simp only [Array.copy, hlen, hb, hcs, hread, hcs₁, hwrite, Option.bind_eq_bind, Option.bind_some, Option.pure_def]

theorem insertCopies_spec {v : T} (h : Holds a (l ++ r)) (hl : l.length = index) (hn : (l ++ r).length + n < 2 ^ 31) :
    ∃ a', a.insertCopies index n v = some a' ∧ Holds a' (l ++ List.replicate n (some v) ++ r) := by
  rw [Array.insertCopies]
  split_ifs with hz
  case pos =>
    subst hz
    refine ⟨a, rfl, ?_⟩
    rwa [List.replicate_zero, List.append_nil]
  case neg =>
    have h' := insertSlice_spec (w := List.replicate n (some v)) h hl (by rwa [List.length_replicate])
    rwa [Array.insertSlice, List.length_replicate] at h'

-- The elements in front of the gap have stayed, and what the others have left in it still follows them.
theorem insertSelf_spec (h : Holds a (l ++ r)) (hl : l.length = index) (hn : (l ++ r).length + (l ++ r).length < 2 ^ 31)
    (hm : l = [] ∨ r = [] ∨ Moves overlap) :
    ∃ a', a.insertSelf overlap index = some a' ∧ Holds a' (l ++ (l ++ r) ++ r) := by
  obtain ⟨rest, hh, hlen⟩ := h
  obtain ⟨a₁, rest₁, h₁, hh₁, hlen₁, hroom⟩ := reserve_spec hh hlen hn
  obtain ⟨a₂, h₂, hh₂, hlen₂⟩ := shiftBack_spec hh₁ hl hlen₁ hroom
  have hgap := length_gap (r := r) hroom
  have hread : read (l ++ gap r rest₁ (l ++ r).length ++ r ++ rest₁.drop (l ++ r).length) 0 (l ++ r).length =
      some (l ++ r) := by
    have hstays : gap r rest₁ (l ++ r).length = r ++ rest₁.take l.length := by
      rw [gap, List.take_append, List.length_append, Nat.add_sub_cancel, List.take_of_length_le (Nat.le_add_left ..)]
    rw [hstays, ← List.append_assoc, List.append_assoc _ r, List.append_assoc (l ++ r)]
    exact read_append (l := []) rfl rfl
  have hlong (m rest : List (Cell T)) (h : m.length = (l ++ r).length) :
      index + (l ++ r).length ≤ (l ++ m ++ r ++ rest).length := by
    simp only [List.length_append] at h ⊢
    omega
  have hm' : index = 0 ∨ 0 + (l ++ r).length ≤ index ∨ Moves overlap := by
    obtain rfl | rfl | hm := hm
    · exact .inl hl.symm
    · exact .inr (.inl (by rw [List.append_nil, Nat.zero_add, hl]))
    · exact .inr (.inr hm)
  have hbound := hlong _ (rest₁.drop (l ++ r).length) hgap
  have hcopy := memcpy_eq_memmove ((Nat.add_le_add_right (Nat.zero_le _) _).trans hbound) hbound hm'
  rw [memmove, hread, Option.bind_eq_bind, Option.bind_some, write_gap hl hgap] at hcopy
  refine ⟨_, ?_, hh₂.fill (hlen₂.trans hlen₁) hgap hn⟩
  simp only [Array.insertSelf, hlen, h₁, Option.bind_eq_bind, Option.bind_some, Option.pure_def]
  rw [ite_bind, h₂]
  simp only [hh₂.data, hcopy, Option.bind_some]
  rfl

-- The inline cell of the array that has been moved holds what it held.
theorem Has.left (storage : Storage T) : ∃ c, Has ({ storage } : Array T) [c] := by
  cases storage with
  | smallarray cell => exact ⟨cell, rfl, rfl, Nat.one_pos, Nat.one_lt_two_pow (by decide)⟩
  | ptr block       => exact ⟨none, rfl, rfl, Nat.one_pos, Nat.one_lt_two_pow (by decide)⟩

theorem move_spec (h : Holds a xs) : ∃ b a', a.move = some (b, a') ∧ Holds b xs ∧ Holds a' [] := by
  obtain ⟨rest, hh, hlen⟩ := h
  obtain ⟨c, hc⟩ := Has.left a.storage
  have hmove : a.move = some
      (⟨a.length, a.allocated, if a.allocated ≤ SMALLARRAYCAP then
          .smallarray (if a.length = 0 then none else (xs ++ rest).head?.join) else a.storage⟩, ⟨0, SMALLARRAYCAP, a.storage⟩) := by
    rw [Array.move, hh.data, Option.bind_eq_bind, Option.bind_some, Option.pure_def]
  refine ⟨_, _, hmove, ?_, [c], hc, rfl⟩
  by_cases ha : a.allocated ≤ SMALLARRAYCAP
  case neg =>
    refine ⟨rest, ⟨?_, hh.length, hh.allocated, hh.lt⟩, hlen⟩
    rw [← hh.data, Array.data, Array.data, if_neg ha, if_neg ha, if_neg ha]
  case pos =>
    rw [if_pos ha]
    obtain ⟨d, hd⟩ := hh.small ha
    cases xs with
    | nil =>
      refine ⟨[none], ⟨?_, ?_, hh.allocated, hh.lt⟩, hlen⟩
      · rw [Array.data, if_pos ha, if_pos (show a.length = 0 from hlen)]
        rfl
      · rw [← hh.length, hd]
        rfl
    | cons x xs =>
      refine ⟨rest, ⟨?_, hh.length, hh.allocated, hh.lt⟩, hlen⟩
      rw [Array.data, if_pos ha, hlen, if_neg (show (x :: xs).length ≠ 0 from Nat.succ_ne_zero _), hd]
      rfl

theorem splitLoop_done : splitLoop index n index a = some a := by
  cases index with
  | zero   => rfl
  | succ i => rw [splitLoop, if_neg (Nat.lt_irrefl _)]

-- The elements behind the room are moved one by one, the last one first.
theorem splitLoop_spec (h : Has a (l ++ r ++ m ++ tail)) (hm : m.length = n) :
    ∃ m' a', m'.length = n ∧ splitLoop l.length n (l ++ r).length a = some a' ∧ Has a' (l ++ m' ++ r ++ tail) ∧
      a'.length = a.length := by
  induction r using List.reverseRecOn generalizing a m tail with
  | nil =>
    rw [List.append_nil] at h
    refine ⟨m, a, hm, ?_, by rwa [List.append_nil], rfl⟩
    rw [List.append_nil, splitLoop_done]
  | append_singleton r c hi =>
    obtain ⟨d, e, hd⟩ : ∃ d e, c :: m = d ++ [e] := ⟨_, _, (List.dropLast_concat_getLast (List.cons_ne_nil c m)).symm⟩
    have hdn : d.length = n := by
      have := congrArg List.length hd
      rw [List.length_cons, List.length_append, List.length_singleton] at this
      omega
    have hread : a.opIndex (l ++ r).length = some c := by
      refine Has.opIndex (r := m ++ tail) ?_ rfl
      rwa [← List.append_assoc, List.append_assoc _ m, List.append_assoc _ [c]] at h
    have hcells : l ++ (r ++ [c]) ++ m ++ tail = (l ++ r ++ d) ++ [e] ++ tail := by
      rw [← List.append_assoc l r, List.append_assoc _ [c] m, List.singleton_append, hd, ← List.append_assoc]
    rw [hcells] at h
    have hindex : (l ++ r ++ d).length = (l ++ r).length + n := by rw [List.length_append, hdn]
    obtain ⟨a₁, h₁, hh₁, hlen₁⟩ := h.store (c := c) hindex rfl
    rw [List.append_assoc _ [c]] at hh₁
    obtain ⟨m', a', hm', h', hh', hlen'⟩ := hi hh₁ hdn
    refine ⟨m', a', hm', ?_, ?_, hlen'.trans hlen₁⟩
    · rw [← List.append_assoc, @List.length_append _ (l ++ r) [c], List.length_singleton, splitLoop, if_pos ?_, hread,
        Option.bind_eq_bind, Option.bind_some, h₁, Option.bind_eq_bind, Option.bind_some, h']
      rw [List.length_append]
      omega
    · rwa [← List.append_assoc _ r, List.append_assoc _ [c]]

theorem fill_spec (h : Has a (l ++ m ++ r)) (hm : m.length = vs.length) :
    ∃ a', fill l.length vs a = some a' ∧ Has a' (l ++ vs.map some ++ r) ∧ a'.length = a.length := by
  induction vs generalizing a l m with
  | nil =>
    obtain rfl := List.length_eq_zero_iff.mp hm
    exact ⟨a, rfl, h, rfl⟩
  | cons v vs hi =>
    obtain ⟨c, m, rfl⟩ := List.exists_cons_of_length_eq_add_one hm
    rw [List.append_cons, List.append_assoc _ m] at h
    obtain ⟨a₁, h₁, hh₁, hlen₁⟩ := h.store (c := some v) rfl rfl
    rw [← List.append_assoc _ m] at hh₁
    obtain ⟨a', h', hh', hlen'⟩ := hi hh₁ (Nat.succ.inj hm)
    refine ⟨a', ?_, ?_, hlen'.trans hlen₁⟩
    · rw [fill, h₁, Option.bind_eq_bind, Option.bind_some, ← h', List.length_append, List.length_singleton]
    · rwa [List.map_cons, List.append_cons]

theorem split_spec (h : Holds a (l ++ r)) (hl : l.length = index) (hn : (l ++ r).length + vs.length < 2 ^ 31) :
    ∃ a', (split a index vs.length).bind (fill index vs) = some a' ∧ Holds a' (l ++ vs.map some ++ r) := by
  subst hl
  rw [split]
  split_ifs with hpos
  case pos =>
    obtain ⟨rest, hh, hlen⟩ := h
    obtain ⟨a₁, rest₁, h₁, hh₁, hlen₁, hroom⟩ := setDim_grow hh hlen hn
    obtain ⟨m, hm, hh₂⟩ := hh₁.room hroom
    rw [List.append_nil] at hh₂
    obtain ⟨m', a₂, hm', h₂, hh₂', hlen₂⟩ := splitLoop_spec hh₂ hm
    rw [List.append_assoc _ r] at hh₂'
    obtain ⟨a₃, h₃, hh₃, hlen₃⟩ := fill_spec hh₂' hm'
    rw [← List.append_assoc _ r] at hh₃
    refine ⟨a₃, ?_, _, hh₃, ?_⟩
    · simp only [hlen, h₁, h₂, h₃, Option.bind_eq_bind, Option.bind_some]
    · rw [hlen₃, hlen₂, hlen₁]
      simp only [List.length_append, List.length_map]
      omega
  case neg =>
    obtain rfl := List.length_eq_zero_iff.mp (Nat.eq_zero_of_not_pos hpos)
    refine ⟨a, rfl, ?_⟩
    rwa [List.map_nil, List.append_nil]

section reverse

variable {U : Type} {x y : U} {p q t : List U} {mid : Nat}

theorem set_append_cons : (p ++ x :: t).set p.length y = p ++ y :: t := by
  rw [List.set_append_right _ _ le_rfl, Nat.sub_self, List.set_cons_zero]

-- What is in front of `t` and what is behind it have been swapped.
theorem reverseLoop_spec (hp : p.length = q.length) (hm : mid = (t.length + 1) / 2) :
    reverseLoop mid p.length (p ++ t ++ q) = some (p ++ t.reverse ++ q) := by
  induction mid generalizing p q t with
  | zero =>
    obtain rfl : t = [] := List.length_eq_zero_iff.mp (by omega)
    rfl
  | succ mid hi =>
    cases t with
    | nil => exact absurd hm (by simp)
    | cons x t =>
      have hfirst : (p ++ x :: t ++ q)[p.length]? = some x := by simp
      rcases List.eq_nil_or_concat' t with rfl | ⟨t, y, rfl⟩
      case inl =>
        have hlast : (p ++ [x] ++ q).length - 1 - p.length = p.length := by
          simp only [List.length_append, List.length_singleton]
          omega
        obtain rfl : mid = 0 := by simpa using hm
        rw [List.append_assoc, List.singleton_append] at hfirst hlast ⊢
        rw [reverseLoop, hlast, hfirst]
        simp only [Option.bind_eq_bind, Option.bind_some, set_append_cons, reverseLoop]
        simp
      case inr =>
        have hlast : (p ++ x :: (t ++ [y]) ++ q).length - 1 - p.length = (p ++ x :: t).length := by
          simp only [List.length_append, List.length_cons, List.length_nil]
          omega
        have hcells : p ++ x :: (t ++ [y]) ++ q = (p ++ x :: t) ++ y :: q := by simp
        have hread : (p ++ x :: (t ++ [y]) ++ q)[(p ++ x :: t).length]? = some y := by
          rw [hcells]
          simp
        have hset : ((p ++ x :: (t ++ [y]) ++ q).set p.length y).set (p ++ x :: t).length x = p ++ [y] ++ t ++ x :: q := by
          have hlen : (p ++ x :: t).length = (p ++ y :: t).length := by simp
          rw [List.append_assoc, List.cons_append, set_append_cons, hlen, List.append_assoc, List.singleton_append,
            ← List.cons_append, ← List.append_assoc, set_append_cons]
          simp
        have hrest := hi (p := p ++ [y]) (q := x :: q) (t := t) (by simp [hp]) (by simp at hm; omega)
        rw [reverseLoop, hlast, hfirst, hread]
        simp only [Option.bind_eq_bind, Option.bind_some, hset]
        rw [List.length_append, List.length_singleton] at hrest
        rw [hrest]
        simp

theorem reverse_spec : reverse t = some t.reverse := by
  rw [reverse]
  split_ifs with h
  case pos => simpa using reverseLoop_spec (p := []) (q := []) (t := t) rfl (Nat.shiftRight_one _)
  case neg =>
    obtain rfl | ⟨x, rfl⟩ : t = [] ∨ ∃ x, t = [x] := by
      rw [← List.length_eq_zero_iff, ← List.length_eq_one_iff]
      omega
    all_goals rfl

end reverse

theorem Holds.reverse (h : Holds a xs) : ∃ a', a.reverse = some a' ∧ Holds a' xs.reverse := by
  obtain ⟨cs, hcs, hread⟩ := h.read
  obtain ⟨cs₁, cs', hcs₁, hwrite, ha'⟩ := h.overwrite (w := xs.reverse) List.length_reverse
  obtain rfl := Option.some.inj (hcs.symm.trans hcs₁)
  refine ⟨_, ?_, ha'⟩
  simp only [Array.reverse, hcs, hread, reverse_spec, hwrite, Option.bind_eq_bind, Option.bind_some, Option.pure_def]

section run

variable {s : State T} {s' : State T} {k k' : Lists T} {y z : Nat} {f : Option (Array T)} {moves : Bool}

-- The arrays hold the elements of the lists.
structure Refines (s : State T) (k : Lists T) : Prop where
  holds   : ∀ x, Holds (s.arrays x) ((k.lists x).map some)
  lt      : ∀ x, (k.lists x).length < 2 ^ 31
  results : s.results = k.results.map some

theorem Refines.init : Refines ({} : State T) {} where
  holds _ := Holds.empty
  lt _ := Nat.two_pow_pos 31
  results := rfl

theorem Refines.set {e : List T} (h : Refines s k) (ha : Holds a (e.map some)) (he : e.length < 2 ^ 31) :
    Refines (s.set y a) (k.set y e) where
  holds x := by
    rw [State.set, Lists.set]
    dsimp only
    rw [Function.update_apply, Function.update_apply]
    split_ifs
    case pos => exact ha
    case neg => exact h.holds x
  lt x := by
    rw [Lists.set]
    dsimp only
    rw [Function.update_apply]
    split_ifs
    case pos => exact he
    case neg => exact h.lt x
  results := h.results

-- An operation that has the elements `vs` in front of those from `index` on
theorem Refines.insertAt (h : Refines s k) (hk : k.insertAt y index vs = some k')
    (hf : ∀ l r, (k.lists y).map some = l ++ r → Holds (s.arrays y) (l ++ r) → l.length = index →
      (l ++ r).length + vs.length < 2 ^ 31 → ∃ a', f = some a' ∧ Holds a' (l ++ vs.map some ++ r)) :
    ∃ s', (do return s.set y (← f)) = some s' ∧ Refines s' k' := by
  rw [Lists.insertAt] at hk
  split_ifs at hk with hi
  obtain rfl := Option.some.inj hk
  have hsplit : (k.lists y).map some = ((k.lists y).take index).map some ++ ((k.lists y).drop index).map some := by
    rw [← List.map_append, List.take_append_drop]
  have hlen : ((k.lists y).take index).length = index := List.length_take_of_le hi.1
  have hy := h.holds y
  rw [hsplit] at hy
  obtain ⟨a', rfl, ha'⟩ := hf _ _ hsplit hy (by rw [List.length_map, hlen]) (by rw [← hsplit, List.length_map]; exact hi.2)
  refine ⟨_, rfl, h.set ?_ ?_⟩
  · rwa [List.map_append, List.map_append]
  · have := hi.2
    simp only [List.length_append, List.length_drop, hlen]
    omega

theorem Refines.insertArray (hm : moves = true → Moves overlap) (h : Refines s k)
    (hk : k.insertArray moves y index z = some k') :
    ∃ s', s.insertArray overlap y index z = some s' ∧ Refines s' k' := by
  rw [Lists.insertArray] at hk
  split_ifs at hk with hself
  rw [State.insertArray]
  split_ifs with hyz
  case pos =>
    subst hyz
    refine h.insertAt hk fun l r hsplit hy hl hn => ?_
    have hlen : (k.lists y).length = (l ++ r).length := by rw [← hsplit, List.length_map]
    rw [hsplit]
    rw [hlen] at hn hself
    refine insertSelf_spec hy hl hn ?_
    by_cases hl₀ : l = []
    case pos => exact .inl hl₀
    case neg =>
      by_cases hr₀ : r = []
      case pos => exact .inr (.inl hr₀)
      case neg =>
        refine .inr (.inr (hm (Bool.not_eq_false moves ▸ fun hmoves => hself ⟨rfl, ?_, ?_, hmoves⟩)))
        · exact hl ▸ mt List.length_eq_zero_iff.mp hl₀
        · intro hend
          rw [List.length_append, hl] at hend
          exact hr₀ (List.length_eq_zero_iff.mp (by omega))
  case neg =>
    refine h.insertAt hk fun l r _ hy hl hn => insertArray_spec hy (h.holds z) hl ?_
    rwa [List.length_map]

theorem Refines.step (hm : moves = true → Moves overlap) {op : Op T} (h : Refines s k)
    (hk : k.step moves op = some k') : ∃ s', s.step overlap op = some s' ∧ Refines s' k' := by
  have hlen (x : Nat) : (s.arrays x).length = (k.lists x).length := by
    obtain ⟨-, -, hlen⟩ := h.holds x
    rw [hlen, List.length_map]
  have hend {x : Nat} {l r : List (Cell T)} (hlr : (k.lists x).map some = l ++ r) (hl : l.length = (k.lists x).length) :
      r = [] := by
    have := congrArg List.length hlr
    rw [List.length_map, List.length_append] at this
    exact List.length_eq_zero_iff.mp (by omega)
  cases op with
  | push x v =>
    refine h.insertAt hk fun l r hlr hy hl hn => ?_
    obtain rfl := hend hlr hl
    rw [List.append_nil] at hy hn ⊢
    exact push_spec hy hn
  | pushSlice x vs =>
    refine h.insertAt hk fun l r hlr hy hl hn => ?_
    obtain rfl := hend hlr hl
    rw [List.append_nil] at hy hn ⊢
    exact pushSlice_spec hy hn
  | append x y =>
    rw [Lists.step, ← hlen x] at hk
    exact h.insertArray hm hk
  | insertArray x index y => exact h.insertArray hm hk
  | insertSlice x index vs =>
    exact h.insertAt hk fun l r _ hy hl hn => insertSlice_spec hy hl (by rwa [List.length_map])
  | insert x index v => exact h.insertAt hk fun l r _ hy hl hn => insert_spec hy hl hn
  | insertCopies x index count v =>
    refine h.insertAt hk fun l r _ hy hl hn => ?_
    rw [List.map_replicate]
    exact insertCopies_spec hy hl (by rwa [List.length_replicate] at hn)
  | shift x v =>
    refine h.insertAt hk fun l r _ hy hl hn => ?_
    obtain rfl := List.length_eq_zero_iff.mp hl
    exact shift_spec hy hn
  | split x index vs =>
    obtain ⟨s', hs', h'⟩ := h.insertAt hk fun l r _ hy hl hn => split_spec hy hl hn
    exact ⟨s', (Option.bind_assoc ..).symm.trans hs', h'⟩
  | remove x i =>
    rw [Lists.step] at hk
    split_ifs at hk with hi
    obtain rfl := Option.some.inj hk
    have hsplit : (k.lists x).map some = ((k.lists x).take i).map some ++ some (k.lists x)[i] ::
        ((k.lists x).drop (i + 1)).map some := by
      rw [← List.map_cons, ← List.drop_eq_getElem_cons hi, ← List.map_append, List.take_append_drop]
    have hx := h.holds x
    rw [hsplit] at hx
    obtain ⟨a', ha', hh'⟩ := remove_spec hx (by rw [List.length_map, List.length_take_of_le hi.le])
    refine ⟨s.set x a', by rw [State.step, ha']; rfl, h.set ?_ ?_⟩
    · rwa [List.eraseIdx_eq_take_drop_succ, List.map_append]
    · exact (List.length_eraseIdx_le ..).trans_lt (h.lt x)
  | pop x =>
    obtain ⟨v, hv, hk⟩ := Option.bind_eq_some_iff.mp hk
    obtain rfl := Option.some.inj hk
    obtain ⟨vs, hvs⟩ := List.getLast?_eq_some_iff.mp hv
    have hx := h.holds x
    rw [hvs, List.map_append] at hx
    obtain ⟨a', ha', hh'⟩ := pop_spec hx
    have hset := h.set (y := x) (a := a') (e := vs) hh' (by
      have := h.lt x
      rw [hvs, List.length_append] at this
      omega)
    refine ⟨{ s.set x a' with results := s.results ++ [some v] }, by rw [State.step, ha']; rfl, ?_⟩
    rw [hvs, List.dropLast_concat]
    refine ⟨hset.holds, hset.lt, ?_⟩
    dsimp only
    rw [h.results, List.map_append, List.map_singleton]
  | opIndex x i =>
    obtain ⟨v, hv, hk⟩ := Option.bind_eq_some_iff.mp hk
    obtain rfl := Option.some.inj hk
    have hread := opIndex_spec (c := some v) (h.holds x) (by rw [List.getElem?_map, hv]; rfl)
    refine ⟨{ s with results := s.results ++ [some v] }, by rw [State.step, hread]; rfl, h.holds, h.lt, ?_⟩
    dsimp only
    rw [h.results, List.map_append, List.map_singleton]
  | setDim x n =>
    rw [Lists.step] at hk
    split_ifs at hk with hn
    obtain rfl := Option.some.inj hk
    obtain ⟨a', ha', hh'⟩ := setDim_le (n := n) (h.holds x) (by rwa [List.length_map])
    refine ⟨s.set x a', by rw [State.step, ha']; rfl, h.set ?_ ?_⟩
    · rwa [List.map_take]
    · exact (List.length_take_le' ..).trans_lt (h.lt x)
  | move x y =>
    rw [Lists.step] at hk
    split_ifs at hk with hxy
    obtain rfl := Option.some.inj hk
    obtain ⟨b, a', ha', hb, hh'⟩ := move_spec (h.holds x)
    refine ⟨(s.set x a').set y b, by rw [State.step, ha']; rfl, (h.set (e := []) hh' (Nat.two_pow_pos 31)).set hb (h.lt x)⟩
  | copy x y =>
    obtain rfl := Option.some.inj hk
    obtain ⟨a', ha', hh'⟩ := copy_spec (h.holds x) (by rw [List.length_map]; exact h.lt x)
    exact ⟨s.set y a', by rw [State.step, ha']; rfl, h.set hh' (h.lt x)⟩
  | zero x init =>
    obtain rfl := Option.some.inj hk
    obtain ⟨a', ha', hh'⟩ := zero_spec (v := init) (h.holds x)
    refine ⟨s.set x a', by rw [State.step, ha']; rfl, h.set ?_ ?_⟩
    · rwa [List.map_replicate, ← List.length_map (f := some)]
    · rw [List.length_replicate]
      exact h.lt x
  | reverse x =>
    obtain rfl := Option.some.inj hk
    obtain ⟨a', ha', hh'⟩ := (h.holds x).reverse
    refine ⟨s.set x a', by rw [State.step, ha']; rfl, h.set ?_ ?_⟩
    · rwa [List.map_reverse]
    · rw [List.length_reverse]
      exact h.lt x

theorem Refines.run (hm : moves = true → Moves overlap) {ops : List (Op T)} (h : Refines s k)
    (hk : k.run moves ops = some k') : ∃ s', s.run overlap ops = some s' ∧ Refines s' k' := by
  induction ops generalizing s k with
  | nil => exact ⟨s, rfl, Option.some.inj hk ▸ h⟩
  | cons op ops hi =>
    rw [Lists.run, List.foldlM_cons] at hk
    obtain ⟨k₁, hk₁, hk⟩ := Option.bind_eq_some_iff.mp hk
    obtain ⟨s₁, hs₁, h₁⟩ := h.step hm hk₁
    obtain ⟨s', hs', h'⟩ := hi h₁ hk
    refine ⟨s', ?_, h'⟩
    rw [State.run, List.foldlM_cons, hs₁]
    exact hs'

end run

end Compiler.Root.Arrays
