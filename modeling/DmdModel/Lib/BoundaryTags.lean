import Mathlib

-- A row of pages that is tiled by blocks and maximal free runs. Each page has a tag and an offset.
-- The first page of a block stores its length, the others how far back the first one is. A free run
-- stores its length in its first and last page.

namespace BoundaryTags

inductive Tag
  | head
  | body
  | free
  deriving DecidableEq, Repr

structure Block (tag : Nat → Tag) (off : Nat → Nat) (s l : Nat) : Prop where
  pos  : 0 < l
  head : tag s = .head
  size : off s = l
  body : ∀ p, 0 < p → p < l → tag (s + p) = .body ∧ off (s + p) = p

structure FreeRun (tag : Nat → Tag) (off : Nat → Nat) (s l : Nat) : Prop where
  pos   : 0 < l
  free  : ∀ p < l, tag (s + p) = .free
  first : off s = l
  last  : off (s + l - 1) = l

inductive Tiles (tag : Nat → Tag) (off : Nat → Nat) : Nat → Nat → Prop
  | done (a : Nat) : Tiles tag off a a
  | block {s l b : Nat} (block : Block tag off s l) (rest : Tiles tag off (s + l) b) :
    Tiles tag off s b
  | free {s l b : Nat} (run : FreeRun tag off s l) (maximal : s + l < b → tag (s + l) ≠ .free)
    (rest : Tiles tag off (s + l) b) : Tiles tag off s b

variable {tag tag' : Nat → Tag} {off off' : Nat → Nat} {a b i l m s : Nat}

theorem Block.congr (h : Block tag off s l)
    (hc : ∀ i, s ≤ i → i < s + l → tag' i = tag i ∧ off' i = off i) : Block tag' off' s l where
  pos    := h.pos
  head   := (hc s (Nat.le_refl s) (Nat.lt_add_of_pos_right h.pos)).1.trans h.head
  size   := (hc s (Nat.le_refl s) (Nat.lt_add_of_pos_right h.pos)).2.trans h.size
  body p hp hl := by
    have hi := hc (s + p) (by omega) (by omega)
    exact ⟨hi.1.trans (h.body p hp hl).1, hi.2.trans (h.body p hp hl).2⟩

theorem FreeRun.congr (h : FreeRun tag off s l)
    (hc : ∀ i, s ≤ i → i < s + l → tag' i = tag i ∧ off' i = off i) : FreeRun tag' off' s l := by
  have hp := h.pos
  constructor
  case pos => exact hp
  case free => exact fun p hp => (hc (s + p) (by omega) (by omega)).1.trans (h.free p hp)
  case first => exact (hc s (by omega) (by omega)).2.trans h.first
  case last => exact (hc (s + l - 1) (by omega) (by omega)).2.trans h.last

theorem Block.ne_free (h : Block tag off s l) (hs : s ≤ i) (hl : i < s + l) : tag i ≠ .free := by
  by_cases he : s = i
  case pos => simp [← he, h.head]
  case neg =>
    have hb := (h.body (i - s) (by omega) (by omega)).1
    rw [show s + (i - s) = i by omega] at hb
    simp [hb]

-- Two blocks with a page in common are the same.
theorem Block.eq_of_mem {s' l' : Nat} (h : Block tag off s l) (h' : Block tag off s' l')
    (hs : s ≤ i) (hl : i < s + l) (hs' : s' ≤ i) (hl' : i < s' + l') : s = s' := by
  by_cases he : s = i
  case pos =>
    by_cases he' : s' = i
    case pos => omega
    case neg =>
      have hb := (h'.body (i - s') (by omega) (by omega)).1
      rw [show s' + (i - s') = s by omega, h.head] at hb
      cases hb
  case neg =>
    have hb := h.body (i - s) (by omega) (by omega)
    rw [show s + (i - s) = i by omega] at hb
    by_cases he' : s' = i
    case pos =>
      rw [← he', h'.head] at hb
      cases hb.1
    case neg =>
      have hb' := (h'.body (i - s') (by omega) (by omega)).2
      rw [show s' + (i - s') = i by omega] at hb'
      omega

theorem FreeRun.tag_eq (h : FreeRun tag off s l) (hs : s ≤ i) (hl : i < s + l) : tag i = .free := by
  have hf := h.free (i - s) (by omega)
  rwa [show s + (i - s) = i by omega] at hf

namespace Tiles

theorem le (h : Tiles tag off a b) : a ≤ b := by
  induction h with
  | done => exact Nat.le_refl _
  | block _ _ hi => omega
  | free _ _ _ hi => omega

theorem congr (h : Tiles tag off a b)
    (hc : ∀ i, a ≤ i → i < b → tag' i = tag i ∧ off' i = off i) : Tiles tag' off' a b := by
  induction h with
  | done => exact .done _
  | @block s l b block rest hi =>
    have hle := rest.le
    refine .block (block.congr fun i hs hl => hc i hs (by omega)) ?_
    exact hi fun i hs hl => hc i (by omega) hl
  | @free s l b run maximal rest hi =>
    have hle := rest.le
    refine .free (run.congr fun i hs hl => hc i hs (by omega)) (fun hlt => ?_) ?_
    · exact (hc _ (by omega) hlt).1 ▸ maximal hlt
    · exact hi fun i hs hl => hc i (by omega) hl

theorem tag_ne_body (h : Tiles tag off a b) (hlt : a < b) : tag a ≠ .body := by
  cases h with
  | done => omega
  | block block => simp [block.head]
  | free run =>
    have hf := run.free 0 run.pos
    rw [Nat.add_zero] at hf
    simp [hf]

-- Two tilings side by side are one, if they do not meet in free pages.
theorem append (h : Tiles tag off a m) (h' : Tiles tag off m b)
    (hm : a < m → m < b → tag (m - 1) = .free → tag m ≠ .free) : Tiles tag off a b := by
  induction h with
  | done => exact h'
  | @block s l m block rest hi =>
    have hle := rest.le
    refine .block block (hi h' fun hlt hb hf => hm (by omega) hb hf)
  | @free s l m run maximal rest hi =>
    have hle := rest.le
    have hp := run.pos
    refine .free run (fun hlt => ?_) (hi h' fun hlt hb hf => hm (by omega) hb hf)
    by_cases he : s + l = m
    case neg => exact maximal (by omega)
    case pos =>
      have hf := run.free (l - 1) (by omega)
      have hs : s + (l - 1) = m - 1 := by omega
      exact he ▸ hm (by omega) (by omega) (hs ▸ hf)

-- What is known about a piece of a tiling.
inductive Piece (tag : Nat → Tag) (off : Nat → Nat) (a b s l : Nat) : Prop
  | block (block : Block tag off s l)
  | free (run : FreeRun tag off s l) (left : a < s → tag (s - 1) ≠ .free)
    (right : s + l < b → tag (s + l) ≠ .free)

-- Every page lies in one piece, and the pages before and after the piece are tiled.
theorem locate (h : Tiles tag off a b) (ha : a ≤ i) (hb : i < b) :
    ∃ s l, s ≤ i ∧ i < s + l ∧ Tiles tag off a s ∧ Tiles tag off (s + l) b ∧
      Piece tag off a b s l := by
  induction h with
  | done => omega
  | @block s l b block rest hi =>
    by_cases hl : i < s + l
    case pos => exact ⟨s, l, ha, hl, .done s, rest, .block block⟩
    case neg =>
      obtain ⟨s', l', hs, hl', hl₁, hl₂, hp⟩ := hi (by omega) hb
      refine ⟨s', l', hs, hl', .block block hl₁, hl₂, ?_⟩
      cases hp with
      | block block' => exact .block block'
      | free run left right =>
        refine .free run (fun _ => ?_) right
        by_cases he : s + l < s'
        case pos => exact left he
        case neg =>
          have hle := hl₁.le
          have he : s' = s + l := by omega
          exact he ▸ block.ne_free (by have := block.pos; omega) (by have := block.pos; omega)
  | @free s l b run maximal rest hi =>
    by_cases hl : i < s + l
    case pos => exact ⟨s, l, ha, hl, .done s, rest, .free run (fun h => by omega) maximal⟩
    case neg =>
      obtain ⟨s', l', hs, hl', hl₁, hl₂, hp⟩ := hi (by omega) hb
      refine ⟨s', l', hs, hl', .free run (fun h => maximal (by have := hl₂.le; omega)) hl₁, hl₂, ?_⟩
      cases hp with
      | block block' => exact .block block'
      | free run' left right =>
        refine .free run' (fun _ => ?_) right
        by_cases he : s + l < s'
        case pos => exact left he
        case neg =>
          -- the run would go on in the next piece
          have hle := hl₁.le
          have he : s' = s + l := by omega
          have hf := run'.free 0 run'.pos
          rw [Nat.add_zero, he] at hf
          have hle' := hl₂.le
          exact absurd hf (maximal (by omega))

-- The first page of a block leads to the whole block.
theorem of_head (h : Tiles tag off a b) (ha : a ≤ i) (hb : i < b) (ht : tag i = .head) :
    Block tag off i (off i) ∧ Tiles tag off a i ∧ Tiles tag off (i + off i) b := by
  obtain ⟨s, l, hs, hl, hl₁, hl₂, hp⟩ := h.locate ha hb
  have hi : s + (i - s) = i := by omega
  cases hp with
  | free run =>
    have hf := run.free (i - s) (by omega)
    rw [hi, ht] at hf
    cases hf
  | block block =>
    by_cases he : s = i
    case pos =>
      subst he
      rw [block.size]
      exact ⟨block, hl₁, hl₂⟩
    case neg =>
      have hb := (block.body (i - s) (by omega) (by omega)).1
      rw [hi, ht] at hb
      cases hb

-- Any other page of a block leads back to its first page.
theorem of_body (h : Tiles tag off a b) (ha : a ≤ i) (hb : i < b) (ht : tag i = .body) :
    ∃ s l, Block tag off s l ∧ a ≤ s ∧ s < i ∧ i < s + l ∧ off i = i - s ∧
      Tiles tag off a s ∧ Tiles tag off (s + l) b := by
  obtain ⟨s, l, hs, hl, hl₁, hl₂, hp⟩ := h.locate ha hb
  have hi : s + (i - s) = i := by omega
  cases hp with
  | free run =>
    have hf := run.free (i - s) (by omega)
    rw [hi, ht] at hf
    cases hf
  | block block =>
    by_cases he : s = i
    case pos =>
      have hh := block.head
      rw [he, ht] at hh
      cases hh
    case neg =>
      have hb := (block.body (i - s) (by omega) (by omega)).2
      rw [hi] at hb
      exact ⟨s, l, block, hl₁.le, by omega, hl, hb, hl₁, hl₂⟩

-- A free page whose left neighbour is not free is the first page of its run.
theorem of_free_left (h : Tiles tag off a b) (ha : a ≤ i) (hb : i < b) (ht : tag i = .free)
    (hn : a < i → tag (i - 1) ≠ .free) :
    FreeRun tag off i (off i) ∧ (i + off i < b → tag (i + off i) ≠ .free) ∧
      Tiles tag off a i ∧ Tiles tag off (i + off i) b := by
  obtain ⟨s, l, hs, hl, hl₁, hl₂, hp⟩ := h.locate ha hb
  have hi : s + (i - s) = i := by omega
  cases hp with
  | block block =>
    by_cases he : s = i
    case pos =>
      have hh := block.head
      rw [he, ht] at hh
      cases hh
    case neg =>
      have hb := (block.body (i - s) (by omega) (by omega)).1
      rw [hi, ht] at hb
      cases hb
  | free run left right =>
    by_cases he : s = i
    case pos =>
      subst he
      rw [run.first]
      exact ⟨run, right, hl₁, hl₂⟩
    case neg =>
      have hle := hl₁.le
      have hf := run.free (i - 1 - s) (by omega)
      have hi : s + (i - 1 - s) = i - 1 := by omega
      exact absurd (hi ▸ hf) (hn (by omega))

-- A free page whose right neighbour is not free is the last page of its run.
theorem of_free_right (h : Tiles tag off a b) (ha : a ≤ i) (hb : i < b) (ht : tag i = .free)
    (hn : i + 1 < b → tag (i + 1) ≠ .free) :
    off i ≤ i + 1 - a ∧ FreeRun tag off (i + 1 - off i) (off i) ∧
      (a < i + 1 - off i → tag (i + 1 - off i - 1) ≠ .free) ∧
      Tiles tag off a (i + 1 - off i) ∧ Tiles tag off (i + 1) b := by
  obtain ⟨s, l, hs, hl, hl₁, hl₂, hp⟩ := h.locate ha hb
  have hi : s + (i - s) = i := by omega
  have hle := hl₁.le
  have hle' := hl₂.le
  cases hp with
  | block block =>
    by_cases he : s = i
    case pos =>
      have hh := block.head
      rw [he, ht] at hh
      cases hh
    case neg =>
      have hb := (block.body (i - s) (by omega) (by omega)).1
      rw [hi, ht] at hb
      cases hb
  | free run left right =>
    by_cases he : s + l = i + 1
    case pos =>
      have hlast : off i = l := by
        have := run.last
        rwa [he] at this
      have hs : i + 1 - l = s := by omega
      rw [hlast, hs]
      exact ⟨by omega, run, left, hl₁, he ▸ hl₂⟩
    case neg =>
      have hf := run.free (i + 1 - s) (by omega)
      have hi : s + (i + 1 - s) = i + 1 := by omega
      exact absurd (hi ▸ hf) (hn (by omega))

-- A gap of free pages, which can be empty, before a tiled row.
theorem cons_gap {e : Nat} (hse : s ≤ e) (hf : ∀ i, s ≤ i → i < e → tag i = .free)
    (ho : s < e → off s = e - s ∧ off (e - 1) = e - s) (hn : s < e → e < b → tag e ≠ .free)
    (h : Tiles tag off e b) : Tiles tag off s b := by
  cases Nat.eq_or_lt_of_le hse with
  | inl he => exact he ▸ h
  | inr hlt =>
    have hl : s + (e - s) = e := by omega
    have hrun : FreeRun tag off s (e - s) := by
      constructor
      case pos => omega
      case free => exact fun p hp => hf (s + p) (by omega) (by omega)
      case first => exact (ho hlt).1
      case last => exact hl.symm ▸ (ho hlt).2
    exact .free hrun (hl.symm ▸ hn hlt) (hl.symm ▸ h)

end Tiles

-- Where the run begins that results from freeing the pages from `s` on.
def mergeLeft (tag : Nat → Tag) (off : Nat → Nat) (a s : Nat) : Nat :=
  if a < s ∧ tag (s - 1) = .free then s - off (s - 1) else s

-- Where the run ends that results from freeing the pages up to `e`.
def mergeRight (tag : Nat → Tag) (off : Nat → Nat) (e b : Nat) : Nat :=
  if e < b ∧ tag e = .free then e + off e else e

theorem Tiles.mergeLeft (h : Tiles tag off a s) :
    a ≤ mergeLeft tag off a s ∧ mergeLeft tag off a s ≤ s ∧
      Tiles tag off a (mergeLeft tag off a s) ∧
      (a < mergeLeft tag off a s → tag (mergeLeft tag off a s - 1) ≠ .free) ∧
      ∀ i, mergeLeft tag off a s ≤ i → i < s → tag i = .free := by
  rw [BoundaryTags.mergeLeft]
  split
  case isTrue hc =>
    have hi : s - 1 + 1 = s := by omega
    obtain ⟨hle, run, hn, hl, _⟩ := h.of_free_right (by omega) (by omega) hc.2 (by omega)
    rw [hi] at hle run hn hl
    refine ⟨by omega, by omega, hl, hn, fun i hi hs => ?_⟩
    have hf := run.free (i - (s - off (s - 1))) (by omega)
    have hi : s - off (s - 1) + (i - (s - off (s - 1))) = i := by omega
    exact hi ▸ hf
  case isFalse hc =>
    exact ⟨h.le, Nat.le_refl _, h, fun hlt hf => hc ⟨hlt, hf⟩, fun i _ _ => by omega⟩

theorem Tiles.mergeRight {e : Nat} (h : Tiles tag off e b) :
    e ≤ mergeRight tag off e b ∧ mergeRight tag off e b ≤ b ∧
      Tiles tag off (mergeRight tag off e b) b ∧
      (mergeRight tag off e b < b → tag (mergeRight tag off e b) ≠ .free) ∧
      ∀ i, e ≤ i → i < mergeRight tag off e b → tag i = .free := by
  rw [BoundaryTags.mergeRight]
  split
  case isTrue hc =>
    obtain ⟨run, hn, _, hr⟩ := h.of_free_left (Nat.le_refl e) hc.1 hc.2 (by omega)
    refine ⟨by omega, hr.le, hr, hn, fun i he hi => ?_⟩
    have hf := run.free (i - e) (by omega)
    have hi : e + (i - e) = i := by omega
    exact hi ▸ hf
  case isFalse hc =>
    exact ⟨Nat.le_refl _, h.le, h, fun hlt hf => hc ⟨hlt, hf⟩, fun i _ _ => by omega⟩

-- Freeing the pages between two tiled rows, and storing the length at both ends of the run that
-- results.
theorem Tiles.release {e s' e' : Nat} (hl : Tiles tag off a s) (hr : Tiles tag off e b) (hse : s < e)
    (hs : s' = BoundaryTags.mergeLeft tag off a s) (he : e' = BoundaryTags.mergeRight tag off e b)
    (htag : ∀ i, a ≤ i → i < b → tag' i = if s ≤ i ∧ i < e then .free else tag i)
    (hoff : ∀ i, a ≤ i → i < b → i < s ∨ e ≤ i → i ≠ s' → i ≠ e' - 1 → off' i = off i)
    (hfirst : off' s' = e' - s') (hlast : off' (e' - 1) = e' - s') :
    Tiles tag' off' a b ∧ FreeRun tag' off' s' (e' - s') ∧ a ≤ s' ∧ s' ≤ s ∧ e ≤ e' ∧ e' ≤ b := by
  obtain ⟨has, hss, hlt, hln, hlf⟩ := hl.mergeLeft
  obtain ⟨hee, heb, hrt, hrn, hrf⟩ := hr.mergeRight
  rw [← hs] at has hss hlt hln hlf
  rw [← he] at hee heb hrt hrn hrf
  have hlen : s' + (e' - s') = e' := by omega
  have hrun : FreeRun tag' off' s' (e' - s') := by
    constructor
    case pos => omega
    case first => exact hfirst
    case last => exact hlen.symm ▸ hlast
    case free =>
      intro p hp
      rw [htag (s' + p) (by omega) (by omega)]
      split
      case isTrue => rfl
      case isFalse hc =>
        by_cases hp' : s' + p < s
        case pos => exact hlf _ (by omega) hp'
        case neg => exact hrf _ (by omega) (by omega)
  have hleft : Tiles tag' off' a s' := by
    refine hlt.congr fun i hi hi' => ⟨?_, hoff i hi (by omega) (by omega) (by omega) (by omega)⟩
    rw [htag i hi (by omega), if_neg (by omega)]
  have hright : Tiles tag' off' e' b := by
    refine hrt.congr fun i hi hi' => ⟨?_, hoff i (by omega) hi' (by omega) (by omega) (by omega)⟩
    rw [htag i (by omega) hi', if_neg (by omega)]
  have hmid : Tiles tag' off' s' b := by
    refine .free hrun (fun hlt => ?_) (hlen.symm ▸ hright)
    rw [hlen] at hlt ⊢
    rw [htag e' (by omega) hlt, if_neg (by omega)]
    exact hrn hlt
  refine ⟨hleft.append hmid fun hlt _ hf => ?_, hrun, has, hss, hee, heb⟩
  rw [htag (s' - 1) (by omega) (by omega), if_neg (by omega)] at hf
  exact absurd hf (hln hlt)

-- Taking the pages of a block out of a free run.
theorem Tiles.carve {n q : Nat} (hl : Tiles tag off a i) (run : FreeRun tag off i l)
    (hr : Tiles tag off (i + l) b) (left : a < i → tag (i - 1) ≠ .free)
    (right : i + l < b → tag (i + l) ≠ .free) (hq : i ≤ q) (hn : 0 < n) (hqn : q + n ≤ i + l)
    (htag : ∀ j, a ≤ j → j < b →
      tag' j = if j = q then .head else if q < j ∧ j < q + n then .body else tag j)
    (hoff : ∀ j, a ≤ j → j < b → j < i ∨ i + l ≤ j → off' j = off j)
    (hhead : off' q = n) (hbody : ∀ p, 0 < p → p < n → off' (q + p) = p)
    (hpre : i < q → off' i = q - i ∧ off' (q - 1) = q - i)
    (hpost : q + n < i + l → off' (q + n) = i + l - (q + n) ∧ off' (i + l - 1) = i + l - (q + n)) :
    Tiles tag' off' a b ∧ Block tag' off' q n := by
  have hai := hl.le
  have hib := hr.le
  have hfree : ∀ j, i ≤ j → j < i + l → tag j = .free := by
    intro j hj hj'
    have hf := run.free (j - i) (by omega)
    have he : i + (j - i) = j := by omega
    exact he ▸ hf
  have hblock : Block tag' off' q n := by
    constructor
    case pos => exact hn
    case head => rw [htag q (by omega) (by omega), if_pos rfl]
    case size => exact hhead
    case body =>
      intro p hp hp'
      refine ⟨?_, hbody p hp hp'⟩
      rw [htag (q + p) (by omega) (by omega), if_neg (by omega), if_pos (by omega)]
  have hright : Tiles tag' off' (i + l) b := by
    refine hr.congr fun j hj hj' => ⟨?_, hoff j (by omega) hj' (by omega)⟩
    rw [htag j (by omega) hj', if_neg (by omega), if_neg (by omega)]
  have hleft : Tiles tag' off' a i := by
    refine hl.congr fun j hj hj' => ⟨?_, hoff j hj (by omega) (by omega)⟩
    rw [htag j hj (by omega), if_neg (by omega), if_neg (by omega)]
  have hrest : Tiles tag' off' (q + n) b := by
    refine cons_gap hqn (fun j hj hj' => ?_) hpost (fun _ hb => ?_) hright
    · rw [htag j (by omega) (by omega), if_neg (by omega), if_neg (by omega)]
      exact hfree j (by omega) hj'
    · rw [htag (i + l) (by omega) hb, if_neg (by omega), if_neg (by omega)]
      exact right hb
  have hmid : Tiles tag' off' i b := by
    refine cons_gap hq (fun j hj hj' => ?_) hpre (fun _ _ => ?_) (.block hblock hrest)
    · rw [htag j (by omega) (by omega), if_neg (by omega), if_neg (by omega)]
      exact hfree j hj (by omega)
    · simp [hblock.head]
  refine ⟨hleft.append hmid fun hlt _ hf => ?_, hblock⟩
  rw [htag (i - 1) (by omega) (by omega), if_neg (by omega), if_neg (by omega)] at hf
  exact absurd hf (left hlt)

-- A block that grows into the free run behind it.
theorem Tiles.grow {k : Nat} (hl : Tiles tag off a s) (block : Block tag off s l)
    (run : FreeRun tag off (s + l) m) (hr : Tiles tag off (s + l + m) b)
    (right : s + l + m < b → tag (s + l + m) ≠ .free) (hk : k ≤ m)
    (htag : ∀ j, a ≤ j → j < b → tag' j = if s + l ≤ j ∧ j < s + l + k then .body else tag j)
    (hoff : ∀ j, a ≤ j → j < b → j ≠ s → j < s + l ∨ s + l + m ≤ j → off' j = off j)
    (hsize : off' s = l + k) (hbody : ∀ p, l ≤ p → p < l + k → off' (s + p) = p)
    (hpost : k < m → off' (s + l + k) = m - k ∧ off' (s + l + m - 1) = m - k) :
    Tiles tag' off' a b ∧ Block tag' off' s (l + k) := by
  have has := hl.le
  have hib := hr.le
  have hp := block.pos
  have hblock : Block tag' off' s (l + k) := by
    constructor
    case pos => omega
    case head => rw [htag s (by omega) (by omega), if_neg (by omega), block.head]
    case size => exact hsize
    case body =>
      intro p hp hp'
      by_cases hpl : p < l
      case pos =>
        rw [htag (s + p) (by omega) (by omega), if_neg (by omega),
          hoff (s + p) (by omega) (by omega) (by omega) (by omega)]
        exact block.body p hp hpl
      case neg =>
        refine ⟨?_, hbody p (by omega) hp'⟩
        rw [htag (s + p) (by omega) (by omega), if_pos (by omega)]
  have hright : Tiles tag' off' (s + l + m) b := by
    refine hr.congr fun j hj hj' => ⟨?_, hoff j (by omega) hj' (by omega) (by omega)⟩
    rw [htag j (by omega) hj', if_neg (by omega)]
  have hleft : Tiles tag' off' a s := by
    refine hl.congr fun j hj hj' => ⟨?_, hoff j hj (by omega) (by omega) (by omega)⟩
    rw [htag j hj (by omega), if_neg (by omega)]
  have hrest : Tiles tag' off' (s + (l + k)) b := by
    rw [← Nat.add_assoc]
    refine cons_gap (e := s + l + m) (by omega) (fun j hj hj' => ?_) (fun hlt => ?_) (fun _ hb => ?_)
      hright
    · rw [htag j (by omega) (by omega), if_neg (by omega)]
      have hf := run.free (j - (s + l)) (by omega)
      have he : s + l + (j - (s + l)) = j := by omega
      exact he ▸ hf
    · have hd : s + l + m - (s + l + k) = m - k := by omega
      exact hd ▸ hpost (by omega)
    · rw [htag (s + l + m) (by omega) hb, if_neg (by omega)]
      exact right hb
  refine ⟨hleft.append (.block hblock hrest) fun _ _ _ => ?_, hblock⟩
  simp [hblock.head]

-- A block that gives up its last pages.
theorem Tiles.shrink {e k : Nat} (hl : Tiles tag off a s) (block : Block tag off s l)
    (hr : Tiles tag off (s + l) b) (he : e = BoundaryTags.mergeRight tag off (s + l) b)
    (hk : 0 < k) (hkl : k < l)
    (htag : ∀ j, a ≤ j → j < b → tag' j = if s + k ≤ j ∧ j < s + l then .free else tag j)
    (hoff : ∀ j, a ≤ j → j < b → j ≠ s → j ≠ e - 1 → j < s + k ∨ s + l ≤ j → off' j = off j)
    (hsize : off' s = k) (hfirst : off' (s + k) = e - (s + k)) (hlast : off' (e - 1) = e - (s + k)) :
    Tiles tag' off' a b ∧ Block tag' off' s k ∧ s + l ≤ e ∧ e ≤ b := by
  have has := hl.le
  obtain ⟨hee, heb, hrt, hrn, hrf⟩ := hr.mergeRight
  rw [← he] at hee heb hrt hrn hrf
  have hblock : Block tag' off' s k := by
    constructor
    case pos => exact hk
    case head => rw [htag s (by omega) (by omega), if_neg (by omega), block.head]
    case size => exact hsize
    case body =>
      intro p hp hp'
      rw [htag (s + p) (by omega) (by omega), if_neg (by omega),
        hoff (s + p) (by omega) (by omega) (by omega) (by omega) (by omega)]
      exact block.body p hp (by omega)
  have hright : Tiles tag' off' e b := by
    refine hrt.congr fun j hj hj' => ⟨?_, hoff j (by omega) hj' (by omega) (by omega) (by omega)⟩
    rw [htag j (by omega) hj', if_neg (by omega)]
  have hleft : Tiles tag' off' a s := by
    refine hl.congr fun j hj hj' => ⟨?_, hoff j hj (by omega) (by omega) (by omega) (by omega)⟩
    rw [htag j hj (by omega), if_neg (by omega)]
  have hrest : Tiles tag' off' (s + k) b := by
    refine cons_gap (by omega) (fun j hj hj' => ?_) (fun _ => ⟨hfirst, hlast⟩) (fun _ hb => ?_) hright
    · rw [htag j (by omega) (by omega)]
      split
      case isTrue => rfl
      case isFalse => exact hrf j (by omega) hj'
    · rw [htag e (by omega) hb, if_neg (by omega)]
      exact hrn hb
  refine ⟨hleft.append (.block hblock hrest) fun _ _ _ => ?_, hblock, hee, heb⟩
  simp [hblock.head]

-- The number of free pages below `n`.
def freeCount (tag : Nat → Tag) (n : Nat) : Nat :=
  Nat.count (fun i => tag i = .free) n

theorem freeCount_succ (n : Nat) :
    freeCount tag (n + 1) = freeCount tag n + if tag n = .free then 1 else 0 :=
  Nat.count_succ ..

-- Taking a range of free pages.
theorem freeCount_take {n : Nat} (hn : s + l ≤ n) (hf : ∀ i, s ≤ i → i < s + l → tag i = .free)
    (ht : ∀ i, s ≤ i → i < s + l → tag' i ≠ .free)
    (hc : ∀ i < n, i < s ∨ s + l ≤ i → tag' i = tag i) : freeCount tag' n + l = freeCount tag n := by
  have h : ∀ m ≤ n, freeCount tag' m + min (m - s) l = freeCount tag m := by
    intro m hm
    induction m with
    | zero => simp [freeCount]
    | succ m hi =>
      have hi := hi (by omega)
      rw [freeCount_succ, freeCount_succ]
      by_cases hr : s ≤ m ∧ m < s + l
      case pos =>
        rw [if_pos (hf m hr.1 hr.2), if_neg (ht m hr.1 hr.2)]
        omega
      case neg =>
        rw [hc m (by omega) (by omega)]
        omega
  have := h n (Nat.le_refl n)
  omega

theorem freeCount_congr {n : Nat} (h : ∀ i < n, tag' i = tag i) :
    freeCount tag' n = freeCount tag n :=
  @freeCount_take tag tag' 0 0 n (by omega) (fun i _ _ => by omega) (fun i _ _ => by omega)
    fun i hi _ => h i hi

-- The free pages of a range are at most all free pages.
theorem le_freeCount {n : Nat} (hn : s + l ≤ n) (hf : ∀ i, s ≤ i → i < s + l → tag i = .free) :
    l ≤ freeCount tag n := by
  let tag' i := if s ≤ i ∧ i < s + l then Tag.head else tag i
  have h := @freeCount_take tag tag' l s n hn hf (fun i hs hl => by simp [tag', hs, hl])
    fun i _ hi => if_neg (by omega)
  omega

end BoundaryTags
