import DmdModel.Compiler.Backend.Theorems.Compdfo

namespace Compiler.Backend.BlockOpt

open DepthFirst Dominators Relation

variable {n : Nat} {bo bo' : BlockOpt n} {b x head tail start : Nat} {dfo preds : List Nat}
variable {Bdom : Nat → Finset Nat} {v Lloop : Finset Nat} {loops loops' : List Loop} {lp : Loop}

-- An edge whose target dominates its source.
def BackEdge (bo : BlockOpt n) (start tail head : Nat) : Prop :=
  tail ∈ bo.list ∧ bo.Edge tail head ∧ Dominates bo.Edge start head tail

-- The head of a back edge, and the blocks from which there is a path to the tail that does not go through
-- the head.
def naturalLoop (bo : BlockOpt n) (head tail : Nat) : Set Nat :=
  {x | x ∈ bo.list ∧ (x = head ∨ ∃ path, Path bo.Edge x tail path ∧ head ∉ path)}

section insert

-- Marks the blocks of a loop.
def loopMarking (bo : BlockOpt n) : Marking (Finset Nat) Nat where
  next _ b    := (bo.block b).Bpred
  visited v b := b ∈ v
  enter b v   := insert b v
  leave _ v   := v

theorem loopMarking_lawful : Lawful bo.loopMarking where
  next_enter _ _        := rfl
  next_leave _ _        := rfl
  visited_enter b v c   := by simp [loopMarking]
  visited_leave _ _ _   := Iff.rfl

theorem insert_eq {depth : Nat} : buildloop.insert bo depth b v =
    if bo.loopMarking.visited v b then some v else bo.loopMarking.walk depth b v := by
  induction depth generalizing b v with
  | zero => simp [buildloop.insert, Marking.walk, loopMarking]
  | succ depth ih =>
    rw [buildloop.insert, Marking.walk]
    simp only [ih]
    by_cases hb : b ∈ v
    case pos => simp [hb, loopMarking]
    case neg => simp [hb, loopMarking]

-- The walk from the tail comes to the blocks of the loop.
theorem Connected.leads_iff (hc : bo.Connected) (ht : tail ∈ bo.list) :
    (tail ≠ head ∧ Discovers (fun b => (bo.block b).Bpred) {head} tail x) ↔
      x ∈ bo.list ∧ ∃ path, Path bo.Edge x tail path ∧ head ∉ path := by
  constructor
  case mp =>
    rintro ⟨hne, hl⟩
    induction hl with
    | refl => exact ⟨ht, [tail], .singleton, by simpa using hne.symm⟩
    | tail _ he ih =>
      obtain ⟨hy, path, hp, hhead⟩ := ih
      obtain ⟨hx, he'⟩ := (hc.preds _ hy _).mp he.left
      refine ⟨hx, _, hp.cons he', ?_⟩
      exact fun h => (List.mem_cons.mp h).elim (fun h => he.right h.symm) hhead
  case mpr =>
    rintro ⟨hx, path, hp, hhead⟩
    induction path generalizing x with
    | nil => cases hp.head
    | cons y path ih =>
      obtain rfl : y = x := Option.some.inj hp.head
      obtain ⟨hxhead, hhead⟩ := not_or.mp (List.mem_cons.not.mp hhead)
      cases path with
      | nil =>
        obtain rfl : y = tail := Option.some.inj hp.last
        exact ⟨fun h => hxhead h.symm, .refl⟩
      | cons z path =>
        obtain ⟨he, hchain⟩ := List.isChain_cons_cons.mp hp.chain
        have hz := hc.closed hx he
        have hlast := hp.last
        rw [List.getLast?_cons_cons] at hlast
        obtain ⟨hne, hl⟩ := ih hz ⟨rfl, hlast, hchain⟩ hhead
        exact ⟨hne, hl.tail ⟨(hc.preds z hz y).mpr ⟨hx, he⟩, fun h => hxhead h.symm⟩⟩

theorem Connected.exists_insert (hc : bo.Connected) (hd : ∀ b, b ∈ dfo ↔ b ∈ bo.list)
    (hh : head ∈ bo.list) (ht : tail ∈ bo.list) : ∃ v,
    buildloop.insert bo dfo.length tail {head} = some v ∧ ∀ x, x ∈ v ↔ x ∈ bo.naturalLoop head tail := by
  rw [insert_eq]
  by_cases hth : tail = head
  case pos =>
    refine ⟨{head}, by simp [hth, loopMarking], fun x => ?_⟩
    rw [Finset.mem_singleton, naturalLoop, Set.mem_ofPred_eq]
    constructor
    case mp =>
      rintro rfl
      exact ⟨hh, .inl rfl⟩
    case mpr =>
      rintro ⟨-, rfl | ⟨path, hp, hhead⟩⟩
      case inl => rfl
      case inr => exact absurd (hth ▸ List.mem_of_getLast? hp.last) hhead
  case neg =>
    have hvisited (c : Nat) : bo.loopMarking.visited {head} c ↔ c = head := by simp [loopMarking]
    have hclosed : ∀ x ∈ dfo.toFinset, ∀ y ∈ bo.loopMarking.next {head} x, y ∈ dfo.toFinset := by
      intro x hx y hy
      rw [List.mem_toFinset, hd] at hx ⊢
      exact ((hc.preds x hx y).mp hy).left
    have hcard : (bo.loopMarking.unvisited dfo.toFinset {head}).card ≤ dfo.length :=
      (Finset.card_filter_le _ _).trans dfo.toFinset_card_le
    have htv : ¬bo.loopMarking.visited {head} tail := fun h => hth ((hvisited tail).mp h)
    obtain ⟨v, order, hv, hw⟩ := Marking.exists_walk loopMarking_lawful hclosed hcard
      (List.mem_toFinset.mpr ((hd tail).mpr ht)) htv
    have hmarked : bo.loopMarking.marked {head} = {head} := Set.ext hvisited
    refine ⟨v, by rw [if_neg htv, hv], fun x => ?_⟩
    have hx : x ∈ v ↔ x ∈ bo.loopMarking.marked v := by simp [Marking.marked, loopMarking]
    have hpost := hw.postorder.mem_iff (c := x) htv
    rw [hmarked] at hpost
    have hnatural : Discovers (fun b => (bo.block b).Bpred) {head} tail x ↔ _ :=
      (and_iff_right hth).symm.trans (hc.leads_iff ht)
    rw [hx, hw.marked, hmarked, naturalLoop, Set.mem_ofPred_eq, and_or_left]
    exact or_congr ⟨fun hxh => ⟨hxh ▸ hh, hxh⟩, And.right⟩ (hpost.trans hnatural)

end insert

section findPreheader

variable {p q : Nat}

theorem findPreheader_some : bo.findPreheader Lloop preds (some q) = some p ↔
    p = q ∧ preds.filter (· ∉ Lloop) = [] := by
  induction preds with
  | nil => simp [findPreheader, eq_comm]
  | cons b preds ih =>
    rw [findPreheader]
    by_cases hb : b ∈ Lloop
    case pos => simp [hb, ih]
    case neg => simp [hb]

-- The preheader is the only predecessor outside the loop, and has no other successor.
theorem findPreheader_none : bo.findPreheader Lloop preds none = some p ↔
    preds.filter (· ∉ Lloop) = [p] ∧ (bo.block p).Bsucc.length ≤ 1 := by
  induction preds with
  | nil => simp [findPreheader]
  | cons b preds ih =>
    rw [findPreheader]
    by_cases hb : b ∈ Lloop
    case pos => simp [hb, ih]
    case neg =>
      simp only [hb, not_false_eq_true, if_true, List.filter_cons, decide_true, List.cons.injEq]
      split
      case isTrue hlen =>
        refine iff_of_false nofun ?_
        rintro ⟨⟨rfl, -⟩, hlen'⟩
        omega
      case isFalse hlen =>
        rw [findPreheader_some]
        constructor
        case mp =>
          rintro ⟨rfl, hnil⟩
          exact ⟨⟨rfl, hnil⟩, by omega⟩
        case mpr =>
          rintro ⟨⟨rfl, hnil⟩, -⟩
          exact ⟨rfl, hnil⟩

end findPreheader

section buildloop

def heads (loops : List Loop) : List Nat :=
  loops.map Loop.Lhead

-- The loops that are known when there is a loop for each edge from a tail to a head in E.
structure LoopsOf (bo : BlockOpt n) (E : Nat → Nat → Prop) (loops : List Loop) : Prop where
  nodup     : (heads loops).Nodup
  targets   : ∀ h, h ∈ heads loops ↔ ∃ t, E t h
  body      : ∀ l ∈ loops, ∀ x, x ∈ l.Lloop ↔ ∃ t, E t l.Lhead ∧ x ∈ bo.naturalLoop l.Lhead t
  exits     : ∀ l ∈ loops, l.Lexit = bo.findExits l.Lloop
  preheader : ∀ l ∈ loops, l.Lpreheader = bo.findPreheader l.Lloop (bo.block l.Lhead).Bpred none

theorem LoopsOf.nil : bo.LoopsOf (fun _ _ => False) [] where
  nodup     := List.nodup_nil
  targets h := by simp [heads]
  body      := nofun
  exits     := nofun
  preheader := nofun

theorem LoopsOf.congr {E E' : Nat → Nat → Prop} (h : bo.LoopsOf E loops) (hE : ∀ t h, E t h ↔ E' t h) :
    bo.LoopsOf E' loops := by
  obtain rfl : E = E' := funext fun t => funext fun h => propext (hE t h)
  exact h

-- What there is for the head of the new back edge.
theorem buildloop_spec (loops : List Loop) (hv : buildloop.insert bo dfo.length tail {head} = some v) :
    ∃ loops', bo.buildloop dfo head tail loops = some loops' ∧
      heads loops' = (if head ∈ heads loops then heads loops else heads loops ++ [head]) ∧
      ((heads loops).Nodup → ∀ l ∈ loops',
        l ∈ loops ∧ l.Lhead ≠ head ∨
        (∃ lp ∈ loops, lp.Lhead = head ∧ l = bo.completeLoop head lp.Ltail (lp.Lloop ∪ v)) ∨
        head ∉ heads loops ∧ l = bo.completeLoop head tail v) := by
  induction loops with
  | nil =>
    refine ⟨[bo.completeLoop head tail v], by rw [buildloop, hv]; rfl, rfl, fun _ l hl => ?_⟩
    exact .inr (.inr ⟨List.not_mem_nil, List.mem_singleton.mp hl⟩)
  | cons lp loops ih =>
    rw [buildloop]
    by_cases hlp : lp.Lhead = head
    case pos =>
      refine ⟨_, by rw [if_pos hlp, hv]; rfl, ?_, fun hnd l hl => ?_⟩
      case refine_1 => simp [heads, hlp, completeLoop]
      case refine_2 =>
        have hnot := (List.nodup_cons.mp hnd).left
        obtain rfl | hl := List.mem_cons.mp hl
        case inl => exact .inr (.inl ⟨lp, List.mem_cons_self, hlp, rfl⟩)
        case inr =>
          refine .inl ⟨List.mem_cons_of_mem lp hl, fun hlh => hnot ?_⟩
          exact List.mem_map.mpr ⟨l, hl, hlh.trans hlp.symm⟩
    case neg =>
      obtain ⟨loops', hloops', hheads, hall⟩ := ih
      refine ⟨lp :: loops', by rw [if_neg hlp, hloops']; rfl, ?_, fun hnd l hl => ?_⟩
      case refine_1 =>
        have hcons (l : List Loop) : heads (lp :: l) = lp.Lhead :: heads l := rfl
        rw [hcons, hcons, hheads]
        by_cases hmem : head ∈ heads loops
        case pos => simp [hmem]
        case neg => simp [hmem, Ne.symm hlp]
      case refine_2 =>
        obtain rfl | hl := List.mem_cons.mp hl
        case inl => exact .inl ⟨List.mem_cons_self, hlp⟩
        case inr =>
          obtain ⟨hl, hne⟩ | ⟨lq, hlq, h⟩ | ⟨hnot, h⟩ := hall (List.nodup_cons.mp hnd).right l hl
          case inl     => exact .inl ⟨List.mem_cons_of_mem lp hl, hne⟩
          case inr.inl => exact .inr (.inl ⟨lq, List.mem_cons_of_mem lp hlq, h⟩)
          case inr.inr =>
            refine .inr (.inr ⟨fun hmem => ?_, h⟩)
            exact (List.mem_cons.mp hmem).elim (Ne.symm hlp) hnot

variable {E : Nat → Nat → Prop}

-- One more back edge.
theorem LoopsOf.buildloop (h : bo.LoopsOf E loops) (hc : bo.Connected)
    (hd : ∀ b, b ∈ dfo ↔ b ∈ bo.list) (hh : head ∈ bo.list) (ht : tail ∈ bo.list) : ∃ loops',
    bo.buildloop dfo head tail loops = some loops' ∧
      bo.LoopsOf (fun t h => E t h ∨ t = tail ∧ h = head) loops' := by
  obtain ⟨v, hv, hmem⟩ := hc.exists_insert hd hh ht
  obtain ⟨loops', hloops', hheads, hall⟩ := buildloop_spec loops hv
  have hall := hall h.nodup
  have hother {l : Loop} (hl : l.Lhead ≠ head) (t : Nat) :
      E t l.Lhead ∨ t = tail ∧ l.Lhead = head ↔ E t l.Lhead :=
    or_iff_left fun h => hl h.right
  refine ⟨loops', hloops', ?_, fun x => ?_, fun l hl x => ?_, fun l hl => ?_, fun l hl => ?_⟩
  case refine_1 =>
    rw [hheads]
    split
    case isTrue => exact h.nodup
    case isFalse hnot =>
      exact List.nodup_append'.mpr ⟨h.nodup, List.nodup_singleton head, by simpa using hnot⟩
  case refine_2 =>
    have hiff : x ∈ heads loops' ↔ x ∈ heads loops ∨ x = head := by
      rw [hheads]
      split
      case isTrue hmem => exact ⟨.inl, fun hx => hx.elim id fun hx => hx ▸ hmem⟩
      case isFalse     => rw [List.mem_append, List.mem_singleton]
    rw [hiff, h.targets, exists_or]
    simp
  case refine_3 =>
    obtain ⟨hl, hne⟩ | ⟨lp, hlp, hlph, rfl⟩ | ⟨hnot, rfl⟩ := hall l hl
    case inl =>
      simp only [hother hne]
      exact h.body l hl x
    case inr.inl =>
      have hbody := h.body lp hlp x
      rw [hlph] at hbody
      simp only [completeLoop, Finset.mem_union, hbody, hmem, or_and_right, exists_or]
      simp
    case inr.inr =>
      have hnone (t : Nat) : ¬E t head := fun ht => hnot ((h.targets head).mpr ⟨t, ht⟩)
      simp [completeLoop, hmem, hnone]
  case refine_4 =>
    obtain ⟨hl, -⟩ | ⟨lp, -, -, rfl⟩ | ⟨-, rfl⟩ := hall l hl
    case inl     => exact h.exits l hl
    case inr.inl => rfl
    case inr.inr => rfl
  case refine_5 =>
    obtain ⟨hl, -⟩ | ⟨lp, -, -, rfl⟩ | ⟨-, rfl⟩ := hall l hl
    case inl     => exact h.preheader l hl
    case inr.inl => rfl
    case inr.inr => rfl

end buildloop

section findloops

variable {E : Nat → Nat → Prop}

-- The successors of one block.
theorem LoopsOf.succs (Bdom : Nat → Finset Nat) (hc : bo.Connected)
    (hd : ∀ b, b ∈ dfo ↔ b ∈ bo.list) (hb : b ∈ bo.list) (succs : List Nat) : ∀ (E : Nat → Nat → Prop) (loops : List Loop), (∀ s ∈ succs, s ∈ bo.list) →
    bo.LoopsOf E loops → ∃ loops',
      succs.foldlM (fun loops s => if s ∈ Bdom b then bo.buildloop dfo s b loops else some loops) loops
        = some loops' ∧
      bo.LoopsOf (fun t h => E t h ∨ t = b ∧ h ∈ succs ∧ h ∈ Bdom b) loops' := by
  induction succs with
  | nil => exact fun E loops _ h => ⟨loops, rfl, h.congr (by simp)⟩
  | cons s succs ih =>
    intro E loops hsuccs h
    obtain ⟨hs, hsuccs⟩ := List.forall_mem_cons.mp hsuccs
    rw [List.foldlM_cons]
    by_cases hdom : s ∈ Bdom b
    case pos =>
      obtain ⟨loops₁, hloops₁, h₁⟩ := h.buildloop hc hd hs hb
      obtain ⟨loops₂, hloops₂, h₂⟩ := ih _ loops₁ hsuccs h₁
      refine ⟨loops₂, by rw [if_pos hdom, hloops₁]; exact hloops₂, h₂.congr fun t h => ?_⟩
      grind
    case neg =>
      obtain ⟨loops', hloops', h'⟩ := ih E loops hsuccs h
      refine ⟨loops', by rw [if_neg hdom]; exact hloops', h'.congr fun t h => ?_⟩
      grind

-- The blocks of a list.
theorem LoopsOf.blocks (Bdom : Nat → Finset Nat) (hc : bo.Connected)
    (hd : ∀ b, b ∈ dfo ↔ b ∈ bo.list) (bs : List Nat) :
    ∀ (E : Nat → Nat → Prop) (loops : List Loop), (∀ b ∈ bs, b ∈ bo.list) →
    bo.LoopsOf E loops → ∃ loops',
      bs.foldlM (fun loops b => (bo.block b).Bsucc.foldlM
        (fun loops s => if s ∈ Bdom b then bo.buildloop dfo s b loops else some loops) loops) loops
        = some loops' ∧
      bo.LoopsOf (fun t h => E t h ∨ t ∈ bs ∧ bo.Edge t h ∧ h ∈ Bdom t) loops' := by
  induction bs with
  | nil => exact fun E loops _ h => ⟨loops, rfl, h.congr (by simp)⟩
  | cons b bs ih =>
    intro E loops hbs h
    obtain ⟨hb, hbs⟩ := List.forall_mem_cons.mp hbs
    obtain ⟨loops₁, hloops₁, h₁⟩ := LoopsOf.succs Bdom hc hd hb (bo.block b).Bsucc E loops
      (fun s hs => hc.closed hb hs) h
    obtain ⟨loops₂, hloops₂, h₂⟩ := ih _ loops₁ hbs h₁
    refine ⟨loops₂, by rw [List.foldlM_cons, hloops₁]; exact hloops₂, h₂.congr fun t h => ?_⟩
    simp only [Edge] at *
    grind

-- There is one loop for each block that is the target of a back edge.
structure LoopsExact (bo : BlockOpt n) (start : Nat) (loops : List Loop) : Prop where
  nodup     : (heads loops).Nodup
  targets   : ∀ h, h ∈ heads loops ↔ ∃ t, bo.BackEdge start t h
  body      : ∀ l ∈ loops, ∀ x, x ∈ l.Lloop ↔
    ∃ t, bo.BackEdge start t l.Lhead ∧ x ∈ bo.naturalLoop l.Lhead t
  exits     : ∀ l ∈ loops, ∀ x, x ∈ l.Lexit ↔ x ∈ l.Lloop ∧
    ((bo.block x).bc = .ret ∨ (bo.block x).bc = .retexp ∨ (bo.block x).bc = .exit ∨
      ∃ s, bo.Edge x s ∧ s ∉ l.Lloop)
  preheader : ∀ l ∈ loops, ∀ p, l.Lpreheader = some p ↔
    (bo.block l.Lhead).Bpred.filter (· ∉ l.Lloop) = [p] ∧ (bo.block p).Bsucc = [l.Lhead]

theorem Connected.exists_findloops (hc : bo.Connected) (hd : ∀ b, b ∈ dfo ↔ b ∈ bo.list)
    (hdom : bo.DominatorsExact start Bdom) :
    ∃ loops, bo.findloops dfo Bdom = some loops ∧ bo.LoopsExact start loops := by
  obtain ⟨loops, hloops, h⟩ := LoopsOf.blocks Bdom hc hd dfo.reverse _ []
    (fun b hb => (hd b).mp (List.mem_reverse.mp hb)) .nil
  have hback (t h : Nat) : False ∨ t ∈ dfo.reverse ∧ bo.Edge t h ∧ h ∈ Bdom t ↔
      bo.BackEdge start t h := by
    rw [List.mem_reverse, hd, false_or, BackEdge]
    refine and_congr_right fun ht => and_congr_right fun he => ?_
    exact hdom h (hc.closed ht he) t ht
  have h := h.congr hback
  refine ⟨loops, hloops, h.nodup, h.targets, h.body, fun l hl x => ?_, fun l hl p => ?_⟩
  case refine_1 =>
    rw [h.exits l hl, findExits, Finset.mem_filter]
    rfl
  case refine_2 =>
    rw [h.preheader l hl, findPreheader_none]
    refine and_congr_right fun hp => ?_
    obtain ⟨t, ht, he, -⟩ := (h.targets l.Lhead).mp (List.mem_map_of_mem hl)
    have hmem : p ∈ (bo.block l.Lhead).Bpred :=
      List.mem_of_mem_filter (hp ▸ List.mem_singleton_self p)
    have hhead : l.Lhead ∈ (bo.block p).Bsucc :=
      ((hc.preds l.Lhead (hc.closed ht he) p).mp hmem).right
    constructor
    case mp =>
      intro hlen
      obtain ⟨s, hs⟩ := List.length_eq_one_iff.mp
        (Nat.le_antisymm hlen (List.length_pos_of_mem hhead))
      rw [hs] at hhead ⊢
      rw [List.mem_singleton.mp hhead]
    case mpr =>
      intro hs
      rw [hs]
      exact le_rfl

end findloops

end Compiler.Backend.BlockOpt
