import DmdModel.Compiler.Backend.Theorems.WellFormed

namespace Compiler.Backend.BlockOpt

open Relation

variable {n : Nat} {bo bo' bo'' : BlockOpt n} {b c i s t bt iterations : Nat}

section retarget

theorem orFlags_rewrites : Rewrites b bo (bo.orFlags b bt) := by
  unfold orFlags
  exact .modify fun _ => rfl

theorem retarget_rewrites : Rewrites b bo (bo.retarget b i bt t) := by
  unfold retarget
  refine .trans ?_ .subtractPred
  refine .trans ?_ .pushPred
  refine .trans ?_ orFlags_rewrites
  exact .modify fun _ => rfl

-- What stays the same of the code of b, and what becomes of its successors.
structure Retargeted (b i t : Nat) (bo bo' : BlockOpt n) : Prop where
  bc      : (bo'.block b).bc = (bo.block b).bc
  Belem   : (bo'.block b).Belem = (bo.block b).Belem
  Bswitch : (bo'.block b).Bswitch = (bo.block b).Bswitch
  Bsucc   : (bo'.block b).Bsucc = (bo.block b).Bsucc.set i t

theorem retarget_spec : Retargeted b i t bo (bo.retarget b i bt t) := by
  have h : ((bo.retarget b i bt t).block b).code = _ := subtractPred_code.trans pushPred_code
  rw [orFlags, modify_block_self, modify_block_self] at h
  exact {
    bc      := (congrArg Block.bc h :)
    Belem   := (congrArg Block.Belem h :)
    Bswitch := (congrArg Block.Bswitch h :)
    Bsucc   := (congrArg Block.Bsucc h :)
  }

theorem retarget_predCount : (bo.retarget b i bt t).predCount b s =
    bo.predCount b s + (if s = t then 1 else 0) - if s = bt then 1 else 0 := by
  rw [retarget, subtractPred_predCount, pushPred_predCount, orFlags,
    modify_predCount (by intro _; rfl), modify_predCount (by intro _; rfl)]
  simp

theorem retarget_succCount (hi : (bo.block b).Bsucc[i]? = some bt) :
    (bo.retarget b i bt t).succCount b s =
      bo.succCount b s - (if s = bt then 1 else 0) + if s = t then 1 else 0 := by
  obtain ⟨hlt, hbt⟩ := List.getElem?_eq_some_iff.mp hi
  rw [succCount, succCount, (retarget_spec).Bsucc, List.count_set hlt, hbt]
  simp [eq_comm (a := s)]

end retarget

section hop

def EmptyGoto (blk : Block Nat n) : Prop :=
  blk.bc = .goto_ ∧ blk.Belem = none

-- One replacement of a transfer address of b.
inductive Hop (b : Nat) (bo bo' : BlockOpt n) : Prop
  | intro {i bt t : Nat} (hi : (bo.block b).Bsucc[i]? = some bt) (he : EmptyGoto (bo.block bt))
    (ht : (bo.block bt).Bsucc[0]? = some t) (h : bo' = bo.retarget b i bt t)

theorem Hop.rewrites (h : Hop b bo bo') : Rewrites b bo bo' := by
  cases h with
  | intro hi he ht h => rw [h]; exact retarget_rewrites

theorem Hop.length_Bsucc (h : Hop b bo bo') :
    (bo'.block c).Bsucc.length = (bo.block c).Bsucc.length := by
  by_cases hc : c = b
  case neg => rw [Block.code_Bsucc (h.rewrites.code hc)]
  case pos =>
    cases h with
    | intro hi he ht h => rw [hc, h, (retarget_spec).Bsucc, List.length_set]

theorem Hop.bc (h : Hop b bo bo') : (bo'.block c).bc = (bo.block c).bc := by
  by_cases hc : c = b
  case neg => rw [Block.code_bc (h.rewrites.code hc)]
  case pos =>
    cases h with
    | intro hi he ht h => rw [hc, h, (retarget_spec).bc]

theorem Hop.Belem (h : Hop b bo bo') : (bo'.block c).Belem = (bo.block c).Belem := by
  by_cases hc : c = b
  case neg => rw [Block.code_Belem (h.rewrites.code hc)]
  case pos =>
    cases h with
    | intro hi he ht h => rw [hc, h, (retarget_spec).Belem]

theorem WellFormed.hop (hwf : WellFormed bo) (hb : b < bo.fresh) (h : Hop b bo bo') :
    WellFormed bo' := by
  have hbc : (bo'.block b).bc = (bo.block b).bc := h.bc
  have hlen : (bo'.block b).Bsucc.length = (bo.block b).Bsucc.length := h.length_Bsucc
  have hr := h.rewrites
  cases h with
  | @intro i bt t hi he ht h =>
    subst h
    have hmem : bt ∈ (bo.block b).Bsucc := List.mem_of_getElem? hi
    refine hwf.of_rewrites hr hb (fun s => ?_) ?_ (fun s hs => ?_)
    case refine_1 =>
      have hle : (if s = bt then 1 else 0) ≤ bo.predCount b s := by
        split
        case isTrue h  => rw [← hwf.edges, h]; exact edge_iff_succCount.mp hmem
        case isFalse h => exact Nat.zero_le _
      rw [retarget_predCount, retarget_succCount hi, hwf.edges]
      omega
    case refine_2 =>
      have ha := hwf.arity b
      rwa [Block.Arity, hbc, hlen, ← Block.Arity]
    case refine_3 =>
      rw [Edge, (retarget_spec).Bsucc] at hs
      obtain hs | rfl := List.mem_or_eq_of_mem_set hs
      case inl => exact .single hs
      case inr => exact .tail (.single hmem) (List.mem_of_getElem? ht)

-- A replacement for one of the blocks in the list.
def HopIn (l : List Nat) (bo bo' : BlockOpt n) : Prop :=
  ∃ b ∈ l, Hop b bo bo'

-- Every goto block goes on to another.
def Continues (bo : BlockOpt n) : Prop :=
  ∀ b, (bo.block b).bc = .goto_ → (bo.block b).Bsucc ≠ []

theorem Hop.continues (h : Hop b bo bo') (hc : bo.Continues) : bo'.Continues := by
  intro c hbc
  rw [h.bc] at hbc
  rw [← List.length_pos_iff, h.length_Bsucc, List.length_pos_iff]
  exact hc c hbc

theorem WellFormed.continues (h : WellFormed bo) : bo.Continues := by
  intro b hbc
  have ha := h.arity b
  simp only [Block.Arity, hbc] at ha
  rw [← List.length_pos_iff, ha]
  exact one_pos

end hop

section brrear

-- Branch rearrangement of one transfer address is a sequence of replacements.
theorem exists_brrearEdge (hc : bo.Continues) (hi : (bo.block b).Bsucc[i]? = some bt) :
    ∃ bo', bo.brrearEdge b i iterations bt = some bo' ∧ ReflTransGen (Hop b) bo bo' := by
  induction iterations generalizing bo bt with
  | zero => exact ⟨bo, rfl, .refl⟩
  | succ iterations ih =>
    unfold brrearEdge
    split
    case isFalse => exact ⟨bo, rfl, .refl⟩
    case isTrue he =>
      obtain ⟨t, succs, ht⟩ := List.exists_cons_of_ne_nil (hc bt he.left)
      have hh : Hop b bo (bo.retarget b i bt t) := ⟨hi, he, by rw [ht]; rfl, rfl⟩
      have hi' : ((bo.retarget b i bt t).block b).Bsucc[i]? = some t := by
        rw [(retarget_spec).Bsucc]
        exact List.getElem?_set_self (List.getElem?_eq_some_iff.mp hi).1
      obtain ⟨bo', hbo', hr⟩ := ih (hh.continues hc) hi'
      exact ⟨bo', by simp [ht, hbo'], .head hh hr⟩

-- What the replacements keep.
structure Kept (c : Nat) (bo bo' : BlockOpt n) : Prop where
  continues : bo.Continues → bo'.Continues
  length    : (bo'.block c).Bsucc.length = (bo.block c).Bsucc.length
  bc        : (bo'.block c).bc = (bo.block c).bc
  Belem     : (bo'.block c).Belem = (bo.block c).Belem

theorem hops_invariant (h : ReflTransGen (Hop b) bo bo') : Kept c bo bo' := by
  induction h with
  | refl => exact ⟨id, rfl, rfl, rfl⟩
  | tail _ h ih =>
    exact {
      continues := h.continues ∘ ih.continues
      length    := h.length_Bsucc.trans ih.length
      bc        := h.bc.trans ih.bc
      Belem     := h.Belem.trans ih.Belem
    }

theorem exists_brrearBlock (hc : bo.Continues) :
    ∃ bo', bo.brrearBlock b = some bo' ∧ ReflTransGen (Hop b) bo bo' := by
  suffices h : ∀ (l : List Nat) (bo : BlockOpt n), bo.Continues →
      (∀ i ∈ l, i < (bo.block b).Bsucc.length) →
      ∃ bo', l.foldlM (fun bo i => do bo.brrearEdge b i 9 (← (bo.block b).Bsucc[i]?)) bo = some bo' ∧
        ReflTransGen (Hop b) bo bo' from
    h _ _ hc fun _ => List.mem_range.mp
  intro l
  induction l with
  | nil => exact fun bo _ _ => ⟨bo, rfl, .refl⟩
  | cons i l ih =>
    intro bo hc hl
    have hi := List.getElem?_eq_getElem (hl i List.mem_cons_self)
    obtain ⟨bo₁, h₁, hr₁⟩ : ∃ bo₁, bo.brrearEdge b i 9 _ = some bo₁ ∧ ReflTransGen (Hop b) bo bo₁ :=
      exists_brrearEdge hc hi
    have hinv := hops_invariant (c := b) hr₁
    obtain ⟨bo', hbo', hr⟩ := ih bo₁ (hinv.continues hc) fun j hj =>
      hinv.length ▸ hl j (List.mem_cons_of_mem i hj)
    refine ⟨bo', ?_, hr₁.trans hr⟩
    rw [List.foldlM_cons, hi]
    exact (congrArg (Option.bind · _) h₁).trans hbo'

theorem exists_brrear (hc : bo.Continues) :
    ∃ bo', bo.brrear = some bo' ∧ ReflTransGen (HopIn bo.list) bo bo' := by
  suffices h : ∀ (l m : List Nat) (bo : BlockOpt n), bo.Continues → (∀ b ∈ l, b ∈ m) →
      ∃ bo', l.foldlM brrearBlock bo = some bo' ∧ ReflTransGen (HopIn m) bo bo' from
    h _ _ _ hc fun _ => id
  intro l m
  induction l with
  | nil => exact fun bo _ _ => ⟨bo, rfl, .refl⟩
  | cons b l ih =>
    intro bo hc hl
    obtain ⟨bo₁, h₁, hr₁⟩ := exists_brrearBlock (b := b) hc
    obtain ⟨bo', hbo', hr⟩ := ih bo₁ ((hops_invariant (c := b) hr₁).continues hc) fun c hc =>
      hl c (List.mem_cons_of_mem b hc)
    refine ⟨bo', by simp [h₁, hbo'], .trans ?_ hr⟩
    exact hr₁.lift id fun _ _ hh => ⟨b, hl b List.mem_cons_self, hh⟩

theorem HopIn.list {l : List Nat} (h : ReflTransGen (HopIn l) bo bo') :
    bo'.list = bo.list ∧ bo'.fresh = bo.fresh := by
  induction h with
  | refl => exact ⟨rfl, rfl⟩
  | tail _ h ih =>
    obtain ⟨b, -, h⟩ := h
    exact ⟨h.rewrites.list.trans ih.left, h.rewrites.fresh.trans ih.right⟩

-- The graph stays well formed through branch rearrangement.
theorem WellFormed.brrear (hwf : WellFormed bo) :
    ∃ bo', bo.brrear = some bo' ∧ WellFormed bo' := by
  obtain ⟨bo', hbo', hr⟩ := exists_brrear hwf.continues
  refine ⟨bo', hbo', ?_⟩
  clear hbo'
  induction hr with
  | refl => exact hwf
  | tail hr h ih =>
    obtain ⟨b, hb, h⟩ := h
    refine ih.hop ?_ h
    rw [(HopIn.list hr).right]
    exact hwf.allocated b hb

end brrear

end Compiler.Backend.BlockOpt
