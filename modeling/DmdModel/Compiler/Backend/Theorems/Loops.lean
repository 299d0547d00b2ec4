import DmdModel.Compiler.Backend.Theorems.Findloops
import DmdModel.Compiler.Backend.Theorems.Flowlv

namespace Compiler.Backend.BlockOpt

open Dominators Relation

variable {n : Nat} {bo bo' : BlockOpt n} {start : Nat} {dfo : List Nat}

theorem DominatorsExact.congr {Bdom : Nat → Finset Nat} (h : bo'.DominatorsExact start Bdom)
    (hs : SameGraph bo bo') : bo.DominatorsExact start Bdom := by
  rwa [DominatorsExact, hs.list, hs.edge] at h

theorem SameGraph.backEdge (hs : SameGraph bo bo') : bo'.BackEdge = bo.BackEdge := by
  funext start t h
  rw [BackEdge, BackEdge, hs.list, hs.edge]

theorem SameGraph.naturalLoop (hs : SameGraph bo bo') : bo'.naturalLoop = bo.naturalLoop := by
  funext h t
  rw [BlockOpt.naturalLoop, BlockOpt.naturalLoop, hs.list, hs.edge]

theorem LoopsExact.congr {loops : List Loop} (h : bo'.LoopsExact start loops)
    (hs : SameGraph bo bo') : bo.LoopsExact start loops where
  nodup     := h.nodup
  targets   := hs.backEdge ▸ h.targets
  body      := hs.naturalLoop ▸ hs.backEdge ▸ h.body
  exits l hl x := by
    have hx := h.exits l hl x
    rwa [hs.bc, hs.edge] at hx
  preheader l hl p := by
    have hp := h.preheader l hl p
    rwa [hs.Bpred, hs.Bsucc] at hp

theorem DepthFirstOrder.congr (h : bo.DepthFirstOrder start dfo) (hs : SameGraph bo bo') :
    bo'.DepthFirstOrder start dfo := by
  rw [DepthFirstOrder, startblock, hs.list, funext hs.Bsucc]
  exact h

-- What is found in the end: the dominators of all blocks, and all loops.
def LoopsFound (bo : BlockOpt n) : Prop :=
  ∃ start bo' dfo Bdom loops, bo.startblock = some start ∧ bo.compdfo = some (bo', dfo) ∧
    bo'.compdom dfo = some Bdom ∧ bo.DominatorsExact start Bdom ∧
    bo'.findloops dfo Bdom = some loops ∧ bo.LoopsExact start loops

-- A path that avoids a block needs to go back at most as often as the assertion on the passes allows.
def ShallowRetreats (bo : BlockOpt n) : Prop :=
  ∃ start dfo, bo.DepthFirstOrder start dfo ∧ Shallow bo.Edge start dfo 47

-- Then the passes over the blocks come to an end.
theorem Connected.compdom_isSome_iff (hc : bo.Connected) :
    (bo.compdfo.bind fun st => st.1.compdom st.2).isSome ↔ bo.ShallowRetreats := by
  obtain ⟨bo', dfo, start, hdfo, hs, horder⟩ := hc.exists_compdfo
  have hiff := (compdom_spec (hc.congr hs) (horder.congr hs)).left
  rw [hs.edge] at hiff
  rw [hdfo, Option.bind_some, Option.isSome_iff_exists, hiff]
  constructor
  case mp => exact fun hshallow => ⟨start, dfo, horder, hshallow⟩
  case mpr =>
    rintro ⟨start', dfo', horder', hshallow⟩
    obtain ⟨rfl, rfl⟩ := horder.unique horder'
    exact hshallow

theorem Connected.loopsFound_iff (hc : bo.Connected) : bo.LoopsFound ↔ bo.ShallowRetreats := by
  rw [← hc.compdom_isSome_iff]
  constructor
  case mp =>
    rintro ⟨start, bo', dfo, Bdom, loops, -, hdfo, hdom, -⟩
    rw [hdfo, Option.bind_some, hdom, Option.isSome_some]
  case mpr =>
    intro hsome
    obtain ⟨bo', dfo, start, hdfo, hs, horder⟩ := hc.exists_compdfo
    have hc' := hc.congr hs
    have horder' := horder.congr hs
    rw [hdfo, Option.bind_some] at hsome
    obtain ⟨Bdom, hdom⟩ := Option.isSome_iff_exists.mp hsome
    have hBdom := (compdom_spec hc' horder').right Bdom hdom
    obtain ⟨loops, hloops, hl⟩ := hc'.exists_findloops (fun b => horder'.mem_iff hc') hBdom
    exact ⟨start, bo', dfo, Bdom, loops, horder.left, hdfo, hdom, hBdom.congr hs, hloops, hl.congr hs⟩

section whileLoop

-- while (x) { }
@[grind =]
def whileLoop : BlockOpt 1 where
  list := List.range 4
  fresh := 4
  block
    | 0 => { bc := .goto_, Bsucc := [1] }
    | 1 => { bc := .iftrue, Belem := some (.var TYint (.intab ⟨0, Nat.zero_lt_one⟩) 0), Bsucc := [2, 3], Bpred := [0, 2] }
    | 2 => { bc := .goto_, Bsucc := [1], Bpred := [1] }
    | 3 => { bc := .ret, Bpred := [1] }
    | _ => { bc := .ret }

theorem whileLoop_edge {x y : Nat} : whileLoop.Edge x y ↔
    x = 0 ∧ y = 1 ∨ x = 1 ∧ (y = 2 ∨ y = 3) ∨ x = 2 ∧ y = 1 := by
  rw [Edge, whileLoop]
  dsimp only
  split <;> simp_all

theorem whileLoop_connected : whileLoop.Connected where
  start := ⟨0, rfl⟩
  listed b := by
    have hlist : b ∈ whileLoop.list ↔ b < 4 := List.mem_range
    have hedge {x y : Nat} := @whileLoop_edge x y
    have h₁ : ReflTransGen whileLoop.Edge 0 1 := .single (hedge.mpr (by omega))
    rw [hlist]
    constructor
    case mp =>
      intro hb
      refine ⟨0, rfl, ?_⟩
      interval_cases b
      case «0» => exact .refl
      case «1» => exact h₁
      case «2» => exact h₁.tail (hedge.mpr (by omega))
      case «3» => exact h₁.tail (hedge.mpr (by omega))
    case mpr =>
      rintro ⟨start, hs, hr⟩
      obtain rfl : 0 = start := Option.some.inj hs
      obtain rfl | ⟨c, -, he⟩ := hr.cases_tail
      case inl => omega
      case inr =>
        rw [whileLoop_edge] at he
        omega
  preds s hs b := by
    have hlist : b ∈ whileLoop.list ↔ b < 4 := List.mem_range
    rw [hlist, whileLoop_edge, whileLoop]
    dsimp only
    split <;> simp_all
    omega
  allocated b hb := List.mem_range.mp hb

theorem whileLoop_compdom :
    (whileLoop.compdfo.bind fun st => st.1.compdom st.2).isSome := by
  decide

theorem whileLoop_found : whileLoop.LoopsFound :=
  have hc := whileLoop_connected
  hc.loopsFound_iff.mpr (hc.compdom_isSome_iff.mp whileLoop_compdom)

end whileLoop

section ladder

-- Fifty blocks in a row, each of which goes on to its neighbours, entered at both ends.
@[grind =]
def ladder : BlockOpt 1 where
  list := List.range 51
  fresh := 51
  block b :=
    let Belem : Option (Elem 1) := some (.var TYint (.intab ⟨0, Nat.zero_lt_one⟩) 0)
    if b = 0 then { bc := .iftrue, Belem, Bsucc := [1, 50] }
    else if b = 1 then { bc := .goto_, Bsucc := [2], Bpred := [0, 2] }
    else if b < 50 then { bc := .iftrue, Belem, Bsucc := [b - 1, b + 1], Bpred := [b - 1, b + 1] }
    else if b = 50 then { bc := .goto_, Bsucc := [49], Bpred := [0, 49] }
    else { bc := .ret }

theorem ladder_edge {x y : Nat} : ladder.Edge x y ↔ x = 0 ∧ (y = 1 ∨ y = 50) ∨
    0 < x ∧ 0 < y ∧ x ≤ 50 ∧ y ≤ 50 ∧ (y = x + 1 ∨ x = y + 1) := by
  rw [Edge, ladder]
  dsimp only
  split_ifs <;> simp <;> omega

theorem ladder_connected : ladder.Connected where
  start := ⟨0, rfl⟩
  listed b := by
    have hlist : b ∈ ladder.list ↔ b < 51 := List.mem_range
    have hedge {x y : Nat} := @ladder_edge x y
    rw [hlist]
    constructor
    case mp =>
      intro hb
      refine ⟨0, rfl, ?_⟩
      induction b with
      | zero => exact .refl
      | succ b ih => exact (ih List.mem_range (by omega)).tail (hedge.mpr (by omega))
    case mpr =>
      rintro ⟨start, hs, hr⟩
      obtain rfl : 0 = start := Option.some.inj hs
      induction hr with
      | refl => omega
      | tail _ he _ =>
        rw [ladder_edge] at he
        omega
  preds s hs b := by
    have hs' : s < 51 := List.mem_range.mp hs
    have hlist : b ∈ ladder.list ↔ b < 51 := List.mem_range
    rw [hlist, ladder_edge, ladder]
    dsimp only
    split_ifs <;> simp <;> omega
  allocated b hb := List.mem_range.mp hb

theorem ladder_compdfo : ladder.compdfo.map Prod.snd = some (List.range 51) := by
  decide +kernel

theorem ladder_order : ladder.DepthFirstOrder 0 (List.range 51) := by
  have hc := ladder_connected
  obtain ⟨bo', dfo, start, hdfo, -, horder⟩ := hc.exists_compdfo
  have heq := ladder_compdfo
  rw [hdfo] at heq
  obtain rfl : dfo = List.range 51 := Option.some.inj heq
  obtain rfl : 0 = start := Option.some.inj horder.left
  exact horder

-- A path around block 1 comes down from block 50, and goes back at each step.
theorem ladder_escapes {r b : Nat} (h : Escapes ladder.Edge 0 (List.range 51) 1 r b) :
    b = 0 ∨ 50 ≤ b + r := by
  have hidx {x : Nat} (hx : x ≤ 50) : (List.range 51).idxOf x = x := by
    have hx' : x < (List.range 51).length := List.length_range ▸ Nat.lt_succ_of_le hx
    simpa using List.nodup_range.idxOf_getElem x hx'
  induction h with
  | start _ => exact .inl rfl
  | @advance r x y _ he hy hi ih =>
    rw [ladder_edge] at he
    rw [hidx (by omega), hidx (by omega)] at hi
    omega
  | @retreat r x y _ he hy ih =>
    rw [ladder_edge] at he
    omega

theorem ladder_not_shallow : ¬ladder.ShallowRetreats := by
  rintro ⟨start, dfo, horder, hshallow⟩
  have horder' := ladder_order
  obtain ⟨rfl, rfl⟩ := horder'.unique horder
  have hedge {x y : Nat} := @ladder_edge x y
  have hdown (k : Nat) (hk : k ≤ 48) : Escapes ladder.Edge 0 (List.range 51) 1 (k + 1) (50 - k) := by
    induction k with
    | zero => exact .retreat (.start (by decide)) (hedge.mpr (by omega)) (by decide)
    | succ k ih => exact .retreat (ih (by omega)) (hedge.mpr (by omega)) (by omega)
  have hback := shallow_iff.mp hshallow 1 (by decide) 2 49 (hdown 48 le_rfl)
  have hfew := ladder_escapes hback
  omega

-- The passes over these blocks are not at an end when the assertion fails.
theorem ladder_compdom : ladder.Connected ∧ ¬ladder.LoopsFound ∧
    ∃ bo' dfo, ladder.compdfo = some (bo', dfo) ∧ bo'.compdom dfo = none := by
  have hc := ladder_connected
  obtain ⟨bo', dfo, start, hdfo, hs, horder⟩ := hc.exists_compdfo
  have hfails := mt hc.compdom_isSome_iff.mp ladder_not_shallow
  rw [hdfo, Option.bind_some, Option.not_isSome_iff_eq_none] at hfails
  refine ⟨hc, ?_, bo', dfo, hdfo, hfails⟩
  rintro ⟨_, bo'', dfo', Bdom, loops, -, hdfo', hdom, -⟩
  obtain ⟨rfl, rfl⟩ := Prod.mk.inj (Option.some.inj (hdfo.symm.trans hdfo'))
  rw [hfails] at hdom
  cases hdom

end ladder

end Compiler.Backend.BlockOpt

namespace Compiler.Backend.BlockOpt

open Dominators BackwardFlow LiveVars

variable {n : Nat} {bo bo' : BlockOpt n} {start b : Nat} {dfo : List Nat} {config : Config}
variable {globsym : Fin n → SymbolInfo}

-- The expressions of the blocks are well formed.
def ElemsWellFormed (bo : BlockOpt n) : Prop :=
  ∀ b, ∀ e ∈ (bo.block b).Belem, e.WellFormed

-- The place of a block in dfo
def dfoIndex (dfo : List Nat) (b : Nat) : Option (Fin dfo.length) :=
  if h : dfo.idxOf b < dfo.length then some ⟨dfo.idxOf b, h⟩ else none

-- The blocks in depth first order, each with its successors and predecessors by their places in it.
def flowGraph (bo : BlockOpt n) (dfo : List Nat) (globsym : Fin n → SymbolInfo) (h : bo.ElemsWellFormed) :
    FlowGraph dfo.length n where
  dfo i :=
    let b := bo.block (dfo.get i)
    { bc := b.bc
      Belem := b.Belem
      Bsucc := b.Bsucc.filterMap (dfoIndex dfo)
      Bpred := b.Bpred.filterMap (dfoIndex dfo)
      Bswitch := b.Bswitch
      label := b.label
      separate := b.separate
      visited := b.visited }
  globsym := globsym
  wellFormed i := h (dfo.get i)

theorem dfoIndex_eq_some_iff (hnd : dfo.Nodup) {i : Fin dfo.length} :
    dfoIndex dfo b = some i ↔ b = dfo.get i := by
  rw [dfoIndex]
  constructor
  case mp =>
    intro h
    split at h
    case isTrue hlt  => exact Option.some.inj h ▸ (List.idxOf_get hlt).symm
    case isFalse     => cases h
  case mpr =>
    rintro rfl
    have hidx : dfo.idxOf (dfo.get i) = i := List.get_idxOf hnd i
    rw [dif_pos (by rw [hidx]; exact i.isLt)]
    exact congrArg some (Fin.ext hidx)

-- The edges are those between the blocks.
theorem mem_flowGraph_succ (ho : bo.DepthFirstOrder start dfo) {h : bo.ElemsWellFormed} {i j : Fin dfo.length} :
    j ∈ ((bo.flowGraph dfo globsym h).dfo i).Bsucc ↔ bo.Edge (dfo.get i) (dfo.get j) := by
  have hnd : dfo.Nodup := List.nodup_reverse.mp ho.right.nodup
  rw [flowGraph, Edge, List.mem_filterMap]
  simp only [dfoIndex_eq_some_iff hnd, exists_eq_right]

theorem SameGraph.elemsWellFormed (hs : SameGraph bo bo') (h : bo.ElemsWellFormed) : bo'.ElemsWellFormed := by
  intro b e he
  rw [hs.block b] at he
  exact h b e he

theorem SameGraph.flow_eq (hs : SameGraph bo bo') {h : bo.ElemsWellFormed} {h' : bo'.ElemsWellFormed} {v : Fin n} :
    flow config (bo'.flowGraph dfo globsym h') v = flow config (bo.flowGraph dfo globsym h) v := by
  have hblock (i : Fin dfo.length) : ((bo'.flowGraph dfo globsym h').dfo i).Belem =
        ((bo.flowGraph dfo globsym h).dfo i).Belem ∧
      ((bo'.flowGraph dfo globsym h').dfo i).Bsucc = ((bo.flowGraph dfo globsym h).dfo i).Bsucc := by
    rw [flowGraph, flowGraph]
    simp only
    rw [hs.block]
    exact ⟨rfl, rfl⟩
  have hgenkill (i : Fin dfo.length) : lvgenkill config (bo'.flowGraph dfo globsym h') i =
      lvgenkill config (bo.flowGraph dfo globsym h) i := by
    rw [lvgenkill, lvgenkill, (hblock i).1]
    rfl
  rw [flow, flow]
  simp only [hgenkill, fun i => (hblock i).2]
  rfl

-- Both loops come to an end before their assertions fail.
def IterationsConverge (config : Config) (globsym : Fin n → SymbolInfo) (bo : BlockOpt n) : Prop :=
  ∃ bo' dfo, bo.compdfo = some (bo', dfo) ∧ (∃ Bdom, bo'.compdom dfo = some Bdom) ∧
    ∃ h : bo'.ElemsWellFormed, ∃ sets, flowlv config (bo'.flowGraph dfo globsym h) = some sets

-- A block that does not dominate another one is avoided by a path to it that goes back at most 47 times, and a
-- variable that is live at a block is live there because of a path that goes back at most 48 times.
def FewRetreats (config : Config) (globsym : Fin n → SymbolInfo) (bo : BlockOpt n) (h : bo.ElemsWellFormed) :
    Prop :=
  ∃ start dfo, bo.DepthFirstOrder start dfo ∧ Shallow bo.Edge start dfo 47 ∧
    ∀ v b, Reached (flow config (bo.flowGraph dfo globsym h) v) b →
      Reaches (flow config (bo.flowGraph dfo globsym h) v) 48 b

theorem iterationsConverge_iff (hc : bo.Connected) (h : bo.ElemsWellFormed) :
    IterationsConverge config globsym bo ↔ FewRetreats config globsym bo h := by
  obtain ⟨bo', dfo, start, hdfo, hs, horder⟩ := hc.exists_compdfo
  have h' : bo'.ElemsWellFormed := hs.elemsWellFormed h
  have hdom := (compdom_spec (hc.congr hs) (horder.congr hs)).left
  rw [hs.edge] at hdom
  have hlive : (∃ sets, flowlv config (bo'.flowGraph dfo globsym h') = some sets) ↔
      ∀ v b, Reached (flow config (bo.flowGraph dfo globsym h) v) b →
        Reaches (flow config (bo.flowGraph dfo globsym h) v) 48 b := by
    rw [exists_flowlv_iff]
    refine forall_congr' fun v => ?_
    rw [stable_iff, hs.flow_eq]
  constructor
  case mp =>
    intro hconv
    obtain ⟨bo'', dfo', hdfo', hd, hw, hl⟩ := hconv
    obtain ⟨rfl, rfl⟩ := Prod.mk.inj (Option.some.inj (hdfo.symm.trans hdfo'))
    exact ⟨start, dfo, horder, hdom.mp hd, hlive.mp hl⟩
  case mpr =>
    intro hfew
    obtain ⟨start', dfo', horder', hd, hl⟩ := hfew
    obtain ⟨rfl, rfl⟩ := horder.unique horder'
    exact ⟨bo', dfo, hdfo, hdom.mpr hd, h', hlive.mpr hl⟩

theorem whileLoop_elemsWellFormed : whileLoop.ElemsWellFormed := by
  intro b e he
  rw [whileLoop] at he
  dsimp only at he
  split at he <;> simp_all
  all_goals exact he ▸ trivial

-- The loop of one variable
theorem iterationsConverge_whileLoop : IterationsConverge { inline8087 := true }
      (fun _ => { type_size := 4, SFLdistinct := true, SFLlivexit := false }) whileLoop ↔
    FewRetreats { inline8087 := true } (fun _ => { type_size := 4, SFLdistinct := true, SFLlivexit := false })
      whileLoop whileLoop_elemsWellFormed :=
  iterationsConverge_iff whileLoop_connected whileLoop_elemsWellFormed

theorem ladder_elemsWellFormed : ladder.ElemsWellFormed := by
  intro b e he
  rw [ladder] at he
  dsimp only at he
  split_ifs at he <;> simp_all
  all_goals exact he ▸ trivial

-- The dominators of these blocks are not found in as many passes.
theorem ladder_doesNotConverge : ¬ ∀ (n : Nat) (bo : BlockOpt n) (config : Config) (globsym : Fin n → SymbolInfo),
    bo.Connected → bo.ElemsWellFormed → IterationsConverge config globsym bo := by
  intro hall
  obtain ⟨bo', dfo, hdfo, ⟨Bdom, hdom⟩, -⟩ := hall 1 ladder { inline8087 := true }
    (fun _ => { type_size := 4, SFLdistinct := true, SFLlivexit := false }) ladder_connected ladder_elemsWellFormed
  refine ladder_not_shallow (ladder_connected.compdom_isSome_iff.mp ?_)
  rw [hdfo, Option.bind_some, hdom, Option.isSome_some]

end Compiler.Backend.BlockOpt
