import DmdModel.Compiler.Backend.Theorems.Flowlv

namespace Compiler.Backend.LiveVars

open BackwardFlow UseDef

variable {m n : Nat} {config : Config} {g : FlowGraph m n} {v : Fin n}

def blockTraces (config : Config) (g : FlowGraph m n) (b : Fin m) : Language (Access n) :=
  match (g.dfo b).Belem with
  | none   => 1
  | some e => traces config e

-- A path of blocks that starts with b, and what they access on it.
inductive Execution (config : Config) (g : FlowGraph m n) :
    Fin m → List (Fin m × List (Access n)) → Prop
  | block (ht : t ∈ blockTraces config g b) : Execution config g b [(b, t)]
  | step  (ht : t ∈ blockTraces config g b) (hs : s ∈ (g.dfo b).Bsucc)
    (h : Execution config g s π) : Execution config g b ((b, t) :: π)

-- Some step on the path may read v, and none before it overwrites v. The blocks on the way are those
-- up to the one with the read.
inductive ReadsFirst (globsym : Fin n → SymbolInfo) (v : Fin n) :
    List (Fin m × List (Access n)) → List (Fin m) → Prop
  | here  (hp : UseDef.Passes (Access.Overwrites globsym v) pre) (ha : Access.Reads globsym v a) :
    ReadsFirst globsym v ((b, pre ++ a :: post) :: π) [b]
  | later (hp : UseDef.Passes (Access.Overwrites globsym v) t) (h : ReadsFirst globsym v π way) :
    ReadsFirst globsym v ((b, t) :: π) (b :: way)

-- The transfer equations.
structure Solves (config : Config) (g : FlowGraph m n) (sets : LvSets m n) : Prop where
  inlv  : ∀ b, sets.Binlv b = transfer (lvgenkill config g b) (sets.Boutlv b)
  outlv : ∀ b, sets.Boutlv b = unionOfSuccs g sets.Binlv b

def Subset (sets sets' : LvSets m n) : Prop :=
  ∀ b, ∀ v : Fin n,
    (vec_testbit v (sets.Binlv b) → vec_testbit v (sets'.Binlv b)) ∧
    (vec_testbit v (sets.Boutlv b) → vec_testbit v (sets'.Boutlv b))

structure Sound (config : Config) (g : FlowGraph m n) (sets : LvSets m n) : Prop where
  outlv   : ∀ b, ∀ s ∈ (g.dfo b).Bsucc, ∀ π, Execution config g s π → ∀ v way,
    ReadsFirst g.globsym v π way → vec_testbit v (sets.Boutlv b)
  inlv    : ∀ b π, Execution config g b π → ∀ v way,
    ReadsFirst g.globsym v π way → ∀ c ∈ way, vec_testbit v (sets.Binlv c)
  livexit : ∀ b, (g.dfo b).Bsucc = [] → ∀ v, (g.globsym v).SFLlivexit → vec_testbit v (sets.Boutlv b)
  solves  : Solves config g sets
  least   : ∀ sets', Solves config g sets' → Subset sets sets'

-- The flow of v from the steps that use it to the places from which some path leads to them.
def useFlow (config : Config) (g : FlowGraph m n) (uses : Access n → Prop) (v : Fin n) :
    Problem (Fin m) where
  succ b  := (g.dfo b).Bsucc
  start b := ∃ t ∈ blockTraces config g b, UsedFirst uses (Access.Overwrites g.globsym v) t
  pass b  := ∃ t ∈ blockTraces config g b, UseDef.Passes (Access.Overwrites g.globsym v) t
  exits   := (g.globsym v).SFLlivexit = true

variable {b : Fin m} {sets : LvSets m n}

theorem lvgenkill_accumulates (b : Fin m) :
    Accumulates g.globsym v (blockTraces config g b) .empty (lvgenkill config g b) := by
  have ha (i : Fin n) : vec_testbit i (ambigsym g) = !(g.globsym i).SFLdistinct := ambigsym_getElem
  unfold blockTraces lvgenkill lvelem
  cases hb : (g.dfo b).Belem with
  | none   => exact .refl
  | some e => exact accumlv_accumulates ha e .empty (g.wellFormed b e hb) disjoint_empty

theorem flow_imp_useFlow (h : Reaches (flow config g v) k b) :
    Reaches (useFlow config g (Access.Notes g.globsym v) v) k b := by
  refine h.imp rfl (fun b hb => ?_) (fun b hb => ?_) id
  case refine_1 => exact (lvgenkill_accumulates b).fromEmpty.gen_iff.mp hb
  case refine_2 =>
    have hacc : Accumulates g.globsym v (blockTraces config g b) .empty (lvgenkill config g b) :=
      lvgenkill_accumulates b
    have ha := hacc.fromEmpty
    by_cases hg : vec_testbit v (lvgenkill config g b).GEN = true
    case pos => exact .inl (ha.gen_iff.mp hg)
    case neg => exact .inr (ha.gap hg (Bool.eq_false_iff.mp hb))

theorem useFlow_imp_flow (h : Reaches (useFlow config g (Access.Notes g.globsym v) v) k b) :
    Reaches (flow config g v) k b := by
  refine h.imp rfl (fun b hb => ?_) (fun b hb => ?_) id
  case refine_1 => exact (lvgenkill_accumulates b).fromEmpty.gen_iff.mpr hb
  case refine_2 =>
    obtain ⟨t, ht, hp⟩ := hb
    exact .inr <| Bool.eq_false_iff.mpr <|
      (lvgenkill_accumulates b).fromEmpty.not_kill not_false ht hp

theorem Reaches.flow_iff :
    Reaches (flow config g v) k b ↔ Reaches (useFlow config g (Access.Notes g.globsym v) v) k b :=
  ⟨flow_imp_useFlow, useFlow_imp_flow⟩

theorem reached_flow_iff :
    Reached (flow config g v) b ↔ Reached (useFlow config g (Access.Notes g.globsym v) v) b :=
  exists_congr fun _ => Reaches.flow_iff

theorem Execution.head (h : Execution config g b π) :
    ∃ t ∈ blockTraces config g b, ∃ π', π = (b, t) :: π' ∧
      (π' = [] ∨ ∃ s ∈ (g.dfo b).Bsucc, Execution config g s π') := by
  cases h with
  | block ht     => exact ⟨_, ht, [], rfl, .inl rfl⟩
  | step ht hs h => exact ⟨_, ht, _, rfl, .inr ⟨_, hs, h⟩⟩

-- On the way to a read before any overwriting step, the read reaches each block.
theorem Execution.reached (h : Execution config g b π) (hr : ReadsFirst g.globsym v π way) :
    b ∈ way ∧ ∀ c ∈ way, Reached (useFlow config g (Access.Reads g.globsym v) v) c := by
  induction hr generalizing b with
  | here hp ha =>
    obtain ⟨_, ht, _, heq, -⟩ := h.head
    cases heq
    simp only [List.mem_singleton, true_and, forall_eq]
    exact .start ⟨_, ht, .intro ha hp⟩
  | later hp hr ih =>
    obtain ⟨_, ht, _, heq, hs⟩ := h.head
    cases heq
    cases hs with
    | inl hnil => subst hnil; cases hr
    | inr hs =>
      obtain ⟨s, hs, h⟩ := hs
      obtain ⟨hw, hall⟩ := ih h
      refine ⟨List.mem_cons_self, List.forall_mem_cons.mpr ⟨?_, hall⟩⟩
      exact .step ⟨_, ht, hp⟩ hs (hall s hw)

theorem Computed.solves (h : Computed config g sets) : Solves config g sets where
  inlv b := by
    refine BitVec.eq_of_getElem_eq fun i hi => Bool.eq_iff_iff.mpr ?_
    rw [h.inlv b ⟨i, hi⟩, Reached.iff, transfer_getElem (v := ⟨i, hi⟩), h.outlv b ⟨i, hi⟩]
    rfl
  outlv b := by
    refine BitVec.eq_of_getElem_eq fun i hi => Bool.eq_iff_iff.mpr ?_
    rw [h.outlv b ⟨i, hi⟩, unionOfSuccs_getElem (v := ⟨i, hi⟩)]
    simp only [fun s => h.inlv s ⟨i, hi⟩]

theorem Subset.of_solves {sets' : LvSets m n} (h : Computed config g sets)
    (hs : Solves config g sets') : Subset sets sets' := by
  intro b v
  have hin (b : Fin m) (hr : Reached (flow config g v) b) : vec_testbit v (sets'.Binlv b) = true := by
    refine hr.least (R := fun b => vec_testbit v (sets'.Binlv b) = true) fun b hb => ?_
    rw [hs.inlv, transfer_getElem, hs.outlv, unionOfSuccs_getElem]
    exact hb
  constructor
  case left => exact fun hv => hin b ((h.inlv b v).mp hv)
  case right =>
    intro hv
    have hout := (h.outlv b v).mp hv
    have : vec_testbit v (sets'.Boutlv b) = true := by
      rw [hs.outlv, unionOfSuccs_getElem]
      exact hout.imp_left fun ⟨s, hss, hr⟩ => ⟨s, hss, hin s hr⟩
    exact this

-- What a read through a pointer or a call reaches is live when another read reaches it, too.
theorem sound_of_reached (h : Computed config g sets)
    (hr : ∀ v b, Reached (useFlow config g (Access.Reads g.globsym v) v) b →
      Reached (flow config g v) b) : Sound config g sets where
  outlv b s hs π he v way hw := by
    obtain ⟨hsw, hall⟩ := he.reached hw
    exact (h.outlv b v).mpr (.inl ⟨s, hs, hr v s (hall s hsw)⟩)
  inlv b π he v way hw c hc := (h.inlv c v).mpr (hr v c ((he.reached hw).right c hc))
  livexit b hb v hv := (h.outlv b v).mpr (.inr ⟨hb, hv⟩)
  solves := h.solves
  least sets' hs := .of_solves h hs

theorem Sound.reached (h : Sound config g sets)
    (hr : Reached (useFlow config g (Access.Reads g.globsym v) v) b) :
    vec_testbit v (sets.Binlv b) = true := by
  refine hr.least (R := fun b => vec_testbit v (sets.Binlv b) = true) fun b hb => ?_
  have hin := h.solves.inlv b
  cases hb with
  | inl hu =>
    obtain ⟨t, ht, hu⟩ := hu
    obtain ⟨pre, a, post, rfl, ha, hp⟩ := hu.exists
    exact h.inlv b _ (.block ht) v [b] (.here hp ha) b List.mem_cons_self
  | inr hpass =>
    obtain ⟨⟨t, ht, hp⟩, hout⟩ := hpass
    have hk := (lvgenkill_accumulates b).fromEmpty.not_kill not_false ht hp
    rw [hin, transfer_getElem, h.solves.outlv, unionOfSuccs_getElem]
    exact .inr ⟨Bool.eq_false_iff.mpr hk, hout⟩

-- Live variable analysis succeeds and is sound if and only if each variable that is live before a
-- block is live there because of an exit or a read that is no bit test and modification, at the end
-- of a path that goes back in depth first order at most 48 times.
theorem flowlv_sound_iff :
    (∃ sets, flowlv config g = some sets ∧ Sound config g sets) ↔
      ∀ v b, Reached (useFlow config g (Access.Reads g.globsym v) v) b →
        Reaches (useFlow config g (Access.Notes g.globsym v) v) 48 b := by
  constructor
  case mp =>
    rintro ⟨sets, hf, hs⟩ v b hr
    have hstable := exists_flowlv_iff.mp ⟨sets, hf⟩ v
    rw [← Reaches.flow_iff, ← hstable.reached_iff, ← (flowlv_computed hf).inlv b v]
    exact hs.reached hr
  case mpr =>
    intro h
    have hstable (v : Fin n) : Stable (flow config g v) 48 := by
      refine stable_iff.mpr fun b hr => ?_
      obtain ⟨k, hr⟩ := (reached_flow_iff).mp hr
      rw [Reaches.flow_iff]
      refine h v b ⟨k, hr.imp rfl (fun c hc => ?_) (fun c hc => .inr hc) id⟩
      obtain ⟨t, ht, hu⟩ := hc
      exact ⟨t, ht, hu.mono fun _ => Access.Notes.reads⟩
    obtain ⟨sets, hf⟩ := exists_flowlv_iff.mpr hstable
    refine ⟨sets, hf, sound_of_reached (flowlv_computed hf) fun v b hr => ?_⟩
    exact (reached_flow_iff).mpr ⟨48, h v b hr⟩

namespace bitSetGraph

def size_t : Ty where
  tysize := 8

-- v = 5
def assign : Elem 1 :=
  .binary .eq size_t 0 (.var size_t (.intab ⟨0, Nat.zero_lt_one⟩) 0) (.const size_t (.integral 5))

-- bts(&v, 3)
def bitSet : Elem 1 :=
  .binary .bts size_t 0 (.leaf .relconst size_t) (.const size_t (.integral 3))

end bitSetGraph

-- A block that assigns v, and one that sets a bit of v and returns.
def bitSetGraph : FlowGraph 2 1 where
  dfo := ![
    { bc := .goto_, Belem := some bitSetGraph.assign, Bsucc := [1], Bpred := [] },
    { bc := .ret, Belem := some bitSetGraph.bitSet, Bsucc := [], Bpred := [0] }
  ]
  globsym _ := { type_size := 8, SFLdistinct := false, SFLlivexit := false }
  wellFormed := by decide

theorem bits_mem_bitSetGraph : [.bits] ∈ blockTraces config bitSetGraph 1 := by
  have hl : ([] : List (Access 1)) ∈ (1 : Language (Access 1)) := Language.nil_mem_one
  have hb : [Access.bits] ∈ ({[.bits]} : Language (Access 1)) := rfl
  exact Language.append_mem_mul
    (Language.append_mem_mul (Language.append_mem_mul hl hl) hb) hl

-- The step that sets a bit of v reads v, and v is not live after the assignment.
theorem flowlv_unsound_bitSetGraph :
    ¬∃ sets, flowlv { inline8087 := true } bitSetGraph = some sets ∧
      Sound { inline8087 := true } bitSetGraph sets := by
  rintro ⟨sets, hf, hs⟩
  have hread : ReadsFirst bitSetGraph.globsym 0 [(1, [] ++ Access.bits :: [])] [(1 : Fin 2)] :=
    .here .nil rfl
  have hlive := hs.outlv 0 1 (by decide) _ (.block bits_mem_bitSetGraph) 0 _ hread
  have hout : (flowlv { inline8087 := true } bitSetGraph).map (fun s => (s.Boutlv 0)[0]) =
      some false := by decide
  rw [hf] at hout
  exact Bool.false_ne_true ((Option.some.inj hout).symm.trans hlive)

end Compiler.Backend.LiveVars
