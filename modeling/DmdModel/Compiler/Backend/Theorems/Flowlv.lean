import DmdModel.Lib.BackwardFlow
import DmdModel.Compiler.Backend.Theorems.Accumlv

namespace Compiler.Backend.LiveVars

open BackwardFlow UseDef

variable {m n : Nat} {config : Config} {g : FlowGraph m n} {v : Fin n} {k : ℕ}

theorem vecOf_getElem (p : Fin n → Bool) (i : Fin n) : vec_testbit i (vecOf p) = p i := by
  simp [vecOf]

theorem livexit_getElem : vec_testbit v (livexit g) = (g.globsym v).SFLlivexit :=
  vecOf_getElem ..

theorem ambigsym_getElem : vec_testbit v (ambigsym g) = !(g.globsym v).SFLdistinct :=
  vecOf_getElem ..

theorem foldl_or_getElem (Binlv : Fin m → BitVec n) (succs : List (Fin m)) (w : BitVec n) :
    vec_testbit v (succs.foldl (fun v s => v ||| Binlv s) w) = true ↔
      vec_testbit v w = true ∨ ∃ s ∈ succs, vec_testbit v (Binlv s) = true := by
  induction succs generalizing w with
  | nil => simp
  | cons s succs ih => simp [ih, or_assoc]

theorem unionOfSuccs_getElem (Binlv : Fin m → BitVec n) (b : Fin m) :
    vec_testbit v (unionOfSuccs g Binlv b) = true ↔
      (∃ s ∈ (g.dfo b).Bsucc, vec_testbit v (Binlv s) = true) ∨
        (g.dfo b).Bsucc = [] ∧ (g.globsym v).SFLlivexit = true := by
  unfold unionOfSuccs
  split
  case h_1 h => simp [h, livexit_getElem]
  case h_2 h => simp [h, foldl_or_getElem]

theorem transfer_getElem (gk : GenKill n) (Bout : BitVec n) :
    vec_testbit v (transfer gk Bout) = true ↔
      vec_testbit v gk.GEN = true ∨ vec_testbit v gk.KILL = false ∧ vec_testbit v Bout = true := by
  simp [transfer, or_comm, and_comm]

-- The flow of v that the sets of `lvgenkill` describe.
def flow (config : Config) (g : FlowGraph m n) (v : Fin n) : Problem (Fin m) where
  succ b  := (g.dfo b).Bsucc
  start b := vec_testbit v (lvgenkill config g b).GEN = true
  pass b  := vec_testbit v (lvgenkill config g b).KILL = false
  exits   := (g.globsym v).SFLlivexit = true

-- The sets in the k-th pass when the blocks in l are not visited yet.
structure AtPass (config : Config) (g : FlowGraph m n) (k : ℕ) (l : List (Fin m))
    (sets : LvSets m n) : Prop where
  inlv  : ∀ b, ∀ v : Fin n, vec_testbit v (sets.Binlv b) = true ↔
    Reaches (flow config g v) (if b ∈ l then k else k + 1) b
  outlv : ∀ b ∉ l, ∀ v : Fin n, vec_testbit v (sets.Boutlv b) = true ↔ Leaves (flow config g v) k b

theorem AtPass.inlv_nil {sets : LvSets m n} (h : AtPass config g k [] sets) (b : Fin m) (v : Fin n) :
    vec_testbit v (sets.Binlv b) = true ↔ Reaches (flow config g v) (k + 1) b := by
  rw [h.inlv, if_neg List.not_mem_nil]

theorem leaves_iff_unionOfSuccs {l : List (Fin m)} {sets : LvSets m n}
    (h : AtPass config g k (b :: l) sets) (hlt : ∀ s ∈ b :: l, s ≤ b)
    (hge : ∀ s ≤ b, s ∈ b :: l) :
    vec_testbit v (unionOfSuccs g sets.Binlv b) = true ↔ Leaves (flow config g v) k b := by
  rw [unionOfSuccs_getElem]
  constructor
  case mp =>
    rintro (⟨s, hs, hv⟩ | ⟨hs, he⟩)
    case inr => exact .exit hs he
    case inl =>
      rw [h.inlv] at hv
      split at hv
      case isTrue hl  => exact .retreat hs (hlt s hl) hv
      case isFalse hl => exact .forward hs (lt_of_not_ge fun hl' => hl (hge s hl')) hv
  case mpr =>
    rintro (⟨hs, hl, hv⟩ | ⟨hs, hl, hv⟩ | ⟨hs, he⟩)
    case forward s =>
      refine .inl ⟨s, hs, (h.inlv s v).mpr ?_⟩
      rwa [if_neg fun hm => not_lt_of_ge (hlt s hm) hl]
    case retreat s =>
      refine .inl ⟨s, hs, (h.inlv s v).mpr ?_⟩
      rwa [if_pos (hge s hl)]
    case exit => exact .inr ⟨hs, he⟩

theorem flowlvBlock_atPass {l : List (Fin m)} {s : LvSets m n × Bool}
    (h : AtPass config g k (b :: l) s.1) (hlt : ∀ s ∈ b :: l, s ≤ b)
    (hge : ∀ s ≤ b, s ∈ b :: l) (hb : b ∉ l) :
    AtPass config g k l (flowlvBlock config g s b).1 where
  inlv c v := by
    by_cases hc : c = b
    case pos =>
      subst hc
      simp only [flowlvBlock, Function.update_self, if_neg hb, transfer_getElem, reaches_succ_iff,
        leaves_iff_unionOfSuccs h hlt hge]
      rfl
    case neg =>
      simp only [flowlvBlock, Function.update_of_ne hc, h.inlv, List.mem_cons, hc, false_or]
  outlv c hcl v := by
    by_cases hc : c = b
    case pos =>
      subst hc
      simp only [flowlvBlock, Function.update_self, leaves_iff_unionOfSuccs h hlt hge]
    case neg =>
      simp only [flowlvBlock, Function.update_of_ne hc]
      exact h.outlv c (by simp [hc, hcl]) v

-- Whether the block changes in the k-th pass.
theorem flowlvBlock_anychng {l : List (Fin m)} {s : LvSets m n × Bool}
    (h : AtPass config g k (b :: l) s.1) (h' : AtPass config g k l (flowlvBlock config g s b).1)
    (hb : b ∉ l) :
    (flowlvBlock config g s b).2 = false ↔ s.2 = false ∧
      ∀ v : Fin n, Reaches (flow config g v) (k + 1) b → Reaches (flow config g v) k b := by
  have hold := h.inlv b
  have hnew := h'.inlv b
  simp only [List.mem_cons, true_or, if_true] at hold
  simp only [hb, if_false] at hnew
  have hchng : (flowlvBlock config g s b).2 =
      (s.2 || (flowlvBlock config g s b).1.Binlv b != s.1.Binlv b) := by
    simp [flowlvBlock]
  rw [hchng, Bool.or_eq_false_iff, bne_eq_false_iff_eq]
  refine and_congr_right fun _ => ⟨fun heq v hv => ?_, fun hall => ?_⟩
  case refine_1 => exact (hold v).mp (heq ▸ (hnew v).mpr hv)
  case refine_2 =>
    refine BitVec.eq_of_getElem_eq fun i hi => Bool.eq_iff_iff.mpr ?_
    have hn := hnew ⟨i, hi⟩
    have ho := hold ⟨i, hi⟩
    exact hn.trans <| Iff.trans ⟨hall _, Reaches.succ⟩ ho.symm

theorem foldl_flowlvBlock {l : List (Fin m)} {s : LvSets m n × Bool}
    (h : AtPass config g k l s.1) (hl : l.Pairwise (· > ·)) (hd : ∀ b ∈ l, ∀ c ≤ b, c ∈ l) :
    AtPass config g k [] (l.foldl (flowlvBlock config g) s).1 ∧
      ((l.foldl (flowlvBlock config g) s).2 = false ↔ s.2 = false ∧
        ∀ b ∈ l, ∀ v : Fin n,
          Reaches (flow config g v) (k + 1) b → Reaches (flow config g v) k b) := by
  induction l generalizing s with
  | nil => simpa using h
  | cons b l ih =>
    obtain ⟨hlt, hl⟩ := List.pairwise_cons.mp hl
    have hb : b ∉ l := fun hb => lt_irrefl b (hlt b hb)
    have hle : ∀ c ∈ b :: l, c ≤ b :=
      List.forall_mem_cons.mpr ⟨le_rfl, fun c hc => le_of_lt (hlt c hc)⟩
    have h' := flowlvBlock_atPass h hle (hd b List.mem_cons_self) hb
    have hd' : ∀ c ∈ l, ∀ e ≤ c, e ∈ l := by
      intro c hc e he
      cases List.mem_cons.mp (hd c (List.mem_cons_of_mem _ hc) e he) with
      | inl heb => exact absurd (hlt c hc) (not_lt_of_ge (heb ▸ he))
      | inr hel => exact hel
    obtain ⟨ha, hc⟩ := ih h' hl hd'
    refine ⟨ha, ?_⟩
    rw [List.foldl_cons, hc, flowlvBlock_anychng h h' hb, and_assoc, List.forall_mem_cons]

-- A pass takes what reaches the blocks in k rounds to what reaches them in k + 1 rounds, and tells
-- whether that is the same.
theorem flowlvPass_spec {sets : LvSets m n}
    (h : ∀ b, ∀ v : Fin n, vec_testbit v (sets.Binlv b) = true ↔ Reaches (flow config g v) k b) :
    AtPass config g k [] (flowlvPass config g sets).1 ∧
      ((flowlvPass config g sets).2 = false ↔ ∀ v : Fin n, Stable (flow config g v) k) := by
  have hall : ∀ b, b ∈ (List.finRange m).reverse := by simp
  have hat : AtPass config g k (List.finRange m).reverse sets :=
    { inlv := fun b v => by rw [h, if_pos (hall b)], outlv := fun b hb => absurd (hall b) hb }
  have hlt : (List.finRange m).reverse.Pairwise (· > ·) :=
    List.pairwise_reverse.mpr (List.pairwise_lt_finRange m)
  obtain ⟨h₁, h₂⟩ := foldl_flowlvBlock (s := (sets, false)) hat hlt fun b _ c _ => hall c
  refine ⟨h₁, h₂.trans ?_⟩
  constructor
  case mp  => exact fun h v b => h.right b (hall b) v
  case mpr => exact fun h => ⟨rfl, fun b _ v => h v b⟩

-- The sets that the passes end with.
structure Computed (config : Config) (g : FlowGraph m n) (sets : LvSets m n) : Prop where
  inlv  : ∀ b, ∀ v : Fin n, vec_testbit v (sets.Binlv b) = true ↔ Reached (flow config g v) b
  outlv : ∀ b, ∀ v : Fin n, vec_testbit v (sets.Boutlv b) = true ↔
    (∃ s ∈ (g.dfo b).Bsucc, Reached (flow config g v) s) ∨
      (g.dfo b).Bsucc = [] ∧ (g.globsym v).SFLlivexit = true

theorem AtPass.computed {sets : LvSets m n} (h : AtPass config g k [] sets)
    (hs : ∀ v : Fin n, Stable (flow config g v) k) : Computed config g sets where
  inlv b v := by
    rw [h.inlv_nil, ((hs v).mono k.le_succ).reached_iff]
  outlv b v := by
    rw [h.outlv b List.not_mem_nil, (hs v).leaves_iff]
    rfl

theorem flowlvLoop_computed {sets sets' : LvSets m n} {remaining : ℕ}
    (h : ∀ b, ∀ v : Fin n, vec_testbit v (sets.Binlv b) = true ↔ Reaches (flow config g v) k b)
    (hr : flowlvLoop config g remaining sets = some sets') :
    Computed config g sets' ∧
      ∃ j < remaining, ∀ v : Fin n, Stable (flow config g v) (k + j) := by
  induction remaining generalizing k sets with
  | zero => cases hr
  | succ remaining ih =>
    obtain ⟨ha, hc⟩ := flowlvPass_spec h
    simp only [flowlvLoop] at hr
    split at hr
    case isTrue =>
      obtain ⟨hcomp, j, hj, hs⟩ := ih ha.inlv_nil hr
      exact ⟨hcomp, j + 1, Nat.succ_lt_succ hj, fun v => Nat.add_right_comm k j 1 ▸ hs v⟩
    case isFalse hf =>
      have hs := hc.mp (Bool.not_eq_true _ ▸ hf)
      exact ⟨Option.some.inj hr ▸ ha.computed hs, 0, Nat.succ_pos _, hs⟩

theorem exists_flowlvLoop {sets : LvSets m n} {remaining j : ℕ}
    (h : ∀ b, ∀ v : Fin n, vec_testbit v (sets.Binlv b) = true ↔ Reaches (flow config g v) k b)
    (hj : j < remaining) (hs : ∀ v : Fin n, Stable (flow config g v) (k + j)) :
    ∃ sets', flowlvLoop config g remaining sets = some sets' := by
  induction remaining generalizing k sets j with
  | zero => cases hj
  | succ remaining ih =>
    obtain ⟨ha, hc⟩ := flowlvPass_spec h
    simp only [flowlvLoop]
    split
    case isFalse => exact ⟨_, rfl⟩
    case isTrue ht =>
      cases j with
      | zero => exact absurd (hc.mpr hs) (by rw [ht]; exact nofun)
      | succ j =>
        exact ih ha.inlv_nil (Nat.lt_of_succ_lt_succ hj)
          fun v => (Nat.add_right_comm k 1 j).symm ▸ hs v

theorem reaches_zero_gen (b : Fin m) (v : Fin n) :
    vec_testbit v (lvgenkill config g b).GEN = true ↔ Reaches (flow config g v) 0 b :=
  (reaches_zero_iff (P := flow config g v)).symm

-- The assertion holds if and only if nothing changes after 48 passes.
theorem exists_flowlv_iff :
    (∃ sets, flowlv config g = some sets) ↔ ∀ v : Fin n, Stable (flow config g v) 48 := by
  constructor
  case mp =>
    rintro ⟨sets, hf⟩ v
    obtain ⟨-, j, hj, hs⟩ := flowlvLoop_computed reaches_zero_gen hf
    exact (hs v).mono (by omega)
  case mpr => exact fun hs => exists_flowlvLoop reaches_zero_gen (j := 48) (by decide) hs

theorem flowlv_computed {sets : LvSets m n} (h : flowlv config g = some sets) :
    Computed config g sets :=
  (flowlvLoop_computed reaches_zero_gen h).left

end Compiler.Backend.LiveVars
