import DmdModel.Compiler.Backend.Theorems.Bropt
import DmdModel.Compiler.Backend.Theorems.Brcombine

-- What branch optimization and branch rearrangement leave of the lists of predecessors: where a block goes
-- on to, it is listed, though perhaps not as often as it should be.
namespace Compiler.Backend.BlockOpt

open Relation

variable {n : Nat} {p : Passes n} {bo bo' bo'' : BlockOpt n} {b c s x y t db m : Nat}

section registered

-- Block b is a predecessor of what it can go on to.
def Registered (b : Nat) (bo : BlockOpt n) : Prop :=
  ∀ s, bo.Targets b s → 0 < bo.predCount b s

theorem Registered.congr (hs : Same b bo bo') (h : Registered b bo) : Registered b bo' := by
  intro s ht
  rw [hs.preds]
  exact h s ((targets_congr hs.code).mp ht)

-- What the kind of a block needs, as far as it goes on to others or returns a value.
structure Equipped (b : Nat) (bo : BlockOpt n) : Prop where
  belem : (bo.block b).bc = .iftrue ∨ (bo.block b).bc = .retexp → (bo.block b).Belem.isSome
  arms  : (bo.block b).bc = .iftrue → (bo.block b).Bsucc.length = 2
  goto  : (bo.block b).bc = .goto_ → (bo.block b).Bsucc ≠ []

-- A block after branch optimization. A switch that has become a goto has two successors.
structure Optimized (b : Nat) (bo : BlockOpt n) : Prop extends Equipped b bo where
  counts : (∀ s, bo.succCount b s = bo.predCount b s) ∨
    ((bo.block b).bc = .goto_ ∧ ∃ db, (bo.block b).Bsucc = [db, db] ∧
      ∀ s, bo.predCount b s = if s = db then 1 else 0)

theorem Optimized.congr (hs : Same b bo bo') (h : Optimized b bo) : Optimized b bo' where
  belem  := by rw [Block.code_bc hs.code, Block.code_Belem hs.code]; exact h.belem
  arms   := by rw [Block.code_bc hs.code, Block.code_Bsucc hs.code]; exact h.arms
  goto   := by rw [Block.code_bc hs.code, Block.code_Bsucc hs.code]; exact h.goto
  counts := by
    simp only [Block.code_bc hs.code, Block.code_Bsucc hs.code, hs.preds, succCount_congr hs.code]
    exact h.counts

-- A goto block lacks nothing but a successor.
theorem Equipped.of_goto (hbc : (bo.block b).bc = .goto_) (hs : (bo.block b).Bsucc ≠ []) :
    Equipped b bo where
  belem  := by rw [hbc]; exact nofun
  arms   := by rw [hbc]; exact nofun
  goto _ := hs

theorem Visitable.optimized (h : Visitable b bo) (hc : ∀ s, bo.succCount b s = bo.predCount b s) :
    Optimized b bo where
  belem hbc := h.complete.belem (hbc.imp_right .inr)
  counts    := .inl hc
  arms hbc  := by simpa only [Block.Arity, hbc] using h.arity
  goto hbc  := by
    have ha := h.arity
    simp only [Block.Arity, hbc] at ha
    rw [← List.length_pos_iff, ha]
    exact one_pos

theorem WellFormed.optimized (h : WellFormed bo) (hc : (bo.block b).Complete) : Optimized b bo :=
  (h.visitable hc).optimized (h.edges b)

-- The blocks all fit together.
theorem combinable_of_registered (ho : ∀ b, Equipped b bo) (hr : ∀ b, Registered b bo) :
    Combinable bo where
  listed hc _ _ := mem_Bpred_iff_predCount.mpr (hr _ _ hc)
  continues b   := (ho b).goto
  arms hbc      := List.length_eq_two.mp ((ho _).arms hbc)
  belem hbc     := Option.isSome_iff_exists.mp ((ho _).belem (.inl hbc))
  value _ hbc   := Option.isSome_iff_exists.mp ((ho _).belem (.inr hbc))

theorem WellFormed.registered (h : WellFormed bo) : Registered b bo := by
  intro s ht
  rw [← h.edges]
  exact edge_iff_succCount.mp ht.edge

theorem WellFormed.combinable (h : WellFormed bo) (hc : ∀ b, (bo.block b).Complete) :
    Combinable bo :=
  combinable_of_registered (fun b => (h.optimized (hc b)).toEquipped) fun _ => h.registered

end registered

section bropt

theorem cutSucc_optimized (hlen : (bo.block b).Bsucc.length = 2)
    (hdb : db ∈ (bo.block b).Bsucc) (h : ∀ s, bo.succCount b s = bo.predCount b s) :
    Optimized b (bo.cutSucc b db) := by
  have hbc' : ((bo.cutSucc b db).block b).bc = .goto_ := (congrArg Block.bc cutSucc_code :)
  have hs : ((bo.cutSucc b db).block b).Bsucc = (bo.block b).Bsucc.erase db :=
    (congrArg Block.Bsucc cutSucc_code :)
  refine ⟨.of_goto hbc' ?_, .inl fun s => ?_⟩
  case refine_1 =>
    rw [hs, ← List.length_pos_iff, List.length_erase_of_mem hdb, hlen]
    exact one_pos
  case refine_2 =>
    rw [cutSucc_predCount, ← h, succCount, succCount, hs, List.count_erase]
    simp [eq_comm (a := s)]

theorem Optimized.discardValue (h : Optimized b bo) (hbc : (bo.block b).bc = .goto_) :
    Optimized b (bo.discardValue p b) := by
  have hcode : ((bo.discardValue p b).block b).code = _ := discardValue_code
  have hbc' : ((bo.discardValue p b).block b).bc = .goto_ := (congrArg Block.bc hcode :).trans hbc
  have hs : ((bo.discardValue p b).block b).Bsucc = (bo.block b).Bsucc :=
    (congrArg Block.Bsucc hcode :)
  refine ⟨.of_goto hbc' (hs ▸ h.goto hbc), ?_⟩
  have hc := h.counts
  simp only [succCount, hs, hbc', hbc, discardValue_predCount] at hc ⊢
  exact hc

theorem broptBlock_optimized (hv : Visitable b bo) (hc : ∀ s, bo.succCount b s = bo.predCount b s)
    (h : broptBlock p bo b = some bo') : Optimized b bo' := by
  have ha := hv.arity
  cases broptBlock_cases h hv.complete with
  | exit _ _ h =>
    have hbc : ((bo.toExit b).block b).bc = .exit := (congrArg Block.bc toExit_code :)
    have hs : ((bo.toExit b).block b).Bsucc = [] := (congrArg Block.Bsucc toExit_code :)
    rw [h]
    refine ⟨⟨?_, ?_, ?_⟩, .inl fun s => ?_⟩
    case refine_4 => rw [toExit_predCount, hc, Nat.sub_self, succCount, hs, List.count_nil]
    all_goals simp [hbc]
  | switch hswitch he hconst hdb h =>
    obtain ⟨bo₁, h₁, -, hcode, hpreds⟩ := broptSwitch_const (p := p) hconst hdb hv.counts
    cases h.symm.trans h₁
    have hbc : (bo'.block b).bc = .goto_ := (congrArg Block.bc hcode :)
    have hs : (bo'.block b).Bsucc = [_, _] := (congrArg Block.Bsucc hcode :)
    refine ⟨.of_goto hbc ?_, .inr ⟨hbc, _, hs, fun s => ?_⟩⟩
    case refine_1 => rw [hs]; exact List.cons_ne_nil _ _
    case refine_2 =>
      obtain ⟨hlt, hdb⟩ := List.getElem?_eq_some_iff.mp hdb
      have hcount := (List.getElem_cons_eraseIdx_perm hlt).count_eq s
      rw [List.count_cons, hdb] at hcount
      rw [hpreds, ← hc, succCount, ← hcount, Nat.add_sub_cancel_left]
      simp [eq_comm (a := s)]
  | @iftrue e hbc he h =>
    have hlen : (bo.block b).Bsucc.length = 2 := by simpa only [Block.Arity, hbc] using ha
    have hlen₁ : ((broptNot bo b e).1.block b).Bsucc.length = 2 :=
      broptNot_Bsucc.length_eq.trans hlen
    have hc₁ (s : Nat) : (broptNot bo b e).1.succCount b s = (broptNot bo b e).1.predCount b s := by
      rw [broptNot_predCount, ← hc, succCount, succCount, broptNot_Bsucc.count_eq]
    have hcut {db : Nat} (hdb : db ∈ ((broptNot bo b e).1.block b).Bsucc) :=
      cutSucc_optimized hlen₁ hdb hc₁
    have hbc' {db : Nat} : (((broptNot bo b e).1.cutSucc b db).block b).bc = .goto_ :=
      (congrArg Block.bc cutSucc_code :)
    obtain ⟨s0, s1, succs, hs, ⟨-, rfl⟩ | ⟨-, rfl⟩ | ⟨-, rfl⟩ | rfl⟩ := broptIftrue_cases h
    case inl         => exact (hcut (hs ▸ by simp)).discardValue hbc'
    case inr.inl     => exact (hcut (hs ▸ by simp)).discardValue hbc'
    case inr.inr.inl => exact hcut (hs ▸ by simp)
    case inr.inr.inr =>
      have hbc₁ : ((broptNot bo b e).1.block b).bc = .iftrue := broptNot_bc.trans hbc
      refine ⟨⟨fun _ => ?_, fun _ => hlen₁, fun hg => ?_⟩, .inl hc₁⟩
      case refine_1 =>
        obtain h | ⟨ty, E1, -, h⟩ := broptNot_cases bo b e
        case inl => rw [h, he]; rfl
        case inr => rw [h, modify_block_self]; rfl
      case refine_2 =>
        rw [hbc₁] at hg
        cases hg
  | keep h => exact h ▸ hv.optimized hc

-- Branch optimization of a graph that is well formed.
theorem bropt_optimized (hwf : WellFormed bo) (hcomplete : ∀ b, (bo.block b).Complete)
    (h : bropt p bo = some bo') (b : Nat) : Optimized b bo' := by
  obtain ⟨bo₁, h₁, hv⟩ := exists_bropt (p := p) hwf hcomplete
  cases h.symm.trans h₁
  by_cases hb : b ∈ bo.list
  case neg => exact (hwf.optimized (hcomplete b)).congr (hv.same b hb)
  case pos =>
    obtain ⟨bo₁, bo₂, hs₁, hstep, hs₂⟩ := hv.visit b hb
    have hvis := (hwf.visitable (hcomplete b)).congr hs₁
    refine (broptBlock_optimized hvis (fun s => ?_) hstep).congr hs₂
    rw [hs₁.preds, succCount_congr hs₁.code]
    exact hwf.edges b s

end bropt

section chain

-- Through at most m empty blocks, x leads to t.
inductive Leads (bo : BlockOpt n) : Nat → Nat → Nat → Prop
  | limit (x : Nat) : Leads bo 0 x x
  | stop {m x : Nat} (h : ¬EmptyGoto (bo.block x)) : Leads bo (m + 1) x x
  | hop {m x y t : Nat} (he : EmptyGoto (bo.block x)) (hy : (bo.block x).Bsucc[0]? = some y)
    (h : Leads bo m y t) : Leads bo (m + 1) x t

theorem Leads.congr (he : ∀ c, EmptyGoto (bo'.block c) ↔ EmptyGoto (bo.block c))
    (hs : ∀ c, (bo'.block c).Bsucc[0]? = (bo.block c).Bsucc[0]?) (h : Leads bo m x t) :
    Leads bo' m x t := by
  induction h with
  | limit x         => exact .limit x
  | stop h          => exact .stop (mt (he _).mp h)
  | hop hx hy _ ih  => exact .hop ((he _).mpr hx) ((hs _).trans hy) ih

-- The steps of the rearrangement of one transfer address.
theorem brrearEdge_succ (h : bo.brrearEdge b c (m + 1) x = some bo') :
    (¬EmptyGoto (bo.block x) ∧ bo' = bo) ∨
      ∃ y, EmptyGoto (bo.block x) ∧ (bo.block x).Bsucc[0]? = some y ∧
        (bo.retarget b c x y).brrearEdge b c m y = some bo' := by
  unfold brrearEdge at h
  split at h
  case isTrue he =>
    obtain ⟨y, hy, h⟩ := Option.bind_eq_some_iff.mp h
    exact .inr ⟨y, he, hy, h⟩
  case isFalse he => exact .inl ⟨he, (Option.some.inj h).symm⟩

theorem retarget_emptyGoto :
    EmptyGoto ((bo.retarget b c x y).block s) ↔ EmptyGoto (bo.block s) := by
  by_cases hs : s = b
  case pos => rw [hs, EmptyGoto, EmptyGoto, retarget_spec.bc, retarget_spec.Belem]
  case neg =>
    have hcode : ((bo.retarget b c x y).block s).code = (bo.block s).code := retarget_rewrites.code hs
    rw [EmptyGoto, EmptyGoto, Block.code_bc hcode, Block.code_Belem hcode]

theorem brrearEdge_emptyGoto (h : bo.brrearEdge b c m x = some bo') :
    EmptyGoto (bo'.block s) ↔ EmptyGoto (bo.block s) := by
  induction m generalizing bo x with
  | zero => exact Option.some.inj h ▸ .rfl
  | succ m ih =>
    obtain ⟨-, rfl⟩ | ⟨y, -, -, h⟩ := brrearEdge_succ h
    case inl => exact .rfl
    case inr => exact (ih h).trans retarget_emptyGoto

theorem brrearEdge_rewrites (h : bo.brrearEdge b c m x = some bo') : Rewrites b bo bo' := by
  induction m generalizing bo x with
  | zero => exact Option.some.inj h ▸ .refl
  | succ m ih =>
    obtain ⟨-, rfl⟩ | ⟨y, -, -, h⟩ := brrearEdge_succ h
    case inl => exact .refl
    case inr => exact retarget_rewrites.trans (ih h)

-- A block that goes on to itself still does so.
theorem brrearEdge_self (hs : (bo.block b).Bsucc[0]? = some b)
    (h : bo.brrearEdge b 0 m b = some bo') : (bo'.block b).Bsucc[0]? = some b := by
  induction m generalizing bo with
  | zero => exact Option.some.inj h ▸ hs
  | succ m ih =>
    obtain ⟨-, rfl⟩ | ⟨y, -, hy, h⟩ := brrearEdge_succ h
    case inl => exact hs
    case inr =>
      cases hs.symm.trans hy
      refine ih ?_ h
      rw [retarget_spec.Bsucc]
      exact List.getElem?_set_self (List.getElem?_eq_some_iff.mp hs).1

-- The first transfer address of b leads to where b goes on to afterwards.
theorem brrearEdge_first (hs : (bo.block b).Bsucc = [x, db])
    (hp : ∀ s, bo.predCount b s = if s = x then 1 else 0)
    (h : bo.brrearEdge b 0 m x = some bo') :
    ∃ t, (bo'.block b).Bsucc = [t, db] ∧ (∀ s, bo'.predCount b s = if s = t then 1 else 0) ∧
      Leads bo' m x t := by
  induction m generalizing bo x with
  | zero =>
    cases Option.some.inj h
    exact ⟨x, hs, hp, .limit x⟩
  | succ m ih =>
    obtain ⟨hx, rfl⟩ | ⟨y, hx, hy, h⟩ := brrearEdge_succ h
    case inl => exact ⟨x, hs, hp, .stop hx⟩
    case inr =>
      have hx' : EmptyGoto (bo'.block x) :=
        (brrearEdge_emptyGoto h).mpr ((retarget_emptyGoto).mpr hx)
      have hs' : ((bo.retarget b 0 x y).block b).Bsucc = [y, db] := by
        rw [retarget_spec.Bsucc, hs]
        rfl
      have hp' (s : Nat) : (bo.retarget b 0 x y).predCount b s = if s = y then 1 else 0 := by
        rw [retarget_predCount, hp]
        omega
      obtain ⟨t, ht, hpt, hl⟩ := ih hs' hp' h
      refine ⟨t, ht, hpt, .hop hx' ?_ hl⟩
      by_cases hxb : x = b
      case neg =>
        have hr := retarget_rewrites.trans (brrearEdge_rewrites h)
        rw [Block.code_Bsucc (hr.code hxb), hy]
      case pos =>
        subst hxb
        rw [hs] at hy
        cases Option.some.inj hy
        exact brrearEdge_self (by rw [hs']; rfl) h

-- The second one leads to the same place, or it does not pass there.
theorem brrearEdge_second (hs : (bo.block b).Bsucc = [t, x])
    (hp : (if x = t then 2 else 1) ≤ bo.predCount b t ∨
      (0 < bo.predCount b x ∧ Leads bo m x t))
    (h : bo.brrearEdge b 1 m x = some bo') :
    ∃ y, (bo'.block b).Bsucc = [t, y] ∧ 0 < bo'.predCount b t := by
  have hpos {P : Prop} [Decidable P] {k : Nat} (hk : (if P then 2 else 1) ≤ k) : 0 < k := by
    split at hk <;> omega
  induction m generalizing bo x with
  | zero =>
    cases Option.some.inj h
    refine ⟨x, hs, hp.elim hpos ?_⟩
    rintro ⟨hx, hl⟩
    cases hl
    exact hx
  | succ m ih =>
    obtain ⟨hx, rfl⟩ | ⟨y, hx, hy, h⟩ := brrearEdge_succ h
    case inl =>
      refine ⟨x, hs, hp.elim hpos ?_⟩
      rintro ⟨hx', hl⟩
      cases hl with
      | stop      => exact hx'
      | hop hx''  => exact absurd hx'' hx
    case inr =>
      have hs' : ((bo.retarget b 1 x y).block b).Bsucc = [t, y] := by
        rw [retarget_spec.Bsucc, hs]
        rfl
      refine ih hs' ?_ h
      rw [retarget_predCount, retarget_predCount]
      obtain hp | ⟨hp, hl⟩ := hp
      case inl =>
        left
        split_ifs at hp ⊢ <;> omega
      case inr =>
        right
        constructor
        case left => by_cases hyx : y = x <;> simp [hyx, hp]
        case right =>
          cases hl with
          | stop hx' => exact absurd hx hx'
          | hop _ hy' hl =>
            cases hy.symm.trans hy'
            refine hl.congr (fun c => retarget_emptyGoto) fun c => ?_
            by_cases hc : c = b
            case pos =>
              rw [hc, retarget_spec.Bsucc]
              exact List.getElem?_set_ne one_ne_zero
            case neg => rw [Block.code_Bsucc (retarget_rewrites.code hc)]

end chain

section brrear

theorem Hop.counts (h : Hop b bo bo') (hc : ∀ s, bo.succCount b s = bo.predCount b s) (s : Nat) :
    bo'.succCount b s = bo'.predCount b s := by
  cases h with
  | @intro i bt t hi he ht h =>
    subst h
    have hle : (if s = bt then 1 else 0) ≤ bo.predCount b s := by
      split
      case isTrue h  => rw [← hc, h]; exact edge_iff_succCount.mp (List.mem_of_getElem? hi)
      case isFalse h => exact Nat.zero_le _
    rw [retarget_predCount, retarget_succCount hi, hc]
    omega

theorem Hop.registered (h : ReflTransGen (Hop b) bo bo')
    (hc : ∀ s, bo.succCount b s = bo.predCount b s) : Registered b bo' := by
  have hc' (s : Nat) : bo'.succCount b s = bo'.predCount b s := by
    induction h generalizing s with
    | refl        => exact hc s
    | tail _ h ih => exact h.counts ih s
  intro s ht
  rw [← hc']
  exact edge_iff_succCount.mp ht.edge

theorem brrearBlock_registered (ho : Optimized b bo) (hc : bo.Continues)
    (h : bo.brrearBlock b = some bo') : Registered b bo' := by
  obtain ⟨bo₁, h₁, hr⟩ := exists_brrearBlock (b := b) hc
  cases h.symm.trans h₁
  obtain hcounts | ⟨hbc, db, hs, hp⟩ := ho.counts
  case inl => exact Hop.registered hr hcounts
  case inr =>
    simp only [brrearBlock, hs, List.length_cons, List.length_nil, List.range_succ, List.range_zero,
      List.nil_append, List.cons_append, List.foldlM_cons, List.foldlM_nil] at h
    obtain ⟨bo₁, h₁, h⟩ := Option.bind_eq_some_iff.mp h
    obtain ⟨bo₂, h₂, h⟩ := Option.bind_eq_some_iff.mp h
    cases Option.some.inj h
    obtain ⟨t, ht, hpt, hl⟩ := brrearEdge_first hs hp h₁
    rw [ht] at h₂
    have hinit : (if db = t then 2 else 1) ≤ bo₁.predCount b t ∨
        (0 < bo₁.predCount b db ∧ Leads bo₁ 9 db t) := by
      by_cases hdb : db = t
      case pos => exact .inr ⟨by simp [hpt, hdb], hl⟩
      case neg => exact .inl (by simp [hpt, hdb])
    obtain ⟨y, hy, hpos⟩ := brrearEdge_second ht hinit h₂
    intro s hts
    have hbc' : (bo'.block b).bc = .goto_ := (hops_invariant hr).bc.trans hbc
    rw [targets_goto hbc', hy] at hts
    cases Option.some.inj hts
    exact hpos

-- The blocks fit together after branch rearrangement.
theorem brrear_combinable (hl : bo.list.Nodup) (ho : ∀ b, Optimized b bo)
    (hr : ∀ b ∉ bo.list, Registered b bo) (h : bo.brrear = some bo') : Combinable bo' := by
  suffices hsuff : ∀ (l : List Nat) (bo : BlockOpt n), l.Nodup → (∀ b, Equipped b bo) →
      (∀ b ∈ l, Optimized b bo) → (∀ b ∉ l, Registered b bo) →
      l.foldlM brrearBlock bo = some bo' → Combinable bo' from
    hsuff _ _ hl (fun b => (ho b).toEquipped) (fun b _ => ho b) hr h
  intro l
  induction l with
  | nil =>
    intro bo _ he _ hr h
    cases Option.some.inj h
    exact combinable_of_registered he fun b => hr b List.not_mem_nil
  | cons b l ih =>
    intro bo hl he ho hr h
    obtain ⟨hb, hl⟩ := List.nodup_cons.mp hl
    obtain ⟨bo₁, h₁, h⟩ := Option.bind_eq_some_iff.mp h
    have hc : bo.Continues := fun b => (he b).goto
    obtain ⟨bo₂, h₂, hops⟩ := exists_brrearBlock (b := b) hc
    cases h₁.symm.trans h₂
    have hrw : Rewrites b bo bo₁ := by
      clear h h₁ h₂
      induction hops with
      | refl        => exact .refl
      | tail _ h ih => exact ih.trans h.rewrites
    have he₁ (c : Nat) : Equipped c bo₁ := by
      have hk := hops_invariant (c := c) hops
      refine ⟨?_, ?_, fun hbc => ?_⟩
      case refine_1 => rw [hk.bc, hk.Belem]; exact (he c).belem
      case refine_2 => rw [hk.bc, hk.length]; exact (he c).arms
      case refine_3 => exact hk.continues hc c hbc
    refine ih bo₁ hl he₁ (fun c hcl => ?_) (fun c hcl => ?_) h
    case refine_1 =>
      exact (ho c (List.mem_cons_of_mem b hcl)).congr (hrw.same c fun hcb => hb (hcb ▸ hcl))
    case refine_2 =>
      by_cases hcb : c = b
      case pos =>
        rw [hcb]
        exact brrearBlock_registered (ho b List.mem_cons_self) hc h₁
      case neg =>
        refine (hr c fun hmem => ?_).congr (hrw.same c hcb)
        exact (List.mem_cons.mp hmem).elim hcb hcl

end brrear

end Compiler.Backend.BlockOpt
