import DmdModel.Compiler.Backend.Semantics
import DmdModel.Compiler.Backend.Theorems.Predecessors
import DmdModel.Compiler.Backend.Theorems.BrcombineSteps
import DmdModel.Compiler.Backend.Theorems.Blassertsplit

namespace Compiler.Backend.BlockOpt

open Lockstep

variable {n : Nat} {σ V E : Type} {I : Interp n σ V E} {p : Passes n} {bo bo' : BlockOpt n} {b : Nat}

section brcombine

-- No block that the combination comes to has an infinite loop as its second arm.
def NoInfiniteArm (bo : BlockOpt n) : Prop :=
  Throughout (fun b bo => ¬InfiniteArm b bo) brcombineBlock bo.list bo

instance (bo : BlockOpt n) : Decidable (NoInfiniteArm bo) :=
  inferInstanceAs (Decidable (Throughout _ _ _ _))

theorem Combine.combinable (h : Combine b bo bo') (hc : Combinable bo) (hi : ¬InfiniteArm b bo) :
    Combinable bo' := by
  cases h with
  | keep h                           => exact h ▸ hc
  | and ha hbc hs h                  => exact h ▸ hc.combineAnd ha hbc hs
  | loop h                           => exact absurd h hi
  | retexp ha hb hbc₂ hbc₃ _ _ h     => exact h ▸ hc.combineRetexp ha hb hbc₂ hbc₃
  | goto ha hb hbc₂ hbc₃ hs₂ hs₃ h   => exact h ▸ hc.combineGoto ha hb hbc₂ hbc₃ hs₂ hs₃

theorem Combine.sameBehaviour (h : Combine b bo bo') (hc : Combinable bo) (hi : ¬InfiniteArm b bo) :
    I.SameBehaviour bo bo' := by
  cases h with
  | keep h => exact h ▸ Interp.SameRuns.refl.sameBehaviour rfl
  | loop h => exact absurd h hi
  | and ha hbc hs h =>
    subst h
    refine sameBehaviour_of_matches (P := (· ≠ _)) combineAnd_list (fun b hb => ?_) fun c u hc' =>
      combineAnd_matches hc ha hbc hs hc'
    rintro rfl
    exact ha.start hb
  | retexp ha hb hbc₂ hbc₃ he₂ he₃ h =>
    subst h
    refine sameBehaviour_of_matches (P := fun c => c ≠ _ ∧ c ≠ _) rfl (fun b hs => ⟨?_, ?_⟩)
      fun c u hc' => combineRetexp_matches hc ha hb hbc₂ hbc₃ he₂ he₃ hc'
    case refine_1 => rintro rfl; exact ha.start hs
    case refine_2 => rintro rfl; exact hb.start hs
  | goto ha hb hbc₂ hbc₃ hs₂ hs₃ h =>
    subst h
    refine sameBehaviour_of_matches (P := fun c => c ≠ _ ∧ c ≠ _) combineGoto_list
      (fun b hs => ⟨?_, ?_⟩) fun c u hc' => combineGoto_matches hc ha hb hbc₂ hbc₃ hs₂ hs₃ hc'
    case refine_1 => rintro rfl; exact ha.start hs
    case refine_2 => rintro rfl; exact hb.start hs

-- The combination of blocks keeps what a function does.
theorem brcombine_sameBehaviour (hc : Combinable bo) (hi : NoInfiniteArm bo) :
    ∃ bo', bo.brcombine = some bo' ∧ I.SameBehaviour bo bo' := by
  suffices h : ∀ (l : List Nat) (bo : BlockOpt n), Combinable bo →
      Throughout (fun b bo => ¬InfiniteArm b bo) brcombineBlock l bo →
      ∃ bo', l.foldlM brcombineBlock bo = some bo' ∧ I.SameBehaviour bo bo' from
    h _ _ hc hi
  intro l
  induction l with
  | nil => exact fun bo _ _ => ⟨bo, rfl, Interp.SameRuns.refl.sameBehaviour rfl⟩
  | cons b l ih =>
    intro bo hc hi
    obtain ⟨bo₁, h₁, hcomb⟩ := exists_brcombineBlock (b := b) hc
    obtain ⟨bo', hbo', hs⟩ := ih bo₁ (hcomb.combinable hc hi.left) (hi.right bo₁ h₁)
    exact ⟨bo', by simp [h₁, hbo'], (hcomb.sameBehaviour hc hi.left).trans hs⟩

end brcombine

section branches

-- Branch optimization, branch rearrangement and the combination of blocks, alone and one after the other,
-- keep what a function does.
theorem branches_sameBehaviour (hp : I.KeepsEffects p.doptelem) (hwf : WellFormed bo)
    (hcomplete : ∀ b, (bo.block b).Complete) (ht : ∀ b, ∀ e ∈ (bo.block b).Belem, I.Typed e) :
    (∃ bo', bropt p bo = some bo' ∧ I.SameBehaviour bo bo') ∧
      (∃ bo', bo.brrear = some bo' ∧ I.SameBehaviour bo bo') ∧
      (NoInfiniteArm bo → ∃ bo', bo.brcombine = some bo' ∧ I.SameBehaviour bo bo') ∧
      ∃ bo₁ bo₂, bropt p bo = some bo₁ ∧ bo₁.brrear = some bo₂ ∧ I.SameBehaviour bo bo₂ ∧
        (NoInfiniteArm bo₂ → ∃ bo', bo₂.brcombine = some bo' ∧ I.SameBehaviour bo bo') := by
  obtain ⟨bo₁, h₁, hv⟩ := exists_bropt (p := p) hwf hcomplete
  have hs₁ : I.SameBehaviour bo bo₁ := bropt_sameBehaviour hp hwf hcomplete ht h₁
  have ho := bropt_optimized hwf hcomplete h₁
  obtain ⟨bo₂, h₂, hs₂⟩ : ∃ bo₂, bo₁.brrear = some bo₂ ∧ I.SameBehaviour bo₁ bo₂ :=
    brrear_sameBehaviour fun b => (ho b).goto
  have hc₂ : Combinable bo₂ := by
    refine brrear_combinable (hv.list ▸ hwf.nodup) ho (fun b hb => ?_) h₂
    exact hwf.registered.congr (hv.same b (hv.list ▸ hb))
  have hs := hs₁.trans hs₂
  refine ⟨⟨bo₁, h₁, hs₁⟩, brrear_sameBehaviour hwf.continues, ?_, bo₁, bo₂, h₁, h₂, hs, fun hi => ?_⟩
  case refine_1 => exact brcombine_sameBehaviour (hwf.combinable hcomplete)
  case refine_2 =>
    obtain ⟨bo₃, h₃, hs₃⟩ := brcombine_sameBehaviour (I := I) hc₂ hi
    exact ⟨bo₃, h₃, hs.trans hs₃⟩

-- Elems are optimized to themselves.
def unoptimized (n : Nat) : Passes n where
  doptelem     := some
  el_match a b := a = b

theorem unoptimized_keepsEffects : I.KeepsEffects (unoptimized n).doptelem :=
  fun _ _ => Interp.evalBlock_discard

def x : Elem 1 :=
  .var TYint (.intab ⟨0, Nat.zero_lt_one⟩) 0

-- if (x) x; else x; return;
def diamond : List (Block Nat 1) := [
  { bc := .iftrue, Belem := some x, Bsucc := [1, 2] },
  { bc := .goto_, Belem := some x, Bsucc := [3], Bpred := [0] },
  { bc := .goto_, Belem := some x, Bsucc := [3], Bpred := [0] },
  { bc := .ret, Bpred := [1, 2] }
]

-- if (x) x; for (;;) { }
def infiniteLoop : List (Block Nat 1) := [
  { bc := .iftrue, Belem := some x, Bsucc := [1, 2] },
  { bc := .goto_, Belem := some x, Bsucc := [2], Bpred := [0] },
  { bc := .goto_, Bsucc := [2], Bpred := [0, 1, 2] }
]

theorem diamond_wellFormed : WellFormed (ofBlocks diamond) :=
  ofBlocks_wellFormed (by decide) (by decide) (by decide) (by decide) rfl

theorem infiniteLoop_wellFormed : WellFormed (ofBlocks infiniteLoop) :=
  ofBlocks_wellFormed (by decide) (by decide) (by decide) (by decide) rfl

-- A block without a switch that has no other expression than x.
def Plain (blk : Block Nat 1) : Prop :=
  blk.bc ≠ .switch_ ∧ (blk.bc = .iftrue ∨ blk.bc = .retexp → blk.Belem.isSome) ∧
    ∀ e ∈ blk.Belem, e = x

instance : DecidablePred Plain :=
  fun _ => inferInstanceAs (Decidable (_ ∧ _ ∧ _))

theorem plain_ofBlocks {l : List (Block Nat 1)} (h : ∀ blk ∈ l, Plain blk) :
    (∀ b, ((ofBlocks l).block b).Complete) ∧
      ∀ b, ∀ e ∈ ((ofBlocks l).block b).Belem, (Evaluator.interp 1).Typed e := by
  have hplain (b : Nat) : Plain ((ofBlocks l).block b) :=
    forall_ofBlocks (P := Plain) (by decide) h b
  refine ⟨fun b => .of_not_switch (hplain b).left (hplain b).right.left, fun b e he => ?_⟩
  rw [(hplain b).right.right e he]
  exact nofun

theorem branches_sameBehaviour_diamond : ∃ bo', (ofBlocks diamond).brcombine = some bo' ∧
    (Evaluator.interp 1).SameBehaviour (ofBlocks diamond) bo' := by
  obtain ⟨hcomplete, ht⟩ := plain_ofBlocks (l := diamond) (by decide)
  exact (branches_sameBehaviour (p := unoptimized 1) unoptimized_keepsEffects diamond_wellFormed
    hcomplete ht).right.right.left (by decide)

theorem brcombine_ends_infiniteLoop :
    (∀ b, ((ofBlocks infiniteLoop).block b).Complete) ∧
      (∀ b, ∀ e ∈ ((ofBlocks infiniteLoop).block b).Belem, (Evaluator.interp 1).Typed e) ∧
      WellFormed (ofBlocks infiniteLoop) ∧ ∃ bo', (ofBlocks infiniteLoop).brcombine = some bo' ∧
        ¬(Evaluator.interp 1).SameBehaviour (ofBlocks infiniteLoop) bo' := by
  obtain ⟨hcomplete, ht⟩ := plain_ofBlocks (l := infiniteLoop) (by decide)
  refine ⟨hcomplete, ht, infiniteLoop_wellFormed,
    ((ofBlocks infiniteLoop).combineAnd 0 1).combineGoto 0 1 2 2, rfl, fun h => ?_⟩
  obtain ⟨b, hb, h⟩ := h 0 rfl
  cases hb
  have hd : Diverges ((Evaluator.interp 1).step (ofBlocks infiniteLoop)) (0, fun _ => 0) := by
    refine diverges_of_invariant (P := fun c => c = (0, fun _ => 0) ∨ c = (2, fun _ => 0)) ?_ (.inl rfl)
    rintro _ (rfl | rfl)
    all_goals exact ⟨[], (2, fun _ => 0), rfl, .inr rfl⟩
  have he : Ends ((Evaluator.interp 1).step
      (((ofBlocks infiniteLoop).combineAnd 0 1).combineGoto 0 1 2 2)) (0, fun _ => 0) []
      (.returned none) := ⟨2, rfl⟩
  exact diverges_iff.mp ((h _).diverges_iff.mp hd) ⟨_, _, he⟩

end branches

end Compiler.Backend.BlockOpt

namespace Compiler.Backend

open Relation Lockstep

variable {n : Nat} {p : Passes n}

namespace Elem

variable {e e' : Elem n} {l : List (Elem n)}

theorem flatMap_bl_enlist2 :
    ((bl_delist2 l).map bl_enlist2).getD [] = l.flatMap bl_enlist2 := by
  induction l using List.reverseRecOn with
  | nil => rfl
  | append_singleton l e ih =>
    rw [bl_delist2_concat, List.flatMap_append, List.flatMap_singleton, ← ih]
    cases bl_delist2 l with
    | none   => simp [el_combine]
    | some _ => simp [el_combine, bl_enlist2]

-- The expressions of a comma expression are none themselves.
theorem bl_enlist2_single (h : e' ∈ e.bl_enlist2) : e'.bl_enlist2 = [e'] := by
  induction e using bl_enlist2.induct with
  | case1 ty ET E1 E2 ih₁ ih₂ =>
    rw [bl_enlist2, List.mem_append] at h
    exact h.elim ih₁ ih₂
  | case2 e hne =>
    rw [bl_enlist2.eq_2 e hne] at h
    rw [List.mem_singleton.mp h, bl_enlist2.eq_2 e hne]

theorem flatMap_single (h : ∀ e ∈ l, e.bl_enlist2 = [e]) : l.flatMap bl_enlist2 = l := by
  rw [List.flatMap_congr h]
  exact List.flatMap_singleton' l

theorem bl_enlist2_scancommas : e.el_scancommas.bl_enlist2 = [e.el_scancommas] := by
  have hmem : e.el_scancommas ∈ e.bl_enlist2 := by
    rw [bl_enlist2_snip]
    simp
  exact bl_enlist2_single hmem

end Elem

namespace BlockOpt

variable {bo bo' : BlockOpt n} {b bn x y z k : Nat} {e E1 E2 : Elem n} {l l' : List (Elem n)}

-- The expressions of the blocks that there were are the same.
def SameExpressions (bo bo' : BlockOpt n) : Prop :=
  ∀ b < bo.fresh, exprs (bo'.block b) = exprs (bo.block b)

section blident

theorem exprs_congr {blk blk' : Block Nat n} (h : blk.Belem = blk'.Belem) : exprs blk = exprs blk' := by
  rw [exprs, exprs, h]

theorem SameExpressions.foldl (step : BlockOpt n → Nat → BlockOpt n)
    (hstep : ∀ bo b, WellFormed bo → WellFormed (step bo b) ∧ bo.fresh ≤ (step bo b).fresh ∧
      ∀ x < bo.fresh, ((step bo b).block x).Belem = (bo.block x).Belem)
    (h : WellFormed bo) (l : List Nat) : bo.fresh ≤ (l.foldl step bo).fresh ∧
      ∀ x < bo.fresh, ((l.foldl step bo).block x).Belem = (bo.block x).Belem := by
  induction l generalizing bo with
  | nil => exact ⟨le_rfl, fun _ _ => rfl⟩
  | cons b l ih =>
    obtain ⟨hwf, hle, hB⟩ := hstep bo b h
    obtain ⟨hle', hB'⟩ := ih hwf
    exact ⟨hle.trans hle', fun x hx => (hB' x (hx.trans_le hle)).trans (hB x hx)⟩

theorem blidentBlock_Belem (h : WellFormed bo) : bo.fresh ≤ (bo.blidentBlock p bn).fresh ∧
    ∀ x < bo.fresh, ((bo.blidentBlock p bn).block x).Belem = (bo.block x).Belem := by
  obtain heq | ⟨b, hb, -, heq⟩ := blidentBlock_cases p bo bn
  case inl =>
    rw [heq]
    exact ⟨le_rfl, fun _ _ => rfl⟩
  case inr =>
    have he := h.eliminated (following_ne h.nodup hb)
    rw [heq]
    exact ⟨he.fresh.ge, fun x _ => he.Belem x⟩

theorem blident_Belem (h : WellFormed bo) : bo.fresh ≤ (bo.blident p).fresh ∧
    ∀ x < bo.fresh, ((bo.blident p).block x).Belem = (bo.block x).Belem :=
  SameExpressions.foldl (blidentBlock p) (fun _ _ h => ⟨h.blidentBlock, blidentBlock_Belem h⟩) h bo.list

theorem blident_sameExpressions (h : WellFormed bo) : SameExpressions bo (bo.blident p) :=
  fun b hb => exprs_congr ((blident_Belem h).right b hb)

theorem blreturnBlock_Belem (h : WellFormed bo) : bo.fresh ≤ (bo.blreturnBlock b).fresh ∧
    ∀ x < bo.fresh, ((bo.blreturnBlock b).block x).Belem = (bo.block x).Belem := by
  unfold blreturnBlock
  dsimp only
  split
  case isFalse => exact ⟨le_rfl, fun _ _ => rfl⟩
  case isTrue hb =>
    have hsp := h.splitReturn_spec hb.left hb.right
    refine ⟨hsp.fresh ▸ Nat.le_succ _, fun x hx => ?_⟩
    by_cases hxb : x = b
    case pos => rw [hxb, hsp.self]
    case neg => rw [hsp.other x hxb hx.ne]

theorem blreturn_sameExpressions {MFtime : Bool} (h : WellFormed bo) :
    SameExpressions bo (bo.blreturn p MFtime) := by
  intro b hb
  unfold blreturn
  split_ifs
  case pos => rfl
  case pos => rfl
  case neg =>
    obtain ⟨hle, hB⟩ := SameExpressions.foldl blreturnBlock
      (fun _ _ h => ⟨h.blreturnBlock, blreturnBlock_Belem h⟩) h bo.list
    have hwf : WellFormed (bo.list.foldl BlockOpt.blreturnBlock bo) := h.foldl WellFormed.blreturnBlock
    exact exprs_congr (((blident_Belem hwf).right b (hb.trans_le hle)).trans (hB b hb))

theorem toExit_Belem : ((bo.toExit b).block x).Belem = (bo.block x).Belem := by
  by_cases hx : x = b
  case pos => exact hx ▸ (congrArg Block.Belem toExit_code :)
  case neg => exact Block.code_Belem (toExit_rewrites.code hx)

theorem blexit_sameExpressions (h : WellFormed bo) : SameExpressions bo bo.blexit := by
  intro b _
  obtain ⟨bo', l, hs, -, -, -, heq⟩ := h.exists_blexit
  have hB : (bo'.block b).Belem = (bo.block b).Belem := by
    clear heq
    induction hs with
    | refl => rfl
    | tail _ hstep ih =>
      obtain ⟨c, e, -, -, rfl⟩ := hstep
      exact (toExit_Belem).trans ih
  rw [heq]
  exact exprs_congr hB

end blident

section bltailmerge

-- Expressions that are found to match, directly or by way of others.
def Matched (p : Passes n) : Elem n → Elem n → Prop :=
  EqvGen fun e e' => p.el_match (some e) (some e')

-- The expressions of a block, where the last one may be in a new block that it goes on to.
inductive Tailed (p : Passes n) (k : Nat) (bo : BlockOpt n) : List (Elem n) → Nat → Prop
  | block {l : List (Elem n)} {x : Nat} :
    l.Forall₂ (Matched p) (exprs (bo.block x)) → Tailed p k bo l x
  | goto {l l' : List (Elem n)} {x y : Nat} :
    l.Forall₂ (Matched p) (exprs (bo.block x)) → (bo.block x).bc = .goto_ →
    (bo.block x).Bsucc = [y] → k ≤ y → Tailed p k bo l' y → Tailed p k bo (l ++ l') x

theorem forall₂_matched_refl : l.Forall₂ (Matched p) l :=
  List.forall₂_same.mpr fun _ _ => EqvGen.refl _

-- The expressions of a block that shares its tail.
theorem SharedTail.exprs_split (ht : SharedTail p b bn bo) (h : WellFormed bo) (hx : x = b ∨ x = bn) :
    ∃ e e', exprs (bo.block x) = exprs ((bo.tailMerge b bn).block x) ++ [e] ∧
      exprs ((bo.tailMerge b bn).block bo.fresh) = [e'] ∧ Matched p e e' := by
  have hm := ht.tailMerged h
  obtain ⟨e, he⟩ := Option.isSome_iff_exists.mp ht.Belem
  obtain ⟨en, hen⟩ := Option.isSome_iff_exists.mp ht.Belemn
  have htails := ht.tails
  rw [he, hen] at htails
  have hnew : exprs ((bo.tailMerge b bn).block bo.fresh) = [e.el_scancommas] := by
    rw [exprs, Block.Belem_of_code hm.new, he]
    exact Elem.bl_enlist2_scancommas
  have hex : ∃ ex, (bo.block x).Belem = some ex ∧ Matched p ex.el_scancommas e.el_scancommas := by
    obtain rfl | rfl := hx
    case inl => exact ⟨e, he, EqvGen.refl _⟩
    case inr => exact ⟨en, hen, EqvGen.symm _ _ (EqvGen.rel _ _ htails)⟩
  obtain ⟨ex, hex, hmatched⟩ := hex
  refine ⟨ex.el_scancommas, e.el_scancommas, ?_, hnew, hmatched⟩
  rw [exprs, exprs, Block.code_Belem (hm.snipped x hx), snipTail, hex]
  exact Elem.bl_enlist2_snip

theorem forall₂_matched_concat (h : l.Forall₂ (Matched p) (l' ++ [e])) : ∃ l₁ e₁,
    l = l₁ ++ [e₁] ∧ l₁.Forall₂ (Matched p) l' ∧ Matched p e₁ e := by
  have hinit := List.forall₂_take_append l l' [e] h
  have hlast := List.forall₂_drop_append l l' [e] h
  obtain ⟨e₁, l₁, he, hnil, hl⟩ := List.forall₂_cons_right_iff.mp hlast
  rw [List.forall₂_nil_right_iff.mp hnil] at hl
  exact ⟨_, e₁, hl ▸ (List.take_append_drop _ l).symm, hinit, he⟩

-- A block that shares its tail goes on to the new block.
theorem SharedTail.goto (ht : SharedTail p b bn bo) (h : WellFormed bo) (hk : k ≤ bo.fresh)
    (hxb : x = b ∨ x = bn) (hl : l.Forall₂ (Matched p) (exprs (bo.block x)))
    (hnew : ∀ e, [e].Forall₂ (Matched p) (exprs ((bo.tailMerge b bn).block bo.fresh)) →
      Tailed p k (bo.tailMerge b bn) (e :: l') bo.fresh) :
    Tailed p k (bo.tailMerge b bn) (l ++ l') x := by
  obtain ⟨e, e', hex, hexn, hee'⟩ := ht.exprs_split h hxb
  have hsn := (ht.tailMerged h).snipped x hxb
  rw [hex] at hl
  obtain ⟨l₁, e₁, rfl, hl₁, he₁⟩ := forall₂_matched_concat hl
  rw [List.append_assoc]
  refine .goto hl₁ (Block.code_bc hsn) (Block.code_Bsucc hsn) hk (hnew e₁ ?_)
  rw [hexn]
  exact .cons (he₁.trans _ _ _ hee') .nil

theorem SharedTail.tailed (ht : SharedTail p b bn bo) (h : WellFormed bo) (hk : k ≤ bo.fresh)
    (hx : x < bo.fresh) (hc : Tailed p k bo l x) : Tailed p k (bo.tailMerge b bn) l x := by
  have hm := ht.tailMerged h
  induction hc with
  | @block l x hl =>
    by_cases hxb : x = b ∨ x = bn
    case neg => exact .block (exprs_congr (Block.code_Belem (hm.other x hxb hx.ne)) ▸ hl)
    case pos =>
      rw [← List.append_nil l]
      exact ht.goto h hk hxb hl fun _ he => .block he
  | @goto l l' x y hl hbc hs hky _ ih =>
    have hy : y < bo.fresh := by
      by_contra hn
      exact h.fresh_not_edge (Nat.le_of_not_lt hn) (show bo.Edge x y by rw [Edge, hs]; simp)
    have ih := ih hy
    by_cases hxb : x = b ∨ x = bn
    case neg =>
      have hcode := hm.other x hxb hx.ne
      exact .goto (exprs_congr (Block.code_Belem hcode) ▸ hl) ((Block.code_bc hcode).trans hbc)
        ((Block.code_Bsucc hcode).trans hs) hky ih
    case pos =>
      -- The new block goes on to where the two went.
      have hb : (bo.block b).bc = .goto_ ∧ (bo.block b).Bsucc = [y] := by
        obtain rfl | rfl := hxb
        case inl => exact ⟨hbc, hs⟩
        case inr => exact ⟨ht.bc.symm.trans hbc, ht.Bsucc.trans hs⟩
      exact ht.goto h hk hxb hl fun _ he =>
        .goto he (hm.new_bc.trans hb.left) (hm.new_Bsucc.trans hb.right) hky ih

-- Tail merging keeps the expressions of a block and their order.
theorem bltailmerge_tailed (h : WellFormed bo) : ∃ bo', bo.bltailmerge p = some bo' ∧
    ∀ b < bo.fresh, Tailed p bo.fresh bo' (exprs (bo.block b)) b := by
  obtain ⟨bo', hbo', hr⟩ := h.exists_bltailmerge (p := p)
  refine ⟨bo', hbo', ?_⟩
  clear hbo'
  suffices hall : WellFormed bo' ∧ bo.fresh ≤ bo'.fresh ∧
      ∀ b < bo.fresh, Tailed p bo.fresh bo' (exprs (bo.block b)) b from hall.right.right
  induction hr with
  | refl => exact ⟨h, le_rfl, fun _ _ => .block forall₂_matched_refl⟩
  | tail _ hs ih =>
    obtain ⟨b, bn, ht, rfl⟩ := hs
    obtain ⟨hwf, hle, hall⟩ := ih
    refine ⟨ht.wellFormed hwf, hle.trans ?_, fun x hx => ht.tailed hwf hle (hx.trans_le hle) (hall x hx)⟩
    exact (ht.tailMerged hwf).fresh ▸ Nat.le_succ _

end bltailmerge

section blassertsplit

variable {st : Splitting n}

-- The expressions of a block, some of which are asserts that branch to an exit block.
inductive Asserted (k : Nat) (bo : BlockOpt n) : List (Elem n) → Nat → Prop
  | block {l : List (Elem n)} {x : Nat} : exprs (bo.block x) = l → Asserted k bo l x
  | value {x : Nat} :
    (bo.block x).bc = .retexp → exprs (bo.block x) = [.const TYint (.integral 1)] → Asserted k bo [] x
  | assert {l l' : List (Elem n)} {e E1 E2 : Elem n} {x y z : Nat} :
    e.assertion = some (E1, E2) → exprs (bo.block x) = l ++ E1.bl_enlist2 → (bo.block x).bc = .iftrue →
    (bo.block x).Bsucc = [y, z] → k ≤ y → k ≤ z → (bo.block z).bc = .exit →
    (bo.block z).Belem = some E2 → Asserted k bo l' y → Asserted k bo (l ++ e :: l') x

theorem Asserted.congr (h : WellFormed bo) (hx : (bo'.block x).code = (bo.block x).code)
    (hcode : ∀ y < bo.fresh, k ≤ y → (bo'.block y).code = (bo.block y).code)
    (ha : Asserted k bo l x) : Asserted k bo' l x := by
  induction ha with
  | block hl => exact .block ((exprs_congr (Block.code_Belem hx)).trans hl)
  | value hbc hl =>
    exact .value ((Block.code_bc hx).trans hbc) ((exprs_congr (Block.code_Belem hx)).trans hl)
  | @assert l l' e E1 E2 x y z hae hl hbc hs hky hkz hzbc hzB _ ih =>
    have hlt {w : Nat} (hw : w = y ∨ w = z) : w < bo.fresh := by
      by_contra hn
      exact h.fresh_not_edge (Nat.le_of_not_lt hn) (show bo.Edge x w by rw [Edge, hs]; simpa using hw)
    have hz := hcode z (hlt (.inr rfl)) hkz
    exact .assert hae ((exprs_congr (Block.code_Belem hx)).trans hl) ((Block.code_bc hx).trans hbc)
      ((Block.code_Bsucc hx).trans hs) hky hkz ((Block.code_bc hz).trans hzbc)
      ((Block.code_Belem hz).trans hzB) (ih (hcode y (hlt (.inl rfl)) hky))

theorem exprs_finish : exprs ((finish st l).block st.b) =
    ((withValue (st.bo.block st.b).bc (Elem.bl_delist2 (st.elems ++ l))).map Elem.bl_enlist2).getD [] := by
  rw [finish, modify_block_self]
  rfl

theorem Ready.asserted (h : Ready st) (hk : k ≤ st.bo.fresh)
    (hsingle : ∀ e ∈ st.elems ++ l, e.bl_enlist2 = [e]) :
    Asserted k (finish (l.foldl blassertsplitElem st) []) (st.elems ++ l) st.b := by
  induction l generalizing st with
  | nil =>
    have hexprs : exprs ((finish st []).block st.b) = _ := exprs_finish
    rw [List.append_nil] at hsingle hexprs ⊢
    by_cases hnil : st.elems = []
    case neg =>
      rw [withValue_of_ne_nil hnil, Elem.flatMap_bl_enlist2, Elem.flatMap_single hsingle] at hexprs
      exact .block hexprs
    case pos =>
      rw [hnil] at hexprs ⊢
      by_cases hr : (st.bo.block st.b).bc = .retexp
      case neg =>
        rw [Elem.bl_delist2, List.foldl_nil, withValue, if_neg hr] at hexprs
        exact .block hexprs
      case pos =>
        rw [Elem.bl_delist2, List.foldl_nil, withValue, if_pos hr] at hexprs
        refine .value ?_ hexprs
        rw [List.foldl_nil, finish, modify_block_self]
        exact hr
  | cons e l ih =>
    have hready := (h.elem (e := e)).left
    rw [List.foldl_cons]
    by_cases hs : e.splits st.dctor
    case neg =>
      rw [blassertsplitElem_keep hs] at hready ⊢
      have hl : st.elems ++ e :: l = st.elems ++ [e] ++ l := List.append_cons ..
      rw [hl] at hsingle ⊢
      exact ih hready hk hsingle
    case pos =>
      obtain ⟨E1, E2, ha, heq⟩ := blassertsplitElem_split hs
      have hsp : AssertSplit st.b st.elems E1 E2 st.bo _ := h.splitAssert
      rw [heq] at hready ⊢
      obtain ⟨helems, hrest⟩ := List.forall_mem_append.mp hsingle
      have hlt := h.lt
      -- The block and the exit block stay as they are.
      have hcode (x : Nat) (hx : x < st.bo.fresh + 1) :
          ((finish (l.foldl blassertsplitElem
            { bo := st.bo.splitAssert st.b st.elems E1 E2, b := st.bo.fresh + 1 }) []).block x).code =
              ((st.bo.splitAssert st.b st.elems E1 E2).block x).code := by
        obtain ⟨hcode, hne⟩ := hready.foldl_code l (x := x) (by rw [hsp.fresh]; omega) hx.ne
        rw [finish, modify_block_of_ne hne]
        exact hcode
      have hself := (hcode st.b (by omega)).trans hsp.self
      have hexit := (hcode st.bo.fresh (by omega)).trans hsp.exit
      refine .assert ha ?_ (Block.bc_of_code hself) (Block.Bsucc_of_code hself) (by omega) hk
        (Block.bc_of_code hexit) (Block.Belem_of_code hexit) (ih hready ?_ ?_)
      case refine_1 =>
        rw [exprs, Block.Belem_of_code hself, Elem.flatMap_bl_enlist2, List.flatMap_append,
          List.flatMap_singleton, Elem.flatMap_single helems]
      case refine_2 =>
        rw [hsp.fresh]
        omega
      case refine_3 => exact fun e' he' => hrest e' (List.mem_cons_of_mem e he')

theorem blassertsplitBlock_asserted (h : WellFormed bo) (hb : b < bo.fresh) (hk : k ≤ bo.fresh) :
    Asserted k (bo.blassertsplitBlock b) (exprs (bo.block b)) b := by
  by_cases hbc : (bo.block b).bc = .exit
  case pos =>
    rw [blassertsplitBlock, if_pos hbc]
    exact .block rfl
  case neg =>
    rw [blassertsplitBlock_eq hbc]
    refine (Ready.of_block h hb hbc).asserted hk fun e he => ?_
    obtain ⟨e', -, he⟩ : ∃ e', (bo.block b).Belem = some e' ∧ e ∈ e'.bl_enlist2 := by
      cases hB : (bo.block b).Belem with
      | none    => simp [exprs, hB] at he
      | some e' => exact ⟨e', rfl, by simpa [exprs, hB] using he⟩
    exact Elem.bl_enlist2_single he

-- Assert splitting keeps the expressions of a block and their order.
theorem blassertsplit_asserted (h : WellFormed bo) (hx : x < bo.fresh) :
    Asserted bo.fresh bo.blassertsplit (exprs (bo.block x)) x := by
  by_cases hb : x ∈ bo.list
  case neg =>
    obtain ⟨-, -, hcode⟩ := h.foldl_blassertsplitBlock h.allocated
    exact .block (exprs_congr (Block.code_Belem (hcode x hx hb)))
  case pos =>
    obtain ⟨l₁, l₂, hl⟩ := List.append_of_mem hb
    have hnd := List.nodup_append'.mp (hl ▸ h.nodup)
    obtain ⟨h₁, h₂⟩ := List.forall_mem_append.mp (hl ▸ h.allocated)
    obtain ⟨-, h₂⟩ := List.forall_mem_cons.mp h₂
    rw [blassertsplit, hl, List.foldl_append, List.foldl_cons]
    obtain ⟨hwf₁, hle₁, hcode₁⟩ := h.foldl_blassertsplitBlock h₁
    have hx₁ := hx.trans_le hle₁
    obtain ⟨hwf₂, hle₂⟩ := hwf₁.blassertsplitBlock hx₁
    obtain ⟨-, -, hcode₂⟩ := hwf₂.foldl_blassertsplitBlock fun c hc =>
      (h₂ c hc).trans_le (hle₁.trans hle₂)
    rw [← exprs_congr (Block.code_Belem (hcode₁ x hx fun hm => hnd.right.right hm List.mem_cons_self))]
    refine (blassertsplitBlock_asserted hwf₁ hx₁ hle₁).congr hwf₂ ?_ fun y hy hky => ?_
    case refine_1 => exact hcode₂ x (hx₁.trans_le hle₂) (List.nodup_cons.mp hnd.right.left).left
    case refine_2 => exact hcode₂ y hy fun hm => Nat.not_lt.mpr hky (h₂ y hm)

end blassertsplit

section merging

variable {σ V E : Type} {I : Interp n σ V E}

-- The function does the same, and no block lacks an expression that its kind needs.
structure Unchanged (I : Interp n σ V E) (bo bo' : BlockOpt n) : Prop where
  behaviour : I.SameBehaviour bo bo'
  supplied  : Supplied bo'

theorem Preserves.unchanged (h : Preserves I bo bo') (hwf : WellFormed bo) (hsup : Supplied bo) :
    Unchanged I bo bo' where
  behaviour := h.behaviour hwf
  supplied  := h.supplied hsup

-- Merging and splitting blocks keeps what a function does and its expressions, unless a block branches by an
-- expression that is split off.
theorem blocks_unchanged_iff (hp : I.Respects p.el_match) (h : WellFormed bo) (hsup : Supplied bo) :
    ((Unchanged I bo (bo.blident p) ∧ SameExpressions bo (bo.blident p)) ∧
      (∀ MFtime, Unchanged I bo (bo.blreturn p MFtime) ∧ SameExpressions bo (bo.blreturn p MFtime)) ∧
      (∃ bo', bo.bltailmerge p = some bo' ∧ Unchanged I bo bo' ∧
        ∀ b < bo.fresh, Tailed p bo.fresh bo' (exprs (bo.block b)) b) ∧
      (Unchanged I bo bo.blassertsplit ∧
        ∀ b < bo.fresh, Asserted bo.fresh bo.blassertsplit (exprs (bo.block b)) b) ∧
      Unchanged I bo bo.blexit ∧ SameExpressions bo bo.blexit) ↔
        ∀ b ∈ bo.list, ¬SplitsLast (bo.block b) := by
  constructor
  case mp =>
    rintro ⟨-, -, -, ⟨hk, -⟩, -⟩ b hb hs
    exact not_supplied_of_splitsLast h hb hs hk.supplied
  case mpr =>
    intro hs
    refine ⟨⟨?_, blident_sameExpressions h⟩, fun MFtime => ⟨?_, blreturn_sameExpressions h⟩, ?_,
      ⟨?_, fun b => blassertsplit_asserted h⟩, ?_, blexit_sameExpressions h⟩
    case refine_1 => exact (blident_preserves hp h).unchanged h hsup
    case refine_2 => exact (blreturn_preserves hp h).unchanged h hsup
    case refine_3 =>
      obtain ⟨bo', hbo', hpres⟩ := bltailmerge_preserves hp h
      obtain ⟨bo'', hbo'', ht⟩ := bltailmerge_tailed (p := p) h
      cases hbo'.symm.trans hbo''
      exact ⟨bo', hbo', hpres.unchanged h hsup, ht⟩
    case refine_4 => exact (blassertsplit_preserves h hsup hs).unchanged h hsup
    case refine_5 => exact (blexit_preserves h).unchanged h hsup

theorem unoptimized_respects : I.Respects (unoptimized n).el_match :=
  fun e e' h s => by rw [show e = e' from of_decide_eq_true h]

-- x || exit()
def exitUnless : Elem 1 :=
  .binary .oror TYint 0 BlockOpt.x
    (.binary .call TYint 0 (.var TYint (.other 0 true) 0) (.const TYint (.integral 1)))

-- x || exit(); return;
def assertBlock : List (Block Nat 1) := [
  { bc := .goto_, Belem := some exitUnless, Bsucc := [1] },
  { bc := .ret, Bpred := [0] }
]

-- if (x || exit()) return; else return;
def assertBranch : List (Block Nat 1) := [
  { bc := .iftrue, Belem := some exitUnless, Bsucc := [1, 2] },
  { bc := .ret, Bpred := [0] },
  { bc := .ret, Bpred := [0] }
]

theorem supplied_ofBlocks {l : List (Block Nat 1)}
    (hl : ∀ blk ∈ l, blk.bc = .iftrue ∨ blk.bc = .switch_ ∨ blk.bc = .retexp → blk.Belem.isSome) :
    Supplied (ofBlocks l) :=
  forall_ofBlocks (P := fun blk : Block Nat 1 => blk.bc = .iftrue ∨ blk.bc = .switch_ ∨
    blk.bc = .retexp → blk.Belem.isSome) (by decide) hl

theorem assertBlock_wellFormed : WellFormed (ofBlocks assertBlock) :=
  ofBlocks_wellFormed (by decide) (by decide) (by decide) (by decide) rfl

theorem assertBranch_wellFormed : WellFormed (ofBlocks assertBranch) :=
  ofBlocks_wellFormed (by decide) (by decide) (by decide) (by decide) rfl

theorem blassertsplit_keeps_assertBlock : Unchanged (Evaluator.interp 1) (ofBlocks assertBlock)
    (ofBlocks assertBlock).blassertsplit := by
  have hsup : Supplied (ofBlocks assertBlock) := supplied_ofBlocks (by decide)
  refine ((blocks_unchanged_iff (p := unoptimized 1) unoptimized_respects assertBlock_wellFormed hsup).mpr ?_)
    |>.right.right.right.left.left
  intro b _ hs
  have hbc : ∀ b, ((ofBlocks assertBlock).block b).bc ≠ .iftrue ∧
      ((ofBlocks assertBlock).block b).bc ≠ .switch_ :=
    forall_ofBlocks (P := fun blk => blk.bc ≠ .iftrue ∧ blk.bc ≠ .switch_) (by decide) (by decide)
  exact hs.left.elim (hbc b).left (hbc b).right

-- The branch has no expression any more.
theorem blassertsplit_breaks_assertBranch : WellFormed (ofBlocks assertBranch) ∧
    Supplied (ofBlocks assertBranch) ∧ (Evaluator.interp 1).Respects (unoptimized 1).el_match ∧
    ¬Supplied (ofBlocks assertBranch).blassertsplit ∧
    ¬(Evaluator.interp 1).SameBehaviour (ofBlocks assertBranch) (ofBlocks assertBranch).blassertsplit := by
  refine ⟨assertBranch_wellFormed, supplied_ofBlocks (by decide), unoptimized_respects, ?_, ?_⟩
  case refine_1 => exact fun h => absurd (h 4 (.inl rfl)) (by decide)
  case refine_2 =>
    intro h
    obtain ⟨b, hb, h⟩ := h 0 rfl
    cases hb
    have he : Ends ((Evaluator.interp 1).step (ofBlocks assertBranch)) (0, fun _ => 1) []
        (.returned none) := ⟨2, rfl⟩
    have he' : Ends ((Evaluator.interp 1).step (ofBlocks assertBranch).blassertsplit) (0, fun _ => 1) []
        .stuck := ⟨2, rfl⟩
    obtain ⟨-, ho⟩ := Ends.unique (((h _).ends _ _).mp he) he'
    cases ho

end merging

end BlockOpt

end Compiler.Backend
