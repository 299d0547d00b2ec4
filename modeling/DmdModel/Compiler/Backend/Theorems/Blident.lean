import DmdModel.Compiler.Backend.Theorems.BroptSteps
import DmdModel.Compiler.Backend.Theorems.Splitting

namespace Compiler.Backend.BlockOpt

open Relation Lockstep

variable {n : Nat} {p : Passes n} {bo bo' : BlockOpt n} {b bn bp c s x y : Nat}

section redirect

-- What becomes of a successor.
def redirect (bn b x : Nat) : Nat :=
  if x = bn then b else x

theorem redirect_redirect : redirect bn b (redirect bn b x) = redirect bn b x := by
  unfold redirect
  split_ifs <;> simp_all

theorem redirect_ne (hne : b ≠ bn) : redirect bn b x ≠ bn := by
  unfold redirect
  split
  case isTrue    => exact hne
  case isFalse h => exact h

theorem count_map_redirect {l : List Nat} (hne : b ≠ bn) : (l.map (redirect bn b)).count s =
    if s = bn then 0 else l.count s + if s = b then l.count bn else 0 := by
  split
  case isTrue hs =>
    refine List.count_eq_zero.mpr fun hm => ?_
    obtain ⟨x, -, hx⟩ := List.mem_map.mp hm
    exact redirect_ne hne (hx.trans hs)
  case isFalse hs =>
    induction l with
    | nil => simp
    | cons x l ih =>
      simp only [List.map_cons, List.count_cons, ih, redirect, beq_iff_eq]
      by_cases hx : x = bn
      case pos =>
        have hxs : ¬x = s := fun h => hs (h.symm.trans hx)
        simp only [hx, if_true, if_neg (hx ▸ hxs), eq_comm (a := b)]
        split <;> omega
      case neg =>
        simp only [if_neg hx]
        split <;> omega

theorem map_redirect_eq_self {l : List Nat} (h : bn ∉ l) : l.map (redirect bn b) = l := by
  rw [List.map_congr_left (g := id), List.map_id]
  intro x hx
  refine if_neg ?_
  rintro rfl
  exact h hx

-- The blocks in l go on to b instead of bn.
structure Redirected (bn b : Nat) (l : List Nat) (bo bo' : BlockOpt n) : Prop where
  list  : bo'.list = bo.list
  fresh : bo'.fresh = bo.fresh
  code  : ∀ x, (bo'.block x).code = { (bo.block x).code with
    Bsucc := if x ∈ l then (bo.block x).Bsucc.map (redirect bn b) else (bo.block x).Bsucc }
  preds : ∀ x s, bo'.predCount x s =
    bo.predCount x s + if s = b ∧ x ∈ l then bo.succCount x bn else 0

theorem redirectPred_redirected : Redirected bn b [bp] bo (redirectPred bn b bo bp) where
  list  := rfl
  fresh := rfl
  code x := by
    simp only [redirectPred, List.mem_singleton]
    rw [modify_code (by intro _; rfl), modify_block]
    split <;> rfl
  preds x s := by
    simp only [redirectPred, predCount, List.mem_singleton]
    by_cases hs : s = b
    case neg =>
      rw [modify_block_of_ne hs, modify_Bpred (by intro _; rfl)]
      simp [hs]
    case pos =>
      rw [hs, modify_block_self]
      dsimp only
      rw [List.count_append, modify_Bpred (by intro _; rfl), List.count_replicate]
      by_cases hx : x = bp
      case pos => simp [hx, succCount]
      case neg => simp [hx, Ne.symm hx]

theorem Redirected.Bsucc {l : List Nat} (h : Redirected bn b l bo bo') (x : Nat) :
    (bo'.block x).Bsucc =
      if x ∈ l then (bo.block x).Bsucc.map (redirect bn b) else (bo.block x).Bsucc :=
  (congrArg Block.Bsucc (h.code x) :)

theorem foldl_redirected (hne : b ≠ bn) {l : List Nat} :
    Redirected bn b l bo (l.foldl (redirectPred bn b) bo) := by
  induction l generalizing bo with
  | nil => exact ⟨rfl, rfl, fun _ => rfl, fun _ _ => by simp⟩
  | cons bp l ih =>
    have h₁ : Redirected bn b [bp] bo (redirectPred bn b bo bp) := redirectPred_redirected
    have h : Redirected bn b l (redirectPred bn b bo bp) (l.foldl (redirectPred bn b) _) := ih
    refine ⟨h.list.trans h₁.list, h.fresh.trans h₁.fresh, fun x => ?_, fun x s => ?_⟩
    case refine_1 =>
      rw [List.foldl_cons, h.code, h₁.code, h₁.Bsucc]
      refine congrArg (fun succs => { (bo.block x).code with Bsucc := succs }) ?_
      simp only [List.mem_cons]
      by_cases hx : x = bp
      all_goals by_cases hl : x ∈ l
      all_goals simp [hx, hl, redirect_redirect]
    case refine_2 =>
      have hsucc : (redirectPred bn b bo bp).succCount x bn =
          if x = bp then 0 else bo.succCount x bn := by
        rw [succCount, h₁.Bsucc]
        by_cases hx : x = bp
        case pos => simp [hx, count_map_redirect hne]
        case neg => simp [hx, succCount]
      rw [List.foldl_cons, h.preds, h₁.preds, hsucc]
      simp only [List.mem_cons]
      by_cases hx : x = bp
      all_goals by_cases hl : x ∈ l
      all_goals simp [hx, hl]

end redirect

section eliminate

-- All that went on to bn goes on to b.
structure Eliminated (bn b : Nat) (bo bo' : BlockOpt n) : Prop where
  list  : bo'.list = bo.list
  fresh : bo'.fresh = bo.fresh
  code  : ∀ x, (bo'.block x).code =
    { (bo.block x).code with Bsucc := (bo.block x).Bsucc.map (redirect bn b) }
  preds : ∀ x s, bo'.predCount x s =
    if s = bn then 0 else bo.predCount x s + if s = b then bo.succCount x bn else 0

theorem WellFormed.eliminated (h : WellFormed bo) (hne : b ≠ bn) :
    Eliminated bn b bo (bo.eliminate bn b) := by
  have hr : Redirected bn b (bo.block bn).Bpred bo _ := foldl_redirected hne
  have hmem (x : Nat) : x ∈ (bo.block bn).Bpred ↔ bn ∈ (bo.block x).Bsucc := by
    rw [mem_Bpred_iff_predCount, ← h.edges, ← edge_iff_succCount]
    rfl
  refine ⟨hr.list, hr.fresh, fun x => ?_, fun x s => ?_⟩
  case refine_1 =>
    rw [eliminate, modify_code (by intro _; rfl), hr.code]
    refine congrArg (fun succs => { (bo.block x).code with Bsucc := succs }) ?_
    split
    case isTrue   => rfl
    case isFalse hx => exact (map_redirect_eq_self (mt (hmem x).mpr hx)).symm
  case refine_2 =>
    rw [eliminate, predCount, modify_block]
    split
    case isTrue => exact List.count_nil
    case isFalse hs =>
      rw [← predCount, hr.preds]
      by_cases hx : x ∈ (bo.block bn).Bpred
      case pos => simp [hx]
      case neg =>
        have hz : bo.succCount x bn = 0 := List.count_eq_zero.mpr (mt (hmem x).mpr hx)
        simp [hx, hz]

theorem Eliminated.Bsucc (h : Eliminated bn b bo bo') (x : Nat) :
    (bo'.block x).Bsucc = (bo.block x).Bsucc.map (redirect bn b) :=
  (congrArg Block.Bsucc (h.code x) :)

theorem Eliminated.bc (h : Eliminated bn b bo bo') (x : Nat) : (bo'.block x).bc = (bo.block x).bc :=
  (congrArg Block.bc (h.code x) :)

theorem Eliminated.Belem (h : Eliminated bn b bo bo') (x : Nat) :
    (bo'.block x).Belem = (bo.block x).Belem :=
  (congrArg Block.Belem (h.code x) :)

-- What is found to be identical.
structure Identical (p : Passes n) (bn b : Nat) (bo : BlockOpt n) : Prop where
  bc      : (bo.block b).bc = (bo.block bn).bc
  Bsucc   : (bo.block b).Bsucc = (bo.block bn).Bsucc
  Belem   : p.el_match (bo.block b).Belem (bo.block bn).Belem
  Bswitch : (bo.block b).bc = .switch_ → (bo.block b).Bswitch = (bo.block bn).Bswitch

theorem identical_iff (h : bo.identical p bn b) : Identical p bn b bo := by
  simp only [identical, Bool.and_eq_true, decide_eq_true_eq, Bool.or_eq_true] at h
  obtain ⟨⟨⟨⟨hbc, -⟩, hs⟩, he⟩, hsw⟩ := h
  exact ⟨hbc, hs, he, fun hb => hsw.resolve_left fun hn => hn hb⟩

-- The blocks that are left are what they were, and b is what bn was, too.
def Merged (bn b x y : Nat) : Prop :=
  x = y ∨ (x = b ∧ y = bn)

theorem merged_redirect : Merged bn b (redirect bn b x) x := by
  unfold redirect
  split
  case isTrue h => exact .inr ⟨rfl, h⟩
  case isFalse  => exact .inl rfl

theorem WellFormed.eliminate (h : WellFormed bo) (hne : b ≠ bn) (hb : b ∈ bo.list)
    (hstart : bo.startblock ≠ some b) (hs : (bo.block b).Bsucc = (bo.block bn).Bsucc) :
    WellFormed (bo.eliminate bn b) := by
  have he := h.eliminated hne
  have hsame : (bo.eliminate bn b).startblock = bo.startblock := by
    rw [startblock, startblock, he.list]
  have hedge {x y : Nat} (hxy : (bo.eliminate bn b).Edge x y) :
      ∃ z, bo.Edge x z ∧ redirect bn b z = y := by
    rw [Edge, he.Bsucc] at hxy
    exact List.mem_map.mp hxy
  -- No edge leads to a block to which none did before, but for b.
  have hno {y : Nat} (hy : y ≠ b) (hp : (bo.block y).Bpred = []) (x : Nat) :
      ¬(bo.eliminate bn b).Edge x y := by
    intro hxy
    obtain ⟨z, hz, hzy⟩ := hedge hxy
    unfold redirect at hzy
    split at hzy
    case isTrue  => exact hy hzy.symm
    case isFalse => exact h.not_edge hp (hzy ▸ hz)
  have horigin : Origin (Merged bn b) bo (bo.eliminate bn b) := by
    refine ⟨fun x hx => ?_, fun x x' y hxy hx => ?_, fun x y hxy hy => ?_⟩
    case refine_1 => exact ⟨x, .inl rfl, x, hsame ▸ hx, .refl⟩
    case refine_2 =>
      obtain ⟨z, hz, rfl⟩ := hedge hx
      refine ⟨z, merged_redirect, .single ?_⟩
      obtain rfl | ⟨rfl, rfl⟩ := hxy
      case inl => exact hz
      case inr => rwa [Edge, ← hs]
    case refine_3 =>
      rw [he.list]
      obtain rfl | ⟨rfl, -⟩ := hxy
      case inl => exact hy
      case inr => exact hb
  refine h.of_origin horigin (fun x s => ?_) (fun x => ?_) ?_ (he.list ▸ h.nodup) (fun x hx => ?_) (fun x hx => ⟨?_, ?_⟩)
  case refine_1 =>
    rw [succCount, he.Bsucc, count_map_redirect hne, he.preds, ← h.edges]
    rfl
  case refine_2 =>
    have ha := h.arity x
    rw [Block.Arity, he.bc, he.Bsucc, List.length_map]
    exact ha
  case refine_3 =>
    obtain ⟨start, hs₀, hp⟩ := h.start
    refine ⟨start, hsame.trans hs₀, hno ?_ hp⟩
    rintro rfl
    exact hstart hs₀
  case refine_4 =>
    rw [he.fresh]
    exact h.allocated x (he.list ▸ hx)
  case refine_5 =>
    rw [he.fresh] at hx
    rw [he.code, h.empty x hx]
    rfl
  case refine_6 =>
    rw [he.fresh] at hx
    refine hno ?_ (h.fresh_Bpred hx)
    rintro rfl
    exact h.fresh_not_mem_list hx hb

end eliminate

section blident

theorem blidentBlock_cases (p : Passes n) (bo : BlockOpt n) (bn : Nat) :
    bo.blidentBlock p bn = bo ∨
      ∃ b ∈ following bo.list bn, Identical p bn b bo ∧ bo.blidentBlock p bn = bo.eliminate bn b := by
  unfold blidentBlock
  split
  case isTrue => exact .inl rfl
  case isFalse =>
    split
    case isTrue => exact .inl rfl
    case isFalse =>
      split
      case h_1 b hb =>
        exact .inr ⟨b, List.mem_of_find?_eq_some hb, identical_iff (List.find?_some hb), rfl⟩
      case h_2 => exact .inl rfl

theorem WellFormed.blidentBlock (h : WellFormed bo) : WellFormed (bo.blidentBlock p bn) := by
  obtain heq | ⟨b, hb, hi, heq⟩ := blidentBlock_cases p bo bn
  all_goals rw [heq]
  case inl => exact h
  case inr =>
    exact h.eliminate (following_ne h.nodup hb) (following_mem hb) (following_ne_head h.nodup hb)
      hi.Bsucc

-- The graph stays well formed when identical blocks are combined.
theorem WellFormed.blident (h : WellFormed bo) : WellFormed (bo.blident p) :=
  h.foldl WellFormed.blidentBlock

end blident

section behaviour

variable {σ V E : Type} {I : Interp n σ V E}

theorem next_map {blk blk' : Block Nat n} {f : Nat → Nat} (hbc : blk'.bc = blk.bc)
    (hsw : blk.bc = .switch_ → blk'.Bswitch = blk.Bswitch) (hs : blk'.Bsucc = blk.Bsucc.map f)
    (v : Option V) : I.next blk' v = (I.next blk v).map f id := by
  have hgo (i : Nat) : Interp.next.goOn (V := V) blk' i = (Interp.next.goOn blk i).map f id := by
    unfold Interp.next.goOn
    rw [hs, List.getElem?_map]
    cases blk.Bsucc[i]? <;> rfl
  unfold Interp.next
  rw [hbc]
  split
  case h_1   => exact hgo _
  case h_2   => exact hgo _
  case h_3 h => rw [hsw h]; exact hgo _
  all_goals rfl

-- A block executes like another one, but for where it goes on to.
theorem step_map {f : Nat → Nat} (hbc : (bo'.block y).bc = (bo.block x).bc)
    (hsw : (bo.block x).bc = .switch_ → (bo'.block y).Bswitch = (bo.block x).Bswitch)
    (hs : (bo'.block y).Bsucc = (bo.block x).Bsucc.map f) {u : σ}
    (he : I.evalBlock (bo'.block y).Belem u = I.evalBlock (bo.block x).Belem u) :
    I.step bo' (y, u) =
      ((I.step bo (x, u)).1, (I.step bo (x, u)).2.map (fun c => (f c.1, c.2)) id) := by
  obtain ⟨t, ht⟩ | ⟨t, u', v, ht⟩ := (I.evalBlock (bo.block x).Belem u).cases
  all_goals rw [ht] at he
  case inl => rw [Interp.step_eq_none ht, Interp.step_eq_none he]; rfl
  case inr =>
    have hn := next_map (I := I) hbc hsw hs v
    cases hx : I.next (bo.block x) v with
    | inl z =>
      rw [hx] at hn
      rw [Interp.step_eq_go ht hx, Interp.step_eq_go he hn]
      rfl
    | inr o =>
      rw [hx] at hn
      rw [Interp.step_eq_stop ht hx, Interp.step_eq_stop he hn]
      rfl

theorem eliminate_sameRuns (hp : I.Respects p.el_match) (hwf : WellFormed bo) (hne : b ≠ bn)
    (hi : Identical p bn b bo) : I.SameRuns bo (bo.eliminate bn b) := by
  have he := hwf.eliminated hne
  intro c
  let R (c d : Nat × σ) : Prop := Merged bn b d.1 c.1 ∧ c.2 = d.2
  refine equivalent_of_matches (R := R) ?_ ⟨.inl rfl, rfl⟩
  rintro ⟨x, u⟩ ⟨y, _⟩ ⟨hxy, rfl⟩
  replace hxy : Merged bn b y x := hxy
  have hsw (x : Nat) : ((bo.eliminate bn b).block x).Bswitch = (bo.block x).Bswitch :=
    (congrArg Block.Bswitch (he.code x) :)
  have hstep : I.step (bo.eliminate bn b) (y, u) = ((I.step bo (x, u)).1,
      (I.step bo (x, u)).2.map (fun c => (redirect bn b c.1, c.2)) id) := by
    obtain rfl | ⟨rfl, rfl⟩ := hxy
    case inl => exact step_map (he.bc _) (fun _ => hsw _) (he.Bsucc _) (by rw [he.Belem])
    case inr =>
      refine step_map ((he.bc _).trans hi.bc) (fun hbc => ?_) ?_ ?_
      case refine_1 => rw [hsw, hi.Bswitch (hi.bc.trans hbc)]
      case refine_2 => rw [he.Bsucc, hi.Bsucc]
      case refine_3 => rw [he.Belem, hp _ _ hi.Belem]
  match hx : I.step bo (x, u) with
  | (t, .inl (z, u')) =>
    rw [hx] at hstep
    exact .step_go hx hstep ⟨merged_redirect, rfl⟩
  | (t, .inr o) =>
    rw [hx] at hstep
    exact .step_stop hx hstep

theorem blidentBlock_preserves (hp : I.Respects p.el_match) (hwf : WellFormed bo) :
    Preserves I bo (bo.blidentBlock p bn) := by
  have hwf' : WellFormed (bo.blidentBlock p bn) := hwf.blidentBlock
  obtain heq | ⟨b, hb, hi, heq⟩ := blidentBlock_cases p bo bn
  all_goals rw [heq] at hwf' ⊢
  case inl => exact .refl hwf
  case inr =>
    have hne := following_ne hwf.nodup hb
    have he := hwf.eliminated hne
    refine ⟨hwf', fun hs x => ?_, congrArg List.head? he.list, he.fresh.ge, fun x _ u => ?_⟩
    case refine_1 =>
      rw [he.bc, he.Belem]
      exact hs x
    case refine_2 => exact eliminate_sameRuns hp hwf hne hi (x, u)

-- The combination of identical blocks keeps what a function does.
theorem blident_preserves (hp : I.Respects p.el_match) (hwf : WellFormed bo) :
    Preserves I bo (bo.blident p) :=
  Preserves.foldl (blidentBlock_preserves hp) hwf

end behaviour

end Compiler.Backend.BlockOpt

namespace Compiler.Backend.BlockOpt

open Relation Lockstep

variable {n : Nat} {p : Passes n} {bo bo' : BlockOpt n} {b c s x y : Nat}

section split

-- A return block goes on to a new one.
structure SplitReturn (b : Nat) (bo bo' : BlockOpt n) : Prop where
  list  : bo'.list = insertAfter b bo.fresh bo.list
  fresh : bo'.fresh = bo.fresh + 1
  new   : bo'.block bo.fresh = { bc := .ret, Bpred := [b] }
  self  : bo'.block b = { bo.block b with bc := .goto_, Bsucc := [bo.fresh] }
  other : ∀ x ≠ b, x ≠ bo.fresh → bo'.block x = bo.block x

-- A block with an expression is allocated.
theorem WellFormed.lt_fresh (h : WellFormed bo) (hb : (bo.block b).Belem.isSome) : b < bo.fresh := by
  by_contra hn
  rw [h.empty b (Nat.le_of_not_lt hn)] at hb
  cases hb

theorem WellFormed.ret_Bsucc (h : WellFormed bo) (hbc : (bo.block b).bc = .ret) :
    (bo.block b).Bsucc = [] := by
  have ha := h.arity b
  simp only [Block.Arity, hbc] at ha
  exact List.eq_nil_of_length_eq_zero ha

theorem WellFormed.splitReturn_spec (h : WellFormed bo) (hbc : (bo.block b).bc = .ret)
    (he : (bo.block b).Belem.isSome) : SplitReturn b bo (bo.splitReturn b) := by
  have hne : b ≠ bo.fresh := Nat.ne_of_lt (h.lt_fresh he)
  have hs : (bo.block b).Bsucc = [] := h.ret_Bsucc hbc
  refine ⟨rfl, rfl, ?_, ?_, fun x hxb hx => ?_⟩
  case refine_1 => simp [splitReturn, modify_block_of_ne (Ne.symm hne)]
  case refine_2 => simp [splitReturn, alloc_block_of_ne hne, hs]
  case refine_3 => simp [splitReturn, modify_block_of_ne hxb, alloc_block_of_ne hx]

theorem SplitReturn.edge (hsp : SplitReturn b bo bo') (hxy : bo'.Edge x y) :
    (x = b ∧ y = bo.fresh) ∨ (x ≠ b ∧ x ≠ bo.fresh ∧ bo.Edge x y) := by
  unfold Edge at hxy
  by_cases hxb : x = b
  case pos =>
    rw [hxb, hsp.self] at hxy
    exact .inl ⟨hxb, List.mem_singleton.mp hxy⟩
  case neg =>
    by_cases hx : x = bo.fresh
    case pos => rw [hx, hsp.new] at hxy; cases hxy
    case neg => rw [hsp.other x hxb hx] at hxy; exact .inr ⟨hxb, hx, hxy⟩

theorem SplitReturn.Bpred (hsp : SplitReturn b bo bo') (hs : s ≠ bo.fresh) :
    (bo'.block s).Bpred = (bo.block s).Bpred := by
  by_cases hsb : s = b
  case pos => rw [hsb, hsp.self]
  case neg => rw [hsp.other s hsb hs]

theorem SplitReturn.newBlocks (hsp : SplitReturn b bo bo') (h : WellFormed bo)
    (hbc : (bo.block b).bc = .ret) (he : (bo.block b).Belem.isSome) :
    NewBlocks (· = b) (· = bo.fresh) bo bo' where
  start := by
    rw [startblock, hsp.list, insertAfter_head?]
    rfl
  nodup := hsp.list ▸ insertAfter_nodup h.nodup (h.fresh_not_mem_list le_rfl)
  keeps x hx := hsp.list ▸ insertAfter_mem.mpr (.inl hx)
  listed x y hx hy hm := hsp.list ▸ insertAfter_mem.mpr (.inr ⟨hx, hy ▸ hm⟩)
  only x hx := (insertAfter_mem.mp (hsp.list ▸ hx)).imp_right And.left
  fresh := hsp.fresh ▸ Nat.le_succ _
  isNew x hx := by
    rw [hx, hsp.fresh]
    exact ⟨le_rfl, Nat.lt_succ_self _⟩
  isOld x hx := hx ▸ h.lt_fresh he
  edge x y hxy := by
    obtain ⟨hx, hy⟩ | ⟨-, hx, hxy⟩ := hsp.edge hxy
    case inl => exact .inl ⟨hy, .inl hx⟩
    case inr => exact .inr (.inl ⟨hx, hxy⟩)
  same x hx := by
    obtain ⟨hxb, hxf⟩ := not_or.mp hx
    refine ⟨by rw [hsp.other x hxb hxf], fun s => ?_⟩
    by_cases hs : s = bo.fresh
    case neg => rw [predCount, hsp.Bpred hs, predCount]
    case pos =>
      rw [predCount, predCount, hs, hsp.new, h.fresh_Bpred le_rfl]
      exact List.count_eq_zero.mpr fun hm => hxb (List.mem_singleton.mp hm)
  counts x hx s := by
    by_cases hs : s = bo.fresh
    case pos =>
      rw [hs, predCount, hsp.new, succCount]
      obtain rfl | rfl := hx
      case inl => rw [hsp.self]; simp
      case inr => rw [hsp.new]; simp [(h.lt_fresh he).ne]
    case neg =>
      have hpred : bo'.predCount x s = 0 := by
        rw [predCount, hsp.Bpred hs, ← predCount, ← h.edges, succCount]
        obtain rfl | rfl := hx
        case inl => rw [h.ret_Bsucc hbc, List.count_nil]
        case inr => rw [h.fresh_Bsucc le_rfl, List.count_nil]
      rw [hpred]
      refine List.count_eq_zero.mpr fun hm => ?_
      obtain rfl | rfl := hx
      case inl => rw [hsp.self] at hm; exact hs (List.mem_singleton.mp hm)
      case inr => rw [hsp.new] at hm; cases hm
  arity x hx := by
    obtain rfl | rfl := hx
    case inl => rw [hsp.self]; exact rfl
    case inr => rw [hsp.new]; exact rfl

end split

section blreturn

variable {MFtime : Bool}

theorem WellFormed.blreturnBlock (h : WellFormed bo) : WellFormed (bo.blreturnBlock b) := by
  unfold BlockOpt.blreturnBlock
  dsimp only
  split
  case isTrue hb =>
    exact ((h.splitReturn_spec hb.left hb.right).newBlocks h hb.left hb.right).wellFormed h
  case isFalse => exact h

-- The graph stays well formed when return blocks are split and combined.
theorem WellFormed.blreturn (h : WellFormed bo) : WellFormed (bo.blreturn p MFtime) := by
  unfold BlockOpt.blreturn
  split_ifs
  case pos => exact h
  case pos => exact h
  case neg => exact (h.foldl WellFormed.blreturnBlock).blident

end blreturn

section behaviour

variable {σ V E : Type} {I : Interp n σ V E}

theorem step_ret {t : List E} {u u' : σ} {w : Option V} (hbc : (bo.block b).bc = .ret)
    (hev : I.evalBlock (bo.block b).Belem u = (t, some (u', w))) :
    I.step bo (b, u) = (t, .inr (.returned none)) := by
  refine Interp.step_eq_stop hev ?_
  unfold Interp.next
  rw [hbc]

theorem SplitReturn.sameRuns (hsp : SplitReturn b bo bo') (h : WellFormed bo)
    (hbc : (bo.block b).bc = .ret) (he : (bo.block b).Belem.isSome) : I.SameRuns bo bo' := by
  refine fun c => equivalent_of_matches (R := Eq) ?_ rfl
  rintro ⟨x, u⟩ _ rfl
  have hnew (u : σ) : I.step bo' (bo.fresh, u) = ([], .inr (.returned none)) := by
    have hev : I.evalBlock (bo'.block bo.fresh).Belem u = ([], some (u, none)) := by
      rw [hsp.new]
      rfl
    exact step_ret (by rw [hsp.new]) hev
  by_cases hxb : x = b
  case neg =>
    refine .of_eq ?_
    by_cases hx : x = bo.fresh
    case pos =>
      rw [hx, hnew]
      have hev : I.evalBlock (bo.block bo.fresh).Belem u = ([], some (u, none)) := by
        rw [h.empty _ le_rfl]
        rfl
      exact step_ret (by rw [h.empty _ le_rfl]) hev
    case neg => exact Interp.step_congr (by rw [hsp.other x hxb hx]) u
  case pos =>
    subst hxb
    have hB : (bo'.block x).Belem = (bo.block x).Belem := by rw [hsp.self]
    obtain ⟨t, ht⟩ | ⟨t, u', v, ht⟩ := (I.evalBlock (bo.block x).Belem u).cases
    case inl => exact .step_stop (Interp.step_eq_none ht) (Interp.step_eq_none (hB ▸ ht))
    case inr =>
      have hgo : I.step bo' (x, u) = (t, .inl (bo.fresh, u')) :=
        step_goto (by rw [hsp.self]) (by rw [hsp.self]; rfl) (hB ▸ ht)
      refine .stop (run_one_stop (step_ret hbc ht)) (j := 2) ?_
      rw [run_step_add hgo, run_one, hnew, List.append_nil]

theorem blreturnBlock_preserves (hwf : WellFormed bo) : Preserves I bo (bo.blreturnBlock b) := by
  have hwf' := hwf.blreturnBlock (b := b)
  unfold blreturnBlock at hwf' ⊢
  dsimp only at hwf' ⊢
  split at hwf'
  case isFalse hb =>
    rw [if_neg hb]
    exact .refl hwf
  case isTrue hb =>
    rw [if_pos hb]
    have hsp := hwf.splitReturn_spec hb.left hb.right
    have hnew := hsp.newBlocks hwf hb.left hb.right
    refine ⟨hwf', fun hs x hbc => ?_, hnew.start, hnew.fresh, fun x _ u => ?_⟩
    case refine_1 =>
      by_cases hxb : x = b
      case pos => rw [hxb, hsp.self] at hbc; simp at hbc
      case neg =>
        by_cases hx : x = bo.fresh
        case pos => rw [hx, hsp.new] at hbc; simp at hbc
        case neg => rw [hsp.other x hxb hx] at hbc ⊢; exact hs x hbc
    case refine_2 => exact hsp.sameRuns hwf hb.left hb.right _

-- Splitting return blocks and combining them keeps what a function does.
theorem blreturn_preserves (hp : I.Respects p.el_match) (hwf : WellFormed bo) :
    Preserves I bo (bo.blreturn p MFtime) := by
  unfold blreturn
  split_ifs
  case pos => exact .refl hwf
  case pos => exact .refl hwf
  case neg =>
    have h : Preserves I bo (bo.list.foldl blreturnBlock bo) :=
      Preserves.foldl blreturnBlock_preserves hwf
    exact h.trans (blident_preserves hp h.wellFormed)

end behaviour

end Compiler.Backend.BlockOpt

namespace Compiler.Backend.BlockOpt

variable {n : Nat} {bo bo' : BlockOpt n} {b b2 c s x y : Nat} {E1 E2 : Elem n} {elems : List (Elem n)}

section moveEdges

variable {l : List Nat}

-- The edges that left b leave b2.
def redirectBpred (b b2 : Nat) (blk : Block Nat n) : Block Nat n :=
  { blk with Bpred := blk.Bpred.map (redirect b b2) }

theorem redirectBpred_redirectBpred (blk : Block Nat n) :
    redirectBpred b b2 (redirectBpred b b2 blk) = redirectBpred b b2 blk := by
  simp only [redirectBpred, List.map_map]
  congr 2
  funext x
  exact redirect_redirect

theorem foldl_redirectBpred : (l.foldl (fun bo s => bo.modify s (redirectBpred b b2)) bo).block x =
    if x ∈ l then redirectBpred b b2 (bo.block x) else bo.block x := by
  induction l generalizing bo with
  | nil => simp
  | cons s l ih =>
    rw [List.foldl_cons, ih, modify_block]
    by_cases hxs : x = s
    all_goals by_cases hxl : x ∈ l
    all_goals simp [hxs, hxl, redirectBpred_redirectBpred]

theorem foldl_redirectBpred_list :
    (l.foldl (fun bo s => bo.modify s (redirectBpred b b2)) bo).list = bo.list ∧
      (l.foldl (fun bo s => bo.modify s (redirectBpred b b2)) bo).fresh = bo.fresh := by
  induction l generalizing bo with
  | nil         => exact ⟨rfl, rfl⟩
  | cons s l ih => exact ih

end moveEdges

-- Block b decides by the last of its expressions whether to go on to a new block, which has the
-- successors that it had, or to a new exit block.
structure AssertSplit (b : Nat) (elems : List (Elem n)) (E1 E2 : Elem n) (bo bo' : BlockOpt n) :
    Prop where
  list  : bo'.list = insertAfter b (bo.fresh + 1) (bo.list ++ [bo.fresh])
  fresh : bo'.fresh = bo.fresh + 2
  self  : (bo'.block b).code = { (bo.block b).code with
    bc := .iftrue, Belem := Elem.bl_delist2 (elems ++ [E1]), Bsucc := [bo.fresh + 1, bo.fresh] }
  exit  : (bo'.block bo.fresh).code = { bc := .exit, Belem := some E2 }
  new   : (bo'.block (bo.fresh + 1)).code =
    { bc := (bo.block b).bc, Bsucc := (bo.block b).Bsucc, Bswitch := (bo.block b).Bswitch }
  other : ∀ x, x ≠ b → x ≠ bo.fresh → x ≠ bo.fresh + 1 → (bo'.block x).code = (bo.block x).code
  preds : ∀ x s, bo'.predCount x s =
    if s = bo.fresh ∨ s = bo.fresh + 1 then [b].count x
    else if x = b then 0
    else bo.predCount x s + if x = bo.fresh + 1 then bo.predCount b s else 0

theorem WellFormed.splitAssert_spec (h : WellFormed bo) (hb : b < bo.fresh) :
    AssertSplit b elems E1 E2 bo (bo.splitAssert b elems E1 E2) := by
  have hbf : b ≠ bo.fresh := hb.ne
  have hb2 : b ≠ bo.fresh + 1 := (hb.trans (Nat.lt_succ_self _)).ne
  let bo₁ := bo.alloc { bc := .exit, Belem := some E2, Bpred := [b] }
  let bo₂ := bo₁.alloc
    { bc := (bo.block b).bc, Bsucc := (bo.block b).Bsucc, Bpred := [b], Bswitch := (bo.block b).Bswitch }
  let bo₃ : BlockOpt n := { bo₂.modify b fun blk =>
    { blk with Belem := Elem.bl_delist2 (elems ++ [E1]) } with
      list := insertAfter b (bo.fresh + 1) (bo.list ++ [bo.fresh]) }
  let bo₄ := (bo.block b).Bsucc.foldl (fun bo₅ s => bo₅.modify s (redirectBpred b (bo.fresh + 1))) bo₃
  have hblk : (bo₁.block b) = bo.block b := alloc_block_of_ne hbf
  have heq : bo.splitAssert b elems E1 E2 =
      bo₄.modify b fun blk => { blk with bc := .iftrue, Bsucc := [bo.fresh + 1, bo.fresh] } := rfl
  have hothers (x : Nat) (hxb : x ≠ b) : bo₃.block x = bo₂.block x :=
    Function.update_of_ne hxb _ _
  have hself : bo₃.block b = { bo.block b with Belem := Elem.bl_delist2 (elems ++ [E1]) } := by
    have h₂ : bo₂.block b = bo.block b := (alloc_block_of_ne hb2).trans hblk
    have h₃ : bo₃.block b = { bo₂.block b with Belem := Elem.bl_delist2 (elems ++ [E1]) } :=
      Function.update_self ..
    rw [h₃, h₂]
  have hexit : bo₃.block bo.fresh = { bc := .exit, Belem := some E2, Bpred := [b] } := by
    have h₂ : bo₂.block bo.fresh = bo₁.block bo.fresh := alloc_block_of_ne (Nat.lt_succ_self _).ne
    rw [hothers _ (Ne.symm hbf), h₂, alloc_block_self]
  have hnew : bo₃.block (bo.fresh + 1) =
      { bc := (bo.block b).bc
        Bsucc := (bo.block b).Bsucc
        Bpred := [b]
        Bswitch := (bo.block b).Bswitch } := by
    rw [hothers _ (Ne.symm hb2)]
    exact alloc_block_self
  have hother (x : Nat) (hxb : x ≠ b) (hx : x ≠ bo.fresh) (hx2 : x ≠ bo.fresh + 1) :
      bo₃.block x = bo.block x := by
    have h₂ : bo₂.block x = bo₁.block x := alloc_block_of_ne hx2
    rw [hothers _ hxb, h₂, alloc_block_of_ne hx]
  have hpred (x s : Nat) : bo₃.predCount x s =
      if s = bo.fresh ∨ s = bo.fresh + 1 then [b].count x else bo.predCount x s := by
    rw [predCount]
    split
    case isTrue hs =>
      obtain rfl | rfl := hs
      case inl => rw [hexit]
      case inr => rw [hnew]
    case isFalse hs =>
      obtain ⟨hs, hs2⟩ := not_or.mp hs
      by_cases hsb : s = b
      case pos => rw [hsb, hself, predCount]
      case neg => rw [hother s hsb hs hs2, predCount]
  have hcode (x : Nat) : (bo₄.block x).code = (bo₃.block x).code := by
    rw [foldl_redirectBpred]
    split <;> rfl
  have hlist : bo₄.list = bo₃.list ∧ bo₄.fresh = bo₃.fresh := foldl_redirectBpred_list
  rw [heq]
  refine ⟨hlist.left, hlist.right, ?_, ?_, ?_, fun x hxb hx hx2 => ?_, fun x s => ?_⟩
  case refine_1 =>
    rw [modify_block_self]
    have hc := hcode b
    rw [hself] at hc
    exact congrArg (fun blk : Block Nat n =>
      { blk with bc := .iftrue, Bsucc := [bo.fresh + 1, bo.fresh] }) hc
  case refine_2 => rw [modify_block_of_ne (Ne.symm hbf), hcode, hexit]; rfl
  case refine_3 => rw [modify_block_of_ne (Ne.symm hb2), hcode, hnew]; rfl
  case refine_4 => rw [modify_block_of_ne hxb, hcode, hother x hxb hx hx2]
  case refine_5 =>
    rw [modify_predCount (by intro _; rfl), predCount, foldl_redirectBpred]
    by_cases hs : s = bo.fresh ∨ s = bo.fresh + 1
    case pos =>
      have hns : s ∉ (bo.block b).Bsucc := by
        refine h.fresh_not_mem_Bsucc ?_
        obtain rfl | rfl := hs
        case inl => exact le_rfl
        case inr => exact Nat.le_succ _
      rw [if_neg hns, ← predCount, hpred, if_pos hs, if_pos hs]
    case neg =>
      rw [if_neg hs]
      split
      case isTrue hsb =>
        rw [redirectBpred, count_map_redirect (Ne.symm hb2), ← predCount, ← predCount, hpred, hpred,
          if_neg hs, if_neg hs]
      case isFalse hsb =>
        have hz : bo.predCount b s = 0 := by
          rw [← h.edges]
          exact List.count_eq_zero.mpr hsb
        rw [← predCount, hpred, if_neg hs, hz, ite_self, Nat.add_zero]
        split
        case isTrue hx => rw [hx, hz]
        case isFalse   => rfl

end Compiler.Backend.BlockOpt
