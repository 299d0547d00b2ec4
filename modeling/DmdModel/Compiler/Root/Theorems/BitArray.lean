import DmdModel.Compiler.Root.BitArray

namespace Compiler.Root
namespace BitArray

open WordBits

variable {a b : BitArray} {l m : List Bool} {i n : Nat} {fresh : Nat → Chunk}

-- The lengths for which the number of chunks does not overflow.
def Fits (len : Nat) : Prop :=
  len + 63 < 2 ^ 64

theorem chunks_eq (h : Fits n) : chunks n = (n + 63) / 64 := by
  rw [chunks, BitsPerChunk, Nat.add_sub_assoc (by decide), Nat.mod_eq_of_lt h]

theorem lt_chunks (h : Fits n) (hi : i < n) : i < chunks n * 64 := by
  rw [chunks_eq h]
  omega

theorem opIndex_eq : a.opIndex i = bit a.ptr i :=
  rfl

-- An array of some booleans. The bits of the last chunk that are not used are 0.
structure Rep (a : BitArray) (l : List Bool) : Prop where
  len  : a.len = l.length
  fits : Fits a.len
  bits : ∀ i, i < chunks a.len * 64 → bit a.ptr i = l[i]?.getD false

namespace Rep

theorem empty : Rep empty [] where
  len  := rfl
  fits := by
    show 0 + 63 < 2 ^ 64
    decide
  bits _ _ := bit_zero

theorem getElem? (h : Rep a l) (hi : i < a.len) : l[i]? = some (a.opIndex i) := by
  rw [opIndex_eq, h.bits i (lt_chunks h.fits hi), List.getElem?_eq_getElem (h.len ▸ hi)]
  rfl

-- The booleans are determined by the array.
theorem unique (h : Rep a l) (h' : Rep a m) : l = m := by
  refine List.ext_getElem? fun i => ?_
  by_cases hi : i < a.len
  · rw [h.getElem? hi, h'.getElem? hi]
  · rw [List.getElem?_eq_none (by rw [← h.len]; omega), List.getElem?_eq_none (by rw [← h'.len]; omega)]

theorem isZero (h : Rep a l) : a.isZero = true ↔ ∀ v ∈ l, v = false := by
  rw [BitArray.isZero, List.all_eq_true]
  constructor
  · intro hz v hv
    obtain ⟨i, hi, rfl⟩ := List.mem_iff_getElem.mp hv
    have hc : i < chunks a.len * 64 := lt_chunks h.fits (h.len ▸ hi)
    have hw : a.ptr (i / 64) = 0 := by
      simpa using hz (i / 64) (List.mem_range.mpr (Nat.div_lt_of_lt_mul (by omega)))
    have hbit : bit a.ptr i = false := by
      rw [bit, hw]
      exact BitVec.getLsbD_zero
    rwa [h.bits i hc, List.getElem?_eq_getElem hi] at hbit
  · intro hf i hi
    have hbits : ∀ j < chunks a.len * 64, bit a.ptr j = bit (fun _ => (0 : Chunk)) j := by
      intro j hj
      rw [h.bits j hj]
      refine Eq.trans ?_ bit_zero.symm
      cases hg : l[j]?
      case none   => rfl
      case some v => exact hf v (List.mem_of_getElem? hg)
    simpa using ext_lt hbits (List.mem_range.mp hi)

theorem opEquals (h : Rep a l) (h' : Rep b m) : a.opEquals b = true ↔ l = m := by
  rw [BitArray.opEquals, Bool.and_eq_true, decide_eq_true_iff, List.all_eq_true]
  constructor
  · rintro ⟨hlen, heq⟩
    refine h.unique ⟨hlen.trans h'.len, h.fits, fun i hi => ?_⟩
    have hw : a.ptr (i / 64) = b.ptr (i / 64) := by
      simpa using heq (i / 64) (List.mem_range.mpr (Nat.div_lt_of_lt_mul (by omega)))
    rw [bit, hw, ← bit, h'.bits i (hlen ▸ hi)]
  · rintro rfl
    have hlen : a.len = b.len := h.len.trans h'.len.symm
    refine ⟨hlen, fun i hi => ?_⟩
    have hbits : ∀ j < chunks a.len * 64, bit a.ptr j = bit b.ptr j := fun j hj => by
      rw [h.bits j hj, h'.bits j (hlen ▸ hj)]
    simpa using ext_lt hbits (List.mem_range.mp hi)

theorem zero (h : Rep a l) : Rep a.zero (List.replicate l.length false) where
  len  := by rw [List.length_replicate, BitArray.zero, h.len]
  fits := h.fits
  bits i hi := by
    have hc : i / 64 < chunks a.len := Nat.div_lt_of_lt_mul (Nat.mul_comm _ 64 ▸ hi)
    have hbit : bit a.zero.ptr i = if i / 64 < chunks a.len then bit (fun _ => 0) i else bit a.ptr i := bit_ite
    rw [hbit, if_pos hc, bit_zero, List.getElem?_replicate]
    split <;> rfl

-- The chunk that holds a bit is changed, and in it only that bit.
theorem setChunk {x : Chunk} {val : Bool} (h : Rep a l) (hi : i < l.length)
    (hx : ∀ j, j < 64 → x.getLsbD j = if j = i % 64 then val else (a.ptr (i / 64)).getLsbD j) :
    Rep (a.setChunk (i / 64) x) (l.set i val) where
  len  := by rw [List.length_set, ← h.len, BitArray.setChunk]
  fits := h.fits
  bits k hk := by
    have hset : bit (a.setChunk (i / 64) x).ptr k = if k / 64 = i / 64 then x.getLsbD (k % 64) else bit a.ptr k :=
      bit_update
    rw [hset, List.getElem?_set]
    by_cases hik : i = k
    · subst hik
      rw [if_pos rfl, hx _ (Nat.mod_lt i (by decide)), if_pos rfl, if_pos rfl, if_pos hi]
      rfl
    · rw [if_neg hik, ← h.bits k hk]
      split
      case isTrue hw =>
        rw [hx _ (Nat.mod_lt k (by decide)), if_neg (by omega), ← hw, bit]
      case isFalse => rfl

theorem bts (h : Rep a l) (hi : i < l.length) : Rep (a.bts i) (l.set i true) :=
  h.setChunk hi fun j _ => by
    rw [BitsPerChunk, BitVec.getLsbD_or, getLsbD_one_shl (Nat.mod_lt i (by decide))]
    split
    case isTrue hj  => rw [decide_eq_true hj, Bool.or_true]
    case isFalse hj => rw [decide_eq_false hj, Bool.or_false]

-- The complement sets the bit to 0 if it was 1.
theorem btc (h : Rep a l) (hi : i < l.length) : Rep (a.btc i) (l.set i !a.opIndex i) :=
  h.setChunk hi fun j _ => by
    rw [BitsPerChunk, BitVec.getLsbD_xor, getLsbD_one_shl (Nat.mod_lt i (by decide))]
    split
    case isTrue hj  => rw [decide_eq_true hj, Bool.xor_true, hj, opIndex, BitsPerChunk]
    case isFalse hj => rw [decide_eq_false hj, Bool.xor_false]

theorem opIndexAssign {val : Bool} (h : Rep a l) (hi : i < l.length)
    (hv : val = false → a.opIndex i = true) :
    ∃ b, a.opIndexAssign val i = some b ∧ Rep b (l.set i val) := by
  have hlen : i < a.len := h.len ▸ hi
  cases val
  case true =>
    refine ⟨a.bts i, ?_, h.bts hi⟩
    rw [BitArray.opIndexAssign, guard, if_pos hlen]
    rfl
  case false =>
    have hbtc := h.btc hi
    rw [hv rfl] at hbtc
    refine ⟨a.btc i, ?_, hbtc⟩
    rw [BitArray.opIndexAssign, guard, if_pos hlen]
    rfl

end Rep

theorem update_ite {f g : Nat → Chunk} :
    Function.update (fun i => if i < n then f i else g i) n (f n) = fun i => if i < n + 1 then f i else g i := by
  funext i
  rw [Function.update_apply]
  split
  case isTrue h  => rw [h, if_pos (Nat.lt_succ_self n)]
  case isFalse h => exact if_congr (by omega) rfl rfl

-- The chunks of the array are changed one after the other.
theorem foldl_setChunk {f : Nat → Chunk → Chunk} :
    (List.range n).foldl (fun a i => a.setChunk i (f i (a.ptr i))) a =
      { a with ptr := fun i => if i < n then f i (a.ptr i) else a.ptr i } := by
  induction n
  case zero => rfl
  case succ n ih =>
    rw [List.range_succ, List.foldl_append, ih, List.foldl_cons, List.foldl_nil, BitArray.setChunk]
    simp only [if_neg (Nat.lt_irrefl n)]
    congr 1
    exact update_ite (f := fun i => f i (a.ptr i))

theorem foldl_swap :
    (List.range n).foldl (fun ab i => (ab.1.setChunk i (ab.2.ptr i), ab.2.setChunk i (ab.1.ptr i))) (a, b) =
      ({ a with ptr := fun i => if i < n then b.ptr i else a.ptr i },
        { b with ptr := fun i => if i < n then a.ptr i else b.ptr i }) := by
  induction n
  case zero => rfl
  case succ n ih =>
    rw [List.range_succ, List.foldl_append, ih, List.foldl_cons, List.foldl_nil]
    simp only [BitArray.setChunk, if_neg (Nat.lt_irrefl n), update_ite]

namespace Rep

-- An array that is given the chunks of another one of its length.
theorem copied (h : Rep b m) (hlen : a.len = b.len) (hn : n = chunks b.len) :
    Rep { a with ptr := fun i => if i < n then b.ptr i else a.ptr i } m where
  len  := hlen.trans h.len
  fits := hlen ▸ h.fits
  bits i hi := by
    have hib : i < chunks b.len * 64 := hlen ▸ hi
    have hc : i / 64 < n := hn ▸ Nat.div_lt_of_lt_mul (Nat.mul_comm _ 64 ▸ hib)
    rw [bit_ite, if_pos hc, h.bits i hib]

theorem or (h : Rep a l) (h' : Rep b m) (hlen : l.length = m.length) :
    ∃ c, a.or b = some c ∧ Rep c (List.zipWith (· || ·) l m) := by
  have hab : a.len = b.len := h.len.trans (hlen.trans h'.len.symm)
  rw [BitArray.or, guard, if_pos hab]
  refine ⟨_, rfl, ?_⟩
  rw [foldl_setChunk (f := fun i x => x ||| b.ptr i)]
  constructor
  case len  => rw [List.length_zipWith, ← hlen, Nat.min_self, h.len]
  case fits => exact h.fits
  case bits =>
    intro i hi
    have hc : i / 64 < chunks a.len := Nat.div_lt_of_lt_mul (Nat.mul_comm _ 64 ▸ hi)
    have hor : bit (fun i => a.ptr i ||| b.ptr i) i = (bit a.ptr i || bit b.ptr i) := BitVec.getLsbD_or
    rw [bit_ite, if_pos hc, hor, h.bits i hi, h'.bits i (hab ▸ hi), List.getElem?_zipWith]
    by_cases hi : i < l.length
    · rw [List.getElem?_eq_getElem hi, List.getElem?_eq_getElem (hlen ▸ hi)]
      rfl
    · rw [List.getElem?_eq_none (by omega), List.getElem?_eq_none (by omega)]
      rfl

theorem swap (h : Rep a l) (h' : Rep b m) (hlen : l.length = m.length) :
    ∃ ab, a.swap b = some ab ∧ Rep ab.1 m ∧ Rep ab.2 l := by
  have hab : a.len = b.len := h.len.trans (hlen.trans h'.len.symm)
  rw [BitArray.swap, guard, if_pos hab]
  refine ⟨_, rfl, ?_⟩
  rw [foldl_swap]
  exact ⟨h'.copied hab (by rw [hab]), h.copied hab.symm rfl⟩

end Rep

theorem getD_resize {nlen : Nat} : (resize l nlen)[i]?.getD false = if i < nlen then l[i]?.getD false else false := by
  rw [resize, List.getElem?_append, List.length_take]
  split
  case isTrue hi => rw [List.getElem?_take, if_pos (by omega), if_pos (by omega)]
  case isFalse hi =>
    have hf : (List.replicate (nlen - l.length) false)[i - min nlen l.length]?.getD false = false := by
      rw [List.getElem?_replicate]
      split <;> rfl
    rw [hf]
    split
    case isTrue hn  => rw [List.getElem?_eq_none (by omega)]; rfl
    case isFalse hn => rfl

theorem length_resize {nlen : Nat} : (resize l nlen).length = nlen := by
  rw [resize, List.length_append, List.length_take, List.length_replicate]
  omega

theorem xrealloc_old {ptr : Nat → Chunk} {o : Nat} (hi : i < o) : xrealloc ptr o n fresh i = ptr i := by
  rw [xrealloc]
  split
  case isTrue  => exact if_pos hi
  case isFalse => rfl

theorem clearChunks_apply {ptr : Nat → Chunk} {o : Nat} :
    clearChunks ptr o n i = if o ≤ i ∧ i < n then 0 else ptr i := by
  rw [clearChunks]
  split
  case isTrue  => rfl
  case isFalse => rw [if_neg (by omega)]

-- The chunks before the last one is masked.
theorem resized_eq {nlen : Nat} (hi : i < chunks nlen) :
    clearChunks (xrealloc a.ptr (chunks a.len) (chunks nlen) fresh) (chunks a.len) (chunks nlen) i =
      if i < chunks a.len then a.ptr i else 0 := by
  rw [clearChunks_apply]
  by_cases ho : i < chunks a.len
  · rw [if_neg (by omega), if_pos ho, xrealloc_old ho]
  · rw [if_pos (by omega), if_neg ho]

namespace Rep

variable (fresh) in
-- The bits that remain, and 0 in the chunks that are new.
theorem bit_resized {nlen : Nat} (h : Rep a l) (hi : i < chunks nlen * 64) :
    bit (clearChunks (xrealloc a.ptr (chunks a.len) (chunks nlen) fresh) (chunks a.len) (chunks nlen)) i =
      l[i]?.getD false := by
  rw [bit, resized_eq (Nat.div_lt_of_lt_mul (Nat.mul_comm _ 64 ▸ hi))]
  split
  case isTrue ho => exact h.bits i (by omega)
  case isFalse ho =>
    have hfits := chunks_eq h.fits
    have hlen := h.len
    rw [List.getElem?_eq_none (by omega)]
    exact BitVec.getLsbD_zero

variable (fresh) in
theorem setLength {nlen : Nat} (h : Rep a l) (hn : Fits nlen) :
    ∃ b, a.setLength nlen fresh = some b ∧ Rep b (resize l nlen) := by
  have hc := chunks_eq hn
  have hmask : nlen &&& (BitsPerChunk - 1) = nlen % 64 := Nat.and_two_pow_sub_one_eq_mod nlen 6
  rw [BitArray.setLength, hmask]
  dsimp only
  split
  case isTrue hm =>
    rw [if_neg (by omega)]
    refine ⟨_, rfl, (length_resize).symm, hn, fun i (hi : i < chunks nlen * 64) => ?_⟩
    have hlast : (1#64 <<< (nlen % 64) - 1).getLsbD (i % 64) = decide (i % 64 < nlen % 64) :=
      getLsbD_one_shl_sub_one (Nat.mod_lt nlen (by decide))
    rw [bit_update, BitVec.getLsbD_and, hlast, getD_resize]
    have hbit := h.bit_resized fresh hi
    split
    case isTrue hlast =>
      rw [← hlast, ← bit, hbit]
      by_cases hin : i < nlen
      · rw [decide_eq_true (by omega), if_pos hin, Bool.and_true]
      · rw [decide_eq_false (by omega), if_neg hin, Bool.and_false]
    case isFalse hlast => rw [hbit, if_pos (by omega)]
  case isFalse hm =>
    refine ⟨_, rfl, (length_resize).symm, hn, fun i (hi : i < chunks nlen * 64) => ?_⟩
    rw [h.bit_resized fresh hi, getD_resize, if_pos (by omega)]

theorem assigned (h : Rep b m) (hlen : a.len = b.len) :
    ∃ c, (do
      guard (a.len = b.len)
      return { a with ptr := fun i => if i < chunks a.len then b.ptr i else a.ptr i }) = some c ∧ Rep c m := by
  rw [guard, if_pos hlen]
  exact ⟨_, rfl, h.copied hlen (by rw [hlen])⟩

variable (fresh) in
theorem opAssign (h : Rep a l) (h' : Rep b m) (hl : l = [] ∨ l.length = m.length) :
    ∃ c, a.opAssign b fresh = some c ∧ Rep c m := by
  have hlen := h.len
  have hlen' := h'.len
  rw [BitArray.opAssign]
  split
  case isTrue hz =>
    obtain ⟨c, hc, hr⟩ := h.setLength fresh h'.fits
    rw [hc]
    exact h'.assigned (hr.len.trans length_resize)
  case isFalse hz =>
    obtain rfl | hl := hl
    · exact absurd hlen hz
    · exact h'.assigned (hlen.trans (hl.trans hlen'.symm))

end Rep

-- The states in which the arrays are these lists.
def Reps (s : State) (l : Lists) : Prop :=
  ∀ x, Rep (s x) (l x)

variable {s : State} {ls ls' : Lists} {op : Op}

theorem Reps.update {x : Nat} (h : Reps s ls) (hx : Rep a l) :
    Reps (Function.update s x a) (Function.update ls x l) := by
  intro y
  rw [Function.update_apply, Function.update_apply]
  split
  case isTrue  => exact hx
  case isFalse => exact h y

-- The steps that do what they do for lists: a bit is only set to false if it is true, and the number of
-- chunks for a length does not overflow.
def Op.Meets (s : State) : Op → Prop
  | .setLength _ nlen _          => Fits nlen
  | .opIndexAssign x false idx   => (s x).opIndex idx = true
  | _                            => True

theorem of_guard {α : Type} {p : Prop} [Decidable p] {x y : α} (h : (do guard p; return x) = some y) :
    p ∧ x = y := by
  by_cases hp : p
  · rw [guard, if_pos hp] at h
    exact ⟨hp, Option.some.inj h⟩
  · rw [guard, if_neg hp] at h
    cases h

theorem step_reps (h : Reps s ls) (hm : op.Meets s) (hl : ls.step op = some ls') :
    ∃ s', s.step op = some s' ∧ Reps s' ls' := by
  cases op
  case setLength x nlen fresh =>
    obtain ⟨-, rfl⟩ := of_guard hl
    obtain ⟨a, ha, hr⟩ := (h x).setLength fresh hm
    exact ⟨_, by rw [State.step, ha]; rfl, h.update hr⟩
  case opAssign x y fresh =>
    obtain ⟨hlen, rfl⟩ := of_guard hl
    obtain ⟨a, ha, hr⟩ := (h x).opAssign fresh (h y) hlen
    exact ⟨_, by rw [State.step, ha]; rfl, h.update hr⟩
  case opIndexAssign x val idx =>
    obtain ⟨hi, rfl⟩ := of_guard hl
    have hv : val = false → (s x).opIndex idx = true := by
      rintro rfl
      exact hm
    obtain ⟨a, ha, hr⟩ := (h x).opIndexAssign hi hv
    exact ⟨_, by rw [State.step, ha]; rfl, h.update hr⟩
  case or x y =>
    obtain ⟨hlen, rfl⟩ := of_guard hl
    obtain ⟨a, ha, hr⟩ := (h x).or (h y) hlen
    exact ⟨_, by rw [State.step, ha]; rfl, h.update hr⟩
  case swap x y =>
    obtain ⟨hlen, rfl⟩ := of_guard hl
    obtain ⟨ab, hab, hx, hy⟩ := (h x).swap (h y) hlen
    exact ⟨_, by rw [State.step, hab]; rfl, (h.update hx).update hy⟩
  case zero x =>
    cases hl
    exact ⟨_, rfl, h.update (h x).zero⟩

-- Every step of a run meets the condition.
def State.Meets (s : State) : List Op → Prop
  | []        => True
  | op :: ops => op.Meets s ∧ ∀ s', s.step op = some s' → s'.Meets ops

theorem run_reps {ops : List Op} (h : Reps s ls) (hm : s.Meets ops) (hl : ls.run ops = some ls') :
    ∃ s', s.run ops = some s' ∧ Reps s' ls' := by
  induction ops generalizing s ls
  case nil =>
    cases hl
    exact ⟨s, rfl, h⟩
  case cons op ops ih =>
    obtain ⟨ls₁, hl₁, hl'⟩ := Option.bind_eq_some_iff.mp hl
    obtain ⟨s₁, hs₁, h₁⟩ := step_reps h hm.1 hl₁
    obtain ⟨s', hs', h'⟩ := ih h₁ (hm.2 s₁ hs₁) hl'
    refine ⟨s', ?_, h'⟩
    rw [State.run, List.foldlM_cons, hs₁]
    exact hs'

-- What can be seen of the arrays is what can be seen of the lists.
structure Agrees (s : State) (ls : Lists) : Prop where
  length   : ∀ x, (s x).len = (ls x).length
  opIndex  : ∀ x i, i < (s x).len → (ls x)[i]? = some ((s x).opIndex i)
  isZero   : ∀ x, (s x).isZero = true ↔ ∀ v ∈ ls x, v = false
  opEquals : ∀ x y, (s x).opEquals (s y) = true ↔ ls x = ls y

theorem Reps.agrees (h : Reps s ls) : Agrees s ls where
  length x      := (h x).len
  opIndex x _ hi := (h x).getElem? hi
  isZero x      := (h x).isZero
  opEquals x y  := (h x).opEquals (h y)

-- Arrays behave as lists in every run in which a bit is only set to false if it is true, and no length
-- is set for which the number of chunks overflows.
theorem run_agrees {ops : List Op} {ls : Lists} (hl : Lists.init.run ops = some ls)
    (hm : State.init.Meets ops) : ∃ s, State.init.run ops = some s ∧ Agrees s ls := by
  obtain ⟨s, hs, h⟩ := run_reps (fun _ => Rep.empty) hm hl
  exact ⟨s, hs, h.agrees⟩

-- A bit that is set to true and then to false.
theorem run_agrees_clear : ∃ s, State.init.run
    [.setLength 0 20 (fun _ => 0), .opIndexAssign 0 true 10, .opIndexAssign 0 false 10] = some s ∧
      (s 0).isZero = true := by
  have hm : State.init.Meets
      [.setLength 0 20 (fun _ => 0), .opIndexAssign 0 true 10, .opIndexAssign 0 false 10] := by
    refine ⟨by show 20 + 63 < 2 ^ 64; decide, fun s₁ h₁ => ⟨trivial, fun s₂ h₂ => ⟨?_, fun _ _ => trivial⟩⟩⟩
    cases Option.some.inj h₁
    cases Option.some.inj h₂
    show BitArray.opIndex _ _ = true
    decide
  obtain ⟨s, hs, ha⟩ := run_agrees rfl hm
  exact ⟨s, hs, (ha.isZero 0).mpr (by decide)⟩

-- A new bit is false, and setting it to false makes it true.
theorem opIndexAssign_complement : ¬ ∀ ops ls, Lists.init.run ops = some ls →
    ∃ s, State.init.run ops = some s ∧ Agrees s ls := by
  intro h
  obtain ⟨s, hs, ha⟩ := h [.setLength 0 20 (fun _ => 0), .opIndexAssign 0 false 10] _ rfl
  cases Option.some.inj hs
  have hbit := ha.opIndex 0 10 (by decide)
  revert hbit
  decide

end BitArray
end Compiler.Root
