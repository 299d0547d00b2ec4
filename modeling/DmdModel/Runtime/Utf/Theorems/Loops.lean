import DmdModel.Runtime.Utf.Apply

namespace Runtime.Utf

open Visit

variable {U A σ τ : Type} {arg : Nat → U → A} {step back : Step U} {len i j k fuel : Nat}
variable {dg : Body A σ} {s : σ} {us : List U}

-- A body that never ends its loop.
def NeverBreaks (dg : Body A σ) : Prop :=
  ∀ x s, (dg x s).1 = 0

theorem visit_neverBreaks (h : NeverBreaks dg) {xs : List A} : (visit dg xs s).1 = 0 := by
  induction xs generalizing s
  case nil => rfl
  case cons x xs ih =>
    rw [visit]
    dsimp only
    rw [if_neg (not_not.mpr (h x s)), ih]

theorem visit_append_neverBreaks (h : NeverBreaks dg) {xs ys : List A} :
    visit dg (xs ++ ys) s = visit dg ys (visit dg xs s).2 := by
  rw [visit_append, if_neg (not_not.mpr (visit_neverBreaks h))]

-- The code units of some characters, by the index where the first unit of a character is.
abbrev Groups (U : Type) := List (Nat × List U)

def args (arg : Nat → U → A) (gs : Groups U) : List A :=
  gs.flatMap fun g => g.2.map (arg g.1)

theorem args_cons {gs : Groups U} : args arg ((i, us) :: gs) = us.map (arg i) ++ args arg gs :=
  rfl

-- The steps from an index up to the end.
inductive Chain (step : Step U) (len : Nat) : Nat → Groups U → Prop
  | nil : Chain step len len []
  | cons {i j : Nat} {us : List U} {gs : Groups U} :
    i < len → step i = .ok (us, j) → Chain step len j gs → Chain step len i ((i, us) :: gs)

-- The indices from which the loop backward reaches 0.
inductive Reaches (back : Step U) : Nat → Prop
  | zero : Reaches back 0
  | step {i j : Nat} {us : List U} : 0 < j → back j = .ok (us, i) → Reaches back i → Reaches back j

-- Every step of the loop forward goes ahead, and the loop backward takes it back.
def Inverse (step back : Step U) (len : Nat) : Prop :=
  ∀ i us j, i < len → step i = .ok (us, j) → i < j ∧ j ≤ len ∧ back j = .ok (us, i)

-- Every step of the loop backward goes back.
def Descends (back : Step U) (len : Nat) : Prop :=
  ∀ i us j, 0 < j → j ≤ len → back j = .ok (us, i) → i < j

variable {gs : Groups U}

theorem reaches_iff (hj : 0 < j) (hs : back j = .ok (us, i)) : Reaches back j ↔ Reaches back i := by
  constructor
  · intro h
    cases h
    case zero => exact absurd hj (Nat.lt_irrefl 0)
    case step h _ hs' =>
      rw [hs] at hs'
      cases hs'
      exact h
  · exact .step hj hs

theorem Inverse.length_le (h : Inverse step back len) (hc : Chain step len i gs) : i + gs.length ≤ len := by
  induction hc
  case nil => rfl
  case cons hi hs _ ih =>
    have hij := (h _ _ _ hi hs).1
    rw [List.length_cons]
    omega

theorem forward_of_chain (h : NeverBreaks dg) (hc : Chain step len i gs) (hf : gs.length < fuel) :
    forward arg step len dg fuel i s = (.ok 0, (visit dg (args arg gs) s).2) := by
  induction hc generalizing fuel s
  case nil =>
    obtain ⟨fuel, rfl⟩ : ∃ n, fuel = n + 1 := ⟨fuel - 1, by omega⟩
    rw [forward, if_neg (Nat.lt_irrefl len)]
    rfl
  case cons i j us gs hi hs hc ih =>
    obtain ⟨fuel, rfl⟩ : ∃ n, fuel = n + 1 := ⟨fuel - 1, by rw [List.length_cons] at hf; omega⟩
    rw [forward, if_pos hi, hs]
    dsimp only
    rw [if_neg (not_not.mpr (visit_neverBreaks h)), ih (Nat.lt_of_succ_lt_succ hf), args_cons,
      visit_append_neverBreaks h]

theorem backward_of_chain (hinv : Inverse step back len) (h : NeverBreaks dg) (hc : Chain step len i gs) :
    backward arg back dg (fuel + gs.length) len s =
      backward arg back dg fuel i (visit dg (args arg gs.reverse) s).2 := by
  induction hc generalizing fuel
  case nil => rfl
  case cons i j us gs hi hs hc ih =>
    obtain ⟨hij, hj, hback⟩ := hinv i us j hi hs
    rw [List.length_cons, show fuel + (gs.length + 1) = fuel + 1 + gs.length by omega, ih, backward,
      if_pos (by omega), hback]
    dsimp only
    rw [if_neg (not_not.mpr (visit_neverBreaks h)), args, args, List.reverse_cons, List.flatMap_append,
      visit_append_neverBreaks h, List.flatMap_cons, List.flatMap_nil, List.append_nil]

variable (arg) in
-- The loop forward either goes along a chain up to the end, or one of its steps fails.
theorem forward_cases (hinv : Inverse step back len) (h : NeverBreaks dg) (hi : i ≤ len) (hf : len < fuel + i) :
    (∃ gs, Chain step len i gs) ∨
    ∃ k e s', k < len ∧ step k = .error e ∧ forward arg step len dg fuel i s = (.error e, s') := by
  induction fuel generalizing i s
  case zero => omega
  case succ fuel ih =>
    obtain hlt | rfl := Nat.lt_or_eq_of_le hi
    · rw [forward, if_pos hlt]
      cases hs : step i with
      | error e =>
        exact .inr ⟨i, e, s, hlt, hs, rfl⟩
      | ok r =>
        obtain ⟨us, j⟩ := r
        obtain ⟨hij, hj, -⟩ := hinv i us j hlt hs
        dsimp only
        rw [if_neg (not_not.mpr (visit_neverBreaks h))]
        obtain ⟨gs, hc⟩ | hfail := ih hj (by omega)
        · exact .inl ⟨_, .cons hlt hs hc⟩
        · exact .inr hfail
    · exact .inl ⟨[], .nil⟩

theorem backward_of_reaches (hdesc : Descends back len) (h : NeverBreaks dg) (hr : Reaches back j) (hj : j ≤ len)
    (hf : j < fuel) : (backward arg back dg fuel j s).1 = .ok 0 := by
  induction hr generalizing fuel s
  case zero =>
    obtain ⟨fuel, rfl⟩ : ∃ n, fuel = n + 1 := ⟨fuel - 1, by omega⟩
    rfl
  case step i j us hpos hs _ ih =>
    obtain ⟨fuel, rfl⟩ : ∃ n, fuel = n + 1 := ⟨fuel - 1, by omega⟩
    have hij := hdesc i us j hpos hj hs
    rw [backward, if_pos (by omega), hs]
    dsimp only
    rw [if_neg (not_not.mpr (visit_neverBreaks h)), ih (by omega) (by omega)]

variable (arg) in
-- The loop backward either reaches 0, or one of its steps fails.
theorem backward_cases (hdesc : Descends back len) (h : NeverBreaks dg) (hj : j ≤ len) (hf : j < fuel) :
    Reaches back j ∨
    ∃ k e s', 0 < k ∧ k ≤ len ∧ back k = .error e ∧ backward arg back dg fuel j s = (.error e, s') := by
  induction fuel generalizing j s
  case zero => omega
  case succ fuel ih =>
    obtain rfl | hpos := Nat.eq_zero_or_pos j
    · exact .inl .zero
    · rw [backward, if_pos (by omega)]
      cases hs : back j with
      | error e =>
        exact .inr ⟨j, e, s, hpos, hj, hs, rfl⟩
      | ok r =>
        obtain ⟨us, i⟩ := r
        have hij := hdesc i us j hpos hj hs
        dsimp only
        rw [if_neg (not_not.mpr (visit_neverBreaks h))]
        obtain hr | hfail := ih (j := i) (by omega) (by omega)
        · exact .inl (.step hpos hs hr)
        · exact .inr hfail

-- A failure that is not an access outside of the array nor a loop that does not end.
def Proper (e : UtfError) : Prop :=
  e ≠ .outOfBounds ∧ e ≠ .endless

theorem proper_unicode {msg : String} {idx : Nat} : Proper (.unicode msg idx) := by
  constructor <;> intro h <;> cases h

-- The two loops agree on every body that does not end them. If the loop forward comes to its end, then
-- both visit the code units of the same characters, with the same indices and in reverse order. If it
-- fails because of the encoding, then the loop backward fails too.
structure Agrees (arg : Nat → U → A) (Encodes : DChar → List U → Prop)
    (each rev : ∀ {σ : Type}, Body A σ → σ → Result σ) : Prop where
  complete : ∀ {σ : Type} {dg : Body A σ} {s : σ} {r : Int}, NeverBreaks dg → (each dg s).1 = .ok r →
    ∃ gs : Groups U, (∀ g ∈ gs, ∃ d, Encodes d g.2) ∧
      ∀ {τ : Type} (dg : Body A τ) (s : τ), NeverBreaks dg →
        each dg s = (.ok 0, (visit dg (args arg gs) s).2) ∧
        rev dg s = (.ok 0, (visit dg (args arg gs.reverse) s).2)
  fails    : ∀ {σ : Type} {dg : Body A σ} {s : σ} {msg : String} {idx : Nat}, NeverBreaks dg →
    (each dg s).1 = .error (.unicode msg idx) → ∃ e, (rev dg s).1 = .error e
  proper   : ∀ {σ : Type} {dg : Body A σ} {s : σ} {e : UtfError}, NeverBreaks dg →
    (each dg s).1 = .error e ∨ (rev dg s).1 = .error e → Proper e

-- What the steps of two loops over an array have to be.
structure Steps (step back : Step U) (Encodes : DChar → List U → Prop) (len : Nat) : Prop where
  inverse  : Inverse step back len
  descends : Descends back len
  encodes  : ∀ i us j, i < len → step i = .ok (us, j) → ∃ d, Encodes d us
  proper   : ∀ i e, i < len → step i = .error e → Proper e
  back     : ∀ j e, 0 < j → j ≤ len → back j = .error e → Proper e

variable {Encodes : DChar → List U → Prop}

theorem Steps.encodes_chain (h : Steps step back Encodes len) (hc : Chain step len i gs) :
    ∀ g ∈ gs, ∃ d, Encodes d g.2 := by
  induction hc
  case nil => exact fun g hg => absurd hg List.not_mem_nil
  case cons hi hs _ ih =>
    intro g hg
    obtain rfl | hg := List.mem_cons.mp hg
    · exact h.encodes _ _ _ hi hs
    · exact ih g hg

variable (arg) in
theorem Steps.complete (h : Steps step back Encodes len) (hc : Chain step len 0 gs) (hdg : NeverBreaks dg) :
    foreach arg step len dg s = (.ok 0, (visit dg (args arg gs) s).2) ∧
    foreachReverse arg back len dg s = (.ok 0, (visit dg (args arg gs.reverse) s).2) := by
  have hlen := h.inverse.length_le hc
  refine ⟨forward_of_chain hdg hc (by omega), ?_⟩
  obtain ⟨n, hn⟩ : ∃ n, len + 1 = n + 1 + gs.length := ⟨len - gs.length, by omega⟩
  rw [foreachReverse, hn, backward_of_chain h.inverse hdg hc, backward, if_neg (not_not.mpr rfl)]

theorem Steps.agrees (h : Steps step back Encodes len)
    (hfail : (∃ gs, Chain step len 0 gs) ∨ ¬ Reaches back len ∨
      ∀ i msg idx, i < len → step i ≠ .error (.unicode msg idx)) :
    Agrees arg Encodes (foreach arg step len) (foreachReverse arg back len) where
  complete {σ dg s r} hdg hr := by
    obtain ⟨gs, hc⟩ | ⟨k, e, s', -, -, he⟩ := forward_cases arg (s := s) h.inverse hdg (Nat.zero_le len)
      (Nat.lt_succ_self len)
    · exact ⟨gs, h.encodes_chain hc, fun dg s hdg => h.complete arg hc hdg⟩
    · rw [foreach, he] at hr
      cases hr
  fails {σ dg s msg idx} hdg hr := by
    obtain ⟨gs, hc⟩ | ⟨k, e, s', hk, hs, he⟩ := forward_cases arg (s := s) h.inverse hdg (Nat.zero_le len)
      (Nat.lt_succ_self len)
    · rw [(h.complete arg hc hdg).1] at hr
      cases hr
    · rw [foreach, he] at hr
      cases hr
      obtain ⟨gs, hc⟩ | hreach | hnone := hfail
      · have hok := (h.complete arg (s := s) hc hdg).1
        rw [foreach, he] at hok
        cases hok
      · obtain hr | ⟨_, e, _, -, -, -, hb⟩ := backward_cases arg (s := s) h.descends hdg le_rfl
          (Nat.lt_succ_self len)
        · exact absurd hr hreach
        · exact ⟨e, by rw [foreachReverse, hb]⟩
      · exact absurd hs (hnone k _ _ hk)
  proper {σ dg s e} hdg hr := by
    obtain hr | hr := hr
    · obtain ⟨gs, hc⟩ | ⟨k, e', s', hk, hs, he⟩ := forward_cases arg (s := s) h.inverse hdg (Nat.zero_le len)
        (Nat.lt_succ_self len)
      · rw [(h.complete arg hc hdg).1] at hr
        cases hr
      · rw [foreach, he] at hr
        cases hr
        exact h.proper k _ hk hs
    · obtain hreach | ⟨k, e', s', hk, hkl, hs, hb⟩ := backward_cases arg (s := s) h.descends hdg le_rfl
        (Nat.lt_succ_self len)
      · rw [foreachReverse, backward_of_reaches h.descends hdg hreach le_rfl (Nat.lt_succ_self len)] at hr
        cases hr
      · rw [foreachReverse, hb] at hr
        cases hr
        exact h.back k _ hk hkl hs

end Runtime.Utf

namespace Runtime.Utf

variable {U V : Type} {s us rest : List V} {i j : Nat} {d : DChar}

theorem unit_of_getElem? {u : V} (h : s[i]? = some u) : unit s i = .ok u := by
  rw [unit, h]

theorem exists_unit (h : i < s.length) : ∃ u, s[i]? = some u ∧ unit s i = .ok u :=
  ⟨s.get ⟨i, h⟩, List.getElem?_eq_getElem h, unit_of_getElem? (List.getElem?_eq_getElem h)⟩

theorem drop_eq_cons {v : V} : s.drop i = v :: rest ↔ s[i]? = some v ∧ s.drop (i + 1) = rest := by
  constructor
  · intro h
    have hget := congrArg (fun t : List V => t[0]?) h
    rw [List.getElem?_drop, Nat.add_zero] at hget
    refine ⟨hget, ?_⟩
    rw [← List.drop_drop, h, List.drop_one, List.tail_cons]
  · rintro ⟨hget, rfl⟩
    obtain ⟨hi, rfl⟩ := List.getElem?_eq_some_iff.mp hget
    exact List.drop_eq_getElem_cons hi

-- The characters up to 0x7F.
theorem ascii_iff {w : Nat} {u : BitVec w} : u &&& ~~~(BitVec.ofNat w 0x7F) = 0 ↔ u.toNat < 2 ^ 7 := by
  have hmask : ∀ k < w, (~~~(BitVec.ofNat w 0x7F)).getLsbD k = decide (7 ≤ k) := by
    intro k hk
    rw [BitVec.getLsbD_not, BitVec.getLsbD_ofNat, decide_eq_true hk, Bool.true_and, Bool.true_and,
      show 0x7F = 2 ^ 7 - 1 by decide, Nat.testBit_two_pow_sub_one, ← decide_not]
    exact decide_eq_decide.mpr Nat.not_lt
  constructor
  · intro h
    refine Nat.lt_pow_two_of_testBit _ fun k hk => ?_
    by_cases hw : k < w
    · have hbit := congrArg (BitVec.getLsbD · k) h
      simp only [BitVec.getLsbD_and, hmask k hw, decide_eq_true hk, Bool.and_true] at hbit
      exact hbit.trans BitVec.getLsbD_zero
    · exact BitVec.getLsbD_of_ge u k (Nat.not_lt.mp hw)
  · intro h
    refine BitVec.eq_of_getLsbD_eq fun k hk => ?_
    rw [BitVec.getLsbD_and, hmask k hk]
    by_cases h7 : 7 ≤ k
    · have hbit : u.getLsbD k = false :=
        Nat.testBit_lt_two_pow (Nat.lt_of_lt_of_le h (Nat.pow_le_pow_right (by decide) h7))
      rw [hbit, Bool.false_and]
      exact BitVec.getLsbD_zero.symm
    · rw [decide_eq_false h7, Bool.and_false]
      exact BitVec.getLsbD_zero.symm

-- The steps that decode a character and encode it in another way.
def via (dec : Nat → Except UtfError (DChar × Nat)) (enc : DChar → Except UtfError (List U)) : Step U := fun i => do
  let r ← dec i
  let us ← enc r.1
  return (us, r.2)

-- Strings of the encodings of characters.
inductive WellFormed (Code : DChar → List V → Prop) : List V → Prop
  | nil : WellFormed Code []
  | cons {d : DChar} {us rest : List V} : Code d us → WellFormed Code rest → WellFormed Code (us ++ rest)

-- A decoder of the characters of a string, and one that goes back.
structure Decoders (Code : DChar → List V → Prop) (s : List V) (dec back : Nat → Except UtfError (DChar × Nat)) :
    Prop where
  pos      : ∀ {d us}, Code d us → us ≠ []
  sound    : ∀ {i d j}, i < s.length → dec i = .ok (d, j) → ∃ us, Code d us ∧ s.drop i = us ++ s.drop j
  complete : ∀ {i d us rest}, Code d us → s.drop i = us ++ rest → dec i = .ok (d, i + us.length)
  inverse  : ∀ {i d us rest}, Code d us → s.drop i = us ++ rest → back (i + us.length) = .ok (d, i)
  descends : ∀ {i d j}, 0 < j → j ≤ s.length → back j = .ok (d, i) → i < j
  unicode  : ∀ {i e}, i < s.length → dec i = .error e → ∃ msg idx, e = .unicode msg idx
  back     : ∀ {j e}, 0 < j → j ≤ s.length → back j = .error e → ∃ msg idx, e = .unicode msg idx

variable {Code : DChar → List V → Prop} {dec back : Nat → Except UtfError (DChar × Nat)}
variable {enc : DChar → Except UtfError (List U)}

theorem via_eq_ok {xs : List U} (h : via dec enc i = .ok (xs, j)) : ∃ d, dec i = .ok (d, j) ∧ enc d = .ok xs := by
  rw [via] at h
  cases hd : dec i with
  | error e => rw [hd] at h; cases h
  | ok r =>
    rw [hd] at h
    cases he : enc r.1 with
    | error e => simp only [he, bind, Except.bind] at h; cases h
    | ok ys =>
      simp only [he, bind, Except.bind, pure, Except.pure] at h
      cases h
      exact ⟨r.1, rfl, he⟩

theorem via_ok {xs : List U} (hd : dec i = .ok (d, j)) (he : enc d = .ok xs) : via dec enc i = .ok (xs, j) := by
  rw [via, hd]
  simp only [he, bind, Except.bind, pure, Except.pure]

theorem via_eq_error {e : UtfError} (h : via dec enc i = .error e) :
    dec i = .error e ∨ ∃ d j, dec i = .ok (d, j) ∧ enc d = .error e := by
  rw [via] at h
  cases hd : dec i with
  | error e' => rw [hd] at h; cases h; exact .inl rfl
  | ok r =>
    rw [hd] at h
    cases he : enc r.1 with
    | error e' =>
      simp only [he, bind, Except.bind] at h
      cases h
      exact .inr ⟨r.1, r.2, rfl, he⟩
    | ok ys =>
      simp only [he, bind, Except.bind, pure, Except.pure] at h
      cases h

namespace Decoders

variable (h : Decoders Code s dec back)
include h

theorem next (hi : i < s.length) (hd : dec i = .ok (d, j)) :
    ∃ us, Code d us ∧ s.drop i = us ++ s.drop j ∧ j = i + us.length ∧ i < j ∧ j ≤ s.length := by
  obtain ⟨us, hc, hs⟩ := h.sound hi hd
  have hj : j = i + us.length := by
    have he := h.complete hc hs
    rw [hd] at he
    cases he
    rfl
  have hlen := congrArg List.length hs
  have hpos := List.length_pos_of_ne_nil (h.pos hc)
  rw [List.length_append, List.length_drop, List.length_drop] at hlen
  exact ⟨us, hc, hs, hj, by omega, by omega⟩

theorem steps (herr : ∀ d e, enc d = .error e → Proper e) :
    Steps (via dec enc) (via back enc) (fun d xs => enc d = .ok xs) s.length where
  inverse i xs j hi hs := by
    obtain ⟨d, hd, he⟩ := via_eq_ok hs
    obtain ⟨us, hc, hdrop, rfl, hij, hj⟩ := h.next hi hd
    exact ⟨hij, hj, via_ok (h.inverse hc hdrop) he⟩
  descends i xs j hj hjl hs := by
    obtain ⟨d, hd, -⟩ := via_eq_ok hs
    exact h.descends hj hjl hd
  encodes i xs j _ hs := by
    obtain ⟨d, -, he⟩ := via_eq_ok hs
    exact ⟨d, he⟩
  proper i e hi hs := by
    obtain hd | ⟨d, j, -, he⟩ := via_eq_error hs
    · obtain ⟨msg, idx, rfl⟩ := h.unicode hi hd
      exact proper_unicode
    · exact herr d e he
  back j e hj hjl hs := by
    obtain hd | ⟨d, i, -, he⟩ := via_eq_error hs
    · obtain ⟨msg, idx, rfl⟩ := h.back hj hjl hd
      exact proper_unicode
    · exact herr d e he

end Decoders
end Runtime.Utf
