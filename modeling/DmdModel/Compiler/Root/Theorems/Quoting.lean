import DmdModel.Compiler.Root.Theorems.Response

-- Arguments that are quoted are read again.

namespace Compiler.Root.Response

open Runtime.Utf

variable {a s u t rest sep w o : Str} {c : Char8} {as args : List Str} {comment instring : Bool} {k m n argIndex : Nat}
  {numSlashes : int} {r : Reading}

section quoting

abbrev slash : Char8 := chr '\\'

-- The text of an argument, where `k` backslashes are before what is to be written
def escape : (k : Nat) → Str → Str
  | k, []     => List.replicate (2 * k) slash
  | k, c :: s =>
    if c = slash then escape (k + 1) s
    else if c = chr '"' then List.replicate (2 * k + 1) slash ++ c :: escape 0 s
    else List.replicate k slash ++ c :: escape 0 s

def quoted (a : Str) : Str :=
  chr '"' :: escape 0 a ++ [chr '"']

def Blank (c : Char8) : Prop :=
  c = chr ' ' ∨ c = chr '\t' ∨ c = chr '\n'

-- The responses that are written for some arguments
inductive Written : List Str → Str → Prop
  | nil : Written [] [0]
  | last {a : Str} : Written [a] (quoted a ++ [0])
  | cons {a b : Str} {as : List Str} {sep t : Str} :
    sep ≠ [] → (∀ c ∈ sep, Blank c) → Written (b :: as) t → Written (a :: b :: as) (quoted a ++ (sep ++ t))

-- The characters that can be within quotes
def Plain (c : Char8) : Prop :=
  c ≠ 0 ∧ c ≠ 26 ∧ c ≠ chr '\r' ∧ c ≠ chr '\n'

-- The backslashes before every quote, and before the end, can be counted when they are doubled.
def fits : (k : Nat) → Str → Bool
  | k, []     => k < 2 ^ 30
  | k, c :: s =>
    if c = slash then fits (k + 1) s
    else if c = chr '"' then k < 2 ^ 30 && fits 0 s
    else fits 0 s

end quoting

section strings

theorem lex_slashes (m : Nat) (r : Reading) : lex (List.replicate m slash ++ rest) comment (some r) =
    lex rest comment (some ⟨r.out ++ List.replicate m slash, r.instring, r.numSlashes + BitVec.ofNat 32 m⟩) := by
  induction m generalizing r
  case zero =>
    rw [List.replicate_zero, List.append_nil, List.nil_append]
    have hzero : r.numSlashes + BitVec.ofNat 32 0 = r.numSlashes := BitVec.add_zero _
    rw [hzero]
  case succ m ih =>
    have hends : ¬ ends slash r.instring = true := by
      cases r.instring <;> decide
    have heat : r.eat slash = ⟨r.out ++ [slash], r.instring, r.numSlashes + 1⟩ := by
      rw [Reading.eat, if_neg (by decide), if_neg (by decide), if_pos rfl]
    have hcount : r.numSlashes + 1 + BitVec.ofNat 32 m = r.numSlashes + BitVec.ofNat 32 (m + 1) := by
      rw [Nat.add_comm m 1, BitVec.ofNat_add, BitVec.add_assoc]
      rfl
    rw [List.replicate_succ, List.cons_append, lex_some, if_neg (by decide), if_neg hends, heat, ih, hcount,
      List.append_assoc, List.singleton_append]

theorem kept_slashes {x : int} (h : taken x ≤ m) (u : Str) (instring : Bool) :
    Reading.kept ⟨u ++ List.replicate m slash, instring, x⟩ = u ++ List.replicate (m - taken x) slash := by
  change (u ++ List.replicate m slash).take ((u ++ List.replicate m slash).length - taken x) = _
  rw [List.length_append, List.length_replicate, Nat.add_sub_assoc h, List.take_length_add_append, List.take_replicate,
    Nat.min_eq_left (Nat.sub_le _ _)]

theorem dropLast_slashes (u : Str) (m : Nat) :
    (u ++ List.replicate (m + 1) slash).dropLast = u ++ List.replicate m slash := by
  rw [List.replicate_succ', ← List.append_assoc, List.dropLast_concat]

theorem toInt_ofNat (hm : m < 2 ^ 31) : (BitVec.ofNat 32 m).toInt = m := by
  have hlt : m < 2 ^ 32 := by omega
  rw [BitVec.toInt_eq_toNat_bmod, BitVec.toNat_ofNat, Nat.mod_eq_of_lt hlt, Int.bmod_def]
  split_ifs <;> omega

-- Quotes behind backslashes that can be counted

theorem eat_even (hk : k < 2 ^ 30) (u : Str) (instring : Bool) :
    Reading.eat ⟨u ++ List.replicate (2 * k) slash, instring, BitVec.ofNat 32 (2 * k)⟩ (chr '"') =
      ⟨u ++ List.replicate k slash, !instring, 0⟩ := by
  have hint := toInt_ofNat (m := 2 * k) (by omega)
  have htaken : taken (BitVec.ofNat 32 (2 * k)) = k := by
    rw [taken_eq, hint]
    omega
  have hodd : ¬ (BitVec.ofNat 32 (2 * k)).srem 2 ≠ 0 := by
    rw [srem_ne_zero_iff, hint]
    omega
  have hleft : left (BitVec.ofNat 32 (2 * k)) = 0 := left_eq_zero _ (by omega)
  rw [Reading.eat, if_pos rfl, Reading.quote, if_neg hodd, kept_slashes (by omega), htaken, hleft,
    show 2 * k - k = k by omega]

theorem eat_odd (hk : k < 2 ^ 30) (u : Str) (instring : Bool) :
    Reading.eat ⟨u ++ List.replicate (2 * k + 1) slash, instring, BitVec.ofNat 32 (2 * k + 1)⟩ (chr '"') =
      ⟨u ++ List.replicate k slash ++ [chr '"'], instring, 0⟩ := by
  have hint := toInt_ofNat (m := 2 * k + 1) (by omega)
  have htaken : taken (BitVec.ofNat 32 (2 * k + 1)) = k := by
    rw [taken_eq, hint]
    omega
  have hodd : (BitVec.ofNat 32 (2 * k + 1)).srem 2 ≠ 0 := by
    rw [srem_ne_zero_iff, hint]
    omega
  have hleft : left (BitVec.ofNat 32 (2 * k + 1)) = 0 := left_eq_zero _ (by omega)
  rw [Reading.eat, if_pos rfl, Reading.quote, if_pos hodd, kept_slashes (by omega), htaken, hleft,
    show 2 * k + 1 - k = k + 1 by omega, dropLast_slashes]

-- From the state within quotes that has no backslash counted
theorem lex_run (m : Nat) (u : Str) : lex (List.replicate m slash ++ rest) comment (some ⟨u, true, 0⟩) =
    lex rest comment (some ⟨u ++ List.replicate m slash, true, BitVec.ofNat 32 m⟩) := by
  have hcount : (0 : int) + BitVec.ofNat 32 m = BitVec.ofNat 32 m := BitVec.zero_add _
  rw [lex_slashes, hcount]

theorem lex_quote (r : Reading) :
    lex (chr '"' :: rest) comment (some r) = lex rest comment (some (r.eat (chr '"'))) := by
  have hends : ¬ ends (chr '"') r.instring = true := by
    cases r.instring <;> decide
  rw [lex_some, if_neg (by decide), if_neg hends]

theorem lex_plain (hc : Plain c) (hslash : c ≠ slash) (hquote : c ≠ chr '"') (u : Str) (x : int) :
    lex (c :: rest) comment (some ⟨u, true, x⟩) = lex rest comment (some ⟨u ++ [c], true, 0⟩) := by
  obtain ⟨hzero, hstop, hreturn, hline⟩ := hc
  have hends : ends c true = false := by
    rw [ends, decide_eq_false hline, decide_eq_false hzero]
    rfl
  rw [lex_some, if_neg hstop, hends, if_neg Bool.false_ne_true, Reading.eat, if_neg hquote, if_neg hreturn,
    if_neg hslash]

-- What is written is read again, if the backslashes can be counted.
theorem lex_escape (ha : ∀ c ∈ a, Plain c) (hfits : fits k a = true) (u : Str) :
    lex (escape k a ++ chr '"' :: rest) comment (some ⟨u, true, 0⟩) =
      lex rest comment (some ⟨u ++ List.replicate k slash ++ a, false, 0⟩) := by
  induction a generalizing k u
  case nil =>
    rw [escape, lex_run, lex_quote, eat_even (of_decide_eq_true hfits), List.append_nil]
    rfl
  case cons c s ih =>
    obtain ⟨hc, hs⟩ := List.forall_mem_cons.mp ha
    rw [fits] at hfits
    rw [escape]
    by_cases hslash : c = slash
    case pos =>
      rw [if_pos hslash] at hfits
      rw [if_pos hslash, ih hs hfits, hslash, List.replicate_succ', ← List.append_assoc u, List.append_assoc _ [slash]]
      rfl
    rw [if_neg hslash] at hfits
    rw [if_neg hslash]
    by_cases hquote : c = chr '"'
    case pos =>
      rw [if_pos hquote, Bool.and_eq_true] at hfits
      rw [if_pos hquote, List.append_assoc, lex_run, hquote, List.cons_append, lex_quote,
        eat_odd (of_decide_eq_true hfits.1), ih hs hfits.2, List.replicate_zero, List.append_nil, List.append_assoc _ [_]]
      rfl
    case neg =>
      rw [if_neg hquote] at hfits
      rw [if_neg hquote, List.append_assoc, lex_run, List.cons_append, lex_plain hc hslash hquote, ih hs hfits,
        List.replicate_zero, List.append_nil, List.append_assoc _ [_]]
      rfl

end strings

section frame

-- What is in front of the text of an argument
def Reading.behind (w : Str) (r : Reading) : Reading :=
  ⟨w ++ r.out, r.instring, r.numSlashes⟩

theorem kept_behind (h : r.Valid) : (r.behind w).kept = w ++ r.kept := by
  have hle := h.taken_le
  change (w ++ r.out).take ((w ++ r.out).length - taken r.numSlashes) = _
  rw [List.length_append, Nat.add_sub_assoc hle, List.take_length_add_append]
  rfl

theorem eat_behind (h : r.Valid) (c : Char8) : (r.behind w).eat c = (r.eat c).behind w := by
  rw [Reading.eat, Reading.eat]
  split_ifs with hquote hreturn hslash
  case pos =>
    rw [Reading.quote, Reading.quote, kept_behind h]
    change (if r.numSlashes.srem 2 ≠ 0 then _ else _) = _
    split_ifs with hodd
    case pos =>
      rw [List.dropLast_append_of_ne_nil (h.kept_ne_nil hodd), List.append_assoc]
      rfl
    case neg => rfl
  case pos => rfl
  all_goals exact congrArg (fun out => Reading.mk out _ _) (List.append_assoc w r.out [c])

-- It stays there.
theorem lex_behind (h : r.Valid) : ∃ text more found, lex t comment (some r) = (text :: more, found) ∧
    lex t comment (some (r.behind w)) = ((w ++ text) :: more, found) := by
  induction t generalizing r
  case nil => exact ⟨r.out, [], false, rfl, rfl⟩
  case cons c t ih =>
    rw [lex_some, lex_some]
    by_cases hstop : c = 26
    case pos =>
      rw [if_pos hstop, if_pos hstop]
      exact ⟨r.out, [], false, rfl, rfl⟩
    rw [if_neg hstop, if_neg hstop]
    change ∃ text more found, _ ∧ (if ends c r.instring = true then _ else _) = _
    by_cases hends : ends c r.instring = true
    case pos =>
      rw [if_pos hends, if_pos hends]
      exact ⟨r.out, _, _, rfl, rfl⟩
    case neg =>
      rw [if_neg hends, if_neg hends, eat_behind h]
      exact ih (h.eat (eq_false_of_ne_true hends))

-- Backslashes that cannot be counted are not taken back by half.
theorem taken_lt (hm : 2 ^ 31 ≤ m) : taken (BitVec.ofNat 32 m) + m / 2 + 2 ≤ m := by
  have hlt := Nat.mod_lt m (show 0 < 2 ^ 32 by decide)
  rw [taken_eq, BitVec.toInt_eq_toNat_bmod, BitVec.toNat_ofNat, Int.bmod_def]
  split_ifs <;> omega

theorem slashes_text (n : Nat) : ∀ c ∈ List.replicate n slash, c ≠ 0 := by
  intro c hc
  rw [List.eq_of_mem_replicate hc]
  decide

-- One backslash more than there should be stays in front of the text.
theorem lex_uncounted (hk : 2 ^ 30 ≤ k) (hm : m / 2 = k) (u : Str) : ∃ text more found,
    lex (List.replicate m slash ++ chr '"' :: rest) comment (some ⟨u, true, 0⟩) =
      ((u ++ List.replicate (k + 1) slash ++ text) :: more, found) := by
  have htaken := taken_lt (m := m) (by omega)
  obtain ⟨d, hd⟩ := Nat.exists_eq_add_of_le (show k + 1 + 1 ≤ m - taken (BitVec.ofNat 32 m) by omega)
  have hleft (n : Nat) : (left (BitVec.ofNat 32 m)).toInt ≤ n := (left_nonpos _).trans (Int.natCast_nonneg _)
  have hkept := kept_slashes (x := BitVec.ofNat 32 m) (m := m) (by omega) u true
  obtain ⟨o, b, hr, ho⟩ : ∃ o b, Reading.quote ⟨u ++ List.replicate m slash, true, BitVec.ofNat 32 m⟩ =
      Reading.behind (u ++ List.replicate (k + 1) slash) ⟨o, b, left (BitVec.ofNat 32 m)⟩ ∧
      o ≠ [] ∧ ∀ c ∈ o, c ≠ 0 := by
    rw [Reading.quote, hkept, hd]
    split_ifs
    case pos =>
      refine ⟨List.replicate d slash ++ [chr '"'], true, ?_, List.append_ne_nil_of_right_ne_nil _ (List.cons_ne_nil _ _), ?_⟩
      · rw [Nat.add_right_comm (k + 1) 1 d, dropLast_slashes, List.replicate_add, Reading.behind]
        simp only [List.append_assoc]
      · intro c hc
        obtain hc | hc := List.mem_append.mp hc
        case inl => exact slashes_text d c hc
        case inr =>
          rw [List.mem_singleton.mp hc]
          decide
    case neg =>
      refine ⟨List.replicate (1 + d) slash, false, ?_, ?_, slashes_text _⟩
      · rw [Nat.add_assoc (k + 1) 1 d, List.replicate_add, Reading.behind, List.append_assoc]
        rfl
      · rw [Nat.add_comm, List.replicate_succ]
        exact List.cons_ne_nil _ _
  rw [lex_run, lex_quote, Reading.eat, if_pos rfl, hr]
  obtain ⟨text, more, found, -, hlex⟩ := @lex_behind rest (u ++ List.replicate (k + 1) slash) comment
    ⟨o, b, left (BitVec.ofNat 32 m)⟩ ⟨hleft _, fun _ => ho.1, ho.2⟩
  exact ⟨text, more, found, hlex⟩

theorem slashes_ne (hs : ∀ b t, s = b :: t → b ≠ slash) (u text : Str) :
    u ++ List.replicate (k + 1) slash ++ text ≠ u ++ List.replicate k slash ++ s := by
  intro h
  rw [List.replicate_succ', ← List.append_assoc, List.append_assoc _ [slash]] at h
  exact hs _ _ (List.append_cancel_left h).symm rfl

-- The text is another one.
theorem lex_unfit (ha : ∀ c ∈ a, Plain c) (hfits : fits k a = false) (u : Str) : ∃ text more found,
    lex (escape k a ++ chr '"' :: rest) comment (some ⟨u, true, 0⟩) = (text :: more, found) ∧
      text ≠ u ++ List.replicate k slash ++ a := by
  induction a generalizing k u
  case nil =>
    have hk : 2 ^ 30 ≤ k := not_lt.mp (of_decide_eq_false hfits)
    obtain ⟨text, more, found, hlex⟩ := @lex_uncounted rest comment _ (2 * k) hk (by omega) u
    exact ⟨_, more, found, hlex, slashes_ne (fun _ _ h => by cases h) u text⟩
  case cons c s ih =>
    obtain ⟨hc, hs⟩ := List.forall_mem_cons.mp ha
    rw [fits] at hfits
    rw [escape]
    by_cases hslash : c = slash
    case pos =>
      rw [if_pos hslash] at hfits
      obtain ⟨text, more, found, hlex, hne⟩ := ih hs hfits u
      rw [if_pos hslash]
      refine ⟨text, more, found, hlex, ?_⟩
      rw [hslash]
      rwa [List.replicate_succ', ← List.append_assoc u, List.append_assoc _ [slash]] at hne
    rw [if_neg hslash] at hfits
    rw [if_neg hslash]
    by_cases hquote : c = chr '"'
    case pos =>
      rw [if_pos hquote, List.append_assoc, List.cons_append, hquote]
      rw [if_pos hquote] at hfits
      by_cases hk : k < 2 ^ 30
      case pos =>
        rw [decide_eq_true hk, Bool.true_and] at hfits
        obtain ⟨text, more, found, hlex, hne⟩ := ih hs hfits (u ++ List.replicate k slash ++ [chr '"'])
        rw [lex_run, lex_quote, eat_odd hk]
        refine ⟨text, more, found, hlex, ?_⟩
        rwa [List.replicate_zero, List.append_nil, List.append_assoc _ [_]] at hne
      case neg =>
        obtain ⟨text, more, found, hlex⟩ := @lex_uncounted (escape 0 s ++ chr '"' :: rest) comment _ (2 * k + 1)
          (not_lt.mp hk) (by omega) u
        refine ⟨_, more, found, hlex, slashes_ne ?_ u text⟩
        rintro b t h rfl
        exact absurd (List.cons.inj h).1 (by decide)
    case neg =>
      rw [if_neg hquote] at hfits
      obtain ⟨text, more, found, hlex, hne⟩ := ih hs hfits (u ++ List.replicate k slash ++ [c])
      rw [if_neg hquote, List.append_assoc, lex_run, List.cons_append, lex_plain hc hslash hquote]
      refine ⟨text, more, found, hlex, ?_⟩
      rwa [List.replicate_zero, List.append_nil, List.append_assoc _ [_]] at hne

end frame

section responses

theorem lex_begin : lex (chr '"' :: rest) false none = lex rest false (some ⟨[], true, 0⟩) := by
  rw [lex_none, if_pos (by decide), lex_quote]
  rfl

theorem quoted_append (a rest : Str) : quoted a ++ rest = chr '"' :: (escape 0 a ++ chr '"' :: rest) := by
  rw [quoted, List.append_assoc]
  rfl

theorem lex_quoted (ha : ∀ c ∈ a, Plain c) (hfits : fits 0 a = true) :
    lex (quoted a ++ rest) false none = lex rest false (some ⟨a, false, 0⟩) := by
  rw [quoted_append, lex_begin, lex_escape ha hfits]
  rfl

theorem lex_blanks (hsep : ∀ c ∈ sep, Blank c) : lex (sep ++ rest) false none = lex rest false none := by
  induction sep
  case nil => rfl
  case cons c sep ih =>
    obtain ⟨hc, htail⟩ := List.forall_mem_cons.mp hsep
    rw [List.cons_append, ← ih htail, lex_none]
    obtain rfl | rfl | rfl := hc <;> rfl

theorem lex_separated (hne : sep ≠ []) (hsep : ∀ c ∈ sep, Blank c) (r : Reading) (hr : r.instring = false) :
    lex (sep ++ rest) false (some r) = (r.out :: (lex rest false none).1, (lex rest false none).2) := by
  cases sep
  case nil => exact absurd rfl hne
  case cons c sep =>
    obtain ⟨hc, htail⟩ := List.forall_mem_cons.mp hsep
    have hends : c ≠ 26 ∧ ends c false = true := by
      obtain rfl | rfl | rfl := hc <;> decide
    rw [List.cons_append, lex_some, if_neg hends.1, hr, if_pos hends.2, lex_blanks htail]

theorem written_terminated (h : Written as t) : t.getLast? = some 0 := by
  induction h
  case nil => rfl
  case last => exact List.getLast?_concat
  case cons a b as sep t _ _ _ ih =>
    rw [List.getLast?_append, List.getLast?_append, ih]
    rfl

-- The arguments are read if and only if their backslashes can be counted.
theorem lex_written (h : Written as t) (has : ∀ a ∈ as, ∀ c ∈ a, Plain c) :
    (lex t false none).1 = as ↔ ∀ a ∈ as, fits 0 a = true := by
  have hunfit {a rest : Str} {as : List Str} (ha : ∀ c ∈ a, Plain c) (hfits : ¬ fits 0 a = true) :
      (lex (quoted a ++ rest) false none).1 ≠ a :: as := by
    obtain ⟨text, more, found, hlex, hne⟩ := @lex_unfit _ rest false _ ha (eq_false_of_ne_true hfits) []
    rw [quoted_append, lex_begin, hlex]
    exact fun he => hne (List.cons.inj he).1
  induction h
  case nil => exact ⟨fun _ _ ha => absurd ha List.not_mem_nil, fun _ => rfl⟩
  case last a =>
    have ha := has a List.mem_cons_self
    rw [List.forall_mem_singleton]
    by_cases hfits : fits 0 a = true
    case pos =>
      rw [lex_quoted ha hfits]
      exact iff_of_true rfl hfits
    case neg => exact iff_of_false (hunfit ha hfits) hfits
  case cons a b as sep t hne hsep _ ih =>
    obtain ⟨ha, has⟩ := List.forall_mem_cons.mp has
    rw [List.forall_mem_cons]
    by_cases hfits : fits 0 a = true
    case pos =>
      rw [lex_quoted ha hfits, lex_separated hne hsep _ rfl]
      exact (List.cons_inj_right a).trans ((ih has).trans (and_iff_right hfits).symm)
    case neg => exact iff_of_false (hunfit ha hfits) fun hall => hfits hall.1

-- What is to be read from a response: the arguments, at their place
def Inserts (t : Str) (args : List Str) (argIndex : Nat) (as : List Str) : Prop :=
  ∃ r, insertArgumentsFromResponse t args argIndex = some r ∧
    r.args = args.take argIndex ++ as ++ args.drop argIndex ∧ r.argIndex = argIndex + as.length

theorem inserts_iff (h : t.getLast? = some 0) (hindex : argIndex ≤ args.length) :
    Inserts t args argIndex as ↔ (lex t false none).1 = as := by
  have hrun := insertArgumentsFromResponse_eq (.inr h) hindex
  constructor
  case mp =>
    rintro ⟨r, hr, hargs, -⟩
    obtain rfl := Option.some.inj (hrun.symm.trans hr)
    exact List.append_cancel_left (List.append_cancel_right hargs)
  case mpr =>
    rintro rfl
    exact ⟨_, hrun, rfl, rfl⟩

-- Runs of 2^30 backslashes before a quote are not read back. The buffer is never left.
theorem quoting_iff (hindex : argIndex ≤ args.length) :
    (∀ as t, Written as t → (∀ a ∈ as, ∀ c ∈ a, Plain c) →
      (Inserts t args argIndex as ↔ ∀ a ∈ as, fits 0 a = true)) ∧
    ∀ buffer : Str, buffer.getLast? = some 0 → ∀ s, Reaches (start buffer args argIndex) s →
      step s ≠ none ∧ Behind s := by
  constructor
  case left =>
    intro as t h has
    rw [inserts_iff (written_terminated h) hindex, lex_written h has]
  case right =>
    intro buffer hbuffer s hs
    have hregular := (regular_start (.inr hbuffer) hindex).reaches hs
    obtain ⟨o, ho, -⟩ := hregular.step
    exact ⟨by rw [ho]; exact Option.some_ne_none o, hregular.behind⟩

theorem quoting_empty :
    (∀ as t, Written as t → (∀ a ∈ as, ∀ c ∈ a, Plain c) → (Inserts t [] 0 as ↔ ∀ a ∈ as, fits 0 a = true)) ∧
    ∀ buffer : Str, buffer.getLast? = some 0 → ∀ s, Reaches (start buffer [] 0) s → step s ≠ none ∧ Behind s :=
  quoting_iff le_rfl

theorem fits_slashes (m k : Nat) : fits k (List.replicate m slash) = decide (k + m < 2 ^ 30) := by
  induction m generalizing k
  case zero => rfl
  case succ m ih =>
    rw [List.replicate_succ, fits, if_pos rfl, ih, Nat.add_right_comm, Nat.add_assoc]

theorem slashes_plain (m : Nat) : ∀ c ∈ List.replicate m slash, Plain c := by
  intro c hc
  rw [List.eq_of_mem_replicate hc]
  exact ⟨by decide, by decide, by decide, by decide⟩

theorem not_inserts_slashes :
    Written [List.replicate (2 ^ 30) slash] (quoted (List.replicate (2 ^ 30) slash) ++ [0]) ∧
      ¬ Inserts (quoted (List.replicate (2 ^ 30) slash) ++ [0]) [] 0 [List.replicate (2 ^ 30) slash] := by
  have hunfit : ¬ fits 0 (List.replicate (2 ^ 30) slash) = true := by
    rw [fits_slashes, Nat.zero_add, decide_eq_true_iff]
    exact lt_irrefl _
  generalize 2 ^ 30 = n at hunfit
  have hw : Written [List.replicate n slash] (quoted (List.replicate n slash) ++ [0]) := .last
  refine ⟨hw, fun h => hunfit ?_⟩
  have hread := (inserts_iff (written_terminated hw) le_rfl).mp h
  exact (lex_written hw (List.forall_mem_singleton.mpr (slashes_plain n))).mp hread _ List.mem_cons_self

end responses

end Compiler.Root.Response
