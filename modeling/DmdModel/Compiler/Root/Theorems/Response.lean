import Mathlib
import DmdModel.Compiler.Root.Response

-- What is read from a response file, without the buffer.

namespace Compiler.Root.Response

open Runtime.Utf

variable {s s' : State} {buffer pre gap rest out out' t : Str} {c b : Char8} {comment recurse instring : Bool}
  {A B qs : List Arg} {d n : Nat} {numSlashes : int}

section reading

-- What is read of an argument
structure Reading where
  out        : Str := []
  instring   : Bool := false
  numSlashes : int := 0
  deriving DecidableEq, Repr

-- How many backslashes a quote takes back, and what is counted then
def taken (numSlashes : int) : Nat :=
  (numSlashes.sdiv 2).toInt.toNat

def left (numSlashes : int) : int :=
  if 0 < (numSlashes.sdiv 2).toInt then 0 else numSlashes.sdiv 2

-- What remains of the text
def Reading.kept (r : Reading) : Str :=
  r.out.take (r.out.length - taken r.numSlashes)

def Reading.quote (r : Reading) : Reading :=
  if r.numSlashes.srem 2 ≠ 0 then
    ⟨r.kept.dropLast ++ [chr '"'], r.instring, left r.numSlashes⟩
  else
    ⟨r.kept, !r.instring, left r.numSlashes⟩

def Reading.eat (r : Reading) (c : Char8) : Reading :=
  if c = chr '"' then
    r.quote
  else if c = chr '\r' then
    r
  else
    ⟨r.out ++ [c], r.instring, if c = chr '\\' then r.numSlashes + 1 else 0⟩

-- Whether a character begins an argument
def begins (c : Char8) (comment : Bool) : Bool :=
  !comment && !(c = 26 || c = chr '\r' || c = chr '\n' || c = 0 || c = chr ' ' || c = chr '\t' || c = chr '#')

def commentBehind (c : Char8) (comment : Bool) : Bool :=
  if c = chr '\r' ∨ c = chr '\n' then false else if c = chr '#' then true else comment

-- The arguments, and whether one of them begins with @ where it is written
def lex : Str → (comment : Bool) → Option Reading → List Str × Bool
  | [], _, reading           => (reading.toList.map Reading.out, false)
  | c :: t, comment, reading =>
    let begun := reading.isNone && begins c comment
    match if begun then some {} else reading with
    | none   => if c = 26 then ([], false) else lex t (commentBehind c comment) none
    | some r =>
      let more :=
        if c = 26 then ([r.out], false)
        else if ends c r.instring then (r.out :: (lex t comment none).1, (lex t comment none).2)
        else lex t comment (some (r.eat c))
      (more.1, (begun && c = chr '@') || more.2)

-- What is counted was read, and the text of an argument has no zero.
structure Reading.Valid (r : Reading) : Prop where
  le   : r.numSlashes.toInt ≤ r.out.length
  neg  : r.numSlashes.toInt < 0 → r.out ≠ []
  text : ∀ c ∈ r.out, c ≠ 0

section counts

variable (x : int)

theorem toInt_half : (x.sdiv 2).toInt = x.toInt.tdiv 2 :=
  BitVec.toInt_sdiv_of_ne_or_ne x 2 (.inr (by decide))

theorem tdiv_two_nonpos {a : Int} (h : a ≤ 0) : a.tdiv 2 ≤ 0 := by
  obtain ⟨b, rfl⟩ : ∃ b, a = -b := ⟨-a, by omega⟩
  rw [Int.neg_tdiv, Int.tdiv_eq_ediv_of_nonneg (by omega)]
  omega

theorem taken_eq : taken x = x.toInt.toNat / 2 := by
  rw [taken, toInt_half]
  obtain hneg | hpos := le_total x.toInt 0
  case inl =>
    have hhalf := tdiv_two_nonpos hneg
    omega
  case inr =>
    rw [Int.tdiv_eq_ediv_of_nonneg hpos]
    omega

theorem left_eq_zero (h : 0 ≤ x.toInt) : left x = 0 := by
  rw [left]
  split_ifs with hpos
  case pos => rfl
  case neg =>
    rw [toInt_half, Int.tdiv_eq_ediv_of_nonneg h] at hpos
    apply BitVec.eq_of_toInt_eq
    rw [toInt_half, Int.tdiv_eq_ediv_of_nonneg h]
    change _ = 0
    omega

theorem left_nonpos : (left x).toInt ≤ 0 := by
  rw [left]
  split_ifs with hpos
  case pos => exact le_rfl
  case neg => exact not_lt.mp hpos

theorem left_neg (h : (left x).toInt < 0) : x.toInt < 0 := by
  by_contra hnot
  rw [left_eq_zero x (not_lt.mp hnot)] at h
  exact absurd h (by decide)

theorem srem_ne_zero_iff : x.srem 2 ≠ 0 ↔ x.toInt % 2 = 1 := by
  have htwo : (2 : int).toInt = 2 := rfl
  rw [Ne, ← BitVec.toInt_inj, BitVec.toInt_srem, htwo]
  change ¬ _ = 0 ↔ _
  rw [← Int.dvd_iff_tmod_eq_zero]
  omega

theorem toInt_succ_le : (x + 1).toInt ≤ x.toInt + 1 := by
  have hone : (1 : int).toInt = 1 := rfl
  have hlt := BitVec.toInt_lt (x := x)
  have hle := BitVec.le_toInt (x := x)
  rw [BitVec.toInt_add, hone, Int.bmod_def]
  split_ifs <;> omega

end counts

namespace Reading.Valid

variable {r : Reading}

theorem empty : Reading.Valid {} :=
  ⟨by decide, fun h => absurd h (by decide), fun _ hc => absurd hc List.not_mem_nil⟩

theorem taken_le (h : r.Valid) : taken r.numSlashes ≤ r.out.length := by
  have hle := h.le
  rw [taken_eq]
  omega

-- A quote that is taken literally has something before it to be written on.
theorem kept_ne_nil (h : r.Valid) (hodd : r.numSlashes.srem 2 ≠ 0) : r.kept ≠ [] := by
  rw [srem_ne_zero_iff] at hodd
  have hle := h.le
  have hlen : r.numSlashes.toInt < 0 → 0 < r.out.length := fun hlt => List.length_pos_iff.mpr (h.neg hlt)
  rw [Reading.kept, ← List.length_pos_iff, List.length_take, taken_eq]
  omega

theorem kept_of_neg (hneg : r.numSlashes.toInt < 0) : r.kept = r.out := by
  rw [Reading.kept, taken_eq, Int.toNat_of_nonpos hneg.le, Nat.zero_div, Nat.sub_zero, List.take_length]

theorem quote (h : r.Valid) : r.quote.Valid := by
  have hle (n : Nat) : (left r.numSlashes).toInt ≤ n := (left_nonpos _).trans (Int.natCast_nonneg _)
  have htext : ∀ c ∈ r.kept, c ≠ 0 := fun c hc => h.text c (List.mem_of_mem_take hc)
  rw [Reading.quote]
  split_ifs with hodd
  case pos =>
    refine ⟨hle _, fun _ => List.append_ne_nil_of_right_ne_nil _ (List.cons_ne_nil _ _), ?_⟩
    intro c hc
    obtain hc | hc := List.mem_append.mp hc
    case inl => exact htext c (List.mem_of_mem_dropLast hc)
    case inr =>
      rw [List.mem_singleton.mp hc]
      decide
  case neg =>
    refine ⟨hle _, fun hlt => ?_, htext⟩
    have hneg := left_neg _ hlt
    exact (kept_of_neg hneg).symm ▸ h.neg hneg

theorem ne_zero_of_ends (hends : ends c instring = false) : c ≠ 0 := by
  rintro rfl
  simp [ends] at hends

theorem put (h : r.Valid) (hc : c ≠ 0) (hn : numSlashes.toInt ≤ r.out.length + 1) :
    Reading.Valid ⟨r.out ++ [c], r.instring, numSlashes⟩ where
  le   := by
    rw [List.length_append]
    exact_mod_cast hn
  neg  := fun _ => List.append_ne_nil_of_right_ne_nil _ (List.cons_ne_nil _ _)
  text := by
    intro b hb
    obtain hb | hb := List.mem_append.mp hb
    case inl => exact h.text b hb
    case inr =>
      rw [List.mem_singleton.mp hb]
      exact hc

theorem eat (h : r.Valid) (hends : ends c r.instring = false) : (r.eat c).Valid := by
  have hc := ne_zero_of_ends hends
  rw [Reading.eat]
  split_ifs with hquote hreturn hslash
  case pos => exact h.quote
  case pos => exact h
  case pos =>
    have hsucc := toInt_succ_le r.numSlashes
    have hle := h.le
    exact h.put hc (by omega)
  case neg =>
    have hzero : (0 : int).toInt = 0 := rfl
    exact h.put hc (by omega)

end Reading.Valid

end reading

section steps

variable {r : Reading}

-- Between two arguments
def outside (pre rest : Str) (comment recurse : Bool) (A B : List Arg) : State where
  buffer   := pre ++ rest
  p        := pre.length
  comment  := comment
  recurse  := recurse
  args     := A ++ B
  argIndex := A.length

-- Within the argument that begins behind `pre`. The write position is in front of `gap`, the read position behind it.
def inside (pre : Str) (r : Reading) (gap rest : Str) (comment recurse : Bool) (A B : List Arg) : State where
  buffer   := pre ++ r.out ++ gap ++ rest
  p        := (pre ++ r.out ++ gap).length
  mode     := .inner (pre ++ r.out).length r.instring r.numSlashes
  comment  := comment
  recurse  := recurse
  args     := A ++ .pointer pre.length :: B
  argIndex := A.length + 1

theorem insert_append (arg : Arg) : insert (A ++ B) A.length arg = some (A ++ arg :: B) := by
  rw [insert, if_pos (by rw [List.length_append]; omega), List.take_left, List.drop_left]

theorem write_append : write (pre ++ b :: rest) pre.length c = some (pre ++ c :: rest) := by
  rw [write, if_pos (by rw [List.length_append, List.length_cons]; omega), List.set_append_right _ _ le_rfl,
    Nat.sub_self, List.set_cons_zero]

theorem takeBack_append (hn : n ≤ out.length) : takeBack n (pre ++ out ++ rest) (pre ++ out).length =
    some (pre ++ out.take (out.length - n) ++ (List.replicate n 0 ++ rest),
      (pre ++ out.take (out.length - n)).length) := by
  induction n generalizing out rest
  case zero => rw [Nat.sub_zero, List.take_length]; rfl
  case succ n ih =>
    obtain rfl | ⟨o, x, rfl⟩ := List.eq_nil_or_concat out
    case inl => exact absurd hn (Nat.not_succ_le_zero n)
    case inr =>
      have hlen : (pre ++ o.concat x).length = (pre ++ o).length + 1 := by
        rw [List.concat_eq_append, ← List.append_assoc, List.length_append, List.length_singleton]
      have hbuffer : pre ++ o.concat x ++ rest = (pre ++ o) ++ x :: rest := by
        rw [List.concat_eq_append, ← List.append_assoc, List.append_assoc, List.singleton_append]
      rw [List.length_concat] at hn
      rw [takeBack, hlen, if_neg (Nat.succ_ne_zero _), Nat.add_sub_cancel, hbuffer, write_append, Option.bind_eq_bind,
        Option.bind_some, @ih (0 :: rest) o (by omega), List.length_concat, List.concat_eq_append,
        List.take_append_of_le_length (by omega), Nat.add_sub_add_right, List.replicate_succ', List.append_assoc _ [0]]
      rfl

theorem read_append : (pre ++ c :: t)[pre.length]? = some c := by
  rw [List.getElem?_append_right le_rfl, Nat.sub_self]
  rfl

theorem not_at_end : ¬ (pre ++ c :: t).length ≤ pre.length := by
  rw [List.length_append, List.length_cons]
  omega

theorem inside_mk (hbuffer : buffer = pre ++ r.out ++ gap ++ rest) (hp : n = (pre ++ r.out ++ gap).length)
    (hd : d = (pre ++ r.out).length) :
    State.mk buffer n (.inner d r.instring r.numSlashes) comment recurse (A ++ .pointer pre.length :: B) (A.length + 1) =
      inside pre r gap rest comment recurse A B := by
  subst hbuffer hp hd
  rfl

-- The character that is read joins the gap, whose first place is written next.
theorem gap_cons (gap : Str) (c : Char8) : ∃ b bs, gap ++ [c] = b :: bs := by
  cases gap
  case nil => exact ⟨c, [], rfl⟩
  case cons b gap => exact ⟨b, gap ++ [c], rfl⟩

theorem write_gap {bs : Str} (h : gap ++ [c] = b :: bs) (w : Char8) :
    write (pre ++ out ++ gap ++ c :: t) (pre ++ out).length w = some (pre ++ out ++ w :: bs ++ t) := by
  have hbuffer : pre ++ out ++ gap ++ c :: t = pre ++ out ++ b :: (bs ++ t) := by
    rw [List.append_cons, List.append_assoc _ gap, h, List.append_assoc, List.cons_append]
  rw [hbuffer, write_append, List.append_assoc _ (w :: bs), List.cons_append]

theorem step_inside : step (inside pre r gap rest comment recurse A B) =
    innerStep (inside pre r gap rest comment recurse A B) (pre ++ r.out).length r.instring r.numSlashes :=
  rfl

theorem innerStep_cons (s : State) (hb : s.buffer = pre ++ c :: t) (hp : s.p = pre.length) :
    innerStep s d instring numSlashes =
      if c = chr '"' then
        quote s d instring numSlashes
      else if c = 26 then
        (write s.buffer d 0).map fun buffer => .done { s with buffer := buffer }
      else if c = chr '\r' then
        some (.next { s with p := s.p + 1 })
      else if ends c instring then
        (write s.buffer d 0).map fun buffer => .next { s with buffer := buffer, p := s.p + 1, mode := .outer }
      else
        (write s.buffer d c).map fun buffer => .next { s with
          buffer := buffer, p := s.p + 1,
          mode := .inner (d + 1) instring (if c = chr '\\' then numSlashes + 1 else 0) } := by
  have hget : s.buffer[s.p]? = some c := by rw [hb, hp, read_append]
  have hend : ¬ s.buffer.length ≤ s.p := by rw [hb, hp]; exact not_at_end
  rw [innerStep, if_neg hend, hget, Option.bind_eq_bind, Option.bind_some]
  simp only [Option.map_eq_bind]
  rfl

theorem step_stop (hc : c = 26) : ∃ post,
    step (inside pre r gap (c :: t) comment recurse A B) = some (.done { inside pre r gap (c :: t) comment recurse A B with
      buffer := pre ++ r.out ++ 0 :: post }) := by
  obtain ⟨b, bs, hb⟩ := gap_cons gap c
  refine ⟨bs ++ t, ?_⟩
  rw [step_inside, innerStep_cons _ rfl rfl, if_neg (by rw [hc]; decide), if_pos hc]
  change (write (pre ++ r.out ++ gap ++ c :: t) _ 0).map _ = _
  rw [write_gap hb, Option.map_some, List.append_assoc _ (0 :: bs), List.cons_append]

theorem of_ends (h : ends c instring = true) : c ≠ chr '"' ∧ c ≠ 26 ∧ c ≠ chr '\r' := by
  have hc : c = chr ' ' ∨ c = chr '\t' ∨ c = chr '\n' ∨ c = 0 := by
    simp only [ends, Bool.or_eq_true, Bool.and_eq_true, decide_eq_true_iff] at h
    tauto
  obtain rfl | rfl | rfl | rfl := hc <;> decide

theorem step_end (h : ends c r.instring = true) : ∃ post,
    step (inside pre r gap (c :: t) comment recurse A B) =
      some (.next (outside (pre ++ r.out ++ 0 :: post) t comment recurse (A ++ [.pointer pre.length]) B)) := by
  obtain ⟨b, bs, hb⟩ := gap_cons gap c
  obtain ⟨hquote, hstop, hreturn⟩ := of_ends h
  refine ⟨bs, ?_⟩
  rw [step_inside, innerStep_cons _ rfl rfl, if_neg hquote, if_neg hstop, if_neg hreturn, if_pos h]
  change (write (pre ++ r.out ++ gap ++ c :: t) _ 0).map _ = _
  have hlen := congrArg List.length hb
  rw [List.length_append, List.length_singleton, List.length_cons] at hlen
  rw [write_gap hb, Option.map_some, outside]
  refine congrArg (fun s => some (Outcome.next s)) ?_
  have hp : (pre ++ r.out ++ gap).length + 1 = (pre ++ r.out ++ 0 :: bs).length := by
    simp only [List.length_append, List.length_cons]
    omega
  have hindex : A.length + 1 = (A ++ [Arg.pointer pre.length]).length := by
    rw [List.length_append, List.length_singleton]
  have hargs : A ++ .pointer pre.length :: B = A ++ [.pointer pre.length] ++ B := List.append_cons _ _ _
  rw [← hp, ← hindex, ← hargs]
  rfl

theorem kept_length (h : r.Valid) : r.kept.length + taken r.numSlashes = r.out.length := by
  have hle := h.taken_le
  rw [Reading.kept, List.length_take]
  omega

theorem quote_inside (h : r.Valid) : ∃ gap',
    quote (inside pre r gap (c :: t) comment recurse A B) (pre ++ r.out).length r.instring r.numSlashes =
      some (.next (inside pre r.quote gap' t comment recurse A B)) := by
  have hback : takeBack (r.numSlashes.sdiv 2).toInt.toNat (inside pre r gap (c :: t) comment recurse A B).buffer
      (pre ++ r.out).length = some (pre ++ r.kept ++ (List.replicate (taken r.numSlashes) 0 ++ (gap ++ c :: t)),
        (pre ++ r.kept).length) := by
    rw [inside, List.append_assoc _ gap]
    exact takeBack_append h.taken_le
  have hlen := kept_length h
  refine ⟨List.replicate (taken r.numSlashes) 0 ++ gap ++ [c], ?_⟩
  rw [quote, hback, Option.bind_eq_bind, Option.bind_some, Reading.quote]
  change (if _ then _ else _) = _
  by_cases hodd : r.numSlashes.srem 2 ≠ 0
  case pos =>
    obtain hnil | ⟨o, x, hkept⟩ := List.eq_nil_or_concat r.kept
    case inl => exact absurd hnil (h.kept_ne_nil hodd)
    case inr =>
      rw [List.concat_eq_append] at hkept
      have hd : (pre ++ r.kept).length = (pre ++ o).length + 1 := by
        rw [hkept, ← List.append_assoc, List.length_append, List.length_singleton]
      have hbuffer : pre ++ r.kept ++ (List.replicate (taken r.numSlashes) 0 ++ (gap ++ c :: t)) =
          pre ++ o ++ x :: (List.replicate (taken r.numSlashes) 0 ++ (gap ++ c :: t)) := by
        simp only [hkept, List.append_assoc, List.cons_append, List.nil_append]
      have hlast : r.kept.dropLast = o := by rw [hkept, List.dropLast_concat]
      rw [hkept, List.length_append, List.length_singleton] at hlen
      rw [if_pos hodd, if_pos hodd, hd, if_neg (Nat.succ_ne_zero _), Nat.add_sub_cancel, hbuffer, write_append,
        Option.bind_eq_bind, Option.bind_some, hlast]
      refine congrArg (fun s => some (Outcome.next s)) ?_
      refine inside_mk (r := ⟨o ++ [chr '"'], r.instring, left r.numSlashes⟩) ?_ ?_ ?_
      · simp only [List.append_assoc, List.cons_append, List.nil_append]
      · simp only [inside, List.length_append, List.length_replicate, List.length_singleton]
        omega
      · simp only [List.length_append, List.length_singleton, Nat.add_assoc]
  case neg =>
    rw [if_neg hodd, if_neg hodd]
    refine congrArg (fun s => some (Outcome.next s)) ?_
    refine inside_mk (r := ⟨r.kept, !r.instring, left r.numSlashes⟩) ?_ ?_ rfl
    · simp only [List.append_assoc, List.singleton_append]
    · simp only [inside, List.length_append, List.length_replicate, List.length_singleton]
      omega

theorem step_eat (h : r.Valid) (hstop : c ≠ 26) (hends : ends c r.instring = false) : ∃ gap',
    step (inside pre r gap (c :: t) comment recurse A B) =
      some (.next (inside pre (r.eat c) gap' t comment recurse A B)) := by
  rw [step_inside, innerStep_cons _ rfl rfl, Reading.eat]
  by_cases hquote : c = chr '"'
  case pos =>
    rw [if_pos hquote, if_pos hquote]
    exact quote_inside h
  rw [if_neg hquote, if_neg hquote, if_neg hstop]
  by_cases hreturn : c = chr '\r'
  case pos =>
    rw [if_pos hreturn, if_pos hreturn]
    refine ⟨gap ++ [c], congrArg (fun s => some (Outcome.next s)) (inside_mk ?_ ?_ rfl)⟩
    · exact (List.append_cons _ _ _).trans (congrArg (· ++ t) (List.append_assoc _ _ _))
    · simp only [inside, List.length_append, List.length_singleton, Nat.add_assoc]
  case neg =>
    obtain ⟨b, bs, hb⟩ := gap_cons gap c
    have hlen := congrArg List.length hb
    rw [List.length_append, List.length_singleton, List.length_cons] at hlen
    rw [if_neg hreturn, if_neg hreturn, hends, if_neg Bool.false_ne_true]
    refine ⟨bs, ?_⟩
    change (write (pre ++ r.out ++ gap ++ c :: t) _ c).map _ = _
    rw [write_gap hb, Option.map_some]
    refine congrArg (fun s => some (Outcome.next s)) ?_
    refine inside_mk (r := ⟨r.out ++ [c], r.instring, if c = chr '\\' then r.numSlashes + 1 else 0⟩) ?_ ?_ ?_
    · simp only [List.append_assoc, List.cons_append, List.nil_append]
    · simp only [inside, List.length_append, List.length_singleton]
      omega
    · simp only [List.length_append, List.length_singleton, Nat.add_assoc]

theorem outerStep_cons (s : State) (hb : s.buffer = pre ++ c :: t) (hp : s.p = pre.length)
    (hargs : s.args = A ++ B) (hindex : s.argIndex = A.length) :
    outerStep s =
      if begins c s.comment then
        some (.next { s with
          recurse := s.recurse || c = chr '@', args := A ++ .pointer s.p :: B, argIndex := A.length + 1,
          mode := .inner s.p false 0 })
      else if c = 26 then
        some (.done s)
      else
        some (.next { s with comment := commentBehind c s.comment, p := s.p + 1 }) := by
  have hget : s.buffer[s.p]? = some c := by rw [hb, hp, read_append]
  have hend : ¬ s.buffer.length ≤ s.p := by rw [hb, hp]; exact not_at_end
  rw [outerStep, if_neg hend, hget, Option.bind_eq_bind, Option.bind_some, hargs, hindex, insert_append,
    commentBehind]
  by_cases hstop : c = 26
  case pos =>
    have hbegins : ¬ begins c s.comment = true := by simp [begins, hstop]
    rw [if_pos hstop, if_neg hbegins, if_pos hstop]
    rfl
  by_cases hline : c = chr '\r' ∨ c = chr '\n'
  case pos =>
    have hbegins : ¬ begins c s.comment = true := by
      obtain h | h := hline <;> simp [begins, h]
    rw [if_neg hstop, if_pos hline, if_neg hbegins, if_neg hstop, if_pos hline]
    rfl
  by_cases hblank : c = 0 ∨ c = chr ' ' ∨ c = chr '\t'
  case pos =>
    have hbegins : ¬ begins c s.comment = true := by
      obtain h | h | h := hblank <;> simp [begins, h]
    have hhash : ¬ c = chr '#' := by
      obtain rfl | rfl | rfl := hblank <;> decide
    rw [if_neg hstop, if_neg hline, if_pos hblank, if_neg hbegins, if_neg hstop, if_neg hline, if_neg hhash]
    rfl
  by_cases hhash : c = chr '#'
  case pos =>
    have hbegins : ¬ begins c s.comment = true := by simp [begins, hhash]
    rw [if_neg hstop, if_neg hline, if_neg hblank, if_pos hhash, if_neg hbegins, if_neg hstop, if_neg hline,
      if_pos hhash]
    rfl
  case neg =>
    have hbegins : begins c s.comment = !s.comment := by
      simp only [not_or] at hline hblank
      rw [begins, decide_eq_false hstop, decide_eq_false hline.1, decide_eq_false hline.2, decide_eq_false hblank.1,
        decide_eq_false hblank.2.1, decide_eq_false hblank.2.2, decide_eq_false hhash]
      cases s.comment <;> rfl
    rw [if_neg hstop, if_neg hline, if_neg hblank, if_neg hhash, hbegins, if_neg hstop, if_neg hline, if_neg hhash]
    cases hcomment : s.comment
    case false => rfl
    case true => rfl

theorem step_outside : step (outside pre (c :: t) comment recurse A B) =
    if begins c comment then
      some (.next (inside pre {} [] (c :: t) comment (recurse || c = chr '@') A B))
    else if c = 26 then
      some (.done (outside pre (c :: t) comment recurse A B))
    else
      some (.next (outside (pre ++ [c]) t (commentBehind c comment) recurse A B)) := by
  refine (outerStep_cons (A := A) (B := B) _ rfl rfl rfl rfl).trans ?_
  by_cases hbegins : begins c comment = true
  case pos =>
    refine (if_pos hbegins).trans (Eq.trans ?_ (if_pos hbegins).symm)
    refine congrArg (fun s => some (Outcome.next s)) (inside_mk (r := {}) ?_ ?_ ?_)
    all_goals simp only [outside, List.append_nil]
  case neg =>
    refine (if_neg hbegins).trans (Eq.trans ?_ (if_neg hbegins).symm)
    by_cases hstop : c = 26
    case pos => rw [if_pos hstop, if_pos hstop]
    case neg =>
      rw [if_neg hstop, if_neg hstop]
      refine congrArg (fun s => some (Outcome.next s)) ?_
      simp only [outside, List.append_assoc, List.singleton_append, List.length_append, List.length_singleton]

theorem step_outside_nil : step (outside pre [] comment recurse A B) = some (.done (outside pre [] comment recurse A B)) := by
  have hend : (outside pre [] comment recurse A B).buffer.length ≤ (outside pre [] comment recurse A B).p := by
    rw [outside, List.append_nil]
  change outerStep _ = _
  rw [outerStep, if_pos hend]
  rfl

end steps

section runs

variable {r : Reading} {fuel : Nat}

-- What a run reads: the arguments that it inserts, and their texts in the buffer that it leaves
def Reads (fuel : Nat) (s : State) (pre : Str) (recurse : Bool) (A B : List Arg) (read : List Str × Bool) : Prop :=
  ∃ s' qs post, run fuel s = some s' ∧ s'.args = A ++ qs ++ B ∧ s'.argIndex = A.length + qs.length ∧
    s'.buffer = pre ++ post ∧ qs.map (Arg.text s'.buffer) = read.1 ∧ s'.recurse = (recurse || read.2)

theorem cString_append {post : Str} (h : r.Valid) : cString (pre ++ r.out ++ 0 :: post) pre.length = r.out := by
  have hall : ∀ c ∈ r.out, decide (c ≠ 0) = true := fun c hc => decide_eq_true (h.text c hc)
  rw [cString, List.append_assoc, List.drop_left, List.takeWhile_append_of_pos hall,
    List.takeWhile_cons_of_neg (by simp), List.append_nil]

theorem run_next (hs : step s = some (.next s')) : run (fuel + 1) s = run fuel s' := by
  rw [run, hs]
  rfl

theorem run_done (hs : step s = some (.done s')) : run (fuel + 1) s = some s' := by
  rw [run, hs]
  rfl

-- The end of the text
def Terminated (rest : Str) : Prop :=
  rest = [] ∨ rest.getLast? = some 0

theorem Terminated.tail (h : Terminated (c :: t)) : Terminated t := by
  cases t
  case nil => exact .inl rfl
  case cons b t =>
    refine .inr ?_
    obtain h | h := h
    case inl => cases h
    case inr => rwa [List.getLast?_cons_cons] at h

theorem Terminated.tail_ne_nil (h : Terminated (c :: t)) (hkeep : ends c instring = false) : t ≠ [] := by
  rintro rfl
  obtain h | h := h
  case inl => cases h
  case inr => exact Reading.Valid.ne_zero_of_ends hkeep (Option.some.inj h)

theorem lex_some : lex (c :: t) comment (some r) =
    if c = 26 then ([r.out], false)
    else if ends c r.instring then (r.out :: (lex t comment none).1, (lex t comment none).2)
    else lex t comment (some (r.eat c)) :=
  rfl

theorem lex_none : lex (c :: t) comment none =
    if begins c comment then ((lex (c :: t) comment (some {})).1, c = chr '@' || (lex (c :: t) comment (some {})).2)
    else if c = 26 then ([], false)
    else lex t (commentBehind c comment) none := by
  by_cases hbegins : begins c comment = true
  case pos =>
    rw [if_pos hbegins, lex, lex_some, hbegins]
    rfl
  case neg =>
    rw [if_neg hbegins, lex, eq_false_of_ne_true hbegins]
    rfl

theorem run_reads (hrest : Terminated rest) :
    (∀ pre comment recurse A B fuel, 2 * rest.length + 1 ≤ fuel →
      Reads fuel (outside pre rest comment recurse A B) pre recurse A B (lex rest comment none)) ∧
    ∀ pre r gap comment recurse A B fuel, r.Valid → rest ≠ [] → 2 * rest.length ≤ fuel →
      Reads fuel (inside pre r gap rest comment recurse A B) pre recurse A B (lex rest comment (some r)) := by
  induction rest
  case nil =>
    constructor
    case left =>
      intro pre comment recurse A B fuel hfuel
      obtain ⟨fuel, rfl⟩ := Nat.exists_eq_succ_of_ne_zero (show fuel ≠ 0 by omega)
      refine ⟨_, [], [], run_done step_outside_nil, ?_, rfl, rfl, rfl, ?_⟩
      · exact (congrArg (· ++ B) (List.append_nil A)).symm
      · exact (Bool.or_false recurse).symm
    case right => exact fun _ _ _ _ _ _ _ _ _ hne => absurd rfl hne
  case cons c t ih =>
    obtain ⟨ihOutside, ihInside⟩ := ih hrest.tail
    have hinside : ∀ pre r gap comment recurse A B fuel, Reading.Valid r → 2 * (c :: t).length ≤ fuel →
        Reads fuel (inside pre r gap (c :: t) comment recurse A B) pre recurse A B (lex (c :: t) comment (some r)) := by
      intro pre r gap comment recurse A B fuel hr hfuel
      rw [List.length_cons] at hfuel
      obtain ⟨fuel, rfl⟩ := Nat.exists_eq_succ_of_ne_zero (show fuel ≠ 0 by omega)
      rw [lex_some]
      by_cases hstop : c = 26
      case pos =>
        obtain ⟨post, hs⟩ := @step_stop pre gap t _ comment recurse A B r hstop
        rw [if_pos hstop]
        refine ⟨_, [.pointer pre.length], r.out ++ 0 :: post, run_done hs, List.append_cons _ _ _, rfl, ?_, ?_, ?_⟩
        · exact List.append_assoc _ _ _
        · exact congrArg (fun text => [text]) (cString_append hr)
        · exact (Bool.or_false recurse).symm
      rw [if_neg hstop]
      by_cases hends : ends c r.instring = true
      case pos =>
        obtain ⟨post, hs⟩ := @step_end pre gap t _ comment recurse A B _ hends
        obtain ⟨s', qs, post', hrun, hargs, hindex, hbuffer, htexts, hrecurse⟩ :=
          ihOutside (pre ++ r.out ++ 0 :: post) comment recurse (A ++ [.pointer pre.length]) B fuel (by omega)
        rw [if_pos hends]
        have htext : Arg.text s'.buffer (.pointer pre.length) = r.out := by
          rw [hbuffer, List.append_assoc, List.cons_append]
          exact cString_append hr
        refine ⟨s', .pointer pre.length :: qs, r.out ++ 0 :: post ++ post', (run_next hs).trans hrun, ?_, ?_, ?_, ?_,
          hrecurse⟩
        · rw [hargs, List.append_assoc A, List.singleton_append]
        · rw [hindex, List.length_append, List.length_singleton, List.length_cons]
          omega
        · rw [hbuffer, List.append_assoc pre, List.append_assoc pre]
        · rw [List.map_cons, htext, htexts]
      case neg =>
        have hkeep := eq_false_of_ne_true hends
        have hne := hrest.tail_ne_nil hkeep
        obtain ⟨gap', hs⟩ := @step_eat pre gap t _ comment recurse A B _ hr hstop hkeep
        rw [if_neg hends]
        obtain ⟨s', qs, post', hrun, hreads⟩ :=
          ihInside pre (r.eat c) gap' comment recurse A B fuel (hr.eat hkeep) hne (by omega)
        exact ⟨s', qs, post', (run_next hs).trans hrun, hreads⟩
    refine ⟨?_, fun pre r gap comment recurse A B fuel hr _ => hinside pre r gap comment recurse A B fuel hr⟩
    intro pre comment recurse A B fuel hfuel
    rw [List.length_cons] at hfuel
    obtain ⟨fuel, rfl⟩ := Nat.exists_eq_succ_of_ne_zero (show fuel ≠ 0 by omega)
    rw [lex_none]
    have hs := @step_outside pre t c comment recurse A B
    by_cases hbegins : begins c comment = true
    case pos =>
      rw [if_pos hbegins] at hs
      rw [if_pos hbegins]
      obtain ⟨s', qs, post, hrun, hargs, hindex, hbuffer, htexts, hrecurse⟩ :=
        hinside pre {} [] comment (recurse || c = chr '@') A B fuel .empty (by rw [List.length_cons]; omega)
      refine ⟨s', qs, post, (run_next hs).trans hrun, hargs, hindex, hbuffer, htexts, ?_⟩
      rw [hrecurse, Bool.or_assoc]
    case neg =>
      rw [if_neg hbegins] at hs
      rw [if_neg hbegins]
      by_cases hstop : c = 26
      case pos =>
        rw [if_pos hstop] at hs
        rw [if_pos hstop]
        refine ⟨_, [], c :: t, run_done hs, ?_, rfl, rfl, rfl, ?_⟩
        · exact (congrArg (· ++ B) (List.append_nil A)).symm
        · exact (Bool.or_false recurse).symm
      case neg =>
        rw [if_neg hstop] at hs
        rw [if_neg hstop]
        obtain ⟨s', qs, post, hrun, hargs, hindex, hbuffer, hreads⟩ :=
          ihOutside (pre ++ [c]) (commentBehind c comment) recurse A B fuel (by omega)
        refine ⟨s', qs, c :: post, (run_next hs).trans hrun, hargs, hindex, ?_, hreads⟩
        rw [hbuffer, List.append_assoc, List.singleton_append]

theorem start_eq {args : List Str} {argIndex : Nat} (hindex : argIndex ≤ args.length) : start buffer args argIndex =
    outside [] buffer false false ((args.take argIndex).map .given) ((args.drop argIndex).map .given) := by
  rw [start, outside, ← List.map_append, List.take_append_drop, List.length_map, List.length_take_of_le hindex]
  rfl

-- The arguments that are read are inserted, and nothing else changes.
theorem insertArgumentsFromResponse_eq (hbuffer : Terminated buffer) {args : List Str} {argIndex : Nat}
    (hindex : argIndex ≤ args.length) :
    insertArgumentsFromResponse buffer args argIndex =
      some ⟨(lex buffer false none).2, args.take argIndex ++ (lex buffer false none).1 ++ args.drop argIndex,
        argIndex + (lex buffer false none).1.length⟩ := by
  have hgiven (buffer : Str) (l : List Str) : (l.map Arg.given).map (Arg.text buffer) = l := by
    rw [List.map_map]
    exact List.map_id l
  obtain ⟨s', qs, post, hrun, hargs, hend, -, htexts, hrecurse⟩ := (run_reads hbuffer).1 [] false false
    ((args.take argIndex).map .given) ((args.drop argIndex).map .given) (2 * buffer.length + 1) le_rfl
  rw [insertArgumentsFromResponse, start_eq hindex, hrun]
  have hlen := congrArg List.length htexts
  rw [List.length_map] at hlen
  rw [List.length_map, List.length_take_of_le hindex, hlen] at hend
  change some (Inserted.mk s'.recurse (s'.args.map (Arg.text s'.buffer)) s'.argIndex) = _
  rw [hrecurse, hargs, hend, List.map_append, List.map_append, hgiven, hgiven, htexts, Bool.false_or]

end runs

section reachable

-- The states that the loops pass through
inductive Reaches (s : State) : State → Prop
  | refl : Reaches s s
  | next {s' s'' : State} : Reaches s s' → step s' = some (.next s'') → Reaches s s''

-- The writing is not ahead of the reading.
def Behind (s : State) : Prop :=
  ∀ d instring numSlashes, s.mode = .inner d instring numSlashes → d ≤ s.p ∧ s.p < s.buffer.length

def Regular (s : State) : Prop :=
  (∃ pre rest comment recurse A B, Terminated rest ∧ s = outside pre rest comment recurse A B) ∨
    ∃ pre r gap rest comment recurse A B, Terminated rest ∧ rest ≠ [] ∧ Reading.Valid r ∧
      s = inside pre r gap rest comment recurse A B

theorem Regular.behind (h : Regular s) : Behind s := by
  obtain ⟨pre, rest, comment, recurse, A, B, -, rfl⟩ | ⟨pre, r, gap, rest, comment, recurse, A, B, -, hne, -, rfl⟩ := h
  case inl => exact fun _ _ _ hmode => absurd hmode (by rw [outside]; exact Mode.noConfusion)
  case inr =>
    intro d instring numSlashes hmode
    have hlen := List.length_pos_iff.mpr hne
    obtain ⟨rfl, -, -⟩ := Mode.inner.inj hmode
    constructor
    · simp only [inside, List.length_append]
      omega
    · simp only [inside, List.length_append]
      omega

theorem Regular.step (h : Regular s) : ∃ o, step s = some o ∧ ∀ s', o = .next s' → Regular s' := by
  obtain ⟨pre, rest, comment, recurse, A, B, hend, rfl⟩ | ⟨pre, r, gap, rest, comment, recurse, A, B, hend, hne, hr, rfl⟩ := h
  case inl =>
    cases rest
    case nil => exact ⟨_, step_outside_nil, fun _ ho => by cases ho⟩
    case cons c t =>
      have hs := @step_outside pre t c comment recurse A B
      split_ifs at hs with hbegins hstop
      case pos =>
        refine ⟨_, hs, fun s' ho => .inr ?_⟩
        cases ho
        exact ⟨pre, {}, [], c :: t, comment, _, A, B, hend, List.cons_ne_nil _ _, .empty, rfl⟩
      case pos => exact ⟨_, hs, fun _ ho => by cases ho⟩
      case neg =>
        refine ⟨_, hs, fun s' ho => .inl ?_⟩
        cases ho
        exact ⟨_, t, _, _, A, B, hend.tail, rfl⟩
  case inr =>
    cases rest
    case nil => exact absurd rfl hne
    case cons c t =>
      by_cases hstop : c = 26
      case pos =>
        obtain ⟨post, hs⟩ := @step_stop pre gap t _ comment recurse A B r hstop
        exact ⟨_, hs, fun _ ho => by cases ho⟩
      by_cases hends : ends c r.instring = true
      case pos =>
        obtain ⟨post, hs⟩ := @step_end pre gap t _ comment recurse A B _ hends
        refine ⟨_, hs, fun s' ho => .inl ?_⟩
        cases ho
        exact ⟨_, t, _, _, _, B, hend.tail, rfl⟩
      case neg =>
        have hkeep := eq_false_of_ne_true hends
        obtain ⟨gap', hs⟩ := @step_eat pre gap t _ comment recurse A B _ hr hstop hkeep
        refine ⟨_, hs, fun s' ho => .inr ?_⟩
        cases ho
        exact ⟨pre, _, gap', t, _, _, A, B, hend.tail, hend.tail_ne_nil hkeep, hr.eat hkeep, rfl⟩

theorem Regular.reaches (h : Regular s) (hs : Reaches s s') : Regular s' := by
  induction hs
  case refl => exact h
  case next _ hstep ih =>
    obtain ⟨o, ho, hnext⟩ := ih.step
    rw [hstep] at ho
    exact hnext _ (Option.some.inj ho).symm

theorem regular_start (hbuffer : Terminated buffer) {args : List Str} {argIndex : Nat} (hindex : argIndex ≤ args.length) :
    Regular (start buffer args argIndex) :=
  .inl ⟨[], buffer, false, false, _, _, hbuffer, start_eq hindex⟩

end reachable

end Compiler.Root.Response
