import DmdModel.Runtime.Checkedint.Theorems.Overflow
import DmdModel.Runtime.Parseoptions.Basic

-- What the numeric options are read as.

namespace Runtime.Parseoptions

open Runtime.Utf Runtime.Checkedint

variable {t : Target} {optname str tok digits digits' unit unit' : Str} {mayHaveSuffix : Bool} {c : Char8}
  {v : size_t t} {len n i k scale scale' : Nat} {v' : size_t t} {overflowed : Bool} {errName : Str} {maxStringof : String}

section text

-- The text up to the first space
def token (str : Str) : Str :=
  str.takeWhile fun c => c ≠ chr ' '

def decimal (digits : Str) : Nat :=
  digits.foldl (fun n c => 10 * n + (c.toNat - (chr '0').toNat)) 0

-- What a number is multiplied with, by the text behind it
inductive Scale : Bool → Str → Nat → Prop
  | none    : Scale false [] 1
  | default : Scale true [] (2 ^ 20)
  | byte    : Scale true [chr 'B'] 1
  | kilo    : Scale true [chr 'K'] (2 ^ 10)
  | mega    : Scale true [chr 'M'] (2 ^ 20)
  | giga    : Scale true [chr 'G'] (2 ^ 30)

structure Numeral (mayHaveSuffix : Bool) (tok digits unit : Str) (scale : Nat) : Prop where
  tok    : tok = digits ++ unit
  digits : ∀ c ∈ digits, isdigit c = true
  scale  : Scale mayHaveSuffix unit scale

def Denotes (mayHaveSuffix : Bool) (tok : Str) (n : Nat) : Prop :=
  ∃ digits unit scale, Numeral mayHaveSuffix tok digits unit scale ∧ digits ≠ [] ∧ n = decimal digits * scale

theorem isdigit_iff : isdigit c = true ↔ 48 ≤ c.toNat ∧ c.toNat ≤ 57 := by
  rw [isdigit, Bool.and_eq_true, decide_eq_true_iff, decide_eq_true_iff]
  exact Iff.rfl

theorem Scale.not_isdigit (h : Scale mayHaveSuffix unit scale) : ∀ c ∈ unit, isdigit c = false := by
  cases h
  case none | default => exact fun _ hc => absurd hc List.not_mem_nil
  all_goals exact List.forall_mem_singleton.mpr (by decide)

theorem Scale.unique (h : Scale mayHaveSuffix unit scale) (h' : Scale mayHaveSuffix unit scale') : scale = scale' := by
  cases h <;> cases h' <;> rfl

theorem Scale.length_le (h : Scale mayHaveSuffix unit scale) : unit.length ≤ 1 := by
  cases h <;> decide

theorem Scale.pos (h : Scale mayHaveSuffix unit scale) : 0 < scale := by
  cases h <;> decide

theorem Numeral.digits_eq (h : Numeral mayHaveSuffix tok digits unit scale) : digits = tok.takeWhile isdigit := by
  have hunit : unit.takeWhile isdigit = [] := by
    cases hu : unit
    case nil => rfl
    case cons c _ =>
      exact List.takeWhile_cons_of_neg (Bool.not_eq_true _ ▸ h.scale.not_isdigit c (hu ▸ List.mem_cons_self))
  rw [h.tok, List.takeWhile_append_of_pos h.digits, hunit, List.append_nil]

theorem Numeral.unique (h : Numeral mayHaveSuffix tok digits unit scale)
    (h' : Numeral mayHaveSuffix tok digits' unit' scale') : digits = digits' ∧ unit = unit' ∧ scale = scale' := by
  obtain rfl : digits = digits' := h.digits_eq.trans h'.digits_eq.symm
  obtain rfl : unit = unit' := List.append_cancel_left (h.tok.symm.trans h'.tok)
  exact ⟨rfl, rfl, h.scale.unique h'.scale⟩

end text

section words

theorem step_ofNat (w : Nat) (hc : isdigit c = true) (n : Nat) :
    10 * BitVec.ofNat w n + c.setWidth w - (chr '0').setWidth w =
      BitVec.ofNat w (10 * n + (c.toNat - (chr '0').toNat)) := by
  have hle : (chr '0').toNat ≤ c.toNat := ((isdigit_iff).mp hc).1
  have hadd : 10 * n + (c.toNat - (chr '0').toNat) + (chr '0').toNat = 10 * n + c.toNat := by omega
  rw [sub_eq_iff_eq_add, ← BitVec.ofNat_toNat, ← BitVec.ofNat_toNat, ← BitVec.ofNat_add, hadd, BitVec.ofNat_add,
    BitVec.ofNat_mul]
  rfl

theorem foldl_step (w : Nat) (h : ∀ c ∈ digits, isdigit c = true) (n : Nat) :
    digits.foldl (fun v c => 10 * v + c.setWidth w - (chr '0').setWidth w) (BitVec.ofNat w n) =
      BitVec.ofNat w (digits.foldl (fun n c => 10 * n + (c.toNat - (chr '0').toNat)) n) := by
  induction digits generalizing n
  case nil => rfl
  case cons c digits ih =>
    obtain ⟨hc, hdigits⟩ := List.forall_mem_cons.mp h
    rw [List.foldl_cons, List.foldl_cons, step_ofNat w hc, ih hdigits]

-- The product and whether it is too large
def product (w : Nat) (x y : Nat) : BitVec w × Bool :=
  (BitVec.ofNat w (x * y), !decide (x * y < 2 ^ w))

theorem toOption_exactly {w x y : Nat} :
    (exactly w (x * y) (FitsUnsigned w (x * y)) false).toOption = some (product w x y) := by
  have hfits : FitsUnsigned w (x * y) ↔ x * y < 2 ^ w := by
    unfold FitsUnsigned
    norm_cast
    exact and_iff_right (Nat.zero_le _)
  rw [exactly, decide_eq_decide.mpr hfits, ← Int.natCast_mul, BitVec.ofInt_natCast]
  rfl

theorem mulu_eq (v : size_t t) (y : uint) : (mulu t v y false).toOption = some (product t.size v.toNat y.toNat) := by
  cases t
  case bits32 => exact (congrArg Except.toOption (muluUint_eq v y)).trans toOption_exactly
  case bits64 => exact (congrArg Except.toOption (muluGeneric_eq v y)).trans toOption_exactly

theorem product_one (v : size_t t) : product t.size v.toNat 1 = (v, false) := by
  rw [product, Nat.mul_one, BitVec.ofNat_toNat, BitVec.setWidth_eq, decide_eq_true v.isLt]
  rfl

theorem suffix_of_scale (h : Scale true [c] scale) (v : size_t t) :
    suffix t v c = some (some (product t.size v.toNat scale)) := by
  cases h
  case byte => exact congrArg (fun p => some (some p)) (product_one v).symm
  all_goals exact congrArg (Option.map some) (mulu_eq v _)

theorem suffix_of_not_scale (h : ∀ scale, ¬ Scale true [c] scale) (v : size_t t) : suffix t v c = some none := by
  have hne {d : Char8} {k : Nat} (hd : Scale true [d] k) : c ≠ d := by
    rintro rfl
    exact h k hd
  rw [suffix, if_neg (hne .giga), if_neg (hne .mega), if_neg (hne .kilo), if_neg (hne .byte)]

end words

section loop

theorem find_append (str : Str) : token str ++ find (fun c => c = chr ' ') str = str := by
  induction str
  case nil => rfl
  case cons c str ih =>
    rw [token, find]
    by_cases hc : c = chr ' '
    case pos => rw [if_pos (decide_eq_true hc), List.takeWhile_cons_of_neg (by simpa using hc), List.nil_append]
    case neg =>
      rw [if_neg (by simpa using hc), List.takeWhile_cons_of_pos (by simpa using hc), List.cons_append]
      exact congrArg _ ih

theorem loop_digits (hdigits : ∀ c ∈ digits, isdigit c = true) (hstr : str.drop i = digits ++ tok) :
    loop t optname str mayHaveSuffix len (digits.length + n) i v =
      loop t optname str mayHaveSuffix len n (i + digits.length)
        (digits.foldl (fun v c => 10 * v + c.setWidth t.size - (chr '0').setWidth t.size) v) := by
  induction digits generalizing i v
  case nil => rw [List.length_nil, Nat.zero_add]; rfl
  case cons c digits ih =>
    obtain ⟨hc, htail⟩ := List.forall_mem_cons.mp hdigits
    have hget : str[i]? = some c := by rw [← List.head?_drop, hstr]; rfl
    have hdrop : str.drop (i + 1) = digits ++ tok := by rw [← List.drop_drop, hstr]; rfl
    rw [List.length_cons, Nat.add_right_comm, loop, hget, Option.bind_eq_bind, Option.bind_some, if_pos hc,
      ih htail hdrop, List.foldl_cons, Nat.add_assoc, Nat.add_comm 1]

-- The value of the digits, and the unit that they are read with
theorem loop_numeral (h : Numeral mayHaveSuffix (token str) digits unit scale) :
    loop t optname str mayHaveSuffix (token str).length (token str).length 0 0 =
      loop t optname str mayHaveSuffix (token str).length unit.length digits.length
        (BitVec.ofNat t.size (decimal digits)) := by
  have hlen : (token str).length = digits.length + unit.length := by rw [h.tok, List.length_append]
  have hstr : str.drop 0 = digits ++ (unit ++ find (fun c => c = chr ' ') str) := by
    rw [List.drop_zero, ← List.append_assoc, ← h.tok, find_append]
  conv_lhs => rw [hlen]
  rw [loop_digits h.digits hstr, Nat.zero_add, decimal, ← foldl_step t.size h.digits 0, hlen]
  rfl

theorem loop_unit (h : Numeral mayHaveSuffix (token str) digits [c] scale) :
    loop t optname str mayHaveSuffix (token str).length 1 digits.length v = some
      (if (product t.size v.toNat scale).2 = true then .error (.overflowedError optname str)
      else .done (token str).length (product t.size v.toNat scale).1) := by
  have hlen : (token str).length = digits.length + 1 := by rw [h.tok, List.length_append, List.length_singleton]
  have hget : str[digits.length]? = some c := by
    rw [← find_append str, h.tok, List.append_assoc, List.getElem?_append_right le_rfl, Nat.sub_self]
    rfl
  have hscale := h.scale
  obtain rfl : mayHaveSuffix = true := by
    cases hscale <;> rfl
  have hc : ¬ isdigit c = true := by
    rw [hscale.not_isdigit c List.mem_cons_self]
    exact Bool.false_ne_true
  have hend : (true && decide (digits.length = (token str).length - 1)) = true := by
    rw [hlen, Nat.add_sub_cancel]
    exact decide_eq_true rfl
  rw [loop, hget, Option.bind_eq_bind, Option.bind_some, if_neg hc, if_pos hend, suffix_of_scale hscale,
    Option.bind_eq_bind, Option.bind_some, hlen]
  generalize product t.size v.toNat scale = p
  obtain ⟨x, overflowed⟩ := p
  cases overflowed <;> rfl

theorem last_eq (hne : token str ≠ []) : last str (token str).length = (token str).getLast? := by
  have hlen := List.length_pos_iff.mpr hne
  have hsplit := @List.getElem?_append_left _ _ (find (fun c => c = chr ' ') str) _ (Nat.sub_one_lt_of_lt hlen)
  rw [find_append] at hsplit
  rw [last, if_neg (by omega), List.getLast?_eq_getElem?, hsplit]

-- No number is read
theorem loop_of_not_numeral (h : ∀ digits unit scale, ¬ Numeral mayHaveSuffix (token str) digits unit scale) :
    (∃ report, loop t optname str mayHaveSuffix (token str).length (token str).length 0 0 = some (.error report)) ∨
      ∃ v, loop t optname str mayHaveSuffix (token str).length (token str).length 0 0 = some (.done 0 v) := by
  have hsplit := List.takeWhile_append_dropWhile (p := isdigit) (l := token str)
  have hdigits : ∀ c ∈ (token str).takeWhile isdigit, isdigit c = true := fun c hc => List.mem_takeWhile_imp hc
  have hhead : ∀ c more, (token str).dropWhile isdigit = c :: more → ¬ isdigit c = true := by
    intro c more hc
    have hnot := List.head_dropWhile_not (p := isdigit) (l := token str) (by rw [hc]; exact List.cons_ne_nil c more)
    simp only [hc, List.head_cons] at hnot
    rw [hnot]
    exact Bool.false_ne_true
  generalize (token str).takeWhile isdigit = digits at hsplit hdigits
  generalize (token str).dropWhile isdigit = rest at hsplit hhead
  cases rest
  case nil =>
    cases mayHaveSuffix
    case false => exact absurd ⟨hsplit.symm, hdigits, .none⟩ (h digits [] 1)
    case true => exact absurd ⟨hsplit.symm, hdigits, .default⟩ (h digits [] (2 ^ 20))
  case cons c more =>
    have hlen : (token str).length = digits.length + (more.length + 1) := by
      rw [← hsplit, List.length_append, List.length_cons]
    have hstr : str.drop 0 = digits ++ (c :: more ++ find (fun c => c = chr ' ') str) := by
      rw [List.drop_zero, ← List.append_assoc, hsplit, find_append]
    have hget : str[digits.length]? = some c := by
      rw [← List.drop_zero (l := str), hstr, List.getElem?_append_right le_rfl, Nat.sub_self]
      rfl
    obtain ⟨v, hrun⟩ : ∃ v, loop t optname str mayHaveSuffix (token str).length (token str).length 0 0 =
        loop t optname str mayHaveSuffix (token str).length (more.length + 1) digits.length v := by
      rw [hlen, loop_digits hdigits hstr, Nat.zero_add]
      exact ⟨_, rfl⟩
    rw [hrun, loop, hget, Option.bind_eq_bind, Option.bind_some, if_neg (hhead c more rfl)]
    cases mayHaveSuffix
    case false => exact .inr ⟨v, if_neg Bool.false_ne_true⟩
    case true =>
      cases more
      case nil =>
        have hnot : ∀ scale, ¬ Scale true [c] scale := fun scale hs => h digits [c] scale ⟨hsplit.symm, hdigits, hs⟩
        rw [suffix_of_not_scale hnot]
        exact .inl ⟨_, if_pos (by simp [hlen])⟩
      case cons d more => exact .inr ⟨v, if_neg (by simp [hlen])⟩

end loop

section results

-- What is read where a number is expected: its value, which is wrapped before it is scaled
structure Reads (t : Target) (mayHaveSuffix : Bool) (str : Str) {w : Nat} (res : BitVec w) (r : Option (Parsed w)) :
    Prop where
  fits  : ∀ digits unit scale, token str ≠ [] → Numeral mayHaveSuffix (token str) digits unit scale →
    decimal digits % 2 ^ t.size * scale < 2 ^ w →
    r = some ⟨none, str.drop (token str).length, BitVec.ofNat w (decimal digits % 2 ^ t.size * scale)⟩
  large : ∀ digits unit scale, token str ≠ [] → Numeral mayHaveSuffix (token str) digits unit scale →
    2 ^ w ≤ decimal digits % 2 ^ t.size * scale → ∃ p, r = some p ∧ p.report ≠ none ∧ p.res = res
  other : (token str ≠ [] → ∀ digits unit scale, ¬ Numeral mayHaveSuffix (token str) digits unit scale) →
    ∃ p, r = some p ∧ p.report ≠ none ∧ p.res = res

theorem length_sub_find (str : Str) :
    str.length - (find (fun c => c = chr ' ') str).length = (token str).length := by
  have hlen := congrArg List.length (find_append str)
  rw [List.length_append] at hlen
  omega

theorem megabytes_unit (h : Numeral mayHaveSuffix (token str) digits [c] scale) :
    megabytes t str mayHaveSuffix (token str).length v = some (v, false) := by
  have hlast : (token str).getLast? = some c := by rw [h.tok, List.getLast?_concat]
  have hc : ¬ isdigit c = true := by
    rw [h.scale.not_isdigit c List.mem_cons_self]
    exact Bool.false_ne_true
  have hne : token str ≠ [] := by
    intro he
    rw [he] at hlast
    cases hlast
  rw [megabytes, last_eq hne, hlast, Option.bind_eq_bind, Option.bind_some, if_neg hc]
  split_ifs <;> rfl

theorem megabytes_default (hne : token str ≠ []) (h : Numeral mayHaveSuffix (token str) digits [] scale) :
    megabytes t str mayHaveSuffix (token str).length v = some (product t.size v.toNat scale) := by
  obtain ⟨htok, hdigits, hscale⟩ := h
  rw [List.append_nil] at htok
  cases hscale
  case none =>
    rw [product_one]
    rfl
  case default =>
    have hlast := List.getLast?_eq_some_getLast hne
    have hmem := List.getLast_mem hne
    generalize (token str).getLast hne = c at hlast hmem
    have hc := hdigits c (htok ▸ hmem)
    rw [megabytes, if_pos rfl, last_eq hne, hlast, Option.bind_eq_bind, Option.bind_some, if_pos hc]
    exact mulu_eq v _

theorem not_allOnes_lt (v : size_t t) : ¬ BitVec.allOnes t.size < v := by
  rw [BitVec.lt_def, BitVec.toNat_allOnes]
  have hlt := v.isLt
  omega

-- What is done once the number is scaled
theorem finish {res : size_t t} (hi : i ≠ 0) (hm : megabytes t str mayHaveSuffix len v = some (v', overflowed)) :
    (do
      if i = 0 then
        return ⟨some (.parseError "a number" optname str errName), str, res⟩
      else
        let (v, overflowed) ← megabytes t str mayHaveSuffix len v
        if overflowed then
          return ⟨some (.overflowedError optname str), str, res⟩
        else if BitVec.allOnes t.size < v then
          return ⟨some (.parseError (orBelow ⟨t.size, maxStringof⟩) optname (str.take i) errName), str, res⟩
        else
          return ⟨none, str.drop i, v⟩ : Option (Parsed t.size)) =
      some (if overflowed = true then ⟨some (.overflowedError optname str), str, res⟩ else ⟨none, str.drop i, v'⟩) := by
  rw [if_neg hi, hm, Option.bind_eq_bind, Option.bind_some]
  change (if _ then _ else _) = _
  rw [if_neg (not_allOnes_lt v')]
  split_ifs <;> rfl

theorem ne_nil_of_token (hne : token str ≠ []) : str ≠ [] := by
  rintro rfl
  exact hne rfl

theorem product_toNat (n scale : Nat) : product t.size (BitVec.ofNat t.size n).toNat scale =
    (BitVec.ofNat t.size (n % 2 ^ t.size * scale), !decide (n % 2 ^ t.size * scale < 2 ^ t.size)) := by
  rw [BitVec.toNat_ofNat]
  rfl

theorem parseSizeT_numeral {res : size_t t} (hne : token str ≠ [])
    (h : Numeral mayHaveSuffix (token str) digits unit scale) :
    parseSizeT t optname str mayHaveSuffix maxStringof res errName = some
      (if decimal digits % 2 ^ t.size * scale < 2 ^ t.size then
        ⟨none, str.drop (token str).length, BitVec.ofNat t.size (decimal digits % 2 ^ t.size * scale)⟩
      else
        ⟨some (.overflowedError optname str), str, res⟩) := by
  have hlen := List.length_pos_iff.mpr hne
  have hunit := h.scale.length_le
  rw [parseSizeT, if_neg (ne_nil_of_token hne)]
  simp only [length_sub_find, loop_numeral h]
  cases unit
  case nil =>
    have htok : (token str).length = digits.length := by rw [h.tok, List.append_nil]
    rw [List.length_nil, loop, Option.bind_eq_bind, Option.bind_some]
    refine (finish (by omega) ((megabytes_default hne h).trans (congrArg some (product_toNat _ _)))).trans ?_
    rw [htok]
    split_ifs <;> simp_all
  case cons c more =>
    obtain rfl : more = [] := List.length_eq_zero_iff.mp (by rw [List.length_cons] at hunit; omega)
    rw [List.length_singleton, loop_unit h, product_toNat, Option.bind_eq_bind, Option.bind_some]
    by_cases hfits : decimal digits % 2 ^ t.size * scale < 2 ^ t.size
    case pos =>
      rw [decide_eq_true hfits, if_pos hfits, Bool.not_true, if_neg Bool.false_ne_true]
      exact finish (by omega) (megabytes_unit h)
    case neg =>
      rw [decide_eq_false hfits, if_neg hfits, Bool.not_false, if_pos rfl]
      rfl

theorem parseSizeT_other {res : size_t t} (hstr : str ≠ [])
    (h : token str ≠ [] → ∀ digits unit scale, ¬ Numeral mayHaveSuffix (token str) digits unit scale) :
    ∃ p, parseSizeT t optname str mayHaveSuffix maxStringof res errName = some p ∧ p.report ≠ none ∧ p.res = res := by
  have hloop : (∃ report,
        loop t optname str mayHaveSuffix (token str).length (token str).length 0 0 = some (.error report)) ∨
      ∃ v, loop t optname str mayHaveSuffix (token str).length (token str).length 0 0 = some (.done 0 v) := by
    by_cases hne : token str = []
    case pos =>
      rw [hne]
      exact .inr ⟨0, rfl⟩
    case neg => exact loop_of_not_numeral (h hne)
  rw [parseSizeT, if_neg hstr]
  simp only [length_sub_find]
  obtain ⟨report, hr⟩ | ⟨v, hr⟩ := hloop
  case inl =>
    rw [hr]
    exact ⟨_, rfl, Option.some_ne_none report, rfl⟩
  case inr =>
    rw [hr]
    exact ⟨_, rfl, Option.some_ne_none _, rfl⟩

theorem parseSizeT_reads {res : size_t t} (hstr : str ≠ []) :
    Reads t mayHaveSuffix str res (parseSizeT t optname str mayHaveSuffix maxStringof res errName) where
  fits := by
    intro digits unit scale hne h hlt
    rw [parseSizeT_numeral hne h, if_pos hlt]
  large := by
    intro digits unit scale hne h hle
    rw [parseSizeT_numeral hne h, if_neg (not_lt.mpr hle)]
    exact ⟨_, rfl, Option.some_ne_none _, rfl⟩
  other := parseSizeT_other hstr

theorem parse_reads {T : Unsigned} {res : BitVec T.size} (hstr : str ≠ []) (hT : T.size < t.size) :
    Reads t mayHaveSuffix str res (parse t optname str mayHaveSuffix maxStringof T res errName) := by
  obtain ⟨hfits, hlarge, hother⟩ := @parseSizeT_reads _ optname _ mayHaveSuffix errName maxStringof (0 : size_t t) hstr
  have hpow : 2 ^ T.size < 2 ^ t.size := Nat.pow_lt_pow_right (by decide) hT
  have hrejected (h : ∃ p, parseSizeT t optname str mayHaveSuffix maxStringof 0 errName = some p ∧ p.report ≠ none ∧
      p.res = 0) : ∃ p, parse t optname str mayHaveSuffix maxStringof T res errName = some p ∧ p.report ≠ none ∧
      p.res = res := by
    obtain ⟨p, hp, hreport, -⟩ := h
    rw [parse, if_neg hstr]
    simp only [hp, Option.bind_eq_bind, Option.bind_some, if_pos (Option.isSome_iff_ne_none.mpr hreport)]
    exact ⟨_, rfl, hreport, rfl⟩
  have hmax : (BitVec.allOnes T.size).toNat = 2 ^ T.size - 1 := BitVec.toNat_allOnes
  have hpos := Nat.two_pow_pos T.size
  refine ⟨?fits, ?large, fun h => hrejected (hother h)⟩
  case fits =>
    intro digits unit scale hne h hlt
    have hp := hfits digits unit scale hne h (hlt.trans hpow)
    generalize decimal digits % 2 ^ t.size * scale = x at hp hlt
    have hx : (BitVec.ofNat t.size x).toNat = x := by rw [BitVec.toNat_ofNat, Nat.mod_eq_of_lt (hlt.trans hpow)]
    have hset : (BitVec.ofNat t.size x).setWidth T.size = BitVec.ofNat T.size x := by
      rw [← BitVec.ofNat_toNat, hx]
    rw [parse, if_neg hstr]
    simp only [hp, Option.bind_eq_bind, Option.bind_some, Option.isSome_none, if_neg Bool.false_ne_true, hmax, hx,
      if_neg (show ¬ 2 ^ T.size - 1 < x by omega), hset]
    rfl
  case large =>
    intro digits unit scale hne h hle
    by_cases hlt : decimal digits % 2 ^ t.size * scale < 2 ^ t.size
    case neg => exact hrejected (hlarge digits unit scale hne h (not_lt.mp hlt))
    case pos =>
      have hp := hfits digits unit scale hne h hlt
      generalize decimal digits % 2 ^ t.size * scale = x at hp hlt hle
      have hx : (BitVec.ofNat t.size x).toNat = x := by rw [BitVec.toNat_ofNat, Nat.mod_eq_of_lt hlt]
      rw [parse, if_neg hstr]
      simp only [hp, Option.bind_eq_bind, Option.bind_some, Option.isSome_none, if_neg Bool.false_ne_true, hmax, hx,
        if_pos (show 2 ^ T.size - 1 < x by omega)]
      exact ⟨_, rfl, Option.some_ne_none _, rfl⟩

end results

section exactness

-- Exactly the numbers that fit are read, and as what they denote.
def Exact (mayHaveSuffix : Bool) (str : Str) {w : Nat} (res : BitVec w) (r : Option (Parsed w)) : Prop :=
  ∃ p, r = some p ∧
    (p.report = none ↔ ∃ n, Denotes mayHaveSuffix (token str) n ∧ n < 2 ^ w) ∧
    (p.report = none → Denotes mayHaveSuffix (token str) p.res.toNat ∧ p.str = str.drop (token str).length) ∧
    (p.report ≠ none → p.res = res)

-- There are digits before a unit, and digits that are too large stay so when they are wrapped and scaled.
def Plain (t : Target) (mayHaveSuffix : Bool) (str : Str) (w : Nat) : Prop :=
  ∀ digits unit scale, Numeral mayHaveSuffix (token str) digits unit scale →
    (unit ≠ [] → digits ≠ []) ∧ (2 ^ t.size ≤ decimal digits → 2 ^ w ≤ decimal digits % 2 ^ t.size * scale)

variable {w : Nat} {res : BitVec w} {r : Option (Parsed w)}

theorem Numeral.token_ne_nil (h : Numeral mayHaveSuffix tok digits unit scale) (hne : digits ≠ []) : tok ≠ [] := by
  rw [h.tok]
  exact fun he => hne (List.append_eq_nil_iff.mp he).1

theorem denotes_iff (h : Numeral mayHaveSuffix tok digits unit scale) :
    Denotes mayHaveSuffix tok n ↔ digits ≠ [] ∧ n = decimal digits * scale := by
  constructor
  case mp =>
    rintro ⟨digits', unit', scale', h', hne, rfl⟩
    obtain ⟨rfl, rfl, rfl⟩ := h.unique h'
    exact ⟨hne, rfl⟩
  case mpr => exact fun ⟨hne, hn⟩ => ⟨digits, unit, scale, h, hne, hn⟩

theorem exact_of_rejected (hr : ∃ p, r = some p ∧ p.report ≠ none ∧ p.res = res)
    (h : ∀ n, Denotes mayHaveSuffix (token str) n → 2 ^ w ≤ n) : Exact mayHaveSuffix str res r := by
  obtain ⟨p, hp, hreport, hres⟩ := hr
  refine ⟨p, hp, ?_, fun hn => absurd hn hreport, fun _ => hres⟩
  constructor
  case mp => exact fun hn => absurd hn hreport
  case mpr => exact fun ⟨n, hn, hlt⟩ => absurd hlt (not_lt.mpr (h n hn))

theorem Reads.exact_of_plain (hr : Reads t mayHaveSuffix str res r) (hw : w ≤ t.size)
    (h : Plain t mayHaveSuffix str w) : Exact mayHaveSuffix str res r := by
  have hpow : 2 ^ w ≤ 2 ^ t.size := Nat.pow_le_pow_right (by decide) hw
  by_cases hnum : token str ≠ [] ∧ ∃ digits unit scale, Numeral mayHaveSuffix (token str) digits unit scale
  case neg =>
    have hnone (hne : token str ≠ []) (digits unit : Str) (scale : Nat) :
        ¬ Numeral mayHaveSuffix (token str) digits unit scale :=
      fun hd => hnum ⟨hne, digits, unit, scale, hd⟩
    refine exact_of_rejected (hr.other hnone) ?_
    rintro n ⟨digits, unit, scale, hd, hne, -⟩
    exact absurd hd (hnone (hd.token_ne_nil hne) digits unit scale)
  case pos =>
    obtain ⟨hne, digits, unit, scale, hd⟩ := hnum
    obtain ⟨hunit, hwrap⟩ := h digits unit scale hd
    have hpos := hd.scale.pos
    have hdigits : digits ≠ [] := by
      intro he
      by_cases hu : unit = []
      case pos => exact hne (by rw [hd.tok, he, hu]; rfl)
      case neg => exact hunit hu he
    by_cases hlt : decimal digits % 2 ^ t.size * scale < 2 ^ w
    case pos =>
      have hsmall : decimal digits < 2 ^ t.size := by
        by_contra hle
        exact absurd (hwrap (not_lt.mp hle)) (not_le.mpr hlt)
      have hread := hr.fits digits unit scale hne hd hlt
      rw [Nat.mod_eq_of_lt hsmall] at hread hlt
      have hden : Denotes mayHaveSuffix (token str) (decimal digits * scale) := (denotes_iff hd).mpr ⟨hdigits, rfl⟩
      refine ⟨_, hread, ⟨fun _ => ⟨_, hden, hlt⟩, fun _ => rfl⟩, fun _ => ⟨?_, rfl⟩, fun hn => absurd rfl hn⟩
      rw [BitVec.toNat_ofNat, Nat.mod_eq_of_lt hlt]
      exact hden
    case neg =>
      refine exact_of_rejected (hr.large digits unit scale hne hd (not_lt.mp hlt)) ?_
      intro n hn
      obtain ⟨-, rfl⟩ := (denotes_iff hd).mp hn
      by_cases hsmall : decimal digits < 2 ^ t.size
      case pos =>
        rw [Nat.mod_eq_of_lt hsmall] at hlt
        exact not_lt.mp hlt
      case neg => exact hpow.trans ((not_lt.mp hsmall).trans (Nat.le_mul_of_pos_right _ hpos))

theorem Reads.plain_of_exact (hr : Reads t mayHaveSuffix str res r) (hw : w ≤ t.size)
    (h : Exact mayHaveSuffix str res r) : Plain t mayHaveSuffix str w := by
  have hpow : 2 ^ w ≤ 2 ^ t.size := Nat.pow_le_pow_right (by decide) hw
  obtain ⟨p, hp, hiff, -, -⟩ := h
  intro digits unit scale hd
  have hpos := hd.scale.pos
  -- What is read is denoted by the token.
  have hread (hne : token str ≠ []) (hlt : decimal digits % 2 ^ t.size * scale < 2 ^ w) :
      digits ≠ [] ∧ decimal digits * scale < 2 ^ w := by
    have hsome := hp.symm.trans (hr.fits digits unit scale hne hd hlt)
    obtain rfl := Option.some.inj hsome
    obtain ⟨n, hn, hlt⟩ := hiff.mp rfl
    obtain ⟨hdigits, rfl⟩ := (denotes_iff hd).mp hn
    exact ⟨hdigits, hlt⟩
  constructor
  case left =>
    intro hu he
    have hne : token str ≠ [] := by
      rw [hd.tok]
      exact fun h => hu (List.append_eq_nil_iff.mp h).2
    have hzero : decimal digits % 2 ^ t.size * scale < 2 ^ w := by
      rw [he, decimal, List.foldl_nil, Nat.zero_mod, Nat.zero_mul]
      exact Nat.two_pow_pos w
    exact (hread hne hzero).1 he
  case right =>
    intro hle
    by_contra hlt
    have hdigits : digits ≠ [] := by
      rintro rfl
      exact absurd hle (not_le.mpr (Nat.two_pow_pos _))
    have hsmall := (hread (hd.token_ne_nil hdigits) (not_le.mp hlt)).2
    exact absurd (hpow.trans (hle.trans (Nat.le_mul_of_pos_right _ hpos))) (not_le.mpr hsmall)

-- A unit alone is taken for zero, and more digits than fit are wrapped silently.
theorem parse_exact_iff (t : Target) (optname errName : Str) (mayHaveSuffix : Bool) (maxStringof : String)
    (hstr : str ≠ []) :
    (∀ res, Exact mayHaveSuffix str res (parseSizeT t optname str mayHaveSuffix maxStringof res errName) ↔
      Plain t mayHaveSuffix str t.size) ∧
    ∀ T : Unsigned, T.size < t.size → ∀ res,
      Exact mayHaveSuffix str res (parse t optname str mayHaveSuffix maxStringof T res errName) ↔
        Plain t mayHaveSuffix str T.size := by
  constructor
  case left =>
    intro res
    have hr : Reads t mayHaveSuffix str res (parseSizeT t optname str mayHaveSuffix maxStringof res errName) :=
      parseSizeT_reads hstr
    exact ⟨hr.plain_of_exact le_rfl, hr.exact_of_plain le_rfl⟩
  case right =>
    intro T hT res
    have hr : Reads t mayHaveSuffix str res (parse t optname str mayHaveSuffix maxStringof T res errName) :=
      parse_reads hstr hT
    exact ⟨hr.plain_of_exact hT.le, hr.exact_of_plain hT.le⟩

theorem parse_exact_two :
    (∀ res, Exact false [chr '2'] res (parseSizeT .bits64 [] [chr '2'] false "" res []) ↔
      Plain .bits64 false [chr '2'] 64) ∧
    ∀ T : Unsigned, T.size < 64 → ∀ res, Exact false [chr '2'] res (parse .bits64 [] [chr '2'] false "" T res []) ↔
      Plain .bits64 false [chr '2'] T.size :=
  parse_exact_iff .bits64 [] [] false "" (by decide)

theorem not_plain_of_unit (hc : token str = [c]) (h : Scale mayHaveSuffix [c] scale) {w : Nat} :
    ¬ Plain t mayHaveSuffix str w :=
  fun hp => (hp [] [c] scale ⟨hc, fun _ hd => absurd hd List.not_mem_nil, h⟩).1 (List.cons_ne_nil _ _) rfl

-- The option K sets a size of zero.
theorem not_parse_exact_unit :
    parseSizeT .bits64 [] [chr 'K'] true "" 1 [] = some ⟨none, [], 0⟩ ∧
      ¬ Exact true [chr 'K'] (1 : size_t .bits64) (parseSizeT .bits64 [] [chr 'K'] true "" 1 []) := by
  have hr : Reads .bits64 true [chr 'K'] (1 : size_t .bits64) (parseSizeT .bits64 [] [chr 'K'] true "" 1 []) :=
    parseSizeT_reads (List.cons_ne_nil _ _)
  exact ⟨by decide, fun h => not_plain_of_unit (by decide) .kilo (hr.plain_of_exact le_rfl h)⟩

end exactness

end Runtime.Parseoptions
