import DmdModel.Runtime.Demangle.BackRef
import DmdModel.Lib.Radix

namespace Runtime.Demangle

open Runtime.Utf Compiler.Mangle

variable {f i j k : Nat} {n mul : size_t} {buf before after : List Char8} {ds : List Nat} {d : Nat}

-- The multiplier wraps at 26 ^ 14.
def wrapped : Nat := 26 ^ 14 % 2 ^ 64

theorem toNat_mul_base : (mul * base).toNat = mul.toNat * 26 % 2 ^ 64 := by
  rw [BitVec.toNat_mul]
  rfl

theorem firstMul_of_lt (hfuel : 0 < f) (hlt : n.toNat < (mul * base).toNat) :
    firstMul f n mul = some mul := by
  obtain ⟨f, rfl⟩ := Nat.exists_eq_succ_of_ne_zero hfuel.ne'
  rw [firstMul, if_neg]
  rw [ge_iff_le, BitVec.le_def]
  omega

theorem firstMul_of_le (hle : (mul * base).toNat ≤ n.toNat) :
    firstMul (f + 1) n mul = firstMul f n (mul * base) := by
  rw [firstMul, if_pos (BitVec.le_def.mpr hle)]

theorem pow_lt_of_le_13 (hj : j ≤ 13) : 26 ^ j < 2 ^ 62 := by
  calc 26 ^ j ≤ 26 ^ 13 := Nat.pow_le_pow_right (by decide) hj
    _ < 2 ^ 62 := by decide

theorem toNat_mul_base_pow (hm : mul.toNat = 26 ^ j) (hj : j < 13) : (mul * base).toNat = 26 ^ (j + 1) := by
  have := pow_lt_of_le_13 hj
  rw [toNat_mul_base, hm, ← pow_succ, Nat.mod_eq_of_lt (by omega)]

theorem toNat_mul_base_wrapped (hm : mul.toNat = 26 ^ 13) : (mul * base).toNat = wrapped := by
  rw [toNat_mul_base, hm]
  rfl

-- Below the wrapped multiplier the first place value is the power of the base that it has to be.
theorem firstMul_pow (hn : n.toNat < wrapped) (hm : mul.toNat = 26 ^ j) (hj : j + i = 13) (hf : i < f) :
    ∃ m k, firstMul f n mul = some m ∧ m.toNat = 26 ^ k ∧ k ≤ 13 ∧ n.toNat < 26 ^ (k + 1) := by
  induction i generalizing j mul f with
  | zero =>
    obtain rfl : j = 13 := hj
    refine ⟨mul, 13, firstMul_of_lt hf (by rwa [toNat_mul_base_wrapped hm]), hm, le_rfl, hn.trans ?_⟩
    decide
  | succ i hi =>
    have hnext := toNat_mul_base_pow hm (by omega)
    by_cases hle : 26 ^ (j + 1) ≤ n.toNat
    case pos =>
      obtain ⟨f, rfl⟩ := Nat.exists_eq_succ_of_ne_zero (Nat.ne_zero_of_lt hf)
      rw [Nat.succ_eq_add_one, firstMul_of_le (by rwa [hnext])]
      exact hi hnext (by omega) (by omega)
    case neg =>
      exact ⟨mul, j, firstMul_of_lt (by omega) (by omega), hm, by omega, by omega⟩

-- From there on it is what the multiplication leaves.
theorem firstMul_wrapped (hn : wrapped ≤ n.toNat) (hn' : n.toNat < 2 ^ 63) (hm : mul.toNat = 26 ^ j)
    (hj : j + i = 13) (hf : i + 1 < f) : ∃ m, firstMul f n mul = some m ∧ m.toNat = wrapped := by
  obtain ⟨f, rfl⟩ := Nat.exists_eq_succ_of_ne_zero (Nat.ne_zero_of_lt hf)
  induction i generalizing j mul f with
  | zero =>
    obtain rfl : j = 13 := hj
    have hnext := toNat_mul_base_wrapped hm
    have hlast : (mul * base * base).toNat = wrapped * 26 % 2 ^ 64 := by rw [toNat_mul_base, hnext]
    have hstop : 2 ^ 63 ≤ wrapped * 26 % 2 ^ 64 := by decide
    refine ⟨mul * base, ?_, hnext⟩
    rw [Nat.succ_eq_add_one, firstMul_of_le (by rwa [hnext])]
    exact firstMul_of_lt (by omega) (by omega)
  | succ i hi =>
    have hnext := toNat_mul_base_pow hm (by omega)
    have hle : 26 ^ (j + 1) ≤ n.toNat := by
      calc 26 ^ (j + 1) ≤ 26 ^ 13 := Nat.pow_le_pow_right (by decide) (by omega)
        _ ≤ wrapped := by decide
        _ ≤ n.toNat := hn
    rw [Nat.succ_eq_add_one, firstMul_of_le (by rwa [hnext])]
    obtain ⟨f, rfl⟩ := Nat.exists_eq_succ_of_ne_zero (show f ≠ 0 by omega)
    exact hi hnext (by omega) f (by omega)

-- The letters of digits
def letters (ds : List Nat) (d : Nat) : List Char8 :=
  ds.map (fun d => chr 'A' + BitVec.ofNat 8 d) ++ [chr 'a' + BitVec.ofNat 8 d]

@[simp] theorem letters_nil : letters [] d = [chr 'a' + BitVec.ofNat 8 d] :=
  rfl

@[simp] theorem letters_cons {e : Nat} :
    letters (e :: ds) d = (chr 'A' + BitVec.ofNat 8 e) :: letters ds d :=
  rfl

@[simp] theorem length_letters : (letters ds d).length = ds.length + 1 := by
  simp [letters]

-- What a digit leaves of the distance
theorem toNat_sub_digit : (n - n / mul * mul).toNat = n.toNat % mul.toNat := by
  have hle : n.toNat / mul.toNat * mul.toNat ≤ n.toNat := Nat.div_mul_le_self _ _
  have hmod := Nat.mod_add_div' n.toNat mul.toNat
  have hlt := n.isLt
  rw [BitVec.toNat_sub, BitVec.toNat_mul, BitVec.toNat_udiv, Nat.mod_eq_of_lt (hle.trans_lt hlt)]
  omega

theorem toNat_div_base : (mul / base).toNat = mul.toNat / 26 := by
  rw [BitVec.toNat_udiv]
  rfl

-- The loop writes the digits, whichever type holds them.
theorem writeDigits_letters {cast : size_t → size_t} (hcast : ∀ dig : size_t, dig.toNat ≤ 26 → cast dig = dig)
    (hm : 26 ^ k ≤ mul.toNat) (hm' : mul.toNat < 26 ^ (k + 1))
    (hd : ∀ d ∈ Radix.leading 26 k mul.toNat n.toNat, d ≤ 26) (hf : k < f) :
    writeDigits cast f n mul buf =
      some (buf ++ letters (Radix.leading 26 k mul.toNat n.toNat) (Radix.last 26 k mul.toNat n.toNat)) := by
  obtain ⟨f, rfl⟩ := Nat.exists_eq_succ_of_ne_zero (Nat.ne_zero_of_lt hf)
  induction k generalizing n mul buf f with
  | zero =>
    rw [Nat.succ_eq_add_one, writeDigits, if_neg, ← BitVec.ofNat_toNat]
    case hnc =>
      rw [ge_iff_le, BitVec.le_def]
      exact Nat.not_le.mpr hm'
    rfl
  | succ k hi =>
    have hge : mul ≥ base := by
      rw [ge_iff_le, BitVec.le_def]
      exact (Nat.le_self_pow (Nat.succ_ne_zero k) 26).trans hm
    have hdig : (n / mul).toNat = n.toNat / mul.toNat := BitVec.toNat_udiv
    rw [Radix.leading, List.forall_mem_cons] at hd
    rw [← hdig] at hd
    rw [← toNat_sub_digit, ← toNat_div_base] at hd
    obtain ⟨f, rfl⟩ := Nat.exists_eq_succ_of_ne_zero (show f ≠ 0 by omega)
    rw [Nat.succ_eq_add_one, writeDigits, if_pos hge]
    simp only
    rw [hcast _ hd.1, hi (by rw [toNat_div_base]; exact Radix.pow_le_div (by decide) hm)
      (by rw [toNat_div_base]; exact Nat.div_lt_of_lt_mul (by rwa [← pow_succ'])) hd.2 f (by omega)]
    rw [Radix.leading, Radix.last, letters_cons, toNat_sub_digit, toNat_div_base, ← hdig, BitVec.ofNat_toNat,
      List.append_assoc, List.singleton_append]

section decode

variable {D : Demangle} {w e : Nat} {t : Char8}

theorem empty_of_getElem? (ht : D.buf[D.pos]? = some t) : D.empty = false := by
  obtain ⟨hlt, -⟩ := List.getElem?_eq_some_iff.mp ht
  rw [Demangle.empty, decide_eq_false_iff_not]
  omega

theorem popFront_of_getElem? (ht : D.buf[D.pos]? = some t) :
    D.popFront = some { D with pos := D.pos + 1 } := by
  obtain ⟨hlt, -⟩ := List.getElem?_eq_some_iff.mp ht
  rw [popFront, if_neg (by omega)]

-- One step of the decoder, for a character that is there.
theorem decodeDigits_succ (ht : D.buf[D.pos]? = some t) : decodeDigits (f + 1) n D =
    if t < chr 'A' ∨ t > chr 'Z' then
      if t < chr 'a' ∨ t > chr 'z' then
        some (0, { D with pos := D.pos + 1 })
      else
        some (base * n + t.setWidth 64 - (chr 'a').setWidth 64, { D with pos := D.pos + 1 })
    else
      decodeDigits f (base * n + t.setWidth 64 - (chr 'A').setWidth 64) { D with pos := D.pos + 1 } := by
  have hfront : D.front = t := by rw [front, ht, Option.getD_some]
  rw [decodeDigits, empty_of_getElem? ht, popFront_of_getElem? ht, hfront]
  simp only [Bool.false_eq_true, if_false, Option.bind_eq_bind, Option.bind_some, Option.pure_def]

-- A digit behind the ones that have been read
theorem shifted_digit {c : Char8} (he : c.toNat + e < 256) :
    base * BitVec.ofNat 64 w + (c + BitVec.ofNat 8 e).setWidth 64 - c.setWidth 64 = BitVec.ofNat 64 (26 * w + e) := by
  apply BitVec.eq_of_toNat_eq
  have hc := c.isLt
  have hbase : base.toNat = 26 := rfl
  simp only [hbase, BitVec.toNat_sub, BitVec.toNat_add, BitVec.toNat_mul, BitVec.toNat_setWidth, BitVec.toNat_ofNat]
  omega

theorem decodeDigits_upper (ht : D.buf[D.pos]? = some (chr 'A' + BitVec.ofNat 8 e)) (he : e < 26) :
    decodeDigits (f + 1) (.ofNat 64 w) D =
      decodeDigits f (.ofNat 64 (26 * w + e)) { D with pos := D.pos + 1 } := by
  have hA : (chr 'A').toNat = 65 := rfl
  have hZ : (chr 'Z').toNat = 90 := rfl
  have htoNat : (chr 'A' + BitVec.ofNat 8 e).toNat = 65 + e := by
    rw [BitVec.toNat_add, BitVec.toNat_ofNat, hA]
    omega
  rw [decodeDigits_succ ht, if_neg, shifted_digit (by omega)]
  rw [gt_iff_lt, BitVec.lt_def, BitVec.lt_def, htoNat]
  omega

theorem decodeDigits_lower (ht : D.buf[D.pos]? = some (chr 'a' + BitVec.ofNat 8 e)) (he : e < 26) :
    decodeDigits (f + 1) (.ofNat 64 w) D =
      some (.ofNat 64 (26 * w + e), { D with pos := D.pos + 1 }) := by
  have ha : (chr 'a').toNat = 97 := rfl
  have hz : (chr 'z').toNat = 122 := rfl
  have hZ : (chr 'Z').toNat = 90 := rfl
  have htoNat : (chr 'a' + BitVec.ofNat 8 e).toNat = 97 + e := by
    rw [BitVec.toNat_add, BitVec.toNat_ofNat, ha]
    omega
  rw [decodeDigits_succ ht, if_pos, if_neg, shifted_digit (by omega)]
  case hnc =>
    rw [gt_iff_lt, BitVec.lt_def, BitVec.lt_def, htoNat]
    omega
  case hc =>
    rw [gt_iff_lt, BitVec.lt_def, BitVec.lt_def, htoNat]
    omega

-- Digits of the base are decoded as their number.
theorem decodeDigits_letters {p q : List Char8} (hds : ∀ e ∈ ds, e < 26) (hd : d < 26)
    (hf : ds.length < f) (hb : D.buf = p ++ (letters ds d ++ q)) (hp : D.pos = p.length) :
    decodeDigits f (.ofNat 64 w) D =
      some (.ofNat 64 (26 * Radix.evaluate 26 w ds + d), { D with pos := D.pos + ds.length + 1 }) := by
  obtain ⟨f, rfl⟩ := Nat.exists_eq_succ_of_ne_zero (Nat.ne_zero_of_lt hf)
  induction ds generalizing w D p f with
  | nil => exact decodeDigits_lower (by simp [hb, hp]) hd
  | cons e ds hi =>
    rw [List.forall_mem_cons] at hds
    obtain ⟨f, rfl⟩ := Nat.exists_eq_succ_of_ne_zero (show f ≠ 0 by simp only [List.length_cons] at hf; omega)
    rw [decodeDigits_upper (by simp [hb, hp]) hds.1,
      hi (p := p ++ [chr 'A' + BitVec.ofNat 8 e]) (D := { D with pos := D.pos + 1 }) hds.2 (by simp [hb])
        (by simp [hp]) f (by simpa using hf)]
    simp only [Radix.evaluate_cons, List.length_cons, Option.some.injEq, Prod.mk.injEq, Demangle.mk.injEq, true_and]
    omega

-- Other characters end the decoding.
theorem decodeDigits_invalid (ht : D.buf[D.pos]? = some t) (hlow : t > chr 'Z')
    (hhigh : t < chr 'a' ∨ t > chr 'z') : decodeDigits (f + 1) n D = some (0, { D with pos := D.pos + 1 }) := by
  rw [decodeDigits_succ ht, if_pos (.inr hlow), if_pos hhigh]

-- Digits that are too large are not decoded, or as another number.
theorem decodeDigits_other {p q : List Char8} (hds : ∀ e ∈ ds, e ≤ 26) (hd : d < 128)
    (hf : ds.length < f) (hb : D.buf = p ++ (letters ds d ++ q)) (hp : D.pos = p.length) :
    ∃ r D', decodeDigits f (.ofNat 64 w) D = some (r, D') ∧
      (r = 0 ∨ r = .ofNat 64 (26 * Radix.evaluate 26 w ds + d)) := by
  have hA : (chr 'A').toNat = 65 := rfl
  have ha : (chr 'a').toNat = 97 := rfl
  have hz : (chr 'z').toNat = 122 := rfl
  have hZ : (chr 'Z').toNat = 90 := rfl
  obtain ⟨f, rfl⟩ := Nat.exists_eq_succ_of_ne_zero (Nat.ne_zero_of_lt hf)
  induction ds generalizing w D p f with
  | nil =>
    by_cases hlt : d < 26
    case pos => exact ⟨_, _, decodeDigits_lower (by simp [hb, hp]) hlt, .inr rfl⟩
    case neg =>
      have htoNat : (chr 'a' + BitVec.ofNat 8 d).toNat = 97 + d := by
        rw [BitVec.toNat_add, BitVec.toNat_ofNat, ha]
        omega
      refine ⟨_, _, decodeDigits_invalid (t := chr 'a' + BitVec.ofNat 8 d) (by simp [hb, hp]) ?_ (.inr ?_), .inl rfl⟩
      · rw [gt_iff_lt, BitVec.lt_def, htoNat]
        omega
      · rw [gt_iff_lt, BitVec.lt_def, htoNat]
        omega
  | cons e ds hi =>
    rw [List.forall_mem_cons] at hds
    obtain ⟨f, rfl⟩ := Nat.exists_eq_succ_of_ne_zero (show f ≠ 0 by simp only [List.length_cons] at hf; omega)
    by_cases hlt : e < 26
    case pos =>
      rw [decodeDigits_upper (by simp [hb, hp]) hlt]
      exact hi (p := p ++ [chr 'A' + BitVec.ofNat 8 e]) (D := { D with pos := D.pos + 1 }) hds.2 (by simp [hb])
        (by simp [hp]) f (by simpa using hf)
    case neg =>
      obtain rfl : e = 26 := by have := hds.1; omega
      exact ⟨_, _, decodeDigits_invalid (t := chr 'A' + BitVec.ofNat 8 26) (by simp [hb, hp]) (by decide)
        (.inl (by decide)), .inl rfl⟩

-- Peeking reads what decoding does.
theorem peekDigits_of_decodeDigits {p : Nat} {r : size_t × Demangle}
    (h : decodeDigits f n { D with pos := D.pos + 1 + p } = some r) : peekDigits f n p D = some r.1 := by
  induction f generalizing n p with
  | zero => cases h
  | succ f hi =>
    have hpos : D.pos + (1 + p) = D.pos + 1 + p := (Nat.add_assoc ..).symm
    rw [peekDigits, peek, hpos]
    cases ht : D.buf[D.pos + 1 + p]? with
    | none =>
      have hempty : Demangle.empty { D with pos := D.pos + 1 + p } = true := by
        rw [Demangle.empty, decide_eq_true_iff]
        exact List.getElem?_eq_none_iff.mp ht
      rw [decodeDigits, if_pos hempty] at h
      cases h
      rfl
    | some t =>
      rw [decodeDigits_succ ht] at h
      simp only [Option.getD_some]
      split_ifs at h ⊢
      · cases h
        rfl
      · cases h
        rfl
      · exact hi h

end decode

section roundTrip

open Demangle

-- The digits of a distance, as both encoders write them
structure Digits (n : Nat) (ds : List Nat) (d : Nat) : Prop where
  le    : ∀ e ∈ ds, e ≤ 26
  last  : d < 128
  exact : n < wrapped → (∀ e ∈ ds, e < 26) ∧ d < 26 ∧ 26 * Radix.evaluate 26 0 ds + d = n
  other : wrapped ≤ n → 26 * Radix.evaluate 26 0 ds + d < n

theorem digits_pow (hn : n.toNat < 26 ^ (k + 1)) (hlt : n.toNat < wrapped) :
    Digits n.toNat (Radix.leading 26 k (26 ^ k) n.toNat) (Radix.last 26 k (26 ^ k) n.toNat) where
  le _ he := (Radix.lt_of_mem_leading_pow (by decide) hn he).le
  last := (Radix.last_pow_lt (by decide) hn).trans (by decide)
  exact _ := by
    refine ⟨fun _ he => Radix.lt_of_mem_leading_pow (by decide) hn he, Radix.last_pow_lt (by decide) hn, ?_⟩
    rw [Radix.evaluate_pow (by decide), Nat.zero_mul, Nat.zero_add]
  other hle := absurd hlt (Nat.not_lt.mpr hle)

theorem digits_wrapped (hle : wrapped ≤ n.toNat) (hn : n.toNat < 2 ^ 63) :
    Digits n.toNat (Radix.leading 26 13 wrapped n.toNat) (Radix.last 26 13 wrapped n.toNat) where
  le _ he := Radix.le_of_mem_leading (by decide) (by decide) (hn.trans (by decide)) he
  last := (Radix.last_lt (c := 4) (by decide) (by decide) (by decide)).trans (by decide)
  exact hlt := absurd hlt (Nat.not_lt.mpr hle)
  other _ := Radix.evaluate_lt (by decide) (by decide) hle

theorem digits_written (hn : n.toNat < 2 ^ 63) : ∃ ds d, Digits n.toNat ds d ∧
    ∀ cast : size_t → size_t, (∀ dig : size_t, dig.toNat ≤ 26 → cast dig = dig) → ∀ buf,
      (firstMul 64 n 1).bind (fun mul => writeDigits cast 64 n mul (buf ++ [chr 'Q'])) =
        some (buf ++ chr 'Q' :: letters ds d) := by
  have hone : (1 : size_t).toNat = 26 ^ 0 := rfl
  by_cases hlt : n.toNat < wrapped
  case pos =>
    obtain ⟨m, k, hmul, hm, hk, hn'⟩ := firstMul_pow (f := 64) (i := 13) hlt hone (by decide) (by decide)
    have hdigits := digits_pow hn' hlt
    refine ⟨_, _, hdigits, fun cast hcast buf => ?_⟩
    rw [← hm] at hdigits ⊢
    rw [hmul, Option.bind_some, writeDigits_letters hcast hm.ge (by rw [hm]; exact Nat.pow_lt_pow_succ (by decide))
      hdigits.le (by omega), List.append_assoc, List.singleton_append]
  case neg =>
    rw [Nat.not_lt] at hlt
    obtain ⟨m, hmul, hm⟩ := firstMul_wrapped (f := 64) (i := 13) hlt hn hone (by decide) (by decide)
    have hdigits := digits_wrapped hlt hn
    refine ⟨_, _, hdigits, fun cast hcast buf => ?_⟩
    rw [← hm] at hdigits ⊢
    rw [hmul, Option.bind_some, writeDigits_letters hcast (by rw [hm]; decide) (by rw [hm]; decide)
      hdigits.le (by decide), List.append_assoc, List.singleton_append]

theorem ubyte_digit (dig : size_t) (h : dig.toNat ≤ 26) : (dig.setWidth 8).setWidth 64 = dig := by
  apply BitVec.eq_of_toNat_eq
  rw [BitVec.toNat_setWidth, BitVec.toNat_setWidth]
  omega

-- The back references that the compiler writes, and those of the encoder in the runtime, are decoded as
-- the distance and end where their digits end exactly if the multiplier has not wrapped around.
theorem decodeBackref_writeBackRef_iff (before after : List Char8) (n : size_t) (hn : n.toNat < 2 ^ 63) :
    ∃ digits, writeBackRef before n = some (before ++ chr 'Q' :: digits) ∧
      PrependHooks.encodeBackref before n = writeBackRef before n ∧
      (decodeBackref ⟨before ++ chr 'Q' :: digits ++ after, before.length + 1⟩ =
          some (n, ⟨before ++ chr 'Q' :: digits ++ after, before.length + 1 + digits.length⟩) ↔
        n.toNat < 26 ^ 14 % 2 ^ 64) ∧
      (0 < n.toNat → n.toNat ≤ before.length → n.toNat < 26 ^ 14 % 2 ^ 64 →
        peekBackref ⟨before ++ chr 'Q' :: digits ++ after, before.length⟩ = before[before.length - n.toNat]?) := by
  obtain ⟨ds, d, hdigits, hwritten⟩ := digits_written hn
  have hwrite : writeBackRef before n = some (before ++ chr 'Q' :: letters ds d) := hwritten _ ubyte_digit before
  have hencode : PrependHooks.encodeBackref before n = some (before ++ chr 'Q' :: letters ds d) :=
    hwritten id (fun _ _ => rfl) before
  obtain ⟨buf, hb⟩ : ∃ buf, buf = before ++ chr 'Q' :: letters ds d ++ after := ⟨_, rfl⟩
  have hbuf : buf = before ++ [chr 'Q'] ++ (letters ds d ++ after) := by simp [hb]
  have hpos : before.length + 1 = (before ++ [chr 'Q']).length := by simp
  have hlength : buf.length = before.length + 1 + ds.length + 1 + after.length := by
    simp only [hbuf, List.length_append, List.length_singleton, length_letters]
    omega
  have hdecoded (f : Nat) (hf : ds.length < f) (hlt : n.toNat < wrapped) :
      decodeDigits f 0 ⟨buf, before.length + 1⟩ =
        some (n, ⟨buf, before.length + 1 + (letters ds d).length⟩) := by
    obtain ⟨hds, hd, hvalue⟩ := hdigits.exact hlt
    have h := decodeDigits_letters (D := ⟨buf, before.length + 1⟩) (w := 0) hds hd hf hbuf hpos
    rwa [hvalue, BitVec.ofNat_toNat, BitVec.setWidth_eq, Nat.add_assoc, ← length_letters] at h
  refine ⟨letters ds d, hwrite, hencode.trans hwrite.symm, ?_, fun h0 hle hlt => ?_⟩
  case refine_1 =>
    rw [← hb, decodeBackref]
    refine ⟨fun h => ?_, hdecoded _ (by simp only; omega)⟩
    by_contra hge
    rw [Nat.not_lt] at hge
    obtain ⟨r, D', h', hr⟩ := decodeDigits_other (D := ⟨buf, before.length + 1⟩) (w := 0)
      (f := buf.length - (before.length + 1) + 1) hdigits.le hdigits.last (by omega) hbuf hpos
    obtain rfl : r = n := congrArg Prod.fst (Option.some.inj (h'.symm.trans h))
    have hlt := hdigits.other hge
    obtain hzero | hvalue := hr
    · have hn0 : 0 < r.toNat := lt_of_lt_of_le (by decide) hge
      rw [hzero] at hn0
      exact Nat.lt_irrefl 0 hn0
    · have htoNat := congrArg BitVec.toNat hvalue
      rw [BitVec.toNat_ofNat, Nat.mod_eq_of_lt (hlt.trans r.isLt)] at htoNat
      omega
  case refine_2 =>
    have hfront : Demangle.front ⟨buf, before.length⟩ = chr 'Q' := by simp [front, hb]
    have hpeek := peekDigits_of_decodeDigits (D := ⟨buf, before.length⟩) (p := 0)
      (hdecoded (buf.length - before.length + 1) (by omega) hlt)
    have hvalid : ¬(n = 0 ∨ n.toNat > before.length) := by
      rintro (rfl | hgt)
      · exact Nat.lt_irrefl 0 h0
      · omega
    rw [← hb, peekBackref]
    simp only [hfront, guard_true, hpeek, Option.bind_eq_bind, Option.bind_some, pure_bind, if_neg hvalid]
    rw [hb, List.append_assoc, List.getElem?_append_left (by omega)]

theorem decodeBackref_writeBackRef_one : ∃ digits, writeBackRef [chr 'a'] 1 = some ([chr 'a'] ++ chr 'Q' :: digits) ∧
    PrependHooks.encodeBackref [chr 'a'] 1 = writeBackRef [chr 'a'] 1 ∧
    (decodeBackref ⟨[chr 'a'] ++ chr 'Q' :: digits ++ [chr 'Z'], [chr 'a'].length + 1⟩ =
        some (1, ⟨[chr 'a'] ++ chr 'Q' :: digits ++ [chr 'Z'], [chr 'a'].length + 1 + digits.length⟩) ↔
      (1 : size_t).toNat < 26 ^ 14 % 2 ^ 64) ∧
    (0 < (1 : size_t).toNat → (1 : size_t).toNat ≤ [chr 'a'].length → (1 : size_t).toNat < 26 ^ 14 % 2 ^ 64 →
      peekBackref ⟨[chr 'a'] ++ chr 'Q' :: digits ++ [chr 'Z'], [chr 'a'].length⟩ =
        [chr 'a'][[chr 'a'].length - (1 : size_t).toNat]?) :=
  decodeBackref_writeBackRef_iff [chr 'a'] [chr 'Z'] 1 (by decide)

end roundTrip

end Runtime.Demangle
