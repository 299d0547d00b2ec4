import DmdModel.Compiler.Backend.DwarfEh
import DmdModel.Runtime.DwarfEh.Lsda

-- When the base of the type table is found, and that the tables are then read where they were written.

namespace Compiler.Backend.DwarfEh

open FixedPoint Runtime.DwarfEh

variable {t : Tables} {config : Config} {w value shift TTbase n : Nat} {result : BitVec w} {rest : List Byte}

-- The number of groups of seven bits of a number of 32 bits.
structure Groups (value n : Nat) : Prop where
  one_le    : 1 ≤ n
  le_five   : n ≤ 5
  two_le    : 2 ≤ n ↔ 2 ^ 7 ≤ value
  three_le  : 3 ≤ n ↔ 2 ^ 14 ≤ value
  four_le   : 4 ≤ n ↔ 2 ^ 21 ≤ value
  five_le   : 5 ≤ n ↔ 2 ^ 28 ≤ value

theorem uLEB128size_of_lt (h : value < 2 ^ 7) : uLEB128size value = 1 := by
  rw [uLEB128size, if_neg]
  omega

theorem uLEB128size_of_le (h : 2 ^ 7 ≤ value) : uLEB128size value = uLEB128size (value / 2 ^ 7) + 1 := by
  rw [uLEB128size, if_pos]
  omega

theorem uLEB128size_groups (h : value < 2 ^ 32) : Groups value (uLEB128size value) := by
  obtain h7 | h7 := Nat.lt_or_ge value (2 ^ 7)
  · rw [uLEB128size_of_lt h7]
    constructor <;> omega
  rw [uLEB128size_of_le h7]
  obtain h14 | h14 := Nat.lt_or_ge (value / 2 ^ 7) (2 ^ 7)
  · rw [uLEB128size_of_lt h14]
    constructor <;> omega
  rw [uLEB128size_of_le h14, Nat.div_div_eq_div_mul]
  obtain h21 | h21 := Nat.lt_or_ge (value / (2 ^ 7 * 2 ^ 7)) (2 ^ 7)
  · rw [uLEB128size_of_lt h21]
    constructor <;> omega
  rw [uLEB128size_of_le h21, Nat.div_div_eq_div_mul]
  obtain h28 | h28 := Nat.lt_or_ge (value / (2 ^ 7 * 2 ^ 7 * 2 ^ 7)) (2 ^ 7)
  · rw [uLEB128size_of_lt h28]
    constructor <;> omega
  rw [uLEB128size_of_le h28, Nat.div_div_eq_div_mul, uLEB128size_of_lt (by omega)]
  constructor <;> omega

theorem Groups.eq {m : Nat} {a b : Nat} (ha : Groups a m) (hb : Groups b n) (h7 : 2 ^ 7 ≤ a ↔ 2 ^ 7 ≤ b)
    (h14 : 2 ^ 14 ≤ a ↔ 2 ^ 14 ≤ b) (h21 : 2 ^ 21 ≤ a ↔ 2 ^ 21 ≤ b) (h28 : 2 ^ 28 ≤ a ↔ 2 ^ 28 ≤ b) : m = n := by
  rw [← ha.two_le, ← hb.two_le] at h7
  rw [← ha.three_le, ← hb.three_le] at h14
  rw [← ha.four_le, ← hb.four_le] at h21
  rw [← ha.five_le, ← hb.five_le] at h28
  have := ha.one_le
  have := ha.le_five
  have := hb.one_le
  have := hb.le_five
  omega

-- The number of groups next to the first number that has more of them
theorem Groups.eq_if {T j : Nat} (h : Groups value n) (hT : T = 2 ^ 7 ∧ j = 1 ∨ T = 2 ^ 21 ∧ j = 3 ∨ T = 2 ^ 28 ∧ j = 4)
    (hlow : T - 3 ≤ value) (hhigh : value < T + 3) : n = if T ≤ value then j + 1 else j := by
  obtain ⟨hone, hfive, h7, h14, h21, h28⟩ := h
  obtain ⟨rfl, rfl⟩ | ⟨rfl, rfl⟩ | ⟨rfl, rfl⟩ := hT <;> split <;> omega

theorem length_writeuLEB128 : (writeuLEB128 value).length = uLEB128size value := by
  induction value using Nat.strongRecOn
  case ind value ih =>
    rw [writeuLEB128, uLEB128size]
    split
    case isTrue h  => rw [List.length_cons, ih _ (by omega)]
    case isFalse h => rw [List.length_singleton]

-- The groups of a number are put at their places, from some place on.
theorem leb128Groups_write (hresult : result.toNat < 2 ^ shift) (hshift : shift < w)
    (h : result.toNat + 2 ^ shift * value < 2 ^ w) :
    ∃ b s, leb128Groups w result shift (writeuLEB128 value ++ rest) =
      some (BitVec.ofNat w (result.toNat + 2 ^ shift * value), b, s, rest) := by
  induction value using Nat.strongRecOn generalizing result shift
  case ind value ih =>
    have hlow : value % 2 ^ 7 < 2 ^ 7 := Nat.mod_lt _ (by decide)
    have hgroup {b : Byte} (hb : (b &&& 0x7F#8).toNat = value % 2 ^ 7) :
        (result ||| (b &&& 0x7F#8).setWidth w <<< (shift % w)).toNat = result.toNat + 2 ^ shift * (value % 2 ^ 7) := by
      have hle : value % 2 ^ 7 * 2 ^ shift ≤ value * 2 ^ shift := Nat.mul_le_mul_right _ (Nat.mod_le _ _)
      have hone : value % 2 ^ 7 ≤ value % 2 ^ 7 * 2 ^ shift := Nat.le_mul_of_pos_right _ (Nat.two_pow_pos _)
      rw [Nat.mul_comm (2 ^ shift)] at h ⊢
      rw [BitVec.toNat_or, BitVec.toNat_shiftLeft, BitVec.toNat_setWidth, hb, Nat.mod_eq_of_lt hshift,
        Nat.mod_eq_of_lt (show value % 2 ^ 7 < 2 ^ w by omega), Nat.shiftLeft_eq,
        Nat.mod_eq_of_lt (show value % 2 ^ 7 * 2 ^ shift < 2 ^ w by omega), ← Nat.shiftLeft_eq, Nat.or_comm,
        ← Nat.shiftLeft_add_eq_or_of_lt hresult, Nat.add_comm]
    have hbyte : (BitVec.ofNat 8 (value % 2 ^ 7)).toNat = value % 2 ^ 7 := by
      rw [BitVec.toNat_ofNat]
      omega
    rw [writeuLEB128]
    split
    case isTrue hmore =>
      generalize BitVec.ofNat 8 (value % 2 ^ 7) = b at hbyte ⊢
      have hhigh : ((b ||| 0x80#8) &&& 0x80#8) ≠ 0 := by
        clear hbyte
        revert b
        decide
      have hb : ((b ||| 0x80#8) &&& 0x7F#8).toNat = value % 2 ^ 7 := by
        rw [← hbyte] at hlow ⊢
        clear hbyte
        revert b
        decide
      have hsplit : 2 ^ shift * value = 2 ^ shift * (value % 2 ^ 7) + 2 ^ (shift + 7) * (value / 2 ^ 7) := by
        rw [Nat.pow_add, Nat.mul_assoc, ← Nat.mul_add, Nat.mod_add_div]
      have hlt : result.toNat + 2 ^ shift * (value % 2 ^ 7) < 2 ^ (shift + 7) := by
        have hle : 2 ^ shift * (value % 2 ^ 7 + 1) ≤ 2 ^ shift * 2 ^ 7 := Nat.mul_le_mul_left _ hlow
        rw [Nat.mul_succ] at hle
        rw [Nat.pow_add]
        omega
      have hnext : shift + 7 < w := by
        have hone : 2 ^ (shift + 7) ≤ 2 ^ (shift + 7) * (value / 2 ^ 7) :=
          Nat.le_mul_of_pos_right _ (Nat.pos_of_ne_zero hmore)
        exact (Nat.pow_lt_pow_iff_right (by decide)).mp (show 2 ^ (shift + 7) < 2 ^ w by omega)
      have hsum := hgroup hb
      rw [List.cons_append, leb128Groups, if_neg hhigh, hsplit, ← Nat.add_assoc, ← hsum]
      exact ih (value / 2 ^ 7) (by omega) (by rwa [hsum]) hnext (by rw [hsum]; omega)
    case isFalse hlast =>
      have hvalue : value % 2 ^ 7 = value := by omega
      rw [hvalue] at hbyte hgroup hlow ⊢
      generalize BitVec.ofNat 8 value = b at hbyte ⊢
      rw [← hbyte] at hlow
      have hhigh : b &&& 0x80#8 = 0 := by
        clear hbyte hgroup
        revert b
        decide
      have hb : (b &&& 0x7F#8).toNat = value := by
        rw [← hbyte]
        clear hbyte hgroup hhigh
        revert b
        decide
      refine ⟨b, shift + 7, ?_⟩
      rw [List.singleton_append, leb128Groups, if_pos hhigh, ← hgroup hb, BitVec.ofNat_toNat, BitVec.setWidth_eq]

theorem uLEB128_write (hw : 0 < w) (h : value < 2 ^ w) :
    uLEB128 w (writeuLEB128 value ++ rest) = some (BitVec.ofNat w value, rest) := by
  have hzero : (0#w).toNat + 2 ^ 0 * value = value := by simp
  obtain ⟨b, s, hread⟩ := @leb128Groups_write w value 0 0#w rest (by simp) hw (by rwa [hzero])
  rw [hzero] at hread
  show (leb128Groups w 0#w 0 _).map _ = _
  rw [hread]
  rfl

namespace Tables

-- The size of what follows the base, without the padding.
def size (t : Tables) : Nat :=
  1 + uLEB128size t.cstbuf.length + t.cstbuf.length + t.atbuf.length + 4 * t.typesTable.length

-- The size of all when the base takes the five bytes that it has at most.
def totalSize (t : Tables) : Nat :=
  (2 + 5 + t.size + 3) / 4 * 4

def padding (t : Tables) (n : Nat) : Nat :=
  (4 - (2 + n + t.size) % 4) % 4

theorem callSiteTableSize_eq (h : t.totalSize < 2 ^ 32) : t.CallSiteTableSize = t.cstbuf.length := by
  rw [totalSize, size] at h
  exact Nat.mod_eq_of_lt (by omega)

theorem length_header : (t.header config).length = t.et.length + 2 := by
  rw [header, List.length_append]
  rfl

theorem nextTTbase_eq (h : t.totalSize < 2 ^ 32) (hsize : uLEB128size TTbase ≤ 5) :
    t.nextTTbase (t.header config).length TTbase = t.size + t.padding (uLEB128size TTbase) := by
  generalize hn : uLEB128size TTbase = n at hsize ⊢
  have hstart : uint ((t.header config).length - t.startsize + n) = 2 + n := by
    rw [length_header, startsize, uint, uint]
    omega
  simp only [nextTTbase, hn, hstart, callSiteTableSize_eq h, padding]
  rw [totalSize] at h
  simp only [size] at h ⊢
  generalize 1 + uLEB128size t.cstbuf.length + t.cstbuf.length + t.atbuf.length = a at h ⊢
  have hsz : uint (2 + n + uint a) = 2 + n + a := by
    rw [uint, uint]
    omega
  have hpad : uint (2 ^ 32 - (2 + n + a)) % 4 = (4 - (2 + n + (a + 4 * t.typesTable.length)) % 4) % 4 := by
    rw [uint]
    omega
  rw [hsz, hpad, uint, uint, uint]
  omega

theorem padding_lt : t.padding n < 4 :=
  Nat.mod_lt _ (by decide)

-- The sizes of tables for which two bases alternate: one of them has two groups and one has three.
def Alternates (t : Tables) : Prop :=
  2 ^ 14 - 3 ≤ t.size ∧ t.size < 2 ^ 14

theorem nextTTbase_of_lt (h : t.totalSize < 2 ^ 32) (hbase : TTbase < 2 ^ 32) :
    t.nextTTbase (t.header config).length TTbase = t.size + t.padding (uLEB128size TTbase) :=
  nextTTbase_eq h (uLEB128size_groups hbase).le_five

theorem size_add_padding_lt (h : t.totalSize < 2 ^ 32) : t.size + t.padding n < 2 ^ 32 := by
  have hpad := @padding_lt t n
  rw [totalSize] at h
  omega

-- A number of groups that only depends on whether a base reaches `T` does not change any more.
theorem reaches_iff {T j n1 n2 : Nat} (hT : T % 4 = 0) (hj : j % 4 ≠ 2) (hhigh : t.size < T)
    (hn1 : n1 = if T ≤ t.size + t.padding 1 then j + 1 else j)
    (hn2 : n2 = if T ≤ t.size + t.padding n1 then j + 1 else j) :
    T ≤ t.size + t.padding n1 ↔ T ≤ t.size + t.padding n2 := by
  rw [padding] at hn1 hn2
  rw [padding, padding]
  split_ifs at hn1 <;> subst hn1 <;> split_ifs at hn2 <;> subst hn2 <;> omega

-- Apart from the sizes for which it alternates, a base has as many groups as the one before.
theorem uLEB128size_settles (h : t.totalSize < 2 ^ 32) (halt : ¬t.Alternates) {n1 n2 n3 : Nat}
    (h1 : n1 = uLEB128size (t.size + t.padding 1)) (h2 : n2 = uLEB128size (t.size + t.padding n1))
    (h3 : n3 = uLEB128size (t.size + t.padding n2)) : n3 = n2 := by
  have hg1 := h1 ▸ uLEB128size_groups (size_add_padding_lt h)
  have hg2 := h2 ▸ uLEB128size_groups (size_add_padding_lt h)
  have hg3 := h3 ▸ uLEB128size_groups (size_add_padding_lt h)
  have hp1 := @padding_lt t 1
  have hp2 := @padding_lt t n1
  have hp3 := @padding_lt t n2
  have hnear {T j : Nat} (hT : T = 2 ^ 7 ∧ j = 1 ∨ T = 2 ^ 21 ∧ j = 3 ∨ T = 2 ^ 28 ∧ j = 4) :
      T ≤ t.size + t.padding n2 ↔ T ≤ t.size + t.padding n1 := by
    by_cases hs : T - 3 ≤ t.size ∧ t.size < T
    case pos =>
      exact (reaches_iff (by omega) (by omega) hs.2 (hg1.eq_if hT (by omega) (by omega))
        (hg2.eq_if hT (by omega) (by omega))).symm
    case neg => omega
  rw [Alternates] at halt
  exact hg3.eq hg2 (hnear (.inl ⟨rfl, rfl⟩)) (by omega) (hnear (.inr (.inl ⟨rfl, rfl⟩)))
    (hnear (.inr (.inr ⟨rfl, rfl⟩)))

theorem nextTTbase_lt {length : Nat} : t.nextTTbase length TTbase < 2 ^ 32 :=
  Nat.mod_lt _ (by decide)

theorem TTbaseConverges.eq (h : t.totalSize < 2 ^ 32) (hconv : t.TTbaseConverges config TTbase) :
    TTbase < 2 ^ 32 ∧ TTbase = t.size + t.padding (uLEB128size TTbase) := by
  have hfix := hconv.fixed
  have hlt : TTbase < 2 ^ 32 := hfix ▸ nextTTbase_lt
  exact ⟨hlt, hfix.symm.trans (nextTTbase_of_lt h hlt)⟩

theorem uLEB128size_one : uLEB128size 1 = 1 := by
  rw [uLEB128size]
  rfl

theorem nextTTbase_first (h : t.totalSize < 2 ^ 32) :
    t.nextTTbase (t.header config).length 1 = t.size + t.padding 1 := by
  rw [nextTTbase_of_lt h (by decide), uLEB128size_one]

theorem nextTTbase_next (h : t.totalSize < 2 ^ 32) : t.nextTTbase (t.header config).length (t.size + t.padding n) =
    t.size + t.padding (uLEB128size (t.size + t.padding n)) :=
  nextTTbase_of_lt h (size_add_padding_lt h)

theorem exists_converges (h : t.totalSize < 2 ^ 32) (halt : ¬t.Alternates) :
    ∃ TTbase, t.TTbaseConverges config TTbase := by
  have hsettle := uLEB128size_settles h halt rfl rfl rfl
  have hnext (n : Nat) := @nextTTbase_next t config n h
  refine ⟨t.size + t.padding (uLEB128size (t.size + t.padding (uLEB128size (t.size + t.padding 1)))), converges_next ?_⟩
  rw [nextTTbase_first h]
  refine converges_next ?_
  rw [hnext]
  refine converges_next ?_
  rw [hnext]
  exact converges_self ((hnext _).trans (congrArg (fun n => t.size + t.padding n) hsettle))

-- Bases of 2 ^ 14 and of 2 ^ 14 - 1 bytes follow each other.
theorem not_converges (h : t.totalSize < 2 ^ 32) (halt : t.Alternates) : ¬t.TTbaseConverges config TTbase := by
  have hnext (n : Nat) := @nextTTbase_next t config n h
  have hgroups (n : Nat) := uLEB128size_groups (@size_add_padding_lt t n h)
  have ⟨hlow, hhigh⟩ := halt
  have htwo : uLEB128size (t.size + t.padding 2) = 3 := by
    have ⟨_, _, _, _, _, _⟩ := hgroups 2
    simp only [padding] at *
    omega
  have hthree : uLEB128size (t.size + t.padding 3) = 2 := by
    have ⟨_, _, _, _, _, _⟩ := hgroups 3
    simp only [padding] at *
    omega
  have hone : uLEB128size (t.size + t.padding 1) = 2 ∨ uLEB128size (t.size + t.padding 1) = 3 := by
    have ⟨_, _, _, _, _, _⟩ := hgroups 1
    simp only [padding] at *
    omega
  have hne : t.size + t.padding 2 ≠ t.size + t.padding 3 := by
    intro he
    rw [he, hthree] at htwo
    cases htwo
  have hto : t.nextTTbase (t.header config).length (t.size + t.padding 2) = t.size + t.padding 3 := by rw [hnext, htwo]
  have hback : t.nextTTbase (t.header config).length (t.size + t.padding 3) = t.size + t.padding 2 := by
    rw [hnext, hthree]
  intro hconv
  have hconv := converges_next_iff.mp (converges_next_iff.mp hconv)
  rw [nextTTbase_first h, hnext] at hconv
  obtain hone | hone := hone
  · exact not_converges_alternating hto hback hne (hone ▸ hconv)
  · exact not_converges_alternating hback hto hne.symm (hone ▸ hconv)

-- Where the tables are written, from the start of the header on.
def positions (t : Tables) (config : Config) (TTbase : Nat) : Positions where
  callSiteTable := (t.wholeHeader config TTbase).length - t.et.length
  actionTable   := (t.wholeHeader config TTbase ++ t.cstbuf).length - t.et.length
  tt            := (t.write config TTbase).length - t.et.length

theorem length_afterTTbase : (t.afterTTbase config TTbase).length = t.et.length + 2 + uLEB128size TTbase := by
  rw [afterTTbase, List.length_append, length_header, length_writeuLEB128]

theorem length_wholeHeader (h : t.totalSize < 2 ^ 32) : (t.wholeHeader config TTbase).length =
    t.et.length + 2 + uLEB128size TTbase + 1 + uLEB128size t.cstbuf.length := by
  rw [wholeHeader, List.length_append, List.length_append, length_afterTTbase, length_writeuLEB128, callSiteTableSize_eq h]
  rfl

theorem length_references {types : List (BitVec 32)} : (types.map reference).flatten.length = 4 * types.length := by
  induction types
  case nil => rfl
  case cons s types ih =>
    rw [List.map_cons, List.flatten_cons, List.length_append, ih, List.length_cons]
    show 4 + _ = _
    omega

-- The tables are written up to an end that is aligned.
theorem length_write (h : t.totalSize < 2 ^ 32) : (t.write config TTbase).length =
    t.et.length + 2 + uLEB128size TTbase + t.size + t.padding (uLEB128size TTbase) := by
  have halign := t.aligned
  simp only [write, List.length_append, List.length_replicate, length_wholeHeader h, length_references, List.length_reverse,
    padding]
  rw [size]
  omega

theorem endsAtTToffset_iff (h : t.totalSize < 2 ^ 32) (hconv : t.TTbaseConverges config TTbase) :
    t.EndsAtTToffset config TTbase ↔ t.et.length < 2 ^ 32 := by
  obtain ⟨hlt, hbase⟩ := hconv.eq h
  have hfive := (uLEB128size_groups hlt).le_five
  rw [EndsAtTToffset, TToffset, length_write h, length_afterTTbase, startsize]
  rw [totalSize] at h
  generalize uLEB128size TTbase = n at hbase hfive ⊢
  rw [padding] at hbase ⊢
  rw [uint, uint]
  omega

-- The tables and what follows them.
def body (t : Tables) (config : Config) (TTbase : Nat) (more : List Byte) : List Byte :=
  t.cstbuf ++ t.atbuf ++
    List.replicate (-((t.wholeHeader config TTbase ++ t.cstbuf ++ t.atbuf).length : Int) % 4).toNat 0 ++
      (t.typesTable.reverse.map reference).flatten ++ more

theorem drop_write {more : List Byte} : (t.write config TTbase).drop t.et.length ++ more =
    DW_EH_PE_omit :: TType config :: (writeuLEB128 TTbase ++
      CallSiteFormat config :: (writeuLEB128 t.CallSiteTableSize ++ t.body config TTbase more)) := by
  have hwrite : t.write config TTbase = t.et ++ (DW_EH_PE_omit :: TType config :: (writeuLEB128 TTbase ++
      CallSiteFormat config :: (writeuLEB128 t.CallSiteTableSize ++ t.body config TTbase []))) := by
    simp only [write, wholeHeader, afterTTbase, header, body, List.append_assoc, List.cons_append, List.nil_append,
      List.append_nil]
  rw [hwrite, List.drop_left]
  simp only [body, List.append_assoc, List.cons_append, List.append_nil]

-- What is read is where it was written.
theorem scanHeader_write {more : List Byte} (h : t.totalSize < 2 ^ 32) (hw : 32 ≤ w)
    (hconv : t.TTbaseConverges config TTbase) :
    scanHeader w ((t.write config TTbase).drop t.et.length ++ more) = some (t.positions config TTbase) := by
  obtain ⟨hlt, hbase⟩ := hconv.eq h
  have hpow : 2 ^ 32 ≤ 2 ^ w := Nat.pow_le_pow_right (by decide) hw
  have hcst : t.cstbuf.length < 2 ^ 32 := by
    rw [totalSize, size] at h
    omega
  have hTType : TType config ≠ Runtime.DwarfEh.DW_EH_PE_omit := by
    rw [TType]
    cases config.pic <;> decide
  have hTT {rest : List Byte} := @uLEB128_write w TTbase rest (by omega) (by omega)
  have hsize {rest : List Byte} : dw_pe_value w 0x01 (writeuLEB128 t.CallSiteTableSize ++ rest) = _ :=
    @uLEB128_write w t.CallSiteTableSize rest (by omega) (by rw [callSiteTableSize_eq h]; omega)
  rw [drop_write, scanHeader]
  simp only [readByte, Option.bind_eq_bind, Option.bind_some, hTT, hsize, Option.map_some]
  rw [if_pos hTType]
  refine congrArg some ?_
  have hTTbase : (BitVec.ofNat w TTbase).toNat = TTbase := by
    rw [BitVec.toNat_ofNat, Nat.mod_eq_of_lt (by omega)]
  have hcstbuf : (BitVec.ofNat w t.CallSiteTableSize).toNat = t.cstbuf.length := by
    rw [BitVec.toNat_ofNat, callSiteTableSize_eq h, Nat.mod_eq_of_lt (by omega)]
  rw [positions, Positions.mk.injEq, List.length_append, length_wholeHeader h, length_write h, hTTbase, hcstbuf]
  simp only [List.length_cons, List.length_append, length_writeuLEB128, callSiteTableSize_eq h]
  omega

-- The base is found, the assertion holds and the header is read as it was written.
def Agrees (t : Tables) (config : Config) (w : Nat) : Prop :=
  ∃ TTbase, t.TTbaseConverges config TTbase ∧ t.EndsAtTToffset config TTbase ∧
    ∀ more, scanHeader w ((t.write config TTbase).drop t.et.length ++ more) = some (t.positions config TTbase)

-- The loop ends unless the base and the groups it takes chase each other.
theorem tables_agree_iff (h : t.totalSize < 2 ^ 32) (hw : 32 ≤ w) :
    t.Agrees config w ↔ ¬t.Alternates ∧ t.et.length < 2 ^ 32 := by
  constructor
  case mp =>
    intro ⟨TTbase, hconv, hend, _⟩
    exact ⟨fun halt => not_converges h halt hconv, (endsAtTToffset_iff h hconv).mp hend⟩
  case mpr =>
    intro ⟨halt, hlen⟩
    obtain ⟨TTbase, hconv⟩ := @exists_converges t config h halt
    exact ⟨TTbase, hconv, (endsAtTToffset_iff h hconv).mpr hlen, fun more => scanHeader_write h hw hconv⟩

end Tables

-- A table of call sites of 16378 bytes: many short ones and one with a start and a range of two bytes each.
def alternating : Tables where
  et := []
  cstbuf := (List.replicate 4093 [0, 1, 0, 0]).flatten ++ [0x80, 1, 0x80, 1, 0, 0]
  atbuf := []
  typesTable := []
  aligned := rfl

-- The base is 16384 and 16383 in turn.
theorem alternating_never_converges : ¬alternating.Agrees ⟨.ELF, false⟩ 64 := by
  have hlen : alternating.cstbuf.length = 16378 := by
    rw [alternating, List.length_append, List.length_flatten, List.map_replicate, List.sum_replicate]
    rfl
  have hgroups : uLEB128size 16378 = 2 := by
    have ⟨_, _, _, _, _, _⟩ := @uLEB128size_groups 16378 (by decide)
    omega
  have hsize : alternating.size = 16381 := by
    rw [Tables.size, hlen, hgroups]
    rfl
  intro ⟨TTbase, hconv, _⟩
  refine Tables.not_converges ?_ ?_ hconv
  · rw [Tables.totalSize, hsize]
    decide
  · rw [Tables.Alternates, hsize]
    decide

-- A function without handlers.
def plain : Tables where
  et := []
  cstbuf := [0, 16, 0, 0]
  atbuf := []
  typesTable := []
  aligned := rfl

theorem plain_agrees : plain.Agrees ⟨.ELF, true⟩ 64 := by
  have hsize : plain.size = 6 := by
    have hone : uLEB128size 4 = 1 := by
      rw [uLEB128size]
      rfl
    show 1 + uLEB128size 4 + 4 + 0 + 4 * 0 = 6
    rw [hone]
  refine (Tables.tables_agree_iff ?_ (by decide)).mpr ⟨?_, by decide⟩
  · rw [Tables.totalSize, hsize]
    decide
  · rw [Tables.Alternates, hsize]
    decide

end Compiler.Backend.DwarfEh
