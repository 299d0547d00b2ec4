import DmdModel.Runtime.Dwarf.Theorems.DebugInfo

-- The compilation directory is that of the first unit that uses the line program.

namespace Runtime.Dwarf

variable {rest : List Byte} {is64bitDwarf : Bool} {addressSize : Byte} {sections : DebugSections} {offset : BitVec 64}
  {s : Str}

section Specs

variable {p : Spec} {n : Leb128}

theorem ofNat_eq_zero_iff (h : n.unsigned < 2 ^ 31) : BitVec.ofNat 64 n.unsigned = 0 ↔ n.unsigned = 0 := by
  rw [← BitVec.toNat_inj, BitVec.toNat_ofNat, Nat.mod_eq_of_lt (h.trans (by decide))]
  rfl

theorem ofNat_inj {m : Leb128} (hn : n.unsigned < 2 ^ 31) (hm : m.unsigned < 2 ^ 31) :
    BitVec.ofNat 64 n.unsigned = BitVec.ofNat 64 m.unsigned ↔ n.unsigned = m.unsigned := by
  rw [← BitVec.toNat_inj, BitVec.toNat_ofNat, BitVec.toNat_ofNat, Nat.mod_eq_of_lt (hn.trans (by decide)),
    Nat.mod_eq_of_lt (hm.trans (by decide))]

theorem ofNat_eq_iff {v : BitVec 64} (h : n.unsigned < 2 ^ 31) : BitVec.ofNat 64 n.unsigned = v ↔ n.unsigned = v.toNat := by
  rw [← BitVec.toNat_inj, BitVec.toNat_ofNat, Nat.mod_eq_of_lt (h.trans (by decide))]

theorem skipImplicit_spec {b : Bool} (h : b = true ↔ p.form.unsigned = 33) :
    skipImplicit b ((if p.form.unsigned = 33 then p.const.bytes else []) ++ rest) = some rest := by
  cases b with
  | true  =>
    obtain ⟨v, hread⟩ := @readSLEB128_length rest p.const
    rw [skipImplicit, if_pos (h.mp rfl), if_pos rfl, hread, Option.map_some]
  | false =>
    have hno : ¬p.form.unsigned = 33 := fun heq => Bool.false_ne_true (h.mpr heq)
    rw [skipImplicit, if_neg hno, if_neg Bool.false_ne_true, List.nil_append]

theorem readULEB128_zero : readULEB128 (0 :: rest) = some (0, rest) :=
  readULEB128_fits (n := ⟨[], 0⟩) ⟨by decide, by decide⟩

-- The specifications of a declaration are skipped.
theorem skipSpecs_bytes {specs : List Spec} {steps : Nat} (hspecs : ∀ p ∈ specs, p.WellFormed)
    (hsteps : specs.length < steps) :
    skipSpecs steps (specs.flatMap Spec.bytes ++ 0 :: 0 :: rest) = some rest := by
  induction specs generalizing steps with
  | nil            =>
    obtain ⟨k, rfl⟩ := Nat.exists_eq_succ_of_ne_zero (Nat.ne_zero_of_lt hsteps)
    rw [skipSpecs, List.flatMap_nil, List.nil_append]
    simp only [readULEB128_zero, Option.bind_eq_bind, Option.bind_some]
    rfl
  | cons p specs ih =>
    obtain ⟨k, rfl⟩ := Nat.exists_eq_succ_of_ne_zero (Nat.ne_zero_of_lt hsteps)
    obtain ⟨hname, hform, hlast⟩ := hspecs p List.mem_cons_self
    have hrest := ih (fun q hq => hspecs q (List.mem_cons_of_mem _ hq)) (Nat.lt_of_succ_lt_succ hsteps)
    have himplicit : decide (BitVec.ofNat 64 p.form.unsigned = 33) = true ↔ p.form.unsigned = 33 := by
      rw [decide_eq_true_iff, ofNat_eq_iff hform.2]
      rfl
    have hnext : ¬(BitVec.ofNat 64 p.name.unsigned = 0 ∧ BitVec.ofNat 64 p.form.unsigned = 0) := by
      rintro ⟨hzero, -⟩
      exact hlast ((ofNat_eq_zero_iff hname.2).mp hzero)
    rw [skipSpecs, List.flatMap_cons, Spec.bytes]
    simp only [List.append_assoc, readULEB128_fits hname, readULEB128_fits hform, skipImplicit_spec himplicit,
      Option.bind_eq_bind, Option.bind_some, if_neg hnext]
    exact hrest

theorem length_specs {specs : List Spec} : specs.length ≤ (specs.flatMap Spec.bytes).length := by
  induction specs with
  | nil             => exact le_rfl
  | cons p specs ih =>
    have hpos := @Leb128.size_pos p.name
    rw [List.flatMap_cons, List.length_cons, List.length_append, Spec.bytes, List.length_append, List.length_append,
      Leb128.length_bytes]
    omega

-- The declaration of a code is found behind others.
theorem findDeclaration_table {before : List Declaration} {d : Declaration} {steps : Nat} (hd : d.WellFormed)
    (hbefore : ∀ d' ∈ before, d'.WellFormed ∧ d'.code.unsigned ≠ d.code.unsigned) (hsteps : before.length < steps) :
    findDeclaration (BitVec.ofNat 64 d.code.unsigned) steps (before.flatMap Declaration.bytes ++ (d.bytes ++ rest)) =
      some (some (d.body ++ rest)) := by
  induction before generalizing steps with
  | nil             =>
    obtain ⟨k, rfl⟩ := Nat.exists_eq_succ_of_ne_zero (Nat.ne_zero_of_lt hsteps)
    have hpos := @Leb128.size_pos d.code
    have hlength : ¬(d.code.bytes ++ (d.body ++ rest)).length = 0 := by
      rw [List.length_append, Leb128.length_bytes]
      omega
    have hnull : ¬BitVec.ofNat 64 d.code.unsigned = 0 := fun hzero =>
      hd.notNull ((ofNat_eq_zero_iff hd.code.2).mp hzero)
    rw [findDeclaration, List.flatMap_nil, List.nil_append, Declaration.bytes, List.append_assoc, if_neg hlength]
    simp only [readULEB128_fits hd.code, Option.bind_eq_bind, Option.bind_some, if_neg hnull, if_true]
  | cons d' before ih =>
    obtain ⟨k, rfl⟩ := Nat.exists_eq_succ_of_ne_zero (Nat.ne_zero_of_lt hsteps)
    obtain ⟨hd', hne⟩ := hbefore d' List.mem_cons_self
    have hrest := ih (fun d'' hmem => hbefore d'' (List.mem_cons_of_mem _ hmem)) (Nat.lt_of_succ_lt_succ hsteps)
    have hpos := @Leb128.size_pos d'.code
    have hlength : ¬(d'.code.bytes ++ (d'.tag.bytes ++ d'.hasChildren :: (d'.specs.flatMap Spec.bytes ++
        0 :: 0 :: (before.flatMap Declaration.bytes ++ (d.bytes ++ rest))))).length = 0 := by
      rw [List.length_append, Leb128.length_bytes]
      omega
    have hnull : ¬BitVec.ofNat 64 d'.code.unsigned = 0 := fun hzero =>
      hd'.notNull ((ofNat_eq_zero_iff hd'.code.2).mp hzero)
    have hother : ¬BitVec.ofNat 64 d'.code.unsigned = BitVec.ofNat 64 d.code.unsigned := fun heq =>
      hne ((ofNat_inj hd'.code.2 hd.code.2).mp heq)
    have hbytes : (d' :: before).flatMap Declaration.bytes ++ (d.bytes ++ rest) =
        d'.code.bytes ++ (d'.tag.bytes ++ d'.hasChildren :: (d'.specs.flatMap Spec.bytes ++
          0 :: 0 :: (before.flatMap Declaration.bytes ++ (d.bytes ++ rest)))) := by
      simp [Declaration.bytes, Declaration.body]
    have hskip (l : List Byte) :
        skipSpecs ((d'.specs.flatMap Spec.bytes ++ 0 :: 0 :: l).length + 1) (d'.specs.flatMap Spec.bytes ++ 0 :: 0 :: l) =
          some l := by
      refine skipSpecs_bytes hd'.specs ?_
      have hle := @length_specs d'.specs
      rw [List.length_append]
      omega
    rw [hbytes, findDeclaration, if_neg hlength]
    simp only [readULEB128_fits hd'.code, readULEB128_fits hd'.tag, read_one, hskip, Option.bind_eq_bind, Option.bind_some,
      if_neg hnull, if_neg hother]
    exact hrest

theorem length_declarations {before : List Declaration} : before.length ≤ (before.flatMap Declaration.bytes).length := by
  induction before with
  | nil              => exact le_rfl
  | cons d before ih =>
    have hpos := @Leb128.size_pos d.code
    rw [List.flatMap_cons, List.length_cons, List.length_append, Declaration.bytes, List.length_append,
      Leb128.length_bytes]
    omega

end Specs

section Attributes

variable {a : Attribute} {attrs : List Attribute} {found : Found}

-- Something behind members of one kind
theorem exists_behind_cons {α : Type} {P Q : α → Prop} {x : α} {l : List α} :
    (∃ before y after, x :: l = before ++ y :: after ∧ (∀ b ∈ before, P b) ∧ Q y) ↔
      Q x ∨ P x ∧ ∃ before y after, l = before ++ y :: after ∧ (∀ b ∈ before, P b) ∧ Q y := by
  constructor
  · rintro ⟨before, y, after, heq, hbefore, hy⟩
    cases before with
    | nil           =>
      obtain ⟨rfl, rfl⟩ := List.cons_eq_cons.mp heq
      exact .inl hy
    | cons b before =>
      obtain ⟨rfl, rfl⟩ := List.cons_eq_cons.mp heq
      exact .inr ⟨hbefore x List.mem_cons_self, before, y, after, rfl,
        fun b hb => hbefore b (List.mem_cons_of_mem _ hb), hy⟩
  · rintro (hx | ⟨hx, before, y, after, rfl, hbefore, hy⟩)
    · exact ⟨[], x, l, rfl, by simp, hx⟩
    · refine ⟨x :: before, y, after, rfl, ?_, hy⟩
      intro b hb
      cases List.mem_cons.mp hb with
      | inl heq => exact heq ▸ hx
      | inr hin => exact hbefore b hin

theorem giveOffset_cons : Attribute.GiveOffset is64bitDwarf offset (a :: attrs) ↔
    (a.IsStmtList ∧ a.Offset is64bitDwarf offset) ∨ a.Known ∧ Attribute.GiveOffset is64bitDwarf offset attrs :=
  exists_behind_cons

theorem giveText_cons : Attribute.GiveText sections is64bitDwarf s (a :: attrs) ↔
    (a.IsCompDir ∧ a.Text sections is64bitDwarf s) ∨ a.Known ∧ Attribute.GiveText sections is64bitDwarf s attrs :=
  exists_behind_cons

theorem not_giveOffset (h : ∀ a ∈ attrs, ¬a.IsStmtList) : ¬Attribute.GiveOffset is64bitDwarf offset attrs := by
  rintro ⟨before, a, after, rfl, -, ha, -⟩
  exact h a (by simp) ha

theorem not_giveText (h : ∀ a ∈ attrs, ¬a.IsCompDir) : ¬Attribute.GiveText sections is64bitDwarf s attrs := by
  rintro ⟨before, a, after, rfl, -, ha, -⟩
  exact h a (by simp) ha

def Found.Matches (found : Found) (offset : BitVec 64) : Prop :=
  found.hasStmtList = true ∧ found.stmtList = offset

-- What is known before the attributes of a list are read. Nothing of it is given again.
structure Pending (found : Found) (attrs : List Attribute) : Prop where
  stmtList : found.hasStmtList = true → ∀ a ∈ attrs, ¬a.IsStmtList
  compDir  : found.compDir ≠ none → ∀ a ∈ attrs, ¬a.IsCompDir
  initial  : found.hasStmtList = false → found.stmtList = 0

-- What is known afterwards
structure Tells (sections : DebugSections) (is64bitDwarf : Bool) (offset : BitVec 64) (attrs : List Attribute)
    (found found' : Found) : Prop where
  uses  : found'.Matches offset ↔ found.Matches offset ∨ Attribute.GiveOffset is64bitDwarf offset attrs
  gives : found'.Matches offset → ∀ s, found'.compDir = some s ↔
    found.compDir = some s ∨ Attribute.GiveText sections is64bitDwarf s attrs

-- The conditions on the attributes of an entry
structure Readable (is64bitDwarf : Bool) (addressSize : Byte) (offset : BitVec 64) (attrs : List Attribute) : Prop where
  specs   : ∀ a ∈ attrs, a.spec.WellFormed
  values  : ∀ a ∈ attrs, ∀ f, a.IsForm f → Encoded is64bitDwarf addressSize f a.value
  names   : (attrs.map fun a => a.spec.name.unsigned).Nodup
  regular : ∀ a ∈ attrs, a.Regular is64bitDwarf offset

theorem Readable.tail (h : Readable is64bitDwarf addressSize offset (a :: attrs)) :
    Readable is64bitDwarf addressSize offset attrs where
  specs   := fun b hb => h.specs b (List.mem_cons_of_mem _ hb)
  values  := fun b hb => h.values b (List.mem_cons_of_mem _ hb)
  names   := (List.nodup_cons.mp h.names).2
  regular := fun b hb => h.regular b (List.mem_cons_of_mem _ hb)

theorem Readable.name_ne (h : Readable is64bitDwarf addressSize offset (a :: attrs)) {b : Attribute} (hb : b ∈ attrs) :
    b.spec.name.unsigned ≠ a.spec.name.unsigned := by
  intro heq
  exact (List.nodup_cons.mp h.names).1 (List.mem_map.mpr ⟨b, hb, heq⟩)

-- The byte that the code of a form is stored in
def formByte (a : Attribute) : Byte :=
  (BitVec.ofNat 64 a.spec.form.unsigned).setWidth 8

theorem toNat_formByte : (formByte a).toNat = a.spec.form.unsigned % 256 := by
  rw [formByte, BitVec.toNat_setWidth, BitVec.toNat_ofNat]
  omega

theorem formByte_of_isForm {f : DW_FORM} (h : a.IsForm f) : (formByte a).toNat = f.code := by
  have hlt := @DW_FORM.code_lt f
  have hcode : f.code = a.spec.form.unsigned := h
  rw [toNat_formByte]
  omega

theorem isForm_of_formByte {f : DW_FORM} (ha : a.Regular is64bitDwarf offset)
    (h : DW_FORM.ofCode (formByte a).toNat = some f) : a.IsForm f := by
  refine ha.form f ?_
  rw [DW_FORM.code_of_ofCode h, toNat_formByte]

theorem formByte_eq_implicit (ha : a.Regular is64bitDwarf offset) :
    decide (formByte a = 33) = true ↔ a.spec.form.unsigned = 33 := by
  rw [decide_eq_true_iff, ← BitVec.toNat_inj, toNat_formByte]
  constructor
  · intro h
    exact (ha.form .implicit_const h.symm).symm
  · intro h
    rw [h]
    rfl

-- One pass of the loop over the attributes of an entry
theorem attributes_cons {steps : Nat} {unit : List Byte} (ha : a.spec.WellFormed) (hreg : a.Regular is64bitDwarf offset) :
    attributes sections is64bitDwarf addressSize (steps + 1) (a.spec.bytes ++ rest) unit found =
      if BitVec.ofNat 64 a.spec.name.unsigned = DW_AT.stmt_list then
        match stmtListSize is64bitDwarf (formByte a) with
        | none      => some { found with hasStmtList := true }
        | some size => do
          let (stmtList, unit) ← read size unit
          attributes sections is64bitDwarf addressSize steps rest unit
            { found with hasStmtList := true, stmtList := stmtList }
      else if BitVec.ofNat 64 a.spec.name.unsigned = DW_AT.comp_dir then do
        let (compDir, unit) ← readStringForm unit (formByte a) is64bitDwarf sections
        attributes sections is64bitDwarf addressSize steps rest unit { found with compDir := compDir }
      else (do
        let (known, unit) ← skipForm (unit.length + 1) unit (formByte a) is64bitDwarf addressSize
        if known then attributes sections is64bitDwarf addressSize steps rest unit found else some found) := by
  have hnext : ¬(BitVec.ofNat 64 a.spec.name.unsigned = 0 ∧ formByte a = 0) := by
    rintro ⟨hzero, -⟩
    exact ha.notLast ((ofNat_eq_zero_iff ha.name.2).mp hzero)
  rw [attributes, Spec.bytes]
  simp only [List.append_assoc, readULEB128_fits ha.name, readULEB128_fits ha.form, Option.bind_eq_bind,
    Option.bind_some]
  have himplicit := @skipImplicit_spec rest _ _ (formByte_eq_implicit hreg)
  rw [formByte] at himplicit hnext
  simp only [himplicit, Option.bind_some, if_neg hnext]
  rfl

-- The offset of a line program is read, or it is of a form from which it is not.
theorem tells_stmtList {found' : Found} (ha : a.IsStmtList) (hread : Readable is64bitDwarf addressSize offset (a :: attrs))
    (hpending : Pending found (a :: attrs)) {v : BitVec 64} (hv : a.Offset is64bitDwarf v)
    (h : Tells sections is64bitDwarf offset attrs { found with hasStmtList := true, stmtList := v } found') :
    Tells sections is64bitDwarf offset (a :: attrs) found found' := by
  have hfresh : ¬found.Matches offset := fun hmatch => hpending.stmtList hmatch.1 a List.mem_cons_self ha
  have hrest : ∀ b ∈ attrs, ¬b.IsStmtList := fun b hb hbs => hread.name_ne hb (hbs.trans ha.symm)
  have hv' : a.Offset is64bitDwarf offset ↔ v = offset := by
    constructor
    · exact fun h => offset_unique hv h
    · rintro rfl
      exact hv
  have hknown : a.Known := by
    obtain ⟨f, size, hf, -⟩ := hv
    exact ⟨f, hf⟩
  have hdir : ¬a.IsCompDir := by
    intro hcomp
    have heq : (0x10 : Nat) = 0x1b := ha.symm.trans hcomp
    omega
  constructor
  · have hmatch : ({ found with hasStmtList := true, stmtList := v } : Found).Matches offset ↔ v = offset :=
      and_iff_right rfl
    rw [h.uses, giveOffset_cons, hv', hmatch]
    simp only [hfresh, ha, not_giveOffset hrest, and_false, or_false, false_or, true_and]
  · intro hmatch s
    rw [h.gives hmatch, giveText_cons]
    simp only [hdir, false_and, false_or, hknown, true_and]

theorem tells_compDir {found' : Found} (ha : a.IsCompDir) (hread : Readable is64bitDwarf addressSize offset (a :: attrs))
    (hpending : Pending found (a :: attrs)) (hknown : a.Known) {dir : Option Str}
    (hdir : ∀ s, dir = some s ↔ a.Text sections is64bitDwarf s)
    (h : Tells sections is64bitDwarf offset attrs { found with compDir := dir } found') :
    Tells sections is64bitDwarf offset (a :: attrs) found found' := by
  have hfresh : found.compDir = none := by
    by_contra hsome
    exact hpending.compDir hsome a List.mem_cons_self ha
  have hrest : ∀ b ∈ attrs, ¬b.IsCompDir := fun b hb hbs => hread.name_ne hb (hbs.trans ha.symm)
  have hline : ¬a.IsStmtList := by
    intro hstmt
    have heq : (0x1b : Nat) = 0x10 := ha.symm.trans hstmt
    omega
  constructor
  · rw [h.uses, giveOffset_cons]
    simp only [hline, false_and, false_or, hknown, true_and, Found.Matches]
  · intro hmatch s
    rw [h.gives hmatch, giveText_cons, hdir, hfresh]
    simp only [ha, true_and, not_giveText hrest, and_false, or_false, reduceCtorEq, false_or]

theorem tells_known {found' : Found} (hline : ¬a.IsStmtList) (hdir : ¬a.IsCompDir) (hknown : a.Known)
    (h : Tells sections is64bitDwarf offset attrs found found') :
    Tells sections is64bitDwarf offset (a :: attrs) found found' := by
  constructor
  · rw [h.uses, giveOffset_cons]
    simp only [hline, false_and, false_or, hknown, true_and]
  · intro hmatch s
    rw [h.gives hmatch, giveText_cons]
    simp only [hdir, false_and, false_or, hknown, true_and]

-- Nothing is known of what follows an unknown form.
theorem tells_unknown (hline : ¬a.IsStmtList) (hdir : ¬a.IsCompDir) (hknown : ¬a.Known) :
    Tells sections is64bitDwarf offset (a :: attrs) found found := by
  constructor
  · rw [giveOffset_cons]
    simp only [hline, false_and, hknown, or_false]
  · intro _ s
    rw [giveText_cons]
    simp only [hdir, false_and, hknown, or_false]

theorem tells_other (ha : a.IsStmtList) (hread : Readable is64bitDwarf addressSize offset (a :: attrs))
    (hpending : Pending found (a :: attrs)) (hno : ∀ v, ¬a.Offset is64bitDwarf v) :
    Tells sections is64bitDwarf offset (a :: attrs) found { found with hasStmtList := true } := by
  have hfresh : found.hasStmtList = false := by
    by_contra htrue
    exact hpending.stmtList (by simpa using htrue) a List.mem_cons_self ha
  have hrest : ∀ b ∈ attrs, ¬b.IsStmtList := fun b hb hbs => hread.name_ne hb (hbs.trans ha.symm)
  have hne : offset ≠ 0 := by
    obtain ⟨v, hv⟩ | hne := (hread.regular a List.mem_cons_self).stmtList ha
    · exact absurd hv (hno v)
    · exact hne
  have hnot : ¬({ found with hasStmtList := true } : Found).Matches offset := by
    rintro ⟨-, heq⟩
    exact hne (heq.symm.trans (hpending.initial hfresh))
  have hnot' : ¬found.Matches offset := by
    rintro ⟨htrue, -⟩
    exact Bool.false_ne_true (hfresh.symm.trans htrue)
  constructor
  · rw [giveOffset_cons]
    simp only [hnot, hnot', hno offset, and_false, not_giveOffset hrest, or_false]
  · intro hmatch
    exact absurd hmatch hnot

-- The loop finds what the attributes give.
theorem attributes_tells {steps : Nat} {after children : List Byte} (hread : Readable is64bitDwarf addressSize offset attrs)
    (hpending : Pending found attrs) (hsteps : attrs.length < steps) :
    ∃ found', attributes sections is64bitDwarf addressSize steps
        (attrs.flatMap (fun a => a.spec.bytes) ++ 0 :: 0 :: after) (attrs.flatMap Attribute.value ++ children) found =
          some found' ∧
      Tells sections is64bitDwarf offset attrs found found' := by
  induction attrs generalizing found steps with
  | nil             =>
    obtain ⟨k, rfl⟩ := Nat.exists_eq_succ_of_ne_zero (Nat.ne_zero_of_lt hsteps)
    refine ⟨found, ?_, ?_⟩
    · rw [attributes, List.flatMap_nil, List.nil_append]
      simp only [readULEB128_zero, Option.bind_eq_bind, Option.bind_some]
      rfl
    · constructor
      · rw [or_iff_left (not_giveOffset (by simp))]
      · intro _ s
        rw [or_iff_left (not_giveText (by simp))]
  | cons a attrs ih =>
    obtain ⟨k, rfl⟩ := Nat.exists_eq_succ_of_ne_zero (Nat.ne_zero_of_lt hsteps)
    have hk : attrs.length < k := Nat.lt_of_succ_lt_succ hsteps
    have ha := hread.specs a List.mem_cons_self
    have hreg := hread.regular a List.mem_cons_self
    have hvalue := hread.values a List.mem_cons_self
    have htail {b : Attribute} (hb : b ∈ attrs) : b ∈ a :: attrs := List.mem_cons_of_mem _ hb
    have hstmt : BitVec.ofNat 64 a.spec.name.unsigned = DW_AT.stmt_list ↔ a.IsStmtList := ofNat_eq_iff ha.name.2
    have hcomp : BitVec.ofNat 64 a.spec.name.unsigned = DW_AT.comp_dir ↔ a.IsCompDir := ofNat_eq_iff ha.name.2
    rw [List.flatMap_cons, List.flatMap_cons, List.append_assoc, List.append_assoc, attributes_cons ha hreg]
    by_cases hline : a.IsStmtList
    · rw [if_pos (hstmt.mpr hline)]
      cases hsize : stmtListSize is64bitDwarf (formByte a) with
      | none      =>
        refine ⟨_, rfl, tells_other hline hread hpending ?_⟩
        rintro v ⟨f, size, hf, hmem, -⟩
        rw [stmtListSize_eq (formByte_of_isForm hf) hmem] at hsize
        cases hsize
      | some size =>
        cases hform : DW_FORM.ofCode (formByte a).toNat with
        | none   =>
          rw [stmtListSize, hform] at hsize
          cases hsize
        | some f =>
          have hf : a.IsForm f := isForm_of_formByte hreg hform
          have hmem := stmtListSize_some hform hsize
          obtain ⟨hlength, hle⟩ := @size_of_mem _ _ addressSize _ hmem
          obtain ⟨v, hfits, hat⟩ := exists_littleEndian hle ((hvalue f hf).length_of hlength)
          have hpending' : Pending { found with hasStmtList := true, stmtList := v } attrs := {
            stmtList := fun _ b hb hbs => hread.name_ne hb (hbs.trans hline.symm)
            compDir  := fun hsome b hb => hpending.compDir hsome b (htail hb)
            initial  := fun hfalse => Bool.noConfusion hfalse
          }
          obtain ⟨found', hloop, htells⟩ := ih hread.tail hpending' hk
          refine ⟨found', ?_, tells_stmtList hline hread hpending ⟨f, size, hf, hmem, hfits, hat⟩ htells⟩
          rw [hat]
          simp only [read_offset hle hfits, Option.bind_eq_bind, Option.bind_some]
          exact hloop
    · rw [if_neg fun h => hline (hstmt.mp h)]
      by_cases hdir : a.IsCompDir
      · rw [if_pos (hcomp.mpr hdir)]
        obtain ⟨f, hf, hvalue'⟩ := hreg.compDir hdir
        obtain ⟨dir, hdirRead, htext⟩ := @readStringForm_text (attrs.flatMap Attribute.value ++ children) _ _ _
          sections _ hf hvalue' (formByte_of_isForm hf)
        have hpending' : Pending { found with compDir := dir } attrs := {
          stmtList := fun htrue b hb => hpending.stmtList htrue b (htail hb)
          compDir  := fun _ b hb hbs => hread.name_ne hb (hbs.trans hdir.symm)
          initial  := hpending.initial
        }
        obtain ⟨found', hloop, htells⟩ := ih hread.tail hpending' hk
        refine ⟨found', ?_, tells_compDir hdir hread hpending ⟨f, hf⟩ htext htells⟩
        simp only [hdirRead, Option.bind_eq_bind, Option.bind_some]
        exact hloop
      · rw [if_neg fun h => hdir (hcomp.mp h)]
        have hpending' : Pending found attrs := {
          stmtList := fun htrue b hb => hpending.stmtList htrue b (htail hb)
          compDir  := fun hsome b hb => hpending.compDir hsome b (htail hb)
          initial  := hpending.initial
        }
        cases hform : DW_FORM.ofCode (formByte a).toNat with
        | none   =>
          have hunknown : ¬a.Known := by
            rintro ⟨f, hf⟩
            rw [formByte_of_isForm hf, DW_FORM.ofCode_code] at hform
            cases hform
          refine ⟨found, ?_, tells_unknown hline hdir hunknown⟩
          simp only [skipForm_unknown hform, Option.bind_eq_bind, Option.bind_some]
          rfl
        | some f =>
          have hf : a.IsForm f := isForm_of_formByte hreg hform
          have hskip := @skipForm_encoded (attrs.flatMap Attribute.value ++ children) _ _ _ _ _
            ((a.value ++ (attrs.flatMap Attribute.value ++ children)).length + 1) (hvalue f hf)
            (formByte_of_isForm hf) (by rw [List.length_append]; omega)
          obtain ⟨found', hloop, htells⟩ := ih hread.tail hpending' hk
          refine ⟨found', ?_, tells_known hline hdir ⟨f, hf⟩ htells⟩
          simp only [hskip, Option.bind_eq_bind, Option.bind_some, if_true]
          exact hloop

end Attributes

section Units

variable {u : InfoUnit} {e : Entry}

-- What a visit of a unit comes to
def Visited (sections : DebugSections) (u : InfoUnit) (offset : BitVec 64) (visit : Visit) : Prop :=
  (u.Uses offset ∧ ∃ dir, visit = .ret dir ∧ ∀ s, dir = some s ↔ u.Gives sections s) ∨
    ¬u.Uses offset ∧ visit = .next

theorem visited_next (h : u.attributes = []) : Visited sections u offset .next := by
  refine .inr ⟨?_, rfl⟩
  rw [InfoUnit.Uses, h]
  exact not_giveOffset (by simp)

-- The first entry of a unit
theorem visitEntry_entry {header : Header} (hu : u.content = .entry e)
    (hwf : e.WellFormed u.is64bitDwarf u.addressSize) (htable : sections.abbrev_.drop u.abbrevOffset.toNat = e.table)
    (haddress : header.addressSize = u.addressSize) (hoffset : header.abbrevOffset = u.abbrevOffset)
    (hreg : ∀ a ∈ u.attributes, a.Regular u.is64bitDwarf offset) :
    ∃ visit, visitEntry sections offset u.is64bitDwarf header e.bytes = some visit ∧ Visited sections u offset visit := by
  have hd := hwf.declaration
  have hcode : e.code = e.declaration.code := rfl
  have hpos := @Leb128.size_pos e.code
  have hin : ¬sections.abbrev_.length ≤ header.abbrevOffset.toNat := by
    intro hle
    rw [hoffset] at hle
    rw [List.drop_eq_nil_of_le hle] at htable
    have hlength := congrArg List.length htable
    rw [Entry.table, Declaration.bytes, List.length_append, List.length_append, List.length_append, ← hcode,
      Leb128.length_bytes, List.length_nil] at hlength
    omega
  have hnull : ¬BitVec.ofNat 64 e.code.unsigned = 0 := fun hzero =>
    hd.notNull ((ofNat_eq_zero_iff hd.code.2).mp hzero)
  have hfind : findDeclaration (BitVec.ofNat 64 e.code.unsigned) (e.table.length + 1) e.table =
      some (some (e.declaration.body ++ e.after)) := by
    refine findDeclaration_table hd hwf.before ?_
    have hle := @length_declarations e.before
    rw [Entry.table, List.length_append]
    omega
  have hbody : e.declaration.body ++ e.after = e.tag.bytes ++ (e.hasChildren ::
      (e.attributes.flatMap (fun a => a.spec.bytes) ++ 0 :: 0 :: e.after)) := by
    simp [Declaration.body, Entry.declaration, List.flatMap_map]
  have htag : BitVec.ofNat 64 e.tag.unsigned = compile_unit ↔ e.tag.unsigned = 0x11 := ofNat_eq_iff hd.tag.2
  have hreadCode (l : List Byte) : readULEB128 (e.code.bytes ++ l) = some (BitVec.ofNat 64 e.code.unsigned, l) :=
    readULEB128_fits hd.code
  have hreadTag (l : List Byte) : readULEB128 (e.tag.bytes ++ l) = some (BitVec.ofNat 64 e.tag.unsigned, l) :=
    readULEB128_fits hd.tag
  rw [visitEntry, if_neg hin, hoffset, htable, Entry.bytes, haddress]
  simp only [hreadCode, Option.bind_eq_bind, Option.bind_some, if_neg hnull, hfind, hbody, hreadTag, read_one]
  by_cases hunit : e.tag.unsigned = 0x11
  · have hattributes : u.attributes = e.attributes := by
      simp only [InfoUnit.attributes, hu, if_pos hunit]
    have hread : Readable u.is64bitDwarf u.addressSize offset e.attributes := {
      specs   := fun a ha => hd.specs a.spec (List.mem_map_of_mem ha)
      values  := hwf.values
      names   := hwf.names
      regular := fun a ha => hreg a (hattributes ▸ ha)
    }
    have hpending : Pending {} e.attributes := {
      stmtList := fun h => Bool.noConfusion h
      compDir  := fun h => absurd rfl h
      initial  := fun _ => rfl
    }
    have hsteps : e.attributes.length <
        (e.attributes.flatMap (fun a => a.spec.bytes) ++ 0 :: 0 :: e.after).length + 1 := by
      have hle := @length_specs (e.attributes.map Attribute.spec)
      rw [List.length_map, List.flatMap_map] at hle
      rw [List.length_append]
      omega
    obtain ⟨found, hloop, htells⟩ := @attributes_tells _ _ sections _ _ _ _ e.after e.children
      hread hpending hsteps
    have hfresh : ¬({} : Found).Matches offset := fun h => Bool.noConfusion h.1
    have huses : found.Matches offset ↔ u.Uses offset := by
      rw [htells.uses, or_iff_right hfresh, InfoUnit.Uses, hattributes]
    rw [if_neg (not_not_intro (htag.mpr hunit)), hloop]
    simp only [Option.bind_some]
    by_cases hmatch : found.Matches offset
    · refine ⟨.ret found.compDir, ?_, .inl ⟨huses.mp hmatch, found.compDir, rfl, fun s => ?_⟩⟩
      · exact if_pos hmatch
      · rw [htells.gives hmatch, InfoUnit.Gives, hattributes]
        exact or_iff_right fun h => Option.some_ne_none s h.symm
    · exact ⟨.next, if_neg hmatch, .inr ⟨fun h => hmatch (huses.mpr h), rfl⟩⟩
  · refine ⟨.next, ?_, visited_next ?_⟩
    · rw [if_pos fun h => hunit (htag.mp h)]
    · simp only [InfoUnit.attributes, hu, if_neg hunit]

theorem visitEntry_content {header : Header} (hu : u.WellFormed sections) (haddress : header.addressSize = u.addressSize)
    (hoffset : header.abbrevOffset = u.abbrevOffset)
    (hkind : u.unitType ≠ DW_UT.type ∧ u.unitType ≠ DW_UT.split_type)
    (hreg : ∀ a ∈ u.attributes, a.Regular u.is64bitDwarf offset) :
    ∃ visit, visitEntry sections offset u.is64bitDwarf header u.content.bytes = some visit ∧
      Visited sections u offset visit := by
  have hcontent := hu.content
  cases hcase : u.content with
  | types bytes    =>
    rw [hcase] at hcontent
    cases hcontent with
    | inl h => exact absurd h hkind.1
    | inr h => exact absurd h hkind.2
  | null code rest =>
    rw [hcase] at hcontent
    obtain ⟨-, hsize, hzero⟩ := hcontent
    refine ⟨.next, ?_, visited_next ?_⟩
    · rw [visitEntry, Content.bytes]
      by_cases hout : sections.abbrev_.length ≤ header.abbrevOffset.toNat
      · rw [if_pos hout]
      · rw [if_neg hout]
        have hread : readULEB128 (code.bytes ++ rest) = some (BitVec.ofNat 64 code.unsigned, rest) :=
          readULEB128_fits ⟨hsize, by omega⟩
        simp only [hread, hzero, Option.bind_eq_bind, Option.bind_some]
        rfl
    · simp only [InfoUnit.attributes, hcase]
  | entry e        =>
    rw [hcase] at hcontent
    obtain ⟨-, hwf, htable⟩ := hcontent
    exact visitEntry_entry hcase hwf htable haddress hoffset hreg

theorem readHeader_header (hu : u.WellFormed sections) (l : List Byte) :
    readHeader u.is64bitDwarf (BitVec.ofNat 64 u.version) (u.header ++ l) =
      some (⟨u.unitType, u.addressSize, u.abbrevOffset⟩, u.dwoId ++ l) := by
  have hversion : (BitVec.ofNat 64 u.version).toNat = u.version := by
    have hle := hu.version.2
    rw [BitVec.toNat_ofNat, Nat.mod_eq_of_lt (by omega)]
  have hoffset (l : List Byte) := @read_offset l _ _ offsetSize_le hu.abbrevOffset
  have hbyte (b : Byte) : (b.setWidth 64).setWidth 8 = b := by
    rw [BitVec.setWidth_setWidth_of_le b (by decide), BitVec.setWidth_eq]
  rw [readHeader, InfoUnit.header, hversion]
  by_cases hfive : 5 ≤ u.version
  · rw [if_pos hfive, if_pos hfive]
    simp only [List.cons_append, List.append_assoc, read_one, hoffset, hbyte, Option.bind_eq_bind, Option.bind_some]
  · have htype : u.unitType = DW_UT.compile := hu.unitType (by omega)
    have hnil : u.dwoId = [] := by
      have hlength := hu.dwoId
      rw [htype, if_neg (by decide)] at hlength
      exact List.length_eq_zero_iff.mp hlength
    rw [if_neg hfive, if_neg hfive]
    simp only [List.append_assoc, List.singleton_append, read_one, hoffset, hbyte, Option.bind_eq_bind, Option.bind_some,
      htype, hnil, List.nil_append]

-- A unit is visited without reading behind its end.
theorem visitUnit_body (hu : u.WellFormed sections) (hreg : ∀ a ∈ u.attributes, a.Regular u.is64bitDwarf offset) :
    ∃ visit, visitUnit sections offset u.is64bitDwarf u.body = some visit ∧ Visited sections u offset visit := by
  obtain ⟨hlow, hhigh⟩ := hu.version
  have hversion : (BitVec.ofNat 64 u.version).toNat = u.version := by
    rw [BitVec.toNat_ofNat, Nat.mod_eq_of_lt (by omega)]
  have hread (l : List Byte) : read 2 (littleEndian 2 (BitVec.ofNat 64 u.version) ++ l) = some (BitVec.ofNat 64 u.version, l) :=
    read_offset (by decide) (by rw [hversion]; omega)
  have hrange : ¬((BitVec.ofNat 64 u.version).toNat < 2 ∨ 5 < (BitVec.ofNat 64 u.version).toNat) := by
    rw [hversion]
    omega
  rw [visitUnit, InfoUnit.body]
  simp only [hread, Option.bind_eq_bind, Option.bind_some, if_neg hrange, readHeader_header hu]
  by_cases hskeleton : u.unitType = DW_UT.skeleton ∨ u.unitType = DW_UT.split_compile
  · have hlength := hu.dwoId
    rw [if_pos hskeleton] at hlength
    have hkind : u.unitType ≠ DW_UT.type ∧ u.unitType ≠ DW_UT.split_type := by
      obtain h | h := hskeleton
      · rw [h]
        decide
      · rw [h]
        decide
    rw [if_pos hskeleton, skip_append hlength]
    exact visitEntry_content hu rfl rfl hkind hreg
  · have hnil : u.dwoId = [] := by
      have hlength := hu.dwoId
      rw [if_neg hskeleton] at hlength
      exact List.length_eq_zero_iff.mp hlength
    rw [if_neg hskeleton, hnil, List.nil_append]
    by_cases htypes : u.unitType = DW_UT.type ∨ u.unitType = DW_UT.split_type
    · rw [if_pos htypes]
      refine ⟨.next, rfl, visited_next ?_⟩
      have hcontent := hu.content
      cases hcase : u.content with
      | types bytes    => simp only [InfoUnit.attributes, hcase]
      | null code rest => simp only [InfoUnit.attributes, hcase]
      | entry e        =>
        rw [hcase] at hcontent
        obtain ⟨⟨hne, hne'⟩, -⟩ := hcontent
        exact absurd htypes (not_or_intro hne hne')
    · rw [if_neg htypes]
      exact visitEntry_content hu rfl rfl (not_or.mp htypes) hreg

theorem readUnitLength_bytes (hu : u.WellFormed sections) :
    readUnitLength (u.bytes ++ rest) = some (u.is64bitDwarf, BitVec.ofNat 64 u.body.length, u.body ++ rest) := by
  have hlength := hu.length
  rw [readUnitLength, InfoUnit.bytes]
  by_cases h64 : u.is64bitDwarf = true
  · rw [if_pos h64] at hlength ⊢
    have hvalue : (BitVec.ofNat 64 u.body.length).toNat = u.body.length := by
      rw [BitVec.toNat_ofNat, Nat.mod_eq_of_lt hlength]
    have hescape (l : List Byte) : read 4 ([0xFF, 0xFF, 0xFF, 0xFF] ++ l) = some (0xFFFFFFFF, l) :=
      @read_offset _ 4 (0xFFFFFFFF) (by decide) (by decide)
    have hread (l : List Byte) : read 8 (littleEndian 8 (BitVec.ofNat 64 u.body.length) ++ l) =
        some (BitVec.ofNat 64 u.body.length, l) :=
      read_offset (by decide) (by rw [hvalue]; exact hlength)
    simp only [List.append_assoc, hescape, hread, Option.bind_eq_bind, Option.bind_some, if_true, h64]
  · rw [if_neg h64] at hlength ⊢
    have hvalue : (BitVec.ofNat 64 u.body.length).toNat = u.body.length := by
      rw [BitVec.toNat_ofNat]
      omega
    have hread (l : List Byte) : read 4 (littleEndian 4 (BitVec.ofNat 64 u.body.length) ++ l) =
        some (BitVec.ofNat 64 u.body.length, l) :=
      read_offset (by decide) (by rw [hvalue]; omega)
    have hshort : ¬BitVec.ofNat 64 u.body.length = 0xFFFFFFFF := by
      intro heq
      have hmax : (0xFFFFFFFF : BitVec 64).toNat = 0xFFFFFFFF := rfl
      have hnat := congrArg BitVec.toNat heq
      rw [hvalue, hmax] at hnat
      omega
    have hfalse : u.is64bitDwarf = false := by simpa using h64
    simp only [List.append_assoc, hread, Option.bind_eq_bind, Option.bind_some, if_neg hshort, hfalse]

theorem four_lt_length : 4 < u.bytes.length := by
  have hbody : 2 ≤ u.body.length := by
    rw [InfoUnit.body, List.length_append]
    exact Nat.le_add_right 2 _
  rw [InfoUnit.bytes]
  split
  case isTrue  =>
    simp only [List.length_append, List.length_cons, List.length_nil]
    omega
  case isFalse =>
    have hfour : (littleEndian 4 (BitVec.ofNat 64 u.body.length)).length = 4 := rfl
    rw [List.length_append, hfour]
    omega

-- The units are visited until one uses the line program.
theorem visitUnits_bytes {units : List InfoUnit} {steps : Nat} (hwf : ∀ u ∈ units, u.WellFormed sections)
    (hreg : ∀ before u after, units = before ++ u :: after → (∀ b ∈ before, ¬b.Uses offset) →
      ∀ a ∈ u.attributes, a.Regular u.is64bitDwarf offset)
    (hsteps : units.length < steps) :
    ∃ dir, visitUnits sections offset steps (units.flatMap InfoUnit.bytes) = some dir ∧
      ((∃ before u after, units = before ++ u :: after ∧ (∀ b ∈ before, ¬b.Uses offset) ∧ u.Uses offset ∧
          ∀ s, dir = some s ↔ u.Gives sections s) ∨
        (∀ u ∈ units, ¬u.Uses offset) ∧ dir = none) := by
  induction units generalizing steps with
  | nil             =>
    obtain ⟨k, rfl⟩ := Nat.exists_eq_succ_of_ne_zero (Nat.ne_zero_of_lt hsteps)
    exact ⟨none, rfl, .inr ⟨by simp, rfl⟩⟩
  | cons u units ih =>
    obtain ⟨k, rfl⟩ := Nat.exists_eq_succ_of_ne_zero (Nat.ne_zero_of_lt hsteps)
    have hu := hwf u List.mem_cons_self
    have hlong : ¬(u.bytes ++ units.flatMap InfoUnit.bytes).length ≤ 4 := by
      have hlt := @four_lt_length u
      rw [List.length_append]
      omega
    have hlength : (BitVec.ofNat 64 u.body.length).toNat = u.body.length := by
      have hlt := hu.length
      rw [BitVec.toNat_ofNat]
      split at hlt
      case isTrue  => exact Nat.mod_eq_of_lt hlt
      case isFalse => exact Nat.mod_eq_of_lt (hlt.trans (by decide))
    have hin : ¬(u.body ++ units.flatMap InfoUnit.bytes).length < u.body.length := by
      rw [List.length_append]
      omega
    obtain ⟨visit, hvisit, hvisited⟩ := @visitUnit_body _ offset _ hu (hreg [] u units rfl (by simp))
    rw [visitUnits, List.flatMap_cons, if_neg hlong]
    simp only [readUnitLength_bytes hu, Option.bind_eq_bind, Option.bind_some, hlength, if_neg hin, List.take_left,
      List.drop_left, hvisit]
    obtain ⟨huses, dir, rfl, hdir⟩ | ⟨hnot, rfl⟩ := hvisited
    · exact ⟨dir, rfl, .inl ⟨[], u, units, rfl, by simp, huses, hdir⟩⟩
    · have hreg' : ∀ before u' after, units = before ++ u' :: after → (∀ b ∈ before, ¬b.Uses offset) →
          ∀ a ∈ u'.attributes, a.Regular u'.is64bitDwarf offset := by
        intro before u' after heq hbefore
        refine hreg (u :: before) u' after (by rw [heq]; rfl) ?_
        intro b hb
        cases List.mem_cons.mp hb with
        | inl hb => exact hb ▸ hnot
        | inr hb => exact hbefore b hb
      obtain ⟨dir, hrest, hor⟩ := ih (fun u' hu' => hwf u' (List.mem_cons_of_mem _ hu')) hreg'
        (Nat.lt_of_succ_lt_succ hsteps)
      refine ⟨dir, hrest, ?_⟩
      obtain ⟨before, u', after, heq, hbefore, huses, hdir⟩ | ⟨hnone, hdir⟩ := hor
      · refine .inl ⟨u :: before, u', after, by rw [heq]; rfl, ?_, huses, hdir⟩
        intro b hb
        cases List.mem_cons.mp hb with
        | inl hb => exact hb ▸ hnot
        | inr hb => exact hbefore b hb
      · refine .inr ⟨?_, hdir⟩
        intro b hb
        cases List.mem_cons.mp hb with
        | inl hb => exact hb ▸ hnot
        | inr hb => exact hnone b hb

theorem length_units {units : List InfoUnit} : units.length ≤ (units.flatMap InfoUnit.bytes).length := by
  induction units with
  | nil             => exact le_rfl
  | cons u units ih =>
    have hlt := @four_lt_length u
    rw [List.flatMap_cons, List.length_cons, List.length_append]
    omega

theorem findCompilationDirectory_units {units : List InfoUnit} (hinfo : sections.info = units.flatMap InfoUnit.bytes)
    (hwf : ∀ u ∈ units, u.WellFormed sections)
    (hreg : ∀ before u after, units = before ++ u :: after → (∀ b ∈ before, ¬b.Uses offset) →
      ∀ a ∈ u.attributes, a.Regular u.is64bitDwarf offset) :
    ∃ dir, findCompilationDirectory sections offset = some dir ∧
      ((∃ before u after, units = before ++ u :: after ∧ (∀ b ∈ before, ¬b.Uses offset) ∧ u.Uses offset ∧
          ∀ s, dir = some s ↔ u.Gives sections s) ∨
        (∀ u ∈ units, ¬u.Uses offset) ∧ dir = none) := by
  have hle := @length_units units
  rw [findCompilationDirectory, hinfo]
  exact visitUnits_bytes hwf hreg (by omega)

end Units

section Sharing

-- A number of one byte
def leb (g : BitVec 7) : Leb128 :=
  ⟨[], g⟩

def lineAttribute : Attribute :=
  ⟨⟨leb 0x10, leb 23, leb 0⟩, littleEndian 4 (0x20 : BitVec 64)⟩

def directoryAttribute : Attribute :=
  ⟨⟨leb 0x1b, leb 8, leb 0⟩, [97, 0]⟩

-- Two compile units that share a line program. The first one has no directory.
def bareEntry : Entry where
  before      := []
  code        := leb 1
  tag         := leb 0x11
  hasChildren := 0
  attributes  := [lineAttribute]
  after       := Declaration.bytes ⟨leb 2, leb 0x11, 0, [lineAttribute.spec, directoryAttribute.spec]⟩ ++ [0]
  children    := []

def namedEntry : Entry where
  before      := [bareEntry.declaration]
  code        := leb 2
  tag         := leb 0x11
  hasChildren := 0
  attributes  := [lineAttribute, directoryAttribute]
  after       := [0]
  children    := []

def compileUnitOf (e : Entry) : InfoUnit where
  is64bitDwarf := false
  version      := 4
  unitType     := DW_UT.compile
  addressSize  := 8
  abbrevOffset := 0
  dwoId        := []
  content      := .entry e

def sharingUnits : List InfoUnit :=
  [compileUnitOf bareEntry, compileUnitOf namedEntry]

def sharingSections : DebugSections where
  info    := sharingUnits.flatMap InfoUnit.bytes
  abbrev_ := bareEntry.table
  str     := []
  lineStr := []

theorem findCompilationDirectory_sharing : findCompilationDirectory sharingSections 0x20 = some none := by
  decide

theorem fits_leb (g : BitVec 7) : Fits (leb g) :=
  ⟨show 1 ≤ 10 by decide, g.isLt.trans (by decide)⟩

theorem isForm_line : lineAttribute.IsForm .sec_offset :=
  rfl

theorem isForm_directory : directoryAttribute.IsForm .string_ :=
  rfl

theorem spec_line : lineAttribute.spec.WellFormed :=
  ⟨fits_leb _, fits_leb _, by decide⟩

theorem spec_directory : directoryAttribute.spec.WellFormed :=
  ⟨fits_leb _, fits_leb _, by decide⟩

theorem encoded_line {f : DW_FORM} (h : lineAttribute.IsForm f) : Encoded false 8 f lineAttribute.value := by
  obtain rfl := (isForm_line).unique h
  exact .fixed rfl

theorem encoded_directory {f : DW_FORM} (h : directoryAttribute.IsForm f) : Encoded false 8 f directoryAttribute.value := by
  obtain rfl := (isForm_directory).unique h
  exact .string (s := [97]) (by decide)

theorem offset_line : lineAttribute.Offset false 0x20 :=
  ⟨.sec_offset, 4, isForm_line, List.mem_cons_self, by decide, rfl⟩

theorem regular_line : lineAttribute.Regular false 0x20 where
  form     := fun _ h => h
  stmtList := fun _ => .inl ⟨0x20, offset_line⟩
  compDir  := fun h => absurd h (by unfold Attribute.IsCompDir; decide)

theorem regular_directory : directoryAttribute.Regular false 0x20 where
  form     := fun _ h => h
  stmtList := fun h => absurd h (by unfold Attribute.IsStmtList; decide)
  compDir  := fun _ => ⟨.string_, isForm_directory, encoded_directory isForm_directory⟩

theorem declaration_bare : bareEntry.declaration.WellFormed where
  code    := fits_leb _
  notNull := by decide
  tag     := fits_leb _
  specs   := fun p hp => by
    obtain rfl := List.mem_singleton.mp hp
    exact spec_line

theorem entry_bare : bareEntry.WellFormed false 8 where
  before      := fun d hd => absurd hd List.not_mem_nil
  declaration := declaration_bare
  names       := List.nodup_singleton _
  values      := fun a ha f hf => by
    obtain rfl := List.mem_singleton.mp ha
    exact encoded_line hf

theorem mem_named {a : Attribute} (ha : a ∈ namedEntry.attributes) : a = lineAttribute ∨ a = directoryAttribute := by
  obtain h | h := List.mem_cons.mp ha
  · exact .inl h
  · exact .inr (List.mem_singleton.mp h)

theorem entry_named : namedEntry.WellFormed false 8 where
  before      := fun d hd => by
    obtain rfl := List.mem_singleton.mp hd
    exact ⟨declaration_bare, by decide⟩
  declaration := {
    code    := fits_leb _
    notNull := by decide
    tag     := fits_leb _
    specs   := fun p hp => by
      obtain ⟨a, ha, rfl⟩ := List.mem_map.mp hp
      obtain rfl | rfl := mem_named ha
      · exact spec_line
      · exact spec_directory
  }
  names       := by decide
  values      := fun a ha f hf => by
    obtain rfl | rfl := mem_named ha
    · exact encoded_line hf
    · exact encoded_directory hf

theorem wellFormed_sharing {u : InfoUnit} (hu : u ∈ sharingUnits) : u.WellFormed sharingSections := by
  obtain rfl | hu := List.mem_cons.mp hu
  · exact {
      length       := by decide
      version      := by decide
      unitType     := fun _ => rfl
      abbrevOffset := by decide
      dwoId        := by decide
      content      := ⟨by decide, entry_bare, rfl⟩
    }
  · obtain rfl := List.mem_singleton.mp hu
    exact {
      length       := by decide
      version      := by decide
      unitType     := fun _ => rfl
      abbrevOffset := by decide
      dwoId        := by decide
      content      := ⟨by decide, entry_named, by decide⟩
    }

theorem regular_sharing {u : InfoUnit} (hu : u ∈ sharingUnits) : ∀ a ∈ u.attributes, a.Regular u.is64bitDwarf 0x20 := by
  intro a ha
  obtain rfl | hu := List.mem_cons.mp hu
  · obtain rfl := List.mem_singleton.mp ha
    exact regular_line
  · obtain rfl := List.mem_singleton.mp hu
    obtain rfl | rfl := mem_named ha
    · exact regular_line
    · exact regular_directory

theorem findCompilationDirectory_bare : ∃ dir, findCompilationDirectory sharingSections 0x20 = some dir ∧
    ((∃ before u after, sharingUnits = before ++ u :: after ∧ (∀ b ∈ before, ¬b.Uses 0x20) ∧ u.Uses 0x20 ∧
        ∀ s, dir = some s ↔ u.Gives sharingSections s) ∨
      (∀ u ∈ sharingUnits, ¬u.Uses 0x20) ∧ dir = none) :=
  findCompilationDirectory_units rfl (fun _ hu => wellFormed_sharing hu) fun before _ _ heq _ =>
    regular_sharing (heq ▸ List.mem_append_right before List.mem_cons_self)

-- A unit that uses the line program is the one, even if only a later one gives a directory.
theorem not_first_with_directory : ¬∀ (sections : DebugSections) (units : List InfoUnit) (offset : BitVec 64),
    sections.info = units.flatMap InfoUnit.bytes → (∀ u ∈ units, u.WellFormed sections) →
    ∀ before u after s, units = before ++ u :: after → (∀ b ∈ before, ∀ t, ¬(b.Uses offset ∧ b.Gives sections t)) →
      u.Uses offset → u.Gives sections s → findCompilationDirectory sections offset = some (some s) := by
  intro hall
  have hbare (t : Str) : ¬(compileUnitOf bareEntry).Gives sharingSections t := by
    refine not_giveText fun a ha => ?_
    obtain rfl := List.mem_singleton.mp ha
    unfold Attribute.IsCompDir
    decide
  have hknown : ∀ b ∈ [lineAttribute], b.Known := by
    intro b hb
    obtain rfl := List.mem_singleton.mp hb
    exact ⟨.sec_offset, isForm_line⟩
  have huses : (compileUnitOf namedEntry).Uses 0x20 :=
    ⟨[], lineAttribute, [directoryAttribute], rfl, by simp, rfl, offset_line⟩
  have hgives : (compileUnitOf namedEntry).Gives sharingSections [97] :=
    ⟨[lineAttribute], directoryAttribute, [], rfl, hknown, rfl, .inline isForm_directory (by decide) rfl⟩
  have hfound := hall sharingSections sharingUnits 0x20 rfl (fun _ hu => wellFormed_sharing hu)
    [compileUnitOf bareEntry] (compileUnitOf namedEntry) [] [97] rfl
    (fun b hb t h => hbare t ((List.mem_singleton.mp hb) ▸ h.2)) huses hgives
  rw [findCompilationDirectory_sharing] at hfound
  cases hfound

end Sharing

end Runtime.Dwarf
