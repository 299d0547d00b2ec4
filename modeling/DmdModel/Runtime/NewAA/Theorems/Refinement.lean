import DmdModel.Runtime.NewAA.Theorems.Copies

namespace Runtime.NewAA

variable {K V : Type _} [BEq K] [Hashable K]

-- The entries that a range loop sees.
inductive Visits : AARange K V → List (Entry K V) → Prop
  | done {r : AARange K V} (empty : r.empty) : Visits r []
  | step {r : AARange K V} {e : Entry K V} {es : List (Entry K V)} (nonempty : r.empty = false)
      (front : r.front = some e) (next : Visits r.popFront es) : Visits r (e :: es)

namespace Impl.Wf

variable {t : Impl K V}

theorem liveEntries_eq (w : t.Wf) : liveEntries t = entries t.buckets := by
  rw [← w.entries_drop, liveEntries, entries]
  refine List.filterMap_congr fun b hb => ?_
  rw [(w.ok_of_mem_drop b hb).filled_eq]
  cases b.entry <;> rfl

theorem visits_drop (w : t.Wf) (bs : List (Bucket K V)) (i : Nat) (h : t.buckets.drop i = bs) :
    Visits ⟨some t, nextFilled bs i⟩ (entries bs) := by
  induction bs generalizing i
  case nil =>
    have hi : t.dim ≤ i := List.drop_eq_nil_iff.mp h
    exact .done (by simp [AARange.empty, AARange.dim, nextFilled, hi])
  case cons b bs hi =>
    have hlt : i < t.buckets.length := by
      by_contra hn
      rw [List.drop_eq_nil_of_le (Nat.le_of_not_lt hn)] at h
      cases h
    rw [List.drop_eq_getElem_cons hlt] at h
    have ⟨hb, hbs⟩ := List.cons.inj h
    have hok : b.Ok := hb ▸ w.table.ok _ (List.getElem_mem hlt)
    have hi := hi (i + 1) hbs
    rw [nextFilled, hok.filled_eq]
    cases he : b.entry with
    | none =>
      have hc : entries (b :: bs) = entries bs := List.filterMap_cons_none he
      rw [hc]
      exact hi
    | some e =>
      have hc : entries (b :: bs) = e :: entries bs := List.filterMap_cons_some he
      have hle : ¬t.dim ≤ i := Nat.not_le.mpr hlt
      have hfront : (bucketAt t.buckets i).entry = some e := by
        rw [bucketAt_eq_getElem hlt, hb, he]
      have hnext : AARange.popFront ⟨some t, i⟩ = ⟨some t, nextFilled bs (i + 1)⟩ := by
        simp [AARange.popFront, AARange.dim, hle, hbs]
      rw [hc]
      exact .step (by simp [AARange.empty, AARange.dim, hle]) hfront (hnext ▸ hi)

theorem visits (w : t.Wf) : Visits (_aaRange (some t)) (entries t.buckets) :=
  w.entries_drop ▸ w.visits_drop _ _ rfl

-- An array of length zero has no live entries, so the shortcut for it changes nothing.
theorem ite_empty (w : t.Wf) {α : Type _} (f : List (Entry K V) → List α) (hf : f [] = []) :
    (if AA.empty (some t) then [] else f (entries t.buckets)) = f (entries t.buckets) := by
  split
  case isFalse => rfl
  case isTrue h =>
    have hl := AA.empty_some_iff.mp h
    have hn : entries t.buckets = [] := List.eq_nil_of_length_eq_zero (w.length_eq ▸ hl)
    rw [hn, hf]

theorem aaKeys_eq (w : t.Wf) : _aaKeys (some t) = (entries t.buckets).map (·.key) := by
  rw [_aaKeys, Option.elim_some, w.liveEntries_eq]
  exact w.ite_empty (·.map (·.key)) rfl

theorem aaValues_eq (w : t.Wf) : _aaValues (some t) = (entries t.buckets).map (·.value) := by
  rw [_aaValues, Option.elim_some, w.liveEntries_eq]
  exact w.ite_empty (·.map (·.value)) rfl

theorem aaApply2_eq (w : t.Wf) : _d_aaApply2 (some t) = entries t.buckets := by
  have he : (t.buckets.filterMap fun b => if b.filled then b.entry else none) =
      entries t.buckets := by
    refine List.filterMap_congr fun b hb => ?_
    rw [(w.table.ok b hb).filled_eq]
    cases b.entry <;> rfl
  rw [_d_aaApply2, Option.elim_some, he]
  exact w.ite_empty id rfl

-- At least one bucket is truly empty.
theorem exists_empty (w : t.Wf) (he : t.HasEmpty) : ∃ i < t.dim, (bucketAt t.buckets i).empty := by
  by_contra hn
  refine w.not_hasEmpty (fun i hi => ?_) he
  by_contra hb
  exact hn ⟨i, hi, by simpa using hb⟩

end Impl.Wf

-- All that can be asked of an array, in terms of the map.
structure Agrees (a : AA K V) (m : AssocMap K V) : Prop where
  lookup : ∀ key, _d_aaIn a key = .ok (m.get? key)
  length : a.length = m.size
  keys   : (_aaKeys a).Perm m.keys
  values : (_aaValues a).Perm m.values
  apply  : ((_d_aaApply2 a).map Entry.pair).Perm m.toList
  range  : ∃ es, Visits (_aaRange a) es ∧ (es.map Entry.pair).Perm m.toList

-- All probe loops end: some bucket is truly empty, and the probes of every hash visit all buckets.
structure Probes (t : Impl K V) : Prop where
  exists_empty   : ∃ i < t.dim, (bucketAt t.buckets i).empty
  visits         : ∀ hash, ∀ i < t.dim, ∃ n < t.dim, slot t.buckets hash n = i
  findSlotLookup : ∀ key, ∃ r, findSlotLookup t.buckets (calcHash key) key = .ok r
  findSlotInsert : ∀ key : K, ∃ i, findSlotInsert t.buckets (calcHash key) = .ok i

section

variable [EquivBEq K]

theorem Impl.Wf.probes [LawfulHashable K] {t : Impl K V} (w : t.Wf) (he : t.HasEmpty) : Probes t where
  exists_empty := w.exists_empty he
  visits hash i hi := by
    have ⟨_, h⟩ := w.table.size
    exact slot_surjective h hash hi
  findSlotLookup key := by
    have h := (w.findSlotLookup_spec key).mono (fun _ h => h) fun _ h => h.2 he
    have ⟨r, hr, _⟩ := h.exists_ok
    exact ⟨r, hr⟩
  findSlotInsert key := by
    have h := (w.findSlotInsert_spec key).mono (fun _ h => h) fun _ h => h.2 he
    have ⟨i, hi, _⟩ := h.exists_ok
    exact ⟨i, hi⟩

namespace Represents

variable {a : AA K V} {m : AssocMap K V}

theorem aaIn [LawfulHashable K] (h : Represents a m) (key : K) :
    _d_aaIn a key = .ok (m.get? key) := by
  cases h with
  | null => rfl
  | @impl t _ hm he =>
    rw [_d_aaIn]
    by_cases h0 : t.length = 0
    case pos =>
      have ha : Absent t.buckets key := hm.wf.absent_of_length_eq_zero h0
      have hn := hm.absent_iff.mp ha
      rw [if_pos (AA.empty_some_iff.mpr h0), hn]
      rfl
    case neg =>
      rw [if_neg (mt AA.empty_some_iff.mp h0)]
      cases hm.wf.findSlotLookup_cases he key with
      | inl hs =>
        have ⟨i, e, hf, hi, hk⟩ := hs
        rw [hf, hm.get?_of_mem (mem_entries_iff.mpr ⟨i, hi⟩) hk]
        simp [hi]
      | inr hn =>
        rw [hn.1, hm.absent_iff.mp hn.2]
        rfl

theorem agrees [LawfulHashable K] (h : Represents a m) : Agrees a m := by
  constructor
  case lookup => exact h.aaIn
  case length => exact h.length_eq
  case keys =>
    cases h with
    | null => exact .nil
    | impl hm _ =>
      rw [hm.wf.aaKeys_eq]
      simpa [AssocMap.keys, Entry.pair, Function.comp_def] using hm.perm.map (·.1)
  case values =>
    cases h with
    | null => exact .nil
    | impl hm _ =>
      rw [hm.wf.aaValues_eq]
      simpa [AssocMap.values, Entry.pair, Function.comp_def] using hm.perm.map (·.2)
  case apply =>
    cases h with
    | null => exact .nil
    | impl hm _ => exact hm.wf.aaApply2_eq ▸ hm.perm
  case range =>
    cases h with
    | null => exact ⟨[], .done rfl, .nil⟩
    | impl hm _ => exact ⟨_, hm.wf.visits, hm.perm⟩

variable [LawfulHashable K]

theorem probes (h : Represents a m) : ∀ t ∈ a, Probes t := by
  cases h with
  | null => exact fun _ ht => by cases ht
  | impl hm he =>
    intro t ht
    cases ht
    exact hm.wf.probes he

variable [BEq V] {a₁ a₂ : AA K V} {m₁ m₂ : AssocMap K V}

-- The comparison loop checks every entry of the first array against the second one.
theorem equalLoop_spec {t₂ : Impl K V} (h₂ : t₂.Models m₂) (he : t₂.HasEmpty) (sameHash : Bool)
    (bs : List (Bucket K V)) (hok : ∀ b ∈ bs, b.Ok) :
    ∃ r, equalLoop t₂ sameHash bs = .ok r ∧
      (r = true ↔ ∀ e ∈ entries bs, ∃ v, m₂.get? e.key = some v ∧ e.value == v) := by
  induction bs
  case nil => exact ⟨true, rfl, by simp [entries]⟩
  case cons b bs hi =>
    obtain ⟨r, hr, hiff⟩ := hi fun b hb => hok b (List.mem_cons_of_mem _ hb)
    have hb := hok b List.mem_cons_self
    rw [equalLoop, hb.filled_eq]
    cases hbe : b.entry with
    | none =>
      have hc : entries (b :: bs) = entries bs := List.filterMap_cons_none hbe
      exact ⟨r, hr, hc ▸ hiff⟩
    | some e =>
      have hc : entries (b :: bs) = e :: entries bs := List.filterMap_cons_some hbe
      have hh : (if sameHash then b.hash else calcHash e.key) = calcHash e.key := by
        rw [hb.eq_filled hbe, ite_self]
      rw [hc, List.forall_mem_cons]
      simp only [Option.isSome_some, hh]
      cases h₂.wf.findSlotLookup_cases he e.key with
      | inr hn =>
        rw [hn.1, h₂.absent_iff.mp hn.2]
        exact ⟨false, rfl, by simp⟩
      | inl hs =>
        obtain ⟨i, e₂, hf, hi, hk⟩ := hs
        rw [hf, h₂.get?_of_mem (mem_entries_iff.mpr ⟨i, hi⟩) hk]
        by_cases hv : e.value == e₂.value
        case pos => exact ⟨r, by simp [bind, Except.bind, hi, hv, hr], by simp [hv, hiff]⟩
        case neg => exact ⟨false, by simp [bind, Except.bind, pure, Except.pure, hi, hv], by simp [hv]⟩

-- Two references to one array are equal; two arrays are equal if and only if their maps are.
theorem aaEqual (h₁ : Represents a₁ m₁) (h₂ : Represents a₂ m₂) (isSame sameHash : Bool) :
    ∃ r, _aaEqual isSame sameHash a₁ a₂ = .ok r ∧ (r = true ↔ isSame = true ∨ m₁.Equal m₂) := by
  have hl₁ := h₁.length_eq
  have hl₂ := h₂.length_eq
  by_cases hs : isSame = true
  case pos => exact ⟨true, by simp [_aaEqual, hs], by simp [hs]⟩
  by_cases hs' : m₁.size = m₂.size
  case neg =>
    have hne : ¬m₁.Equal m₂ := fun he => hs' (Nat.le_antisymm he.size_le.1 he.size_le.2)
    exact ⟨false, by simp [_aaEqual, hs, hl₁, hl₂, hs'], by simp [hs, hne]⟩
  rw [AssocMap.equal_iff hs']
  by_cases h0 : m₁.size = 0
  case pos =>
    have hn : m₁.toList = [] := List.eq_nil_of_length_eq_zero h0
    have h0' : m₂.size = 0 := hs' ▸ h0
    exact ⟨true, by simp [_aaEqual, hs, hl₁, hl₂, h0, h0'], by simp [hn]⟩
  case neg =>
    cases h₁ with
    | null => exact absurd rfl h0
    | @impl t₁ _ hm₁ _ =>
      cases h₂ with
      | null => exact absurd hs' h0
      | @impl t₂ _ hm₂ he₂ =>
        have ⟨r, hr, hiff⟩ := equalLoop_spec hm₂ he₂ sameHash _ hm₁.wf.ok_of_mem_drop
        have h0' : ¬m₂.size = 0 := hs' ▸ h0
        refine ⟨r, by simp [_aaEqual, hs, hl₁, hl₂, hs', h0', hr], ?_⟩
        rw [hiff, hm₁.wf.entries_drop]
        simp only [hs, Bool.false_eq_true, false_or, hm₁.mem_iff, forall_exists_index, and_imp, forall_apply_eq_imp_iff₂]
        rfl

end Represents
end

-- An operation of a run.
inductive Op (K V : Type _)
  | getX (key : K) (value : V)
  | del (key : K) (inFinalizer : Bool)
  | clear
  | rehash
  | dup (sameHash : Bool)
  | lookup (key : K)
  deriving DecidableEq, Repr

-- What an operation returns.
inductive Out (V : Type _)
  | got (r : GetX V)
  | deleted (r : Bool)
  | found (value : Option V)
  | unit
  deriving DecidableEq, Repr

namespace Op

def run (a : AA K V) : Op K V → Except AAError (Out V × AA K V)
  | getX key value      => do let (r, a) ← _aaGetX a key (yields value); return (.got r, a)
  | del key inFinalizer => do let (r, a) ← _d_aaDel a key inFinalizer; return (.deleted r, a)
  | clear               => return (.unit, _aaClear a)
  | rehash              => do return (.unit, ← _aaRehash a)
  | dup sameHash        => do return (.unit, ← _aaDup a sameHash)
  | lookup key          => do return (.found (← _d_aaIn a key), a)

def runs (a : AA K V) : List (Op K V) → Except AAError (List (Out V) × AA K V)
  | []        => return ([], a)
  | op :: ops => do
    let (out, a) ← op.run a
    let (outs, a) ← runs a ops
    return (out :: outs, a)

def onMap (m : AssocMap K V) : Op K V → Out V × AssocMap K V
  | getX key value => (.got ((m.get? key).elim (.inserted value) .found), m.insertIfNew key value)
  | del key _      => (.deleted (m.get? key).isSome, m.erase key)
  | clear          => (.unit, ∅)
  | rehash         => (.unit, m)
  | dup _          => (.unit, m)
  | lookup key     => (.found (m.get? key), m)

def onMaps (m : AssocMap K V) : List (Op K V) → List (Out V) × AssocMap K V
  | []        => ([], m)
  | op :: ops =>
    let (out, m) := op.onMap m
    let (outs, m) := onMaps m ops
    (out :: outs, m)

-- The insertion of the key would take the last empty bucket.
def fillsLast (a : AA K V) (key : K) : Bool :=
  a.any fun t => match findSlotLookup t.buckets (calcHash key) key with
    | .ok none => t.fillsLast (calcHash key)
    | _        => false

-- An insertion leaves an empty bucket, and a rehash does not ask for more than 2^30 buckets.
def Fits (a : AA K V) : Op K V → Prop
  | getX key _ => fillsLast a key = false
  | rehash     => a.length ≤ maxFit
  | _          => True

def AllFit (a : AA K V) : List (Op K V) → Prop
  | []        => True
  | op :: ops => op.Fits a ∧ ∀ out a', op.run a = .ok (out, a') → AllFit a' ops

end Op

-- A run starts with null or with a literal.
def begin (es : Option (List (Entry K V))) : Except AAError (AA K V) :=
  es.elim (.ok none) _d_assocarrayliteralTX

def beginMap (es : Option (List (Entry K V))) : AssocMap K V :=
  es.elim ∅ fun es => .ofList (es.map Entry.pair)

section

variable [EquivBEq K] [LawfulHashable K] {a : AA K V} {m : AssocMap K V}

theorem Represents.getX (h : Represents a m) {key : K} (v : V) (hf : Op.fillsLast a key = false) :
    ∃ a', _aaGetX a key (yields v) = .ok ((m.get? key).elim (.inserted v) .found, a') ∧
      Represents a' (m.insertIfNew key v) := by
  obtain ⟨t, ht, hm, he, hbase⟩ := h.base
  have hx : _aaGetX a key (yields v) = _aaGetX (some t) key (yields v) := by
    rw [_aaGetX, _aaGetX, ht]
    rfl
  have hl (ha : Absent t.buckets key) : t.fillsLast (calcHash key) = false := by
    cases hbase with
    | inl hs =>
      cases hm.wf.findSlotLookup_cases he key with
      | inl hs =>
        obtain ⟨i, e, _, hi, hk⟩ := hs
        have := ha e (mem_entries_iff.mpr ⟨i, hi⟩)
        simp [hk] at this
      | inr hn => simpa [Op.fillsLast, hs, hn.1] using hf
    | inr hn =>
      rw [hn.2, Impl.fillsLast]
      split
      case h_1 => exact Bool.and_false _
      case h_2 => rfl
  have hs := (hm.wf.aaGetX_spec key v).mono (fun _ h => h) fun _ h => h.2 he
  obtain ⟨⟨r, a'⟩, hr, t', ha, w, hg, _, hemp⟩ := hs.exists_ok
  obtain ⟨hm', he'⟩ := hm.getResult w hg
  refine ⟨some t', ?_, .impl hm' ?_⟩
  · rw [hx, hr, he', ha]
  · cases hg with
    | found => exact he
    | inserted hab => exact hemp he hab (hl hab)

theorem Represents.del (h : Represents a m) (key : K) (inFinalizer : Bool) :
    ∃ a', _d_aaDel a key inFinalizer = .ok ((m.get? key).isSome, a') ∧
      Represents a' (m.erase key) := by
  cases h with
  | null => exact ⟨none, rfl, .null⟩
  | impl hm he =>
    have hs := (hm.wf.aaDel_spec key inFinalizer).mono (fun _ h => h) fun _ h => h.2 he
    have ⟨(r, a'), hr, t', ha, w, hd, _, he'⟩ := hs.exists_ok
    have ⟨hm', hr'⟩ := hm.delResult w hd
    exact ⟨some t', by rw [hr, hr', ha], .impl hm' (he' he)⟩

omit [EquivBEq K] [LawfulHashable K] in
theorem Represents.clear (h : Represents a m) : Represents (_aaClear a) ∅ := by
  cases h with
  | null => exact .null
  | @impl t _ hm he =>
    rw [_aaClear]
    split
    case isTrue h0 =>
      have hl := AA.empty_some_iff.mp h0
      exact eq_empty_of_size (hm.length_eq ▸ hl) ▸ .impl hm he
    case isFalse =>
      have ⟨hw, he', hn⟩ := hm.wf.clear_spec
      exact .impl ⟨hw, by rw [hn]; exact .nil⟩ he'

-- One operation of a run.
theorem Represents.run (h : Represents a m) {op : Op K V} (hf : op.Fits a) :
    ∃ a', op.run a = .ok ((op.onMap m).1, a') ∧ Represents a' (op.onMap m).2 := by
  cases op with
  | getX key v =>
    have ⟨a', hr, h'⟩ := h.getX v hf
    exact ⟨a', by rw [Op.run, hr]; rfl, h'⟩
  | del key inFinalizer =>
    have ⟨a', hr, h'⟩ := h.del key inFinalizer
    exact ⟨a', by rw [Op.run, hr]; rfl, h'⟩
  | clear => exact ⟨_, rfl, h.clear⟩
  | rehash =>
    have ⟨a', hr, h'⟩ := h.aaRehash (h.length_eq ▸ hf)
    exact ⟨a', by rw [Op.run, hr]; rfl, h'⟩
  | dup sameHash =>
    have ⟨a', hr, h'⟩ := h.aaDup sameHash
    exact ⟨a', by rw [Op.run, hr]; rfl, h'⟩
  | lookup key => exact ⟨a, by rw [Op.run, h.aaIn]; rfl, h⟩

theorem Represents.runs (h : Represents a m) {ops : List (Op K V)} (hf : Op.AllFit a ops) :
    ∃ a', Op.runs a ops = .ok ((Op.onMaps m ops).1, a') ∧ Represents a' (Op.onMaps m ops).2 := by
  induction ops generalizing a m
  case nil => exact ⟨a, rfl, h⟩
  case cons op ops hi =>
    have ⟨a₁, hr₁, h₁⟩ := h.run hf.1
    have ⟨a₂, hr₂, h₂⟩ := hi h₁ (hf.2 _ _ hr₁)
    refine ⟨a₂, ?_, h₂⟩
    rw [Op.runs, hr₁]
    simp only [bind, Except.bind, hr₂]
    rfl

theorem Represents.begin {es : Option (List (Entry K V))} (hn : ∀ l ∈ es, l.length ≤ maxFit) :
    ∃ a, NewAA.begin es = .ok a ∧ Represents a (beginMap es) := by
  cases es with
  | none => exact ⟨none, rfl, .null⟩
  | some es => exact Represents.aaLiteral (hn es rfl)

end

def runFrom (es : Option (List (Entry K V))) (ops : List (Op K V)) :
    Except AAError (List (Out V) × AA K V) := do
  Op.runs (← begin es) ops

def mapFrom (es : Option (List (Entry K V))) (ops : List (Op K V)) : List (Out V) × AssocMap K V :=
  Op.onMaps (beginMap es) ops

-- No step of the run overflows the sizes that the array can count with.
def FitRun (es : Option (List (Entry K V))) (ops : List (Op K V)) : Prop :=
  (∀ l ∈ es, l.length ≤ maxFit) ∧ ∀ a, begin es = .ok a → Op.AllFit a ops

section

variable [EquivBEq K] [LawfulHashable K] {es : Option (List (Entry K V))} {ops : List (Op K V)}

theorem Represents.runFrom (h : FitRun es ops) :
    ∃ a, NewAA.runFrom es ops = .ok ((mapFrom es ops).1, a) ∧ Represents a (mapFrom es ops).2 := by
  have ⟨a₀, hb, h₀⟩ := Represents.begin h.1
  have ⟨a, hr, ha⟩ := h₀.runs (h.2 a₀ hb)
  exact ⟨a, by rw [NewAA.runFrom, hb]; exact hr, ha⟩

-- The array refines a finite map.
theorem runFrom_refines_map [BEq V] (h : FitRun es ops) :
    ∃ a, runFrom es ops = .ok ((mapFrom es ops).1, a) ∧
      Agrees a (mapFrom es ops).2 ∧ (∀ t ∈ a, Probes t) ∧
      ∀ es' ops' outs' a', FitRun es' ops' → runFrom es' ops' = .ok (outs', a') →
        ∀ isSame sameHash, ∃ r, _aaEqual isSame sameHash a a' = .ok r ∧
          (r = true ↔ isSame = true ∨ (mapFrom es ops).2.Equal (mapFrom es' ops').2) := by
  have ⟨a, hr, ha⟩ := Represents.runFrom h
  refine ⟨a, hr, ha.agrees, ha.probes, fun es' ops' outs' a' h' hr' isSame sameHash => ?_⟩
  have ⟨a'', hr'', ha'⟩ := Represents.runFrom h'
  rw [hr'] at hr''
  cases hr''
  exact ha.aaEqual ha' isSame sameHash

end

theorem runFrom_refines_map_small :
    ∃ a, runFrom (some [⟨1, 10⟩, ⟨2, 20⟩]) [.getX 3 30, .del 1 false, .rehash] =
      .ok ([.got (.inserted 30), .deleted true, .unit], (a : AA UInt64 Nat)) := by
  have hfit : FitRun (some [⟨1, 10⟩, ⟨2, 20⟩])
      ([.getX 3 30, .del 1 false, .rehash] : List (Op UInt64 Nat)) := by
    refine ⟨fun l hl => ?_, fun a h => ?_⟩
    · cases hl
      decide
    · cases h
      refine ⟨rfl, fun out a h => ?_⟩
      cases h
      refine ⟨trivial, fun out a h => ?_⟩
      cases h
      refine ⟨?_, fun _ _ _ => trivial⟩
      show AA.length _ ≤ maxFit
      decide
  have ⟨a, hr, _⟩ := runFrom_refines_map hfit
  exact ⟨a, hr⟩

-- A literal with that many keys asks for 2^31 buckets, and the `int` expression `1 << 31` is
-- negative.
theorem runFrom_literal_outOfMemory :
    ¬∀ (es : Option (List (Entry UInt64 Nat))) (ops : List (Op UInt64 Nat)),
      ∃ outs a, runFrom es ops = .ok (outs, a) := by
  intro h
  let es : List (Entry UInt64 Nat) := (List.range 483183822).map fun i => ⟨i.toUInt64, i⟩
  have hlen : es.length = 483183822 := by simp only [es, List.length_map, List.length_range]
  have hnew : (Impl.new (nextpow2 (INIT_DEN * 483183822 / INIT_NUM)) :
      Except AAError (Impl UInt64 Nat)) = .error .outOfMemory := rfl
  have he : _d_assocarrayliteralTX es = .error .outOfMemory := by
    rw [_d_assocarrayliteralTX, hlen, if_neg (by decide), hnew]
    rfl
  obtain ⟨outs, a, hr⟩ := h (some es) []
  rw [runFrom, begin, Option.elim_some, he] at hr
  cases hr

end Runtime.NewAA
