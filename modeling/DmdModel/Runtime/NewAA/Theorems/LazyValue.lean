import DmdModel.Runtime.NewAA.Theorems.Operations

namespace Runtime.NewAA

variable {K V : Type _} [BEq K] [Hashable K]

-- What a value expression can do with the array while it is evaluated.
inductive LazyOp (K V : Type _)
  | insert (key : K) (value : V)
  | delete (key : K) (inFinalizer : Bool)
  deriving DecidableEq, Repr

namespace LazyOp

def key : LazyOp K V → K
  | insert key _ | delete key _ => key

def run (a : AA K V) : LazyOp K V → Except AAError (AA K V)
  | insert key value       => do return (← _aaGetX a key (yields value)).2
  | delete key inFinalizer => do return (← _d_aaDel a key inFinalizer).2

def onMap (m : AssocMap K V) : LazyOp K V → AssocMap K V
  | insert key value => m.insertIfNew key value
  | delete key _     => m.erase key

end LazyOp

-- A value expression that performs the operations, and then yields a value or throws.
def evaluates (ops : List (LazyOp K V)) (result : Option V) : LazyValue K V :=
  fun a => do return (result, ← ops.foldlM LazyOp.run a)

-- The map that should be there afterwards.
def expected (m : AssocMap K V) (key : K) (ops : List (LazyOp K V)) : Option V → AssocMap K V
  | some v => (ops.foldl LazyOp.onMap m).insertIfNew key v
  | none   => ops.foldl LazyOp.onMap m

-- The array and the slot for the key at the moment when the value expression is evaluated.
def beforeValue (a : AA K V) (key : K) : Except AAError (Impl K V × Nat) := do
  slotForInsert (← a.elim (Impl.new INIT_NUM_BUCKETS) .ok) (calcHash key)

-- The operations of the value expression come to an end and neither replace the bucket array, nor
-- fill the slot for the key, nor leave it as the last empty bucket. If the expression throws, an
-- empty bucket has to be left.
def Undisturbed (a : AA K V) (key : K) (ops : List (LazyOp K V)) (result : Option V) : Prop :=
  ∃ t₁ pi t₂, beforeValue a key = .ok (t₁, pi) ∧ ops.foldlM LazyOp.run (some t₁) = .ok (some t₂) ∧
    match result with
    | some _ => t₂.generation = t₁.generation ∧ (bucketAt t₂.buckets pi).filled = false ∧
      t₂.usedAfter pi < t₂.dim
    | none => t₂.HasEmpty

variable [EquivBEq K] [LawfulHashable K] {key : K}

-- One operation keeps the array in line with the map, where it comes to an end.
theorem LazyOp.run_models {t : Impl K V} {m : AssocMap K V} (h : t.Models m) (op : LazyOp K V) :
    (op.run (some t)).Post (fun a => ∃ t', a = some t' ∧ t'.Models (op.onMap m) ∧ t.Later t')
      (fun _ => True) := by
  cases op with
  | insert key v =>
    have hs := (h.wf.aaGetX_spec key v).mono (fun _ h => h) fun _ _ => trivial
    exact hs.bind fun (r, a) ⟨t', ha, w, hr, hl, _⟩ => ⟨t', ha, (h.getResult w hr).1, hl⟩
  | delete key inFinalizer =>
    have hs := (h.wf.aaDel_spec key inFinalizer).mono (fun _ h => h) fun _ _ => trivial
    exact hs.bind fun (r, a) ⟨t', ha, w, hr, hl, _⟩ => ⟨t', ha, (h.delResult w hr).1, hl⟩

theorem LazyOp.foldlM_run_models {t : Impl K V} {m : AssocMap K V} (h : t.Models m)
    (ops : List (LazyOp K V)) :
    (ops.foldlM LazyOp.run (some t)).Post
      (fun a => ∃ t', a = some t' ∧ t'.Models (ops.foldl LazyOp.onMap m) ∧ t.Later t')
      (fun _ => True) := by
  induction ops generalizing t m
  case nil => exact ⟨t, rfl, h, .refl t⟩
  case cons op ops hi =>
    rw [List.foldlM_cons]
    refine (op.run_models h).bind fun a ⟨t₁, ha, h₁, hl₁⟩ => ?_
    rw [ha]
    exact (hi h₁).mono (fun a ⟨t₂, ha, h₂, hl₂⟩ => ⟨t₂, ha, h₂, hl₁.trans hl₂⟩) fun _ h => h

omit [LawfulHashable K] [EquivBEq K] [Hashable K] in
-- Operations on other keys leave the key absent.
theorem LazyOp.get?_foldl_onMap {m : AssocMap K V} {ops : List (LazyOp K V)}
    (h : m.get? key = none) (hk : ∀ op ∈ ops, (key == op.key) = false) :
    (ops.foldl LazyOp.onMap m).get? key = none := by
  induction ops generalizing m
  case nil => exact h
  case cons op ops hi =>
    have hop := hk op List.mem_cons_self
    refine hi ?_ fun op ho => hk op (List.mem_cons_of_mem _ ho)
    cases op with
    | insert => exact AssocMap.get?_insertIfNew_of_ne h hop
    | delete => exact AssocMap.get?_erase_of_none h

theorem beforeValue_spec {a : AA K V} {m : AssocMap K V} (h : Represents a m)
    (hk : m.get? key = none) :
    ∃ t pi, beforeValue a key = .ok (t, pi) ∧ t.Models m ∧ InsertSlot t key pi ∧
      ∀ v2, _aaGetX a key v2 = do
        match ← v2 (some t) with
        | (none, a) => return (.thrown, a)
        | (some _, none) => throw .nullImpl
        | (some v, some t') =>
          return (.inserted v, some (fillSlot t' t.generation pi (calcHash key) ⟨key, v⟩)) := by
  have ⟨t₀, h₀, hm, he, _⟩ := h.base
  have ha := hm.absent_iff.mpr hk
  have hs := hm.wf.slotForInsert_spec key
  cases hf : slotForInsert t₀ (calcHash key) with
  | error e => exact absurd he (hs.of_error hf).2
  | ok r =>
    have s : Impl.Slotted t₀ r.1 key r.2 := hs.of_ok hf
    refine ⟨r.1, r.2, ?_, hm.of_perm s.wf s.perm, s.slot, fun v2 => ?_⟩
    · rw [beforeValue, h₀]
      exact hf
    · have hl : findSlotLookup t₀.buckets (calcHash key) key = .ok none := by
        cases hm.wf.findSlotLookup_cases he key with
        | inr h => exact h.1
        | inl h =>
          have ⟨i, e, _, hi, hk⟩ := h
          have := ha e (mem_entries_iff.mpr ⟨i, hi⟩)
          simp [hk] at this
      rw [_aaGetX, h₀]
      show (findSlotLookup t₀.buckets (calcHash key) key >>= fun i => _) = _
      rw [hl]
      show (slotForInsert t₀ (calcHash key) >>= fun i => _) = _
      rw [hf]
      rfl

namespace Impl

variable {t₁ t₂ : Impl K V} {m : AssocMap K V} {pi : Nat} {v : V}

omit [BEq K] [Hashable K] [EquivBEq K] [LawfulHashable K] in
theorem fillSlot_buckets_of_ne {gen : Nat} {hash : UInt64} {e : Entry K V} (h : gen ≠ t₂.generation) :
    (fillSlot t₂ gen pi hash e).buckets = t₂.buckets := by
  rw [fillSlot, setArray, if_neg h]

omit [BEq K] [Hashable K] [EquivBEq K] [LawfulHashable K] in
theorem fillSlot_buckets {hash : UInt64} {e : Entry K V} :
    (fillSlot t₂ t₂.generation pi hash e).buckets = t₂.buckets.set pi ⟨hash, some e⟩ := by
  rw [fillSlot, setArray, if_pos rfl, array, if_pos rfl]

omit [EquivBEq K] [LawfulHashable K] in
-- The chosen slot can still take the key, unless the array was replaced or the slot was filled.
theorem Wf.insertSlot_later (w : t₂.Wf) (s : InsertSlot t₁ key pi) (hl : t₁.Later t₂)
    (hg : t₂.generation = t₁.generation) (hf : (bucketAt t₂.buckets pi).filled = false) :
    InsertSlot t₂ key pi where
  lt    := (hl.dim hg).symm ▸ s.lt
  free  := by simpa [(w.table.okAt pi).filled_eq] using hf
  reach := s.reach.mono (hl.dim hg) (hl.nonempty hg)

omit [EquivBEq K] [LawfulHashable K] in
-- With the entry in a replaced array, or in the place of another entry, the array has one entry less
-- than it should have.
theorem undisturbed_of_models (hm : t₂.Models m) (hk : m.get? key = none)
    (h : (fillSlot t₂ t₁.generation pi (calcHash key) ⟨key, v⟩).Models (m.insertIfNew key v)) :
    t₂.generation = t₁.generation ∧ (bucketAt t₂.buckets pi).filled = false := by
  have hc := h.perm.length_eq
  rw [AssocMap.insertIfNew_of_none hk, List.length_cons, ← hm.perm.length_eq, List.length_map,
    List.length_map] at hc
  have hg : t₂.generation = t₁.generation := by
    by_contra hn
    rw [fillSlot_buckets_of_ne (Ne.symm hn)] at hc
    omega
  refine ⟨hg, ?_⟩
  rw [← hg, fillSlot_buckets] at hc
  cases hb : (bucketAt t₂.buckets pi).filled with
  | false => rfl
  | true =>
    rw [(hm.wf.table.okAt pi).filled_eq, Option.isSome_iff_exists] at hb
    have ⟨e, he⟩ := hb
    have hp := @entries_set_perm K V t₂.buckets pi ⟨calcHash key, some ⟨key, v⟩⟩
      (lt_length_of_entry he)
    have hp := hp.length_eq
    rw [he] at hp
    simp at hp
    omega

end Impl

-- An insertion whose value expression inserts and deletes other keys of the array loses nothing if
-- and only if the expression does not disturb it.
theorem aaGetX_represents_iff_undisturbed {a : AA K V} {m : AssocMap K V} (h : Represents a m)
    (hk : m.get? key = none) {ops : List (LazyOp K V)} (ho : ∀ op ∈ ops, (key == op.key) = false)
    (result : Option V) :
    (∃ a', _aaGetX a key (evaluates ops result) = .ok (result.elim .thrown .inserted, a') ∧
      Represents a' (expected m key ops result)) ↔ Undisturbed a key ops result := by
  obtain ⟨t₁, pi, hb, hm₁, s, hx⟩ := beforeValue_spec h hk
  have hr := LazyOp.foldlM_run_models hm₁ ops
  have hk₂ := LazyOp.get?_foldl_onMap hk ho
  cases hf : ops.foldlM LazyOp.run (some t₁) with
  | error e =>
    constructor
    case mp =>
      rintro ⟨a', he, _⟩
      rw [hx, evaluates, hf] at he
      cases he
    case mpr =>
      rintro ⟨t, pi', t', hb', hf', _⟩
      rw [hb] at hb'
      cases hb'
      rw [hf] at hf'
      cases hf'
  | ok a₂ =>
    obtain ⟨t₂, ha, hm₂, hl⟩ := hr.of_ok hf
    subst ha
    have hu : Undisturbed a key ops result ↔
        match result with
        | some _ => t₂.generation = t₁.generation ∧ (bucketAt t₂.buckets pi).filled = false ∧
          t₂.usedAfter pi < t₂.dim
        | none => t₂.HasEmpty := by
      constructor
      case mp =>
        rintro ⟨t, pi', t', hb', hf', hu⟩
        rw [hb] at hb'
        cases hb'
        rw [hf] at hf'
        cases hf'
        exact hu
      case mpr => exact fun hu => ⟨t₁, pi, t₂, hb, hf, hu⟩
    rw [hu, hx, evaluates, hf]
    cases result with
    | none =>
      constructor
      case mp =>
        rintro ⟨a', he, hr⟩
        cases he
        cases hr with
        | impl _ he => exact he
      case mpr => exact fun he => ⟨_, rfl, .impl hm₂ he⟩
    | some v =>
      constructor
      case mp =>
        rintro ⟨a', he, hr⟩
        cases he
        cases hr with
        | impl hm he =>
          obtain ⟨hg, hfill⟩ := Impl.undisturbed_of_models hm₂ hk₂ hm
          have ha := hm₂.absent_iff.mpr hk₂
          have f := hm₂.wf.fillSlot_spec (hm₂.wf.insertSlot_later s hl hg hfill) ha v
          rw [← hg, Impl.HasEmpty, f.used, f.dim] at he
          exact ⟨hg, hfill, he⟩
      case mpr =>
        rintro ⟨hg, hfill, he⟩
        have ha := hm₂.absent_iff.mpr hk₂
        have f := hm₂.wf.fillSlot_spec (hm₂.wf.insertSlot_later s hl hg hfill) ha v
        rw [hg] at f
        exact ⟨_, rfl, .impl (hm₂.insertIfNew f.wf ha f.perm) (f.hasEmpty he)⟩

theorem aaGetX_represents_insert :
    ∃ a', _aaGetX (none : AA UInt64 Nat) 0 (evaluates [.insert 1 10] (some 20)) =
      .ok (.inserted 20, a') ∧ Represents a' (expected ∅ 0 [.insert 1 10] (some 20)) := by
  refine (aaGetX_represents_iff_undisturbed .null rfl (by decide) (some 20)).mpr ?_
  exact ⟨_, _, _, rfl, rfl, rfl, rfl, by decide⟩

-- The keys 0 and 6 have the same slot in an array with 8 buckets, so the entry of 6 that the value
-- expression inserts is overwritten.
theorem aaGetX_loses_entry :
    ¬∀ (a : AA UInt64 Nat) (m : AssocMap UInt64 Nat) (key : UInt64) (ops : List (LazyOp UInt64 Nat))
      (result : Option Nat), Represents a m → m.get? key = none →
      (∀ op ∈ ops, (key == op.key) = false) →
      ∃ a', _aaGetX a key (evaluates ops result) = .ok (result.elim .thrown .inserted, a') ∧
        Represents a' (expected m key ops result) := by
  intro h
  have ⟨a', he, hr⟩ := h none ∅ 0 [.insert 6 10] (some 20) .null rfl (by decide)
  cases he
  cases hr with
  | impl hm _ => exact absurd hm.perm.length_eq (by decide)

end Runtime.NewAA
