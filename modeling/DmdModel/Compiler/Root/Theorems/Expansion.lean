import DmdModel.Compiler.Root.Theorems.Response

-- What is expanded of the arguments that refer to responses.

namespace Compiler.Root.Response

open Runtime.Utf

variable {env : Environment} {a b name buffer : Str} {args as bs rs : List Str} {recurse : Bool} {i j k n fuel : Nat}

section expansion

-- The arguments of a response, and whether the function finds that there are more
def arguments (buffer : Str) : List Str :=
  (lex buffer false none).1

def found (buffer : Str) : Bool :=
  (lex buffer false none).2

-- The names that have to be resolved
inductive Referenced (env : Environment) (args : List Str) : Str → Prop
  | given {a name : Str} : a ∈ args → reference a = some name → Referenced env args name
  | inside {a name name' buffer : Str} :
    Referenced env args name → env.lookup name = some buffer → a ∈ arguments buffer → reference a = some name' →
    Referenced env args name'

-- Every argument is expanded by its own text, and the results are put together.
inductive ExpandsAll (env : Environment) : List Str → List Str → Prop
  | nil : ExpandsAll env [] []
  | plain {a : Str} {as rs : List Str} : reference a = none → ExpandsAll env as rs → ExpandsAll env (a :: as) (a :: rs)
  | response {a name buffer : Str} {as rs ss : List Str} :
    reference a = some name → env.lookup name = some buffer → ExpandsAll env (arguments buffer) rs →
    ExpandsAll env as ss → ExpandsAll env (a :: as) (rs ++ ss)

-- The relation between the response names
def Refers (env : Environment) (name' name : Str) : Prop :=
  ∃ buffer a, env.lookup name = some buffer ∧ a ∈ arguments buffer ∧ reference a = some name'

def Acyclic (env : Environment) : Prop :=
  ∀ name, ¬ Relation.TransGen (Refers env) name name

end expansion

section rounds

variable (env)

-- The arguments in place of an argument
def expandOne (a : Str) : List Str :=
  match reference a with
  | none      => [a]
  | some name => ((env.lookup name).map arguments).getD []

-- The arguments after some rounds
def level (args : List Str) : Nat → List Str
  | 0     => args
  | k + 1 => (level args k).flatMap (expandOne env)

def Resolves (args : List Str) : Prop :=
  ∀ a ∈ args, ∀ name, reference a = some name → env.lookup name ≠ none

-- Some response of the round has an argument that begins with @ where it is written.
def Found (args : List Str) : Prop :=
  ∃ a ∈ args, ∃ name buffer, reference a = some name ∧ env.lookup name = some buffer ∧ found buffer = true

end rounds

def Free (args : List Str) : Prop :=
  ∀ a ∈ args, reference a = none

section levels

theorem expandOne_plain (h : reference a = none) : expandOne env a = [a] := by
  rw [expandOne, h]

theorem expandOne_response (h : reference a = some name) (hl : env.lookup name = some buffer) :
    expandOne env a = arguments buffer := by
  rw [expandOne, h]
  simp only [hl, Option.map_some, Option.getD_some]

theorem level_free (h : Free args) (k : Nat) : level env args k = args := by
  induction k
  case zero => rfl
  case succ k ih =>
    rw [level, ih]
    have hone : ∀ a ∈ args, expandOne env a = [a] := fun a ha => expandOne_plain (h a ha)
    exact (List.flatMap_congr hone).trans (List.flatMap_singleton' args)

theorem level_add (args : List Str) (j k : Nat) : level env args (j + k) = level env (level env args j) k := by
  induction k
  case zero => rfl
  case succ k ih => rw [← Nat.add_assoc, level, ih, level]

theorem level_eq_flatMap (args : List Str) (k : Nat) : level env args k = args.flatMap fun a => level env [a] k := by
  induction k
  case zero => exact (List.flatMap_singleton' args).symm
  case succ k ih =>
    rw [level, ih, List.flatMap_assoc]
    rfl

theorem mem_level : b ∈ level env args k ↔ ∃ a ∈ args, b ∈ level env [a] k := by
  rw [level_eq_flatMap, List.mem_flatMap]

theorem Free.later (h : Free (level env args j)) (hjk : j ≤ k) : level env args k = level env args j := by
  obtain ⟨d, rfl⟩ := Nat.exists_eq_add_of_le hjk
  rw [level_add, level_free h]

theorem Free.resolves (h : Free args) : Resolves env args := by
  intro a ha name hname
  rw [h a ha] at hname
  cases hname

theorem Free.not_found (h : Free args) : ¬ Found env args := by
  rintro ⟨a, ha, name, buffer, hname, -, -⟩
  rw [h a ha] at hname
  cases hname

end levels

section acyclic

-- The names that responses have in them are finitely many.
theorem finite_names (env : Environment) : {name | ∃ name', Refers env name name'}.Finite := by
  have hbuffer (b : Option Str) : {name | ∃ buffer a, b = some buffer ∧ a ∈ arguments buffer ∧ reference a = some name}.Finite := by
    cases b
    case none => exact Set.finite_empty.subset fun name ⟨_, _, hb, _⟩ => by cases hb
    case some buffer =>
      refine ((arguments buffer).filterMap reference).finite_toSet.subset ?_
      rintro name ⟨buffer', a, hb, ha, hname⟩
      obtain rfl := Option.some.inj hb
      exact List.mem_filterMap.mpr ⟨a, ha, hname⟩
  refine (env.finite.biUnion fun b _ => hbuffer b).subset ?_
  rintro name ⟨name', buffer, a, hlookup, ha, hname⟩
  exact Set.mem_biUnion (Set.mem_range_self name') ⟨buffer, a, hlookup, ha, hname⟩

theorem Acyclic.wellFounded (h : Acyclic env) : WellFounded (Refers env) := by
  rw [wellFounded_iff_isEmpty_descending_chain]
  refine ⟨fun ⟨f, hf⟩ => ?_⟩
  have hmem (n : Nat) : f (n + 1) ∈ {name | ∃ name', Refers env name name'} := ⟨f n, hf n⟩
  have hfinite := (finite_names env).to_subtype
  obtain ⟨i, j, hne, heq⟩ := Finite.exists_ne_map_eq_of_infinite fun n =>
    (⟨f (n + 1), hmem n⟩ : {name | ∃ name', Refers env name name'})
  have hsame : f (i + 1) = f (j + 1) := congrArg Subtype.val heq
  have hchain {i j : Nat} (hij : i < j) : Relation.TransGen (Refers env) (f j) (f i) :=
    Nat.rel_of_forall_rel_succ_of_lt (Function.swap (Relation.TransGen (Refers env))) (fun n => .single (hf n)) hij
  obtain hlt | hlt := lt_or_gt_of_ne hne
  case inl =>
    have hcycle := hchain (Nat.succ_lt_succ hlt)
    rw [← Nat.succ_eq_add_one, ← Nat.succ_eq_add_one] at hsame
    exact h _ (hsame ▸ hcycle)
  case inr =>
    have hcycle := hchain (Nat.succ_lt_succ hlt)
    rw [← Nat.succ_eq_add_one, ← Nat.succ_eq_add_one] at hsame
    exact h _ (hsame ▸ hcycle)

theorem exists_free_of_forall (h : ∀ a ∈ args, ∃ d, Free (level env [a] d)) : ∃ d, Free (level env args d) := by
  induction args
  case nil => exact ⟨0, fun _ ha => absurd ha List.not_mem_nil⟩
  case cons a args ih =>
    obtain ⟨ha, hargs⟩ := List.forall_mem_cons.mp h
    obtain ⟨d, hd⟩ := ha
    obtain ⟨e, he⟩ := ih hargs
    refine ⟨max d e, fun b hb => ?_⟩
    obtain ⟨a', ha', hb'⟩ := (mem_level).mp hb
    obtain rfl | ha' := List.mem_cons.mp ha'
    case inl =>
      rw [hd.later (le_max_left d e)] at hb'
      exact hd b hb'
    case inr =>
      have hmem := (mem_level).mpr ⟨a', ha', hb'⟩
      rw [he.later (le_max_right d e)] at hmem
      exact he b hmem

theorem exists_free_single (h : ∀ name buffer, reference a = some name → env.lookup name = some buffer →
    ∃ d, Free (level env (arguments buffer) d)) : ∃ d, Free (level env [a] d) := by
  cases hname : reference a
  case none => exact ⟨0, List.forall_mem_singleton.mpr hname⟩
  case some name =>
    cases hlookup : env.lookup name
    case none =>
      refine ⟨1, fun b hb => ?_⟩
      rw [level, level, List.flatMap_singleton, expandOne, hname] at hb
      simp only [hlookup, Option.map_none, Option.getD_none, List.not_mem_nil] at hb
    case some buffer =>
      obtain ⟨d, hd⟩ := h name buffer hname hlookup
      refine ⟨1 + d, ?_⟩
      rwa [level_add, level, level, List.flatMap_singleton, expandOne_response hname hlookup]

-- After some rounds nothing is left to be expanded.
theorem Acyclic.exists_free (h : Acyclic env) (args : List Str) : ∃ d, Free (level env args d) := by
  have hresponse (name : Str) : ∀ buffer, env.lookup name = some buffer → ∃ d, Free (level env (arguments buffer) d) := by
    have hwf := h.wellFounded
    induction name using hwf.induction
    rename_i name ih
    intro buffer hbuffer
    refine exists_free_of_forall fun a ha => exists_free_single fun name' buffer' hname hlookup => ?_
    exact ih name' ⟨buffer, a, hbuffer, ha, hname⟩ buffer' hlookup
  exact exists_free_of_forall fun a _ => exists_free_single fun name buffer _ hlookup => hresponse name buffer hlookup

end acyclic

section passes

-- What the pass does with the next argument

theorem pass_plain (pre as : List Str) (h : reference a = none) :
    responseExpandPass env (as.length + 1) (pre ++ a :: as) pre.length recurse =
      responseExpandPass env as.length (pre ++ [a] ++ as) (pre ++ [a]).length recurse := by
  have hget : (pre ++ a :: as)[pre.length]? = some a := by
    rw [List.getElem?_append_right le_rfl, Nat.sub_self]
    rfl
  rw [responseExpandPass, hget, Option.bind_eq_bind, Option.bind_some, List.append_cons, List.length_append,
    List.length_singleton]
  simp only [h]

theorem pass_missing (pre as : List Str) (h : reference a = some name) (hl : env.lookup name = none) :
    responseExpandPass env (as.length + 1) (pre ++ a :: as) pre.length recurse = some (.error a) := by
  have hget : (pre ++ a :: as)[pre.length]? = some a := by
    rw [List.getElem?_append_right le_rfl, Nat.sub_self]
    rfl
  rw [responseExpandPass, hget, Option.bind_eq_bind, Option.bind_some]
  simp only [h, hl]
  rfl

theorem pass_response (pre as : List Str) (h : reference a = some name) (hl : env.lookup name = some buffer) :
    responseExpandPass env (as.length + 1) (pre ++ a :: as) pre.length recurse =
      responseExpandPass env as.length (pre ++ arguments buffer ++ as) (pre ++ arguments buffer).length
        (found buffer || recurse) := by
  have hget : (pre ++ a :: as)[pre.length]? = some a := by
    rw [List.getElem?_append_right le_rfl, Nat.sub_self]
    rfl
  have herase : (pre ++ a :: as).eraseIdx pre.length = pre ++ as := by
    rw [List.eraseIdx_append_of_length_le le_rfl, Nat.sub_self]
    rfl
  have hinsert := @insertArgumentsFromResponse_eq _ (.inr (env.terminated name buffer hl)) (pre ++ as) pre.length
    (by rw [List.length_append]; omega)
  rw [List.take_left, List.drop_left] at hinsert
  rw [responseExpandPass, hget, Option.bind_eq_bind, Option.bind_some]
  simp only [h, hl, herase, hinsert, Option.bind_eq_bind, Option.bind_some, arguments, found, List.length_append]

theorem resolves_cons : Resolves env (a :: as) ↔
    (∀ name, reference a = some name → env.lookup name ≠ none) ∧ Resolves env as :=
  List.forall_mem_cons

theorem found_cons : Found env (a :: as) ↔
    (∃ name buffer, reference a = some name ∧ env.lookup name = some buffer ∧ found buffer = true) ∨ Found env as :=
  List.exists_mem_cons_iff _ a as

theorem pass_unresolved (pre as : List Str) (h : ¬ Resolves env as) :
    ∃ cp, responseExpandPass env as.length (pre ++ as) pre.length recurse = some (.error cp) := by
  induction as generalizing pre recurse
  case nil => exact absurd (fun _ ha => absurd ha List.not_mem_nil) h
  case cons a as ih =>
    rw [resolves_cons] at h
    rw [List.length_cons]
    cases hname : reference a
    case none =>
      rw [pass_plain pre as hname]
      exact ih _ fun has => h ⟨fun _ hsome => absurd (hname.symm.trans hsome) (by simp), has⟩
    case some name =>
      cases hlookup : env.lookup name
      case none => exact ⟨a, pass_missing pre as hname hlookup⟩
      case some buffer =>
        rw [pass_response pre as hname hlookup]
        refine ih _ fun has => h ⟨fun name' hsome => ?_, has⟩
        obtain rfl := Option.some.inj (hname.symm.trans hsome)
        rw [hlookup]
        exact Option.some_ne_none buffer

theorem pass_resolved (pre as : List Str) (h : Resolves env as) :
    ∃ recurse', responseExpandPass env as.length (pre ++ as) pre.length recurse =
      some (.ok (pre ++ as.flatMap (expandOne env), recurse')) ∧ (recurse' = true ↔ recurse = true ∨ Found env as) := by
  induction as generalizing pre recurse
  case nil =>
    refine ⟨recurse, rfl, (or_iff_left ?_).symm⟩
    rintro ⟨a, ha, -⟩
    exact List.not_mem_nil ha
  case cons a as ih =>
    obtain ⟨ha, has⟩ := (resolves_cons).mp h
    rw [List.length_cons, List.flatMap_cons, found_cons]
    cases hname : reference a
    case none =>
      obtain ⟨recurse', hpass, hiff⟩ := @ih recurse (pre ++ [a]) has
      rw [pass_plain pre as hname, hpass, expandOne_plain hname, List.append_assoc]
      refine ⟨recurse', rfl, hiff.trans (or_congr_right (or_iff_right ?_).symm)⟩
      rintro ⟨name, buffer, hsome, -⟩
      cases hsome
    case some name =>
      cases hlookup : env.lookup name
      case none => exact absurd hlookup (ha name hname)
      case some buffer =>
        obtain ⟨recurse', hpass, hiff⟩ := @ih (found buffer || recurse) (pre ++ arguments buffer) has
        rw [pass_response pre as hname hlookup, hpass, expandOne_response hname hlookup, List.append_assoc]
        refine ⟨recurse', rfl, hiff.trans ?_⟩
        have hfound : (∃ name' buffer', some name = some name' ∧ env.lookup name' = some buffer' ∧ found buffer' = true) ↔
            found buffer = true := by
          constructor
          case mp =>
            rintro ⟨name', buffer', hsome, hsome', hf⟩
            obtain rfl := Option.some.inj hsome
            obtain rfl := Option.some.inj (hlookup.symm.trans hsome')
            exact hf
          case mpr => exact fun hf => ⟨name, buffer, rfl, hlookup, hf⟩
        rw [hfound, Bool.or_eq_true]
        tauto

end passes

section runs

theorem expand_unresolved (h : ¬ Resolves env args) :
    ∃ cp, ∀ fuel, responseExpandFrom env (fuel + 1) args = some (.error cp) := by
  obtain ⟨cp, hpass⟩ := @pass_unresolved _ false [] args h
  refine ⟨cp, fun fuel => ?_⟩
  rw [List.nil_append, List.length_nil] at hpass
  rw [responseExpandFrom, hpass]
  rfl

theorem expand_found (h : Resolves env args) (hf : Found env args) (fuel : Nat) :
    responseExpandFrom env (fuel + 1) args = responseExpandFrom env fuel (level env args 1) := by
  obtain ⟨recurse', hpass, hiff⟩ := @pass_resolved _ false [] args h
  obtain rfl := hiff.mpr (.inr hf)
  rw [List.nil_append, List.length_nil] at hpass
  rw [responseExpandFrom, hpass]
  rfl

theorem expand_not_found (h : Resolves env args) (hf : ¬ Found env args) (fuel : Nat) :
    responseExpandFrom env (fuel + 1) args = some (.ok (level env args 1)) := by
  obtain ⟨recurse', hpass, hiff⟩ := @pass_resolved _ false [] args h
  obtain rfl : recurse' = false := eq_false_of_ne_true fun ht => (hiff.mp ht).elim (fun h => by cases h) hf
  rw [List.nil_append, List.length_nil] at hpass
  rw [responseExpandFrom, hpass]
  rfl

-- The function goes through the rounds as long as it finds more.
theorem expand_level (h : ∀ j < k, Resolves env (level env args j) ∧ Found env (level env args j)) (fuel : Nat) :
    responseExpandFrom env (k + fuel) args = responseExpandFrom env fuel (level env args k) := by
  induction k generalizing fuel
  case zero => rw [Nat.zero_add]; rfl
  case succ k ih =>
    obtain ⟨hresolves, hfound⟩ := h k (Nat.lt_succ_self k)
    rw [Nat.add_assoc, Nat.add_comm 1, ih fun j hj => h j (hj.trans (Nat.lt_succ_self k)),
      expand_found hresolves hfound]
    rfl

-- The function returns this in the end, whatever the fuel.
def Returns (env : Environment) (args : List Str) (out : Except Str (List Str)) : Prop :=
  ∃ N, ∀ fuel, N ≤ fuel → responseExpandFrom env fuel args = some out

theorem Returns.unique {out out' : Except Str (List Str)} (h : Returns env args out) (h' : Returns env args out') :
    out = out' := by
  obtain ⟨N, hN⟩ := h
  obtain ⟨N', hN'⟩ := h'
  exact Option.some.inj ((hN _ (le_max_left N N')).symm.trans (hN' _ (le_max_right N N')))

-- Where the rounds end: a name cannot be resolved, or nothing more is found
structure Stops (env : Environment) (args : List Str) (k : Nat) : Prop where
  before : ∀ j < k, Resolves env (level env args j) ∧ Found env (level env args j)
  stop   : ¬ (Resolves env (level env args k) ∧ Found env (level env args k))

theorem Acyclic.exists_stops (h : Acyclic env) (args : List Str) : ∃ k, Stops env args k := by
  classical
  obtain ⟨d, hd⟩ := h.exists_free args
  have hstop : ∃ k, ¬ (Resolves env (level env args k) ∧ Found env (level env args k)) :=
    ⟨d, fun hk => hd.not_found hk.2⟩
  exact ⟨Nat.find hstop, fun j hj => not_not.mp (Nat.find_min hstop hj), Nat.find_spec hstop⟩

theorem Stops.returns_error (h : Stops env args k) (hk : ¬ Resolves env (level env args k)) :
    ∃ cp, Returns env args (.error cp) := by
  obtain ⟨cp, hcp⟩ := expand_unresolved hk
  refine ⟨cp, k + 1, fun fuel hfuel => ?_⟩
  obtain ⟨d, rfl⟩ := Nat.exists_eq_add_of_le hfuel
  rw [Nat.add_assoc, Nat.add_comm 1, expand_level h.before, hcp]

theorem Stops.returns_ok (h : Stops env args k) (hk : Resolves env (level env args k)) :
    Returns env args (.ok (level env args (k + 1))) := by
  refine ⟨k + 1, fun fuel hfuel => ?_⟩
  obtain ⟨d, rfl⟩ := Nat.exists_eq_add_of_le hfuel
  rw [Nat.add_assoc, Nat.add_comm 1, expand_level h.before, expand_not_found hk fun hf => h.stop ⟨hk, hf⟩]
  rfl

end runs

section results

variable {ss : List Str}

theorem ExpandsAll.free (h : ExpandsAll env as rs) : Free rs := by
  induction h
  case nil => exact fun _ ha => absurd ha List.not_mem_nil
  case plain ha _ ih => exact List.forall_mem_cons.mpr ⟨ha, ih⟩
  case response _ _ _ _ ih ih' =>
    intro b hb
    exact (List.mem_append.mp hb).elim (ih b) (ih' b)

theorem Free.expandsAll (h : Free args) : ExpandsAll env args args := by
  induction args
  case nil => exact .nil
  case cons a args ih =>
    obtain ⟨ha, hargs⟩ := List.forall_mem_cons.mp h
    exact .plain ha (ih hargs)

theorem ExpandsAll.of_append (h : ExpandsAll env (as ++ bs) rs) :
    ∃ r s, rs = r ++ s ∧ ExpandsAll env as r ∧ ExpandsAll env bs s := by
  induction as generalizing rs
  case nil => exact ⟨[], rs, rfl, .nil, h⟩
  case cons a as ih =>
    rw [List.cons_append] at h
    cases h
    case plain rs ha hrest =>
      obtain ⟨r, s, rfl, hr, hs⟩ := ih hrest
      exact ⟨a :: r, s, rfl, .plain ha hr, hs⟩
    case response hlookup hresponse hname hrest =>
      obtain ⟨r, s, rfl, hr, hs⟩ := ih hrest
      exact ⟨_ ++ r, s, (List.append_assoc _ _ _).symm, .response hname hlookup hresponse hr, hs⟩

theorem ExpandsAll.of_round (h : Resolves env args) (hrs : ExpandsAll env (level env args 1) rs) :
    ExpandsAll env args rs := by
  change ExpandsAll env (args.flatMap (expandOne env)) rs at hrs
  induction args generalizing rs
  case nil => exact hrs
  case cons a args ih =>
    obtain ⟨ha, hargs⟩ := (resolves_cons).mp h
    rw [List.flatMap_cons] at hrs
    obtain ⟨r, s, rfl, hr, hs⟩ := hrs.of_append
    cases hname : reference a
    case none =>
      rw [expandOne_plain hname] at hr
      cases hr
      case plain hr =>
        cases hr
        exact .plain hname (ih hargs hs)
      case response _ _ hsome _ => cases hname.symm.trans hsome
    case some name =>
      cases hlookup : env.lookup name
      case none => exact absurd hlookup (ha name hname)
      case some buffer =>
        rw [expandOne_response hname hlookup] at hr
        exact .response hname hlookup hr (ih hargs hs)

theorem expandsAll_level (h : ∀ j < k, Resolves env (level env args j)) (hfree : Free (level env args k)) :
    ExpandsAll env args (level env args k) := by
  induction k generalizing args
  case zero => exact hfree.expandsAll
  case succ k ih =>
    rw [Nat.add_comm, level_add] at hfree ⊢
    refine (ih (fun j hj => ?_) hfree).of_round (h 0 (Nat.succ_pos k))
    have hnext := h (1 + j) (by omega)
    rwa [level_add] at hnext

-- All names can be resolved if and only if they can be in every round.
theorem resolves_iff : (∀ name, Referenced env args name → env.lookup name ≠ none) ↔
    ∀ k, Resolves env (level env args k) := by
  have hlevel : ∀ k, ∀ a ∈ level env args k, ∀ name, reference a = some name → Referenced env args name := by
    intro k
    induction k
    case zero => exact fun a ha name hname => .given ha hname
    case succ k ih =>
      intro b hb name hname
      obtain ⟨a, ha, hb⟩ := List.mem_flatMap.mp hb
      cases hsome : reference a
      case none =>
        rw [expandOne_plain hsome] at hb
        obtain rfl := List.mem_singleton.mp hb
        exact ih b ha name hname
      case some name' =>
        cases hlookup : env.lookup name'
        case none =>
          rw [expandOne, hsome] at hb
          simp only [hlookup, Option.map_none, Option.getD_none, List.not_mem_nil] at hb
        case some buffer =>
          rw [expandOne_response hsome hlookup] at hb
          exact .inside (ih a ha name' hsome) hlookup hb hname
  constructor
  case mp => exact fun h k a ha name hname => h name (hlevel k a ha name hname)
  case mpr =>
    intro h
    have hreferenced : ∀ name, Referenced env args name → ∃ k, ∃ a ∈ level env args k, reference a = some name := by
      intro name hname
      induction hname
      case given ha hname => exact ⟨0, _, ha, hname⟩
      case inside a _ _ buffer _ hlookup ha hname ih =>
        obtain ⟨k, b, hb, hb'⟩ := ih
        refine ⟨k + 1, a, List.mem_flatMap.mpr ⟨b, hb, ?_⟩, hname⟩
        rwa [expandOne_response hb' hlookup]
    intro name hname
    obtain ⟨k, a, ha, hname⟩ := hreferenced name hname
    exact h k a ha name hname

-- The function succeeds if and only if all names can be resolved, and every argument is expanded by its text.
def Independent (env : Environment) (args : List Str) : Prop :=
  ∃ out, Returns env args out ∧
    ((∃ rs, out = .ok rs) ↔ ∀ name, Referenced env args name → env.lookup name ≠ none) ∧
    ∀ rs, out = .ok rs → ExpandsAll env args rs

-- A round that brings references has one of them begin with @ where it is written.
def Raised (env : Environment) (args : List Str) : Prop :=
  ∀ k, (∀ j ≤ k, Resolves env (level env args j)) → ¬ Free (level env args (k + 1)) → Found env (level env args k)

theorem independent_iff_raised (hacyclic : Acyclic env) : Independent env args ↔ Raised env args := by
  obtain ⟨k, hk⟩ := hacyclic.exists_stops args
  constructor
  case mp =>
    rintro ⟨out, hout, -, hexpands⟩ j hresolves hnot
    by_contra hfound
    have hkj : k ≤ j := by
      by_contra hlt
      exact hfound (hk.before j (not_le.mp hlt)).2
    have hok := hk.returns_ok (hresolves k hkj)
    have hfree := (hexpands _ (hout.unique hok)).free
    have hlater := hfree.later (Nat.add_le_add_right hkj 1)
    exact hnot (hlater.symm ▸ hfree)
  case mpr =>
    intro hraised
    by_cases hresolves : Resolves env (level env args k)
    case neg =>
      obtain ⟨cp, hcp⟩ := hk.returns_error hresolves
      refine ⟨_, hcp, iff_of_false (fun ⟨_, h⟩ => by cases h) (fun h => ?_), fun _ h => by cases h⟩
      exact hresolves ((resolves_iff).mp h k)
    case pos =>
      have hbefore : ∀ j ≤ k, Resolves env (level env args j) := by
        intro j hj
        obtain hlt | rfl := hj.lt_or_eq
        case inl => exact (hk.before j hlt).1
        case inr => exact hresolves
      have hfree : Free (level env args (k + 1)) := by
        by_contra hnot
        exact hk.stop ⟨hresolves, hraised k hbefore hnot⟩
      refine ⟨_, hk.returns_ok hresolves, iff_of_true ⟨_, rfl⟩ ((resolves_iff).mpr fun j => ?_), ?_⟩
      · obtain hj | hj := le_or_gt j k
        case inl => exact hbefore j hj
        case inr =>
          rw [hfree.later hj]
          exact hfree.resolves
      · rintro rs hrs
        obtain rfl := Except.ok.inj hrs
        exact expandsAll_level (fun j hj => hbefore j (Nat.lt_succ_iff.mp hj)) hfree

theorem raised_of_forall (h : ∀ a ∈ args, Raised env [a]) : Raised env args := by
  intro k hresolves hnot
  obtain ⟨b, hb, hname⟩ : ∃ b ∈ level env args (k + 1), ¬ reference b = none := by
    by_contra hnone
    exact hnot fun b hb => by_contra fun hname => hnone ⟨b, hb, hname⟩
  obtain ⟨a, ha, hb⟩ := (mem_level).mp hb
  have hone : ∀ j ≤ k, Resolves env (level env [a] j) := fun j hj c hc =>
    hresolves j hj c ((mem_level).mpr ⟨a, ha, hc⟩)
  obtain ⟨c, hc, hfound⟩ := h a ha k hone fun hfree => hname (hfree b hb)
  exact ⟨c, (mem_level).mpr ⟨a, ha, hc⟩, hfound⟩

-- References within quotes are expanded only beside others.
theorem independent_iff (hacyclic : Acyclic env) (args : List Str) :
    (Independent env args ∧ ∀ a ∈ args, Independent env [a]) ↔ ∀ a ∈ args, Raised env [a] := by
  constructor
  case mp => exact fun h a ha => (independent_iff_raised hacyclic).mp (h.2 a ha)
  case mpr =>
    intro h
    refine ⟨(independent_iff_raised hacyclic).mpr (raised_of_forall h), fun a ha => ?_⟩
    exact (independent_iff_raised hacyclic).mpr (h a ha)

end results

section quotes

-- The environment of some files
def Environment.ofFiles (files : List (Str × Str)) : Environment where
  lookup name := (files.lookup name).map (· ++ [0])
  terminated  := by
    intro name buffer h
    obtain ⟨text, -, rfl⟩ := Option.map_eq_some_iff.mp h
    exact List.getLast?_concat
  finite      := by
    have hlookup (name : Str) : files.lookup name ∈ {none} ∪ Set.image some {text | text ∈ files.map Prod.snd} := by
      induction files
      case nil => exact .inl rfl
      case cons file files ih =>
        rw [List.lookup_cons]
        split
        case h_1 => exact .inr ⟨file.2, List.mem_cons_self, rfl⟩
        case h_2 =>
          refine ih.imp_right ?_
          rintro ⟨text, htext, h⟩
          exact ⟨text, List.mem_cons_of_mem _ htext, h⟩
    have htexts := (Set.finite_singleton none).union ((files.map Prod.snd).finite_toSet.image some)
    have hfinite := htexts.image (Option.map (· ++ [0]))
    refine hfinite.subset ?_
    rintro _ ⟨name, rfl⟩
    exact ⟨_, hlookup name, rfl⟩

-- The file A has a quoted reference to B, and C has one that is not quoted.
def files : Environment :=
  .ofFiles [([chr 'A'], [chr '"', chr '@', chr 'B', chr '"']), ([chr 'B'], [chr 'x']), ([chr 'C'], [chr '@', chr 'B'])]

theorem refers_files {name' : Str} (h : Refers files name' name) : name' = [chr 'B'] ∧ name ≠ [chr 'B'] := by
  obtain ⟨buffer, a, hlookup, ha, hname⟩ := h
  have hone {text : Str} (hbuffer : text ++ [0] = buffer) (harguments : arguments (text ++ [0]) =
    [[chr '@', chr 'B']]) :
      name' = [chr 'B'] := by
    rw [← hbuffer, harguments] at ha
    rw [List.mem_singleton.mp ha] at hname
    exact (Option.some.inj hname).symm
  by_cases hA : name = [chr 'A']
  case pos =>
    subst hA
    exact ⟨hone (Option.some.inj hlookup) (by decide), by decide⟩
  by_cases hB : name = [chr 'B']
  case pos =>
    subst hB
    obtain rfl := Option.some.inj hlookup
    obtain rfl := List.mem_singleton.mp (show a ∈ [[chr 'x']] from ha)
    cases hname
  by_cases hC : name = [chr 'C']
  case pos =>
    subst hC
    exact ⟨hone (Option.some.inj hlookup) (by decide), hB⟩
  case neg =>
    simp only [files, Environment.ofFiles, List.lookup_cons, beq_eq_false_iff_ne.mpr hA, beq_eq_false_iff_ne.mpr hB,
      beq_eq_false_iff_ne.mpr hC, List.lookup_nil, Option.map_none] at hlookup
    cases hlookup

theorem acyclic_files : Acyclic files := by
  intro name h
  obtain ⟨m, hhead, -⟩ := Relation.TransGen.head'_iff.mp h
  obtain ⟨m', -, htail⟩ := Relation.TransGen.tail'_iff.mp h
  exact (refers_files htail).2 (refers_files hhead).1

theorem independent_files :
    (Independent files [[chr '@', chr 'C']] ∧ ∀ a ∈ [[chr '@', chr 'C']], Independent files [a]) ↔
      ∀ a ∈ [[chr '@', chr 'C']], Raised files [a] :=
  independent_iff acyclic_files _

-- The reference in A is expanded only if there is the one in C.
theorem not_independent_files : Acyclic files ∧
    Returns files [[chr '@', chr 'A']] (.ok [[chr '@', chr 'B']]) ∧
    Returns files [[chr '@', chr 'C']] (.ok [[chr 'x']]) ∧
    Returns files [[chr '@', chr 'A'], [chr '@', chr 'C']] (.ok [[chr 'x'], [chr 'x']]) := by
  refine ⟨acyclic_files, ⟨2, fun fuel hfuel => ?_⟩, ⟨2, fun fuel hfuel => ?_⟩, ⟨2, fun fuel hfuel => ?_⟩⟩
  all_goals
    obtain ⟨d, rfl⟩ := Nat.exists_eq_add_of_le' hfuel
    rfl

end quotes

end Compiler.Root.Response
