import DmdModel.Compiler.Root.Speller
import Mathlib.Data.List.Basic

-- The strings that the spelling checker looks up

namespace Compiler.Root.Speller

open Runtime.Utf Lib.BestOffer

variable {T α : Type} {look : Str → Nat → Run (Option T × Cost)}

section Buffer

variable {pre post rest : Str} {c s : Char8} {i len : Nat}

theorem load_append (hi : i = pre.length) : (load (pre ++ c :: post) i : Body T Char8) = pure c := by
  subst hi
  simp [load]

theorem store_append (hi : i = pre.length) :
    (store (pre ++ c :: post) i s : Body T Str) = pure (pre ++ s :: post) := by
  subst hi
  simp [store]

theorem slice_append (hlen : len = pre.length) : (slice (pre ++ rest) 0 len : Body T Str) = pure pre := by
  subst hlen
  simp [slice]

theorem slice_drop (hi : i = pre.length) (hlen : len = (pre ++ post).length) :
    (slice (pre ++ post) i len : Body T Str) = pure post := by
  subst hi hlen
  have htake : (pre ++ post).take (pre ++ post).length = pre ++ post := List.take_length
  have hle : pre.length ≤ (pre ++ post).length := by simp
  rw [slice, if_pos ⟨hle, le_rfl⟩, htake, List.drop_left]

theorem fill_eq {buf : Str} {a b : Nat} (hab : a ≤ b) (hb : b ≤ buf.length) (hs : post.length = b - a) :
    (fill buf a b post : Body T Str) = pure (buf.take a ++ post ++ buf.drop b) := by
  simp [fill, hab, hb, hs]

end Buffer

section Edits

-- The strings that come of one edit behind `pre`, in the order in which they are tried, and the index at which the
-- next edit of each of them would be
@[grind =]
def deleted : (pre post : Str) → List (Str × Nat)
  | _, []          => []
  | pre, c :: post => (pre ++ post, pre.length) :: deleted (pre ++ [c]) post

@[grind =]
def transposed : (pre post : Str) → List (Str × Nat)
  | pre, c :: d :: post => (pre ++ d :: c :: post, pre.length) :: transposed (pre ++ [c]) (d :: post)
  | _, _                => []

def withIdchar (pre post : Str) (index : Nat) (chars : List Char8) : List (Str × Nat) :=
  chars.map fun s => (pre ++ s :: post, index)

@[grind =]
def substituted : (pre post : Str) → List (Str × Nat)
  | _, []          => []
  | pre, c :: post => withIdchar pre post (pre.length + 1) idchars ++ substituted (pre ++ [c]) post

@[grind =]
def inserted : (pre post : Str) → List (Str × Nat)
  | pre, []        => withIdchar pre [] (pre.length + 1) idchars
  | pre, c :: post => withIdchar pre (c :: post) (pre.length + 1) idchars ++ inserted (pre ++ [c]) post

-- One edit right behind `pre`
def editedAt (pre : Str) : (post : Str) → List (Str × Nat)
  | []        => withIdchar pre [] pre.length idchars
  | c :: post =>
    (pre ++ post, pre.length) :: withIdchar pre post pre.length idchars ++
      withIdchar pre (c :: post) pre.length idchars

def edited (seed : Str) (flag : Bool) : List (Str × Nat) :=
  deleted [] seed ++ (if flag then [] else transposed [] seed) ++ substituted [] seed ++ inserted [] seed

end Edits

-- All the strings of a list are tried.
@[grind =]
def tryAll (look : Str → Nat → Run (Option T × Cost)) : List (Str × Nat) → Best T Cost → Body T (Best T Cost)
  | [], best      => pure best
  | t :: ts, best => do
    let best ← tryOut look t.1 t.2 best
    tryAll look ts best

theorem tryAll_append (ts ts' : List (Str × Nat)) (best : Best T Cost) :
    tryAll look (ts ++ ts') best = tryAll look ts best >>= tryAll look ts' := by
  induction ts generalizing best with
  | nil          => simp [tryAll]
  | cons t ts ih => simp [tryAll, ih]

theorem tryAll_append_fun (ts ts' : List (Str × Nat)) :
    tryAll look (ts ++ ts') = fun best => tryAll look ts best >>= tryAll look ts' :=
  funext fun best => tryAll_append ts ts' best

section Loops

variable {pre post rest buf : Str}

theorem tryIdchars_eq {c : Char8} {len i index : Nat} (chars : List Char8) (hi : i = pre.length)
    (hlen : len = pre.length + 1 + post.length) :
    ∃ c', ∀ best, tryIdchars look len i index chars (pre ++ c :: post ++ rest) best =
      tryAll look (withIdchar pre post index chars) best >>= fun best => pure (pre ++ c' :: post ++ rest, best) := by
  induction chars generalizing c with
  | nil             => exact ⟨c, by simp [tryIdchars, withIdchar, tryAll]⟩
  | cons s chars ih =>
    obtain ⟨c', hrest⟩ := ih (c := s)
    refine ⟨c', fun best => ?_⟩
    have hstore : (store (pre ++ c :: post ++ rest) i s : Body T Str) = pure (pre ++ s :: post ++ rest) := by
      simpa using @store_append T _ (post ++ rest) _ _ _ hi
    have hslice : (slice (pre ++ s :: post ++ rest) 0 len : Body T Str) = pure (pre ++ s :: post) :=
      slice_append (by simp [hlen]; omega)
    rw [tryIdchars, hstore, pure_bind, hslice, pure_bind]
    simp only [hrest, withIdchar, List.map_cons, tryAll, bind_assoc]

theorem deletions_eq {seed : Str} (hseed : seed = pre ++ post) (hrest : (pre ++ post.tail ++ rest).length = seed.length + 1) :
    ∃ buf' : Str, buf'.length = seed.length + 1 ∧ ∀ best,
      deletions look seed post.length pre.length (pre ++ post.tail ++ rest) best =
        tryAll look (deleted pre post) best >>= fun best => pure (buf', best) := by
  induction post generalizing pre rest with
  | nil            => exact ⟨_, hrest, fun best => by simp [deletions, deleted, tryAll]⟩
  | cons c post ih =>
    have hload : (load seed pre.length : Body T Char8) = pure c := by
      rw [hseed]
      exact load_append rfl
    have hslice : (slice (pre ++ post ++ rest) 0 (seed.length - 1) : Body T Str) = pure (pre ++ post) :=
      slice_append (by simp [hseed])
    have hstore : ∃ rest', (pre ++ [c] ++ post.tail ++ rest').length = seed.length + 1 ∧
        (store (pre ++ post ++ rest) pre.length c : Body T Str) = pure (pre ++ [c] ++ post.tail ++ rest') := by
      cases post with
      | cons d post =>
        refine ⟨rest, ?_, ?_⟩
        · simpa using hrest
        · simpa using @store_append T _ (post ++ rest) _ _ _ rfl
      | nil         =>
        cases rest with
        | nil         =>
          have hlength : pre.length = pre.length + 1 + 1 := by simpa [hseed] using hrest
          omega
        | cons r rest =>
          refine ⟨rest, ?_, ?_⟩
          · simpa using hrest
          · simpa using @store_append T _ rest _ _ _ rfl
    obtain ⟨rest', hlength, hstore⟩ := hstore
    obtain ⟨buf', hbuf', hgoes⟩ := ih (by simp [hseed]) hlength
    refine ⟨buf', hbuf', fun best => ?_⟩
    rw [List.length_cons, deletions, List.tail_cons, hslice, pure_bind, hload]
    have hindex : (pre ++ [c]).length = pre.length + 1 := by simp
    rw [hindex] at hgoes
    simp only [pure_bind, hstore, hgoes, deleted, tryAll, bind_assoc]

theorem transpositions_eq {seed : Str} {x : Char8} (hseed : seed = pre ++ post) (hpost : post ≠ [])
    (hrest : (pre ++ x :: post.tail ++ rest).length = seed.length + 1) :
    ∃ buf' : Str, buf'.length = seed.length + 1 ∧ ∀ best,
      transpositions look seed (post.length - 1) pre.length (pre ++ x :: post.tail ++ rest) best =
        tryAll look (transposed pre post) best >>= fun best => pure (buf', best) := by
  induction post generalizing pre x with
  | nil            => exact absurd rfl hpost
  | cons c post ih =>
    cases post with
    | nil         => exact ⟨_, hrest, fun best => by simp [transpositions, transposed, tryAll]⟩
    | cons d post =>
      obtain ⟨buf', hbuf', hgoes⟩ := @ih (pre ++ [c]) c (by simp [hseed]) (by simp) (by simpa using hrest)
      refine ⟨buf', hbuf', fun best => ?_⟩
      have hindex : (pre ++ [c]).length = pre.length + 1 := by simp
      rw [hindex] at hgoes
      have hload : (load seed pre.length : Body T Char8) = pure c := by
        rw [hseed]
        exact load_append rfl
      have hload' : (load seed (pre.length + 1) : Body T Char8) = pure d := by
        have h := @load_append T (pre ++ [c]) post d _ hindex.symm
        simpa [hseed] using h
      have hstore (y : Char8) (l : Str) (s : Char8) :
          (store (pre ++ y :: l) pre.length s : Body T Str) = pure (pre ++ s :: l) :=
        store_append rfl
      have hstore' : (store (pre ++ d :: d :: (post ++ rest)) (pre.length + 1) c : Body T Str) =
          pure (pre ++ d :: c :: (post ++ rest)) := by
        have h := @store_append T (pre ++ [d]) (post ++ rest) d c (pre.length + 1) (by simp)
        simpa using h
      have hslice : (slice (pre ++ d :: c :: (post ++ rest)) 0 seed.length : Body T Str) =
          pure (pre ++ d :: c :: post) := by
        have h := @slice_append T (pre ++ d :: c :: post) rest seed.length (by simp [hseed])
        simpa using h
      have hbuf : pre ++ x :: (c :: d :: post).tail ++ rest = pre ++ x :: d :: (post ++ rest) := by simp
      have hbuf' : pre ++ [c] ++ c :: (d :: post).tail ++ rest = pre ++ c :: c :: (post ++ rest) := by simp
      have hcount : (c :: d :: post).length - 1 = (d :: post).length - 1 + 1 := by simp
      rw [hbuf'] at hgoes
      rw [hbuf, hcount, transpositions]
      simp only [hload, hload', hstore, hstore', hslice, pure_bind, hgoes, transposed, tryAll, bind_assoc]

theorem substitutions_eq {seed : Str} (hseed : seed = pre ++ post) :
    ∀ best, substitutions look seed post.length pre.length (pre ++ post ++ rest) best =
      tryAll look (substituted pre post) best >>= fun best => pure (pre ++ post ++ rest, best) := by
  induction post generalizing pre with
  | nil            => simp [substitutions, substituted, tryAll]
  | cons c post ih =>
    intro best
    have hload : (load seed pre.length : Body T Char8) = pure c := by
      rw [hseed]
      exact load_append rfl
    obtain ⟨c', htries⟩ := @tryIdchars_eq _ look pre post rest c seed.length _ (pre.length + 1) idchars rfl
      (by simp [hseed]; omega)
    have hstore : (store (pre ++ c' :: post ++ rest) pre.length c : Body T Str) = pure (pre ++ c :: post ++ rest) := by
      simpa using @store_append T _ (post ++ rest) _ _ _ rfl
    have hgoes := @ih (pre ++ [c]) (by simp [hseed])
    have hindex : (pre ++ [c]).length = pre.length + 1 := by simp
    have hbuf : pre ++ [c] ++ post ++ rest = pre ++ c :: post ++ rest := by simp
    rw [hindex, hbuf] at hgoes
    rw [List.length_cons, substitutions, htries, substituted, tryAll_append]
    simp only [bind_assoc, pure_bind, hload, hstore, hgoes]

theorem insertions_eq {seed : Str} {x : Char8} (hseed : seed = pre ++ post) :
    ∃ buf', ∀ best, insertions look seed (post.length + 1) pre.length (pre ++ x :: post) best =
      tryAll look (inserted pre post) best >>= fun best => pure (buf', best) := by
  induction post generalizing pre x with
  | nil            =>
    obtain ⟨c', htries⟩ := @tryIdchars_eq _ look pre [] [] x (seed.length + 1) _ (pre.length + 1) idchars rfl
      (by simp [hseed])
    refine ⟨pre ++ c' :: [] ++ [], fun best => ?_⟩
    have hends : ¬pre.length < seed.length := by simp [hseed]
    have hbuf : pre ++ [x] = pre ++ x :: [] ++ [] := by simp
    rw [List.length_nil, insertions, hbuf, htries, inserted]
    simp only [bind_assoc, pure_bind, hends, if_false, insertions]
  | cons c post ih =>
    have hload : (load seed pre.length : Body T Char8) = pure c := by
      rw [hseed]
      exact load_append rfl
    obtain ⟨c', htries⟩ := @tryIdchars_eq _ look pre (c :: post) [] x (seed.length + 1) _ (pre.length + 1) idchars rfl
      (by simp [hseed]; omega)
    have hstore : (store (pre ++ c' :: c :: post ++ []) pre.length c : Body T Str) =
        pure (pre ++ c :: c :: post) := by
      simpa using @store_append T _ (c :: post) _ _ _ rfl
    obtain ⟨buf', hgoes⟩ := @ih (pre ++ [c]) c (by simp [hseed])
    refine ⟨buf', fun best => ?_⟩
    have hindex : (pre ++ [c]).length = pre.length + 1 := by simp
    have hbuf : pre ++ [c] ++ c :: post = pre ++ c :: c :: post := by simp
    have hmore : pre.length < seed.length := by simp [hseed]
    have hbuf' : pre ++ x :: c :: post = pre ++ x :: (c :: post) ++ [] := by simp
    rw [hindex, hbuf] at hgoes
    rw [List.length_cons, insertions, hbuf', htries, inserted, tryAll_append]
    simp only [bind_assoc, pure_bind, hmore, if_true, hload, hstore, hgoes]

end Loops

section Functions

variable {void : Str → Nat → Char8} {dg : Str → Option T × Cost}

-- int cost = int.max; p = null;
def worst : Best T Cost :=
  ⟨none, Cost.max⟩

@[simp]
theorem length_smallBuffer (seed : Str) : (smallBuffer void seed).length = seed.length + 1 := by
  simp [smallBuffer]

theorem exists_cons_of_length {buf : Str} {n : Nat} (h : buf.length = n + 1) :
    ∃ c rest, buf = c :: rest ∧ rest.length = n := by
  cases buf with
  | nil         => simp at h
  | cons c rest => exact ⟨c, rest, rfl, by simpa using h⟩

theorem fill_front {buf pre : Str} (h : pre.length ≤ buf.length) :
    (fill buf 0 pre.length pre : Body T Str) = pure (pre ++ buf.drop pre.length) := by
  rw [fill_eq (Nat.zero_le _) h (Nat.sub_zero _).symm, List.take_zero, List.nil_append]

theorem fill_behind {pre tail post : Str} {a b : Nat} (ha : a = pre.length) (hb : b ≤ (pre ++ tail).length)
    (hpost : post.length = b - a) (hab : a ≤ b) :
    (fill (pre ++ tail) a b post : Body T Str) = pure (pre ++ post ++ (pre ++ tail).drop b) := by
  subst ha
  rw [fill_eq hab hb hpost, List.take_left]

theorem spellerY_eq {pre post : Str} (hseed : pre ++ post ≠ []) :
    spellerY void dg (pre ++ post) pre.length = (do
      let best ← Body.returned (tryAll (fun s _ => call dg s) (editedAt pre post) worst)
      pure (best.value, best.cost)) := by
  have hlength : (pre ++ post).length ≠ 0 := by simpa using hseed
  rw [spellerY, if_neg hlength]
  congr 2
  have hbuf := @length_smallBuffer void (pre ++ post)
  have hstart : (slice (pre ++ post) 0 pre.length : Body T Str) = pure pre := slice_append rfl
  have hfill : (fill (smallBuffer void (pre ++ post)) 0 pre.length pre : Body T Str) =
      pure (pre ++ (smallBuffer void (pre ++ post)).drop pre.length) :=
    fill_front (by simp [hbuf]; omega)
  have htail : ((smallBuffer void (pre ++ post)).drop pre.length).length = post.length + 1 := by
    simp [hbuf]
    omega
  generalize (smallBuffer void (pre ++ post)).drop pre.length = tail at hfill htail
  have hslice : (slice (pre ++ post) pre.length (pre ++ post).length : Body T Str) = pure post := slice_drop rfl rfl
  rw [hstart, pure_bind, hfill, pure_bind]
  cases post with
  | nil         =>
    obtain ⟨x, rest, rfl, hrest⟩ := exists_cons_of_length htail
    have hnil : rest = [] := List.length_eq_zero_iff.mp hrest
    subst hnil
    have hends : ¬pre.length < (pre ++ []).length := by simp
    have hinsert : (fill (pre ++ [x]) (pre.length + 1) ((pre ++ []).length + 1) [] : Body T Str) =
        pure (pre ++ x :: [] ++ []) := by
      have h := @fill_behind T (pre ++ [x]) [] [] (pre.length + 1) (pre.length + 1) (by simp) (by simp) (by simp) le_rfl
      simpa using h
    obtain ⟨c', htries⟩ := @tryIdchars_eq T (fun s _ => call dg s) pre [] [] x ((pre ++ []).length + 1) _ pre.length
      idchars rfl (by simp)
    simp only [hends, if_false, pure_bind, hslice, hinsert, htries, bind_assoc, bind_pure]
    rfl
  | cons c post =>
    have hmore : pre.length < (pre ++ c :: post).length := by simp
    have hafter : (slice (pre ++ c :: post) (pre.length + 1) (pre ++ c :: post).length : Body T Str) = pure post := by
      have h := @slice_drop T (pre ++ [c]) post (pre.length + 1) _ (by simp) rfl
      simpa using h
    have hdelete : ∃ rest, rest.length = 2 ∧
        (fill (pre ++ tail) pre.length ((pre ++ c :: post).length - 1) post : Body T Str) =
          pure (pre ++ post ++ rest) := by
      refine ⟨(pre ++ tail).drop ((pre ++ c :: post).length - 1), ?_, ?_⟩
      · simp at htail ⊢
        omega
      · refine fill_behind rfl ?_ ?_ ?_ <;> simp at htail ⊢
        omega
    obtain ⟨rest, hrest, hdelete⟩ := hdelete
    have hdeleted : (slice (pre ++ post ++ rest) 0 ((pre ++ c :: post).length - 1) : Body T Str) = pure (pre ++ post) :=
      slice_append (by simp)
    have hwhole : ∃ r, (fill (pre ++ post ++ rest) 0 (pre ++ c :: post).length (pre ++ c :: post) : Body T Str) =
        pure (pre ++ c :: post ++ [r]) := by
      have hdrop : ((pre ++ post ++ rest).drop (pre ++ c :: post).length).length = 1 := by
        simp [hrest]
      obtain ⟨r, rest', heq, hrest'⟩ := exists_cons_of_length hdrop
      have hnil : rest' = [] := List.length_eq_zero_iff.mp hrest'
      refine ⟨r, ?_⟩
      rw [fill_front (by simp [hrest]), heq, hnil]
    obtain ⟨r, hwhole⟩ := hwhole
    obtain ⟨c', htries⟩ := @tryIdchars_eq T (fun s _ => call dg s) pre post [r] c ((pre ++ c :: post).length) _
      pre.length idchars rfl (by simp; omega)
    have hinsert : (fill (pre ++ c' :: post ++ [r]) (pre.length + 1) ((pre ++ c :: post).length + 1) (c :: post) :
        Body T Str) = pure (pre ++ c' :: (c :: post) ++ []) := by
      have h := @fill_behind T (pre ++ [c']) (post ++ [r]) (c :: post) (pre.length + 1)
        ((pre ++ c :: post).length + 1) (by simp) (by simp) (by simp) (by simp)
      have hdrop : (pre ++ [c'] ++ (post ++ [r])).drop ((pre ++ c :: post).length + 1) = [] :=
        List.drop_eq_nil_of_le (by simp; omega)
      rw [hdrop] at h
      simpa using h
    obtain ⟨c'', htries'⟩ := @tryIdchars_eq T (fun s _ => call dg s) pre (c :: post) [] c'
      ((pre ++ c :: post).length + 1) _ pre.length idchars rfl (by simp; omega)
    simp only [hmore, if_true, pure_bind, hafter, hdelete, hdeleted, hwhole, htries, hslice, hinsert, htries',
      bind_assoc, bind_pure]
    simp only [editedAt, List.cons_append, tryAll, tryAll_append]
    rfl

-- Where the flag is set, the second level does the lookups.
def lookOf (void : Str → Nat → Char8) (dg : Str → Option T × Cost) (flag : Bool) :
    Str → Nat → Run (Option T × Cost) :=
  if flag then spellerY void dg else fun s _ => call dg s

theorem fill_whole {seed buf : Str} (h : buf.length = seed.length + 1) :
    ∃ r, (fill buf 0 seed.length seed : Body T Str) = pure (seed ++ [r]) := by
  obtain ⟨r, rest, heq, hrest⟩ := @exists_cons_of_length (buf.drop seed.length) 0 (by simp [h])
  have hnil : rest = [] := List.length_eq_zero_iff.mp hrest
  refine ⟨r, ?_⟩
  rw [fill_front (by simp [h]), heq, hnil]

-- The second half of the function, whatever the buffer holds
theorem substitutions_insertions_eq {seed buf : Str} (hseed : seed ≠ []) (hbuf : buf.length = seed.length + 1)
    (best : Best T Cost) :
    (do
      let buf ← fill buf 0 seed.length seed
      let next ← substitutions look seed seed.length 0 buf best
      let buf ← fill next.1 1 (seed.length + 1) seed
      let next ← insertions look seed (seed.length + 1) 0 buf next.2
      pure next.2) = tryAll look (substituted [] seed ++ inserted [] seed) best := by
  obtain ⟨r, hwhole⟩ := fill_whole (T := T) hbuf
  obtain ⟨c, post, hcase⟩ := List.exists_cons_of_ne_nil hseed
  have hsubstituted : substitutions look seed seed.length 0 (seed ++ [r]) best =
      tryAll look (substituted [] seed) best >>= fun best => pure (seed ++ [r], best) :=
    @substitutions_eq _ _ [] seed [r] _ rfl best
  have hinsert : (fill (seed ++ [r]) 1 (seed.length + 1) seed : Body T Str) = pure (c :: seed) := by
    have h := @fill_behind T [c] (post ++ [r]) seed 1 (seed.length + 1)
      rfl (by simp [hcase]) (by simp) (by simp)
    have hdrop : ([c] ++ (post ++ [r])).drop (seed.length + 1) = [] := List.drop_eq_nil_of_le (by simp [hcase])
    rw [hdrop] at h
    simpa [hcase] using h
  obtain ⟨buf', hinserted⟩ := @insertions_eq _ look [] seed _ c rfl
  have hinserted' (best : Best T Cost) : insertions look seed (seed.length + 1) 0 (c :: seed) best =
      tryAll look (inserted [] seed) best >>= fun best => pure (buf', best) := hinserted best
  simp only [hwhole, pure_bind, hsubstituted, bind_assoc, hinsert, hinserted', bind_pure, tryAll_append]

theorem spellerX_eq {seed : Str} {flag : Bool} (hseed : seed ≠ []) :
    spellerX void dg seed flag = (do
      let best ← Body.returned (tryAll (lookOf void dg flag) (edited seed flag) worst)
      pure best.value) := by
  have hlength : seed.length ≠ 0 := by simpa using hseed
  rw [spellerX, if_neg hlength]
  obtain ⟨c, post, hcase⟩ := List.exists_cons_of_ne_nil hseed
  have hstart : (slice seed 1 seed.length : Body T Str) = pure post := by
    have h := @slice_drop T [c] post 1 _ rfl rfl
    simpa [hcase] using h
  have hfill : (fill (smallBuffer void seed) 0 (seed.length - 1) post : Body T Str) =
      pure (post ++ (smallBuffer void seed).drop post.length) := by
    have hlen : seed.length - 1 = post.length := by simp [hcase]
    rw [hlen, fill_front (by simp [hcase]; omega)]
  obtain ⟨buf₁, hbuf₁, hdeleted⟩ := @deletions_eq _ (lookOf void dg flag) [] seed
    ((smallBuffer void seed).drop post.length) _ rfl (by simp [hcase]; omega)
  have hdeleted' (best : Best T Cost) :
      deletions (lookOf void dg flag) seed seed.length 0 (post ++ (smallBuffer void seed).drop post.length) best =
        tryAll (lookOf void dg flag) (deleted [] seed) best >>= fun best => pure (buf₁, best) := by
    simpa [hcase] using hdeleted best
  cases flag with
  | true  =>
    have hrest (best : Best T Cost) := @substitutions_insertions_eq _ (lookOf void dg true) _ _ hseed hbuf₁ best
    simp only [lookOf, if_true] at hdeleted' hrest ⊢
    simp only [Bool.not_true, Bool.false_eq_true, if_false, hstart, hfill, pure_bind, hdeleted', bind_assoc, hrest,
      edited, if_true, List.append_nil, List.append_assoc, tryAll_append_fun]
    rfl
  | false =>
    obtain ⟨r, hwhole⟩ := @fill_whole T seed _ hbuf₁
    obtain ⟨buf₂, hbuf₂, htransposed⟩ := @transpositions_eq _ (lookOf void dg false) [] seed [r] _ c rfl hseed
      (by simp [hcase])
    have htransposed' (best : Best T Cost) :
        transpositions (lookOf void dg false) seed (seed.length - 1) 0 (seed ++ [r]) best =
          tryAll (lookOf void dg false) (transposed [] seed) best >>= fun best => pure (buf₂, best) := by
      simpa [hcase] using htransposed best
    have hrest (best : Best T Cost) := @substitutions_insertions_eq _ (lookOf void dg false) _ _ hseed hbuf₂ best
    simp only [lookOf, Bool.false_eq_true, if_false] at hdeleted' htransposed' hrest ⊢
    simp only [Bool.not_false, if_true, hstart, hfill, pure_bind, hdeleted', bind_assoc, hwhole, htransposed', hrest,
      edited, Bool.false_eq_true, if_false, List.append_assoc, tryAll_append_fun]
    rfl

end Functions

section Runs

variable {void : Str → Nat → Char8} {dg : Str → Option T × Cost}

theorem combineSpellerResult_eq (best : Best T Cost) (np : Option T) (ncost : Cost) :
    combineSpellerResult best np ncost = best.offer 0 np ncost := by
  have hlt : ncost.val < best.cost.val ↔ ncost < best.cost := Iff.rfl
  have hle : ncost.val ≤ 0 ↔ ncost ≤ 0 := Iff.rfl
  unfold combineSpellerResult Best.offer
  simp only [hlt, hle]

-- What the lookups of a list of strings come to, and the strings that have been looked up then
def report (tried : List Str) (found : Scan (Str × Nat) T Cost) :
    Option (Except (Best T Cost) (Best T Cost) × List Str) :=
  some (if found.stopped then .error found.best else .ok found.best, tried ++ found.tried.map Prod.fst)

theorem tryOut_run {look : Str → Nat → Run (Option T × Cost)} {s : Str} {index : Nat} {best : Best T Cost}
    {tried tried' : List Str} {new : Option T × Cost} (h : (look s index).run tried = some (new, tried')) :
    (tryOut look s index best).run.run tried =
      some (if (best.offer 0 new.1 new.2).2 then .error (best.offer 0 new.1 new.2).1 else
        .ok (best.offer 0 new.1 new.2).1, tried') := by
  unfold tryOut
  simp only [combineSpellerResult_eq, ExceptT.run_bind, ExceptT.run_monadLift, StateT.run_bind, StateT.run_map, h,
    monadLift_self, Option.bind_eq_bind, Option.map_eq_map, Option.map_some, Option.bind_some]
  cases (best.offer 0 new.1 new.2).2 with
  | true  => rfl
  | false => rfl

-- The lookups of a list that begins with a string, given what comes of the first one
theorem tryAll_cons_run {look : Str → Nat → Run (Option T × Cost)} {t : Str × Nat} {ts : List (Str × Nat)}
    {best : Best T Cost} {tried tried' : List Str} {new : Option T × Cost}
    (h : (look t.1 t.2).run tried = some (new, tried')) :
    (tryAll look (t :: ts) best).run.run tried =
      if (best.offer 0 new.1 new.2).2 then some (.error (best.offer 0 new.1 new.2).1, tried') else
        (tryAll look ts (best.offer 0 new.1 new.2).1).run.run tried' := by
  have htry := @tryOut_run _ _ _ _ best _ _ _ h
  rw [tryAll, ExceptT.run_bind, StateT.run_bind, htry]
  cases (best.offer 0 new.1 new.2).2 with
  | true  => rfl
  | false => rfl

theorem tryAll_call_run (ts : List (Str × Nat)) (best : Best T Cost) (tried : List Str) :
    (tryAll (fun s _ => call dg s) ts best).run.run tried = report tried (scan 0 (fun t => dg t.1) ts best) := by
  induction ts generalizing best tried with
  | nil          => simp [tryAll, report, scan]
  | cons t ts ih =>
    rw [@tryAll_cons_run _ _ _ _ _ _ (tried ++ [t.1]) (dg t.1) rfl, scan]
    split
    case isTrue h  => simp [report]
    case isFalse h => simp [ih, report]

-- The strings that come of an edit at the index of a string
def again (t : Str × Nat) : List (Str × Nat) :=
  editedAt (t.1.take t.2) (t.1.drop t.2)

theorem returned_run {body : Body T (Best T Cost)} {tried : List Str} {found : Scan (Str × Nat) T Cost}
    (h : body.run.run tried = report tried found) :
    (Body.returned body).run tried = some (found.best, tried ++ found.tried.map Prod.fst) := by
  rw [Body.returned, StateT.run_bind, h, report]
  cases found.stopped with
  | true  => rfl
  | false => rfl

theorem Cost.le_max (cost : Cost) : cost ≤ Cost.max := by
  have h := cost.bounds.2
  show cost.val ≤ 2 ^ 31 - 1
  omega

theorem Cost.zero_lt_max : (0 : Cost) < Cost.max := by
  decide

theorem spellerY_run {t : Str × Nat} (hindex : t.2 ≤ t.1.length) (ht : t.1 ≠ []) (tried : List Str) :
    (spellerY void dg t.1 t.2).run tried =
      some (((scan 0 (fun t => dg t.1) (again t) worst).best.value, (scan 0 (fun t => dg t.1) (again t) worst).best.cost),
        tried ++ (scan 0 (fun t => dg t.1) (again t) worst).tried.map Prod.fst) := by
  have hsplit : t.1.take t.2 ++ t.1.drop t.2 = t.1 := List.take_append_drop ..
  have hlength : (t.1.take t.2).length = t.2 := by simp [hindex]
  have heq := @spellerY_eq _ void dg (t.1.take t.2) (t.1.drop t.2) (by rwa [hsplit])
  rw [hsplit, hlength] at heq
  have hrun := returned_run (@tryAll_call_run _ dg (again t) worst tried)
  rw [heq, StateT.run_bind]
  unfold again at hrun ⊢
  rw [hrun]
  rfl

theorem tryAll_spellerY_run {ts : List (Str × Nat)} (hts : ∀ t ∈ ts, t.2 ≤ t.1.length ∧ t.1 ≠ []) {best : Best T Cost}
    (hbest : 0 < best.cost) (tried : List Str) :
    (tryAll (spellerY void dg) ts best).run.run tried =
      report tried (scan 0 (fun t => dg t.1) (ts.flatMap again) best) := by
  induction ts generalizing best tried with
  | nil          => simp [tryAll, report, scan]
  | cons t ts ih =>
    obtain ⟨hindex, ht⟩ := hts t List.mem_cons_self
    have hworst : (best.offer 0 (worst : Best T Cost).value (worst : Best T Cost).cost).1 = best := by
      have hoff := @Best.offer_none _ _ _ (0 : Cost) best Cost.max
      show (best.offer 0 none Cost.max).1 = best
      rw [hoff]
    obtain ⟨htried, hoffer⟩ := @scan_offer _ _ _ _ _ (fun t : Str × Nat => dg t.1) (again t) _ worst hbest
      Cost.zero_lt_max (fun _ => Cost.le_max best.cost)
    rw [hworst] at htried hoffer
    rw [tryAll_cons_run (spellerY_run hindex ht tried), htried, hoffer, List.flatMap_cons, scan_append]
    cases hstopped : (scan 0 (fun t => dg t.1) (again t) best).stopped with
    | true  => simp [report, hstopped]
    | false =>
      obtain ⟨hall, hcost, -⟩ := scan_finished hbest hstopped
      have hrest := ih (fun t' hmem => hts t' (List.mem_cons_of_mem _ hmem)) hcost
      simp [report, hrest, hall]

end Runs

section Meaning

-- An edit of a string at its beginning: what it puts there, and what is left
inductive Edit : (post done rest : Str) → Prop
  | deletion (c : Char8) (post : Str) : Edit (c :: post) [] post
  | substitution (c : Char8) (post : Str) {s : Char8} (h : s ∈ idchars) : Edit (c :: post) [s] post
  | insertion (post : Str) {s : Char8} (h : s ∈ idchars) : Edit post [s] post

-- A deletion, a substitution, an insertion or a transposition
inductive OneEdit (seed : Str) : Str → Prop
  | edit {pre post done rest : Str} (hseed : seed = pre ++ post) (h : Edit post done rest) :
    OneEdit seed (pre ++ done ++ rest)
  | transposition {pre post : Str} {c d : Char8} (hseed : seed = pre ++ c :: d :: post) :
    OneEdit seed (pre ++ d :: c :: post)

-- The second edit is directly after the first one.
inductive TwoEdits (seed : Str) : Str → Prop
  | edits {pre post done rest done' rest' : Str} (hseed : seed = pre ++ post) (h : Edit post done rest)
    (h' : Edit rest done' rest') : TwoEdits seed (pre ++ done ++ done' ++ rest')

theorem mem_withIdchar {pre post : Str} {index : Nat} {t : Str × Nat} :
    t ∈ withIdchar pre post index idchars ↔ ∃ s ∈ idchars, t = (pre ++ s :: post, index) := by
  simp only [withIdchar, List.mem_map, eq_comm]

theorem mem_deleted {pre post : Str} {t : Str × Nat} :
    t ∈ deleted pre post ↔ ∃ mid c rest, post = mid ++ c :: rest ∧ t = (pre ++ mid ++ rest, (pre ++ mid).length) := by
  induction post generalizing pre with
  | nil            => simp [deleted]
  | cons c post ih =>
    rw [deleted, List.mem_cons, ih]
    constructor
    · rintro (rfl | ⟨mid, d, rest, rfl, rfl⟩)
      · exact ⟨[], c, post, rfl, by simp⟩
      · exact ⟨c :: mid, d, rest, rfl, by simp⟩
    · rintro ⟨mid, d, rest, hpost, rfl⟩
      cases mid with
      | nil        =>
        obtain ⟨-, rfl⟩ := List.cons_eq_cons.mp hpost
        exact .inl (by simp)
      | cons e mid =>
        obtain ⟨rfl, rfl⟩ := List.cons_eq_cons.mp hpost
        exact .inr ⟨mid, d, rest, rfl, by simp⟩

theorem mem_transposed {pre post : Str} {t : Str × Nat} :
    t ∈ transposed pre post ↔ ∃ mid c d rest, post = mid ++ c :: d :: rest ∧
      t = (pre ++ mid ++ d :: c :: rest, (pre ++ mid).length) := by
  induction post generalizing pre with
  | nil            => simp [transposed]
  | cons c post ih =>
    cases post with
    | nil         =>
      simp only [transposed, List.not_mem_nil, false_iff, not_exists, not_and]
      intro mid c' d rest hpost
      have hlength := congrArg List.length hpost
      simp at hlength
      omega
    | cons d post =>
      rw [transposed, List.mem_cons, ih]
      constructor
      · rintro (rfl | ⟨mid, c', d', rest, hpost, rfl⟩)
        · exact ⟨[], c, d, post, rfl, by simp⟩
        · exact ⟨c :: mid, c', d', rest, by simp [hpost], by simp⟩
      · rintro ⟨mid, c', d', rest, hpost, rfl⟩
        cases mid with
        | nil        =>
          obtain ⟨rfl, htail⟩ := List.cons_eq_cons.mp hpost
          obtain ⟨rfl, rfl⟩ := List.cons_eq_cons.mp htail
          exact .inl (by simp)
        | cons e mid =>
          obtain ⟨rfl, htail⟩ := List.cons_eq_cons.mp hpost
          exact .inr ⟨mid, c', d', rest, htail, by simp⟩

theorem mem_substituted {pre post : Str} {t : Str × Nat} :
    t ∈ substituted pre post ↔ ∃ mid c rest, ∃ s ∈ idchars, post = mid ++ c :: rest ∧
      t = (pre ++ mid ++ s :: rest, (pre ++ mid).length + 1) := by
  induction post generalizing pre with
  | nil            => simp [substituted]
  | cons c post ih =>
    rw [substituted, List.mem_append, mem_withIdchar, ih]
    constructor
    · rintro (⟨s, hs, rfl⟩ | ⟨mid, d, rest, s, hs, rfl, rfl⟩)
      · exact ⟨[], c, post, s, hs, rfl, by simp⟩
      · exact ⟨c :: mid, d, rest, s, hs, rfl, by simp⟩
    · rintro ⟨mid, d, rest, s, hs, hpost, rfl⟩
      cases mid with
      | nil        =>
        obtain ⟨-, rfl⟩ := List.cons_eq_cons.mp hpost
        exact .inl ⟨s, hs, by simp⟩
      | cons e mid =>
        obtain ⟨rfl, rfl⟩ := List.cons_eq_cons.mp hpost
        exact .inr ⟨mid, d, rest, s, hs, rfl, by simp⟩

theorem mem_inserted {pre post : Str} {t : Str × Nat} :
    t ∈ inserted pre post ↔ ∃ mid rest, ∃ s ∈ idchars, post = mid ++ rest ∧
      t = (pre ++ mid ++ s :: rest, (pre ++ mid).length + 1) := by
  induction post generalizing pre with
  | nil            =>
    rw [inserted, mem_withIdchar]
    constructor
    · rintro ⟨s, hs, rfl⟩
      exact ⟨[], [], s, hs, rfl, by simp⟩
    · rintro ⟨mid, rest, s, hs, hpost, rfl⟩
      obtain ⟨rfl, rfl⟩ := List.append_eq_nil_iff.mp hpost.symm
      exact ⟨s, hs, by simp⟩
  | cons c post ih =>
    rw [inserted, List.mem_append, mem_withIdchar, ih]
    constructor
    · rintro (⟨s, hs, rfl⟩ | ⟨mid, rest, s, hs, rfl, rfl⟩)
      · exact ⟨[], c :: post, s, hs, rfl, by simp⟩
      · exact ⟨c :: mid, rest, s, hs, rfl, by simp⟩
    · rintro ⟨mid, rest, s, hs, hpost, rfl⟩
      cases mid with
      | nil        =>
        subst hpost
        exact .inl ⟨s, hs, by simp⟩
      | cons e mid =>
        obtain ⟨rfl, rfl⟩ := List.cons_eq_cons.mp hpost
        exact .inr ⟨mid, rest, s, hs, rfl, by simp⟩

theorem mem_edited {seed : Str} {flag : Bool} {t : Str × Nat} :
    t ∈ edited seed flag ↔
      (∃ pre post done rest, seed = pre ++ post ∧ Edit post done rest ∧
        t = (pre ++ done ++ rest, (pre ++ done).length)) ∨
      flag = false ∧ ∃ pre c d post, seed = pre ++ c :: d :: post ∧ t = (pre ++ d :: c :: post, pre.length) := by
  have htransposed : t ∈ (if flag then [] else transposed [] seed) ↔ flag = false ∧ t ∈ transposed [] seed := by
    cases flag with
    | true  => simp
    | false => simp
  unfold edited
  rw [List.mem_append, List.mem_append, List.mem_append, mem_deleted, htransposed, mem_transposed, mem_substituted,
    mem_inserted]
  constructor
  · rintro (((⟨pre, c, rest, rfl, rfl⟩ | ⟨hflag, pre, c, d, post, rfl, rfl⟩) | ⟨pre, c, rest, s, hs, rfl, rfl⟩) |
      ⟨pre, rest, s, hs, rfl, rfl⟩)
    · exact .inl ⟨pre, _, [], rest, rfl, .deletion c rest, by simp⟩
    · exact .inr ⟨hflag, pre, c, d, post, rfl, by simp⟩
    · exact .inl ⟨pre, _, [s], rest, rfl, .substitution c rest hs, by simp⟩
    · exact .inl ⟨pre, _, [s], rest, rfl, .insertion rest hs, by simp⟩
  · rintro (⟨pre, post, done, rest, rfl, hedit, rfl⟩ | ⟨hflag, pre, c, d, post, rfl, rfl⟩)
    · cases hedit with
      | deletion c rest        => exact .inl (.inl (.inl ⟨pre, c, rest, rfl, by simp⟩))
      | substitution c rest hs => exact .inl (.inr ⟨pre, c, rest, _, hs, rfl, by simp⟩)
      | insertion _ hs         => exact .inr ⟨pre, _, _, hs, rfl, by simp⟩
    · exact .inl (.inl (.inr ⟨hflag, pre, c, d, post, rfl, by simp⟩))

theorem mem_editedAt {pre post : Str} {t : Str × Nat} :
    t ∈ editedAt pre post ↔ ∃ done rest, Edit post done rest ∧ t = (pre ++ done ++ rest, pre.length) := by
  constructor
  · intro h
    cases post with
    | nil         =>
      rw [editedAt, mem_withIdchar] at h
      obtain ⟨s, hs, rfl⟩ := h
      exact ⟨[s], [], .insertion [] hs, by simp⟩
    | cons c post =>
      rw [editedAt, List.mem_append, List.mem_cons, mem_withIdchar, mem_withIdchar] at h
      obtain (rfl | ⟨s, hs, rfl⟩) | ⟨s, hs, rfl⟩ := h
      · exact ⟨[], post, .deletion c post, by simp⟩
      · exact ⟨[s], post, .substitution c post hs, by simp⟩
      · exact ⟨[s], c :: post, .insertion (c :: post) hs, by simp⟩
  · rintro ⟨done, rest, hedit, rfl⟩
    cases hedit with
    | deletion c rest        => simp [editedAt]
    | substitution c rest hs => simp [editedAt, mem_withIdchar, hs]
    | insertion rest hs      =>
      cases post with
      | nil         => simp [editedAt, mem_withIdchar, hs]
      | cons c post => simp [editedAt, mem_withIdchar, hs]

-- What the two levels look up
theorem mem_oneEdit {seed s : Str} : (∃ t ∈ edited seed false, t.1 = s) ↔ OneEdit seed s := by
  constructor
  · rintro ⟨t, ht, rfl⟩
    rw [mem_edited] at ht
    obtain ⟨pre, post, done, rest, hseed, hedit, rfl⟩ | ⟨-, pre, c, d, post, hseed, rfl⟩ := ht
    · exact .edit hseed hedit
    · exact .transposition hseed
  · intro h
    cases h with
    | edit hseed hedit     => exact ⟨_, (mem_edited).mpr (.inl ⟨_, _, _, _, hseed, hedit, rfl⟩), rfl⟩
    | transposition hseed => exact ⟨_, (mem_edited).mpr (.inr ⟨rfl, _, _, _, _, hseed, rfl⟩), rfl⟩

theorem mem_twoEdits {seed s : Str} : (∃ t ∈ (edited seed true).flatMap again, t.1 = s) ↔ TwoEdits seed s := by
  have hagain (pre done rest : Str) : again (pre ++ done ++ rest, (pre ++ done).length) = editedAt (pre ++ done) rest := by
    simp only [again, List.take_left, List.drop_left]
  constructor
  · rintro ⟨t, ht, rfl⟩
    obtain ⟨t', ht', hmem⟩ := List.mem_flatMap.mp ht
    rw [mem_edited] at ht'
    obtain ⟨pre, post, done, rest, hseed, hedit, rfl⟩ | ⟨hflag, -⟩ := ht'
    · rw [hagain, mem_editedAt] at hmem
      obtain ⟨done', rest', hedit', rfl⟩ := hmem
      exact .edits hseed hedit hedit'
    · exact absurd hflag (by simp)
  · intro h
    cases h with
    | @edits pre post done rest done' rest' hseed hedit hedit' =>
      have hmem : (pre ++ done ++ done' ++ rest', (pre ++ done).length) ∈
          again (pre ++ done ++ rest, (pre ++ done).length) := by
        rw [hagain, mem_editedAt]
        exact ⟨_, _, hedit', rfl⟩
      exact ⟨_, List.mem_flatMap.mpr ⟨_, (mem_edited).mpr (.inl ⟨_, _, _, _, hseed, hedit, rfl⟩), hmem⟩, rfl⟩

-- What the second level begins with
theorem edited_bounds {seed : Str} (hseed : 2 ≤ seed.length) {t : Str × Nat} (ht : t ∈ edited seed true) :
    t.2 ≤ t.1.length ∧ t.1 ≠ [] := by
  rw [mem_edited] at ht
  obtain ⟨pre, post, done, rest, rfl, hedit, rfl⟩ | ⟨hflag, -⟩ := ht
  · refine ⟨by simp, ?_⟩
    cases hedit with
    | deletion c rest        =>
      intro hnil
      simp at hnil
      simp [hnil] at hseed
    | substitution c rest hs => simp
    | insertion rest hs      => simp
  · exact absurd hflag (by simp)

end Meaning

section Levels

variable {void : Str → Nat → Char8} {dg : Str → Option T × Cost}

-- The first level and the second one
theorem spellerX_false_run {seed : Str} (hseed : seed ≠ []) (tried : List Str) :
    (spellerX void dg seed false).run tried =
      some ((scan 0 (fun t => dg t.1) (edited seed false) worst).best.value,
        tried ++ (scan 0 (fun t => dg t.1) (edited seed false) worst).tried.map Prod.fst) := by
  have hrun := returned_run (@tryAll_call_run _ dg (edited seed false) worst tried)
  rw [spellerX_eq hseed, StateT.run_bind]
  simp only [lookOf, Bool.false_eq_true, if_false]
  rw [hrun]
  rfl

theorem spellerX_true_run {seed : Str} (hseed : 2 ≤ seed.length) (tried : List Str) :
    (spellerX void dg seed true).run tried =
      some ((scan 0 (fun t => dg t.1) ((edited seed true).flatMap again) worst).best.value,
        tried ++ (scan 0 (fun t => dg t.1) ((edited seed true).flatMap again) worst).tried.map Prod.fst) := by
  have hne : seed ≠ [] := by
    intro h
    simp [h] at hseed
  have hrun := returned_run (@tryAll_spellerY_run _ void dg (edited seed true) (fun _ => edited_bounds hseed) worst
    Cost.zero_lt_max tried)
  rw [spellerX_eq hne, StateT.run_bind]
  simp only [lookOf, if_true]
  rw [hrun]
  rfl

theorem speller_run_short {seed : Str} (hseed : seed.length < 2) : (speller void dg seed).run [] = some (none, []) := by
  have hdist : maxdist seed = 0 := by
    unfold maxdist
    rw [if_pos (by omega)]
    omega
  rw [speller, hdist]
  rfl

theorem speller_run_one {seed : Str} (hseed : 2 ≤ seed.length) (hshort : seed.length < 4) :
    (speller void dg seed).run [] =
      some ((scan 0 (fun t => dg t.1) (edited seed false) worst).best.value,
        (scan 0 (fun t => dg t.1) (edited seed false) worst).tried.map Prod.fst) := by
  have hdist : maxdist seed = 1 := by
    unfold maxdist
    rw [if_pos hshort]
    omega
  have hne : seed ≠ [] := List.ne_nil_of_length_pos (by omega)
  have hrun := @spellerX_false_run _ void dg _ hne []
  have hrange : List.range 1 = [0] := rfl
  rw [speller, hdist, hrange, distances, StateT.run_bind]
  simp only [ne_eq, not_true_eq_false, decide_false]
  rw [hrun]
  cases (scan 0 (fun t => dg t.1) (edited seed false) (worst : Best T Cost)).best.value with
  | none   => rfl
  | some p => rfl

theorem speller_run_two {seed : Str} (hseed : 4 ≤ seed.length) :
    (speller void dg seed).run [] =
      if (scan 0 (fun t => dg t.1) (edited seed false) worst).best.value.isSome then
        some ((scan 0 (fun t => dg t.1) (edited seed false) worst).best.value,
          (scan 0 (fun t => dg t.1) (edited seed false) worst).tried.map Prod.fst)
      else
        some ((scan 0 (fun t => dg t.1) ((edited seed true).flatMap again) worst).best.value,
          (scan 0 (fun t => dg t.1) (edited seed false) worst).tried.map Prod.fst ++
            (scan 0 (fun t => dg t.1) ((edited seed true).flatMap again) worst).tried.map Prod.fst) := by
  have hdist : maxdist seed = 2 := by
    unfold maxdist
    rw [if_neg (by omega)]
  have hne : seed ≠ [] := List.ne_nil_of_length_pos (by omega)
  have hrun := @spellerX_false_run _ void dg _ hne []
  have hrun' := @spellerX_true_run _ void dg seed (by omega)
    ((scan 0 (fun t => dg t.1) (edited seed false) (worst : Best T Cost)).tried.map Prod.fst)
  have hrange : List.range 2 = [0, 1] := rfl
  have hflag : decide (1 ≠ 0) = true := rfl
  rw [speller, hdist, hrange, distances, StateT.run_bind]
  simp only [ne_eq, not_true_eq_false, decide_false]
  rw [hrun]
  cases (scan 0 (fun t => dg t.1) (edited seed false) (worst : Best T Cost)).best.value with
  | some p => rfl
  | none   =>
    simp only [Option.bind_eq_bind, Option.bind_some, Option.isSome_none, Bool.false_eq_true, if_false, List.nil_append]
    rw [distances, StateT.run_bind, hflag, hrun']
    cases (scan 0 (fun t => dg t.1) ((edited seed true).flatMap again) (worst : Best T Cost)).best.value with
    | some p => rfl
    | none   => rfl

end Levels

section Choice

variable {void : Str → Nat → Char8} {dg : Str → Option T × Cost}

-- `int.max` is the cost of having found nothing.
def Accepts (dg : Str → Option T × Cost) (s : Str) : Prop :=
  (dg s).1.isSome ∧ (dg s).2.val < 2 ^ 31 - 1

-- The result is that of a cheapest accepted string, or the search ended with the first one that costs nothing.
def BestOf (dg : Str → Option T × Cost) (accepted edits : Str → Prop) (tried : List Str) (result : Option T) : Prop :=
  ∃ s ∈ tried, edits s ∧ accepted s ∧ (dg s).1 = result ∧
    ((∀ s', edits s' → accepted s' → (dg s).2.val ≤ (dg s').2.val) ∨
      (dg s).2.val ≤ 0 ∧ ∃ l, tried = l ++ [s] ∧ ∀ s' ∈ l, accepted s' → 0 < (dg s').2.val)

-- The search for a spelling tries the edits it stands for, and no others.
structure Searches (dg : Str → Option T × Cost) (accepted : Str → Prop) (seed : Str) (tried : List Str)
    (result : Option T) : Prop where
  within : ∀ s ∈ tried, 2 ≤ seed.length ∧ OneEdit seed s ∨ 4 ≤ seed.length ∧ TwoEdits seed s
  one    : 2 ≤ seed.length → (∃ s, OneEdit seed s ∧ accepted s) → BestOf dg accepted (OneEdit seed) tried result
  two    : 4 ≤ seed.length → (∀ s, OneEdit seed s → ¬accepted s) → (∃ s, TwoEdits seed s ∧ accepted s) →
    BestOf dg accepted (TwoEdits seed) tried result
  null   : result = none → 2 ≤ seed.length →
    (∀ s, OneEdit seed s → ¬accepted s) ∧ (4 ≤ seed.length → ∀ s, TwoEdits seed s → ¬accepted s)

variable {ts : List (Str × Nat)}

theorem accepts_iff {s : Str} : Accepts dg s ↔ (dg s).1.isSome ∧ (dg s).2 < Cost.max :=
  Iff.rfl

theorem scan_tried {k : Str × Nat} (h : k ∈ (scan 0 (fun t => dg t.1) ts worst).tried) : k ∈ ts := by
  cases hstopped : (scan 0 (fun t => dg t.1) ts worst).stopped with
  | true  =>
    obtain ⟨l, k', htried, hpre, -⟩ := scan_stopped Cost.zero_lt_max hstopped
    rw [htried] at h
    exact hpre.subset h
  | false =>
    obtain ⟨htried, -⟩ := scan_finished Cost.zero_lt_max hstopped
    rwa [htried] at h

theorem found_none :
    (scan 0 (fun t => dg t.1) ts worst).best.value = none ↔ ∀ t ∈ ts, ¬Accepts dg t.1 := by
  cases hstopped : (scan 0 (fun t => dg t.1) ts worst).stopped with
  | true  =>
    obtain ⟨l, t, htried, hpre, hsome, hle, hbest, -⟩ := scan_stopped Cost.zero_lt_max hstopped
    rw [hbest]
    constructor
    · intro hnone
      simp [show (dg t.1).1 = none from hnone] at hsome
    · intro hall
      have haccepts : Accepts dg t.1 := (accepts_iff).mpr ⟨hsome, hle.trans_lt Cost.zero_lt_max⟩
      exact absurd haccepts (hall t (hpre.subset (by simp)))
  | false =>
    obtain ⟨-, -, -, hall, hor⟩ := scan_finished Cost.zero_lt_max hstopped
    obtain hbest | ⟨t, ht, hsome, hlt, hbest⟩ := hor
    · rw [hbest] at hall ⊢
      refine ⟨fun _ t ht haccepts => ?_, fun _ => rfl⟩
      obtain ⟨hsome, hlt⟩ := (accepts_iff).mp haccepts
      exact absurd hlt (not_lt.mpr (hall t ht hsome))
    · rw [hbest]
      constructor
      · intro hnone
        simp [show (dg t.1).1 = none from hnone] at hsome
      · intro hall
        exact absurd ((accepts_iff).mpr ⟨hsome, hlt⟩) (hall t ht)

-- What is found among the strings of a list, after others that were rejected
theorem found_best {edits : Str → Prop} {tried : List Str} (hedits : ∀ s, (∃ t ∈ ts, t.1 = s) ↔ edits s)
    (htried : ∀ s ∈ tried, ¬Accepts dg s) (h : ∃ s, edits s ∧ Accepts dg s) :
    BestOf dg (Accepts dg) edits (tried ++ (scan 0 (fun t => dg t.1) ts worst).tried.map Prod.fst)
      (scan 0 (fun t => dg t.1) ts worst).best.value := by
  have hmem {t : Str × Nat} (ht : t ∈ ts) : edits t.1 := (hedits t.1).mp ⟨t, ht, rfl⟩
  cases hstopped : (scan 0 (fun t => dg t.1) ts worst).stopped with
  | true  =>
    obtain ⟨l, t, hall, hpre, hsome, hle, hbest, hbefore⟩ := scan_stopped Cost.zero_lt_max hstopped
    refine ⟨t.1, ?_, hmem (hpre.subset (by simp)), (accepts_iff).mpr ⟨hsome, hle.trans_lt Cost.zero_lt_max⟩, ?_, .inr ?_⟩
    · simp [hall]
    · rw [hbest]
    · refine ⟨hle, tried ++ l.map Prod.fst, by simp [hall], ?_⟩
      intro s' hs' haccepts
      cases List.mem_append.mp hs' with
      | inl hold => exact absurd haccepts (htried s' hold)
      | inr hnew =>
        obtain ⟨t', ht', rfl⟩ := List.mem_map.mp hnew
        exact hbefore t' ht' haccepts.1
  | false =>
    obtain ⟨hall, -, -, hleast, hor⟩ := scan_finished Cost.zero_lt_max hstopped
    obtain hbest | ⟨t, ht, hsome, hlt, hbest⟩ := hor
    · have hnone : (scan 0 (fun t => dg t.1) ts (worst : Best T Cost)).best.value = none := by
        rw [hbest]
        rfl
      obtain ⟨s, hs, haccepts⟩ := h
      obtain ⟨t, ht, rfl⟩ := (hedits s).mpr hs
      exact absurd haccepts ((found_none).mp hnone t ht)
    · refine ⟨t.1, ?_, hmem ht, (accepts_iff).mpr ⟨hsome, hlt⟩, ?_, .inl ?_⟩
      · rw [hall]
        exact List.mem_append_right _ (List.mem_map_of_mem ht)
      · rw [hbest]
      · intro s' hs' haccepts
        obtain ⟨t', ht', rfl⟩ := (hedits s').mpr hs'
        have hle := hleast t' ht' haccepts.1
        rw [hbest] at hle
        exact hle

theorem oneEdits_tried {seed s : Str}
    (hs : s ∈ (scan 0 (fun t => dg t.1) (edited seed false) worst).tried.map Prod.fst) : OneEdit seed s := by
  obtain ⟨t, ht, rfl⟩ := List.mem_map.mp hs
  exact (mem_oneEdit).mp ⟨t, scan_tried ht, rfl⟩

theorem twoEdits_tried {seed s : Str}
    (hs : s ∈ (scan 0 (fun t => dg t.1) ((edited seed true).flatMap again) worst).tried.map Prod.fst) :
    TwoEdits seed s := by
  obtain ⟨t, ht, rfl⟩ := List.mem_map.mp hs
  exact (mem_twoEdits).mp ⟨t, scan_tried ht, rfl⟩

theorem oneEdit_none {seed : Str} :
    (scan 0 (fun t => dg t.1) (edited seed false) worst).best.value = none ↔ ∀ s, OneEdit seed s → ¬Accepts dg s := by
  rw [found_none]
  constructor
  · intro h s hs
    obtain ⟨t, ht, rfl⟩ := (mem_oneEdit).mpr hs
    exact h t ht
  · intro h t ht
    exact h t.1 ((mem_oneEdit).mp ⟨t, ht, rfl⟩)

theorem twoEdits_none {seed : Str} :
    (scan 0 (fun t => dg t.1) ((edited seed true).flatMap again) worst).best.value = none ↔
      ∀ s, TwoEdits seed s → ¬Accepts dg s := by
  rw [found_none]
  constructor
  · intro h s hs
    obtain ⟨t, ht, rfl⟩ := (mem_twoEdits).mpr hs
    exact h t ht
  · intro h t ht
    exact h t.1 ((mem_twoEdits).mp ⟨t, ht, rfl⟩)

theorem searches_one {seed : Str} (hseed : 2 ≤ seed.length)
    (h : seed.length < 4 ∨ ∃ s, OneEdit seed s ∧ Accepts dg s) :
    Searches dg (Accepts dg) seed ((scan 0 (fun t => dg t.1) (edited seed false) worst).tried.map Prod.fst)
      (scan 0 (fun t => dg t.1) (edited seed false) worst).best.value where
  within := fun s hs => .inl ⟨hseed, oneEdits_tried hs⟩
  one    := fun _ hone => by
    simpa using @found_best _ _ _ _ [] (fun _ => mem_oneEdit) (by simp) hone
  two    := fun hlong hnone _ => by
    obtain hshort | ⟨s, hs, haccepts⟩ := h
    · omega
    · exact absurd haccepts (hnone s hs)
  null   := fun hnone _ => by
    refine ⟨(oneEdit_none).mp hnone, fun hlong => ?_⟩
    obtain hshort | ⟨s, hs, haccepts⟩ := h
    · omega
    · exact absurd haccepts ((oneEdit_none).mp hnone s hs)

theorem searches_two {seed : Str} (hseed : 4 ≤ seed.length) (h : ∀ s, OneEdit seed s → ¬Accepts dg s) :
    Searches dg (Accepts dg) seed
      ((scan 0 (fun t => dg t.1) (edited seed false) worst).tried.map Prod.fst ++
        (scan 0 (fun t => dg t.1) ((edited seed true).flatMap again) worst).tried.map Prod.fst)
      (scan 0 (fun t => dg t.1) ((edited seed true).flatMap again) worst).best.value where
  within := fun s hs => by
    cases List.mem_append.mp hs with
    | inl hone => exact .inl ⟨by omega, oneEdits_tried hone⟩
    | inr htwo => exact .inr ⟨hseed, twoEdits_tried htwo⟩
  one    := fun _ hone => by
    obtain ⟨s, hs, haccepts⟩ := hone
    exact absurd haccepts (h s hs)
  two    := fun _ _ htwo => found_best (fun _ => mem_twoEdits) (fun s hs => h s (oneEdits_tried hs)) htwo
  null   := fun hnone _ => ⟨h, fun _ => (twoEdits_none).mp hnone⟩

theorem speller_searches (void : Str → Nat → Char8) (dg : Str → Option T × Cost) (seed : Str) :
    ∃ tried result, (speller void dg seed).run [] = some (result, tried) ∧
      Searches dg (Accepts dg) seed tried result := by
  by_cases hempty : seed.length < 2
  · refine ⟨[], none, speller_run_short hempty, ?_⟩
    exact {
      within := by simp
      one    := fun h => by omega
      two    := fun h => by omega
      null   := fun _ h => by omega
    }
  have hseed : 2 ≤ seed.length := not_lt.mp hempty
  by_cases hshort : seed.length < 4
  · exact ⟨_, _, speller_run_one hseed hshort, searches_one hseed (.inl hshort)⟩
  have hlong : 4 ≤ seed.length := not_lt.mp hshort
  have hrun := @speller_run_two _ void dg _ hlong
  cases hfound : (scan 0 (fun t => dg t.1) (edited seed false) (worst : Best T Cost)).best.value with
  | some p =>
    rw [hfound] at hrun
    have hone : ∃ s, OneEdit seed s ∧ Accepts dg s := by
      by_contra hnone
      have hnone' : ∀ s, OneEdit seed s → ¬Accepts dg s := fun s hs haccepts => hnone ⟨s, hs, haccepts⟩
      rw [(oneEdit_none).mpr hnone'] at hfound
      cases hfound
    have hsearches := @searches_one _ dg _ hseed (.inr hone)
    rw [hfound] at hsearches
    exact ⟨_, _, hrun, hsearches⟩
  | none   =>
    rw [hfound] at hrun
    exact ⟨_, _, hrun, searches_two hlong ((oneEdit_none).mp hfound)⟩

-- Every string is accepted, at the highest cost there is.
def dearest : Str → Option Unit × Cost :=
  fun _ => (some (), Cost.max)

-- Nothing is found where that is what the lookups come to.
theorem not_finds_dearest :
    ¬∃ tried result, (speller (fun _ _ => 0) dearest [97, 98]).run [] = some (result, tried) ∧
      Searches dearest (fun s => (dearest s).1.isSome) [97, 98] tried result := by
  rintro ⟨tried, result, hrun, hsearches⟩
  have hrejects (s : Str) : ¬Accepts dearest s := fun haccepts => absurd haccepts.2 (lt_irrefl _)
  have hnone : (scan 0 (fun t => dearest t.1) (edited [97, 98] false) worst).best.value = none :=
    (oneEdit_none).mpr fun s _ => hrejects s
  have hshort := @speller_run_one _ (fun _ _ => 0) dearest [97, 98] (by simp) (by simp)
  rw [hshort, hnone] at hrun
  generalize (scan 0 (fun t => dearest t.1) (edited [97, 98] false) worst).tried.map Prod.fst = l at hrun
  have hresult : none = result := congrArg Prod.fst (Option.some.inj hrun)
  have hedit : OneEdit [97, 98] ([] ++ [] ++ [98]) := @OneEdit.edit _ [] _ _ _ rfl (.deletion 97 [98])
  exact (hsearches.null hresult.symm (by simp)).1 _ hedit rfl

end Choice

end Compiler.Root.Speller
