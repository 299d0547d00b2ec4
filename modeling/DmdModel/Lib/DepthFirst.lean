import Mathlib

-- Depth-first search: the order in which it goes back from the nodes of a graph, and walks that mark nodes.
namespace DepthFirst

open Relation

variable {S ι : Type*}

-- The nodes that a search goes back from, in this order, when it starts at the nodes of a list; what is in
-- V was visited before.
inductive Postorder (next : ι → List ι) : (V : Set ι) → (roots : List ι) → (order : List ι) → Prop
  | nil {V : Set ι} :
    Postorder next V [] []
  | skip {V : Set ι} {r : ι} {roots order : List ι} :
    r ∈ V → Postorder next V roots order → Postorder next V (r :: roots) order
  | visit {V : Set ι} {r : ι} {roots order order' : List ι} :
    r ∉ V → Postorder next (insert r V) (next r) order →
    Postorder next (insert r V ∪ {c | c ∈ order}) roots order' →
    Postorder next V (r :: roots) (order ++ r :: order')

-- A path of nodes that are not in V, but for its first one.
def Discovers (next : ι → List ι) (V : Set ι) : ι → ι → Prop :=
  ReflTransGen fun x y => y ∈ next x ∧ y ∉ V

theorem Discovers.mono {next : ι → List ι} {V V' : Set ι} {b c : ι} (hV : V ⊆ V')
    (h : Discovers next V' b c) : Discovers next V b c :=
  ReflTransGen.mono (fun _ _ hxy => ⟨hxy.left, fun hy => hxy.right (hV hy)⟩) b c h

namespace Postorder

variable {next : ι → List ι} {V : Set ι} {roots order order' : List ι} {b c d r : ι}

theorem unvisited (h : Postorder next V roots order) : ∀ c ∈ order, c ∉ V := by
  induction h with
  | nil => exact nofun
  | skip _ _ ih => exact ih
  | visit hr _ _ ih ih' =>
    intro c hc hcV
    obtain hc | rfl | hc := List.mem_append.mp hc |>.imp_right List.mem_cons.mp
    case inl     => exact ih c hc (.inr hcV)
    case inr.inl => exact hr hcV
    case inr.inr => exact ih' c hc (.inl (.inr hcV))

theorem nodup (h : Postorder next V roots order) : order.Nodup := by
  induction h with
  | nil => exact List.nodup_nil
  | skip _ _ ih => exact ih
  | @visit V r roots order order' hr h h' ih ih' =>
    refine List.nodup_append'.mpr ⟨ih, List.nodup_cons.mpr ⟨fun hr' => ?_, ih'⟩, fun c hc hc' => ?_⟩
    case refine_1 => exact h'.unvisited r hr' (.inl (.inl rfl))
    case refine_2 =>
      obtain rfl | hc' := List.mem_cons.mp hc'
      case inl => exact h.unvisited c hc (.inl rfl)
      case inr => exact h'.unvisited c hc' (.inr hc)

theorem roots_mem (h : Postorder next V roots order) : ∀ r ∈ roots, r ∈ V ∨ r ∈ order := by
  induction h with
  | nil => exact nofun
  | skip hr _ ih => exact List.forall_mem_cons.mpr ⟨.inl hr, ih⟩
  | visit _ _ _ _ ih' =>
    refine List.forall_mem_cons.mpr ⟨.inr (by simp), fun c hc => ?_⟩
    obtain ((rfl | hc) | hc) | hc := ih' c hc
    case inl.inl.inl => simp
    case inl.inl.inr => exact .inl hc
    case inl.inr     => exact .inr (List.mem_append_left _ hc)
    case inr         => exact .inr (List.mem_append_right _ (List.mem_cons_of_mem _ hc))

theorem closed (h : Postorder next V roots order) :
    ∀ c ∈ order, ∀ d ∈ next c, d ∈ V ∨ d ∈ order := by
  induction h with
  | nil => exact nofun
  | skip _ _ ih => exact ih
  | @visit V r roots order order' _ h _ ih ih' =>
    intro c hc d hd
    obtain hc | rfl | hc := List.mem_append.mp hc |>.imp_right List.mem_cons.mp
    case inl =>
      obtain (rfl | hd) | hd := ih c hc d hd
      case inl.inl => simp
      case inl.inr => exact .inl hd
      case inr     => exact .inr (List.mem_append_left _ hd)
    case inr.inl =>
      obtain (rfl | hd) | hd := h.roots_mem d hd
      case inl.inl => simp
      case inl.inr => exact .inl hd
      case inr     => exact .inr (List.mem_append_left _ hd)
    case inr.inr =>
      obtain ((rfl | hd) | hd) | hd := ih' c hc d hd
      case inl.inl.inl => simp
      case inl.inl.inr => exact .inl hd
      case inl.inr     => exact .inr (List.mem_append_left _ hd)
      case inr         => exact .inr (List.mem_append_right _ (List.mem_cons_of_mem _ hd))

theorem sound (h : Postorder next V roots order) :
    ∀ c ∈ order, ∃ r ∈ roots, r ∉ V ∧ Discovers next V r c := by
  induction h with
  | nil => exact nofun
  | skip _ _ ih =>
    intro c hc
    obtain ⟨r, hr, hrc⟩ := ih c hc
    exact ⟨r, List.mem_cons_of_mem _ hr, hrc⟩
  | @visit V r roots order order' hr _ _ ih ih' =>
    intro c hc
    obtain hc | rfl | hc := List.mem_append.mp hc |>.imp_right List.mem_cons.mp
    case inl =>
      obtain ⟨x, hx, hxV, hxc⟩ := ih c hc
      refine ⟨r, List.mem_cons_self, hr, .head ⟨hx, fun hx' => hxV (.inr hx')⟩ ?_⟩
      exact Discovers.mono (Set.subset_insert r V) hxc
    case inr.inl => exact ⟨c, List.mem_cons_self, hr, .refl⟩
    case inr.inr =>
      obtain ⟨x, hx, hxV, hxc⟩ := ih' c hc
      have hsub : V ⊆ insert r V ∪ {c | c ∈ order} := fun _ hy => .inl (.inr hy)
      exact ⟨x, List.mem_cons_of_mem _ hx, fun hx' => hxV (hsub hx'), Discovers.mono hsub hxc⟩

-- A search from one node goes to what it leads to.
theorem mem_iff (h : Postorder next V [b] order) (hb : b ∉ V) : c ∈ order ↔ Discovers next V b c := by
  constructor
  case mp =>
    intro hc
    obtain ⟨r, hr, -, hrc⟩ := h.sound c hc
    exact List.mem_singleton.mp hr ▸ hrc
  case mpr =>
    intro hc
    induction hc with
    | refl => exact (h.roots_mem b (List.mem_singleton_self b)).resolve_left hb
    | tail _ he ih => exact (h.closed _ ih _ he.left).resolve_left he.right

-- It goes back from that node last.
theorem exists_concat (h : Postorder next V [b] order) (hb : b ∉ V) : ∃ l, order = l ++ [b] := by
  cases h with
  | skip hb' => exact absurd hb' hb
  | visit _ _ h' =>
    cases h' with
    | nil => exact ⟨_, rfl⟩

theorem unique (h : Postorder next V roots order) (h' : Postorder next V roots order') :
    order = order' := by
  induction h generalizing order' with
  | nil =>
    cases h' with
    | nil => rfl
  | skip hr _ ih =>
    cases h' with
    | skip _ h'      => exact ih h'
    | visit hr' _ _  => exact absurd hr hr'
  | visit hr _ _ ih₁ ih₂ =>
    cases h' with
    | skip hr' _     => exact absurd hr' hr
    | visit _ h₁ h₂ =>
      obtain rfl := ih₁ h₁
      rw [ih₂ h₂]

-- What was visited before matters only where the search goes.
theorem congr {U V' : Set ι} (hU : ∀ x ∈ U, ∀ y ∈ next x, y ∈ U) (hroots : ∀ r ∈ roots, r ∈ U)
    (hV : ∀ x ∈ U, x ∈ V' ↔ x ∈ V) (h : Postorder next V roots order) :
    Postorder next V' roots order := by
  induction h generalizing V' with
  | nil => exact .nil
  | skip hr _ ih =>
    obtain ⟨hrU, hroots⟩ := List.forall_mem_cons.mp hroots
    exact .skip ((hV _ hrU).mpr hr) (ih hroots hV)
  | visit hr _ _ ih ih' =>
    obtain ⟨hrU, hroots⟩ := List.forall_mem_cons.mp hroots
    refine .visit (mt (hV _ hrU).mp hr) (ih (hU _ hrU) fun x hx => ?_) (ih' hroots fun x hx => ?_)
    case refine_1 => exact or_congr_right (hV x hx)
    case refine_2 => exact or_congr_left (or_congr_right (hV x hx))

end Postorder

-- A graph whose nodes are marked in a state. A walk comes to a node that is not marked with `enter`, which
-- marks it, and goes back from it with `leave`.
structure Marking (S ι : Type*) where
  next    : S → ι → List ι
  visited : S → ι → Bool
  enter   : ι → S → S
  leave   : ι → S → S

structure Lawful (m : Marking S ι) : Prop where
  next_enter    : ∀ b s, m.next (m.enter b s) = m.next s
  next_leave    : ∀ b s, m.next (m.leave b s) = m.next s
  visited_enter : ∀ b s c, m.visited (m.enter b s) c ↔ c = b ∨ m.visited s c
  visited_leave : ∀ b s c, m.visited (m.leave b s) c ↔ m.visited s c

namespace Marking

-- Marks b and what it leads to, by way of nodes that are not marked; none if this takes more depth.
def walk (m : Marking S ι) : ℕ → ι → S → Option S
  | 0, _, _ => none
  | depth + 1, b, s => do
    let s := m.enter b s
    let s ← (m.next s b).foldlM (fun s c => if m.visited s c then some s else m.walk depth c s) s
    return m.leave b s

variable (m : Marking S ι)

-- The walk of the nodes of a list.
def walks (depth : ℕ) (l : List ι) (s : S) : Option S :=
  l.foldlM (fun s c => if m.visited s c then some s else m.walk depth c s) s

theorem walk_succ (depth : ℕ) (b : ι) (s : S) : m.walk (depth + 1) b s =
    (m.walks depth (m.next (m.enter b s) b) (m.enter b s)).map (m.leave b) := by
  rw [Option.map_eq_bind]
  rfl

theorem walks_cons (depth : ℕ) (c : ι) (l : List ι) (s : S) : m.walks depth (c :: l) s =
    if m.visited s c then m.walks depth l s else (m.walk depth c s).bind (m.walks depth l) := by
  rw [walks, List.foldlM_cons]
  split <;> rfl

-- A relation between a state and a later one.
theorem walk_induction {R : S → S → Prop} (hrefl : ∀ s, R s s)
    (htrans : ∀ s s' s'', R s s' → R s' s'' → R s s'') (henter : ∀ b s, R s (m.enter b s))
    (hleave : ∀ b s, R s (m.leave b s)) {depth : ℕ} {b : ι} {s s' : S}
    (h : m.walk depth b s = some s') : R s s' := by
  have hlist (depth : ℕ) (ih : ∀ b s s', m.walk depth b s = some s' → R s s') (l : List ι) :
      ∀ s s', m.walks depth l s = some s' → R s s' := by
    induction l with
    | nil => exact fun s s' h => Option.some.inj h ▸ hrefl s
    | cons c l ihl =>
      intro s s' h
      rw [walks_cons] at h
      split at h
      case isTrue => exact ihl s s' h
      case isFalse =>
        obtain ⟨s₁, h₁, h⟩ := Option.bind_eq_some_iff.mp h
        exact htrans _ _ _ (ih c s s₁ h₁) (ihl s₁ s' h)
  have hwalk (depth : ℕ) : ∀ b s s', m.walk depth b s = some s' → R s s' := by
    induction depth with
    | zero => exact fun b s s' h => by cases h
    | succ depth ih =>
      intro b s s' h
      rw [walk_succ] at h
      obtain ⟨s₁, h₁, rfl⟩ := Option.map_eq_some_iff.mp h
      exact htrans _ _ _ (htrans _ _ _ (henter b s) (hlist depth ih _ _ _ h₁)) (hleave b s₁)
  exact hwalk depth b s s' h

def marked (s : S) : Set ι :=
  {c | m.visited s c}

-- What the walk of the nodes in l does; it goes back from the nodes of order.
structure Walked (l : List ι) (s s' : S) (order : List ι) : Prop where
  next      : m.next s' = m.next s
  postorder : Postorder (m.next s) (m.marked s) l order
  marked    : m.marked s' = m.marked s ∪ {c | c ∈ order}
  -- `leave` may keep a list of the nodes that the walk goes back from.
  record    : ∀ record : S → List ι, (∀ b s, record (m.enter b s) = record s) →
    (∀ b s, record (m.leave b s) = record s ++ [b]) → record s' = record s ++ order

variable {m} {l order order' : List ι} {s s' s'' : S} {b c : ι}

theorem marked_enter (hm : Lawful m) : m.marked (m.enter b s) = insert b (m.marked s) :=
  Set.ext fun c => hm.visited_enter b s c

theorem marked_leave (hm : Lawful m) : m.marked (m.leave b s) = m.marked s :=
  Set.ext fun c => hm.visited_leave b s c

theorem Walked.nil : m.Walked [] s s [] where
  next         := rfl
  postorder    := .nil
  marked       := by simp
  record f _ _ := (List.append_nil _).symm

theorem Walked.skip (hc : m.visited s c) (h : m.Walked l s s' order) :
    m.Walked (c :: l) s s' order where
  next      := h.next
  postorder := .skip hc h.postorder
  marked    := h.marked
  record    := h.record

-- The walk of a node, from that of what it leads to, and then of a list.
theorem Walked.visit (hm : Lawful m) (hb : ¬m.visited s b)
    (h : m.Walked (m.next s b) (m.enter b s) s' order) (h' : m.Walked l (m.leave b s') s'' order') :
    m.Walked (b :: l) s s'' (order ++ b :: order') := by
  have hnext : m.next (m.leave b s') = m.next s :=
    (hm.next_leave b s').trans (h.next.trans (hm.next_enter b s))
  have hmarked : m.marked (m.leave b s') = insert b (m.marked s) ∪ {c | c ∈ order} := by
    rw [marked_leave hm, h.marked, marked_enter hm]
  refine {
    next      := h'.next.trans hnext
    postorder := .visit hb ?_ ?_
    marked    := ?_
    record    := ?_
  }
  case refine_1 =>
    have hpost := h.postorder
    rwa [hm.next_enter, marked_enter hm] at hpost
  case refine_2 =>
    have hpost := h'.postorder
    rwa [hnext, hmarked] at hpost
  case refine_3 =>
    rw [h'.marked, hmarked]
    ext c
    simp only [Set.mem_union, Set.mem_insert_iff, Set.mem_ofPred_eq, List.mem_append, List.mem_cons]
    tauto
  case refine_4 =>
    intro f hf hf'
    rw [h'.record f hf hf', hf', h.record f hf hf', hf]
    simp

-- The nodes of a finite set that are not marked.
def unvisited (m : Marking S ι) (U : Finset ι) (s : S) : Finset ι :=
  U.filter fun c => ¬m.visited s c

variable {U : Finset ι}

theorem unvisited_mono (hm : m.marked s ⊆ m.marked s') : m.unvisited U s' ⊆ m.unvisited U s :=
  Finset.monotone_filter_right U fun _ _ hc hc' => hc (hm hc')

theorem unvisited_enter (hm : Lawful m) (hb : b ∈ U) (hbv : ¬m.visited s b) :
    (m.unvisited U (m.enter b s)).card < (m.unvisited U s).card := by
  refine Finset.card_lt_card ((Finset.ssubset_iff_of_subset ?_).mpr ⟨b, ?_, ?_⟩)
  case refine_1 => exact unvisited_mono fun c hc => (hm.visited_enter b s c).mpr (.inr hc)
  case refine_2 => exact Finset.mem_filter.mpr ⟨hb, hbv⟩
  case refine_3 =>
    intro hmem
    exact (Finset.mem_filter.mp hmem).right ((hm.visited_enter b s b).mpr (.inl rfl))

-- In a finite set that the edges do not leave, a walk needs no more depth than there are nodes to mark.
theorem exists_walks (hm : Lawful m) {depth : ℕ} (hU : ∀ x ∈ U, ∀ y ∈ m.next s x, y ∈ U)
    (hd : (m.unvisited U s).card ≤ depth) (hl : ∀ c ∈ l, c ∈ U) :
    ∃ s' order, m.walks depth l s = some s' ∧ m.Walked l s s' order := by
  induction depth using Nat.strong_induction_on generalizing l s with
  | _ depth ih =>
    induction l generalizing s with
    | nil => exact ⟨s, [], rfl, .nil⟩
    | cons c l ihl =>
      obtain ⟨hc, hl⟩ := List.forall_mem_cons.mp hl
      rw [walks_cons]
      split
      case isTrue hcv =>
        obtain ⟨s', order, hs', hw⟩ := ihl hU hd hl
        exact ⟨s', order, hs', hw.skip hcv⟩
      case isFalse hcv =>
        have hlt := unvisited_enter hm hc hcv
        obtain _ | depth := depth
        case zero => omega
        case succ =>
          have hnext := hm.next_enter c s
          obtain ⟨s₁, order₁, hs₁, hw₁⟩ := ih depth (Nat.lt_succ_self depth) (hnext ▸ hU)
            (l := m.next s c) (by omega) (hU c hc)
          have hsub : m.marked s ⊆ m.marked (m.leave c s₁) := by
            rw [marked_leave hm, hw₁.marked, marked_enter hm]
            exact fun x hx => .inl (.inr hx)
          have hnext₁ : m.next (m.leave c s₁) = m.next s :=
            (hm.next_leave c s₁).trans (hw₁.next.trans hnext)
          obtain ⟨s₂, order₂, hs₂, hw₂⟩ := ihl (hnext₁ ▸ hU)
            ((Finset.card_le_card (unvisited_mono hsub)).trans hd) hl
          refine ⟨s₂, order₁ ++ c :: order₂, ?_, hw₁.visit hm hcv hw₂⟩
          rw [walk_succ, hnext, hs₁]
          exact hs₂

-- The walk of one node that is not marked.
theorem exists_walk (hm : Lawful m) {depth : ℕ} (hU : ∀ x ∈ U, ∀ y ∈ m.next s x, y ∈ U)
    (hd : (m.unvisited U s).card ≤ depth) (hb : b ∈ U) (hbv : ¬m.visited s b) :
    ∃ s' order, m.walk depth b s = some s' ∧ m.Walked [b] s s' order := by
  obtain ⟨s', order, hs', hw⟩ := exists_walks hm (l := [b]) hU hd
    (List.forall_mem_singleton.mpr hb)
  rw [walks_cons, if_neg hbv] at hs'
  refine ⟨s', order, ?_, hw⟩
  rw [← hs']
  exact (Option.bind_fun_some _).symm

end Marking

end DepthFirst
