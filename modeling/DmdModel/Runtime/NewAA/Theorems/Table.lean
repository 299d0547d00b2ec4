import DmdModel.Runtime.NewAA.Basic
import DmdModel.Lib.ExceptPost
import DmdModel.Lib.OpenAddressing

open TriangularProbe

namespace Runtime.NewAA

variable {K V : Type _}

def entries (bs : List (Bucket K V)) : List (Entry K V) :=
  bs.filterMap (·.entry)

section Hash

variable [Hashable K]

theorem le_calcHash (key : K) : HASH_FILLED_MARK ≤ calcHash key := by
  rw [calcHash, UInt64.le_iff_toNat_le, UInt64.toNat_or]
  exact Nat.right_le_or

theorem calcHash_congr [BEq K] [LawfulHashable K] {k₁ k₂ : K} (h : k₁ == k₂) : calcHash k₁ = calcHash k₂ := by
  simp [calcHash, hash_eq h]

-- The three kinds of buckets: empty, deleted, and filled with an entry and the hash of its key.
inductive Bucket.Ok : Bucket K V → Prop
  | empty : Ok .init
  | deleted : Ok ⟨HASH_DELETED, none⟩
  | filled (e : Entry K V) : Ok ⟨calcHash e.key, some e⟩

namespace Bucket.Ok

variable {b : Bucket K V}

theorem filled_eq (h : b.Ok) : b.filled = b.entry.isSome := by
  cases h
  case empty => rfl
  case deleted => rfl
  case filled e => simp [Bucket.filled, le_calcHash]

theorem empty_filled (e : Entry K V) : (⟨calcHash e.key, some e⟩ : Bucket K V).empty = false := by
  have h := le_calcHash e.key
  simp only [Bucket.empty, beq_eq_false_iff_ne]
  intro he
  rw [he] at h
  exact absurd h (by decide)

theorem deleted_filled (e : Entry K V) :
    (⟨calcHash e.key, some e⟩ : Bucket K V).deleted = false := by
  have h := le_calcHash e.key
  simp only [Bucket.deleted, beq_eq_false_iff_ne]
  intro he
  rw [he] at h
  exact absurd h (by decide)

theorem eq_filled {e : Entry K V} (h : b.Ok) (he : b.entry = some e) :
    b = ⟨calcHash e.key, some e⟩ := by
  cases h <;> simp_all [Bucket.init]

theorem eq_init (h : b.Ok) (he : b.empty) : b = .init := by
  cases h
  case empty => rfl
  case deleted => cases he
  case filled e => simp [empty_filled] at he

theorem eq_deleted (h : b.Ok) (hd : b.deleted) : b = ⟨HASH_DELETED, none⟩ := by
  cases h
  case empty => cases hd
  case deleted => rfl
  case filled e => simp [deleted_filled] at hd

-- A bucket that holds no entry is either empty or deleted.
theorem deleted_eq_not_empty (h : b.Ok) (he : b.entry = none) : b.deleted = !b.empty := by
  cases h
  case empty => rfl
  case deleted => rfl
  case filled => simp at he

end Bucket.Ok
end Hash

theorem bucketAt_of_le {bs : List (Bucket K V)} {i : Nat} (h : bs.length ≤ i) :
    bucketAt bs i = .init := by
  simp [bucketAt, List.getElem?_eq_none h]

theorem bucketAt_eq_getElem {bs : List (Bucket K V)} {i : Nat} (h : i < bs.length) :
    bucketAt bs i = bs[i] := by
  simp [bucketAt, h]

theorem bucketAt_set_self {bs : List (Bucket K V)} {i : Nat} {b : Bucket K V} (h : i < bs.length) :
    bucketAt (bs.set i b) i = b := by
  simp [bucketAt, h]

theorem bucketAt_set_ne {bs : List (Bucket K V)} {i j : Nat} {b : Bucket K V} (h : i ≠ j) :
    bucketAt (bs.set i b) j = bucketAt bs j := by
  simp [bucketAt, h]

-- No bucket gets empty when a bucket is set to one that is not empty.
theorem bucketAt_set_not_empty {bs : List (Bucket K V)} {i j : Nat} {b : Bucket K V}
    (hb : b.empty = false) (h : (bucketAt bs j).empty = false) :
    (bucketAt (bs.set i b) j).empty = false := by
  by_cases hi : i = j
  case neg => rwa [bucketAt_set_ne hi]
  case pos =>
    subst hi
    by_cases hl : i < bs.length
    case pos => rwa [bucketAt_set_self hl]
    case neg => rwa [List.set_eq_of_length_le (Nat.le_of_not_lt hl)]

theorem bucketAt_replicate {n i : Nat} :
    bucketAt (List.replicate n (.init : Bucket K V)) i = .init := by
  simp only [bucketAt, List.getElem?_replicate]
  split <;> rfl

theorem lt_length_of_entry {bs : List (Bucket K V)} {i : Nat} {e : Entry K V}
    (h : (bucketAt bs i).entry = some e) : i < bs.length := by
  by_contra hn
  simp [bucketAt_of_le (Nat.le_of_not_lt hn), Bucket.init] at h

theorem mem_entries_iff {bs : List (Bucket K V)} {e : Entry K V} :
    e ∈ entries bs ↔ ∃ i, (bucketAt bs i).entry = some e := by
  simp only [entries, List.mem_filterMap]
  constructor
  case mp =>
    intro ⟨b, hb, he⟩
    have ⟨i, hi⟩ := List.getElem?_of_mem hb
    exact ⟨i, by simp [bucketAt, hi, he]⟩
  case mpr =>
    intro ⟨i, hi⟩
    have hl := lt_length_of_entry hi
    exact ⟨bs[i], List.getElem_mem hl, by rwa [bucketAt_eq_getElem hl] at hi⟩

theorem set_eq_append {α : Type _} {l : List α} {i : Nat} (h : i < l.length) (a : α) :
    l.set i a = l.take i ++ a :: l.drop (i + 1) := by
  rw [List.set_eq_take_append_cons_drop, if_pos h]

theorem eq_append_getElem {α : Type _} {l : List α} {i : Nat} (h : i < l.length) :
    l = l.take i ++ l[i] :: l.drop (i + 1) := by
  rw [← set_eq_append h, List.set_getElem_self]

-- Exchanging one bucket exchanges its entry, up to the order of the entries.
theorem entries_set_perm {bs : List (Bucket K V)} {i : Nat} {b : Bucket K V} (h : i < bs.length) :
    ((bucketAt bs i).entry.toList ++ entries (bs.set i b)).Perm (b.entry.toList ++ entries bs) := by
  have hl : entries bs =
      entries (bs.take i) ++ ((bucketAt bs i).entry.toList ++ entries (bs.drop (i + 1))) := by
    have he := congrArg entries (eq_append_getElem h)
    rw [bucketAt_eq_getElem h, he]
    cases hb : bs[i].entry <;> simp only [entries, List.filterMap_append, List.filterMap_cons, hb,
      Option.toList_none, Option.toList_some, List.nil_append, List.cons_append]
  have hs : entries (bs.set i b) =
      entries (bs.take i) ++ (b.entry.toList ++ entries (bs.drop (i + 1))) := by
    rw [set_eq_append h]
    cases hb : b.entry <;> simp [entries, hb]
  rw [hl, hs]
  generalize (bucketAt bs i).entry.toList = x
  generalize b.entry.toList = y
  generalize entries (bs.take i) = l
  generalize entries (bs.drop (i + 1)) = r
  calc x ++ (l ++ (y ++ r))
    _ = (x ++ l) ++ (y ++ r) := (List.append_assoc ..).symm
    _ |>.Perm ((l ++ x) ++ (y ++ r)) := List.perm_append_comm.append_right _
    _ |>.Perm ((y ++ r) ++ (l ++ x)) := List.perm_append_comm
    _ = y ++ (r ++ (l ++ x)) := List.append_assoc ..
    _ |>.Perm (y ++ ((l ++ x) ++ r)) := List.perm_append_comm.append_left _
    _ = y ++ (l ++ (x ++ r)) := by rw [List.append_assoc]

theorem countP_set_add {p : Bucket K V → Bool} {bs : List (Bucket K V)} {i : Nat} {b : Bucket K V}
    (h : i < bs.length) :
    (bs.set i b).countP p + (p (bucketAt bs i)).toNat = bs.countP p + (p b).toNat := by
  have hl := congrArg (List.countP p) (eq_append_getElem h)
  rw [set_eq_append h, bucketAt_eq_getElem h, hl]
  simp only [List.countP_append, List.countP_cons]
  cases p b <;> cases p bs[i] <;> simp <;> omega

theorem countP_not_empty_of_full {bs : List (Bucket K V)}
    (h : ∀ i < bs.length, (bucketAt bs i).empty = false) :
    bs.countP (fun b => !b.empty) = bs.length := by
  refine List.countP_eq_length.mpr fun b hb => ?_
  have ⟨i, hi, hb⟩ := List.mem_iff_getElem.mp hb
  have he := h i hi
  rw [bucketAt_eq_getElem hi, hb] at he
  simp [he]

-- Every bucket that is not empty holds an entry or is deleted.
theorem countP_not_empty [Hashable K] {bs : List (Bucket K V)} (h : ∀ b ∈ bs, b.Ok) :
    bs.countP (fun b => !b.empty) = (entries bs).length + bs.countP Bucket.deleted := by
  induction bs
  case nil => rfl
  case cons b bs hi =>
    have hi := hi fun b hb => h b (List.mem_cons_of_mem _ hb)
    have hb := h b List.mem_cons_self
    simp only [List.countP_cons, hi]
    cases he : b.entry with
    | none =>
      have hd := hb.deleted_eq_not_empty he
      simp only [entries, List.filterMap_cons, he, hd]
      omega
    | some e =>
      simp only [hb.eq_filled he, Bucket.Ok.empty_filled, Bucket.Ok.deleted_filled, entries,
        List.filterMap_cons, List.length_cons]
      simp
      omega

end Runtime.NewAA
