import DmdModel.Compiler.Root.Aav
import DmdModel.Lib.OpenAddressing

namespace Compiler.Root.Aav

open OpenAddressing

variable {b : Buckets} {k i n : Nat} {key : Key} {e : KeyValue} {kvs : List KeyValue} {m : Map}
  {ends : KeyValue → Bool}

section probing

def isFree (e : KeyValue) : Bool :=
  e.key = KEY_EMPTY

def start (e : KeyValue) : Nat :=
  (hash e.key).toNat

theorem isFree_iff : isFree e = true ↔ e.key = KEY_EMPTY :=
  decide_eq_true_iff

theorem isFree_eq_false_iff : isFree e = false ↔ e.key ≠ KEY_EMPTY :=
  decide_eq_false_iff_not

theorem and_mask (hk : b.length = 2 ^ k) (x : Nat) : x &&& (b.length - 1) = x % b.length := by
  rw [hk, Nat.and_two_pow_sub_one_eq_mod]

theorem probe_first {s f : Nat} (hk : b.length = 2 ^ k)
    (hn : ∀ j < n, ¬ends (b.ptr (TriangularProbe.probe b.length s j)))
    (hf : ∃ j < n + f, ends (b.ptr (TriangularProbe.probe b.length s j))) :
    ∃ i, probe ends b f (TriangularProbe.probe b.length s n) (n + 1) = .ok i ∧ First (ends ·) b.ptr b.length s i := by
  induction f generalizing n with
  | zero =>
    obtain ⟨j, hj, hends⟩ := hf
    exact absurd hends (hn j hj)
  | succ f hi =>
    rw [probe]
    split_ifs with hends
    case pos => exact ⟨_, rfl, hends, n, rfl, hn⟩
    case neg =>
      have hnext : (TriangularProbe.probe b.length s n + (n + 1)) % b.length = TriangularProbe.probe b.length s (n + 1) :=
        rfl
      rw [and_mask hk, hnext]
      refine hi (fun j hj => ?_) ?_
      · obtain rfl | hlt := Nat.eq_or_lt_of_le (Nat.le_of_lt_succ hj)
        · exact hends
        · exact hn j hlt
      · obtain ⟨j, hj, hends⟩ := hf
        exact ⟨j, by omega, hends⟩

-- A search ends, as there is a slot that ends it.
theorem search_first (hk : b.length = 2 ^ k) (hf : ∃ i < b.length, ends (b.ptr i)) :
    ∃ i < b.length, search ends b key = .ok i ∧ First (ends ·) b.ptr b.length (hash key).toNat i := by
  have hpos : 0 < b.length := hk ▸ Nat.two_pow_pos k
  obtain ⟨i, hi, hends⟩ := hf
  obtain ⟨j, hj, he⟩ := @TriangularProbe.probe_surjective (hash key).toNat k i (hk ▸ hi)
  obtain ⟨i', he', hfirst⟩ := probe_first (s := (hash key).toNat) (n := 0) (f := b.length) hk
    (fun j hj => absurd hj (Nat.not_lt_zero j)) ⟨j, by omega, by rwa [hk, he]⟩
  refine ⟨i', hfirst.lt hpos, ?_, hfirst⟩
  rw [search, and_mask hk]
  exact he'

-- The slots of the entries `kvs`, each of which a search comes to
structure Table (b : Buckets) (kvs : List KeyValue) : Prop where
  size    : ∃ k, b.length = 2 ^ k
  reached : Reached isFree start b.ptr b.length
  null    : ∀ i < b.length, isFree (b.ptr i) = true → (b.ptr i).value = 0
  perm    : (contents isFree b.ptr b.length).Perm kvs

-- A search for a key ends at its entry, or at a free slot if there is none.
theorem Table.search (h : Table b kvs) (hroom : kvs.length < b.length) (key : Key) :
    ∃ i < b.length, search (fun e => key = e.key ∨ e.key = KEY_EMPTY) b key = .ok i ∧
      (key = (b.ptr i).key ∨ isFree (b.ptr i) = true ∧ Comes isFree b.ptr b.length (hash key).toNat i ∧
        ∀ e ∈ kvs, e.key ≠ key) := by
  obtain ⟨k, hk⟩ := h.size
  rw [← h.perm.length_eq] at hroom
  obtain ⟨j, hj, hfree⟩ := exists_free hroom
  obtain ⟨i, hi, hs, hfirst⟩ := @search_first b k key (fun e => key = e.key ∨ e.key = KEY_EMPTY) hk
    ⟨j, hj, decide_eq_true (.inr (isFree_iff.mp hfree))⟩
  refine ⟨i, hi, hs, ?_⟩
  have hfirst : First (fun e => isFree e ∨ key = e.key) b.ptr b.length (hash key).toNat i :=
    hfirst.congr fun e => by rw [decide_eq_true_iff, isFree_iff, or_comm]
  by_cases hkey : key = (b.ptr i).key
  case pos => exact .inl hkey
  case neg =>
    refine .inr ⟨hfirst.holds.resolve_right hkey, hfirst.comes, fun e hkv he => ?_⟩
    obtain ⟨j, hj, rfl, hu⟩ := mem_contents.mp (h.perm.mem_iff.mpr hkv)
    have hcomes := h.reached j hj hu
    rw [start, he] at hcomes
    exact hkey (hfirst.isMatch_of_comes hcomes hu he.symm)

theorem Table.length_pos (h : Table b kvs) : 0 < b.length := by
  obtain ⟨k, hk⟩ := h.size
  exact hk ▸ Nat.two_pow_pos k

-- A new entry in the slot that a search for its key ends at
theorem Table.insert (h : Table b kvs) (hi : i < b.length) (hfree : isFree (b.ptr i) = true)
    (hcomes : Comes isFree b.ptr b.length (start e) i) (hkv : isFree e = false) :
    Table { b with ptr := Function.update b.ptr i e } (e :: kvs) where
  size := h.size
  reached := h.reached.update hcomes hkv
  null j hj hu := by
    dsimp only at hu ⊢
    rw [Function.update_apply] at hu ⊢
    split_ifs at hu ⊢ with hji
    case pos => rw [hkv] at hu; cases hu
    case neg => exact h.null j hj hu
  perm := (contents_update hi hfree hkv).trans (h.perm.cons e)

-- An entry with the same key in the place of another one
theorem Table.replace (h : Table b kvs) (hi : i < b.length) (hu : isFree (b.ptr i) = false)
    (hkey : e.key = (b.ptr i).key) :
    ∃ l, kvs.Perm (b.ptr i :: l) ∧ Table { b with ptr := Function.update b.ptr i e } (e :: l) := by
  have hkv : isFree e = false := by rwa [isFree, hkey]
  obtain ⟨l, hold, hnew⟩ := contents_replace hi hu hkv
  refine ⟨l, h.perm.symm.trans hold, h.size, ?_, ?_, hnew⟩
  · refine h.reached.update ?_ hkv
    have hcomes := h.reached i hi hu
    rwa [start, ← hkey] at hcomes
  · intro j hj hfree
    dsimp only at hfree ⊢
    rw [Function.update_apply] at hfree ⊢
    split_ifs at hfree ⊢ with hji
    case pos => rw [hkv] at hfree; cases hfree
    case neg => exact h.null j hj hfree

theorem xmalloc_spec {len : Nat} (hk : len = 2 ^ k) (hm : len * 16 < 2 ^ 64) :
    ∃ newb, xmalloc len = .ok newb ∧ newb.length = len ∧ Table newb [] := by
  refine ⟨_, if_pos hm, rfl, ⟨k, hk⟩, ?_, fun _ _ _ => rfl, ?_⟩
  · intro j hj hu
    exact absurd hu (by simp [isFree])
  · have hempty : contents isFree (fun _ => ⟨KEY_EMPTY, 0⟩) len = [] := by
      rw [contents, List.filter_eq_nil_iff]
      intro e hkv
      obtain ⟨_, _, rfl⟩ := List.mem_map.mp hkv
      simp [isFree]
    rw [hempty]

def used (kvs : List KeyValue) : List KeyValue :=
  kvs.filter fun e => !isFree e

theorem reinsert_spec (h : Table b kvs) (hroom : kvs.length < b.length) (hu : isFree e = false) :
    ∃ b', reinsert b e = .ok b' ∧ b'.length = b.length ∧ Table b' (e :: kvs) := by
  obtain ⟨k, hk⟩ := h.size
  have hfull := hroom
  rw [← h.perm.length_eq] at hfull
  obtain ⟨j, hj, hfree⟩ := exists_free hfull
  obtain ⟨i, hi, hs, hfirst⟩ := @search_first b k e.key (fun e => e.key = KEY_EMPTY) hk ⟨j, hj, hfree⟩
  have hfirst' : First (fun e => isFree e ∨ False) b.ptr b.length (start e) i :=
    hfirst.congr fun _ => (or_iff_left id).symm
  refine ⟨{ b with ptr := Function.update b.ptr i e }, ?_, rfl, h.insert hi hfirst.holds hfirst'.comes hu⟩
  rw [reinsert, if_pos (isFree_eq_false_iff.mp hu), hs]
  rfl

-- The loop over the old slots
theorem reinsert_loop {s : List KeyValue} (h : Table b kvs) (hroom : (used s ++ kvs).length < b.length) :
    ∃ b', s.foldlM reinsert b = .ok b' ∧ b'.length = b.length ∧ Table b' (used s ++ kvs) := by
  induction s generalizing b kvs with
  | nil => exact ⟨b, rfl, rfl, h⟩
  | cons e s hi =>
    rw [List.foldlM_cons]
    cases hu : isFree e with
    | true =>
      have hused : used (e :: s) = used s := List.filter_cons_of_neg (by simp [hu])
      rw [hused] at hroom ⊢
      rw [reinsert, if_neg (not_not.mpr (isFree_iff.mp hu))]
      exact hi h hroom
    | false =>
      have hused : used (e :: s) = e :: used s := List.filter_cons_of_pos (by simp [hu])
      have hperm : (used s ++ e :: kvs).Perm (used (e :: s) ++ kvs) := hused ▸ List.perm_middle
      rw [← hperm.length_eq] at hroom
      obtain ⟨b₁, h₁, hlen₁, ht₁⟩ := reinsert_spec h (by rw [List.length_append, List.length_cons] at hroom; omega) hu
      obtain ⟨b', h', hlen', ht'⟩ := hi ht₁ (hlen₁ ▸ hroom)
      refine ⟨b', ?_, hlen'.trans hlen₁, ht'.size, ht'.reached, ht'.null, ht'.perm.trans hperm⟩
      rw [h₁]
      exact h'

-- Rehashing keeps the entries, if there is memory for four times as many slots.
theorem rehash_spec (h : Table b kvs) (hm : b.length * 4 * 16 < 2 ^ 64) :
    ∃ b', dmd_aaRehash b = .ok b' ∧ b'.length = b.length * 4 ∧ Table b' kvs := by
  obtain ⟨k, hk⟩ := h.size
  have hpos := h.length_pos
  obtain ⟨newb, hnew, hlen, ht⟩ := xmalloc_spec (show b.length * 4 = 2 ^ (k + 2) by rw [hk, pow_succ, pow_succ]; omega) hm
  have hle : (used ((List.range b.length).map b.ptr)).length ≤ b.length := by
    refine (List.length_filter_le _ _).trans (Nat.le_of_eq ?_)
    rw [List.length_map, List.length_range]
  obtain ⟨b', h', hlen', ht'⟩ := reinsert_loop (s := (List.range b.length).map b.ptr) ht
    (by rw [List.append_nil]; omega)
  rw [List.append_nil] at ht'
  refine ⟨b', ?_, hlen'.trans hlen, ht'.size, ht'.reached, ht'.null, ht'.perm.trans h.perm⟩
  rw [dmd_aaRehash, hnew]
  exact h'

theorem rehash_outOfMemory (hm : 2 ^ 64 ≤ b.length * 4 * 16) : dmd_aaRehash b = .error .outOfMemory := by
  rw [dmd_aaRehash, xmalloc, if_neg (Nat.not_lt.mpr hm)]
  rfl

end probing

section refinement

variable {aa aa' : AA} {p : Pointer} {v w : Value}

def ofPair (p : Key × Value) : KeyValue :=
  ⟨p.1, p.2⟩

def toPair (e : KeyValue) : Key × Value :=
  (e.key, e.value)

-- The map that an associative array is for. Up to one node it is in the array itself, and two or more are in
-- a table that is half full at most, or has one entry more.
inductive Represents : Option AA → Map → Prop
  | null {m : Map} (h : m.toList = []) : Represents none m
  | binit {m : Map} {e : KeyValue} (hkey : e.key ≠ KEY_EMPTY) (h : m.toList = [(e.key, e.value)]) :
    Represents (some ⟨1, .binit e⟩) m
  | b {m : Map} {b : Buckets} (hm : 2 ≤ m.size) (hfour : 4 ≤ b.length) (hroom : m.size * 2 ≤ b.length + 2)
    (h : Table b (m.toList.map ofPair)) : Represents (some ⟨m.size, .b b⟩) m

-- The pointer to the value of a key: what is read through it, and what a write through it does
structure Points (aa : AA) (p : Pointer) (key : Key) (m : Map) : Prop where
  load  : ∃ v, aa.load p = .ok v ∧ m.get? key = some v
  store : ∀ w, ∃ aa', aa.store w p = .ok aa' ∧ Represents (some aa') (m.replace key w)

theorem Table.one (hkey : e.key ≠ KEY_EMPTY) : Table ⟨fun _ => e, 1⟩ [e] where
  size := ⟨0, rfl⟩
  reached i hi _ := by
    obtain rfl := Nat.lt_one_iff.mp hi
    exact ⟨0, Nat.mod_one _, fun j hj => absurd hj (Nat.not_lt_zero j)⟩
  null _ _ hu := absurd (isFree_iff.mp hu) hkey
  perm := by
    have hone : (List.range 1).map (fun _ => e) = [e] := rfl
    rw [contents, hone, List.filter_cons_of_pos (by simp [isFree, hkey]), List.filter_nil]

theorem get?_of_perm {l : List KeyValue} (h : (m.toList.map ofPair).Perm (⟨key, v⟩ :: l)) : m.get? key = some v := by
  have hmem := h.mem_iff.mpr List.mem_cons_self
  obtain ⟨q, hq, he⟩ := List.mem_map.mp hmem
  obtain ⟨rfl, rfl⟩ := KeyValue.mk.inj he
  exact AssocMap.get?_eq_some_iff.mpr ⟨q, hq, BEq.rfl, rfl⟩

theorem replace_of_perm {l : List KeyValue} (h : (m.toList.map ofPair).Perm (⟨key, v⟩ :: l)) :
    ((m.replace key w).toList.map ofPair).Perm (⟨key, w⟩ :: l) := by
  have hpairs := h.map toPair
  have hid : toPair ∘ ofPair = id := rfl
  have hid' : ofPair ∘ toPair = id := rfl
  rw [List.map_map, hid, List.map_id] at hpairs
  have hreplaced := (AssocMap.replace_perm (v := w) BEq.rfl hpairs.symm).map ofPair
  rw [List.map_cons, List.map_map, hid', List.map_id] at hreplaced
  exact hreplaced.symm

theorem Table.get? (h : Table b (m.toList.map ofPair)) (hi : i < b.length) (hkey : key ≠ KEY_EMPTY)
    (he : key = (b.ptr i).key) : m.get? key = some (b.ptr i).value := by
  obtain ⟨l, hl, -⟩ := h.replace (e := b.ptr i) hi (isFree_eq_false_iff.mpr (he ▸ hkey)) rfl
  subst he
  exact get?_of_perm hl

theorem get?_absent (h : ∀ e ∈ m.toList.map ofPair, e.key ≠ key) : m.get? key = none :=
  AssocMap.get?_eq_none_iff.mpr fun _ hp => beq_eq_false_iff_ne.mpr fun he => h _ (List.mem_map_of_mem hp) he.symm

-- The slot of a key
theorem Table.points {b : Buckets} (hm : 2 ≤ m.size) (hfour : 4 ≤ b.length) (hroom : m.size * 2 ≤ b.length + 2)
    (h : Table b (m.toList.map ofPair)) (hi : i < b.length) (hkey : key ≠ KEY_EMPTY) (he : key = (b.ptr i).key) :
    Points ⟨m.size, .b b⟩ (.b i) key m where
  load := ⟨(b.ptr i).value, rfl, h.get? hi hkey he⟩
  store w := by
    obtain ⟨l, hl, ht⟩ := h.replace (e := ⟨(b.ptr i).key, w⟩) hi (isFree_eq_false_iff.mpr (he ▸ hkey)) rfl
    subst he
    refine ⟨_, rfl, ?_⟩
    rw [← m.size_replace (b.ptr i).key w] at hm hroom ⊢
    exact .b hm hfour hroom ⟨ht.size, ht.reached, ht.null, ht.perm.trans (replace_of_perm hl).symm⟩

-- The end of `dmd_aaGet`
theorem getIn_spec {b : Buckets} (hm : 1 ≤ m.size) (hfour : 4 ≤ b.length) (hroom : m.size * 2 ≤ b.length)
    (h : Table b (m.toList.map ofPair)) (hfound : 2 ≤ m.size ∨ m.get? key = none) (hkey : key ≠ KEY_EMPTY)
    (haa : aa.nodes = m.size) :
    ∃ p aa', aa.getIn b key = .ok (p, aa') ∧ Represents (some aa') (m.insertIfNew key 0) ∧
      Points aa' p key (m.insertIfNew key 0) := by
  have hlen : (m.toList.map ofPair).length = m.size := List.length_map ..
  obtain ⟨i, hi, hs, hslot⟩ := h.search (by omega) key
  rw [AA.getIn, hs]
  dsimp only [bind, Except.bind, pure, Except.pure]
  obtain he | ⟨hfree, hcomes, habsent⟩ := hslot
  case inl =>
    have hv := h.get? hi hkey he
    have h2 : 2 ≤ m.size := hfound.resolve_right (by rw [hv]; exact Option.some_ne_none _)
    rw [if_pos he, haa, AssocMap.insertIfNew_of_some hv]
    exact ⟨_, _, rfl, .b h2 hfour (by omega) h, h.points h2 hfour (by omega) hi hkey he⟩
  case inr =>
    have hne : key ≠ (b.ptr i).key := fun he => hkey (he.trans (isFree_iff.mp hfree))
    have hnone := get?_absent habsent
    have hsize : (m.insertIfNew key 0).size = m.size + 1 := by
      rw [AssocMap.size, AssocMap.insertIfNew_of_none hnone]
      rfl
    have hlist : (m.insertIfNew key 0).toList.map ofPair = ⟨key, 0⟩ :: m.toList.map ofPair := by
      rw [AssocMap.insertIfNew_of_none hnone]
      rfl
    have ht := h.insert (e := ⟨key, 0⟩) hi hfree hcomes (isFree_eq_false_iff.mpr hkey)
    rw [← hlist] at ht
    have hkv : (⟨key, (b.ptr i).value⟩ : KeyValue) = ⟨key, 0⟩ := by rw [h.null i hi hfree]
    rw [if_neg hne, haa, hkv, ← hsize]
    have hroom' : (m.insertIfNew key 0).size * 2 ≤ b.length + 2 := by omega
    refine ⟨_, _, rfl, .b (by omega) hfour hroom' ht, ht.points (by omega) hfour hroom' hi hkey ?_⟩
    dsimp only
    rw [Function.update_self]

theorem get?_single (key : Key) (hm : m.toList = [(e.key, e.value)]) :
    m.get? key = if key = e.key then some e.value else none := by
  have hsingle : m.get? key = (([(e.key, e.value)] : List (Key × Value)).find? (key == ·.1)).map (·.2) := by
    rw [AssocMap.get?, hm]
  rw [hsingle]
  split_ifs with he
  case pos => simp [he]
  case neg => simp [he]

-- The single entry
theorem points_binit (hkey : e.key ≠ KEY_EMPTY) (hm : m.toList = [(e.key, e.value)]) :
    Points ⟨1, .binit e⟩ .binit e.key m where
  load := ⟨e.value, rfl, by rw [get?_single _ hm, if_pos rfl]⟩
  store w := by
    refine ⟨_, rfl, .binit hkey ?_⟩
    have hlist : (m.replace e.key w).toList = m.toList.map fun p => if e.key == p.1 then (p.1, w) else p := rfl
    rw [hlist, hm]
    simp

-- There is a pointer to the value of the key, or no memory for more slots.
theorem aaGet_spec {a : Option AA} (h : Represents a m) (hkey : key ≠ KEY_EMPTY) :
    (∃ p aa', dmd_aaGet a key = .ok (p, aa') ∧ Represents (some aa') (m.insertIfNew key 0) ∧
      Points aa' p key (m.insertIfNew key 0)) ∨
      dmd_aaGet a key = .error .outOfMemory ∧ 2 ^ 57 ≤ m.size := by
  cases h with
  | null hm =>
    have hlist : (m.insertIfNew key 0).toList = [(key, 0)] := by
      rw [AssocMap.insertIfNew_of_none (AssocMap.get?_eq_none_iff.mpr (by rw [hm]; simp)), hm]
    refine .inl ⟨.binit, ⟨1, .binit ⟨key, 0⟩⟩, ?_, .binit hkey hlist, points_binit (e := ⟨key, 0⟩) hkey hlist⟩
    rw [dmd_aaGet, if_neg hkey]
  | @binit _ e hkv hm =>
    have hsize : m.size = 1 := by rw [AssocMap.size, hm]; rfl
    have hget := get?_single key hm
    left
    simp only [dmd_aaGet, if_neg hkey, Nat.one_ne_zero, if_false, if_true, AA.binit]
    by_cases he : key = e.key
    case pos =>
      rw [if_pos he] at hget
      rw [AssocMap.insertIfNew_of_some hget]
      subst he
      exact ⟨_, _, if_pos rfl, .binit hkv hm, points_binit hkv hm⟩
    case neg =>
      rw [if_neg he] at hget
      -- the entry moves to a table before its place in the union is taken
      have hone : Table ⟨fun _ => e, 1⟩ (m.toList.map ofPair) := by
        rw [hm]
        exact .one hkv
      obtain ⟨b, hb, hlen, ht⟩ := rehash_spec hone (show 1 * 4 * 16 < 2 ^ 64 by decide)
      have hlen : b.length = 4 := hlen
      obtain ⟨p, aa', hin, h'⟩ := getIn_spec (by omega) (by omega) (by omega) ht (.inr hget) hkey
        (show (⟨1, .binit e⟩ : AA).nodes = m.size from hsize.symm)
      refine ⟨p, aa', ?_, h'⟩
      dsimp only [bind, Except.bind]
      rw [if_neg he, hb]
      exact hin
  | @b _ b h2 hfour hroom ht =>
    have hzero : m.size ≠ 0 := by omega
    have hone : m.size ≠ 1 := by omega
    simp only [dmd_aaGet, if_neg hkey, hzero, hone, if_false, AA.b]
    dsimp only [bind, Except.bind]
    by_cases hfull : m.size * 2 > b.length
    case neg =>
      rw [if_neg hfull]
      left
      exact getIn_spec (by omega) hfour (by omega) ht (.inl h2) hkey rfl
    case pos =>
      rw [if_pos hfull]
      by_cases hmem : b.length * 4 * 16 < 2 ^ 64
      case pos =>
        obtain ⟨b', hb, hlen, ht'⟩ := rehash_spec ht hmem
        rw [hb]
        left
        exact getIn_spec (by omega) (by omega) (by omega) ht' (.inl h2) hkey rfl
      case neg =>
        rw [rehash_outOfMemory (Nat.not_lt.mp hmem)]
        exact .inr ⟨rfl, by omega⟩

theorem aaGetRvalue_spec {a : Option AA} (h : Represents a m) (hkey : key ≠ KEY_EMPTY) :
    dmd_aaGetRvalue a key = .ok ((m.get? key).getD 0) := by
  cases h with
  | null hm =>
    have hnone : m.get? key = none := AssocMap.get?_eq_none_iff.mpr (by rw [hm]; simp)
    rw [dmd_aaGetRvalue, if_neg hkey, hnone]
    rfl
  | @binit _ e hkv hm =>
    simp only [dmd_aaGetRvalue, if_neg hkey, if_true, AA.binit, get?_single key hm]
    dsimp only [bind, Except.bind, pure, Except.pure]
    split_ifs <;> rfl
  | @b _ b h2 hfour hroom ht =>
    have hone : m.size ≠ 1 := by omega
    have hlen : (m.toList.map ofPair).length = m.size := List.length_map ..
    obtain ⟨i, hi, hs, hslot⟩ := ht.search (by omega) key
    simp only [dmd_aaGetRvalue, if_neg hkey, hone, if_false, AA.b]
    dsimp only [bind, Except.bind, pure, Except.pure]
    rw [hs]
    dsimp only
    obtain he | ⟨hfree, -, habsent⟩ := hslot
    case inl => rw [if_pos he, ht.get? hi hkey he, Option.getD_some]
    case inr =>
      rw [if_neg fun he => hkey (he.trans (isFree_iff.mp hfree)), get?_absent habsent, Option.getD_none]

theorem aaLen_spec {a : Option AA} (h : Represents a m) : dmd_aaLen a = m.size := by
  cases h with
  | null hm => rw [AssocMap.size, hm]; rfl
  | binit _ hm => rw [AssocMap.size, hm]; rfl
  | b => rfl

end refinement

section range

-- The entries from a slot on
def rest (b : Buckets) (i : Nat) : List KeyValue :=
  ((List.range' i (b.length - i)).map b.ptr).filter fun e => !isFree e

theorem rest_zero : rest b 0 = contents isFree b.ptr b.length := by
  rw [rest, contents, List.range_eq_range', Nat.sub_zero]

theorem rest_of_lt (hi : i < b.length) :
    rest b i = if isFree (b.ptr i) then rest b (i + 1) else b.ptr i :: rest b (i + 1) := by
  have hlen : b.length - i = b.length - (i + 1) + 1 := by omega
  rw [rest, hlen, List.range'_succ, List.map_cons, List.filter_cons]
  cases isFree (b.ptr i) <;> rfl

theorem rest_of_ge (hi : b.length ≤ i) : rest b i = [] := by
  rw [rest, Nat.sub_eq_zero_of_le hi]
  rfl

theorem visit_spec {a : Option AA} {f : Nat} (hb : ∀ i, AARange.buckets ⟨a, i⟩ = .ok b) (hf : b.length - i < f) :
    AARange.visit f ⟨a, AARange.toNextLoop b (b.length - i) i⟩ = .ok (rest b i) := by
  induction hd : b.length - i generalizing i f with
  | zero =>
    obtain ⟨f, rfl⟩ := Nat.exists_eq_succ_of_ne_zero (Nat.ne_zero_of_lt hf)
    have hge : i ≥ b.length := Nat.sub_eq_zero_iff_le.mp hd
    rw [AARange.toNextLoop, rest_of_ge hge, AARange.visit, AARange.empty, hb]
    simp only [bind, Except.bind, pure, Except.pure, hge, decide_true, if_true]
  | succ d hi =>
    have hlt : i < b.length := by omega
    have hd' : b.length - (i + 1) = d := by omega
    rw [AARange.toNextLoop, rest_of_lt hlt]
    by_cases hfree : isFree (b.ptr i) = true
    case pos =>
      rw [if_pos ⟨hlt, isFree_iff.mp hfree⟩, if_pos hfree]
      exact hi (by omega) hd'
    case neg =>
      obtain ⟨f, rfl⟩ := Nat.exists_eq_succ_of_ne_zero (Nat.ne_zero_of_lt hf)
      have hnext := hi (i := i + 1) (f := f) (by omega) hd'
      rw [if_neg fun h => hfree (isFree_iff.mpr h.2), if_neg hfree]
      simp only [AARange.visit, AARange.empty, AARange.front, AARange.popFront, AARange.toNext, hb, bind, Except.bind,
        pure, Except.pure, ge_iff_le, Nat.not_le.mpr hlt, decide_false, Bool.false_eq_true, if_false, hd', hnext]

theorem asRange_of_table {a : Option AA} {kvs : List KeyValue} (h : Table b kvs) (hb : ∀ i, AARange.buckets ⟨a, i⟩ = .ok b) :
    ∃ r kvs', asRange a = .ok r ∧ r.buckets = .ok b ∧ r.visit (b.length + 1) = .ok kvs' ∧ kvs'.Perm kvs := by
  refine ⟨⟨a, AARange.toNextLoop b (b.length - 0) 0⟩, rest b 0, ?_, hb _, visit_spec hb (by omega), ?_⟩
  · simp only [asRange, AARange.toNext, hb, bind, Except.bind, pure, Except.pure]
  · rw [rest_zero]
    exact h.perm

-- Every entry is visited once.
theorem asRange_spec {a : Option AA} (h : Represents a m) :
    ∃ b r kvs, asRange a = .ok r ∧ r.buckets = .ok b ∧ r.visit (b.length + 1) = .ok kvs ∧
      kvs.Perm (m.toList.map ofPair) := by
  cases h with
  | null hm => exact ⟨⟨fun _ => ⟨KEY_EMPTY, 0⟩, 0⟩, ⟨none, 0⟩, [], rfl, rfl, rfl, by rw [hm]; exact .nil⟩
  | @binit _ e hkv hm =>
    rw [hm]
    exact ⟨_, asRange_of_table (.one hkv) fun _ => rfl⟩
  | @b _ b h2 _ _ ht =>
    refine ⟨b, asRange_of_table ht fun _ => ?_⟩
    rw [AARange.buckets]
    exact if_neg (by dsimp only; omega)

end range

section run

open AssocArray

-- The pairs come in some order.
inductive Result.Same : Result → Result → Prop
  | value (v : Value) : Same (.value v) (.value v)
  | length (n : Nat) : Same (.length n) (.length n)
  | range {kvs kvs' : List KeyValue} (h : kvs.Perm kvs') : Same (.range kvs) (.range kvs')

-- An assertion refuses the reserved key.
def Op.Allowed : Op → Prop
  | .getLvalue key _ => key ≠ KEY_EMPTY
  | .opIndex key     => key ≠ KEY_EMPTY
  | _                => True

theorem step_spec {a : Option AA} {op : Op} (h : Represents a m) (hop : Op.Allowed op) :
    (∃ r a', step a op = .ok (r, a') ∧ Result.Same r (m.step op).1 ∧ Represents a' (m.step op).2) ∨
      step a op = .error .outOfMemory ∧ 2 ^ 57 ≤ m.size := by
  cases op with
  | getLvalue key write =>
    obtain ⟨p, aa, haa, h', hpoints⟩ | ⟨herr, hsize⟩ := aaGet_spec h hop
    case inr =>
      refine .inr ⟨?_, hsize⟩
      rw [step, herr]
      rfl
    case inl =>
      obtain ⟨v, hload, hget⟩ := hpoints.load
      left
      cases write with
      | none =>
        refine ⟨.value v, some aa, ?_, ?_, h'⟩
        · simp only [step, haa, hload, bind, Except.bind, pure, Except.pure]
        · rw [Map.step, hget, Option.getD_some]
          exact .value v
      | some w =>
        obtain ⟨aa', hstore, h''⟩ := hpoints.store w
        refine ⟨.value v, some aa', ?_, ?_, h''⟩
        · simp only [step, haa, hload, hstore, bind, Except.bind, pure, Except.pure]
        · rw [Map.step, hget, Option.getD_some]
          exact .value v
  | opIndex key =>
    refine .inl ⟨.value ((m.get? key).getD 0), a, ?_, .value _, h⟩
    rw [step, aaGetRvalue_spec h hop]
    rfl
  | length =>
    refine .inl ⟨.length m.size, a, ?_, .length _, h⟩
    rw [step, aaLen_spec h]
    rfl
  | asRange =>
    obtain ⟨b, r, kvs, hr, hb, hvisit, hperm⟩ := asRange_spec h
    refine .inl ⟨.range kvs, a, ?_, .range hperm, h⟩
    simp only [step, hr, hb, hvisit, bind, Except.bind, pure, Except.pure]

theorem size_le_step (m : Map) (op : Op) : m.size ≤ (m.step op).2.size := by
  cases op with
  | getLvalue key write =>
    have hle : m.size ≤ (m.insertIfNew key 0).size := by
      cases hm : m.get? key with
      | none =>
        rw [AssocMap.size, AssocMap.size, AssocMap.insertIfNew_of_none hm]
        exact Nat.le_succ _
      | some v => rw [AssocMap.insertIfNew_of_some hm]
    cases write with
    | none   => exact hle
    | some w => exact hle.trans (AssocMap.size_replace ..).ge
  | opIndex key => exact le_rfl
  | length      => exact le_rfl
  | asRange     => exact le_rfl

theorem size_le_run (m : Map) (ops : List Op) : m.size ≤ (m.run ops).2.size := by
  induction ops generalizing m with
  | nil => exact le_rfl
  | cons op ops hi => exact (size_le_step m op).trans (hi _)

theorem Represents.run {a : Option AA} {ops : List Op} (h : Represents a m) (hops : ∀ op ∈ ops, Op.Allowed op) :
    (∃ rs a', run a ops = .ok (rs, a') ∧ List.Forall₂ Result.Same rs (m.run ops).1 ∧ Represents a' (m.run ops).2) ∨
      run a ops = .error .outOfMemory ∧ 2 ^ 57 ≤ (m.run ops).2.size := by
  induction ops generalizing a m with
  | nil => exact .inl ⟨[], a, rfl, .nil, h⟩
  | cons op ops hi =>
    rw [List.forall_mem_cons] at hops
    rw [AssocArray.run]
    obtain ⟨r, a₁, hstep, hsame, h₁⟩ | ⟨herr, hsize⟩ := step_spec h hops.1
    case inr =>
      rw [herr]
      exact .inr ⟨rfl, hsize.trans (size_le_run m (op :: ops))⟩
    case inl =>
      rw [hstep]
      dsimp only [bind, Except.bind]
      obtain ⟨rs, a', hrun, hall, h'⟩ | ⟨herr, hsize⟩ := hi h₁ hops.2
      case inr =>
        rw [herr]
        exact .inr ⟨rfl, hsize⟩
      case inl =>
        rw [hrun]
        exact .inl ⟨r :: rs, a', rfl, .cons hsame hall, h'⟩

-- Every run does what it does on a map, until there is no memory for the slots of 2 ^ 57 keys.
theorem run_refines_map {ops : List Op} (hops : ∀ op ∈ ops, Op.Allowed op) :
    (∃ rs a, run none ops = .ok (rs, a) ∧ List.Forall₂ Result.Same rs (Map.run ∅ ops).1 ∧
      Represents a (Map.run ∅ ops).2) ∨
      run none ops = .error .outOfMemory ∧ 2 ^ 57 ≤ (Map.run ∅ ops).2.size :=
  (Represents.null (m := ∅) rfl).run hops

theorem run_refines_map_two : ∃ rs a,
    run none [.getLvalue 0 (some 3), .getLvalue 16 none, .opIndex 0, .getLvalue 0 (some 5), .length] = .ok (rs, a) ∧
      List.Forall₂ Result.Same rs [.value 0, .value 0, .value 3, .value 3, .length 2] ∧
      Represents a (Map.run ∅ [.getLvalue 0 (some 3), .getLvalue 16 none, .opIndex 0, .getLvalue 0 (some 5), .length]).2 :=
  (run_refines_map (by simp [Op.Allowed, KEY_EMPTY])).resolve_right fun h => absurd h.2 (by decide)

end run

end Compiler.Root.Aav
