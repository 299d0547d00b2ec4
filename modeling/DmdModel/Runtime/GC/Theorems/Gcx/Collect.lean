import DmdModel.Runtime.GC.Theorems.Gcx.Alloc

namespace Runtime.GC.Gcx

variable {g g' : Gcx} {id : Nat} {bin : Fin B_NUMSMALL} {ids : List Nat} {marks : Nat → Bool}

section Cache

theorem Table.isMarked (h : g.Table) (marks : Nat → Bool) (addr : Nat) :
    ∃ r, g.isMarked marks addr = .ok r := by
  obtain ⟨r, hr, hpool⟩ := h.findPool addr
  rw [Gcx.isMarked, hr]
  cases r with
  | none => exact ⟨_, rfl⟩
  | some id =>
    obtain ⟨hi, hle, hlt⟩ := (hpool id).mp rfl
    have hwf := h.pools id hi
    simp only [bind, Except.bind]
    cases hp : g.pool id with
    | small p =>
      rw [hp] at hwf hle hlt
      have hwf' : p.Wf := hwf.valid
      obtain ⟨pn, hpn, off, hoff, hptr⟩ := SmallObjectPool.exists_offset hle hlt
      have hpage : (addr - p.baseAddr) / PAGESIZE = pn := hptr ▸ SmallObjectPool.pagenumOf_eq hoff
      dsimp only
      rw [hpage]
      rcases hwf'.kind pn hpn with hfree | ⟨bin, hsmall⟩
      · rw [hfree]
        exact ⟨_, rfl⟩
      · rw [hsmall]
        exact ⟨_, rfl⟩
    | large p =>
      rw [hp] at hwf hle hlt
      have hwf' : p.Wf := hwf.valid.1
      have hpn := @LargeObjectPool.pagenumOf_lt p addr (decide_eq_true ⟨hle, hlt⟩)
      rw [LargeObjectPool.pagenumOf] at hpn
      dsimp only
      rw [hwf'.tables.bin hpn, hwf'.tables.pageOffset hpn]
      cases p.tag ((addr - p.baseAddr) / PAGESIZE) with
      | free => exact ⟨_, rfl⟩
      | head => exact ⟨_, rfl⟩
      | body => exact ⟨_, rfl⟩

-- Steps that return make a loop that returns.
theorem foldlM_ok {α β : Type} {f : β → α → Except GCError β} (hf : ∀ b a, ∃ b', f b a = .ok b')
    (l : List α) (b : β) : ∃ b', l.foldlM f b = .ok b' := by
  induction l generalizing b with
  | nil => exact ⟨b, rfl⟩
  | cons a l hi =>
    obtain ⟨b₁, h₁⟩ := hf b a
    obtain ⟨b', h'⟩ := hi b₁
    exact ⟨b', by rw [List.foldlM_cons, h₁]; exact h'⟩

theorem processGCMarks_ok {isMarked : Nat → Except GCError IsMarked} (h : ∀ a, ∃ r, isMarked a = .ok r)
    (c : BlkCache) : ∃ c', c.processGCMarks isMarked = .ok c' := by
  refine foldlM_ok (fun c i => ?_) _ c
  rw [BlkCache.processGCMark]
  obtain ⟨r, hr⟩ := h (c.entries i).base
  dsimp only
  split
  · rw [hr]
    simp only [bind, Except.bind]
    split
    · exact ⟨_, rfl⟩
    · exact ⟨_, rfl⟩
  · exact ⟨_, rfl⟩

end Cache

section Sweep

-- The pool after a sweep that frees `freed` pages has the marked blocks, and no slot for a bucket list.
structure Collected (marks : Nat → Bool) (p q : Pool) (freed : Nat) : Prop where
  wf        : q.Wf
  baseAddr  : q.baseAddr = p.baseAddr
  npages    : q.npages = p.npages
  kind      : q.isLargeObject = p.isLargeObject
  freepages : q.freepages = p.freepages + freed
  holds     : ∀ b, q.Holds b ↔ p.Holds b ∧ marks b.base = true

theorem sweep_large {p : LargeObjectPool} (h : (Pool.large p).Wf) (marks : Nat → Bool) :
    ∃ freed q, p.sweep ((Pool.large p).mark marks) = .ok (freed, q) ∧
      Collected marks (.large p) (.large q) freed := by
  obtain ⟨freed, q, hr, hs⟩ := h.valid.1.sweep h.valid.2 marks
  refine ⟨freed, q, hr, ⟨⟨hs.wf, hs.plain⟩, ?_, ?_⟩, hs.baseAddr, hs.npages, rfl, hs.freepages, hs.holds⟩
  · exact Nat.lt_of_lt_of_eq h.npages hs.npages.symm
  · exact Nat.lt_of_lt_of_eq h.baseAddr hs.baseAddr.symm

theorem sweep_small {p : SmallObjectPool} (h : (Pool.small p).Wf) (marks : Nat → Bool) :
    ∃ freed q, p.sweep ((Pool.small p).mark marks) = .ok (freed, q) ∧
      Collected marks (.small p) (.small q) freed := by
  have hmark : ∀ i, p.freebits i = true → (Pool.small p).mark marks i = true := fun i hi => by
    simp [Pool.mark, hi]
  obtain ⟨freed, q, hr, hs⟩ := SmallObjectPool.sweep_spec h.valid hmark
  refine ⟨freed, q, hr, ⟨hs.wf, ?_, ?_⟩, hs.baseAddr, hs.npages, rfl, hs.freepages, fun _ => hs.holds⟩
  · exact Nat.lt_of_lt_of_eq h.npages hs.npages.symm
  · exact Nat.lt_of_lt_of_eq h.baseAddr hs.baseAddr.symm

def usedIn (g : Gcx) (large : Bool) (ids : List Nat) : Nat :=
  (ids.map fun id => usedOf large (g.pool id)).sum

theorem Collected.used {p q : Pool} {freed : Nat} (h : Collected marks p q freed) (large : Bool) :
    usedOf large q + (if p.isLargeObject = large then freed else 0) = usedOf large p := by
  have hle := h.wf.freepages_le
  rw [h.npages, h.freepages] at hle
  rw [usedOf, usedOf, h.kind, h.npages, h.freepages]
  split
  · omega
  · rfl

-- The pools of the list are swept, and the others are as before.
structure SweptPools (marks : Nat → Bool) (g g' : Gcx) (ids : List Nat) : Prop where
  length      : g'.pools.length = g.pools.length
  pooltable   : g'.pooltable = g.pooltable
  large       : g'.usedLargePages = g.usedLargePages
  small       : g'.usedSmallPages = g.usedSmallPages
  swept       : ∀ id ∈ ids, ∃ freed, Collected marks (g.pool id) (g'.pool id) freed
  other       : ∀ id, id ∉ ids → g'.pool id = g.pool id

theorem sweepPool_spec (hp : (g.pool id).Wf) (hi : id < g.pools.length) (marks : Nat → Bool) (fl fs : Nat) :
    ∃ fl' fs' g', sweepPool marks (fl, fs, g) id = .ok (fl', fs', g') ∧
      SweptPools marks g g' [id] ∧ fl' + usedOf true (g'.pool id) = fl + usedOf true (g.pool id) ∧
        fs' + usedOf false (g'.pool id) = fs + usedOf false (g.pool id) := by
  have hswept {q : Pool} {freed : Nat} (hc : Collected marks (g.pool id) q freed) :
      SweptPools marks g (g.setPool id q) [id] := by
    have hu : Updated g (g.setPool id q) id q := ⟨rfl, rfl, rfl⟩
    refine ⟨List.length_set, rfl, rfl, rfl, fun j hj => ?_, fun j hj => ?_⟩
    · obtain rfl := List.mem_singleton.mp hj
      rw [hu.pool_self_of_lt hi]
      exact ⟨freed, hc⟩
    · exact hu.pool_of_ne fun he => hj (List.mem_singleton.mpr he)
  have hself (q : Pool) : (g.setPool id q).pool id = q :=
    Updated.pool_self_of_lt ⟨rfl, rfl, rfl⟩ hi
  rw [sweepPool]
  cases hc : g.pool id with
  | large p =>
    rw [hc] at hp hswept
    obtain ⟨freed, q, hr, hs⟩ := sweep_large hp marks
    have hlarge := hs.used true
    have hsmall := hs.used false
    simp only [Pool.isLargeObject, if_true, Bool.true_eq_false, if_false] at hlarge hsmall
    simp only [hr, bind, Except.bind]
    refine ⟨_, _, _, rfl, hswept hs, ?_, ?_⟩
    · rw [hself]
      omega
    · rw [hself]
      omega
  | small p =>
    rw [hc] at hp hswept
    obtain ⟨freed, q, hr, hs⟩ := sweep_small hp marks
    have hlarge := hs.used true
    have hsmall := hs.used false
    simp only [Pool.isLargeObject, if_true, Bool.false_eq_true, if_false] at hlarge hsmall
    simp only [hr, bind, Except.bind]
    refine ⟨_, _, _, rfl, hswept hs, ?_, ?_⟩
    · rw [hself]
      omega
    · rw [hself]
      omega

theorem sweepPools_spec (hids : ∀ id ∈ ids, (g.pool id).Wf ∧ id < g.pools.length) (hn : ids.Nodup)
    (marks : Nat → Bool) (fl fs : Nat) :
    ∃ fl' fs' g', ids.foldlM (sweepPool marks) (fl, fs, g) = .ok (fl', fs', g') ∧
      SweptPools marks g g' ids ∧ fl' + g'.usedIn true ids = fl + g.usedIn true ids ∧
        fs' + g'.usedIn false ids = fs + g.usedIn false ids := by
  induction ids generalizing g fl fs with
  | nil =>
    exact ⟨fl, fs, g, rfl, ⟨rfl, rfl, rfl, rfl, fun _ h => absurd h List.not_mem_nil, fun _ _ => rfl⟩,
      rfl, rfl⟩
  | cons id ids hi =>
    obtain ⟨hnot, hn⟩ := List.nodup_cons.mp hn
    obtain ⟨hp, hlt⟩ := hids id List.mem_cons_self
    obtain ⟨fl₁, fs₁, g₁, h₁, hs₁, hl₁, hf₁⟩ := sweepPool_spec hp hlt marks fl fs
    have hsame {j : Nat} (hj : j ∈ ids) : g₁.pool j = g.pool j :=
      hs₁.other j fun hc => hnot (List.mem_singleton.mp hc ▸ hj)
    obtain ⟨fl', fs', g', h', hs', hl', hf'⟩ := hi (fun j hj => by
      rw [hsame hj, hs₁.length]
      exact hids j (List.mem_cons_of_mem id hj)) hn fl₁ fs₁
    have hused (large : Bool) : g₁.usedIn large ids = g.usedIn large ids := by
      rw [usedIn, usedIn, List.map_congr_left fun j hj => by rw [hsame hj]]
    have hcons (g : Gcx) (large : Bool) : g.usedIn large (id :: ids) =
        usedOf large (g.pool id) + g.usedIn large ids := by
      rw [usedIn, List.map_cons, List.sum_cons, usedIn]
    have hfirst : g'.pool id = g₁.pool id := hs'.other id hnot
    rw [hused] at hl' hf'
    refine ⟨fl', fs', g', by rw [List.foldlM_cons, h₁]; exact h', ⟨hs'.length.trans hs₁.length,
      hs'.pooltable.trans hs₁.pooltable, hs'.large.trans hs₁.large, hs'.small.trans hs₁.small,
      fun j hj => ?_, fun j hj => ?_⟩, ?_, ?_⟩
    · rcases List.mem_cons.mp hj with rfl | hj
      · rw [hs'.other j hnot]
        exact hs₁.swept j (List.mem_singleton.mpr rfl)
      · rw [← hsame hj]
        exact hs'.swept j hj
    · rw [hs'.other j fun hc => hj (List.mem_cons_of_mem id hc)]
      exact hs₁.other j fun hc => hj (List.mem_singleton.mp hc ▸ List.mem_cons_self)
    · rw [hcons, hcons, hfirst]
      omega
    · rw [hcons, hcons, hfirst]
      omega

theorem SweptPools.table (hs : SweptPools marks g g' g.pooltable) (h : g.Table) : g'.Table := by
  have hpool {id : Nat} (hi : id ∈ g.pooltable) : (g'.pool id).baseAddr = (g.pool id).baseAddr ∧
      (g'.pool id).npages = (g.pool id).npages := by
    obtain ⟨freed, hc⟩ := hs.swept id hi
    exact ⟨hc.baseAddr, hc.npages⟩
  constructor
  case lt =>
    intro id hi
    rw [hs.length]
    exact h.lt id (hs.pooltable ▸ hi)
  case sorted =>
    rw [hs.pooltable]
    refine h.sorted.imp_of_mem fun hi hj hij => ?_
    rwa [Pool.topAddr_eq, (hpool hi).1, (hpool hi).2, ← Pool.topAddr_eq, (hpool hj).1]
  case pools =>
    intro id hi
    obtain ⟨freed, hc⟩ := hs.swept id (hs.pooltable ▸ hi)
    exact hc.wf
  case pages =>
    rw [hs.pooltable, List.map_congr_left fun id hi => (hpool hi).2]
    exact h.pages

theorem SweptPools.heap (hs : SweptPools marks g g' g.pooltable) : g'.heap = g.heap.collect marks := by
  ext b
  constructor
  · rintro ⟨id, hi, hb⟩
    rw [hs.pooltable] at hi
    obtain ⟨freed, hc⟩ := hs.swept id hi
    obtain ⟨hb, hm⟩ := (hc.holds b).mp hb
    exact ⟨⟨id, hi, hb⟩, hm⟩
  · rintro ⟨⟨id, hi, hb⟩, hm⟩
    obtain ⟨freed, hc⟩ := hs.swept id hi
    exact ⟨id, hs.pooltable ▸ hi, (hc.holds b).mpr ⟨hb, hm⟩⟩

theorem Table.sweep (h : g.Table) (hc : g.Counted) (marks : Nat → Bool) :
    ∃ g', g.sweep marks = .ok g' ∧ g'.Table ∧ g'.heap = g.heap.collect marks ∧ Owes 0 g g' := by
  obtain ⟨fl, fs, g', hr, hs, hl, hf⟩ := sweepPools_spec (fun id hi => ⟨h.pools id hi, h.lt id hi⟩)
    h.nodup marks 0 0
  have hlarge : g.used true ≤ g.usedLargePages := hc true
  have hsmall : g.used false ≤ g.usedSmallPages := hc false
  have hin (large : Bool) : g.usedIn large g.pooltable = g.used large := rfl
  have hin' (large : Bool) : g'.usedIn large g.pooltable = g'.used large := by
    rw [used, hs.pooltable, usedIn]
  rw [hin, hin'] at hl hf
  rw [Gcx.sweep, hr]
  simp only [bind, Except.bind]
  rw [if_neg (by rw [hs.large]; omega), if_neg (by rw [hs.small]; omega)]
  refine ⟨_, rfl, (hs.table h).congr rfl rfl, ?_, fun large => ?_⟩
  · rw [← hs.heap]
    rfl
  · have hused : used { g' with
        usedLargePages := g'.usedLargePages - fl, usedSmallPages := g'.usedSmallPages - fs } large =
        g'.used large := used_congr rfl rfl large
    rw [hused]
    have hlarge' := hs.large
    have hsmall' := hs.small
    cases large with
    | true =>
      simp only [counter, if_true]
      omega
    | false =>
      simp only [counter, Bool.false_eq_true, if_false]
      omega

end Sweep

section Minimize

theorem Table.minimize (h : g.Table) :
    g.minimize.Table ∧ g.minimize.heap = g.heap ∧ Owes 0 g g.minimize := by
  have hmem {id : Nat} : id ∈ g.minimize.pooltable ↔ id ∈ g.pooltable ∧ (g.pool id).isFree = false := by
    simp [Gcx.minimize]
  have hsub : g.minimize.pooltable.Sublist g.pooltable := List.filter_sublist
  refine ⟨⟨fun id hi => h.lt id (hmem.mp hi).1, h.sorted.sublist hsub,
    fun id hi => h.pools id (hmem.mp hi).1, ?_⟩, ?_, fun large => ?_⟩
  · exact Nat.le_trans (List.Sublist.sum_le_sum (hsub.map _) fun _ _ => Nat.zero_le _) h.pages
  · ext b
    constructor
    · rintro ⟨id, hi, hb⟩
      exact ⟨id, (hmem.mp hi).1, hb⟩
    · rintro ⟨id, hi, hb⟩
      refine ⟨id, hmem.mpr ⟨hi, ?_⟩, hb⟩
      exact @Pool.Valid.not_isFree _ b ⟨0, by decide⟩ 0 (h.pools id hi).valid (.inl hb)
  · have hle : g.minimize.used large ≤ g.used large :=
      List.Sublist.sum_le_sum (hsub.map fun id => usedOf large (g.pool id)) fun _ _ => Nat.zero_le _
    exact Nat.le_add_right_of_le (Nat.add_le_add_right hle _)

theorem Wf.minimize (h : g.Wf) : Effect g g.minimize g.heap := by
  obtain ⟨htable, hheap, howes⟩ := h.table.minimize
  have hmem {id : Nat} : id ∈ g.minimize.pooltable ↔ id ∈ g.pooltable ∧ (g.pool id).isFree = false := by
    simp [Gcx.minimize]
  refine ⟨⟨htable, fun bin s hs => ?_, h.nodup, fun bin id hid => ?_, fun bin id hi hw => ?_⟩, hheap, howes⟩
  · obtain ⟨hi, hr⟩ := h.bucket bin s hs
    refine ⟨hmem.mpr ⟨hi, ?_⟩, hr⟩
    exact @Pool.Valid.not_isFree _ .init bin s.addr (h.table.pools _ hi).valid (.inr hr)
  · obtain ⟨hi, hsmall, hfree⟩ := h.recoverPool bin id hid
    exact ⟨hmem.mpr ⟨hi, hfree⟩, hsmall, hfree⟩
  · exact h.waiting bin id (hmem.mp hi).1 hw

end Minimize

section Recover

theorem waiting_iff : g.waiting bin id = true ↔ (g.pool id).Waiting bin := by
  rw [Gcx.waiting]
  cases g.pool id with
  | large p => exact iff_of_false Bool.false_ne_true not_false
  | small p => exact decide_eq_true_iff

-- The next pool to recover, from a position in the pool table.
theorem Table.find_waiting (h : g.Table) {k : Nat}
    (hk : ∀ j < k, ∀ id, g.pooltable[j]? = some id → ¬(g.pool id).Waiting bin) (hi : id ∈ g.pooltable)
    (hw : (g.pool id).Waiting bin) : ∃ first, (g.pooltable.drop k).find? (g.waiting bin) = some first ∧
      (g.pool first).baseAddr ≤ (g.pool id).baseAddr := by
  obtain ⟨n, hn⟩ := List.mem_iff_getElem?.mp hi
  have hkn : k ≤ n := Nat.le_of_not_lt fun hlt => hk n hlt id hn hw
  obtain ⟨hlt, rfl⟩ := List.getElem?_eq_some_iff.mp hn
  have hmem : g.pooltable[n] ∈ g.pooltable.drop k := by
    refine List.mem_iff_getElem?.mpr ⟨n - k, ?_⟩
    rw [List.getElem?_drop, Nat.add_sub_cancel' hkn, hn]
  obtain ⟨first, hfirst⟩ := Option.isSome_iff_exists.mp
    (List.find?_isSome.mpr ⟨_, hmem, waiting_iff.mpr hw⟩)
  refine ⟨first, hfirst, ?_⟩
  obtain ⟨_, l, r, hlr, hbefore⟩ := List.find?_eq_some_iff_append.mp hfirst
  have hsub : (l ++ first :: r).Sublist g.pooltable := hlr ▸ List.drop_sublist k _
  have hsorted := h.sorted.sublist hsub
  rw [hlr] at hmem
  rcases List.mem_append.mp hmem with hl | hr
  · have := hbefore _ hl
    rw [waiting_iff.mpr hw] at this
    cases this
  · rcases List.mem_cons.mp hr with he | hr
    · rw [he]
    · have := (List.pairwise_cons.mp (List.pairwise_append.mp hsorted).2.1).1 _ hr
      have := (h.pools first (hsub.mem (List.mem_append_right l List.mem_cons_self))).base_lt_top
      omega

theorem Table.of_find (h : g.Table) {k : Nat} (hf : (g.pooltable.drop k).find? (g.waiting bin) = some id) :
    id ∈ g.pooltable ∧ (g.pool id).isLargeObject = false ∧ (g.pool id).isFree = false := by
  have hmem := (List.drop_sublist k _).mem (List.mem_of_find?_eq_some hf)
  have hw := waiting_iff.mp (List.find?_some hf)
  refine ⟨hmem, ?_, (h.pools id hmem).valid.waiting_not_isFree hw⟩
  cases hp : g.pool id with
  | large p =>
    rw [hp] at hw
    exact hw.elim
  | small p => rfl

-- The slots of a page that is recovered come into the bucket list.
theorem Wf.recoverPage (h : g.Wf) (hi : id ∈ g.pooltable) {p : SmallObjectPool}
    (hp : g.pool id = .small p) (hb : g.bucket bin = []) (hlt : (p.recoverPageFirst bin).toNat < p.npages) :
    ∃ g', (g.setPool id (.small (p.popRecover bin))).recoverPage id (p.popRecover bin)
      (p.recoverPageFirst bin).toNat bin = .ok g' ∧ Effect g g' g.heap := by
  have hwf := h.table.pools id hi
  rw [hp] at hwf
  have hwf' : p.Wf := hwf.valid
  obtain ⟨hs, _, u, hu, hf⟩ := hwf'.firstRecover hlt
  obtain ⟨pn, hpn⟩ : ∃ pn, pn = (p.recoverPageFirst bin).toNat := ⟨_, rfl⟩
  rw [← hpn] at hs hlt hf ⊢
  have hslots : (slotOffsets bin).filter (fun u => (p.popRecover bin).freebits (pn * PAGEBITS + u / 16)) ≠ [] :=
    List.ne_nil_of_mem (List.mem_filter.mpr ⟨hu, hf⟩)
  have hbits : ¬((List.range PAGEBITS).all fun i => !(p.popRecover bin).freebits (pn * PAGEBITS + i)) = true := by
    rw [SmallObjectPool.popRecover_freebits]
    intro hall
    have hlt := slot_lt hu
    rw [List.all_eq_true] at hall
    have := hall (u / 16) (List.mem_range.mpr (by simp only [PAGESIZE, PAGEBITS] at *; omega))
    rw [← SmallObjectPool.slotBit, hf] at this
    cases this
  rw [Gcx.recoverPage, if_neg hbits]
  dsimp only
  rw [if_neg (show ¬(g.setPool id (.small (p.popRecover bin))).bucket bin ≠ [] from not_not_intro hb),
    if_neg hslots]
  refine ⟨_, rfl, ?_⟩
  have hupdated : Updated g ((g.setPool id (.small (p.popRecover bin))).setBucket bin
      (((slotOffsets bin).filter fun u => p.freebits (pn * PAGEBITS + u / 16)).map fun u =>
        ⟨(p.popRecover bin).baseAddr + pn * PAGESIZE + u, id⟩)) id (.small (p.popRecover bin)) :=
    ⟨rfl, rfl, rfl⟩
  refine ⟨h.small_updated hi hp hupdated ⟨⟨hwf'.popRecover (hpn ▸ hlt), hwf.npages, hwf.baseAddr⟩, rfl, rfl,
    rfl, fun _ hfree => hfree, fun bin' hw => ?_⟩ (fun bin' s hm => ?_) ?_, hupdated.heap_eq h.table hi fun b => ?_,
    hupdated.owes_small h.table hi hp rfl (Nat.le_refl _)⟩
  · by_cases he : bin' = bin
    case pos =>
      subst he
      rw [hpn] at hlt
      exact hlt
    case neg =>
      simp only [Pool.Waiting, SmallObjectPool.Waiting, SmallObjectPool.popRecover,
        Function.update_of_ne he] at hw
      exact hw
  · rcases mem_update hm with ⟨rfl, hm⟩ | ⟨_, hm⟩
    · obtain ⟨u, hmem, rfl⟩ := List.mem_map.mp hm
      obtain ⟨hu, hf⟩ := List.mem_filter.mp hmem
      exact .inl ⟨rfl, SmallObjectPool.popRecover_ready.mpr (.inr
        ⟨u, ⟨hpn ▸ hlt, hpn ▸ hs, hu⟩, hpn ▸ hf, hpn ▸ rfl⟩)⟩
    · exact .inr ⟨hm, fun _ hr => SmallObjectPool.popRecover_ready.mpr (.inl hr)⟩
  · refine nodup_update h.nodup (((slotOffsets_nodup bin).filter _).map fun u v huv => ?_)
    simpa using huv
  · rw [hp]
    exact SmallObjectPool.popRecover_holds

-- The next pool to recover is another one when all pages of a pool are recovered.
theorem Wf.setNextRecoverPool (h : g.Wf) (hr : g.recoverPool bin = some id)
    (hw : ¬(g.pool id).Waiting bin) :
    Effect g (g.setNextRecoverPool bin (g.pooltable.idxOf id + 1)) g.heap := by
  obtain ⟨hi, _⟩ := h.recoverPool bin id hr
  have hlt := List.idxOf_lt_length_iff.mpr hi
  have hid := List.getElem_idxOf hlt
  have hbefore : ∀ j < g.pooltable.idxOf id + 1, ∀ id', g.pooltable[j]? = some id' →
      ¬(g.pool id').Waiting bin := by
    intro j hj id' hj' hw'
    obtain ⟨hjl, rfl⟩ := List.getElem?_eq_some_iff.mp hj'
    by_cases he : j = g.pooltable.idxOf id
    case pos =>
      subst he
      rw [hid] at hw'
      exact hw hw'
    case neg =>
      have hmem := List.getElem_mem hjl
      obtain ⟨first, hfirst, hle⟩ := h.waiting bin _ hmem hw'
      obtain rfl := Option.some.inj (hr.symm.trans hfirst)
      have := List.pairwise_iff_getElem.mp h.table.sorted j _ hjl hlt (by omega)
      rw [hid] at this
      have := (h.table.pools _ hmem).base_lt_top
      omega
  refine ⟨⟨h.table.congr rfl rfl, h.bucket, h.nodup, fun bin' j hj => ?_, fun bin' j hj hw' => ?_⟩, rfl,
    owes_of_eq (used_congr rfl rfl) fun _ => rfl⟩
  · by_cases he : bin' = bin
    case pos =>
      subst he
      simp only [Gcx.setNextRecoverPool, Function.update_self] at hj
      exact h.table.of_find hj
    case neg =>
      simp only [Gcx.setNextRecoverPool, Function.update_of_ne he] at hj
      exact h.recoverPool bin' j hj
  · by_cases he : bin' = bin
    case pos =>
      subst he
      simp only [Gcx.setNextRecoverPool, Function.update_self]
      exact h.table.find_waiting hbefore hj hw'
    case neg =>
      simp only [Gcx.setNextRecoverPool, Function.update_of_ne he]
      exact h.waiting bin' j hj hw'

theorem Wf.recoverNextPageLoop (h : g.Wf) (hb : g.bucket bin = []) {fuel : Nat} (hpos : 0 < fuel)
    (hfuel : ∀ id, g.recoverPool bin = some id → g.pooltable.length - g.pooltable.idxOf id < fuel) :
    ∃ g', recoverNextPageLoop bin fuel g = .ok g' ∧ Effect g g' g.heap := by
  induction fuel generalizing g with
  | zero => omega
  | succ fuel hi =>
    rw [Gcx.recoverNextPageLoop]
    cases hr : g.recoverPool bin with
    | none => exact ⟨g, rfl, h.keep⟩
    | some id =>
      obtain ⟨hmem, hsmall, _⟩ := h.recoverPool bin id hr
      have hidx := List.idxOf_lt_length_iff.mpr hmem
      have hid := hfuel id hr
      dsimp only
      cases hp : g.pool id with
      | large p =>
        rw [hp] at hsmall
        cases hsmall
      | small p =>
        dsimp only
        by_cases hlt : (p.recoverPageFirst bin).toNat < p.npages
        case pos =>
          rw [if_pos hlt]
          exact h.recoverPage hmem hp hb hlt
        case neg =>
          rw [if_neg hlt]
          have hnext := h.setNextRecoverPool hr (by rw [hp]; exact hlt)
          have hlater : ∀ first,
              (g.setNextRecoverPool bin (g.pooltable.idxOf id + 1)).recoverPool bin = some first →
              g.pooltable.length - g.pooltable.idxOf first < fuel := by
            intro first hfirst
            simp only [Gcx.setNextRecoverPool, Function.update_self] at hfirst
            obtain ⟨n, hn⟩ := List.mem_iff_getElem?.mp (List.mem_of_find?_eq_some hfirst)
            rw [List.getElem?_drop] at hn
            obtain ⟨hlt', rfl⟩ := List.getElem?_eq_some_iff.mp hn
            rw [h.table.nodup.idxOf_getElem]
            omega
          obtain ⟨g', hr', hs⟩ := hi hnext.wf hb (by omega) hlater
          exact ⟨g', hr', hs.wf, hs.heap, hnext.owes.trans hs.owes⟩

theorem Wf.recoverNextPage (h : g.Wf) (hb : g.bucket bin = []) :
    ∃ g', g.recoverNextPage bin = .ok g' ∧ Effect g g' g.heap :=
  h.recoverNextPageLoop hb (Nat.succ_pos _) fun _ _ => Nat.lt_succ_of_le (Nat.sub_le _ _)

end Recover

section FullCollect

-- All bins begin with the first pool that has pages to recover.
theorem setNextRecoverPools (bins : List (Fin B_NUMSMALL)) (g : Gcx) :
    let g' := bins.foldl (fun g bin => g.setNextRecoverPool bin 0) g
    g'.pools = g.pools ∧ g'.pooltable = g.pooltable ∧ g'.bucket = g.bucket ∧
      (∀ large, g'.counter large = g.counter large) ∧ ∀ bin, g'.recoverPool bin =
        if bin ∈ bins then g.pooltable.find? (g.waiting bin) else g.recoverPool bin := by
  induction bins generalizing g with
  | nil => exact ⟨rfl, rfl, rfl, fun _ => rfl, fun _ => (if_neg List.not_mem_nil).symm⟩
  | cons first bins hi =>
    obtain ⟨hp, ht, hb, hc, hr⟩ := hi (g.setNextRecoverPool first 0)
    refine ⟨hp, ht, hb, hc, fun bin => (hr bin).trans ?_⟩
    by_cases hm : bin ∈ bins
    case pos =>
      rw [if_pos hm, if_pos (List.mem_cons_of_mem first hm)]
      rfl
    case neg =>
      rw [if_neg hm]
      by_cases he : bin = first
      case pos =>
        subst he
        rw [if_pos List.mem_cons_self]
        exact Function.update_self _ _ _
      case neg =>
        rw [if_neg (by rw [List.mem_cons]; rintro (hc | hc); exacts [he hc, hm hc])]
        exact Function.update_of_ne he _ _

theorem Table.reset (h : g.Table) :
    Effect g ((List.finRange B_NUMSMALL).foldl (fun g bin => g.setNextRecoverPool bin 0)
      { g with bucket := fun _ => [] }) g.heap := by
  obtain ⟨hp, ht, hb, hc, hr⟩ :=
    setNextRecoverPools (List.finRange B_NUMSMALL) { g with bucket := fun _ => [] }
  have hfind (bin : Fin B_NUMSMALL) := (hr bin).trans (if_pos (List.mem_finRange bin))
  refine ⟨⟨h.congr hp ht, fun bin s hs => ?_, fun bin => ?_, fun bin id hid => ?_, fun bin id hi hw => ?_⟩,
    heap_congr hp ht, owes_of_eq (used_congr hp ht) hc⟩
  · rw [hb] at hs
    cases hs
  · rw [hb]
    exact .nil
  · rw [hfind] at hid
    rw [ht, pool_congr hp]
    exact @Table.of_find g id bin h 0 hid
  · rw [ht] at hi
    rw [pool_congr hp] at hw
    simp only [hfind, pool_congr hp]
    exact @Table.find_waiting g id bin h 0 (fun j hj => absurd hj (Nat.not_lt_zero j)) hi hw

theorem Wf.fullcollect (h : g.Wf) (hc : g.Counted) (lowMem : Bool) (marks : Nat → Bool) :
    ∃ g', g.fullcollect lowMem marks = .ok g' ∧ Effect g g' (g.heap.collect marks) := by
  obtain ⟨cache, hcache⟩ := processGCMarks_ok (h.table.isMarked marks) g.blkcache
  have htable : Table { g with blkcache := cache } := h.table.congr rfl rfl
  have hcounted : Counted { g with blkcache := cache } := fun large =>
    (used_congr rfl rfl large).trans_le (hc large)
  have howes₀ : Owes 0 g { g with blkcache := cache } := owes_of_eq (used_congr rfl rfl) fun _ => rfl
  obtain ⟨g₁, h₁, htable₁, hheap₁, howes₁⟩ := htable.sweep hcounted marks
  rw [Gcx.fullcollect, hcache]
  simp only [bind, Except.bind, h₁]
  -- the pools that are left
  have hmin : ∃ g₂, (if (g₁.minimizeAfterNextCollection || lowMem) = true then
      { g₁ with minimizeAfterNextCollection := false }.minimize else g₁) = g₂ ∧ g₂.Table ∧
        g₂.heap = g₁.heap ∧ Owes 0 g₁ g₂ := by
    refine ⟨_, rfl, ?_⟩
    split
    · have ht : Table { g₁ with minimizeAfterNextCollection := false } := htable₁.congr rfl rfl
      have ho : Owes 0 g₁ { g₁ with minimizeAfterNextCollection := false } :=
        owes_of_eq (used_congr rfl rfl) fun _ => rfl
      obtain ⟨htable₂, hheap₂, howes₂⟩ := ht.minimize
      exact ⟨htable₂, hheap₂, ho.trans howes₂⟩
    · exact ⟨htable₁, rfl, owes_of_eq (fun _ => rfl) fun _ => rfl⟩
  obtain ⟨g₂, hg₂, htable₂, hheap₂, howes₂⟩ := hmin
  rw [hg₂]
  have hreset := htable₂.reset
  generalize (List.finRange B_NUMSMALL).foldl (fun g bin => g.setNextRecoverPool bin 0)
    { g₂ with bucket := fun _ => [] } = g₃ at hreset ⊢
  have howes₃ : Owes 0 g₃ { g₃ with numCollections := g₃.numCollections + 1 } :=
    owes_of_eq (used_congr rfl rfl) fun _ => rfl
  refine ⟨_, rfl, hreset.wf.congr rfl rfl rfl rfl, ?_,
    howes₀.trans (howes₁.trans (howes₂.trans (hreset.owes.trans howes₃)))⟩
  refine (@heap_congr g₃ _ rfl rfl).trans ?_
  rw [hreset.heap, hheap₂, hheap₁]
  rfl

end FullCollect
end Runtime.GC.Gcx
