import DmdModel.Runtime.RWMutex.Theorems.Exclusion

namespace Runtime.RWMutex

open ReadWriteMutex

namespace System

variable {T : Type} [Fintype T] {s s' : System T} {t u : T} {k j : Kind} {e : Event T} {r : Option Bool}
variable {th : Thread}

-- The last queued writer gives up while there are active readers, for the sake of whom a writer waits, and
-- leaves behind a reader that waits for the sake of the writer only.
def strandsReader (s : System T) : Event T → Bool
  | .wake t timeElapsed =>
    s.rw.m_policy = .PREFER_WRITERS && s.rw.m_numQueuedWriters = 1 && s.rw.m_numActiveReaders > 0 &&
      (s.thread t).waiting.any (fun w => w.kind = .writer && w.timeout.any (· ≤ timeElapsed)) &&
      decide (∃ u, (s.thread u).waitsOn .reader ∧ !(s.thread u).pending)
  | _ => false

-- Who need not wait any more is about to wake: all readers, and one of the writers.
structure Awake (s : System T) : Prop where
  reader : ¬s.rw.shouldQueue .reader → ∀ u, (s.thread u).waitsOn .reader → (s.thread u).pending
  writer : ¬s.rw.shouldQueue .writer → ∀ u, (s.thread u).waitsOn .writer →
    ∃ v, (s.thread v).waitsOn .writer ∧ (s.thread v).pending

variable {rw : ReadWriteMutex} {timeout : Option Int} {n : Int}

omit [Fintype T] in
theorem init_awake {policy : Policy} : Awake (init policy : System T) where
  reader _ u hu := by simp [init, Thread.waitsOn] at hu
  writer _ u hu := by simp [init, Thread.waitsOn] at hu

theorem Counted.queued_pos (h : Counted s) (hu : (s.thread u).waitsOn j) : 0 < s.rw.queued j := by
  rw [h.queued_eq]
  exact Int.natCast_pos.mpr (Finset.card_pos.mpr ⟨u, by simpa using hu⟩)

section settled

variable [DecidableEq T]

omit [Fintype T] in
-- The threads that wait after a step of t are those that waited before, unless t waits.
theorem waitsOn_update (hu : (Function.update s.thread t th u).waitsOn j) (ht : ¬th.waitsOn j) :
    u ≠ t ∧ (s.thread u).waitsOn j := by
  have hne : u ≠ t := by
    rintro rfl
    rw [Function.update_self] at hu
    exact ht hu
  rw [Function.update_of_ne hne] at hu
  exact ⟨hne, hu⟩

omit [Fintype T] in
-- Other threads that wait, and are about to wake, still are.
theorem exists_pending_update (h : ∃ v, (s.thread v).waitsOn j ∧ (s.thread v).pending)
    (ht : ¬(s.thread t).waitsOn j) : ∃ v, (Function.update s.thread t th v).waitsOn j ∧
      (Function.update s.thread t th v).pending := by
  obtain ⟨v, hv⟩ := h
  have hne : v ≠ t := by
    rintro rfl
    exact ht hv.left
  refine ⟨v, ?_⟩
  rwa [Function.update_of_ne hne]

theorem Awake.settled (hc : Counted s) (h : Awake s)
    (hs : Settled k timeout s.rw (s.thread t) n rw th r) (hn : n = 0 ∨ n = 1)
    (hw : ∀ j, (s.thread t).waitsOn j → j = k)
    (hlast : r = some false → k = .writer → n = 1 → s.rw.m_policy = .PREFER_WRITERS →
      s.rw.queued .writer = 1 → s.rw.active .reader > 0 →
      ∀ u, (s.thread u).waitsOn .reader → (s.thread u).pending) :
    Awake { rw := rw, thread := Function.update s.thread t th } := by
  have hnone {held : Kind → Nat} {j : Kind} : ¬Thread.waitsOn { held := held } j := by
    simp [Thread.waitsOn]
  have hnonneg (j : Kind) : 0 ≤ s.rw.active j := hc.active_nonneg
  have hold (j : Kind) (hj : j ≠ k) : ¬(s.thread t).waitsOn j := fun ht => hj (hw j ht)
  cases hs with
  | acquire hq =>
    have hact (j : Kind) : ((s.rw.addActive k 1).addQueued k (-n)).active j =
        s.rw.active j + if j = k then 1 else 0 := by
      rw [addQueued_active, addActive_active]
    refine ⟨fun hq' u hu => ?_, fun hq' => ?_⟩
    case refine_1 =>
      obtain ⟨hne, hu⟩ := waitsOn_update hu hnone
      dsimp only
      rw [Function.update_of_ne hne]
      refine h.reader ?_ u hu
      cases k with
      | reader => exact hq
      | writer =>
        have hle := active_writer_le hq'
        rw [hact, if_pos rfl] at hle
        have := hnonneg .writer
        omega
    case refine_2 =>
      refine absurd ?_ hq'
      rw [shouldQueue_writer, hact, hact]
      have hr := hnonneg .reader
      have hw := hnonneg .writer
      cases k with
      | reader => right; left; rw [if_pos rfl]; omega
      | writer => left; rw [if_pos rfl]; omega
  | wait hq =>
    have hth (j : Kind) (hj : j ≠ k) :
        ¬Thread.waitsOn { s.thread t with waiting := some { kind := k, timeout := timeout } } j := by
      simpa [Thread.waitsOn] using Ne.symm hj
    cases k with
    | reader =>
      refine ⟨fun hq' => absurd (addQueued_shouldQueue.trans hq) hq', fun hq' u hu => ?_⟩
      obtain ⟨-, hu⟩ := waitsOn_update hu (hth .writer (by decide))
      refine exists_pending_update (h.writer (fun hq => hq' ?_) u hu) (hold .writer (by decide))
      rw [shouldQueue_writer, addQueued_active, addQueued_active, addQueued_queued, if_pos rfl,
        addQueued_policy]
      exact (shouldQueue_writer.mp hq).imp_right (·.imp_right fun hp => ⟨hp.left, by omega⟩)
    | writer =>
      refine ⟨fun hq' u hu => ?_, fun hq' => absurd (addQueued_shouldQueue.trans hq) hq'⟩
      obtain ⟨hne, hu⟩ := waitsOn_update hu (hth .reader (by decide))
      dsimp only
      rw [Function.update_of_ne hne]
      refine h.reader (fun hq => hq' ?_) u hu
      rw [shouldQueue_reader, addQueued_active, addQueued_queued, if_pos rfl, addQueued_policy]
      exact (shouldQueue_reader.mp hq).imp_right fun hp => ⟨hp.left, by omega⟩
  | refuse hq =>
    cases k with
    | reader =>
      refine ⟨fun hq' => absurd (addQueued_shouldQueue.trans hq) hq', fun hq' u hu => ?_⟩
      obtain ⟨-, hu⟩ := waitsOn_update hu hnone
      refine exists_pending_update (h.writer (fun hq₁ => hq' ?_) u hu) (hold .writer (by decide))
      -- A reader gives up for the sake of a writer: an active one, or a queued one if writers are preferred.
      rw [shouldQueue_writer, addQueued_active, addQueued_active, addQueued_policy]
      obtain hw | ⟨hp, -⟩ := shouldQueue_reader.mp hq
      case inl => exact .inl hw
      case inr =>
        refine (shouldQueue_writer.mp hq₁).imp_right (·.imp_right fun hp' => ?_)
        rw [hp] at hp'
        exact absurd hp'.left (by decide)
    | writer =>
      refine ⟨fun hq' u hu => ?_, fun hq' => absurd (addQueued_shouldQueue.trans hq) hq'⟩
      obtain ⟨hne, hu⟩ := waitsOn_update hu hnone
      dsimp only
      rw [Function.update_of_ne hne]
      by_cases hr : s.rw.shouldQueue .reader
      case neg => exact h.reader hr u hu
      case pos =>
        rw [shouldQueue_reader, addQueued_active, addQueued_queued, if_pos rfl, addQueued_policy] at hq'
        obtain ⟨hw, hp'⟩ := not_or.mp hq'
        obtain ⟨hp, hqw⟩ := (shouldQueue_reader.mp hr).resolve_left hw
        have hle := not_and.mp hp' hp
        have hlast := hlast rfl rfl (by omega) hp (by omega)
        obtain hw' | hr | ⟨hp', -⟩ := shouldQueue_writer.mp hq
        case inl     => exact absurd hw' hw
        case inr.inl => exact hlast hr u hu
        case inr.inr => rw [hp] at hp'; exact absurd hp' (by decide)

end settled

theorem Awake.moves [DecidableEq T] (hc : Counted s) (h : Awake s) (hok : ¬s.strandsReader e)
    (hm : Moves s e s' r) : Awake s' := by
  have hc' := hc.moves hm
  cases hm with
  | @call t k r c rw th hw hs =>
    refine h.settled hc hs (.inl rfl) (fun j hj => ?_) fun _ _ hn => absurd hn (by decide)
    simp [Thread.waitsOn, hw] at hj
  | @wake t r w timeElapsed rw th hw hs hr =>
    refine h.settled hc hs (.inr rfl) (fun j hj => ?_) fun hr' hk _ hp hqw har u hu => ?_
    case refine_1 => simpa [Thread.waitsOn, hw, eq_comm] using hj
    case refine_2 =>
      by_contra hu'
      obtain ⟨timeout, ht, hle⟩ := hr hr'
      refine hok ?_
      have hqw' : s.rw.m_numQueuedWriters = 1 := hqw
      have har' : s.rw.m_numActiveReaders > 0 := har
      have hex : ∃ u, (s.thread u).waitsOn .reader ∧ !(s.thread u).pending := ⟨u, hu, by simpa using hu'⟩
      simp only [strandsReader, hp, hqw', har', hw, hk, Option.any_some, Option.mem_def.mp ht, hle, hex]
      decide
  | @unlock s' t k n woken th hw hh hth hn hd =>
    have hwaiting (u : T) : (Function.update s.thread t th u).waiting = (s.thread u).waiting := by
      by_cases hu : u = t
      case pos => rw [hu, Function.update_self, hth]
      case neg => rw [Function.update_of_ne hu]
    have hwaits {u : T} {j : Kind} : (s'.thread u).waitsOn j = (s.thread u).waitsOn j := by
      rw [Thread.waitsOn, Thread.waitsOn, ← hwaiting u]
      obtain hu | hu := hd.thread u
      all_goals rw [hu]
      exact Thread.notified_waitsOn
    have hpending {u : T} (hu : (s.thread u).pending) : (s'.thread u).pending := by
      rw [Thread.pending, ← hwaiting u] at hu
      obtain hu' | hu' := hd.thread u
      all_goals rw [hu']
      case inl => exact hu
      case inr => exact Thread.notified_pending hu
    refine ⟨fun hq u hu => ?_, fun hq u hu => ?_⟩
    case refine_1 =>
      rw [hd.rw] at hq
      cases k with
      | reader =>
        refine hpending (h.reader (fun hq' => hq ?_) u (hwaits ▸ hu))
        rw [shouldQueue_reader, addActive_active, addActive_queued, addActive_policy]
        simpa using shouldQueue_reader.mp hq'
      | writer =>
        have hpos := hc'.queued_pos hu
        rw [hd.rw] at hpos
        exact hd.notifyAll .reader u (hn.reader rfl hq hpos) hu
    case refine_2 =>
      rw [hd.rw] at hq
      have hpos := hc'.queued_pos hu
      rw [hd.rw] at hpos
      refine hd.notify .writer u (hn.writer hq hpos) ?_
      rw [Thread.waitsOn, hwaiting, ← Thread.waitsOn, ← hwaits]
      exact hu
  | @expire t w th hw hth =>
    have hself : th.pending := by simp [hth, Thread.pending]
    have hwaits {u : T} {j : Kind} :
        (Function.update s.thread t th u).waitsOn j = (s.thread u).waitsOn j := by
      by_cases hu : u = t
      case pos => rw [hu, Function.update_self, hth, Thread.waitsOn, Thread.waitsOn, hw]; rfl
      case neg => rw [Function.update_of_ne hu]
    have hpending {u : T} (hu : (s.thread u).pending) :
        (Function.update s.thread t th u).pending := by
      by_cases hut : u = t
      case pos => rwa [hut, Function.update_self]
      case neg => rwa [Function.update_of_ne hut]
    refine ⟨fun hq u hu => hpending (h.reader hq u (hwaits ▸ hu)), fun hq u hu => ?_⟩
    obtain ⟨v, hv, hvp⟩ := h.writer hq u (hwaits ▸ hu)
    exact ⟨v, hwaits ▸ hv, hpending hvp⟩

section reachable

variable [DecidableEq T] {policy : Policy}

theorem Reachable.awake (h : Reachable policy (fun s e => !s.strandsReader e) s) : Awake s := by
  induction h with
  | init              => exact init_awake
  | step hr he hs ih  => exact ih.moves hr.counted (by simpa using he) (step_moves hs)

-- A mutex that no thread holds or is about to get has no threads waiting, if no writer that gives up leaves
-- a reader behind.
theorem noLostWakeup (h : Reachable policy (fun s e => !s.strandsReader e) s)
    (hfree : ∀ t k, (s.thread t).held k = 0) (hquiet : ∀ t, ¬(s.thread t).pending) (t : T) :
    (s.thread t).waiting = none := by
  have hc := h.counted
  have ha := h.awake
  have hactive (k : Kind) : s.rw.active k = 0 := by
    rw [hc.active]
    exact Finset.sum_eq_zero fun t _ => by rw [hfree, Nat.cast_zero]
  have hqueued {k : Kind} (hw : ∀ u, ¬(s.thread u).waitsOn k) : s.rw.queued k = 0 := by
    rw [hc.queued]
    exact Finset.sum_eq_zero fun t _ => if_neg (hw t)
  have hreaders (hq : ¬s.rw.shouldQueue .reader) (u : T) : ¬(s.thread u).waitsOn .reader :=
    fun hu => hquiet u (ha.reader hq u hu)
  have hwriters (hq : ¬s.rw.shouldQueue .writer) (u : T) : ¬(s.thread u).waitsOn .writer := by
    intro hu
    obtain ⟨v, -, hv⟩ := ha.writer hq u hu
    exact hquiet v hv
  have hnone (k : Kind) : ¬(s.thread t).waitsOn k := by
    -- First the threads that are preferred, then the others.
    cases hp : s.rw.m_policy with
    | PREFER_READERS =>
      have hr : ¬s.rw.shouldQueue .reader := by
        rw [shouldQueue_reader, hactive, hp]
        simp
      have hw : ¬s.rw.shouldQueue .writer := by
        rw [shouldQueue_writer, hactive, hactive, hqueued (hreaders hr)]
        simp
      cases k with
      | reader => exact hreaders hr t
      | writer => exact hwriters hw t
    | PREFER_WRITERS =>
      have hw : ¬s.rw.shouldQueue .writer := by
        rw [shouldQueue_writer, hactive, hactive, hp]
        simp
      have hr : ¬s.rw.shouldQueue .reader := by
        rw [shouldQueue_reader, hactive, hqueued (hwriters hw)]
        simp
      cases k with
      | reader => exact hreaders hr t
      | writer => exact hwriters hw t
  cases hw : (s.thread t).waiting with
  | none   => rfl
  | some w =>
    refine absurd ?_ (hnone w.kind)
    simp [Thread.waitsOn, hw]

-- A writer waits for a reader and gives up, and another reader waits for the writer: no one wakes it.
def abandoned : List (Event (Fin 3)) :=
  [.call 0 .reader .lock, .call 1 .writer (.tryLockFor 1), .call 2 .reader .lock, .expire 1, .wake 1 1,
    .unlock 0 .reader none]

theorem abandoned_isSome : ((init .PREFER_WRITERS).run (fun _ _ => true) abandoned).isSome := by
  decide

theorem lostWakeup : ¬∀ (T : Type) [Fintype T] [DecidableEq T] (policy : Policy) (s : System T),
    Reachable policy (fun _ _ => true) s → (∀ t k, (s.thread t).held k = 0) →
      (∀ t, ¬(s.thread t).pending) → ∀ t, (s.thread t).waiting = none := by
  intro h
  have hr := Reachable.init.run (Option.some_get abandoned_isSome).symm
  exact absurd (h _ _ _ hr (fun t k => by revert t; cases k <;> decide) (by decide) 2) (by decide)

-- A reader and a writer that wait for another writer, and get the lock one after the other.
def handedOver : List (Event (Fin 3)) :=
  [.call 0 .writer .lock, .call 1 .reader .lock, .call 2 .writer (.tryLockFor 5), .unlock 0 .writer (some 2),
    .wake 2 3, .unlock 2 .writer none, .wake 1 0, .unlock 1 .reader none]

theorem handedOver_isSome :
    ((init .PREFER_WRITERS).run (fun s e => !s.strandsReader e) handedOver).isSome := by
  decide

theorem noLostWakeup_handedOver : ∃ s : System (Fin 3),
    (init .PREFER_WRITERS).run (fun s e => !s.strandsReader e) handedOver = some s ∧
      ∀ t, (s.thread t).waiting = none := by
  have hrun := (Option.some_get handedOver_isSome).symm
  refine ⟨_, hrun, noLostWakeup (Reachable.init.run hrun) (fun t k => ?_) (by decide)⟩
  revert t
  cases k <;> decide

end reachable

end System

end Runtime.RWMutex
