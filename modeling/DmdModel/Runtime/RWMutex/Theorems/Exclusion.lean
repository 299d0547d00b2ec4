import DmdModel.Runtime.RWMutex.Theorems.Steps

namespace Runtime.RWMutex

open ReadWriteMutex

namespace Thread

variable {th : Thread} {j : Kind}

-- A thread that waits on a queue counts for one.
def waits (th : Thread) (j : Kind) : Int :=
  if th.waitsOn j then 1 else 0

theorem waits_of_none (h : th.waiting = none) : th.waits j = 0 := by
  simp [waits, waitsOn, h]

theorem waits_of_some {w : Waiter} (h : th.waiting = some w) :
    th.waits j = if j = w.kind then 1 else 0 := by
  simp [waits, waitsOn, h, eq_comm]

theorem notified_waits : th.notified.waits j = th.waits j := by
  rw [waits, waits, notified_waitsOn]

end Thread

namespace System

section settled

variable {k j : Kind} {timeout : Option Int} {rw rw' : ReadWriteMutex} {th th' : Thread} {n : Int}
variable {r : Option Bool}

-- A lock is acquired if and only if the call returns true.
theorem Settled.held (h : Settled k timeout rw th n rw' th' r) :
    th'.held j = th.held j + if j = k ∧ r = some true then 1 else 0 := by
  cases h with
  | acquire hq =>
    by_cases hj : j = k
    case pos => simp [hj]
    case neg => simp [hj]
  | wait hq   => simp
  | refuse hq => simp

theorem Settled.active (h : Settled k timeout rw th n rw' th' r) :
    rw'.active j = rw.active j + if j = k ∧ r = some true then 1 else 0 := by
  cases h with
  | acquire hq => simp [addActive_active]
  | wait hq    => simp
  | refuse hq  => simp

theorem Settled.queued (h : Settled k timeout rw th n rw' th' r)
    (hw : th.waits j = if j = k then n else 0) :
    rw'.queued j + th.waits j = rw.queued j + th'.waits j := by
  cases h with
  | acquire hq =>
    rw [addQueued_queued, addActive_queued, hw, Thread.waits_of_none rfl]
    split <;> omega
  | wait hq =>
    rw [addQueued_queued, hw, Thread.waits_of_some rfl]
    split <;> omega
  | refuse hq =>
    rw [addQueued_queued, hw, Thread.waits_of_none rfl]
    split <;> omega

end settled

variable {T : Type} [Fintype T] {s s' : System T} {t u : T} {k j : Kind}
variable {e : Event T} {r : Option Bool} {th : Thread}

-- The counters say how many locks are held, and how many threads wait.
structure Counted (s : System T) : Prop where
  active : ∀ j, s.rw.active j = ∑ t, ((s.thread t).held j : Int)
  queued : ∀ j, s.rw.queued j = ∑ t, (s.thread t).waits j

theorem Counted.held_le (h : Counted s) : ((s.thread t).held j : Int) ≤ s.rw.active j := by
  rw [h.active]
  exact Finset.single_le_sum (f := fun t => ((s.thread t).held j : Int)) (fun _ _ => Int.natCast_nonneg _)
    (Finset.mem_univ t)

theorem Counted.active_nonneg (h : Counted s) : 0 ≤ s.rw.active j := by
  rw [h.active]
  exact Finset.sum_nonneg fun _ _ => Int.natCast_nonneg _

theorem sum_held_eq_card (h : ∀ t, (s.thread t).held j ≤ 1) :
    ∑ t, ((s.thread t).held j : Int) = (Finset.univ.filter fun t => 0 < (s.thread t).held j).card := by
  rw [Finset.card_filter]
  push_cast
  refine Finset.sum_congr rfl fun t _ => ?_
  have ht := h t
  split <;> omega

theorem Counted.queued_eq (h : Counted s) :
    s.rw.queued j = (Finset.univ.filter fun t => (s.thread t).waitsOn j).card := by
  rw [h.queued, Finset.card_filter]
  push_cast
  rfl

theorem init_counted {policy : Policy} : Counted (init policy : System T) where
  active j := by cases j <;> simp [init, active]
  queued j := by cases j <;> simp [init, queued, Thread.waits, Thread.waitsOn]

theorem Counted.delivered {n : Option Notification} (h : Counted s) (hd : Delivered n s s') :
    Counted s' where
  active j := by
    rw [hd.rw, h.active]
    refine Finset.sum_congr rfl fun u _ => ?_
    obtain hu | hu := hd.thread u
    all_goals rw [hu]
    rfl
  queued j := by
    rw [hd.rw, h.queued]
    refine Finset.sum_congr rfl fun u _ => ?_
    obtain hu | hu := hd.thread u
    all_goals rw [hu]
    exact Thread.notified_waits.symm

-- There is one writer at most, and then no reader.
def Exclusive (rw : ReadWriteMutex) : Prop :=
  rw.active .writer = 0 ∨ rw.active .writer = 1 ∧ rw.active .reader = 0

theorem Exclusive.settled {timeout : Option Int} {rw : ReadWriteMutex} {n : Int} (hc : Counted s)
    (h : Exclusive s.rw) (hs : Settled k timeout s.rw (s.thread t) n rw th r) : Exclusive rw := by
  have hw : 0 ≤ s.rw.active .writer := hc.active_nonneg
  have hr : 0 ≤ s.rw.active .reader := hc.active_nonneg
  unfold Exclusive at h ⊢
  simp only [hs.active]
  cases hs with
  | acquire hq =>
    have hle := active_writer_le hq
    cases k with
    | reader =>
      left
      simp only [reduceCtorEq, false_and, if_false]
      omega
    | writer =>
      have hr' : ¬s.rw.active .reader > 0 := fun hr => hq (shouldQueue_writer.mpr (.inr (.inl hr)))
      right
      simp only [reduceCtorEq, false_and, and_self, if_true, if_false]
      omega
  | wait hq   => simpa using h
  | refuse hq => simpa using h

variable [DecidableEq T]

theorem sum_update (f : Thread → Int) :
    ∑ u, f (Function.update s.thread t th u) + f (s.thread t) = ∑ u, f (s.thread u) + f th := by
  have hcomp (u : T) : f (Function.update s.thread t th u) =
      Function.update (fun u => f (s.thread u)) t (f th) u :=
    Function.apply_update (fun _ => f) s.thread t th u
  simp only [hcomp]
  rw [Finset.sum_update_of_mem (Finset.mem_univ t),
    ← Finset.add_sum_erase Finset.univ (fun u => f (s.thread u)) (Finset.mem_univ t),
    Finset.sdiff_singleton_eq_erase]
  ring

-- A change of one thread that the counters follow.
theorem Counted.update {rw : ReadWriteMutex} (h : Counted s)
    (ha : ∀ j, rw.active j + (s.thread t).held j = s.rw.active j + th.held j)
    (hq : ∀ j, rw.queued j + (s.thread t).waits j = s.rw.queued j + th.waits j) :
    Counted { rw := rw, thread := Function.update s.thread t th } where
  active j := by
    have hs : ∑ u, ((Function.update s.thread t th u).held j : Int) + (s.thread t).held j = _ :=
      sum_update fun th => (th.held j : Int)
    have ha := ha j
    rw [h.active j] at ha
    simp only at hs ⊢
    omega
  queued j := by
    have hs : ∑ u, (Function.update s.thread t th u).waits j + (s.thread t).waits j = _ :=
      sum_update fun th => th.waits j
    have hq := hq j
    rw [h.queued j] at hq
    simp only at hs ⊢
    omega

theorem Counted.settled {timeout : Option Int} {rw : ReadWriteMutex} {n : Int} (h : Counted s)
    (hs : Settled k timeout s.rw (s.thread t) n rw th r)
    (hw : ∀ j, (s.thread t).waits j = if j = k then n else 0) :
    Counted { rw := rw, thread := Function.update s.thread t th } := by
  refine h.update (fun j => ?_) fun j => hs.queued (hw j)
  rw [hs.active, hs.held]
  push_cast
  ring

theorem Counted.moves (h : Counted s) (hm : Moves s e s' r) : Counted s' := by
  cases hm with
  | call hw hs => exact h.settled hs fun j => by rw [Thread.waits_of_none hw, ite_self]
  | wake hw hs => exact h.settled hs fun j => Thread.waits_of_some hw
  | expire hw hth =>
    refine h.update (fun j => ?_) fun j => ?_
    case refine_1 => rw [hth]
    case refine_2 => rw [hth, Thread.waits_of_some hw, Thread.waits_of_some rfl]
  | @unlock s' t k n woken th hw hh hth hn hd =>
    refine (h.update (fun j => ?_) fun j => ?_).delivered hd
    case refine_1 =>
      rw [hth, addActive_active]
      dsimp only
      rw [Function.update_apply]
      split
      case isTrue hj => rw [hj]; omega
      case isFalse   => omega
    case refine_2 =>
      rw [hth, addActive_queued]
      rfl

theorem Exclusive.moves (hc : Counted s) (h : Exclusive s.rw) (hm : Moves s e s' r) :
    Exclusive s'.rw := by
  cases hm with
  | call hw hs    => exact h.settled hc hs
  | wake hw hs    => exact h.settled hc hs
  | expire hw hth => exact h
  | @unlock s' t k n woken th hw hh hth hn hd =>
    have hle : ((s.thread t).held k : Int) ≤ s.rw.active k := hc.held_le
    unfold Exclusive at h ⊢
    simp only [hd.rw, addActive_active]
    cases k with
    | reader =>
      simp only [reduceCtorEq, if_false, if_true]
      omega
    | writer =>
      simp only [reduceCtorEq, if_false, if_true]
      omega

variable {policy : Policy} {ok : System T → Event T → Bool}

theorem Reachable.counted (h : Reachable policy ok s) : Counted s := by
  induction h with
  | init         => exact init_counted
  | step _ _ h ih => exact ih.moves (step_moves h)

theorem Reachable.exclusive (h : Reachable policy ok s) : Exclusive s.rw := by
  induction h with
  | init            => exact .inl rfl
  | step hr _ h ih  => exact ih.moves hr.counted (step_moves h)

-- A thread that a call returns true to has acquired the lock.
structure Acquires (k : Kind) (b : Bool) (th th' : Thread) : Prop where
  held  : th'.held k = th.held k + if b then 1 else 0
  holds : th.held k = 0 → (b = true ↔ 0 < th'.held k)

theorem Settled.acquires {timeout : Option Int} {rw rw' : ReadWriteMutex} {th' : Thread} {n : Int} {b : Bool}
    (h : Settled k timeout rw th n rw' th' (some b)) : Acquires k b th th' := by
  have hheld : th'.held k = th.held k + if b then 1 else 0 := by simpa using h.held (j := k)
  refine ⟨hheld, fun hz => ?_⟩
  rw [hheld, hz]
  cases b <;> simp

theorem acquires_call {c : Call} {b : Bool} (h : s.step (.call t k c) = some (s', some b)) :
    Acquires k b (s.thread t) (s'.thread t) := by
  cases step_moves h with
  | call hw hs =>
    simp only [Function.update_self]
    exact hs.acquires

theorem acquires_wake {w : Waiter} {timeElapsed : Int} {b : Bool} (hw : (s.thread t).waiting = some w)
    (h : s.step (.wake t timeElapsed) = some (s', some b)) :
    Acquires w.kind b (s.thread t) (s'.thread t) := by
  cases step_moves h with
  | wake hw' hs =>
    cases hw.symm.trans hw'
    simp only [Function.update_self]
    exact hs.acquires

-- The active counts are the numbers of locks that are held, and so, unless a reader holds several, of the
-- threads that hold one; the queued counts are the numbers of threads that wait. A call returns true if and
-- only if its thread acquires the lock.
theorem exclusion (h : Reachable policy ok s) :
    (s.rw.m_numActiveWriters = 0 ∨ s.rw.m_numActiveWriters = 1) ∧
    (s.rw.m_numActiveWriters = 1 → s.rw.m_numActiveReaders = 0) ∧
    s.rw.m_numActiveReaders = ∑ t, ((s.thread t).held .reader : Int) ∧
    s.rw.m_numActiveWriters = ∑ t, ((s.thread t).held .writer : Int) ∧
    ((∀ t, (s.thread t).held .reader ≤ 1) →
      s.rw.m_numActiveReaders = (Finset.univ.filter fun t => 0 < (s.thread t).held .reader).card) ∧
    s.rw.m_numActiveWriters = (Finset.univ.filter fun t => 0 < (s.thread t).held .writer).card ∧
    s.rw.m_numQueuedReaders = (Finset.univ.filter fun t => (s.thread t).waitsOn .reader).card ∧
    s.rw.m_numQueuedWriters = (Finset.univ.filter fun t => (s.thread t).waitsOn .writer).card ∧
    (∀ t k c s' b, s.step (.call t k c) = some (s', some b) →
      Acquires k b (s.thread t) (s'.thread t)) ∧
    ∀ t w timeElapsed s' b, (s.thread t).waiting = some w →
      s.step (.wake t timeElapsed) = some (s', some b) →
        Acquires w.kind b (s.thread t) (s'.thread t) := by
  have hc := h.counted
  have hex : s.rw.m_numActiveWriters = 0 ∨ s.rw.m_numActiveWriters = 1 ∧ s.rw.m_numActiveReaders = 0 :=
    h.exclusive
  have hwriter (t : T) : (s.thread t).held .writer ≤ 1 := by
    have hle : ((s.thread t).held .writer : Int) ≤ s.rw.m_numActiveWriters := hc.held_le
    omega
  have hqueued (j : Kind) : s.rw.queued j = _ := hc.queued_eq
  refine ⟨hex.imp_right And.left, fun hw => ?_, hc.active .reader, hc.active .writer, fun hr => ?_, ?_,
    hqueued .reader, hqueued .writer, fun t k c s' b => acquires_call, fun t w timeElapsed s' b => acquires_wake⟩
  case refine_1 => omega
  case refine_2 => exact (hc.active .reader).trans (sum_held_eq_card hr)
  case refine_3 => exact (hc.active .writer).trans (sum_held_eq_card hwriter)

-- A writer that waits for a reader.
def contended : List (Event (Fin 2)) :=
  [.call ⟨0, Nat.zero_lt_two⟩ .reader .tryLock, .call ⟨1, Nat.one_lt_two⟩ .writer .lock]

theorem contended_isSome : ((init .PREFER_READERS).run (fun _ _ => true) contended).isSome := by
  decide

theorem exclusion_contended : ∃ s : System (Fin 2),
    (init .PREFER_READERS).run (fun _ _ => true) contended = some s ∧ s.rw.m_numActiveReaders = 1 ∧
      s.rw.m_numActiveReaders = ∑ t, ((s.thread t).held .reader : Int) :=
  have hrun := (Option.some_get contended_isSome).symm
  ⟨_, hrun, by decide, (exclusion (Reachable.init.run hrun)).right.right.left⟩

end System

end Runtime.RWMutex
