import DmdModel.Runtime.RWMutex.Basic

namespace Runtime.RWMutex

variable {T : Type} [DecidableEq T]

namespace ReadWriteMutex

variable {rw : ReadWriteMutex} {k j : Kind} {d : Int}

@[simp]
theorem addQueued_policy : (rw.addQueued k d).m_policy = rw.m_policy := by
  cases k <;> rfl

@[simp]
theorem addActive_policy : (rw.addActive k d).m_policy = rw.m_policy := by
  cases k <;> rfl

@[simp]
theorem addQueued_active : (rw.addQueued k d).active j = rw.active j := by
  cases k <;> cases j <;> rfl

@[simp]
theorem addActive_queued : (rw.addActive k d).queued j = rw.queued j := by
  cases k <;> cases j <;> rfl

theorem addQueued_queued : (rw.addQueued k d).queued j = rw.queued j + if j = k then d else 0 := by
  cases k <;> cases j <;> simp [addQueued, queued]

theorem addActive_active : (rw.addActive k d).active j = rw.active j + if j = k then d else 0 := by
  cases k <;> cases j <;> simp [addActive, active]

@[simp]
theorem addQueued_zero : rw.addQueued k 0 = rw := by
  cases k <;> simp [addQueued]

@[simp]
theorem addQueued_addQueued {d' : Int} :
    (rw.addQueued k d).addQueued k d' = rw.addQueued k (d + d') := by
  cases k <;> simp [addQueued, add_assoc]

-- Whether a thread is to be queued does not depend on the queue that it is for.
@[simp]
theorem addQueued_shouldQueue : (rw.addQueued k d).shouldQueue k = rw.shouldQueue k := by
  cases k <;> rfl

theorem addActive_addQueued {d' : Int} :
    (rw.addQueued k d).addActive k d' = (rw.addActive k d').addQueued k d := by
  cases k <;> rfl

theorem shouldQueue_reader : rw.shouldQueue .reader ↔ rw.active .writer > 0 ∨
    rw.m_policy = .PREFER_WRITERS ∧ rw.queued .writer > 0 := by
  simp only [shouldQueue, shouldQueueReader, active, queued]
  split
  case isTrue h  => simp [h]
  case isFalse h => cases hp : rw.m_policy <;> simp [h]

theorem shouldQueue_writer : rw.shouldQueue .writer ↔ rw.active .writer > 0 ∨
    rw.active .reader > 0 ∨ rw.m_policy = .PREFER_READERS ∧ rw.queued .reader > 0 := by
  simp only [shouldQueue, shouldQueueWriter, active, queued]
  split
  case isTrue h  => simp [← or_assoc, h]
  case isFalse h =>
    obtain ⟨hw, hr⟩ := not_or.mp h
    cases hp : rw.m_policy <;> simp [hw, hr]

-- No thread goes on while a writer is active.
theorem active_writer_le (h : ¬rw.shouldQueue k) : rw.active .writer ≤ 0 := by
  by_contra ha
  cases k with
  | reader => exact h ((shouldQueue_reader).mpr (.inl (by omega)))
  | writer => exact h ((shouldQueue_writer).mpr (.inl (by omega)))

end ReadWriteMutex

namespace Thread

variable {th : Thread} {k : Kind}

@[simp]
theorem notified_held : th.notified.held = th.held :=
  rfl

@[simp]
theorem notified_waitsOn : th.notified.waitsOn k = th.waitsOn k := by
  cases h : th.waiting <;> simp [waitsOn, notified, h]

theorem pending_of_notified (h : th.waitsOn k) : th.notified.pending := by
  cases hw : th.waiting with
  | none   => simp [waitsOn, hw] at h
  | some w => simp [pending, notified, hw]

theorem notified_pending (h : th.pending) : th.notified.pending := by
  cases hw : th.waiting with
  | none   => simp [Thread.pending, hw] at h
  | some w => simp [Thread.pending, notified, hw]

theorem waitsOn_of_asleep (h : th.asleep k) : th.waitsOn k := by
  cases hw : th.waiting with
  | none   => simp [asleep, hw] at h
  | some w =>
    simp only [asleep, hw, Option.any_some, Bool.and_eq_true] at h
    simpa [waitsOn, hw] using h.left

-- A thread that waits and does not sleep is notified.
theorem pending_of_not_asleep (h : th.waitsOn k) (ha : ¬th.asleep k) : th.pending := by
  cases hw : th.waiting with
  | none   => simp [waitsOn, hw] at h
  | some w =>
    simp only [waitsOn, hw, Option.any_some] at h
    simp only [asleep, hw, Option.any_some, h, Bool.true_and, Bool.not_eq_true', Bool.not_eq_false] at ha
    simp [pending, hw, ha]

end Thread

namespace System

open ReadWriteMutex

variable {s s' : System T} {t u : T} {k j : Kind} {e : Event T} {r : Option Bool}

-- What a thread does about the lock of k. It waits on the queue already, or not.
inductive Settled (k : Kind) (timeout : Option Int) (rw : ReadWriteMutex) (th : Thread) (waits : Int) :
    ReadWriteMutex → Thread → Option Bool → Prop
  | acquire (hq : ¬rw.shouldQueue k) : Settled k timeout rw th waits
      ((rw.addActive k 1).addQueued k (-waits))
      { held := Function.update th.held k (th.held k + 1) } (some true)
  | wait (hq : rw.shouldQueue k) : Settled k timeout rw th waits
      (rw.addQueued k (1 - waits)) { th with waiting := some { kind := k, timeout := timeout } } none
  | refuse (hq : rw.shouldQueue k) : Settled k timeout rw th waits
      (rw.addQueued k (-waits)) { held := th.held } (some false)

-- A new call.
theorem settled_call {c : Call} (h : s.settle t k c.timeout (c.run k s.rw) = (s', r)) :
    ∃ rw th, Settled k c.timeout s.rw (s.thread t) 0 rw th r ∧
      s' = { rw := rw, thread := Function.update s.thread t th } := by
  have hrun : c.run k s.rw = match c with
      | .lock => ReadWriteMutex.lock k s.rw
      | .tryLock => ReadWriteMutex.tryLock k s.rw
      | .tryLockFor timeout => ReadWriteMutex.tryLockFor k s.rw timeout := by
    cases c <;> cases k <;> rfl
  rw [hrun] at h
  have hzero : s.rw.addQueued k (-0) = s.rw := addQueued_zero
  have hzero' : (s.rw.addActive k 1).addQueued k (-0) = s.rw.addActive k 1 := addQueued_zero
  cases c with
  | lock =>
    simp only [ReadWriteMutex.lock, lockLoop, addQueued_shouldQueue] at h
    split at h
    case isTrue hq =>
      cases h
      exact ⟨_, _, .wait hq, rfl⟩
    case isFalse hq =>
      rw [addActive_addQueued, addQueued_addQueued] at h
      cases h
      exact ⟨_, _, .acquire hq, rfl⟩
  | tryLock =>
    simp only [ReadWriteMutex.tryLock] at h
    split at h
    case isTrue hq =>
      cases h
      exact ⟨_, _, .refuse hq, by rw [hzero]; rfl⟩
    case isFalse hq =>
      cases h
      exact ⟨_, _, .acquire hq, by rw [hzero']; rfl⟩
  | tryLockFor timeout =>
    simp only [ReadWriteMutex.tryLockFor, Bool.not_eq_true', ← Bool.not_eq_true] at h
    split_ifs at h with hq ht
    case pos =>
      cases h
      exact ⟨_, _, .refuse hq, by rw [hzero]; rfl⟩
    case neg =>
      cases h
      exact ⟨_, _, .wait hq, rfl⟩
    case neg =>
      cases h
      exact ⟨_, _, .acquire hq, by rw [hzero']; rfl⟩

-- A call goes on after a wait.
theorem settled_wake {w : Waiter} {timeElapsed : Int}
    (h : s.settle t w.kind w.timeout (recheck s.rw w timeElapsed) = (s', r)) :
    (∃ rw th, Settled w.kind w.timeout s.rw (s.thread t) 1 rw th r ∧
      s' = { rw := rw, thread := Function.update s.thread t th }) ∧
      (r = some false → ∃ timeout ∈ w.timeout, timeout ≤ timeElapsed) := by
  have hzero : s.rw.addQueued w.kind (1 - 1) = s.rw := addQueued_zero
  unfold recheck at h
  cases ht : w.timeout with
  | none =>
    simp only [ht, lockLoop] at h
    split at h
    case isTrue hq =>
      cases h
      exact ⟨⟨_, _, .wait hq, by rw [hzero]⟩, nofun⟩
    case isFalse hq =>
      cases h
      exact ⟨⟨_, _, .acquire hq, rfl⟩, nofun⟩
  | some timeout =>
    simp only [ht, tryLockLoop] at h
    split_ifs at h with hq he
    case pos =>
      cases h
      exact ⟨⟨_, _, .refuse hq, rfl⟩, fun _ => ⟨timeout, rfl, he⟩⟩
    case neg =>
      cases h
      exact ⟨⟨_, _, .wait hq, by rw [hzero]⟩, nofun⟩
    case neg =>
      cases h
      exact ⟨⟨_, _, .acquire hq, rfl⟩, nofun⟩

-- The threads after a notification are the same, but for being notified.
structure Delivered (n : Option Notification) (s s' : System T) : Prop where
  rw        : s'.rw = s.rw
  thread    : ∀ u, s'.thread u = s.thread u ∨ s'.thread u = (s.thread u).notified
  notify    : ∀ j u, n = some (.notify j) → (s.thread u).waitsOn j →
    ∃ v, (s'.thread v).waitsOn j ∧ (s'.thread v).pending
  notifyAll : ∀ j u, n = some (.notifyAll j) → (s'.thread u).waitsOn j → (s'.thread u).pending

variable [Fintype T]

theorem deliver_delivered {n : Option Notification} {woken : Option T}
    (h : s.deliver n woken = some s') : Delivered n s s' := by
  have hsame : Delivered none s s := ⟨rfl, fun _ => .inl rfl, nofun, nofun⟩
  unfold deliver at h
  split at h
  case h_1 =>
    cases h
    exact hsame
  case h_2 j =>
    split_ifs at h with hall
    cases h
    refine ⟨rfl, fun _ => .inl rfl, fun j' u hj hu => ⟨u, hu, ?_⟩, nofun⟩
    cases hj
    exact Thread.pending_of_not_asleep hu fun ha => hall ⟨u, ha⟩
  case h_3 j v =>
    split_ifs at h with ha
    cases h
    refine ⟨rfl, fun u => ?_, fun j' u hj _ => ⟨v, ?_⟩, nofun⟩
    case refine_1 =>
      by_cases hu : u = v
      case pos => rw [hu]; exact .inr (Function.update_self ..)
      case neg => exact .inl (Function.update_of_ne hu ..)
    case refine_2 =>
      cases hj
      have hw := Thread.waitsOn_of_asleep ha
      dsimp only
      rw [Function.update_self]
      exact ⟨Thread.notified_waitsOn.trans hw, Thread.pending_of_notified hw⟩
  case h_4 j =>
    cases h
    refine ⟨rfl, fun u => ?_, nofun, fun j' u hj hu => ?_⟩
    case refine_1 =>
      dsimp only
      split
      case isTrue  => exact .inr rfl
      case isFalse => exact .inl rfl
    case refine_2 =>
      cases hj
      dsimp only at hu ⊢
      split at hu
      case isTrue hw  => rw [if_pos hw]; exact Thread.pending_of_notified hw
      case isFalse hw => exact absurd hu hw
  case h_5 => cases h

-- The notification of `unlock`, after which rw is left: who need not wait any more is notified.
structure Unlocks (k : Kind) (rw : ReadWriteMutex) (n : Option Notification) : Prop where
  writer : ¬rw.shouldQueue .writer → rw.queued .writer > 0 → n = some (.notify .writer)
  reader : k = .writer → ¬rw.shouldQueue .reader → rw.queued .reader > 0 →
    n = some (.notifyAll .reader)

theorem reader_unlocks {rw : ReadWriteMutex} : (Reader.unlock rw).1 = rw.addActive .reader (-1) ∧
    Unlocks .reader (Reader.unlock rw).1 (Reader.unlock rw).2 := by
  refine ⟨rfl, fun hq hw => ?_, nofun⟩
  have hr : ¬(rw.addActive .reader (-1)).m_numActiveReaders > 0 := fun hr =>
    hq ((shouldQueue_writer).mpr (.inr (.inl hr)))
  exact if_pos ⟨by omega, hw⟩

theorem writer_unlocks {rw : ReadWriteMutex} : (Writer.unlock rw).1 = rw.addActive .writer (-1) ∧
    Unlocks .writer (Writer.unlock rw).1 (Writer.unlock rw).2 := by
  unfold Writer.unlock
  dsimp only
  split
  case isFalse ha =>
    have hno {k : Kind} : (rw.addActive .writer (-1)).shouldQueue k := by
      by_contra hq
      have hle := active_writer_le hq
      simp only [active] at hle
      omega
    exact ⟨rfl, fun hq => absurd hno hq, fun _ hq => absurd hno hq⟩
  case isTrue =>
    split
    case h_1 hp =>
      refine ⟨rfl, fun hq hw => ?_, fun _ _ hr => if_pos hr⟩
      have hr : ¬(rw.addActive .writer (-1)).m_numQueuedReaders > 0 := fun hr =>
        hq ((shouldQueue_writer).mpr (.inr (.inr ⟨hp, hr⟩)))
      exact (if_neg hr).trans (if_pos hw)
    case h_2 hp =>
      refine ⟨rfl, fun _ hw => if_pos hw, fun _ hq hr => ?_⟩
      have hw : ¬(rw.addActive .writer (-1)).m_numQueuedWriters > 0 := fun hw =>
        hq ((shouldQueue_reader).mpr (.inr ⟨hp, hw⟩))
      exact (if_neg hw).trans (if_pos hr)

-- What an event does.
inductive Moves (s : System T) : Event T → System T → Option Bool → Prop
  | call   {t : T} {k : Kind} {r : Option Bool} {c : Call} {rw : ReadWriteMutex} {th : Thread} (hw : (s.thread t).waiting = none)
    (h : Settled k c.timeout s.rw (s.thread t) 0 rw th r) :
    Moves s (.call t k c) { rw := rw, thread := Function.update s.thread t th } r
  | wake   {t : T} {r : Option Bool} {w : Waiter} {timeElapsed : Int} {rw : ReadWriteMutex} {th : Thread}
    (hw : (s.thread t).waiting = some w) (h : Settled w.kind w.timeout s.rw (s.thread t) 1 rw th r)
    (hr : r = some false → ∃ timeout ∈ w.timeout, timeout ≤ timeElapsed) :
    Moves s (.wake t timeElapsed) { rw := rw, thread := Function.update s.thread t th } r
  | unlock {s' : System T} {t : T} {k : Kind} {n : Option Notification} {woken : Option T} {th : Thread}
    (hw : (s.thread t).waiting = none) (hh : 0 < (s.thread t).held k)
    (hth : th = { s.thread t with
      held := Function.update (s.thread t).held k ((s.thread t).held k - 1) })
    (hn : Unlocks k (s.rw.addActive k (-1)) n)
    (hd : Delivered n { rw := s.rw.addActive k (-1), thread := Function.update s.thread t th } s') :
    Moves s (.unlock t k woken) s' none
  | expire {t : T} {w : Waiter} {th : Thread} (hw : (s.thread t).waiting = some w)
    (hth : th = { s.thread t with waiting := some { w with expired := true } }) :
    Moves s (.expire t) { s with thread := Function.update s.thread t th } none

theorem step_moves (h : s.step e = some (s', r)) : Moves s e s' r := by
  cases e with
  | call t k c =>
    simp only [step] at h
    split at h
    case isFalse => cases h
    case isTrue hw =>
      obtain ⟨rw, th, hs, rfl⟩ := settled_call (Option.some.inj h)
      exact .call hw hs
  | wake t timeElapsed =>
    simp only [step] at h
    obtain ⟨w, hw, h⟩ := Option.bind_eq_some_iff.mp h
    obtain ⟨⟨rw, th, hs, rfl⟩, hr⟩ := settled_wake (Option.some.inj h)
    exact .wake hw hs hr
  | unlock t k woken =>
    simp only [step] at h
    split at h
    case isFalse => cases h
    case isTrue hw =>
      obtain ⟨s₁, hd, h⟩ := Option.map_eq_some_iff.mp h
      cases h
      cases k with
      | reader => exact .unlock hw.left hw.right rfl (reader_unlocks).right (deliver_delivered hd)
      | writer =>
        have hu : (Writer.unlock s.rw).1 = _ ∧ Unlocks .writer _ (Writer.unlock s.rw).2 := writer_unlocks
        rw [hu.left] at hd hu
        exact .unlock hw.left hw.right rfl hu.right (deliver_delivered hd)
  | expire t =>
    simp only [step] at h
    obtain ⟨w, hw, h⟩ := Option.bind_eq_some_iff.mp h
    obtain ⟨-, -, h⟩ := Option.bind_eq_some_iff.mp h
    cases h
    exact .expire hw rfl

theorem Reachable.run {policy : Policy} {ok : System T → Event T → Bool} {es : List (Event T)}
    (h : Reachable policy ok s) (hr : s.run ok es = some s') : Reachable policy ok s' := by
  induction es generalizing s with
  | nil => exact Option.some.inj hr ▸ h
  | cons e es ih =>
    simp only [System.run] at hr
    split at hr
    case isFalse => cases hr
    case isTrue hok =>
      obtain ⟨sr, he, hrun⟩ := Option.bind_eq_some_iff.mp hr
      exact ih (h.step hok he) hrun

end System

end Runtime.RWMutex
