import Mathlib

namespace Runtime.RWMutex

inductive Policy
  | PREFER_READERS
  | PREFER_WRITERS
  deriving DecidableEq

-- The two locks of a mutex.
inductive Kind
  | reader
  | writer
  deriving DecidableEq

structure ReadWriteMutex where
  m_policy           : Policy
  m_numQueuedReaders : Int := 0
  m_numActiveReaders : Int := 0
  m_numQueuedWriters : Int := 0
  m_numActiveWriters : Int := 0

-- How a critical section ends: in a wait on the queue, or with a return of whether the lock is acquired.
inductive Exit
  | wait
  | returns (acquired : Bool)
  deriving DecidableEq

-- The notification of waiting threads.
inductive Notification
  | notify (k : Kind)
  | notifyAll (k : Kind)

namespace ReadWriteMutex

def shouldQueueReader (rw : ReadWriteMutex) : Bool :=
  if rw.m_numActiveWriters > 0 then
    true
  else
    match rw.m_policy with
    | .PREFER_WRITERS => rw.m_numQueuedWriters > 0
    | .PREFER_READERS => false

def shouldQueueWriter (rw : ReadWriteMutex) : Bool :=
  if rw.m_numActiveWriters > 0 ∨ rw.m_numActiveReaders > 0 then
    true
  else
    match rw.m_policy with
    | .PREFER_READERS => rw.m_numQueuedReaders > 0
    | .PREFER_WRITERS => false

section kind

variable (k : Kind) (rw : ReadWriteMutex)

def shouldQueue : Bool :=
  match k with
  | .reader => rw.shouldQueueReader
  | .writer => rw.shouldQueueWriter

def queued : Int :=
  match k with
  | .reader => rw.m_numQueuedReaders
  | .writer => rw.m_numQueuedWriters

def active : Int :=
  match k with
  | .reader => rw.m_numActiveReaders
  | .writer => rw.m_numActiveWriters

def addQueued (d : Int) : ReadWriteMutex :=
  match k with
  | .reader => { rw with m_numQueuedReaders := rw.m_numQueuedReaders + d }
  | .writer => { rw with m_numQueuedWriters := rw.m_numQueuedWriters + d }

def addActive (d : Int) : ReadWriteMutex :=
  match k with
  | .reader => { rw with m_numActiveReaders := rw.m_numActiveReaders + d }
  | .writer => { rw with m_numActiveWriters := rw.m_numActiveWriters + d }

-- The loop of `lock`, from the test of its condition to the next wait or the end.
def lockLoop : ReadWriteMutex × Exit :=
  if rw.shouldQueue k then
    (rw, .wait)
  else
    ((rw.addActive k 1).addQueued k (-1), .returns true)

def lock : ReadWriteMutex × Exit :=
  (rw.addQueued k 1).lockLoop k

def tryLock : ReadWriteMutex × Exit :=
  if rw.shouldQueue k then (rw, .returns false) else (rw.addActive k 1, .returns true)

-- `tryLock` with a timeout, up to the first wait.
def tryLockFor (timeout : Int) : ReadWriteMutex × Exit :=
  if !rw.shouldQueue k then (rw.addActive k 1, .returns true)
  else if timeout ≤ 0 then (rw, .returns false)
  else (rw.addQueued k 1, .wait)

-- The loop of `tryLock` with a timeout, from the test of its condition to the next wait or the end.
def tryLockLoop (timeout timeElapsed : Int) : ReadWriteMutex × Exit :=
  if rw.shouldQueue k then
    if timeElapsed ≥ timeout then (rw.addQueued k (-1), .returns false) else (rw, .wait)
  else
    ((rw.addActive k 1).addQueued k (-1), .returns true)

end kind

namespace Reader

def lock := ReadWriteMutex.lock .reader
def tryLock := ReadWriteMutex.tryLock .reader
def tryLockFor (timeout : Int) (rw : ReadWriteMutex) := rw.tryLockFor .reader timeout

def unlock (rw : ReadWriteMutex) : ReadWriteMutex × Option Notification :=
  let rw := rw.addActive .reader (-1)
  (rw, if rw.m_numActiveReaders < 1 ∧ rw.m_numQueuedWriters > 0 then some (.notify .writer) else none)

end Reader

namespace Writer

def lock := ReadWriteMutex.lock .writer
def tryLock := ReadWriteMutex.tryLock .writer
def tryLockFor (timeout : Int) (rw : ReadWriteMutex) := rw.tryLockFor .writer timeout

def unlock (rw : ReadWriteMutex) : ReadWriteMutex × Option Notification :=
  let rw := rw.addActive .writer (-1)
  if rw.m_numActiveWriters < 1 then
    match rw.m_policy with
    | .PREFER_READERS =>
      (rw, if rw.m_numQueuedReaders > 0 then some (.notifyAll .reader)
        else if rw.m_numQueuedWriters > 0 then some (.notify .writer) else none)
    | .PREFER_WRITERS =>
      (rw, if rw.m_numQueuedWriters > 0 then some (.notify .writer)
        else if rw.m_numQueuedReaders > 0 then some (.notifyAll .reader) else none)
  else
    (rw, none)

end Writer

end ReadWriteMutex

-- The functions that acquire a lock.
inductive Call
  | lock
  | tryLock
  | tryLockFor (timeout : Int)
  deriving DecidableEq

namespace Call

open ReadWriteMutex

def run : Call → Kind → ReadWriteMutex → ReadWriteMutex × Exit
  | lock, .reader => Reader.lock
  | lock, .writer => Writer.lock
  | tryLock, .reader => Reader.tryLock
  | tryLock, .writer => Writer.tryLock
  | tryLockFor timeout, .reader => Reader.tryLockFor timeout
  | tryLockFor timeout, .writer => Writer.tryLockFor timeout

def timeout : Call → Option Int
  | tryLockFor timeout => some timeout
  | _ => none

end Call

-- A thread in a wait on one of the queues, with the timeout of its `tryLock`.
structure Waiter where
  kind     : Kind
  timeout  : Option Int
  -- It is notified, or its wait timed out, and it has not run since.
  notified : Bool := false
  expired  : Bool := false
  deriving DecidableEq

structure Thread where
  -- how many read and write locks it holds
  held    : Kind → Nat := fun _ => 0
  waiting : Option Waiter := none

namespace Thread

variable (th : Thread) (k : Kind)

def waitsOn : Bool :=
  th.waiting.any (·.kind = k)

-- It waits, and is not notified.
def asleep : Bool :=
  th.waiting.any fun w => w.kind = k && !w.notified

-- It has a notification or a timeout to react to.
def pending : Bool :=
  th.waiting.any fun w => w.notified || w.expired

def notified : Thread :=
  { th with waiting := th.waiting.map fun w => { w with notified := true } }

end Thread

-- A mutex and the threads that use it.
structure System (T : Type) where
  rw     : ReadWriteMutex
  thread : T → Thread

-- A critical section, with the choices that it leaves open: which of the waiting threads `notify` wakes,
-- and how much time has passed. A thread that is neither notified nor timed out may wake, too.
inductive Event (T : Type)
  | call   (t : T) (k : Kind) (c : Call)
  | unlock (t : T) (k : Kind) (woken : Option T)
  | expire (t : T)
  | wake   (t : T) (timeElapsed : Int)

namespace System

variable {T : Type} [DecidableEq T]

def init (policy : Policy) : System T where
  rw     := { m_policy := policy }
  thread := fun _ => {}

-- The thread after a critical section, and what it returns if it is at the end.
def settle (s : System T) (t : T) (k : Kind) (timeout : Option Int) :
    ReadWriteMutex × Exit → System T × Option Bool
  | (rw, .wait) =>
    let th := { s.thread t with waiting := some { kind := k, timeout := timeout } }
    ({ rw := rw, thread := Function.update s.thread t th }, none)
  | (rw, .returns acquired) =>
    let th := s.thread t
    let held := if acquired then Function.update th.held k (th.held k + 1) else th.held
    ({ rw := rw, thread := Function.update s.thread t { held := held } }, some acquired)

variable [Fintype T]

-- The threads after a notification. If there is a sleeping thread, `notify` wakes one.
def deliver (s : System T) : Option Notification → (woken : Option T) → Option (System T)
  | none, none => some s
  | some (.notify k), none => if ∃ u, (s.thread u).asleep k then none else some s
  | some (.notify k), some u =>
    if (s.thread u).asleep k then
      some { s with thread := Function.update s.thread u (s.thread u).notified }
    else
      none
  | some (.notifyAll k), none =>
    some { s with thread := fun u =>
      if (s.thread u).waitsOn k then (s.thread u).notified else s.thread u }
  | _, some _ => none

-- What is left of a call after a wait.
def recheck (rw : ReadWriteMutex) (w : Waiter) (timeElapsed : Int) : ReadWriteMutex × Exit :=
  match w.timeout with
  | none => rw.lockLoop w.kind
  | some timeout => rw.tryLockLoop w.kind timeout timeElapsed

-- The system after an event, and what a call that ends returns. Calls are made by threads that do not wait,
-- and `unlock` by those that hold the lock.
def step (s : System T) : Event T → Option (System T × Option Bool)
  | .call t k c =>
    if (s.thread t).waiting = none then some (s.settle t k c.timeout (c.run k s.rw)) else none
  | .unlock t k woken =>
    let th := s.thread t
    if th.waiting = none ∧ th.held k > 0 then
      let (rw, n) := match k with
        | .reader => ReadWriteMutex.Reader.unlock s.rw
        | .writer => ReadWriteMutex.Writer.unlock s.rw
      let th := { th with held := Function.update th.held k (th.held k - 1) }
      (deliver { rw := rw, thread := Function.update s.thread t th } n woken).map (·, none)
    else
      none
  | .expire t => do
    let w ← (s.thread t).waiting
    guard w.timeout.isSome
    let th := { s.thread t with waiting := some { w with expired := true } }
    return ({ s with thread := Function.update s.thread t th }, none)
  | .wake t timeElapsed => do
    let w ← (s.thread t).waiting
    return s.settle t w.kind w.timeout (recheck s.rw w timeElapsed)

-- The systems that can be reached from a new mutex by events that meet a condition.
inductive Reachable (policy : Policy) (ok : System T → Event T → Bool) : System T → Prop
  | init : Reachable policy ok (init policy)
  | step {s s' : System T} {e : Event T} {r : Option Bool} (h : Reachable policy ok s) (he : ok s e)
    (hs : s.step e = some (s', r)) : Reachable policy ok s'

-- The system after events that are all possible, and meet the condition.
def run (ok : System T → Event T → Bool) (s : System T) : List (Event T) → Option (System T)
  | [] => some s
  | e :: es => if ok s e then (s.step e).bind fun sr => run ok sr.1 es else none

end System

end Runtime.RWMutex
