import EinkHwc.Trace.System
import EinkHwc.Trace.Past

/-!
# The hand-off between `QueueComposite` and the compositor worker

The HAL thread hands compositions to the worker thread through `composite_queue_`, a queue of depth
`kMaxQueueDepth`, under two mutexes (`lock_` of `Worker`, `eink_lock_`) and two condition variables
(`cond_` of `Worker`, `eink_queue_cond_`). This file is that protocol as a step relation over the
two threads, for any type `α` of compositions: `QueueComposite` from its `Lock()` to its `Unlock()`
(`prodStep`), and `Worker::InternalRoutine` with `EinkCompositorWorker::Routine` and
`WaitForSignalOrExitLocked` (`workStep`).

* A place (`ProdPc`, `WorkPc`) stands **before** the statement it is named after. Each step is one
  access to shared state: a lock, an unlock, a test, a push or a pop, a wait, a signal. A thread at
  a lock that the other one holds cannot step.
* `pthread_cond_wait` releases its mutex and blocks in one step (`wait` to `waiting`). It ends with
  a signal or, as POSIX permits, without one (the actions `prodWake`, `workWake`); the thread then
  has to take the mutex again (`woken`).
* `Worker::Signal` and `Worker::Exit`, called from any other thread, are one step each: all they do
  is done under `lock_`, and nothing in them waits.
* `pthread` calls succeed. `Compose` itself is one place (`composing`), left by the action
  `composed`.
-/

namespace EinkHwc

/-- `kMaxQueueDepth`. -/
def kMaxQueueDepth : Nat := 1

/-- `EINTR`; `WaitForSignalOrExitLocked` returns its negation. -/
def eintr : Int := 4

/-- The threads that take the two mutexes. -/
inductive Tid where
  | producer | worker
  deriving DecidableEq, Repr

/-- Where the HAL thread is in `QueueComposite`, with the composition it is going to push. -/
inductive ProdPc (α : Type) where
  /-- Not between `Lock()` and `Unlock()`. -/
  | idle
  | lock (c : α)
  | einkLock (c : α)
  /-- At `composite_queue_.size() >= kMaxQueueDepth`. -/
  | test (c : α)
  /-- In the loop body, at `Unlock()`. -/
  | unlockWait (c : α)
  /-- At `pthread_cond_wait(&eink_queue_cond_, &eink_lock_)`. -/
  | wait (c : α)
  /-- Blocked in that wait. -/
  | waiting (c : α)
  /-- The wait is over; `eink_lock_` is not yet taken again. -/
  | woken (c : α)
  /-- In the loop body, at the second `Lock()`. -/
  | relock (c : α)
  | push (c : α)
  | einkUnlock
  | signal
  | unlock
  deriving DecidableEq, Repr

/-- Where the worker thread is. From `einkLock` on, `r` is `wait_ret`. -/
inductive WorkPc (α : Type) where
  /-- `InternalRoutine`, at its `Lock()`. -/
  | top
  /-- `InternalRoutine`, at the read of `exit_` and the `Unlock()`. -/
  | readExit
  /-- `Routine`, at its `Lock()`. -/
  | lock
  /-- At `composite_queue_.empty()`. -/
  | test
  /-- At `WaitForSignalOrExitLocked()`. -/
  | wait
  /-- Blocked in `pthread_cond_wait(&cond_, &lock_)`. -/
  | waiting
  /-- The wait is over; `lock_` is not yet taken again. -/
  | woken
  | einkLock (r : Int)
  | pop (r : Int)
  | einkUnlock (r : Int) (c : Option α)
  | unlock (r : Int) (c : Option α)
  /-- After the `Unlock()`, at the test of `wait_ret`. -/
  | ret (r : Int) (c : Option α)
  | composing
  /-- Out of the loop of `InternalRoutine`. -/
  | exited
  deriving DecidableEq, Repr

/-- The shared state of the hand-off and the places of the two threads. -/
structure Handoff (α : Type) where
  /-- The owner of `lock_`. -/
  lock : Option Tid := none
  /-- The owner of `eink_lock_`. -/
  einkLock : Option Tid := none
  /-- `exit_`. -/
  exit : Bool := false
  /-- `composite_queue_`, its front first. -/
  queue : List α := []
  prod : ProdPc α := .idle
  work : WorkPc α := .top
  deriving DecidableEq, Repr

namespace Handoff

variable {α : Type}

/-- What the hand-off does to compositions. -/
inductive Ev (α : Type) where
  /-- `composite_queue_.push`. -/
  | push (c : α)
  /-- `Compose` is called with a composition. -/
  | compose (c : α)
  /-- `Routine` returns on `wait_ret` and destroys the composition it popped. -/
  | lost (c : α)
  deriving DecidableEq, Repr

inductive Act (α : Type) where
  /-- `QueueComposite` gets to its `Lock()` with the composition `c`. -/
  | call (c : α)
  /-- The HAL thread's next step. -/
  | prod
  /-- Its wait ends without a signal. -/
  | prodWake
  /-- The worker thread's next step. -/
  | work
  /-- Its wait ends without a signal. -/
  | workWake
  /-- `Compose` returns. -/
  | composed
  /-- `Worker::Signal` from any other thread. -/
  | signal
  /-- `Worker::Exit` from any other thread. -/
  | exit
  deriving DecidableEq, Repr

/-- `pthread_cond_signal(&cond_)`. -/
def wakeWork : WorkPc α → WorkPc α
  | .waiting => .woken
  | p => p

/-- `pthread_cond_signal(&eink_queue_cond_)`. -/
def wakeProd : ProdPc α → ProdPc α
  | .waiting c => .woken c
  | p => p

/-- A step of the HAL thread in `QueueComposite`. -/
def prodStep (s : Handoff α) : Option (Handoff α × List (Ev α)) :=
  match s.prod with
  | .idle => none
  | .lock c => if s.lock = none then
      some ({ s with lock := some .producer, prod := .einkLock c }, []) else none
  | .einkLock c => if s.einkLock = none then
      some ({ s with einkLock := some .producer, prod := .test c }, []) else none
  | .test c => if kMaxQueueDepth ≤ s.queue.length then some ({ s with prod := .unlockWait c }, [])
      else some ({ s with prod := .push c }, [])
  | .unlockWait c => some ({ s with lock := none, prod := .wait c }, [])
  | .wait c => some ({ s with einkLock := none, prod := .waiting c }, [])
  | .waiting _ => none
  | .woken c => if s.einkLock = none then
      some ({ s with einkLock := some .producer, prod := .relock c }, []) else none
  | .relock c => if s.lock = none then
      some ({ s with lock := some .producer, prod := .test c }, []) else none
  | .push c => some ({ s with queue := s.queue ++ [c], prod := .einkUnlock }, [.push c])
  | .einkUnlock => some ({ s with einkLock := none, prod := .signal }, [])
  | .signal => some ({ s with work := wakeWork s.work, prod := .unlock }, [])
  | .unlock => some ({ s with lock := none, prod := .idle }, [])

/-- A step of the worker thread in `InternalRoutine` and `Routine`. -/
def workStep (s : Handoff α) : Option (Handoff α × List (Ev α)) :=
  match s.work with
  | .top => if s.lock = none then
      some ({ s with lock := some .worker, work := .readExit }, []) else none
  | .readExit => some ({ s with lock := none, work := if s.exit then .exited else .lock }, [])
  | .lock => if s.lock = none then
      some ({ s with lock := some .worker, work := .test }, []) else none
  | .test => if s.queue.isEmpty then some ({ s with work := .wait }, [])
      else some ({ s with work := .einkLock 0 }, [])
  | .wait => if s.exit then some ({ s with work := .einkLock (-eintr) }, [])
      else some ({ s with lock := none, work := .waiting }, [])
  | .waiting => none
  | .woken => if s.lock = none then
      some ({ s with
        lock := some .worker, work := .einkLock (if s.exit then -eintr else 0) }, []) else none
  | .einkLock r => if s.einkLock = none then
      some ({ s with einkLock := some .worker, work := .pop r }, []) else none
  | .pop r => match s.queue with
      | [] => some ({ s with work := .einkUnlock r none }, [])
      | c :: q => some ({ s with queue := q, prod := wakeProd s.prod,
                                 work := .einkUnlock r (some c) }, [])
  | .einkUnlock r c => some ({ s with einkLock := none, work := .unlock r c }, [])
  | .unlock r c => some ({ s with lock := none, work := .ret r c }, [])
  | .ret r c =>
    -- `-EINTR` and any other nonzero `wait_ret` return alike; they differ in a log line
    if r ≠ 0 then some ({ s with work := .top }, c.toList.map .lost)
    else match c with
      | none => some ({ s with work := .top }, [])
      | some c => some ({ s with work := .composing }, [.compose c])
  | .composing => none
  | .exited => none

/-- The step relation. -/
def step (s : Handoff α) : Act α → Option (Handoff α × List (Ev α))
  | .call c => match s.prod with
      | .idle => some ({ s with prod := .lock c }, [])
      | _ => none
  | .prod => prodStep s
  | .prodWake => match s.prod with
      | .waiting c => some ({ s with prod := .woken c }, [])
      | _ => none
  | .work => workStep s
  | .workWake => match s.work with
      | .waiting => some ({ s with work := .woken }, [])
      | _ => none
  | .composed => match s.work with
      | .composing => some ({ s with work := .top }, [])
      | _ => none
  | .signal => if s.lock = none then some ({ s with work := wakeWork s.work }, []) else none
  | .exit => if s.lock = none then
      some ({ s with exit := true, work := wakeWork s.work }, []) else none

variable (α) in
/-- The hand-off as a system: the worker thread has just been created, and nothing is queued. -/
def system : Trace.System (Handoff α) (Act α) (Ev α) where
  init s tr := s = {} ∧ tr = []
  step := step

/-! ## What the statements speak of -/

/-- The composition that the HAL thread has not yet pushed. -/
def prodHeld (s : Handoff α) : List α :=
  match s.prod with
  | .lock c | .einkLock c | .test c | .unlockWait c | .wait c | .waiting c | .woken c | .relock c
  | .push c => [c]
  | .idle | .einkUnlock | .signal | .unlock => []

/-- The composition that the worker has popped and not yet passed on. -/
def workHeld (s : Handoff α) : List α :=
  match s.work with
  | .einkUnlock _ c | .unlock _ c | .ret _ c => c.toList
  | _ => []

/-- All compositions in the hand-off, the oldest first. -/
def inFlight (s : Handoff α) : List α := s.workHeld ++ s.queue ++ s.prodHeld

/-- The HAL thread holds `eink_lock_` and is blocked on `lock_`, which the worker holds while it is
blocked on `eink_lock_`. -/
def Deadlock (s : Handoff α) : Prop :=
  s.einkLock = some .producer ∧ (∃ c, s.prod = .relock c) ∧
    s.lock = some .worker ∧ ∃ r, s.work = .einkLock r

def Ev.isPush : Ev α → Option α
  | .push c => some c
  | _ => none

def Ev.isCompose : Ev α → Option α
  | .compose c => some c
  | _ => none

/-- The compositions pushed, the first one first. -/
def pushed (tr : List (Ev α)) : List α := Trace.collect Ev.isPush tr

/-- The compositions passed to `Compose`, the first one first. -/
def composedWith (tr : List (Ev α)) : List α := Trace.collect Ev.isCompose tr

end Handoff

end EinkHwc
