import EinkHwc.Worker.Handoff
import Mathlib.Logic.Function.Basic

/-!
# The vsync worker and its callers

`VSyncWorker` calls the vsync hook of the framework once a frame from a thread of its own. Any
number of other threads call `Signal`, `Exit`, `VSyncControl` and `SetProcs`. This file is that
program as a step relation, in the manner of `Worker.Handoff`: a place stands **before** the
statement it is named after, and each step is one access to shared state.

* Callers do everything under `lock_`. The worker reads and writes `last_timestamp_` without it, so
  each read of `GetPhasedVSync` is a step of its own, in the order of the text.
* `WaitForSignalOrExitLocked` ends with a signal or without one (`wake`).
* `clock_gettime` reads `clock`, which never decreases (`tick`). The action `slept` is one return of
  `clock_nanosleep`, with its value and `errno`; it returns 0 only once the clock is at its target.
* `pthread` calls succeed. Times are nanoseconds; the 64-bit arithmetic on them does not overflow.
* `frameNs` is `kOneSecondNs / refresh`.
-/

namespace EinkHwc

/-- `hwc_procs_t`, by the address of its hook. -/
structure Procs where
  vsync : Nat
  deriving DecidableEq, Repr

/-- `struct timespec` -/
structure Timespec where
  tvSec : Int
  tvNsec : Int
  deriving DecidableEq, Repr

def kOneSecondNs : Int := 1 * 1000 * 1000 * 1000

namespace Timespec

def ofNs (t : Int) : Timespec := ⟨t.tdiv kOneSecondNs, t - t.tdiv kOneSecondNs * kOneSecondNs⟩

def ns (v : Timespec) : Int := v.tvSec * kOneSecondNs + v.tvNsec

@[simp] theorem ns_ofNs (t : Int) : (ofNs t).ns = t := by
  simp only [ofNs, ns]
  omega

end Timespec

namespace VSync

inductive Tid where
  | worker
  | caller (i : Nat)
  deriving DecidableEq, Repr

inductive Call where
  | signal
  | exit
  | vsyncControl (enabled : Bool)
  | setProcs (procs : Option Procs)
  deriving DecidableEq, Repr

/-- Where a caller is. -/
inductive CallPc where
  | idle
  | lock (c : Call)
  /-- At the first assignment of the call. -/
  | write (c : Call)
  /-- At `last_timestamp_ = -1`. -/
  | reset (c : Call)
  /-- At `pthread_cond_signal(&cond_)`. -/
  | signal (c : Call)
  | unlock (c : Call)
  deriving DecidableEq, Repr

/-- The locals of `Routine`. -/
structure Locals where
  enabled : Bool
  display : Int
  procs : Option Procs
  deriving DecidableEq, Repr

/-- Where the worker thread is. From `phase` to `callback`, `now` is the clock reading that the
timestamp is computed from. -/
inductive WorkPc where
  /-- `InternalRoutine`, at its `Lock()`. -/
  | top
  /-- `InternalRoutine`, at the read of `exit_` and the `Unlock()`. -/
  | readExit
  /-- `Routine`, at its `Lock()`. -/
  | lock
  /-- At `!enabled_`. -/
  | test
  /-- At `WaitForSignalOrExitLocked()`. -/
  | wait
  /-- Blocked in `pthread_cond_wait(&cond_, &lock_)`. -/
  | waiting
  /-- The wait is over; `lock_` is not yet taken again. -/
  | woken
  /-- At `ret == -EINTR`. -/
  | waited (ret : Int)
  /-- At the reads of `enabled_`, `display_` and `procs_`. -/
  | read
  | unlock (v : Locals)
  /-- After the `Unlock()`, at `!enabled`. -/
  | enabled (v : Locals)
  /-- `SyntheticWaitVBlank`, at `clock_gettime`. -/
  | gettime (v : Locals)
  /-- `GetPhasedVSync`, at `last_timestamp_ < 0`. -/
  | phase (v : Locals) (now : Int)
  /-- At `current - last_timestamp_`. -/
  | diff (v : Locals) (now : Int)
  /-- At `+ last_timestamp_`, to be added to `d`. -/
  | base (v : Locals) (now d : Int)
  /-- At `clock_nanosleep`. -/
  | sleep (v : Locals) (now : Int) (vsync : Timespec)
  /-- `Routine`, at `procs->vsync`. -/
  | callback (v : Locals) (now timestamp : Int)
  /-- At `last_timestamp_ = timestamp`. -/
  | store (timestamp : Int)
  /-- Out of the loop of `InternalRoutine`. -/
  | exited
  deriving DecidableEq, Repr

end VSync

/-- The fields of the worker, the clock, and the places of all threads. -/
structure VSync where
  /-- The owner of `lock_`. -/
  lock : Option VSync.Tid
  /-- `exit_` -/
  exit : Bool
  /-- `enabled_` -/
  enabled : Bool
  /-- `procs_` -/
  procs : Option Procs
  /-- `display_` -/
  display : Int
  /-- `last_timestamp_` -/
  lastTimestamp : Int
  /-- `CLOCK_MONOTONIC` -/
  clock : Int
  work : VSync.WorkPc
  callers : Nat → VSync.CallPc

namespace VSync

inductive Ev where
  /-- A call begins. -/
  | called (i : Nat) (c : Call)
  /-- A call returns. -/
  | returned (i : Nat) (c : Call)
  /-- `VSyncControl` writes `last_timestamp_`. -/
  | reset
  /-- `procs->vsync(procs, display, timestamp)` starts. -/
  | vsync (display now timestamp : Int)
  deriving DecidableEq, Repr

inductive Act where
  /-- Caller `i` begins a call. -/
  | call (i : Nat) (c : Call)
  /-- The next step of caller `i`. -/
  | caller (i : Nat)
  /-- The worker thread's next step. -/
  | work
  /-- Its wait ends without a signal. -/
  | wake
  /-- Its `clock_nanosleep` returns. -/
  | slept (ret errno : Int)
  | tick (d : Nat)
  deriving DecidableEq, Repr

/-- `pthread_cond_signal(&cond_)` -/
def wakeWork : WorkPc → WorkPc
  | .waiting => .woken
  | p => p

def setCaller (s : VSync) (i : Nat) (p : CallPc) : VSync :=
  { s with callers := Function.update s.callers i p }

/-- The first assignment of a call. -/
def write (s : VSync) : Call → VSync
  | .signal => s
  | .exit => { s with exit := true }
  | .vsyncControl enabled => { s with enabled }
  | .setProcs procs => { s with procs }

/-- What a call does after it. -/
def Call.next : Call → CallPc
  | .vsyncControl enabled => .reset (.vsyncControl enabled)
  | .setProcs procs => .unlock (.setProcs procs)
  | c => .signal c

/-- A step of caller `i`. -/
def callStep (s : VSync) (i : Nat) : Option (VSync × List Ev) :=
  match s.callers i with
  | .idle => none
  | .lock c => if s.lock = none then
      some ({ s with lock := some (.caller i) }.setCaller i (.write c), []) else none
  | .write c => some ((s.write c).setCaller i c.next, [])
  | .reset c => some ({ s with lastTimestamp := -1 }.setCaller i (.signal c), [.reset])
  | .signal c => some ({ s with work := wakeWork s.work }.setCaller i (.unlock c), [])
  | .unlock c => some ({ s with lock := none }.setCaller i .idle, [.returned i c])

/-- A step of the worker thread in `InternalRoutine` and `Routine`. -/
def workStep (frameNs : Int) (s : VSync) : Option (VSync × List Ev) :=
  match s.work with
  | .top => if s.lock = none then
      some ({ s with lock := some .worker, work := .readExit }, []) else none
  | .readExit => some ({ s with lock := none, work := if s.exit then .exited else .lock }, [])
  | .lock => if s.lock = none then
      some ({ s with lock := some .worker, work := .test }, []) else none
  | .test => some ({ s with work := if s.enabled then .read else .wait }, [])
  | .wait => if s.exit then some ({ s with work := .waited (-eintr) }, [])
      else some ({ s with lock := none, work := .waiting }, [])
  | .waiting => none
  | .woken => if s.lock = none then
      some ({ s with
        lock := some .worker, work := .waited (if s.exit then -eintr else 0) }, []) else none
  | .waited ret =>
    -- the early return, without `Unlock()`
    if ret = -eintr then some ({ s with work := .top }, []) else some ({ s with work := .read }, [])
  | .read => some ({ s with work := .unlock ⟨s.enabled, s.display, s.procs⟩ }, [])
  | .unlock v => some ({ s with lock := none, work := .enabled v }, [])
  | .enabled v => some ({ s with work := if v.enabled then .gettime v else .top }, [])
  | .gettime v => some ({ s with work := .phase v s.clock }, [])
  | .phase v now => if s.lastTimestamp < 0 then
      some ({ s with work := .sleep v now (.ofNs (now + frameNs)) }, [])
      else some ({ s with work := .diff v now }, [])
  | .diff v now => some ({ s with
      work := .base v now (frameNs * ((now - s.lastTimestamp).tdiv frameNs + 1)) }, [])
  | .base v now d => some ({ s with work := .sleep v now (.ofNs (d + s.lastTimestamp)) }, [])
  | .sleep .. => none
  | .callback v now timestamp => some ({ s with work := .store timestamp },
      if v.procs.any (·.vsync > 0x10) then [.vsync v.display now timestamp] else [])
  | .store timestamp => some ({ s with lastTimestamp := timestamp, work := .top }, [])
  | .exited => none

/-- The return of `clock_nanosleep`, the loop around it, and the rest of `SyntheticWaitVBlank`. -/
def sleptStep (s : VSync) (ret errno : Int) : Option (VSync × List Ev) :=
  match s.work with
  | .sleep v now vsync =>
    if ret = -1 ∧ errno = eintr then some (s, [])
    else if ret ≠ 0 then some ({ s with work := .top }, [])
    else if vsync.ns ≤ s.clock then some ({ s with work := .callback v now vsync.ns }, [])
    else none
  | _ => none

/-- The step relation. -/
def step (frameNs : Int) (s : VSync) : Act → Option (VSync × List Ev)
  | .call i c => if s.callers i = .idle then some (s.setCaller i (.lock c), [.called i c]) else none
  | .caller i => callStep s i
  | .work => workStep frameNs s
  | .wake => if s.work = .waiting then some ({ s with work := .woken }, []) else none
  | .slept ret errno => sleptStep s ret errno
  | .tick d => some ({ s with clock := s.clock + d }, [])

/-- The thread has just been created, and no call has been made. The constructor leaves `enabled_`
without a value. -/
structure Init (s : VSync) : Prop where
  lock : s.lock = none
  exit : s.exit = false
  procs : s.procs = none
  lastTimestamp : s.lastTimestamp = -1
  clock : 0 ≤ s.clock
  work : s.work = .top
  callers : ∀ i, s.callers i = .idle

def system (frameNs : Int) : Trace.System VSync Act Ev where
  init s tr := s.Init ∧ tr = []
  step := step frameNs

/-! ## What a step can do -/

variable {frameNs : Int} {s s' : VSync} {a : Act} {es : List Ev} {i : Nat}

def Ev.isVSync : Ev → Option Int
  | .vsync _ _ timestamp => some timestamp
  | _ => none

/-- The steps of the worker thread. -/
def Act.isWork : Act → Bool
  | .work | .slept .. => true
  | _ => false

/-- `callStep` as rules. -/
inductive CallStep (i : Nat) (s : VSync) : VSync → List Ev → Prop
  | lock (c : Call) : s.callers i = .lock c → s.lock = none →
      CallStep i s ({ s with lock := some (.caller i) }.setCaller i (.write c)) []
  | write (c : Call) : s.callers i = .write c →
      CallStep i s ((s.write c).setCaller i c.next) []
  | reset (c : Call) : s.callers i = .reset c →
      CallStep i s ({ s with lastTimestamp := -1 }.setCaller i (.signal c)) [.reset]
  | signal (c : Call) : s.callers i = .signal c →
      CallStep i s ({ s with work := wakeWork s.work }.setCaller i (.unlock c)) []
  | unlock (c : Call) : s.callers i = .unlock c →
      CallStep i s ({ s with lock := none }.setCaller i .idle) [.returned i c]

theorem callStep_cases (h : callStep s i = some (s', es)) : CallStep i s s' es := by
  unfold callStep at h
  split at h
  · cases h
  · split at h <;> cases h
    exact .lock _ ‹_› ‹_›
  · cases h
    exact .write _ ‹_›
  · cases h
    exact .reset _ ‹_›
  · cases h
    exact .signal _ ‹_›
  · cases h
    exact .unlock _ ‹_›

/-- What a step that is not the worker's leaves alone. -/
structure Aside (s s' : VSync) (es : List Ev) : Prop where
  clock : s.clock ≤ s'.clock
  work : s'.work = s.work ∨ s.work = .waiting ∧ s'.work = .woken
  last : (s'.lastTimestamp = s.lastTimestamp ∧ .reset ∉ es) ∨
    (s'.lastTimestamp = -1 ∧ es = [.reset])
  exit : s.exit = true → s'.exit = true
  vsync : ∀ e ∈ es, e.isVSync = none

theorem wakeWork_eq (p : WorkPc) : wakeWork p = p ∨ p = .waiting ∧ wakeWork p = .woken := by
  cases p <;> simp [wakeWork]

theorem callStep_aside (h : callStep s i = some (s', es)) : Aside s s' es := by
  cases callStep_cases h with
  | lock c =>
    exact ⟨Int.le_refl _, .inl rfl, .inl ⟨rfl, List.not_mem_nil⟩, id, by simp⟩
  | write c =>
    cases c <;> exact ⟨Int.le_refl _, .inl rfl, .inl ⟨rfl, List.not_mem_nil⟩,
      by simp [setCaller, write], by simp⟩
  | reset c => exact ⟨Int.le_refl _, .inl rfl, .inr ⟨rfl, rfl⟩, id, by simp [Ev.isVSync]⟩
  | signal c =>
    exact ⟨Int.le_refl _, wakeWork_eq _, .inl ⟨rfl, List.not_mem_nil⟩, id, by simp⟩
  | unlock c => exact ⟨Int.le_refl _, .inl rfl, .inl ⟨rfl, by simp⟩, id, by simp [Ev.isVSync]⟩

theorem step_aside (ha : a.isWork = false) (h : step frameNs s a = some (s', es)) :
    Aside s s' es := by
  cases a with
  | call i c =>
    simp only [step] at h
    split at h <;> cases h
    exact ⟨Int.le_refl _, .inl rfl, .inl ⟨rfl, by simp⟩, id, by simp [Ev.isVSync]⟩
  | caller i => exact callStep_aside h
  | wake =>
    simp only [step] at h
    split at h <;> cases h
    rename_i hw
    exact ⟨Int.le_refl _, .inr ⟨hw, rfl⟩, .inl ⟨rfl, List.not_mem_nil⟩, id, by simp⟩
  | tick d =>
    cases h
    exact ⟨Int.le_add_of_nonneg_right (Int.natCast_nonneg d), .inl rfl,
      .inl ⟨rfl, List.not_mem_nil⟩, id, by simp⟩
  | work | slept ret errno => cases ha

end VSync

end EinkHwc
