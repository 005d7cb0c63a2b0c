import EinkHwc.Trace.Descriptors
import EinkHwc.Trace.System

/-!
# Opening and closing the device

`hwc_device_open` makes a context, whose worker opens the sync timeline, `/dev/ebc` and
`/dev/waveform` in `Init`, and then opens `/dev/ebc` a second time for itself. Where a call fails
the context is destroyed, and so is it by `hwc_device_close`.

* `OpenEnv.init`, `WorkerFds.destroy`, `hwcDeviceOpen`: what the functions open and close.
* `open_run`: the three ends of `hwc_device_open`.
* `devices`: any sequence of opens and closes.
* `device_fds`: what is open in the end, and how often a descriptor is closed twice.
-/

namespace EinkHwc

open Trace

/-! ## The functions -/

/-- What the calls of one `hwc_device_open` return. -/
structure OpenEnv where
  /-- The name is `HWC_HARDWARE_COMPOSER`. -/
  nameOk : Bool := true
  hwGetModule : Int := 0
  /-- `sw_sync_timeline_create` -/
  timeline : Int
  /-- `open("/dev/ebc")` in `Init` -/
  ebc : Int
  bufferInfo : Int := 0
  mapEbc : Bool := true
  getBuffer : Int := 0
  /-- `open("/dev/waveform")` -/
  waveform : Int
  mapWaveform : Bool := true
  /-- Byte 16 of the waveform. -/
  modeVersion : Nat := 0x43
  einkInit : Int := 0
  initWorker : Int := 0
  vsyncInit : Int := 0
  /-- `open("/dev/ebc")` in `hwc_device_open` -/
  halEbc : Int
  halBufferInfo : Int := 0
  halMapEbc : Bool := true
  deriving DecidableEq, Repr

/-- The descriptors that `EinkCompositorWorker` keeps. -/
structure WorkerFds where
  timelineFd : Int := -1
  ebcFd : Int := -1
  waveformFd : Int := -1
  deriving DecidableEq, Repr

/-- A result, the worker's members, and the calls on descriptors. -/
structure Opened where
  ret : Int
  worker : WorkerFds := {}
  calls : List FdCall := []
  deriving DecidableEq, Repr

/-- `pvi_check_wf` -/
def pviCheckWf : Nat → Int
  | 0x43 | 0x16 | 0x18 | 0x19 | 0x20 | 0x48 => 0
  | 0x09 | 0x12 | 0x23 | 0x54 => -1
  | _ => -1

/-- From `open("/dev/waveform")` to `OUT`: the descriptor that is kept, and the calls. -/
def initWaveform (a : OpenEnv) : Int × List FdCall :=
  if a.waveform < 0 then (a.waveform, [])
  else if ¬ a.mapWaveform then (-1, [.opened a.waveform, .closed a.waveform])
  else if pviCheckWf a.modeVersion ≠ 0 then (a.waveform, [.opened a.waveform])
  else if a.einkInit ≠ 0 then (-1, [.opened a.waveform, .closed a.waveform])
  else (a.waveform, [.opened a.waveform])

/-- `EinkCompositorWorker::Init` -/
def OpenEnv.init (a : OpenEnv) : Opened :=
  if a.timeline < 0 then { ret := a.timeline }
  else if a.ebc < 0 then
    { ret := -1, worker := { timelineFd := a.timeline, ebcFd := a.ebc }
      calls := [.opened a.timeline] }
  else
    let failed : Opened :=
      { ret := -1, worker := { timelineFd := a.timeline, ebcFd := a.ebc }
        calls := [.opened a.timeline, .opened a.ebc, .closed a.ebc] }
    if a.bufferInfo ≠ 0 then failed
    else if ¬ a.mapEbc then failed
    else if a.getBuffer ≠ 0 then failed
    else
      { ret := a.initWorker
        worker := { timelineFd := a.timeline, ebcFd := a.ebc, waveformFd := (initWaveform a).1 }
        calls := [.opened a.timeline, .opened a.ebc] ++ (initWaveform a).2 }

/-- The descriptors that `~EinkCompositorWorker` closes. -/
def WorkerFds.fds (w : WorkerFds) : List Int :=
  (if 0 ≤ w.timelineFd then [w.timelineFd] else []) ++ (if 0 < w.ebcFd then [w.ebcFd] else []) ++
    if 0 < w.waveformFd then [w.waveformFd] else []

/-- `~EinkCompositorWorker` -/
def WorkerFds.destroy (w : WorkerFds) : List FdCall := w.fds.map .closed

/-- `hwc_device_open`. The context is destroyed on every exit but the last one. -/
def hwcDeviceOpen (a : OpenEnv) : Opened :=
  if ¬ a.nameOk then { ret := -22 }
  else if a.hwGetModule ≠ 0 then { ret := a.hwGetModule, calls := WorkerFds.destroy {} }
  else
    let i := a.init
    let fail (ret : Int) (calls : List FdCall) : Opened :=
      { ret, calls := i.calls ++ calls ++ i.worker.destroy }
    if i.ret ≠ 0 then fail i.ret []
    else if a.vsyncInit ≠ 0 then fail a.vsyncInit []
    else if a.halEbc < 0 then fail (-1) []
    else if a.halBufferInfo ≠ 0 then fail (-1) [.opened a.halEbc, .closed a.halEbc]
    else if ¬ a.halMapEbc then fail (-1) [.opened a.halEbc, .closed a.halEbc]
    else { ret := 0, worker := i.worker, calls := i.calls ++ [.opened a.halEbc] }

/-! ## One call -/

/-- `Init` fails with `/dev/ebc` open: it closes the descriptor and leaves it in `ebc_fd`. -/
def OpenEnv.ClosesTwice (a : OpenEnv) : Prop :=
  0 ≤ a.timeline ∧ 0 ≤ a.ebc ∧ ¬ (a.bufferInfo = 0 ∧ a.mapEbc = true ∧ a.getBuffer = 0)

instance (a : OpenEnv) : Decidable a.ClosesTwice := inferInstanceAs (Decidable (_ ∧ _))

section Calls
variable {t : Fds} {a : OpenEnv}

/-- The descriptor of `/dev/waveform` is kept, or closed again. -/
theorem initWaveform_run (hf : t.Fresh (initWaveform a).2) :
    t.Keeps (t.run (initWaveform a).2)
      (if 0 < (initWaveform a).1 then [(initWaveform a).1] else []) := by
  unfold initWaveform at *
  by_cases hopen : a.waveform < 0
  · simp only [if_pos hopen]
    rw [if_neg (by omega)]
    exact .refl t
  simp only [if_neg hopen] at hf ⊢
  have hkeep (h : t.Fresh [.opened a.waveform]) :
      t.Keeps (t.run [.opened a.waveform]) (if 0 < a.waveform then [a.waveform] else []) := by
    rw [if_pos h.1.1]
    exact (Fds.Keeps.refl t).opened _
  have hback : t.Keeps (t.run [.opened a.waveform, .closed a.waveform]) [] := by
    rw [Fds.run_opened_closed]
    exact .refl t
  cases hmap : a.mapWaveform with
  | false =>
    simp only [Bool.false_eq_true, not_false_eq_true, if_true]
    exact hback
  | true =>
  simp only [hmap, not_true_eq_false, if_false] at hf ⊢
  by_cases hwf : pviCheckWf a.modeVersion ≠ 0
  · simp only [if_pos hwf] at hf ⊢
    exact hkeep hf
  simp only [if_neg hwf] at hf ⊢
  by_cases heink : a.einkInit ≠ 0
  · simp only [if_pos heink]
    exact hback
  · simp only [if_neg heink] at hf ⊢
    exact hkeep hf

/-- What `Init` has opened and not closed is what the destructor closes. -/
theorem init_run (ha : ¬ a.ClosesTwice) (hf : t.Fresh a.init.calls) :
    t.Keeps (t.run a.init.calls) a.init.worker.fds := by
  unfold OpenEnv.init at *
  by_cases htimeline : a.timeline < 0
  · simp only [if_pos htimeline]
    exact .refl t
  simp only [if_neg htimeline] at hf ⊢
  by_cases hebc : a.ebc < 0
  · simp only [if_pos hebc]
    have hfds : WorkerFds.fds { timelineFd := a.timeline, ebcFd := a.ebc } = [a.timeline] := by
      have hclosed : ¬ 0 < a.ebc := by omega
      unfold WorkerFds.fds
      rw [if_pos (Int.not_lt.1 htimeline), if_neg hclosed]
      rfl
    rw [hfds]
    exact (Fds.Keeps.refl t).opened _
  obtain ⟨hinfo, hmap, hbuffer⟩ : a.bufferInfo = 0 ∧ a.mapEbc = true ∧ a.getBuffer = 0 :=
    Decidable.byContradiction fun h => ha ⟨Int.not_lt.1 htimeline, Int.not_lt.1 hebc, h⟩
  simp only [if_neg hebc, hinfo, hmap, hbuffer, ne_eq, not_true_eq_false, reduceIte] at hf ⊢
  rw [Fds.fresh_append] at hf
  obtain ⟨hlive, hstale⟩ := initWaveform_run hf.2
  rw [Fds.run_append_calls]
  refine ⟨hlive.trans ?_, hstale⟩
  have hpos : 0 < a.ebc := hf.1.2.1.1
  unfold WorkerFds.fds
  rw [if_pos (Int.not_lt.1 htimeline), if_pos hpos]
  show (_ ++ a.ebc :: a.timeline :: t.live).Perm _
  exact (List.perm_append_comm_assoc _ [a.ebc, a.timeline] _).trans (.swap ..)

theorem init_twice (ha : a.ClosesTwice) :
    a.init = { ret := -1, worker := { timelineFd := a.timeline, ebcFd := a.ebc }
               calls := [.opened a.timeline, .opened a.ebc, .closed a.ebc] } := by
  obtain ⟨htimeline, hebc, hfail⟩ := ha
  unfold OpenEnv.init
  rw [if_neg (Int.not_lt.2 htimeline), if_neg (Int.not_lt.2 hebc)]
  by_cases hinfo : a.bufferInfo = 0
  · by_cases hmap : a.mapEbc = true
    · have hbuffer : a.getBuffer ≠ 0 := fun h => hfail ⟨hinfo, hmap, h⟩
      simp only [hinfo, hmap, hbuffer, ne_eq, not_true_eq_false, not_false_eq_true, reduceIte]
    · simp only [hinfo, hmap, ne_eq, not_true_eq_false, Bool.false_eq_true, not_false_eq_true,
        reduceIte]
  · simp only [hinfo, ne_eq, not_false_eq_true, reduceIte]

/-- The destructor closes `/dev/ebc` once more. -/
theorem destroy_twice (ha : a.ClosesTwice) (hf : t.Fresh a.init.calls) :
    (t.run (a.init.calls ++ a.init.worker.destroy)).live.Perm t.live ∧
      (t.run (a.init.calls ++ a.init.worker.destroy)).stale = a.ebc :: t.stale := by
  rw [init_twice ha] at hf ⊢
  obtain ⟨-, ⟨hpos, hnew⟩, -⟩ := hf
  have hfds : WorkerFds.destroy { timelineFd := a.timeline, ebcFd := a.ebc } =
      [.closed a.timeline, .closed a.ebc] := by
    unfold WorkerFds.destroy WorkerFds.fds
    rw [if_pos ha.1, if_pos hpos]
    rfl
  -- Both descriptors are closed, and `ebc` is closed again when it is not open.
  have hrun : t.run ([.opened a.timeline, .opened a.ebc, .closed a.ebc] ++
      [.closed a.timeline, .closed a.ebc]) = t.call (.closed a.ebc) := by
    show (((t.call (.opened a.timeline)).run [.opened a.ebc, .closed a.ebc]).call
      (.closed a.timeline)).call (.closed a.ebc) = _
    rw [Fds.run_opened_closed]
    show (t.run [.opened a.timeline, .closed a.timeline]).call (.closed a.ebc) = _
    rw [Fds.run_opened_closed]
  rw [hfds, hrun, Fds.call_of_not_mem fun h => hnew (List.mem_cons_of_mem _ h)]
  exact ⟨.refl _, rfl⟩

/-- An exit after `Init` on which the context is destroyed. -/
theorem fail_run {cs : List FdCall} (ha : ¬ a.ClosesTwice) (hcs : ∀ t : Fds, t.run cs = t)
    (hf : t.Fresh (a.init.calls ++ cs ++ a.init.worker.destroy)) :
    t.Keeps (t.run (a.init.calls ++ cs ++ a.init.worker.destroy)) [] := by
  rw [Fds.fresh_append, Fds.fresh_append] at hf
  rw [Fds.run_append_calls, Fds.run_append_calls, hcs]
  exact (init_run ha hf.1.1).closed

/-- The exits of `hwc_device_open`: before `Init`, after it with the context destroyed, and with the
context open. -/
theorem open_cases (a : OpenEnv) :
    ((a.nameOk = true → a.hwGetModule ≠ 0) ∧ ∃ ret, ret ≠ 0 ∧ hwcDeviceOpen a = { ret }) ∨
    ((a.nameOk = true ∧ a.hwGetModule = 0) ∧ ∃ ret cs, ret ≠ 0 ∧
      (cs = [] ∨ cs = [.opened a.halEbc, .closed a.halEbc] ∧ a.init.ret = 0) ∧ hwcDeviceOpen a =
        { ret, calls := a.init.calls ++ cs ++ a.init.worker.destroy }) ∨
    (a.init.ret = 0 ∧ hwcDeviceOpen a =
      { ret := 0, worker := a.init.worker, calls := a.init.calls ++ [.opened a.halEbc] }) := by
  unfold hwcDeviceOpen
  by_cases hname : ¬ a.nameOk = true
  · rw [if_pos hname]
    exact .inl ⟨fun h => absurd h hname, -22, by decide, rfl⟩
  by_cases hmodule : a.hwGetModule ≠ 0
  · rw [if_neg hname, if_pos hmodule]
    exact .inl ⟨fun _ => hmodule, a.hwGetModule, hmodule, rfl⟩
  rw [if_neg hname, if_neg hmodule]
  have hmade : a.nameOk = true ∧ a.hwGetModule = 0 :=
    ⟨Decidable.not_not.1 hname, Decidable.not_not.1 hmodule⟩
  dsimp only
  by_cases hinit : a.init.ret ≠ 0
  · exact .inr (.inl ⟨hmade, a.init.ret, [], hinit, .inl rfl, if_pos hinit⟩)
  rw [if_neg hinit]
  by_cases hvsync : a.vsyncInit ≠ 0
  · exact .inr (.inl ⟨hmade, a.vsyncInit, [], hvsync, .inl rfl, if_pos hvsync⟩)
  rw [if_neg hvsync]
  by_cases hebc : a.halEbc < 0
  · exact .inr (.inl ⟨hmade, -1, [], by decide, .inl rfl, if_pos hebc⟩)
  rw [if_neg hebc]
  have hret : a.init.ret = 0 := Decidable.not_not.1 hinit
  by_cases hinfo : a.halBufferInfo ≠ 0
  · exact .inr (.inl ⟨hmade, -1, _, by decide, .inr ⟨rfl, hret⟩, if_pos hinfo⟩)
  rw [if_neg hinfo]
  by_cases hmap : ¬ a.halMapEbc = true
  · exact .inr (.inl ⟨hmade, -1, _, by decide, .inr ⟨rfl, hret⟩, if_pos hmap⟩)
  · exact .inr (.inr ⟨hret, if_neg hmap⟩)

/-- A call that closes a descriptor twice. -/
def OpenEnv.Twice (a : OpenEnv) : Prop := (a.nameOk = true ∧ a.hwGetModule = 0) ∧ a.ClosesTwice

instance (a : OpenEnv) : Decidable a.Twice := inferInstanceAs (Decidable (_ ∧ _))

/-- The three ends of `hwc_device_open`. -/
theorem open_run (hf : t.Fresh (hwcDeviceOpen a).calls) :
    ((hwcDeviceOpen a).ret = 0 ∧ ¬ a.Twice ∧
      t.Keeps (t.run (hwcDeviceOpen a).calls) (a.halEbc :: (hwcDeviceOpen a).worker.fds)) ∨
    ((hwcDeviceOpen a).ret ≠ 0 ∧ a.Twice ∧
      (t.run (hwcDeviceOpen a).calls).live.Perm t.live ∧
      (t.run (hwcDeviceOpen a).calls).stale = a.ebc :: t.stale) ∨
    ((hwcDeviceOpen a).ret ≠ 0 ∧ ¬ a.Twice ∧ t.Keeps (t.run (hwcDeviceOpen a).calls) []) := by
  have hnot : a.init.ret = 0 → ¬ a.ClosesTwice := by
    intro hret ha
    rw [init_twice ha] at hret
    cases hret
  obtain ⟨hno, ret, hret, heq⟩ | ⟨hyes, ret, cs, hret, hcs, heq⟩ | ⟨hinit, heq⟩ := open_cases a
  · rw [heq]
    exact .inr (.inr ⟨hret, fun h => hno h.1.1 h.1.2, .refl t⟩)
  · rw [heq] at hf ⊢
    by_cases ha : a.ClosesTwice
    · obtain rfl : cs = [] := hcs.resolve_right fun h => hnot h.2 ha
      rw [List.append_nil] at hf ⊢
      obtain ⟨hlive, hstale⟩ := destroy_twice ha (Fds.fresh_append.1 hf).1
      exact .inr (.inl ⟨hret, ⟨hyes, ha⟩, hlive, hstale⟩)
    · have hrun (t : Fds) : t.run cs = t := by
        rcases hcs with rfl | ⟨rfl, -⟩
        · rfl
        · exact Fds.run_opened_closed _
      exact .inr (.inr ⟨hret, fun h => ha h.2, fail_run ha hrun hf⟩)
  · rw [heq] at hf ⊢
    rw [Fds.fresh_append] at hf
    rw [Fds.run_append_calls]
    exact .inl ⟨rfl, fun h => hnot hinit h.2, (init_run (hnot hinit) hf.1).opened _⟩

end Calls

/-! ## Any sequence of opens and closes -/

structure Device where
  fds : Fds := {}
  /-- The workers of the contexts that are open. -/
  ctxs : List WorkerFds := []
  deriving DecidableEq, Repr

inductive DeviceAct where
  | deviceOpen (a : OpenEnv)
  | deviceClose (w : WorkerFds)
  deriving DecidableEq, Repr

/-- `hwc_device_open`, and `hwc_device_close` of a context that is open. -/
def Device.step (s : Device) : DeviceAct → Option (Device × List DeviceAct)
  | .deviceOpen a =>
    let o := hwcDeviceOpen a
    some ({ fds := s.fds.run o.calls
            ctxs := if o.ret = 0 then o.worker :: s.ctxs else s.ctxs }, [.deviceOpen a])
  | .deviceClose w =>
    if w ∈ s.ctxs then
      some ({ fds := s.fds.run w.destroy, ctxs := s.ctxs.erase w }, [.deviceClose w])
    else none

def devices : System Device DeviceAct DeviceAct where
  init s tr := s = {} ∧ tr = []
  step := Device.step

/-- Every descriptor opened is new. -/
def freshFds (s : Device) : DeviceAct → Prop
  | .deviceOpen a => s.fds.Fresh (hwcDeviceOpen a).calls
  | .deviceClose _ => True

instance (s : Device) (a : DeviceAct) : Decidable (freshFds s a) :=
  match a with
  | .deviceOpen a => inferInstanceAs (Decidable (s.fds.Fresh (hwcDeviceOpen a).calls))
  | .deviceClose _ => inferInstanceAs (Decidable True)

/-- What `hwc_device_open` leaves in the global `ebc_fd`. -/
def DeviceAct.ebcFd : DeviceAct → Option Int
  | .deviceOpen a => if (hwcDeviceOpen a).ret = 0 then some a.halEbc else none
  | .deviceClose _ => none

/-- The descriptor that is closed twice. -/
def DeviceAct.twice : DeviceAct → Option Int
  | .deviceOpen a => if a.Twice then some a.ebc else none
  | .deviceClose _ => none

/-- The descriptors of the process. -/
structure Accounted (tr : List DeviceAct) (s : Device) : Prop where
  live : s.fds.live.Perm (tr.filterMap DeviceAct.ebcFd ++ s.ctxs.flatMap WorkerFds.fds)
  stale : s.fds.stale = tr.filterMap DeviceAct.twice

theorem accounted_step {tr es : List DeviceAct} {s s' : Device} {x : DeviceAct}
    (hi : Accounted tr s) (hok : freshFds s x) (h : s.step x = some (s', es)) :
    Accounted (es ++ tr) s' := by
  obtain ⟨hlive, hstale⟩ := hi
  cases x with
  | deviceOpen a =>
    cases h
    obtain ⟨hret, htwice, hlive', hstale'⟩ | ⟨hret, htwice, hlive', hstale'⟩ |
      ⟨hret, htwice, hlive', hstale'⟩ := open_run hok
    · have hleft : DeviceAct.ebcFd (.deviceOpen a) = some a.halEbc := if_pos hret
      have hnone : DeviceAct.twice (.deviceOpen a) = none := if_neg htwice
      refine ⟨?_, ?_⟩
      · rw [if_pos hret, List.singleton_append, List.filterMap_cons_some hleft, List.flatMap_cons,
          List.cons_append]
        refine hlive'.trans (.cons _ ?_)
        exact (hlive.append_left _).trans (List.perm_append_comm_assoc ..)
      · rw [List.singleton_append, List.filterMap_cons_none hnone]
        exact hstale'.trans hstale
    · have hleft : DeviceAct.ebcFd (.deviceOpen a) = none := if_neg hret
      have hsome : DeviceAct.twice (.deviceOpen a) = some a.ebc := if_pos htwice
      refine ⟨?_, ?_⟩
      · rw [if_neg hret, List.singleton_append, List.filterMap_cons_none hleft]
        exact hlive'.trans hlive
      · rw [List.singleton_append, List.filterMap_cons_some hsome, ← hstale]
        exact hstale'
    · have hleft : DeviceAct.ebcFd (.deviceOpen a) = none := if_neg hret
      have hnone : DeviceAct.twice (.deviceOpen a) = none := if_neg htwice
      refine ⟨?_, ?_⟩
      · rw [if_neg hret, List.singleton_append, List.filterMap_cons_none hleft]
        exact hlive'.trans hlive
      · rw [List.singleton_append, List.filterMap_cons_none hnone]
        exact hstale'.trans hstale
  | deviceClose w =>
    by_cases hw : w ∈ s.ctxs
    · rw [show s.step (.deviceClose w) = some _ from if_pos hw] at h
      cases h
      have hctxs : (s.ctxs.flatMap WorkerFds.fds).Perm
          (w.fds ++ (s.ctxs.erase w).flatMap WorkerFds.fds) := by
        rw [← List.flatMap_cons]
        exact (List.perm_cons_erase hw).flatMap_right _
      obtain ⟨hlive', hstale'⟩ := Fds.run_closed
        (hlive.trans ((hctxs.append_left _).trans (List.perm_append_comm_assoc ..)))
      exact ⟨hlive', hstale'.trans hstale⟩
    · rw [show s.step (.deviceClose w) = none from if_neg hw] at h
      cases h

/-- **The descriptors of the process**: after any opens and closes, whatever fails, those are open
that the open contexts close when they are destroyed, and one more of each `hwc_device_open` that
succeeded: nothing ever closes it. A descriptor is closed twice by each `Init` that fails with
`/dev/ebc` open, and by nothing else. -/
theorem device_fds {tr : List DeviceAct} {s : Device} (hr : devices.Run freshFds tr s) :
    s.fds.live.Perm (tr.filterMap DeviceAct.ebcFd ++ s.ctxs.flatMap WorkerFds.fds) ∧
      s.fds.stale = tr.filterMap DeviceAct.twice := by
  have hi : Accounted tr s := System.Inductive.run (I := Accounted) ⟨by
    rintro s tr ⟨rfl, rfl⟩
    exact ⟨.refl _, rfl⟩, fun s a s' es tr hi hok h => accounted_step hi hok h⟩ hr
  exact ⟨hi.live, hi.stale⟩

/-- An open that fails in `EBC_GET_BUFFER`, one that succeeds, and its close. -/
theorem device_fds_retry : ∃ tr s, devices.Run freshFds tr s ∧ s.ctxs = [] ∧
    s.fds.live.Perm [6] ∧ s.fds.stale = [4] := by
  obtain ⟨tr, s, hr, hp⟩ := System.exists_run devices freshFds (s := {}) ⟨rfl, rfl⟩
    [.deviceOpen { timeline := 3, ebc := 4, getBuffer := -1, waveform := -1, halEbc := -1 },
      .deviceOpen { timeline := 3, ebc := 4, waveform := 5, halEbc := 6 },
      .deviceClose { timelineFd := 3, ebcFd := 4, waveformFd := 5 }]
    (fun tr s => decide (s.ctxs = [] ∧ tr.filterMap DeviceAct.ebcFd = [6] ∧
      tr.filterMap DeviceAct.twice = [4])) (by decide +kernel)
  obtain ⟨hctxs, hebc, htwice⟩ := of_decide_eq_true hp
  obtain ⟨hlive, hstale⟩ := device_fds hr
  rw [hebc, hctxs] at hlive
  exact ⟨tr, s, hr, hctxs, hlive, hstale.trans htwice⟩

end EinkHwc
