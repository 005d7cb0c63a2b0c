import EinkHwc.VSync.Worker

/-!
# A sleep that is interrupted

`SyntheticWaitVBlank` repeats `clock_nanosleep` while it returns -1 with `errno` at `EINTR`.
`clock_nanosleep` returns the error number itself, so that an interrupted sleep ends the loop, the
wait fails, and `Routine` returns without calling the hook.

* `sleepResults`: what the sleeps return in a sequence of steps.
* `Delivers`: an iteration whose sleeps return `results` calls the hook, whatever the other threads
  do meanwhile.
* `interrupted_iff`: it does exactly if no sleep is interrupted.
-/

namespace EinkHwc

namespace VSync

open Trace

def Act.sleepResult : Act → Option Int
  | .slept ret _ => some ret
  | _ => none

/-- What `clock_nanosleep` returns, call after call. -/
def sleepResults (as : List Act) : List Int := as.filterMap Act.sleepResult

def WorkPc.asleep : WorkPc → Bool
  | .sleep .. => true
  | _ => false

/-- The call of the hook, if there is one. -/
def hook (v : Locals) (now timestamp : Int) : List Ev :=
  if v.procs.any (·.vsync > 0x10) then [.vsync v.display now timestamp] else []

/-- The iteration that sleeps until `vsync` at `s`, if its sleeps return `results`: the wait returns
0 with the timestamp, the hook is called, and `last_timestamp_` is the timestamp when it is over.
The iteration can be completed. -/
structure Delivers (frameNs : Int) (s : VSync) (v : Locals) (now : Int) (vsync : Timespec)
    (results : List Int) : Prop where
  returns : ∀ as s' es, (system frameNs).Until (fun s => s.work.asleep = false) s as s' es →
    sleepResults as <+: results → s'.work = .callback v now vsync.ns
  delivers : ∀ as s' es, (system frameNs).Until (fun s => s.work = .top) s as s' es →
    sleepResults as <+: results →
    es.filter (·.isVSync.isSome) = hook v now vsync.ns ∧ s'.lastTimestamp = vsync.ns
  completes : ∃ as s' es, (system frameNs).Until (fun s => s.work = .top) s as s' es ∧
    sleepResults as <+: results

variable {frameNs : Int} {s s' : VSync} {a : Act} {as : List Act} {es : List Ev} {v : Locals}
  {now t : Int} {vsync : Timespec}

/-- The other threads do not move a worker that is not waiting. -/
theorem step_other (ha : a.isWork = false) (hw : s.work ≠ .waiting)
    (h : step frameNs s a = some (s', es)) :
    s'.work = s.work ∧ es.filter (·.isVSync.isSome) = [] ∧ a.sleepResult = none := by
  have haside := step_aside ha h
  refine ⟨haside.work.resolve_right fun hr => hw hr.1, ?_, ?_⟩
  · refine List.filter_eq_nil_iff.2 fun e he => ?_
    rw [haside.vsync e he]
    simp
  · cases a with
    | work | slept => cases ha
    | call | caller | wake | tick => rfl

theorem sleepResults_cons (a : Act) (as : List Act) :
    sleepResults (a :: as) = a.sleepResult.toList ++ sleepResults as := by
  unfold sleepResults
  cases h : a.sleepResult <;> simp [h]

theorem filter_append_nil {es es₁ : List Ev} {p : Ev → Bool} (h : es₁.filter p = []) :
    (es ++ es₁).filter p = es.filter p := by
  rw [List.filter_append, h, List.append_nil]

theorem sleptStep_of_awake {ret errno : Int} (h : s.work.asleep = false) :
    s.sleptStep ret errno = none := by
  unfold sleptStep
  cases hw : s.work with
  | sleep v now vsync =>
    rw [hw] at h
    cases h
  | _ => rfl

/-- On the way to the top of the loop: the next step of the worker, after those of other threads. -/
theorem until_workStep (htop : s.work ≠ .top) (hwait : s.work ≠ .waiting)
    (hawake : s.work.asleep = false)
    (h : (system frameNs).Until (fun s => s.work = .top) s as s' es) :
    ∃ (s₀ s₁ : VSync) (as₁ : List Act) (es₀ es₁ : List Ev),
      s₀.work = s.work ∧ s₀.workStep frameNs = some (s₁, es₀) ∧
      (system frameNs).Until (fun s => s.work = .top) s₁ as₁ s' es₁ ∧
      es.filter (·.isVSync.isSome) = (es₁ ++ es₀).filter (·.isVSync.isSome) := by
  induction h with
  | done ht => exact absurd ht htop
  | @step s s₁ s' a as es es₁ _ hstep hrest ih =>
    replace hstep : step frameNs s a = some (s₁, es₁) := hstep
    cases ha : a.isWork with
    | false =>
      obtain ⟨hw, hes, -⟩ := step_other ha hwait hstep
      rw [← hw] at htop hwait hawake ⊢
      rw [filter_append_nil hes]
      exact ih htop hwait hawake
    | true =>
      cases a with
      | work => exact ⟨s, s₁, as, es₁, es, rfl, hstep, hrest, rfl⟩
      | slept ret errno =>
        have hnone : step frameNs s (.slept ret errno) = none := sleptStep_of_awake hawake
        rw [hnone] at hstep
        cases hstep
      | call | caller | wake | tick => cases ha

/-- From the store on. -/
theorem until_store (hs : s.work = .store t)
    (h : (system frameNs).Until (fun s => s.work = .top) s as s' es) :
    es.filter (·.isVSync.isSome) = [] ∧ s'.lastTimestamp = t := by
  obtain ⟨s₀, s₁, as₁, es₀, es₁, hw, hstep, hrest, hes⟩ :=
    until_workStep (by simp [hs]) (by simp [hs]) (by simp [hs, WorkPc.asleep]) h
  simp only [workStep, hw, hs] at hstep
  cases hstep
  obtain ⟨-, rfl, rfl⟩ := hrest.of_stop rfl
  exact ⟨hes, rfl⟩

/-- From the call of the hook on. -/
theorem until_callback (hs : s.work = .callback v now t)
    (h : (system frameNs).Until (fun s => s.work = .top) s as s' es) :
    es.filter (·.isVSync.isSome) = hook v now t ∧ s'.lastTimestamp = t := by
  obtain ⟨s₀, s₁, as₁, es₀, es₁, hw, hstep, hrest, hes⟩ :=
    until_workStep (by simp [hs]) (by simp [hs]) (by simp [hs, WorkPc.asleep]) h
  simp only [workStep, hw, hs] at hstep
  cases hstep
  obtain ⟨hnone, hlast⟩ := until_store rfl hrest
  refine ⟨?_, hlast⟩
  rw [hes, List.filter_append, hnone, List.nil_append]
  unfold hook
  split <;> rfl

/-- A sleep that is not interrupted leads to the call. -/
theorem sleep_step (hs : s.work = .sleep v now vsync) (h : step frameNs s a = some (s', es))
    (hret : ∀ ret, a.sleepResult = some ret → ret = 0) :
    es.filter (·.isVSync.isSome) = [] ∧
      (s'.work = .sleep v now vsync ∧ a.sleepResult = none ∨
        s'.work = .callback v now vsync.ns ∧ a.sleepResult = some 0) := by
  cases ha : a.isWork with
  | false =>
    obtain ⟨hw, hes, hres⟩ := step_other ha (by rw [hs]; simp) h
    exact ⟨hes, .inl ⟨hw.trans hs, hres⟩⟩
  | true =>
    cases a with
    | work =>
      simp only [step, workStep, hs] at h
      cases h
    | slept ret errno =>
      obtain rfl := hret ret rfl
      simp only [step, sleptStep, hs] at h
      rw [if_neg (by simp), if_neg (by simp)] at h
      split at h <;> cases h
      exact ⟨rfl, .inr ⟨rfl, rfl⟩⟩
    | call | caller | wake | tick => cases ha

/-- In a sequence of steps whose only result is 0, so is that of a step, and the others after it
have none. -/
theorem result_of_prefix (h : sleepResults (a :: as) <+: [0]) :
    (∀ ret, a.sleepResult = some ret → ret = 0) ∧ sleepResults as <+: [0] := by
  rw [sleepResults_cons] at h
  cases hr : a.sleepResult with
  | none =>
    rw [hr] at h
    exact ⟨by simp, h⟩
  | some ret =>
    rw [hr] at h
    obtain ⟨hret, hnil⟩ := List.cons_prefix_cons.1 h
    refine ⟨fun r he => ?_, hnil.trans (List.nil_prefix)⟩
    cases he
    exact hret

theorem delivers_uninterrupted (hs : s.work = .sleep v now vsync) :
    Delivers frameNs s v now vsync [0] := by
  refine ⟨fun as s' es h hres => ?_, fun as s' es h hres => ?_, ?_⟩
  · induction h with
    | done ht =>
      rw [hs] at ht
      cases ht
    | step _ hstep hrest ih =>
      obtain ⟨hret, hres'⟩ := result_of_prefix hres
      obtain ⟨-, ⟨hw, -⟩ | ⟨hw, -⟩⟩ := sleep_step hs hstep hret
      · exact ih hw hres'
      · obtain ⟨-, rfl, -⟩ := hrest.of_stop (by rw [hw]; rfl)
        exact hw
  · induction h with
    | done ht =>
      rw [hs] at ht
      cases ht
    | step _ hstep hrest ih =>
      obtain ⟨hret, hres'⟩ := result_of_prefix hres
      obtain ⟨hes, ⟨hw, -⟩ | ⟨hw, -⟩⟩ := sleep_step hs hstep hret
      · rw [filter_append_nil hes]
        exact ih hw hres'
      · rw [filter_append_nil hes]
        exact until_callback hw hrest
  · -- The clock reaches the target, and the sleep returns.
    have hclock : vsync.ns ≤ s.clock + (vsync.ns - s.clock).toNat := by omega
    have hslept : (system frameNs).step { s with clock := s.clock + (vsync.ns - s.clock).toNat }
        (.slept 0 0) = some ({ s with
          clock := s.clock + (vsync.ns - s.clock).toNat
          work := .callback v now vsync.ns }, []) := by
      show sleptStep _ 0 0 = _
      unfold sleptStep
      simp only [hs]
      rw [if_neg (by simp), if_neg (by simp), if_pos hclock]
    refine ⟨[.tick (vsync.ns - s.clock).toNat, .slept 0 0, .work, .work], _, _,
      .step ?_ rfl (.step ?_ hslept (.step ?_ rfl (.step ?_ rfl (.done rfl)))), ⟨[], rfl⟩⟩
    · rw [hs]
      simp
    · show s.work ≠ .top
      rw [hs]
      simp
    all_goals simp

/-- The first interrupted sleep ends the iteration. -/
theorem not_delivers_interrupted (hs : s.work = .sleep v now vsync) (n : Nat) :
    ¬ Delivers frameNs s v now vsync (List.replicate (n + 1) eintr ++ [0]) := by
  intro h
  have hstep : (system frameNs).step s (.slept eintr 0) = some ({ s with work := .top }, []) := by
    show sleptStep s eintr 0 = _
    unfold sleptStep
    rw [hs]
    rfl
  have hw := h.returns _ _ _ (.step (by rw [hs]; simp [WorkPc.asleep]) hstep (.done rfl))
    (List.cons_prefix_cons.2 ⟨rfl, List.nil_prefix⟩)
  cases hw

/-- **An interrupted sleep loses the vsync**: with the error number as the result of
`clock_nanosleep`, an iteration whose sleep is interrupted `n` times before it succeeds delivers its
vsync exactly if `n` is 0. -/
theorem interrupted_iff (hs : s.work = .sleep v now vsync) (n : Nat) :
    Delivers frameNs s v now vsync (List.replicate n eintr ++ [0]) ↔ n = 0 := by
  constructor
  · intro h
    cases n with
    | zero => rfl
    | succ n => exact absurd h (not_delivers_interrupted hs n)
  · rintro rfl
    exact delivers_uninterrupted hs

/-- `interrupted_iff` for the first vsync of a worker with a hook, whose sleep is interrupted
twice. -/
theorem interrupted_iff_first : ∃ tr s, (system 16666667).Run System.any tr s ∧
    s.work = .sleep ⟨true, 0, some ⟨0x20⟩⟩ 0 (.ofNs 16666667) ∧
    hook ⟨true, 0, some ⟨0x20⟩⟩ 0 16666667 = [.vsync 0 0 16666667] ∧
    (Delivers 16666667 s ⟨true, 0, some ⟨0x20⟩⟩ 0 (.ofNs 16666667)
      (List.replicate 2 eintr ++ [0]) ↔ 2 = 0) := by
  obtain ⟨tr, s, hr, hp⟩ := System.exists_run (system 16666667) System.any
    (s := ⟨none, false, true, none, 0, -1, 0, .top, fun _ => .idle⟩)
    ⟨⟨rfl, rfl, rfl, rfl, Int.le_refl _, rfl, fun _ => rfl⟩, rfl⟩
    (List.flatten [.call 0 (.setProcs (some ⟨0x20⟩)) :: List.replicate 3 (.caller 0),
      List.replicate 9 .work])
    (fun _ s => s.work == .sleep ⟨true, 0, some ⟨0x20⟩⟩ 0 (.ofNs 16666667)) (by decide +kernel)
  have hs := eq_of_beq hp
  exact ⟨tr, s, hr, hs, rfl, interrupted_iff hs 2⟩

/-- The first sleep of a worker whose vsync is enabled, interrupted once. -/
theorem interrupted_once : ¬ ∀ frameNs tr s v now vsync, (system frameNs).Run System.any tr s →
    s.work = .sleep v now vsync → ∀ n,
      Delivers frameNs s v now vsync (List.replicate n eintr ++ [0]) := by
  intro hall
  obtain ⟨tr, s, hr, hp⟩ := System.exists_run (system 16666667) System.any
    (s := ⟨none, false, true, none, 0, -1, 0, .top, fun _ => .idle⟩)
    ⟨⟨rfl, rfl, rfl, rfl, Int.le_refl _, rfl, fun _ => rfl⟩, rfl⟩
    (List.replicate 9 .work)
    (fun _ s => s.work == .sleep ⟨true, 0, none⟩ 0 (.ofNs 16666667)) (by decide +kernel)
  have hs := eq_of_beq hp
  exact not_delivers_interrupted hs 0 (hall 16666667 tr s _ _ _ hr hs 1)

end VSync

end EinkHwc
