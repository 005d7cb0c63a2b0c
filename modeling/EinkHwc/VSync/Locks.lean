import EinkHwc.VSync.Worker
import EinkHwc.Worker.HandoffLemmas

/-!
# The lock discipline of the two workers

`Worker::InternalRoutine` takes `lock_` at the top of its loop, so `Routine` has to return without
it. `EinkCompositorWorker::Routine` does on every path. `VSyncWorker::Routine` does not: it returns
on `-EINTR` right after the wait, with `lock_` taken, and the thread then waits for itself.

* `Disciplined`: what the loop relies on, for the runs whose steps meet a condition.
* `Locks`: each thread of the vsync worker owns `lock_` exactly at its places under the lock, as
  long as no wait of the worker finds `exit_` set (`unexited`).
* `locks_disciplined`: the two workers; `held_forever`: what follows the early return.
-/

namespace EinkHwc

/-- A worker as its loop in `InternalRoutine` sees it. Every return of `Routine` leads to `top`. -/
structure LoopView (σ α κ : Type) where
  /-- At the `Lock()` of `InternalRoutine`. -/
  top : σ → Prop
  /-- At its read of `exit_`. -/
  readExit : σ → Prop
  /-- Out of the loop. -/
  exited : σ → Prop
  /-- `exit_` -/
  exit : σ → Prop
  /-- The owner of `lock_`. -/
  lock : σ → Option κ
  worker : κ
  /-- The worker thread's next step. -/
  work : α

/-- `Routine` returns without `lock_`; so the loop can go on as soon as no other thread has it. Once
`exit_` is set, the next iteration leaves the loop. -/
structure Disciplined {σ α ε κ : Type} (S : Trace.System σ α ε) (ok : σ → α → Prop)
    (v : LoopView σ α κ) : Prop where
  released : ∀ tr s, S.Run ok tr s → v.top s → v.lock s ≠ some v.worker
  enters : ∀ tr s, S.Run ok tr s → v.top s → v.lock s = none →
    ∃ s' es, S.step s v.work = some (s', es) ∧ v.readExit s'
  exits : ∀ tr s, S.Run ok tr s → v.readExit s → v.exit s →
    ∃ s' es, S.step s v.work = some (s', es) ∧ v.exited s'
  leaves : ∀ tr s s', S.Run ok tr s → v.top s → v.exit s →
    Relation.ReflTransGen (S.Next ok) s s' → v.top s' ∨ v.readExit s' ∨ v.exited s'

namespace VSync

/-- The places of the worker thread with `lock_`. -/
def WorkPc.hasLock : WorkPc → Bool
  | .readExit | .test | .wait | .waited _ | .read | .unlock _ => true
  | _ => false

/-- The places of a caller with `lock_`. -/
def CallPc.hasLock : CallPc → Bool
  | .write _ | .reset _ | .signal _ | .unlock _ => true
  | _ => false

/-- No wait of the worker finds `exit_` set. -/
def unexited (s : VSync) (a : Act) : Prop :=
  ¬ (a = .work ∧ (s.work = .wait ∨ s.work = .woken) ∧ s.exit = true)

instance (s : VSync) (a : Act) : Decidable (unexited s a) :=
  inferInstanceAs (Decidable (¬ (_ ∧ (_ ∨ _) ∧ _)))

def loopView : LoopView VSync Act Tid where
  top s := s.work = .top
  readExit s := s.work = .readExit
  exited s := s.work = .exited
  exit s := s.exit = true
  lock := VSync.lock
  worker := .worker
  work := .work

variable {frameNs : Int} {s s' : VSync} {a : Act} {es tr : List Ev} {i : Nat}

@[simp] theorem hasLock_wakeWork (p : WorkPc) : (wakeWork p).hasLock = p.hasLock := by
  cases p <;> rfl

theorem hasLock_next (c : Call) : c.next.hasLock = true := by
  cases c <;> rfl

/-- The mutex is owned by the thread whose place says so, and no wait returns `-EINTR`. -/
structure Locks (s : VSync) : Prop where
  work : s.lock = some .worker ↔ s.work.hasLock = true
  caller : ∀ i, s.lock = some (.caller i) ↔ (s.callers i).hasLock = true
  waited : ∀ ret, s.work = .waited ret → ret = 0

theorem hasLock_setCaller {p : CallPc} (hp : p.hasLock = (s.callers i).hasLock) (j : Nat) :
    ((s.setCaller i p).callers j).hasLock = (s.callers j).hasLock := by
  by_cases hj : j = i
  · subst hj
    simp [setCaller, hp]
  · simp [setCaller, hj]

theorem Locks.congr (hi : Locks s) (hl : s'.lock = s.lock)
    (hw : s'.work.hasLock = s.work.hasLock)
    (hc : ∀ j, (s'.callers j).hasLock = (s.callers j).hasLock)
    (h0 : ∀ ret, s'.work = .waited ret → ret = 0) : Locks s' := by
  refine ⟨?_, fun j => ?_, h0⟩
  · rw [hl, hw]
    exact hi.work
  · rw [hl, hc]
    exact hi.caller j

/-- A step of a caller that neither takes `lock_` nor leaves it. -/
theorem Locks.setCaller {p : CallPc} (hi : Locks s) (hp : p.hasLock = (s.callers i).hasLock) :
    Locks (s.setCaller i p) :=
  hi.congr rfl rfl (hasLock_setCaller hp) hi.waited

theorem Locks.callStep (hi : Locks s) (h : s.callStep i = some (s', es)) : Locks s' := by
  have hci := hi.caller i
  cases callStep_cases h with
  | lock c hp hfree =>
    refine ⟨?_, fun j => ?_, hi.waited⟩
    · simp [VSync.setCaller, ← hi.work, hfree]
    · by_cases hj : j = i
      · subst hj
        simp [VSync.setCaller, CallPc.hasLock]
      · simp [VSync.setCaller, hj, Ne.symm hj, ← hi.caller j, hfree]
  | write c hp =>
    have hw : Locks (s.write c) := by
      cases c <;> exact ⟨hi.work, hi.caller, hi.waited⟩
    have hcal : (s.write c).callers = s.callers := by cases c <;> rfl
    refine hw.setCaller ?_
    rw [hasLock_next, hcal, hp]
    rfl
  | reset c hp => exact hi.congr rfl rfl (hasLock_setCaller (by rw [hp]; rfl)) hi.waited
  | signal c hp =>
    refine hi.congr rfl (hasLock_wakeWork _) (hasLock_setCaller (by rw [hp]; rfl)) fun ret hr => ?_
    rcases wakeWork_eq s.work with he | ⟨-, he⟩
    · exact hi.waited ret (he.symm.trans hr)
    · exact absurd (he.symm.trans hr) (by simp)
  | unlock c hp =>
    rw [hp] at hci
    have hown : s.lock = some (.caller i) := hci.2 rfl
    refine ⟨?_, fun j => ?_, hi.waited⟩
    · simp [VSync.setCaller, ← hi.work, hown]
    · by_cases hj : j = i
      · subst hj
        simp [VSync.setCaller, CallPc.hasLock]
      · simp [VSync.setCaller, hj, Ne.symm hj, ← hi.caller j, hown]

/-- The worker takes `lock_`. -/
theorem Locks.take {p : WorkPc} (hi : Locks s) (hfree : s.lock = none) (hp : p.hasLock = true)
    (h0 : ∀ ret, p = .waited ret → ret = 0) : Locks { s with lock := some .worker, work := p } :=
  ⟨by simp [hp], fun j => by simp [← hi.caller j, hfree], h0⟩

/-- The worker gives `lock_` back. -/
theorem Locks.release {p : WorkPc} (hi : Locks s) (hs : s.work.hasLock = true)
    (hp : p.hasLock = false) (h0 : ∀ ret, p = .waited ret → ret = 0) :
    Locks { s with lock := none, work := p } :=
  ⟨by simp [hp], fun j => by simp [← hi.caller j, hi.work.2 hs], h0⟩

/-- The worker goes on with `lock_` as it is. -/
theorem Locks.work_congr {p : WorkPc} {t : Int} (hi : Locks s) (hp : p.hasLock = s.work.hasLock)
    (h0 : ∀ ret, p = .waited ret → ret = 0) :
    Locks { s with lastTimestamp := t, work := p } :=
  hi.congr rfl hp (fun _ => rfl) h0

theorem Locks.workStep (hi : Locks s) (hok : unexited s .work)
    (h : s.workStep frameNs = some (s', es)) : Locks s' := by
  unfold VSync.workStep at h
  cases hp : s.work <;> simp only [hp] at h
  case top | lock =>
    split at h <;> cases h
    exact hi.take ‹_› rfl (by simp)
  case readExit =>
    cases h
    refine hi.release (by rw [hp]; rfl) ?_ ?_ <;> split <;> simp [WorkPc.hasLock]
  case wait =>
    split at h
    · rename_i he
      exact absurd ⟨rfl, .inl hp, he⟩ hok
    · cases h
      exact hi.release (by rw [hp]; rfl) rfl (by simp)
  case woken =>
    split at h <;> cases h
    refine hi.take ‹_› rfl fun ret hr => ?_
    have he : s.exit = false := Bool.eq_false_iff.2 fun he => hok ⟨rfl, .inr hp, he⟩
    rw [he] at hr
    cases hr
    rfl
  case waited ret =>
    have h0 : ret = 0 := hi.waited ret hp
    rw [if_neg (by rw [h0]; decide)] at h
    cases h
    exact hi.work_congr (by rw [hp]; rfl) (by simp)
  case unlock v =>
    cases h
    exact hi.release (by rw [hp]; rfl) rfl (by simp)
  case test | enabled v =>
    cases h
    refine hi.work_congr ?_ ?_ <;> split <;> simp [hp, WorkPc.hasLock]
  case phase v now =>
    split at h <;> cases h <;> exact hi.work_congr (by rw [hp]; rfl) (by simp)
  case read | gettime v | diff v now | base v now d | callback v now t | store t =>
    cases h
    exact hi.work_congr (by rw [hp]; rfl) (by simp)
  case waiting | sleep v now t | exited => cases h

theorem Locks.sleptStep {ret errno : Int} (hi : Locks s)
    (h : s.sleptStep ret errno = some (s', es)) : Locks s' := by
  unfold VSync.sleptStep at h
  cases hp : s.work <;> simp only [hp] at h
  case sleep v now t =>
    split at h
    · cases h
      exact hi
    · split at h
      · cases h
        exact hi.work_congr (by rw [hp]; rfl) (by simp)
      · split at h <;> cases h
        exact hi.work_congr (by rw [hp]; rfl) (by simp)
  all_goals cases h

theorem Locks.step (hi : Locks s) (hok : unexited s a)
    (h : step frameNs s a = some (s', es)) : Locks s' := by
  cases a with
  | call i c =>
    simp only [VSync.step] at h
    split at h <;> cases h
    exact hi.setCaller (by simp [*, CallPc.hasLock])
  | caller i => exact hi.callStep h
  | work => exact hi.workStep hok h
  | wake =>
    simp only [VSync.step] at h
    split at h <;> cases h
    exact hi.work_congr (by simp [*, WorkPc.hasLock]) (by simp)
  | slept ret errno => exact hi.sleptStep h
  | tick d =>
    cases h
    exact hi.congr rfl rfl (fun _ => rfl) hi.waited

theorem locks_run (hr : (system frameNs).Run unexited tr s) : Locks s := by
  refine Trace.System.Inductive.run (I := fun _ s => Locks s) ⟨?_, ?_⟩ hr
  · rintro s tr ⟨hi, -⟩
    refine ⟨?_, fun i => ?_, ?_⟩
    · simp [hi.lock, hi.work, WorkPc.hasLock]
    · simp [hi.lock, hi.callers i, CallPc.hasLock]
    · simp [hi.work]
  · intro s a s' es tr hi hok h
    exact hi.step hok h

/-! ## The loop -/

/-- `exit_` is set, and the thread does not call `Routine` again. -/
structure Leaving (s : VSync) : Prop where
  work : s.work = .top ∨ s.work = .readExit ∨ s.work = .exited
  exit : s.exit = true

theorem Leaving.step (hi : Leaving s) (h : step frameNs s a = some (s', es)) : Leaving s' := by
  obtain ⟨hw, he⟩ := hi
  cases ha : a.isWork with
  | false =>
    have hs := step_aside ha h
    refine ⟨?_, hs.exit he⟩
    rcases hs.work with hsame | ⟨hwait, -⟩
    · rw [hsame]
      exact hw
    · rw [hwait] at hw
      simp at hw
  | true =>
    cases a with
    | work =>
      simp only [VSync.step, workStep] at h
      rcases hw with hw | hw | hw <;> rw [hw] at h
      · dsimp only at h
        split at h <;> cases h
        exact ⟨.inr (.inl rfl), he⟩
      · cases h
        exact ⟨.inr (.inr (if_pos he)), he⟩
      · cases h
    | slept ret errno =>
      simp only [VSync.step, sleptStep] at h
      rcases hw with hw | hw | hw <;> rw [hw] at h <;> cases h
    | call i c | caller i | wake | tick d => cases ha

theorem disciplined (frameNs : Int) : Disciplined (system frameNs) unexited loopView := by
  refine ⟨fun tr s hr ht hl => ?_, fun tr s _ ht hl => ?_, fun tr s _ hx he => ?_,
    fun tr s s' _ ht he hs => ?_⟩
  · have hw := (locks_run hr).work.1 hl
    rw [show s.work = .top from ht] at hw
    cases hw
  · refine ⟨{ s with lock := some .worker, work := .readExit }, [], ?_, rfl⟩
    simp only [system, step, loopView, workStep]
    rw [show s.work = .top from ht, show s.lock = none from hl]
    rfl
  · refine ⟨{ s with lock := none, work := .exited }, [], ?_, rfl⟩
    simp only [system, step, loopView, workStep]
    rw [show s.work = .readExit from hx, show s.exit = true from he]
    rfl
  · have hl : Leaving s' := Trace.System.Next.closed (fun _ _ _ _ => Leaving.step) hs ⟨.inl ht, he⟩
    exact hl.work

/-- The thread is on its way to the top of the loop with `lock_`, or waits there for itself. -/
structure Held (s : VSync) : Prop where
  work : s.work = .waited (-eintr) ∨ s.work = .top
  lock : s.lock = some .worker
  caller : ∀ i, (s.callers i).hasLock = false

theorem Held.step (hi : Held s) (h : step frameNs s a = some (s', es)) : Held s' := by
  obtain ⟨hw, hl, hc⟩ := hi
  cases a with
  | call i c =>
    simp only [VSync.step] at h
    split at h <;> cases h
    refine ⟨hw, hl, fun j => ?_⟩
    by_cases hj : j = i
    · subst hj
      simp [setCaller, CallPc.hasLock]
    · simp [setCaller, hj, hc j]
  | caller i =>
    -- At `Lock()` a caller waits for the worker, and it is nowhere behind it.
    have hci := hc i
    cases callStep_cases h with
    | lock c hp hfree => exact absurd (hl.symm.trans hfree) (by simp)
    | write c hp | reset c hp | signal c hp | unlock c hp =>
      rw [hp] at hci
      cases hci
  | work =>
    simp only [VSync.step, workStep] at h
    rcases hw with hw | hw <;> rw [hw] at h
    · cases h
      exact ⟨.inr rfl, hl, hc⟩
    · dsimp only at h
      rw [if_neg (by rw [hl]; simp)] at h
      cases h
  | wake =>
    simp only [VSync.step] at h
    split at h <;> cases h
    rename_i hwait
    rw [hwait] at hw
    simp at hw
  | slept ret errno =>
    simp only [VSync.step, sleptStep] at h
    rcases hw with hw | hw <;> rw [hw] at h <;> cases h
  | tick d =>
    cases h
    exact ⟨hw, hl, hc⟩

/-- The first wait that finds `exit_` set. -/
theorem Locks.held {s₁ : VSync} (hi : Locks s) (hw : s.work = .wait ∨ s.work = .woken)
    (he : s.exit = true) (h : VSync.step frameNs s .work = some (s₁, es)) : Held s₁ := by
  simp only [VSync.step, VSync.workStep] at h
  rcases hw with hw | hw <;> rw [hw] at h <;> dsimp only at h
  · rw [if_pos he] at h
    cases h
    have hown : s.lock = some .worker := hi.work.2 (by rw [hw]; rfl)
    exact ⟨.inl rfl, hown, fun i => Bool.eq_false_iff.2 fun hc => by
      simpa [hown] using (hi.caller i).2 hc⟩
  · split at h <;> cases h
    rename_i hfree
    exact ⟨.inl (by simp), rfl, fun i => Bool.eq_false_iff.2 fun hc => by
      simpa [hfree] using (hi.caller i).2 hc⟩

/-- **The first wait that finds `exit_` set is the last thing the thread does**: it comes back to
the top of its loop with `lock_`, and from then on nobody gets the mutex. -/
theorem held_forever {s₁ s₂ : VSync} (hr : (system frameNs).Run unexited tr s)
    (hw : s.work = .wait ∨ s.work = .woken) (he : s.exit = true)
    (h : step frameNs s .work = some (s₁, es))
    (hs : Relation.ReflTransGen ((system frameNs).Next Trace.System.any) s₁ s₂) : Held s₂ :=
  Trace.System.Next.closed (fun _ _ _ _ => Held.step) hs ((locks_run hr).held hw he h)

/-- In any run, up to that wait and after it. -/
theorem locks_or_held (hr : (system frameNs).Run Trace.System.any tr s) : Locks s ∨ Held s := by
  refine Trace.System.Inductive.run (I := fun _ s => Locks s ∨ Held s) ⟨?_, ?_⟩ hr
  · rintro s tr hi
    exact .inl (locks_run (.init hi))
  · rintro s a s' es tr (hi | hi) - h
    · by_cases hok : unexited s a
      · exact .inl (hi.step hok h)
      · unfold unexited at hok
        rw [not_not] at hok
        obtain ⟨rfl, hw, he⟩ := hok
        exact .inr (hi.held hw he h)
    · exact .inr (hi.step h)

/-- One caller at most is behind its `Lock()`. -/
theorem caller_unique (hr : (system frameNs).Run Trace.System.any tr s) {i j : Nat}
    (hi : (s.callers i).hasLock = true) (hj : (s.callers j).hasLock = true) : i = j := by
  rcases locks_or_held hr with hl | hh
  · have hown := (hl.caller i).2 hi
    rw [(hl.caller j).2 hj] at hown
    cases hown
    rfl
  · rw [hh.caller i] at hi
    cases hi

end VSync

namespace Handoff

variable {α : Type}

def loopView : LoopView (Handoff α) (Act α) Tid where
  top s := s.work = .top
  readExit s := s.work = .readExit
  exited s := s.work = .exited
  exit s := s.exit = true
  lock := Handoff.lock
  worker := .worker
  work := .work

variable {s s' : Handoff α} {a : Act α} {es : List (Ev α)}

/-- `exit_` is set, and the thread does not call `Routine` again. -/
structure Leaving (s : Handoff α) : Prop where
  work : s.work = .top ∨ s.work = .readExit ∨ s.work = .exited
  exit : s.exit = true

theorem Leaving.step (hi : Leaving s) (h : s.step a = some (s', es)) : Leaving s' := by
  obtain ⟨hw, he⟩ := hi
  obtain ⟨lock, einkLock, exit, queue, prod, work⟩ := s
  dsimp only at hw he
  subst he
  cases a with
  | prod =>
    simp only [Handoff.step, prodStep] at h
    cases prod <;> dsimp only at h <;> (try split at h) <;> cases h <;>
      exact ⟨by rcases hw with rfl | rfl | rfl <;> simp [wakeWork], rfl⟩
  | work =>
    simp only [Handoff.step, workStep] at h
    rcases hw with rfl | rfl | rfl <;> dsimp only at h
    · split at h <;> cases h
      exact ⟨.inr (.inl rfl), rfl⟩
    · cases h
      exact ⟨.inr (.inr rfl), rfl⟩
    · cases h
  | call c | prodWake =>
    simp only [Handoff.step] at h
    cases prod <;> cases h
    exact ⟨hw, rfl⟩
  | workWake | composed =>
    simp only [Handoff.step] at h
    rcases hw with rfl | rfl | rfl <;> cases h
  | signal | exit =>
    simp only [Handoff.step] at h
    split at h <;> cases h
    exact ⟨by rcases hw with rfl | rfl | rfl <;> simp [wakeWork], rfl⟩

theorem disciplined (α : Type) : Disciplined (system α) Trace.System.any loopView := by
  refine ⟨fun tr s hr ht hl => ?_, fun tr s _ ht hl => ?_, fun tr s _ hx he => ?_,
    fun tr s s' _ ht he hs => ?_⟩
  · have hw := (locks_run hr).workLock.1 hl
    rw [show s.work = .top from ht] at hw
    cases hw
  · refine ⟨{ s with lock := some .worker, work := .readExit }, [], ?_, rfl⟩
    simp only [system, step, loopView, workStep]
    rw [show s.work = .top from ht, show s.lock = none from hl]
    rfl
  · refine ⟨{ s with lock := none, work := .exited }, [], ?_, rfl⟩
    simp only [system, step, loopView, workStep]
    rw [show s.work = .readExit from hx, show s.exit = true from he]
    rfl
  · have hl : Leaving s' := Trace.System.Next.closed (fun _ _ _ _ => Leaving.step) hs ⟨.inl ht, he⟩
    exact hl.work

end Handoff

/-- The lock discipline of both workers: of the compositor worker in every run, of the vsync worker
in the runs in which no wait of the thread finds `exit_` set. -/
theorem locks_disciplined (frameNs : Int) (α : Type) :
    Disciplined (VSync.system frameNs) VSync.unexited VSync.loopView ∧
      Disciplined (Handoff.system α) Trace.System.any Handoff.loopView :=
  ⟨VSync.disciplined frameNs, Handoff.disciplined α⟩

/-- The vsync worker breaks it: `Exit` arrives while the worker waits for vsync to be enabled. -/
theorem exit_while_waiting :
    ¬ Disciplined (VSync.system 16666667) Trace.System.any VSync.loopView := by
  intro h
  obtain ⟨tr, s, hr, hp⟩ := Trace.System.exists_run (VSync.system 16666667) Trace.System.any
    (s := ⟨none, false, false, none, 0, -1, 0, .top, fun _ => .idle⟩)
    ⟨⟨rfl, rfl, rfl, rfl, Int.le_refl _, rfl, fun _ => rfl⟩, rfl⟩
    [.work, .work, .work, .work, .work,
      .call 0 .exit, .caller 0, .caller 0, .caller 0, .caller 0, .work, .work]
    (fun _ s => s.work == .top && s.lock == some .worker) (by decide +kernel)
  simp only [Bool.and_eq_true, beq_iff_eq] at hp
  exact h.released tr s hr hp.1 hp.2

end EinkHwc
