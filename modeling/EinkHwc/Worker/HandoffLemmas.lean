import EinkHwc.Worker.Handoff

/-!
# Rules for the hand-off

- **The pipe** (`Effect`). Seen from outside, the hand-off is a first-in first-out pipe of
  compositions (`inFlight`): a call puts one in at the end, the worker takes one out at the front
  and passes it to `Compose`, and no other step of either thread changes the pipe. `step_effect`
  is this refinement; everything about whole runs that does not speak of the locks is proved from
  it.
- **The locks** (`Locks`): each thread owns exactly the mutexes that its place says.
- **Queue safety** (`queue_safety`): the depth is never exceeded, and nothing is lost, duplicated
  or reordered.
- **The lock order** (`no_deadlock`): `QueueComposite` takes `lock_` again while it holds
  `eink_lock_`. As long as its wait ends only with a signal, and the worker's wait does not end
  without one while `QueueComposite` is between its wake-up and that `Lock()`, the worker is not
  on its way to `eink_lock_` then (`Order`). A single wake-up without a signal is enough for the
  deadlock (`spurious_deadlock`).
-/

namespace EinkHwc

namespace Handoff

variable {α : Type} {s s' : Handoff α} {a : Act α} {es tr : List (Ev α)}

/-! ## The pipe -/

theorem prodHeld_idle (h : s.prod = .idle) : s.prodHeld = [] := by
  rw [prodHeld, h]

theorem inFlight_lock (h : s.prod = .idle) (c : α) :
    inFlight { s with prod := .lock c } = s.inFlight ++ [c] := by
  simp only [inFlight, prodHeld_idle h, List.append_nil]
  rfl

theorem inFlight_top (h : s.work = .composing) : inFlight { s with work := .top } = s.inFlight := by
  simp only [inFlight, workHeld, h]
  rfl

/-- What a step does to the compositions in the hand-off, with the events it emits. -/
inductive Effect (s : Handoff α) (a : Act α) (s' : Handoff α) : List (Ev α) → Prop where
  /-- No composition moves in or out. -/
  | silent : s'.inFlight = s.inFlight → s'.prodHeld = s.prodHeld → Effect s a s' []
  /-- `QueueComposite` brings one. -/
  | call (c : α) : a = .call c → s.prod = .idle → s'.prod = .lock c →
      s'.inFlight = s.inFlight ++ [c] → Effect s a s' []
  /-- The composition that `QueueComposite` brought is now in the queue. -/
  | push (c : α) : s'.inFlight = s.inFlight → s.prodHeld = [c] → s'.prodHeld = [] →
      Effect s a s' [.push c]
  /-- The oldest one is passed to `Compose`. -/
  | compose (c : α) : s.inFlight = c :: s'.inFlight → s'.prodHeld = s.prodHeld →
      s.work ≠ .composing → s'.work = .composing → Effect s a s' [.compose c]
  /-- The oldest one is destroyed without `Compose`. -/
  | lost (c : α) (r : Int) : s.work = .ret r (some c) → r ≠ 0 → s.inFlight = c :: s'.inFlight →
      s'.prodHeld = s.prodHeld → Effect s a s' [.lost c]

theorem prodStep_effect (h : s.prodStep = some (s', es)) : Effect s a s' es := by
  obtain ⟨lock, einkLock, exit, queue, prod, work⟩ := s
  cases prod <;> simp only [prodStep] at h <;> (try split at h) <;>
    simp only [Option.some.injEq, Prod.mk.injEq, reduceCtorEq] at h <;> obtain ⟨rfl, rfl⟩ := h
  case push c => exact .push c (by simp [inFlight, workHeld, prodHeld]) rfl rfl
  case signal =>
    refine .silent ?_ rfl
    cases work <;> rfl
  all_goals exact .silent rfl rfl

theorem workStep_effect (h : s.workStep = some (s', es)) : Effect s a s' es := by
  obtain ⟨lock, einkLock, exit, queue, prod, work⟩ := s
  cases work <;> simp only [workStep] at h
  case pop r =>
    cases queue <;> simp only [Option.some.injEq, Prod.mk.injEq] at h <;> obtain ⟨rfl, rfl⟩ := h
    · exact .silent rfl rfl
    · have hp : prodHeld (α := α) ⟨lock, einkLock, exit, [], wakeProd prod, .top⟩ =
          prodHeld ⟨lock, einkLock, exit, [], prod, .top⟩ := by cases prod <;> rfl
      exact .silent (by simpa [inFlight, workHeld, prodHeld] using hp) hp
  case ret r c =>
    split at h
    · rename_i hr
      simp only [Option.some.injEq, Prod.mk.injEq] at h
      obtain ⟨rfl, rfl⟩ := h
      cases c with
      | none => exact .silent rfl rfl
      | some c => exact .lost c r rfl hr rfl rfl
    · cases c <;> simp only [Option.some.injEq, Prod.mk.injEq] at h <;> obtain ⟨rfl, rfl⟩ := h
      · exact .silent rfl rfl
      · exact .compose _ rfl rfl (by simp) rfl
  all_goals
    (try split at h) <;> simp only [Option.some.injEq, Prod.mk.injEq, reduceCtorEq] at h <;>
      obtain ⟨rfl, rfl⟩ := h
  case readExit => exact .silent (by cases exit <;> rfl) rfl
  all_goals exact .silent rfl rfl

/-- A signal or an end of a wait moves no composition. -/
theorem wake_effect {w : WorkPc α} (hw : w = s.work ∨ w = wakeWork s.work ∨ (s.work = .waiting ∧
    w = .woken) ∨ (s.work = .composing ∧ w = .top)) (e : Bool) :
    Effect s a { s with exit := e, work := w } [] := by
  obtain ⟨lock, einkLock, exit, queue, prod, work⟩ := s
  refine .silent ?_ rfl
  obtain rfl | rfl | ⟨h, rfl⟩ | ⟨h, rfl⟩ := hw
  · rfl
  · cases work <;> rfl
  all_goals simp only at h; subst h; rfl

/-- **The hand-off is a pipe.** Every step has one of the effects. -/
theorem step_effect (h : s.step a = some (s', es)) : Effect s a s' es := by
  cases a with
  | call c =>
    simp only [step] at h
    split at h <;> simp only [Option.some.injEq, Prod.mk.injEq, reduceCtorEq] at h
    rename_i hp
    obtain ⟨rfl, rfl⟩ := h
    exact .call c rfl hp rfl (inFlight_lock hp c)
  | prod => exact prodStep_effect h
  | prodWake =>
    simp only [step] at h
    split at h <;> simp only [Option.some.injEq, Prod.mk.injEq, reduceCtorEq] at h
    rename_i hp
    obtain ⟨rfl, rfl⟩ := h
    exact .silent (by simp [inFlight, workHeld, prodHeld, hp]) (by simp [prodHeld, hp])
  | work => exact workStep_effect h
  | workWake =>
    simp only [step] at h
    split at h <;> simp only [Option.some.injEq, Prod.mk.injEq, reduceCtorEq] at h
    rename_i hw
    obtain ⟨rfl, rfl⟩ := h
    exact wake_effect (.inr (.inr (.inl ⟨hw, rfl⟩))) s.exit
  | composed =>
    simp only [step] at h
    split at h <;> simp only [Option.some.injEq, Prod.mk.injEq, reduceCtorEq] at h
    rename_i hw
    obtain ⟨rfl, rfl⟩ := h
    exact wake_effect (.inr (.inr (.inr ⟨hw, rfl⟩))) s.exit
  | signal | exit =>
    simp only [step] at h
    split at h <;> simp only [Option.some.injEq, Prod.mk.injEq, reduceCtorEq] at h
    obtain ⟨rfl, rfl⟩ := h
    exact wake_effect (.inr (.inl rfl)) _

/-- The worker is in `Compose` from the event on that says so, until `Compose` returns. -/
theorem step_composing (h : s.step a = some (s', es)) (ha : a ≠ .composed)
    (he : ∀ c, es ≠ [.compose c]) : s'.work = .composing ↔ s.work = .composing := by
  have hwake : wakeWork s.work = .composing ↔ s.work = .composing := by
    cases s.work <;> simp [wakeWork]
  cases a with
  | composed => exact absurd rfl ha
  | prod =>
    simp only [step, prodStep] at h
    split at h <;> (try split at h) <;>
      simp only [Option.some.injEq, Prod.mk.injEq, reduceCtorEq] at h <;> obtain ⟨rfl, -⟩ := h
    all_goals first | exact hwake | exact Iff.rfl
  | work =>
    simp only [step, workStep] at h
    split at h <;> rename_i hw <;> rw [hw] <;> (try split at h) <;> (try split at h) <;>
      simp only [Option.some.injEq, Prod.mk.injEq, reduceCtorEq] at h <;> obtain ⟨rfl, rfl⟩ := h
    all_goals first | simp; done | exact absurd rfl (he _)
  | call c | prodWake | workWake | signal | exit =>
    simp only [step] at h
    split at h <;> simp only [Option.some.injEq, Prod.mk.injEq, reduceCtorEq] at h
    obtain ⟨rfl, -⟩ := h
    first | exact hwake | exact Iff.rfl | simp [*]

/-! ## Queue safety -/

/-- No step is `Worker::Exit`. -/
def noExit (_ : Handoff α) (a : Act α) : Prop := a ≠ .exit

instance [DecidableEq α] (s : Handoff α) (a : Act α) : Decidable (noExit s a) :=
  inferInstanceAs (Decidable (a ≠ .exit))

/-- `wait_ret`, where `Routine` has it. -/
def waitRet (s : Handoff α) : Option Int :=
  match s.work with
  | .einkLock r | .pop r | .einkUnlock r _ | .unlock r _ | .ret r _ => some r
  | _ => none

/-- Without `Exit`, `Routine` always gets to `Compose`, and a push finds room in the queue. -/
structure Safe (s : Handoff α) : Prop where
  exit : s.exit = false
  ret : ∀ r, s.waitRet = some r → r = 0
  depth : s.queue.length ≤ kMaxQueueDepth
  room : ∀ c, s.prod = .push c → s.queue.length < kMaxQueueDepth

theorem Safe.init : Safe ({} : Handoff α) :=
  ⟨rfl, fun _ h => (by cases h), Nat.zero_le _, fun _ h => (by cases h)⟩

theorem Safe.prodStep (hi : Safe s) (h : s.prodStep = some (s', es)) : Safe s' := by
  obtain ⟨lock, einkLock, exit, queue, prod, work⟩ := s
  obtain ⟨he, hr, hd, hroom⟩ := hi
  cases prod <;> simp only [Handoff.prodStep] at h <;> (try split at h) <;>
    simp only [Option.some.injEq, Prod.mk.injEq, reduceCtorEq] at h <;> obtain ⟨rfl, -⟩ := h
  case test.isFalse c hn => exact ⟨he, hr, hd, fun _ _ => Nat.lt_of_not_le hn⟩
  case push c =>
    refine ⟨he, hr, ?_, fun _ h => by cases h⟩
    have := hroom c rfl
    simp only [List.length_append, List.length_cons, List.length_nil]
    exact this
  case signal =>
    refine ⟨he, fun r hw => ?_, hd, fun _ h => by cases h⟩
    cases work <;> first | cases hw; done | exact hr r hw
  all_goals exact ⟨he, hr, hd, fun _ h => by cases h⟩

theorem Safe.workStep (hi : Safe s) (h : s.workStep = some (s', es)) : Safe s' := by
  obtain ⟨lock, einkLock, exit, queue, prod, work⟩ := s
  obtain ⟨he, hr, hd, hroom⟩ := hi
  simp only at he
  subst he
  cases work <;> simp only [Handoff.workStep] at h
  case pop r =>
    cases queue with
    | nil =>
      simp only [Option.some.injEq, Prod.mk.injEq] at h
      obtain ⟨rfl, -⟩ := h
      exact ⟨rfl, hr, hd, hroom⟩
    | cons c q =>
      simp only [Option.some.injEq, Prod.mk.injEq] at h
      obtain ⟨rfl, -⟩ := h
      refine ⟨rfl, hr, Nat.le_of_succ_le hd, fun c' hp => ?_⟩
      cases prod <;> cases hp
      exact Nat.lt_of_succ_lt (hroom c' rfl)
  case ret r c =>
    obtain rfl := hr r rfl
    cases c <;> simp at h <;> obtain ⟨rfl, -⟩ := h <;>
      exact ⟨rfl, fun _ h => (by cases h), hd, hroom⟩
  all_goals
    (try split at h) <;> simp only [Option.some.injEq, Prod.mk.injEq, reduceCtorEq] at h <;>
      obtain ⟨rfl, -⟩ := h
  case wait.isTrue he => cases he
  case woken.isTrue => exact ⟨rfl, fun r hw => by cases hw; rfl, hd, hroom⟩
  case test.isFalse => exact ⟨rfl, fun r hw => by cases hw; rfl, hd, hroom⟩
  all_goals exact ⟨rfl, fun r hw => hr r hw, hd, hroom⟩

theorem Safe.step (hi : Safe s) (hok : noExit s a) (h : s.step a = some (s', es)) : Safe s' := by
  cases a with
  | prod => exact hi.prodStep h
  | work => exact hi.workStep h
  | exit => exact absurd rfl hok
  | call c | prodWake =>
    simp only [Handoff.step] at h
    split at h <;> simp only [Option.some.injEq, Prod.mk.injEq, reduceCtorEq] at h
    obtain ⟨rfl, -⟩ := h
    exact ⟨hi.exit, hi.ret, hi.depth, fun _ h => by cases h⟩
  | workWake | composed =>
    simp only [Handoff.step] at h
    split at h <;> simp only [Option.some.injEq, Prod.mk.injEq, reduceCtorEq] at h
    obtain ⟨rfl, -⟩ := h
    exact ⟨hi.exit, fun _ h => (by cases h), hi.depth, hi.room⟩
  | signal =>
    simp only [Handoff.step] at h
    split at h <;> simp only [Option.some.injEq, Prod.mk.injEq, reduceCtorEq] at h
    obtain ⟨rfl, -⟩ := h
    refine ⟨hi.exit, fun r hw => hi.ret r ?_, hi.depth, hi.room⟩
    obtain ⟨lock, einkLock, exit, queue, prod, work⟩ := s
    cases work <;> first | cases hw; done | exact hw

theorem safe_run (hr : (system α).Run noExit tr s) : Safe s := by
  refine Trace.System.Inductive.run (I := fun _ s => Safe s) ⟨?_, ?_⟩ hr
  · rintro s tr ⟨rfl, rfl⟩
    exact Safe.init
  · intro s a s' es tr hi hok h
    exact hi.step hok h

/-- The pipe's account: what went in is what came out and what is still in it. -/
theorem pipe_run (hr : (system α).Run noExit tr s) :
    pushed tr ++ s.prodHeld = composedWith tr ++ s.inFlight := by
  refine Trace.System.Run.induction (J := fun _ s => Safe s)
    (I := fun tr s => pushed tr ++ s.prodHeld = composedWith tr ++ s.inFlight)
    (fun _ _ => safe_run) ?_ ?_ hr
  · rintro s tr ⟨rfl, rfl⟩
    rfl
  · intro s a s' es tr hs ih hok h
    unfold pushed composedWith at ih ⊢
    rw [Trace.collect_append, Trace.collect_append]
    cases step_effect h with
    | silent hf hp => simpa [hf, hp] using ih
    | call c _ h0 h1 hf =>
      simp only [prodHeld, h0, List.append_nil] at ih
      simp [prodHeld, h1, hf, ih]
    | push c hf h0 h1 =>
      rw [h0] at ih
      simpa [h1, hf, Ev.isPush, Ev.isCompose] using ih
    | compose c hf hp _ _ =>
      rw [hf] at ih
      simpa [hp, Ev.isPush, Ev.isCompose] using ih
    | lost c r hw hne _ _ => exact absurd (hs.ret r (by simp [waitRet, hw])) hne

/-- **Queue safety.** In every run without `Exit`, the queue holds at most `kMaxQueueDepth`
compositions, and the compositions passed to `Compose`, then the one that the worker has popped,
then the queue, are the compositions pushed. -/
theorem queue_safety (hr : (system α).Run noExit tr s) :
    s.queue.length ≤ kMaxQueueDepth ∧ composedWith tr ++ s.workHeld ++ s.queue = pushed tr := by
  refine ⟨(safe_run hr).depth, ?_⟩
  have h := pipe_run hr
  rw [inFlight, ← List.append_assoc, ← List.append_assoc] at h
  exact (List.append_cancel_right h).symm

/-- `queue_safety` in a run in which the worker has popped the first composition, the second one
is in the queue, and `QueueComposite` waits with the third. -/
theorem queue_safety_three : ∃ tr s, (system Nat).Run noExit tr s ∧
    s.workHeld = [1] ∧ s.queue = [2] ∧ s.prod = .waiting 3 ∧
    s.queue.length ≤ kMaxQueueDepth ∧ composedWith tr ++ s.workHeld ++ s.queue = pushed tr := by
  obtain ⟨tr, s, hr, hp⟩ := Trace.System.exists_run (system Nat) noExit ⟨rfl, rfl⟩
    [.call 1, .prod, .prod, .prod, .prod, .prod, .prod, .prod,
      .work, .work, .work, .work, .work, .work, .work, .work,
      .call 2, .prod, .prod, .prod, .prod, .prod, .prod, .prod,
      .call 3, .prod, .prod, .prod, .prod, .prod]
    (fun _ s => s.workHeld == [1] && s.queue == [2] && s.prod == .waiting 3) (by decide +kernel)
  simp only [Bool.and_eq_true, beq_iff_eq] at hp
  obtain ⟨⟨h1, h2⟩, h3⟩ := hp
  exact ⟨tr, s, hr, h1, h2, h3, queue_safety hr⟩

/-! ## The locks -/

end Handoff

variable {α : Type}

/-- The places of `QueueComposite` with `lock_`. -/
def ProdPc.hasLock : ProdPc α → Bool
  | .einkLock _ | .test _ | .unlockWait _ | .push _ | .einkUnlock | .signal | .unlock => true
  | _ => false

/-- The places of `QueueComposite` with `eink_lock_`. -/
def ProdPc.hasEink : ProdPc α → Bool
  | .test _ | .unlockWait _ | .wait _ | .relock _ | .push _ | .einkUnlock => true
  | _ => false

/-- The places of the worker thread with `lock_`. -/
def WorkPc.hasLock : WorkPc α → Bool
  | .readExit | .test | .wait | .einkLock _ | .pop _ | .einkUnlock .. | .unlock .. => true
  | _ => false

/-- The places of the worker thread with `eink_lock_`. -/
def WorkPc.hasEink : WorkPc α → Bool
  | .pop _ | .einkUnlock .. => true
  | _ => false

/-- The place of `QueueComposite` after its wait and before it has `lock_` again. -/
def ProdPc.awake : ProdPc α → Bool
  | .woken _ | .relock _ => true
  | _ => false

namespace Handoff

variable {s s' : Handoff α} {a : Act α} {es tr : List (Ev α)}

@[simp] theorem hasLock_wakeWork (p : WorkPc α) : (wakeWork p).hasLock = p.hasLock := by
  cases p <;> rfl

@[simp] theorem hasEink_wakeWork (p : WorkPc α) : (wakeWork p).hasEink = p.hasEink := by
  cases p <;> rfl

@[simp] theorem hasLock_wakeProd (p : ProdPc α) : (wakeProd p).hasLock = p.hasLock := by
  cases p <;> rfl

@[simp] theorem hasEink_wakeProd (p : ProdPc α) : (wakeProd p).hasEink = p.hasEink := by
  cases p <;> rfl

/-- Each mutex is owned by the thread whose place says so. -/
structure Locks (s : Handoff α) : Prop where
  prodLock : s.lock = some .producer ↔ s.prod.hasLock = true
  workLock : s.lock = some .worker ↔ s.work.hasLock = true
  prodEink : s.einkLock = some .producer ↔ s.prod.hasEink = true
  workEink : s.einkLock = some .worker ↔ s.work.hasEink = true

theorem Locks.prodStep (hi : Locks s) (h : s.prodStep = some (s', es)) : Locks s' := by
  obtain ⟨lock, einkLock, exit, queue, prod, work⟩ := s
  obtain ⟨h1, h2, h3, h4⟩ := hi
  cases prod <;> simp only [Handoff.prodStep] at h <;> (try split at h) <;>
    simp only [Option.some.injEq, Prod.mk.injEq, reduceCtorEq] at h <;> obtain ⟨rfl, -⟩ := h
  all_goals
    simp only [ProdPc.hasLock, ProdPc.hasEink, iff_true, iff_false, Bool.false_eq_true] at h1 h3
    constructor <;> simp_all [ProdPc.hasLock, ProdPc.hasEink]

theorem Locks.workStep (hi : Locks s) (h : s.workStep = some (s', es)) : Locks s' := by
  obtain ⟨lock, einkLock, exit, queue, prod, work⟩ := s
  obtain ⟨h1, h2, h3, h4⟩ := hi
  cases work <;> simp only [Handoff.workStep] at h <;> (try split at h) <;> (try split at h) <;>
    simp only [Option.some.injEq, Prod.mk.injEq, reduceCtorEq] at h <;> obtain ⟨rfl, -⟩ := h
  case readExit => cases exit <;> constructor <;> simp_all [WorkPc.hasLock, WorkPc.hasEink]
  all_goals
    simp only [WorkPc.hasLock, WorkPc.hasEink, iff_true, iff_false, Bool.false_eq_true] at h2 h4
    constructor <;> simp_all [WorkPc.hasLock, WorkPc.hasEink]

theorem Locks.step (hi : Locks s) (h : s.step a = some (s', es)) : Locks s' := by
  obtain ⟨h1, h2, h3, h4⟩ := hi
  cases a with
  | prod => exact Locks.prodStep ⟨h1, h2, h3, h4⟩ h
  | work => exact Locks.workStep ⟨h1, h2, h3, h4⟩ h
  | call c | prodWake =>
    simp only [Handoff.step] at h
    split at h <;> simp only [Option.some.injEq, Prod.mk.injEq, reduceCtorEq] at h
    rename_i hp
    obtain ⟨rfl, -⟩ := h
    rw [hp] at h1 h3
    exact ⟨h1, h2, h3, h4⟩
  | workWake | composed =>
    simp only [Handoff.step] at h
    split at h <;> simp only [Option.some.injEq, Prod.mk.injEq, reduceCtorEq] at h
    rename_i hw
    obtain ⟨rfl, -⟩ := h
    rw [hw] at h2 h4
    exact ⟨h1, h2, h3, h4⟩
  | signal | exit =>
    simp only [Handoff.step] at h
    split at h <;> simp only [Option.some.injEq, Prod.mk.injEq, reduceCtorEq] at h
    obtain ⟨rfl, -⟩ := h
    exact ⟨h1, by simpa using h2, h3, by simpa using h4⟩

theorem locks_run {ok : Handoff α → Act α → Prop} (hr : (system α).Run ok tr s) : Locks s := by
  refine Trace.System.Inductive.run (I := fun _ s => Locks s) ⟨?_, ?_⟩ hr
  · rintro s tr ⟨rfl, rfl⟩
    constructor <;> simp [ProdPc.hasLock, ProdPc.hasEink, WorkPc.hasLock, WorkPc.hasEink]
  · intro s a s' es tr hi _ h
    exact hi.step h

/-! ## The lock order -/

/-- The steps of the two threads: no call from a third one. -/
def twoThreads (_ : Handoff α) (a : Act α) : Prop := a ≠ .signal ∧ a ≠ .exit

/-- The steps of the two threads in which the wait of `QueueComposite` ends only with a signal, and
the worker's wait does not end without one while `QueueComposite` is awake. -/
def signalled (s : Handoff α) (a : Act α) : Prop :=
  twoThreads s a ∧ a ≠ .prodWake ∧ (a = .workWake → s.prod.awake = false)

instance [DecidableEq α] (s : Handoff α) (a : Act α) : Decidable (twoThreads s a) :=
  inferInstanceAs (Decidable (a ≠ .signal ∧ a ≠ .exit))

instance [DecidableEq α] (s : Handoff α) (a : Act α) : Decidable (signalled s a) :=
  inferInstanceAs (Decidable (_ ∧ _ ∧ (_ → _)))

/-- The worker is on its way to `eink_lock_`, with `lock_` or next to take it. -/
def goesEink : WorkPc α → Bool
  | .woken | .einkLock _ | .pop _ => true
  | _ => false

/-- What keeps the two lock orders apart. -/
structure Order (s : Handoff α) : Prop where
  /-- `QueueComposite` waits for room only while there is none. -/
  full : ∀ c, s.prod = .unlockWait c ∨ s.prod = .wait c ∨ s.prod = .waiting c → s.queue ≠ []
  /-- It is woken by a pop, which empties the queue. -/
  empty : s.prod.awake = true → s.queue = []
  /-- After that pop the worker waits at `cond_` before it takes `eink_lock_` again. -/
  order : s.prod.awake = true → goesEink s.work = false

theorem Order.init : Order ({} : Handoff α) := by
  constructor <;> simp [ProdPc.awake]

theorem Order.prodStep (hi : Order s) (h : s.prodStep = some (s', es)) : Order s' := by
  obtain ⟨lock, einkLock, exit, queue, prod, work⟩ := s
  obtain ⟨h1, h2, h3⟩ := hi
  cases prod <;> simp only [Handoff.prodStep] at h <;> (try split at h) <;>
    simp only [Option.some.injEq, Prod.mk.injEq, reduceCtorEq] at h <;> obtain ⟨rfl, -⟩ := h
  case test.isTrue c hfull =>
    refine ⟨fun _ _ => List.ne_nil_of_length_pos hfull, ?_, ?_⟩ <;> simp [ProdPc.awake]
  case woken c => exact ⟨fun _ h => (by simp at h), h2, h3⟩
  case unlockWait c | wait c =>
    refine ⟨fun _ _ => h1 c (by simp), ?_, ?_⟩ <;> simp [ProdPc.awake]
  all_goals constructor <;> simp [ProdPc.awake]

theorem Order.workStep (hs : Safe s) (hl : Locks s) (hi : Order s)
    (h : s.workStep = some (s', es)) : Order s' := by
  obtain ⟨lock, einkLock, exit, queue, prod, work⟩ := s
  obtain ⟨h1, h2, h3⟩ := hi
  obtain ⟨he, -, hd, -⟩ := hs
  cases work <;> simp only [Handoff.workStep] at h
  case pop r =>
    -- the worker has `eink_lock_`, so `QueueComposite` is blocked in its wait or not near it
    have hp : prod.hasEink = false := by
      have hw := hl.workEink.2 rfl
      refine Bool.eq_false_iff.2 fun ht => ?_
      rw [hl.prodEink.2 ht] at hw
      cases hw
    have ha : prod.awake = false := by
      cases ha : prod.awake with
      | false => rfl
      | true => exact absurd (h3 ha) (by simp [goesEink])
    cases queue with
    | nil =>
      simp only [Option.some.injEq, Prod.mk.injEq] at h
      obtain ⟨rfl, -⟩ := h
      exact ⟨h1, h2, fun _ => rfl⟩
    | cons c q =>
      simp only [Option.some.injEq, Prod.mk.injEq] at h
      obtain ⟨rfl, -⟩ := h
      have hq : q = [] := List.eq_nil_of_length_eq_zero (by
        simpa [kMaxQueueDepth] using hd)
      refine ⟨fun c' hc => ?_, fun _ => hq, fun _ => rfl⟩
      cases prod <;> simp [wakeProd, ProdPc.hasEink] at hc hp
  all_goals (try split at h) <;> (try split at h) <;>
    simp only [Option.some.injEq, Prod.mk.injEq, reduceCtorEq] at h <;> obtain ⟨rfl, -⟩ := h
  case test.isFalse hq =>
    refine ⟨h1, h2, fun ha => ?_⟩
    exact absurd (h2 ha) (by simpa using hq)
  case wait.isTrue hx => exact absurd he (by simp [hx])
  case woken.isTrue.isTrue | woken.isTrue.isFalse | einkLock.isTrue =>
    exact ⟨h1, h2, fun ha => absurd (h3 ha) (by simp [goesEink])⟩
  case readExit => exact ⟨h1, h2, fun _ => by cases exit <;> rfl⟩
  all_goals exact ⟨h1, h2, fun _ => rfl⟩

theorem Order.step (hs : Safe s) (hl : Locks s) (hi : Order s) (hok : signalled s a)
    (h : s.step a = some (s', es)) : Order s' := by
  cases a with
  | prod => exact hi.prodStep h
  | work => exact hi.workStep hs hl h
  | prodWake => exact absurd rfl hok.2.1
  | signal => exact absurd rfl hok.1.1
  | exit => exact absurd rfl hok.1.2
  | call c =>
    simp only [Handoff.step] at h
    split at h <;> simp only [Option.some.injEq, Prod.mk.injEq, reduceCtorEq] at h
    obtain ⟨rfl, -⟩ := h
    constructor <;> simp [ProdPc.awake]
  | workWake =>
    simp only [Handoff.step] at h
    split at h <;> simp only [Option.some.injEq, Prod.mk.injEq, reduceCtorEq] at h
    obtain ⟨rfl, -⟩ := h
    exact ⟨hi.full, hi.empty, fun ha => absurd (hok.2.2 rfl) (by simpa using ha)⟩
  | composed =>
    simp only [Handoff.step] at h
    split at h <;> simp only [Option.some.injEq, Prod.mk.injEq, reduceCtorEq] at h
    obtain ⟨rfl, -⟩ := h
    exact ⟨hi.full, hi.empty, fun _ => rfl⟩

theorem order_run (hr : (system α).Run signalled tr s) : Order s := by
  refine Trace.System.Run.induction (J := fun _ s => Safe s ∧ Locks s)
    (I := fun _ s => Order s)
    (fun _ _ h => ⟨safe_run (h.mono fun _ _ hok => hok.1.2), locks_run h⟩) ?_ ?_ hr
  · rintro s tr ⟨rfl, rfl⟩
    exact Order.init
  · intro s a s' es tr hj hi hok h
    exact hi.step hj.1 hj.2 hok h

/-- **No deadlock** in a run whose waits end as `signalled` says. -/
theorem no_deadlock (hr : (system α).Run signalled tr s) : ¬ Deadlock s := by
  rintro ⟨-, ⟨c, hp⟩, -, r, hw⟩
  have := (order_run hr).order (by rw [hp]; rfl)
  rw [hw] at this
  cases this

/-- `no_deadlock` in a run in which `QueueComposite` finds the queue full, waits, and is woken by
the worker's pop: it holds `eink_lock_` and is at its second `Lock()`. -/
theorem no_deadlock_relock : ∃ tr s, (system Nat).Run signalled tr s ∧ s.prod = .relock 2 ∧
    ¬ Deadlock s := by
  obtain ⟨tr, s, hr, hp⟩ := Trace.System.exists_run (system Nat) signalled ⟨rfl, rfl⟩
    [.call 1, .prod, .prod, .prod, .prod, .prod, .prod, .prod,
      .call 2, .prod, .prod, .prod, .prod, .prod,
      .work, .work, .work, .work, .work, .work, .work, .prod]
    (fun _ s => s.prod == .relock 2) (by decide +kernel)
  exact ⟨tr, s, hr, by simpa using hp, no_deadlock hr⟩

/-- The deadlock: `QueueComposite` finds the queue full and waits; its wait ends without a signal
after the worker took `lock_` for the composition in the queue. -/
theorem spurious_deadlock : ¬ ∀ tr (s : Handoff Nat), (system Nat).Run twoThreads tr s →
    ¬ Deadlock s := by
  intro h
  obtain ⟨tr, s, hr, hp⟩ := Trace.System.exists_run (system Nat) twoThreads ⟨rfl, rfl⟩
    [.call 1, .prod, .prod, .prod, .prod, .prod, .prod, .prod,
      .call 2, .prod, .prod, .prod, .prod, .prod,
      .work, .work, .work, .work, .prodWake, .prod]
    (fun _ s => s.einkLock == some .producer && s.prod == .relock 2 &&
      s.lock == some .worker && s.work == .einkLock 0) (by decide +kernel)
  simp only [Bool.and_eq_true, beq_iff_eq] at hp
  obtain ⟨⟨⟨h1, h2⟩, h3⟩, h4⟩ := hp
  exact h tr s hr ⟨h1, ⟨2, h2⟩, h3, 0, h4⟩

end Handoff

end EinkHwc
