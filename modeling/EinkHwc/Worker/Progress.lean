import EinkHwc.Trace.Progress
import EinkHwc.Worker.HandoffLemmas

/-!
# The hand-off gets done

What the two threads do on their own: no new call, no wake-up without a signal (`own`).

- **No wake-up is lost** (`Heard`). Where the worker waits and a composition is queued, the signal
  for it is still to come; where `QueueComposite` waits, the queue is full. This holds in every run
  without `Exit`, whatever wakes the threads.
- **Where it can stop** (`stuck_quiescent`): in the deadlock, or with nothing left to do.
- **How long it takes** (`rank`): each step of a thread decreases a number, which counts what the
  thread has to do before it waits, and what it makes the other one do. A composition in the queue
  counts for the round of the worker that takes it.
- **Delivery** (`delivers`): without the deadlock, the two threads stop after at most 69 steps, and
  by then `Compose` was called with every composition, in order.
-/

namespace EinkHwc

namespace Handoff

open Trace

variable {α : Type} {s s' : Handoff α} {a : Act α} {es tr : List (Ev α)} {n : Nat}

/-- The steps that the two threads make on their own. -/
def own : Act α → Prop
  | .prod | .work | .composed => True
  | _ => False

instance : DecidablePred (own (α := α)) := fun a => by
  cases a <;> unfold own <;> infer_instance

theorem own_signalled (s : Handoff α) (a : Act α) (h : own a) : signalled s a := by
  cases a <;> first | exact h.elim | simp [signalled, twoThreads]

theorem own_noExit (s : Handoff α) (a : Act α) (h : own a) : noExit s a :=
  (own_signalled s a h).1.2

/-! ## Wake-ups -/

/-- Each thread that waits has nothing to do, or is about to hear of it. -/
structure Heard (s : Handoff α) : Prop where
  /-- The worker goes to its wait with the queue empty. -/
  wait : s.work = .wait → s.queue = []
  waiting : s.work = .waiting → s.queue ≠ [] → s.prod = .einkUnlock ∨ s.prod = .signal
  full : ∀ c, s.prod = .unlockWait c ∨ s.prod = .wait c ∨ s.prod = .waiting c → s.queue ≠ []
  live : s.work ≠ .exited

theorem Heard.init : Heard ({} : Handoff α) := by
  constructor <;> simp

/-- `QueueComposite` pushes with `lock_` held, so the worker is not between its test of the queue
and its wait. -/
theorem Locks.push_not_wait {c : α} (hl : Locks s) (hp : s.prod = .push c) : s.work ≠ .wait := by
  intro hw
  have h1 := hl.prodLock.2 (by rw [hp]; rfl)
  have h2 := hl.workLock.2 (by rw [hw]; rfl)
  rw [h1] at h2
  cases h2

theorem Heard.prodStep (hl : Locks s) (hi : Heard s) (h : s.prodStep = some (s', es)) :
    Heard s' := by
  have hpush := fun c => hl.push_not_wait (c := c)
  obtain ⟨lock, einkLock, exit, queue, prod, work⟩ := s
  obtain ⟨h1, h2, h3, h4⟩ := hi
  cases prod <;> simp only [Handoff.prodStep] at h <;> (try split at h) <;>
    simp only [Option.some.injEq, Prod.mk.injEq, reduceCtorEq] at h <;> obtain ⟨rfl, -⟩ := h
  case test.isTrue c hfull =>
    exact ⟨h1, by simpa using h2, fun _ _ => List.ne_nil_of_length_pos hfull, h4⟩
  case unlockWait c | wait c =>
    exact ⟨h1, by simpa using h2, fun _ _ => h3 c (by simp), h4⟩
  case push c =>
    exact ⟨fun hw => absurd hw (hpush c rfl), fun _ _ => .inl rfl, fun _ h => by simp at h, h4⟩
  case einkUnlock => exact ⟨h1, fun _ _ => .inr rfl, fun _ h => by simp at h, h4⟩
  case signal =>
    refine ⟨fun hw => h1 ?_, fun hw => ?_, fun _ h => by simp at h, fun hw => h4 ?_⟩
    all_goals cases work <;> first | exact hw | cases hw
  all_goals exact ⟨h1, by simpa using h2, fun _ h => by simp at h, h4⟩

theorem Heard.workStep (hs : Safe s) (hl : Locks s) (hi : Heard s)
    (h : s.workStep = some (s', es)) : Heard s' := by
  obtain ⟨lock, einkLock, exit, queue, prod, work⟩ := s
  obtain ⟨h1, h2, h3, h4⟩ := hi
  obtain rfl : exit = false := hs.exit
  cases work <;> simp only [Handoff.workStep] at h
  case pop r =>
    cases queue with
    | nil =>
      simp only [Option.some.injEq, Prod.mk.injEq] at h
      obtain ⟨rfl, -⟩ := h
      exact ⟨by simp, by simp, h3, by simp⟩
    | cons c q =>
      simp only [Option.some.injEq, Prod.mk.injEq] at h
      obtain ⟨rfl, -⟩ := h
      -- the worker has `eink_lock_`, so `QueueComposite` is not before its wait, and is woken
      have hp : prod.hasEink = false := by
        refine Bool.eq_false_iff.2 fun ht => ?_
        have hw := hl.workEink.2 rfl
        rw [hl.prodEink.2 ht] at hw
        cases hw
      refine ⟨by simp, by simp, fun c' hc => ?_, by simp⟩
      cases prod <;> simp [wakeProd, ProdPc.hasEink] at hc hp
  all_goals (try split at h) <;> (try split at h) <;>
    simp only [Option.some.injEq, Prod.mk.injEq, reduceCtorEq] at h <;> obtain ⟨rfl, -⟩ := h
  case readExit.isTrue h | wait.isTrue h => cases h
  case test.isTrue hq => exact ⟨fun _ => by simpa using hq, by simp, h3, by simp⟩
  case wait.isFalse => exact ⟨by simp, fun _ hq => absurd (h1 rfl) hq, h3, by simp⟩
  all_goals exact ⟨by simp, by simp, h3, by simp⟩

theorem Heard.step (hs : Safe s) (hl : Locks s) (hi : Heard s) (hok : noExit s a)
    (h : s.step a = some (s', es)) : Heard s' := by
  cases a with
  | prod => exact hi.prodStep hl h
  | work => exact hi.workStep hs hl h
  | exit => exact absurd rfl hok
  | call c | prodWake =>
    simp only [Handoff.step] at h
    split at h <;> simp only [Option.some.injEq, Prod.mk.injEq, reduceCtorEq] at h
    rename_i hp
    obtain ⟨rfl, -⟩ := h
    refine ⟨hi.wait, fun hw hq => ?_, fun _ h => by simp at h, hi.live⟩
    rcases hi.waiting hw hq with h | h <;> rw [hp] at h <;> cases h
  | workWake | composed =>
    simp only [Handoff.step] at h
    split at h <;> simp only [Option.some.injEq, Prod.mk.injEq, reduceCtorEq] at h
    obtain ⟨rfl, -⟩ := h
    exact ⟨by simp, by simp, hi.full, by simp⟩
  | signal =>
    simp only [Handoff.step] at h
    split at h <;> simp only [Option.some.injEq, Prod.mk.injEq, reduceCtorEq] at h
    obtain ⟨rfl, -⟩ := h
    obtain ⟨lock, einkLock, exit, queue, prod, work⟩ := s
    obtain ⟨h1, h2, h3, h4⟩ := hi
    refine ⟨fun hw => h1 ?_, fun hw => ?_, h3, fun hw => h4 ?_⟩
    all_goals cases work <;> first | exact hw | cases hw

theorem heard_run (hr : (system α).Run noExit tr s) : Heard s := by
  refine System.Run.induction (J := fun _ s => Safe s ∧ Locks s) (I := fun _ s => Heard s)
    (fun _ _ h => ⟨safe_run h, locks_run h⟩) ?_ ?_ hr
  · rintro s tr ⟨rfl, rfl⟩
    exact Heard.init
  · intro s a s' es tr hj hi hok h
    exact hi.step hj.1 hj.2 hok h

/-! ## Where the two threads can stop -/

/-- There is nothing left to do: no call, nothing queued, and the worker waits. -/
structure Quiescent (s : Handoff α) : Prop where
  prod : s.prod = .idle
  work : s.work = .waiting
  queue : s.queue = []

theorem Quiescent.inFlight (h : Quiescent s) : s.inFlight = [] := by
  simp only [Handoff.inFlight, workHeld, prodHeld, h.prod, h.work, h.queue, List.append_nil]

theorem stuck_iff : (system α).Stuck own s ↔
    s.prodStep = none ∧ s.workStep = none ∧ s.work ≠ .composing := by
  constructor
  · intro h
    refine ⟨h .prod trivial, h .work trivial, fun hw => ?_⟩
    have hc := h .composed trivial
    simp only [system, step, hw, reduceCtorEq] at hc
  · rintro ⟨h1, h2, h3⟩ a ha
    cases a with
    | prod => exact h1
    | work => exact h2
    | composed =>
      cases hw : s.work with
      | composing => exact absurd hw h3
      | _ => simp only [system, step, hw]
    | _ => exact ha.elim

/-- A thread that is blocked on `lock_`, where the other one is not in the deadlock, waits for a
thread that can step. -/
theorem Locks.lock_free (hl : Locks s) (hp : s.prodStep = none) (hw : s.work.hasLock = false)
    (he : s.work.hasEink = false) : s.lock = none := by
  cases hk : s.lock with
  | none => rfl
  | some t =>
    cases t with
    | worker => rw [hl.workLock.1 hk] at hw; cases hw
    | producer =>
      have hlock := hl.prodLock.1 hk
      obtain ⟨lock, einkLock, exit, queue, prod, work⟩ := s
      cases prod <;> simp only [ProdPc.hasLock, Bool.false_eq_true] at hlock
      case einkLock c =>
        -- `QueueComposite` waits for `eink_lock_`, which nobody has
        simp only [Handoff.prodStep, ite_eq_right_iff, reduceCtorEq, imp_false] at hp
        cases einkLock with
        | none => exact absurd rfl hp
        | some t =>
          cases t with
          | worker => rw [hl.workEink.1 rfl] at he; cases he
          | producer => exact absurd (hl.prodEink.1 rfl) (by simp [ProdPc.hasEink])
      all_goals
        simp only [Handoff.prodStep] at hp
        (try split at hp) <;> cases hp

theorem Locks.eink_cases (hl : Locks s) (hp : s.prodStep = none) (he : s.work.hasEink = false) :
    s.einkLock = none ∨
      (s.einkLock = some .producer ∧ ∃ c, s.prod = .relock c ∧ s.lock ≠ none) := by
  cases hk : s.einkLock with
  | none => exact .inl rfl
  | some t =>
    cases t with
    | worker => rw [hl.workEink.1 hk] at he; cases he
    | producer =>
      have heink := hl.prodEink.1 hk
      obtain ⟨lock, einkLock, exit, queue, prod, work⟩ := s
      cases prod <;> simp only [ProdPc.hasEink, Bool.false_eq_true] at heink
      case relock c =>
        refine .inr ⟨rfl, c, rfl, fun hn => ?_⟩
        obtain rfl : lock = none := hn
        cases hp
      all_goals
        simp only [Handoff.prodStep] at hp
        (try split at hp) <;> cases hp

/-- Where neither thread can step, there is nothing left to do, or it is the deadlock. -/
theorem stuck_cases (hs : Safe s) (hl : Locks s) (hh : Heard s) (h : (system α).Stuck own s) :
    Quiescent s ∨ Deadlock s := by
  obtain ⟨hp, hw, hc⟩ := stuck_iff.1 h
  have hfree := hl.lock_free hp
  have heink := hl.eink_cases hp
  cases hk : s.work with
  | waiting =>
    -- the worker waits: `QueueComposite` is at none of its places
    rw [hk] at hfree heink
    have hlock := hfree rfl rfl
    obtain ⟨lock, einkLock, exit, queue, prod, work⟩ := s
    obtain rfl : work = .waiting := hk
    obtain rfl : lock = none := hlock
    have he : einkLock = none := by
      rcases heink rfl with h | ⟨-, c, -, hn⟩
      · exact h
      · exact absurd rfl hn
    subst he
    cases prod <;> simp only [Handoff.prodStep, ↓reduceIte, reduceCtorEq] at hp
    case idle =>
      refine .inl ⟨rfl, rfl, Decidable.byContradiction fun hq => ?_⟩
      rcases hh.waiting rfl hq with h | h <;> cases h
    case waiting c =>
      rcases hh.waiting rfl (hh.full c (.inr (.inr rfl))) with h | h <;> cases h
    case test c => split at hp <;> cases hp
  | einkLock r =>
    rw [hk] at heink
    rcases heink rfl with he | ⟨he, c, hprod, -⟩
    · simp only [workStep, hk, he, ↓reduceIte, reduceCtorEq] at hw
    · exact .inr ⟨he, ⟨c, hprod⟩, hl.workLock.2 (by rw [hk]; rfl), r, hk⟩
  | top | lock | woken =>
    rw [hk] at hfree
    simp only [workStep, hk, hfree rfl rfl, ↓reduceIte, reduceCtorEq] at hw
  | composing => exact absurd hk hc
  | exited => exact absurd hk hh.live
  | readExit | test | wait | pop r | einkUnlock r c | unlock r c | ret r c =>
    simp only [workStep, hk] at hw
    (try split at hw) <;> (try split at hw) <;> cases hw

/-- **Where it can stop.** In every run without `Exit`, whatever wakes the threads: where neither
thread can step, it is the deadlock, or nothing is left to do and `Compose` was called with every
composition pushed. -/
theorem stuck_quiescent (hr : (system α).Run noExit tr s) (hst : (system α).Stuck own s) :
    Deadlock s ∨ (Quiescent s ∧ composedWith tr = pushed tr) := by
  rcases stuck_cases (safe_run hr) (locks_run hr) (heard_run hr) hst with hq | hd
  · have h := pipe_run hr
    rw [hq.inFlight, prodHeld_idle hq.prod, List.append_nil, List.append_nil] at h
    exact .inr ⟨hq, h.symm⟩
  · exact .inl hd

/-- `stuck_quiescent` after one composition. -/
theorem stuck_quiescent_one : ∃ tr s, (system Nat).Run noExit tr s ∧ (system Nat).Stuck own s ∧
    composedWith tr = [1] ∧ (Deadlock s ∨ (Quiescent s ∧ composedWith tr = pushed tr)) := by
  obtain ⟨tr, s, hr, hp⟩ := System.exists_run (system Nat) noExit ⟨rfl, rfl⟩
    (List.flatten [.call 1 :: List.replicate 7 .prod, List.replicate 9 .work,
      .composed :: List.replicate 5 .work])
    (fun tr s => composedWith tr == [1] && s.prodStep == none && s.workStep == none &&
      s.work != .composing) (by decide +kernel)
  simp only [Bool.and_eq_true, beq_iff_eq, bne_iff_ne, ne_eq] at hp
  obtain ⟨⟨⟨hc, h1⟩, h2⟩, h3⟩ := hp
  have hst : (system Nat).Stuck own s := stuck_iff.2 ⟨h1, h2, h3⟩
  exact ⟨tr, s, hr, hst, hc, stuck_quiescent hr hst⟩

/-! ## How long it takes -/

/-- What the worker does before it waits. Where it is going to pop, the composition in the queue
counts for the rest of that round. -/
def workRank (queue : List α) : WorkPc α → Nat
  | .waiting | .exited => 0
  | .wait => 1
  | .test => 2
  | .lock => 3
  | .readExit => 4
  | .top => 5
  | .composing => 6
  | .ret _ c => if c.isSome then 7 else 6
  | .unlock _ c => if c.isSome then 8 else 7
  | .einkUnlock _ c => if c.isSome then 9 else 8
  | .pop _ => if queue.isEmpty then 9 else 0
  | .einkLock _ => if queue.isEmpty then 10 else 1
  | .woken => 11

/-- What `QueueComposite` does before it is idle, with what its push and its signal make the worker
do. -/
def prodRank : ProdPc α → Nat
  | .idle => 0
  | .unlock => 1
  | .signal => 13
  | .einkUnlock => 14
  | .waiting _ => 33
  | .wait _ => 34
  | .unlockWait _ | .push _ => 35
  | .test _ => 36
  | .einkLock _ | .relock _ => 37
  | .lock _ | .woken _ => 38

/-- The rank of a state: each step of `own` decreases it. -/
def rank (s : Handoff α) : Nat :=
  20 * s.queue.length + workRank s.queue s.work + prodRank s.prod

theorem workRank_push (queue : List α) (c : α) (w : WorkPc α) :
    workRank (queue ++ [c]) w ≤ workRank queue w := by
  cases w <;> simp [workRank]
  split <;> omega

theorem workRank_wakeWork (queue : List α) (w : WorkPc α) :
    workRank queue (wakeWork w) ≤ workRank queue w + 11 := by
  cases w <;> simp [workRank, wakeWork]

theorem prodRank_wakeProd (p : ProdPc α) : prodRank (wakeProd p) ≤ prodRank p + 5 := by
  cases p <;> simp [prodRank, wakeProd]

theorem rank_prodStep (h : s.prodStep = some (s', es)) : rank s' < rank s := by
  obtain ⟨lock, einkLock, exit, queue, prod, work⟩ := s
  cases prod <;> simp only [Handoff.prodStep] at h <;> (try split at h) <;>
    simp only [Option.some.injEq, Prod.mk.injEq, reduceCtorEq] at h <;> obtain ⟨rfl, -⟩ := h
  case push c =>
    have := workRank_push queue c work
    simp only [rank, prodRank, List.length_append, List.length_cons, List.length_nil]
    omega
  case signal =>
    have := workRank_wakeWork queue work
    simp only [rank, prodRank]
    omega
  all_goals simp only [rank, prodRank]; omega

theorem rank_workStep (hs : Safe s) (h : s.workStep = some (s', es)) : rank s' < rank s := by
  obtain ⟨lock, einkLock, exit, queue, prod, work⟩ := s
  obtain rfl : exit = false := hs.exit
  cases work <;> simp only [Handoff.workStep] at h
  case pop r =>
    cases queue with
    | nil =>
      simp only [Option.some.injEq, Prod.mk.injEq] at h
      obtain ⟨rfl, -⟩ := h
      simp [rank, workRank]
    | cons c q =>
      simp only [Option.some.injEq, Prod.mk.injEq] at h
      obtain ⟨rfl, -⟩ := h
      -- the composition popped pays for the rest of the round, and for waking `QueueComposite`
      have := prodRank_wakeProd prod
      simp only [rank, workRank, List.length_cons, List.isEmpty_cons, Option.isSome_some,
        ↓reduceIte, Bool.false_eq_true]
      omega
  all_goals (try split at h) <;> (try split at h) <;>
    simp only [Option.some.injEq, Prod.mk.injEq, reduceCtorEq] at h <;> obtain ⟨rfl, -⟩ := h
  case readExit.isTrue h | wait.isTrue h => cases h
  case test.isFalse hq =>
    have hq : queue.isEmpty = false := by simpa using hq
    have : 0 < queue.length := List.length_pos_iff.2 (by simpa using hq)
    simp only [rank, workRank, hq, Bool.false_eq_true, ↓reduceIte]
    omega
  all_goals
    simp only [rank, workRank, Option.isSome_some, Option.isSome_none, ↓reduceIte,
      Bool.false_eq_true]
    (try split) <;> omega

theorem rank_step (hs : Safe s) (ha : own a) (h : s.step a = some (s', es)) :
    rank s' < rank s := by
  cases a with
  | prod => exact rank_prodStep h
  | work => exact rank_workStep hs h
  | composed =>
    simp only [Handoff.step] at h
    split at h <;> simp only [Option.some.injEq, Prod.mk.injEq, reduceCtorEq] at h
    rename_i hw
    obtain ⟨rfl, -⟩ := h
    simp only [rank, workRank, hw]
    omega
  | _ => exact ha.elim

theorem rank_le (hs : Safe s) : rank s ≤ 69 := by
  have hd : s.queue.length ≤ 1 := hs.depth
  have hw : workRank s.queue s.work ≤ 11 := by
    cases s.work <;> simp only [workRank] <;> (try split) <;> omega
  have hp : prodRank s.prod ≤ 38 := by
    cases s.prod <;> simp [prodRank]
  unfold rank
  omega

/-! ## Delivery -/

theorem Order.not_deadlock (ho : Order s) : ¬ Deadlock s := by
  rintro ⟨-, ⟨c, hp⟩, -, r, hw⟩
  have h := ho.order (by rw [hp]; rfl)
  rw [hw] at h
  cases h

theorem safe_own (s : Handoff α) (a : Act α) (s' : Handoff α) (es : List (Ev α)) (hs : Safe s)
    (ha : own a) (h : s.step a = some (s', es)) : Safe s' :=
  hs.step (own_noExit s a ha) h

/-- Along a path, what comes out of the pipe is what was in it. -/
theorem path_account (hp : (system α).Path own s n es s') (hs : Safe s) :
    composedWith es ++ s'.inFlight = s.inFlight := by
  induction hp with
  | nil => rfl
  | snoc hp ha h ih =>
    have hs₁ := hp.keeps safe_own hs
    unfold composedWith at ih ⊢
    rw [collect_append]
    cases step_effect h with
    | silent hf _ => rw [hf]; simpa using ih
    | call c hc _ _ _ => subst hc; exact ha.elim
    | push c hf _ _ => rw [hf]; simpa [Ev.isCompose] using ih
    | compose c hf _ _ _ =>
      rw [hf] at ih
      simpa [Ev.isCompose] using ih
    | lost c r hw hne _ _ => exact absurd (hs₁.ret r (by simp [waitRet, hw])) hne

/-- **Delivery.** In a run whose waits end as `signalled` says, from any state: the two threads make
at most 69 steps on their own, and where they can make no more, nothing is left to do, and `Compose`
was called with every composition that was in the hand-off, the oldest first. -/
theorem delivers (hr : (system α).Run signalled tr s) (hp : (system α).Path own s n es s') :
    n ≤ 69 ∧ ((system α).Stuck own s' → Quiescent s' ∧ composedWith es = s.inFlight) := by
  have hs : Safe s := safe_run (hr.mono fun _ _ h => h.1.2)
  refine ⟨?_, fun hst => ?_⟩
  · have h1 : rank s' + n ≤ rank s :=
      hp.rank_le safe_own (fun s a s' es hs ha h => rank_step hs ha h) hs
    have h2 := rank_le hs
    omega
  · have hr' := hr.path own_signalled hp
    have hne := hr'.mono fun _ _ h => h.1.2
    rcases stuck_cases (safe_run hne) (locks_run hne) (heard_run hne) hst with hq | hd
    · have h := path_account hp hs
      rw [hq.inFlight, List.append_nil] at h
      exact ⟨hq, h⟩
    · exact absurd hd (order_run hr').not_deadlock

/-- `delivers` where the first composition is in the queue and `QueueComposite` waits with the
second: 32 steps, and then nothing is left to do. -/
theorem delivers_two : ∃ tr s n es s', (system Nat).Run signalled tr s ∧ s.inFlight = [1, 2] ∧
    (system Nat).Path own s n es s' ∧ (system Nat).Stuck own s' ∧ n ≤ 69 ∧
    Quiescent s' ∧ composedWith es = [1, 2] := by
  obtain ⟨tr, s, hr, hp⟩ := System.exists_run (system Nat) signalled ⟨rfl, rfl⟩
    (List.flatten [.call 1 :: List.replicate 7 .prod, .call 2 :: List.replicate 5 .prod])
    (fun _ s => s.inFlight == [1, 2] &&
      ((system Nat).exec (fun _ a => own a) [] s
        (List.flatten [List.replicate 9 .work, List.replicate 7 .prod,
          .composed :: List.replicate 9 .work, .composed :: List.replicate 5 .work])).any
        fun r => r.2.prodStep == none && r.2.workStep == none && r.2.work != .composing)
    (by decide +kernel)
  simp only [Bool.and_eq_true, beq_iff_eq] at hp
  obtain ⟨hf, hx⟩ := hp
  obtain ⟨⟨es, s'⟩, he, hst⟩ := (Option.any_eq_true ..).1 hx
  simp only [Bool.and_eq_true, beq_iff_eq, bne_iff_ne, ne_eq] at hst
  obtain ⟨⟨h1, h2⟩, h3⟩ := hst
  have hpath := System.Path.of_exec .nil he
  have hstuck : (system Nat).Stuck own s' := stuck_iff.2 ⟨h1, h2, h3⟩
  obtain ⟨hn, hd⟩ := delivers hr hpath
  obtain ⟨hq, hc⟩ := hd hstuck
  exact ⟨tr, s, _, es, s', hr, hf, hpath, hstuck, hn, hq, hf ▸ hc⟩

end Handoff

end EinkHwc
