import EinkHwc.VSync.Phase
import EinkHwc.VSync.Stale

/-!
# The vsync worker gets done

`VSyncControl(true)` is called while the worker waits, sleeps, or is anywhere else, and no call of
`Exit` is made.

- **No wake-up is lost** (`Heard`). The worker does not wait with `enabled_` set, unless a signal is
  still to come.
- **How long it takes** (`rank`). When the calls are over and vsync is enabled, the worker is never
  blocked but by its sleep, and the hook is called within 22 steps of the worker
  (`enable_delivers`): one iteration, with what is left of the one that `enabled_` or `procs_` came
  too late for.
-/

namespace EinkHwc

namespace VSync

open Trace

variable {frameNs : Int} {s s' : VSync} {a : Act} {es tr tr' : List Ev} {i : Nat}

/-- `Exit` is not called. -/
def noExit (_ : VSync) (a : Act) : Prop := ∀ i, a ≠ .call i .exit

instance (s : VSync) (a : Act) : Decidable (noExit s a) :=
  match a with
  | .call _ .exit => isFalse fun h => h _ rfl
  | .call _ .signal | .call _ (.vsyncControl _) | .call _ (.setProcs _) => isTrue (by simp [noExit])
  | .caller _ | .work | .wake | .slept .. | .tick _ => isTrue (by simp [noExit])

/-! ## Wake-ups -/

/-- The thread goes on, and does not miss a signal. -/
structure Heard (s : VSync) : Prop where
  exit : s.exit = false
  calls : ∀ i, (s.callers i).call ≠ some .exit
  live : s.work ≠ .exited
  /-- It goes to its wait with `enabled_` clear. -/
  wait : s.work = .wait → s.enabled = false
  waiting : s.work = .waiting → s.enabled = true →
    ∃ i c, s.callers i = .reset c ∨ s.callers i = .signal c

theorem Heard.unexited (hi : Heard s) : unexited s a := by
  rintro ⟨-, -, he⟩
  rw [hi.exit] at he
  cases he

/-- A call moves on: the signal that is to come stays with its caller. -/
theorem exists_caller {P : CallPc → Prop} {p : CallPc} (hp : P p ∨ ¬ P (s.callers i))
    (h : ∃ j, P (s.callers j)) : ∃ j, P ((s.setCaller i p).callers j) := by
  obtain ⟨j, hj⟩ := h
  rcases setCaller_cases s i p j with ⟨rfl, he⟩ | ⟨-, he⟩
  · rcases hp with hp | hn
    · exact ⟨j, by rwa [he]⟩
    · exact absurd hj hn
  · exact ⟨j, by rwa [he]⟩

theorem Heard.setCaller {p : CallPc} (hi : Heard s) (hc : p.call ≠ some .exit)
    (hp : (∃ c, p = .reset c ∨ p = .signal c) ∨
      ¬ ∃ c, s.callers i = .reset c ∨ s.callers i = .signal c) : Heard (s.setCaller i p) := by
  refine ⟨hi.exit, fun j => ?_, hi.live, hi.wait, fun hw he => ?_⟩
  · rcases setCaller_cases s i p j with ⟨-, h⟩ | ⟨-, h⟩ <;> rw [h]
    · exact hc
    · exact hi.calls j
  · exact exists_caller (P := fun q => ∃ c, q = .reset c ∨ q = .signal c) hp (hi.waiting hw he)

theorem Heard.callStep (hl : Locks s) (hi : Heard s) (h : s.callStep i = some (s', es)) :
    Heard s' := by
  have hci := hi.calls i
  have hlock := hl.caller i
  cases callStep_cases h with
  | lock c hp hfree =>
    rw [hp] at hci
    have h := hi.setCaller (i := i) (p := .write c) hci (.inr (by simp [hp]))
    exact ⟨h.exit, h.calls, h.live, h.wait, h.waiting⟩
  | write c hp =>
    rw [hp] at hci hlock
    have hown := hlock.2 rfl
    -- the caller has `lock_`, so the worker is not between its test and its wait
    have hnw : s.work ≠ .wait := fun hw => by
      have := hl.work.2 (by rw [hw]; rfl)
      rw [hown] at this
      cases this
    have hnext : c.next.call ≠ some .exit := by rw [call_next]; exact hci
    cases c with
    | exit => exact absurd rfl hci
    | signal | setProcs procs =>
      have h := hi.setCaller (i := i) hnext (.inr (by simp [hp]))
      exact ⟨h.exit, h.calls, h.live, h.wait, h.waiting⟩
    | vsyncControl b =>
      have h := hi.setCaller (i := i) hnext (.inl ⟨.vsyncControl b, .inl rfl⟩)
      refine ⟨h.exit, h.calls, h.live, fun hw => absurd hw hnw, fun _ _ => ?_⟩
      exact ⟨i, .vsyncControl b, .inl (by simp [VSync.setCaller, Call.next])⟩
  | reset c hp =>
    rw [hp] at hci
    have h := hi.setCaller (i := i) (p := .signal c) hci (.inl ⟨c, .inr rfl⟩)
    exact ⟨h.exit, h.calls, h.live, h.wait, h.waiting⟩
  | signal c hp =>
    rw [hp] at hci
    have hcalls : ∀ j, ((s.setCaller i (.unlock c)).callers j).call ≠ some .exit := fun j => by
      rcases setCaller_cases s i (.unlock c) j with ⟨-, h⟩ | ⟨-, h⟩ <;> rw [h]
      · exact hci
      · exact hi.calls j
    refine ⟨hi.exit, hcalls, fun hw => ?_, fun hw => ?_, fun hw => ?_⟩
    · rcases wakeWork_eq s.work with he | ⟨-, he⟩
      · exact hi.live (he.symm.trans hw)
      · exact absurd (he.symm.trans hw) (by simp)
    · rcases wakeWork_eq s.work with he | ⟨-, he⟩
      · exact hi.wait (he.symm.trans hw)
      · exact absurd (he.symm.trans hw) (by simp)
    · -- the signal wakes the worker
      have hn : wakeWork s.work ≠ .waiting := by cases s.work <;> simp [wakeWork]
      exact absurd hw hn
  | unlock c hp =>
    have h := hi.setCaller (i := i) (p := .idle) (by simp [CallPc.call]) (.inr (by simp [hp]))
    exact ⟨h.exit, h.calls, h.live, h.wait, h.waiting⟩

theorem Heard.workStep (hi : Heard s) (h : s.workStep frameNs = some (s', es)) : Heard s' := by
  obtain ⟨lock, exit, enabled, procs, display, last, clock, work, callers⟩ := s
  obtain ⟨h1, h2, h3, h4, h5⟩ := hi
  obtain rfl : exit = false := h1
  cases work <;> simp only [VSync.workStep] at h
  case waiting | sleep v now t | exited => cases h
  case test =>
    cases h
    cases enabled with
    | false => exact ⟨rfl, h2, by simp, fun _ => rfl, by simp⟩
    | true => exact ⟨rfl, h2, by simp, by simp, by simp⟩
  case wait =>
    rw [if_neg (by decide)] at h
    cases h
    refine ⟨rfl, h2, by simp, by simp, fun _ he => ?_⟩
    rw [show enabled = false from h4 rfl] at he
    cases he
  case enabled v =>
    obtain ⟨_ | _, d, p⟩ := v <;> cases h <;> exact ⟨rfl, h2, by simp, by simp, by simp⟩
  case top | lock | woken | waited ret | phase v now =>
    split at h <;> cases h <;> exact ⟨rfl, h2, by simp, by simp, by simp⟩
  all_goals
    cases h
    exact ⟨rfl, h2, by simp, by simp, by simp⟩

theorem Heard.sleptStep {ret errno : Int} (hi : Heard s)
    (h : s.sleptStep ret errno = some (s', es)) : Heard s' := by
  obtain ⟨h1, h2, h3, h4, h5⟩ := id hi
  unfold VSync.sleptStep at h
  cases hp : s.work <;> simp only [hp] at h
  case sleep v now t =>
    split at h
    · cases h
      exact hi
    · split at h
      · cases h
        exact ⟨h1, h2, by simp, by simp, by simp⟩
      · split at h <;> cases h
        exact ⟨h1, h2, by simp, by simp, by simp⟩
  all_goals cases h

theorem Heard.step (hl : Locks s) (hi : Heard s) (hok : noExit s a)
    (h : step frameNs s a = some (s', es)) : Heard s' := by
  cases a with
  | call i c =>
    simp only [VSync.step] at h
    split at h <;> cases h
    rename_i hp
    exact hi.setCaller (fun hc => hok i (by rw [← Option.some.inj hc])) (.inr (by simp [hp]))
  | caller i => exact hi.callStep hl h
  | work => exact hi.workStep h
  | wake =>
    simp only [VSync.step] at h
    split at h <;> cases h
    exact ⟨hi.exit, hi.calls, by simp, by simp, by simp⟩
  | slept ret errno => exact hi.sleptStep h
  | tick d =>
    cases h
    exact ⟨hi.exit, hi.calls, hi.live, hi.wait, hi.waiting⟩

theorem heard_run (hr : (system frameNs).Run noExit tr s) : Locks s ∧ Heard s := by
  refine System.Inductive.run (I := fun _ s => Locks s ∧ Heard s) ⟨?_, ?_⟩ hr
  · rintro s tr ⟨hi, -⟩
    refine ⟨⟨?_, fun i => ?_, ?_⟩, hi.exit, fun i => ?_, ?_, ?_, ?_⟩
    · simp [hi.lock, hi.work, WorkPc.hasLock]
    · simp [hi.lock, hi.callers i, CallPc.hasLock]
    · simp [hi.work]
    · simp [hi.callers i, CallPc.call]
    · simp [hi.work]
    · simp [hi.work]
    · simp [hi.work]
  · rintro s a s' es tr ⟨hl, hh⟩ hok h
    exact ⟨hl.step hh.unexited h, hh.step hl hok h⟩

/-! ## The way to the next callback -/

/-- The hook is called with these locals. -/
def Locals.hooked (v : Locals) : Bool := v.enabled && v.procs.any (·.vsync > 0x10)

/-- The steps of the worker up to the next call of the hook, where vsync is enabled and the hook is
set: locals that the worker read too early cost it an iteration. -/
def WorkPc.left : WorkPc → Nat
  | .callback v _ _ => if v.procs.any (·.vsync > 0x10) then 1 else 15
  | .sleep v .. => if v.procs.any (·.vsync > 0x10) then 2 else 16
  | .base v .. => if v.procs.any (·.vsync > 0x10) then 3 else 17
  | .diff v .. => if v.procs.any (·.vsync > 0x10) then 4 else 18
  | .phase v .. => if v.procs.any (·.vsync > 0x10) then 5 else 19
  | .gettime v => if v.procs.any (·.vsync > 0x10) then 6 else 20
  | .enabled v => if v.hooked then 7 else 21
  | .unlock v => if v.hooked then 8 else 22
  | .read => 9
  | .test | .waited _ => 10
  | .lock | .woken => 11
  | .readExit => 12
  | .top => 13
  | .store _ => 14
  | .wait | .waiting | .exited => 0

theorem left_le (p : WorkPc) : p.left ≤ 22 := by
  cases p <;> simp only [WorkPc.left] <;> (try split) <;> omega

/-- Vsync is enabled, the hook is set, and no call is in progress. -/
structure Ready (s : VSync) : Prop where
  enabled : s.enabled = true
  hook : s.procs.any (·.vsync > 0x10) = true
  callers : ∀ i, s.callers i = .idle

/-- What the worker and the clock do on their own; no signal interrupts the sleep. -/
def alone (_ : VSync) : Act → Prop
  | .work | .tick _ => True
  | .slept ret _ => ret = 0
  | _ => False

instance (s : VSync) (a : Act) : Decidable (alone s a) :=
  match a with
  | .work | .tick _ => isTrue trivial
  | .slept ret _ => inferInstanceAs (Decidable (ret = 0))
  | .call .. | .caller _ | .wake => isFalse id

theorem alone_noExit (h : alone s a) : noExit s a := by
  rintro i rfl
  exact h

/-- The worker is not blocked: it has the steps of one iteration. -/
theorem Ready.awake (hr : Ready s) (hh : Heard s) : 0 < s.work.left := by
  have hw : s.work ≠ .wait := fun hw => by
    have := hh.wait hw
    rw [hr.enabled] at this
    cases this
  have hn : s.work ≠ .waiting := fun hn => by
    obtain ⟨i, c, hc⟩ := hh.waiting hn hr.enabled
    rw [hr.callers i] at hc
    rcases hc with hc | hc <;> cases hc
  cases hp : s.work with
  | wait => exact absurd hp hw
  | waiting => exact absurd hp hn
  | exited => exact absurd hp hh.live
  | _ =>
    simp only [WorkPc.left]
    (try split) <;> omega

theorem Ready.workStep (hr : Ready s) (hl : Locks s) (hh : Heard s)
    (h : s.workStep frameNs = some (s', es)) :
    Ready s' ∧ (callbacks es = 1 ∨ callbacks es = 0 ∧ s'.work.left < s.work.left) := by
  obtain ⟨lock, exit, enabled, procs, display, last, clock, work, callers⟩ := s
  obtain ⟨he, hk, hc⟩ := hr
  obtain rfl : exit = false := hh.exit
  obtain rfl : enabled = true := he
  have hk' : procs.any (·.vsync > 0x10) = true := hk
  cases work <;> simp only [VSync.workStep] at h
  case waiting | sleep v now t | exited => cases h
  case wait => cases hh.wait rfl
  case callback v now t =>
    cases h
    refine ⟨⟨rfl, hk, hc⟩, ?_⟩
    by_cases hv : v.procs.any (·.vsync > 0x10) = true
    · exact .inl (by simp [hv, callbacks, Ev.isVSync])
    · exact .inr (by simp [hv, WorkPc.left, callbacks])
  case read =>
    cases h
    exact ⟨⟨rfl, hk, hc⟩, .inr ⟨rfl, by simp [WorkPc.left, Locals.hooked, hk']⟩⟩
  case readExit | test | store t =>
    cases h
    exact ⟨⟨rfl, hk, hc⟩, .inr ⟨rfl, by simp [WorkPc.left]⟩⟩
  case enabled v =>
    cases h
    refine ⟨⟨rfl, hk, hc⟩, .inr ⟨rfl, ?_⟩⟩
    obtain ⟨_ | _, d, p⟩ := v
    · simp [WorkPc.left, Locals.hooked]
    · simp only [WorkPc.left, Locals.hooked, Bool.true_and, ↓reduceIte]
      split <;> omega
  case waited ret =>
    obtain rfl : ret = 0 := hl.waited ret rfl
    cases h
    exact ⟨⟨rfl, hk, hc⟩, .inr ⟨rfl, by simp [WorkPc.left]⟩⟩
  case top | lock | woken =>
    split at h <;> cases h
    exact ⟨⟨rfl, hk, hc⟩, .inr ⟨rfl, by simp [WorkPc.left]⟩⟩
  case phase v now =>
    split at h <;> cases h <;>
      exact ⟨⟨rfl, hk, hc⟩, .inr ⟨rfl, by simp only [WorkPc.left]; split <;> omega⟩⟩
  all_goals
    cases h
    exact ⟨⟨rfl, hk, hc⟩, .inr ⟨rfl, by simp only [WorkPc.left]; (try split) <;> omega⟩⟩

theorem Ready.sleptStep {errno : Int} (hr : Ready s) (h : s.sleptStep 0 errno = some (s', es)) :
    Ready s' ∧ callbacks es = 0 ∧ s'.work.left < s.work.left := by
  obtain ⟨he, hk, hc⟩ := hr
  unfold VSync.sleptStep at h
  cases hp : s.work <;> simp only [hp] at h
  case sleep v now t =>
    rw [if_neg (by simp), if_neg (by simp)] at h
    split at h <;> cases h
    refine ⟨⟨he, hk, hc⟩, rfl, ?_⟩
    simp only [WorkPc.left]
    split <;> omega
  all_goals cases h

/-- What holds while the worker is alone: so many of its steps are left before the next callback. -/
structure Counting (s₀ : VSync) (k₀ : Nat) (tr : List Ev) (s : VSync) (n : Nat) : Prop where
  locks : Locks s
  heard : Heard s
  ready : Ready s
  count : k₀ < callbacks tr ∨ (k₀ = callbacks tr ∧ n + s.work.left ≤ s₀.work.left)

theorem Counting.step {s₀ : VSync} {k₀ n : Nat} (hi : Counting s₀ k₀ tr s n) (ha : alone s a)
    (h : step frameNs s a = some (s', es)) :
    Counting s₀ k₀ (es ++ tr) s' (n + a.isWork.toNat) := by
  obtain ⟨hl, hh, hr, hc⟩ := hi
  have hok := alone_noExit ha
  have hmore : ∀ {es : List Ev}, k₀ < callbacks tr → k₀ < callbacks (es ++ tr) := fun hlt => by
    rw [callbacks_append]
    omega
  have hquiet : ∀ {n'}, Ready s' → callbacks es = 0 → n' + s'.work.left ≤ n + s.work.left →
      Counting s₀ k₀ (es ++ tr) s' n' := fun hr' h0 hle => by
    refine ⟨hl.step hh.unexited h, hh.step hl hok h, hr', hc.imp hmore fun ⟨he, hn⟩ => ?_⟩
    rw [callbacks_append, h0]
    omega
  cases a with
  | work =>
    obtain ⟨hr', hone | ⟨h0, hlt⟩⟩ := hr.workStep hl hh h
    · refine ⟨hl.step hh.unexited h, hh.step hl hok h, hr', .inl ?_⟩
      rw [callbacks_append, hone]
      rcases hc with hc | ⟨hc, -⟩ <;> omega
    · refine hquiet hr' h0 ?_
      simp only [Act.isWork, Bool.toNat_true]
      omega
  | slept ret errno =>
    obtain rfl : ret = 0 := ha
    obtain ⟨hr', h0, hlt⟩ := hr.sleptStep h
    refine hquiet hr' h0 ?_
    simp only [Act.isWork, Bool.toNat_true]
    omega
  | tick d =>
    cases h
    exact hquiet ⟨hr.enabled, hr.hook, hr.callers⟩ rfl (Nat.le_refl _)
  | _ => exact ha.elim

theorem Counting.exec {s₀ : VSync} {k₀ n : Nat} {as : List Act} (hi : Counting s₀ k₀ tr s n)
    (hx : (system frameNs).exec alone tr s as = some (tr', s')) :
    Counting s₀ k₀ tr' s' (n + as.countP Act.isWork) := by
  induction as generalizing tr s n with
  | nil =>
    simp only [System.exec, Option.some.injEq, Prod.mk.injEq] at hx
    obtain ⟨rfl, rfl⟩ := hx
    exact hi
  | cons a as ih =>
    unfold System.exec at hx
    split at hx
    · rename_i ha
      split at hx
      · rename_i hs
        have h := ih (hi.step ha hs) hx
        rw [Nat.add_assoc] at h
        rw [List.countP_cons, Nat.add_comm (as.countP _)]
        cases hw : a.isWork <;> rwa [hw] at h
      · cases hx
    · cases hx

/-- The worker can go on, or sleeps, and the clock is not there yet. -/
theorem Ready.goes_on (hr : Ready s) (hl : Locks s) (hh : Heard s) :
    (s.workStep frameNs).isSome = true ∨ (s.sleptStep 0 0).isSome = true ∨
      ∃ v now t, s.work = .sleep v now t ∧ s.clock < t.ns := by
  have hfree : s.work.hasLock = false → s.lock = none := fun hw => by
    cases hk : s.lock with
    | none => rfl
    | some t =>
      cases t with
      | worker => rw [hl.work.1 hk] at hw; cases hw
      | caller i =>
        have := (hl.caller i).1 hk
        rw [hr.callers i] at this
        cases this
  have hpos := hr.awake hh
  cases hp : s.work with
  | wait | waiting | exited =>
    rw [hp] at hpos
    cases hpos
  | top | lock | woken =>
    refine .inl ?_
    rw [VSync.workStep, hp]
    simp [hfree (by rw [hp]; rfl)]
  | sleep v now t =>
    by_cases ht : t.ns ≤ s.clock
    · refine .inr (.inl ?_)
      rw [VSync.sleptStep, hp]
      simp [ht]
    · exact .inr (.inr ⟨v, now, t, rfl, by omega⟩)
  | waited ret | phase v now =>
    refine .inl ?_
    rw [VSync.workStep, hp]
    dsimp only
    split <;> rfl
  | _ =>
    refine .inl ?_
    rw [VSync.workStep, hp]
    rfl

/-- **No enabling is lost.** Where vsync is enabled, the hook is set, and no call is in progress:
the worker, left alone with the clock, is never blocked but by its sleep, and after 22 steps of it
the hook was called. -/
theorem enable_delivers {as : List Act} (hr : (system frameNs).Run noExit tr s) (hs : Ready s)
    (hx : (system frameNs).exec alone tr s as = some (tr', s')) :
    ((s'.workStep frameNs).isSome = true ∨ (s'.sleptStep 0 0).isSome = true ∨
        ∃ v now t, s'.work = .sleep v now t ∧ s'.clock < t.ns) ∧
      (22 ≤ as.countP Act.isWork → callbacks tr < callbacks tr') := by
  obtain ⟨hl, hh⟩ := heard_run hr
  have hi : Counting s (callbacks tr) tr s 0 :=
    ⟨hl, hh, hs, .inr ⟨rfl, by rw [Nat.zero_add]⟩⟩
  obtain ⟨hl', hh', hs', hc⟩ := hi.exec hx
  refine ⟨hs'.goes_on hl' hh', fun hn => hc.resolve_right fun ⟨_, hle⟩ => ?_⟩
  have h1 := left_le s.work
  have h2 := hs'.awake hh'
  omega

/-- A worker that waits, and a caller that sets the hook and enables vsync. -/
def enableActs : List Act :=
  List.flatten [List.replicate 5 .work,
    .call 0 (.setProcs (some ⟨0x100⟩)) :: List.replicate 3 (.caller 0),
    .call 0 (.vsyncControl true) :: List.replicate 5 (.caller 0)]

/-- The state at the end of it. -/
def enabledSt (callers : Nat → CallPc) : VSync :=
  { oneSecond with enabled := true, procs := some ⟨0x100⟩, work := .woken, callers }

/-- The iteration of the worker after it, and the next one up to its callback. -/
def iterationActs : List Act :=
  List.flatten [List.replicate 7 .work, [.tick 16666667, .slept 0 0], List.replicate 13 .work,
    [.tick 16666667, .slept 0 0]]

/-- `enable_delivers` from the end of that call: the worker gets through one iteration and begins
another one. -/
theorem enable_delivers_waiting : ∃ tr s as tr' s', (system 16666667).Run noExit tr s ∧ Ready s ∧
    s.work = .woken ∧ (system 16666667).exec alone tr s as = some (tr', s') ∧
    as.countP Act.isWork = 22 ∧ callbacks tr < callbacks tr' := by
  obtain ⟨tr, cs, hx, hcs⟩ : ∃ tr cs, (system 16666667).exec noExit [] oneSecond enableActs =
      some (tr, enabledSt cs) ∧ ∀ i, cs i = .idle := by
    refine ⟨_, _, rfl, fun i => ?_⟩
    by_cases hi : i = 0 <;> simp [Function.update, oneSecond, setCaller, write, hi]
  have hr : (system 16666667).Run noExit tr (enabledSt cs) :=
    System.Run.of_exec (.init (show (system 16666667).init oneSecond [] from
      ⟨init_oneSecond, rfl⟩)) hx
  have hs : Ready (enabledSt cs) := ⟨rfl, rfl, hcs⟩
  have hy : ((system 16666667).exec alone tr (enabledSt cs) iterationActs).isSome = true := rfl
  obtain ⟨⟨tr', s'⟩, hy⟩ := Option.isSome_iff_exists.1 hy
  exact ⟨tr, _, iterationActs, tr', s', hr, hs, rfl, hy, rfl,
    (enable_delivers hr hs hy).2 (by decide)⟩

end VSync

end EinkHwc
