import EinkHwc.Trace.Past
import EinkHwc.VSync.Locks

/-!
# Callbacks after vsync was disabled

`Routine` samples `enabled_` under `lock_` and calls the hook after a sleep outside it. So a
callback may start after `VSyncControl(false)` has returned: the one that the worker had decided on.

* `InProgress`: a `VSyncControl(true)` has begun and not returned.
* `StaleOnce`: after a `VSyncControl(false)` that returned with none of those in progress, and until
  the next one begins, at most one callback starts.
* `WorkPc.armed`: the places from which the worker will call the hook.
* `stale_once`: the law, in every run.
-/

namespace EinkHwc

namespace VSync

open Trace

/-- Caller `j` has begun a `VSyncControl(true)` that has not returned. -/
def InProgress (j : Nat) (tr : List Ev) : Prop :=
  Since (· = .called j (.vsyncControl true)) (fun e => ∃ c, e = .returned j c) tr

/-- The callbacks of the trace. -/
def callbacks (tr : List Ev) : Nat := (tr.filterMap Ev.isVSync).length

/-- At most one callback after the return of `VSyncControl(false)`. -/
def StaleOnce (tr : List Ev) : Prop :=
  ∀ new i old, tr = new ++ .returned i (.vsyncControl false) :: old →
    (∀ j, ¬ InProgress j old) → (∀ j, .called j (.vsyncControl true) ∉ new) → callbacks new ≤ 1

variable {frameNs : Int} {s s' : VSync} {a : Act} {es tr : List Ev} {i : Nat}

theorem callbacks_append (es tr : List Ev) :
    callbacks (es ++ tr) = callbacks es + callbacks tr := by
  unfold callbacks
  rw [List.filterMap_append, List.length_append]

/-! ## Calls and the trace -/

/-- The call that a caller is in. -/
def CallPc.call : CallPc → Option Call
  | .idle => none
  | .lock c | .write c | .reset c | .signal c | .unlock c => some c

/-- What a caller has written to `enabled_`, until it unlocks. -/
def CallPc.wrote : CallPc → Option Bool
  | .reset (.vsyncControl b) | .signal (.vsyncControl b) | .unlock (.vsyncControl b) => some b
  | _ => none

theorem hasLock_of_wrote {p : CallPc} {b : Bool} (h : p.wrote = some b) : p.hasLock = true := by
  unfold CallPc.wrote at h
  split at h <;> first | rfl | cases h

theorem call_next (c : Call) : c.next.call = some c := by
  cases c <;> rfl

/-- Only the place of caller `i` is another one. -/
theorem setCaller_cases (s : VSync) (i : Nat) (p : CallPc) (j : Nat) :
    (j = i ∧ (s.setCaller i p).callers j = p) ∨
      (j ≠ i ∧ (s.setCaller i p).callers j = s.callers j) := by
  by_cases hj : j = i
  · exact .inl ⟨hj, by simp [setCaller, hj]⟩
  · exact .inr ⟨hj, by simp [setCaller, hj]⟩

@[simp] theorem write_callers (s : VSync) (c : Call) : (s.write c).callers = s.callers := by
  cases c <;> rfl

theorem write_enabled (s : VSync) (c : Call) :
    (s.write c).enabled = s.enabled ∨ c = .vsyncControl (s.write c).enabled := by
  cases c <;> simp [write]

/-! ## The worker -/

/-- The places from which the worker will call the hook. -/
def WorkPc.armed : WorkPc → Bool
  | .unlock v | .enabled v => v.enabled
  | .gettime _ | .phase .. | .diff .. | .base .. | .sleep .. | .callback .. => true
  | _ => false

/-- A step of the worker, or of nobody. The worker decides on a callback only where `enabled_` is
set, and calls the hook once for each decision. -/
structure Uncalled (s s' : VSync) (es : List Ev) : Prop where
  callers : s'.callers = s.callers
  enabled : s'.enabled = s.enabled
  events : ∀ e ∈ es, e.isVSync.isSome = true
  armed : s.enabled = false → callbacks es + s'.work.armed.toNat ≤ s.work.armed.toNat

theorem workStep_uncalled (h : s.workStep frameNs = some (s', es)) : Uncalled s s' es := by
  unfold workStep at h
  cases hp : s.work <;> simp only [hp] at h
  case waiting | sleep v now t | exited => cases h
  case read =>
    cases h
    exact ⟨rfl, rfl, by simp, fun he => by simp [WorkPc.armed, callbacks, he]⟩
  case callback v now t =>
    cases h
    refine ⟨rfl, rfl, ?_, fun _ => ?_⟩
    · split <;> simp [Ev.isVSync]
    · rw [hp]
      split <;> simp [WorkPc.armed, callbacks, Ev.isVSync]
  case top | lock | wait | woken | waited ret =>
    split at h <;> cases h <;> exact ⟨rfl, rfl, by simp, fun _ => Nat.zero_le _⟩
  case readExit | test =>
    cases h
    refine ⟨rfl, rfl, by simp, fun _ => ?_⟩
    dsimp only
    split <;> exact Nat.zero_le _
  case store t =>
    cases h
    exact ⟨rfl, rfl, by simp, fun _ => Nat.zero_le _⟩
  case enabled v =>
    cases h
    refine ⟨rfl, rfl, by simp, fun _ => ?_⟩
    rw [hp]
    dsimp only
    split
    · rename_i hv
      simp [WorkPc.armed, callbacks, hv]
    · exact Nat.zero_le _
  case unlock v | gettime v | diff v now | base v now d =>
    cases h
    exact ⟨rfl, rfl, by simp, fun _ => by rw [hp]; exact Nat.le_of_eq (Nat.zero_add _)⟩
  case phase v now =>
    split at h <;> cases h <;>
      exact ⟨rfl, rfl, by simp, fun _ => by rw [hp]; exact Nat.le_of_eq (Nat.zero_add _)⟩

theorem sleptStep_uncalled {ret errno : Int} (h : s.sleptStep ret errno = some (s', es)) :
    Uncalled s s' es := by
  unfold sleptStep at h
  cases hp : s.work <;> simp only [hp] at h
  case sleep v now t =>
    split at h
    · cases h
      exact ⟨rfl, rfl, by simp, fun _ => by simp [callbacks]⟩
    · split at h
      · cases h
        exact ⟨rfl, rfl, by simp, fun _ => by simp [callbacks, WorkPc.armed]⟩
      · split at h <;> cases h
        exact ⟨rfl, rfl, by simp, fun _ => by simp [callbacks, WorkPc.armed, hp]⟩
  all_goals cases h

theorem step_uncalled (hc : ∀ i c, a ≠ .call i c) (hi : ∀ i, a ≠ .caller i)
    (h : step frameNs s a = some (s', es)) : Uncalled s s' es := by
  cases a with
  | call i c => exact absurd rfl (hc i c)
  | caller i => exact absurd rfl (hi i)
  | work => exact workStep_uncalled h
  | wake =>
    simp only [step] at h
    split at h <;> cases h
    exact ⟨rfl, rfl, by simp, fun _ => by simp [callbacks, WorkPc.armed]⟩
  | slept ret errno => exact sleptStep_uncalled h
  | tick d =>
    cases h
    exact ⟨rfl, rfl, by simp, fun _ => by simp [callbacks]⟩

/-- A step of a caller leaves the worker armed or not. -/
theorem Aside.armed (h : Aside s s' es) :
    callbacks es + s'.work.armed.toNat = s.work.armed.toNat := by
  have hnone : callbacks es = 0 := by
    unfold callbacks
    rw [List.filterMap_eq_nil_iff.2 h.vsync]
    rfl
  rw [hnone, Nat.zero_add]
  rcases h.work with he | ⟨hw, he⟩
  · rw [he]
  · rw [he, hw]
    rfl

/-! ## The law -/

/-- What the callers' places say about the trace and `enabled_`, and how many callbacks are left. -/
structure StaleInv (tr : List Ev) (s : VSync) : Prop where
  progress : ∀ j, (s.callers j).call = some (.vsyncControl true) → InProgress j tr
  wrote : ∀ j b, (s.callers j).wrote = some b → s.enabled = b
  window : ∀ new i old, tr = new ++ .returned i (.vsyncControl false) :: old →
    (∀ j, ¬ InProgress j old) → (∀ j, .called j (.vsyncControl true) ∉ new) →
    s.enabled = false ∧ callbacks new + s.work.armed.toNat ≤ 1

/-- In the window nobody is in a `VSyncControl(true)`. -/
theorem StaleInv.not_enabling {new old : List Ev} {k : Nat} (hi : StaleInv tr s)
    (htr : tr = new ++ .returned k (.vsyncControl false) :: old) (hold : ∀ j, ¬ InProgress j old)
    (hnew : ∀ j, .called j (.vsyncControl true) ∉ new) (j : Nat) :
    (s.callers j).call ≠ some (.vsyncControl true) := by
  intro hc
  have hp := hi.progress j hc
  rw [htr] at hp
  have hsince := since_of_append (fun e he heq => hnew j (by rw [← heq]; exact he)) hp
  rcases since_cons.1 hsince with h | ⟨-, h⟩
  · cases h
  · exact hold j h

/-- A marked event of a longer trace is one of the new events, or the trace had it. -/
theorem split_append {new old : List Ev} {e : Ev} (h : es ++ tr = new ++ e :: old) :
    (∃ mid, new = es ++ mid ∧ tr = mid ++ e :: old) ∨
      ∃ mid, es = new ++ e :: mid ∧ old = mid ++ tr := by
  rcases List.append_eq_append_iff.1 h with ⟨mid, hnew, htr⟩ | ⟨mid, hes, hold⟩
  · exact .inl ⟨mid, hnew, htr⟩
  · cases mid with
    | nil =>
      rw [List.append_nil] at hes
      exact .inl ⟨[], by rw [hes, List.append_nil], hold.symm⟩
    | cons f mid =>
      rw [List.cons_append, List.cons.injEq] at hold
      obtain ⟨rfl, rfl⟩ := hold
      exact .inr ⟨mid, hes, rfl⟩

theorem inProgress_append {j : Nat} (h : InProgress j tr) (hes : ∀ c, .returned j c ∉ es) :
    InProgress j (es ++ tr) := by
  induction es with
  | nil => exact h
  | cons e es ih =>
    refine since_cons.2 (.inr ⟨?_, ih fun c hc => hes c (List.mem_cons_of_mem _ hc)⟩)
    rintro ⟨c, rfl⟩
    exact hes c List.mem_cons_self

/-- A step of the worker, or of nobody. -/
theorem StaleInv.uncalled (hi : StaleInv tr s) (h : Uncalled s s' es) : StaleInv (es ++ tr) s' := by
  have hret (i : Nat) (c : Call) : .returned i c ∉ es := fun hmem => by
    have hev := h.events _ hmem
    simp [Ev.isVSync] at hev
  refine ⟨fun j hj => ?_, fun j b hj => ?_, fun new i old htr hold hnew => ?_⟩
  · rw [h.callers] at hj
    exact inProgress_append (hi.progress j hj) (hret j)
  · rw [h.callers] at hj
    rw [h.enabled]
    exact hi.wrote j b hj
  · rcases split_append htr with ⟨mid, rfl, hmid⟩ | ⟨mid, rfl, -⟩
    · obtain ⟨he, hle⟩ := hi.window mid i old hmid hold fun j hj =>
        hnew j (List.mem_append_right _ hj)
      have harmed := h.armed he
      refine ⟨h.enabled.trans he, ?_⟩
      rw [callbacks_append]
      omega
    · exact absurd (List.mem_append_right _ List.mem_cons_self) (hret i _)

/-- A call begins. -/
theorem StaleInv.called {i : Nat} {c : Call} (hi : StaleInv tr s) :
    StaleInv (.called i c :: tr) (s.setCaller i (.lock c)) := by
  refine ⟨fun j hj => ?_, fun j b hj => ?_, fun new k old htr hold hnew => ?_⟩
  · rcases setCaller_cases s i (.lock c) j with ⟨rfl, hp⟩ | ⟨-, hp⟩
    · rw [hp] at hj
      cases hj
      exact since_cons.2 (.inl rfl)
    · rw [hp] at hj
      have hes (c' : Call) : .returned j c' ∉ [Ev.called i c] := by simp
      exact inProgress_append (hi.progress j hj) hes
  · rcases setCaller_cases s i (.lock c) j with ⟨rfl, hp⟩ | ⟨-, hp⟩
    · rw [hp] at hj
      cases hj
    · rw [hp] at hj
      exact hi.wrote j b hj
  · have happ : [.called i c] ++ tr = new ++ .returned k (.vsyncControl false) :: old := htr
    rcases split_append happ with ⟨mid, rfl, hmid⟩ | ⟨mid, hes, -⟩
    · obtain ⟨he, hle⟩ := hi.window mid k old hmid hold fun j hj =>
        hnew j (List.mem_append_right _ hj)
      exact ⟨he, hle⟩
    · cases new <;> simp at hes

/-- Caller `i` goes on to the place `p`. -/
structure Moved (i : Nat) (p : CallPc) (s s' : VSync) (es : List Ev) : Prop where
  aside : Aside s s' es
  callers : s'.callers = (s.setCaller i p).callers
  call : p.call = none ∨ p.call = (s.callers i).call
  wrote : ∀ b, p.wrote = some b →
    s'.enabled = b ∨ s'.enabled = s.enabled ∧ (s.callers i).wrote = some b
  enabled : s'.enabled = s.enabled ∨
    (s.callers i).call = some (.vsyncControl s'.enabled) ∧ ∀ j, j ≠ i → (s.callers j).wrote = none
  returned : ∀ j c, .returned j c ∈ es → j = i ∧ p = .idle ∧ s.callers i = .unlock c

section Moved
variable {p : CallPc}

theorem Moved.caller (h : Moved i p s s' es) (j : Nat) :
    (j = i ∧ s'.callers j = p) ∨ (j ≠ i ∧ s'.callers j = s.callers j) := by
  rw [h.callers]
  exact setCaller_cases s i p j

/-- Who is in a call was in it before. -/
theorem Moved.call_eq (h : Moved i p s s' es) {j : Nat} {c : Call}
    (hj : (s'.callers j).call = some c) : (s.callers j).call = some c := by
  rcases h.caller j with ⟨rfl, hp⟩ | ⟨-, hp⟩
  · rw [hp] at hj
    rcases h.call with hc | hc
    · rw [hc] at hj
      cases hj
    · exact hc.symm.trans hj
  · rwa [hp] at hj

theorem Moved.wrote_cases (h : Moved i p s s' es) {j : Nat} {b : Bool}
    (hj : (s'.callers j).wrote = some b) :
    s'.enabled = b ∨ s'.enabled = s.enabled ∧ (s.callers j).wrote = some b := by
  rcases h.caller j with ⟨rfl, hp⟩ | ⟨hne, hp⟩
  · rw [hp] at hj
    exact h.wrote b hj
  · rw [hp] at hj
    rcases h.enabled with he | ⟨-, hnone⟩
    · exact .inr ⟨he, hj⟩
    · rw [hnone j hne] at hj
      cases hj

/-- Vsync stays disabled, but for a `VSyncControl(true)`. -/
theorem Moved.enabled_false (h : Moved i p s s' es) (he : s.enabled = false)
    (hnot : (s.callers i).call ≠ some (.vsyncControl true)) : s'.enabled = false := by
  rcases h.enabled with hsame | ⟨hcall, -⟩
  · exact hsame.trans he
  · cases hb : s'.enabled with
    | false => rfl
    | true => exact absurd (hb ▸ hcall) hnot

/-- A `VSyncControl(false)` returns: its window begins. -/
theorem StaleInv.window_begins {new mid : List Ev} {k : Nat} (hi : StaleInv tr s)
    (h : Moved i p s s' (new ++ .returned k (.vsyncControl false) :: mid)) :
    s'.enabled = false ∧ callbacks new + s'.work.armed.toNat ≤ 1 := by
  obtain ⟨rfl, -, hp⟩ := h.returned k _ (List.mem_append_right _ List.mem_cons_self)
  have he : s.enabled = false := hi.wrote k false (by rw [hp]; rfl)
  have hnot : (s.callers k).call ≠ some (.vsyncControl true) := by
    rw [hp]
    simp [CallPc.call]
  have harmed := h.aside.armed
  rw [callbacks_append] at harmed
  have hone := Bool.toNat_le s.work.armed
  exact ⟨h.enabled_false he hnot, by omega⟩

theorem StaleInv.moved (hi : StaleInv tr s) (h : Moved i p s s' es) : StaleInv (es ++ tr) s' := by
  refine ⟨fun j hj => ?_, fun j b hj => ?_, fun new k old htr hold hnew => ?_⟩
  · refine inProgress_append (hi.progress j (h.call_eq hj)) fun c hc => ?_
    obtain ⟨rfl, rfl, -⟩ := h.returned j c hc
    rcases h.caller j with ⟨-, hp⟩ | ⟨hne, -⟩
    · rw [hp] at hj
      cases hj
    · exact hne rfl
  · rcases h.wrote_cases hj with he | ⟨he, hw⟩
    · exact he
    · exact he.trans (hi.wrote j b hw)
  · rcases split_append htr with ⟨mid, rfl, hmid⟩ | ⟨mid, rfl, -⟩
    · have hin (j : Nat) (hj : .called j (.vsyncControl true) ∈ mid) : False :=
        hnew j (List.mem_append_right _ hj)
      obtain ⟨he, hle⟩ := hi.window mid k old hmid hold hin
      have harmed := h.aside.armed
      refine ⟨h.enabled_false he (hi.not_enabling hmid hold hin i), ?_⟩
      rw [callbacks_append]
      omega
    · exact hi.window_begins h

end Moved

/-- A step of a caller. -/
theorem callStep_moved (huniq : ∀ j, (s.callers j).hasLock = true →
    (s.callers i).hasLock = true → j = i) (h : s.callStep i = some (s', es)) :
    ∃ p, Moved i p s s' es := by
  have haside := callStep_aside h
  cases callStep_cases h with
  | lock c hp =>
    exact ⟨.write c, haside, rfl, .inr (by rw [hp]; rfl), by simp [CallPc.wrote], .inl rfl, by simp⟩
  | write c hp =>
    refine ⟨c.next, haside, ?_, .inr ?_, fun b hb => ?_, ?_, by simp⟩
    · simp [setCaller]
    · rw [hp, call_next]
      rfl
    · refine .inl ?_
      show (s.write c).enabled = b
      cases c <;> simp [Call.next, CallPc.wrote, write] at hb ⊢
      exact hb
    · rcases write_enabled s c with he | he
      · exact .inl he
      · refine .inr ⟨by rw [hp]; exact congrArg some he, fun j hj => ?_⟩
        cases hw : (s.callers j).wrote with
        | none => rfl
        | some b => exact absurd (huniq j (hasLock_of_wrote hw) (by rw [hp]; rfl)) hj
  | reset c hp =>
    have hsame : (CallPc.signal c).wrote = (s.callers i).wrote := by
      rw [hp]
      cases c <;> rfl
    exact ⟨.signal c, haside, rfl, .inr (by rw [hp]; rfl),
      fun b hb => .inr ⟨rfl, hsame.symm.trans hb⟩, .inl rfl, by simp⟩
  | signal c hp =>
    have hsame : (CallPc.unlock c).wrote = (s.callers i).wrote := by
      rw [hp]
      cases c <;> rfl
    exact ⟨.unlock c, haside, rfl, .inr (by rw [hp]; rfl),
      fun b hb => .inr ⟨rfl, hsame.symm.trans hb⟩, .inl rfl, by simp⟩
  | unlock c hp =>
    refine ⟨.idle, haside, rfl, .inl rfl, by simp [CallPc.wrote], .inl rfl, fun j c' hmem => ?_⟩
    rw [List.mem_singleton, Ev.returned.injEq] at hmem
    obtain ⟨rfl, rfl⟩ := hmem
    exact ⟨rfl, rfl, hp⟩

theorem stale_run (hr : (system frameNs).Run System.any tr s) : StaleInv tr s := by
  refine System.Run.induction (J := fun tr s => (system frameNs).Run System.any tr s)
    (I := StaleInv) (fun _ _ => id) ?_ ?_ hr
  · rintro s tr ⟨hi, rfl⟩
    refine ⟨fun j hj => ?_, fun j b hj => ?_, fun new i old htr => ?_⟩
    · rw [hi.callers j] at hj
      cases hj
    · rw [hi.callers j] at hj
      cases hj
    · cases new <;> cases htr
  · intro s a s' es tr hrun hi _ h
    replace h : step frameNs s a = some (s', es) := h
    cases a with
    | call i c =>
      simp only [step] at h
      split at h <;> cases h
      exact hi.called
    | caller i =>
      obtain ⟨p, hp⟩ := callStep_moved (fun j => caller_unique hrun) h
      exact hi.moved hp
    | work | wake | slept | tick => exact hi.uncalled (step_uncalled (by simp) (by simp) h)

/-- **At most one stale vsync**: after a `VSyncControl(false)` that returned while no
`VSyncControl(true)` was in progress, and until the next one begins, at most one callback starts. -/
theorem stale_once (hr : (system frameNs).Run System.any tr s) : StaleOnce tr := by
  intro new i old htr hold hnew
  have hle := ((stale_run hr).window new i old htr hold hnew).2
  omega

/-- A run with a stale callback. -/
theorem stale_once_sleeping : ∃ tr s, (system 16666667).Run System.any tr s ∧
    callbacks tr = 1 ∧ StaleOnce tr := by
  obtain ⟨tr, s, hr, hp⟩ := System.exists_run (system 16666667) System.any
    (s := ⟨none, false, true, none, 0, -1, 0, .top, fun _ => .idle⟩)
    ⟨⟨rfl, rfl, rfl, rfl, Int.le_refl _, rfl, fun _ => rfl⟩, rfl⟩
    (List.flatten [
      .call 0 (.setProcs (some ⟨0x1000⟩)) :: List.replicate 3 (.caller 0),
      List.replicate 9 .work,
      .call 0 (.vsyncControl false) :: List.replicate 5 (.caller 0),
      [.tick 16666667, .slept 0 0, .work]])
    (fun tr _ => callbacks tr == 1) (by decide +kernel)
  exact ⟨tr, s, hr, eq_of_beq hp, stale_once hr⟩

/-- Without the condition: the call that waited for the mutex enables vsync again, after the
`VSyncControl(false)` that overtook it has returned. -/
theorem stale_overtaken : ¬ ∀ frameNs tr s, (system frameNs).Run System.any tr s →
    ∀ new i old, tr = new ++ .returned i (.vsyncControl false) :: old →
      (∀ j, .called j (.vsyncControl true) ∉ new) → callbacks new ≤ 1 := by
  intro hall
  obtain ⟨tr, s, hr, hp⟩ := System.exists_run (system 16666667) System.any
    (s := ⟨none, false, false, none, 0, -1, 0, .top, fun _ => .idle⟩)
    ⟨⟨rfl, rfl, rfl, rfl, Int.le_refl _, rfl, fun _ => rfl⟩, rfl⟩
    (List.flatten [
      .call 0 (.setProcs (some ⟨0x1000⟩)) :: List.replicate 3 (.caller 0),
      [.call 1 (.vsyncControl true)],
      .call 0 (.vsyncControl false) :: List.replicate 5 (.caller 0),
      List.replicate 5 (.caller 1),
      List.replicate 9 .work, [.tick 16666667, .slept 0 0],
      List.replicate 13 .work, [.tick 16666667, .slept 0 0, .work]])
    (fun tr _ => tr ==
      ([.vsync 0 16666667 33333334, .vsync 0 0 16666667, .returned 1 (.vsyncControl true),
        .reset] : List Ev) ++
      (.returned 0 (.vsyncControl false) ::
      [.reset, .called 0 (.vsyncControl false), .called 1 (.vsyncControl true),
        .returned 0 (.setProcs (some ⟨0x1000⟩)), .called 0 (.setProcs (some ⟨0x1000⟩))] : List Ev))
    (by decide +kernel)
  have hle := hall _ tr s hr _ 0 _ (eq_of_beq hp) (by simp)
  exact absurd hle (by decide)

end VSync

end EinkHwc
