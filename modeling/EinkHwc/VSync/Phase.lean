import EinkHwc.VSync.Worker
import Mathlib.Data.Int.Basic
import Mathlib.Tactic.Ring

/-!
# The vsync timestamps

`GetPhasedVSync` continues the phase of `last_timestamp_`, which is never ahead of the clock: the
worker stores it only once it has slept until then. The worker reads it without `lock_`, twice in
one sum; `steady` runs are those in which no `VSyncControl` writes it between these two reads.

* `phased_bounds`: the sum is the first time in phase after `current`.
* `Timed`: what the place of the worker says about the clock reading and the timestamp.
* `Phased`: the phase of the last delivery, as long as nothing was reset since.
* `timestamps_in_phase`: delivered timestamps increase, are at most a frame ahead of the clock
  reading, and keep their phase.
-/

namespace EinkHwc

namespace VSync

/-- The timestamps delivered, the first one first. -/
def delivered (tr : List Ev) : List Int := Trace.collect Ev.isVSync tr

/-- The last delivered timestamp, if nothing was reset since. -/
def phaseOf : List Ev → Option Int
  | [] => none
  | .vsync _ _ timestamp :: _ => some timestamp
  | .reset :: _ => none
  | .called .. :: tr | .returned .. :: tr => phaseOf tr

/-- At the second of the two reads. -/
def WorkPc.atBase : WorkPc → Bool
  | .base .. => true
  | _ => false

/-- Caller `i` is at `last_timestamp_ = -1`. -/
def CallPc.atReset : CallPc → Bool
  | .reset _ => true
  | _ => false

/-- `VSyncControl` does not write `last_timestamp_` between the two reads. -/
def steady (s : VSync) : Act → Prop
  | .caller i => ¬ (s.work.atBase = true ∧ (s.callers i).atReset = true)
  | _ => True

instance (s : VSync) : (a : Act) → Decidable (steady s a)
  | .caller _ => inferInstanceAs (Decidable (¬ (_ ∧ _)))
  | .call .. | .work | .wake | .slept .. | .tick _ => inferInstanceAs (Decidable True)

variable {frameNs : Int} {s s' : VSync} {a : Act} {es tr : List Ev}

/-- The sum of `GetPhasedVSync` is the first time after `now` that is in phase with `last`. -/
theorem phased_bounds {now last : Int} (hf : 0 < frameNs) (h : last ≤ now) :
    now < frameNs * ((now - last).tdiv frameNs + 1) + last ∧
      frameNs * ((now - last).tdiv frameNs + 1) + last ≤ now + frameNs := by
  have hdiv : (now - last).tdiv frameNs = (now - last) / frameNs :=
    Int.tdiv_eq_ediv_of_nonneg (by omega)
  have hmod := Int.emod_add_mul_ediv (now - last) frameNs
  have hlt := Int.emod_lt_of_pos (now - last) hf
  have hnn := Int.emod_nonneg (now - last) hf.ne'
  rw [hdiv, Int.mul_add, Int.mul_one]
  omega

/-- What the place of the worker says about the clock reading and the timestamp. -/
def WorkPc.Timed (frameNs last clock : Int) : WorkPc → Prop
  | .phase _ now | .diff _ now => last ≤ now ∧ 0 ≤ now ∧ now ≤ clock
  | .base _ now d => last ≤ now ∧ 0 ≤ now ∧ now ≤ clock ∧
      d = frameNs * ((now - last).tdiv frameNs + 1)
  | .sleep _ now vsync => 0 ≤ now ∧ now ≤ clock ∧ now < vsync.ns ∧ vsync.ns ≤ now + frameNs
  | .callback _ now timestamp => 0 ≤ now ∧ now < timestamp ∧ timestamp ≤ now + frameNs ∧
      timestamp ≤ clock
  | .store timestamp => 0 ≤ timestamp ∧ timestamp ≤ clock
  | _ => True

/-- The stored timestamp is not ahead of the clock. -/
structure Timed (frameNs : Int) (s : VSync) : Prop where
  clock : 0 ≤ s.clock
  lo : -1 ≤ s.lastTimestamp
  hi : s.lastTimestamp ≤ s.clock
  work : s.work.Timed frameNs s.lastTimestamp s.clock

theorem WorkPc.Timed.mono {last last' clock clock' : Int} {p : WorkPc}
    (h : p.Timed frameNs last clock) (hc : clock ≤ clock') (hl : last' = last ∨ last' = -1)
    (hbase : p.atBase = true → last' = last) : p.Timed frameNs last' clock' := by
  cases p <;> simp only [WorkPc.Timed] at h ⊢
  case base v now d =>
    rw [hbase rfl]
    omega
  all_goals omega

/-- A step beside the worker at its second read does not write `last_timestamp_`. -/
theorem last_of_steady (ha : a.isWork = false) (hok : steady s a)
    (h : step frameNs s a = some (s', es)) (hb : s.work.atBase = true) :
    s'.lastTimestamp = s.lastTimestamp := by
  cases a with
  | caller i =>
    have hr : (s.callers i).atReset = false := Bool.eq_false_iff.2 fun hr => hok ⟨hb, hr⟩
    cases callStep_cases h with
    | lock | signal | unlock => rfl
    | write c => cases c <;> rfl
    | reset c hp =>
      rw [hp] at hr
      cases hr
  | call i c =>
    simp only [step] at h
    split at h <;> cases h
    rfl
  | wake =>
    simp only [step] at h
    split at h <;> cases h
    rfl
  | tick d =>
    cases h
    rfl
  | work | slept ret errno => cases ha

theorem Timed.aside (hi : Timed frameNs s) (h : Aside s s' es)
    (hbase : s.work.atBase = true → s'.lastTimestamp = s.lastTimestamp) : Timed frameNs s' := by
  obtain ⟨h0, hlo, hle, hw⟩ := hi
  have hc := h.clock
  have hl : s'.lastTimestamp = s.lastTimestamp ∨ s'.lastTimestamp = -1 :=
    h.last.imp And.left And.left
  refine ⟨by omega, by omega, by omega, ?_⟩
  rcases h.work with he | ⟨-, he⟩
  · rw [he]
    exact hw.mono hc hl hbase
  · rw [he]
    trivial

theorem Timed.workStep (hf : 0 < frameNs) (hi : Timed frameNs s)
    (h : s.workStep frameNs = some (s', es)) : Timed frameNs s' := by
  obtain ⟨h0, hlo, hle, hw⟩ := hi
  unfold VSync.workStep at h
  cases hp : s.work <;> simp only [hp] at h <;> simp only [hp, WorkPc.Timed] at hw
  case base v now d =>
    cases h
    obtain ⟨hln, hn, hnc, rfl⟩ := hw
    have hb := phased_bounds hf hln
    refine ⟨h0, hlo, hle, hn, hnc, ?_⟩
    rw [Timespec.ns_ofNs]
    exact hb
  case phase v now =>
    split at h <;> cases h
    · refine ⟨h0, hlo, hle, hw.2.1, hw.2.2, ?_⟩
      rw [Timespec.ns_ofNs]
      omega
    · exact ⟨h0, hlo, hle, hw⟩
  case gettime v =>
    cases h
    exact ⟨h0, hlo, hle, hle, h0, le_refl _⟩
  case diff v now =>
    cases h
    exact ⟨h0, hlo, hle, hw.1, hw.2.1, hw.2.2, rfl⟩
  case callback v now t =>
    cases h
    exact ⟨h0, hlo, hle, by omega, hw.2.2.2⟩
  case store t =>
    cases h
    exact ⟨h0, Int.le_trans (by decide) hw.1, hw.2, trivial⟩
  case readExit | test | enabled v =>
    cases h
    refine ⟨h0, hlo, hle, ?_⟩
    dsimp only
    split <;> trivial
  case top | lock | wait | woken | waited ret =>
    split at h <;> cases h <;> exact ⟨h0, hlo, hle, trivial⟩
  case read | unlock v =>
    cases h
    exact ⟨h0, hlo, hle, trivial⟩
  case waiting | sleep v now t | exited => cases h

theorem Timed.sleptStep {ret errno : Int} (hi : Timed frameNs s)
    (h : s.sleptStep ret errno = some (s', es)) : Timed frameNs s' := by
  obtain ⟨h0, hlo, hle, hw⟩ := hi
  unfold VSync.sleptStep at h
  cases hp : s.work <;> simp only [hp] at h <;> simp only [hp, WorkPc.Timed] at hw
  case sleep v now t =>
    split at h
    · cases h
      refine ⟨h0, hlo, hle, ?_⟩
      rw [hp]
      exact hw
    split at h
    · cases h
      exact ⟨h0, hlo, hle, trivial⟩
    split at h <;> cases h
    rename_i hslept
    exact ⟨h0, hlo, hle, hw.1, hw.2.2.1, hw.2.2.2, hslept⟩
  all_goals cases h

theorem timed_run (hf : 0 < frameNs) (hr : (system frameNs).Run steady tr s) :
    Timed frameNs s := by
  refine Trace.System.Inductive.run (I := fun _ s => Timed frameNs s) ⟨?_, ?_⟩ hr
  · rintro s tr ⟨hi, -⟩
    refine ⟨hi.clock, ?_, ?_, ?_⟩
    · rw [hi.lastTimestamp]
    · rw [hi.lastTimestamp]
      have := hi.clock
      omega
    · rw [hi.work]
      trivial
  · intro s a s' es tr hi hok h
    cases ha : a.isWork with
    | false => exact hi.aside (step_aside ha h) (last_of_steady ha hok h)
    | true =>
      cases a with
      | work => exact hi.workStep hf h
      | slept ret errno => exact hi.sleptStep h
      | call i c | caller i | wake | tick d => cases ha

/-! ## The deliveries -/

/-- The delivered timestamps are not beyond this. -/
def WorkPc.horizon (clock : Int) : WorkPc → Int
  | .phase _ now | .diff _ now | .base _ now _ | .sleep _ now _ | .callback _ now _ => now
  | _ => clock

/-- What the worker is about to deliver, or will compute it from, is in phase with `t₀`. -/
def WorkPc.InPhase (frameNs last t₀ : Int) : WorkPc → Prop
  | .store timestamp => frameNs ∣ timestamp - t₀
  | .sleep _ _ vsync => 0 ≤ last ∧ frameNs ∣ last - t₀ ∧ frameNs ∣ vsync.ns - t₀
  | .callback _ _ timestamp => 0 ≤ last ∧ frameNs ∣ last - t₀ ∧ frameNs ∣ timestamp - t₀
  | _ => 0 ≤ last ∧ frameNs ∣ last - t₀

/-- A delivery against those before it. -/
def Ev.Good (frameNs : Int) : Ev → List Ev → Prop
  | .vsync _ now timestamp, past => now < timestamp ∧ timestamp ≤ now + frameNs ∧
      (∀ t ∈ delivered past, t < timestamp) ∧ ∀ t, phaseOf past = some t → frameNs ∣ timestamp - t
  | _, _ => True

structure Phased (frameNs : Int) (tr : List Ev) (s : VSync) : Prop where
  horizon : ∀ t ∈ delivered tr, t ≤ s.work.horizon s.clock
  phase : ∀ t, phaseOf tr = some t → s.work.InPhase frameNs s.lastTimestamp t
  good : Trace.Each (Ev.Good frameNs) tr

theorem delivered_quiet (h : ∀ e ∈ es, e.isVSync = none) : delivered (es ++ tr) = delivered tr := by
  have hes : es.filterMap Ev.isVSync = [] := List.filterMap_eq_nil_iff.2 h
  simp [delivered, Trace.collect, hes]

theorem phaseOf_quiet (h : ∀ e ∈ es, e.isVSync = none) (hr : .reset ∉ es) :
    phaseOf (es ++ tr) = phaseOf tr := by
  induction es with
  | nil => rfl
  | cons e es ih =>
    obtain ⟨he, hes⟩ := List.forall_mem_cons.1 h
    obtain ⟨hne, hres⟩ := not_or.1 (mt List.mem_cons.2 hr)
    cases e with
    | called i c | returned i c => exact ih hes hres
    | reset => exact absurd rfl hne
    | vsync d now t => cases he

theorem good_quiet (h : ∀ e ∈ es, e.isVSync = none) (hg : Trace.Each (Ev.Good frameNs) tr) :
    Trace.Each (Ev.Good frameNs) (es ++ tr) := by
  induction es with
  | nil => exact hg
  | cons e es ih =>
    obtain ⟨he, hes⟩ := List.forall_mem_cons.1 h
    refine ⟨?_, ih hes⟩
    cases e with
    | called i c | returned i c | reset => trivial
    | vsync d now t => cases he

/-- A step without a delivery and without a reset. -/
theorem Phased.move (hi : Phased frameNs tr s)
    (hh : s.work.horizon s.clock ≤ s'.work.horizon s'.clock)
    (hp : ∀ t, s.work.InPhase frameNs s.lastTimestamp t →
      s'.work.InPhase frameNs s'.lastTimestamp t) : Phased frameNs tr s' :=
  ⟨fun t ht => (hi.horizon t ht).trans hh, fun t ht => hp t (hi.phase t ht), hi.good⟩

theorem Phased.aside (hi : Phased frameNs tr s) (h : Aside s s' es) :
    Phased frameNs (es ++ tr) s' := by
  have hc := h.clock
  have hh : s.work.horizon s.clock ≤ s'.work.horizon s'.clock := by
    rcases h.work with he | ⟨he, he'⟩
    · rw [he]
      cases s.work <;> simp only [WorkPc.horizon] <;> omega
    · rw [he, he']
      exact hc
  have hp (l t : Int) (hl : s.work.InPhase frameNs l t) : s'.work.InPhase frameNs l t := by
    rcases h.work with he | ⟨he, he'⟩
    · rw [he]
      exact hl
    · rw [he] at hl
      rw [he']
      exact hl
  refine ⟨fun t ht => ?_, fun t ht => ?_, good_quiet h.vsync hi.good⟩
  · rw [delivered_quiet h.vsync] at ht
    exact (hi.horizon t ht).trans hh
  · rcases h.last with ⟨hl, hr⟩ | ⟨-, rfl⟩
    · rw [phaseOf_quiet h.vsync hr] at ht
      rw [hl]
      exact hp _ _ (hi.phase t ht)
    · cases ht

/-- The timestamp is delivered, if there is a hook. -/
theorem Phased.callback {v : Locals} {now timestamp : Int} (ht : Timed frameNs s)
    (hi : Phased frameNs tr s) (hw : s.work = .callback v now timestamp) :
    Phased frameNs ((if v.procs.any (·.vsync > 0x10) then [.vsync v.display now timestamp] else [])
      ++ tr) { s with work := .store timestamp } := by
  have htw := ht.work
  have hh := hi.horizon
  have hp := hi.phase
  rw [hw] at htw hh hp
  obtain ⟨-, hlt, hle, hclock⟩ := htw
  split
  · refine ⟨fun t hm => ?_, fun t hm => ?_, ⟨hlt, hle, fun t hm => (hh t hm).trans_lt hlt,
      fun t hm => (hp t hm).2.2⟩, hi.good⟩
    · rw [delivered, List.singleton_append, Trace.collect_cons, List.mem_append] at hm
      rcases hm with hm | hm
      · exact ((hh t hm).trans hlt.le).trans hclock
      · rw [List.mem_singleton.1 hm]
        exact hclock
    · cases hm
      exact ⟨0, by ring⟩
  · refine hi.move ?_ fun t hl => ?_
    · rw [hw]
      exact hlt.le.trans hclock
    · rw [hw] at hl
      exact hl.2.2

theorem Phased.workStep (ht : Timed frameNs s) (hi : Phased frameNs tr s)
    (h : s.workStep frameNs = some (s', es)) : Phased frameNs (es ++ tr) s' := by
  have htw := ht.work
  unfold VSync.workStep at h
  cases hw : s.work <;> simp only [hw] at h <;> simp only [hw, WorkPc.Timed] at htw
  case callback v now t =>
    cases h
    exact hi.callback ht hw
  case base v now d =>
    cases h
    refine hi.move (by rw [hw]; exact le_refl _) fun t hl => ?_
    rw [hw] at hl
    refine ⟨hl.1, hl.2, ?_⟩
    rw [Timespec.ns_ofNs, htw.2.2.2, add_sub_assoc]
    exact Int.dvd_add (Int.dvd_mul_right _ _) hl.2
  case phase v now =>
    split at h <;> cases h
    · rename_i hneg
      refine hi.move (by rw [hw]; exact le_refl _) fun t hl => ?_
      rw [hw] at hl
      exact absurd hl.1 (not_le_of_gt hneg)
    · exact hi.move (by rw [hw]; exact le_refl _) fun t hl => by rw [hw] at hl; exact hl
  case diff v now =>
    cases h
    exact hi.move (by rw [hw]; exact le_refl _) fun t hl => by rw [hw] at hl; exact hl
  case store t =>
    cases h
    refine hi.move (by rw [hw]; exact le_refl _) fun t hl => ?_
    rw [hw] at hl
    exact ⟨htw.1, hl⟩
  case readExit | test | enabled v =>
    cases h
    refine hi.move ?_ fun t hl => ?_
    · rw [hw]
      dsimp only
      split <;> exact le_refl _
    · rw [hw] at hl
      dsimp only
      split <;> exact hl
  case top | lock | wait | woken | waited ret =>
    split at h <;> cases h <;>
      exact hi.move (by rw [hw]; exact le_refl _) fun t hl => by rw [hw] at hl; exact hl
  case read | unlock v | gettime v =>
    cases h
    exact hi.move (by rw [hw]; exact le_refl _) fun t hl => by rw [hw] at hl; exact hl
  case waiting | sleep v now t | exited => cases h

theorem Phased.sleptStep {ret errno : Int} (ht : Timed frameNs s) (hi : Phased frameNs tr s)
    (h : s.sleptStep ret errno = some (s', es)) : Phased frameNs (es ++ tr) s' := by
  have htw := ht.work
  unfold VSync.sleptStep at h
  cases hw : s.work <;> simp only [hw] at h <;> simp only [hw, WorkPc.Timed] at htw
  case sleep v now vsync =>
    split at h
    · cases h
      exact hi
    split at h
    · cases h
      refine hi.move ?_ fun t hl => ?_
      · rw [hw]
        exact htw.2.1
      · rw [hw] at hl
        exact ⟨hl.1, hl.2.1⟩
    split at h <;> cases h
    exact hi.move (by rw [hw]; exact le_refl _) fun t hl => by rw [hw] at hl; exact hl
  all_goals cases h

theorem phased_run (hf : 0 < frameNs) (hr : (system frameNs).Run steady tr s) :
    Phased frameNs tr s := by
  refine Trace.System.Run.induction (J := fun _ s => Timed frameNs s)
    (I := fun tr s => Phased frameNs tr s) (fun _ _ => timed_run hf) ?_ ?_ hr
  · rintro s tr ⟨-, rfl⟩
    exact ⟨by simp [delivered], by simp [phaseOf], trivial⟩
  · intro s a s' es tr ht hi _ h
    cases ha : a.isWork with
    | false => exact hi.aside (step_aside ha h)
    | true =>
      cases a with
      | work => exact hi.workStep ht h
      | slept ret errno => exact hi.sleptStep ht h
      | call i c | caller i | wake | tick d => cases ha

/-! ## What the trace says -/

theorem good_pairwise (h : Trace.Each (Ev.Good frameNs) tr) :
    (delivered tr).Pairwise (· < ·) := by
  induction tr with
  | nil => exact List.Pairwise.nil
  | cons e tr ih =>
    obtain ⟨he, htr⟩ := h
    rw [delivered, Trace.collect_cons]
    cases e with
    | vsync d now t =>
      refine List.pairwise_append.2 ⟨ih htr, List.pairwise_singleton .., fun u hu w hw => ?_⟩
      rw [List.mem_singleton.1 hw]
      exact he.2.2.1 u hu
    | called i c | returned i c | reset =>
      rw [show Ev.isVSync _ = none from rfl, Option.toList_none, List.append_nil]
      exact ih htr

theorem good_mem {d now t : Int} (h : Trace.Each (Ev.Good frameNs) tr)
    (hm : .vsync d now t ∈ tr) : now < t ∧ t ≤ now + frameNs := by
  obtain ⟨pre, past, rfl⟩ := List.append_of_mem hm
  have hg := (Trace.each_of_append h).1
  exact ⟨hg.1, hg.2.1⟩

/-- The timestamps of a run. A delivery is in phase with the one before it unless `VSyncControl` has
written `last_timestamp_` since. -/
structure Timestamps (frameNs : Int) (tr : List Ev) : Prop where
  increase : (delivered tr).Pairwise (· < ·)
  ahead : ∀ display now t, .vsync display now t ∈ tr → now < t ∧ t ≤ now + frameNs
  phase : ∀ pre mid past d₁ now₁ t₁ d₂ now₂ t₂,
    tr = pre ++ .vsync d₂ now₂ t₂ :: (mid ++ .vsync d₁ now₁ t₁ :: past) →
    (∀ e ∈ mid, e.isVSync = none) → .reset ∉ mid → ∃ m : Nat, 0 < m ∧ t₂ = t₁ + m * frameNs

/-- **The timestamps are monotone and in phase**, in every run in which no `VSyncControl` writes
`last_timestamp_` between the two reads of it in one sum. -/
theorem timestamps_in_phase (hf : 0 < frameNs) (hr : (system frameNs).Run steady tr s) :
    Timestamps frameNs tr := by
  have hg := (phased_run hf hr).good
  refine ⟨good_pairwise hg, fun d now t => good_mem hg, ?_⟩
  rintro pre mid past d₁ now₁ t₁ d₂ now₂ t₂ rfl hmid hreset
  obtain ⟨-, -, hlt, hphase⟩ := (Trace.each_of_append hg).1
  have hp : phaseOf (mid ++ .vsync d₁ now₁ t₁ :: past) = some t₁ := phaseOf_quiet hmid hreset
  have hd : t₁ ∈ delivered (mid ++ .vsync d₁ now₁ t₁ :: past) := by
    rw [delivered_quiet hmid]
    simp [delivered, Ev.isVSync]
  have h12 := hlt t₁ hd
  obtain ⟨q, hq⟩ := hphase t₁ hp
  have hpos : 0 < q := by
    by_contra hneg
    have := Int.mul_nonpos_of_nonneg_of_nonpos hf.le (not_lt.1 hneg)
    omega
  refine ⟨q.toNat, by omega, ?_⟩
  rw [Int.toNat_of_nonneg hpos.le, Int.mul_comm]
  omega

/-- The worker is created one second after the clock started. -/
def oneSecond : VSync := ⟨none, false, false, none, 0, -1, kOneSecondNs, .top, fun _ => .idle⟩

theorem init_oneSecond : oneSecond.Init :=
  ⟨rfl, rfl, rfl, rfl, by decide, rfl, fun _ => rfl⟩

/-- The hook is set, and vsync enabled; the worker delivers the first timestamp, and reads the clock
again a millisecond later. -/
def firstFrame : List Act :=
  [.call 0 (.setProcs (some ⟨4096⟩)), .caller 0, .caller 0, .caller 0,
    .call 0 (.vsyncControl true), .caller 0, .caller 0, .caller 0, .caller 0, .caller 0,
    .work, .work, .work, .work, .work, .work, .work, .work, .work,
    .tick 16666667, .slept 0 0, .work, .work,
    .tick 1000000, .work, .work, .work, .work, .work, .work, .work, .work]

/-- `timestamps_in_phase` in a run with two deliveries, a frame apart. -/
theorem timestamps_in_phase_two : ∃ tr s, (system 16666667).Run steady tr s ∧
    delivered tr = [1016666667, 1033333334] ∧ Timestamps 16666667 tr := by
  obtain ⟨tr, s, hr, hp⟩ := Trace.System.exists_run (system 16666667) steady ⟨init_oneSecond, rfl⟩
    (firstFrame ++ ([.work, .work, .work, .tick 16000000, .slept 0 0, .work] : List Act))
    (fun tr _ => delivered tr == [1016666667, 1033333334]) (by decide +kernel)
  exact ⟨tr, s, hr, by simpa using hp, timestamps_in_phase (by decide) hr⟩

/-- `VSyncControl` writes -1 after `current - last_timestamp_` and before `+ last_timestamp_`: the
second timestamp is a second in the past, and below the first one. -/
theorem timestamp_in_past :
    ¬ ∀ tr s, (system 16666667).Run Trace.System.any tr s → Timestamps 16666667 tr := by
  intro h
  obtain ⟨tr, s, hr, hp⟩ := Trace.System.exists_run (system 16666667) Trace.System.any
    ⟨init_oneSecond, rfl⟩
    (firstFrame ++ ([.work, .work, .call 0 (.vsyncControl true), .caller 0, .caller 0, .caller 0,
      .work, .slept 0 0, .work] : List Act))
    (fun tr _ => tr.contains (.vsync 0 1017666667 16666666)) (by decide +kernel)
  have hlt := ((h tr s hr).ahead 0 1017666667 16666666 (by simpa using hp)).1
  omega

end VSync

end EinkHwc
