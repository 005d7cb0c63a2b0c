import EinkHwc.Sys.Cases
import EinkHwc.Trace.Timeline

/-!
# Retire and release fences

`CreateNextTimelineFence` and `FinishComposition` are a `Timeline`: `QueueComposite` hands out a
point for the retire fence and, for a new handle, one for the release fence, which is the
composition's; the worker advances the timeline to the release point of a composition it is through
with, by the difference to `timeline_current_`. Runs of the system are runs of that timeline
(`run_timeline`), and the rules of `Timeline.lean` give the rest.

- **Not early** (`no_early_signal`): a release fence is signalled only when `Compose` is through
  with its frame and every frame before it, and never while the frame is written or sent.
- **In the end** (`all_signalled_iff`): when no composition is left, all fences are signalled
  unless the last `QueueComposite` skipped its layer, or `Compose` returned early from the last
  composition. Either leaves fences behind (`skip_leaves_fence`).
- **Which ones** (`fence_signalled_iff`): a fence is signalled exactly when a frame that was
  accepted with it, or later, was served.
-/

namespace EinkHwc

open Trace

/-- The timeline's part of an event. -/
def Ev.toTimeline : Ev → Option (Timeline.Ev EinkComposition)
  | .queueComposite => some .issue
  | .accept c => some (.accept c)
  | .drop c => some (.drop c)
  | .served c => some (.served c)
  | .inc n => some (.inc n)
  | _ => none

/-- The composition that `FinishComposition` is called with. -/
def St.finishing (s : St) : Option EinkComposition :=
  match s.cur with
  | some k => if k.pc = .finish then some k.comp else none
  | none => none

/-- The timeline in a state. -/
def St.fences (s : St) : Timeline EinkComposition :=
  { issued := s.timeline
    value := s.timelineCurrent
    waiting := s.unserved
    signalling := s.finishing }

variable {s s' : St} {a : Act} {es tr : List Ev} {k : Composing}

theorem fences_none (h : s.cur = none) :
    s.fences = ⟨s.timeline, s.timelineCurrent, s.ho.inFlight, none⟩ := by
  simp only [St.fences, St.unserved, St.serving, St.finishing, h, List.nil_append]

theorem fences_some (h : s.cur = some k) (hp : k.pc ≠ .finish) :
    s.fences = ⟨s.timeline, s.timelineCurrent, k.comp :: s.ho.inFlight, none⟩ := by
  simp only [St.fences, St.unserved, St.serving, St.finishing, h, if_neg hp, List.cons_append,
    List.nil_append]

theorem fences_finish (h : s.cur = some k) (hp : k.pc = .finish) :
    s.fences = ⟨s.timeline, s.timelineCurrent, s.ho.inFlight, some k.comp⟩ := by
  simp only [St.fences, St.unserved, St.serving, St.finishing, h, if_pos hp, List.nil_append]

theorem fences_eq (hc : s'.cur = s.cur) (hf : s'.ho.inFlight = s.ho.inFlight)
    (ht : s'.timeline = s.timeline) (hv : s'.timelineCurrent = s.timelineCurrent) :
    s'.fences = s.fences := by
  simp only [St.fences, St.unserved, St.serving, St.finishing, hc, hf, ht, hv]

theorem toTimeline_core : (core tr).filterMap Ev.toTimeline = tr.filterMap Ev.toTimeline :=
  filterMap_core ⟨fun _ h => h rfl, fun _ _ h => h rfl⟩

/-- The result of `sw_sync_timeline_inc` is an error. -/
def Act.incFails : Act → Bool
  | .compose (.timelineInc ret) => ret != 0
  | _ => false

/-- Every step is one of the timeline's, or leaves it alone. -/
theorem step_timeline (h : Step s a s' es) :
    (s'.fences = s.fences ∧ es.filterMap Ev.toTimeline = []) ∨
      ∃ b, (b = .signal false → a.incFails = true) ∧
        Timeline.step EinkComposition.releaseTimeline s.fences b =
          some (s'.fences, es.filterMap Ev.toTimeline) := by
  rw [← toTimeline_core]
  cases h
  case setOn | setOff | queueDone =>
    refine .inl ⟨rfl, ?_⟩
    simp only [core_append, core_suspendEvs, core_setEvs, core_doneEvs, List.nil_append]
    first | rfl | split <;> rfl
  case start i j dc l fd _ _ _ _ _ =>
    refine .inr ⟨.issue, by simp, ?_⟩
    rw [queueCompositeStart, core_append, core_closeEvs]
    rfl
  case newLayer i j k comp dc l fd _ hp _ _ _ _ =>
    refine .inr ⟨.accept (fillComposition l comp s), by simp, ?_⟩
    have hf : (queueLayer i j k dc l comp fd s).1.fences =
        { s.fences with issued := s.timeline + 1
                        waiting := s.fences.waiting ++ [fillComposition l comp s] } := by
      simp only [queueLayer, St.fences, St.unserved, St.serving, St.finishing,
        Handoff.inFlight_lock hp, List.append_assoc]
    rw [hf, queueLayer, core_append, core_closeEvs]
    simp only [Timeline.step]
    rw [if_pos (show (fillComposition l comp s).releaseTimeline = s.fences.issued + 1 from rfl)]
    rfl
  case moved ho hf _ _ => exact .inl ⟨fences_eq rfl hf rfl rfl, rfl⟩
  case pushed ho c hf _ _ _ => exact .inl ⟨fences_eq rfl hf rfl rfl, rfl⟩
  case started ho c hf _ hc _ =>
    refine .inl ⟨?_, rfl⟩
    rw [fences_none hc, fences_some rfl (by simp), hf]
  case waited k k' ret hc hp hcomp hp' he =>
    refine .inl ⟨?_, by rw [core_waitEvs he]; rfl⟩
    rw [fences_some hc (by rcases hp with h | h <;> simp [h]),
      fences_some rfl (by rcases hp' with h | h <;> simp [h]), hcomp]
  case dropped k ret hc hp _ hw =>
    refine .inr ⟨.drop, by simp, ?_⟩
    rw [core_append, core_destroyEvs, fences_some hc (by rcases hp with h | h <;> simp [h]),
      fences_none rfl, Handoff.inFlight_top hw]
    rfl
  case ready k hc hp _ | notWritten k env m hc hp _ _ | wrote k env m hc hp _ _
    | sent k m hc hp _ =>
    refine .inl ⟨?_, rfl⟩
    rw [fences_some hc (by simp [hp]), fences_some rfl (by simp)]
  case notReady k b hc hp _ | sendFailed k m ret hc hp _ _ | got k m b hc hp _
    | getFailed k m hc hp _ =>
    refine .inr ⟨.serve, by simp, ?_⟩
    rw [fences_some hc (by simp [hp]), fences_finish rfl rfl]
    rfl
  case finished k ret hc hp hle hw =>
    refine .inr ⟨.signal (ret == 0), by simp [Act.incFails], ?_⟩
    rw [core_destroyEvs, fences_finish hc hp, fences_none rfl, Handoff.inFlight_top hw]
    simp only [Timeline.step]
    rw [if_neg]
    · rfl
    · rintro ⟨h0, hlt⟩
      rcases hle with hle | hne
      · omega
      · exact hne (by simpa using h0)
  case finishedInc k hc hp hlt hw =>
    refine .inr ⟨.signal true, by simp, ?_⟩
    rw [core_append, core_destroyEvs, fences_finish hc hp, fences_none rfl,
      Handoff.inFlight_top hw]
    simp only [Timeline.step]
    rw [if_pos ⟨trivial, hlt⟩]
    rfl
  all_goals exact .inl ⟨rfl, rfl⟩

variable {ok : St → Act → Prop}

/-- The timeline of a run is a run of the timeline. -/
theorem run_timeline (okT : Timeline EinkComposition → Timeline.Act EinkComposition → Prop)
    (hok : ∀ s a b, ok s a → (b = .signal false → a.incFails = true) → okT (St.fences s) b)
    (hr : Run ok tr s) :
    (Timeline.system EinkComposition.releaseTimeline).Run okT (tr.filterMap Ev.toTimeline)
      s.fences := by
  refine System.Run.project (J := fun _ s => Linked s) St.fences Ev.toTimeline
    (fun _ _ => linked_run) ?_ ?_ hr
  · rintro s tr ⟨panel, b, rfl, rfl⟩
    exact ⟨rfl, rfl⟩
  · intro s a s' es tr hl ha h
    rcases step_timeline (step_cases hl h) with he | ⟨b, hb, ht⟩
    · exact .inl he
    · exact .inr ⟨b, hok s a b ha hb, ht⟩

/-! ## Frames and increments of a run -/

def Ev.isAccept : Ev → Option EinkComposition
  | .accept c => some c
  | _ => none

def Ev.isFinish : Ev → Option EinkComposition
  | .drop c | .served c => some c
  | _ => none

def Ev.isInc : Ev → Option Int
  | .inc n => some n
  | _ => none

theorem collect_isAccept :
    collect Timeline.Ev.isAccept (tr.filterMap Ev.toTimeline) = collect Ev.isAccept tr := by
  rw [collect_filterMap]
  congr 1
  funext e
  cases e <;> rfl

theorem collect_isFinish :
    collect Timeline.Ev.isFinish (tr.filterMap Ev.toTimeline) = collect Ev.isFinish tr := by
  rw [collect_filterMap]
  congr 1
  funext e
  cases e <;> rfl

theorem collect_isInc :
    collect Timeline.Ev.isInc (tr.filterMap Ev.toTimeline) = collect Ev.isInc tr := by
  rw [collect_filterMap]
  congr 1
  funext e
  cases e <;> rfl

/-- Every frame that was accepted is finished, or still waits. -/
theorem finished_run (hr : Run ok tr s) :
    collect Ev.isAccept tr = collect Ev.isFinish tr ++ s.unserved := by
  have h := (Timeline.ordered_run (run_timeline System.any (fun _ _ _ _ _ => trivial) hr)).account
  rwa [collect_isAccept, collect_isFinish] at h

/-- The frames accepted are the frames pushed, and the one on its way to the queue. -/
theorem accepted_run (hr : Run ok tr s) :
    collect Ev.isAccept tr = collect Ev.isPush tr ++ s.ho.prodHeld := by
  have haccept : CoreOnly (Ev.isAccept · ≠ none) := ⟨fun _ h => h rfl, fun _ _ h => h rfl⟩
  have hpush : CoreOnly (Ev.isPush · ≠ none) := ⟨fun _ h => h rfl, fun _ _ h => h rfl⟩
  rw [← collect_core haccept, ← collect_core hpush]
  refine core_induction (J := fun _ _ => True)
    (I := fun tr s => collect Ev.isAccept tr = collect Ev.isPush tr ++ s.ho.prodHeld)
    (fun _ _ _ => trivial) (fun _ _ => rfl) ?_ hr
  intro s a s' es tr hj ih hok h
  rw [collect_append, collect_append]
  cases h
  case newLayer i j k comp dc l fd _ hp _ _ _ _ =>
    rw [Handoff.prodHeld_idle hp, List.append_nil] at ih
    rw [ih]
    simp [queueLayer, Ev.isFd, Ev.isAccept, Ev.isPush, Handoff.prodHeld]
  case pushed ho c _ h1 h0 _ =>
    rw [h1] at ih
    simp [ih, h0, Ev.isFd, Ev.isAccept, Ev.isPush]
  case moved ho _ hp _ => simpa [hp] using ih
  case started ho c _ hp _ _ => simpa [hp, Ev.isFd, Ev.isAccept, Ev.isPush] using ih
  case waited he => simpa [core_waitEvs he] using ih
  case setOn | setOff =>
    simp only [core_append, core_suspendEvs, core_setEvs, List.nil_append]
    split <;> simpa [Ev.isAccept, Ev.isPush] using ih
  all_goals
    simpa [queueCompositeStart, Handoff.prodHeld, Ev.isFd, Ev.isAccept, Ev.isPush] using ih

/-- The worker writes to `gray16_buffer` or sends it. -/
def Ev.isOutput : Ev → Bool
  | .write _ | .send .. => true
  | _ => false

/-- It does so in `Compose`, before `FinishComposition`. -/
theorem output_eq {e : Ev} (h : Step s a s' es) (he : e ∈ es) (ho : e.isOutput = true) :
    ∃ k, s.cur = some k ∧ k.pc ≠ .finish := by
  have hfd : e.isFd = false := by cases e <;> first | rfl | cases ho
  have hany : (core es).any Ev.isOutput = true :=
    List.any_eq_true.2 ⟨e, List.mem_filter.2 ⟨he, by rw [hfd]; rfl⟩, ho⟩
  cases h
  case wrote k _ _ hc hp _ _ | sent k _ hc hp _ => exact ⟨k, hc, by simp [hp]⟩
  case setOn | setOff =>
    simp only [core_append, core_suspendEvs, core_setEvs, List.nil_append] at hany
    split at hany <;> simp [Ev.isOutput] at hany
  case waited he => simp [core_waitEvs he] at hany
  all_goals simp [queueCompositeStart, queueLayer, Ev.isFd, Ev.isOutput] at hany

/-- **No fence is signalled early.** The worker's counter is the sum of the increments, never
decreases, and never passes the points handed out; when the release fence of a frame is signalled,
`Compose` is through with that frame and all frames pushed before it. While it writes and sends the
pixels of a frame, the fence of that frame is not signalled yet. -/
theorem no_early_signal (hr : Run ok tr s) :
    s.timelineCurrent = (collect Ev.isInc tr).sum ∧ s.timelineCurrent ≤ s.timeline ∧
      (∀ a s' es, step s a = some (s', es) → s.timelineCurrent ≤ s'.timelineCurrent) ∧
      (∀ xs c ys, collect Ev.isPush tr = xs ++ c :: ys →
        c.releaseTimeline ≤ (collect Ev.isInc tr).sum →
        (xs ++ [c]) <+: collect Ev.isFinish tr) ∧
      ∀ a s' es e, step s a = some (s', es) → e ∈ es → e.isOutput = true →
        ∃ k, s.cur = some k ∧ (collect Ev.isInc tr).sum < k.comp.releaseTimeline := by
  have ht := run_timeline System.any (fun _ _ _ _ _ => trivial) hr
  have ho := Timeline.ordered_run ht
  have hsum : s.timelineCurrent = (collect Ev.isInc tr).sum := by
    rw [← collect_isInc]
    exact ho.sum
  refine ⟨hsum, ho.le, fun a s' es h => ?_, fun xs c ys hp hc => ?_, fun a s' es e h he hout => ?_⟩
  · rcases step_timeline (step_cases (linked_run hr) h) with ⟨he, -⟩ | ⟨b, -, hb⟩
    · exact Int.le_of_eq (congrArg Timeline.value he.symm)
    · exact Timeline.step_value hb
  · have hv : c.releaseTimeline ≤ s.fences.value := by
      rw [← hsum] at hc
      exact hc
    have ha : collect Timeline.Ev.isAccept (tr.filterMap Ev.toTimeline) =
        xs ++ c :: (ys ++ s.ho.prodHeld) := by
      rw [collect_isAccept, accepted_run hr, hp, List.append_assoc, List.cons_append]
    have := Timeline.signalled_prefix ht ha hv
    rwa [collect_isFinish] at this
  · obtain ⟨k, hk, hpc⟩ := output_eq (step_cases (linked_run hr) h) he hout
    have hmem : k.comp ∈ s.fences.outstanding := by
      rw [fences_some hk hpc]
      exact List.mem_cons_self
    refine ⟨k, hk, ?_⟩
    rw [← hsum]
    exact (ho.ahead k.comp hmem).1

/-- `no_early_signal` in a run in which the first of two frames is sent and the second waits. -/
theorem no_early_signal_two : ∃ tr s, Run System.any tr s ∧ s.timelineCurrent = 2 ∧
    s.timeline = 4 ∧ s.timelineCurrent = (collect Ev.isInc tr).sum ∧
    ∀ xs c ys, collect Ev.isPush tr = xs ++ c :: ys →
      c.releaseTimeline ≤ (collect Ev.isInc tr).sum → (xs ++ [c]) <+: collect Ev.isFinish tr := by
  obtain ⟨tr, s, hr, hp⟩ := System.exists_run system System.any ⟨⟨8, 8, 0⟩, 0, rfl, rfl⟩
    (frameActs { handle := 1 } ++ popActs ++ frameActs { handle := 2 } ++ sendActs 1)
    (fun _ s => s.timelineCurrent == 2 && s.timeline == 4) (by decide +kernel)
  simp only [Bool.and_eq_true, beq_iff_eq] at hp
  have h := no_early_signal hr
  exact ⟨tr, s, hr, hp.1, hp.2, h.1, h.2.2.2.1⟩

/-! ## When no composition is left -/

def Ev.isDrop : Ev → Bool
  | .drop _ => true
  | _ => false

def Ev.isServed : Ev → Bool
  | .served _ => true
  | _ => false

/-- No layer was new to the last `QueueComposite`. -/
def LastSkipped (tr : List Ev) : Prop :=
  Since (· = .queueComposite) (·.isAccept.isSome = true) tr

/-- `Compose` returned early from the last composition it is finished with. -/
def LastDropped (tr : List Ev) : Prop := Since (·.isDrop = true) (·.isServed = true) tr

theorem bare_iff : Timeline.Bare (tr.filterMap Ev.toTimeline) ↔ LastSkipped tr := by
  unfold Timeline.Bare LastSkipped
  rw [since_filterMap]
  have hp : (fun e => ∃ b, Ev.toTimeline e = some b ∧ b.isIssue = true) =
      (· = Ev.queueComposite) := by
    funext e
    cases e <;> simp [Ev.toTimeline, Timeline.Ev.isIssue]
  have hq : (fun e => ∃ b, Ev.toTimeline e = some b ∧ b.isAccept.isSome = true) =
      (·.isAccept.isSome = true) := by
    funext e
    cases e <;> simp [Ev.toTimeline, Timeline.Ev.isAccept, Ev.isAccept]
  rw [hp, hq]

theorem dropped_iff : Timeline.Dropped (tr.filterMap Ev.toTimeline) ↔ LastDropped tr := by
  unfold Timeline.Dropped LastDropped
  rw [since_filterMap]
  have hp : (fun e => ∃ b, Ev.toTimeline e = some b ∧ b.isDrop = true) = (·.isDrop = true) := by
    funext e
    cases e <;> simp [Ev.toTimeline, Timeline.Ev.isDrop, Ev.isDrop]
  have hq : (fun e => ∃ b, Ev.toTimeline e = some b ∧ b.isServed = true) =
      (·.isServed = true) := by
    funext e
    cases e <;> simp [Ev.toTimeline, Timeline.Ev.isServed, Ev.isServed]
  rw [hp, hq]

/-- `sw_sync_timeline_inc` succeeds. -/
def incSucceeds (_ : St) (a : Act) : Prop := a.incFails = false

instance (s : St) (a : Act) : Decidable (incSucceeds s a) :=
  inferInstanceAs (Decidable (_ = _))

theorem incSucceeds_advances (s : St) (a : Act) (b : Timeline.Act EinkComposition)
    (ha : incSucceeds s a) (hb : b = .signal false → a.incFails = true) :
    Timeline.advances s.fences b := by
  intro hs
  have hfail := hb hs
  rw [show a.incFails = false from ha] at hfail
  cases hfail

/-- **All fences are signalled**, where no composition is left, exactly when the last
`QueueComposite` had a new handle and `Compose` did not return early from the last composition. -/
theorem all_signalled_iff (hr : Run incSucceeds tr s) (hf : s.ho.inFlight = [])
    (hc : s.cur = none) : s.timelineCurrent = s.timeline ↔ ¬ LastSkipped tr ∧ ¬ LastDropped tr := by
  have ht := run_timeline Timeline.advances incSucceeds_advances hr
  have hw : s.fences.outstanding = [] := by
    rw [fences_none hc, hf]
    rfl
  rw [← bare_iff, ← dropped_iff]
  exact Timeline.caught_up_iff ht hw

/-- `all_signalled_iff` after one frame. -/
theorem all_signalled_one : ∃ tr s, Run incSucceeds tr s ∧ s.timeline = 2 ∧
    (s.timelineCurrent = s.timeline ↔ ¬ LastSkipped tr ∧ ¬ LastDropped tr) := by
  obtain ⟨tr, s, hr, hp⟩ := System.exists_run system incSucceeds ⟨⟨8, 8, 0⟩, 0, rfl, rfl⟩
    (frameActs { handle := 1 } ++ popActs ++ sendActs 1)
    (fun _ s => s.timeline == 2 && s.ho.inFlight == [] && s.cur == none) (by decide +kernel)
  simp only [Bool.and_eq_true, beq_iff_eq] at hp
  exact ⟨tr, s, hr, hp.1.1, all_signalled_iff hr hp.1.2 hp.2⟩

/-- A frame is sent, and the next `hwc_set` has the same handle: its retire fence is not signalled,
though nothing is left to do. -/
theorem skip_leaves_fence : ¬ ∀ tr s, Run incSucceeds tr s → s.hal = .idle → s.ho.inFlight = [] →
    s.cur = none → s.timelineCurrent = s.timeline := by
  intro h
  obtain ⟨tr, s, hr, hp⟩ := System.exists_run system incSucceeds ⟨⟨8, 8, 0⟩, 0, rfl, rfl⟩
    (frameActs { handle := 1 } ++ popActs ++ sendActs 1 ++ skipActs { handle := 1 })
    (fun _ s => s.hal == .idle && s.ho.inFlight == [] && s.cur == none &&
      s.timelineCurrent != s.timeline) (by decide +kernel)
  simp only [Bool.and_eq_true, beq_iff_eq, bne_iff_ne] at hp
  obtain ⟨⟨⟨h1, h2⟩, h3⟩, h4⟩ := hp
  exact h4 (h tr s hr h1 h2 h3)

/-! ## Which fences are signalled -/

def Ev.isServe : Ev → Option EinkComposition
  | .served c => some c
  | _ => none

/-- `CreateNextTimelineFence` is called. -/
def Ev.handsFence : Ev → Bool
  | .queueComposite | .accept _ => true
  | _ => false

/-- The number of fences created. The next one is signalled when the timeline is past it. -/
def fencesHanded (tr : List Ev) : Int := tr.countP Ev.handsFence

theorem handed_toTimeline : Timeline.handed (tr.filterMap Ev.toTimeline) = fencesHanded tr := by
  unfold Timeline.handed fencesHanded
  rw [List.countP_filterMap]
  congr 2
  funext e
  cases e <;> rfl

theorem collect_isServe :
    collect Timeline.Ev.isServe (tr.filterMap Ev.toTimeline) = collect Ev.isServe tr := by
  rw [collect_filterMap]
  congr 1
  funext e
  cases e <;> rfl

/-- **Which fences are signalled.** The fence that `CreateNextTimelineFence` made next after `tr` is
signalled exactly when `Compose` got through with a frame accepted since; so a retire fence waits
for the frame of its call, or for a later one, and so does the release fence of a frame that
`Compose` gave up. -/
theorem fence_signalled_iff (hr : Run incSucceeds (es ++ tr) s) (hf : s.finishing = none) :
    s.timeline = fencesHanded (es ++ tr) ∧
      (fencesHanded tr < s.timelineCurrent ↔
        ∃ c ∈ collect Ev.isAccept es, c ∈ collect Ev.isServe (es ++ tr)) := by
  have ht := run_timeline Timeline.advances incSucceeds_advances hr
  rw [List.filterMap_append] at ht
  have hh := (Timeline.handed_issued ht).2
  have hs := Timeline.signalled_iff ht hf
  rw [← List.filterMap_append, handed_toTimeline] at hh
  rw [← List.filterMap_append, handed_toTimeline, collect_isAccept, collect_isServe] at hs
  exact ⟨hh, hs⟩

/-- `fence_signalled_iff` for the release fence of a frame that `Compose` gave up, after the next
frame was sent. -/
theorem fence_signalled_later : ∃ es tr s, Run incSucceeds (es ++ tr) s ∧ fencesHanded tr = 1 ∧
    (collect Ev.isAccept es).map EinkComposition.fbHandle = [1, 2] ∧
    (collect Ev.isServe (es ++ tr)).map EinkComposition.fbHandle = [2] ∧
    (fencesHanded tr < s.timelineCurrent ↔
      ∃ c ∈ collect Ev.isAccept es, c ∈ collect Ev.isServe (es ++ tr)) := by
  obtain ⟨tr, s, hr, hp⟩ := System.exists_run system incSucceeds ⟨⟨8, 8, 0⟩, 0, rfl, rfl⟩
    (frameActs { handle := 1, acquireFenceFd := 5 } ++ popActs ++ dropActs ++
      frameActs { handle := 2 } ++ popActs ++ sendActs 1)
    (fun tr s => fencesHanded (tr.drop 14) == 1 && s.finishing == none &&
      (collect Ev.isAccept (tr.take 14)).map EinkComposition.fbHandle == [1, 2] &&
      (collect Ev.isServe tr).map EinkComposition.fbHandle == [2]) (by decide +kernel)
  simp only [Bool.and_eq_true, beq_iff_eq] at hp
  obtain ⟨⟨⟨h1, hf⟩, ha⟩, hs⟩ := hp
  rw [← List.take_append_drop 14 tr] at hr hs
  exact ⟨_, _, s, hr, h1, ha, hs, (fence_signalled_iff hr hf).2⟩

end EinkHwc
