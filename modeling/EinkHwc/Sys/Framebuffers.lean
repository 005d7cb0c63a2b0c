import EinkHwc.Sys.Fences
import EinkHwc.Sys.Panel
import EinkHwc.Trace.Guard

/-!
# Framebuffers are drawn again

SurfaceFlinger draws into a framebuffer that it has passed to `hwc_set` before, once the release
fences that it got for it are signalled (`Client`). The converter reads the framebuffer in another
thread, some time after `hwc_set` has returned.

- **Nothing is drawn under the converter** (`framebuffers_kept`): from `QueueComposite` on until
  `Compose` is through with it, a frame has the content that it was queued with. This is what the
  fences are for, and it holds whatever fails.
- **Drawn again and skipped** (`skip_redrawn_iff`): `QueueComposite` compares handles. It takes a
  framebuffer for the frame it queued last even when that was drawn again since.
-/

namespace EinkHwc

open Trace

/-- The system with SurfaceFlinger, which keeps the last release fence of each framebuffer. -/
structure Client where
  st : St
  fence : BufferHandle → Int := fun _ => 0

/-- The release fences that a step gives to SurfaceFlinger. -/
def noteFences (fence : BufferHandle → Int) (es : List Ev) : BufferHandle → Int :=
  Guarded.note EinkComposition.releaseTimeline EinkComposition.fbHandle fence
    (es.filterMap Ev.toTimeline)

/-- A step of the two threads, or a framebuffer is drawn. -/
def clientStep (s : Client) : Act ⊕ BufferHandle → Option (Client × List (Ev ⊕ BufferHandle))
  | .inl a => (step s.st a).map fun r => (⟨r.1, noteFences s.fence r.2⟩, r.2.map .inl)
  | .inr h => if s.fence h ≤ s.st.timelineCurrent then some (s, [.inr h]) else none

def clientSystem : System Client (Act ⊕ BufferHandle) (Ev ⊕ BufferHandle) where
  init s tr := ∃ tr₀, system.init s.st tr₀ ∧ tr = tr₀.map .inl ∧ s.fence = fun _ => 0
  step := clientStep

variable {s s' : Client} {tr es : List (Ev ⊕ BufferHandle)}
  {ok : Client → Act ⊕ BufferHandle → Prop}

/-- Without SurfaceFlinger it is a run of the system. -/
theorem client_run {ok' : St → Act → Prop} (hok : ∀ s a, ok s (.inl a) → ok' s.st a)
    (hr : clientSystem.Run ok tr s) : Run ok' (tr.filterMap Sum.getLeft?) s.st := by
  refine System.Run.project (J := fun _ _ => True) Client.st Sum.getLeft?
    (fun _ _ _ => trivial) ?_ ?_ hr
  · rintro s tr ⟨tr₀, hi, rfl, -⟩
    rwa [System.filterMap_getLeft_inl]
  · intro s a s' es tr _ ha h
    cases a with
    | inl a =>
      obtain ⟨r, hs, h⟩ := Option.map_eq_some_iff.1 h
      rw [Prod.mk.injEq] at h
      obtain ⟨rfl, rfl⟩ := h
      refine .inr ⟨a, hok s a ha, ?_⟩
      rw [System.filterMap_getLeft_inl]
      exact hs
    | inr b =>
      simp only [clientSystem, clientStep] at h
      split at h
      · simp only [Option.some.injEq, Prod.mk.injEq] at h
        obtain ⟨rfl, rfl⟩ := h
        exact .inl ⟨rfl, rfl⟩
      · cases h

theorem client_any (hr : clientSystem.Run ok tr s) :
    Run System.any (tr.filterMap Sum.getLeft?) s.st :=
  client_run (fun _ _ _ => trivial) hr

/-- With it, it is a run of the timeline with a client. -/
theorem run_guarded (hr : clientSystem.Run ok tr s) :
    (Guarded.system EinkComposition.releaseTimeline EinkComposition.fbHandle).Run System.any
      (tr.filterMap (relabel Ev.toTimeline)) ⟨s.st.fences, s.fence⟩ := by
  refine System.Run.project (J := fun _ s => Linked s.st)
    (fun s : Client => (⟨s.st.fences, s.fence⟩ : Guarded EinkComposition BufferHandle))
    (relabel Ev.toTimeline) (fun _ _ hr => linked_run (client_any hr)) ?_ ?_ hr
  · rintro ⟨st, fence⟩ tr ⟨tr₀, ⟨panel, b, rfl, rfl⟩, rfl, rfl⟩
    exact ⟨rfl, rfl⟩
  · intro s a s' es tr hl _ h
    cases a with
    | inl a =>
      obtain ⟨r, hs, h⟩ := Option.map_eq_some_iff.1 h
      rw [Prod.mk.injEq] at h
      obtain ⟨rfl, rfl⟩ := h
      rw [filterMap_relabel_inl]
      rcases step_timeline (step_cases hl hs) with ⟨hf, he⟩ | ⟨b, -, hb⟩
      · refine .inl ⟨?_, by rw [he]; rfl⟩
        rw [hf, noteFences, he]
        rfl
      · refine .inr ⟨.inl b, trivial, ?_⟩
        simp only [Guarded.system, Guarded.step, hb, Option.map_some]
        rfl
    | inr b =>
      simp only [clientSystem, clientStep] at h
      split at h
      · rename_i hle
        simp only [Option.some.injEq, Prod.mk.injEq] at h
        obtain ⟨rfl, rfl⟩ := h
        refine .inr ⟨.inr b, trivial, ?_⟩
        simp only [Guarded.system, Guarded.step]
        exact if_pos hle
      · cases h

theorem bind_isAccept (e : Ev) :
    (Ev.toTimeline e).bind Timeline.Ev.isAccept = e.isAccept := by
  cases e <;> rfl

theorem bind_isFinish (e : Ev) :
    (Ev.toTimeline e).bind Timeline.Ev.isFinish = e.isFinish := by
  cases e <;> rfl

/-- The frames accepted, with the contents of then: those that `Compose` is through with, and those
that it is not, with the contents of now. -/
theorem accepted_contents (hr : clientSystem.Run ok tr s) :
    stamped EinkComposition.fbHandle Ev.isAccept tr =
      stamped EinkComposition.fbHandle Ev.isFinish tr ++
        s.st.unserved.map fun c => (c, content c.fbHandle tr) := by
  have h := Guarded.account (run_guarded hr)
  rw [stamped_relabel, stamped_relabel] at h
  simp only [bind_isAccept, bind_isFinish] at h
  rw [h]
  refine congrArg (_ ++ ·) (List.map_congr_left fun c _ => ?_)
  rw [Guarded.stamp, content_relabel]

/-- SurfaceFlinger draws no framebuffer that `Compose` is not through with. -/
theorem drawn_unused {h : BufferHandle} (hr : clientSystem.Run ok tr s)
    (hs : clientStep s (.inr h) = some (s', es)) : ∀ c ∈ s.st.unserved, c.fbHandle ≠ h := by
  simp only [clientStep] at hs
  split at hs
  · rename_i hle
    exact Guarded.not_drawn (run_guarded hr) (if_pos hle)
  · cases hs

/-- **Nothing is drawn under the converter.** In every run, whatever fails: no framebuffer is drawn
from `QueueComposite` on until `Compose` is through with its frame. So the frames that `Compose` is
through with, and those that it is not, in the order in which they were queued, have the contents
that they were queued with. -/
theorem framebuffers_kept (hr : clientSystem.Run ok tr s) :
    (∀ h s' es, clientStep s (.inr h) = some (s', es) → ∀ c ∈ s.st.unserved, c.fbHandle ≠ h) ∧
      stamped EinkComposition.fbHandle Ev.isAccept tr =
        stamped EinkComposition.fbHandle Ev.isFinish tr ++
          s.st.unserved.map fun c => (c, content c.fbHandle tr) :=
  ⟨fun _ _ _ => drawn_unused hr, accepted_contents hr⟩

/-- `framebuffers_kept` where one framebuffer is drawn while the other is on its way. -/
theorem framebuffers_kept_two : ∃ tr s, clientSystem.Run System.any tr s ∧
    s.st.unserved.map EinkComposition.fbHandle = [2] ∧ content 1 tr = 2 ∧ content 2 tr = 1 ∧
    stamped EinkComposition.fbHandle Ev.isAccept tr =
      stamped EinkComposition.fbHandle Ev.isFinish tr ++
        s.st.unserved.map fun c => (c, content c.fbHandle tr) := by
  obtain ⟨tr, s, hr, hp⟩ := System.exists_run clientSystem System.any
    (s := { st := initSt ⟨8, 8, 0⟩ 0 }) ⟨_, ⟨⟨8, 8, 0⟩, 0, rfl, rfl⟩, rfl, rfl⟩
    (List.flatten [[.inr 1], (frameActs { handle := 1 } ++ popActs ++ sendActs 1).map .inl,
      [.inr 2], (frameActs { handle := 2 }).map .inl, [.inr 1]])
    (fun tr s => s.st.unserved.map EinkComposition.fbHandle == [2] && content 1 tr == 2 &&
      content 2 tr == 1) (by decide +kernel)
  simp only [Bool.and_eq_true, beq_iff_eq] at hp
  obtain ⟨⟨h1, h2⟩, h3⟩ := hp
  exact ⟨tr, s, hr, h1, h2, h3, (framebuffers_kept hr).2⟩

/-! ## Skipped frames -/

theorem lastFbHandle_run {ok : St → Act → Prop} {tr : List Ev} {s : St} (hr : Run ok tr s) :
    s.lastFbHandle = ((collect Ev.isAccept tr).getLast?.map EinkComposition.fbHandle).getD 0 := by
  have haccept : CoreOnly (Ev.isAccept · ≠ none) := ⟨fun _ h => h rfl, fun _ _ h => h rfl⟩
  rw [← collect_core haccept]
  refine core_induction (J := fun _ _ => True)
    (I := fun tr s => s.lastFbHandle =
      ((collect Ev.isAccept tr).getLast?.map EinkComposition.fbHandle).getD 0)
    (fun _ _ _ => trivial) (fun _ _ => rfl) ?_ hr
  intro s a s' es tr _ ih _ h
  rw [collect_append]
  cases h
  case newLayer => simp [queueLayer, Ev.isFd, Ev.isAccept, fillComposition]
  case waited he => simpa [core_waitEvs he] using ih
  case setOn | setOff =>
    simp only [core_append, core_suspendEvs, core_setEvs, List.nil_append]
    split <;> simpa [Ev.isAccept] using ih
  all_goals simpa [queueCompositeStart, Ev.isFd, Ev.isAccept] using ih

/-- An event that queues a frame. -/
def queues (e : Ev ⊕ BufferHandle) : Prop := (e.getLeft?.bind Ev.isAccept).isSome = true

instance : DecidablePred queues := fun _ => inferInstanceAs (Decidable (_ = _))

/-- **Drawn again and skipped.** A frame is skipped for the frame queued last, which had the content
`n`: that is what it has now, too, exactly if the framebuffer was not drawn since. -/
theorem skip_redrawn_iff {a : Act} {h : BufferHandle} (hr : clientSystem.Run ok tr s)
    (hs : clientStep s (.inl a) = some (s', es)) (he : .inl (.skip h) ∈ es) :
    ∃ cs c n, stamped EinkComposition.fbHandle Ev.isAccept tr = cs ++ [(c, n)] ∧
      c.fbHandle = h ∧ (content h tr = n ↔ ¬ Since (· = .inr h) queues tr) := by
  obtain ⟨r, hstep, hx⟩ := Option.map_eq_some_iff.1 hs
  rw [Prod.mk.injEq] at hx
  obtain ⟨rfl, rfl⟩ := hx
  have hrun := client_any hr
  have he : .skip h ∈ r.2 := by simpa using he
  obtain ⟨rfl, hz⟩ := skip_eq (step_cases (linked_run hrun) hstep) he
  have hlast := lastFbHandle_run hrun
  have hfst := stamped_fst EinkComposition.fbHandle Ev.isAccept tr
  rcases List.eq_nil_or_concat (stamped EinkComposition.fbHandle Ev.isAccept tr) with
    hn | ⟨cs, ⟨c, n⟩, hc⟩
  · -- nothing was queued yet: `last_fb_handle` is null
    rw [hn, List.map_nil] at hfst
    rw [← hfst] at hlast
    exact absurd hlast hz
  · rw [hc, List.concat_eq_append, List.map_append, List.map_cons, List.map_nil] at hfst
    rw [← hfst, List.getLast?_concat] at hlast
    obtain hlast : s.st.lastFbHandle = c.fbHandle := hlast
    rw [List.concat_eq_append] at hc
    refine ⟨cs, c, n, hc, hlast.symm, ?_⟩
    rw [hlast]
    exact stamped_last_iff hc

/-- `skip_redrawn_iff` for a framebuffer that is drawn again when its release fence is signalled: it
is not queued with the new content. -/
theorem skip_redrawn_lost : ∃ tr s s' es, clientSystem.Run System.any tr s ∧
    clientStep s (.inl (.hal 0)) = some (s', es) ∧ .inl (.skip 1) ∈ es ∧ content 1 tr = 2 ∧
    Since (· = .inr 1) queues tr ∧
    ∃ cs c n, stamped EinkComposition.fbHandle Ev.isAccept tr = cs ++ [(c, n)] ∧
      c.fbHandle = 1 ∧ (content 1 tr = n ↔ ¬ Since (· = .inr 1) queues tr) := by
  obtain ⟨tr, s, hr, hp⟩ := System.exists_run clientSystem System.any
    (s := { st := initSt ⟨8, 8, 0⟩ 0 }) ⟨_, ⟨⟨8, 8, 0⟩, 0, rfl, rfl⟩, rfl, rfl⟩
    (List.flatten [[.inr 1], (frameActs { handle := 1 } ++ popActs ++ sendActs 1).map .inl,
      [.inr 1], ((skipActs { handle := 1 }).take 2).map .inl])
    (fun tr s => ((step s.st (.hal 0)).any fun r => r.2.contains (.skip 1)) &&
      content 1 tr == 2 && decide (Since (· = .inr 1) queues tr)) (by decide +kernel)
  simp only [Bool.and_eq_true, beq_iff_eq, decide_eq_true_eq] at hp
  obtain ⟨⟨hx, h2⟩, hsince⟩ := hp
  obtain ⟨r, hstep, he⟩ := (Option.any_eq_true ..).1 hx
  have hs : clientStep s (.inl (.hal 0)) = some (⟨r.1, noteFences s.fence r.2⟩, r.2.map .inl) :=
    Option.map_eq_some_iff.2 ⟨r, hstep, rfl⟩
  have he : .inl (.skip 1) ∈ (r.2.map .inl : List (Ev ⊕ BufferHandle)) := by simpa using he
  exact ⟨tr, s, _, _, hr, hs, he, h2, hsince, skip_redrawn_iff hr hs he⟩

end EinkHwc
