import EinkHwc.Sys.Fences
import EinkHwc.Trace.Grouped

/-!
# The calls for one composition

`Compose` for one composition, as a function of what its calls return: the fence waits, RGA, the
converter, `EBC_SEND_BUFFER` and `EBC_GET_BUFFER`, one after the other, until one of them ends it.

* `EinkComposition.fate`: what becomes of a composition, from the results of its calls. It is `none`
  when these are not the results of exactly the calls that are made.
* `taken`: the compositions that the worker has taken in a run, each with the results of its calls;
  they are the first ones accepted (`taken_run`).
* `Composing.fate`: the same from the call that `Compose` is at.
-/

namespace EinkHwc

open Trace

/-! ## Fates -/

/-- What becomes of a composition in the worker. -/
inductive Fate where
  /-- A fence wait fails, or RGA is not ready. -/
  | givenUp
  /-- `EBC_SEND_BUFFER` fails. -/
  | unsent (wrote : Bool)
  /-- It is sent; `got`: `EBC_GET_BUFFER` succeeds. -/
  | sent (wrote got : Bool)
  deriving DecidableEq, Repr

/-- A frame that is sent as it should be. -/
def Fate.fine : Fate → Bool
  | .sent wrote _ => wrote
  | _ => false

/-- No call is made any more. -/
def Fate.last (f : Fate) (os : List Outcome) : Option Fate := if os = [] then some f else none

/-- From `EBC_GET_BUFFER` on. -/
def getFate (wrote : Bool) : List Outcome → Option Fate
  | .ebcGet offset :: os => (Fate.sent wrote offset.isSome).last os
  | _ => none

/-- From `EBC_SEND_BUFFER` on. -/
def sendFate (wrote : Bool) : List Outcome → Option Fate
  | .ebcSend ret :: os => if ret ≠ 0 then (Fate.unsent wrote).last os else getFate wrote os
  | _ => none

/-- From the converter on. -/
def convertFate (panelColor : Int) : Option (Converter × Commit) → List Outcome → Option Fate
  | some m, .convert env :: os => sendFate (m.1.run panelColor env).2 os
  | _, _ => none

/-- From the wait on the first of `fds` on. A wait on a negative descriptor is not made, and its
result not read. -/
def waitFate (panelColor mode : Int) : List Int → List Outcome → Option Fate
  | fd :: fds, .syncWait ret :: os =>
    if 0 ≤ fd ∧ ret ≠ 0 then Fate.givenUp.last os else waitFate panelColor mode fds os
  | [], .rkRgaIsReady b :: os =>
    if b ∧ (setMode panelColor mode).isSome then convertFate panelColor (setMode panelColor mode) os
    else Fate.givenUp.last os
  | _, _ => none

/-- What becomes of a composition whose calls have the results `os`; `-1` is the end of the loop
over the layer fences. -/
def EinkComposition.fate (panelColor : Int) (c : EinkComposition) (os : List Outcome) :
    Option Fate :=
  waitFate panelColor c.einkMode (c.outbufAcquireFence :: (c.layerAcquireFences ++ [-1])) os

/-- The same from the call that `Compose` is at, before `EBC_SEND_BUFFER`. -/
def Composing.fate (panelColor : Int) (k : Composing) (os : List Outcome) : Option Fate :=
  match k.pc with
  | .outbuf => waitFate panelColor k.comp.einkMode (k.outbuf :: (k.fences ++ [-1])) os
  | .layers => waitFate panelColor k.comp.einkMode (k.fences ++ [-1]) os
  | .rga => waitFate panelColor k.comp.einkMode [] os
  | .convert => convertFate panelColor (setMode panelColor k.comp.einkMode) os
  | .send | .get | .finish => none

section Fate

variable {panelColor mode ret : Int} {fd : Int} {fds : List Int} {os : List Outcome}
  {s s' : St} {es : List Ev} {k k' : Composing}

theorem setMode_suspend (panelColor : Int) : setMode panelColor epdSuspend = none := by
  unfold setMode
  split <;> rfl

theorem waitFate_cons (h : 0 ≤ fd → ret = 0) :
    waitFate panelColor mode (fd :: fds) (.syncWait ret :: os) =
      waitFate panelColor mode fds os :=
  if_neg fun hx => hx.2 (h hx.1)

theorem waitFate_failed (hf : 0 ≤ fd) (hr : ret ≠ 0) :
    waitFate panelColor mode (fd :: fds) [.syncWait ret] = some .givenUp :=
  if_pos ⟨hf, hr⟩

/-- The wait on `fd` in `Compose`: it is over with `t` if it was made, and with `u` if not. -/
theorem wait_over {t u : St} {es₁ es₂ : List Ev} (h : (if 0 ≤ fd then
      if ret ≠ 0 then endCompose s k [.drop k.comp] else some (t, es₁)
    else some (u, es₂)) = some (s', es)) (hc : s'.cur = some k') :
    (0 ≤ fd → ret = 0) ∧ (s' = t ∨ s' = u) := by
  split at h
  · split at h
    · -- it failed, and `Compose` has returned
      rw [(endCompose_eq h).2.1] at hc
      cases hc
    · rename_i hr
      exact ⟨fun _ => Decidable.not_not.1 hr, .inl (congrArg Prod.fst (Option.some.inj h)).symm⟩
  · rename_i hf
    exact ⟨fun hx => absurd hx hf, .inr (congrArg Prod.fst (Option.some.inj h)).symm⟩

/-- A wait that does not end `Compose`. -/
theorem wait_fate (hc : s.cur = some k) (hp : k.pc = .outbuf ∨ k.pc = .layers)
    (h : composeStep (.syncWait ret) s = some (s', es)) (hc' : s'.cur = some k') :
    k.fate panelColor (.syncWait ret :: os) = k'.fate panelColor os := by
  rcases hp with hp | hp
  · simp only [composeStep, hc, hp] at h
    simp only [Composing.fate, hp]
    obtain ⟨hret, rfl | rfl⟩ := wait_over h hc'
    all_goals
      obtain rfl := Option.some.inj hc'
      exact waitFate_cons hret
  · simp only [composeStep, hc, hp] at h
    simp only [Composing.fate, hp]
    cases hfs : k.fences with
    | nil =>
      rw [hfs] at h
      obtain rfl := congrArg Prod.fst (Option.some.inj h)
      obtain rfl := Option.some.inj hc'
      exact waitFate_cons fun hx => absurd hx (by decide)
    | cons f fs =>
      rw [hfs] at h
      obtain ⟨hret, rfl | rfl⟩ := wait_over h hc'
      all_goals
        obtain rfl := Option.some.inj hc'
        exact waitFate_cons hret

/-- A wait that does. -/
theorem dropped_fate
    (hp : (k.pc = .outbuf ∧ 0 ≤ k.outbuf) ∨ (k.pc = .layers ∧ 0 ≤ k.fences.head?.getD (-1)))
    (hr : ret ≠ 0) : k.fate panelColor [.syncWait ret] = some .givenUp := by
  rcases hp with ⟨hp, hf⟩ | ⟨hp, hf⟩
  · simp only [Composing.fate, hp]
    exact waitFate_failed hf hr
  · simp only [Composing.fate, hp]
    cases hfs : k.fences with
    | nil =>
      rw [hfs] at hf
      exact absurd hf (by decide)
    | cons f fs =>
      rw [hfs] at hf
      exact waitFate_failed hf hr

end Fate

/-! ## The results of a run -/

/-- The result of a call that `Compose` makes before `FinishComposition`. -/
def Act.result : Act → Option Outcome
  | .compose (.timelineInc _) => none
  | .compose o => some o
  | _ => none

/-- The system with these results in the trace. -/
abbrev resultSystem : System St Act (Ev ⊕ Outcome) := system.logged Act.result

/-- A composition that `Compose` is called with. -/
def Ev.isCompose : Ev → Option EinkComposition
  | .ho (.compose c) => some c
  | _ => none

/-- The compositions that the worker has taken, each with the results of its calls. -/
def taken (tr : List (Ev ⊕ Outcome)) : List (EinkComposition × List Outcome) :=
  grouped Ev.isCompose tr

/-- What becomes of them. -/
def fates (panelColor : Int) (tr : List (Ev ⊕ Outcome)) : List (Option Fate) :=
  (taken tr).map fun x => x.1.fate panelColor x.2

variable {s s' : St} {a : Act} {es tr : List Ev} {ok : St → Act → Prop}

theorem coreOnly_isCompose : CoreOnly (Ev.isCompose · ≠ none) :=
  ⟨fun _ h => h rfl, fun _ _ h => h rfl⟩

/-- The frames accepted: those that `Compose` was called with, and those on their way to it. -/
theorem composed_run (hr : Run ok tr s) :
    collect Ev.isAccept tr = collect Ev.isCompose tr ++ s.ho.inFlight := by
  have h := Handoff.pipe_run (run_handoff hr)
  have hpush : Handoff.pushed (tr.filterMap Ev.toHo) = collect Ev.isPush tr := by
    rw [Handoff.pushed, collect_filterMap]
    congr 1
    funext e
    rcases e with (_ | _ | _) | _ <;> rfl
  have hcomp : Handoff.composedWith (tr.filterMap Ev.toHo) = collect Ev.isCompose tr := by
    rw [Handoff.composedWith, collect_filterMap]
    congr 1
    funext e
    rcases e with (_ | _ | _) | _ <;> rfl
  rw [accepted_run hr, ← hpush, ← hcomp, h]

/-- They are taken in the order in which they were accepted. -/
theorem taken_run {tr : List (Ev ⊕ Outcome)} (hr : resultSystem.Run ok tr s) :
    collect Ev.isAccept (events tr) = (taken tr).map Prod.fst ++ s.ho.inFlight := by
  rw [taken, grouped_fst]
  exact composed_run hr.unlogged

/-- One frame that is sent, and one whose fence wait fails. -/
example : ({ layerAcquireFences := [-1] } : EinkComposition).fate 0
      [.syncWait 0, .syncWait 0, .syncWait 0, .rkRgaIsReady true, .convert {}, .ebcSend 0,
        .ebcGet none] = some (.sent true false) ∧
    ({ layerAcquireFences := [5] } : EinkComposition).fate 0 [.syncWait 0, .syncWait (-1)] =
      some .givenUp := by decide

end EinkHwc
