import EinkHwc.Sys.Progress
import EinkHwc.Sys.Render

/-!
# From the calls to the panel

What the HAL thread does, said as a function of the calls of `hwc_set` and `hwc_set_power_mode`
(`Hal.calls`): the frames that `QueueComposite` accepts, with their modes. Between two calls the HAL
keeps its statics, the last handle and the mode that goes with it (`Hal`), nothing else.

- **`hwc_set`** (`accepts`): in every run whose lists have one framebuffer target a display, the
  frames accepted are those, up to the layers that the current call has not reached.
- **End to end** (`panel_follows`): put after one another, `Hal.calls` and `shows` say what the
  worker sends, as a function of the calls. No order of the steps of the two threads changes it, and
  when they come to rest, in a run whose waits end with a signal, it is all sent.
-/

namespace EinkHwc

open Trace

/-! ## The HAL as a function of its calls -/

/-- A call of the HAL. -/
inductive HalCall where
  | hwcSet (mode oneFull : Int) (d : Displays)
  | hwcSetPowerMode (mode : PowerMode) (env : PowerEnv)
  deriving DecidableEq, Repr

/-- The call that an action starts. -/
def Act.call : Act → Option HalCall
  | .hwcSet mode oneFull d => some (.hwcSet mode oneFull d)
  | .hwcSetPowerMode mode env => some (.hwcSetPowerMode mode env)
  | _ => none

/-- What the HAL thread keeps from one call to the next. -/
structure Hal where
  g : Globals := {}
  lastFbHandle : BufferHandle := 0
  lastFbHandleMode : Int := epdPartGc16
  deriving DecidableEq, Repr

/-- A framebuffer target with handle `h`: the frame, if the handle is new. -/
def Hal.target (s : Hal) (h : BufferHandle) : Hal × List (BufferHandle × Int) :=
  if h ≠ s.lastFbHandle then
    ({ s with
        lastFbHandle := h
        lastFbHandleMode :=
          if s.lastFbHandleMode = epdResume then epdNull else s.lastFbHandleMode },
      [(h, if s.lastFbHandleMode = epdResume then epdResume else s.g.gCurrentEpdMode)])
  else
    ({ s with
        lastFbHandleMode :=
          if s.g.gCurrentEpdMode = epdResume then epdResume else s.lastFbHandleMode }, [])

/-- The layers of a call, in order. -/
def Hal.layers : Hal → List Layer → Hal × List (BufferHandle × Int)
  | s, [] => (s, [])
  | s, l :: ls =>
    if l.queueable then
      let r := s.target l.handle
      let r' := r.1.layers ls
      (r'.1, r.2 ++ r'.2)
    else s.layers ls

def Hal.call (s : Hal) : HalCall → Hal × List (BufferHandle × Int)
  | .hwcSet mode oneFull d =>
    let g := setGlobals mode oneFull s.g
    if g.gCurrentEpdMode ≠ epdSuspend then { s with g := g }.layers (allLayers d)
    else ({ s with g := g }, [])
  | .hwcSetPowerMode mode env =>
    match mode with
    | .off => ({ s with g := powerModeOff env s.g }, [])
    | .doze => (s, [])
    | .normal | .dozeSuspend => ({ s with g := powerModeOn s.g }, [])

def Hal.calls : Hal → List HalCall → Hal × List (BufferHandle × Int)
  | s, [] => (s, [])
  | s, c :: cs =>
    let r := s.call c
    let r' := r.1.calls cs
    (r'.1, r.2 ++ r'.2)

section Calls

variable {h : Hal} {c : HalCall} {cs : List HalCall} {l : Layer} {ls ls' : List Layer}

theorem calls_snoc : h.calls (cs ++ [c]) =
    let r := h.calls cs
    let r' := r.1.call c
    (r'.1, r.2 ++ r'.2) := by
  induction cs generalizing h with
  | nil => simp [Hal.calls]
  | cons x cs ih => simp [Hal.calls, ih]

theorem call_on {mode oneFull : Int} {d : Displays}
    (hg : (setGlobals mode oneFull h.g).gCurrentEpdMode ≠ epdSuspend) :
    h.call (.hwcSet mode oneFull d) =
      { h with g := setGlobals mode oneFull h.g }.layers (allLayers d) :=
  if_pos hg

theorem call_off {mode oneFull : Int} {d : Displays}
    (hg : (setGlobals mode oneFull h.g).gCurrentEpdMode = epdSuspend) :
    h.call (.hwcSet mode oneFull d) = ({ h with g := setGlobals mode oneFull h.g }, []) :=
  if_neg (not_not_intro hg)

theorem layers_cons_other (hq : l.queueable = false) : h.layers (l :: ls) = h.layers ls := by
  rw [Hal.layers, hq, if_neg (by decide)]

/-- Layers that are no targets do not count. -/
theorem layers_append_of_noTarget (hn : ∀ l ∈ ls, l.isTarget = false) :
    h.layers (ls ++ ls') = h.layers ls' := by
  induction ls with
  | nil => rfl
  | cons l ls ih =>
    obtain ⟨hl, hls⟩ := List.forall_mem_cons.1 hn
    rw [List.cons_append, layers_cons_other (by simp [Layer.queueable, hl]), ih hls]

end Calls

/-! ## The invariant -/

/-- The system with its calls in the trace. -/
abbrev callSystem : System St Act (Ev ⊕ HalCall) := system.logged Act.call

/-- The calls of a trace. -/
def calls (tr : List (Ev ⊕ HalCall)) : List HalCall := collect Sum.getRight? tr

/-- The frames accepted. -/
def frames (tr : List Ev) : List (BufferHandle × Int) :=
  (collect Ev.isAccept tr).map EinkComposition.frame

/-- What the HAL thread keeps, in a state of the system. -/
def St.keeps (s : St) : Hal := ⟨s.g, s.lastFbHandle, s.lastFbHandleMode⟩

/-- The layers that the current call has not reached. -/
def St.ahead (s : St) : List Layer :=
  match s.hal with
  | .set i j => rest s.disp i j
  | .queue i _ k _ => rest s.disp i k
  | .idle | .posts _ => []

/-- The call of `QueueComposite` is for a target. -/
def AtTarget (s : St) : Prop :=
  ∀ i j k comp, s.hal = .queue i j k comp →
    ∃ l, layerAt s.disp i j = some l ∧ l.isTarget = true

/-- What the layers ahead will give. -/
def St.left (s : St) : Hal × List (BufferHandle × Int) := s.keeps.layers s.ahead

variable {s s' : St} {a : Act} {es tr : List Ev}

theorem AtTarget.step (hi : AtTarget s) (h : Step s a s' es) : AtTarget s' := by
  cases h
  case start i j dc l fd hh hp hd hl hq =>
    intro i' j' k comp hx
    obtain ⟨rfl, rfl, -⟩ : i = i' ∧ j = j' ∧ _ := by simpa [queueCompositeStart] using hx
    refine ⟨l, ?_, queueable_isTarget hq⟩
    rw [queueCompositeStart, layerAt_set hd (by rfl)]
    exact (layerAt_eq hd).trans hl
  case otherLayer i j k comp dc l fd hh _ _ _ _ | sameLayer i j k comp dc l fd hh _ _ _ _ _ =>
    intro i' j' k' comp' hx
    obtain ⟨rfl, rfl, -⟩ : i = i' ∧ j = j' ∧ _ := by simpa using hx
    exact hi i j k comp hh
  case newLayer i j k comp dc l fd hh hp hd hl hq hn =>
    intro i' j' k' comp' hx
    obtain ⟨rfl, rfl, -⟩ : i = i' ∧ j = j' ∧ _ := by simpa [queueLayer] using hx
    obtain ⟨lj, hlj, htj⟩ := hi i j k _ hh
    have hlen := (List.getElem?_eq_some_iff.1 hd).1
    have hk := (List.getElem?_eq_some_iff.1 hl).1
    rw [queueLayer, layerAt_eq_layersOf, layersOf_set hlen]
    by_cases hjk : k = j
    · subst hjk
      exact ⟨_, List.getElem?_set_self hk, queueable_isTarget hq⟩
    · rw [layerAt_eq_layersOf, layersOf_eq hd] at hlj
      exact ⟨lj, by rw [List.getElem?_set_ne hjk, hlj], htj⟩
  case posted | postFailed =>
    intro i j k comp hx
    simp only at hx
    split at hx <;> cases hx
  case setOff hh _ _ =>
    intro i j k comp hx
    rw [show s.hal = .queue i j k comp from hx] at hh
    cases hh
  case setOn | powerOff | setDone | nextDisplay | nextLayer | queueDone =>
    intro i j k comp hx
    cases hx
  all_goals exact hi

theorem rest_end {d : Displays} {i j : Nat} (hi : d.length ≤ i) : rest d i j = [] := by
  have hd : d[i]? = none := List.getElem?_eq_none_iff.2 hi
  have hl : layersOf d i = [] := by rw [layersOf, hd]; rfl
  rw [rest, hl, List.drop_of_length_le (by omega : d.length ≤ i + 1)]
  simp [allLayers]

/-- `QueueComposite` goes back to the first layer of the display. -/
theorem rest_start {d : Displays} {i : Nat} (j : Nat) {dc dc' : DisplayContents}
    (hd : d[i]? = some (some dc)) (hl : dc'.hwLayers = dc.hwLayers) :
    rest (d.set i (some dc')) i 0 = (layersOf d i).take j ++ rest d i j := by
  rw [rest_set (List.getElem?_eq_some_iff.1 hd).1, List.drop_zero, rest, ← List.append_assoc,
    List.take_append_drop, layersOf_eq hd, hl]

/-- The step takes the first of the layers ahead, or none. -/
theorem left_step (hi : Loops s) (ht : AtTarget s) (hc : a.call = none) (h : Step s a s' es) :
    s.left = (s'.left.1, frames (core es) ++ s'.left.2) := by
  cases h
  case setOn | setOff | powerOff | doze | powerOn => cases hc
  case posted hh _ _ | postFailed hh _ =>
    simp only [St.left, St.ahead, hh]
    split <;> rfl
  case setDone i j fd hh hp hi =>
    simp only [St.left, St.ahead, hh, rest_end hi]
    rfl
  case nextDisplay i j fd hh hp _ hl =>
    simp only [St.left, St.ahead, hh, rest_next (length_le_of_layerAt hl)]
    rfl
  case nextLayer i j l fd hh hp hl hq =>
    simp only [St.left, St.ahead, hh, rest_cons hl, layers_cons_other hq]
    rfl
  case start i j dc l fd hh hp hd hl hq =>
    have hlj : layerAt s.disp i j = some l := (layerAt_eq hd).trans hl
    have hn := (noTarget_of_one (hi.one (by rw [hh]; rfl)) hlj (queueable_isTarget hq)).1
    simp only [St.left, St.ahead, hh, queueCompositeStart, core_append, core_closeEvs]
    rw [rest_start j hd, layers_append_of_noTarget hn]
    all_goals rfl
  case queueDone i j k comp dc fd hh hp hd hl =>
    obtain ⟨lj, hlj, htj⟩ := ht i j k comp hh
    have hn := (noTarget_of_one (hi.one (by rw [hh]; rfl)) hlj htj).2
    have hk := length_le_of_layerAt ((layerAt_eq hd).trans hl)
    simp only [St.left, St.ahead, hh, core_doneEvs]
    rw [rest, List.drop_of_length_le hk, List.nil_append, rest, layers_append_of_noTarget hn]
    rfl
  case otherLayer i j k comp dc l fd hh hp hd hl hq =>
    simp only [St.left, St.ahead, hh, rest_cons ((layerAt_eq hd).trans hl), layers_cons_other hq]
    rfl
  case sameLayer i j k comp dc l fd hh hp hd hl hq hn =>
    simp only [St.left, St.ahead, hh, rest_cons ((layerAt_eq hd).trans hl), Hal.layers, hq,
      ↓reduceIte, Hal.target, St.keeps, hn, ne_eq, not_true_eq_false]
    rfl
  case newLayer i j k comp dc l fd hh hp hd hl hq hn =>
    have hlen := (List.getElem?_eq_some_iff.1 hd).1
    simp only [St.left, St.ahead, hh, rest_cons ((layerAt_eq hd).trans hl), Hal.layers, hq,
      ↓reduceIte, Hal.target, St.keeps, hn, ne_eq, not_false_eq_true, queueLayer, rest_set hlen,
      core_append, core_closeEvs, List.drop_set_of_lt (Nat.lt_succ_self k)]
    rw [rest, layersOf_eq hd]
    rfl
  case dropped | finished | finishedInc =>
    simp only [core_append, core_destroyEvs]
    rfl
  case waited he =>
    rw [core_waitEvs he]
    rfl
  all_goals rfl

theorem core_frames (es : List Ev) : frames (core es) = frames es := by
  rw [frames, collect_core ⟨fun _ h => h rfl, fun _ _ h => h rfl⟩]
  rfl

theorem left_outside (hh : s.hal.inSet = false) : s.left = (s.keeps, []) := by
  unfold St.left St.ahead
  cases hs : s.hal with
  | idle | posts => rfl
  | set | queue => rw [hs] at hh; cases hh

theorem left_start (hh : s.hal = .set 0 0) : s.left = s.keeps.layers (allLayers s.disp) := by
  have ha : s.ahead = rest s.disp 0 0 := by rw [St.ahead, hh]
  rw [St.left, ha, rest_zero, List.drop_zero]

/-- A call does what `Hal.call` says, from a state where nothing is ahead. -/
theorem call_step {c : HalCall} (hc : a.call = some c) (h : step s a = some (s', es)) :
    s.left = (s.keeps, []) ∧ s'.left = s.keeps.call c ∧ frames (core es) = [] := by
  have hleft : s.hal = .idle → s.left = (s.keeps, []) := fun hh => left_outside (by rw [hh]; rfl)
  cases a <;> cases hc <;> simp only [step] at h <;> split at h <;>
    simp only [Option.some.injEq, reduceCtorEq] at h
  case hwcSet.refl.isTrue mode oneFull d hi =>
    refine ⟨hleft hi.1, ?_⟩
    have hs := hwcSet_cases hi.1 hi.2 h
    cases hs
    case setOn hg =>
      refine ⟨?_, ?_⟩
      · rw [call_on hg, left_start rfl]
        rfl
      · rw [core_setEvs]
        split <;> rfl
    case setOff hg =>
      refine ⟨?_, ?_⟩
      · rw [left_outside (by rw [show _ = HalPc.idle from hi.1]; rfl), call_off hg]
        rfl
      · rw [core_append, core_suspendEvs, core_setEvs]
        split <;> rfl
    case moved hb | pushed hb | started hb => cases hb
  case hwcSetPowerMode.refl.isTrue mode env hi =>
    refine ⟨hleft hi.1, ?_⟩
    cases mode <;> simp only [hwcSetPowerMode, Prod.mk.injEq] at h <;> obtain ⟨rfl, rfl⟩ := h
    case off => exact ⟨rfl, rfl⟩
    case doze => exact ⟨hleft hi.1, rfl⟩
    case normal | dozeSuspend =>
      exact ⟨left_outside (by rw [show _ = HalPc.idle from hi.1]; rfl), rfl⟩

variable {tr : List (Ev ⊕ HalCall)} {ok : St → Act → Prop}

/-- The frames accepted, with those that the layers ahead will give, are those of the calls. -/
def Follows (tr : List (Ev ⊕ HalCall)) (s : St) : Prop :=
  ({} : Hal).calls (calls tr) = (s.left.1, frames (events tr) ++ s.left.2)

theorem collect_log (es : List Ev) (c : Option HalCall) :
    collect Sum.getRight? (es.map .inl ++ c.toList.map .inr : List (Ev ⊕ HalCall)) = c.toList := by
  unfold collect
  rw [List.filterMap_append, List.filterMap_map, List.filterMap_map]
  cases c <;> simp [Function.comp_def]

theorem frames_append (es tr : List Ev) : frames (es ++ tr) = frames tr ++ frames es := by
  rw [frames, collect_append, List.map_append]
  rfl

theorem follows_run (hr : callSystem.Run oneTargets tr s) : Follows tr s := by
  refine (System.Run.induction
    (J := fun tr s => Linked s ∧ Loops s)
    (I := fun tr s => AtTarget s ∧ Follows tr s) ?_ ?_ ?_ hr).2
  · intro tr s hr
    exact ⟨linked_run hr.unlogged, loops_run hr.unlogged⟩
  · rintro s tr ⟨_, ⟨panel, b, rfl, rfl⟩, rfl⟩
    exact ⟨fun _ _ _ _ h => (by cases h), rfl⟩
  · rintro s a s' es tr ⟨hl, hlo⟩ ⟨ht, hf⟩ hok h
    obtain ⟨es₀, hs, rfl⟩ := System.logged_step h
    have hstep := step_cases hl hs
    refine ⟨ht.step hstep, ?_⟩
    unfold Follows calls events at hf ⊢
    rw [collect_append, List.filterMap_append, System.filterMap_getLeft, frames_append,
      collect_log]
    cases hc : a.call with
    | none =>
      have hleft := left_step hlo ht hc hstep
      rw [hleft] at hf
      rw [Option.toList_none, List.append_nil, hf, List.append_assoc, core_frames]
    | some c =>
      obtain ⟨h1, h2, h3⟩ := call_step hc hs
      rw [core_frames] at h3
      rw [h1, List.append_nil] at hf
      rw [Option.toList_some, calls_snoc, hf, h2, h3, List.append_nil]

/-- **The HAL thread refines `Hal.calls`.** In every run whose lists have one framebuffer target a
display: the frames accepted are the first of those that the calls give, and outside `hwc_set` they
are all of them, and the HAL keeps what `Hal.calls` keeps. -/
theorem accepts (hr : callSystem.Run oneTargets tr s) :
    frames (events tr) <+: (({} : Hal).calls (calls tr)).2 ∧
      (s.hal.inSet = false → ({} : Hal).calls (calls tr) = (s.keeps, frames (events tr))) := by
  have h := follows_run hr
  unfold Follows at h
  refine ⟨by rw [h]; exact List.prefix_append .., fun hh => ?_⟩
  rw [h, left_outside hh, List.append_nil]

/-! ## End to end -/

/-- The lists are as `hwc_prepare` left them, and the calls that a frame depends on succeed. -/
def orderly (s : St) (a : Act) : Prop := prepared s a ∧ succeeds s a

/-- And the waits end with a signal. -/
def working (s : St) (a : Act) : Prop := waitsSignalled s a ∧ succeeds s a

instance (s : St) (a : Act) : Decidable (working s a) := inferInstanceAs (Decidable (_ ∧ _))

/-- **From the calls to the panel.** What the worker has sent is the first part of what `Hal.calls`
and `shows` give for the calls so far, whatever the order of the steps of the two threads; and where
the threads have come to rest, in a run whose waits end with a signal, it is all of it. -/
theorem panel_follows (hr : callSystem.Run orderly tr s) :
    sends (events tr) <+:
        shows s.panel.panelColor epdPartGc16 (({} : Hal).calls (calls tr)).2 ∧
      (callSystem.Run working tr s → system.Stuck Act.own s → sends (events tr) =
        shows s.panel.panelColor epdPartGc16 (({} : Hal).calls (calls tr)).2) := by
  have hfol := follows_run (hr.mono fun s a h => oneTargets_of_prepared s a h.1)
  unfold Follows at hfol
  have hun : Run orderly (events tr) s := hr.unlogged
  obtain ⟨n, hn, hs⟩ := shown_run (hun.mono fun _ _ h => h.2)
  have hle : n ≤ (frames (events tr)).length := by
    rw [frames, List.length_map]
    exact Nat.le.intro hn
  refine ⟨?_, fun hw hst => ?_⟩
  · rw [hs, hfol]
    have h := shows_take_prefix s.panel.panelColor epdPartGc16
      (frames (events tr) ++ s.left.2) n
    rwa [List.take_append_of_le_length hle] at h
  · have hd := stuck_done (System.Run.mono (fun _ _ h => h.1) hw.unlogged) hst
    have hleft : s.left = (s.keeps, []) := left_outside (by rw [hd.hal]; rfl)
    rw [unsent_none hd.cur, hd.ho.inFlight, List.length_nil, Nat.add_zero] at hn
    rw [hs, hfol, hleft, List.append_nil, List.take_of_length_le]
    · rfl
    · rw [List.length_map]
      exact Nat.le_of_eq hn.symm

/-- `panel_follows` in a run of four calls, with the panel powered off and on between
two frames. -/
theorem panel_follows_resume : ∃ tr s, callSystem.Run working tr s ∧ (calls tr).length = 4 ∧
    sends (events tr) = [(epdPartGc16, .frame 1), (epdResume, .frame 2)] ∧
    sends (events tr) =
      shows s.panel.panelColor epdPartGc16 (({} : Hal).calls (calls tr)).2 := by
  obtain ⟨tr, s, hr, hp⟩ := System.exists_run callSystem working
    ⟨[.get 0], ⟨⟨8, 8, 0⟩, 0, rfl, rfl⟩, rfl⟩
    (List.flatten [frameActs { handle := 1 }, popActs, sendActs 1, List.replicate 5 .work,
      [.hwcSetPowerMode .off {}, .hwcPostEpd 0 0, .hwcSetPowerMode .normal {}],
      frameActs { handle := 2 }, List.replicate 6 .work, sendActs 2, List.replicate 5 .work])
    (fun tr s => (calls tr).length == 4 &&
      sends (events tr) == [(epdPartGc16, .frame 1), (epdResume, .frame 2)] &&
      s.hal == .idle && s.cur == none && s.ho.prod == .idle && s.ho.work == .waiting &&
      s.ho.queue == []) (by decide +kernel)
  simp only [Bool.and_eq_true, beq_iff_eq] at hp
  obtain ⟨⟨⟨⟨⟨⟨hn, hs⟩, hh⟩, hc⟩, h1⟩, h2⟩, h3⟩ := hp
  have ho : callSystem.Run orderly tr s := hr.mono fun s a h => ⟨h.1.1, h.2⟩
  exact ⟨tr, s, hr, hn, hs, (panel_follows ho).2 hr (Finished.stuck ⟨hh, hc, h1, h2, h3⟩)⟩

/-- `accepts` in a run of three calls, of which the third has the handle of the second again. -/
theorem accepts_again : ∃ tr s, callSystem.Run oneTargets tr s ∧ (calls tr).length = 3 ∧
    frames (events tr) = [(1, epdPartGc16), (2, epdPartGc16)] ∧
    ({} : Hal).calls (calls tr) = (s.keeps, frames (events tr)) := by
  obtain ⟨tr, s, hr, hp⟩ := System.exists_run callSystem oneTargets
    ⟨[.get 0], ⟨⟨8, 8, 0⟩, 0, rfl, rfl⟩, rfl⟩
    (frameActs { handle := 1 } ++ popActs ++ frameActs { handle := 2 } ++ skipActs { handle := 2 })
    (fun tr s => (calls tr).length == 3 &&
      frames (events tr) == [(1, epdPartGc16), (2, epdPartGc16)] && s.hal == .idle)
    (by decide +kernel)
  simp only [Bool.and_eq_true, beq_iff_eq] at hp
  exact ⟨tr, s, hr, hp.1.1, hp.1.2, (accepts hr).2 (by rw [hp.2]; rfl)⟩

end EinkHwc
