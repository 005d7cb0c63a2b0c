import EinkHwc.Sys.Step
import EinkHwc.Worker.HandoffLemmas

/-!
# What a step of the system can do

`Step` is the step function turned into rules, one for each branch of the code, with everything
that a proof needs to know of the branch; `step_cases` is the inversion lemma. Every invariant of
the system is proved by cases on `Step`, with the induction done once (`run_induction`).

- **The hand-off inside** (`run_handoff`): the hand-off's part of a run is a run of the hand-off
  without `Exit`, so what `HandoffLemmas.lean` proves holds of it (`Linked.safe`).
- **`core`**: the events that are not only about descriptors; most properties see no others.
- **`Linked`**: `Compose` has a composition exactly when the hand-off says so.
-/

namespace EinkHwc

open Trace

/-- The step of the hand-off that an action is. -/
def Act.handoff : Act → Option (Handoff.Act EinkComposition)
  | .prod => some .prod
  | .prodWake => some .prodWake
  | .work => some .work
  | .workWake => some .workWake
  | _ => none

/-- The step function as rules (module doc). -/
inductive Step (s : St) : Act → St → List Ev → Prop where
  -- `hwc_set` is called
  | setOn (mode oneFull : Int) (d : Displays) : s.hal = .idle → s.ho.prod = .idle →
      (setGlobals mode oneFull s.g).gCurrentEpdMode ≠ epdSuspend →
      Step s (.hwcSet mode oneFull d)
        { s with g := setGlobals mode oneFull s.g, disp := d, hal := .set 0 0 }
        (setEvs oneFull d s.g)
  | setOff (mode oneFull : Int) (d : Displays) : s.hal = .idle → s.ho.prod = .idle →
      (setGlobals mode oneFull s.g).gCurrentEpdMode = epdSuspend →
      Step s (.hwcSet mode oneFull d)
        { s with g := setGlobals mode oneFull s.g, disp := d.map (Option.map suspendDisplay) }
        ((allLayers d).flatMap suspendEvs ++ setEvs oneFull d s.g)
  -- `hwc_set_power_mode` is called
  | powerOff (env : PowerEnv) : s.hal = .idle → s.ho.prod = .idle →
      Step s (.hwcSetPowerMode .off env)
        { s with g := powerModeOff env s.g, hal := .posts (logoPosts env (powerModeOff env s.g)) }
        [.powerOff]
  | doze (env : PowerEnv) : Step s (.hwcSetPowerMode .doze env) s []
  | powerOn (mode : PowerMode) (env : PowerEnv) : s.hal = .idle → s.ho.prod = .idle →
      Step s (.hwcSetPowerMode mode env) { s with g := powerModeOn s.g } [.powerOn]
  -- `hwc_post_epd`
  | posted (pic : Picture) (mode : Int) (ps : List (Picture × Int)) (getRet sendRet : Int) :
      s.hal = .posts ((pic, mode) :: ps) → getRet = 0 → sendRet = 0 →
      Step s (.hwcPostEpd getRet sendRet)
        { s with hal := if ps.isEmpty then .idle else .posts ps } [.post pic mode]
  | postFailed (pic : Picture) (mode : Int) (ps : List (Picture × Int)) (getRet sendRet : Int) :
      s.hal = .posts ((pic, mode) :: ps) → ¬ (getRet = 0 ∧ sendRet = 0) →
      Step s (.hwcPostEpd getRet sendRet)
        { s with hal := if ps.isEmpty then .idle else .posts ps } []
  -- the loops of `hwc_set`
  | setDone (i j : Nat) (fd : Int) : s.hal = .set i j → s.ho.prod = .idle →
      s.disp.length ≤ i → Step s (.hal fd) { s with hal := .idle } []
  | nextDisplay (i j : Nat) (fd : Int) : s.hal = .set i j → s.ho.prod = .idle →
      i < s.disp.length → layerAt s.disp i j = none →
      Step s (.hal fd) { s with hal := .set (i + 1) 0 } []
  | nextLayer (i j : Nat) (l : Layer) (fd : Int) : s.hal = .set i j → s.ho.prod = .idle →
      layerAt s.disp i j = some l → l.queueable = false →
      Step s (.hal fd) { s with hal := .set i (j + 1) } []
  | start (i j : Nat) (dc : DisplayContents) (l : Layer) (fd : Int) : s.hal = .set i j →
      s.ho.prod = .idle → s.disp[i]? = some (some dc) → dc.hwLayers[j]? = some l →
      l.queueable = true →
      Step s (.hal fd) (queueCompositeStart i j dc fd s).1 (queueCompositeStart i j dc fd s).2
  -- the loop of `QueueComposite`
  | queueDone (i j k : Nat) (comp : Option EinkComposition) (dc : DisplayContents) (fd : Int) :
      s.hal = .queue i j k comp → s.ho.prod = .idle → s.disp[i]? = some (some dc) →
      dc.hwLayers[k]? = none →
      Step s (.hal fd) { s with hal := .set i (j + 1) } (doneEvs comp)
  | otherLayer (i j k : Nat) (comp : Option EinkComposition) (dc : DisplayContents) (l : Layer)
      (fd : Int) : s.hal = .queue i j k comp → s.ho.prod = .idle →
      s.disp[i]? = some (some dc) → dc.hwLayers[k]? = some l → l.queueable = false →
      Step s (.hal fd) { s with hal := .queue i j (k + 1) comp } []
  | sameLayer (i j k : Nat) (comp : Option EinkComposition) (dc : DisplayContents) (l : Layer)
      (fd : Int) : s.hal = .queue i j k comp → s.ho.prod = .idle →
      s.disp[i]? = some (some dc) → dc.hwLayers[k]? = some l → l.queueable = true →
      l.handle = s.lastFbHandle →
      Step s (.hal fd)
        { s with
          lastFbHandleMode :=
            if s.g.gCurrentEpdMode = epdResume then epdResume else s.lastFbHandleMode
          hal := .queue i j (k + 1) comp } [.skip l.handle]
  | newLayer (i j k : Nat) (comp : EinkComposition) (dc : DisplayContents) (l : Layer) (fd : Int) :
      s.hal = .queue i j k (some comp) → s.ho.prod = .idle → s.disp[i]? = some (some dc) →
      dc.hwLayers[k]? = some l → l.queueable = true → l.handle ≠ s.lastFbHandle →
      Step s (.hal fd) (queueLayer i j k dc l comp fd s).1 (queueLayer i j k dc l comp fd s).2
  -- the hand-off
  | moved (a : Act) (ho : Handoff EinkComposition) : a.handoff.isSome = true →
      ho.inFlight = s.ho.inFlight → ho.prodHeld = s.ho.prodHeld →
      Step s a { s with ho := ho } []
  | pushed (a : Act) (ho : Handoff EinkComposition) (c : EinkComposition) :
      a.handoff.isSome = true → ho.inFlight = s.ho.inFlight → s.ho.prodHeld = [c] →
      ho.prodHeld = [] → Step s a { s with ho := ho } [.ho (.push c)]
  | started (a : Act) (ho : Handoff EinkComposition) (c : EinkComposition) :
      a.handoff.isSome = true → s.ho.inFlight = c :: ho.inFlight →
      ho.prodHeld = s.ho.prodHeld → s.cur = none →
      Step s a
        { s with ho := ho, cur := some { comp := c, outbuf := c.outbufAcquireFence,
                                         fences := c.layerAcquireFences, pc := .outbuf } }
        [.ho (.compose c)]
  -- `Compose`
  | waited (k k' : Composing) (ret : Int) (es : List Ev) : s.cur = some k →
      k.pc = .outbuf ∨ k.pc = .layers → k'.comp = k.comp → k'.pc = .layers ∨ k'.pc = .rga →
      (es = closeEvs .outbuf k.outbuf ∧ k'.fences = k.fences) ∨
        (∃ f, es = closeEvs .acquire f ∧ k.fences = f :: k'.fences) ∨
        (es = [] ∧ k'.fences = k.fences) →
      Step s (.compose (.syncWait ret)) { s with cur := some k' } es
  | dropped (k : Composing) (ret : Int) : s.cur = some k →
      (k.pc = .outbuf ∧ 0 ≤ k.outbuf) ∨ (k.pc = .layers ∧ 0 ≤ k.fences.head?.getD (-1)) →
      ret ≠ 0 → s.ho.work = .composing →
      Step s (.compose (.syncWait ret)) { s with ho := { s.ho with work := .top }, cur := none }
        (destroyEvs k.outbuf k.fences ++ [.drop k.comp])
  | ready (k : Composing) : s.cur = some k → k.pc = .rga →
      (setMode s.panel.panelColor k.comp.einkMode).isSome = true →
      Step s (.compose (.rkRgaIsReady true)) { s with cur := some { k with pc := .convert } } []
  | notReady (k : Composing) (b : Bool) : s.cur = some k → k.pc = .rga →
      b = false ∨ k.comp.einkMode = epdSuspend →
      Step s (.compose (.rkRgaIsReady b)) { s with cur := some { k with pc := .finish } }
        [.served k.comp]
  | wrote (k : Composing) (env : ConvertEnv) (m : Converter × Commit) : s.cur = some k →
      k.pc = .convert → setMode s.panel.panelColor k.comp.einkMode = some m →
      (m.1.run s.panel.panelColor env).2 = true →
      Step s (.compose (.convert env))
        { s with gray16Content := .frame k.comp.fbHandle, cur := some { k with pc := .send } }
        [.write s.gray16Buffer]
  | notWritten (k : Composing) (env : ConvertEnv) (m : Converter × Commit) : s.cur = some k →
      k.pc = .convert → setMode s.panel.panelColor k.comp.einkMode = some m →
      (m.1.run s.panel.panelColor env).2 = false →
      Step s (.compose (.convert env)) { s with cur := some { k with pc := .send } } []
  | sent (k : Composing) (m : Converter × Commit) : s.cur = some k → k.pc = .send →
      setMode s.panel.panelColor k.comp.einkMode = some m →
      Step s (.compose (.ebcSend 0))
        { s with
          commitBufInfo := postEink s.panel (m.2.postMode s.gLastEpdMode) s.commitBufInfo
          cur := some { k with pc := .get } }
        [.send (postEink s.panel (m.2.postMode s.gLastEpdMode) s.commitBufInfo) s.gray16Content]
  | sendFailed (k : Composing) (m : Converter × Commit) (ret : Int) : s.cur = some k →
      k.pc = .send → setMode s.panel.panelColor k.comp.einkMode = some m → ret ≠ 0 →
      Step s (.compose (.ebcSend ret))
        { s with
          commitBufInfo := postEink s.panel (m.2.postMode s.gLastEpdMode) s.commitBufInfo
          gLastEpdMode := m.2.lastMode
          cur := some { k with pc := .finish } }
        [.served k.comp]
  | got (k : Composing) (m : Converter × Commit) (b : Int) : s.cur = some k → k.pc = .get →
      setMode s.panel.panelColor k.comp.einkMode = some m →
      Step s (.compose (.ebcGet (some b)))
        { s with
          commitBufInfo := { s.commitBufInfo with offset := b }
          gray16Buffer := b
          gray16Content := .stale
          gLastEpdMode := m.2.lastMode
          cur := some { k with pc := .finish } }
        [.served k.comp, .get b]
  | getFailed (k : Composing) (m : Converter × Commit) : s.cur = some k → k.pc = .get →
      setMode s.panel.panelColor k.comp.einkMode = some m →
      Step s (.compose (.ebcGet none))
        { s with gLastEpdMode := m.2.lastMode, cur := some { k with pc := .finish } }
        [.served k.comp, .getFail]
  | finished (k : Composing) (ret : Int) : s.cur = some k → k.pc = .finish →
      k.comp.releaseTimeline ≤ s.timelineCurrent ∨ ret ≠ 0 → s.ho.work = .composing →
      Step s (.compose (.timelineInc ret)) { s with ho := { s.ho with work := .top }, cur := none }
        (destroyEvs k.outbuf k.fences)
  | finishedInc (k : Composing) : s.cur = some k → k.pc = .finish →
      s.timelineCurrent < k.comp.releaseTimeline → s.ho.work = .composing →
      Step s (.compose (.timelineInc 0))
        { s with
          timelineCurrent := k.comp.releaseTimeline
          ho := { s.ho with work := .top }
          cur := none }
        (destroyEvs k.outbuf k.fences ++ [.inc (k.comp.releaseTimeline - s.timelineCurrent)])

/-! ## The steps outside the hand-off -/

variable {s s' : St} {a : Act} {es tr : List Ev}

theorem endCompose_eq {k : Composing} {es' : List Ev} (h : endCompose s k es = some (s', es')) :
    s.ho.work = .composing ∧ s' = { s with ho := { s.ho with work := .top }, cur := none } ∧
      es' = destroyEvs k.outbuf k.fences ++ es := by
  unfold endCompose Handoff.step at h
  cases hw : s.ho.work <;> simp only [hw, Option.map_none, Option.map_some, Option.some.injEq,
    Prod.mk.injEq, reduceCtorEq] at h
  exact ⟨rfl, h.1.symm, h.2.symm⟩

theorem hwcSet_cases {mode oneFull : Int} {d : Displays} (hh : s.hal = .idle)
    (hp : s.ho.prod = .idle) (h : hwcSet mode oneFull d s = (s', es)) :
    Step s (.hwcSet mode oneFull d) s' es := by
  unfold hwcSet at h
  by_cases hg : (setGlobals mode oneFull s.g).gCurrentEpdMode = epdSuspend
  · simp only [hg, ne_eq, not_true_eq_false, ↓reduceIte, Prod.mk.injEq] at h
    obtain ⟨rfl, rfl⟩ := h
    exact .setOff mode oneFull d hh hp hg
  · simp only [hg, ne_eq, not_false_eq_true, ↓reduceIte, Prod.mk.injEq] at h
    obtain ⟨rfl, rfl⟩ := h
    exact .setOn mode oneFull d hh hp hg

theorem hwcSetPowerMode_cases {mode : PowerMode} {env : PowerEnv} (hh : s.hal = .idle)
    (hp : s.ho.prod = .idle) (h : hwcSetPowerMode mode env s = (s', es)) :
    Step s (.hwcSetPowerMode mode env) s' es := by
  cases mode <;> simp only [hwcSetPowerMode, Prod.mk.injEq] at h <;> obtain ⟨rfl, rfl⟩ := h
  case off => exact .powerOff env hh hp
  case doze => exact .doze env
  case normal | dozeSuspend => exact .powerOn _ env hh hp

theorem hwcPostEpd_cases {getRet sendRet : Int} (h : hwcPostEpd getRet sendRet s = some (s', es)) :
    Step s (.hwcPostEpd getRet sendRet) s' es := by
  unfold hwcPostEpd at h
  split at h
  · rename_i pic mode ps hh
    simp only [Option.some.injEq, Prod.mk.injEq] at h
    obtain ⟨rfl, rfl⟩ := h
    by_cases hr : getRet = 0 ∧ sendRet = 0
    · rw [if_pos hr]
      exact .posted pic mode ps getRet sendRet hh hr.1 hr.2
    · rw [if_neg hr]
      exact .postFailed pic mode ps getRet sendRet hh hr
  · cases h

theorem setStep_cases {i j : Nat} {fd : Int} (hh : s.hal = .set i j) (hp : s.ho.prod = .idle)
    (h : setStep i j fd s = (s', es)) : Step s (.hal fd) s' es := by
  unfold setStep at h
  split at h
  · rename_i hd
    obtain ⟨rfl, rfl⟩ := Prod.mk.injEq .. ▸ h
    exact .setDone i j fd hh hp (List.getElem?_eq_none_iff.1 hd)
  · rename_i hd
    obtain ⟨rfl, rfl⟩ := Prod.mk.injEq .. ▸ h
    exact .nextDisplay i j fd hh hp (List.getElem?_eq_some_iff.1 hd).1
      (by rw [layerAt, hd]; rfl)
  · rename_i dc hd
    split at h
    · rename_i hl
      obtain ⟨rfl, rfl⟩ := Prod.mk.injEq .. ▸ h
      exact .nextDisplay i j fd hh hp (List.getElem?_eq_some_iff.1 hd).1
        (by rw [layerAt, hd]; exact hl)
    · rename_i l hl
      by_cases hq : l.queueable = true
      · rw [if_pos hq] at h
        obtain ⟨rfl, rfl⟩ : _ ∧ _ := ⟨congrArg Prod.fst h, congrArg Prod.snd h⟩
        exact .start i j dc l fd hh hp hd hl hq
      · rw [if_neg hq] at h
        obtain ⟨rfl, rfl⟩ := Prod.mk.injEq .. ▸ h
        exact .nextLayer i j l fd hh hp (by rw [layerAt, hd]; exact hl) (by simpa using hq)

theorem queueStep_cases {i j k : Nat} {comp : Option EinkComposition} {fd : Int}
    (hh : s.hal = .queue i j k comp) (hp : s.ho.prod = .idle)
    (h : queueStep i j k comp fd s = some (s', es)) : Step s (.hal fd) s' es := by
  unfold queueStep at h
  split at h
  · cases h
  rename_i dc hd
  have hd : s.disp[i]? = some (some dc) := by
    cases hx : s.disp[i]? with
    | none => rw [hx] at hd; cases hd
    | some o => rw [hx] at hd; exact congrArg some hd
  split at h
  · rename_i hl
    simp only [Option.some.injEq, Prod.mk.injEq] at h
    obtain ⟨rfl, rfl⟩ := h
    exact .queueDone i j k comp dc fd hh hp hd hl
  · rename_i l hl
    by_cases hq : l.queueable = true
    · rw [if_pos hq] at h
      by_cases hn : l.handle = s.lastFbHandle
      · simp only [hn, ne_eq, not_true_eq_false, ↓reduceIte, Option.some.injEq,
          Prod.mk.injEq] at h
        obtain ⟨rfl, rfl⟩ := h
        exact hn ▸ .sameLayer i j k comp dc l fd hh hp hd hl hq hn
      · rw [if_pos hn] at h
        obtain ⟨c, rfl, hc⟩ := Option.map_eq_some_iff.1 h
        obtain ⟨rfl, rfl⟩ : _ ∧ _ := ⟨congrArg Prod.fst hc, congrArg Prod.snd hc⟩
        exact .newLayer i j k c dc l fd hh hp hd hl hq hn
    · rw [if_neg hq] at h
      simp only [Option.some.injEq, Prod.mk.injEq] at h
      obtain ⟨rfl, rfl⟩ := h
      exact .otherLayer i j k comp dc l fd hh hp hd hl (by simpa using hq)

theorem halStep_cases {fd : Int} (h : halStep fd s = some (s', es)) : Step s (.hal fd) s' es := by
  unfold halStep at h
  split at h
  · rename_i hp
    split at h
    · rename_i hh
      exact setStep_cases hh hp (Option.some.inj h)
    · rename_i hh
      exact queueStep_cases hh hp h
    · cases h
  · cases h

section Compose
variable {k : Composing}

/-- `Compose`, at `outbuf_acquire_fence`. -/
theorem composeStep_outbuf {ret : Int} (hc : s.cur = some k) (hpc : k.pc = .outbuf)
    (h : composeStep (.syncWait ret) s = some (s', es)) :
    Step s (.compose (.syncWait ret)) s' es := by
  simp only [composeStep, hc, hpc] at h
  by_cases hf : 0 ≤ k.outbuf
  · rw [if_pos hf] at h
    by_cases hr : ret ≠ 0
    · rw [if_pos hr] at h
      obtain ⟨hw, rfl, rfl⟩ := endCompose_eq h
      exact .dropped k ret hc (.inl ⟨hpc, hf⟩) hr hw
    · rw [if_neg hr] at h
      simp only [Option.some.injEq, Prod.mk.injEq] at h
      obtain ⟨rfl, rfl⟩ := h
      exact .waited k _ ret _ hc (.inl hpc) rfl (.inl rfl) (.inl ⟨rfl, rfl⟩)
  · rw [if_neg hf] at h
    simp only [Option.some.injEq, Prod.mk.injEq] at h
    obtain ⟨rfl, rfl⟩ := h
    exact .waited k _ ret _ hc (.inl hpc) rfl (.inl rfl) (.inr (.inr ⟨rfl, rfl⟩))

/-- `Compose`, in the loop over the acquire fences. -/
theorem composeStep_layers {ret : Int} (hc : s.cur = some k) (hpc : k.pc = .layers)
    (h : composeStep (.syncWait ret) s = some (s', es)) :
    Step s (.compose (.syncWait ret)) s' es := by
  simp only [composeStep, hc, hpc] at h
  split at h
  · simp only [Option.some.injEq, Prod.mk.injEq] at h
    obtain ⟨rfl, rfl⟩ := h
    exact .waited k _ ret _ hc (.inr hpc) rfl (.inr rfl) (.inr (.inr ⟨rfl, rfl⟩))
  · rename_i f fs hfs
    by_cases hf : 0 ≤ f
    · rw [if_pos hf] at h
      by_cases hr : ret ≠ 0
      · rw [if_pos hr] at h
        obtain ⟨hw, rfl, rfl⟩ := endCompose_eq h
        exact .dropped k ret hc (.inr ⟨hpc, by rw [hfs]; exact hf⟩) hr hw
      · rw [if_neg hr] at h
        simp only [Option.some.injEq, Prod.mk.injEq] at h
        obtain ⟨rfl, rfl⟩ := h
        exact .waited k _ ret _ hc (.inr hpc) rfl (.inl rfl) (.inr (.inl ⟨f, rfl, hfs⟩))
    · rw [if_neg hf] at h
      simp only [Option.some.injEq, Prod.mk.injEq] at h
      obtain ⟨rfl, rfl⟩ := h
      exact .waited k _ ret _ hc (.inr hpc) rfl (.inl rfl)
        (.inr (.inl ⟨f, by rw [closeEvs, closeFd, if_neg hf]; rfl, hfs⟩))

theorem composeStep_rga {b : Bool} (hc : s.cur = some k) (hpc : k.pc = .rga)
    (h : composeStep (.rkRgaIsReady b) s = some (s', es)) :
    Step s (.compose (.rkRgaIsReady b)) s' es := by
  simp only [composeStep, hc, hpc] at h
  by_cases hb : b = true ∧ (setMode s.panel.panelColor k.comp.einkMode).isSome = true
  · rw [if_pos hb] at h
    simp only [Option.some.injEq, Prod.mk.injEq] at h
    obtain ⟨rfl, rfl⟩ := h
    obtain ⟨rfl, hm⟩ := hb
    exact .ready k hc hpc hm
  · rw [if_neg hb] at h
    simp only [toFinish, Option.some.injEq, Prod.mk.injEq] at h
    obtain ⟨rfl, rfl⟩ := h
    refine .notReady k b hc hpc ?_
    cases b with
    | false => exact .inl rfl
    | true => exact .inr (Decidable.byContradiction fun hm => hb ⟨rfl, setMode_isSome hm⟩)

theorem composeStep_convert {env : ConvertEnv} (hc : s.cur = some k) (hpc : k.pc = .convert)
    (h : composeStep (.convert env) s = some (s', es)) :
    Step s (.compose (.convert env)) s' es := by
  simp only [composeStep, hc, hpc] at h
  obtain ⟨m, hm, h⟩ := Option.map_eq_some_iff.1 h
  cases hw : (m.1.run s.panel.panelColor env).2 with
  | true =>
    rw [if_pos hw, Prod.mk.injEq] at h
    obtain ⟨rfl, rfl⟩ := h
    exact .wrote k env m hc hpc hm hw
  | false =>
    rw [if_neg (by rw [hw]; decide), Prod.mk.injEq] at h
    obtain ⟨rfl, rfl⟩ := h
    exact .notWritten k env m hc hpc hm hw

theorem composeStep_send {ret : Int} (hc : s.cur = some k) (hpc : k.pc = .send)
    (h : composeStep (.ebcSend ret) s = some (s', es)) :
    Step s (.compose (.ebcSend ret)) s' es := by
  simp only [composeStep, hc, hpc] at h
  cases hm : setMode s.panel.panelColor k.comp.einkMode with
  | none => simp only [hm, reduceCtorEq] at h
  | some m =>
    simp only [hm] at h
    by_cases hr : ret ≠ 0
    · rw [if_pos hr] at h
      simp only [endCommit, toFinish, Option.some.injEq, Prod.mk.injEq] at h
      obtain ⟨rfl, rfl⟩ := h
      exact .sendFailed k m ret hc hpc hm hr
    · rw [if_neg hr] at h
      simp only [Option.some.injEq, Prod.mk.injEq] at h
      obtain ⟨rfl, rfl⟩ := h
      obtain rfl := Decidable.not_not.1 hr
      exact .sent k m hc hpc hm

theorem composeStep_get {offset : Option Int} (hc : s.cur = some k) (hpc : k.pc = .get)
    (h : composeStep (.ebcGet offset) s = some (s', es)) :
    Step s (.compose (.ebcGet offset)) s' es := by
  simp only [composeStep, hc, hpc] at h
  cases hm : setMode s.panel.panelColor k.comp.einkMode with
  | none => simp only [hm, reduceCtorEq] at h
  | some m =>
    simp only [hm] at h
    cases offset with
    | none =>
      simp only [endCommit, toFinish, Option.some.injEq, Prod.mk.injEq] at h
      obtain ⟨rfl, rfl⟩ := h
      exact .getFailed k m hc hpc hm
    | some b =>
      simp only [endCommit, toFinish, Option.some.injEq, Prod.mk.injEq] at h
      obtain ⟨rfl, rfl⟩ := h
      exact .got k m b hc hpc hm

/-- `FinishComposition` -/
theorem composeStep_finish {ret : Int} (hc : s.cur = some k) (hpc : k.pc = .finish)
    (h : composeStep (.timelineInc ret) s = some (s', es)) :
    Step s (.compose (.timelineInc ret)) s' es := by
  simp only [composeStep, hc, hpc] at h
  by_cases hd : k.comp.releaseTimeline - s.timelineCurrent ≤ 0
  · rw [if_pos hd] at h
    obtain ⟨hw, rfl, rfl⟩ := endCompose_eq h
    rw [List.append_nil]
    exact .finished k ret hc hpc (.inl (by omega)) hw
  · rw [if_neg hd] at h
    by_cases hr : ret ≠ 0
    · rw [if_pos hr] at h
      obtain ⟨hw, rfl, rfl⟩ := endCompose_eq h
      rw [List.append_nil]
      exact .finished k ret hc hpc (.inr hr) hw
    · rw [if_neg hr] at h
      obtain ⟨hw, rfl, rfl⟩ := endCompose_eq h
      obtain rfl := Decidable.not_not.1 hr
      exact .finishedInc k hc hpc (by omega) hw

end Compose

theorem composeStep_cases {o : Outcome} (h : composeStep o s = some (s', es)) :
    Step s (.compose o) s' es := by
  have hstep := h
  unfold composeStep at hstep
  cases hc : s.cur with
  | none => simp only [hc, reduceCtorEq] at hstep
  | some k =>
    simp only [hc] at hstep
    split at hstep
    case h_1 ret hpc => exact composeStep_outbuf hc hpc h
    case h_2 ret hpc => exact composeStep_layers hc hpc h
    case h_3 b hpc => exact composeStep_rga hc hpc h
    case h_4 env hpc => exact composeStep_convert hc hpc h
    case h_5 ret hpc => exact composeStep_send hc hpc h
    case h_6 offset hpc => exact composeStep_get hc hpc h
    case h_7 ret hpc => exact composeStep_finish hc hpc h
    case h_8 => cases hstep

/-- A step outside the hand-off. -/
theorem localStep_cases (ha : a.handoff = none) (h : step s a = some (s', es)) :
    Step s a s' es := by
  cases a <;> simp only [step] at h
  case hwcSet mode oneFull d =>
    split at h
    · rename_i hi
      exact hwcSet_cases hi.1 hi.2 (Option.some.inj h)
    · cases h
  case hwcSetPowerMode mode env =>
    split at h
    · rename_i hi
      exact hwcSetPowerMode_cases hi.1 hi.2 (Option.some.inj h)
    · cases h
  case hwcPostEpd => exact hwcPostEpd_cases h
  case hal => exact halStep_cases h
  case compose => exact composeStep_cases h
  all_goals cases ha

/-! ## Events about descriptors -/

/-- The event is only about a descriptor. -/
def Ev.isFd : Ev → Bool
  | .handIn _ | .close .. => true
  | _ => false

/-- The composition that a push puts into the queue. -/
def Ev.isPush : Ev → Option EinkComposition
  | .ho (.push c) => some c
  | _ => none

theorem isPush_eq {e : Ev} {c : EinkComposition} (h : e.isPush = some c) : e = .ho (.push c) := by
  rcases e with (_ | _ | _) | _ <;> cases h
  rfl

/-- The other events of a trace, or of a step. -/
def core (tr : List Ev) : List Ev := tr.filter fun e => !e.isFd

@[simp] theorem core_nil : core [] = [] := rfl

@[simp] theorem core_cons (e : Ev) (tr : List Ev) :
    core (e :: tr) = if e.isFd then core tr else e :: core tr := by
  unfold core
  rw [List.filter_cons]
  cases e.isFd <;> rfl

@[simp] theorem core_append (es tr : List Ev) : core (es ++ tr) = core es ++ core tr :=
  List.filter_append ..

@[simp] theorem core_closeEvs (role : FdRole) (fd : Int) : core (closeEvs role fd) = [] := by
  unfold closeEvs closeFd
  split <;> rfl

@[simp] theorem core_destroyEvs (outbuf : Int) (fences : List Int) :
    core (destroyEvs outbuf fences) = [] := by
  unfold destroyEvs
  rw [core_append, core_closeEvs, List.nil_append]
  induction fences with
  | nil => rfl
  | cons f fs ih => rw [List.flatMap_cons, core_append, core_closeEvs, ih]; rfl

@[simp] theorem core_doneEvs (comp : Option EinkComposition) : core (doneEvs comp) = [] := by
  cases comp with
  | none => rfl
  | some c => exact core_destroyEvs ..

@[simp] theorem core_suspendEvs (ls : List Layer) : core (ls.flatMap suspendEvs) = [] := by
  induction ls with
  | nil => rfl
  | cons l ls ih =>
    rw [List.flatMap_cons, core_append, ih]
    unfold suspendEvs
    split
    · rw [core_closeEvs]; rfl
    · rfl

@[simp] theorem core_handIn (fds : List Int) : core (fds.map .handIn) = [] := by
  induction fds with
  | nil => rfl
  | cons f fs ih => exact ih

@[simp] theorem core_setEvs (oneFull : Int) (d : Displays) (g : Globals) :
    core (setEvs oneFull d g) = if consumesOneFull oneFull g then [.forceFull] else [] := by
  unfold setEvs
  rw [core_append, core_handIn, List.append_nil]
  split <;> rfl

/-- The events of a fence wait. -/
theorem core_waitEvs {k k' : Composing}
    (he : (es = closeEvs .outbuf k.outbuf ∧ k'.fences = k.fences) ∨
      (∃ f, es = closeEvs .acquire f ∧ k.fences = f :: k'.fences) ∨
      (es = [] ∧ k'.fences = k.fences)) : core es = [] := by
  obtain ⟨rfl, -⟩ | ⟨f, rfl, -⟩ | ⟨rfl, -⟩ := he <;> simp

/-- `p` holds of no event that is only about a descriptor. -/
def CoreOnly (p : Ev → Prop) : Prop :=
  (∀ fd, ¬ p (.handIn fd)) ∧ ∀ role fd, ¬ p (.close role fd)

theorem CoreOnly.not {p : Ev → Prop} (hp : CoreOnly p) (e : Ev) (h : (!e.isFd) = false) :
    ¬ p e := by
  cases e with
  | handIn fd => exact hp.1 fd
  | close role fd => exact hp.2 role fd
  | _ => cases h

theorem since_core {p q : Ev → Prop} (hp : CoreOnly p) (hq : CoreOnly q) :
    Since p q (core tr) ↔ Since p q tr :=
  since_filter hp.not hq.not

theorem filterMap_core {β : Type} {f : Ev → Option β} (hf : CoreOnly (f · ≠ none)) :
    (core tr).filterMap f = tr.filterMap f :=
  filterMap_filter fun e h => Decidable.not_not.1 (hf.not e h)

theorem collect_core {β : Type} {f : Ev → Option β} (hf : CoreOnly (f · ≠ none)) :
    collect f (core tr) = collect f tr :=
  collect_filter fun e h => Decidable.not_not.1 (hf.not e h)

/-! ## The hand-off inside -/

/-- The hand-off's part of an event. -/
def Ev.toHo : Ev → Option (Handoff.Ev EinkComposition)
  | .ho e => some e
  | _ => none

theorem toHo_core : (core tr).filterMap Ev.toHo = tr.filterMap Ev.toHo :=
  filterMap_core ⟨fun _ h => h rfl, fun _ _ h => h rfl⟩

@[simp] theorem toHo_ho (es : List (Handoff.Ev EinkComposition)) :
    (es.map Ev.ho).filterMap Ev.toHo = es := by
  induction es with
  | nil => rfl
  | cons e es ih => rw [List.map_cons, List.filterMap_cons_some (by rfl), ih]

theorem step_handoff {b : Handoff.Act EinkComposition} (ha : a.handoff = some b) :
    step s a = handoffStep b s := by
  cases a <;> cases ha <;> rfl

theorem handoff_noExit {b : Handoff.Act EinkComposition} (ha : a.handoff = some b) :
    b ≠ .exit ∧ ∀ c, b ≠ .call c := by
  cases a <;> cases ha <;> exact ⟨by simp, by simp⟩

/-- Every step is one of the hand-off's, or leaves it alone. -/
theorem step_ho (h : step s a = some (s', es)) :
    (s'.ho = s.ho ∧ es.filterMap Ev.toHo = []) ∨
      ∃ b, Handoff.noExit s.ho b ∧ s.ho.step b = some (s'.ho, es.filterMap Ev.toHo) := by
  cases ha : a.handoff with
  | some b =>
    rw [step_handoff ha] at h
    obtain ⟨r, hr, h⟩ := Option.map_eq_some_iff.1 h
    rw [Prod.mk.injEq] at h
    obtain ⟨rfl, rfl⟩ := h
    rw [toHo_ho]
    exact .inr ⟨b, (handoff_noExit ha).1, hr⟩
  | none =>
    cases localStep_cases ha h
    case moved hb | pushed hb | started hb =>
      rw [ha] at hb
      cases hb
    case newLayer i j k comp dc l fd _ hp _ _ _ _ =>
      refine .inr ⟨.call (fillComposition l comp s), by simp [Handoff.noExit], ?_⟩
      rw [← toHo_core]
      simp [Handoff.step, hp, queueLayer, Ev.isFd, Ev.toHo]
    case dropped k ret _ _ _ hw | finished k ret _ _ _ hw | finishedInc k _ _ _ hw =>
      refine .inr ⟨.composed, by simp [Handoff.noExit], ?_⟩
      rw [← toHo_core]
      simp [Handoff.step, hw, Ev.isFd, Ev.toHo]
    case waited k k' ret _ _ _ _ he =>
      refine .inl ⟨rfl, ?_⟩
      rw [← toHo_core, core_waitEvs he]
      rfl
    case setOn | setOff | start | queueDone =>
      refine .inl ⟨rfl, ?_⟩
      rw [← toHo_core]
      simp only [core_append, core_suspendEvs, core_setEvs, core_doneEvs, queueCompositeStart,
        core_closeEvs, List.nil_append]
      first | rfl | split <;> rfl
    all_goals exact .inl ⟨rfl, rfl⟩

variable {ok : St → Act → Prop}

/-- The hand-off's part of a run is a run of the hand-off, without `Exit`. -/
theorem run_handoff (hr : Run ok tr s) :
    (Handoff.system EinkComposition).Run Handoff.noExit (tr.filterMap Ev.toHo) s.ho := by
  refine System.Run.project (J := fun _ _ => True) St.ho Ev.toHo (fun _ _ _ => trivial) ?_
    (fun _ _ _ _ _ _ _ h => step_ho h) hr
  rintro s tr ⟨panel, b, rfl, rfl⟩
  exact ⟨rfl, rfl⟩

/-- What holds of the two halves of the worker in every reachable state: the hand-off is safe, and
`Compose` has a composition exactly when the hand-off has passed one to it. -/
structure Linked (s : St) : Prop where
  safe : s.ho.Safe
  composing : s.ho.work = .composing ↔ s.cur.isSome = true

/-- A step of either thread, with what it does to the compositions. -/
theorem step_cases (hl : Linked s) (h : step s a = some (s', es)) : Step s a s' es := by
  cases ha : a.handoff with
  | none => exact localStep_cases ha h
  | some b =>
    have hs : a.handoff.isSome = true := by rw [ha]; rfl
    rw [step_handoff ha] at h
    obtain ⟨⟨ho, ev⟩, hr, h⟩ := Option.map_eq_some_iff.1 h
    rw [Prod.mk.injEq] at h
    obtain ⟨rfl, rfl⟩ := h
    cases Handoff.step_effect hr with
    | silent hf hp => exact .moved a ho hs hf hp
    | call c hc _ _ _ => exact absurd hc ((handoff_noExit ha).2 c)
    | push c hf h0 h1 => exact .pushed a ho c hs hf h0 h1
    | compose c hf hp hn _ =>
      refine .started a ho c hs hf hp ?_
      cases hc : s.cur with
      | none => rfl
      | some k => exact absurd (hl.composing.2 (by rw [hc]; rfl)) hn
    | lost c r hw hne _ _ => exact absurd (hl.safe.ret r (by simp [Handoff.waitRet, hw])) hne

theorem startCompose_eq {ev : List (Handoff.Ev EinkComposition)} (cur : Option Composing)
    (he : ∀ c, ev ≠ [.compose c]) : startCompose ev cur = cur := by
  unfold startCompose
  split
  · exact absurd rfl (he _)
  · rfl

theorem Linked.step (hl : Linked s) (h : step s a = some (s', es)) : Linked s' := by
  have hs : s'.ho.Safe := by
    rcases step_ho h with ⟨he, -⟩ | ⟨b, hb, hr⟩
    · rw [he]
      exact hl.safe
    · exact hl.safe.step hb hr
  refine ⟨hs, ?_⟩
  have hc := hl.composing
  cases ha : a.handoff with
  | some b =>
    rw [step_handoff ha] at h
    obtain ⟨⟨ho, ev⟩, hr, h⟩ := Option.map_eq_some_iff.1 h
    rw [Prod.mk.injEq] at h
    obtain ⟨rfl, rfl⟩ := h
    by_cases he : ∃ c, ev = [.compose c]
    · obtain ⟨c, rfl⟩ := he
      cases Handoff.step_effect hr with
      | compose _ _ _ _ hw => exact ⟨fun _ => rfl, fun _ => hw⟩
    · have he : ∀ c, ev ≠ [.compose c] := fun c hx => he ⟨c, hx⟩
      have hb : b ≠ .composed := by cases a <;> cases ha <;> simp
      simp only [startCompose_eq _ he]
      exact (Handoff.step_composing hr hb he).trans hc
  | none =>
    cases localStep_cases ha h
    case moved hb | pushed hb | started hb =>
      rw [ha] at hb
      cases hb
    case dropped | finished | finishedInc => simp
    case waited k k' _ hk _ _ _ _ | ready k hk _ _ | notReady k b hk _ _ | wrote k env m hk _ _ _
      | notWritten k env m hk _ _ _ | sent k m hk _ _ | sendFailed k m ret hk _ _ _
      | got k m b hk _ _ | getFailed k m hk _ _ =>
      rw [hk] at hc
      exact hc
    all_goals exact hc

theorem linked_run (hr : Run ok tr s) : Linked s := by
  refine System.Inductive.run (I := fun _ s => Linked s) ⟨?_, ?_⟩ hr
  · rintro s tr ⟨panel, b, rfl, rfl⟩
    exact ⟨Handoff.Safe.init, by simp [initSt]⟩
  · intro s a s' es tr hl _ h
    exact hl.step h

/-! ## The induction over a run -/

/-- An invariant of all runs whose steps meet `ok`, by cases on the step; `J` is an invariant
already known. -/
theorem run_induction {J I : List Ev → St → Prop} (hJ : ∀ tr s, Run ok tr s → J tr s)
    (hinit : ∀ panel b, I [.get b] (initSt panel b))
    (hstep : ∀ s a s' es tr, J tr s → I tr s → ok s a → Step s a s' es → I (es ++ tr) s')
    (hr : Run ok tr s) : I tr s := by
  refine System.Run.induction (J := fun tr s => Linked s ∧ J tr s) (I := I)
    (fun tr s h => ⟨linked_run h, hJ tr s h⟩) ?_ ?_ hr
  · rintro s tr ⟨panel, b, rfl, rfl⟩
    exact hinit panel b
  · intro s a s' es tr hj hi hok h
    exact hstep s a s' es tr hj.2 hi hok (step_cases hj.1 h)

/-- The same for what the other events of the run say. -/
theorem core_induction {J I : List Ev → St → Prop} (hJ : ∀ tr s, Run ok tr s → J (core tr) s)
    (hinit : ∀ panel b, I [.get b] (initSt panel b))
    (hstep : ∀ s a s' es tr, J tr s → I tr s → ok s a → Step s a s' es → I (core es ++ tr) s')
    (hr : Run ok tr s) : I (core tr) s := by
  refine run_induction (J := fun tr s => J (core tr) s) (I := fun tr s => I (core tr) s)
    hJ hinit ?_ hr
  intro s a s' es tr hj hi hok h
  rw [core_append]
  exact hstep s a s' es (core tr) hj hi hok h

/-! ## The actions of one frame -/

/-- `hwc_set` of one display with one layer, whose frame is pushed. -/
def frameActs (l : Layer) (oneFull : Int := 0) : List Act :=
  List.flatten [[.hwcSet epdPartGc16 oneFull [some { hwLayers := [l] }], .hal 10, .hal 11],
    List.replicate 7 .prod, List.replicate 3 (.hal 0)]

/-- The same with the frame skipped. -/
def skipActs (l : Layer) (oneFull : Int := 0) : List Act :=
  .hwcSet epdPartGc16 oneFull [some { hwLayers := [l] }] :: .hal 10 :: List.replicate 4 (.hal 0)

/-- The worker pops a composition and starts `Compose`. -/
def popActs : List Act := List.replicate 9 .work

/-- `Compose` sends the frame, and gets the buffer at `b` for the next one. -/
def sendActs (b : Int) : List Act :=
  [.syncWait 0, .syncWait 0, .syncWait 0, .rkRgaIsReady true, .convert {}, .ebcSend 0,
    .ebcGet (some b), .timelineInc 0].map .compose

/-- `Compose` fails to wait for the layer's fence. -/
def dropActs : List Act := [.compose (.syncWait 0), .compose (.syncWait (-1))]

end EinkHwc
