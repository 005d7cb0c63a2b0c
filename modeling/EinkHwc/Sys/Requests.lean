import EinkHwc.Sys.Cases

/-!
# Requests for a mode

Two requests are made outside the frames and served by the mode of a frame: a power-on asks for
`EPD_RESUME` (in `gPowerMode`), a change of `sys.eink.one_full_mode_timeline` for `EPD_FORCE_FULL`.
`hwc_handle_eink_mode` consumes a request at the start of `hwc_set`, before it is known whether the
call queues a frame at all; from there it is in `gCurrentEpdMode`, which lasts for that call.

- **`Carried`**: where a request is, in every state between its start and the next push. It is
  carried over the loops of `hwc_set` by a layer that they have not yet reached (`Ahead`).
- **`EPD_RESUME`** (`resume_kept`): kept by `last_fb_handle_mode` where the layer's handle is the
  same, and lost where the call has no layer to queue (`resume_lost`).
- **`EPD_FORCE_FULL`** (`force_full_kept`): lost in either case (`force_full_lost`).
-/

namespace EinkHwc

open Trace

variable {s s' : St} {a : Act} {es tr : List Ev} {ok : St → Act → Prop}

/-! ## The layers that the loops have not reached -/

section Ahead

variable {P : Layer → Prop} {d : Displays} {i j k : Nat} {l : Layer}

/-- A layer with `P` at layer `j` of display `i` or after it. -/
def After (P : Layer → Prop) (d : Displays) (i j : Nat) : Prop :=
  ∃ i' j' l, layerAt d i' j' = some l ∧ P l ∧ (i < i' ∨ i' = i ∧ j ≤ j')

/-- A layer with `P` that the loops of `hwc_set` and `QueueComposite` are still to reach. -/
def Ahead (P : Layer → Prop) (d : Displays) : HalPc → Prop
  | .set i j => After P d i j
  | .queue i j k _ => (∃ k' l, layerAt d i k' = some l ∧ P l ∧ k ≤ k') ∨ After P d i (j + 1)
  | _ => False

theorem layerAt_none_of_le (h : layerAt d i j = none) (hj : j ≤ k) : layerAt d i k = none := by
  unfold layerAt at h ⊢
  cases hd : d[i]?.join with
  | none => rfl
  | some dc =>
    rw [hd, Option.bind_some, List.getElem?_eq_none_iff] at h
    rw [Option.bind_some, List.getElem?_eq_none_iff]
    omega

theorem After.skip (h : After P d i j) (hl : layerAt d i j = some l) (hn : ¬ P l) :
    After P d i (j + 1) := by
  obtain ⟨i', j', l', hl', hp, hpos⟩ := h
  refine ⟨i', j', l', hl', hp, ?_⟩
  rcases hpos with h | ⟨rfl, hj⟩
  · exact .inl h
  · have hne : j ≠ j' := by
      rintro rfl
      rw [hl'] at hl
      exact hn (Option.some.inj hl ▸ hp)
    omega

theorem After.next (h : After P d i j) (hl : layerAt d i j = none) : After P d (i + 1) 0 := by
  obtain ⟨i', j', l', hl', hp, hpos⟩ := h
  refine ⟨i', j', l', hl', hp, ?_⟩
  rcases hpos with h | ⟨rfl, hj⟩
  · omega
  · rw [layerAt_none_of_le hl hj] at hl'
    cases hl'

theorem not_after (h : d.length ≤ i) : ¬ After P d i j := by
  rintro ⟨i', j', l, hl, -, hpos⟩
  have hi : i ≤ i' := by omega
  unfold layerAt at hl
  rw [List.getElem?_eq_none_iff.2 (by omega)] at hl
  cases hl

theorem After.start (h : After P d i j) (comp : Option EinkComposition) :
    Ahead P d (.queue i j 0 comp) := by
  obtain ⟨i', j', l, hl, hp, hpos⟩ := h
  rcases hpos with h | ⟨rfl, hj⟩
  · exact .inr ⟨i', j', l, hl, hp, .inl h⟩
  · exact .inl ⟨j', l, hl, hp, by omega⟩

theorem Ahead.skip {comp comp' : Option EinkComposition} (h : Ahead P d (.queue i j k comp))
    (hl : layerAt d i k = some l) (hn : ¬ P l) : Ahead P d (.queue i j (k + 1) comp') := by
  rcases h with ⟨k', l', hl', hp, hk⟩ | h
  · have hne : k ≠ k' := by
      rintro rfl
      rw [hl'] at hl
      exact hn (Option.some.inj hl ▸ hp)
    exact .inl ⟨k', l', hl', hp, by omega⟩
  · exact .inr h

theorem Ahead.done {comp : Option EinkComposition} (h : Ahead P d (.queue i j k comp))
    (hl : layerAt d i k = none) : After P d i (j + 1) := by
  rcases h with ⟨k', l', hl', -, hk⟩ | h
  · rw [layerAt_none_of_le hl hk] at hl'
    cases hl'
  · exact h

theorem layerAt_eq {dc : DisplayContents} (hd : d[i]? = some (some dc)) :
    layerAt d i k = dc.hwLayers[k]? := by
  rw [layerAt, hd]
  rfl

/-- Only the layers count. -/
theorem layerAt_set {dc dc' : DisplayContents} (hd : d[i]? = some (some dc))
    (hl : dc'.hwLayers = dc.hwLayers) (i' j' : Nat) :
    layerAt (d.set i (some dc')) i' j' = layerAt d i' j' := by
  unfold layerAt
  by_cases hi : i = i'
  · subst hi
    have hlen := (List.getElem?_eq_some_iff.1 hd).1
    rw [List.getElem?_set_self hlen, hd, Option.join_some, Option.join_some, Option.bind_some,
      Option.bind_some, hl]
  · rw [List.getElem?_set_ne hi]

theorem Ahead.congr {d' : Displays} {hal : HalPc} (h : Ahead P d hal)
    (hd : ∀ i j, layerAt d' i j = layerAt d i j) : Ahead P d' hal := by
  cases hal with
  | idle | posts => cases h
  | set | queue => simpa only [Ahead, After, hd] using h

/-- At the start of `hwc_set` all layers are ahead. -/
theorem ahead_of_mem (hl : l ∈ allLayers d) (hp : P l) : Ahead P d (.set 0 0) := by
  obtain ⟨dc, hdc, hl⟩ := List.mem_flatMap.1 hl
  cases dc with
  | none => cases hl
  | some dc =>
    obtain ⟨i, hi⟩ := List.getElem?_of_mem hdc
    obtain ⟨j, hj⟩ := List.getElem?_of_mem hl
    refine ⟨i, j, l, ?_, hp, by omega⟩
    rw [layerAt_eq hi]
    exact hj

end Ahead

/-! ## Where a request is -/

/-- An event that starts, ends or serves a request. -/
def Ev.isRequest : Ev → Bool
  | .ho (.push _) | .powerOn | .powerOff | .forceFull => true
  | _ => false

/-- A call of the framework, or one picture of the logo. -/
def Act.isCall : Act → Bool
  | .hwcSet .. | .hwcSetPowerMode .. => true
  | _ => false

theorem isCall_handoff (h : a.handoff.isSome = true) : a.isCall = false := by
  cases a <;> first | rfl | cases h

/-- A call pushes nothing. -/
theorem call_noPush (ha : a.isCall = true) (h : Step s a s' es) :
    ∀ e ∈ core es, e.isPush = none := by
  cases h
  case setOn | setOff =>
    simp only [core_append, core_suspendEvs, core_setEvs, List.nil_append]
    split <;> simp [Ev.isPush]
  case moved hb | pushed hb | started hb =>
    rw [isCall_handoff hb] at ha
    cases ha
  case powerOff | doze | powerOn => simp [Ev.isFd, Ev.isPush]
  all_goals cases ha

/-- Between the calls the only such event is a push, of the composition that was on its way. -/
theorem step_requests (ha : a.isCall = false) (h : Step s a s' es) :
    (∃ c, core es = [.ho (.push c)] ∧ s.ho.prodHeld = [c]) ∨
      ∀ e ∈ core es, e.isRequest = false := by
  cases h
  case setOn | setOff | powerOff | doze | powerOn => cases ha
  case pushed ho c _ h1 _ _ => exact .inl ⟨c, rfl, h1⟩
  case waited he => exact .inr (by simp [core_waitEvs he])
  all_goals exact .inr (by simp [queueCompositeStart, queueLayer, Ev.isFd, Ev.isRequest])

section Carried

/-- A request for the modes `good` is carried to the next push. `P` says, with the last handle,
which layers are queued, `E` how the request waits between the calls. -/
structure Carried (P : BufferHandle → Layer → Prop) (good : Int → Prop) (E : Globals → Prop)
    (s : St) : Prop where
  held : ∀ c ∈ s.ho.prodHeld, good c.einkMode
  carrier : s.ho.prodHeld = [] → s.lastFbHandleMode = epdResume ∨
    (good s.g.gCurrentEpdMode ∧ Ahead (P s.lastFbHandle) s.disp s.hal) ∨ (s.hal = .idle ∧ E s.g)

variable {P : BufferHandle → Layer → Prop} {good : Int → Prop} {E : Globals → Prop}

theorem Carried.idle (hi : Carried P good E s) (hp : s.ho.prod = .idle) (hh : s.hal = .idle) :
    s.lastFbHandleMode = epdResume ∨ E s.g := by
  rcases hi.carrier (Handoff.prodHeld_idle hp) with h | ⟨-, h⟩ | ⟨-, h⟩
  · exact .inl h
  · rw [hh] at h
    cases h
  · exact .inr h

/-- `last_fb_handle_mode` alone carries a request. -/
theorem Carried.of_mode (hp : s.ho.prod = .idle) (hm : s.lastFbHandleMode = epdResume) :
    Carried P good E s :=
  ⟨fun c hc => (by rw [Handoff.prodHeld_idle hp] at hc; cases hc), fun _ => .inl hm⟩

/-- The composition of a new layer has the mode of the request. -/
theorem Carried.fill (hi : Carried P good E s) (hg : good epdResume) (hp : s.ho.prod = .idle)
    (hh : s.hal ≠ .idle) (l : Layer) (comp : EinkComposition) :
    good (fillComposition l comp s).einkMode := by
  simp only [fillComposition]
  split
  · exact hg
  · rename_i hm
    rcases hi.carrier (Handoff.prodHeld_idle hp) with h | ⟨h, -⟩ | ⟨h, -⟩
    · exact absurd h hm
    · exact h
    · exact absurd h hh

/-- A step inside `hwc_set` moves along its loops. -/
theorem Carried.loop (hi : Carried P good E s) (hp : s.ho.prod = .idle) (hh : s.hal ≠ .idle)
    (hho : s'.ho = s.ho) (hg : s'.g = s.g) (hl : s'.lastFbHandle = s.lastFbHandle)
    (hm : s.lastFbHandleMode = epdResume → s'.lastFbHandleMode = epdResume)
    (ha : good s.g.gCurrentEpdMode → Ahead (P s.lastFbHandle) s.disp s.hal →
      s'.lastFbHandleMode = epdResume ∨ Ahead (P s.lastFbHandle) s'.disp s'.hal) :
    Carried P good E s' := by
  refine ⟨fun c hc => hi.held c (by rwa [hho] at hc), fun _ => ?_⟩
  rcases hi.carrier (Handoff.prodHeld_idle hp) with h | ⟨h1, h2⟩ | ⟨h, -⟩
  · exact .inl (hm h)
  · rcases ha h1 h2 with h | h
    · exact .inl h
    · exact .inr (.inl ⟨by rwa [hg], by rwa [hl]⟩)
  · exact absurd h hh

/-- The layers that carry a request are queued: they have a handle, and a new one, or the skip
keeps the request. -/
def Carries (P : BufferHandle → Layer → Prop) (good : Int → Prop) : Prop :=
  good epdResume ∧ (∀ h l, P h l → l.queueable = true) ∧
    ∀ h l m, P h l → l.handle = h → good m → m = epdResume

/-- Between the calls a request is carried to the next push. -/
theorem Carried.step (hc : Carries P good) (hi : Carried P good E s) (ha : a.isCall = false)
    (h : Step s a s' es) (he : ∀ e ∈ core es, e.isRequest = false) : Carried P good E s' := by
  obtain ⟨hg, hP, hsame⟩ := hc
  have hnP : ∀ l, l.queueable = false → ¬ P s.lastFbHandle l := fun l hq hp => by
    rw [hP _ l hp] at hq
    cases hq
  cases h
  case setOn | setOff | powerOff | doze | powerOn => cases ha
  case posted hh _ _ | postFailed hh _ =>
    refine ⟨hi.held, fun hp => ?_⟩
    rcases hi.carrier hp with h | ⟨-, h⟩ | ⟨h, -⟩
    · exact .inl h
    · rw [hh] at h
      cases h
    · rw [hh] at h
      cases h
  case setDone hh hp hd =>
    refine hi.loop hp (by simp [hh]) rfl rfl rfl id fun _ h => ?_
    rw [hh] at h
    exact absurd h (not_after hd)
  case nextDisplay hh hp _ hl =>
    refine hi.loop hp (by simp [hh]) rfl rfl rfl id fun _ h => .inr ?_
    rw [hh] at h
    exact h.next hl
  case nextLayer l _ hh hp hl hq =>
    refine hi.loop hp (by simp [hh]) rfl rfl rfl id fun _ h => .inr ?_
    rw [hh] at h
    exact After.skip h hl (hnP l hq)
  case start i j dc l fd hh hp hd hl hq =>
    refine hi.loop hp (by simp [hh]) rfl rfl rfl id fun _ h => .inr ?_
    rw [hh] at h
    exact (After.start h _).congr (layerAt_set hd rfl)
  case queueDone i j k comp dc fd hh hp hd hl =>
    refine hi.loop hp (by simp [hh]) rfl rfl rfl id fun _ h => .inr ?_
    rw [hh] at h
    exact h.done ((layerAt_eq hd).trans hl)
  case otherLayer i j k comp dc l fd hh hp hd hl hq =>
    refine hi.loop hp (by simp [hh]) rfl rfl rfl id fun _ h => .inr ?_
    rw [hh] at h
    exact h.skip ((layerAt_eq hd).trans hl) (hnP l hq)
  case sameLayer i j k comp dc l fd hh hp hd hl hq hsm =>
    refine hi.loop hp (by simp [hh]) rfl rfl rfl (fun hm => by simp [hm]) fun hgood h => ?_
    rw [hh] at h
    by_cases hpl : P s.lastFbHandle l
    · exact .inl (by simp [hsame _ l _ hpl hsm hgood])
    · exact .inr (h.skip ((layerAt_eq hd).trans hl) hpl)
  case newLayer i j k comp dc l fd hh hp hd hl hq hn =>
    refine ⟨fun c hc => ?_, fun hnil => (by cases hnil)⟩
    obtain rfl := List.mem_singleton.1 hc
    exact hi.fill hg hp (by simp [hh]) l comp
  case moved ho hf hp _ | started ho c hf hp _ _ =>
    exact ⟨fun c hc => hi.held c (by rwa [← hp]), fun hnil => hi.carrier (by rwa [← hp])⟩
  case pushed => exact absurd (he _ List.mem_cons_self) (by simp [Ev.isRequest])
  all_goals exact ⟨hi.held, hi.carrier⟩

/-! ## Requests in a run -/

variable {p q : Ev → Prop}

/-- Every push that a request (started by `p`, ended by `q`) waits for has one of its modes. -/
def Served (p q : Ev → Prop) (good : Int → Prop) (tr : List Ev) : Prop :=
  Each (fun e past => ∀ c, e = .ho (.push c) → Since p q past → good c.einkMode) tr

theorem Served.append (h : ∀ e ∈ es, e.isPush = none) (ht : Served p q good tr) :
    Served p q good (es ++ tr) := by
  induction es with
  | nil => exact ht
  | cons e es ih =>
    obtain ⟨he, hes⟩ := List.forall_mem_cons.1 h
    refine ⟨fun c hc => ?_, ih hes⟩
    rw [hc] at he
    cases he

/-- The invariant of a run: a request that waits is carried, and all earlier ones are served. -/
structure Kept (p q : Ev → Prop) (P : BufferHandle → Layer → Prop) (good : Int → Prop)
    (E : Globals → Prop) (tr : List Ev) (s : St) : Prop where
  carried : Since p q tr → Carried P good E s
  served : Served p q good tr

theorem Kept.step (hc : Carries P good) (hp : ∀ e, p e → e.isRequest = true ∧ e.isPush = none)
    (hq : ∀ c, q (.ho (.push c))) (hi : Kept p q P good E tr s) (ha : a.isCall = false)
    (h : Step s a s' es) : Kept p q P good E (core es ++ tr) s' := by
  rcases step_requests ha h with ⟨c, he, hheld⟩ | he
  · rw [he]
    refine ⟨fun hs => ?_, fun c' hc' hs => ?_, hi.served⟩
    · rcases hs with hs | ⟨hnq, -⟩
      · cases (hp _ hs).2
      · exact absurd (hq c) hnq
    · cases hc'
      exact (hi.carried hs).held c (by rw [hheld]; simp)
  · refine ⟨fun hs => ?_, hi.served.append fun e hmem => ?_⟩
    · have hs := since_of_append (fun e hmem hpe => by
        have := he e hmem
        rw [(hp e hpe).1] at this
        cases this) hs
      exact (hi.carried hs).step hc ha h he
    · have := he e hmem
      rcases e with (_ | _ | _) | _ <;> first | rfl | cases this

theorem served_core (hp : CoreOnly p) (hq : CoreOnly q) :
    Served p q good (core tr) ↔ Served p q good tr := by
  refine each_filter (fun e past hv c hc => ?_) (fun e past => ?_)
  · rw [hc] at hv
    cases hv
  · exact forall_congr' fun c => imp_congr_right fun _ => imp_congr_left (since_core hp hq)

end Carried

/-! ## `EPD_RESUME` -/

/-- Nothing was pushed since the power-on, and the power is on. -/
def ResumePending (tr : List Ev) : Prop :=
  Since (· = .powerOn) (fun e => e.isPush.isSome = true ∨ e = .powerOff) tr

instance (tr : List Ev) : Decidable (ResumePending tr) := inferInstanceAs (Decidable (Since ..))

/-- The first composition pushed after a power-on has `EPD_RESUME`. -/
def ResumeKept (tr : List Ev) : Prop :=
  Each (fun e past => ∀ c, e = .ho (.push c) → ResumePending past → c.einkMode = epdResume) tr

/-- The `hwc_set` that consumes the power-on has a layer to queue, or the request is also in
`last_fb_handle_mode`. -/
def St.keepsResume (s : St) : Act → Bool
  | .hwcSet _ _ d => s.g.gPowerMode != epdResume || (allLayers d).any Layer.queueable ||
      s.lastFbHandleMode == epdResume
  | _ => true

def keepsResume (s : St) (a : Act) : Prop := s.keepsResume a = true

instance (s : St) (a : Act) : Decidable (keepsResume s a) := inferInstanceAs (Decidable (_ = _))

/-- `EPD_RESUME` is carried by any layer that can be queued: if it is skipped, the mode is saved. -/
theorem carries_resume : Carries (fun _ l => l.queueable = true) (· = epdResume) :=
  ⟨rfl, fun _ _ h => h, fun _ _ _ _ _ h => h⟩

/-- Where a power-on is until the next push. -/
abbrev ResumeCarried (s : St) : Prop :=
  Carried (fun _ l => l.queueable = true) (· = epdResume) (·.gPowerMode = epdResume) s

theorem resume_call (hi : ResumePending tr → ResumeCarried s) (hok : keepsResume s a)
    (ha : a.isCall = true) (h : Step s a s' es) (hs : ResumePending (core es ++ tr)) :
    ResumeCarried s' := by
  cases h
  case setOn mode oneFull d hh hp _ =>
    have hs : ResumePending tr := since_of_append (by rw [core_setEvs]; split <;> simp) hs
    rcases (hi hs).idle hp hh with h | h
    · exact .of_mode hp h
    · refine ⟨fun c hc => (by rw [Handoff.prodHeld_idle hp] at hc; cases hc), fun _ => ?_⟩
      have hmode : (setGlobals mode oneFull s.g).gCurrentEpdMode = epdResume := by
        unfold setGlobals
        rw [hwcHandleEinkMode_resume h]
      rcases (by simpa [keepsResume, St.keepsResume, h] using hok :
        (∃ l ∈ allLayers d, l.queueable = true) ∨ s.lastFbHandleMode = epdResume)
        with ⟨l, hl, hq⟩ | hm
      · exact .inr (.inl ⟨hmode, ahead_of_mem hl hq⟩)
      · exact .inl hm
  case setOff mode oneFull d hh hp hg =>
    have hs : ResumePending tr := since_of_append (by
      simp only [core_append, core_suspendEvs, core_setEvs, List.nil_append]
      split <;> simp) hs
    rcases (hi hs).idle hp hh with h | h
    · exact .of_mode hp h
    · unfold setGlobals at hg
      rw [hwcHandleEinkMode_resume h] at hg
      cases hg
  case powerOff =>
    rcases hs with hs | ⟨hs, -⟩
    · cases hs
    · exact absurd (.inr rfl) hs
  case doze => exact hi hs
  case powerOn hh hp =>
    have hno : s.ho.prodHeld = [] := Handoff.prodHeld_idle hp
    exact ⟨fun c hc => (by rw [hno] at hc; cases hc),
      fun _ => .inr (.inr ⟨hh, rfl⟩)⟩
  case moved hb | pushed hb | started hb =>
    rw [isCall_handoff hb] at ha
    cases ha
  all_goals cases ha

/-- **A power-on's `EPD_RESUME` is kept** where the `hwc_set` that consumes it has a layer to
queue. -/
theorem resume_kept (hr : Run keepsResume tr s) : ResumeKept tr := by
  have hcore : Kept (· = .powerOn) (fun e => e.isPush.isSome = true ∨ e = .powerOff)
      (fun _ l => l.queueable = true) (· = epdResume) (·.gPowerMode = epdResume) (core tr) s := by
    refine core_induction (J := fun _ _ => True)
      (I := Kept (· = .powerOn) (fun e => e.isPush.isSome = true ∨ e = .powerOff)
        (fun _ l => l.queueable = true) (· = epdResume) (·.gPowerMode = epdResume))
      (fun _ _ _ => trivial) (fun panel b => ?_) (fun s a s' es tr hj hi hok h => ?_) hr
    · exact ⟨fun hs => (by simp at hs), ⟨fun c hc => (by cases hc), trivial⟩⟩
    · cases ha : a.isCall with
      | false =>
        exact hi.step carries_resume (by rintro e rfl; exact ⟨rfl, rfl⟩) (fun c => .inl rfl) ha h
      | true =>
        exact ⟨resume_call hi.carried hok ha h, hi.served.append (call_noPush ha h)⟩
  have hp : CoreOnly (· = .powerOn) := ⟨nofun, nofun⟩
  have hq : CoreOnly fun e => e.isPush.isSome = true ∨ e = .powerOff := by
    simp [CoreOnly, Ev.isPush]
  exact (served_core hp hq).1 hcore.served

/-- `resume_kept` in a run that pushes a frame with `EPD_RESUME` after a power-on. -/
theorem resume_kept_frame : ∃ tr s, Run keepsResume tr s ∧
    (collect Ev.isPush tr).map EinkComposition.einkMode = [epdPartGc16, epdResume] ∧
    ResumeKept tr := by
  obtain ⟨tr, s, hr, hp⟩ := System.exists_run system keepsResume ⟨⟨8, 8, 0⟩, 0, rfl, rfl⟩
    (List.flatten [frameActs { handle := 1 }, popActs, sendActs 1,
      [.hwcSetPowerMode .off {}, .hwcPostEpd 0 0, .hwcSetPowerMode .normal {}],
      skipActs { handle := 1 }, frameActs { handle := 2 }])
    (fun tr _ => (collect Ev.isPush tr).map EinkComposition.einkMode == [epdPartGc16, epdResume])
    (by decide +kernel)
  exact ⟨tr, s, hr, by simpa using hp, resume_kept hr⟩

/-- The first `hwc_set` after the power-on has no display, and the next one has a new handle: its
frame is pushed with the mode of `sys.eink.mode`. -/
theorem resume_lost : ¬ ∀ tr s, Run System.any tr s → ResumeKept tr := by
  intro h
  obtain ⟨tr, s, hr, hp⟩ := System.exists_run system System.any ⟨⟨8, 8, 0⟩, 0, rfl, rfl⟩
    (List.flatten [[.hwcSetPowerMode .normal {}, .hwcSet epdPartGc16 0 [], .hal 0],
      (frameActs { handle := 1 }).take 8])
    (fun tr _ => (tr.head?.bind Ev.isPush).any (fun c => c.einkMode != epdResume) &&
      decide (ResumePending tr.tail)) (by decide +kernel)
  rw [Bool.and_eq_true, Option.any_eq_true, decide_eq_true_eq] at hp
  obtain ⟨⟨c, hc, hm⟩, hs⟩ := hp
  cases tr with
  | nil => cases hc
  | cons e past => exact bne_iff_ne.1 hm ((h _ s hr).1 c (isPush_eq hc) hs)

/-! ## `EPD_FORCE_FULL` -/

/-- Nothing was pushed since `hwc_handle_eink_mode` consumed the change of the property. -/
def ForceFullPending (tr : List Ev) : Prop :=
  Since (· = .forceFull) (·.isPush.isSome = true) tr

instance (tr : List Ev) : Decidable (ForceFullPending tr) := inferInstanceAs (Decidable (Since ..))

/-- The first composition pushed after that has `EPD_FORCE_FULL`, or `EPD_RESUME`. -/
def ForceFullKept (tr : List Ev) : Prop :=
  Each (fun e past => ∀ c, e = .ho (.push c) → ForceFullPending past →
    c.einkMode = epdForceFull ∨ c.einkMode = epdResume) tr

/-- The `hwc_set` that consumes the change has a layer with a new handle, or `EPD_RESUME` is in
`last_fb_handle_mode`. -/
def St.keepsForceFull (s : St) : Act → Bool
  | .hwcSet _ oneFull d => !decide (consumesOneFull oneFull s.g) ||
      (allLayers d).any (fun l => l.queueable && l.handle != s.lastFbHandle) ||
      s.lastFbHandleMode == epdResume
  | _ => true

def keepsForceFull (s : St) (a : Act) : Prop := s.keepsForceFull a = true

instance (s : St) (a : Act) : Decidable (keepsForceFull s a) := inferInstanceAs (Decidable (_ = _))

/-- Only a layer with a new handle carries `EPD_FORCE_FULL`: a skip does not save it. -/
theorem carries_forceFull : Carries (fun h l => l.queueable = true ∧ l.handle ≠ h)
    (fun m => m = epdForceFull ∨ m = epdResume) :=
  ⟨.inr rfl, fun _ _ h => h.1, fun _ _ _ h heq _ => absurd heq h.2⟩

/-- Where the request is until the next push. -/
abbrev ForceFullCarried (s : St) : Prop :=
  Carried (fun h l => l.queueable = true ∧ l.handle ≠ h)
    (fun m => m = epdForceFull ∨ m = epdResume) (fun _ => False) s

theorem forceFull_call (hi : ForceFullPending tr → ForceFullCarried s) (hok : keepsForceFull s a)
    (ha : a.isCall = true) (h : Step s a s' es) (hs : ForceFullPending (core es ++ tr)) :
    ForceFullCarried s' := by
  cases h
  case setOn mode oneFull d hh hp _ =>
    by_cases hc : consumesOneFull oneFull s.g
    · refine ⟨fun c hc => (by rw [Handoff.prodHeld_idle hp] at hc; cases hc), fun _ => ?_⟩
      have hmode : (setGlobals mode oneFull s.g).gCurrentEpdMode = epdForceFull := by
        unfold setGlobals
        rw [hwcHandleEinkMode_oneFull hc]
      rcases (by simpa [keepsForceFull, St.keepsForceFull, hc] using hok :
        (∃ l ∈ allLayers d, l.queueable = true ∧ ¬ l.handle = s.lastFbHandle) ∨
          s.lastFbHandleMode = epdResume) with ⟨l, hl, hq⟩ | hm
      · exact .inr (.inl ⟨.inl hmode, ahead_of_mem hl hq⟩)
      · exact .inl hm
    · rw [core_setEvs, if_neg hc] at hs
      exact .of_mode hp (((hi hs).idle hp hh).resolve_right id)
  case setOff mode oneFull d hh hp hg =>
    have hc : ¬ consumesOneFull oneFull s.g := fun hc => by
      unfold setGlobals at hg
      rw [hwcHandleEinkMode_oneFull hc] at hg
      cases hg
    simp only [core_append, core_suspendEvs, core_setEvs, if_neg hc, List.nil_append] at hs
    exact .of_mode hp (((hi hs).idle hp hh).resolve_right id)
  case powerOff hh hp | powerOn hh hp =>
    have hs : ForceFullPending tr := since_of_append (by simp [Ev.isFd]) hs
    exact .of_mode hp (((hi hs).idle hp hh).resolve_right id)
  case doze => exact hi hs
  case moved hb | pushed hb | started hb =>
    rw [isCall_handoff hb] at ha
    cases ha
  all_goals cases ha

/-- **A one-shot full refresh is kept** where the `hwc_set` that consumes it has a frame to
queue. -/
theorem force_full_kept (hr : Run keepsForceFull tr s) : ForceFullKept tr := by
  have hcore : Kept (· = .forceFull) (·.isPush.isSome = true)
      (fun h l => l.queueable = true ∧ l.handle ≠ h)
      (fun m => m = epdForceFull ∨ m = epdResume) (fun _ => False) (core tr) s := by
    refine core_induction (J := fun _ _ => True)
      (I := Kept (· = .forceFull) (·.isPush.isSome = true)
        (fun h l => l.queueable = true ∧ l.handle ≠ h)
        (fun m => m = epdForceFull ∨ m = epdResume) (fun _ => False))
      (fun _ _ _ => trivial) (fun panel b => ?_) (fun s a s' es tr hj hi hok h => ?_) hr
    · exact ⟨fun hs => (by simp at hs), ⟨fun c hc => (by cases hc), trivial⟩⟩
    · cases ha : a.isCall with
      | false =>
        exact hi.step carries_forceFull (by rintro e rfl; exact ⟨rfl, rfl⟩) (fun c => rfl) ha h
      | true =>
        exact ⟨forceFull_call hi.carried hok ha h, hi.served.append (call_noPush ha h)⟩
  have hp : CoreOnly (· = .forceFull) := ⟨nofun, nofun⟩
  have hq : CoreOnly (·.isPush.isSome = true) := by simp [CoreOnly, Ev.isPush]
  exact (served_core hp hq).1 hcore.served

/-- `force_full_kept` in a run in which the second frame serves the request. -/
theorem force_full_kept_frame : ∃ tr s, Run keepsForceFull tr s ∧
    (collect Ev.isPush tr).map EinkComposition.einkMode = [epdPartGc16, epdForceFull] ∧
    ForceFullKept tr := by
  obtain ⟨tr, s, hr, hp⟩ := System.exists_run system keepsForceFull ⟨⟨8, 8, 0⟩, 0, rfl, rfl⟩
    (frameActs { handle := 1 } ++ popActs ++ frameActs { handle := 2 } 1)
    (fun tr _ => (collect Ev.isPush tr).map EinkComposition.einkMode ==
      [epdPartGc16, epdForceFull]) (by decide +kernel)
  exact ⟨tr, s, hr, by simpa using hp, force_full_kept hr⟩

/-- The `hwc_set` that consumes the change shows the same handle, and skips it: the next frame is
pushed with the mode of `sys.eink.mode`. -/
theorem force_full_lost : ¬ ∀ tr s, Run System.any tr s → ForceFullKept tr := by
  intro h
  obtain ⟨tr, s, hr, hp⟩ := System.exists_run system System.any ⟨⟨8, 8, 0⟩, 0, rfl, rfl⟩
    (frameActs { handle := 1 } ++ popActs ++ skipActs { handle := 1 } 1 ++
      (frameActs { handle := 2 } 1).take 8)
    (fun tr _ => (tr.head?.bind Ev.isPush).any (fun c => c.einkMode == epdPartGc16) &&
      decide (ForceFullPending tr.tail)) (by decide +kernel)
  rw [Bool.and_eq_true, Option.any_eq_true, decide_eq_true_eq] at hp
  obtain ⟨⟨c, hc, hm⟩, hs⟩ := hp
  have hm : c.einkMode = epdPartGc16 := eq_of_beq hm
  cases tr with
  | nil => cases hc
  | cons e past =>
    have hkept := (h _ s hr).1 c (isPush_eq hc) hs
    rw [hm] at hkept
    exact absurd hkept (by decide)

end EinkHwc
