import EinkHwc.Sys.Cases

/-!
# What the panel shows

The worker sends the frames in the order in which they were queued; `hwc_set_power_mode` posts its
logo past the queue. Both write to the same panel.

- **`St.unsent`**: the compositions whose `EBC_SEND_BUFFER` is still to come, the oldest first.
  `Flow` is all that a step can do to them.
- **The skipped frame** (`skip_sound`): `QueueComposite` skips a handle that equals
  `last_fb_handle`, which it set when it queued that frame. What is skipped is on its way to the
  panel or on it, as long as no frame is given up that has none behind it, and no logo is posted
  over the last frame (`keepsLatest`). A fence that fails is enough to break it
  (`skip_after_drop`).
- **Standby** (`standby_stays`): no frame is sent over the logo, as long as no frame is on its way
  when the logo is posted. Nothing in the code waits for that (`frame_after_logo`).
-/

namespace EinkHwc

open Trace

variable {s s' : St} {a : Act} {es tr : List Ev} {k : Composing} {ok : St → Act → Prop}

/-! ## The frames on their way -/

/-- The places of `Compose` up to `EBC_SEND_BUFFER`. -/
def ComposePc.unsent : ComposePc → Bool
  | .get | .finish => false
  | _ => true

def St.sending (s : St) : List EinkComposition :=
  match s.cur with
  | some k => if k.pc.unsent = true then [k.comp] else []
  | none => []

/-- The compositions that are not sent, the oldest first. -/
def St.unsent (s : St) : List EinkComposition := s.sending ++ s.ho.inFlight

theorem unsent_none (h : s.cur = none) : s.unsent = s.ho.inFlight := by
  simp only [St.unsent, St.sending, h, List.nil_append]

theorem unsent_some (h : s.cur = some k) (hp : k.pc.unsent = true) :
    s.unsent = k.comp :: s.ho.inFlight := by
  simp only [St.unsent, St.sending, h, hp, ↓reduceIte, List.cons_append, List.nil_append]

theorem unsent_past (h : s.cur = some k) (hp : k.pc.unsent = false) :
    s.unsent = s.ho.inFlight := by
  simp only [St.unsent, St.sending, h, hp, Bool.false_eq_true, ↓reduceIte, List.nil_append]

theorem unsent_eq (hc : s'.cur = s.cur) (hf : s'.ho.inFlight = s.ho.inFlight) :
    s'.unsent = s.unsent := by
  simp only [St.unsent, St.sending, hc, hf]

/-- The outcome of a call that makes `Compose` give up its frame, or send another picture. -/
def Composing.failsAt (panelColor : Int) (k : Composing) : Outcome → Bool
  | .syncWait ret =>
    match k.pc with
    | .outbuf => 0 ≤ k.outbuf ∧ ret ≠ 0
    | .layers => 0 ≤ k.fences.head?.getD (-1) ∧ ret ≠ 0
    | _ => false
  | .rkRgaIsReady b => k.pc == .rga && !b
  | .convert env => k.pc == .convert &&
      !((setMode panelColor k.comp.einkMode).map fun m => (m.1.run panelColor env).2).getD false
  | .ebcSend ret => k.pc == .send && ret != 0
  | _ => false

/-- The picture that is sent to the panel. -/
def Ev.picture : Ev → Option Picture
  | .send _ pic | .post pic _ => some pic
  | _ => none

/-- What a step does to the frames not sent, to `last_fb_handle` and to the panel. -/
inductive Flow (s s' : St) (a : Act) (es : List Ev) : Prop where
  | keep : s'.unsent = s.unsent → s'.lastFbHandle = s.lastFbHandle →
      (∀ e ∈ es, e.picture = none) → Flow s s' a es
  | queue (c : EinkComposition) : es = [.accept c] → s.hal.inSet = true →
      s'.unsent = s.unsent ++ [c] → s'.lastFbHandle = c.fbHandle →
      c.einkMode = epdResume ∨ c.einkMode = s.g.gCurrentEpdMode → Flow s s' a es
  | send (k : Composing) (info : EbcBufInfo) : es = [.send info s.gray16Content] →
      s.cur = some k → k.pc = .send → s.unsent = k.comp :: s'.unsent →
      s'.unsent = s.ho.inFlight → s'.lastFbHandle = s.lastFbHandle → Flow s s' a es
  | lose (k : Composing) (o : Outcome) : s.cur = some k → a = .compose o →
      k.failsAt s.panel.panelColor o = true ∨ k.comp.einkMode = epdSuspend →
      s.unsent = k.comp :: s'.unsent → s'.unsent = s.ho.inFlight →
      s'.lastFbHandle = s.lastFbHandle → (∀ e ∈ es, e.picture = none) → Flow s s' a es
  | post (pic : Picture) (mode : Int) (ps : List (Picture × Int)) : es = [.post pic mode] →
      a = .hwcPostEpd 0 0 → s.hal = .posts ((pic, mode) :: ps) → s'.unsent = s.unsent →
      s'.lastFbHandle = s.lastFbHandle → Flow s s' a es

theorem step_flow (h : Step s a s' es) : Flow s s' a (core es) := by
  cases h
  case setOn | setOff =>
    refine .keep rfl rfl ?_
    simp only [core_append, core_suspendEvs, core_setEvs, List.nil_append]
    split <;> simp [Ev.picture]
  case posted pic mode ps getRet sendRet hh hg hs =>
    subst hg hs
    exact .post pic mode ps rfl rfl hh rfl rfl
  case newLayer i j k comp dc l fd hh hp _ _ _ _ =>
    refine .queue (fillComposition l comp s) (by simp [queueLayer, Ev.isFd]) (by rw [hh]; rfl)
      ?_ rfl ?_
    · simp only [queueLayer, St.unsent, St.sending, Handoff.inFlight_lock hp, List.append_assoc]
    · simp only [fillComposition]
      split
      · exact .inl rfl
      · exact .inr rfl
  case moved ho hf _ _ => exact .keep (unsent_eq rfl hf) rfl (by simp)
  case pushed ho c hf _ _ _ => exact .keep (unsent_eq rfl hf) rfl (by simp [Ev.isFd, Ev.picture])
  case started ho c hf _ hc _ =>
    refine .keep ?_ rfl (by simp [Ev.isFd, Ev.picture])
    rw [unsent_none hc, unsent_some rfl rfl, hf]
  case waited k k' ret hc hp hcomp hp' he =>
    rw [core_waitEvs he]
    refine .keep ?_ rfl (by simp)
    rw [unsent_some hc (by rcases hp with h | h <;> rw [h] <;> rfl),
      unsent_some rfl (by rcases hp' with h | h <;> rw [h] <;> rfl), hcomp]
  case dropped k ret hc hp hr hw =>
    have hk : k.pc.unsent = true := by rcases hp with h | h <;> rw [h.1] <;> rfl
    have hn := Handoff.inFlight_top hw
    refine .lose k _ hc rfl (.inl ?_) ?_ ?_ rfl (by simp [Ev.isFd, Ev.picture])
    · rcases hp with h | h <;> simp [Composing.failsAt, h, hr]
    · rw [unsent_some hc hk, unsent_none rfl, hn]
    · rw [unsent_none rfl, hn]
  case ready k hc hp _ | notWritten k env m hc hp _ _ | wrote k env m hc hp _ _ =>
    refine .keep ?_ rfl (by simp [Ev.isFd, Ev.picture])
    rw [unsent_some hc (by rw [hp]; rfl), unsent_some rfl rfl]
  case notReady k b hc hp hb =>
    refine .lose k _ hc rfl ?_ ?_ ?_ rfl (by simp [Ev.isFd, Ev.picture])
    · rcases hb with rfl | hm
      · exact .inl (by simp [Composing.failsAt, hp])
      · exact .inr hm
    · rw [unsent_some hc (by rw [hp]; rfl), unsent_past rfl rfl]
    · rw [unsent_past rfl rfl]
  case sent k m hc hp _ =>
    refine .send k _ rfl hc hp ?_ ?_ rfl
    · rw [unsent_some hc (by rw [hp]; rfl), unsent_past rfl rfl]
    · rw [unsent_past rfl rfl]
  case sendFailed k m ret hc hp _ hr =>
    refine .lose k _ hc rfl (.inl ?_) ?_ ?_ rfl (by simp [Ev.isFd, Ev.picture])
    · simp [Composing.failsAt, hp, hr]
    · rw [unsent_some hc (by rw [hp]; rfl), unsent_past rfl rfl]
    · rw [unsent_past rfl rfl]
  case got k m b hc hp _ | getFailed k m hc hp _ =>
    refine .keep ?_ rfl (by simp [Ev.isFd, Ev.picture])
    rw [unsent_past hc (by rw [hp]; rfl), unsent_past rfl rfl]
  case finished k ret hc hp _ hw | finishedInc k hc hp _ hw =>
    refine .keep ?_ rfl (by simp [Ev.isFd, Ev.picture])
    rw [unsent_past hc (by rw [hp]; rfl), unsent_none rfl, Handoff.inFlight_top hw]
  all_goals exact .keep rfl rfl (by simp [queueCompositeStart, Ev.isFd, Ev.picture])

/-- Nothing is queued while the mode is `EPD_SUSPEND`. -/
structure Gated (s : St) : Prop where
  mode : s.hal.inSet = true → s.g.gCurrentEpdMode ≠ epdSuspend
  comp : ∀ c ∈ s.unsent, c.einkMode ≠ epdSuspend

theorem Gated.mode_step (hi : s.hal.inSet = true → s.g.gCurrentEpdMode ≠ epdSuspend)
    (h : Step s a s' es) : s'.hal.inSet = true → s'.g.gCurrentEpdMode ≠ epdSuspend := by
  cases h
  case setOn hg => exact fun _ => hg
  case setOff hh _ _ | powerOn hh _ => rw [hh]; exact fun hf => (by cases hf)
  case powerOff => exact fun hf => (by cases hf)
  case posted | postFailed =>
    intro hf
    simp only at hf
    split at hf <;> cases hf
  case setDone hh _ _ | nextDisplay hh _ _ _ | nextLayer hh _ _ _ | start hh _ _ _ _
    | queueDone hh _ _ _ | otherLayer hh _ _ _ _ | sameLayer hh _ _ _ _ _ | newLayer hh _ _ _ _ _ =>
    exact fun _ => hi (by rw [hh]; rfl)
  all_goals exact hi

theorem Gated.comp_step (hi : Gated s) (h : Step s a s' es) :
    ∀ c ∈ s'.unsent, c.einkMode ≠ epdSuspend := by
  have hc := hi.comp
  cases step_flow h with
  | keep hu _ _ | post _ _ _ _ _ _ hu _ => rwa [hu]
  | queue c _ hin hu _ hm =>
    rw [hu]
    intro d hd
    rcases List.mem_append.1 hd with hd | hd
    · exact hc d hd
    · obtain rfl := List.mem_singleton.1 hd
      rcases hm with hm | hm
      · rw [hm]; decide
      · rw [hm]; exact hi.mode hin
  | send _ _ _ _ _ hu _ _ | lose _ _ _ _ _ hu _ _ _ =>
    rw [hu] at hc
    exact fun d hd => hc d (List.mem_cons_of_mem _ hd)

theorem gated_run (hr : Run ok tr s) : Gated s := by
  refine run_induction (J := fun _ _ => True) (I := fun _ s => Gated s) (fun _ _ _ => trivial)
    ?_ ?_ hr
  · intro panel b
    exact ⟨fun h => (by cases h), fun c hc => (by cases hc)⟩
  · intro s a s' es tr hj hi hok h
    exact ⟨Gated.mode_step hi.mode h, hi.comp_step h⟩

/-! ## The last frame -/

/-- A writer that skips what it has written last: the last key is the last one still on its way,
or, where none is, the one on display. `z` is the key of no frame. -/
def Latest {κ : Type} (z last : κ) (pending : List κ) (shown : Option κ) : Prop :=
  (last = z ∧ pending = []) ∨ pending.getLast? = some last ∨ (pending = [] ∧ shown = some last)

section Latest

variable {κ : Type} {z last h : κ} {pending : List κ} {shown shown' : Option κ}

theorem Latest.skip (hl : Latest z last pending shown) (hz : last ≠ z) :
    last ∈ pending ∨ shown = some last := by
  rcases hl with ⟨h, -⟩ | h | ⟨-, h⟩
  · exact absurd h hz
  · exact .inl (List.mem_of_getLast? h)
  · exact .inr h

theorem Latest.queue : Latest z h (pending ++ [h]) shown :=
  .inr (.inl (by simp))

theorem Latest.lose (hl : Latest z last (h :: pending) shown) (hp : pending ≠ []) :
    Latest z last pending shown' := by
  rcases hl with ⟨-, h⟩ | h | ⟨h, -⟩
  · cases h
  · rw [List.getLast?_cons_of_ne_nil hp] at h
    exact .inr (.inl h)
  · cases h

theorem Latest.send (hl : Latest z last (h :: pending) shown) :
    Latest z last pending (some h) := by
  by_cases hp : pending = []
  · subst hp
    rcases hl with ⟨-, h⟩ | h | ⟨h, -⟩
    · cases h
    · exact .inr (.inr ⟨rfl, h⟩)
    · cases h
  · exact hl.lose hp

theorem Latest.post (hl : Latest z last pending shown) (hp : last = z ∨ pending ≠ []) :
    Latest z last pending shown' := by
  rcases hl with h | h | ⟨h, hs⟩
  · exact .inl h
  · exact .inr (.inl h)
  · rcases hp with hz | hne
    · exact .inl ⟨hz, h⟩
    · exact absurd h hne

end Latest

/-- The picture sent last. -/
def lastPicture (tr : List Ev) : Option Picture := (tr.filterMap Ev.picture).head?

theorem lastPicture_core : lastPicture (core tr) = lastPicture tr := by
  unfold lastPicture
  rw [filterMap_core ⟨fun _ h => h rfl, fun _ _ h => h rfl⟩]

theorem lastPicture_append (h : ∀ e ∈ es, e.picture = none) :
    lastPicture (es ++ tr) = lastPicture tr := by
  unfold lastPicture
  rw [List.filterMap_append, List.filterMap_eq_nil_iff.2 h, List.nil_append]

/-- The step neither gives up the last frame nor posts a logo over it: a frame that `Compose` gives
up has another one behind it, and a logo is posted before the first frame, or with a frame on its
way. -/
def St.keepsLatest (s : St) : Act → Bool
  | .compose o => match s.cur with
    | some k => !k.failsAt s.panel.panelColor o || !s.ho.inFlight.isEmpty
    | none => true
  | .hwcPostEpd getRet sendRet =>
    getRet != 0 || sendRet != 0 || s.lastFbHandle == 0 || !s.unsent.isEmpty
  | _ => true

def keepsLatest (s : St) (a : Act) : Prop := s.keepsLatest a = true

instance (s : St) (a : Act) : Decidable (keepsLatest s a) :=
  inferInstanceAs (Decidable (_ = _))

/-- What `gray16_buffer` holds when it is sent: the frame, unless the converter failed. -/
def Filled (s : St) : Prop :=
  ∀ k, s.cur = some k → k.pc = .send →
    s.gray16Content = .frame k.comp.fbHandle ∨ s.ho.inFlight ≠ []

theorem filled_step (hi : Filled s) (hok : keepsLatest s a) (h : Step s a s' es) : Filled s' := by
  cases h
  case wrote k env m hc hp _ _ =>
    intro k' hk' hp'
    obtain rfl := Option.some.inj hk'
    exact .inl rfl
  case notWritten k env m hc hp hm hw =>
    intro k' hk' hp'
    obtain rfl := Option.some.inj hk'
    refine .inr ?_
    simpa [keepsLatest, St.keepsLatest, hc, Composing.failsAt, hp, hm, hw] using hok
  case newLayer i j k comp dc l fd hh hp _ _ _ _ =>
    refine fun k' hk' hp' => (hi k' hk' hp').imp id fun _ => ?_
    simp only [queueLayer, Handoff.inFlight_lock hp]
    simp
  case moved ho hf _ _ | pushed ho c hf _ _ _ =>
    exact fun k' hk' hp' => by simp only [hf]; exact hi k' hk' hp'
  case waited k k' ret hc hp hcomp hp' he =>
    intro k'' hk'' hp''
    obtain rfl := Option.some.inj hk''
    rcases hp' with h | h <;> rw [h] at hp'' <;> cases hp''
  case started | ready | notReady | sent | sendFailed | got | getFailed =>
    intro k' hk' hp'
    obtain rfl := Option.some.inj hk'
    cases hp'
  case dropped | finished | finishedInc => exact fun k' hk' => (by cases hk')
  all_goals exact hi

/-- Every frame on its way, as a picture. -/
def St.coming (s : St) : List Picture := s.unsent.map fun c => .frame c.fbHandle

theorem latest_run (hr : Run keepsLatest tr s) :
    Filled s ∧ Latest (.frame 0) (.frame s.lastFbHandle) s.coming (lastPicture tr) := by
  rw [← lastPicture_core]
  refine core_induction (J := fun _ s => Gated s)
    (I := fun tr s => Filled s ∧
      Latest (.frame 0) (.frame s.lastFbHandle) s.coming (lastPicture tr))
    (fun _ _ => gated_run) ?_ ?_ hr
  · intro panel b
    exact ⟨fun k hk => (by cases hk), .inl ⟨rfl, rfl⟩⟩
  intro s a s' es tr hg ⟨hfill, hl⟩ hok h
  refine ⟨filled_step hfill hok h, ?_⟩
  unfold St.coming at hl ⊢
  cases step_flow h with
  | keep hu hlast hpic => rwa [lastPicture_append hpic, hu, hlast]
  | queue c he _ hu hlast _ =>
    rw [he, lastPicture_append (by simp [Ev.picture]), hu, hlast, List.map_append]
    exact Latest.queue
  | send k info he hc hp hu hin hlast =>
    rw [hu, List.map_cons] at hl
    rw [he, hlast, show lastPicture ([.send info s.gray16Content] ++ tr) = some s.gray16Content
      from rfl]
    rcases hfill k hc hp with hx | hx
    · rw [hx]
      exact hl.send
    · exact hl.lose (by rw [hin]; simpa using hx)
  | lose k o hc ha hf hu hin hlast hpic =>
    rw [hu, List.map_cons] at hl
    rw [lastPicture_append hpic, hlast]
    have hne : s.ho.inFlight ≠ [] := by
      rcases hf with hf | hm
      · simpa [keepsLatest, St.keepsLatest, ha, hc, hf] using hok
      · exact absurd hm (hg.comp k.comp (by rw [hu]; simp))
    exact hl.lose (by rw [hin]; simpa using hne)
  | post pic mode ps he ha _ hu hlast =>
    rw [he, hu, hlast]
    have hp : s.lastFbHandle = 0 ∨ s.unsent ≠ [] := by
      simpa [keepsLatest, St.keepsLatest, ha] using hok
    refine hl.post (hp.imp (congrArg _) fun hne => ?_)
    simpa using hne

/-- The compositions queued or being composed. -/
def St.inProgress (s : St) : List EinkComposition :=
  (s.cur.map Composing.comp).toList ++ s.ho.inFlight

theorem unsent_inProgress : ∀ c ∈ s.unsent, c ∈ s.inProgress := by
  intro c hc
  unfold St.unsent St.sending at hc
  unfold St.inProgress
  rcases List.mem_append.1 hc with hc | hc
  · refine List.mem_append_left _ ?_
    cases hk : s.cur with
    | none => simp only [hk, List.not_mem_nil] at hc
    | some k =>
      simp only [hk] at hc
      split at hc
      · simpa using hc
      · cases hc
  · exact List.mem_append_right _ hc

/-- What a step that skips a layer sees. -/
theorem skip_eq {h : BufferHandle} (hs : Step s a s' es) (he : .skip h ∈ es) :
    h = s.lastFbHandle ∧ h ≠ 0 := by
  have hc : .skip h ∈ core es := List.mem_filter.2 ⟨he, rfl⟩
  cases hs
  case sameLayer i j k comp dc l fd _ _ _ _ hq hl =>
    obtain rfl : h = l.handle := by simpa using he
    refine ⟨hl, ?_⟩
    rintro h0
    simp [Layer.queueable, h0] at hq
  case setOn | setOff =>
    simp only [core_append, core_suspendEvs, core_setEvs, List.nil_append] at hc
    split at hc <;> simp at hc
  case waited he => simp [core_waitEvs he] at hc
  all_goals simp [queueCompositeStart, queueLayer, Ev.isFd] at hc

/-- **What is skipped is on its way or on the panel.** -/
theorem skip_sound {h : BufferHandle} (hr : Run keepsLatest tr s)
    (hs : step s a = some (s', es)) (he : .skip h ∈ es) :
    (∃ c ∈ s.inProgress, c.fbHandle = h) ∨ lastPicture tr = some (.frame h) := by
  obtain ⟨rfl, hz⟩ := skip_eq (step_cases (linked_run hr) hs) he
  rcases (latest_run hr).2.skip (by simpa using hz) with hm | hp
  · obtain ⟨c, hc, hx⟩ := List.mem_map.1 hm
    exact .inl ⟨c, unsent_inProgress c hc, by simpa using hx⟩
  · exact .inr hp

/-- `skip_sound` for a frame that was sent. -/
theorem skip_sound_sent : ∃ tr s s' es, Run keepsLatest tr s ∧ step s (.hal 0) = some (s', es) ∧
    .skip 1 ∈ es ∧ ((∃ c ∈ s.inProgress, c.fbHandle = 1) ∨ lastPicture tr = some (.frame 1)) := by
  obtain ⟨tr, s, hr, hp⟩ := System.exists_run system keepsLatest ⟨⟨8, 8, 0⟩, 0, rfl, rfl⟩
    (frameActs { handle := 1 } ++ popActs ++ sendActs 1 ++ (skipActs { handle := 1 }).take 2)
    (fun _ s => (step s (.hal 0)).any fun r => r.2.contains (.skip 1)) (by decide +kernel)
  obtain ⟨⟨s', es⟩, hs, he⟩ := (Option.any_eq_true ..).1 hp
  have he : .skip 1 ∈ es := by simpa using he
  exact ⟨tr, s, s', es, hr, hs, he, skip_sound hr hs he⟩

/-- The fence of the first frame fails, so `Compose` drops it; the next `hwc_set` skips the same
handle, and the panel never shows it. -/
theorem skip_after_drop : ¬ ∀ tr s a s' es h, Run System.any tr s → step s a = some (s', es) →
    .skip h ∈ es → (∃ c ∈ s.inProgress, c.fbHandle = h) ∨ lastPicture tr = some (.frame h) := by
  intro hall
  obtain ⟨tr, s, hr, hp⟩ := System.exists_run system System.any ⟨⟨8, 8, 0⟩, 0, rfl, rfl⟩
    (frameActs { handle := 1, acquireFenceFd := 5 } ++ popActs ++ dropActs ++
      (skipActs { handle := 1 }).take 2)
    (fun tr s => ((step s (.hal 0)).any fun r => r.2.contains (.skip 1)) &&
      s.inProgress == [] && lastPicture tr == none) (by decide +kernel)
  simp only [Bool.and_eq_true, beq_iff_eq] at hp
  obtain ⟨⟨hx, hin⟩, hl⟩ := hp
  obtain ⟨⟨s', es⟩, hs, he⟩ := (Option.any_eq_true ..).1 hx
  rcases hall tr s _ s' es 1 hr hs (by simpa using he) with ⟨c, hc, -⟩ | h
  · rw [hin] at hc
    cases hc
  · rw [hl] at h
    cases h

/-! ## Standby -/

def Ev.isLogo : Ev → Bool
  | .post (.logo _) _ => true
  | _ => false

def Ev.isSend : Ev → Bool
  | .send .. => true
  | _ => false

/-- The logo is on the panel, and the power was not switched on since. -/
def InStandby (tr : List Ev) : Prop := Since (·.isLogo = true) (· = .powerOn) tr

instance (tr : List Ev) : Decidable (InStandby tr) := inferInstanceAs (Decidable (Since ..))

/-- The power mode in which `hwc_handle_eink_mode` suspends every frame. -/
def Globals.Off (g : Globals) : Prop := g.gPowerMode = epdPowerOff ∨ g.gPowerMode = epdSuspend

theorem powerModeOff_off (env : PowerEnv) (g : Globals) : (powerModeOff env g).Off := by
  unfold powerModeOff
  split
  · exact .inl rfl
  · exact .inr rfl

theorem setGlobals_off {mode oneFull : Int} {g : Globals} (h : g.Off) :
    (setGlobals mode oneFull g).Off ∧ (setGlobals mode oneFull g).gCurrentEpdMode = epdSuspend := by
  unfold setGlobals
  rw [hwcHandleEinkMode_off h]
  exact ⟨h, rfl⟩

/-- The HAL thread in standby: the power mode is off, and `hwc_set` stays out of its loops. -/
structure Asleep (tr : List Ev) (s : St) : Prop where
  posts : ∀ ps, s.hal = .posts ps → s.g.Off
  off : InStandby tr → s.g.Off ∧ s.hal.inSet = false

theorem Asleep.step (hi : Asleep tr s) (h : Step s a s' es) : Asleep (core es ++ tr) s' := by
  obtain ⟨hposts, hoff⟩ := hi
  cases h
  case setOn mode oneFull d hh _ hg =>
    refine ⟨fun ps hps => (by cases hps), fun hs => ?_⟩
    have hs : InStandby tr := since_of_append (by
      rw [core_setEvs]
      split <;> simp [Ev.isLogo]) hs
    exact absurd (setGlobals_off (hoff hs).1).2 hg
  case setOff mode oneFull d hh _ _ =>
    refine ⟨fun ps hps => ?_, fun hs => ?_⟩
    · rw [show s.hal = .posts ps from hps] at hh
      cases hh
    · have hs : InStandby tr := since_of_append (by
        simp only [core_append, core_suspendEvs, core_setEvs, List.nil_append]
        split <;> simp [Ev.isLogo]) hs
      exact ⟨(setGlobals_off (hoff hs).1).1, by simp only [hh]; rfl⟩
  case powerOff env _ _ =>
    exact ⟨fun _ _ => powerModeOff_off env s.g, fun _ => ⟨powerModeOff_off env s.g, rfl⟩⟩
  case powerOn hh _ =>
    refine ⟨fun ps hps => ?_, fun hs => ?_⟩
    · rw [show s.hal = .posts ps from hps] at hh
      cases hh
    · simp [InStandby, Ev.isFd, Ev.isLogo] at hs
  case posted hh _ _ | postFailed hh _ =>
    refine ⟨fun _ _ => hposts _ hh, fun _ => ⟨hposts _ hh, ?_⟩⟩
    simp only
    split <;> rfl
  case setDone hh _ _ | nextDisplay hh _ _ _ | nextLayer hh _ _ _ | start hh _ _ _ _
    | queueDone hh _ _ _ | otherLayer hh _ _ _ _ | sameLayer hh _ _ _ _ _ | newLayer hh _ _ _ _ _ =>
    -- the HAL thread is in `hwc_set`
    refine ⟨fun ps hps => (by cases hps), fun hs => ?_⟩
    have hs : InStandby tr := since_of_append (by
      simp [queueCompositeStart, queueLayer, Ev.isFd, Ev.isLogo]) hs
    have := (hoff hs).2
    rw [hh] at this
    cases this
  case waited he => exact ⟨hposts, fun hs => hoff (by rwa [core_waitEvs he] at hs)⟩
  all_goals
    exact ⟨hposts, fun hs => hoff (since_of_append (by simp [Ev.isFd, Ev.isLogo]) hs)⟩

/-- A logo is posted only where no frame is on its way. -/
def St.logoWaits (s : St) : Act → Bool
  | .hwcPostEpd getRet sendRet => match s.hal with
    | .posts ((.logo _, _) :: _) => getRet != 0 || sendRet != 0 || s.unsent.isEmpty
    | _ => true
  | _ => true

def logoWaits (s : St) (a : Act) : Prop := s.logoWaits a = true

instance (s : St) (a : Act) : Decidable (logoWaits s a) := inferInstanceAs (Decidable (_ = _))

/-- No frame was sent in standby. -/
def StandbyStays (tr : List Ev) : Prop :=
  Each (fun e past => e.isSend = true → ¬ InStandby past) tr

/-- What holds of a run: in standby no frame is on its way, and none was sent. -/
structure Standby (tr : List Ev) (s : St) : Prop where
  asleep : Asleep tr s
  empty : InStandby tr → s.unsent = []
  stays : StandbyStays tr

/-- Events that are no pictures neither start the standby nor disturb it. -/
theorem noPicture_standby (h : ∀ e ∈ es, e.picture = none) (tr : List Ev) :
    (InStandby (es ++ tr) → InStandby tr) ∧ (StandbyStays tr → StandbyStays (es ++ tr)) := by
  have hl : ∀ e ∈ es, ¬ e.isLogo = true := fun e he hl => by
    have := h e he
    cases e <;> first | cases hl | cases this
  refine ⟨since_of_append hl, fun ht => ?_⟩
  clear hl
  induction es with
  | nil => exact ht
  | cons e es ih =>
    obtain ⟨he, hes⟩ := List.forall_mem_cons.1 h
    refine ⟨fun hs => ?_, ih hes⟩
    cases e <;> first | cases hs; done | cases he

theorem Standby.step (hi : Standby tr s) (hok : logoWaits s a) (h : Step s a s' es) :
    Standby (core es ++ tr) s' := by
  obtain ⟨ha, hempty, hstays⟩ := hi
  have ha' := ha.step h
  cases step_flow h with
  | keep hu _ hp =>
    obtain ⟨hback, hon⟩ := noPicture_standby hp tr
    exact ⟨ha', fun hs => by rw [hu]; exact hempty (hback hs), hon hstays⟩
  | queue c he hin hu _ _ =>
    have hp : ∀ e ∈ core es, e.picture = none := by
      rw [he]
      simp [Ev.picture]
    obtain ⟨hback, hon⟩ := noPicture_standby hp tr
    refine ⟨ha', fun hs => ?_, hon hstays⟩
    rw [(ha.off (hback hs)).2] at hin
    cases hin
  | send k info he hc hpc hu _ _ =>
    have hn : ¬ InStandby tr := fun hs => by
      have := hempty hs
      rw [hu] at this
      cases this
    refine ⟨ha', fun hs => ?_, ?_⟩
    · rw [he] at hs
      exact absurd (since_of_append (by simp [Ev.isLogo]) hs) hn
    · rw [he]
      exact ⟨fun _ => hn, hstays⟩
  | lose k o hc _ _ hu _ _ hp =>
    obtain ⟨hback, hon⟩ := noPicture_standby hp tr
    refine ⟨ha', fun hs => ?_, hon hstays⟩
    have := hempty (hback hs)
    rw [hu] at this
    cases this
  | post pic mode ps he hact hh hu _ =>
    refine ⟨ha', fun hs => ?_, ?_⟩
    · rw [hu]
      rw [he] at hs
      cases pic with
      | logo p => simpa [logoWaits, St.logoWaits, hact, hh] using hok
      | frame | white | stale => exact hempty (since_of_append (by simp [Ev.isLogo]) hs)
    · rw [he]
      exact ⟨fun hs => (by cases hs), hstays⟩

theorem inStandby_core : InStandby (core tr) ↔ InStandby tr :=
  since_core ⟨nofun, nofun⟩ ⟨nofun, nofun⟩

theorem stays_core : StandbyStays (core tr) ↔ StandbyStays tr := by
  refine each_filter (fun e past hv hs => ?_) (fun e past => ?_)
  · cases e <;> first | cases hs; done | cases hv
  · exact imp_congr_right fun _ => not_congr inStandby_core

/-- **The standby picture stays.** In a run that posts a logo only where no frame is on its way,
nothing is sent over it until the power is on, and no frame is even on its way to be sent. -/
theorem standby_stays (hr : Run logoWaits tr s) :
    StandbyStays tr ∧ (InStandby tr → s.unsent = []) := by
  rw [← stays_core, ← inStandby_core]
  suffices h : Standby (core tr) s from ⟨h.stays, h.empty⟩
  refine core_induction (J := fun _ _ => True) (I := Standby) (fun _ _ _ => trivial) ?_ ?_ hr
  · intro panel b
    refine ⟨⟨fun ps hps => (by cases hps), fun hs => ?_⟩, fun _ => rfl, ?_⟩
    · rcases hs with hs | ⟨-, hs⟩ <;> cases hs
    · exact ⟨fun hs => (by cases hs), trivial⟩
  · intro s a s' es tr hj hi hok h
    exact hi.step hok h

/-- `standby_stays` in a run that sends a frame, shows the logo, and sends a frame after the
power-on. -/
theorem standby_stays_frames : ∃ tr s, Run logoWaits tr s ∧
    lastPicture tr = some (.frame 2) ∧ StandbyStays tr ∧ (InStandby tr → s.unsent = []) := by
  obtain ⟨tr, s, hr, hp⟩ := System.exists_run system logoWaits ⟨⟨8, 8, 0⟩, 0, rfl, rfl⟩
    (List.flatten [frameActs { handle := 1 }, popActs, sendActs 1,
      [.hwcSetPowerMode .off {}, .hwcPostEpd 0 0, .hwcSetPowerMode .normal {}],
      frameActs { handle := 2 }, popActs, sendActs 2])
    (fun tr _ => lastPicture tr == some (.frame 2)) (by decide +kernel)
  exact ⟨tr, s, hr, by simpa using hp, standby_stays hr⟩

/-- The power goes off while a frame is queued: the worker sends it over the logo. -/
theorem frame_after_logo : ¬ ∀ tr s, Run System.any tr s → StandbyStays tr := by
  intro h
  obtain ⟨tr, s, hr, hp⟩ := System.exists_run system System.any ⟨⟨8, 8, 0⟩, 0, rfl, rfl⟩
    (List.flatten [frameActs { handle := 1 }, [.hwcSetPowerMode .off {}, .hwcPostEpd 0 0],
      popActs, (sendActs 1).take 6])
    (fun tr _ => tr.head?.any Ev.isSend && decide (InStandby tr.tail)) (by decide +kernel)
  rw [Bool.and_eq_true, decide_eq_true_eq] at hp
  cases tr with
  | nil => cases hp.1
  | cons e past => exact (h _ s hr).1 hp.1 hp.2

end EinkHwc
