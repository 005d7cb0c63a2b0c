import EinkHwc.Sys.Panel
import EinkHwc.Sys.Results

/-!
# What the worker sends

What the worker does, said as a program with one thread: it takes the compositions that
`QueueComposite` accepted one after the other and serves each (`Screen.serve`), with the outcome
that the results of its calls decide (`EinkComposition.fate`). From one to the next it keeps its
last mode and what is in `gray16_buffer`, nothing else.

- **Refinement** (`renders`): in every run, whatever fails, the worker has sent what that program
  sends for the compositions accepted and the results of their calls. Neither the queue nor the
  interleaving shows.
- **Without failures** (`renders_all`) the outcomes are no part of it: the worker sends every frame
  accepted, in order, each one converted from its own buffer, and with its own mode unless
  `A2Commit` replaces it (`shows`).
-/

namespace EinkHwc

open Trace

/-! ## The program -/

/-- What the worker keeps from one composition to the next. -/
structure Screen where
  /-- `gLastEpdMode` -/
  lastMode : Int := epdPartGc16
  /-- What is in `gray16_buffer`. -/
  buffer : Picture := .stale
  deriving DecidableEq, Repr

/-- The handle and the mode of a composition. -/
def EinkComposition.frame (c : EinkComposition) : BufferHandle × Int := (c.fbHandle, c.einkMode)

/-- `gray16_buffer` after the converter. -/
def Screen.write (p : Screen) (c : EinkComposition) (wrote : Bool) : Picture :=
  if wrote then .frame c.fbHandle else p.buffer

/-- One composition: the screen after it, and what is sent. -/
def Screen.serve (panelColor : Int) (p : Screen) (c : EinkComposition) (f : Fate) :
    Screen × List (Int × Picture) :=
  match f, setMode panelColor c.einkMode with
  | .givenUp, _ | _, none => (p, [])
  | .unsent wrote, some m => ({ lastMode := m.2.lastMode, buffer := p.write c wrote }, [])
  | .sent wrote got, some m =>
    ({ lastMode := m.2.lastMode, buffer := if got then .stale else p.write c wrote },
      [(m.2.postMode p.lastMode, p.write c wrote)])

def Screen.serveAll (panelColor : Int) :
    Screen → List (EinkComposition × Fate) → Screen × List (Int × Picture)
  | p, [] => (p, [])
  | p, (c, f) :: cs =>
    let r := p.serve panelColor c f
    let r' := r.1.serveAll panelColor cs
    (r'.1, r.2 ++ r'.2)

/-- The same where nothing fails: the modes and pictures of these frames. -/
def shows (panelColor : Int) : Int → List (BufferHandle × Int) → List (Int × Picture)
  | _, [] => []
  | last, (h, mode) :: fs =>
    match setMode panelColor mode with
    | none => shows panelColor last fs
    | some m => (m.2.postMode last, .frame h) :: shows panelColor m.2.lastMode fs

section Program

variable {panelColor last : Int} {p : Screen} {c : EinkComposition} {f : Fate}
  {cs : List (EinkComposition × Fate)} {fs gs : List (BufferHandle × Int)}

theorem serveAll_snoc : p.serveAll panelColor (cs ++ [(c, f)]) =
    let r := p.serveAll panelColor cs
    let r' := r.1.serve panelColor c f
    (r'.1, r.2 ++ r'.2) := by
  induction cs generalizing p with
  | nil => simp [Screen.serveAll]
  | cons x cs ih => simp [Screen.serveAll, ih]

/-- `shows` of a list is that of its first part, then that of the rest. -/
theorem shows_append : ∃ last', shows panelColor last (fs ++ gs) =
    shows panelColor last fs ++ shows panelColor last' gs := by
  induction fs generalizing last with
  | nil => exact ⟨last, rfl⟩
  | cons x fs ih =>
    rw [List.cons_append, shows, shows]
    cases setMode panelColor x.2 with
    | none => exact ih
    | some m =>
      obtain ⟨last', h⟩ := @ih m.2.lastMode
      exact ⟨last', by simp only [h, List.cons_append]⟩

theorem length_shows (h : ∀ x ∈ fs, x.2 ≠ epdSuspend) :
    (shows panelColor last fs).length = fs.length := by
  induction fs generalizing last with
  | nil => rfl
  | cons x fs ih =>
    obtain ⟨hx, hfs⟩ := List.forall_mem_cons.1 h
    have hsome : (setMode panelColor x.2).isSome = true := setMode_isSome hx
    obtain ⟨m, hm⟩ := Option.isSome_iff_exists.1 hsome
    rw [shows, hm, List.length_cons, List.length_cons, ih hfs]

/-- Where nothing fails, the outcomes do not matter. -/
theorem serveAll_fine (h : ∀ x ∈ cs, x.2.fine = true ∧ x.1.einkMode ≠ epdSuspend) :
    (p.serveAll panelColor cs).2 = shows panelColor p.lastMode (cs.map (·.1.frame)) := by
  induction cs generalizing p with
  | nil => rfl
  | cons x cs ih =>
    obtain ⟨c, f⟩ := x
    obtain ⟨⟨hf, hne⟩, hcs⟩ := List.forall_mem_cons.1 h
    have hsome : (setMode panelColor c.einkMode).isSome = true := setMode_isSome hne
    obtain ⟨m, hm⟩ := Option.isSome_iff_exists.1 hsome
    cases f with
    | givenUp | unsent => cases hf
    | sent wrote got =>
      obtain rfl : wrote = true := hf
      rw [Screen.serveAll, List.map_cons, EinkComposition.frame, shows]
      simp only [Screen.serve, hm, ih hcs]
      rfl

end Program

/-! ## The invariant -/

variable {s s' : St} {a : Act} {es tr : List Ev} {k : Composing} {ok : St → Act → Prop}

/-- The mode and the picture of a successful `EBC_SEND_BUFFER` of the worker. -/
def Ev.sent : Ev → Option (Int × Picture)
  | .send info pic => some (info.epdMode, pic)
  | _ => none

/-- What the worker has sent. -/
def sends (tr : List Ev) : List (Int × Picture) := collect Ev.sent tr

/-- Every call of `Compose` that a frame depends on succeeds. -/
def St.succeeds (s : St) : Act → Bool
  | .compose o => s.cur.all fun k => !k.failsAt s.panel.panelColor o
  | _ => true

def succeeds (s : St) (a : Act) : Prop := s.succeeds a = true

instance (s : St) (a : Act) : Decidable (succeeds s a) := inferInstanceAs (Decidable (_ = _))

/-- `now` is the composition in hand with the results of its calls; `r` says what becomes of it,
from the results of those to come. -/
def Told (panelColor : Int) (now : List (EinkComposition × List Outcome)) (c : EinkComposition)
    (r : List Outcome → Option Fate) : Prop :=
  ∃ os, now = [(c, os)] ∧ ∀ rest, c.fate panelColor (os ++ rest) = r rest

theorem Told.start {panelColor : Int} (c : EinkComposition) :
    Told panelColor [(c, [])] c (c.fate panelColor) :=
  ⟨[], rfl, fun _ => rfl⟩

/-- Where `Compose` is, with the screen and the pictures sent before its composition; `fine`: so far
nothing has failed. -/
structure Halfway (fine : Prop) (s : St) (out : List (Int × Picture))
    (now : List (EinkComposition × List Outcome)) (p : Screen) (before : List (Int × Picture)) :
    Prop where
  lastMode : s.gLastEpdMode = p.lastMode
  idle : s.serving = [] → now = []
  /-- Before `EBC_SEND_BUFFER`. -/
  early : ∀ k, s.cur = some k → k.pc ≠ .send → k.pc ≠ .get → k.pc ≠ .finish →
    Told s.panel.panelColor now k.comp (k.fate s.panel.panelColor)
  /-- At `EBC_SEND_BUFFER`: the buffer is written, and nothing more is sent. -/
  send : ∀ k, s.cur = some k → k.pc = .send →
    out = before ∧ ∃ wrote, (fine → wrote = true) ∧ s.gray16Content = p.write k.comp wrote ∧
      Told s.panel.panelColor now k.comp (sendFate wrote)
  /-- At `EBC_GET_BUFFER`: the buffer is sent. -/
  get : ∀ k, s.cur = some k → k.pc = .get →
    ∃ wrote m, (fine → wrote = true) ∧ s.gray16Content = p.write k.comp wrote ∧
      setMode s.panel.panelColor k.comp.einkMode = some m ∧
      out = before ++ [(m.2.postMode p.lastMode, s.gray16Content)] ∧
      Told s.panel.panelColor now k.comp (getFate wrote)
  other : (∀ k, s.cur = some k → k.pc ≠ .send ∧ k.pc ≠ .get) →
    out = before ∧ s.gray16Content = p.buffer

/-- The compositions that the worker is through with, as the program serves them. -/
def through (done : List ((EinkComposition × List Outcome) × Fate)) :
    List (EinkComposition × Fate) :=
  done.map fun x => (x.1.1, x.2)

/-- The worker has served the compositions that it is through with, one after the other. -/
def Rendered (fine : Prop) (tr : List (Ev ⊕ Outcome)) (s : St) : Prop :=
  ∃ done now, taken tr = done.map Prod.fst ++ now ∧
    (∀ x ∈ done, x.1.1.fate s.panel.panelColor x.1.2 = some x.2 ∧ (fine → x.2.fine = true)) ∧
    Halfway fine s (sends (events tr)) now
      (({} : Screen).serveAll s.panel.panelColor (through done)).1
      (({} : Screen).serveAll s.panel.panelColor (through done)).2

section Invariant

variable {fine : Prop} {tr : List (Ev ⊕ Outcome)} {os : List Outcome}
  {now now' : List (EinkComposition × List Outcome)} {out before : List (Int × Picture)}
  {p : Screen}

theorem sends_log (es : List Ev) (cs : List Outcome) :
    sends (events (es.map .inl ++ cs.map .inr ++ tr)) = sends (events tr) ++ sends es := by
  rw [events, List.filterMap_append, System.filterMap_getLeft, sends, collect_append]
  rfl

theorem taken_log {es : List Ev} (he : collect Ev.isCompose es = []) (cs : List Outcome) :
    taken (es.map .inl ++ cs.map .inr ++ tr) = taken (cs.map .inr ++ tr) := by
  rw [taken, List.append_assoc, grouped_append_inl, he, List.map_nil, List.append_nil]
  rfl

/-- The call that `Compose` is at has returned. -/
theorem Told.result {c : EinkComposition} {r : List Outcome → Option Fate} {panelColor : Int}
    {ds : List (EinkComposition × List Outcome)} (ht : Told panelColor now c r)
    (hd : taken tr = ds ++ now) (o : Outcome) :
    ∃ now', taken (.inr o :: tr) = ds ++ now' ∧ Told panelColor now' c fun os => r (o :: os) := by
  obtain ⟨os, rfl, hr⟩ := ht
  refine ⟨[(c, os ++ [o])], grouped_logged o hd, os ++ [o], rfl, fun rest => ?_⟩
  rw [List.append_assoc]
  exact hr (o :: rest)

theorem serving_finish {k : Composing} (hs : s.serving = []) (hc : s.cur = some k) :
    k.pc = .finish := by
  unfold St.serving at hs
  rw [hc] at hs
  by_contra hp
  simp [hp] at hs

/-! ### Where `Compose` is after a step -/

/-- A step that neither the worker nor the panel sees. -/
theorem Halfway.keep (hh : Halfway fine s out now p before) (hp : s'.panel = s.panel)
    (hc : s'.cur = s.cur) (hm : s'.gLastEpdMode = s.gLastEpdMode)
    (hg : s'.gray16Content = s.gray16Content) : Halfway fine s' (out ++ []) now p before := by
  rw [List.append_nil]
  obtain ⟨h1, h2, h3, h4, h5, h6⟩ := hh
  constructor
  · rwa [hm]
  · rwa [St.serving, hc]
  · rwa [hc, hp]
  · rwa [hc, hg, hp]
  · rwa [hc, hg, hp]
  · rwa [hc, hg]

/-- `Compose` gets to a call before `EBC_SEND_BUFFER`. -/
theorem Halfway.move {k' : Composing} (hh : Halfway fine s out now p before)
    (hc : ∀ k, s.cur = some k → k.pc ≠ .send ∧ k.pc ≠ .get) (hc' : s'.cur = some k')
    (hp : s'.panel = s.panel) (hsend : k'.pc ≠ .send) (hget : k'.pc ≠ .get)
    (hfinish : k'.pc ≠ .finish) (hm : s'.gLastEpdMode = s.gLastEpdMode)
    (hg : s'.gray16Content = s.gray16Content)
    (ht : Told s.panel.panelColor now' k'.comp (k'.fate s.panel.panelColor)) :
    Halfway fine s' (out ++ []) now' p before := by
  rw [List.append_nil]
  have hk : ∀ k, s'.cur = some k → k = k' := fun k h => Option.some.inj (h.symm.trans hc')
  refine ⟨hm.trans hh.lastMode, fun hs => absurd (serving_finish hs hc') hfinish, ?_, ?_, ?_,
    fun _ => by rw [hg]; exact hh.other hc⟩
  · intro k h _ _ _
    rw [hk k h, hp]
    exact ht
  · intro k h h1
    rw [hk k h] at h1
    exact absurd h1 hsend
  · intro k h h1
    rw [hk k h] at h1
    exact absurd h1 hget

/-- `Compose` is through with its composition. -/
theorem Halfway.done (hs : s.serving = []) (hm : s.gLastEpdMode = p.lastMode) (ho : out = before)
    (hg : s.gray16Content = p.buffer) : Halfway fine s out [] p before := by
  have hfinish : ∀ k, s.cur = some k → k.pc = .finish := fun k hc => serving_finish hs hc
  refine ⟨hm, fun _ => rfl, fun k hc _ _ h => absurd (hfinish k hc) h, fun k hc h => ?_,
    fun k hc h => ?_, fun _ => ⟨ho, hg⟩⟩
  · rw [hfinish k hc] at h
    cases h
  · rw [hfinish k hc] at h
    cases h

/-- `Compose` leaves a composition of which nothing more is sent. -/
theorem Halfway.leave (hh : Halfway fine s out now p before)
    (hc : ∀ k, s.cur = some k → k.pc ≠ .send ∧ k.pc ≠ .get) (hs : s'.serving = [])
    (hm : s'.gLastEpdMode = s.gLastEpdMode) (hg : s'.gray16Content = s.gray16Content) :
    Halfway fine s' (out ++ []) [] p before := by
  obtain ⟨ho, hb⟩ := hh.other hc
  rw [List.append_nil]
  exact .done hs (hm.trans hh.lastMode) ho (hg.trans hb)

/-- The converter has returned. -/
theorem Halfway.atSend {wrote : Bool} (hc : s.cur = some { k with pc := .send })
    (hm : s.gLastEpdMode = p.lastMode) (ho : out = before) (hw : fine → wrote = true)
    (hg : s.gray16Content = p.write k.comp wrote)
    (ht : Told s.panel.panelColor now k.comp (sendFate wrote)) :
    Halfway fine s out now p before := by
  have hk : ∀ k', s.cur = some k' → k' = { k with pc := .send } := fun k' h =>
    Option.some.inj (h.symm.trans hc)
  refine ⟨hm, fun hs => ?_, ?_, fun k' h _ => ?_, fun k' h h1 => ?_, fun hn => ?_⟩
  · cases serving_finish hs hc
  · intro k' h h1 _ _
    rw [hk k' h] at h1
    exact absurd rfl h1
  · rw [hk k' h]
    exact ⟨ho, wrote, hw, hg, ht⟩
  · rw [hk k' h] at h1
    cases h1
  · exact absurd rfl (hn _ hc).1

/-- The composition that `Compose` has is not at one of the two `ioctl`s. -/
theorem not_panel (hc : s.cur = some k) (h1 : k.pc ≠ .send) (h2 : k.pc ≠ .get) :
    ∀ k', s.cur = some k' → k'.pc ≠ .send ∧ k'.pc ≠ .get := by
  intro k' hk'
  obtain rfl := Option.some.inj (hc.symm.trans hk')
  exact ⟨h1, h2⟩

/-! ### Steps -/

/-- The composition in hand stays the same, or there is none. -/
theorem Rendered.go (hi : Rendered fine tr s) (hp : s'.panel = s.panel)
    (he : collect Ev.isCompose es = [])
    (hstep : ∀ ds now p before, taken tr = ds ++ now →
      Halfway fine s (sends (events tr)) now p before →
      ∃ now', taken (os.map .inr ++ tr) = ds ++ now' ∧
        Halfway fine s' (sends (events tr) ++ sends es) now' p before) :
    Rendered fine (es.map .inl ++ os.map .inr ++ tr) s' := by
  obtain ⟨done, now, hd, hfates, hh⟩ := hi
  obtain ⟨now', hd', hh'⟩ := hstep _ _ _ _ hd hh
  refine ⟨done, now', (taken_log he os).trans hd', ?_, ?_⟩
  · rwa [hp]
  · rwa [hp, sends_log]

/-- Nothing is logged. -/
theorem Rendered.silent (hi : Rendered fine tr s) (hp : s'.panel = s.panel)
    (he : collect Ev.isCompose es = [])
    (hstep : ∀ now p before, Halfway fine s (sends (events tr)) now p before →
      Halfway fine s' (sends (events tr) ++ sends es) now p before) :
    Rendered fine (es.map .inl ++ [].map .inr ++ tr) s' :=
  hi.go hp he fun _ now _ _ hd hh => ⟨now, hd, hstep _ _ _ hh⟩

/-- The fate of the composition in hand is decided. -/
theorem Rendered.serve (hi : Rendered fine tr s) (c : EinkComposition) (o : Outcome)
    (hp : s'.panel = s.panel) (he : collect Ev.isCompose es = [])
    (hstep : ∀ now p before, Halfway fine s (sends (events tr)) now p before →
      ∃ f r, Told s.panel.panelColor now c r ∧ r [o] = some f ∧ (fine → f.fine = true) ∧
        Halfway fine s' (sends (events tr) ++ sends es) [] (p.serve s.panel.panelColor c f).1
          (before ++ (p.serve s.panel.panelColor c f).2)) :
    Rendered fine (es.map .inl ++ [o].map .inr ++ tr) s' := by
  obtain ⟨done, now, hd, hfates, hh⟩ := hi
  obtain ⟨f, r, ⟨os, rfl, hr⟩, hf, hfine, hh'⟩ := hstep _ _ _ hh
  refine ⟨done ++ [((c, os ++ [o]), f)], [], ?_, fun x hx => ?_, ?_⟩
  · rw [taken_log he, List.append_nil, List.map_append]
    exact grouped_logged o hd
  · rw [hp]
    rcases List.mem_append.1 hx with hx | hx
    · exact hfates x hx
    · rw [List.mem_singleton.1 hx]
      exact ⟨(hr [o]).trans hf, hfine⟩
  · rw [hp, sends_log, through, List.map_append, List.map_singleton, serveAll_snoc]
    exact hh'

theorem result_handoff (ha : a.handoff.isSome = true) : a.result = none := by
  cases a <;> first | rfl | cases ha

theorem Rendered.step (hg : Gated s) (hi : Rendered fine tr s) (hs : fine → succeeds s a)
    (hstep : step s a = some (s', es)) (h : Step s a s' es) :
    Rendered fine ((core es).map .inl ++ a.result.toList.map .inr ++ tr) s' := by
  have hok : fine → ∀ k o, s.cur = some k → a = .compose o →
      k.failsAt s.panel.panelColor o = false := by
    rintro hx k o hc rfl
    simpa [succeeds, St.succeeds, hc] using hs hx
  cases h
  case setOn | setOff =>
    simp only [core_append, core_suspendEvs, core_setEvs, List.nil_append]
    split <;> exact hi.silent rfl rfl fun n p b hh => hh.keep rfl rfl rfl rfl
  case queueDone =>
    rw [core_doneEvs]
    exact hi.silent rfl rfl fun n p b hh => hh.keep rfl rfl rfl rfl
  case start | newLayer =>
    simp only [queueCompositeStart, queueLayer, core_append, core_closeEvs, List.nil_append]
    exact hi.silent rfl rfl fun n p b hh => hh.keep rfl rfl rfl rfl
  case moved ha =>
    rw [result_handoff ha]
    exact hi.silent rfl rfl fun n p b hh => hh.keep rfl rfl rfl rfl
  case pushed ha =>
    rw [result_handoff ha]
    exact hi.silent rfl rfl fun n p b hh => hh.keep rfl rfl rfl rfl
  case started ho c _ _ hc ha =>
    rw [result_handoff ha]
    obtain ⟨done, now, hd, hfates, hh⟩ := hi
    have hnow : now = [] := hh.idle (by rw [St.serving, hc])
    refine ⟨done, [(c, [])], ?_, hfates, ?_⟩
    · rw [hnow, List.append_nil] at hd
      rw [← hd]
      exact @grouped_append_inl _ _ _ Ev.isCompose tr [.ho (.compose c)]
    · rw [sends_log]
      exact hh.move (by simp [hc]) rfl rfl (by simp) (by simp) (by simp) rfl rfl (.start c)
  case waited k k' ret hc hp hcomp hp' he =>
    rw [core_waitEvs he]
    refine hi.go rfl rfl fun ds n p b hd hh => ?_
    have hk : k.pc ≠ .send ∧ k.pc ≠ .get ∧ k.pc ≠ .finish := by
      rcases hp with h | h <;> simp [h]
    have hk' : k'.pc ≠ .send ∧ k'.pc ≠ .get ∧ k'.pc ≠ .finish := by
      rcases hp' with h | h <;> simp [h]
    obtain ⟨n', hd', ht⟩ := (hh.early k hc hk.1 hk.2.1 hk.2.2).result hd (.syncWait ret)
    refine ⟨n', hd', hh.move (not_panel hc hk.1 hk.2.1) rfl rfl hk'.1 hk'.2.1 hk'.2.2 rfl rfl ?_⟩
    rw [hcomp]
    simpa only [wait_fate hc hp hstep rfl] using ht
  case ready k hc hp hm =>
    refine hi.go rfl rfl fun ds n p b hd hh => ?_
    obtain ⟨n', hd', ht⟩ := (hh.early k hc (by simp [hp]) (by simp [hp]) (by simp [hp])).result hd
      (.rkRgaIsReady true)
    refine ⟨n', hd', hh.move (not_panel hc (by simp [hp]) (by simp [hp])) rfl rfl (by simp)
      (by simp) (by simp) rfl rfl ?_⟩
    simp only [Composing.fate, hp, waitFate, hm, and_self, if_true] at ht
    exact ht
  case finished k ret hc hp _ hw =>
    rw [core_destroyEvs]
    refine hi.silent rfl rfl fun n p b hh => ?_
    rw [hh.idle (by simp [St.serving, hc, hp])]
    exact hh.leave (not_panel hc (by simp [hp]) (by simp [hp])) rfl rfl rfl
  case finishedInc k hc hp _ hw =>
    rw [core_append, core_destroyEvs]
    refine hi.silent rfl rfl fun n p b hh => ?_
    rw [hh.idle (by simp [St.serving, hc, hp])]
    exact hh.leave (not_panel hc (by simp [hp]) (by simp [hp])) rfl rfl rfl
  -- the composition is given up
  case dropped k ret hc hp hr hw =>
    rw [core_append, core_destroyEvs]
    refine hi.serve k.comp (.syncWait ret) rfl rfl fun n p b hh => ?_
    have hk : k.pc ≠ .send ∧ k.pc ≠ .get ∧ k.pc ≠ .finish := by
      rcases hp with h | h <;> simp [h.1]
    refine ⟨.givenUp, _, hh.early k hc hk.1 hk.2.1 hk.2.2, dropped_fate hp hr, fun hx => ?_, ?_⟩
    · have := hok hx k _ hc rfl
      rcases hp with h | h <;> simp [Composing.failsAt, h, hr] at this
    · rw [Screen.serve, List.append_nil]
      exact hh.leave (not_panel hc hk.1 hk.2.1) rfl rfl rfl
  case notReady k ready hc hp hb =>
    refine hi.serve k.comp (.rkRgaIsReady ready) rfl rfl fun n p b hh => ?_
    refine ⟨.givenUp, _, hh.early k hc (by simp [hp]) (by simp [hp]) (by simp [hp]), ?_,
      fun hx => ?_, ?_⟩
    · have hno : ¬ (ready = true ∧
          (setMode s.panel.panelColor k.comp.einkMode).isSome = true) := by
        rintro ⟨rfl, hm⟩
        rcases hb with hb | hb
        · cases hb
        · rw [hb, setMode_suspend] at hm
          cases hm
      simp only [Composing.fate, hp, waitFate]
      exact if_neg hno
    · have := hok hx k _ hc rfl
      rcases hb with rfl | hm
      · simp [Composing.failsAt, hp] at this
      · exact absurd hm (hg.comp k.comp (by rw [unsent_some hc (by rw [hp]; rfl)]; simp))
    · rw [Screen.serve, List.append_nil]
      exact hh.leave (not_panel hc (by simp [hp]) (by simp [hp])) rfl rfl rfl
  -- the converter
  case wrote k env m hc hp hm hw =>
    refine hi.go rfl rfl fun ds n p b hd hh => ?_
    obtain ⟨h1, -⟩ := hh.other (not_panel hc (by simp [hp]) (by simp [hp]))
    obtain ⟨n', hd', ht⟩ := (hh.early k hc (by simp [hp]) (by simp [hp]) (by simp [hp])).result hd
      (.convert env)
    simp only [Composing.fate, hp, hm, convertFate, hw] at ht
    exact ⟨n', hd', .atSend rfl hh.lastMode (by rw [h1]; exact List.append_nil _) (fun _ => rfl) rfl
      ht⟩
  case notWritten k env m hc hp hm hw =>
    refine hi.go rfl rfl fun ds n p b hd hh => ?_
    obtain ⟨h1, h2⟩ := hh.other (not_panel hc (by simp [hp]) (by simp [hp]))
    obtain ⟨n', hd', ht⟩ := (hh.early k hc (by simp [hp]) (by simp [hp]) (by simp [hp])).result hd
      (.convert env)
    simp only [Composing.fate, hp, hm, convertFate, hw] at ht
    have hb : s.gray16Content = p.write k.comp false := h2
    refine ⟨n', hd', .atSend rfl hh.lastMode (by rw [h1]; exact List.append_nil _) (fun hx => ?_) hb
      ht⟩
    have := hok hx k _ hc rfl
    simp [Composing.failsAt, hp, hm, hw] at this
  -- `PostEink`
  case sent k m hc hp hm =>
    refine hi.go rfl rfl fun ds n p b hd hh => ?_
    obtain ⟨h1, wrote, h2, h3, ht⟩ := hh.send k hc hp
    obtain ⟨n', hd', ht'⟩ := ht.result hd (.ebcSend 0)
    refine ⟨n', hd', hh.lastMode, fun hn => ?_, ?_, ?_, ?_, fun hn => absurd rfl (hn _ rfl).2⟩
    · simp [St.serving] at hn
    · intro k' hk' _ hn
      obtain rfl := Option.some.inj hk'
      exact absurd rfl hn
    · intro k' hk' hp'
      obtain rfl := Option.some.inj hk'
      cases hp'
    · intro k' hk' _
      obtain rfl := Option.some.inj hk'
      exact ⟨wrote, m, h2, h3, hm, by rw [h1, ← hh.lastMode]; rfl, ht'⟩
  case sendFailed k m ret hc hp hm hr =>
    refine hi.serve k.comp (.ebcSend ret) rfl rfl fun n p b hh => ?_
    obtain ⟨h1, wrote, -, h3, ht⟩ := hh.send k hc hp
    refine ⟨.unsent wrote, _, ht, if_pos hr, fun hx => ?_, ?_⟩
    · have := hok hx k _ hc rfl
      simp [Composing.failsAt, hp, hr] at this
    · simp only [Screen.serve, hm]
      exact .done rfl rfl (by rw [h1]; rfl) h3
  case got k m offset hc hp hm =>
    refine hi.serve k.comp (.ebcGet (some offset)) rfl rfl fun n p b hh => ?_
    obtain ⟨wrote, m', h2, h3, hm', h1, ht⟩ := hh.get k hc hp
    obtain rfl := Option.some.inj (hm.symm.trans hm')
    refine ⟨.sent wrote true, _, ht, rfl, h2, ?_⟩
    simp only [Screen.serve, hm]
    exact .done rfl rfl (by rw [h1, h3]; exact List.append_nil _) rfl
  case getFailed k m hc hp hm =>
    refine hi.serve k.comp (.ebcGet none) rfl rfl fun n p b hh => ?_
    obtain ⟨wrote, m', h2, h3, hm', h1, ht⟩ := hh.get k hc hp
    obtain rfl := Option.some.inj (hm.symm.trans hm')
    refine ⟨.sent wrote false, _, ht, rfl, h2, ?_⟩
    simp only [Screen.serve, hm]
    exact .done rfl rfl (by rw [h1, h3]; exact List.append_nil _) h3
  case doze => exact hi
  all_goals exact hi.silent rfl rfl fun n p b hh => hh.keep rfl rfl rfl rfl

end Invariant

theorem rendered_run {tr : List (Ev ⊕ Outcome)} (hr : resultSystem.Run ok tr s) :
    Rendered (∀ s a, ok s a → succeeds s a) tr s := by
  refine System.Run.induction (J := fun _ s => Linked s ∧ Gated s)
    (I := Rendered (∀ s a, ok s a → succeeds s a)) ?_ ?_ ?_ hr
  · exact fun tr s hr => ⟨linked_run hr.unlogged, gated_run hr.unlogged⟩
  · rintro s tr ⟨_, ⟨panel, b, rfl, rfl⟩, rfl⟩
    exact ⟨[], [], rfl, fun x hx => (by cases hx), .done rfl rfl rfl rfl⟩
  · rintro s a s' es tr ⟨hl, hg⟩ hi hok h
    obtain ⟨es₀, hs, rfl⟩ := System.logged_step h
    have hsent : CoreOnly (Ev.sent · ≠ none) := ⟨fun _ h => h rfl, fun _ _ h => h rfl⟩
    obtain ⟨done, now, hd, hfates, hh⟩ :=
      Rendered.step hg hi (fun hx => hx s a hok) hs (step_cases hl hs)
    -- `taken` and `sends` do not see the events about descriptors
    refine ⟨done, now, ?_, hfates, ?_⟩
    · rw [← hd, taken, taken, List.append_assoc, List.append_assoc, grouped_append_inl,
        grouped_append_inl, collect_core coreOnly_isCompose]
    · rw [sends_log, sends, sends, collect_core hsent] at hh
      rw [sends_log]
      exact hh

/-! ## What was sent -/

/-- The compositions accepted have a mode that is converted and committed. -/
theorem accepted_mode (hr : Run ok tr s) :
    ∀ c ∈ collect Ev.isAccept tr, c.einkMode ≠ epdSuspend := by
  have haccept : CoreOnly (Ev.isAccept · ≠ none) := ⟨fun _ h => h rfl, fun _ _ h => h rfl⟩
  rw [← collect_core haccept]
  refine core_induction (J := fun _ s => Gated s)
    (I := fun tr _ => ∀ c ∈ collect Ev.isAccept tr, c.einkMode ≠ epdSuspend)
    (fun _ _ => gated_run) (fun _ _ c hc => (by cases hc)) ?_ hr
  intro s a s' es tr hg ih hok h c hc
  rw [collect_append, List.mem_append] at hc
  rcases hc with hc | hc
  · exact ih c hc
  cases h
  case newLayer i j k comp dc l fd hh hp _ _ _ _ =>
    obtain rfl : c = fillComposition l comp s := by
      simpa [queueLayer, Ev.isFd, Ev.isAccept] using hc
    refine (Gated.comp_step hg (.newLayer i j k comp dc l fd hh hp ‹_› ‹_› ‹_› ‹_›)) _ ?_
    simp [queueLayer, St.unsent, Handoff.inFlight_lock hp]
  case waited he => simp [core_waitEvs he] at hc
  case setOn | setOff =>
    simp only [core_append, core_suspendEvs, core_setEvs, List.nil_append] at hc
    split at hc <;> simp [Ev.isAccept] at hc
  all_goals simp [queueCompositeStart, Ev.isFd, Ev.isAccept] at hc

/-- The worker has sent what the program sends, with these fates. `rest` is what the calls return
that `Compose` still has to make. -/
structure Renders (tr : List (Ev ⊕ Outcome)) (s : St) (fs : List Fate) (rest : List Outcome) :
    Prop where
  /-- All compositions accepted have their fate, but those that wait to be sent. -/
  length : fs.length + s.unsent.length = (collect Ev.isAccept (events tr)).length
  /-- The fate of a composition is what the results of its calls say. -/
  fates : (fates s.panel.panelColor (rest.map .inr ++ tr)).take fs.length = fs.map some
  rest : s.serving = [] → rest = []
  sends : sends (events tr) = (({} : Screen).serveAll s.panel.panelColor
    ((collect Ev.isAccept (events tr)).zip fs)).2

/-- The fates of the compositions that the worker is through with, before those of others. -/
theorem zip_through (done : List ((EinkComposition × List Outcome) × Fate))
    (cs : List EinkComposition) :
    (done.map (Prod.fst ∘ Prod.fst) ++ cs).zip (done.map Prod.snd) = through done := by
  have h := @List.zip_append _ _ (done.map (Prod.fst ∘ Prod.fst)) cs (done.map Prod.snd) []
    (by simp)
  rw [List.append_nil, List.zip_nil_right, List.append_nil] at h
  rw [h, through, List.zip_map']
  rfl

theorem zip_snoc (done : List ((EinkComposition × List Outcome) × Fate)) (c : EinkComposition)
    (os : List Outcome) (cs : List EinkComposition) (f : Fate) :
    (done.map (Prod.fst ∘ Prod.fst) ++ ([(c, os)].map Prod.fst ++ cs)).zip
      (done.map Prod.snd ++ [f]) = through done ++ [(c, f)] := by
  have h := @List.zip_append _ _ (done.map (Prod.fst ∘ Prod.fst)) ([(c, os)].map Prod.fst ++ cs)
    (done.map Prod.snd) [f] (by simp)
  have ht := zip_through done []
  rw [List.append_nil] at ht
  rw [h, ht]
  simp

theorem fates_through {panelColor : Int} {fine : Prop} {tr : List (Ev ⊕ Outcome)}
    {done : List ((EinkComposition × List Outcome) × Fate)}
    {now : List (EinkComposition × List Outcome)} (hd : taken tr = done.map Prod.fst ++ now)
    (hfates : ∀ x ∈ done, x.1.1.fate panelColor x.1.2 = some x.2 ∧ (fine → x.2.fine = true)) :
    fates panelColor tr = (done.map Prod.snd).map some ++
      now.map fun x => x.1.fate panelColor x.2 := by
  rw [fates, hd, List.map_append, List.map_map, List.map_map]
  exact congrArg (· ++ _) (List.map_congr_left fun x hx => (hfates x hx).1)

/-- Before `EBC_SEND_BUFFER` the composition in hand waits to be sent. -/
theorem Halfway.length {fine : Prop} {out before : List (Int × Picture)} {p : Screen}
    {now : List (EinkComposition × List Outcome)} (hh : Halfway fine s out now p before)
    (hget : ∀ k, s.cur = some k → k.pc ≠ .get) :
    now.length + s.ho.inFlight.length = s.unsent.length := by
  cases hc : s.cur with
  | none => rw [hh.idle (by rw [St.serving, hc]), unsent_none hc, List.length_nil, Nat.zero_add]
  | some k =>
    have hone : ∀ r, Told s.panel.panelColor now k.comp r → k.pc.unsent = true →
        now.length + s.ho.inFlight.length = s.unsent.length := by
      rintro r ⟨os, rfl, -⟩ hu
      rw [unsent_some hc hu]
      exact Nat.add_comm ..
    cases hp : k.pc with
    | get => exact absurd hp (hget k hc)
    | finish =>
      rw [hh.idle (by simp [St.serving, hc, hp]), unsent_past hc (by rw [hp]; rfl),
        List.length_nil, Nat.zero_add]
    | send =>
      obtain ⟨-, wrote, -, -, ht⟩ := hh.send k hc hp
      exact hone _ ht (by rw [hp]; rfl)
    | outbuf | layers | rga | convert =>
      exact hone _ (hh.early k hc (by simp [hp]) (by simp [hp]) (by simp [hp])) (by rw [hp]; rfl)

/-- What the worker has done so far, read as fates. -/
theorem Rendered.decide {fine : Prop} {tr : List (Ev ⊕ Outcome)} (hi : Rendered fine tr s)
    (hacc : collect Ev.isAccept (events tr) = (taken tr).map Prod.fst ++ s.ho.inFlight) :
    ∃ fs rest, Renders tr s fs rest ∧ (fine → ∀ f ∈ fs, f.fine = true) := by
  obtain ⟨done, now, hd, hfates, hh⟩ := hi
  rw [hd, List.map_append, List.map_map, List.append_assoc] at hacc
  have hfine : fine → ∀ f ∈ done.map Prod.snd, f.fine = true := by
    intro hx f hf
    obtain ⟨x, hx', rfl⟩ := List.mem_map.1 hf
    exact (hfates x hx').2 hx
  by_cases hget : ∃ k, s.cur = some k ∧ k.pc = .get
  · -- the composition in hand is sent, whatever `EBC_GET_BUFFER` returns
    obtain ⟨k, hc, hp⟩ := hget
    obtain ⟨wrote, m, h2, h3, hm, h1, ht⟩ := hh.get k hc hp
    obtain ⟨now', hd', os', rfl, hr'⟩ := ht.result hd (.ebcGet (some 0))
    obtain ⟨os, rfl, -⟩ := ht
    have hlast : k.comp.fate s.panel.panelColor os' = some (.sent wrote true) := by
      rw [← List.append_nil os', hr']
      rfl
    refine ⟨done.map Prod.snd ++ [.sent wrote true], [.ebcGet (some 0)],
      ⟨?_, ?_, fun hs => ?_, ?_⟩, fun hx f hf => ?_⟩
    · rw [hacc, unsent_past hc (by rw [hp]; rfl)]
      simp only [List.length_append, List.length_map, List.length_cons, List.length_nil]
      omega
    · refine (congrArg (List.take _) (fates_through hd' hfates)).trans ?_
      rw [List.map_singleton, hlast, List.map_append, List.map_singleton]
      exact List.take_of_length_le (by simp)
    · have := serving_finish hs hc
      rw [hp] at this
      cases this
    · rw [hacc, zip_snoc, serveAll_snoc, h1, h3]
      simp only [Screen.serve, hm]
    · rcases List.mem_append.1 hf with hf | hf
      · exact hfine hx f hf
      · rw [List.mem_singleton.1 hf]
        exact h2 hx
  · have hnow := hh.length fun k hc hp => hget ⟨k, hc, hp⟩
    have hout : sends (events tr) =
        (({} : Screen).serveAll s.panel.panelColor (through done)).2 := by
      by_cases hsend : ∃ k, s.cur = some k ∧ k.pc = .send
      · obtain ⟨k, hc, hp⟩ := hsend
        exact (hh.send k hc hp).1
      · exact (hh.other fun k hc => ⟨fun hp => hsend ⟨k, hc, hp⟩, fun hp => hget ⟨k, hc, hp⟩⟩).1
    refine ⟨done.map Prod.snd, [], ⟨?_, ?_, fun _ => rfl, ?_⟩, hfine⟩
    · rw [hacc, ← hnow]
      simp only [List.length_append, List.length_map]
    · refine (congrArg (List.take _) (fates_through hd hfates)).trans ?_
      exact List.take_left' (by simp)
    · rw [hacc, zip_through]
      exact hout

/-- **The worker refines the program.** In every run, whatever fails, the worker has sent what the
program sends for the compositions accepted, each with the fate that the results of its own calls
decide; where nothing fails, each one is sent as it should be. -/
theorem renders {tr : List (Ev ⊕ Outcome)} (hr : resultSystem.Run ok tr s) :
    ∃ fs rest, Renders tr s fs rest ∧
      ((∀ s a, ok s a → succeeds s a) → ∀ f ∈ fs, f.fine = true) :=
  (rendered_run hr).decide (taken_run hr)

/-- Without failures, the worker has sent the first `n` frames accepted. -/
theorem shown_run (hr : Run succeeds tr s) : ∃ n,
    n + s.unsent.length = (collect Ev.isAccept tr).length ∧
    sends tr = shows s.panel.panelColor epdPartGc16
      (((collect Ev.isAccept tr).map EinkComposition.frame).take n) := by
  obtain ⟨tr', hr', rfl⟩ := @System.Run.logged _ _ _ system succeeds _ Act.result _ _ hr
  obtain ⟨fates, -, ⟨hl, -, -, hs⟩, hfine⟩ := (rendered_run hr').decide (taken_run hr')
  rw [show List.filterMap Sum.getLeft? tr' = events tr' from rfl] at hr ⊢
  have hf := hfine fun _ _ h => h
  have hmode := accepted_mode hr
  generalize collect Ev.isAccept (events tr') = cs at hl hs hmode ⊢
  have hle : fates.length ≤ cs.length := by omega
  have hfst : (cs.zip fates).map (·.1) = cs.take fates.length := by
    rw [List.zip_eq_zip_take_min, Nat.min_eq_right hle, List.take_length]
    refine List.map_fst_zip ?_
    rw [List.length_take]
    exact Nat.min_le_left ..
  have hz : ∀ x ∈ cs.zip fates, x.2.fine = true ∧ x.1.einkMode ≠ epdSuspend := fun x hx =>
    ⟨hf _ (List.of_mem_zip hx).2, hmode _ (List.of_mem_zip hx).1⟩
  refine ⟨fates.length, hl, ?_⟩
  rw [hs, serveAll_fine hz, ← List.map_take, ← hfst, List.map_map]
  rfl

theorem shows_take_prefix (panelColor last : Int) (fs : List (BufferHandle × Int)) (n : Nat) :
    shows panelColor last (fs.take n) <+: shows panelColor last fs := by
  obtain ⟨last', h⟩ := @shows_append panelColor last (fs.take n) (fs.drop n)
  rw [List.take_append_drop] at h
  rw [h]
  exact List.prefix_append ..

/-- Without failures, each frame accepted is sent or still on its way. -/
theorem length_sends (hr : Run succeeds tr s) :
    (sends tr).length + s.unsent.length = (collect Ev.isAccept tr).length := by
  obtain ⟨n, hn, hs⟩ := shown_run hr
  rw [hs, length_shows, List.length_take, List.length_map]
  · omega
  · intro x hx
    obtain ⟨c, hc, rfl⟩ := List.mem_map.1 (List.mem_of_mem_take hx)
    exact accepted_mode hr c hc

/-- **Without failures**, the worker has sent the frames accepted, in order: each one's own picture,
with the mode of the frame, or what `A2Commit` makes of it; all of them but those still on their
way. -/
theorem renders_all (hr : Run succeeds tr s) :
    sends tr <+: shows s.panel.panelColor epdPartGc16
        ((collect Ev.isAccept tr).map EinkComposition.frame) ∧
      (sends tr).length + s.unsent.length = (collect Ev.isAccept tr).length := by
  obtain ⟨n, hn, hs⟩ := shown_run hr
  exact ⟨hs ▸ shows_take_prefix .., length_sends hr⟩

/-- `renders_all` for two frames, of which the second waits in the queue. -/
theorem renders_all_two : ∃ tr s, Run succeeds tr s ∧ sends tr = [(epdPartGc16, .frame 1)] ∧
    s.unsent.length = 1 ∧
    sends tr <+: shows s.panel.panelColor epdPartGc16
        ((collect Ev.isAccept tr).map EinkComposition.frame) ∧
    (sends tr).length + s.unsent.length = (collect Ev.isAccept tr).length := by
  obtain ⟨tr, s, hr, hp⟩ := System.exists_run system succeeds ⟨⟨8, 8, 0⟩, 0, rfl, rfl⟩
    (frameActs { handle := 1 } ++ popActs ++ frameActs { handle := 2 } ++ sendActs 1)
    (fun tr s => sends tr == [(epdPartGc16, .frame 1)] && s.unsent.length == 1) (by decide +kernel)
  simp only [Bool.and_eq_true, beq_iff_eq] at hp
  exact ⟨tr, s, hr, hp.1, hp.2, renders_all hr⟩

/-- `renders` where the first of two frames is given up, on a fence: only the second one is sent. -/
theorem renders_drop : ∃ tr s, resultSystem.Run System.any tr s ∧
    sends (events tr) = [(epdPartGc16, .frame 2)] ∧
    fates s.panel.panelColor tr = [some .givenUp, some (.sent true true)] ∧
    ∃ fs rest, Renders tr s fs rest ∧
      ((∀ s a, System.any s a → succeeds s a) → ∀ f ∈ fs, f.fine = true) := by
  obtain ⟨tr, s, hr, hp⟩ := System.exists_run resultSystem System.any
    ⟨[.get 0], ⟨⟨8, 8, 0⟩, 0, rfl, rfl⟩, rfl⟩
    (frameActs { handle := 1, acquireFenceFd := 5 } ++ popActs ++ dropActs ++
      frameActs { handle := 2 } ++ popActs ++ sendActs 1)
    (fun tr s => sends (events tr) == [(epdPartGc16, .frame 2)] &&
      fates s.panel.panelColor tr == [some .givenUp, some (.sent true true)]) (by decide +kernel)
  simp only [Bool.and_eq_true, beq_iff_eq] at hp
  exact ⟨tr, s, hr, hp.1, hp.2, renders hr⟩

/-- On a grey panel the first of two frames in `EPD_A2` is sent as `EPD_FORCE_FULL`. -/
example : shows 0 epdPartGc16 [(1, epdA2), (2, epdA2), (3, epdPartGc16), (4, epdA2)] =
    [(epdForceFull, .frame 1), (epdA2, .frame 2), (epdPartGc16, .frame 3),
      (epdForceFull, .frame 4)] := by decide

end EinkHwc
