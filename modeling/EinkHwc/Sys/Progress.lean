import EinkHwc.Sys.Prepare
import EinkHwc.Sys.Fences
import EinkHwc.Worker.Progress
import Mathlib.Algebra.GroupWithZero.Nat

/-!
# The system gets done

What the HAL thread and the worker thread do on their own (`Act.own`): no new call of `hwc_set` or
`hwc_set_power_mode`, and no wake-up without a signal. The calls that the threads make may succeed
or fail, in any pattern.

- **It stops** (`rank_step`). The HAL thread has only so many layers and pictures left
  (`St.halLeft`); between two steps of its loops the hand-off has a rank of its own, and within one
  place of the hand-off `Compose` has only so many calls left (`St.composeLeft`).
- **Where it stops** (`stuck_done`): `hwc_set` has returned, the queue is empty, and the worker
  waits for the next frame.
- **Together** (`settles`): every frame that `QueueComposite` accepted has been composed or given
  up.
-/

namespace EinkHwc

open Trace

variable {s s' : St} {a : Act} {es tr : List Ev} {n : Nat} {ok : St → Act → Prop}

/-- The steps that the two threads make on their own. -/
def Act.own : Act → Prop
  | .hwcSet .. | .hwcSetPowerMode .. | .prodWake | .workWake => False
  | _ => True

instance : DecidablePred Act.own := fun a => by
  cases a <;> unfold Act.own <;> infer_instance

/-- The lists are as `hwc_prepare` left them; the wait of `QueueComposite` ends only with a signal,
and the worker's does not end without one while `QueueComposite` is awake. -/
def waitsSignalled (s : St) (a : Act) : Prop :=
  prepared s a ∧ a ≠ .prodWake ∧ (a = .workWake → s.ho.prod.awake = false)

instance (s : St) (a : Act) : Decidable (waitsSignalled s a) :=
  inferInstanceAs (Decidable (_ ∧ _ ∧ (_ → _)))

theorem own_waitsSignalled (s : St) (a : Act) (h : a.own) : waitsSignalled s a := by
  cases a <;> first | exact h.elim | exact ⟨⟨[], rfl⟩, by simp, by simp⟩

/-! ## The hand-off of a run -/

/-- A step of the hand-off that changes nothing emits nothing. -/
theorem handoff_step_self {α : Type} {s : Handoff α} {a : Handoff.Act α} {es : List (Handoff.Ev α)}
    (h : s.step a = some (s, es)) : es = [] := by
  cases Handoff.step_effect h with
  | silent | call => rfl
  | push c _ h0 h1 => rw [h0] at h1; cases h1
  | compose c hf | lost c r _ _ hf =>
    have := congrArg List.length hf
    simp at this

/-- The step of the hand-off in a step of the system. -/
theorem step_ho_act (h : step s a = some (s', es)) :
    (s'.ho = s.ho ∧ es.filterMap Ev.toHo = []) ∨
      ∃ b, (a.handoff = some b ∨ b = .composed ∨ ∃ c, b = .call c) ∧
        s.ho.step b = some (s'.ho, es.filterMap Ev.toHo) := by
  cases ha : a.handoff with
  | some b =>
    rw [step_handoff ha] at h
    obtain ⟨r, hr, h⟩ := Option.map_eq_some_iff.1 h
    rw [Prod.mk.injEq] at h
    obtain ⟨rfl, rfl⟩ := h
    rw [toHo_ho]
    exact .inr ⟨b, .inl rfl, hr⟩
  | none =>
    have hsame : s'.ho = s.ho → es.filterMap Ev.toHo = [] := by
      intro he
      rcases step_ho h with ⟨-, hes⟩ | ⟨b, -, hb⟩
      · exact hes
      · rw [he] at hb
        exact handoff_step_self hb
    cases localStep_cases ha h
    case moved hb | pushed hb | started hb =>
      rw [ha] at hb
      cases hb
    case newLayer i j k comp dc l fd _ hp _ _ _ _ =>
      refine .inr ⟨.call (fillComposition l comp s), .inr (.inr ⟨_, rfl⟩), ?_⟩
      rw [← toHo_core]
      simp [Handoff.step, hp, queueLayer, Ev.isFd, Ev.toHo]
    case dropped k ret _ _ _ hw | finished k ret _ _ _ hw | finishedInc k _ _ _ hw =>
      refine .inr ⟨.composed, .inr (.inl rfl), ?_⟩
      rw [← toHo_core]
      simp [Handoff.step, hw, Ev.isFd, Ev.toHo]
    all_goals exact .inl ⟨rfl, hsame rfl⟩

/-- The hand-off's part of a run is a run whose waits end as `Handoff.signalled` says. -/
theorem run_handoff_signalled (hr : Run waitsSignalled tr s) :
    (Handoff.system EinkComposition).Run Handoff.signalled (tr.filterMap Ev.toHo) s.ho := by
  refine System.Run.project (J := fun _ _ => True) St.ho Ev.toHo (fun _ _ _ => trivial) ?_ ?_ hr
  · rintro s tr ⟨panel, b, rfl, rfl⟩
    exact ⟨rfl, rfl⟩
  · intro s a s' es tr _ hok h
    rcases step_ho_act h with he | ⟨b, hb, hs⟩
    · exact .inl he
    · refine .inr ⟨b, ?_, hs⟩
      obtain ⟨-, hpw, hww⟩ := hok
      rcases hb with hb | rfl | ⟨c, rfl⟩
      · cases a with
        | prodWake => exact absurd rfl hpw
        | workWake =>
          obtain rfl := Option.some.inj hb
          exact ⟨⟨by simp, by simp⟩, by simp, fun _ => hww rfl⟩
        | prod | work =>
          obtain rfl := Option.some.inj hb
          exact ⟨⟨by simp, by simp⟩, by simp, by simp⟩
        | _ => cases hb
      all_goals exact ⟨⟨by simp, by simp⟩, by simp, by simp⟩

/-! ## What the HAL thread has left -/

/-- The number of layers of each display. -/
def lens (d : Displays) : List Nat :=
  d.map fun dc => ((dc.map DisplayContents.hwLayers).getD []).length

/-- The steps of all loops for a display with `n` layers, none of them reached. -/
def displayCost (n : Nat) : Nat := n * (n + 3)

/-- The steps that `hwc_set` has left at layer `j` of display `i`. -/
def setLeft (ns : List Nat) (i j : Nat) : Nat :=
  (ns.getD i 0 - j) * (ns.getD i 0 + 3) + (ns.length - i) +
    ((ns.drop (i + 1)).map displayCost).sum + 1

/-- The steps that the HAL thread has left outside the hand-off. -/
def St.halLeft (s : St) : Nat :=
  match s.hal with
  | .idle => 0
  | .posts ps => ps.length
  | .set i j => setLeft (lens s.disp) i j
  | .queue i j k _ => ((lens s.disp).getD i 0 - k) + 1 + setLeft (lens s.disp) i (j + 1)

theorem lens_getD (d : Displays) (i : Nat) : (lens d).getD i 0 = (layersOf d i).length := by
  unfold lens layersOf
  rw [List.getD_eq_getElem?_getD, List.getElem?_map]
  cases d[i]? with
  | none => rfl
  | some dc => cases dc <;> rfl

/-- The loops change no number of layers. -/
theorem lens_set {d : Displays} {i : Nat} {dc dc' : DisplayContents}
    (hd : d[i]? = some (some dc)) (hl : dc'.hwLayers.length = dc.hwLayers.length) :
    lens (d.set i (some dc')) = lens d := by
  obtain ⟨hi, hg⟩ := List.getElem?_eq_some_iff.1 hd
  refine List.ext_getElem (by simp [lens]) fun n h₁ h₂ => ?_
  simp only [lens, List.map_set, List.getElem_set, List.getElem_map, Option.map_some,
    Option.getD_some, hl]
  split
  · subst n
    rw [hg]
    rfl
  · rfl

theorem setLeft_layer {ns : List Nat} {i j : Nat} (hj : j < ns.getD i 0) :
    setLeft ns i (j + 1) + (ns.getD i 0 + 3) = setLeft ns i j := by
  unfold setLeft
  generalize ns.getD i 0 = n at hj ⊢
  obtain ⟨m, hm⟩ : ∃ m, n - j = m + 1 := ⟨n - j - 1, by omega⟩
  rw [hm, show n - (j + 1) = m by omega, Nat.succ_mul]
  omega

theorem setLeft_display {ns : List Nat} {i j : Nat} (hi : i < ns.length)
    (hj : ns.getD i 0 ≤ j) : setLeft ns (i + 1) 0 < setLeft ns i j := by
  unfold setLeft
  have h0 : ns.getD i 0 - j = 0 := by omega
  rw [h0, Nat.zero_mul, Nat.sub_zero]
  have hsum : ((ns.drop (i + 1)).map displayCost).sum =
      ns.getD (i + 1) 0 * (ns.getD (i + 1) 0 + 3) +
        ((ns.drop (i + 1 + 1)).map displayCost).sum := by
    by_cases hn : i + 1 < ns.length
    · rw [List.drop_eq_getElem_cons hn, List.map_cons, List.sum_cons,
        List.getD_eq_getElem?_getD, List.getElem?_eq_getElem hn]
      rfl
    · rw [List.drop_of_length_le (by omega), List.drop_of_length_le (by omega),
        List.getD_eq_getElem?_getD, List.getElem?_eq_none (by omega)]
      rfl
  rw [hsum]
  omega

/-- A display gone through: the next one counts in full. -/
theorem setLeft_display_of {d : Displays} {i j : Nat} (hi : i < d.length)
    (hl : layerAt d i j = none) : setLeft (lens d) (i + 1) 0 < setLeft (lens d) i j := by
  refine setLeft_display (by simpa [lens] using hi) ?_
  rw [lens_getD]
  exact length_le_of_layerAt hl

theorem halLeft_start (i j : Nat) (dc : DisplayContents) (l : Layer) (fd : Int)
    (hh : s.hal = .set i j) (hd : s.disp[i]? = some (some dc)) (hl : dc.hwLayers[j]? = some l) :
    (queueCompositeStart i j dc fd s).1.halLeft < s.halLeft := by
  have hj : j < (lens s.disp).getD i 0 := by
    rw [lens_getD, layersOf_eq hd]
    exact (List.getElem?_eq_some_iff.1 hl).1
  have h := setLeft_layer hj
  simp only [St.halLeft, hh, queueCompositeStart, lens_set hd]
  omega

theorem halLeft_layer {i j k : Nat} {comp : Option EinkComposition} {dc : DisplayContents}
    {l : Layer} {d : Displays} {comp' : Option EinkComposition} (hh : s.hal = .queue i j k comp)
    (hd : s.disp[i]? = some (some dc)) (hl : dc.hwLayers[k]? = some l)
    (hs : s'.hal = .queue i j (k + 1) comp') (hd' : s'.disp = d) (he : lens d = lens s.disp) :
    s'.halLeft < s.halLeft := by
  have hk : k < (lens s.disp).getD i 0 := by
    rw [lens_getD, layersOf_eq hd]
    exact (List.getElem?_eq_some_iff.1 hl).1
  simp only [St.halLeft, hh, hs, hd', he]
  omega

/-- Each iteration of the HAL thread's loops, and each picture posted, counts. -/
theorem halLeft_step (h : Step s a s' es) (ha : a.own) : s'.halLeft < s.halLeft ∨
    (s'.halLeft = s.halLeft ∧ (a = .prod ∨ a = .work ∨ ∃ o, a = .compose o)) := by
  cases h
  case setOn | setOff | powerOff | doze | powerOn => exact ha.elim
  case posted pic mode ps _ _ hh _ _ | postFailed pic mode ps _ _ hh _ =>
    refine .inl ?_
    simp only [St.halLeft, hh]
    cases ps <;> simp
  case setDone i j fd hh _ _ =>
    refine .inl ?_
    simp only [St.halLeft, hh, setLeft]
    omega
  case nextDisplay i j fd hh _ hi hl =>
    refine .inl ?_
    simp only [St.halLeft, hh]
    exact setLeft_display_of hi hl
  case nextLayer i j l fd hh _ hl _ =>
    refine .inl ?_
    have hj : j < (lens s.disp).getD i 0 := by
      rw [lens_getD]
      exact (List.getElem?_eq_some_iff.1 (layerAt_eq_layersOf ▸ hl)).1
    have h := setLeft_layer hj
    simp only [St.halLeft, hh]
    omega
  case start i j dc l fd hh _ hd hl _ => exact .inl (halLeft_start i j dc l fd hh hd hl)
  case queueDone i j k comp dc fd hh _ _ _ =>
    refine .inl ?_
    simp only [St.halLeft, hh]
    omega
  case otherLayer hh _ hd hl _ | sameLayer hh _ hd hl _ _ =>
    exact .inl (halLeft_layer hh hd hl rfl rfl rfl)
  case newLayer i j k comp dc l fd hh _ hd hl _ _ =>
    exact .inl (halLeft_layer hh hd hl rfl rfl (lens_set hd (by simp)))
  case moved hb | pushed hb | started hb =>
    refine .inr ⟨rfl, ?_⟩
    cases a with
    | prod => exact .inl rfl
    | work => exact .inr (.inl rfl)
    | prodWake | workWake => exact ha.elim
    | _ => cases hb
  all_goals exact .inr ⟨rfl, .inr (.inr ⟨_, rfl⟩)⟩

/-! ## What `Compose` has left -/

/-- The calls that `Compose` has left. -/
def Composing.left (k : Composing) : Nat :=
  match k.pc with
  | .finish => 1
  | .get => 2
  | .send => 3
  | .convert => 4
  | .rga => 5
  | .layers => 6 + k.fences.length
  | .outbuf => 7 + k.fences.length

def St.composeLeft (s : St) : Nat := (s.cur.map Composing.left).getD 0

/-- A fence wait that does not fail. -/
theorem composeLeft_wait {ret : Int} (h : composeStep (.syncWait ret) s = some (s', es)) :
    s'.ho = s.ho → s'.composeLeft < s.composeLeft := by
  unfold composeStep at h
  cases hc : s.cur with
  | none => rw [hc] at h; cases h
  | some k =>
    simp only [hc] at h
    have hend : ∀ es', endCompose s k es' = some (s', es) → s'.ho ≠ s.ho := by
      intro es' he heq
      obtain ⟨hw, rfl, -⟩ := endCompose_eq he
      have := congrArg Handoff.work heq
      rw [hw] at this
      cases this
    cases hp : k.pc <;> simp only [hp] at h
    case outbuf =>
      split at h
      · split at h
        · exact fun heq => absurd heq (hend _ h)
        · obtain ⟨rfl, -⟩ := Prod.mk.injEq .. ▸ Option.some.inj h
          intro _
          simp [St.composeLeft, hc, Composing.left, hp]
      · obtain ⟨rfl, -⟩ := Prod.mk.injEq .. ▸ Option.some.inj h
        intro _
        simp [St.composeLeft, hc, Composing.left, hp]
    case layers =>
      cases hf : k.fences with
      | nil =>
        simp only [hf] at h
        obtain ⟨rfl, -⟩ := Prod.mk.injEq .. ▸ Option.some.inj h
        intro _
        simp only [St.composeLeft, hc, Composing.left, hp, Option.map_some, Option.getD_some]
        omega
      | cons f fs =>
        simp only [hf] at h
        split at h
        · split at h
          · exact fun heq => absurd heq (hend _ h)
          · obtain ⟨rfl, -⟩ := Prod.mk.injEq .. ▸ Option.some.inj h
            intro _
            simp [St.composeLeft, hc, Composing.left, hp, hf]
        · obtain ⟨rfl, -⟩ := Prod.mk.injEq .. ▸ Option.some.inj h
          intro _
          simp [St.composeLeft, hc, Composing.left, hp, hf]
    all_goals cases h

/-- `Compose` returns, or has one call less to make. -/
theorem composeLeft_step {o : Outcome} (h : step s (.compose o) = some (s', es)) :
    s.ho.step .composed = some (s'.ho, []) ∨ (s'.ho = s.ho ∧ s'.composeLeft < s.composeLeft) := by
  have hend : ∀ {t : Handoff EinkComposition}, s.ho.work = .composing →
      t = { s.ho with work := .top } → s.ho.step .composed = some (t, []) := by
    rintro _ hw rfl
    simp only [Handoff.step, hw]
  cases localStep_cases (a := .compose o) rfl h
  case moved hb | pushed hb | started hb => cases hb
  case waited => exact .inr ⟨rfl, composeLeft_wait h rfl⟩
  case dropped hw | finished hw | finishedInc hw => exact .inl (hend hw rfl)
  case ready k hc hp _ | notReady k b hc hp _ | wrote k env m hc hp _ _
    | notWritten k env m hc hp _ _ | sent k m hc hp _ | sendFailed k m ret hc hp _ _
    | got k m b hc hp _ | getFailed k m hc hp _ =>
    exact .inr ⟨rfl, by simp [St.composeLeft, hc, Composing.left, hp]⟩

/-! ## It stops -/

/-- The rank of a state, in lexicographic order (module doc). -/
def St.rank (s : St) : Nat × Nat × Nat := (s.halLeft, s.ho.rank, s.composeLeft)

def rankLt : Nat × Nat × Nat → Nat × Nat × Nat → Prop :=
  Prod.Lex (· < ·) (Prod.Lex (· < ·) (· < ·))

theorem rankLt_wf : WellFounded rankLt :=
  (Prod.lex Nat.lt_wfRel (Prod.lex Nat.lt_wfRel Nat.lt_wfRel)).wf

theorem rankLt_ho {n n' l l' r r' : Nat} (hn : n' = n) (hl : l' < l) :
    rankLt (n', l', r') (n, l, r) := by
  subst hn
  exact .right _ (.left _ _ hl)

theorem rank_step (hl : Linked s) (ha : a.own) (h : step s a = some (s', es)) :
    rankLt s'.rank s.rank := by
  rcases halLeft_step (step_cases hl h) ha with hlt | ⟨hle, rfl | rfl | ⟨o, rfl⟩⟩
  · exact .left _ _ hlt
  · obtain ⟨r, hr, h⟩ := Option.map_eq_some_iff.1 h
    rw [Prod.mk.injEq] at h
    obtain ⟨rfl, rfl⟩ := h
    exact rankLt_ho hle (Handoff.rank_step (a := .prod) hl.safe trivial hr)
  · obtain ⟨r, hr, h⟩ := Option.map_eq_some_iff.1 h
    rw [Prod.mk.injEq] at h
    obtain ⟨rfl, rfl⟩ := h
    exact rankLt_ho hle (Handoff.rank_step (a := .work) hl.safe trivial hr)
  · rcases composeLeft_step h with hs | ⟨he, hlt⟩
    · exact rankLt_ho hle (Handoff.rank_step (a := .composed) hl.safe trivial hs)
    · rw [St.rank, St.rank, hle, he]
      exact .right _ (.right _ hlt)

/-! ## Where it stops -/

/-- Where the two threads are between the calls that they make: the pictures to post, and the
switch that `Compose` has gone through. -/
structure Places (s : St) : Prop where
  posts : ∀ ps, s.hal = .posts ps → ps ≠ []
  mode : ∀ k, s.cur = some k → k.pc = .convert ∨ k.pc = .send ∨ k.pc = .get →
    (setMode s.panel.panelColor k.comp.einkMode).isSome = true

theorem Places.step (hi : Places s) (h : Step s a s' es) : Places s' := by
  obtain ⟨h1, h2⟩ := hi
  cases h
  case powerOff env _ _ =>
    refine ⟨fun ps hp => ?_, h2⟩
    obtain rfl : logoPosts env (EinkHwc.powerModeOff env s.g) = ps := by simpa using hp
    simp [logoPosts]
  case posted pic mode ps _ _ hh _ _ | postFailed pic mode ps _ _ hh _ =>
    refine ⟨fun ps' hp => ?_, h2⟩
    cases ps with
    | nil => cases hp
    | cons q ps =>
      obtain rfl : q :: ps = ps' := by simpa using hp
      exact List.cons_ne_nil _ _
  case setOn | setDone | nextDisplay | nextLayer | start | queueDone | otherLayer | sameLayer
    | newLayer =>
    refine ⟨fun ps hp => ?_, h2⟩
    cases hp
  case started =>
    refine ⟨h1, fun k hk hp => ?_⟩
    obtain rfl := Option.some.inj hk
    simp at hp
  case waited k k' ret hc hp hcomp hp' he =>
    refine ⟨h1, fun k'' hk hp'' => ?_⟩
    obtain rfl := Option.some.inj hk
    rcases hp' with h | h <;> simp [h] at hp''
  case ready k hc hp hm | wrote k env m hc hp hm _ | notWritten k env m hc hp hm _
    | sent k m hc hp hm =>
    refine ⟨h1, fun k' hk _ => ?_⟩
    obtain rfl := Option.some.inj hk
    first | exact hm | exact hm ▸ rfl
  case notReady | sendFailed | got | getFailed =>
    refine ⟨h1, fun k' hk hp => ?_⟩
    obtain rfl := Option.some.inj hk
    simp at hp
  case dropped | finished | finishedInc => exact ⟨h1, fun k hk => (by cases hk)⟩
  all_goals exact ⟨h1, h2⟩

theorem places_run (hr : Run ok tr s) : Places s := by
  refine run_induction (J := fun _ _ => True) (I := fun _ s => Places s) (fun _ _ _ => trivial)
    ?_ ?_ hr
  · intro panel b
    exact ⟨fun ps hp => (by cases hp), fun k hk => (by cases hk)⟩
  · intro s a s' es tr _ hi _ h
    exact hi.step h

/-- `Compose` can always make its next call. -/
theorem Places.compose_isSome (hi : Places s) {k : Composing} (hc : s.cur = some k)
    (hw : s.ho.work = .composing) : ∃ o, (composeStep o s).isSome = true := by
  have hend : ∀ k' es', (endCompose s k' es').isSome = true := fun _ _ => by
    simp only [endCompose, Handoff.step, hw, Option.map_some, Option.isSome_some]
  have hm := hi.mode k hc
  cases hp : k.pc with
  | outbuf =>
    refine ⟨.syncWait 0, ?_⟩
    simp only [composeStep, hc, hp]
    split <;> rfl
  | layers =>
    refine ⟨.syncWait 0, ?_⟩
    simp only [composeStep, hc, hp]
    split
    · rfl
    · split <;> rfl
  | rga =>
    refine ⟨.rkRgaIsReady false, ?_⟩
    simp [composeStep, hc, hp, toFinish]
  | convert =>
    refine ⟨.convert {}, ?_⟩
    simpa only [composeStep, hc, hp, Option.isSome_map] using hm (.inl hp)
  | send =>
    obtain ⟨m, hm⟩ := Option.isSome_iff_exists.1 (hm (.inr (.inl hp)))
    exact ⟨.ebcSend 0, by simp [composeStep, hc, hp, hm]⟩
  | get =>
    obtain ⟨m, hm⟩ := Option.isSome_iff_exists.1 (hm (.inr (.inr hp)))
    exact ⟨.ebcGet none, by simp [composeStep, hc, hp, hm, endCommit, toFinish]⟩
  | finish =>
    refine ⟨.timelineInc 1, ?_⟩
    simp only [composeStep, hc, hp]
    split
    · exact hend ..
    · exact hend ..

theorem step_ho_isSome {b : Handoff.Act EinkComposition} (ha : a.handoff = some b)
    (h : step s a = none) : s.ho.step b = none := by
  rw [step_handoff ha, handoffStep, Option.map_eq_none_iff] at h
  exact h

/-- Where the system is stuck, the hand-off is. -/
theorem stuck_handoff (hl : Linked s) (hpl : Places s) (h : system.Stuck Act.own s) :
    (Handoff.system EinkComposition).Stuck Handoff.own s.ho := by
  refine Handoff.stuck_iff.2 ⟨?_, ?_, fun hw => ?_⟩
  · exact step_ho_isSome (a := .prod) rfl (h .prod trivial)
  · exact step_ho_isSome (a := .work) rfl (h .work trivial)
  · obtain ⟨k, hk⟩ := Option.isSome_iff_exists.1 (hl.composing.1 hw)
    obtain ⟨o, ho⟩ := hpl.compose_isSome hk hw
    rw [show composeStep o s = none from h (.compose o) trivial] at ho
    cases ho

/-- Nothing is left to do. -/
structure Finished (s : St) : Prop where
  hal : s.hal = .idle
  cur : s.cur = none
  ho : s.ho.Quiescent

theorem stuck_done (hr : Run waitsSignalled tr s) (h : system.Stuck Act.own s) : Finished s := by
  have hl := linked_run hr
  have hpl := places_run hr
  have hho := run_handoff_signalled hr
  have hne := hho.mono fun _ _ h => h.1.2
  have hloops := loops_run (hr.mono fun s a h => oneTargets_of_prepared s a h.1)
  rcases Handoff.stuck_cases hl.safe (Handoff.locks_run hne) (Handoff.heard_run hne)
    (stuck_handoff hl hpl h) with hq | hd
  · refine ⟨?_, ?_, hq⟩
    · have hset : s.hal.inSet = true → False := fun hin => by
        have hs := hloops.halStep_isSome hq.prod hin 0
        rw [show halStep 0 s = none from h (.hal 0) trivial] at hs
        cases hs
      cases hh : s.hal with
      | idle => rfl
      | set | queue => exact (hset (by rw [hh]; rfl)).elim
      | posts ps =>
        cases ps with
        | nil => exact absurd rfl (hpl.posts [] hh)
        | cons p ps =>
          have hs : hwcPostEpd 0 0 s = none := h (.hwcPostEpd 0 0) trivial
          simp only [hwcPostEpd, hh, reduceCtorEq] at hs
    · cases hc : s.cur with
      | none => rfl
      | some k =>
        have hw := hl.composing.2 (by rw [hc]; rfl)
        rw [hq.work] at hw
        cases hw
  · exact absurd hd (Handoff.order_run hho).not_deadlock

/-- There the system can only stop. -/
theorem Finished.stuck (h : Finished s) : system.Stuck Act.own s := by
  obtain ⟨hh, hc, hp, hw, -⟩ := h
  intro a ha
  cases a with
  | hwcPostEpd => simp only [system, step, hwcPostEpd, hh]
  | hal => simp only [system, step, halStep, hp, hh]
  | prod =>
    simp only [system, step, handoffStep, Handoff.step, Handoff.prodStep, hp, Option.map_none]
  | work =>
    simp only [system, step, handoffStep, Handoff.step, Handoff.workStep, hw, Option.map_none]
  | compose => simp only [system, step, composeStep, hc]
  | _ => exact ha.elim

theorem Finished.unserved (h : Finished s) : s.unserved = [] := by
  simp only [St.unserved, St.serving, h.cur, h.ho.inFlight, List.append_nil]

theorem own_linked (s : St) (a : Act) (s' : St) (es : List Ev) (hl : Linked s) (_ : a.own)
    (h : step s a = some (s', es)) : Linked s' :=
  hl.step h

/-- **The system gets done.** In a run whose lists are as `hwc_prepare` left them and whose waits
end with a signal, from any state, whatever the calls of the two threads return: the threads stop,
and where they stop `hwc_set` has returned, nothing is queued, the worker waits, and `Compose` is
through with every frame that `QueueComposite` accepted, or gave it up, in order. -/
theorem settles (hr : Run waitsSignalled tr s) : system.Settles Act.own s ∧
    ∀ n es s', system.Path Act.own s n es s' → system.Stuck Act.own s' →
      Finished s' ∧ collect Ev.isAccept (es ++ tr) = collect Ev.isFinish (es ++ tr) := by
  refine ⟨System.settles_of_rank own_linked rankLt_wf
    (fun _ _ _ _ hl ha h => rank_step hl ha h) (linked_run hr), fun n es s' hp hst => ?_⟩
  have hr' := System.Run.path own_waitsSignalled hr hp
  have hd := stuck_done hr' hst
  have h := finished_run hr'
  rw [hd.unserved, List.append_nil] at h
  exact ⟨hd, h⟩

/-- `settles` from a call of `hwc_set` with one frame. -/
theorem settles_frame : ∃ tr s n es s', Run waitsSignalled tr s ∧ s.hal = .set 0 0 ∧
    system.Path Act.own s n es s' ∧ Finished s' ∧
    collect Ev.isAccept (es ++ tr) = collect Ev.isFinish (es ++ tr) := by
  obtain ⟨tr, s, hr, hp⟩ := System.exists_run system waitsSignalled ⟨⟨8, 8, 0⟩, 0, rfl, rfl⟩
    ((frameActs { handle := 1 }).take 1)
    (fun _ s => s.hal == .set 0 0) (by decide +kernel)
  have hset := settles hr
  obtain ⟨n, es, s', hpath, hst⟩ := hset.1.exists_stuck
  obtain ⟨hd, hc⟩ := hset.2 n es s' hpath hst
  exact ⟨tr, s, n, es, s', hr, by simpa using hp, hpath, hd, hc⟩

end EinkHwc
