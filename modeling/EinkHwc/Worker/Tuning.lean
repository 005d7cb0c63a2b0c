import EinkHwc.Trace.Cached
import EinkHwc.Worker.SetMode

/-!
# The settings of the driver

After each frame the worker passes three properties on to the driver: `update_fullmode_num`,
`update_diff_percent_num` and `update_waiting_time`. Each of them keeps the value that it passed on
last, passes on only what differs from it, and tries a refused value again with the next frame.

* `Setting`: the three functions as one, `updates_eq`.
* `CallLog`: what the driver accepted. The driver itself is not part of the source.
* `Tuner`: the worker with this log, over any sequence of compositions.
* `settings_follow`: which settings the driver has accepted, and under which ones a frame is sent.
-/

namespace EinkHwc

open Cached

inductive Setting where
  | fullModeNum
  | diffPercent
  | waitNewBufTime
  deriving DecidableEq, Repr

namespace Setting

/-- The static that keeps the value passed on last. -/
def cur (t : Tuned) : Setting → Int
  | fullModeNum => t.currNotFullmodeNum
  | diffPercent => t.prevDiffPercent
  | waitNewBufTime => t.waitNewBufTime

def keep (t : Tuned) (v : Int) : Setting → Tuned
  | fullModeNum => { t with currNotFullmodeNum := v }
  | diffPercent => { t with prevDiffPercent := v }
  | waitNewBufTime => { t with waitNewBufTime := v }

def request (v : Int) : Setting → Call
  | fullModeNum => .setFullModeNum v
  | diffPercent => .setDiffPercent v
  | waitNewBufTime => .waitNewBufTime v

/-- The property, and the result of its `ioctl`. -/
def tuning (a : Answers) : Setting → Tuning
  | fullModeNum => a.fullmodeCnt
  | diffPercent => a.diffPercent
  | waitNewBufTime => a.waitingTime

/-- The function that passes the property on. -/
def update (a : Answers) (σ : Setting) : Op := fun s =>
  tune (fun v => σ.request v) (σ.cur s.tuned) (fun v => σ.keep s.tuned v) (σ.tuning a) s

end Setting

theorem updates_eq (a : Answers) : updates a = ((Setting.fullModeNum.update a).seq
    (Setting.diffPercent.update a)).seq (Setting.waitNewBufTime.update a) := rfl

/-! ## The calls that the driver accepts -/

/-- A log of the calls that the driver accepted: the value of each setting, and the buffers sent to
it, each with the settings that it was sent under. -/
structure CallLog where
  settings : Setting → Int
  sent : List (EbcBufInfo × (Setting → Int)) := []

/-- The setting that a call is for. -/
def Call.setting : Call → Option (Setting × Int)
  | .setFullModeNum v => some (.fullModeNum, v)
  | .setDiffPercent v => some (.diffPercent, v)
  | .waitNewBufTime v => some (.waitNewBufTime, v)
  | _ => none

/-- A call is logged if it does not fail. -/
def CallLog.call (a : Answers) (d : CallLog) (c : Call) : CallLog :=
  match c.setting with
  | some (σ, v) =>
    if (σ.tuning a).ret = 0 then { d with settings := Function.update d.settings σ v } else d
  | none => match c with
    | .send info ret => if ret = 0 then { d with sent := d.sent ++ [(info, d.settings)] } else d
    | _ => d

/-- The worker and the log of its calls. -/
structure Tuner where
  eink : EinkState
  log : CallLog

/-- A composition. -/
def Tuner.compose (t : Tuner) (x : EinkComposition × Answers) : Tuner :=
  let r := setModeOp (some x.1) x.2 t.eink
  { eink := r.st, log := r.calls.foldl (CallLog.call x.2) t.log }

/-- From `Init` on, with the settings of then. -/
def Tuner.run (eink : EinkState) (settings : Setting → Int)
    (xs : List (EinkComposition × Answers)) : Tuner :=
  xs.foldl Tuner.compose { eink, log := { settings } }

/-! ## One composition -/

section Compose
variable {a : Answers} {s : EinkState} {d : CallLog} {σ τ : Setting}

@[simp] theorem cur_keep (t : Tuned) (v : Int) :
    τ.cur (σ.keep t v) = if τ = σ then v else τ.cur t := by
  cases σ <;> cases τ <;> rfl

/-- The static and the setting accepted last, as a cache. -/
def cacheOf (s : EinkState) (d : CallLog) (σ : Setting) : Cache Int Int :=
  ⟨σ.cur s.tuned, d.settings σ⟩

/-- The property of a composition, and whether the driver accepts it. -/
def offer (σ : Setting) (a : Answers) : Int × Bool := ((σ.tuning a).value, (σ.tuning a).ret == 0)

theorem setting_request (v : Int) : (σ.request v).setting = some (σ, v) := by
  cases σ <;> rfl

/-- One update is a write of its own setting. -/
theorem update_cache : cacheOf (σ.update a s).st ((σ.update a s).calls.foldl (CallLog.call a) d) τ =
      (if τ = σ then (cacheOf s d τ).write id (offer τ a) else cacheOf s d τ) ∧
    ((σ.update a s).calls.foldl (CallLog.call a) d).sent = d.sent := by
  have hcall (v : Int) : d.call a (σ.request v) = if (σ.tuning a).ret = 0
      then { d with settings := Function.update d.settings σ v } else d := by
    unfold CallLog.call
    rw [setting_request]
  unfold Setting.update tune
  by_cases hv : (σ.tuning a).value = σ.cur s.tuned
  · -- Nothing to pass on.
    rw [if_neg (not_not.2 hv)]
    refine ⟨?_, rfl⟩
    by_cases hτ : τ = σ
    · subst hτ
      rw [if_pos rfl]
      exact (if_neg fun h => h.1 hv).symm
    · rw [if_neg hτ]
      rfl
  rw [if_pos hv]
  by_cases hret : (σ.tuning a).ret = 0
  · rw [if_neg (not_not.2 hret)]
    simp only [List.foldl_cons, List.foldl_nil, hcall, if_pos hret, and_true]
    by_cases hτ : τ = σ
    · subst hτ
      rw [if_pos rfl]
      unfold Cache.write offer
      rw [if_pos ⟨hv, by simpa using hret⟩]
      unfold cacheOf
      dsimp only
      rw [cur_keep, if_pos rfl, Function.update_self]
      rfl
    · rw [if_neg hτ]
      unfold cacheOf
      dsimp only
      rw [cur_keep, if_neg hτ, Function.update_of_ne hτ]
  · -- The driver refuses.
    rw [if_pos hret]
    simp only [List.foldl_cons, List.foldl_nil, hcall, if_neg hret, and_true]
    by_cases hτ : τ = σ
    · subst hτ
      rw [if_pos rfl]
      exact (if_neg fun h => hret (by simpa [offer] using h.2)).symm
    · rw [if_neg hτ]

/-- The updates write every setting, and send nothing. -/
theorem updates_cache : cacheOf (updates a s).st ((updates a s).calls.foldl (CallLog.call a) d) τ =
      (cacheOf s d τ).write id (offer τ a) ∧
    ((updates a s).calls.foldl (CallLog.call a) d).sent = d.sent := by
  rw [updates_eq, seq_calls, seq_calls, seq_st, seq_st, List.foldl_append, List.foldl_append]
  obtain ⟨h1, hs1⟩ := @update_cache a s d .fullModeNum τ
  obtain ⟨h2, hs2⟩ := @update_cache a _ _ .diffPercent τ
  obtain ⟨h3, hs3⟩ := @update_cache a _ _ .waitNewBufTime τ
  rw [h3, hs3, h2, hs2, h1, hs1]
  refine ⟨?_, rfl⟩
  cases τ <;> rfl

/-! ### Which requests are made -/

theorem mem_update {c : Call} : c ∈ (σ.update a s).calls ↔
    c = σ.request (σ.tuning a).value ∧ (σ.tuning a).value ≠ σ.cur s.tuned := by
  unfold Setting.update tune
  by_cases hv : (σ.tuning a).value = σ.cur s.tuned
  · rw [if_neg (not_not.2 hv)]
    simp [hv]
  · rw [if_pos hv]
    split <;> simp [hv]

theorem update_cur (h : τ ≠ σ) : τ.cur (σ.update a s).st.tuned = τ.cur s.tuned := by
  have hcache := (@update_cache a s { settings := fun _ => 0 } σ τ).1
  rw [if_neg h] at hcache
  exact congrArg Cache.cur hcache

theorem request_inj {u v : Int} : σ.request v = τ.request u ↔ σ = τ ∧ v = u := by
  constructor
  · intro h
    have hsetting := congrArg Call.setting h
    rw [setting_request, setting_request] at hsetting
    simpa using hsetting
  · rintro ⟨rfl, rfl⟩
    rfl

/-- A property is passed on if it differs from the value passed on last. -/
theorem mem_updates {v : Int} : σ.request v ∈ (updates a s).calls ↔
    v = (σ.tuning a).value ∧ v ≠ σ.cur s.tuned := by
  have hcur {u : EinkState} {τ' : Setting} (h : σ ≠ τ') :
      σ.cur (τ'.update a u).st.tuned = σ.cur u.tuned := update_cur h
  rw [updates_eq, seq_calls, seq_calls, seq_st, List.mem_append, List.mem_append, mem_update,
    mem_update, mem_update, request_inj, request_inj, request_inj]
  constructor
  · rintro ((⟨⟨rfl, rfl⟩, hne⟩ | ⟨⟨rfl, rfl⟩, hne⟩) | ⟨⟨rfl, rfl⟩, hne⟩)
    · exact ⟨rfl, hne⟩
    · rw [hcur (by decide)] at hne
      exact ⟨rfl, hne⟩
    · rw [hcur (by decide), hcur (by decide)] at hne
      exact ⟨rfl, hne⟩
  · rintro ⟨rfl, hne⟩
    cases σ with
    | fullModeNum => exact .inl (.inl ⟨⟨rfl, rfl⟩, hne⟩)
    | diffPercent => exact .inl (.inr ⟨⟨rfl, rfl⟩, by rw [hcur (by decide)]; exact hne⟩)
    | waitNewBufTime =>
      refine .inr ⟨⟨rfl, rfl⟩, ?_⟩
      rw [hcur (by decide), hcur (by decide)]
      exact hne

/-- The buffers that the calls send. -/
def sentInfo : Call → Option EbcBufInfo
  | .send info ret => if ret = 0 then some info else none
  | _ => none

/-- Calls of a frame leave the settings alone. -/
theorem foldl_frame {cs : List Call} (h : ∀ c ∈ cs, c.setting = none) :
    cs.foldl (CallLog.call a) d = ⟨d.settings, d.sent ++
      (cs.filterMap sentInfo).map fun info => (info, d.settings)⟩ := by
  induction cs using List.reverseRecOn with
  | nil => simp
  | append_singleton cs c ih =>
    rw [List.foldl_append, ih fun c' hc' => h c' (List.mem_append_left _ hc'), List.foldl_cons,
      List.foldl_nil, List.filterMap_append, List.map_append, ← List.append_assoc]
    have hc := h c (List.mem_append_right _ (List.mem_singleton_self c))
    unfold CallLog.call
    rw [hc]
    cases c with
    | send info ret =>
      by_cases hret : ret = 0
      · simp [sentInfo, hret]
      · simp [sentInfo, hret]
    | write | get => simp [sentInfo]
    | setFullModeNum | setDiffPercent | waitNewBufTime => cases hc

theorem postEinkOp_tuned (mode : Int) : (postEinkOp mode a s).st.tuned = s.tuned := by
  unfold postEinkOp
  split
  · rfl
  · split <;> rfl

/-- A frame does not touch the settings. -/
theorem caseOp_frame (m : Option (Converter × Commit)) :
    (caseOp a m s).st.tuned = s.tuned ∧ ∀ c ∈ (caseOp a m s).calls, c.setting = none := by
  cases m with
  | none => exact ⟨rfl, fun c hc => (by cases hc)⟩
  | some m =>
    obtain ⟨c, m⟩ := m
    refine ⟨postEinkOp_tuned _, fun x hx => ?_⟩
    obtain ⟨cs, hcs, hget⟩ := caseOp_calls a s c m
    rw [hcs] at hx
    rcases List.mem_append.1 hx with hx | hx
    · unfold Converter.op at hx
      dsimp only at hx
      split at hx
      · obtain rfl := List.mem_singleton.1 hx
        rfl
      · cases hx
    · rcases List.mem_cons.1 hx with rfl | hx
      · rfl
      · obtain ⟨o, rfl⟩ := hget x hx
        rfl

theorem updates_sentInfo : (updates a s).calls.filterMap sentInfo = [] := by
  refine List.filterMap_eq_nil_iff.2 fun c hc => ?_
  have htuning := updates_calls a s c hc
  cases c with
  | write | send | get => cases htuning
  | setFullModeNum | setDiffPercent | waitNewBufTime => rfl

/-- A composition: the frame is sent under the settings so far, and then the properties are offered
to the driver. -/
theorem compose_cache (t : Tuner) (x : EinkComposition × Answers) :
    cacheOf (t.compose x).eink (t.compose x).log τ =
      (cacheOf t.eink t.log τ).write id (offer τ x.2) ∧
    (t.compose x).log.sent = t.log.sent ++
      ((setModeOp (some x.1) x.2 t.eink).calls.filterMap sentInfo).map
        fun info => (info, t.log.settings) := by
  obtain ⟨b, hb⟩ := setModeOp_some x.1 x.2 t.eink
  unfold Tuner.compose
  dsimp only
  rw [hb, andReturn_st, andReturn_calls, seq_st, seq_calls, List.foldl_append,
    List.filterMap_append, updates_sentInfo, List.append_nil]
  obtain ⟨htuned, hframe⟩ := caseOp_frame (a := x.2) (s := { t.eink with lastRegal := b })
    (setMode t.eink.panel.panelColor x.1.einkMode)
  obtain ⟨hcache, hsent⟩ := @updates_cache x.2 (caseOp x.2
    (setMode t.eink.panel.panelColor x.1.einkMode) { t.eink with lastRegal := b }).st
    ((caseOp x.2 (setMode t.eink.panel.panelColor x.1.einkMode)
      { t.eink with lastRegal := b }).calls.foldl (CallLog.call x.2) t.log) τ
  rw [hcache, hsent, foldl_frame hframe]
  refine ⟨?_, rfl⟩
  unfold cacheOf
  rw [htuned]

theorem mem_compose (c : EinkComposition) {v : Int} :
    σ.request v ∈ (setModeOp (some c) a s).calls ↔ v = (σ.tuning a).value ∧ v ≠ σ.cur s.tuned := by
  obtain ⟨b, hb⟩ := setModeOp_some c a s
  obtain ⟨htuned, hframe⟩ := caseOp_frame (a := a) (s := { s with lastRegal := b })
    (setMode s.panel.panelColor c.einkMode)
  rw [hb, andReturn_calls, seq_calls, List.mem_append, mem_updates, htuned]
  refine ⟨fun h => h.resolve_left fun hmem => ?_, .inr⟩
  have hnone := hframe _ hmem
  rw [setting_request] at hnone
  cases hnone

end Compose

/-! ## Runs -/

section Runs
variable {eink : EinkState} {settings : Setting → Int} {xs : List (EinkComposition × Answers)}

/-- The setting after the compositions: the last value accepted, once one has been accepted that is
not the initial value of the static. -/
def settingAfter (settings : Setting → Int) (xs : List (EinkComposition × Answers)) (σ : Setting) :
    Int :=
  Cached.value id (σ.cur {}) (settings σ) (xs.map fun x => offer σ x.2)

theorem run_concat_tuner (x : EinkComposition × Answers) :
    Tuner.run eink settings (xs ++ [x]) = (Tuner.run eink settings xs).compose x :=
  List.foldl_append ..

theorem run_cache (h : eink.tuned = {}) (σ : Setting) :
    cacheOf (Tuner.run eink settings xs).eink (Tuner.run eink settings xs).log σ =
      (xs.map fun x => offer σ x.2).foldl (Cache.write id) ⟨σ.cur {}, settings σ⟩ := by
  induction xs using List.reverseRecOn with
  | nil =>
    show (⟨σ.cur eink.tuned, settings σ⟩ : Cache Int Int) = _
    rw [h]
    rfl
  | append_singleton xs x ih =>
    rw [run_concat_tuner, (compose_cache _ x).1, ih, List.map_append, List.foldl_append]
    rfl

/-- **The settings of the driver**: after any compositions, whatever fails, the log has of each
property the last value that was accepted, once one was accepted that the static does not start
with, and the setting of the start until then. A frame is sent under the properties that were read
with the frames before it. A property is passed on exactly if it is not the last value accepted. -/
theorem settings_follow (eink : EinkState) (h : eink.tuned = {}) (settings : Setting → Int)
    (xs : List (EinkComposition × Answers)) (x : EinkComposition × Answers) :
    (Tuner.run eink settings xs).log.settings = settingAfter settings xs ∧
    (Tuner.run eink settings (xs ++ [x])).log.sent =
      (Tuner.run eink settings xs).log.sent ++
        ((setModeOp (some x.1) x.2 (Tuner.run eink settings xs).eink).calls.filterMap sentInfo).map
          (fun info => (info, settingAfter settings xs)) ∧
    ∀ σ v, Setting.request v σ ∈
        (setModeOp (some x.1) x.2 (Tuner.run eink settings xs).eink).calls ↔
      v = (Setting.tuning x.2 σ).value ∧
        v ≠ Cached.last (Setting.cur {} σ) (xs.map fun x => offer σ x.2) := by
  have hcache (σ : Setting) : cacheOf (Tuner.run eink settings xs).eink
      (Tuner.run eink settings xs).log σ = ⟨Cached.last (σ.cur {}) (xs.map fun x => offer σ x.2),
        settingAfter settings xs σ⟩ := (run_cache h σ).trans foldl_write
  have hsettings : (Tuner.run eink settings xs).log.settings = settingAfter settings xs := by
    funext σ
    exact congrArg Cache.dev (hcache σ)
  refine ⟨hsettings, ?_, fun σ v => ?_⟩
  · rw [run_concat_tuner, (@compose_cache .fullModeNum _ x).2, hsettings]
  · have hcur : σ.cur (Tuner.run eink settings xs).eink.tuned =
        Cached.last (σ.cur {}) (xs.map fun x => offer σ x.2) := congrArg Cache.cur (hcache σ)
    rw [mem_compose, hcur]

/-- The refresh count 500 is refused once and accepted then; the settings were 7 at the start. -/
theorem settings_follow_refused :
    (Tuner.run panel16 (fun _ => 7)
      [({ einkMode := epdPartGc16 },
          { get := some 64, fullmodeCnt := { value := 500, ret := -1 } }),
        ({ einkMode := epdPartGc16 }, { get := some 64 })]).log.settings =
      fun σ => if σ = .fullModeNum then 500 else 7 := by
  refine (settings_follow panel16 rfl (fun _ => 7) _ ({ einkMode := epdPartGc16 },
    { get := some 64 })).1.trans ?_
  funext σ
  cases σ <;> decide

end Runs

end EinkHwc
