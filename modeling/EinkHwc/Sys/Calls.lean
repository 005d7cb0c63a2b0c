import EinkHwc.Hal.Logo
import EinkHwc.Hal.SkipCount
import EinkHwc.Sys.Cases
import EinkHwc.Worker.SetMode

/-!
# The steps of the system and the functions of the worker

`Sys.Step` takes the calls of `Compose` and of `hwc_post_epd_logo` one by one. Taken together they
are the functions.

* `exec_setMode`: the steps of `Compose` from its converter on are `SetEinkMode` or
  `SetColorEinkMode`.
* `logoPosts_modes`: the posts of the standby picture are those of `hwc_post_epd_logo`.
* `run_sfVsync`: the calls of `hwc_set` and `hwc_set_power_mode` are calls of
  `hwc_adajust_sf_vsync`, in some order.
-/

namespace EinkHwc

open Trace

/-- The worker's members in both models. -/
structure Agrees (s : St) (e : EinkState) : Prop where
  panel : e.panel = s.panel
  commitBufInfo : e.commitBufInfo = s.commitBufInfo
  gray16Buffer : e.gray16Buffer = s.gray16Buffer
  gLastEpdMode : e.gLastEpdMode = s.gLastEpdMode

/-- The call that an event stands for. -/
def Ev.call : Ev → Option Call
  | .write offset => some (.write offset)
  | .send info _ => some (.send info 0)
  | .get offset => some (.get (some offset))
  | .getFail => some (.get none)
  | _ => none

/-- The calls with an event: neither a tuning nor a send that fails. -/
def Call.hasEv : Call → Bool
  | .send _ ret => ret == 0
  | c => !c.isTuning

/-- A send that fails leaves no trace in the system. -/
theorem filter_send {info : EbcBufInfo} {ret : Int} (h : ret ≠ 0) :
    [Call.send info ret].filter Call.hasEv = [] :=
  List.filter_cons_of_neg (by show ¬ (ret == 0) = true; simpa using h)

theorem filter_updates (a : Answers) (e : EinkState) :
    (updates a e).calls.filter Call.hasEv = [] := by
  refine List.filter_eq_nil_iff.2 fun c hc => ?_
  have htuning := updates_calls a e c hc
  cases c with
  | write | send | get => cases htuning
  | setFullModeNum | setDiffPercent | waitNewBufTime => exact Bool.false_ne_true

/-- The results of `PostEink`'s calls, as outcomes of the steps. -/
def Answers.postOutcomes (a : Answers) : List Outcome :=
  .ebcSend a.send :: if a.send = 0 then [.ebcGet a.get] else []

/-- The results of all calls. -/
def Answers.outcomes (a : Answers) : List Outcome := .convert a.convert :: a.postOutcomes

section Simulation
variable {s : St} {e : EinkState} {k : Composing} {a : Answers} {c : Converter} {m : Commit}
  (h : Agrees s e) (hc : s.cur = some k)
  (hmode : setMode s.panel.panelColor k.comp.einkMode = some (c, m))
include h hc hmode

/-- The step of the converter. -/
theorem exec_convert (hpc : k.pc = .convert) : ∃ s' es, s'.cur = some { k with pc := .send } ∧
    s'.panel = s.panel ∧ Agrees s' e ∧
    es.reverse.filterMap Ev.call = (c.op a e).calls.filter Call.hasEv ∧
    composeStep (.convert a.convert) s = some (s', es) := by
  obtain ⟨panel, info, buffer, last, regal, tuned⟩ := e
  obtain ⟨rfl, rfl, rfl, rfl⟩ := h
  unfold Converter.op
  by_cases hrun : (c.run s.panel.panelColor a.convert).2 = true
  · refine ⟨{ s with gray16Content := .frame k.comp.fbHandle, cur := some { k with pc := .send } },
      [.write s.gray16Buffer], rfl, rfl, ⟨rfl, rfl, rfl, rfl⟩, ?_, ?_⟩
    · simp only [hrun, reduceIte]
      rfl
    · simp only [composeStep, hc, hpc, hmode, hrun, Option.map_some, reduceIte]
  · refine ⟨{ s with cur := some { k with pc := .send } }, [], rfl, rfl, ⟨rfl, rfl, rfl, rfl⟩,
      ?_, ?_⟩
    · simp only [hrun, reduceIte, Bool.false_eq_true]
      rfl
    · simp only [composeStep, hc, hpc, hmode, hrun, Option.map_some, reduceIte, Bool.false_eq_true]

/-- The steps of `PostEink`, at the end of the commit function. -/
theorem exec_commit (hpc : k.pc = .send) : ∃ s' es, s'.cur = some { k with pc := .finish } ∧
    Agrees s' (m.op a e).st ∧
    es.reverse.filterMap Ev.call = (m.op a e).calls.filter Call.hasEv ∧
    ∀ tr, system.exec System.any tr s (a.postOutcomes.map .compose) = some (es ++ tr, s') := by
  obtain ⟨panel, info, buffer, last, regal, tuned⟩ := e
  obtain ⟨rfl, rfl, rfl, rfl⟩ := h
  obtain ⟨info, hinfo⟩ : ∃ info, info =
    postEink s.panel (m.postMode s.gLastEpdMode) s.commitBufInfo := ⟨_, rfl⟩
  unfold Answers.postOutcomes Commit.op postEinkOp
  simp only [← hinfo]
  by_cases hsend : a.send = 0
  · simp only [hsend, ne_eq, not_true_eq_false, reduceIte]
    cases a.get with
    | none =>
      refine ⟨{ s with commitBufInfo := info, gLastEpdMode := m.lastMode
                       cur := some { k with pc := .finish } },
        [.served k.comp, .getFail, .send info s.gray16Content], rfl, ⟨rfl, rfl, rfl, rfl⟩, rfl,
        fun tr => ?_⟩
      simp [System.exec, System.any, system, step, composeStep, hc, hpc, hmode, endCommit, toFinish,
        ← hinfo]
    | some b =>
      refine ⟨{ s with commitBufInfo := { info with offset := b }, gray16Buffer := b
                       gray16Content := .stale, gLastEpdMode := m.lastMode
                       cur := some { k with pc := .finish } },
        [.served k.comp, .get b, .send info s.gray16Content], rfl, ⟨rfl, rfl, rfl, rfl⟩, rfl,
        fun tr => ?_⟩
      simp [System.exec, System.any, system, step, composeStep, hc, hpc, hmode, endCommit, toFinish,
        ← hinfo]
  · simp only [hsend, ne_eq, not_false_eq_true, reduceIte]
    refine ⟨{ s with commitBufInfo := info, gLastEpdMode := m.lastMode
                     cur := some { k with pc := .finish } },
      [.served k.comp], rfl, ⟨rfl, rfl, rfl, rfl⟩, (filter_send hsend).symm, fun tr => ?_⟩
    simp [System.exec, System.any, system, step, composeStep, hc, hpc, hmode, hsend, endCommit,
      toFinish, ← hinfo]

end Simulation

/-- The steps from the converter on are the call of `SetEinkMode` or `SetColorEinkMode`. -/
theorem exec_setMode {s : St} {e : EinkState} {k : Composing} {a : Answers} (h : Agrees s e)
    (hc : s.cur = some k) (hpc : k.pc = .convert) (hm : k.comp.einkMode ≠ epdSuspend) :
    ∃ tr s', system.exec System.any [] s (a.outcomes.map .compose) = some (tr, s') ∧
      s'.cur = some { k with pc := .finish } ∧ Agrees s' (setModeOp (some k.comp) a e).st ∧
      tr.reverse.filterMap Ev.call =
        (setModeOp (some k.comp) a e).calls.filter Call.hasEv := by
  have hsome : (setMode s.panel.panelColor k.comp.einkMode).isSome = true := setMode_isSome hm
  obtain ⟨⟨c, m⟩, hmode⟩ := Option.isSome_iff_exists.1 hsome
  obtain ⟨r, hr⟩ := setModeOp_some k.comp a e
  have hmode' : setMode e.panel.panelColor k.comp.einkMode = some (c, m) := by
    rw [h.panel]
    exact hmode
  rw [hr, hmode']
  have hregal : Agrees s { e with lastRegal := r } :=
    ⟨h.panel, h.commitBufInfo, h.gray16Buffer, h.gLastEpdMode⟩
  obtain ⟨s₁, es₁, hc₁, hpanel, h₁, hcalls₁, hstep⟩ := exec_convert (a := a) hregal hc hmode hpc
  obtain ⟨s₂, es₂, hc₂, h₂, hcalls₂, hexec⟩ :=
    exec_commit (a := a) h₁ hc₁ (by rw [hpanel]; exact hmode) rfl
  have hst := updates_st a (caseOp a (some (c, m)) { e with lastRegal := r }).st
  have htunings := filter_updates a (caseOp a (some (c, m)) { e with lastRegal := r }).st
  refine ⟨es₂ ++ es₁, s₂, ?_, hc₂, ?_, ?_⟩
  · have hs : system.step s (.compose (.convert a.convert)) = some (s₁, es₁) := hstep
    simp only [Answers.outcomes, List.map_cons, System.exec, System.any, reduceIte, hs,
      List.append_nil]
    exact hexec es₁
  · obtain ⟨u, hu⟩ := hst
    rw [andReturn_st, seq_st, hu]
    exact ⟨h₂.panel, h₂.commitBufInfo, h₂.gray16Buffer, h₂.gLastEpdMode⟩
  · rw [andReturn_calls, seq_calls, List.filter_append, htunings, List.append_nil,
      List.reverse_append, List.filterMap_append, hcalls₁, hcalls₂, ← List.filter_append]
    rfl

/-- The modes of the frames that `hwc_post_epd_logo` posts. -/
theorem logoPosts_modes (ext : Externals) (env : LogoEnv) (power : PowerEnv) (g : Globals)
    (hwhite : env.needWhite = power.needWhite) (hpower : env.gPowerMode = g.gPowerMode) :
    (hwcPostEpdLogo ext env).map Prod.snd = (logoPosts power g).map Prod.snd := by
  unfold hwcPostEpdLogo logoPosts
  rw [hwhite, hpower]
  cases power.needWhite <;> rfl

/-! ## `hwc_adajust_sf_vsync` -/

@[simp] theorem hwcHandleEinkMode_sfVsync (mode oneFull : Int) (g : Globals) :
    (hwcHandleEinkMode mode oneFull g).sfVsync = g.sfVsync := by
  unfold hwcHandleEinkMode
  split_ifs <;> rfl

/-- A step makes one call at most. -/
theorem step_sfVsync {s s' : St} {a : Act} {es : List Ev} (h : Step s a s' es) :
    s'.g.sfVsync = s.g.sfVsync ∨ ∃ mode, s'.g.sfVsync = hwcAdajustSfVsync mode s.g.sfVsync := by
  cases h with
  | setOn mode | setOff mode => exact .inr ⟨mode, rfl⟩
  | powerOff env =>
    unfold powerModeOff
    by_cases hs : env.shutdown = 1
    · exact .inl (by simp [hs])
    · exact .inr ⟨epdSuspend, by simp [hs]⟩
  | powerOn => exact .inr ⟨epdResume, rfl⟩
  | _ => exact .inl rfl

/-- The statics of `hwc_adajust_sf_vsync` in any run. -/
theorem run_sfVsync {ok : St → Act → Prop} {tr : List Ev} {s : St} (hr : Run ok tr s) :
    ∃ modes, s.g.sfVsync = sfVsyncCalls modes := by
  refine run_induction (J := fun _ _ => True) (I := fun _ s => ∃ modes, s.g.sfVsync =
    sfVsyncCalls modes) (fun _ _ _ => trivial) (fun panel b => ⟨[], rfl⟩) ?_ hr
  rintro s a s' es tr - ⟨modes, hs⟩ - h
  rcases step_sfVsync h with he | ⟨mode, he⟩
  · exact ⟨modes, he.trans hs⟩
  · exact ⟨modes ++ [mode], by rw [sfVsyncCalls_concat, ← hs, he]⟩

end EinkHwc
