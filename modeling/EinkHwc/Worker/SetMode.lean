import EinkHwc.Worker.Commit

/-!
# `SetEinkMode` and `SetColorEinkMode`

The two functions as `Compose` calls them, with what they send to the driver: the converter, the
commit function with its `PostEink`, and the three tunings that follow (`update_fullmode_num`,
`update_diff_percent_num`, `update_waiting_time`).

* `Op`: an operation on the members of `EinkCompositorWorker`, with its result and its calls. In
  `f.seq g` the result of `f` is dropped, as everywhere in these two functions.
* `Answers`: what the calls return and the properties read as.
* `posted_iff`: a frame is posted whether its pixels were produced or not.
-/

namespace EinkHwc

def epdFullGlr16 : Int := 4
def epdFullGld16 : Int := 5
def epdPartGlr16 : Int := 9
def epdPartGld16 : Int := 10

/-- The calls that leave the worker, with their arguments. -/
inductive Call where
  /-- A converter writes its pixels to `gray16_buffer`. -/
  | write (offset : Int)
  /-- `EBC_SEND_BUFFER`, and what it returns. -/
  | send (info : EbcBufInfo) (ret : Int)
  /-- `EBC_GET_BUFFER`, and the offset of the buffer unless it fails. -/
  | get (offset : Option Int)
  | setFullModeNum (n : Int)
  | setDiffPercent (n : Int)
  | waitNewBufTime (n : Int)
  deriving DecidableEq, Repr

/-- The statics with the values that the driver has. -/
structure Tuned where
  currNotFullmodeNum : Int := -1
  prevDiffPercent : Int := 0
  waitNewBufTime : Int := 0
  deriving DecidableEq, Repr

/-- The members and statics of the worker that the two functions use. -/
structure EinkState where
  panel : PanelInfo
  commitBufInfo : EbcBufInfo
  gray16Buffer : Int
  gLastEpdMode : Int := epdPartGc16
  lastRegal : Bool := false
  tuned : Tuned := {}
  deriving DecidableEq, Repr

/-- A property (`atoi` of its text), and the result of the `ioctl` that passes it on. -/
structure Tuning where
  value : Int
  ret : Int := 0
  deriving DecidableEq, Repr

/-- What the calls of one `SetEinkMode` return. -/
structure Answers where
  convert : ConvertEnv := {}
  /-- `EBC_SEND_BUFFER` -/
  send : Int := 0
  /-- `EBC_GET_BUFFER`: `none` if it fails, else the offset of the buffer. -/
  get : Option Int
  /-- `persist.vendor.fullmode_cnt` -/
  fullmodeCnt : Tuning := { value := 500 }
  /-- `sys.diff.percent` -/
  diffPercent : Tuning := { value := 0 }
  /-- `sys.eink.waiting.time` -/
  waitingTime : Tuning := { value := 0 }
  deriving DecidableEq, Repr

/-! ## Operations -/

/-- A result, the members afterwards, and the calls in program order. -/
structure Done where
  ret : Int
  st : EinkState
  calls : List Call := []
  deriving DecidableEq, Repr

abbrev Op := EinkState → Done

/-- `f(); g();` -/
def Op.seq (f g : Op) : Op := fun s =>
  { ret := (g (f s).st).ret, st := (g (f s).st).st, calls := (f s).calls ++ (g (f s).st).calls }

/-- `f(); return ret;` -/
def Op.andReturn (f : Op) (ret : Int) : Op := fun s => { f s with ret := ret }

@[simp] theorem seq_calls (f g : Op) (s : EinkState) :
    (f.seq g s).calls = (f s).calls ++ (g (f s).st).calls := rfl

@[simp] theorem seq_st (f g : Op) (s : EinkState) : (f.seq g s).st = (g (f s).st).st := rfl

@[simp] theorem andReturn_calls (f : Op) (ret : Int) (s : EinkState) :
    (f.andReturn ret s).calls = (f s).calls := rfl

@[simp] theorem andReturn_st (f : Op) (ret : Int) (s : EinkState) :
    (f.andReturn ret s).st = (f s).st := rfl

@[simp] theorem andReturn_ret (f : Op) (ret : Int) (s : EinkState) :
    (f.andReturn ret s).ret = ret := rfl

/-- A converter. -/
def Converter.op (c : Converter) (a : Answers) : Op := fun s =>
  { ret := (c.run s.panel.panelColor a.convert).1
    st := s
    calls := if (c.run s.panel.panelColor a.convert).2 then [.write s.gray16Buffer] else [] }

/-- `PostEink` -/
def postEinkOp (mode : Int) (a : Answers) : Op := fun s =>
  let info := postEink s.panel mode s.commitBufInfo
  if a.send ≠ 0 then
    { ret := -1, st := { s with commitBufInfo := info }, calls := [.send info a.send] }
  else match a.get with
    | none => { ret := -1, st := { s with commitBufInfo := info },
                calls := [.send info a.send, .get none] }
    | some b => { ret := 0
                  st := { s with commitBufInfo := { info with offset := b }, gray16Buffer := b }
                  calls := [.send info a.send, .get (some b)] }

/-- `Y4Commit` and `A2Commit` -/
def Commit.op (m : Commit) (a : Answers) : Op := fun s =>
  let r := postEinkOp (m.postMode s.gLastEpdMode) a s
  { ret := 0, st := { r.st with gLastEpdMode := m.lastMode }, calls := r.calls }

/-- The shared part of the three tunings: the property goes to the driver if it is not `cur`. -/
def tune (request : Int → Call) (cur : Int) (keep : Int → Tuned) (t : Tuning) (s : EinkState) :
    Done :=
  if t.value ≠ cur then
    if t.ret ≠ 0 then { ret := -1, st := s, calls := [request t.value] }
    else { ret := 0, st := { s with tuned := keep t.value }, calls := [request t.value] }
  else { ret := 0, st := s }

/-- `update_fullmode_num` -/
def updateFullmodeNum (a : Answers) : Op := fun s =>
  tune .setFullModeNum s.tuned.currNotFullmodeNum ({ s.tuned with currNotFullmodeNum := · })
    a.fullmodeCnt s

/-- `update_diff_percent_num` -/
def updateDiffPercentNum (a : Answers) : Op := fun s =>
  tune .setDiffPercent s.tuned.prevDiffPercent ({ s.tuned with prevDiffPercent := · })
    a.diffPercent s

/-- `update_waiting_time` -/
def updateWaitingTime (a : Answers) : Op := fun s =>
  tune .waitNewBufTime s.tuned.waitNewBufTime ({ s.tuned with waitNewBufTime := · }) a.waitingTime s

/-- The three calls at the end of both functions. -/
def updates (a : Answers) : Op :=
  ((updateFullmodeNum a).seq (updateDiffPercentNum a)).seq (updateWaitingTime a)

/-- A case of the mode switch. -/
def caseOp (a : Answers) : Option (Converter × Commit) → Op
  | none => fun s => { ret := 0, st := s }
  | some (c, m) => (c.op a).seq (m.op a)

/-- `SetColorEinkMode` -/
def setColorEinkModeOp (composition : Option EinkComposition) (a : Answers) : Op := fun s =>
  match composition with
  | none => { ret := -1, st := s }
  | some c =>
    ((caseOp a (setColorEinkMode s.panel.panelColor c.einkMode)).seq (updates a)).andReturn 0 s

/-- The modes that keep `last_regal`. -/
def regalModes : List Int := [epdFullGld16, epdFullGlr16, epdPartGld16, epdPartGlr16, epdForceFull]

/-- `SetEinkMode` -/
def setEinkModeOp (composition : Option EinkComposition) (a : Answers) : Op := fun s =>
  match composition with
  | none => { ret := -1, st := s }
  | some c =>
    ((caseOp a (setEinkMode c.einkMode)).seq (updates a)).andReturn 0
      { s with lastRegal := s.lastRegal && decide (c.einkMode ∈ regalModes) }

/-- `Compose`'s call of one of the two. -/
def setModeOp (composition : Option EinkComposition) (a : Answers) : Op := fun s =>
  if s.panel.panelColor ≠ 0 then setColorEinkModeOp composition a s
  else setEinkModeOp composition a s

/-! ## What the operations call -/

/-- A call of the tunings. -/
def Call.isTuning : Call → Bool
  | .setFullModeNum _ | .setDiffPercent _ | .waitNewBufTime _ => true
  | _ => false

section Calls
variable (a : Answers) (s : EinkState)

theorem tune_calls {request : Int → Call} (hr : ∀ n, (request n).isTuning = true) (cur : Int)
    (keep : Int → Tuned) (t : Tuning) :
    ∀ c ∈ (tune request cur keep t s).calls, c.isTuning = true := by
  unfold tune
  split
  · split
    all_goals
      intro c hc
      obtain rfl := List.mem_singleton.1 hc
      exact hr _
  · intro c hc
    cases hc

theorem updates_calls : ∀ c ∈ (updates a s).calls, c.isTuning = true := by
  intro c hc
  unfold updates at hc
  simp only [seq_calls, List.mem_append] at hc
  rcases hc with (hc | hc) | hc
  · exact tune_calls _ (fun _ => rfl) _ _ _ c hc
  · exact tune_calls _ (fun _ => rfl) _ _ _ c hc
  · exact tune_calls _ (fun _ => rfl) _ _ _ c hc

theorem tune_st (request : Int → Call) (cur : Int) (keep : Int → Tuned) (t : Tuning) :
    ∃ u, (tune request cur keep t s).st = { s with tuned := u } := by
  unfold tune
  split
  · split
    · exact ⟨s.tuned, rfl⟩
    · exact ⟨_, rfl⟩
  · exact ⟨s.tuned, rfl⟩

/-- The tunings leave the members of the commits alone. -/
theorem updates_st : ∃ u, (updates a s).st = { s with tuned := u } := by
  obtain ⟨u1, h1⟩ : ∃ u, (updateFullmodeNum a s).st = { s with tuned := u } := tune_st ..
  obtain ⟨u2, h2⟩ : ∃ u, (updateDiffPercentNum a { s with tuned := u1 }).st =
      { s with tuned := u } := tune_st ..
  obtain ⟨u3, h3⟩ : ∃ u, (updateWaitingTime a { s with tuned := u2 }).st =
      { s with tuned := u } := tune_st ..
  refine ⟨u3, ?_⟩
  unfold updates
  rw [seq_st, seq_st, h1, h2, h3]

/-- `PostEink` always makes its `EBC_SEND_BUFFER`. -/
theorem postEinkOp_calls (mode : Int) : ∃ cs, (postEinkOp mode a s).calls =
    .send (postEink s.panel mode s.commitBufInfo) a.send :: cs ∧ ∀ c ∈ cs, ∃ o, c = .get o := by
  unfold postEinkOp
  by_cases hs : a.send = 0
  · simp only [ne_eq, hs, not_true_eq_false, reduceIte]
    cases a.get with
    | none => exact ⟨_, rfl, by simp⟩
    | some b => exact ⟨_, rfl, by simp⟩
  · simp only [ne_eq, hs, not_false_eq_true, reduceIte]
    exact ⟨_, rfl, by simp⟩

/-- The calls of a case of the mode switch. -/
theorem caseOp_calls (c : Converter) (m : Commit) : ∃ cs, (caseOp a (some (c, m)) s).calls =
    (c.op a s).calls ++ .send (postEink s.panel (m.postMode s.gLastEpdMode) s.commitBufInfo)
      a.send :: cs ∧ ∀ c ∈ cs, ∃ o, c = .get o := by
  obtain ⟨cs, hcs, hget⟩ := postEinkOp_calls a s (m.postMode s.gLastEpdMode)
  refine ⟨cs, ?_, hget⟩
  rw [← hcs]
  rfl

end Calls

/-- What `Compose` calls is the case of `setMode`, and the tunings. -/
theorem setModeOp_some (c : EinkComposition) (a : Answers) (s : EinkState) :
    ∃ b, setModeOp (some c) a s =
      ((caseOp a (setMode s.panel.panelColor c.einkMode)).seq (updates a)).andReturn 0
        { s with lastRegal := b } := by
  unfold setModeOp setMode
  by_cases hp : s.panel.panelColor = 0
  · rw [if_neg (by simp [hp]), if_neg (by simp [hp])]
    exact ⟨_, rfl⟩
  · rw [if_pos hp, if_pos hp]
    exact ⟨s.lastRegal, rfl⟩

/-! ## Frames whose pixels are not produced -/

/-- `Allocate`, the blit and the lock succeed. -/
def ConvertEnv.Prepared (env : ConvertEnv) : Prop :=
  env.allocate = true ∧ env.blit = 0 ∧ env.lock = 0 ∧ env.addr = true

/-- The steps of the converter that the panel and the mode select all succeed. -/
def ConvertEnv.Produces (panelColor einkMode : Int) (env : ConvertEnv) : Prop :=
  if panelColor = 1 then env.Prepared ∧ env.format = halPixelFormatRgba8888
  else if panelColor = 2 then
    env.Prepared ∧ (env.format = halPixelFormatRgba8888 ∨ env.format = halPixelFormatRgb565)
  else if panelColor ≠ 0 then False
  else if einkMode = epdA2Dither then env.allocate = true ∧ env.blit = 0 ∧ env.addr = true
  else if env.rgba2y4ByRga then env.lock = 0 ∧ env.addr = true ∧ env.blit = 0
  else env.Prepared

theorem prepareRga_eq_none {env : ConvertEnv} : prepareRga env = none ↔ env.Prepared := by
  unfold prepareRga ConvertEnv.Prepared
  cases env.allocate <;> cases env.addr <;> by_cases hb : env.blit = 0 <;>
    by_cases hl : env.lock = 0 <;> simp [hb, hl]

/-- A converter that ends with `ok` once it is prepared. -/
theorem prepared_and (env : ConvertEnv) (ok : Bool) : (match prepareRga env with
    | some ret => (ret, false)
    | none => ((0 : Int), ok)).2 = true ↔ env.Prepared ∧ ok = true := by
  rw [← prepareRga_eq_none]
  cases prepareRga env with
  | none => simp
  | some ret => simp

theorem colorEink1_produces {panelColor : Int} {env : ConvertEnv} :
    (convertToColorEink1 panelColor env).2 = true ↔
      panelColor = 1 ∧ env.Prepared ∧ env.format = halPixelFormatRgba8888 := by
  unfold convertToColorEink1
  by_cases hp : panelColor = 1
  · rw [if_neg (by simp [hp])]
    refine (prepared_and env _).trans ?_
    rw [decide_eq_true_iff]
    simp [hp]
  · rw [if_pos hp]
    simp [hp]

theorem colorEink2_produces {panelColor : Int} {env : ConvertEnv} :
    (convertToColorEink2 panelColor env).2 = true ↔ panelColor = 2 ∧ env.Prepared ∧
      (env.format = halPixelFormatRgba8888 ∨ env.format = halPixelFormatRgb565) := by
  unfold convertToColorEink2
  by_cases hp : panelColor = 2
  · rw [if_neg (by simp [hp])]
    refine (prepared_and env _).trans ?_
    rw [decide_eq_true_iff]
    simp [hp]
  · rw [if_pos hp]
    simp [hp]

theorem y4Dither_produces {env : ConvertEnv} : (convertToY4Dither env).2 = true ↔
    if env.rgba2y4ByRga then env.lock = 0 ∧ env.addr = true ∧ env.blit = 0 else env.Prepared := by
  unfold convertToY4Dither
  by_cases hr : env.rgba2y4ByRga = true
  · rw [if_pos hr, if_pos hr]
    unfold rgba888ToGray16ByRga
    cases env.addr <;> by_cases hl : env.lock = 0 <;> simp [hl]
  · rw [if_neg hr, if_neg hr]
    exact (prepared_and env true).trans (by simp)

/-- `ConvertToY1Dither` does not look at the result of its lock. -/
theorem y1Dither_produces {env : ConvertEnv} : (convertToY1Dither env).2 = true ↔
    env.allocate = true ∧ env.blit = 0 ∧ env.addr = true := by
  unfold convertToY1Dither
  exact (prepared_and { env with lock := 0 } true).trans (by simp [ConvertEnv.Prepared])

/-- The converter of a mode fills the buffer exactly if all its steps succeed. -/
theorem run_produces {panelColor einkMode : Int} {env : ConvertEnv} {m : Converter × Commit}
    (hm : setMode panelColor einkMode = some m) :
    (m.1.run panelColor env).2 = true ↔ env.Produces panelColor einkMode := by
  unfold ConvertEnv.Produces
  unfold setMode setColorEinkMode setEinkMode at hm
  by_cases h0 : panelColor = 0
  · rw [if_neg (by simp [h0])] at hm
    rw [if_neg (by omega), if_neg (by omega), if_neg (by simp [h0])]
    by_cases hd : einkMode = epdA2Dither
    · rw [if_pos hd] at hm ⊢
      cases hm
      exact y1Dither_produces
    · rw [if_neg hd] at hm ⊢
      split at hm
      · cases hm
        exact y4Dither_produces
      · split at hm
        · cases hm
        · cases hm
          exact y4Dither_produces
  · rw [if_pos h0] at hm
    split at hm
    · cases hm
    · cases hm
      by_cases h1 : panelColor = 1
      · rw [if_pos h1, if_pos h1]
        exact colorEink1_produces.trans (by simp [h1])
      · rw [if_neg h1, if_neg h1]
        refine colorEink2_produces.trans ?_
        by_cases h2 : panelColor = 2 <;> simp [h0, h2]

/-- Without its pixels a frame is not sent, and `Compose` gets a result to stop at. -/
def PostedIfProduced (r : Done) : Prop :=
  (∀ b, .write b ∉ r.calls) → (∀ info ret, .send info ret ∉ r.calls) ∧ r.ret ≠ 0

/-- The calls for a mode with a converter: its pixels, if there are any, and a frame in any case. -/
theorem setModeOp_calls {c : EinkComposition} {a : Answers} {s : EinkState}
    {m : Converter × Commit} (hm : setMode s.panel.panelColor c.einkMode = some m) :
    ∃ info cs, (setModeOp (some c) a s).calls = (m.1.op a s).calls ++ .send info a.send :: cs ∧
      ∀ b, .write b ∉ cs := by
  obtain ⟨r, hr⟩ := setModeOp_some c a s
  obtain ⟨cs, hcs, hget⟩ := caseOp_calls a { s with lastRegal := r } m.1 m.2
  refine ⟨postEink s.panel (m.2.postMode s.gLastEpdMode) s.commitBufInfo,
    cs ++ (updates a (caseOp a (some m) { s with lastRegal := r }).st).calls, ?_, ?_⟩
  · rw [hr, hm, andReturn_calls, seq_calls, hcs, List.append_assoc, List.cons_append]
    rfl
  · intro b hb
    rcases List.mem_append.1 hb with hb | hb
    · obtain ⟨o, ho⟩ := hget _ hb
      cases ho
    · have htuning := updates_calls _ _ _ hb
      cases htuning

/-- Every mode with a converter: the results of the converter and of the commit are dropped, so
that the frame is posted in any case. -/
theorem posted_iff (c : EinkComposition) (hc : c.einkMode ≠ epdSuspend) (a : Answers)
    (s : EinkState) : PostedIfProduced (setModeOp (some c) a s) ↔
      a.convert.Produces s.panel.panelColor c.einkMode := by
  have hsome : (setMode s.panel.panelColor c.einkMode).isSome = true := setMode_isSome hc
  obtain ⟨m, hm⟩ := Option.isSome_iff_exists.1 hsome
  obtain ⟨info, cs, hcs, hwrite⟩ := setModeOp_calls (a := a) hm
  rw [← run_produces hm]
  constructor
  · intro h
    refine Decidable.byContradiction fun hrun => ?_
    have hnone : (m.1.op a s).calls = [] := if_neg hrun
    rw [hnone, List.nil_append] at hcs
    refine (h fun b hb => ?_).1 info a.send (by rw [hcs]; exact List.mem_cons_self)
    rw [hcs] at hb
    rcases List.mem_cons.1 hb with hb | hb
    · cases hb
    · exact hwrite b hb
  · intro hrun hnone
    have hone : (m.1.op a s).calls = [.write s.gray16Buffer] := if_pos hrun
    refine absurd ?_ (hnone s.gray16Buffer)
    rw [hcs, hone]
    exact List.mem_append_left _ (List.mem_singleton_self _)

/-- A panel of 16 levels, with the buffer at 0. -/
def panel16 : EinkState :=
  { panel := { width := 8, height := 2, panelColor := 0 }, commitBufInfo := {}, gray16Buffer := 0 }

theorem posted_iff_gc16 :
    PostedIfProduced (setModeOp (some { einkMode := epdPartGc16 }) { get := some 64 } panel16) ↔
      ConvertEnv.Produces 0 epdPartGc16 {} :=
  posted_iff { einkMode := epdPartGc16 } (by decide) { get := some 64 } panel16

/-- The blit fails: the buffer is sent without the frame, and the result is 0. -/
theorem posted_without_pixels :
    ¬ ∀ (c : EinkComposition), c.einkMode ≠ epdSuspend → ∀ (a : Answers) (s : EinkState),
      PostedIfProduced (setModeOp (some c) a s) := by
  intro h
  have hcalls : (setModeOp (some { einkMode := epdPartGc16 })
      { convert := { blit := -22 }, get := some 64 } panel16).calls =
      [.send { epdMode := epdPartGc16, winX2 := 8, winY2 := 2 } 0, .get (some 64),
        .setFullModeNum 500] := by decide
  refine (h { einkMode := epdPartGc16 } (by decide) { convert := { blit := -22 }, get := some 64 }
    panel16 fun b hb => ?_).2 (by decide)
  rw [hcalls] at hb
  simp at hb

end EinkHwc
