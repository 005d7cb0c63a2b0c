import EinkHwc.Trace.Past
import EinkHwc.Worker.Handoff
import EinkHwc.Worker.Commit

/-!
# The HAL thread and the compositor worker

The whole system as a step relation: `hwc_set` and `hwc_set_power_mode` in the HAL thread, one call
after the other (`mEinkModeLock`), and `EinkCompositorWorker` in its own thread.

* **The HAL thread** (`HalPc`). `hwc_set` walks the displays and their layers (`set i j`) and calls
  `QueueComposite` at each framebuffer target with a handle; `QueueComposite` walks the layers of
  that display again (`queue i j k`, with its local composition). One iteration of a loop is one
  step; a push goes through the hand-off (`Handoff`), and the HAL thread waits for it. The
  suspended branch of `hwc_set` touches nothing but the layers and is part of the call's step.
  After `HWC_POWER_MODE_OFF` the frames of `hwc_post_epd_logo` are posted one by one (`posts`).
* **The worker** (`ComposePc`). In `Compose`, one step per call that can fail: the fence waits, RGA,
  the converter, `EBC_SEND_BUFFER`, `EBC_GET_BUFFER`, `sw_sync_timeline_inc`. Between two
  compositions it is in the hand-off.
* An action carries the results of the calls that its step makes, so a run ranges over every
  pattern of successes and failures. A failing `ioctl` leaves its argument alone.
* Dereferencing the composition that `QueueComposite` has moved away is no step: such a run ends
  there. It needs two framebuffer targets with handles in one display list.
-/

namespace EinkHwc

/-- A picture on the panel or in a panel buffer. -/
inductive Picture where
  /-- The frame of that handle, converted. -/
  | frame (h : BufferHandle)
  /-- The white screen before the standby picture. -/
  | white
  | logo (p : LogoPath)
  /-- Whatever the driver's buffer held. -/
  | stale
  deriving DecidableEq, Repr

/-- Where the HAL thread is. -/
inductive HalPc where
  /-- Outside `hwc_set` and `hwc_set_power_mode`. -/
  | idle
  /-- `hwc_set`, at display `i`, layer `j`. -/
  | set (i j : Nat)
  /-- `QueueComposite`, called at display `i`, layer `j`: at layer `k`, with the composition unless
  it was moved to the queue. -/
  | queue (i j k : Nat) (comp : Option EinkComposition)
  /-- `hwc_post_epd_logo`: the pictures to post, with their modes. -/
  | posts (ps : List (Picture × Int))
  deriving DecidableEq, Repr

/-- The place is in `hwc_set`. -/
def HalPc.inSet : HalPc → Bool
  | .set .. | .queue .. => true
  | _ => false

/-- Where `Compose` is. -/
inductive ComposePc where
  /-- At the output buffer's fence. -/
  | outbuf
  /-- At the next layer fence. -/
  | layers
  /-- At `isSupportRkRga()`. -/
  | rga
  | convert
  /-- `PostEink`, at `EBC_SEND_BUFFER`. -/
  | send
  /-- `PostEink`, at `EBC_GET_BUFFER`. -/
  | get
  /-- At `FinishComposition`. -/
  | finish
  deriving DecidableEq, Repr

/-- `Compose` with its composition: the fences it has not yet closed. -/
structure Composing where
  comp : EinkComposition
  outbuf : Int
  fences : List Int
  pc : ComposePc
  deriving DecidableEq, Repr

structure St where
  panel : PanelInfo
  g : Globals := {}
  hal : HalPc := .idle
  /-- The displays of the current or last `hwc_set`. -/
  disp : Displays := []
  lastFbHandle : BufferHandle := 0
  lastFbHandleMode : Int := epdPartGc16
  timeline : Int := 0
  ho : Handoff EinkComposition := {}
  cur : Option Composing := none
  timelineCurrent : Int := 0
  commitBufInfo : EbcBufInfo
  /-- `gray16_buffer`, as an offset from `ebc_buffer_base`. -/
  gray16Buffer : Int
  /-- What the worker last wrote there. -/
  gray16Content : Picture := .stale
  gLastEpdMode : Int := epdPartGc16
  deriving DecidableEq, Repr

/-- The events of a run. -/
inductive Ev where
  | ho (e : Handoff.Ev EinkComposition)
  /-- `hwc_set_power_mode` with `HWC_POWER_MODE_OFF` is called. -/
  | powerOff
  /-- `hwc_set_power_mode` with `HWC_POWER_MODE_NORMAL` or `HWC_POWER_MODE_DOZE_SUSPEND` is. -/
  | powerOn
  /-- `hwc_handle_eink_mode` consumes a change of `sys.eink.one_full_mode_timeline`. -/
  | forceFull
  /-- `QueueComposite` is called. -/
  | queueComposite
  /-- `QueueComposite` skips a layer: its handle is `last_fb_handle`. -/
  | skip (h : BufferHandle)
  /-- Its handle is new, and the composition has its release fence. -/
  | accept (c : EinkComposition)
  /-- `Compose` returns early, on a failed fence wait. -/
  | drop (c : EinkComposition)
  /-- `Compose` is through with the composition and gets to `FinishComposition`. -/
  | served (c : EinkComposition)
  /-- A converter wrote its pixels to `gray16_buffer`. -/
  | write (offset : Int)
  /-- The worker's `EBC_GET_BUFFER` succeeds. -/
  | get (offset : Int)
  /-- It fails. -/
  | getFail
  /-- The worker's `EBC_SEND_BUFFER` succeeds. -/
  | send (info : EbcBufInfo) (pic : Picture)
  /-- The `EBC_SEND_BUFFER` of `hwc_post_epd` succeeds. -/
  | post (pic : Picture) (mode : Int)
  /-- `sw_sync_timeline_inc` succeeds. -/
  | inc (n : Int)
  /-- `hwc_set` is given the acquire fence of a framebuffer target. -/
  | handIn (fd : Int)
  | close (role : FdRole) (fd : Int)
  deriving DecidableEq, Repr

def closeEvs (role : FdRole) (fd : Int) : List Ev := (closeFd fd).map (.close role)

/-- `~EinkComposition`. -/
def destroyEvs (outbuf : Int) (fences : List Int) : List Ev :=
  closeEvs .outbuf outbuf ++ fences.flatMap (closeEvs .acquire)

/-- The end of `QueueComposite` for its composition. -/
def doneEvs : Option EinkComposition → List Ev
  | some c => destroyEvs c.outbufAcquireFence c.layerAcquireFences
  | none => []

/-! ## The HAL thread -/

/-- The suspended branch of `hwc_set` for one layer: `sync_wait` and `close`, for descriptors above
`0`. -/
def suspendLayer (l : Layer) : Layer :=
  if l.isTarget ∧ 0 < l.acquireFenceFd then { l with acquireFenceFd := -1 } else l

def suspendEvs (l : Layer) : List Ev :=
  if l.isTarget ∧ 0 < l.acquireFenceFd then closeEvs .acquire l.acquireFenceFd else []

def suspendDisplay (dc : DisplayContents) : DisplayContents :=
  { dc with hwLayers := dc.hwLayers.map suspendLayer }

/-- All layers of all displays. -/
def allLayers (d : Displays) : List Layer :=
  d.flatMap fun dc => (dc.map DisplayContents.hwLayers).getD []

/-- The statics after `hwc_handle_eink_mode` and `hwc_adajust_sf_vsync`. -/
def setGlobals (mode oneFull : Int) (g : Globals) : Globals :=
  { hwcHandleEinkMode mode oneFull g with sfVsync := hwcAdajustSfVsync mode g.sfVsync }

/-- What `hwc_set` is given, and whether it consumes a change of the one-shot property. -/
def setEvs (oneFull : Int) (d : Displays) (g : Globals) : List Ev :=
  (if consumesOneFull oneFull g then [.forceFull] else []) ++ (acquireFds d).map .handIn

/-- `hwc_set` is called: it goes into its loops, or does all of its suspended branch. -/
def hwcSet (mode oneFull : Int) (d : Displays) (s : St) : St × List Ev :=
  let g := setGlobals mode oneFull s.g
  if g.gCurrentEpdMode ≠ epdSuspend then
    ({ s with g := g, disp := d, hal := .set 0 0 }, setEvs oneFull d s.g)
  else
    ({ s with g := g, disp := d.map (Option.map suspendDisplay) },
      (allLayers d).flatMap suspendEvs ++ setEvs oneFull d s.g)

/-- The modes of `hwc_set_power_mode`. Its switch has no case for `HWC_POWER_MODE_DOZE`. -/
inductive PowerMode where
  | off
  | doze
  | normal
  | dozeSuspend
  deriving DecidableEq, Repr

/-- The pictures of `hwc_post_epd_logo`, with the modes it posts them with. -/
def logoPosts (env : PowerEnv) (g : Globals) : List (Picture × Int) :=
  (if env.needWhite then [(.white, epdPartGc16)] else []) ++
    [(.logo env.logo, if g.gPowerMode = epdPowerOff then epdPowerOff else epdSuspend)]

def hwcSetPowerMode (mode : PowerMode) (env : PowerEnv) (s : St) : St × List Ev :=
  match mode with
  | .off =>
    let g := powerModeOff env s.g
    ({ s with g := g, hal := .posts (logoPosts env g) }, [.powerOff])
  | .doze => (s, [])
  | .normal | .dozeSuspend => ({ s with g := powerModeOn s.g }, [.powerOn])

/-- `hwc_post_epd` of the next picture: `EBC_GET_BUFFER` and `EBC_SEND_BUFFER`. -/
def hwcPostEpd (getRet sendRet : Int) (s : St) : Option (St × List Ev) :=
  match s.hal with
  | .posts ((pic, mode) :: ps) =>
    some ({ s with hal := if ps.isEmpty then .idle else .posts ps },
      if getRet = 0 ∧ sendRet = 0 then [.post pic mode] else [])
  | _ => none

/-- The start of `QueueComposite` for display `i`: the composition, the output buffer's fence, the
retire fence, whose descriptor is `fd`. -/
def queueCompositeStart (i j : Nat) (dc : DisplayContents) (fd : Int) (s : St) : St × List Ev :=
  ({ s with
      timeline := s.timeline + 1
      disp := s.disp.set i (some { dc with outbufAcquireFenceFd := -1, retireFenceFd := fd })
      hal := .queue i j 0 (some { outbufAcquireFence := dc.outbufAcquireFenceFd }) },
    closeEvs .retire dc.retireFenceFd ++ [.queueComposite])

/-- One iteration of the loops of `hwc_set`. -/
def setStep (i j : Nat) (fd : Int) (s : St) : St × List Ev :=
  match s.disp[i]? with
  | none => ({ s with hal := .idle }, [])
  | some none => ({ s with hal := .set (i + 1) 0 }, [])
  | some (some dc) =>
    match dc.hwLayers[j]? with
    | none => ({ s with hal := .set (i + 1) 0 }, [])
    | some l =>
      if l.queueable then queueCompositeStart i j dc fd s
      else ({ s with hal := .set i (j + 1) }, [])

/-- The composition of a layer with a new handle. -/
def fillComposition (l : Layer) (comp : EinkComposition) (s : St) : EinkComposition :=
  { comp with
    layerAcquireFences := comp.layerAcquireFences ++ [l.acquireFenceFd]
    fbHandle := l.handle
    einkMode := if s.lastFbHandleMode = epdResume then epdResume else s.g.gCurrentEpdMode
    releaseTimeline := s.timeline + 1 }

/-- The branch of `QueueComposite` for a new handle, up to its `Lock()`; `fd` is the descriptor of
the release fence. -/
def queueLayer (i j k : Nat) (dc : DisplayContents) (l : Layer) (comp : EinkComposition) (fd : Int)
    (s : St) : St × List Ev :=
  ({ s with
      timeline := s.timeline + 1
      disp := s.disp.set i (some { dc with
        hwLayers := dc.hwLayers.set k { l with acquireFenceFd := -1, releaseFenceFd := fd } })
      lastFbHandle := l.handle
      lastFbHandleMode := if s.lastFbHandleMode = epdResume then epdNull else s.lastFbHandleMode
      ho := { s.ho with prod := .lock (fillComposition l comp s) }
      hal := .queue i j (k + 1) none },
    closeEvs .release l.releaseFenceFd ++ [.accept (fillComposition l comp s)])

/-- One iteration of the loop of `QueueComposite`, or its end. -/
def queueStep (i j k : Nat) (comp : Option EinkComposition) (fd : Int) (s : St) :
    Option (St × List Ev) :=
  match s.disp[i]?.join with
  | none => none
  | some dc =>
    match dc.hwLayers[k]? with
    | none =>
      some ({ s with hal := .set i (j + 1) }, doneEvs comp)
    | some l =>
      if l.queueable then
        if l.handle ≠ s.lastFbHandle then
          -- `composition->layer_acquire_fences` of a moved composition: no step
          comp.map fun c => queueLayer i j k dc l c fd s
        else
          some ({ s with
            lastFbHandleMode :=
              if s.g.gCurrentEpdMode = epdResume then epdResume else s.lastFbHandleMode
            hal := .queue i j (k + 1) comp }, [.skip l.handle])
      else some ({ s with hal := .queue i j (k + 1) comp }, [])

/-- A step of the HAL thread outside the hand-off; `fd` is what `sw_sync_fence_create` gives. -/
def halStep (fd : Int) (s : St) : Option (St × List Ev) :=
  match s.ho.prod with
  | .idle =>
    match s.hal with
    | .set i j => some (setStep i j fd s)
    | .queue i j k comp => queueStep i j k comp fd s
    | _ => none
  | _ => none

/-! ## `Compose` -/

/-- The result of the call that `Compose` is at. -/
inductive Outcome where
  | syncWait (ret : Int)
  | rkRgaIsReady (b : Bool)
  | convert (env : ConvertEnv)
  | ebcSend (ret : Int)
  /-- `none`: it fails; else the offset of the buffer. -/
  | ebcGet (offset : Option Int)
  | timelineInc (ret : Int)
  deriving DecidableEq, Repr

/-- `Compose` returns, and the composition is destroyed. -/
def endCompose (s : St) (k : Composing) (es : List Ev) : Option (St × List Ev) :=
  (s.ho.step .composed).map fun r =>
    ({ s with ho := r.1, cur := none }, destroyEvs k.outbuf k.fences ++ es)

/-- `Compose` gets to `FinishComposition`. -/
def toFinish (s : St) (k : Composing) (es : List Ev) : Option (St × List Ev) :=
  some ({ s with cur := some { k with pc := .finish } }, .served k.comp :: es)

/-- The end of a commit function, where `PostEink` has returned. -/
def endCommit (s : St) (k : Composing) (commit : Commit) (es : List Ev) : Option (St × List Ev) :=
  toFinish { s with gLastEpdMode := commit.lastMode } k es

/-- A step of `Compose`. -/
def composeStep (o : Outcome) (s : St) : Option (St × List Ev) :=
  match s.cur with
  | none => none
  | some k =>
    match k.pc, o with
    | .outbuf, .syncWait ret =>
      if 0 ≤ k.outbuf then
        if ret ≠ 0 then endCompose s k [.drop k.comp]
        else some ({ s with cur := some { k with outbuf := -1, pc := .layers } },
          closeEvs .outbuf k.outbuf)
      else some ({ s with cur := some { k with pc := .layers } }, [])
    | .layers, .syncWait ret =>
      match k.fences with
      | [] => some ({ s with cur := some { k with pc := .rga } }, [])
      | f :: fs =>
        if 0 ≤ f then
          if ret ≠ 0 then endCompose s k [.drop k.comp]
          else some ({ s with cur := some { k with fences := fs } }, closeEvs .acquire f)
        else some ({ s with cur := some { k with fences := fs } }, [])
    | .rga, .rkRgaIsReady b =>
      if b ∧ (setMode s.panel.panelColor k.comp.einkMode).isSome then
        some ({ s with cur := some { k with pc := .convert } }, [])
      else toFinish s k []
    | .convert, .convert env =>
      (setMode s.panel.panelColor k.comp.einkMode).map fun m =>
        if (m.1.run s.panel.panelColor env).2 then
          ({ s with gray16Content := .frame k.comp.fbHandle, cur := some { k with pc := .send } },
            [.write s.gray16Buffer])
        else ({ s with cur := some { k with pc := .send } }, [])
    | .send, .ebcSend ret =>
      match setMode s.panel.panelColor k.comp.einkMode with
      | none => none
      | some m =>
        let info := postEink s.panel (m.2.postMode s.gLastEpdMode) s.commitBufInfo
        if ret ≠ 0 then endCommit { s with commitBufInfo := info } k m.2 []
        else some ({ s with commitBufInfo := info, cur := some { k with pc := .get } },
          [.send info s.gray16Content])
    | .get, .ebcGet offset =>
      match setMode s.panel.panelColor k.comp.einkMode with
      | none => none
      | some m =>
        match offset with
        | none => endCommit s k m.2 [.getFail]
        | some b =>
          endCommit { s with
            commitBufInfo := { s.commitBufInfo with offset := b }
            gray16Buffer := b
            gray16Content := .stale } k m.2 [.get b]
    | .finish, .timelineInc ret =>
      -- `FinishComposition`
      if k.comp.releaseTimeline - s.timelineCurrent ≤ 0 then endCompose s k []
      else if ret ≠ 0 then endCompose s k []
      else endCompose { s with timelineCurrent := k.comp.releaseTimeline } k
        [.inc (k.comp.releaseTimeline - s.timelineCurrent)]
    | _, _ => none

/-! ## The system -/

inductive Act where
  | hwcSet (mode oneFull : Int) (d : Displays)
  | hwcSetPowerMode (mode : PowerMode) (env : PowerEnv)
  | hwcPostEpd (getRet sendRet : Int)
  | hal (fd : Int)
  /-- The HAL thread in the hand-off. -/
  | prod
  | prodWake
  /-- The worker thread in the hand-off. -/
  | work
  | workWake
  | compose (o : Outcome)
  deriving DecidableEq, Repr

/-- `Compose` starts with the composition that the hand-off passes to it. -/
def startCompose (es : List (Handoff.Ev EinkComposition)) (cur : Option Composing) :
    Option Composing :=
  match es with
  | [.compose c] =>
    some { comp := c, outbuf := c.outbufAcquireFence, fences := c.layerAcquireFences,
           pc := .outbuf }
  | _ => cur

/-- A step of either thread in the hand-off. -/
def handoffStep (a : Handoff.Act EinkComposition) (s : St) : Option (St × List Ev) :=
  (s.ho.step a).map fun r => ({ s with ho := r.1, cur := startCompose r.2 s.cur }, r.2.map .ho)

def step (s : St) : Act → Option (St × List Ev)
  | .hwcSet mode oneFull d =>
    if s.hal = .idle ∧ s.ho.prod = .idle then some (hwcSet mode oneFull d s) else none
  | .hwcSetPowerMode mode env =>
    if s.hal = .idle ∧ s.ho.prod = .idle then some (hwcSetPowerMode mode env s) else none
  | .hwcPostEpd getRet sendRet => hwcPostEpd getRet sendRet s
  | .hal fd => halStep fd s
  | .prod => handoffStep .prod s
  | .prodWake => handoffStep .prodWake s
  | .work => handoffStep .work s
  | .workWake => handoffStep .workWake s
  | .compose o => composeStep o s

/-- After `Init`: `EBC_GET_BUFFER` has given the first buffer. -/
def initSt (panel : PanelInfo) (b : Int) : St :=
  { panel := panel, commitBufInfo := { offset := b }, gray16Buffer := b }

/-- The system. -/
def system : Trace.System St Act Ev where
  init s tr := ∃ panel b, s = initSt panel b ∧ tr = [.get b]
  step := step

/-- The runs of the system. -/
abbrev Run (ok : St → Act → Prop) (tr : List Ev) (s : St) : Prop := system.Run ok tr s

/-- The composition that `Compose` is not through with. -/
def St.serving (s : St) : List EinkComposition :=
  match s.cur with
  | some k => if k.pc = .finish then [] else [k.comp]
  | none => []

/-- All compositions that `Compose` is not through with, the oldest first. -/
def St.unserved (s : St) : List EinkComposition := s.serving ++ s.ho.inFlight

end EinkHwc
