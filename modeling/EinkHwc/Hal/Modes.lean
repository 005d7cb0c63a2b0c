/-!
# Refresh modes and the power state of the HAL

The mode arithmetic of `hwcomposer.cpp`: the values of `panel_refresh_mode` that the code compares
with, the statics that `hwc_set` and `hwc_set_power_mode` share (`Globals`), and the pure part of
`hwc_handle_eink_mode`, `hwc_adajust_sf_vsync` and `hwc_set_power_mode`. Both entry points hold
`mEinkModeLock`, so these are functions of the statics.

A mode is an `Int`: `sys.eink.mode` is `atoi` of a property, and any number that it gives reaches
the panel.
-/

namespace EinkHwc

/-! ## `panel_refresh_mode` -/

def epdNull : Int := -1
def epdAuto : Int := 0
def epdOverlay : Int := 1
def epdFullGc16 : Int := 2
def epdPartGc16 : Int := 7
def epdA2 : Int := 12
def epdA2Dither : Int := 13
def epdDu : Int := 14
def epdDu4 : Int := 15
def epdA2Enter : Int := 16
def epdSuspend : Int := 18
def epdResume : Int := 19
def epdPowerOff : Int := 20
def epdForceFull : Int := 21

/-! ## `hwc_adajust_sf_vsync` -/

/-- The statics of `hwc_adajust_sf_vsync`, and `persist.sys.refresh_skip_count` as it last wrote
it. -/
structure SfVsync where
  lastMode : Int := epdNull
  resumeCount : Int := 5
  refreshSkipCount : Option String := none
  deriving DecidableEq, Repr

/-- The text that the switch copies to `refresh_skip_count`. -/
def refreshSkipCount (mode : Int) : String :=
  if mode = epdAuto ∨ mode = epdOverlay ∨ mode = epdA2 ∨ mode = epdA2Dither then "5"
  else if mode = epdDu ∨ mode = epdDu4 then "5"
  else if mode = epdResume then "5"
  else if mode = epdSuspend then "5"
  else "2"

def hwcAdajustSfVsync (mode : Int) (v : SfVsync) : SfVsync :=
  if v.lastMode = epdSuspend ∧ mode ≠ epdResume then v
  else
    let v := if v.lastMode = epdResume ∧ mode = epdSuspend then { v with resumeCount := 0 } else v
    if v.lastMode = epdResume ∧ 0 < v.resumeCount then { v with resumeCount := v.resumeCount - 1 }
    else if mode = v.lastMode then v
    else { resumeCount := if mode = epdResume then 5 else v.resumeCount
           refreshSkipCount := some (refreshSkipCount mode)
           lastMode := mode }

/-! ## The statics -/

/-- The statics that `hwc_set` and `hwc_set_power_mode` share. -/
structure Globals where
  gPowerMode : Int := 0
  gCurrentEpdMode : Int := epdPartGc16
  gOneFullModeTime : Int := 0
  sfVsync : SfVsync := {}
  deriving DecidableEq, Repr

/-- `hwc_handle_eink_mode(mode)`, where `sys.eink.one_full_mode_timeline` reads as `oneFull`. -/
def hwcHandleEinkMode (mode oneFull : Int) (g : Globals) : Globals :=
  if g.gPowerMode = epdPowerOff ∨ g.gPowerMode = epdSuspend then
    { g with gCurrentEpdMode := epdSuspend }
  else if g.gPowerMode = epdResume then
    { g with gCurrentEpdMode := epdResume, gPowerMode := epdNull }
  else if g.gOneFullModeTime ≠ oneFull then
    { g with gOneFullModeTime := oneFull, gCurrentEpdMode := epdForceFull }
  else { g with gCurrentEpdMode := mode }

/-- The branch of `hwc_handle_eink_mode` that consumes a change of
`sys.eink.one_full_mode_timeline`. -/
def consumesOneFull (oneFull : Int) (g : Globals) : Prop :=
  ¬ (g.gPowerMode = epdPowerOff ∨ g.gPowerMode = epdSuspend) ∧ g.gPowerMode ≠ epdResume ∧
    g.gOneFullModeTime ≠ oneFull

instance (oneFull : Int) (g : Globals) : Decidable (consumesOneFull oneFull g) :=
  inferInstanceAs (Decidable (¬ _ ∧ _ ∧ _))

/-! ## `hwc_set_power_mode` -/

/-- The image files of `hwc_set_power_mode`. -/
inductive LogoPath where
  | poweroffNopowerUser | poweroffNopowerDefault
  | poweroffUser | poweroffDefault
  | standbyChargeUser | standbyChargeDefault
  | standbyLowpowerUser | standbyLowpowerDefault
  | standbyUser | standbyDefault
  deriving DecidableEq, Repr

/-- What `hwc_set_power_mode` and `hwc_post_epd_logo` read from the system: properties (`atoi` of
their texts) and the image files that `access` finds readable. -/
structure PowerEnv where
  /-- `sys.power.shutdown` -/
  shutdown : Int := 0
  /-- `sys.power.status` -/
  powerStatus : Int := 0
  /-- `sys.power.connected` -/
  powerConnected : Int := 0
  readable : List LogoPath := []
  /-- `ro.need.white.with.standby` is `y`. -/
  needWhite : Bool := false
  deriving DecidableEq, Repr

/-- `!access(user, R_OK) ? user : default`. -/
def PowerEnv.pick (env : PowerEnv) (user dflt : LogoPath) : LogoPath :=
  if user ∈ env.readable then user else dflt

/-- The image that `HWC_POWER_MODE_OFF` shows. -/
def PowerEnv.logo (env : PowerEnv) : LogoPath :=
  if env.shutdown = 1 then
    if env.powerStatus = 1 then env.pick .poweroffNopowerUser .poweroffNopowerDefault
    else env.pick .poweroffUser .poweroffDefault
  else if env.powerConnected = 1 then env.pick .standbyChargeUser .standbyChargeDefault
  else if env.powerStatus = 1 then env.pick .standbyLowpowerUser .standbyLowpowerDefault
  else env.pick .standbyUser .standbyDefault

/-- The statics after `HWC_POWER_MODE_OFF`; `hwc_post_epd_logo` sets `gCurrentEpdMode` once more. -/
def powerModeOff (env : PowerEnv) (g : Globals) : Globals :=
  if env.shutdown = 1 then
    { g with gPowerMode := epdPowerOff, gCurrentEpdMode := epdSuspend }
  else
    { g with gPowerMode := epdSuspend, gCurrentEpdMode := epdSuspend,
             sfVsync := hwcAdajustSfVsync epdSuspend g.sfVsync }

/-- The statics after `HWC_POWER_MODE_NORMAL` and `HWC_POWER_MODE_DOZE_SUSPEND`. -/
def powerModeOn (g : Globals) : Globals :=
  { g with gPowerMode := epdResume, gCurrentEpdMode := epdFullGc16,
           sfVsync := hwcAdajustSfVsync epdResume g.sfVsync }

/-! ## What the modes do -/

/-- While the power is off every frame is suspended. -/
theorem hwcHandleEinkMode_off {mode oneFull : Int} {g : Globals}
    (h : g.gPowerMode = epdPowerOff ∨ g.gPowerMode = epdSuspend) :
    hwcHandleEinkMode mode oneFull g = { g with gCurrentEpdMode := epdSuspend } := by
  simp only [hwcHandleEinkMode, h, ↓reduceIte]

/-- The first frame after a power-on asks for `EPD_RESUME`. -/
theorem hwcHandleEinkMode_resume {mode oneFull : Int} {g : Globals} (h : g.gPowerMode = epdResume) :
    hwcHandleEinkMode mode oneFull g =
      { g with gCurrentEpdMode := epdResume, gPowerMode := epdNull } := by
  unfold hwcHandleEinkMode
  rw [if_neg (by rw [h]; decide), if_pos h]

theorem hwcHandleEinkMode_oneFull {mode oneFull : Int} {g : Globals}
    (h : consumesOneFull oneFull g) :
    hwcHandleEinkMode mode oneFull g =
      { g with gOneFullModeTime := oneFull, gCurrentEpdMode := epdForceFull } := by
  obtain ⟨h1, h2, h3⟩ := h
  simp only [hwcHandleEinkMode, h1, h2, h3, ↓reduceIte, ne_eq, not_false_eq_true]

end EinkHwc
