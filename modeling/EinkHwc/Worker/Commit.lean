import EinkHwc.Hal.Layers

/-!
# Converting and committing a frame

`SetEinkMode` and `SetColorEinkMode` choose a converter and a commit function by the panel and the
mode of the composition (`setMode`); the converter fills `gray16_buffer` or fails before it
(`Converter.run`), and the commit function sends the buffer (`PostEink`), with a mode that
`A2Commit` may replace (`Commit.postMode`). Both `Set…` functions drop the results of the two.

What a converter gets from RGA and gralloc is a `ConvertEnv`; what it writes is not modelled here,
only whether it writes. The regal converters are compiled out (`#if 0`), as is `EinkCommit`.
-/

namespace EinkHwc

def halPixelFormatRgba8888 : Int := 1
def halPixelFormatRgb565 : Int := 4
def enomem : Int := 12

/-- `ebc_buf_info_t`, the members that differ between buffers. -/
structure EbcBufInfo where
  offset : Int := 0
  epdMode : Int := 0
  winX1 : Int := 0
  winY1 : Int := 0
  winX2 : Int := 0
  winY2 : Int := 0
  needpic : Int := 0
  deriving DecidableEq, Repr

/-- What the worker read from the driver at `Init` and never changes: `ebc_buf_info`. -/
structure PanelInfo where
  width : Int
  height : Int
  panelColor : Int
  deriving DecidableEq, Repr

/-! ## Converters -/

/-- What a converter's calls return. -/
structure ConvertEnv where
  /-- The pixel format of the framebuffer. -/
  format : Int := halPixelFormatRgba8888
  /-- `sys.eink.rgba2y4_by_rga` is positive. -/
  rgba2y4ByRga : Bool := false
  /-- `rga_buffer.Allocate` -/
  allocate : Bool := true
  /-- `RkRgaBlit` -/
  blit : Int := 0
  /-- `hwc_lock` -/
  lock : Int := 0
  /-- The address that `hwc_lock` gives is not null. -/
  addr : Bool := true
  deriving DecidableEq, Repr

inductive Converter where
  | colorEink1 | colorEink2 | y4Dither | y1Dither
  deriving DecidableEq, Repr

/-- The start of the converters: `Allocate`, the blit into the RGA buffer, its lock. The result is
the converter's return value if it stops here. -/
def prepareRga (env : ConvertEnv) : Option Int :=
  if !env.allocate then some (-enomem)
  else if env.blit ≠ 0 then some env.blit
  else if env.lock ≠ 0 ∨ !env.addr then some env.lock
  else none

/-- The converter's return value, and whether it wrote its pixels to `gray16_buffer`. -/
def convertToColorEink2 (panelColor : Int) (env : ConvertEnv) : Int × Bool :=
  if panelColor ≠ 2 then (-1, false)
  else match prepareRga env with
    | some ret => (ret, false)
    | none => (0, env.format = halPixelFormatRgba8888 ∨ env.format = halPixelFormatRgb565)

def convertToColorEink1 (panelColor : Int) (env : ConvertEnv) : Int × Bool :=
  if panelColor ≠ 1 then (-1, false)
  else match prepareRga env with
    | some ret => (ret, false)
    | none => (0, env.format = halPixelFormatRgba8888)

/-- `Rgba888ToGray16ByRga`: the blit writes to `gray16_buffer` itself. -/
def rgba888ToGray16ByRga (env : ConvertEnv) : Int × Bool :=
  if env.lock ≠ 0 ∨ !env.addr then (env.lock, false) else (env.blit, env.blit = 0)

def convertToY4Dither (env : ConvertEnv) : Int × Bool :=
  if env.rgba2y4ByRga then rgba888ToGray16ByRga env
  else match prepareRga env with
    | some ret => (ret, false)
    | none => (0, true)

/-- `ConvertToY1Dither` does not keep the result of `hwc_lock`: its test of `ret` is the blit's. -/
def convertToY1Dither (env : ConvertEnv) : Int × Bool :=
  match prepareRga { env with lock := 0 } with
  | some ret => (ret, false)
  | none => (0, true)

def Converter.run (panelColor : Int) (env : ConvertEnv) : Converter → Int × Bool
  | .colorEink1 => convertToColorEink1 panelColor env
  | .colorEink2 => convertToColorEink2 panelColor env
  | .y4Dither => convertToY4Dither env
  | .y1Dither => convertToY1Dither env

/-! ## Commits -/

/-- `Y4Commit(mode)` and `A2Commit(mode)`. `ColorCommit` is `Y4Commit` again, and has no caller. -/
inductive Commit where
  | y4 (mode : Int)
  | a2 (mode : Int)
  deriving DecidableEq, Repr

/-- The mode that `PostEink` is called with. -/
def Commit.postMode (gLastEpdMode : Int) : Commit → Int
  | .y4 mode => mode
  | .a2 mode =>
    if gLastEpdMode ≠ epdA2 ∧ gLastEpdMode ≠ epdA2Dither then epdForceFull else mode

/-- `gLastEpdMode` after the commit, whatever `PostEink` returned. -/
def Commit.lastMode : Commit → Int
  | .y4 mode | .a2 mode => mode

/-- `PostEink`'s `commit_buf_info` for `EBC_SEND_BUFFER`: the whole screen. -/
def postEink (panel : PanelInfo) (mode : Int) (info : EbcBufInfo) : EbcBufInfo :=
  { info with
    winX1 := 0, winX2 := panel.width, winY1 := 0, winY2 := panel.height, epdMode := mode
    needpic := if mode = epdResume ∨ mode = epdForceFull ∨ mode = epdA2Enter then 1 else 0 }

/-! ## The mode switches -/

/-- The switch of `SetColorEinkMode`: nothing for `EPD_SUSPEND`. -/
def setColorEinkMode (panelColor einkMode : Int) : Option (Converter × Commit) :=
  if einkMode = epdSuspend then none
  else some (if panelColor = 1 then .colorEink1 else .colorEink2, .y4 einkMode)

/-- The switch of `SetEinkMode`: nothing for `EPD_SUSPEND`. -/
def setEinkMode (einkMode : Int) : Option (Converter × Commit) :=
  if einkMode = epdA2Dither then some (.y1Dither, .a2 epdA2Dither)
  else if einkMode = epdA2 then some (.y4Dither, .a2 epdA2)
  else if einkMode = epdSuspend then none
  else some (.y4Dither, .y4 einkMode)

/-- `Compose`'s choice by the panel. -/
def setMode (panelColor einkMode : Int) : Option (Converter × Commit) :=
  if panelColor ≠ 0 then setColorEinkMode panelColor einkMode else setEinkMode einkMode

/-- Every mode but `EPD_SUSPEND` is converted and committed. -/
theorem setMode_isSome {panelColor einkMode : Int} (h : einkMode ≠ epdSuspend) :
    (setMode panelColor einkMode).isSome = true := by
  unfold setMode setColorEinkMode setEinkMode
  simp only [h, ↓reduceIte]
  split
  · rfl
  · split
    · rfl
    · split <;> rfl

end EinkHwc
