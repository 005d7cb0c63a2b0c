import EinkHwc.Hal.Modes

/-!
# Layers, compositions and the descriptors they own

The parts of `hwc_layer_1_t`, `hwc_display_contents_1_t` and `EinkComposition` that `hwc_set` and
the compositor worker use. A descriptor is an `Int`, as in the code: any value from `0` on is one,
and a negative value is none. `UniqueFd` is its descriptor; what its members do to it is `closeFd`
(`Close`, `Set`, the destructor) and the move, which leaves `-1` behind.
-/

namespace EinkHwc

/-- `buffer_handle_t`; `0` is `NULL`. -/
abbrev BufferHandle := Nat

/-- The `HWC_FRAMEBUFFER_TARGET` of `compositionType`. -/
def hwcFramebufferTarget : Int := 3

/-- `hwc_layer_1_t`. -/
structure Layer where
  handle : BufferHandle
  compositionType : Int := hwcFramebufferTarget
  acquireFenceFd : Int := -1
  releaseFenceFd : Int := -1
  deriving DecidableEq, Repr

/-- `hwc_display_contents_1_t`. -/
structure DisplayContents where
  outbufAcquireFenceFd : Int := -1
  retireFenceFd : Int := -1
  hwLayers : List Layer
  deriving DecidableEq, Repr

/-- The displays of one `hwc_set`; `none` is a null pointer. -/
abbrev Displays := List (Option DisplayContents)

/-- `EinkComposition`. `QueueComposite` sets `release_timeline` before it is read. -/
structure EinkComposition where
  outbufAcquireFence : Int := -1
  layerAcquireFences : List Int := []
  releaseTimeline : Int := 0
  fbHandle : BufferHandle := 0
  einkMode : Int := -1
  deriving DecidableEq, Repr

/-- The layer is a framebuffer target. -/
def Layer.isTarget (l : Layer) : Bool := l.compositionType == hwcFramebufferTarget

/-- The test of `hwc_set` and `QueueComposite`: a framebuffer target with a handle. -/
def Layer.queueable (l : Layer) : Bool := l.handle != 0 && l.isTarget

theorem queueable_isTarget {l : Layer} (h : l.queueable = true) : l.isTarget = true := by
  unfold Layer.queueable at h
  rw [Bool.and_eq_true] at h
  exact h.2

/-! ## Descriptors -/

/-- The descriptors that `if (fd >= 0) close(fd)` closes. -/
def closeFd (fd : Int) : List Int := if 0 ≤ fd then [fd] else []

/-- What a descriptor was handed in as. -/
inductive FdRole where
  | acquire | outbuf | retire | release
  deriving DecidableEq, Repr

/-- The acquire fences of the framebuffer targets of a display list. -/
def DisplayContents.acquireFds (dc : DisplayContents) : List Int :=
  dc.hwLayers.flatMap fun l => if l.isTarget then closeFd l.acquireFenceFd else []

def acquireFds (d : Displays) : List Int :=
  d.flatMap fun dc => (dc.map DisplayContents.acquireFds).getD []

/-- The layer at `layer` of display `disp`. -/
def layerAt (d : Displays) (disp layer : Nat) : Option Layer :=
  (d[disp]?.join).bind fun dc => dc.hwLayers[layer]?

end EinkHwc
