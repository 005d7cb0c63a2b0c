import EinkHwc.Sys.Contents
import EinkHwc.Colour.Screen
import EinkHwc.Dither.Picture2

/-!
# From SurfaceFlinger to the panel

The whole way of a frame: SurfaceFlinger draws into a framebuffer and passes it to `hwc_set`,
`QueueComposite` queues it, the worker takes it, has RGA copy it, converts the copy to the panel's
format and sends it. `Sys/Contents.lean` follows the frames through the threads,
`Dither/Screen.lean`, `Dither/Picture2.lean` and `Colour/Screen.lean` the pixels through the
converters.

- **Grey panels** (`grey_shows_drawn`): each frame sent shows, pixel by pixel, the dithered luma of
  what SurfaceFlinger had drawn when the frame was queued. In `EPD_A2_DITHER` that is a picture
  whose rows are two pixels shorter, and nothing is said of the last two pixels of a row.
- **Colour panels** (`colour_shows_drawn`): it shows the means of its blocks, seen through the
  panel's filter.
-/

namespace EinkHwc

open Trace Mem Dither

/-- The framebuffers: how they lie in memory, and the bytes of each one, as often as it was
drawn. -/
structure Drawing where
  info : BufferHandle → FbInfo
  bytes : BufferHandle → Nat → Int → BitVec 8

/-- What a converter may leave in `gray16_buffer`, where there was `old`: RGA fills its buffer from
the framebuffer, and the converter's stores are made of that. `ConvertToColorEink1` goes through
`libcfa`, which is not in the source. -/
def screenLeaves (panel : PanelInfo) (luma : BitVec 32 → BitVec 8) (d : Drawing)
    (x : EinkComposition × Nat) (old new : Int → BitVec 8) : Prop :=
  let fb := d.bytes x.1.fbHandle x.2
  let info := d.info x.1.fbHandle
  match (setMode panel.panelColor x.1.einkMode).map Prod.fst with
  | some .y4Dither => ∃ rga, (rgba888ToGray256ByRga panel info).Copies luma (words fb) rga ∧
    new = run old
      (gray256ToGray16Dither rga panel.height.toNat panel.width.toNat panel.width.toNat).out
  | some .y1Dither => ∃ rga, (rgba888ToGray256ByRga panel info).Copies luma (words fb) rga ∧
    new = run old (y1Dither rga panel.width panel.height).out
  | some .colorEink2 => ∃ rga, (rgba8888ClipRgba panel info).Copies id (words fb) (words rga) ∧
    new = run old
      (colorEink2Stores panel halPixelFormatRgba8888 panel.width panel.height rga).flatten
  | some .colorEink1 => True
  | none => False

/-- The framebuffers are in `HAL_PIXEL_FORMAT_RGBA_8888`. -/
def rgbaFormat : Act ⊕ BufferHandle → Bool
  | .inl (.compose (.convert env)) => env.format == halPixelFormatRgba8888
  | _ => true

/-- The luma is converted here, not by RGA (`sys.eink.rgba2y4_by_rga`). -/
def convertsHere : Act ⊕ BufferHandle → Bool
  | .inl (.compose (.convert env)) => !env.rgba2y4ByRga
  | _ => true

def paintsRgba (s : Client) (a : Act ⊕ BufferHandle) : Prop :=
  paintsOwn s a ∧ rgbaFormat a = true

instance (s : Client) (a : Act ⊕ BufferHandle) : Decidable (paintsRgba s a) :=
  inferInstanceAs (Decidable (_ ∧ _))

def convertsOwn (s : Client) (a : Act ⊕ BufferHandle) : Prop :=
  paintsRgba s a ∧ convertsHere a = true

instance (s : Client) (a : Act ⊕ BufferHandle) : Decidable (convertsOwn s a) :=
  inferInstanceAs (Decidable (_ ∧ _))

/-- Pixel `(x, y)` of a frame with rows of `W` pixels. -/
def framePixel (W : Nat) (frame : Int → BitVec 8) (x y : Nat) : Nat :=
  nibble (frame (y * (W / 2 : Nat) + (x / 2 : Nat))) x

/-- A grey panel shows the luma of what was drawn, diffused to sixteen levels; in `EPD_A2_DITHER` to
black and white, without the last two pixels of each row. -/
def ShowsGrey (W H : Nat) (luma : BitVec 32 → BitVec 8) (d : Drawing) (x : EinkComposition × Nat)
    (frame : Int → BitVec 8) : Prop :=
  let src := lumaAt luma (d.info x.1.fbHandle) (d.bytes x.1.fbHandle x.2)
  ∀ i j : Nat, i < W → j < H →
    if x.1.einkMode = epdA2Dither then i < W - 2 → framePixel W frame i j = shown2 (W - 2) src j i
    else (framePixel W frame i j : Int) = shown16 W src j i

/-- A colour panel shows what was drawn through its filter. -/
def ShowsColour (W H : Nat) (d : Drawing) (x : EinkComposition × Nat)
    (frame : Int → BitVec 8) : Prop :=
  ∀ i j : Nat, i < W → j < H → framePixel W frame i j =
    blockMean (words (d.bytes x.1.fbHandle x.2)) (d.info x.1.fbHandle).stride (cfaShift (i - j)) i j

section Converters

variable {W H : Nat} {luma : BitVec 32 → BitVec 8} {d : Drawing} {x : EinkComposition × Nat}
  {old new : Int → BitVec 8}

theorem setMode_grey {mode : Int} (ha : mode ≠ epdA2Dither) (hs : mode ≠ epdSuspend) :
    (setMode 0 mode).map Prod.fst = some .y4Dither := by
  simp only [setMode, ne_eq, not_true_eq_false, ↓reduceIte, setEinkMode, ha, hs]
  split <;> rfl

theorem screenLeaves_grey (hW : W % 8 = 0) (hH : H % 2 = 0)
    (h : screenLeaves ⟨W, H, 0⟩ luma d x old new) : ShowsGrey W H luma d x new := by
  intro i j hi hj
  by_cases ha : x.1.einkMode = epdA2Dither
  · have hm : (setMode 0 x.1.einkMode).map Prod.fst = some .y1Dither := by rw [ha]; rfl
    simp only [screenLeaves, hm] at h
    obtain ⟨rga, hc, rfl⟩ := h
    rw [if_pos ha]
    exact fun hi2 => (panelNibble2_copied hW hH old hc hi hj).trans (if_pos hi2)
  · have hs : x.1.einkMode ≠ epdSuspend := by
      intro hs
      simp only [screenLeaves, hs, setMode_suspend, Option.map_none] at h
    simp only [screenLeaves, setMode_grey ha hs] at h
    obtain ⟨rga, hc, rfl⟩ := h
    rw [if_neg ha]
    exact panelNibble_copied hW hH old hc hi hj

theorem screenLeaves_colour (hW : W % 24 = 0) (hH : H % 2 = 0)
    (h : screenLeaves ⟨W, H, 2⟩ luma d x old new) : ShowsColour W H d x new := by
  have hs : x.1.einkMode ≠ epdSuspend := by
    intro hs
    simp only [screenLeaves, hs, setMode_suspend, Option.map_none] at h
  have hm : (setMode 2 x.1.einkMode).map Prod.fst = some .colorEink2 := by
    simp [setMode, setColorEinkMode, hs]
  simp only [screenLeaves, hm] at h
  obtain ⟨rga, hc, rfl⟩ := h
  exact showsFramebuffer_copied hW hH old hc

end Converters

/-! ## Two small panels -/

/-- Framebuffers of 8 by 2 grey pixels. -/
def greyDrawing : Drawing where
  info _ := ⟨8, 2⟩
  bytes h n := greyscale fun k => BitVec.ofInt 8 (29 * k + 100 * n + h)

theorem exists_leaves_grey (x : EinkComposition × Nat) (old : Int → BitVec 8)
    (hs : x.1.einkMode ≠ epdSuspend) :
    ∃ new, screenLeaves ⟨8, 2, 0⟩ (·.setWidth 8) greyDrawing x old new := by
  by_cases ha : x.1.einkMode = epdA2Dither
  · have hm : (setMode 0 x.1.einkMode).map Prod.fst = some .y1Dither := by rw [ha]; rfl
    simp only [screenLeaves, hm]
    exact ⟨_, _, copies_greyscale (W := 8) (H := 2) _ rfl, rfl⟩
  · simp only [screenLeaves, setMode_grey ha hs]
    exact ⟨_, _, copies_greyscale (W := 8) (H := 2) _ rfl, rfl⟩

/-- Framebuffers of 24 by 2 pixels, in rows of 32. -/
def colourDrawing : Drawing where
  info _ := ⟨32, 2⟩
  bytes _ _ := twoColumns 32

theorem exists_leaves_colour (x : EinkComposition × Nat) (old : Int → BitVec 8)
    (hs : x.1.einkMode ≠ epdSuspend) :
    ∃ new, screenLeaves ⟨24, 2, 2⟩ (·.setWidth 8) colourDrawing x old new := by
  have hm : (setMode 2 x.1.einkMode).map Prod.fst = some .colorEink2 := by
    simp [setMode, setColorEinkMode, hs]
  simp only [screenLeaves, hm]
  exact ⟨_, _, @copies_twoColumns 24 2 ⟨32, 2⟩ (by decide), rfl⟩

/-! ## The whole way -/

section Run

variable {s : Client} {tr : List (Ev ⊕ BufferHandle)} {p : Int → BitVec 8}
  {out : List (Int → BitVec 8)}

/-- What holds of each picture that a converter leaves holds of each one sent. -/
theorem shows_all {luma : BitVec 32 → BitVec 8} {d : Drawing}
    {R : EinkComposition × Nat → (Int → BitVec 8) → Prop} (hr : clientSystem.Run paintsOwn tr s)
    (hp : Paints (screenLeaves s.st.panel luma d) tr p out)
    (hR : ∀ x old q, screenLeaves s.st.panel luma d x old q → R x q) :
    List.Forall₂ R ((queued tr).take out.length) out :=
  (painted_run hr hp).sent.imp fun x q ⟨old, h⟩ => hR x old q h

/-- **What a grey panel shows.** On a panel whose width is a multiple of 8 and whose height is even,
the frames sent show what had been drawn when they were queued (`ShowsGrey`). -/
theorem grey_shows_drawn (W H : Nat) (hW : W % 8 = 0) (hH : H % 2 = 0)
    (luma : BitVec 32 → BitVec 8) (d : Drawing) (hr : clientSystem.Run convertsOwn tr s)
    (hpanel : s.st.panel = ⟨W, H, 0⟩) (hp : Paints (screenLeaves s.st.panel luma d) tr p out) :
    List.Forall₂ (ShowsGrey W H luma d) ((queued tr).take out.length) out := by
  refine shows_all (hr.mono fun _ _ h => h.1.1) hp fun x old q h => ?_
  rw [hpanel] at h
  exact screenLeaves_grey hW hH h

/-- `grey_shows_drawn` for one frame, whose framebuffer is drawn again after it was sent. -/
theorem grey_shows_drawn_8x2 : ∃ tr s p out, clientSystem.Run convertsOwn tr s ∧
    s.st.panel = ⟨8, 2, 0⟩ ∧ Paints (screenLeaves s.st.panel (·.setWidth 8) greyDrawing) tr p out ∧
    (queued tr).map Prod.snd = [1] ∧ content 1 tr = 2 ∧ s.st.unsent = [] ∧
    List.Forall₂ (ShowsGrey 8 2 (·.setWidth 8) greyDrawing)
      ((queued tr).take out.length) out := by
  obtain ⟨tr, s, hr, hc⟩ := System.exists_run clientSystem convertsOwn
    (s := { st := initSt ⟨8, 2, 0⟩ 0 }) ⟨_, ⟨⟨8, 2, 0⟩, 0, rfl, rfl⟩, rfl, rfl⟩
    (List.flatten [[.inr 1], (frameActs { handle := 1 } ++ popActs ++ sendActs 1).map .inl,
      [.inr 1]])
    (fun tr s => decide (s.st.panel = ⟨8, 2, 0⟩) && (queued tr).map Prod.snd == [1] &&
      content 1 tr == 2 && s.st.unsent == []) (by decide +kernel)
  simp only [Bool.and_eq_true, beq_iff_eq, decide_eq_true_eq] at hc
  obtain ⟨⟨⟨hpanel, h1⟩, h2⟩, h3⟩ := hc
  obtain ⟨p, out, hp⟩ : ∃ p out,
      Paints (screenLeaves s.st.panel (·.setWidth 8) greyDrawing) tr p out := by
    rw [hpanel]
    exact exists_paints exists_leaves_grey (hr.mono fun _ _ h => h.1.1)
  exact ⟨tr, s, p, out, hr, hpanel, hp, h1, h2, h3,
    grey_shows_drawn 8 2 (by decide) (by decide) _ _ hr hpanel hp⟩

/-- **What a colour panel shows**, where 24 divides its width and 2 its height. -/
theorem colour_shows_drawn (W H : Nat) (hW : W % 24 = 0) (hH : H % 2 = 0)
    (luma : BitVec 32 → BitVec 8) (d : Drawing) (hr : clientSystem.Run paintsRgba tr s)
    (hpanel : s.st.panel = ⟨W, H, 2⟩) (hp : Paints (screenLeaves s.st.panel luma d) tr p out) :
    List.Forall₂ (ShowsColour W H d) ((queued tr).take out.length) out := by
  refine shows_all (hr.mono fun _ _ h => h.1) hp fun x old q h => ?_
  rw [hpanel] at h
  exact screenLeaves_colour hW hH h

/-- `colour_shows_drawn` for two frames, of which the second is on its way. -/
theorem colour_shows_drawn_24x2 : ∃ tr s p out, clientSystem.Run paintsRgba tr s ∧
    s.st.panel = ⟨24, 2, 2⟩ ∧
    Paints (screenLeaves s.st.panel (·.setWidth 8) colourDrawing) tr p out ∧
    (queued tr).length = 2 ∧ s.st.unsent.length = 1 ∧
    List.Forall₂ (ShowsColour 24 2 colourDrawing) ((queued tr).take out.length) out := by
  obtain ⟨tr, s, hr, hc⟩ := System.exists_run clientSystem paintsRgba
    (s := { st := initSt ⟨24, 2, 2⟩ 0 }) ⟨_, ⟨⟨24, 2, 2⟩, 0, rfl, rfl⟩, rfl, rfl⟩
    (List.flatten [[.inr 1], (frameActs { handle := 1 } ++ popActs ++ sendActs 1).map .inl,
      [.inr 2], (frameActs { handle := 2 }).map .inl])
    (fun tr s => decide (s.st.panel = ⟨24, 2, 2⟩) && (queued tr).length == 2 &&
      s.st.unsent.length == 1) (by decide +kernel)
  simp only [Bool.and_eq_true, beq_iff_eq, decide_eq_true_eq] at hc
  obtain ⟨⟨hpanel, h1⟩, h2⟩ := hc
  obtain ⟨p, out, hp⟩ : ∃ p out,
      Paints (screenLeaves s.st.panel (·.setWidth 8) colourDrawing) tr p out := by
    rw [hpanel]
    exact exists_paints exists_leaves_colour (hr.mono fun _ _ h => h.1)
  exact ⟨tr, s, p, out, hr, hpanel, hp, h1, h2,
    colour_shows_drawn 24 2 (by decide) (by decide) _ _ hr hpanel hp⟩

end Run

end EinkHwc
