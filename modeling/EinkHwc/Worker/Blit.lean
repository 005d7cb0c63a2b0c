import EinkHwc.Worker.Commit
import EinkHwc.Mem.Fields

/-!
# The blits of the converters

`Rgba8888ClipRgba`, `Rgba888ToGray256ByRga` and `Rgba888ToGray16ByRga` have RGA copy the framebuffer
to the start of a buffer, with the panel's size rounded down to multiples of 8 and 2. They differ in
the format of the destination, which says how a pixel is converted and stored.

RGA itself is not in the source. `Copies` is what the blits rely on, for a source and a destination
of one size: each pixel of the rectangle goes to its place, by rows of `wstride` pixels.
-/

namespace EinkHwc

/-- `rga_rect_t`, as `rga_set_rect` fills it, without the format. -/
structure RgaRect where
  xoffset : Int
  yoffset : Int
  width : Int
  height : Int
  wstride : Int
  hstride : Int
  deriving DecidableEq, Repr

/-- `src.rect` and `dst.rect` of a call of `RkRgaBlit`. -/
structure RgaBlit where
  src : RgaRect
  dst : RgaRect
  deriving DecidableEq, Repr

/-- What gralloc reports for a framebuffer, in pixels. -/
structure FbInfo where
  stride : Int
  height : Int
  deriving DecidableEq, Repr

/-- `ebc_buf_info.width - (ebc_buf_info.width % 8)` -/
def PanelInfo.width8 (panel : PanelInfo) : Int := panel.width - panel.width.tmod 8

/-- `ebc_buf_info.height - (ebc_buf_info.height % 2)` -/
def PanelInfo.height2 (panel : PanelInfo) : Int := panel.height - panel.height.tmod 2

/-- The rectangles of all three functions. -/
def screenBlit (panel : PanelInfo) (fb : FbInfo) : RgaBlit :=
  { src := ⟨0, 0, panel.width8, panel.height2, fb.stride, fb.height⟩
    dst := ⟨0, 0, panel.width8, panel.height2, panel.width8, panel.height2⟩ }

/-- `Rgba8888ClipRgba`, into the RGA buffer. -/
def rgba8888ClipRgba : PanelInfo → FbInfo → RgaBlit := screenBlit

/-- `Rgba888ToGray256ByRga`, into the luma plane of the RGA buffer. -/
def rgba888ToGray256ByRga : PanelInfo → FbInfo → RgaBlit := screenBlit

/-- The offset of pixel `(x, y)` of a rectangle. -/
def RgaRect.at (r : RgaRect) (x y : Nat) : Int := (r.yoffset + y) * r.wstride + r.xoffset + x

/-- The blit copies `read` to `written`, pixel by pixel, through `conv`. -/
def RgaBlit.Copies {α β : Type} (b : RgaBlit) (conv : α → β) (read : Int → α)
    (written : Int → β) : Prop :=
  ∀ x y : Nat, (x : Int) < b.dst.width → (y : Int) < b.dst.height →
    written (b.dst.at x y) = conv (read (b.src.at x y))

/-- The pixels of a buffer in a format of four bytes. -/
def words (m : Int → BitVec 8) (k : Int) : BitVec 32 := Mem.load32 m (4 * k)

section Screen

variable {α β : Type} {W H : Nat} {panelColor : Int} {fb : FbInfo} {conv : α → β}
  {read : Int → α} {written : Int → β}

theorem width8_natCast : (⟨W, H, panelColor⟩ : PanelInfo).width8 = (W - W % 8 : Nat) := by
  simp only [PanelInfo.width8, Int.tmod_eq_emod_of_nonneg (Int.natCast_nonneg W)]
  omega

theorem height2_natCast : (⟨W, H, panelColor⟩ : PanelInfo).height2 = (H - H % 2 : Nat) := by
  simp only [PanelInfo.height2, Int.tmod_eq_emod_of_nonneg (Int.natCast_nonneg H)]
  omega

/-- Rows of the source by its stride, rows of the destination without a gap. -/
theorem copies_screenBlit_iff :
    (screenBlit ⟨W, H, panelColor⟩ fb).Copies conv read written ↔ ∀ x y : Nat, x < W - W % 8 →
      y < H - H % 2 →
        written (y * (W - W % 8 : Nat) + x) = conv (read (y * fb.stride + x)) := by
  simp only [RgaBlit.Copies, screenBlit, RgaRect.at, Int.zero_add, Int.add_zero, width8_natCast,
    height2_natCast, Int.ofNat_lt]

end Screen

end EinkHwc
