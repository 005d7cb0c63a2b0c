import EinkHwc.Colour.Filter
import EinkHwc.Dither.Row16
import EinkHwc.Worker.Blit

/-!
# From the framebuffer to a grey panel

`ConvertToY4Dither` has RGA convert the framebuffer to luma, in rows of the panel's width rounded
down, and dithers the luma plane with the panel's own width. Where nothing is rounded, the panel
shows the framebuffer's luma, diffused to sixteen levels (`y4_shows`).

Errors go to the right and down, so that a change of the framebuffer shows in a cone below it only
(`y4_cone`): one column more on the left for each row.
-/

namespace EinkHwc

open Mem

namespace Dither

variable {W H : Nat} {info : FbInfo} {fb fb' rga rga' : Int → BitVec 8}
  {luma : BitVec 32 → BitVec 8}

/-- The luma of pixel `(x, y)` of a framebuffer. -/
def lumaAt (luma : BitVec 32 → BitVec 8) (info : FbInfo) (fb : Int → BitVec 8) (y x : Nat) : Int :=
  (luma (words fb (y * info.stride + x))).toNat

/-- The level of a pixel of a picture, from 0 to 15. -/
def shown16 (w : Nat) (src : Nat → Nat → Int) (y x : Nat) : Int :=
  Diffusion.level sixteen (src y) (Diffusion.residual sixteen w src y) x / 16

/-- The panel pixel `(x, y)` that `ConvertToY4Dither` leaves, where there was `frame`. -/
def panelNibble (W H : Nat) (rga frame : Int → BitVec 8) (y x : Nat) : Nat :=
  nibble (run frame (gray256ToGray16Dither rga H W W).out (y * (W / 2 : Nat) + (x / 2 : Nat))) x

/-- Where nothing is rounded, the luma plane is that of the framebuffer. -/
theorem srcRow_copied (hW : W % 8 = 0) (hH : H % 2 = 0)
    (hc : (rgba888ToGray256ByRga ⟨W, H, 0⟩ info).Copies luma (words fb) rga) {x y : Nat}
    (hx : x < W) (hy : y < H) : srcRow rga W y x = lumaAt luma info fb y x := by
  have h := copies_screenBlit_iff.1 hc x y (by omega) (by omega)
  rw [hW, Nat.sub_zero] at h
  rw [srcRow, lumaAt, h]

/-- The nibbles of the frame are the levels of the luma plane. -/
theorem nibble_gray16 (rga frame : Int → BitVec 8) (hW : W % 8 = 0) {x y : Nat} (hx : x < W)
    (hy : y < H) : (panelNibble W H rga frame y x : Int) = gray16 rga W y x := by
  obtain ⟨N, rfl⟩ : ∃ N, W = 8 * N := ⟨W / 8, by omega⟩
  have hhalf : ((8 * N / 2 : Nat) : Int) = 4 * N := by omega
  have hbyte := rowByte_toNat rga (8 * N) y (x / 2)
  have h0 := gray16_bounds rga (8 * N) y (2 * (x / 2))
  have h1 := gray16_bounds rga (8 * N) y (2 * (x / 2) + 1)
  unfold panelNibble
  rw [hhalf, run_gray256ToGray16Dither rga N frame (8 * N) hy (by omega)]
  unfold nibble
  split
  · rename_i hx2
    rw [show 2 * (x / 2) = x by omega] at hbyte h0
    push_cast
    omega
  · rename_i hx2
    rw [show 2 * (x / 2) + 1 = x by omega] at hbyte h1
    push_cast
    omega

/-- Where nothing is rounded, the levels are those of the framebuffer's luma. -/
theorem panelNibble_copied (hW : W % 8 = 0) (hH : H % 2 = 0) (frame : Int → BitVec 8)
    (hc : (rgba888ToGray256ByRga ⟨W, H, 0⟩ info).Copies luma (words fb) rga) {x y : Nat}
    (hx : x < W) (hy : y < H) :
    (panelNibble W H rga frame y x : Int) = shown16 W (lumaAt luma info fb) y x := by
  rw [nibble_gray16 rga frame hW hx hy]
  refine congrArg (· / 16) (Diffusion.level_cone hx fun y' x' hy' hx' _ => ?_)
  exact srcRow_copied hW hH hc hx' (by omega)

/-- **What a grey panel shows**: the luma of the framebuffer, diffused to sixteen levels. -/
theorem y4_shows (W H : Nat) (info : FbInfo) (hW : W % 8 = 0) (hH : H % 2 = 0)
    (luma : BitVec 32 → BitVec 8) (fb rga frame : Int → BitVec 8)
    (hc : (rgba888ToGray256ByRga ⟨W, H, 0⟩ info).Copies luma (words fb) rga) (x y : Nat)
    (hx : x < W) (hy : y < H) :
    (panelNibble W H rga frame y x : Int) = shown16 W (lumaAt luma info fb) y x :=
  panelNibble_copied hW hH frame hc hx hy

/-- A framebuffer whose channels all have the values `p`. -/
def greyscale (p : Int → BitVec 8) (a : Int) : BitVec 8 := p (a / 4)

theorem words_greyscale (p : Int → BitVec 8) (k : Int) :
    words (greyscale p) k = p k ++ p k ++ p k ++ p k := by
  have h0 : 4 * k / 4 = k := by omega
  have h1 : (4 * k + 1) / 4 = k := by omega
  have h2 : (4 * k + 2) / 4 = k := by omega
  have h3 : (4 * k + 3) / 4 = k := by omega
  unfold words load32 greyscale
  rw [h0, h1, h2, h3]

/-- RGA copies it, where its rows have no gap. -/
theorem copies_greyscale (p : Int → BitVec 8) (hW : W % 8 = 0) :
    (rgba888ToGray256ByRga ⟨W, H, 0⟩ ⟨W, H⟩).Copies (·.setWidth 8) (words (greyscale p)) p := by
  refine copies_screenBlit_iff.2 fun x y _ _ => ?_
  rw [words_greyscale, BitVec.setWidth_append_eq_right, hW, Nat.sub_zero]

theorem y4_shows_8x2 :
    (panelNibble 8 2 (BitVec.ofInt 8 <| 29 * ·) (fun _ => 0) 1 3 : Int) =
      shown16 8 (lumaAt (·.setWidth 8) ⟨8, 2⟩ (greyscale (BitVec.ofInt 8 <| 29 * ·))) 1 3 :=
  y4_shows 8 2 ⟨8, 2⟩ (by decide) (by decide) _ _ _ (fun _ => 0)
    (copies_greyscale _ (by decide)) 3 1 (by decide) (by decide)

/-- A change of the framebuffer shows to the right of it, and below it from one column further left
for each row. -/
theorem y4_cone (W H : Nat) (info : FbInfo) (hW : W % 8 = 0) (hH : H % 2 = 0)
    (luma : BitVec 32 → BitVec 8) (fb fb' rga rga' frame frame' : Int → BitVec 8)
    (hc : (rgba888ToGray256ByRga ⟨W, H, 0⟩ info).Copies luma (words fb) rga)
    (hc' : (rgba888ToGray256ByRga ⟨W, H, 0⟩ info).Copies luma (words fb') rga') (x y : Nat)
    (hx : x < W) (hy : y < H)
    (hcone : ∀ y' x', y' ≤ y → x' < W → x' ≤ x + (y - y') →
      words fb (y' * info.stride + x') = words fb' (y' * info.stride + x')) :
    panelNibble W H rga frame y x = panelNibble W H rga' frame' y x := by
  have h : (panelNibble W H rga frame y x : Int) = panelNibble W H rga' frame' y x := by
    rw [nibble_gray16 rga frame hW hx hy, nibble_gray16 rga' frame' hW hx hy]
    refine congrArg (· / 16) (Diffusion.level_cone hx fun y' x' hy' hx' hle => ?_)
    rw [srcRow_copied hW hH hc hx' (by omega), srcRow_copied hW hH hc' hx' (by omega), lumaAt,
      lumaAt, hcone y' x' hy' hx' hle]
  exact_mod_cast h

/-- `y4_cone` for a picture that is white from column 5 on, and one that is black. -/
theorem y4_cone_8x2 :
    panelNibble 8 2 (fun k => if k % 8 < 5 then 0 else 0xff#8) (fun _ => 0) 1 3 =
      panelNibble 8 2 (fun _ => 0) (fun _ => 0xff#8) 1 3 := by
  refine y4_cone 8 2 ⟨8, 2⟩ (by decide) (by decide) (·.setWidth 8)
    (greyscale fun k => if k % 8 < 5 then 0 else 0xff#8) (greyscale fun _ => 0) _ _ _ _
    (copies_greyscale _ (by decide)) (copies_greyscale _ (by decide)) 3 1 (by decide) (by decide) ?_
  intro y' x' hy' _ hx'
  have hcol : (y' * 8 + x' : Int) % 8 < 5 := by omega
  rw [words_greyscale, words_greyscale, if_pos hcol]

end Dither

end EinkHwc
