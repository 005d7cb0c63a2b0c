import EinkHwc.Dither.Bounds2
import EinkHwc.Dither.Region
import EinkHwc.Dither.Screen

/-!
# From the framebuffer to black and white

`ConvertToY1Dither` dithers the luma plane with `gray256_to_gray2_dither`, for the region of the
whole panel without its last row and its last column. The rows have the width of that region made
even, and the loop over them runs one row further (`y1Dither_not_covers`).

- **The bytes** (`row2_out`, `rows_out`): each row stores the bytes of its levels, which are those
  of the plain definition, for rows two pixels shorter than the panel's.
- **The picture** (`y1_shows`): the luma of the framebuffer, diffused to black and white; the last
  two pixels of each row show what was there before.
-/

namespace EinkHwc

open Mem

namespace Dither

/-- The level of pixel `(x, y)` of a picture with rows of `w`. -/
def level2 (w : Nat) (src : Nat → Nat → Int) (y x : Nat) : Int :=
  Diffusion.level two (src y) (Diffusion.residual two w src y) x

/-- The nibble that is shown for it. -/
def shown2 (w : Nat) (src : Nat → Nat → Int) (y x : Nat) : Nat :=
  if 0x80 ≤ level2 w src y x then 0xf else 0x0

/-- Byte `k` of a row with the levels `l`. -/
def levelByte (l : Nat → Int) (k : Nat) : BitVec 8 :=
  (nibble2 0x80 (l (2 * k + 1)) <<< 4 ||| nibble2 0x80 (l (2 * k))).setWidth 8

theorem nibble_levelByte (l : Nat → Int) (x : Nat) :
    nibble (levelByte l (x / 2)) x = if 0x80 ≤ l x then 0xf else 0x0 := by
  unfold nibble levelByte nibble2
  by_cases hx : x % 2 = 0
  · rw [if_pos hx, show 2 * (x / 2) = x by omega]
    split <;> split <;> decide
  · rw [if_neg hx, show 2 * (x / 2) + 1 = x by omega]
    split <;> split <;> decide

/-! ## The bytes of a row -/

section Row
variable {p R : Nat → Int} {w : Nat} {a d : Int} {img : Int → BitVec 8}

/-- The clipped value of a pixel is its level. -/
theorem two_gTemp {x : Nat} {s : Lines} (hs : s.Upto two p R w x) (hx : x < w) {data : Int}
    (hdata : data = p x) (left right : Bool) :
    (s.pixel (quant2 0x80) data x left right).gTemp = Diffusion.level two p R x := by
  subst hdata
  exact pixel_gTemp.trans (clip_eq_level rfl hs.v0 (by rw [hs.res0 x hx, if_neg (by omega)]))

/-- The row after `n` steps, with its bytes. -/
structure Row2.Stored (p R : Nat → Int) (w : Nat) (a d : Int) (n : Nat) (r : Row2) : Prop where
  at' : r.At p R w a d n
  out : r.out = (List.range n).map fun k : Nat => (d + k, levelByte (Diffusion.level two p R) k)

variable (himg : ∀ x : Nat, p x = (img (a + x)).toNat) (hR : InBand R)
include himg hR

theorem stored_block2 {n : Nat} {r : Row2} (hr : r.Stored p R w a d n) (hn : 2 * n + 2 ≤ w) :
    (block2 img 0x80 (2 * n) r).Stored p R w a d (n + 1) := by
  have hp := src_bounds himg
  obtain ⟨hdata0, hdata1⟩ := short_data himg n
  rw [← hr.at'.src] at hdata0 hdata1
  have hleft : decide (2 * n ≠ 0) = decide (0 < 2 * n) := decide_eq_decide.2 (by omega)
  obtain ⟨-, -, hs, -⟩ := two_pixel hp hR ⟨hr.at'.lines, hr.at'.exact⟩ (by omega) hdata0 hleft
  have hg0 := two_gTemp hr.at'.lines (by omega) hdata0 (decide (2 * n ≠ 0)) true
  have hg1 := two_gTemp hs (by omega) hdata1 true true
  refine ⟨at_block2 himg hR hr.at' hn, ?_⟩
  rw [List.range_succ, List.map_append, ← hr.out, List.map_singleton, ← hr.at'.dst, levelByte,
    ← hg0, ← hg1]
  rfl

/-- A row stores the bytes of its levels. -/
theorem row2_out {W : Int} (hW : W % 2 = 0) {res0 res1 : Nat → Int}
    (h0 : ∀ k, k < W.toNat → res0 k = R k) (h1 : ∀ k, k < W.toNat → res1 k = 0) :
    (luma8bitTo4bitRow2 img a d res0 res1 W 0x80).out = (List.range (W / 2).toNat).map
      fun k : Nat => (d + k, levelByte (Diffusion.level two p R) k) := by
  refine Row2.Stored.out (p := p) (R := R) (w := W.toNat) (a := a) ?_
  unfold luma8bitTo4bitRow2
  rw [steps2 hW]
  exact fold_rule (I := Row2.Stored p R W.toNat a d) ⟨at_zero2 h0 h1, rfl⟩ fun n r hn hr =>
    stored_block2 himg hR hr (by omega)

end Row

/-! ## The picture -/

section Picture
variable (img : Int → BitVec 8)

theorem rows_out {w : Int} (hw : w % 2 = 0) (b : Bool) (addr : Nat → Int × Int) (n : Nat) :
    (rows img w 0x80 b addr n {}).out = (List.range n).flatMap fun y =>
      (List.range (w / 2).toNat).map fun k : Nat =>
        ((addr y).2 + k, levelByte (level2 w.toNat (rowAt img addr) y) k) := by
  induction n with
  | zero => rfl
  | succ n ih =>
    have hat : (rows img w 0x80 b addr n {}).At img w b addr n := rows_at hw n
    have hrow := row2_out (p := rowAt img addr n) (a := (addr n).1) (d := (addr n).2)
      (fun _ => rfl) (residual_two (w := w.toNat) (rowAt_bounds img addr) n) hw hat.residuals
      hat.zero
    rw [rows_succ, List.range_succ, List.flatMap_append, ← ih]
    simp only [Pass.row, hrow, List.flatMap_singleton]
    rfl

variable {W H : Nat} (hW : W % 2 = 0) (hW0 : 2 ≤ W)
include hW hW0

/-- The stores of `ConvertToY1Dither`. -/
theorem y1Dither_out : (y1Dither img W H).out = (List.range H).flatMap fun y : Nat =>
    (List.range (W / 2 - 1)).map fun k : Nat => ((y * (W / 2 : Nat) + k : Int),
      levelByte (level2 (W - 2) (srcRow img W) y) k) := by
  have hup : roundUp (0 * (W : Int) + 0) = 0 := by simp [roundUp]
  have hwidth : roundWidth 0 ((W : Int) - 1 - 0) = (W - 2 : Nat) := by
    unfold roundWidth
    rw [Int.tmod_eq_emod_of_nonneg (by omega)]
    split <;> omega
  have hcount : rectCount H ⟨0, 0, W - 1, H - 1⟩ = H := by
    unfold rectCount
    simp only
    omega
  have hsrc (y x : Nat) :
      rowAt img (rectAddr W W ⟨0, 0, W - 1, H - 1⟩) y x = srcRow img W y x := by
    simp only [rowAt, rectAddr, srcRow, hup, Int.zero_add]
  have hdst (y : Nat) :
      (rectAddr W W ⟨0, 0, W - 1, H - 1⟩ y).2 = (y * (W / 2 : Nat) : Int) := by
    have hrow : (y * W : Int) = y * (W / 2 : Nat) * 2 := by
      rw [Int.mul_assoc]
      congr 1
      omega
    simp only [rectAddr, hup, Int.zero_add]
    rw [hrow, Int.shiftRight_eq_div_pow]
    exact Int.mul_ediv_cancel _ (by decide)
  have hhalf : (((W - 2 : Nat) : Int) / 2).toNat = W / 2 - 1 := by omega
  unfold y1Dither gray256ToGray2Dither screenRegion
  rw [List.foldl_cons, List.foldl_nil, rect_eq_rows, hup, hwidth, hcount]
  refine (rows_out img (by omega) _ _ _).trans ?_
  rw [hhalf]
  simp only [hdst, Int.toNat_natCast, funext fun y => funext (hsrc y)]

/-- A byte of the frame. -/
theorem run_y1Dither (m : Int → BitVec 8) {y k : Nat} (hy : y < H) (hk : k < W / 2) :
    run m (y1Dither img W H).out (y * (W / 2 : Nat) + k) = if k < W / 2 - 1
      then levelByte (level2 (W - 2) (srcRow img W) y) k else m (y * (W / 2 : Nat) + k) := by
  have hout := @y1Dither_out img W H hW hW0
  have hall : ∀ s ∈ (y1Dither img W H).out, ∃ y k : Nat, (k : Int) < (W / 2 - 1 : Nat) ∧
      s = ((y : Int) * (W / 2 : Nat) + k, levelByte (level2 (W - 2) (srcRow img W) y) k) := by
    intro s hs
    rw [hout, List.mem_flatMap] at hs
    obtain ⟨y', -, hs⟩ := hs
    obtain ⟨k', hk', rfl⟩ := List.mem_map.1 hs
    exact ⟨y', k', by exact_mod_cast List.mem_range.1 hk', rfl⟩
  rw [run_rows hall (by omega) (by omega) fun hlt => ?_]
  · simp only [Int.ofNat_lt]
  · rw [hout, List.mem_flatMap]
    exact ⟨y, List.mem_range.2 hy, List.mem_map.2 ⟨k, List.mem_range.2 (by omega), rfl⟩⟩

end Picture

section Screen
variable {W H : Nat} {info : FbInfo} {fb rga : Int → BitVec 8} {luma : BitVec 32 → BitVec 8}

/-- The panel pixel `(x, y)` that `ConvertToY1Dither` leaves, where there was `frame`. -/
def panelNibble2 (W H : Nat) (rga frame : Int → BitVec 8) (y x : Nat) : Nat :=
  nibble (run frame (y1Dither rga W H).out (y * (W / 2 : Nat) + (x / 2 : Nat))) x

theorem panelNibble2_copied (hW : W % 8 = 0) (hH : H % 2 = 0) (frame : Int → BitVec 8)
    (hc : (rgba888ToGray256ByRga ⟨W, H, 0⟩ info).Copies luma (words fb) rga) {x y : Nat}
    (hx : x < W) (hy : y < H) : panelNibble2 W H rga frame y x = if x < W - 2
      then shown2 (W - 2) (lumaAt luma info fb) y x
      else nibble (frame (y * (W / 2 : Nat) + (x / 2 : Nat))) x := by
  unfold panelNibble2
  rw [run_y1Dither rga (by omega) (by omega) frame hy (by omega)]
  by_cases hx2 : x < W - 2
  · have hlevel : level2 (W - 2) (srcRow rga W) y x =
        level2 (W - 2) (lumaAt luma info fb) y x :=
      Diffusion.level_cone hx2 fun y' x' hy' hx' _ =>
        srcRow_copied hW hH hc (by omega) (by omega)
    rw [if_pos (by omega), if_pos hx2, nibble_levelByte, shown2, hlevel]
  · rw [if_neg (by omega), if_neg hx2]

/-- **What a grey panel shows in `EPD_A2_DITHER`**: the luma of the framebuffer, diffused to black
and white in rows of `W - 2` pixels, and on their right what the buffer held before. -/
theorem y1_shows (W H : Nat) (info : FbInfo) (hW : W % 8 = 0) (hH : H % 2 = 0)
    (luma : BitVec 32 → BitVec 8) (fb rga frame : Int → BitVec 8)
    (hc : (rgba888ToGray256ByRga ⟨W, H, 0⟩ info).Copies luma (words fb) rga) (x y : Nat)
    (hx : x < W) (hy : y < H) : panelNibble2 W H rga frame y x = if x < W - 2
      then shown2 (W - 2) (lumaAt luma info fb) y x
      else nibble (frame (y * (W / 2 : Nat) + (x / 2 : Nat))) x :=
  panelNibble2_copied hW hH frame hc hx hy

theorem y1_shows_8x2 :
    panelNibble2 8 2 (BitVec.ofInt 8 <| 29 * ·) (fun _ => 0x5a) 1 7 = if 7 < 8 - 2
      then shown2 (8 - 2) (lumaAt (·.setWidth 8) ⟨8, 2⟩ (greyscale (BitVec.ofInt 8 <| 29 * ·))) 1 7
      else nibble
        ((fun _ => 0x5a : Int → BitVec 8) ((1 : Nat) * (8 / 2 : Nat) + (7 / 2 : Nat))) 7 :=
  y1_shows 8 2 ⟨8, 2⟩ (by decide) (by decide) _ _ _ (fun _ => 0x5a)
    (copies_greyscale _ (by decide)) 7 1 (by decide) (by decide)

end Screen

end Dither

end EinkHwc
