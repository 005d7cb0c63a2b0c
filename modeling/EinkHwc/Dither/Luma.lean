import EinkHwc.Dither.Packers

/-!
# A dither of memory that nobody wrote

`Luma8bit_to_4bit_dither` allocates a gray picture, dithers it with the rows of
`gray256_to_gray16_dither`, and frees it. It never writes the gray picture, and never reads the
picture that it was given.

* `luma8bitTo4bitDither_eq`: the frame is that of the allocated memory.
* `luma_dither_agree_iff`: so it is the frame of the picture only where there are no rows.
-/

namespace EinkHwc

open Mem

namespace Dither

/-- The body of the loop at row `h`. -/
def Frame.lumaRow (gray256 : Int → BitVec 8) (virWidth panelW h : Nat) (f : Frame) : Frame :=
  f.rowOf gray256 panelW virWidth h

/-- `Luma8bit_to_4bit_dither`, with `dst` at 0. `gray256` is what `malloc` found at `gray_256`. -/
def luma8bitTo4bitDither (gray256 _src : Int → BitVec 8) (virHeight virWidth panelW : Nat) :
    Frame :=
  virHeight.fold (fun h _ f => f.lumaRow gray256 virWidth panelW h)
    { lineBuffer := fun _ _ => 0, src := 0, dst := 0 }

/-- The picture is not read. -/
theorem luma8bitTo4bitDither_eq (gray256 src : Int → BitVec 8) (h w : Nat) :
    luma8bitTo4bitDither gray256 src h w w = gray256ToGray16Dither gray256 h w w := rfl

/-- A picture of one level is packed as it is. -/
theorem run_dither_level {c : BitVec 8} (hc : c.toNat % 16 = 0) (m : Int → BitVec 8) {h N : Nat}
    (hh : 0 < h) (hN : 0 < N) :
    run m (gray256ToGray16Dither (fun _ => c) h (8 * N) (8 * N)).out 0 = packByte c c := by
  have hrun := run_packRow packByte (fun _ => c) m hh (Nat.mul_pos (by decide : 0 < 4) hN)
  rw [← gray256ToGray16Dither_fixed (fun _ => c) h N (8 * N)] at hrun
  · simpa using hrun
  · intro y x _ _
    show (c.toNat : Int) % 16 = 0
    omega

/-- **The picture is never read**: the two dithers write the same frame, whatever the allocated
memory holds, exactly if there is no row. -/
theorem luma_dither_agree_iff (src : Int → BitVec 8) (h w : Nat) (hw : 0 < w) (hw8 : w % 8 = 0) :
    (∀ gray256 m, run m (luma8bitTo4bitDither gray256 src h w w).out =
      run m (gray256ToGray16Dither src h w w).out) ↔ h = 0 := by
  obtain ⟨N, rfl⟩ : ∃ N, w = 8 * N := ⟨w / 8, by omega⟩
  constructor
  · intro hall
    by_contra hh
    -- Memory of zeros and memory of 0xf0 would give the same first byte.
    have hlevel (c : BitVec 8) (hc : c.toNat % 16 = 0) : packByte c c =
        run (fun _ => 0) (gray256ToGray16Dither src h (8 * N) (8 * N)).out 0 := by
      have hrun := run_dither_level hc (fun _ => 0) (h := h) (N := N) (by omega) (by omega)
      rw [← hrun, ← hall (fun _ => c), luma8bitTo4bitDither_eq]
    have hne : packByte 0x00#8 0x00#8 ≠ packByte 0xf0#8 0xf0#8 := by decide
    exact hne ((hlevel 0x00#8 (by decide)).trans (hlevel 0xf0#8 (by decide)).symm)
  · rintro rfl gray256 m
    unfold luma8bitTo4bitDither gray256ToGray16Dither
    rw [Nat.fold_zero, Nat.fold_zero]

theorem luma_dither_agree_iff_8x2 :
    (∀ gray256 m, run m (luma8bitTo4bitDither gray256 (BitVec.ofInt 8 <| 29 * ·) 2 8 8).out =
      run m (gray256ToGray16Dither (BitVec.ofInt 8 <| 29 * ·) 2 8 8).out) ↔ 2 = 0 :=
  luma_dither_agree_iff _ 2 8 (by decide) (by decide)

/-- A white picture, with zeros in the allocated memory. -/
theorem luma_dither_unread : ¬ ∀ (src : Int → BitVec 8) (h w : Nat), 0 < w → w % 8 = 0 →
    ∀ gray256 m, run m (luma8bitTo4bitDither gray256 src h w w).out =
      run m (gray256ToGray16Dither src h w w).out := by
  intro hall
  have heq := hall (fun _ => 0xf0#8) 1 8 (by decide) (by decide) (fun _ => 0x00#8) fun _ => 0
  have hbyte := congrFun heq 0
  revert hbyte
  decide +kernel

end Dither

end EinkHwc
