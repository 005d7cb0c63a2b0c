import EinkHwc.Colour.Partial

/-!
# Which bytes the RGB888 converter writes

The column loop takes six panel columns a step and has nothing for the columns that are left over.

* `mem_rgb888ToColorEink2`: the stores are the first `3 * (W / 6)` bytes of every panel row.
* `rgb888ToColorEink2_covers_iff`: they fill the frame exactly if six divides the width.
-/

namespace EinkHwc

open Mem

/-- The stores of all passes, by panel row and byte. -/
theorem mem_rgb888ToColorEink2 {src : Int → BitVec 32} {half h : Int} (h0 : 0 ≤ half)
    (hh : 0 ≤ h) (hh2 : h % 2 = 0) {s : Store} :
    s ∈ (rgb888ToColorEink2 src h (2 * half) (2 * half)).flatten ↔
      ∃ y k : Nat, (y : Int) < h ∧ (k : Int) < 3 * (half / 3) ∧
        s = (y * half + k, panelByte src (2 * half) y k) := by
  rw [← rgb888_convert, mem_convert h0 hh hh2]
  simp only [panelByte_rgb888]

/-- The converter fills the frame of the panel exactly if six divides the width. -/
theorem rgb888ToColorEink2_covers_iff (src : Int → BitVec 32) (W H : Int) (hW : 0 < W)
    (hW2 : W % 2 = 0) (hH : 0 < H) (hH2 : H % 2 = 0) :
    Covers (rgb888ToColorEink2 src H W W).flatten (W * H / 2) ↔ W % 6 = 0 := by
  obtain ⟨half, rfl⟩ : ∃ n, W = 2 * n := ⟨W / 2, by omega⟩
  have hsize : 2 * half * H / 2 = H * half := by
    rw [Int.mul_assoc, Int.mul_comm half H]
    omega
  have hone : 1 * half ≤ H * half := Int.mul_le_mul_of_nonneg_right hH (by omega)
  rw [hsize]
  constructor
  · -- The last byte of the first row is one of the columns.
    intro hcov
    obtain ⟨s, hs, he⟩ := hcov (half - 1) (by omega) (by omega)
    obtain ⟨y, k, _, hk, rfl⟩ := (mem_rgb888ToColorEink2 (by omega) (by omega) hH2).1 hs
    have hat : (0 : Int) * half + (half - 1) = y * half + k := by
      rw [Int.zero_mul, Int.zero_add]
      exact he.symm
    obtain ⟨_, hlast⟩ := row_col_inj (by omega) (by omega) hat
    omega
  · intro h6 p h0 hp
    obtain ⟨y, k, hy, hk, rfl⟩ := exists_row_col (by omega) h0 hp
    exact ⟨_, (mem_rgb888ToColorEink2 (by omega) (by omega) hH2).2
      ⟨y, k, hy, by omega, rfl⟩, rfl⟩

theorem rgb888ToColorEink2_covers_6x2 :
    Covers (rgb888ToColorEink2 (fun _ => 0) 2 6 6).flatten (6 * 2 / 2) ↔ (6 : Int) % 6 = 0 :=
  rgb888ToColorEink2_covers_iff (fun _ => 0) 6 2 (by decide) (by decide) (by decide) (by decide)

/-- On a panel of eight columns the last byte of each row is left. -/
theorem rgb888ToColorEink2_stale :
    ¬ ∀ (src : Int → BitVec 32) (W H : Int), 0 < W → W % 2 = 0 → 0 < H → H % 2 = 0 →
      Covers (rgb888ToColorEink2 src H W W).flatten (W * H / 2) := by
  intro h
  obtain ⟨s, hs, he⟩ :=
    h (fun _ => 0) 8 2 (by decide) (by decide) (by decide) (by decide) 3 (by decide) (by decide)
  have hall : ∀ s ∈ (rgb888ToColorEink2 (fun _ => 0) 2 8 8).flatten, s.1 ≠ 3 := by decide +kernel
  exact hall s hs he

end EinkHwc
