import EinkHwc.Colour.Eink2
import Mathlib.Tactic.Ring

/-!
# The panel pixels of an RGB888 frame

`panelByte` is what `rgb888ToColorEink2` leaves at panel row `y`, byte `k`.

* `rgb888ToColorEink2_eq`: each pass stores these bytes, in two panel rows.
* `rgb888ToColorEink2_pixel`: each panel pixel shows the mean of its 2x2 block in the channel that
  the filter has there.
-/

namespace EinkHwc

open Mem

/-- The pixel `(x, y)` of a source with rows of `v` words. -/
def pixel (src : Int → BitVec 32) (v : Int) (x y : Nat) : BitVec 32 := src (y * v + x)

/-- The average of the 2x2 block at column `k`, of the source rows `2i` and `2i + 1`. -/
def block (src : Int → BitVec 32) (v : Int) (i k : Nat) : Rgb 8 :=
  rgb888AvgRgb (pixel src v (2 * k) (2 * i)) (pixel src v (2 * k + 1) (2 * i))
    (pixel src v (2 * k) (2 * i + 1)) (pixel src v (2 * k + 1) (2 * i + 1))

/-- Byte `k` of panel row `y`. -/
def panelByte (src : Int → BitVec 32) (v : Int) (y k : Nat) : BitVec 8 :=
  let c := block src v (y / 2) k
  pack (cfa c (2 * k - y)) (cfa c (2 * k + 1 - y))

/-- The stores of pass `i`: `n` columns of two panel rows, the second `half` bytes on. -/
def passStores (src : Int → BitVec 32) (v half : Int) (n i : Nat) : List Store :=
  (List.range n).flatMap fun (k : Nat) =>
    [(i * v + k, panelByte src v (2 * i) k), (i * v + half + k, panelByte src v (2 * i + 1) k)]

/-- With an even row length: the panel rows `2i` and `2i + 1`. -/
theorem mem_passStores {src : Int → BitVec 32} {half : Int} {n i : Nat} {s : Store} :
    s ∈ passStores src (2 * half) half n i ↔ ∃ y k : Nat, y / 2 = i ∧ k < n ∧
      s = (y * half + k, panelByte src (2 * half) y k) := by
  have h0 : (i : Int) * (2 * half) = (2 * i : Nat) * half := by
    push_cast
    ring
  have h1 : (i : Int) * (2 * half) + half = (2 * i + 1 : Nat) * half := by
    push_cast
    ring
  simp only [passStores, List.mem_flatMap, List.mem_range, List.mem_cons, List.not_mem_nil,
    or_false, h1]
  rw [h0]
  constructor
  · rintro ⟨k, hk, rfl | rfl⟩
    · exact ⟨2 * i, k, by omega, hk, rfl⟩
    · exact ⟨2 * i + 1, k, by omega, hk, rfl⟩
  · rintro ⟨y, k, hy, hk, rfl⟩
    obtain rfl | rfl : y = 2 * i ∨ y = 2 * i + 1 := by omega
    · exact ⟨k, hk, .inl rfl⟩
    · exact ⟨k, hk, .inr rfl⟩

theorem columnStores_eq (src : Int → BitVec 32) (v half : Int) (i k : Nat) :
    columnStores rgb888AvgRgb src i (passStart v half i) k =
      [(i * v + k, panelByte src v (2 * i) k),
        (i * v + half + k, panelByte src v (2 * i + 1) k)] := by
  have h0 : 2 * i / 2 = i := by omega
  have h1 : (2 * i + 1) / 2 = i := by omega
  have hrow : (i : Int) * (2 * v) = 2 * i * v := by
    rw [← Int.mul_assoc, Int.mul_comm (i : Int) 2]
  unfold columnStores cfaBytes panelByte passStart block pixel
  rw [h0, h1]
  push_cast
  simp only [hrow, Int.add_mul, Int.one_mul, Int.add_assoc]

theorem rgb888ToColorEink2_eq (src : Int → BitVec 32) (h w v : Int) :
    rgb888ToColorEink2 src h w v = (List.range (h.tdiv 2).toNat).map
      (passStores src v (v >>> (1 : Nat)) (3 * (v.tdiv 6).toNat)) := by
  rw [rgb888ToColorEink2_rows]
  congr 1
  funext i
  unfold passStores
  congr 1
  funext k
  exact columnStores_eq src v (v >>> (1 : Nat)) i k

/-! ## The picture -/

/-- The four bits of panel pixel `x` in its byte. -/
def nibble (b : BitVec 8) (x : Nat) : Nat := if x % 2 = 0 then b.toNat % 16 else b.toNat / 16

/-- The mean, over the 2x2 block of `(x, y)`, of the four bits from bit `k` on. -/
def blockMean (src : Int → BitVec 32) (v : Int) (k x y : Nat) : Nat :=
  sumNibble k (pixel src v (2 * (x / 2)) (2 * (y / 2)))
    (pixel src v (2 * (x / 2) + 1) (2 * (y / 2)))
    (pixel src v (2 * (x / 2)) (2 * (y / 2) + 1))
    (pixel src v (2 * (x / 2) + 1) (2 * (y / 2) + 1)) / 4

theorem nibble_panelByte (src : Int → BitVec 32) (v : Int) (x y : Nat) :
    nibble (panelByte src v y (x / 2)) x = blockMean src v (cfaShift (x - y)) x y := by
  have h := pack_cfa_toNat (by decide) (rgb888AvgRgb_toNat
    (pixel src v (2 * (x / 2)) (2 * (y / 2))) (pixel src v (2 * (x / 2) + 1) (2 * (y / 2)))
    (pixel src v (2 * (x / 2)) (2 * (y / 2) + 1)) (pixel src v (2 * (x / 2) + 1) (2 * (y / 2) + 1)))
    (2 * ↑(x / 2) - y) (2 * ↑(x / 2) + 1 - y)
  have hlo := sumNibble_le (cfaShift (2 * ↑(x / 2) - y))
    (pixel src v (2 * (x / 2)) (2 * (y / 2))) (pixel src v (2 * (x / 2) + 1) (2 * (y / 2)))
    (pixel src v (2 * (x / 2)) (2 * (y / 2) + 1)) (pixel src v (2 * (x / 2) + 1) (2 * (y / 2) + 1))
  unfold nibble blockMean panelByte block
  rw [h]
  split
  · rename_i hx
    have he : (2 * ↑(x / 2) - y : Int) = x - y := by omega
    rw [he] at hlo ⊢
    omega
  · rename_i hx
    have he : (2 * ↑(x / 2) + 1 - y : Int) = x - y := by omega
    rw [he]
    omega

/-- A byte of the frame, where the columns of the loop fill its row. -/
theorem run_rgb888ToColorEink2 (src : Int → BitVec 32) (m : Int → BitVec 8) {n h : Int}
    (hh : h % 2 = 0) {y k : Nat} (hk : (k : Int) < 3 * n) (hy : (y : Int) < h) :
    run m (rgb888ToColorEink2 src h (6 * n) (6 * n)).flatten (y * (3 * n) + k) =
      panelByte src (6 * n) y k := by
  have hv : 6 * n = 2 * (3 * n) := by omega
  have hhalf : (6 * n) >>> (1 : Nat) = 3 * n := by
    rw [Int.shiftRight_eq_div_pow]
    omega
  have hcols : ((3 * ((6 * n).tdiv 6).toNat : Nat) : Int) = 3 * n := by
    rw [Int.mul_tdiv_cancel_left n (by decide)]
    omega
  have hrows : y / 2 < (h.tdiv 2).toNat := by
    rw [Int.tdiv_eq_ediv_of_nonneg (by omega)]
    omega
  rw [rgb888ToColorEink2_eq, hhalf]
  rw [hv] at hcols ⊢
  refine (run_rows (c := 3 * n) (f := panelByte src (2 * (3 * n))) (fun s hs => ?_)
    (Int.le_refl _) hk fun _ => ?_).trans (if_pos hk)
  · obtain ⟨_, hpass, hs⟩ := List.mem_flatten.1 hs
    obtain ⟨i, _, rfl⟩ := List.mem_map.1 hpass
    obtain ⟨y', k', _, hk', rfl⟩ := mem_passStores.1 hs
    exact ⟨y', k', by omega, rfl⟩
  · refine List.mem_flatten.2 ⟨_, List.mem_map.2 ⟨y / 2, List.mem_range.2 hrows, rfl⟩, ?_⟩
    exact mem_passStores.2 ⟨y, k, rfl, by omega, rfl⟩

/-- Every panel pixel shows the mean of its block, in the channel that the filter has there. -/
theorem rgb888ToColorEink2_pixel (src : Int → BitVec 32) (m : Int → BitVec 8) (W H : Int)
    (hW : W % 6 = 0) (hH : H % 2 = 0) (x y : Nat) (hx : (x : Int) < W) (hy : (y : Int) < H) :
    nibble (run m (rgb888ToColorEink2 src H W W).flatten (y * (W / 2) + (x / 2 : Nat))) x =
      blockMean src W (cfaShift (x - y)) x y := by
  obtain ⟨n, rfl⟩ : ∃ n, W = 6 * n := ⟨W / 6, by omega⟩
  have hhalf : 6 * n / 2 = 3 * n := by omega
  rw [hhalf, run_rgb888ToColorEink2 src m hH (by omega) hy, nibble_panelByte]

theorem rgb888ToColorEink2_pixel_6x2 :
    nibble (run (fun _ => 0) (rgb888ToColorEink2 (BitVec.ofInt 32 <| 0x103050 * ·) 2 6 6).flatten
      ((1 : Nat) * (6 / 2) + (4 / 2 : Nat))) 4 =
      blockMean (BitVec.ofInt 32 <| 0x103050 * ·) 6 (cfaShift ((4 : Nat) - (1 : Nat))) 4 1 :=
  rgb888ToColorEink2_pixel _ _ 6 2 (by decide) (by decide) 4 1 (by decide) (by decide)

end EinkHwc
