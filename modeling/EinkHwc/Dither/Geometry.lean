import EinkHwc.Dither.Row16

/-!
# Panel geometry of the dither to sixteen levels

`ConvertToY4Dither` has RGA fill a buffer of `w8 x h2` luma bytes, the panel's size rounded down to
multiples of 8 and 2, and calls the dither with the panel's own size. Every row takes whole steps of
eight pixels.

* `InBounds`: the accesses stay inside the line buffers, the luma plane and the panel frame.
* `block16_rule`: the invariant rule of one step, pixel by pixel.
* `inBounds_iff`: they do exactly if nothing was rounded.
-/

namespace EinkHwc

open Mem

namespace Dither

/-- The accesses of a dither of a panel of `W x H` pixels. An entry that is read is also stored, so
`written` has the index of every access to a line buffer. A load takes four bytes. -/
structure InBounds (W H : Nat) (f : Frame) : Prop where
  residuals : ∀ x ∈ f.written, x.1 < W
  luma : ∀ a ∈ f.loads, 0 ≤ a ∧ a + 4 ≤ ((W - W % 8) * (H - H % 2) : Nat)
  frame : ∀ s ∈ f.out, 0 ≤ s.1 ∧ s.1 < (W * H / 2 : Nat)

/-! ## Where the words are loaded -/

section Loads
variable (img : Int → BitVec 8) (w : Nat)

/-- The words of a row at byte `a`. -/
def rowLoads (a : Int) : List Int :=
  (List.range ((w + 7) / 8)).flatMap fun n : Nat => [a + 8 * n, a + 8 * n + 4]

theorem row16_loads (src dst : Int) (res0 res1 : Nat → Int) :
    (luma8bitTo4bitRow16 img src dst res0 res1 w).loads = rowLoads w src := by
  refine (fold_log (l := Row.loads) (q := Row.src) (c := fun n : Nat => src + 8 * n) ?_ ?_).2
  · exact (Int.add_zero src).symm
  · intro n r _ hr
    refine ⟨?_, ?_⟩
    · show r.src + 8 = _
      rw [hr]
      push_cast
      omega
    · show r.loads ++ [r.src, r.src + 4] = _
      rw [hr]

theorem gray256ToGray16Dither_loads (h v : Nat) :
    (gray256ToGray16Dither img h w v).loads =
      (List.range h).flatMap fun y : Nat => rowLoads w (y * w) := by
  refine (fold_log (l := Frame.loads) (q := Frame.src) (c := fun y : Nat => (y : Int) * w) ?_ ?_).2
  · exact (Int.zero_mul _).symm
  · intro y f _ hf
    refine ⟨?_, ?_⟩
    · show f.src + w = _
      rw [hf]
      push_cast
      rw [Int.add_mul, Int.one_mul]
    · show f.loads ++ Row.loads _ = _
      rw [row16_loads, hf]

end Loads

/-! ## Where the line buffers are stored to -/

section Step
variable {img : Int → BitVec 8} {w i : Nat} {r : Row}

/-- What each of the eight pixels of a step keeps, in a row that the step does not leave. -/
theorem block16_rule {I : Nat → Lines → Prop} (hi : i + 8 ≤ w) (h0 : I i r.lines)
    (hstep : ∀ j s, j < 8 → I (i + j) s →
      I (i + j + 1) (s.pixel quant16 (img (r.src + j)).toNat (i + j) (0 < i + j)
        (i + j + 1 < w))) : I (i + 8) (block16 img w i r).lines := by
  have hleft (j : Nat) (hj : 0 < j) : true = decide (0 < i + j) :=
    (decide_eq_true (by omega)).symm
  have hright (j : Nat) (hj : j < 7) : true = decide (i + j + 1 < w) :=
    (decide_eq_true (by omega)).symm
  have hfirst : decide (i ≠ 0) = decide (0 < i + 0) := decide_eq_decide.2 (by omega)
  have hlast : decide (i + 8 ≠ w) = decide (i + 7 + 1 < w) := decide_eq_decide.2 (by omega)
  have hpixel {j : Nat} {s : Lines} {data : Int} {left right : Bool} (hj : j < 8)
      (hs : I (i + j) s) (hdata : data = (img (r.src + j)).toNat) (hl : left = decide (0 < i + j))
      (hr : right = decide (i + j + 1 < w)) :
      I (i + j + 1) (s.pixel quant16 data (i + j) left right) := by
    subst hdata hl hr
    exact hstep j s hj hs
  obtain ⟨hd0, hd1, hd2, hd3⟩ := srcData_toInt img r.src
  obtain ⟨hd4, hd5, hd6, hd7⟩ := srcData_toInt img (r.src + 4)
  rw [Int.add_assoc] at hd5 hd6 hd7
  have hzero : img r.src = img (r.src + (0 : Nat)) := by rw [Int.natCast_zero, Int.add_zero]
  rw [hzero] at hd0
  have h1 := hpixel (j := 0) (by decide) h0 hd0 hfirst (hright 0 (by decide))
  have h2 := hpixel (j := 1) (by decide) h1 hd1 (hleft 1 (by decide)) (hright 1 (by decide))
  have h3 := hpixel (j := 2) (by decide) h2 hd2 (hleft 2 (by decide)) (hright 2 (by decide))
  have h4 := hpixel (j := 3) (by decide) h3 hd3 (hleft 3 (by decide)) (hright 3 (by decide))
  have h5 := hpixel (j := 4) (by decide) h4 hd4 (hleft 4 (by decide)) (hright 4 (by decide))
  have h6 := hpixel (j := 5) (by decide) h5 hd5 (hleft 5 (by decide)) (hright 5 (by decide))
  have h7 := hpixel (j := 6) (by decide) h6 hd6 (hleft 6 (by decide)) (hright 6 (by decide))
  exact hpixel (j := 7) (by decide) h7 hd7 (hleft 7 (by decide)) hlast

/-- The last pixel of a step clears its entry, also beyond the row. -/
theorem mem_block16 : (i + 7, 0) ∈ (block16 img w i r).lines.written :=
  mem_pixel_self fun _ => by omega

end Step

section Rows
variable (img : Int → BitVec 8)

theorem row16_index (N : Nat) (src dst : Int) (res0 res1 : Nat → Int) :
    ∀ x ∈ (luma8bitTo4bitRow16 img src dst res0 res1 (8 * N)).lines.written, x.1 < 8 * N := by
  refine fold_rule (I := fun _ (r : Row) => ∀ x ∈ r.lines.written, x.1 < 8 * N) (by simp) ?_
  intro n r hn hr
  refine block16_rule (I := fun _ s => ∀ x ∈ s.written, x.1 < 8 * N) (by omega) hr ?_
  intro j s hj hs
  exact pixel_index hs (by omega) of_decide_eq_true of_decide_eq_true

theorem gray256ToGray16Dither_index (N h v : Nat) :
    ∀ x ∈ (gray256ToGray16Dither img h (8 * N) v).written, x.1 < 8 * N := by
  refine fold_rule (I := fun _ (f : Frame) => ∀ x ∈ f.written, x.1 < 8 * N) (by simp) ?_
  intro y f _ hf x hx
  rcases List.mem_append.1 hx with hx | hx
  · exact hf x hx
  · exact row16_index img N _ _ _ _ x hx

/-- A width that is no multiple of 8 makes the last step leave the line buffers. -/
theorem exists_index_ge {w h : Nat} (hw : w % 8 ≠ 0) (hh : 0 < h) (v : Nat) :
    ∃ x ∈ (gray256ToGray16Dither img h w v).written, w ≤ x.1 := by
  obtain ⟨y, rfl⟩ : ∃ y, h = y + 1 := ⟨h - 1, by omega⟩
  have hsteps : (w + 7) / 8 = w / 8 + 1 := by omega
  refine ⟨(8 * (w / 8) + 7, 0), ?_, ?_⟩
  · unfold gray256ToGray16Dither
    rw [Nat.fold_succ]
    refine List.mem_append.2 (.inr ?_)
    unfold luma8bitTo4bitRow16
    rw [hsteps, Nat.fold_succ]
    exact mem_block16
  · show w ≤ 8 * (w / 8) + 7
    omega

/-- The first word of a row. -/
theorem mem_loads {w h y : Nat} (hw : 0 < w) (hy : y < h) (v : Nat) :
    (y * w : Int) ∈ (gray256ToGray16Dither img h w v).loads := by
  rw [gray256ToGray16Dither_loads]
  refine List.mem_flatMap.2 ⟨y, List.mem_range.2 hy, ?_⟩
  refine List.mem_flatMap.2 ⟨0, List.mem_range.2 (by omega), ?_⟩
  simp

/-- A panel of whole steps and an even number of rows is left nowhere. -/
theorem inBounds_of_even (N H v : Nat) (hH : H % 2 = 0) :
    InBounds (8 * N) H (gray256ToGray16Dither img H (8 * N) v) := by
  have hround : (8 * N - 8 * N % 8) * (H - H % 2) = H * (8 * N) := by
    rw [hH, Nat.mul_mod_right, Nat.sub_zero, Nat.sub_zero, Nat.mul_comm]
  have hhalf : 8 * N * H / 2 = H * (4 * N) := by
    rw [Nat.mul_comm, show 8 * N = 4 * N * 2 by omega, ← Nat.mul_assoc]
    exact Nat.mul_div_cancel _ (by decide)
  have hrow (y n k : Nat) (hy : y < H) (hk : k ≤ n) : (y * n + k : Int) ≤ H * n := by
    have hle : y * n + k ≤ H * n := by
      calc y * n + k ≤ (y + 1) * n := by rw [Nat.add_mul, Nat.one_mul]; omega
        _ ≤ H * n := Nat.mul_le_mul_right n hy
    exact_mod_cast hle
  refine ⟨gray256ToGray16Dither_index img N H v, ?_, ?_⟩
  · intro a ha
    rw [gray256ToGray16Dither_loads] at ha
    obtain ⟨y, hy, ha⟩ := List.mem_flatMap.1 ha
    obtain ⟨n, hn, ha⟩ := List.mem_flatMap.1 ha
    have hn := List.mem_range.1 hn
    have hle := hrow y (8 * N) (8 * n + 8) (List.mem_range.1 hy) (by omega)
    have hnonneg : 0 ≤ (y : Int) * (8 * N : Nat) := Int.mul_nonneg (by omega) (by omega)
    rw [hround]
    simp only [List.mem_cons, List.not_mem_nil, or_false] at ha
    rcases ha with rfl | rfl <;> push_cast at * <;> omega
  · intro s hs
    obtain ⟨y, k, hy, hk, rfl⟩ := (mem_gray256ToGray16Dither img N H v s).1 hs
    have hlt := hrow y (4 * N) (k + 1) hy (by omega)
    have hnonneg : 0 ≤ (y : Int) * (4 * N) := Int.mul_nonneg (by omega) (by omega)
    rw [hhalf]
    show 0 ≤ (y : Int) * (4 * N) + k ∧ (y : Int) * (4 * N) + k < _
    push_cast at *
    omega

end Rows

/-- The call of `ConvertToY4Dither` is safe exactly if its size was not rounded down. -/
theorem inBounds_iff (luma : Int → BitVec 8) (W H : Nat) (hW : 0 < W) (hH : 0 < H) :
    InBounds W H (gray256ToGray16Dither luma H W W) ↔ W % 8 = 0 ∧ H % 2 = 0 := by
  constructor
  · intro hin
    have hW8 : W % 8 = 0 := by
      by_contra hne
      obtain ⟨x, hx, hge⟩ := exists_index_ge luma hne hH W
      have hlt := hin.residuals x hx
      omega
    refine ⟨hW8, ?_⟩
    by_contra hodd
    -- The last row is behind the luma plane.
    obtain ⟨y, rfl⟩ : ∃ y, H = y + 1 := ⟨H - 1, by omega⟩
    have heven : y + 1 - (y + 1) % 2 = y := by omega
    obtain ⟨-, hle⟩ := hin.luma _ (mem_loads luma hW (Nat.lt_succ_self y) W)
    rw [hW8, heven, Nat.sub_zero, Nat.mul_comm] at hle
    push_cast at hle
    omega
  · rintro ⟨hW8, hH2⟩
    obtain ⟨N, rfl⟩ : ∃ N, W = 8 * N := ⟨W / 8, by omega⟩
    exact inBounds_of_even luma N H (8 * N) hH2

theorem inBounds_iff_8x2 : InBounds 8 2 (gray256ToGray16Dither (fun _ => 0) 2 8 8) ↔
    8 % 8 = 0 ∧ 2 % 2 = 0 :=
  inBounds_iff (fun _ => 0) 8 2 (by decide) (by decide)

/-- A panel of twelve columns: the second step clears the entries 8 to 15. -/
theorem residual_overrun :
    ¬ ∀ (luma : Int → BitVec 8) (W H : Nat), 0 < W → 0 < H →
      InBounds W H (gray256ToGray16Dither luma H W W) := by
  intro h
  have hin := h (fun _ => 0) 12 2 (by decide) (by decide)
  have hmem : (15, 0) ∈ (gray256ToGray16Dither (fun _ => 0) 2 12 12).written := by decide +kernel
  have hlt := hin.residuals _ hmem
  revert hlt
  decide

end Dither

end EinkHwc
