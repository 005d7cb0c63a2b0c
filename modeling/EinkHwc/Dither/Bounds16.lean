import EinkHwc.Dither.Geometry
import EinkHwc.Dither.Conserve
import EinkHwc.Colour.Filter

/-!
# The dither to sixteen levels stays near its source

The errors of sixteen levels lie in `[0, 15]`, so that each share is at most 6. The line buffers
and the carried error keep to `[0, 6]`, a level is one step off at most, and the picture does not
get brighter.

* `row16_exact`: the line buffers hold sums of shares, as unbounded integers.
* `gray256ToGray16Dither_bounds`: the bounds, for every picture.
-/

namespace EinkHwc

open Mem

namespace Dither

/-- A stored entry is a sum of shares of one of the first `h` rows, without a wrap. -/
def Unwrapped (img : Int → BitVec 8) (w h : Nat) (x : Nat × Int) : Prop :=
  x.2 = 0 ∨ ∃ y i, y < h ∧ x.2 = Diffusion.received (Diffusion.err sixteen (srcRow img w y)
    (Diffusion.residual sixteen w (srcRow img w) y)) w i x.1

/-- The level that the frame `m` shows for the pixel `(x, y)` of a panel of `w` columns. -/
def levelAt (m : Int → BitVec 8) (w y x : Nat) : Nat :=
  nibble (m (y * (w / 2 : Nat) + (x / 2 : Nat))) x

section Row
variable (img : Int → BitVec 8) (N y : Nat)

/-- The row's line buffers, while it runs. -/
abbrev RowExact (s : Lines) : Prop :=
  s.Exact sixteen (srcRow img (8 * N) y)
    (Diffusion.residual sixteen (8 * N) (srcRow img (8 * N)) y) (8 * N) (8 * N)

theorem row16_exact (d : Int) {res0 res1 : Nat → Int}
    (h0 : ∀ k, res0 k = Diffusion.residual sixteen (8 * N) (srcRow img (8 * N)) y k)
    (h1 : ∀ k, res1 k = 0) : RowExact img N y
      (luma8bitTo4bitRow16 img (y * (8 * N : Nat)) d res0 res1 (8 * N)).lines := by
  have hn : (8 * N + 7) / 8 = N := by omega
  unfold luma8bitTo4bitRow16
  rw [hn]
  refine And.right (fold_rule
    (I := fun n (r : Row) => r.At img (8 * N) y d n ∧ RowExact img N y r.lines) ?_ ?_)
  · refine ⟨⟨at_zero rfl h0 h1, by simp, by simp, rfl⟩, ?_, ?_⟩
    · intro x hx
      cases hx
    · intro v hv
      cases hv
  · rintro n r hlt ⟨hr, hexact⟩
    refine ⟨at_block16 hr (by omega), ?_⟩
    refine And.right (block16_rule (I := fun x s => LinesAt img (8 * N) y x s ∧ RowExact img N y s)
      (by omega) ⟨hr.lines, hexact⟩ ?_)
    rintro j s hj ⟨hs, hse⟩
    have hdata : ((img (r.src + j)).toNat : Int) = srcRow img (8 * N) y (8 * n + j) := by
      unfold srcRow
      rw [hr.src]
      push_cast
      rw [Int.add_assoc]
    obtain ⟨-, hat⟩ := linesAt_pixel hs hdata rfl rfl
    exact ⟨hat, exact_pixel hse of_decide_eq_true hat.v0 fun k _ => hat.res1 k⟩

end Row

section Picture
variable (img : Int → BitVec 8) (N : Nat)

/-- After the rows before `h`: what they stored and carried. -/
structure Frame.Exact (h : Nat) (f : Frame) : Prop where
  written : ∀ x ∈ f.written, Unwrapped img (8 * N) h x
  carried : ∀ v ∈ f.carried, ∃ y i, v = Diffusion.carry sixteen (srcRow img (8 * N) y)
    (Diffusion.residual sixteen (8 * N) (srcRow img (8 * N)) y) i

theorem gray256ToGray16Dither_at (h v : Nat) :
    (gray256ToGray16Dither img h (8 * N) v).At img N h ∧
      (gray256ToGray16Dither img h (8 * N) v).Exact img N h := by
  refine fold_rule (I := fun n (f : Frame) => f.At img N n ∧ f.Exact img N n) ?_ ?_
  · refine ⟨⟨fun _ => rfl, fun _ => rfl, by simp, by simp, rfl⟩, ?_, ?_⟩
    · intro x hx
      cases hx
    · intro v hv
      cases hv
  · rintro y f _ ⟨hf, hexact⟩
    have hrow := row16_exact img N y f.dst hf.residuals hf.zero
    rw [← hf.src] at hrow
    refine ⟨at_row img N hf, ?_, ?_⟩
    · intro x hx
      rcases List.mem_append.1 hx with hx | hx
      · rcases hexact.written x hx with h0 | ⟨z, i, hz, hi⟩
        · exact .inl h0
        · exact .inr ⟨z, i, by omega, hi⟩
      · rcases hrow.written x hx (row16_index img N _ _ _ _ x hx) with h0 | ⟨i, hi⟩
        · exact .inl h0
        · exact .inr ⟨y, i, by omega, hi⟩
    · intro c hc
      rcases List.mem_append.1 hc with hc | hc
      · exact hexact.carried c hc
      · exact ⟨y, hrow.carried c hc⟩

theorem unwrapped_bounds {w h : Nat} {x : Nat × Int} (hx : Unwrapped img w h x) :
    0 ≤ x.2 ∧ x.2 ≤ 6 := by
  rcases hx with h0 | ⟨y, i, -, hi⟩
  · omega
  · rw [hi]
    exact received_sixteen w i x.1

/-- One step of sixteen at most below the source, and twelve above. -/
theorem gray16_near (w y x : Nat) : srcRow img w y x - 15 ≤ 16 * gray16 img w y x ∧
    16 * gray16 img w y x ≤ srcRow img w y x + 12 := by
  have hbyte := (img (y * w + x)).isLt
  have hR := residual_sixteen w (srcRow img w) y x
  have hc := carry_sixteen (p := srcRow img w y)
    (R := Diffusion.residual sixteen w (srcRow img w) y) x
  have hsrc : 0 ≤ srcRow img w y x ∧ srcRow img w y x ≤ 255 := by
    unfold srcRow
    omega
  unfold gray16 Diffusion.level Diffusion.value
  show _ ≤ 16 * (clip _ / 16) ∧ 16 * (clip _ / 16) ≤ _
  unfold clip
  split <;> omega

theorem sum_gray16_le (w h : Nat) :
    ∑ y ∈ Finset.range h, ∑ x ∈ Finset.range w, 16 * gray16 img w y x ≤
      ∑ y ∈ Finset.range h, ∑ x ∈ Finset.range w, srcRow img w y x := by
  have hclip (g : Int) : sixteen.clip g ≤ g := by
    show clip g ≤ g
    unfold clip
    split <;> omega
  have herr (y x : Nat) : 0 ≤ Diffusion.err sixteen (srcRow img w y)
      (Diffusion.residual sixteen w (srcRow img w) y) x := (err_sixteen x).1
  have hcarry (y x : Nat) : 0 ≤ Diffusion.carry sixteen (srcRow img w y)
      (Diffusion.residual sixteen w (srcRow img w) y) x := (carry_sixteen x).1
  have hsum := Diffusion.picture_conserves hclip herr hcarry h
  have hrest : 0 ≤ ∑ k ∈ Finset.range w, Diffusion.residual sixteen w (srcRow img w) h k :=
    Finset.sum_nonneg fun k _ => (residual_sixteen w (srcRow img w) h k).1
  have hshown : ∑ y ∈ Finset.range h, ∑ x ∈ Finset.range w, 16 * gray16 img w y x =
      ∑ y ∈ Finset.range h, ∑ x ∈ Finset.range w, sixteen.shown (Diffusion.level sixteen
        (srcRow img w y) (Diffusion.residual sixteen w (srcRow img w) y) x) := rfl
  omega

/-- The levels that the frame shows. -/
theorem levelAt_gray16 (m : Int → BitVec 8) {h y x : Nat} (v : Nat) (hy : y < h) (hx : x < 8 * N) :
    (levelAt (run m (gray256ToGray16Dither img h (8 * N) v).out) (8 * N) y x : Int) =
      gray16 img (8 * N) y x := by
  have hhalf : ((8 * N / 2 : Nat) : Int) = 4 * N := by omega
  have hbyte := rowByte_toNat img (8 * N) y (x / 2)
  have h0 := gray16_bounds img (8 * N) y (2 * (x / 2))
  have h1 := gray16_bounds img (8 * N) y (2 * (x / 2) + 1)
  unfold levelAt nibble
  rw [hhalf, run_gray256ToGray16Dither img N m v hy (by omega)]
  obtain hx2 | hx2 : 2 * (x / 2) = x ∨ 2 * (x / 2) + 1 = x := by omega
  · have hg : gray16 img (8 * N) y x = gray16 img (8 * N) y (2 * (x / 2)) := congrArg _ hx2.symm
    rw [if_pos (by omega)]
    omega
  · have hg : gray16 img (8 * N) y x = gray16 img (8 * N) y (2 * (x / 2) + 1) :=
      congrArg _ hx2.symm
    rw [if_neg (by omega)]
    omega

end Picture

/-- For every picture: the line buffers and the carried error stay in `[0, 6]` without a wrap, the
buffer that row `h` will add to is zero, a level stays near its source, and the levels together
below theirs. -/
theorem gray256ToGray16Dither_bounds (img m : Int → BitVec 8) (h w v : Nat) (hw : 0 < w)
    (hw8 : w % 8 = 0) :
    (∀ x ∈ (gray256ToGray16Dither img h w v).written,
      Unwrapped img w h x ∧ 0 ≤ x.2 ∧ x.2 ≤ 6) ∧
    (∀ c ∈ (gray256ToGray16Dither img h w v).carried, 0 ≤ c ∧ c ≤ 6) ∧
    (∀ k, (gray256ToGray16Dither img h w v).lineBuffer (!decide (h % 2 = 1)) k = 0) ∧
    (∀ y x : Nat, y < h → x < w →
      srcRow img w y x - 15 ≤ 16 * levelAt (run m (gray256ToGray16Dither img h w v).out) w y x ∧
      16 * levelAt (run m (gray256ToGray16Dither img h w v).out) w y x ≤ srcRow img w y x + 12) ∧
    (∑ y ∈ Finset.range h, ∑ x ∈ Finset.range w,
      (16 * levelAt (run m (gray256ToGray16Dither img h w v).out) w y x : Int)) ≤
      ∑ y ∈ Finset.range h, ∑ x ∈ Finset.range w, srcRow img w y x := by
  obtain ⟨N, rfl⟩ : ∃ N, w = 8 * N := ⟨w / 8, by omega⟩
  obtain ⟨hat, hexact⟩ := gray256ToGray16Dither_at img N h v
  refine ⟨?_, ?_, hat.zero, ?_, ?_⟩
  · intro x hx
    have hsum := hexact.written x hx
    exact ⟨hsum, unwrapped_bounds img hsum⟩
  · intro c hc
    obtain ⟨y, i, rfl⟩ := hexact.carried c hc
    exact carry_sixteen i
  · intro y x hy hx
    rw [levelAt_gray16 img N m v hy hx]
    exact gray16_near img (8 * N) y x
  · have hlevels : (∑ y ∈ Finset.range h, ∑ x ∈ Finset.range (8 * N),
        (16 * levelAt (run m (gray256ToGray16Dither img h (8 * N) v).out) (8 * N) y x : Int)) =
        ∑ y ∈ Finset.range h, ∑ x ∈ Finset.range (8 * N), 16 * gray16 img (8 * N) y x := by
      refine Finset.sum_congr rfl fun y hy => Finset.sum_congr rfl fun x hx => ?_
      rw [levelAt_gray16 img N m v (Finset.mem_range.1 hy) (Finset.mem_range.1 hx)]
    rw [hlevels]
    exact sum_gray16_le img (8 * N) h

theorem gray256ToGray16Dither_bounds_8x2 :
    (∀ x ∈ (gray256ToGray16Dither (BitVec.ofInt 8 <| 29 * ·) 2 8 8).written,
      Unwrapped (BitVec.ofInt 8 <| 29 * ·) 8 2 x ∧ 0 ≤ x.2 ∧ x.2 ≤ 6) ∧
    (∀ c ∈ (gray256ToGray16Dither (BitVec.ofInt 8 <| 29 * ·) 2 8 8).carried, 0 ≤ c ∧ c ≤ 6) ∧
    ∀ k, (gray256ToGray16Dither (BitVec.ofInt 8 <| 29 * ·) 2 8 8).lineBuffer
      (!decide (2 % 2 = 1)) k = 0 := by
  obtain ⟨hwritten, hcarried, hzero, -⟩ := gray256ToGray16Dither_bounds
    (BitVec.ofInt 8 <| 29 * ·) (fun _ => 0) 2 8 8 (by decide) (by decide)
  exact ⟨hwritten, hcarried, hzero⟩

end Dither

end EinkHwc
