import EinkHwc.Dither.Row2

/-!
# The region of the dither to black and white

The right edge of a rectangle is exclusive in the width of its rows, its bottom edge inclusive in
the loop over them. An odd left edge moves the rows one pixel to the right, and the width is only
made even.

* `Rect.x0`, `Rect.x1`, `Rect.Drawn`: the pixels that are drawn for a rectangle, in whole bytes.
* `dither2_bytes`: the bytes that change are those of drawn pixels.
* `confined_iff`: they stay in the region exactly if the pixels drawn beyond each rectangle belong
  to others.
* `y1Dither_not_covers`: the whole panel is never drawn.
-/

namespace EinkHwc

open Mem

namespace Dither

/-- A rectangle on a panel, `right` and `bottom` exclusive. -/
structure Rect.Valid (W H : Int) (r : Rect) : Prop where
  left : 0 ≤ r.left
  width : r.left < r.right
  right : r.right ≤ W
  top : 0 ≤ r.top
  height : r.top < r.bottom
  bottom : r.bottom ≤ H

/-- The pixel `(x, y)` is in the region. -/
def InRegion (region : List Rect) (x y : Int) : Prop :=
  ∃ r ∈ region, r.left ≤ x ∧ x < r.right ∧ r.top ≤ y ∧ y < r.bottom

/-- Pixel number `i` of a panel of `W` columns is. -/
def PixelIn (W : Int) (region : List Rect) (i : Int) : Prop := InRegion region (i % W) (i / W)

/-- Only bytes of the region change, and the line buffers are left nowhere. -/
structure Confined (W : Int) (region : List Rect) (p : Pass) : Prop where
  bytes : ∀ (m : Int → BitVec 8) (q : Int), run m p.out q ≠ m q →
    PixelIn W region (2 * q) ∧ PixelIn W region (2 * q + 1)
  entries : ∀ x ∈ p.written, (x.1 : Int) < W

/-! ## What is drawn -/

/-- The first column of a rectangle's rows. -/
def Rect.x0 (r : Rect) : Int := r.left + r.left % 2

/-- The column behind its rows. -/
def Rect.x1 (r : Rect) : Int :=
  if r.right % 2 = 0 then r.right else if r.left % 2 = 0 then r.right - 1 else r.right + 1

/-- The pixel `(x, y)` is drawn for the rectangle, on a panel of `H` rows. -/
structure Rect.Drawn (H : Int) (r : Rect) (x y : Int) : Prop where
  left : r.x0 ≤ x
  right : x < r.x1
  top : r.top ≤ y
  bottom : y ≤ r.bottom
  panel : y < H

section Corrections
variable {W H : Int} {r : Rect} (hW2 : W % 2 = 0) (hr : r.Valid W H)
include hW2 hr

/-- The first pixel of the top row. -/
theorem Rect.Valid.top_row : 0 ≤ r.top * W ∧ r.top * W % 2 = 0 := by
  have hleft := hr.left
  have hwidth := hr.width
  have hright := hr.right
  refine ⟨Int.mul_nonneg hr.top (by omega), ?_⟩
  rw [Int.mul_emod, hW2, Int.mul_zero]
  rfl

theorem roundUp_eq : roundUp (r.top * W + r.left) = r.top * W + r.x0 := by
  obtain ⟨hpos, heven⟩ := hr.top_row hW2
  have hleft := hr.left
  unfold roundUp Rect.x0
  rw [Int.tmod_eq_emod_of_nonneg (by omega)]
  split <;> omega

theorem roundWidth_eq : roundWidth (r.top * W + r.x0) (r.right - r.left) = r.x1 - r.x0 := by
  obtain ⟨hpos, heven⟩ := hr.top_row hW2
  have hleft := hr.left
  have hwidth := hr.width
  unfold roundWidth Rect.x0 Rect.x1
  rw [Int.tmod_eq_emod_of_nonneg (by omega)]
  split <;> split <;> (try split) <;> omega

/-- The columns of a rectangle's rows are whole bytes of the panel. -/
theorem Rect.Valid.columns : r.x0 % 2 = 0 ∧ r.x1 % 2 = 0 ∧ 0 ≤ r.x0 ∧ r.x1 ≤ W := by
  have hleft := hr.left
  have hright := hr.right
  unfold Rect.x0 Rect.x1
  split <;> (try split) <;> omega

end Corrections

/-! ## The bytes of a sequence of rows -/

section Rows
variable {img : Int → BitVec 8} {w threshold : Int} {b : Bool} {addr : Nat → Int × Int} {n : Nat}
  {p : Pass}

theorem rows_bytes (hw : w % 2 = 0) (q : Int) :
    (∃ s ∈ (rows img w threshold b addr n p).out, s.1 = q) ↔
      (∃ s ∈ p.out, s.1 = q) ∨ ∃ j < n, (addr j).2 ≤ q ∧ q < (addr j).2 + w / 2 := by
  induction n with
  | zero => simp [rows]
  | succ n ih =>
    rw [rows_succ]
    show (∃ s ∈ Pass.out _ ++ Row2.out _, s.1 = q) ↔ _
    simp only [List.mem_append, or_and_right, exists_or, ih, row2_bytes hw,
      Nat.lt_succ_iff_lt_or_eq, exists_eq_left, or_assoc]

theorem rows_index (hw : w % 2 = 0) :
    ∀ x ∈ (rows img w threshold b addr n p).written, x ∈ p.written ∨ (x.1 : Int) ≤ w := by
  induction n with
  | zero => exact fun x hx => .inl hx
  | succ n ih =>
    intro x hx
    rw [rows_succ] at hx
    rcases List.mem_append.1 hx with hx | hx
    · exact ih x hx
    · exact .inr (row2_index hw x hx)

theorem rows_written {x : Nat × Int} (hx : x ∈ p.written) :
    x ∈ (rows img w threshold b addr n p).written := by
  induction n with
  | zero => exact hx
  | succ n ih =>
    rw [rows_succ]
    exact List.mem_append_left _ ih

theorem exists_rows_index (hw : w % 2 = 0) (hpos : 0 < w) (hn : 0 < n) :
    ∃ x ∈ (rows img w threshold b addr n p).written, (x.1 : Int) = w := by
  obtain ⟨n, rfl⟩ : ∃ k, n = k + 1 := ⟨n - 1, by omega⟩
  rw [rows_succ]
  unfold Pass.row
  simp only [List.mem_append, or_and_right, exists_or]
  exact .inr (exists_row2_index hw hpos)

end Rows

/-! ## The bytes of a region -/

section Region
variable {img : Int → BitVec 8} {half H : Int} {region : List Rect}

/-- The bytes of a rectangle, on a panel of `2 * half` columns. -/
theorem rect_bytes {p : Pass} {r : Rect} (hr : r.Valid (2 * half) H) (q : Int) :
    (∃ s ∈ (p.rect img H (2 * half) (2 * half) r).out, s.1 = q) ↔
      (∃ s ∈ p.out, s.1 = q) ∨ ∃ k y, r.Drawn H (2 * k) y ∧ q = y * half + k := by
  have hW2 : 2 * half % 2 = 0 := by omega
  obtain ⟨h0, h1, -, -⟩ := hr.columns hW2
  have hw2 : (r.x1 - r.x0) % 2 = 0 := by omega
  have hrow (j : Nat) : (r.top * (2 * half) + r.x0 + j * (2 * half)) >>> (1 : Nat) =
      (r.top + j) * half + r.x0 / 2 := by
    have htwo : r.top * (2 * half) + r.x0 + j * (2 * half) = ((r.top + j) * half) * 2 + r.x0 := by
      ring
    rw [Int.shiftRight_eq_div_pow, htwo]
    omega
  rw [rect_eq_rows, roundUp_eq hW2 hr, roundWidth_eq hW2 hr, rows_bytes hw2]
  refine or_congr_right ?_
  simp only [rectAddr, rectCount, roundUp_eq hW2 hr, hrow]
  constructor
  · rintro ⟨j, hj, hle, hlt⟩
    refine ⟨q - (r.top + j) * half, r.top + j, ⟨?_, ?_, ?_, ?_, ?_⟩, ?_⟩ <;> omega
  · rintro ⟨k, y, hd, rfl⟩
    have hleft := hd.left
    have hright := hd.right
    have htop := hd.top
    have hbottom := hd.bottom
    have hpanel := hd.panel
    have hy : r.top + ((y - r.top).toNat : Int) = y := by omega
    refine ⟨(y - r.top).toNat, ?_, ?_, ?_⟩
    · omega
    · rw [hy]
      omega
    · rw [hy]
      omega

/-- The bytes that change are those of the drawn pixels. -/
theorem dither2_bytes (hvalid : ∀ r ∈ region, r.Valid (2 * half) H) (q : Int) :
    (∃ s ∈ (gray256ToGray2Dither img H (2 * half) (2 * half) region).out, s.1 = q) ↔
      ∃ r ∈ region, ∃ k y, r.Drawn H (2 * k) y ∧ q = y * half + k := by
  have hfold (p : Pass) :
      (∃ s ∈ (region.foldl (Pass.rect img H (2 * half) (2 * half)) p).out, s.1 = q) ↔
        (∃ s ∈ p.out, s.1 = q) ∨ ∃ r ∈ region, ∃ k y, r.Drawn H (2 * k) y ∧ q = y * half + k := by
    induction region generalizing p with
    | nil => simp
    | cons r region ih =>
      obtain ⟨hr, hregion⟩ := List.forall_mem_cons.1 hvalid
      rw [List.foldl_cons, ih hregion, rect_bytes hr]
      simp only [List.mem_cons, or_and_right, exists_or, exists_eq_left, or_assoc]
  have hnone : ¬ ∃ s ∈ ({} : Pass).out, s.1 = q := by
    rintro ⟨s, hs, _⟩
    cases hs
  unfold gray256ToGray2Dither
  rw [hfold, or_iff_right hnone]

theorem rect_index {p : Pass} {r : Rect} (hr : r.Valid (2 * half) H) :
    ∀ x ∈ (p.rect img H (2 * half) (2 * half) r).written,
      x ∈ p.written ∨ (x.1 : Int) ≤ r.x1 - r.x0 := by
  have hW2 : 2 * half % 2 = 0 := by omega
  obtain ⟨h0, h1, -, -⟩ := hr.columns hW2
  rw [rect_eq_rows, roundUp_eq hW2 hr, roundWidth_eq hW2 hr]
  exact rows_index (by omega)

theorem exists_rect_index (p : Pass) {r : Rect} (hr : r.Valid (2 * half) H)
    (hdrawn : r.x0 < r.x1) :
    ∃ x ∈ (p.rect img H (2 * half) (2 * half) r).written, (x.1 : Int) = r.x1 - r.x0 := by
  have hW2 : 2 * half % 2 = 0 := by omega
  have hheight := hr.height
  have hbottom := hr.bottom
  obtain ⟨h0, h1, -, -⟩ := hr.columns hW2
  have hpos : 0 < rectCount H r := by
    unfold rectCount
    omega
  rw [rect_eq_rows, roundUp_eq hW2 hr, roundWidth_eq hW2 hr]
  exact exists_rows_index (by omega) (by omega) hpos

theorem foldl_written {p : Pass} {x : Nat × Int} (hx : x ∈ p.written) :
    x ∈ (region.foldl (Pass.rect img H (2 * half) (2 * half)) p).written := by
  induction region generalizing p with
  | nil => exact hx
  | cons r region ih =>
    refine ih ?_
    rw [rect_eq_rows]
    exact rows_written hx

theorem dither2_index (hvalid : ∀ r ∈ region, r.Valid (2 * half) H) :
    ∀ x ∈ (gray256ToGray2Dither img H (2 * half) (2 * half) region).written,
      ∃ r ∈ region, (x.1 : Int) ≤ r.x1 - r.x0 := by
  have hfold (p : Pass) : ∀ x ∈ (region.foldl (Pass.rect img H (2 * half) (2 * half)) p).written,
      x ∈ p.written ∨ ∃ r ∈ region, (x.1 : Int) ≤ r.x1 - r.x0 := by
    induction region generalizing p with
    | nil => exact fun x hx => .inl hx
    | cons r region ih =>
      obtain ⟨hr, hregion⟩ := List.forall_mem_cons.1 hvalid
      intro x hx
      rcases ih hregion _ x hx with hx | ⟨t, ht, hle⟩
      · rcases rect_index hr x hx with hx | hle
        · exact .inl hx
        · exact .inr ⟨r, List.mem_cons_self, hle⟩
      · exact .inr ⟨t, List.mem_cons_of_mem r ht, hle⟩
  intro x hx
  rcases hfold {} x hx with hx | hx
  · cases hx
  · exact hx

theorem exists_dither2_index (hvalid : ∀ r ∈ region, r.Valid (2 * half) H) {r : Rect}
    (hr : r ∈ region) (hdrawn : r.x0 < r.x1) :
    ∃ x ∈ (gray256ToGray2Dither img H (2 * half) (2 * half) region).written,
      (x.1 : Int) = r.x1 - r.x0 := by
  unfold gray256ToGray2Dither
  generalize ({} : Pass) = p
  induction region generalizing p with
  | nil => cases hr
  | cons t region ih =>
    obtain ⟨ht, hregion⟩ := List.forall_mem_cons.1 hvalid
    rcases List.mem_cons.1 hr with rfl | hr
    · obtain ⟨x, hx, hxe⟩ := @exists_rect_index img half H p r ht hdrawn
      refine ⟨x, ?_, hxe⟩
      rw [List.foldl_cons]
      exact foldl_written hx
    · exact ih hregion hr _

/-! ## Confinement -/

/-- Pixel `(x, y)` by its number. -/
theorem pixelIn_iff {W x y : Int} (h0 : 0 ≤ x) (hx : x < W) :
    PixelIn W region (y * W + x) ↔ InRegion region x y := by
  have hdiv : (y * W + x) / W = y := row_col h0 hx
  have hmod : (y * W + x) % W = x := by
    rw [Int.emod_def, hdiv, Int.mul_comm]
    omega
  unfold PixelIn
  rw [hdiv, hmod]

/-- What is drawn beyond a rectangle belongs to the region as well: its row `bottom`, and its column
`right` where both edges are odd. A rectangle as wide as the panel has no room for the residual on
the right of its rows. -/
def NoSpill (W H : Int) (region : List Rect) : Prop :=
  ∀ r ∈ region, r.x0 < r.x1 →
    ¬ (r.left = 0 ∧ r.right = W) ∧
    (r.left % 2 = 1 → r.right % 2 = 1 →
      ∀ y, r.top ≤ y → y < r.bottom → InRegion region r.right y) ∧
    (r.bottom < H → ∀ x, r.x0 ≤ x → x < r.x1 → InRegion region x r.bottom)

theorem drawn_inRegion {W : Int} (hspill : NoSpill W H region) {r : Rect} (hr : r ∈ region)
    {x y : Int} (hd : r.Drawn H x y) : InRegion region x y := by
  have hleft := hd.left
  have hright := hd.right
  have hbottom := hd.bottom
  have hpanel := hd.panel
  obtain ⟨-, hcolumn, hrow⟩ := hspill r hr (by omega)
  by_cases hy : y < r.bottom
  · by_cases hx : x < r.right
    · refine ⟨r, hr, ?_, hx, hd.top, hy⟩
      unfold Rect.x0 at hleft
      omega
    · have hodd : r.left % 2 = 1 ∧ r.right % 2 = 1 ∧ x = r.right := by
        unfold Rect.x1 at hright
        split at hright <;> (try split at hright) <;> omega
      obtain ⟨hl, hr2, rfl⟩ := hodd
      exact hcolumn hl hr2 y hd.top hy
  · obtain rfl : y = r.bottom := by omega
    exact hrow hpanel x hleft hright

end Region

section Spill
variable {img : Int → BitVec 8} {half H : Int} {region : List Rect} {r : Rect} {x y : Int}

theorem byte_pixels (half y k : Int) : 2 * (y * half + k) = y * (2 * half) + 2 * k := by ring

/-- A drawn pixel can change its byte, so both pixels of the byte are in the region. -/
theorem Confined.drawn (hvalid : ∀ r ∈ region, r.Valid (2 * half) H)
    (hc : Confined (2 * half) region (gray256ToGray2Dither img H (2 * half) (2 * half) region))
    (hr : r ∈ region) (hd : r.Drawn H x y) : InRegion region x y := by
  obtain ⟨h0, h1, hpos, hle⟩ := (hvalid r hr).columns (by omega)
  have hleft := hd.left
  have hright := hd.right
  have hfirst : r.Drawn H (2 * (x / 2)) y := ⟨by omega, by omega, hd.top, hd.bottom, hd.panel⟩
  have hstore := (@dither2_bytes img half H region hvalid _).2 ⟨r, hr, x / 2, y, hfirst, rfl⟩
  obtain ⟨m, hm⟩ := (exists_run_ne_iff (a := 0#8) (b := 1#8) (by decide)).2 hstore
  obtain ⟨hp0, hp1⟩ := hc.bytes m _ hm
  rw [byte_pixels] at hp0 hp1
  obtain hx | hx : 2 * (x / 2) = x ∨ 2 * (x / 2) + 1 = x := by omega
  · rw [hx] at hp0
    exact (pixelIn_iff (by omega) (by omega)).1 hp0
  · rw [Int.add_assoc, hx] at hp1
    exact (pixelIn_iff (by omega) (by omega)).1 hp1

theorem noSpill_of_confined (hvalid : ∀ r ∈ region, r.Valid (2 * half) H)
    (hc : Confined (2 * half) region (gray256ToGray2Dither img H (2 * half) (2 * half) region)) :
    NoSpill (2 * half) H region := by
  intro r hr hdrawn
  obtain ⟨h0, h1, hpos, hle⟩ := (hvalid r hr).columns (by omega)
  have hheight := (hvalid r hr).height
  have hbottom := (hvalid r hr).bottom
  refine ⟨?_, ?_, ?_⟩
  · rintro ⟨hleft, hright⟩
    obtain ⟨x, hx, hxe⟩ := @exists_dither2_index img half H region hvalid r hr hdrawn
    have hlt := hc.entries x hx
    unfold Rect.x0 Rect.x1 at hxe
    rw [hleft, hright, if_pos (by omega)] at hxe
    omega
  · intro hl hr2 y htop hy
    have hx1 : r.x1 = r.right + 1 := by
      unfold Rect.x1
      rw [if_neg (by omega), if_neg (by omega)]
    exact hc.drawn hvalid hr ⟨by omega, by omega, htop, by omega, by omega⟩
  · intro hlt x hx0 hx1
    exact hc.drawn hvalid hr ⟨hx0, hx1, by omega, by omega, hlt⟩

theorem confined_of_noSpill (hvalid : ∀ r ∈ region, r.Valid (2 * half) H)
    (hspill : NoSpill (2 * half) H region) :
    Confined (2 * half) region (gray256ToGray2Dither img H (2 * half) (2 * half) region) := by
  constructor
  · intro m q hne
    obtain ⟨r, hr, k, y, hd, rfl⟩ := (dither2_bytes hvalid q).1
      ((exists_run_ne_iff (a := 0#8) (b := 1#8) (by decide)).1 ⟨m, hne⟩)
    obtain ⟨h0, h1, hpos, hle⟩ := (hvalid r hr).columns (by omega)
    have hleft := hd.left
    have hright := hd.right
    have hsecond : r.Drawn H (2 * k + 1) y := ⟨by omega, by omega, hd.top, hd.bottom, hd.panel⟩
    rw [byte_pixels, Int.add_assoc, pixelIn_iff (by omega) (by omega),
      pixelIn_iff (by omega) (by omega)]
    exact ⟨drawn_inRegion hspill hr hd, drawn_inRegion hspill hr hsecond⟩
  · intro x hx
    obtain ⟨r, hr, hle⟩ := dither2_index hvalid x hx
    obtain ⟨-, -, hpos, hx1⟩ := (hvalid r hr).columns (by omega)
    have hwidth := (hvalid r hr).width
    have hleft := (hvalid r hr).left
    have hright := (hvalid r hr).right
    by_contra hge
    have hfull : r.left = 0 ∧ r.right = 2 * half := by
      unfold Rect.x0 Rect.x1 at *
      split at hle <;> (try split at hle) <;> omega
    exact (hspill r hr (by omega)).1 hfull

end Spill

/-- On a panel of even width: the dither keeps to its region exactly if nothing is drawn beyond
it. -/
theorem confined_iff (img : Int → BitVec 8) (W H : Int) (region : List Rect) (hW2 : W % 2 = 0)
    (hvalid : ∀ r ∈ region, r.Valid W H) :
    Confined W region (gray256ToGray2Dither img H W W region) ↔ NoSpill W H region := by
  obtain ⟨half, rfl⟩ : ∃ n, W = 2 * n := ⟨W / 2, by omega⟩
  exact ⟨noSpill_of_confined hvalid, confined_of_noSpill hvalid⟩

/-- The left half of a panel of four columns. -/
theorem confined_iff_4x2 :
    Confined 4 [⟨0, 0, 2, 2⟩] (gray256ToGray2Dither (fun _ => 0) 2 4 4 [⟨0, 0, 2, 2⟩]) ↔
      NoSpill 4 2 [⟨0, 0, 2, 2⟩] := by
  refine confined_iff (fun _ => 0) 4 2 [⟨0, 0, 2, 2⟩] (by decide) ?_
  intro r hr
  obtain rfl := List.mem_singleton.1 hr
  exact ⟨by decide, by decide, by decide, by decide, by decide, by decide⟩

/-- A rectangle of one row: the row below it is drawn too. -/
theorem region_overrun :
    ¬ ∀ (img : Int → BitVec 8) (W H : Int) (region : List Rect), W % 2 = 0 →
      (∀ r ∈ region, r.Valid W H) →
      Confined W region (gray256ToGray2Dither img H W W region) := by
  intro h
  have hc := h (fun _ => 0) 4 2 [⟨0, 0, 2, 1⟩] (by decide) fun r hr => by
    obtain rfl := List.mem_singleton.1 hr
    exact ⟨by decide, by decide, by decide, by decide, by decide, by decide⟩
  have hne : run (fun _ => 1#8) (gray256ToGray2Dither (fun _ => 0) 2 4 4 [⟨0, 0, 2, 1⟩]).out 2 ≠
      1#8 := by decide +kernel
  obtain ⟨⟨r, hr, -, -, -, hlt⟩, -⟩ := hc.bytes (fun _ => 1#8) 2 hne
  obtain rfl := List.mem_singleton.1 hr
  revert hlt
  decide

/-! ## The whole panel -/

/-- The region of `ConvertToY1Dither`. -/
def screenRegion (W H : Int) : List Rect := [⟨0, 0, W - 1, H - 1⟩]

/-- The call of `ConvertToY1Dither`. -/
def y1Dither (img : Int → BitVec 8) (W H : Int) : Pass :=
  gray256ToGray2Dither img H W W (screenRegion W H)

/-- Every row is drawn, up to its last two pixels. -/
theorem y1Dither_bytes (img : Int → BitVec 8) {half H : Int} (hW : 0 < half) (hH : 2 ≤ H)
    (q : Int) : (∃ s ∈ (y1Dither img (2 * half) H).out, s.1 = q) ↔
      ∃ k y, 0 ≤ k ∧ k < half - 1 ∧ 0 ≤ y ∧ y < H ∧ q = y * half + k := by
  have hvalid : ∀ r ∈ screenRegion (2 * half) H, r.Valid (2 * half) H := by
    intro r hr
    obtain rfl := List.mem_singleton.1 hr
    constructor
    all_goals
      simp only
      omega
  unfold y1Dither
  rw [dither2_bytes hvalid]
  constructor
  · rintro ⟨r, hr, k, y, hd, rfl⟩
    obtain rfl := List.mem_singleton.1 hr
    obtain ⟨hleft, hright, htop, hbottom, hpanel⟩ := hd
    unfold Rect.x0 at hleft
    unfold Rect.x1 at hright
    rw [if_neg (by simp only; omega), if_pos (by rfl)] at hright
    simp only at *
    exact ⟨k, y, by omega, by omega, htop, hpanel, rfl⟩
  · rintro ⟨k, y, hk0, hk, hy0, hy, rfl⟩
    refine ⟨_, List.mem_singleton.2 rfl, k, y, ?_, rfl⟩
    constructor
    · unfold Rect.x0
      simp only
      omega
    · unfold Rect.x1
      rw [if_neg (by simp only; omega), if_pos (by rfl)]
      simp only
      omega
    · exact hy0
    · show y ≤ H - 1
      omega
    · exact hy

/-- The last byte of every row is left, on every panel. -/
theorem y1Dither_not_covers (img : Int → BitVec 8) (W H : Int) (hW2 : W % 2 = 0) (hW : 2 ≤ W)
    (hH : 2 ≤ H) : ¬ Covers (y1Dither img W H).out (W * H / 2) := by
  obtain ⟨half, rfl⟩ : ∃ n, W = 2 * n := ⟨W / 2, by omega⟩
  have hsize : 2 * half * H / 2 = H * half := by
    rw [Int.mul_assoc, Int.mul_comm half H]
    omega
  have hone : 1 * half ≤ H * half := Int.mul_le_mul_of_nonneg_right (by omega) (by omega)
  intro hcov
  rw [hsize] at hcov
  obtain ⟨k, y, hk0, hk, hy0, hy, he⟩ :=
    (y1Dither_bytes img (by omega) hH (half - 1)).1 (hcov (half - 1) (by omega) (by omega))
  have hat : (0 : Int) * half + (half - 1) = y * half + k := by
    rw [Int.zero_mul, Int.zero_add]
    exact he
  obtain ⟨-, hlast⟩ := row_col_inj (by omega) (by omega) hat
  omega

theorem y1Dither_not_covers_4x2 : ¬ Covers (y1Dither (fun _ => 0) 4 2).out (4 * 2 / 2) :=
  y1Dither_not_covers (fun _ => 0) 4 2 (by decide) (by decide) (by decide)

/-- A panel of four columns keeps byte 1. -/
theorem y1Dither_stale :
    ¬ ∀ (img : Int → BitVec 8) (W H : Int), W % 2 = 0 → 2 ≤ W → 2 ≤ H →
      Covers (y1Dither img W H).out (W * H / 2) := by
  intro h
  obtain ⟨s, hs, he⟩ :=
    h (fun _ => 0) 4 2 (by decide) (by decide) (by decide) 1 (by decide) (by decide)
  have hall : ∀ s ∈ (y1Dither (fun _ => 0) 4 2).out, s.1 ≠ 1 := by decide +kernel
  exact hall s hs he

end Dither

end EinkHwc
