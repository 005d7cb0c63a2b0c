import EinkHwc.Dither.Pixel
import EinkHwc.Mem.Fields
import EinkHwc.Mem.Stores

/-!
# The dither to black and white

`Luma8bit_to_4bit_row_2` dithers one row, two pixels a step: it loads a `short` and stores a byte
of two nibbles. `gray256_to_gray2_dither` runs it over the rows of each rectangle of a region, with
two line buffers that start at zero for each rectangle.

* Logs: `written`, `carried` and `loads` as for sixteen levels, `values` for `g_temp` before `CLIP`,
  `errors` for `e`.
* `rows`: a sequence of rows on the two line buffers.
* `rect_eq_rows`: the loop of a rectangle is such a sequence.
* `row2_bytes`, `row2_index`: the bytes that a row stores, the entries that it uses.
-/

namespace EinkHwc

open Mem

namespace Dither

/-- The locals of `Luma8bit_to_4bit_row_2` and its stores. -/
structure Row2 where
  lines : Lines
  src : Int
  dst : Int
  out : List (Int × BitVec 8) := []
  loads : List Int := []
  values : List Int := []
  errors : List Int := []

/-- `if(g_temp >= threshold) g0 = 0xf0; else g0 = 0x00;` -/
def quant2 (threshold gTemp : Int) : BitVec 32 := if threshold ≤ gTemp then 0xf0#32 else 0x00#32

/-- `if(g_temp >= threshold) g0 = 0x0f; else g0 = 0x00;` -/
def nibble2 (threshold gTemp : Int) : BitVec 32 := if threshold ≤ gTemp then 0x0f#32 else 0x00#32

/-- The body of the loop at pixel `i`. -/
def block2 (img : Int → BitVec 8) (threshold : Int) (i : Nat) (r : Row2) : Row2 :=
  let srcData := (load16 img r.src).signExtend 32
  let data0 := (srcData &&& 0xff#32).toInt
  let s0 := r.lines.pixel (quant2 threshold) data0 i (i ≠ 0) true
  let data1 := ((srcData &&& 0x0000ff00#32).sshiftRight 8).toInt
  let s1 := s0.pixel (quant2 threshold) data1 (i + 1) true true
  { lines := s1
    src := r.src + 2
    dst := r.dst + 1
    out := r.out ++ [(r.dst,
      (nibble2 threshold s1.gTemp <<< 4 ||| nibble2 threshold s0.gTemp).setWidth 8)]
    loads := r.loads ++ [r.src]
    values := r.values ++ [data0 + r.lines.res0 i + r.lines.v0, data1 + s0.res0 (i + 1) + s0.v0]
    errors := r.errors ++ [s0.gTemp - (quant2 threshold s0.gTemp).toInt,
      s1.gTemp - (quant2 threshold s1.gTemp).toInt] }

/-- `Luma8bit_to_4bit_row_2` -/
def luma8bitTo4bitRow2 (img : Int → BitVec 8) (src dst : Int) (res0 res1 : Nat → Int)
    (w threshold : Int) : Row2 :=
  ((w + 1) / 2).toNat.fold (fun n _ r => block2 img threshold (2 * n) r)
    { lines := { res0 := res0, res1 := res1 }, src := src, dst := dst }

/-- The line buffers and what the rows kept. -/
structure Pass where
  lineBuffer : Bool → Nat → Int := fun _ _ => 0
  out : List (Int × BitVec 8) := []
  loads : List Int := []
  written : List (Nat × Int) := []
  carried : List Int := []
  values : List Int := []
  errors : List Int := []

/-- One row of `w` pixels, whose residuals are in buffer `b`. -/
def Pass.row (img : Int → BitVec 8) (w threshold : Int) (b : Bool) (src dst : Int) (p : Pass) :
    Pass :=
  let r := luma8bitTo4bitRow2 img src dst (p.lineBuffer b) (p.lineBuffer !b) w threshold
  { lineBuffer := fun c => if c = b then r.lines.res0 else r.lines.res1
    out := p.out ++ r.out
    loads := p.loads ++ r.loads
    written := p.written ++ r.lines.written
    carried := p.carried ++ r.lines.carried
    values := p.values ++ r.values
    errors := p.errors ++ r.errors }

/-- `android::Rect` -/
structure Rect where
  left : Int
  top : Int
  right : Int
  bottom : Int
  deriving DecidableEq, Repr

/-- The locals that the loop over a rectangle's rows moves on. -/
structure Scan where
  pass : Pass
  offset : Int
  offsetDst : Int

/-- The correction of an odd offset. -/
def roundUp (offset : Int) : Int :=
  if offset.tmod 2 ≠ 0 then offset + (2 - offset.tmod 2) else offset

/-- The correction of the width. -/
def roundWidth (offsetDst w : Int) : Int :=
  if (offsetDst + w).tmod 2 ≠ 0 then w - (offsetDst + w).tmod 2 else w

/-- The body of the loop over the rectangles. -/
def Pass.rect (img : Int → BitVec 8) (panelH panelW virWidth : Int) (p : Pass) (r : Rect) : Pass :=
  let w := r.right - r.left
  let offset := r.top * panelW + r.left
  let offsetDst := r.top * virWidth + r.left
  let offsetDst := roundUp offsetDst
  let offset := roundUp offset
  let w := roundWidth offsetDst w
  -- `h` goes from `top` while `h <= bottom && h < panel_h`
  ((min (r.bottom + 1) panelH - r.top).toNat.fold (fun j _ s =>
    { pass := s.pass.row img w 0x80 ((r.top + j) % 2 = 1) s.offset (s.offsetDst >>> (1 : Nat))
      offset := s.offset + panelW
      offsetDst := s.offsetDst + virWidth })
    (Scan.mk { p with lineBuffer := fun _ _ => 0 } offset offsetDst)).pass

/-- `gray256_to_gray2_dither`, with `gray256_addr` and `gray2_buffer` at 0. -/
def gray256ToGray2Dither (img : Int → BitVec 8) (panelH panelW virWidth : Int)
    (region : List Rect) : Pass :=
  region.foldl (Pass.rect img panelH panelW virWidth) {}

/-! ## Sequences of rows -/

/-- `n` rows one after the other, row `j` at the two addresses `addr j`; the buffers swap after
each. -/
def rows (img : Int → BitVec 8) (w threshold : Int) (b : Bool) (addr : Nat → Int × Int) (n : Nat)
    (p : Pass) : Pass :=
  n.fold (fun j _ p =>
    p.row img w threshold (b ^^ decide (j % 2 = 1)) (addr j).1 (addr j).2) p

theorem rows_succ (img : Int → BitVec 8) (w threshold : Int) (b : Bool) (addr : Nat → Int × Int)
    (n : Nat) (p : Pass) : rows img w threshold b addr (n + 1) p =
      (rows img w threshold b addr n p).row img w threshold (b ^^ decide (n % 2 = 1)) (addr n).1
        (addr n).2 := Nat.fold_succ ..

/-- The number of rows of a rectangle. -/
def rectCount (panelH : Int) (r : Rect) : Nat := (min (r.bottom + 1) panelH - r.top).toNat

/-- Their addresses. -/
def rectAddr (panelW virWidth : Int) (r : Rect) (j : Nat) : Int × Int :=
  (roundUp (r.top * panelW + r.left) + j * panelW,
    (roundUp (r.top * virWidth + r.left) + j * virWidth) >>> (1 : Nat))

private theorem odd_add (t : Int) (j : Nat) :
    decide ((t + j) % 2 = 1) = (decide (t % 2 = 1) ^^ decide (j % 2 = 1)) := by
  by_cases ht : t % 2 = 1
  · by_cases hj : j % 2 = 1
    · rw [decide_eq_true ht, decide_eq_true hj, decide_eq_false (by omega)]
      rfl
    · rw [decide_eq_true ht, decide_eq_false hj, decide_eq_true (by omega)]
      rfl
  · by_cases hj : j % 2 = 1
    · rw [decide_eq_false ht, decide_eq_true hj, decide_eq_true (by omega)]
      rfl
    · rw [decide_eq_false ht, decide_eq_false hj, decide_eq_false (by omega)]
      rfl

/-- The loop over the rows of a rectangle. -/
theorem rect_eq_rows (img : Int → BitVec 8) (panelH panelW virWidth : Int) (p : Pass) (r : Rect) :
    p.rect img panelH panelW virWidth r =
      rows img (roundWidth (roundUp (r.top * virWidth + r.left)) (r.right - r.left)) 0x80
        (r.top % 2 = 1) (rectAddr panelW virWidth r) (rectCount panelH r)
        { p with lineBuffer := fun _ _ => 0 } := by
  refine And.left (fold_rule (I := fun n (s : Scan) => s.pass = rows img _ 0x80 (r.top % 2 = 1)
      (rectAddr panelW virWidth r) n { p with lineBuffer := fun _ _ => 0 } ∧
      s.offset = roundUp (r.top * panelW + r.left) + n * panelW ∧
      s.offsetDst = roundUp (r.top * virWidth + r.left) + n * virWidth) ?_ ?_)
  · simp [rows]
  · rintro j s _ ⟨hpass, hsrc, hdst⟩
    refine ⟨?_, ?_, ?_⟩
    · rw [rows_succ, ← hpass, ← odd_add]
      unfold rectAddr
      rw [← hsrc, ← hdst]
    · push_cast
      rw [hsrc, Int.add_mul, Int.one_mul, Int.add_assoc]
    · push_cast
      rw [hdst, Int.add_mul, Int.one_mul, Int.add_assoc]

/-! ## What a row touches -/

section Row
variable {img : Int → BitVec 8} {src dst w threshold : Int} {res0 res1 : Nat → Int}

theorem steps2 (hw : w % 2 = 0) : ((w + 1) / 2).toNat = (w / 2).toNat := by
  omega

/-- A row of `w` pixels stores to the line buffers up to entry `w`. -/
theorem row2_index (hw : w % 2 = 0) :
    ∀ x ∈ (luma8bitTo4bitRow2 img src dst res0 res1 w threshold).lines.written,
      (x.1 : Int) ≤ w := by
  have hrow : ∀ x ∈ (luma8bitTo4bitRow2 img src dst res0 res1 w threshold).lines.written,
      0 < (w / 2).toNat ∧ x.1 < 2 * (w / 2).toNat + 1 := by
    unfold luma8bitTo4bitRow2
    rw [steps2 hw]
    refine fold_rule (I := fun n (r : Row2) => ∀ x ∈ r.lines.written, 0 < n ∧ x.1 < 2 * n + 1)
      (by simp) ?_
    intro n r _ hr x hx
    have hbefore : ∀ x ∈ r.lines.written, x.1 < 2 * (n + 1) + 1 := by
      intro x hx
      have hlt := (hr x hx).2
      omega
    have hleft (h : decide (2 * n ≠ 0) = true) : 0 < 2 * n := by
      have hne := of_decide_eq_true h
      omega
    refine ⟨Nat.succ_pos n, ?_⟩
    refine pixel_index (pixel_index hbefore ?_ hleft ?_) ?_ ?_ ?_ x hx
    all_goals omega
  intro x hx
  obtain ⟨hpos, hlt⟩ := hrow x hx
  omega

/-- The last pixel adds to the entry beyond the row. -/
theorem exists_row2_index (hw : w % 2 = 0) (hpos : 0 < w) :
    ∃ x ∈ (luma8bitTo4bitRow2 img src dst res0 res1 w threshold).lines.written,
      (x.1 : Int) = w := by
  obtain ⟨n, hn⟩ : ∃ n, (w / 2).toNat = n + 1 := ⟨(w / 2).toNat - 1, by omega⟩
  unfold luma8bitTo4bitRow2
  rw [steps2 hw, hn, Nat.fold_succ]
  have hlast (s : Lines) (data : Int) :
      ∃ x ∈ (s.pixel (quant2 threshold) data (2 * n + 1) true true).written,
        x.1 = 2 * n + 1 + 1 := mem_pixel_right (fun _ => by omega) rfl
  obtain ⟨x, hx, hxe⟩ := hlast _ _
  exact ⟨x, hx, by omega⟩

/-- Its bytes are the `w / 2` bytes from `dst` on. -/
theorem row2_bytes (hw : w % 2 = 0) (p : Int) :
    (∃ s ∈ (luma8bitTo4bitRow2 img src dst res0 res1 w threshold).out, s.1 = p) ↔
      dst ≤ p ∧ p < dst + w / 2 := by
  have hrow : ∀ p, (∃ s ∈ (luma8bitTo4bitRow2 img src dst res0 res1 w threshold).out, s.1 = p) ↔
      dst ≤ p ∧ p < dst + (w / 2).toNat := by
    unfold luma8bitTo4bitRow2
    rw [steps2 hw]
    refine And.right (fold_rule (I := fun n (r : Row2) => r.dst = dst + n ∧
      ∀ p, (∃ s ∈ r.out, s.1 = p) ↔ dst ≤ p ∧ p < dst + n) ?_ ?_)
    · refine ⟨(Int.add_zero dst).symm, fun p => ⟨?_, ?_⟩⟩
      · rintro ⟨s, hs, _⟩
        cases hs
      · rintro ⟨h1, h2⟩
        omega
    · rintro n r _ ⟨hd, hout⟩
      refine ⟨?_, fun p => ?_⟩
      · show r.dst + 1 = _
        rw [hd]
        push_cast
        omega
      · show (∃ s ∈ r.out ++ [_], s.1 = p) ↔ _
        simp only [List.mem_append, List.mem_singleton, or_and_right, exists_or, exists_eq_left]
        rw [hout p]
        show _ ∨ r.dst = p ↔ _
        omega
  rw [hrow p]
  omega

end Row

end Dither

end EinkHwc
