import EinkHwc.Mem.Fields
import EinkHwc.Mem.Stores

/-!
# The colour converter for RGB888 frames

A colour panel has a filter of three channels in front of its pixels; a panel pixel shows one
channel of the picture, in four bits. `Rgb888_to_color_eink2` averages every 2x2 block of the
source and stores the four panel pixels of the block, two rows at a time.

* Memory: the source is a function from word offsets, the frame is the list of byte stores in
  program order, one list for each pass of the row loop. Sizes are mathematical integers.
* `rgb888ToColorEink2`: the active version, with the packed average `RGB888_AVG_RGB`.
* `rgb888ToColorEink2Orig`: the version before it, kept under `#if 0`.
* `rgb888ToColorEink2_rows`, `rgb888ToColorEink2Orig_rows`: both in closed form, over the diagonal
  pattern `cfa`.
-/

namespace EinkHwc

open Mem

/-- A byte store through `dst`, at its offset. -/
abbrev Store := Int × BitVec 8

structure Rgb (w : Nat) where
  r : BitVec w
  g : BitVec w
  b : BitVec w

/-- `lo | (hi << 4)`, stored to a `char`. -/
def pack {w : Nat} (lo hi : BitVec w) : BitVec 8 := (lo ||| hi <<< 4).setWidth 8

/-- The pointers of one pass over two source rows, and the stores so far. -/
structure Lines where
  dstR1 : Int
  dstR2 : Int
  srcR1 : Int
  srcR2 : Int
  out : List Store

/-- The pointers of the row loop, and the stores of each pass. -/
structure Frame where
  dst : Int
  src : Int
  rows : List (List Store)

/-- One column: the average of a 2x2 block, then a byte on each of the two panel rows. -/
def column {w : Nat} (avg : BitVec 32 → BitVec 32 → BitVec 32 → BitVec 32 → Rgb w)
    (src : Int → BitVec 32) (bytes : Rgb w → BitVec 8 × BitVec 8) (s : Lines) : Lines :=
  let c := avg (src s.srcR1) (src (s.srcR1 + 1)) (src s.srcR2) (src (s.srcR2 + 1))
  { dstR1 := s.dstR1 + 1
    dstR2 := s.dstR2 + 1
    srcR1 := s.srcR1 + 2
    srcR2 := s.srcR2 + 2
    out := s.out ++ [(s.dstR1, (bytes c).1), (s.dstR2, (bytes c).2)] }

/-! ## The active version -/

/-- `RGB888_AVG_RGB`: the three channels of four pixels are summed in one word. -/
def rgb888AvgRgb (p1 p2 p3 p4 : BitVec 32) : Rgb 8 :=
  let s1 := p1 &&& 0x00F0F0F0#32
  let s2 := p2 &&& 0x00F0F0F0#32
  let s3 := p3 &&& 0x00F0F0F0#32
  let s4 := p4 &&& 0x00F0F0F0#32
  let s := (s1 + s2 + s3 + s4) >>> 2
  { r := (s >>> 4 &&& 0xF#32).setWidth 8
    g := (s >>> 12 &&& 0xF#32).setWidth 8
    b := (s >>> 20 &&& 0xF#32).setWidth 8 }

/-- The column loop of one row phase. -/
def rgb888Row (src : Int → BitVec 32) (rowMod3 wDiv6 : Nat) (s : Lines) : Lines :=
  let col := column rgb888AvgRgb src
  if rowMod3 = 0 then
    wDiv6.fold (fun _ _ s => s
      |> col (fun c => (pack c.r c.b, pack c.g c.r))
      |> col (fun c => (pack c.g c.r, pack c.b c.g))
      |> col (fun c => (pack c.b c.g, pack c.r c.b))) s
  else if rowMod3 = 1 then
    wDiv6.fold (fun _ _ s => s
      |> col (fun c => (pack c.b c.g, pack c.r c.b))
      |> col (fun c => (pack c.r c.b, pack c.g c.r))
      |> col (fun c => (pack c.g c.r, pack c.b c.g))) s
  else if rowMod3 = 2 then
    wDiv6.fold (fun _ _ s => s
      |> col (fun c => (pack c.g c.r, pack c.b c.g))
      |> col (fun c => (pack c.b c.g, pack c.r c.b))
      |> col (fun c => (pack c.r c.b, pack c.g c.r))) s
  else s

/-- `Rgb888_to_color_eink2`, the active version. It does not read `fb_width`. -/
def rgb888ToColorEink2 (src : Int → BitVec 32) (fbHeight _fbWidth virWidth : Int) :
    List (List Store) :=
  let hDiv2 := (fbHeight.tdiv 2).toNat
  let wDiv6 := (virWidth.tdiv 6).toNat
  (hDiv2.fold (fun i _ f =>
    let s := rgb888Row src (i % 3) wDiv6
      { dstR1 := f.dst, dstR2 := f.dst + (virWidth >>> (1 : Nat)), srcR1 := f.src,
        srcR2 := f.src + virWidth, out := [] }
    { dst := f.dst + virWidth, src := f.src + 2 * virWidth, rows := f.rows ++ [s.out] })
    (Frame.mk 0 0 [])).rows

/-! ## The version under `#if 0` -/

/-- The three channels of `src_data`, in an `int` each. -/
def rgb444 (srcData : BitVec 32) : Rgb 32 :=
  { b := (srcData &&& 0xf00000#32).sshiftRight 20
    g := (srcData &&& 0xf000#32).sshiftRight 12
    r := (srcData &&& 0xf0#32).sshiftRight 4 }

/-- The channels of four pixels, averaged one by one. -/
def rgb444Avg (p1 p2 p3 p4 : BitVec 32) : Rgb 32 :=
  let c1 := rgb444 p1
  let c2 := rgb444 p2
  let c3 := rgb444 p3
  let c4 := rgb444 p4
  { r := (c1.r + c2.r + c3.r + c4.r).sshiftRight 2
    g := (c1.g + c2.g + c3.g + c4.g).sshiftRight 2
    b := (c1.b + c2.b + c3.b + c4.b).sshiftRight 2 }

/-- The body of the column loop, which tests the row phase each time. -/
def rgb888StepOrig (src : Int → BitVec 32) (i : Nat) (s : Lines) : Lines :=
  let col := column rgb444Avg src
  if i % 3 = 0 then s
    |> col (fun c => (pack c.r c.b, pack c.g c.r))
    |> col (fun c => (pack c.g c.r, pack c.b c.g))
    |> col (fun c => (pack c.b c.g, pack c.r c.b))
  else if i % 3 = 1 then s
    |> col (fun c => (pack c.b c.g, pack c.r c.b))
    |> col (fun c => (pack c.r c.b, pack c.g c.r))
    |> col (fun c => (pack c.g c.r, pack c.b c.g))
  else if i % 3 = 2 then s
    |> col (fun c => (pack c.g c.r, pack c.b c.g))
    |> col (fun c => (pack c.b c.g, pack c.r c.b))
    |> col (fun c => (pack c.r c.b, pack c.g c.r))
  else s

/-- `Rgb888_to_color_eink2`, the original of algorithm 2. -/
def rgb888ToColorEink2Orig (src : Int → BitVec 32) (fbHeight _fbWidth virWidth : Int) :
    List (List Store) :=
  ((fbHeight.tdiv 2).toNat.fold (fun i _ f =>
    let s := (virWidth.tdiv 6).toNat.fold (fun _ _ s => rgb888StepOrig src i s)
      { dstR1 := f.dst, dstR2 := f.dst + virWidth.tdiv 2, srcR1 := f.src,
        srcR2 := f.src + virWidth, out := [] }
    { dst := f.dst + virWidth, src := f.src + 2 * virWidth, rows := f.rows ++ [s.out] })
    (Frame.mk 0 0 [])).rows

/-! ## The filter pattern -/

/-- The channel in front of the panel pixels `(x, y)` with `x - y = d`. -/
def cfa {w : Nat} (c : Rgb w) (d : Int) : BitVec w :=
  if d % 3 = 0 then c.r else if d % 3 = 1 then c.b else c.g

section Pattern
variable {w : Nat} {c : Rgb w} {d : Int}

theorem cfa_r (h : d % 3 = 0) : cfa c d = c.r := if_pos h

theorem cfa_b (h : d % 3 = 1) : cfa c d = c.b := by
  unfold cfa
  rw [if_neg (by omega), if_pos h]

theorem cfa_g (h : d % 3 = 2) : cfa c d = c.g := by
  unfold cfa
  rw [if_neg (by omega), if_neg (by omega)]

/-- The bytes of column `k` in the rows `2i` and `2i + 1`: the panel pixels `2k` and `2k + 1`. -/
def cfaBytes (i k : Nat) (c : Rgb w) : BitVec 8 × BitVec 8 :=
  (pack (cfa c (2 * k - 2 * i)) (cfa c (2 * k + 1 - 2 * i)),
    pack (cfa c (2 * k - (2 * i + 1))) (cfa c (2 * k + 1 - (2 * i + 1))))

variable {i k : Nat} (c)

theorem cfaBytes_rb (h : (2 * k - 2 * i : Int) % 3 = 0) :
    (pack c.r c.b, pack c.g c.r) = cfaBytes i k c := by
  unfold cfaBytes
  rw [cfa_r (by omega), cfa_b (by omega), cfa_g (by omega), cfa_r (by omega)]

theorem cfaBytes_bg (h : (2 * k - 2 * i : Int) % 3 = 1) :
    (pack c.b c.g, pack c.r c.b) = cfaBytes i k c := by
  unfold cfaBytes
  rw [cfa_b (by omega), cfa_g (by omega), cfa_r (by omega), cfa_b (by omega)]

theorem cfaBytes_gr (h : (2 * k - 2 * i : Int) % 3 = 2) :
    (pack c.g c.r, pack c.b c.g) = cfaBytes i k c := by
  unfold cfaBytes
  rw [cfa_g (by omega), cfa_r (by omega), cfa_b (by omega), cfa_g (by omega)]

end Pattern

/-! ## The column loop in closed form -/

section ColumnLoop
variable {w : Nat} (avg : BitVec 32 → BitVec 32 → BitVec 32 → BitVec 32 → Rgb w)
  (src : Int → BitVec 32)

/-- The stores of column `k` of a pass that starts at `s`. -/
def columnStores (i : Nat) (s : Lines) (k : Nat) : List Store :=
  let c := avg (src (s.srcR1 + 2 * k)) (src (s.srcR1 + 2 * k + 1))
    (src (s.srcR2 + 2 * k)) (src (s.srcR2 + 2 * k + 1))
  [(s.dstR1 + k, (cfaBytes i k c).1), (s.dstR2 + k, (cfaBytes i k c).2)]

/-- The pass after its first `k` columns. -/
def linesAt (i : Nat) (s : Lines) (k : Nat) : Lines :=
  { dstR1 := s.dstR1 + k
    dstR2 := s.dstR2 + k
    srcR1 := s.srcR1 + 2 * k
    srcR2 := s.srcR2 + 2 * k
    out := s.out ++ (List.range k).flatMap (columnStores avg src i s) }

variable {avg src}

theorem linesAt_zero (i : Nat) (s : Lines) : linesAt avg src i s 0 = s := by
  simp [linesAt]

theorem column_linesAt {i k : Nat} {s : Lines} {bytes : Rgb w → BitVec 8 × BitVec 8}
    (hb : ∀ c, bytes c = cfaBytes i k c) :
    column avg src bytes (linesAt avg src i s k) = linesAt avg src i s (k + 1) := by
  unfold column linesAt
  rw [List.range_succ, List.flatMap_append]
  simp only [hb, columnStores, List.flatMap_cons, List.flatMap_nil, List.append_nil,
    List.append_assoc]
  congr 1 <;> omega

/-- Three columns a step, each with the bytes of the pattern. -/
theorem fold_linesAt {i n : Nat} {s : Lines} {body : Lines → Lines}
    (hbody : ∀ j, body (linesAt avg src i s (3 * j)) = linesAt avg src i s (3 * j + 3)) :
    n.fold (fun _ _ s => body s) s = linesAt avg src i s (3 * n) := by
  refine fold_rule (I := fun j s' => s' = linesAt avg src i s (3 * j)) (linesAt_zero i s).symm ?_
  rintro j _ _ rfl
  exact hbody j

/-! The body of each row phase. -/

variable {i : Nat} {s : Lines} (j : Nat)

theorem phase0_linesAt (hi : i % 3 = 0) :
    (linesAt avg src i s (3 * j)
      |> column avg src (fun c => (pack c.r c.b, pack c.g c.r))
      |> column avg src (fun c => (pack c.g c.r, pack c.b c.g))
      |> column avg src (fun c => (pack c.b c.g, pack c.r c.b))) =
      linesAt avg src i s (3 * j + 3) := by
  rw [column_linesAt fun c => cfaBytes_rb c (by omega),
    column_linesAt fun c => cfaBytes_gr c (by omega),
    column_linesAt fun c => cfaBytes_bg c (by omega)]

theorem phase1_linesAt (hi : i % 3 = 1) :
    (linesAt avg src i s (3 * j)
      |> column avg src (fun c => (pack c.b c.g, pack c.r c.b))
      |> column avg src (fun c => (pack c.r c.b, pack c.g c.r))
      |> column avg src (fun c => (pack c.g c.r, pack c.b c.g))) =
      linesAt avg src i s (3 * j + 3) := by
  rw [column_linesAt fun c => cfaBytes_bg c (by omega),
    column_linesAt fun c => cfaBytes_rb c (by omega),
    column_linesAt fun c => cfaBytes_gr c (by omega)]

theorem phase2_linesAt (hi : i % 3 = 2) :
    (linesAt avg src i s (3 * j)
      |> column avg src (fun c => (pack c.g c.r, pack c.b c.g))
      |> column avg src (fun c => (pack c.b c.g, pack c.r c.b))
      |> column avg src (fun c => (pack c.r c.b, pack c.g c.r))) =
      linesAt avg src i s (3 * j + 3) := by
  rw [column_linesAt fun c => cfaBytes_gr c (by omega),
    column_linesAt fun c => cfaBytes_bg c (by omega),
    column_linesAt fun c => cfaBytes_rb c (by omega)]

end ColumnLoop

theorem rgb888Row_eq (src : Int → BitVec 32) (i n : Nat) (s : Lines) :
    rgb888Row src (i % 3) n s = linesAt rgb888AvgRgb src i s (3 * n) := by
  unfold rgb888Row
  obtain hi | hi | hi : i % 3 = 0 ∨ i % 3 = 1 ∨ i % 3 = 2 := by omega
  · rw [if_pos hi]
    exact fold_linesAt fun j => phase0_linesAt j hi
  · rw [if_neg (by omega), if_pos hi]
    exact fold_linesAt fun j => phase1_linesAt j hi
  · rw [if_neg (by omega), if_neg (by omega), if_pos hi]
    exact fold_linesAt fun j => phase2_linesAt j hi

theorem rgb888StepOrig_linesAt (src : Int → BitVec 32) (i j : Nat) (s : Lines) :
    rgb888StepOrig src i (linesAt rgb444Avg src i s (3 * j)) =
      linesAt rgb444Avg src i s (3 * j + 3) := by
  unfold rgb888StepOrig
  obtain hi | hi | hi : i % 3 = 0 ∨ i % 3 = 1 ∨ i % 3 = 2 := by omega
  · rw [if_pos hi]
    exact phase0_linesAt j hi
  · rw [if_neg (by omega), if_pos hi]
    exact phase1_linesAt j hi
  · rw [if_neg (by omega), if_neg (by omega), if_pos hi]
    exact phase2_linesAt j hi

/-! ## The row loop in closed form -/

/-- The start of the pass over the source rows `2i` and `2i + 1`. -/
def passStart (virWidth half : Int) (i : Nat) : Lines :=
  { dstR1 := i * virWidth
    dstR2 := i * virWidth + half
    srcR1 := i * (2 * virWidth)
    srcR2 := i * (2 * virWidth) + virWidth
    out := [] }

/-- The row loop, for any column loop `r` that stores `out i` in pass `i`. -/
theorem fold_frame {n : Nat} {v half : Int} {r : Nat → Lines → Lines} {out : Nat → List Store}
    (hr : ∀ i, (r i (passStart v half i)).out = out i) :
    (n.fold (fun i _ f =>
      let s := r i
        { dstR1 := f.dst, dstR2 := f.dst + half, srcR1 := f.src, srcR2 := f.src + v, out := [] }
      { dst := f.dst + v, src := f.src + 2 * v, rows := f.rows ++ [s.out] })
      (Frame.mk 0 0 [])).rows = (List.range n).map out := by
  have h := fold_log (n := n) (s := Frame.mk 0 0 []) (l := Frame.rows)
    (f := fun i f =>
      let s := r i
        { dstR1 := f.dst, dstR2 := f.dst + half, srcR1 := f.src, srcR2 := f.src + v, out := [] }
      { dst := f.dst + v, src := f.src + 2 * v, rows := f.rows ++ [s.out] })
    (q := fun f => (f.dst, f.src)) (c := fun i => (i * v, i * (2 * v)))
    (g := fun i => [out i]) (by simp) ?_
  · rw [h.2, List.nil_append, List.map_eq_flatMap]
  intro i f _ hf
  rw [Prod.mk.injEq] at hf
  obtain ⟨hd, hs⟩ := hf
  simp only [hd, hs]
  refine ⟨?_, congrArg (fun l => f.rows ++ [l]) (hr i)⟩
  push_cast
  rw [Int.add_mul, Int.add_mul, Int.one_mul, Int.one_mul]

theorem rgb888ToColorEink2_rows (src : Int → BitVec 32) (h w v : Int) :
    rgb888ToColorEink2 src h w v = (List.range (h.tdiv 2).toNat).map fun i =>
      (List.range (3 * (v.tdiv 6).toNat)).flatMap
        (columnStores rgb888AvgRgb src i (passStart v (v >>> (1 : Nat)) i)) := by
  refine fold_frame fun i => ?_
  rw [rgb888Row_eq]
  exact List.nil_append _

theorem rgb888ToColorEink2Orig_rows (src : Int → BitVec 32) (h w v : Int) :
    rgb888ToColorEink2Orig src h w v = (List.range (h.tdiv 2).toNat).map fun i =>
      (List.range (3 * (v.tdiv 6).toNat)).flatMap
        (columnStores rgb444Avg src i (passStart v (v.tdiv 2) i)) := by
  refine fold_frame
    (r := fun i s => (v.tdiv 6).toNat.fold (fun _ _ s => rgb888StepOrig src i s) s) fun i => ?_
  rw [fold_linesAt fun j => rgb888StepOrig_linesAt src i j _]
  exact List.nil_append _

/-! ## The averages -/

/-- The packed mask keeps the three channels apart. -/
theorem mask888 (p : BitVec 32) : (p &&& 0x00F0F0F0#32).toNat =
    field p.toNat 4 4 * 2 ^ 4 + field p.toNat 12 4 * 2 ^ 12 + field p.toNat 20 4 * 2 ^ 20 := by
  have hm : (0x00F0F0F0#32).toNat = (2 ^ 4 - 1) * 2 ^ 4 ||| (2 ^ 4 - 1) * 2 ^ 12 |||
    (2 ^ 4 - 1) * 2 ^ 20 := by decide
  have h4 := field_lt p.toNat 4 4
  have h12 := field_lt p.toNat 12 4
  rw [BitVec.toNat_and, hm, Nat.and_or_distrib_left, Nat.and_or_distrib_left, and_field, and_field,
    and_field, or_field (k := 12) _ (by omega), or_field (k := 20) _ (by omega)]

theorem nibble_toNat (s : BitVec 32) (k : Nat) :
    ((s >>> k &&& 0xF#32).setWidth 8).toNat = field s.toNat k 4 := by
  have hm : (0xF#32).toNat = 2 ^ 4 - 1 := by decide
  have h := field_lt s.toNat k 4
  unfold field at h ⊢
  rw [BitVec.toNat_setWidth, BitVec.toNat_and, hm, Nat.and_two_pow_sub_one_eq_mod,
    BitVec.toNat_ushiftRight, Nat.shiftRight_eq_div_pow]
  omega

/-- The four bits from bit `k` on, summed over four pixels. -/
def sumNibble (k : Nat) (p1 p2 p3 p4 : BitVec 32) : Nat :=
  field p1.toNat k 4 + field p2.toNat k 4 + field p3.toNat k 4 + field p4.toNat k 4

theorem sumNibble_le (k : Nat) (p1 p2 p3 p4 : BitVec 32) : sumNibble k p1 p2 p3 p4 ≤ 60 := by
  have h1 := field_lt p1.toNat k 4
  have h2 := field_lt p2.toNat k 4
  have h3 := field_lt p3.toNat k 4
  have h4 := field_lt p4.toNat k 4
  unfold sumNibble
  omega

/-- Sums of at most 60 do not carry into the next channel, and the shift leaves each its own
four bits. -/
private theorem field_sums {a b c : Nat} (ha : a ≤ 60) (hb : b ≤ 60) (hc : c ≤ 60) :
    field ((a * 2 ^ 4 + b * 2 ^ 12 + c * 2 ^ 20) / 2 ^ 2) 4 4 = a / 4 ∧
    field ((a * 2 ^ 4 + b * 2 ^ 12 + c * 2 ^ 20) / 2 ^ 2) 12 4 = b / 4 ∧
    field ((a * 2 ^ 4 + b * 2 ^ 12 + c * 2 ^ 20) / 2 ^ 2) 20 4 = c / 4 := by
  unfold field
  omega

theorem rgb888AvgRgb_toNat (p1 p2 p3 p4 : BitVec 32) :
    (rgb888AvgRgb p1 p2 p3 p4).r.toNat = sumNibble 4 p1 p2 p3 p4 / 4 ∧
    (rgb888AvgRgb p1 p2 p3 p4).g.toNat = sumNibble 12 p1 p2 p3 p4 / 4 ∧
    (rgb888AvgRgb p1 p2 p3 p4).b.toNat = sumNibble 20 p1 p2 p3 p4 / 4 := by
  have hr := sumNibble_le 4 p1 p2 p3 p4
  have hg := sumNibble_le 12 p1 p2 p3 p4
  have hb := sumNibble_le 20 p1 p2 p3 p4
  have hs : (((p1 &&& 0x00F0F0F0#32) + (p2 &&& 0x00F0F0F0#32) + (p3 &&& 0x00F0F0F0#32) +
      (p4 &&& 0x00F0F0F0#32)) >>> 2).toNat =
      (sumNibble 4 p1 p2 p3 p4 * 2 ^ 4 + sumNibble 12 p1 p2 p3 p4 * 2 ^ 12 +
        sumNibble 20 p1 p2 p3 p4 * 2 ^ 20) / 2 ^ 2 := by
    rw [BitVec.toNat_ushiftRight, Nat.shiftRight_eq_div_pow]
    simp only [BitVec.toNat_add, mask888]
    unfold sumNibble at *
    omega
  unfold rgb888AvgRgb
  simp only [nibble_toNat, hs]
  exact field_sums hr hg hb

theorem rgb444_toNat (p : BitVec 32) :
    (rgb444 p).r.toNat = field p.toNat 4 4 ∧ (rgb444 p).g.toNat = field p.toNat 12 4 ∧
    (rgb444 p).b.toNat = field p.toNat 20 4 :=
  ⟨toNat_and_sshiftRight (by decide) (by decide), toNat_and_sshiftRight (by decide) (by decide),
    toNat_and_sshiftRight (by decide) (by decide)⟩

/-- The mean of four nibbles, each in an `int`. -/
private theorem avg_toNat {x1 x2 x3 x4 : BitVec 32} {s : Nat}
    (hs : x1.toNat + x2.toNat + x3.toNat + x4.toNat = s) (h : s ≤ 60) :
    ((x1 + x2 + x3 + x4).sshiftRight 2).toNat = s / 4 := by
  have hx : (x1 + x2 + x3 + x4).toNat = s := by
    simp only [BitVec.toNat_add]
    omega
  rw [toNat_sshiftRight _ (by omega), hx]
  rfl

theorem rgb444Avg_toNat (p1 p2 p3 p4 : BitVec 32) :
    (rgb444Avg p1 p2 p3 p4).r.toNat = sumNibble 4 p1 p2 p3 p4 / 4 ∧
    (rgb444Avg p1 p2 p3 p4).g.toNat = sumNibble 12 p1 p2 p3 p4 / 4 ∧
    (rgb444Avg p1 p2 p3 p4).b.toNat = sumNibble 20 p1 p2 p3 p4 / 4 := by
  obtain ⟨hr1, hg1, hb1⟩ := rgb444_toNat p1
  obtain ⟨hr2, hg2, hb2⟩ := rgb444_toNat p2
  obtain ⟨hr3, hg3, hb3⟩ := rgb444_toNat p3
  obtain ⟨hr4, hg4, hb4⟩ := rgb444_toNat p4
  refine ⟨avg_toNat ?_ (sumNibble_le 4 p1 p2 p3 p4), avg_toNat ?_ (sumNibble_le 12 p1 p2 p3 p4),
    avg_toNat ?_ (sumNibble_le 20 p1 p2 p3 p4)⟩
  · rw [hr1, hr2, hr3, hr4]
    rfl
  · rw [hg1, hg2, hg3, hg4]
    rfl
  · rw [hb1, hb2, hb3, hb4]
    rfl

/-! ## The optimised version against the original -/

theorem pack_toNat {w : Nat} {lo hi : BitVec w} (hw : 8 ≤ w) (hlo : lo.toNat < 16)
    (hhi : hi.toNat < 16) : (pack lo hi).toNat = lo.toNat + hi.toNat * 16 := by
  have h8 : 2 ^ 8 ≤ 2 ^ w := Nat.pow_le_pow_right (by decide) hw
  have hsh : (hi <<< 4).toNat = hi.toNat * 2 ^ 4 := by
    rw [BitVec.toNat_shiftLeft, Nat.shiftLeft_eq, Nat.mod_eq_of_lt (by omega)]
  unfold pack
  rw [BitVec.toNat_setWidth, BitVec.toNat_or, hsh, or_field (k := 4) _ hlo]
  omega

/-- The lowest bit of that channel in a source word. -/
def cfaShift (d : Int) : Nat := if d % 3 = 0 then 4 else if d % 3 = 1 then 20 else 12

theorem cfa_toNat {w : Nat} {c : Rgb w} {f : Nat → Nat}
    (h : c.r.toNat = f 4 ∧ c.g.toNat = f 12 ∧ c.b.toNat = f 20) (d : Int) :
    (cfa c d).toNat = f (cfaShift d) := by
  obtain ⟨hr, hg, hb⟩ := h
  unfold cfa cfaShift
  split
  · exact hr
  split
  · exact hb
  · exact hg

/-- The panel byte of two averaged channels, as a number. -/
theorem pack_cfa_toNat {w : Nat} {c : Rgb w} {p1 p2 p3 p4 : BitVec 32} (hw : 8 ≤ w)
    (h : c.r.toNat = sumNibble 4 p1 p2 p3 p4 / 4 ∧ c.g.toNat = sumNibble 12 p1 p2 p3 p4 / 4 ∧
      c.b.toNat = sumNibble 20 p1 p2 p3 p4 / 4) (d e : Int) :
    (pack (cfa c d) (cfa c e)).toNat =
      sumNibble (cfaShift d) p1 p2 p3 p4 / 4 + sumNibble (cfaShift e) p1 p2 p3 p4 / 4 * 16 := by
  have hf := cfa_toNat (f := fun k => sumNibble k p1 p2 p3 p4 / 4) h
  have hd := sumNibble_le (cfaShift d) p1 p2 p3 p4
  have he := sumNibble_le (cfaShift e) p1 p2 p3 p4
  rw [pack_toNat hw (by rw [hf]; omega) (by rw [hf]; omega), hf, hf]

theorem cfaBytes_avg (i k : Nat) (p1 p2 p3 p4 : BitVec 32) :
    cfaBytes i k (rgb888AvgRgb p1 p2 p3 p4) = cfaBytes i k (rgb444Avg p1 p2 p3 p4) := by
  have h8 := pack_cfa_toNat (by decide) (rgb888AvgRgb_toNat p1 p2 p3 p4)
  have h32 := pack_cfa_toNat (by decide) (rgb444Avg_toNat p1 p2 p3 p4)
  have hp (d e : Int) : pack (cfa (rgb888AvgRgb p1 p2 p3 p4) d) (cfa (rgb888AvgRgb p1 p2 p3 p4) e) =
      pack (cfa (rgb444Avg p1 p2 p3 p4) d) (cfa (rgb444Avg p1 p2 p3 p4) e) :=
    BitVec.eq_of_toNat_eq ((h8 d e).trans (h32 d e).symm)
  unfold cfaBytes
  rw [hp, hp]

/-- The optimised converter makes the same stores as the original one, in the same order: every
byte of the frame ends with the same value, and the same bytes stay untouched. -/
theorem rgb888ToColorEink2_eq_orig (src : Int → BitVec 32) (fbHeight fbWidth virWidth : Int)
    (heven : 2 ∣ virWidth) :
    rgb888ToColorEink2 src fbHeight fbWidth virWidth =
      rgb888ToColorEink2Orig src fbHeight fbWidth virWidth := by
  have hhalf : virWidth >>> (1 : Nat) = virWidth.tdiv 2 := by
    rw [Int.shiftRight_eq_div_pow, Int.tdiv_eq_ediv_of_dvd heven]
    rfl
  rw [rgb888ToColorEink2_rows, rgb888ToColorEink2Orig_rows, hhalf]
  unfold columnStores
  simp only [cfaBytes_avg]

theorem rgb888ToColorEink2_eq_orig_12x4 :
    rgb888ToColorEink2 (fun p => BitVec.ofInt 32 (p * 0x123457)) 4 12 12 =
      rgb888ToColorEink2Orig (fun p => BitVec.ofInt 32 (p * 0x123457)) 4 12 12 :=
  rgb888ToColorEink2_eq_orig _ 4 12 12 (by decide)

end EinkHwc
