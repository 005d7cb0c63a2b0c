import EinkHwc.Colour.Eink2

/-!
# The colour converter for RGB565 frames

`Rgb565_to_color_eink2` expands each source row to two lines of the frame, the second `fb_width`
bytes after the first; each source pixel gives one byte of two channels on each line. Groups of
three pixels are written out in the source, and so are the one or two columns left over.

* `rgb565ToColorEink2`: the stores in program order, one list for each source row.
* `rgb565ToColorEink2_rows`: the rows in closed form, with the bytes `firstByte` and `mixed`.
* `rgb565_pattern_iff`: when the frame follows the pattern that the comments on each line give.
-/

namespace EinkHwc

open Mem

/-- The channels of `src_data`, an `int` in the expressions and an `int16_t` each. -/
def rgb565 (srcData : BitVec 16) : Rgb 16 :=
  { r := ((srcData.signExtend 32 &&& 0xf000#32).sshiftRight 12).setWidth 16
    g := ((srcData.signExtend 32 &&& 0x780#32).sshiftRight 7).setWidth 16
    b := ((srcData.signExtend 32 &&& 0x1e#32).sshiftRight 1).setWidth 16 }

/-- The pointers of one row, and its stores so far. -/
structure Lines565 where
  src : Int
  temp1Dst : Int
  temp2Dst : Int
  out : List Store

/-- `*dst++ = b` for each of the bytes. -/
def emit (dst : Int) (bs : List (BitVec 8)) : List Store := bs.mapIdx fun k b => (dst + k, b)

/-- The bytes of as many pixels, on the first line and then on the second. -/
def Lines565.put (s : Lines565) (line1 line2 : List (BitVec 8)) : Lines565 :=
  { src := s.src + line1.length
    temp1Dst := s.temp1Dst + line1.length
    temp2Dst := s.temp2Dst + line2.length
    out := s.out ++ emit s.temp1Dst line1 ++ emit s.temp2Dst line2 }

/-- Three pixels. `pack lo hi` is `(hi << 4) | lo`. -/
def put3 (rowMod3 : Nat) (c1 c2 c3 : Rgb 16) (s : Lines565) : Lines565 :=
  if rowMod3 = 0 then
    s.put [pack c1.r c1.b, pack c2.g c2.r, pack c3.b c3.g]
      [pack c1.g c1.r, pack c2.b c2.g, pack c3.r c3.b]
  else if rowMod3 = 1 then
    s.put [pack c1.b c1.r, pack c2.r c2.b, pack c3.g c3.b]
      [pack c1.r c1.b, pack c2.g c2.r, pack c3.b c3.g]
  else if rowMod3 = 2 then
    s.put [pack c1.g c1.r, pack c2.b c2.g, pack c3.r c3.b]
      [pack c1.b c1.g, pack c2.r c2.b, pack c3.g c3.r]
  else s

/-- The column left over when `width_lost` is 1. -/
def putLost1 (rowMod3 : Nat) (c1 : Rgb 16) (s : Lines565) : Lines565 :=
  if rowMod3 = 0 then s.put [pack c1.r c1.b] [pack c1.g c1.r]
  else if rowMod3 = 1 then s.put [pack c1.b c1.r] [pack c1.r c1.b]
  else if rowMod3 = 2 then s.put [pack c1.g c1.r] [pack c1.b c1.g]
  else s

/-- The two columns left over when `width_lost` is 2. -/
def putLost2 (rowMod3 : Nat) (c1 c2 : Rgb 16) (s : Lines565) : Lines565 :=
  if rowMod3 = 0 then s.put [pack c1.r c1.b, pack c2.g c2.r] [pack c1.g c1.r, pack c2.b c2.g]
  else if rowMod3 = 1 then s.put [pack c1.b c1.r, pack c2.r c2.b] [pack c1.r c1.b, pack c2.g c2.r]
  else if rowMod3 = 2 then s.put [pack c1.g c1.r, pack c2.b c2.g] [pack c1.b c1.g, pack c2.r c2.b]
  else s

/-- One iteration of the column loop: three pixels, and the columns left over after the last. -/
def rgb565Step (src : Int → BitVec 16) (i : Nat) (widthTmp widthLost : Int) (j : Nat)
    (s : Lines565) : Lines565 :=
  let px (s : Lines565) (k : Int) := rgb565 (src (s.src + k))
  let s := put3 (i % 3) (px s 0) (px s 1) (px s 2) s
  if widthLost = 1 ∧ widthTmp ≤ j + 1 then putLost1 (i % 3) (px s 0) s
  else if widthLost = 2 ∧ widthTmp ≤ j + 1 then putLost2 (i % 3) (px s 0) (px s 1) s
  else s

/-- `Rgb565_to_color_eink2`. -/
def rgb565ToColorEink2 (src : Int → BitVec 16) (fbHeight fbWidth virWidth : Int) :
    List (List Store) :=
  let widthTmp := fbWidth.tdiv 3
  let widthLost := fbWidth.tmod 3
  (fbHeight.toNat.fold (fun i _ f =>
    let s := widthTmp.toNat.fold (fun j _ s => rgb565Step src i widthTmp widthLost j s)
      { src := f.src, temp1Dst := f.dst, temp2Dst := f.dst + fbWidth, out := [] }
    { dst := f.dst + virWidth, src := s.src, rows := f.rows ++ [s.out] })
    (Frame.mk 0 0 [])).rows

/-! ## The column loop in closed form -/

section Bytes
variable {w : Nat} (c : Rgb w) {d : Int}

/-- The two channels of a pixel on a line, with `d` the column less the row: `B:R`, `R:G`, `G:B`. -/
def mixed (d : Int) : BitVec 8 :=
  if d % 3 = 0 then pack c.r c.b else if d % 3 = 1 then pack c.g c.r else pack c.b c.g

theorem mixed_0 (h : d % 3 = 0) : mixed c d = pack c.r c.b := if_pos h

theorem mixed_1 (h : d % 3 = 1) : mixed c d = pack c.g c.r := by
  unfold mixed
  rw [if_neg (by omega), if_pos h]

theorem mixed_2 (h : d % 3 = 2) : mixed c d = pack c.b c.g := by
  unfold mixed
  rw [if_neg (by omega), if_neg (by omega)]

/-- The byte on the first line. The second row phase stores `R:B` for `G:B` and `B:G` for `R:G`. -/
def firstByte (i j : Nat) : BitVec 8 :=
  if i % 3 = 1 ∧ j % 3 = 0 then pack c.b c.r
  else if i % 3 = 1 ∧ j % 3 = 2 then pack c.g c.b
  else mixed c (j - i)

theorem firstByte_rb {i j : Nat} (hi : i % 3 = 1) (hj : j % 3 = 0) :
    firstByte c i j = pack c.b c.r := if_pos ⟨hi, hj⟩

theorem firstByte_bg {i j : Nat} (hi : i % 3 = 1) (hj : j % 3 = 2) :
    firstByte c i j = pack c.g c.b := by
  unfold firstByte
  rw [if_neg (by omega), if_pos ⟨hi, hj⟩]

theorem firstByte_mixed {i j : Nat} (h : i % 3 ≠ 1 ∨ j % 3 = 1) :
    firstByte c i j = mixed c (j - i) := by
  unfold firstByte
  rw [if_neg (by omega), if_neg (by omega)]

end Bytes

section ColumnLoop
variable (src : Int → BitVec 16) (i : Nat) (s : Lines565)

/-- Column `t` of a row whose pixels start at `s.src`. -/
def pxAt (t : Nat) : Rgb 16 := rgb565 (src (s.src + t))

def firstAt (t : Nat) : BitVec 8 := firstByte (pxAt src s t) i t

def secondAt (t : Nat) : BitVec 8 := mixed (pxAt src s t) (t - i + 1)

/-- The stores of the columns `ts`, on both lines. -/
def lineStores (ts : List Nat) : List Store :=
  ts.map (fun t : Nat => (s.temp1Dst + t, firstAt src i s t)) ++
    ts.map (fun t : Nat => (s.temp2Dst + t, secondAt src i s t))

/-- The row at column `c`, after the stores `out`. -/
def lines565At (c : Nat) (out : List Store) : Lines565 :=
  { src := s.src + c, temp1Dst := s.temp1Dst + c, temp2Dst := s.temp2Dst + c, out := out }

theorem px_lines565At (c k : Nat) (out : List Store) :
    rgb565 (src ((lines565At s c out).src + k)) = pxAt src s (c + k) := by
  unfold pxAt lines565At
  push_cast
  rw [Int.add_assoc]

theorem emit_range' (d : Int) (c k : Nat) (f : Nat → BitVec 8) :
    emit (d + c) ((List.range' c k).map f) =
      (List.range' c k).map fun t : Nat => (d + t, f t) := by
  unfold emit
  apply List.ext_getElem
  · simp
  · intro t h1 h2
    simp only [List.getElem_mapIdx, List.getElem_map, List.getElem_range', Nat.one_mul]
    push_cast
    rw [Int.add_assoc]

theorem put_lines565At (c k : Nat) (out : List Store) :
    (lines565At s c out).put ((List.range' c k).map (firstAt src i s))
      ((List.range' c k).map (secondAt src i s)) =
      lines565At s (c + k) (out ++ lineStores src i s (List.range' c k)) := by
  unfold Lines565.put lines565At lineStores
  simp only [emit_range', List.length_map, List.length_range', List.append_assoc]
  congr 1 <;> omega

variable {src i s} {c : Nat} {t : Lines565}

theorem put3_eq (hc : c % 3 = 0) :
    put3 (i % 3) (pxAt src s c) (pxAt src s (c + 1)) (pxAt src s (c + 2)) t =
      t.put ((List.range' c 3).map (firstAt src i s))
        ((List.range' c 3).map (secondAt src i s)) := by
  show _ = t.put [firstAt src i s c, firstAt src i s (c + 1), firstAt src i s (c + 2)]
    [secondAt src i s c, secondAt src i s (c + 1), secondAt src i s (c + 2)]
  unfold put3 firstAt secondAt
  obtain hi | hi | hi : i % 3 = 0 ∨ i % 3 = 1 ∨ i % 3 = 2 := by omega
  · rw [if_pos hi]
    simp (disch := omega) only [firstByte_mixed, mixed_0, mixed_1, mixed_2]
  · rw [if_neg (by omega), if_pos hi]
    simp (disch := omega) only [firstByte_mixed, firstByte_rb, firstByte_bg, mixed_0, mixed_1,
      mixed_2]
  · rw [if_neg (by omega), if_neg (by omega), if_pos hi]
    simp (disch := omega) only [firstByte_mixed, mixed_0, mixed_1, mixed_2]

theorem putLost1_eq (hc : c % 3 = 0) :
    putLost1 (i % 3) (pxAt src s c) t =
      t.put ((List.range' c 1).map (firstAt src i s))
        ((List.range' c 1).map (secondAt src i s)) := by
  show _ = t.put [firstAt src i s c] [secondAt src i s c]
  unfold putLost1 firstAt secondAt
  obtain hi | hi | hi : i % 3 = 0 ∨ i % 3 = 1 ∨ i % 3 = 2 := by omega
  · rw [if_pos hi, firstByte_mixed _ (by omega), mixed_0 _ (by omega), mixed_1 _ (by omega)]
  · rw [if_neg (by omega), if_pos hi, firstByte_rb _ hi hc, mixed_0 _ (by omega)]
  · rw [if_neg (by omega), if_neg (by omega), if_pos hi, firstByte_mixed _ (by omega),
      mixed_1 _ (by omega), mixed_2 _ (by omega)]

theorem putLost2_eq (hc : c % 3 = 0) :
    putLost2 (i % 3) (pxAt src s c) (pxAt src s (c + 1)) t =
      t.put ((List.range' c 2).map (firstAt src i s))
        ((List.range' c 2).map (secondAt src i s)) := by
  show _ = t.put [firstAt src i s c, firstAt src i s (c + 1)]
    [secondAt src i s c, secondAt src i s (c + 1)]
  unfold putLost2 firstAt secondAt
  obtain hi | hi | hi : i % 3 = 0 ∨ i % 3 = 1 ∨ i % 3 = 2 := by omega
  · rw [if_pos hi]
    simp (disch := omega) only [firstByte_mixed, mixed_0, mixed_1, mixed_2]
  · rw [if_neg (by omega), if_pos hi]
    simp (disch := omega) only [firstByte_mixed, firstByte_rb, mixed_0, mixed_1]
  · rw [if_neg (by omega), if_neg (by omega), if_pos hi]
    simp (disch := omega) only [firstByte_mixed, mixed_0, mixed_1, mixed_2]

/-- The stores of iteration `j` of `n`, with `lost` columns left over. -/
def stepStores (src : Int → BitVec 16) (i : Nat) (s : Lines565) (n lost j : Nat) : List Store :=
  lineStores src i s (List.range' (3 * j) 3) ++
    if n ≤ j + 1 then lineStores src i s (List.range' (3 * j + 3) lost) else []

theorem rgb565Step_eq {n lost j : Nat} (hlost : lost < 3) (out : List Store) :
    rgb565Step src i n lost j (lines565At s (3 * j) out) =
      lines565At s (3 * j + 3 + if n ≤ j + 1 then lost else 0)
        (out ++ stepStores src i s n lost j) := by
  have h3 : put3 (i % 3) (rgb565 (src ((lines565At s (3 * j) out).src + 0)))
      (rgb565 (src ((lines565At s (3 * j) out).src + 1)))
      (rgb565 (src ((lines565At s (3 * j) out).src + 2))) (lines565At s (3 * j) out) =
      lines565At s (3 * j + 3) (out ++ lineStores src i s (List.range' (3 * j) 3)) := by
    have h0 := px_lines565At src s (3 * j) 0 out
    have h1 := px_lines565At src s (3 * j) 1 out
    have h2 := px_lines565At src s (3 * j) 2 out
    push_cast at h0 h1 h2
    rw [h0, h1, h2, Nat.add_zero, put3_eq (by omega), put_lines565At]
  have h0 := px_lines565At src s (3 * j + 3) 0
    (out ++ lineStores src i s (List.range' (3 * j) 3))
  have h1 := px_lines565At src s (3 * j + 3) 1
    (out ++ lineStores src i s (List.range' (3 * j) 3))
  push_cast at h0 h1
  unfold rgb565Step stepStores
  simp only [h3]
  by_cases hj : n ≤ j + 1
  · rw [if_pos hj, if_pos hj]
    obtain rfl | rfl | rfl : lost = 0 ∨ lost = 1 ∨ lost = 2 := by omega
    · rw [if_neg (by omega), if_neg (by omega)]
      simp [lineStores]
    · rw [if_pos (by omega), h0, Nat.add_zero, putLost1_eq (by omega), put_lines565At,
        List.append_assoc]
    · rw [if_neg (by omega), if_pos (by omega), h0, h1, Nat.add_zero, putLost2_eq (by omega),
        put_lines565At, List.append_assoc]
  · rw [if_neg (by omega), if_neg (by omega), if_neg hj, if_neg hj, List.append_nil, Nat.add_zero]

/-- The columns after `j` iterations. -/
def columnsAt (n lost j : Nat) : Nat := 3 * j + if 0 < j ∧ n ≤ j then lost else 0

theorem columnsAt_end {n lost : Nat} (hn : 0 < n) : columnsAt n lost n = 3 * n + lost := by
  unfold columnsAt
  rw [if_pos ⟨hn, Nat.le_refl n⟩]

theorem fold_rgb565Step {n lost : Nat} (hlost : lost < 3) (hs : s.out = []) :
    n.fold (fun j _ t => rgb565Step src i n lost j t) s =
      lines565At s (columnsAt n lost n) ((List.range n).flatMap (stepStores src i s n lost)) := by
  refine fold_rule (I := fun j t => t = lines565At s (columnsAt n lost j)
    ((List.range j).flatMap (stepStores src i s n lost))) ?_ ?_
  · simp [lines565At, columnsAt, ← hs]
  · rintro j _ hj rfl
    have hc : columnsAt n lost j = 3 * j := by
      unfold columnsAt
      rw [if_neg (by omega)]
      rfl
    have hc' : columnsAt n lost (j + 1) = 3 * j + 3 + if n ≤ j + 1 then lost else 0 := by
      unfold columnsAt
      simp only [Nat.succ_pos, true_and]
      omega
    rw [hc, rgb565Step_eq hlost, hc', List.range_succ, List.flatMap_append]
    simp

end ColumnLoop

/-! ## The row loop in closed form -/

/-- The source pixels of a row, and so its columns: none below three. -/
def rowLen (w : Int) : Nat := if w < 3 then 0 else w.toNat

/-- The start of row `i`. -/
def rowStart (w v : Int) (i : Nat) : Lines565 :=
  { src := i * rowLen w, temp1Dst := i * v, temp2Dst := i * v + w, out := [] }

/-- The stores of row `i`. -/
def rowStores (src : Int → BitVec 16) (w v : Int) (i : Nat) : List Store :=
  (List.range (w.tdiv 3).toNat).flatMap
    (stepStores src i (rowStart w v i) (w.tdiv 3).toNat (w.tmod 3).toNat)

private theorem tdiv3_of_lt {w : Int} (hw : w < 3) : (w.tdiv 3).toNat = 0 := by
  have h := Int.tdiv_le_tdiv (c := 3) (by decide) (show w ≤ 2 by omega)
  have h2 : Int.tdiv 2 3 = 0 := rfl
  omega

private theorem tdiv3_tmod3 {w : Int} (hw : 3 ≤ w) :
    w.tdiv 3 = ((w / 3).toNat : Nat) ∧ w.tmod 3 = ((w % 3).toNat : Nat) := by
  rw [Int.tdiv_eq_ediv_of_nonneg (by omega), Int.tmod_eq_emod_of_nonneg (by omega)]
  omega

theorem rowLen_eq (w : Int) :
    rowLen w = columnsAt (w.tdiv 3).toNat (w.tmod 3).toNat (w.tdiv 3).toNat := by
  unfold rowLen
  by_cases hw : w < 3
  · rw [if_pos hw, tdiv3_of_lt hw]
    rfl
  · obtain ⟨hn, hl⟩ := tdiv3_tmod3 (show 3 ≤ w by omega)
    rw [hn, hl, if_neg hw, columnsAt_end (by omega)]
    omega

theorem rgb565Row_eq (src : Int → BitVec 16) (w v : Int) (i : Nat) :
    (w.tdiv 3).toNat.fold (fun j _ s => rgb565Step src i (w.tdiv 3) (w.tmod 3) j s)
      (rowStart w v i) = lines565At (rowStart w v i) (rowLen w) (rowStores src w v i) := by
  unfold rowStores
  rw [rowLen_eq]
  by_cases hw : w < 3
  · rw [tdiv3_of_lt hw]
    simp [lines565At, rowStart, columnsAt]
  · obtain ⟨hn, hl⟩ := tdiv3_tmod3 (show 3 ≤ w by omega)
    rw [hn, hl, Int.toNat_natCast, Int.toNat_natCast, fold_rgb565Step (by omega) rfl]

theorem rgb565ToColorEink2_rows (src : Int → BitVec 16) (h w v : Int) :
    rgb565ToColorEink2 src h w v = (List.range h.toNat).map (rowStores src w v) := by
  have hf := fold_log (n := h.toNat) (s := Frame.mk 0 0 []) (l := Frame.rows)
    (f := fun i f =>
      let s := (w.tdiv 3).toNat.fold (fun j _ s => rgb565Step src i (w.tdiv 3) (w.tmod 3) j s)
        { src := f.src, temp1Dst := f.dst, temp2Dst := f.dst + w, out := [] }
      { dst := f.dst + v, src := s.src, rows := f.rows ++ [s.out] })
    (q := fun f => (f.dst, f.src)) (c := fun i => (i * v, i * rowLen w))
    (g := fun i => [rowStores src w v i]) (by simp) ?_
  · unfold rgb565ToColorEink2
    rw [hf.2, List.nil_append, List.map_eq_flatMap]
  intro i f _ hq
  rw [Prod.mk.injEq] at hq
  obtain ⟨hd, hs⟩ := hq
  have hrow := rgb565Row_eq src w v i
  unfold rowStart at hrow
  simp only [hd, hs, hrow]
  refine ⟨?_, rfl⟩
  unfold lines565At
  push_cast
  rw [Int.add_mul, Int.add_mul, Int.one_mul, Int.one_mul]

theorem mem_lineStores {src : Int → BitVec 16} {i : Nat} {r : Lines565} {ts : List Nat}
    {s : Store} :
    s ∈ lineStores src i r ts ↔ ∃ t ∈ ts,
      s = (r.temp1Dst + t, firstAt src i r t) ∨ s = (r.temp2Dst + t, secondAt src i r t) := by
  unfold lineStores
  rw [List.mem_append, List.mem_map, List.mem_map]
  constructor
  · rintro (⟨t, ht, rfl⟩ | ⟨t, ht, rfl⟩)
    · exact ⟨t, ht, .inl rfl⟩
    · exact ⟨t, ht, .inr rfl⟩
  · rintro ⟨t, ht, rfl | rfl⟩
    · exact .inl ⟨t, ht, rfl⟩
    · exact .inr ⟨t, ht, rfl⟩

/-- The iterations and the columns left over make up the row. -/
theorem mem_stepStores {src : Int → BitVec 16} {i n lost : Nat} {r : Lines565} {s : Store} :
    s ∈ (List.range n).flatMap (stepStores src i r n lost) ↔ ∃ t < columnsAt n lost n,
      s = (r.temp1Dst + t, firstAt src i r t) ∨ s = (r.temp2Dst + t, secondAt src i r t) := by
  by_cases hn : n = 0
  · subst hn
    simp [columnsAt]
  rw [columnsAt_end (by omega)]
  simp only [List.mem_flatMap, List.mem_range, stepStores, List.mem_append]
  constructor
  · rintro ⟨j, hj, hs | hs⟩
    · obtain ⟨t, ht, hs⟩ := mem_lineStores.1 hs
      rw [List.mem_range'_1] at ht
      exact ⟨t, by omega, hs⟩
    · split at hs
      · obtain ⟨t, ht, hs⟩ := mem_lineStores.1 hs
        rw [List.mem_range'_1] at ht
        exact ⟨t, by omega, hs⟩
      · cases hs
  · rintro ⟨t, ht, hs⟩
    by_cases h : t < 3 * n
    · exact ⟨t / 3, by omega, .inl <| mem_lineStores.2
        ⟨t, List.mem_range'_1.2 (by omega), hs⟩⟩
    · refine ⟨n - 1, by omega, .inr ?_⟩
      rw [if_pos (by omega)]
      exact mem_lineStores.2 ⟨t, List.mem_range'_1.2 (by omega), hs⟩

theorem mem_rowStores {src : Int → BitVec 16} {w v : Int} {i : Nat} {s : Store} :
    s ∈ rowStores src w v i ↔ ∃ t < rowLen w,
      s = (i * v + t, firstAt src i (rowStart w v i) t) ∨
        s = (i * v + w + t, secondAt src i (rowStart w v i) t) := by
  rw [rowLen_eq]
  exact mem_stepStores

/-! ## The pattern of the two lines -/

/-- Bits 12-15, 7-10 and 1-4 of the word. -/
theorem rgb565_toNat (p : BitVec 16) :
    (rgb565 p).r.toNat = field p.toNat 12 4 ∧ (rgb565 p).g.toNat = field p.toNat 7 4 ∧
    (rgb565 p).b.toNat = field p.toNat 1 4 := by
  have hsign (k : Nat) (hk : k = 12 ∨ k = 7 ∨ k = 1) :
      field (p.signExtend 32).toNat k 4 = field p.toNat k 4 := by
    have hp := p.isLt
    unfold field
    rw [BitVec.toNat_signExtend, BitVec.toNat_setWidth]
    obtain rfl | rfl | rfl := hk <;> split <;> omega
  have hr : ((p.signExtend 32 &&& 0xf000#32).sshiftRight 12).toNat = field p.toNat 12 4 := by
    rw [toNat_and_sshiftRight (n := 4) (by decide) (by decide), hsign 12 (by decide)]
  have hg : ((p.signExtend 32 &&& 0x780#32).sshiftRight 7).toNat = field p.toNat 7 4 := by
    rw [toNat_and_sshiftRight (n := 4) (by decide) (by decide), hsign 7 (by decide)]
  have hb : ((p.signExtend 32 &&& 0x1e#32).sshiftRight 1).toNat = field p.toNat 1 4 := by
    rw [toNat_and_sshiftRight (n := 4) (by decide) (by decide), hsign 1 (by decide)]
  have h12 := field_lt p.toNat 12 4
  have h7 := field_lt p.toNat 7 4
  have h1 := field_lt p.toNat 1 4
  unfold rgb565
  simp only [BitVec.toNat_setWidth, hr, hg, hb]
  omega

/-- The byte of a pixel on a line, by its channels' top four bits. -/
def pattern565 (p : BitVec 16) (d : Int) : Nat :=
  let r := field p.toNat 12 4
  let g := field p.toNat 7 4
  let b := field p.toNat 1 4
  if d % 3 = 0 then b * 16 + r else if d % 3 = 1 then r * 16 + g else g * 16 + b

/-- The pixel `(i, j)` of a source with rows of `w` pixels. -/
def pixel565 (src : Int → BitVec 16) (w : Int) (i j : Nat) : BitVec 16 := src (i * w + j)

theorem mixed_toNat (p : BitVec 16) (d : Int) : (mixed (rgb565 p) d).toNat = pattern565 p d := by
  obtain ⟨hr, hg, hb⟩ := rgb565_toNat p
  have h12 := field_lt p.toNat 12 4
  have h7 := field_lt p.toNat 7 4
  have h1 := field_lt p.toNat 1 4
  unfold mixed pattern565
  dsimp only
  split
  · rw [pack_toNat (by decide) (by omega) (by omega)]
    omega
  split
  · rw [pack_toNat (by decide) (by omega) (by omega)]
    omega
  · rw [pack_toNat (by decide) (by omega) (by omega)]
    omega

/-- The first line follows the pattern where the two swapped channels are equal. -/
theorem firstByte_toNat_iff (p : BitVec 16) (i j : Nat) :
    (firstByte (rgb565 p) i j).toNat = pattern565 p (j - i) ↔ (i % 3 = 1 →
      (j % 3 = 0 → field p.toNat 12 4 = field p.toNat 7 4) ∧
      (j % 3 = 2 → field p.toNat 1 4 = field p.toNat 12 4)) := by
  obtain ⟨hr, hg, hb⟩ := rgb565_toNat p
  have h12 := field_lt p.toNat 12 4
  have h7 := field_lt p.toNat 7 4
  have h1 := field_lt p.toNat 1 4
  by_cases h : i % 3 ≠ 1 ∨ j % 3 = 1
  · rw [firstByte_mixed _ h, mixed_toNat]
    omega
  obtain hj | hj : j % 3 = 0 ∨ j % 3 = 2 := by omega
  · unfold pattern565
    rw [firstByte_rb _ (by omega) hj, pack_toNat (by decide) (by omega) (by omega),
      if_neg (by omega), if_neg (by omega)]
    omega
  · unfold pattern565
    rw [firstByte_bg _ (by omega) hj, pack_toNat (by decide) (by omega) (by omega),
      if_neg (by omega), if_pos (by omega)]
    omega

/-- Both lines of a source row, when the rows of the frame hold them. -/
theorem run_rgb565ToColorEink2 (src : Int → BitVec 16) (m : Int → BitVec 8) {h w v : Int}
    (hw : 3 ≤ w) (hv : 2 * w ≤ v) {i j : Nat} (hi : (i : Int) < h) (hj : (j : Int) < w) :
    run m (rgb565ToColorEink2 src h w v).flatten (i * v + j) =
      firstByte (rgb565 (pixel565 src w i j)) i j ∧
    run m (rgb565ToColorEink2 src h w v).flatten (i * v + w + j) =
      mixed (rgb565 (pixel565 src w i j)) (j - i + 1) := by
  have hlen : (rowLen w : Int) = w := by
    unfold rowLen
    rw [if_neg (by omega)]
    omega
  have hpx (i j : Nat) : pxAt src (rowStart w v i) j = rgb565 (pixel565 src w i j) := by
    unfold pxAt pixel565 rowStart
    rw [hlen]
  have hmem (s : Store) : s ∈ (rgb565ToColorEink2 src h w v).flatten ↔ ∃ i j : Nat,
      (i : Int) < h ∧ (j : Int) < w ∧
      (s = (i * v + j, firstByte (rgb565 (pixel565 src w i j)) i j) ∨
        s = (i * v + (w + j), mixed (rgb565 (pixel565 src w i j)) (j - i + 1))) := by
    rw [rgb565ToColorEink2_rows, List.mem_flatten]
    simp only [List.mem_map, List.mem_range]
    constructor
    · rintro ⟨_, ⟨i, hi, rfl⟩, hs⟩
      obtain ⟨j, hj, hs⟩ := mem_rowStores.1 hs
      unfold firstAt secondAt at hs
      rw [hpx, Int.add_assoc] at hs
      exact ⟨i, j, by omega, by omega, hs⟩
    · rintro ⟨i, j, hi, hj, hs⟩
      refine ⟨_, ⟨i, by omega, rfl⟩, mem_rowStores.2 ⟨j, by omega, ?_⟩⟩
      unfold firstAt secondAt
      rw [hpx, Int.add_assoc]
      exact hs
  rw [Int.add_assoc]
  -- In either line, an offset belongs to one row and one column.
  refine ⟨run_of_mem ((hmem _).2 ⟨i, j, hi, hj, .inl rfl⟩) ?_,
    run_of_mem ((hmem _).2 ⟨i, j, hi, hj, .inr rfl⟩) ?_⟩
  all_goals
    intro s hs he
    obtain ⟨i', j', _, hj', rfl | rfl⟩ := (hmem s).1 hs
    all_goals
      obtain ⟨hii, hjj⟩ := row_col_inj (by omega) (by omega) he
      first
        | omega
        | obtain rfl : i' = i := by omega
          obtain rfl : j' = j := by omega
          rfl

/-- The frame has both bytes of the pattern for each source pixel exactly when, in every third row
from the second one on, red is green in the first of three columns and blue is red in the third. -/
theorem rgb565_pattern_iff (src : Int → BitVec 16) (fbHeight fbWidth virWidth : Int)
    (hw : 3 ≤ fbWidth) (hv : 2 * fbWidth ≤ virWidth) :
    (∀ (m : Int → BitVec 8) (i j : Nat), (i : Int) < fbHeight → (j : Int) < fbWidth →
      (run m (rgb565ToColorEink2 src fbHeight fbWidth virWidth).flatten
        (i * virWidth + j)).toNat = pattern565 (pixel565 src fbWidth i j) (j - i) ∧
      (run m (rgb565ToColorEink2 src fbHeight fbWidth virWidth).flatten
        (i * virWidth + fbWidth + j)).toNat = pattern565 (pixel565 src fbWidth i j) (j - i + 1)) ↔
    ∀ i j : Nat, (i : Int) < fbHeight → (j : Int) < fbWidth → i % 3 = 1 →
      (j % 3 = 0 → field (pixel565 src fbWidth i j).toNat 12 4 =
        field (pixel565 src fbWidth i j).toNat 7 4) ∧
      (j % 3 = 2 → field (pixel565 src fbWidth i j).toNat 1 4 =
        field (pixel565 src fbWidth i j).toNat 12 4) := by
  constructor
  · intro h i j hi hj
    obtain ⟨hfirst, _⟩ := run_rgb565ToColorEink2 src (fun _ => 0) hw hv hi hj
    obtain ⟨hp, _⟩ := h (fun _ => 0) i j hi hj
    rw [hfirst] at hp
    exact (firstByte_toNat_iff _ i j).1 hp
  · intro h m i j hi hj
    obtain ⟨hfirst, hsecond⟩ := run_rgb565ToColorEink2 src m hw hv hi hj
    rw [hfirst, hsecond]
    exact ⟨(firstByte_toNat_iff _ i j).2 (h i j hi hj), mixed_toNat _ _⟩

/-- Gray pictures. -/
theorem rgb565_pattern_iff_gray :
    (∀ (m : Int → BitVec 8) (i j : Nat), (i : Int) < 2 → (j : Int) < 4 →
      (run m (rgb565ToColorEink2 (fun _ => 0x8410#16) 2 4 8).flatten (i * 8 + j)).toNat =
        pattern565 (pixel565 (fun _ => 0x8410#16) 4 i j) (j - i) ∧
      (run m (rgb565ToColorEink2 (fun _ => 0x8410#16) 2 4 8).flatten (i * 8 + 4 + j)).toNat =
        pattern565 (pixel565 (fun _ => 0x8410#16) 4 i j) (j - i + 1)) ↔
    ∀ i j : Nat, (i : Int) < 2 → (j : Int) < 4 → i % 3 = 1 →
      (j % 3 = 0 → field (pixel565 (fun _ => 0x8410#16) 4 i j).toNat 12 4 =
        field (pixel565 (fun _ => 0x8410#16) 4 i j).toNat 7 4) ∧
      (j % 3 = 2 → field (pixel565 (fun _ => 0x8410#16) 4 i j).toNat 1 4 =
        field (pixel565 (fun _ => 0x8410#16) 4 i j).toNat 12 4) :=
  rgb565_pattern_iff _ 2 4 8 (by decide) (by decide)

/-- A red pixel in the second row: `R:B` is stored where `G:B` stands in the comment. -/
theorem rgb565_pattern_red :
    ¬ ∀ (src : Int → BitVec 16) (fbHeight fbWidth virWidth : Int), 3 ≤ fbWidth →
      2 * fbWidth ≤ virWidth → ∀ (m : Int → BitVec 8) (i j : Nat), (i : Int) < fbHeight →
      (j : Int) < fbWidth →
      (run m (rgb565ToColorEink2 src fbHeight fbWidth virWidth).flatten
        (i * virWidth + j)).toNat = pattern565 (pixel565 src fbWidth i j) (j - i) ∧
      (run m (rgb565ToColorEink2 src fbHeight fbWidth virWidth).flatten
        (i * virWidth + fbWidth + j)).toNat =
          pattern565 (pixel565 src fbWidth i j) (j - i + 1) := by
  intro h
  have hred := (h (fun _ => 0xf800#16) 2 3 6 (by decide) (by decide) (fun _ => 0) 1 0 (by decide)
    (by decide)).1
  revert hred
  decide +kernel

end EinkHwc
