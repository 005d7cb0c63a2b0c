import EinkHwc.Colour.Filter

/-!
# The RGB888 converter on partly defined pixels

The loops of `Rgb888_to_color_eink2` do not look at the pixels, so they make sense for pixels, means
and bytes of any type. With strict operations on values that may be undefined they say which bytes
of the frame come from defined pixels.

* `Filter`, `Filter.convert`: the loops, over the mean of a block and the three kinds of bytes.
* `mem_convert`, `run_convert`: the stores in closed form, and what they leave in a frame.
* `rgb888_convert`: with the code's own operations this is `rgb888ToColorEink2`.
* `Filter.lift`: the strict operations; `panelByte_lift`: a byte is defined if its block is.
-/

namespace EinkHwc

open Mem

/-- The operations on pixels: the mean of a block, and the bytes `r | (b<<4)`, `g | (r<<4)` and
`b | (g<<4)`. -/
structure Filter (P C B : Type) where
  avg : P → P → P → P → C
  rb : C → B
  gr : C → B
  bg : C → B

/-- The pointers of one pass over two source rows, and the stores so far. -/
structure Cursor (B : Type) where
  dstR1 : Int
  dstR2 : Int
  srcR1 : Int
  srcR2 : Int
  out : List (Int × B)

/-- The pointers of the row loop, and the stores so far. -/
structure Rows (B : Type) where
  dst : Int
  src : Int
  out : List (Int × B)

variable {P C B : Type} (F : Filter P C B) (src : Int → P)

/-- One column: the mean of a block, then a byte on each of the two panel rows. -/
def Filter.column (b1 b2 : C → B) (s : Cursor B) : Cursor B :=
  let c := F.avg (src s.srcR1) (src (s.srcR1 + 1)) (src s.srcR2) (src (s.srcR2 + 1))
  { dstR1 := s.dstR1 + 1
    dstR2 := s.dstR2 + 1
    srcR1 := s.srcR1 + 2
    srcR2 := s.srcR2 + 2
    out := s.out ++ [(s.dstR1, b1 c), (s.dstR2, b2 c)] }

/-- The column loop of one row phase. -/
def Filter.row (rowMod3 wDiv6 : Nat) (s : Cursor B) : Cursor B :=
  let col := F.column src
  if rowMod3 = 0 then
    wDiv6.fold (fun _ _ s => s |> col F.rb F.gr |> col F.gr F.bg |> col F.bg F.rb) s
  else if rowMod3 = 1 then
    wDiv6.fold (fun _ _ s => s |> col F.bg F.rb |> col F.rb F.gr |> col F.gr F.bg) s
  else if rowMod3 = 2 then
    wDiv6.fold (fun _ _ s => s |> col F.gr F.bg |> col F.bg F.rb |> col F.rb F.gr) s
  else s

/-- The loops of `Rgb888_to_color_eink2`. -/
def Filter.convert (fbHeight virWidth : Int) : List (Int × B) :=
  let hDiv2 := (fbHeight.tdiv 2).toNat
  let wDiv6 := (virWidth.tdiv 6).toNat
  (hDiv2.fold (fun i _ f =>
    let s := F.row src (i % 3) wDiv6
      { dstR1 := f.dst, dstR2 := f.dst + (virWidth >>> (1 : Nat)), srcR1 := f.src,
        srcR2 := f.src + virWidth, out := [] }
    { dst := f.dst + virWidth, src := f.src + 2 * virWidth, out := f.out ++ s.out })
    (Rows.mk 0 0 [])).out

/-! ## The stores in closed form -/

/-- The kind of the byte whose first panel pixel `(x, y)` has `x - y = d`. -/
def Filter.pick (d : Int) : C → B := if d % 3 = 0 then F.rb else if d % 3 = 1 then F.bg else F.gr

/-- Byte `k` of panel row `y`. -/
def Filter.panelByte (v : Int) (y k : Nat) : B :=
  F.pick (2 * k - y) (F.avg
    (src ((2 * (y / 2) : Nat) * v + (2 * k : Nat)))
    (src ((2 * (y / 2) : Nat) * v + (2 * k + 1 : Nat)))
    (src ((2 * (y / 2) + 1 : Nat) * v + (2 * k : Nat)))
    (src ((2 * (y / 2) + 1 : Nat) * v + (2 * k + 1 : Nat))))

/-- The stores of column `k` of a pass that starts at `s`. -/
def Filter.columnStores (i : Nat) (s : Cursor B) (k : Nat) : List (Int × B) :=
  let c := F.avg (src (s.srcR1 + 2 * k)) (src (s.srcR1 + 2 * k + 1))
    (src (s.srcR2 + 2 * k)) (src (s.srcR2 + 2 * k + 1))
  [(s.dstR1 + k, F.pick (2 * k - 2 * i) c), (s.dstR2 + k, F.pick (2 * k - (2 * i + 1)) c)]

/-- The pass after its first `k` columns. -/
def Filter.cursorAt (i : Nat) (s : Cursor B) (k : Nat) : Cursor B :=
  { dstR1 := s.dstR1 + k
    dstR2 := s.dstR2 + k
    srcR1 := s.srcR1 + 2 * k
    srcR2 := s.srcR2 + 2 * k
    out := s.out ++ (List.range k).flatMap (F.columnStores src i s) }

variable {F src}

theorem pick_congr {d d' : Int} (h : d % 3 = d' % 3) : F.pick d = F.pick d' := by
  unfold Filter.pick
  rw [h]

theorem pick_rb {d : Int} (h : d % 3 = 0) : F.pick d = F.rb := if_pos h

theorem pick_bg {d : Int} (h : d % 3 = 1) : F.pick d = F.bg := by
  unfold Filter.pick
  rw [if_neg (by omega), if_pos h]

theorem pick_gr {d : Int} (h : d % 3 = 2) : F.pick d = F.gr := by
  unfold Filter.pick
  rw [if_neg (by omega), if_neg (by omega)]

theorem column_cursorAt {i k : Nat} {s : Cursor B} {b1 b2 : C → B}
    (h1 : b1 = F.pick (2 * k - 2 * i)) (h2 : b2 = F.pick (2 * k - (2 * i + 1))) :
    F.column src b1 b2 (F.cursorAt src i s k) = F.cursorAt src i s (k + 1) := by
  subst h1 h2
  unfold Filter.column Filter.cursorAt
  rw [List.range_succ, List.flatMap_append]
  simp only [Filter.columnStores, List.flatMap_cons, List.flatMap_nil, List.append_nil,
    List.append_assoc]
  congr 1 <;> omega

/-- Three columns a step, each with the bytes of the pattern. -/
theorem fold_cursorAt {i n : Nat} {s : Cursor B} {b1 b2 b3 : C → B} (h1 : b1 = F.pick (-2 * i))
    (h2 : b2 = F.pick (2 - 2 * i)) (h3 : b3 = F.pick (4 - 2 * i)) :
    n.fold (fun _ _ s => F.column src b3 b1 (F.column src b2 b3 (F.column src b1 b2 s))) s =
      F.cursorAt src i s (3 * n) := by
  subst h1 h2 h3
  refine fold_rule (I := fun j s' => s' = F.cursorAt src i s (3 * j)) ?_ ?_
  · simp [Filter.cursorAt]
  · rintro j _ _ rfl
    rw [column_cursorAt (pick_congr (by omega)) (pick_congr (by omega)),
      column_cursorAt (pick_congr (by omega)) (pick_congr (by omega)),
      column_cursorAt (pick_congr (by omega)) (pick_congr (by omega))]
    rfl

theorem row_cursorAt (i n : Nat) (s : Cursor B) :
    F.row src (i % 3) n s = F.cursorAt src i s (3 * n) := by
  unfold Filter.row
  obtain hi | hi | hi : i % 3 = 0 ∨ i % 3 = 1 ∨ i % 3 = 2 := by omega
  · rw [if_pos hi]
    exact fold_cursorAt (pick_rb (by omega)).symm (pick_gr (by omega)).symm
      (pick_bg (by omega)).symm
  · rw [if_neg (by omega), if_pos hi]
    exact fold_cursorAt (pick_bg (by omega)).symm (pick_rb (by omega)).symm
      (pick_gr (by omega)).symm
  · rw [if_neg (by omega), if_neg (by omega), if_pos hi]
    exact fold_cursorAt (pick_gr (by omega)).symm (pick_bg (by omega)).symm
      (pick_rb (by omega)).symm

/-- The start of the pass over the source rows `2i` and `2i + 1`. -/
def Cursor.start (B : Type) (v half : Int) (i : Nat) : Cursor B :=
  { dstR1 := i * v
    dstR2 := i * v + half
    srcR1 := i * (2 * v)
    srcR2 := i * (2 * v) + v
    out := [] }

theorem convert_rows (h v : Int) :
    F.convert src h v = (List.range (h.tdiv 2).toNat).flatMap fun i =>
      (List.range (3 * (v.tdiv 6).toNat)).flatMap
        (F.columnStores src i (.start B v (v >>> (1 : Nat)) i)) := by
  refine (And.right (fold_log (l := Rows.out) (q := fun f : Rows B => (f.dst, f.src))
    (c := fun i : Nat => ((i * v : Int), (i * (2 * v) : Int))) ?_ ?_)).trans (List.nil_append _)
  · simp
  · intro i f _ hf
    rw [Prod.mk.injEq] at hf
    obtain ⟨hd, hs⟩ := hf
    simp only [hd, hs, row_cursorAt]
    refine ⟨?_, ?_⟩
    · push_cast
      rw [Int.add_mul, Int.add_mul, Int.one_mul, Int.one_mul]
    · simp only [Filter.cursorAt, List.nil_append]
      rfl

theorem columnStores_start (v half : Int) (i k : Nat) :
    F.columnStores src i (.start B v half i) k =
      [(i * v + k, F.panelByte src v (2 * i) k),
        (i * v + half + k, F.panelByte src v (2 * i + 1) k)] := by
  have h0 : 2 * i / 2 = i := by omega
  have h1 : (2 * i + 1) / 2 = i := by omega
  have hrow : (i : Int) * (2 * v) = 2 * i * v := by ring
  unfold Filter.columnStores Filter.panelByte Cursor.start
  rw [h0, h1]
  push_cast
  simp only [hrow, Int.add_mul, Int.one_mul, Int.add_assoc]

/-- The stores, by panel row and byte. -/
theorem mem_convert {half h : Int} (h0 : 0 ≤ half) (hh : 0 ≤ h) (hh2 : h % 2 = 0)
    {s : Int × B} : s ∈ F.convert src h (2 * half) ↔
      ∃ y k : Nat, (y : Int) < h ∧ (k : Int) < 3 * (half / 3) ∧
        s = (y * half + k, F.panelByte src (2 * half) y k) := by
  have hhalf : (2 * half) >>> (1 : Nat) = half := by
    rw [Int.shiftRight_eq_div_pow]
    omega
  have hcols (k : Nat) : k < 3 * ((2 * half).tdiv 6).toNat ↔ (k : Int) < 3 * (half / 3) := by
    rw [Int.tdiv_eq_ediv_of_nonneg (by omega)]
    omega
  have hrows (i : Nat) : i < (h.tdiv 2).toNat ↔ (2 * i + 1 : Int) < h := by
    rw [Int.tdiv_eq_ediv_of_nonneg hh]
    omega
  have heven (i : Nat) : (i : Int) * (2 * half) = (2 * i : Nat) * half := by
    push_cast
    ring
  have hodd (i : Nat) : (i : Int) * (2 * half) + half = (2 * i + 1 : Nat) * half := by
    push_cast
    ring
  rw [convert_rows, hhalf]
  simp only [columnStores_start, List.mem_flatMap, List.mem_range, List.mem_cons,
    List.not_mem_nil, or_false, hcols, hrows, hodd]
  simp only [heven]
  constructor
  · rintro ⟨i, hi, k, hk, rfl | rfl⟩
    · exact ⟨2 * i, k, by omega, hk, rfl⟩
    · exact ⟨2 * i + 1, k, by omega, hk, rfl⟩
  · rintro ⟨y, k, hy, hk, rfl⟩
    obtain hy2 | hy2 : y = 2 * (y / 2) ∨ y = 2 * (y / 2) + 1 := by omega
    · refine ⟨y / 2, by omega, k, hk, .inl ?_⟩
      rw [← hy2]
    · refine ⟨y / 2, by omega, k, hk, .inr ?_⟩
      rw [← hy2]

/-- The columns of the loop hold the bytes of their blocks, the others are left. -/
theorem run_convert (m : Int → B) {half h : Int} (h0 : 0 ≤ half) (hh : 0 ≤ h) (hh2 : h % 2 = 0)
    {y k : Nat} (hy : (y : Int) < h) (hk : (k : Int) < half) :
    run m (F.convert src h (2 * half)) (y * half + k) =
      if (k : Int) < 3 * (half / 3) then F.panelByte src (2 * half) y k
      else m (y * half + k) := by
  refine run_rows (fun s hs => ?_) (by omega) hk fun hcol =>
    (mem_convert h0 hh hh2).2 ⟨y, k, hy, hcol, rfl⟩
  obtain ⟨y', k', _, hk', rfl⟩ := (mem_convert h0 hh hh2).1 hs
  exact ⟨y', k', hk', rfl⟩

/-! ## The code's own operations -/

/-- The operations of `Rgb888_to_color_eink2`. -/
def rgb888Filter : Filter (BitVec 32) (Rgb 8) (BitVec 8) where
  avg := rgb888AvgRgb
  rb c := pack c.r c.b
  gr c := pack c.g c.r
  bg c := pack c.b c.g

theorem pick_rgb888 (d : Int) (c : Rgb 8) :
    rgb888Filter.pick d c = pack (cfa c d) (cfa c (d + 1)) := by
  obtain hd | hd | hd : d % 3 = 0 ∨ d % 3 = 1 ∨ d % 3 = 2 := by omega
  · rw [pick_rb hd, cfa_r hd, cfa_b (by omega)]
    rfl
  · rw [pick_bg hd, cfa_b hd, cfa_g (by omega)]
    rfl
  · rw [pick_gr hd, cfa_g hd, cfa_r (by omega)]
    rfl

/-- With these operations the loops are those of the converter. -/
theorem rgb888_convert (src : Int → BitVec 32) (h w v : Int) :
    rgb888Filter.convert src h v = (rgb888ToColorEink2 src h w v).flatten := by
  have hsecond (k i : Int) : 2 * k - i + 1 = 2 * k + 1 - i := by omega
  rw [convert_rows, rgb888ToColorEink2_rows, ← List.flatMap_def]
  congr 1
  funext i
  congr 1
  funext k
  unfold Filter.columnStores columnStores cfaBytes
  simp only [pick_rgb888, hsecond]
  rfl

theorem panelByte_rgb888 (src : Int → BitVec 32) (v : Int) (y k : Nat) :
    rgb888Filter.panelByte src v y k = EinkHwc.panelByte src v y k := by
  have hsecond : (2 * k - y + 1 : Int) = 2 * k + 1 - y := by omega
  unfold Filter.panelByte
  rw [pick_rgb888, hsecond]
  rfl

/-! ## Undefined values -/

/-- The strict operations on values that may be undefined. -/
def Filter.lift (F : Filter P C B) : Filter (Option P) (Option C) (Option B) where
  avg p1 p2 p3 p4 := do
    let p1 ← p1
    let p2 ← p2
    let p3 ← p3
    let p4 ← p4
    return F.avg p1 p2 p3 p4
  rb := Option.map F.rb
  gr := Option.map F.gr
  bg := Option.map F.bg

variable {src : Int → Option P}

theorem pick_lift (d : Int) (c : Option C) : F.lift.pick d c = c.map (F.pick d) := by
  unfold Filter.pick
  split
  · rfl
  · split <;> rfl

theorem avg_lift {p1 p2 p3 p4 : Option P} : (F.lift.avg p1 p2 p3 p4).isSome = true ↔
    p1.isSome = true ∧ p2.isSome = true ∧ p3.isSome = true ∧ p4.isSome = true := by
  cases p1 <;> cases p2 <;> cases p3 <;> cases p4 <;> simp [Filter.lift]

/-- A byte is defined exactly if the four pixels of its block are. -/
theorem panelByte_lift {v : Int} {y k : Nat} : (F.lift.panelByte src v y k).isSome = true ↔
    ∀ a b : Nat, a < 2 → b < 2 →
      (src ((2 * (y / 2) + a : Nat) * v + (2 * k + b : Nat))).isSome = true := by
  have hblock : (∀ a b : Nat, a < 2 → b < 2 →
      (src ((2 * (y / 2) + a : Nat) * v + (2 * k + b : Nat))).isSome = true) ↔
      (src ((2 * (y / 2) : Nat) * v + (2 * k : Nat))).isSome = true ∧
      (src ((2 * (y / 2) : Nat) * v + (2 * k + 1 : Nat))).isSome = true ∧
      (src ((2 * (y / 2) + 1 : Nat) * v + (2 * k : Nat))).isSome = true ∧
      (src ((2 * (y / 2) + 1 : Nat) * v + (2 * k + 1 : Nat))).isSome = true := by
    constructor
    · intro h
      exact ⟨h 0 0 (by decide) (by decide), h 0 1 (by decide) (by decide),
        h 1 0 (by decide) (by decide), h 1 1 (by decide) (by decide)⟩
    · rintro ⟨h00, h01, h10, h11⟩ a b ha hb
      obtain rfl | rfl : a = 0 ∨ a = 1 := by omega
      · obtain rfl | rfl : b = 0 ∨ b = 1 := by omega
        · exact h00
        · exact h01
      · obtain rfl | rfl : b = 0 ∨ b = 1 := by omega
        · exact h10
        · exact h11
  unfold Filter.panelByte
  rw [pick_lift, Option.isSome_map, hblock, avg_lift]

end EinkHwc
