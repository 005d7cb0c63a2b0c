import EinkHwc.Colour.Filter

/-!
# The first colour converter

`Rgb888_to_color_eink` does not average: a source pixel becomes three panel columns of one channel,
on each of three panel lines. Its row loop has a body for six pixels and a copy of it for the four
or two pixels that may be left.

* `sixPixels`, `fourPixels`, `twoPixels`: that body and its copies, byte by byte.
* `expandByte`: what they have in common. Two pixels are three bytes of a line (`storeBytes_pair`).
* `rgb888ToColorEink_nibble`: every panel column, over the whole frame.
-/

namespace EinkHwc

open Mem

/-- The pointer to the source, and the stores so far. -/
structure Expand where
  tempSrc : Int
  out : List Store

/-- `*temp_dst1++ = b`, for each of the bytes. -/
def storeBytes (tempDst1 : Int) : List (BitVec 8) → List Store
  | [] => []
  | b :: bs => (tempDst1, b) :: storeBytes (tempDst1 + 1) bs

section Body
variable (src : Int → BitVec 32) (tempDst virWidth : Int) (j : Nat) (s : Expand)

/-- The body of the column loop. -/
def sixPixels : Expand :=
  let c1 := rgb444 (src s.tempSrc)
  let c2 := rgb444 (src (s.tempSrc + 1))
  let c3 := rgb444 (src (s.tempSrc + 2))
  let c4 := rgb444 (src (s.tempSrc + 3))
  let c5 := rgb444 (src (s.tempSrc + 4))
  let c6 := rgb444 (src (s.tempSrc + 5))
  { tempSrc := s.tempSrc + 6
    out := s.out ++
      storeBytes (tempDst + j * 9)
        [pack c1.g c1.g, pack c1.g c2.b, pack c2.b c2.b,
          pack c3.r c3.r, pack c3.r c4.g, pack c4.g c4.g,
          pack c5.b c5.b, pack c5.b c6.r, pack c6.r c6.r] ++
      storeBytes (tempDst + virWidth.tdiv 2 + j * 9)
        [pack c1.b c1.b, pack c1.b c2.r, pack c2.r c2.r,
          pack c3.g c3.g, pack c3.g c4.b, pack c4.b c4.b,
          pack c5.r c5.r, pack c5.r c6.g, pack c6.g c6.g] ++
      storeBytes (tempDst + virWidth + j * 9)
        [pack c1.r c1.r, pack c1.r c2.g, pack c2.g c2.g,
          pack c3.b c3.b, pack c3.b c4.r, pack c4.r c4.r,
          pack c5.g c5.g, pack c5.g c6.b, pack c6.b c6.b] }

/-- `dst_dep == 4` -/
def fourPixels : Expand :=
  let c1 := rgb444 (src s.tempSrc)
  let c2 := rgb444 (src (s.tempSrc + 1))
  let c3 := rgb444 (src (s.tempSrc + 2))
  let c4 := rgb444 (src (s.tempSrc + 3))
  { tempSrc := s.tempSrc + 4
    out := s.out ++
      storeBytes (tempDst + j * 9)
        [pack c1.g c1.g, pack c1.g c2.b, pack c2.b c2.b,
          pack c3.r c3.r, pack c3.r c4.g, pack c4.g c4.g] ++
      storeBytes (tempDst + virWidth.tdiv 2 + j * 9)
        [pack c1.b c1.b, pack c1.b c2.r, pack c2.r c2.r,
          pack c3.g c3.g, pack c3.g c4.b, pack c4.b c4.b] ++
      storeBytes (tempDst + virWidth + j * 9)
        [pack c1.r c1.r, pack c1.r c2.g, pack c2.g c2.g,
          pack c3.b c3.b, pack c3.b c4.r, pack c4.r c4.r] }

/-- `dst_dep == 2` -/
def twoPixels : Expand :=
  let c1 := rgb444 (src s.tempSrc)
  let c2 := rgb444 (src (s.tempSrc + 1))
  { tempSrc := s.tempSrc + 2
    out := s.out ++
      storeBytes (tempDst + j * 9) [pack c1.g c1.g, pack c1.g c2.b, pack c2.b c2.b] ++
      storeBytes (tempDst + virWidth.tdiv 2 + j * 9)
        [pack c1.b c1.b, pack c1.b c2.r, pack c2.r c2.r] ++
      storeBytes (tempDst + virWidth + j * 9)
        [pack c1.r c1.r, pack c1.r c2.g, pack c2.g c2.g] }

end Body

/-- The body of the row loop. -/
def expandRow (src : Int → BitVec 32) (fbWidth virWidth : Int) (i : Nat) (out : List Store) :
    List Store :=
  let dstDep := fbWidth.tmod 6
  let tempDst := (i * 3 * virWidth).tdiv 2
  let n := (fbWidth.tdiv 6).toNat
  let s := n.fold (fun j _ s => sixPixels src tempDst virWidth j s)
    { tempSrc := i * fbWidth, out := out }
  if dstDep = 4 then (fourPixels src tempDst virWidth n s).out
  else if dstDep = 2 then (twoPixels src tempDst virWidth n s).out
  else s.out

/-- `Rgb888_to_color_eink` -/
def rgb888ToColorEink (src : Int → BitVec 32) (fbHeight fbWidth virWidth : Int) : List Store :=
  fbHeight.toNat.fold (fun i _ out => expandRow src fbWidth virWidth i out) []

/-! ## Three bytes for two pixels -/

/-- The bytes of panel line `l`, for pixels from source column `x` on. -/
def pairBytes (l : Nat) : Nat → List (Rgb 32) → List (BitVec 8)
  | x, c :: c' :: cs =>
    let a := cfa c (2 - l - x)
    let b := cfa c' (2 - l - (x + 1 : Nat))
    pack a a :: pack a b :: pack b b :: pairBytes l (x + 2) cs
  | _, _ => []

/-- The bytes of the three lines, at group `j` of the row. -/
def threeLines (tempDst virWidth : Int) (j : Nat) (cs : List (Rgb 32)) : List Store :=
  storeBytes (tempDst + j * 9) (pairBytes 0 0 cs) ++
    storeBytes (tempDst + virWidth.tdiv 2 + j * 9) (pairBytes 1 0 cs) ++
    storeBytes (tempDst + virWidth + j * 9) (pairBytes 2 0 cs)

theorem cfa_congr {w : Nat} {c : Rgb w} {d d' : Int} (h : d % 3 = d' % 3) : cfa c d = cfa c d' := by
  unfold cfa
  rw [h]

section Lines
variable (src : Int → BitVec 32) (w half : Int)

/-- The `n` pixels of row `i` from column `x` on. -/
def pixels (i : Nat) : Nat → Nat → List (Rgb 32)
  | _, 0 => []
  | x, n + 1 => rgb444 (pixel src w x i) :: pixels i (x + 1) n

/-- The channel of panel column `x` on panel line `y`. -/
def expandColumn (y x : Nat) : BitVec 32 :=
  cfa (rgb444 (pixel src w (x / 3) (y / 3))) (2 - (y % 3 : Nat) - (x / 3 : Nat))

/-- Byte `k` of panel line `y`. -/
def expandByte (y k : Nat) : BitVec 8 :=
  pack (expandColumn src w y (2 * k)) (expandColumn src w y (2 * k + 1))

/-- The stores of `n` bytes of panel line `y`, from byte `k` on. -/
def expandStores (y k n : Nat) : List Store :=
  (List.range n).map fun b => (y * half + (k + b : Nat), expandByte src w y (k + b))

/-- The same on each panel line of source row `i`. -/
def groupStores (i k n : Nat) : List Store :=
  expandStores src w half (3 * i) k n ++ expandStores src w half (3 * i + 1) k n ++
    expandStores src w half (3 * i + 2) k n

variable {src w half}

theorem expandStores_add (y k n n' : Nat) : expandStores src w half y k (n + n') =
    expandStores src w half y k n ++ expandStores src w half y (k + n) n' := by
  unfold expandStores
  rw [List.range_add, List.map_append, List.map_map]
  simp only [Function.comp_def, Nat.add_assoc]

theorem expandColumn_eq {y x j : Nat} (h : x / 3 = j) : expandColumn src w y x =
    cfa (rgb444 (pixel src w j (y / 3))) (2 - (y % 3 : Nat) - j) := by
  rw [← h]
  rfl

/-- Two pixels fill three bytes: the second byte has a column of each. -/
theorem storeBytes_pair (y m : Nat) (bs : List (BitVec 8)) :
    let a := cfa (rgb444 (pixel src w (2 * m) (y / 3))) (2 - (y % 3 : Nat) - (2 * m : Nat))
    let b := cfa (rgb444 (pixel src w (2 * m + 1) (y / 3))) (2 - (y % 3 : Nat) - (2 * m + 1 : Nat))
    storeBytes (y * half + (3 * m : Nat)) (pack a a :: pack a b :: pack b b :: bs) =
      expandStores src w half y (3 * m) 3 ++ storeBytes (y * half + (3 * (m + 1) : Nat)) bs := by
  intro a b
  have h0 : expandByte src w y (3 * m) = pack a a := by
    unfold expandByte
    rw [expandColumn_eq (j := 2 * m) (by omega), expandColumn_eq (j := 2 * m) (by omega)]
  have h1 : expandByte src w y (3 * m + 1) = pack a b := by
    unfold expandByte
    rw [expandColumn_eq (j := 2 * m) (by omega), expandColumn_eq (j := 2 * m + 1) (by omega)]
  have h2 : expandByte src w y (3 * m + 2) = pack b b := by
    unfold expandByte
    rw [expandColumn_eq (j := 2 * m + 1) (by omega), expandColumn_eq (j := 2 * m + 1) (by omega)]
  have hline : expandStores src w half y (3 * m) 3 =
      [(y * half + (3 * m : Nat), expandByte src w y (3 * m)),
        (y * half + (3 * m + 1 : Nat), expandByte src w y (3 * m + 1)),
        (y * half + (3 * m + 2 : Nat), expandByte src w y (3 * m + 2))] := rfl
  rw [hline, h0, h1, h2]
  simp only [storeBytes, List.cons_append, List.nil_append, Nat.mul_add, Int.natCast_add,
    Int.add_assoc]
  rfl

theorem storeBytes_pairs (y m n : Nat) :
    storeBytes (y * half + (3 * m : Nat))
      (pairBytes (y % 3) (2 * m) (pixels src w (y / 3) (2 * m) (2 * n))) =
      expandStores src w half y (3 * m) (3 * n) := by
  induction n generalizing m with
  | zero => rfl
  | succ n ih =>
    have hpix : pixels src w (y / 3) (2 * m) (2 * (n + 1)) =
        rgb444 (pixel src w (2 * m) (y / 3)) :: rgb444 (pixel src w (2 * m + 1) (y / 3)) ::
          pixels src w (y / 3) (2 * (m + 1)) (2 * n) := rfl
    rw [hpix, pairBytes, storeBytes_pair, Nat.mul_succ 3 n, Nat.add_comm (3 * n) 3,
      expandStores_add]
    exact congrArg _ (ih (m + 1))

/-- The pattern repeats after three pixels, and so after six. -/
theorem pairBytes_six (l j : Nat) : ∀ (x : Nat) (cs : List (Rgb 32)),
    pairBytes l (6 * j + x) cs = pairBytes l x cs
  | _, [] => rfl
  | _, [_] => rfl
  | x, c :: c' :: cs => by
    have ha : cfa c (2 - l - (6 * j + x : Nat)) = cfa c (2 - l - x) := cfa_congr (by omega)
    have hb : cfa c' (2 - l - (6 * j + x + 1 : Nat)) = cfa c' (2 - l - (x + 1 : Nat)) :=
      cfa_congr (by omega)
    rw [pairBytes, pairBytes, ha, hb, Nat.add_assoc, pairBytes_six l j (x + 2) cs]

/-- The bytes of the three lines are those of three consecutive panel lines. -/
theorem threeLines_eq (i j n : Nat) :
    threeLines ((i * 3 * (2 * half)).tdiv 2) (2 * half) j (pixels src w i (6 * j) (2 * n)) =
      groupStores src w half i (9 * j) (3 * n) := by
  have hrow : ((i : Int) * 3 * (2 * half)).tdiv 2 = (3 * i : Nat) * half := by
    rw [show (i : Int) * 3 * (2 * half) = (3 * i : Nat) * half * 2 by push_cast; ring]
    exact Int.mul_tdiv_cancel _ (by decide)
  have hline (l : Nat) (hl : l < 3) (p : Int) (hp : p = (3 * i + l : Nat) * half + (9 * j : Nat)) :
      storeBytes p (pairBytes l 0 (pixels src w i (6 * j) (2 * n))) =
        expandStores src w half (3 * i + l) (9 * j) (3 * n) := by
    have h := @storeBytes_pairs src w half (3 * i + l) (3 * j) n
    rw [show (3 * i + l) / 3 = i by omega, show (3 * i + l) % 3 = l by omega,
      show 2 * (3 * j) = 6 * j by omega, show 3 * (3 * j) = 9 * j by omega] at h
    rw [hp, ← h]
    exact congrArg _ (pairBytes_six l j 0 _).symm
  unfold threeLines groupStores
  rw [hrow, Int.mul_tdiv_cancel_left half (by decide)]
  rw [hline 0 (by decide) _ (by push_cast; ring), hline 1 (by decide) _ (by push_cast; ring),
    hline 2 (by decide) _ (by push_cast; ring)]
  rfl

/-! ## The loops in closed form -/

/-- The pixels at the pointer `p` into row `i`. -/
theorem pixels_eq {i x n : Nat} {p : Int} (hp : p = i * w + x) : pixels src w i x n =
    (List.range n).map fun k : Nat => rgb444 (src (p + k)) := by
  induction n generalizing x p with
  | zero => rfl
  | succ n ih =>
    have hp' : p + 1 = i * w + (x + 1 : Nat) := by
      rw [hp]
      push_cast
      ring
    rw [pixels, ih hp', List.range_succ_eq_map, List.map_cons, List.map_map, hp]
    unfold pixel
    simp only [Function.comp_def, Nat.succ_eq_add_one, Int.natCast_add, Int.natCast_zero,
      Int.natCast_one, Int.add_zero, Int.add_assoc, Int.add_comm 1]

variable {i j : Nat} {s : Expand}

/-- The bytes of the `2 * n` pixels at the pointer. -/
theorem threeLines_at (n : Nat) {cs : List (Rgb 32)} (hs : s.tempSrc = i * w + (6 * j : Nat))
    (hcs : (List.range (2 * n)).map (fun k : Nat => rgb444 (src (s.tempSrc + k))) = cs) :
    threeLines ((i * 3 * (2 * half)).tdiv 2) (2 * half) j cs =
      groupStores src w half i (9 * j) (3 * n) := by
  rw [← hcs, ← pixels_eq hs, threeLines_eq]

theorem sixPixels_eq (hs : s.tempSrc = i * w + (6 * j : Nat)) :
    sixPixels src ((i * 3 * (2 * half)).tdiv 2) (2 * half) j s =
      ⟨s.tempSrc + 6, s.out ++ groupStores src w half i (9 * j) 9⟩ := by
  have h : threeLines ((i * 3 * (2 * half)).tdiv 2) (2 * half) j
      [rgb444 (src s.tempSrc), rgb444 (src (s.tempSrc + 1)), rgb444 (src (s.tempSrc + 2)),
        rgb444 (src (s.tempSrc + 3)), rgb444 (src (s.tempSrc + 4)), rgb444 (src (s.tempSrc + 5))] =
      groupStores src w half i (9 * j) 9 := threeLines_at 3 hs (by simp [List.range_succ])
  rw [← h]
  unfold sixPixels
  simp only [List.append_assoc]
  rfl

theorem fourPixels_eq (hs : s.tempSrc = i * w + (6 * j : Nat)) :
    (fourPixels src ((i * 3 * (2 * half)).tdiv 2) (2 * half) j s).out =
      s.out ++ groupStores src w half i (9 * j) 6 := by
  have h : threeLines ((i * 3 * (2 * half)).tdiv 2) (2 * half) j
      [rgb444 (src s.tempSrc), rgb444 (src (s.tempSrc + 1)), rgb444 (src (s.tempSrc + 2)),
        rgb444 (src (s.tempSrc + 3))] =
      groupStores src w half i (9 * j) 6 := threeLines_at 2 hs (by simp [List.range_succ])
  rw [← h]
  unfold fourPixels
  simp only [List.append_assoc]
  rfl

theorem twoPixels_eq (hs : s.tempSrc = i * w + (6 * j : Nat)) :
    (twoPixels src ((i * 3 * (2 * half)).tdiv 2) (2 * half) j s).out =
      s.out ++ groupStores src w half i (9 * j) 3 := by
  have h : threeLines ((i * 3 * (2 * half)).tdiv 2) (2 * half) j
      [rgb444 (src s.tempSrc), rgb444 (src (s.tempSrc + 1))] =
      groupStores src w half i (9 * j) 3 := threeLines_at 1 hs (by simp [List.range_succ])
  rw [← h]
  unfold twoPixels
  simp only [List.append_assoc]
  rfl

/-- One row: whole groups of six pixels, then what is left of an even width. -/
theorem expandRow_eq (i : Nat) (heven : 2 ∣ w) (out : List Store) :
    expandRow src w (2 * half) i out = out ++
      ((List.range (w.tdiv 6).toNat).flatMap fun j => groupStores src w half i (9 * j) 9) ++
      groupStores src w half i (9 * (w.tdiv 6).toNat) (3 * (w.tmod 6).toNat / 2) := by
  have hloop := fold_log (n := (w.tdiv 6).toNat) (s := ({ tempSrc := i * w, out := out } : Expand))
    (f := fun j s => sixPixels src ((i * 3 * (2 * half)).tdiv 2) (2 * half) j s)
    (q := Expand.tempSrc) (l := Expand.out) (c := fun j => i * w + (6 * j : Nat))
    (g := fun j => groupStores src w half i (9 * j) 9) (by simp) fun j s _ hs => by
      rw [sixPixels_eq hs, hs]
      refine ⟨?_, rfl⟩
      push_cast
      ring
  unfold expandRow
  simp only []
  generalize (w.tdiv 6).toNat.fold (fun j _ s => _) _ = s at hloop ⊢
  obtain ⟨hs, hout⟩ := hloop
  rw [fourPixels_eq hs, twoPixels_eq hs, hout]
  split
  · rename_i h4
    rw [h4]
    rfl
  split
  · rename_i h2
    rw [h2]
    rfl
  · rename_i h4 h2
    have hrem : (w.tmod 6).toNat = 0 := by
      have hlt := Int.tmod_lt_of_pos w (b := 6) (by decide)
      have hw := Int.mul_tdiv_add_tmod w 6
      omega
    rw [hrem]
    exact (List.append_nil _).symm

theorem mem_expandStores {y k n : Nat} {s : Store} : s ∈ expandStores src w half y k n ↔
    ∃ b, k ≤ b ∧ b < k + n ∧ s = (y * half + b, expandByte src w y b) := by
  unfold expandStores
  rw [List.mem_map]
  constructor
  · rintro ⟨b, hb, rfl⟩
    exact ⟨k + b, by omega, by simpa using hb, rfl⟩
  · rintro ⟨b, hk, hb, rfl⟩
    obtain ⟨d, rfl⟩ := Nat.exists_eq_add_of_le hk
    exact ⟨d, List.mem_range.2 (by omega), rfl⟩

theorem mem_groupStores {k n : Nat} {s : Store} : s ∈ groupStores src w half i k n ↔
    ∃ y b, y / 3 = i ∧ k ≤ b ∧ b < k + n ∧ s = (y * half + b, expandByte src w y b) := by
  unfold groupStores
  rw [List.mem_append, List.mem_append, mem_expandStores, mem_expandStores, mem_expandStores]
  constructor
  · rintro ((⟨b, hb⟩ | ⟨b, hb⟩) | ⟨b, hb⟩)
    · exact ⟨3 * i, b, by omega, hb⟩
    · exact ⟨3 * i + 1, b, by omega, hb⟩
    · exact ⟨3 * i + 2, b, by omega, hb⟩
  · rintro ⟨y, b, hy, hb⟩
    obtain rfl | rfl | rfl : y = 3 * i ∨ y = 3 * i + 1 ∨ y = 3 * i + 2 := by omega
    · exact .inl (.inl ⟨b, hb⟩)
    · exact .inl (.inr ⟨b, hb⟩)
    · exact .inr ⟨b, hb⟩

/-- The bytes of a line: nine a group, and three for each pair after the last one. -/
theorem lineBytes (heven : 2 ∣ w) :
    9 * (w.tdiv 6).toNat + 3 * (w.tmod 6).toNat / 2 = (3 * (w / 2)).toNat := by
  rcases Int.le_total 0 w with h0 | h0
  · rw [Int.tdiv_eq_ediv_of_nonneg h0, Int.tmod_eq_emod_of_nonneg h0]
    omega
  · obtain ⟨n, rfl⟩ : ∃ n, w = -n := ⟨-w, (Int.neg_neg w).symm⟩
    rw [Int.neg_tdiv, Int.neg_tmod, Int.tdiv_eq_ediv_of_nonneg (by omega),
      Int.tmod_eq_emod_of_nonneg (by omega)]
    omega

theorem mem_expandRow (heven : 2 ∣ w) {out : List Store} {s : Store} :
    s ∈ expandRow src w (2 * half) i out ↔ s ∈ out ∨
      ∃ y b : Nat, y / 3 = i ∧ (b : Int) < 3 * (w / 2) ∧
        s = (y * half + b, expandByte src w y b) := by
  have hbytes := lineBytes heven
  rw [expandRow_eq i heven, List.mem_append, List.mem_append, or_assoc, List.mem_flatMap]
  refine or_congr_right ?_
  simp only [mem_groupStores, List.mem_range]
  constructor
  · rintro (⟨j, hj, y, b, hy, hk, hb, rfl⟩ | ⟨y, b, hy, hk, hb, rfl⟩)
    · exact ⟨y, b, hy, by omega, rfl⟩
    · exact ⟨y, b, hy, by omega, rfl⟩
  · rintro ⟨y, b, hy, hb, rfl⟩
    by_cases hgroup : b < 9 * (w.tdiv 6).toNat
    · exact .inl ⟨b / 9, by omega, y, b, hy, by omega, by omega, rfl⟩
    · exact .inr ⟨y, b, hy, by omega, by omega, rfl⟩

/-- The stores of the frame. -/
theorem mem_rgb888ToColorEink {h : Int} (heven : 2 ∣ w) {s : Store} :
    s ∈ rgb888ToColorEink src h w (2 * half) ↔
      ∃ y b : Nat, (y : Int) < 3 * h ∧ (b : Int) < 3 * (w / 2) ∧
        s = (y * half + b, expandByte src w y b) := by
  have hrows (n : Nat) : s ∈ n.fold (fun i _ out => expandRow src w (2 * half) i out) [] ↔
      ∃ y b : Nat, y < 3 * n ∧ (b : Int) < 3 * (w / 2) ∧
        s = (y * half + b, expandByte src w y b) := by
    induction n with
    | zero => simp
    | succ n ih =>
      rw [Nat.fold_succ, mem_expandRow heven, ih]
      constructor
      · rintro (⟨y, b, hy, hb, rfl⟩ | ⟨y, b, hy, hb, rfl⟩)
        · exact ⟨y, b, by omega, hb, rfl⟩
        · exact ⟨y, b, by omega, hb, rfl⟩
      · rintro ⟨y, b, hy, hb, rfl⟩
        by_cases hlast : y / 3 = n
        · exact .inr ⟨y, b, hlast, hb, rfl⟩
        · exact .inl ⟨y, b, by omega, hb, rfl⟩
  unfold rgb888ToColorEink
  rw [hrows]
  constructor
  · rintro ⟨y, b, hy, hb, rfl⟩
    exact ⟨y, b, by omega, hb, rfl⟩
  · rintro ⟨y, b, hy, hb, rfl⟩
    exact ⟨y, b, by omega, hb, rfl⟩

end Lines

/-! ## The panel columns -/

/-- The lowest bit of the channel of source column `j` on the panel line `l` of its row: G, B, R on
the first one, B, R, G on the second, R, G, B on the third. -/
def lineShift (l j : Nat) : Nat :=
  if (l + j) % 3 = 0 then 12 else if (l + j) % 3 = 1 then 20 else 4

theorem lineShift_eq (l j : Nat) : cfaShift (2 - l - j) = lineShift l j := by
  unfold cfaShift lineShift
  split_ifs <;> omega

theorem expandColumn_toNat (src : Int → BitVec 32) (w : Int) (y x : Nat) :
    (expandColumn src w y x).toNat =
      field (pixel src w (x / 3) (y / 3)).toNat (lineShift (y % 3) (x / 3)) 4 := by
  have h := cfa_toNat (f := fun k => field (pixel src w (x / 3) (y / 3)).toNat k 4)
    (rgb444_toNat (pixel src w (x / 3) (y / 3))) (2 - (y % 3 : Nat) - (x / 3 : Nat))
  rw [lineShift_eq] at h
  exact h

theorem nibble_expandByte (src : Int → BitVec 32) (w : Int) (y x : Nat) :
    nibble (expandByte src w y (x / 2)) x =
      field (pixel src w (x / 3) (y / 3)).toNat (lineShift (y % 3) (x / 3)) 4 := by
  have hlt (x : Nat) : (expandColumn src w y x).toNat < 16 := by
    rw [expandColumn_toNat]
    exact field_lt _ _ _
  have hlo := hlt (2 * (x / 2))
  have hbyte : (expandByte src w y (x / 2)).toNat = _ := pack_toNat (by decide) hlo (hlt _)
  unfold nibble
  rw [hbyte, ← expandColumn_toNat]
  split
  · rename_i hx
    have he : 2 * (x / 2) = x := by omega
    rw [he] at hlo ⊢
    omega
  · rename_i hx
    have he : 2 * (x / 2) + 1 = x := by omega
    rw [he]
    omega

/-- Each source pixel is three columns of a channel on each of three panel lines, and no byte
outside these is stored to. -/
theorem rgb888ToColorEink_nibble (src : Int → BitVec 32) (m : Int → BitVec 8)
    (fbHeight fbWidth virWidth : Int) (hw : 2 ∣ fbWidth) (hv : 2 ∣ virWidth)
    (hwv : 3 * fbWidth ≤ virWidth) :
    (∀ i j l k : Nat, (i : Int) < fbHeight → (j : Int) < fbWidth → l < 3 → k < 3 →
      nibble (run m (rgb888ToColorEink src fbHeight fbWidth virWidth)
        ((3 * i + l : Nat) * (virWidth / 2) + ((3 * j + k) / 2 : Nat))) (3 * j + k) =
        field (pixel src fbWidth j i).toNat (lineShift l j) 4) ∧
    ∀ s ∈ rgb888ToColorEink src fbHeight fbWidth virWidth, ∃ i j l k : Nat,
      (i : Int) < fbHeight ∧ (j : Int) < fbWidth ∧ l < 3 ∧ k < 3 ∧
        s.1 = (3 * i + l : Nat) * (virWidth / 2) + ((3 * j + k) / 2 : Nat) := by
  obtain ⟨half, rfl⟩ := hv
  have hhalf : 2 * half / 2 = half := by omega
  rw [hhalf]
  refine ⟨fun i j l k hi hj hl hk => ?_, fun s hs => ?_⟩
  · have hcol : (((3 * j + k) / 2 : Nat) : Int) < 3 * (fbWidth / 2) := by omega
    have hrun : run m (rgb888ToColorEink src fbHeight fbWidth (2 * half))
        ((3 * i + l : Nat) * half + ((3 * j + k) / 2 : Nat)) =
        expandByte src fbWidth (3 * i + l) ((3 * j + k) / 2) := by
      refine (run_rows (c := 3 * (fbWidth / 2)) (f := expandByte src fbWidth) (fun s hs => ?_)
        (by omega) (by omega) fun hb => ?_).trans (if_pos hcol)
      · obtain ⟨y, b, -, hb, rfl⟩ := (mem_rgb888ToColorEink hw).1 hs
        exact ⟨y, b, hb, rfl⟩
      · exact (mem_rgb888ToColorEink hw).2 ⟨_, _, by omega, hb, rfl⟩
    rw [hrun, nibble_expandByte]
    rw [show (3 * j + k) / 3 = j by omega, show (3 * i + l) / 3 = i by omega,
      show (3 * i + l) % 3 = l by omega]
  · obtain ⟨y, b, hy, hb, rfl⟩ := (mem_rgb888ToColorEink hw).1 hs
    refine ⟨y / 3, 2 * b / 3, y % 3, 2 * b % 3, by omega, by omega, by omega, by omega, ?_⟩
    rw [show 3 * (y / 3) + y % 3 = y by omega, show (3 * (2 * b / 3) + 2 * b % 3) / 2 = b by omega]

theorem rgb888ToColorEink_nibble_8x1 :
    let src : Int → BitVec 32 := (BitVec.ofInt 32 <| 0x103050 * ·)
    (∀ i j l k : Nat, (i : Int) < 1 → (j : Int) < 8 → l < 3 → k < 3 →
      nibble (run (fun _ => 0) (rgb888ToColorEink src 1 8 26)
        ((3 * i + l : Nat) * (26 / 2) + ((3 * j + k) / 2 : Nat))) (3 * j + k) =
        field (pixel src 8 j i).toNat (lineShift l j) 4) ∧
    ∀ s ∈ rgb888ToColorEink src 1 8 26, ∃ i j l k : Nat,
      (i : Int) < 1 ∧ (j : Int) < 8 ∧ l < 3 ∧ k < 3 ∧
        s.1 = (3 * i + l : Nat) * (26 / 2) + ((3 * j + k) / 2 : Nat) :=
  rgb888ToColorEink_nibble _ _ 1 8 26 (by decide) (by decide) (by decide)

end EinkHwc
