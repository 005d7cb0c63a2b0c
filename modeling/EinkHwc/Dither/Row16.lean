import EinkHwc.Dither.Pixel
import EinkHwc.Mem.Fields
import EinkHwc.Mem.Stores

/-!
# The dither to sixteen levels

`Luma8bit_to_4bit_row_16` dithers one row of gray bytes, eight pixels a step: two words are loaded
and one word of eight nibbles is stored. `gray256_to_gray16_dither` runs it over the picture, with
two line buffers that swap their roles after each row.

* Memory: the picture is a byte memory at `Int` addresses, the frame a list of byte stores; `loads`
  keeps the addresses of the words loaded.
* `gray16`: the levels of the plain definition, one pixel at a time (`Diffusion`).
* `gray256ToGray16Dither_eq`: the frame holds exactly these levels.
-/

namespace EinkHwc

open Mem

namespace Dither

/-- The locals of `Luma8bit_to_4bit_row_16` and its stores. -/
structure Row where
  lines : Lines
  src : Int
  dst : Int
  out : List (Int × BitVec 8) := []
  loads : List Int := []

/-- `g_temp & 0xf0` -/
def quant16 (gTemp : Int) : BitVec 32 := BitVec.ofInt 32 gTemp &&& 0xf0#32

/-- The word of eight pixels. -/
def packWord (g0 g1 g2 g3 g4 g5 g6 g7 : BitVec 32) : BitVec 32 :=
  (g7 <<< 24) ||| (g6 <<< 20) ||| (g5 <<< 16) ||| (g4 <<< 12) ||| (g3 <<< 8) ||| (g2 <<< 4) |||
    g1 ||| (g0.sshiftRight 4)

/-- The body of the loop at pixel `i`. -/
def block16 (img : Int → BitVec 8) (w i : Nat) (r : Row) : Row :=
  let srcData := load32 img r.src
  let s0 := r.lines.pixel quant16 (srcData &&& 0xff#32).toInt i (i ≠ 0) true
  let s1 := s0.pixel quant16 ((srcData &&& 0x0000ff00#32).sshiftRight 8).toInt (i + 1) true true
  let s2 := s1.pixel quant16 ((srcData &&& 0x00ff0000#32).sshiftRight 16).toInt (i + 2) true true
  let s3 := s2.pixel quant16 ((srcData &&& 0xff000000#32) >>> 24).toInt (i + 3) true true
  let srcData' := load32 img (r.src + 4)
  let s4 := s3.pixel quant16 (srcData' &&& 0xff#32).toInt (i + 4) true true
  let s5 := s4.pixel quant16 ((srcData' &&& 0x0000ff00#32).sshiftRight 8).toInt (i + 5) true true
  let s6 := s5.pixel quant16 ((srcData' &&& 0x00ff0000#32).sshiftRight 16).toInt (i + 6) true true
  let s7 := s6.pixel quant16 ((srcData' &&& 0xff000000#32) >>> 24).toInt (i + 7) true (i + 8 ≠ w)
  { lines := s7
    src := r.src + 8
    dst := r.dst + 4
    out := r.out ++ store32 r.dst (packWord (quant16 s0.gTemp) (quant16 s1.gTemp)
      (quant16 s2.gTemp) (quant16 s3.gTemp) (quant16 s4.gTemp) (quant16 s5.gTemp)
      (quant16 s6.gTemp) (quant16 s7.gTemp))
    loads := r.loads ++ [r.src, r.src + 4] }

/-- `Luma8bit_to_4bit_row_16` -/
def luma8bitTo4bitRow16 (img : Int → BitVec 8) (src dst : Int) (res0 res1 : Nat → Int) (w : Nat) :
    Row :=
  ((w + 7) / 8).fold (fun n _ r => block16 img w (8 * n) r)
    { lines := { res0 := res0, res1 := res1 }, src := src, dst := dst }

/-- The locals of `gray256_to_gray16_dither`, the stores of all rows and what the rows kept. -/
structure Frame where
  lineBuffer : Bool → Nat → Int
  src : Int
  dst : Int
  out : List (Int × BitVec 8) := []
  loads : List Int := []
  written : List (Nat × Int) := []
  carried : List Int := []

/-- One row, in a target with rows of `virWidth` pixels: the buffer of the row's parity holds its
residuals, the other takes the next ones. -/
def Frame.rowOf (img : Int → BitVec 8) (panelW virWidth h : Nat) (f : Frame) : Frame :=
  let b : Bool := h % 2 = 1
  let r := luma8bitTo4bitRow16 img f.src f.dst (f.lineBuffer b) (f.lineBuffer !b) panelW
  { lineBuffer := fun c => if c = b then r.lines.res0 else r.lines.res1
    src := f.src + panelW
    dst := f.dst + 4 * (virWidth / 8 : Nat)
    out := f.out ++ r.out
    loads := f.loads ++ r.loads
    written := f.written ++ r.lines.written
    carried := f.carried ++ r.lines.carried }

/-- The body of the loop at row `h`. -/
def Frame.row (img : Int → BitVec 8) (panelW h : Nat) (f : Frame) : Frame :=
  f.rowOf img panelW panelW h

/-- `gray256_to_gray16_dither`, with `gray256_addr` and `gray16_buffer` at 0. It does not use
`vir_width`. -/
def gray256ToGray16Dither (img : Int → BitVec 8) (panelH panelW _virWidth : Nat) : Frame :=
  panelH.fold (fun h _ f => f.row img panelW h)
    { lineBuffer := fun _ _ => 0, src := 0, dst := 0 }

/-! ## The plain definition -/

/-- Sixteen levels: `g - g % 16` is shown for `g`. -/
def sixteen : Diffusion.Quantiser where
  clip := clip
  shown g := 16 * (g / 16)

/-- Row `y` of a picture with rows of `w` bytes. -/
def srcRow (img : Int → BitVec 8) (w y x : Nat) : Int := (img (y * w + x)).toNat

/-- The level of pixel `(x, y)`, from 0 to 15. -/
def gray16 (img : Int → BitVec 8) (w y x : Nat) : Int :=
  Diffusion.level sixteen (srcRow img w y) (Diffusion.residual sixteen w (srcRow img w) y) x / 16

/-! ## Bounds of the plain definition -/

section Bounds
variable {p R : Nat → Int}

theorem err_sixteen (x : Nat) :
    0 ≤ Diffusion.err sixteen p R x ∧ Diffusion.err sixteen p R x ≤ 15 := by
  unfold Diffusion.err
  show 0 ≤ _ - 16 * (_ / 16) ∧ _ - 16 * (_ / 16) ≤ (15 : Int)
  omega

theorem carry_sixteen (x : Nat) :
    0 ≤ Diffusion.carry sixteen p R x ∧ Diffusion.carry sixteen p R x ≤ 6 := by
  cases x with
  | zero =>
    rw [Diffusion.carry_zero]
    decide
  | succ x =>
    have he := err_sixteen (p := p) (R := R) x
    rw [Diffusion.carry_succ]
    omega

theorem received_sixteen (w x k : Nat) :
    0 ≤ Diffusion.received (Diffusion.err sixteen p R) w x k ∧
      Diffusion.received (Diffusion.err sixteen p R) w x k ≤ 6 := by
  exact Diffusion.received_bounds _ w (by decide) (by decide) err_sixteen x k

theorem residual_sixteen (w : Nat) (rows : Nat → Nat → Int) (y k : Nat) :
    0 ≤ Diffusion.residual sixteen w rows y k ∧ Diffusion.residual sixteen w rows y k ≤ 6 := by
  cases y with
  | zero =>
    show (0 : Int) ≤ 0 ∧ (0 : Int) ≤ 6
    decide
  | succ y => exact received_sixteen w w k

/-- A source byte keeps the level in a byte. -/
theorem level_sixteen {x : Nat} (hp : 0 ≤ p x) (hR : 0 ≤ R x) :
    0 ≤ Diffusion.level sixteen p R x ∧ Diffusion.level sixteen p R x ≤ 255 := by
  have hc := carry_sixteen (p := p) (R := R) x
  unfold Diffusion.level Diffusion.value
  show 0 ≤ clip _ ∧ clip _ ≤ 255
  unfold clip
  split <;> omega

end Bounds

/-! ## The words -/

theorem quant16_toNat {g : Int} (h : 0 ≤ g ∧ g ≤ 255) :
    (quant16 g).toNat = 16 * (g / 16).toNat := by
  have hm : (0xf0#32).toNat = (2 ^ 4 - 1) * 2 ^ 4 := by decide
  have hg : (BitVec.ofInt 32 g).toNat = g.toNat := by
    rw [BitVec.toNat_ofInt]
    omega
  unfold quant16
  rw [BitVec.toNat_and, hm, and_field, hg]
  unfold field
  omega

theorem quant16_toInt {g : Int} (h : 0 ≤ g ∧ g ≤ 255) : (quant16 g).toInt = 16 * (g / 16) := by
  have hq := quant16_toNat h
  rw [BitVec.toInt_eq_toNat_of_lt (by omega), hq]
  omega

/-- The four source bytes of a word, as the code extracts them. -/
theorem srcData_toInt (img : Int → BitVec 8) (a : Int) :
    (load32 img a &&& 0xff#32).toInt = (img a).toNat ∧
    ((load32 img a &&& 0x0000ff00#32).sshiftRight 8).toInt = (img (a + 1)).toNat ∧
    ((load32 img a &&& 0x00ff0000#32).sshiftRight 16).toInt = (img (a + 2)).toNat ∧
    ((load32 img a &&& 0xff000000#32) >>> 24).toInt = (img (a + 3)).toNat := by
  have hm : (0xff#32).toNat = (2 ^ 8 - 1) * 2 ^ 0 := by decide
  have hm24 : (0xff000000#32).toNat = (2 ^ 8 - 1) * 2 ^ 24 := by decide
  refine ⟨toInt_of_byte ?_, toInt_of_byte ?_, toInt_of_byte ?_, toInt_of_byte ?_⟩
  · have h0 : field (load32 img a).toNat 0 8 = (img (a + (0 : Nat))).toNat :=
      load32_byte img a 0 (by decide)
    rw [Int.natCast_zero, Int.add_zero] at h0
    rw [BitVec.toNat_and, hm, and_field, h0]
    omega
  · rw [toNat_and_sshiftRight (n := 8) (by decide) (by decide)]
    exact load32_byte img a 1 (by decide)
  · rw [toNat_and_sshiftRight (n := 8) (by decide) (by decide)]
    exact load32_byte img a 2 (by decide)
  · rw [BitVec.toNat_ushiftRight, BitVec.toNat_and, hm24, and_field, Nat.shiftRight_eq_div_pow,
      Nat.mul_div_cancel _ (by decide)]
    exact load32_byte img a 3 (by decide)

private theorem or_nibble (a : Nat) {q k : Nat} (hq : q < 16) :
    a * 2 ^ (k + 4) ||| q * 2 ^ k = (a * 16 + q) * 2 ^ k := by
  have hlt : q * 2 ^ k < 2 ^ (k + 4) := by
    rw [Nat.pow_add, Nat.mul_comm]
    exact Nat.mul_lt_mul_of_pos_left hq (Nat.two_pow_pos k)
  rw [Nat.lor_comm, or_field a hlt, Nat.pow_add]
  ring

/-- A nibble in place. -/
private theorem shl_nibble {g : BitVec 32} {q k : Nat} (hg : g.toNat = 16 * q) (hq : q < 16)
    (hk : k ≤ 24) : (g <<< k).toNat = q * 2 ^ (k + 4) := by
  have h24 : 2 ^ k ≤ 2 ^ 24 := Nat.pow_le_pow_right (by decide) hk
  have hlt : 16 * q * 2 ^ k < 2 ^ 32 := by
    calc 16 * q * 2 ^ k ≤ 240 * 2 ^ 24 := Nat.mul_le_mul (by omega) h24
      _ < 2 ^ 32 := by decide
  rw [BitVec.toNat_shiftLeft, Nat.shiftLeft_eq, hg, Nat.mod_eq_of_lt hlt, Nat.pow_add]
  ring

theorem packWord_toNat {g0 g1 g2 g3 g4 g5 g6 g7 : BitVec 32} {q0 q1 q2 q3 q4 q5 q6 q7 : Nat}
    (h0 : g0.toNat = 16 * q0 ∧ q0 < 16) (h1 : g1.toNat = 16 * q1 ∧ q1 < 16)
    (h2 : g2.toNat = 16 * q2 ∧ q2 < 16) (h3 : g3.toNat = 16 * q3 ∧ q3 < 16)
    (h4 : g4.toNat = 16 * q4 ∧ q4 < 16) (h5 : g5.toNat = 16 * q5 ∧ q5 < 16)
    (h6 : g6.toNat = 16 * q6 ∧ q6 < 16) (h7 : g7.toNat = 16 * q7 ∧ q7 < 16) :
    (packWord g0 g1 g2 g3 g4 g5 g6 g7).toNat =
      ((((((q7 * 16 + q6) * 16 + q5) * 16 + q4) * 16 + q3) * 16 + q2) * 16 + q1) * 16 + q0 := by
  have hg0 : (g0.sshiftRight 4).toNat = q0 * 2 ^ 0 := by
    rw [toNat_sshiftRight _ (by omega)]
    omega
  have hg1 : g1.toNat = q1 * 2 ^ 4 := by omega
  have hg2 : (g2 <<< 4).toNat = q2 * 2 ^ 8 := shl_nibble h2.1 h2.2 (by decide)
  have hg3 : (g3 <<< 8).toNat = q3 * 2 ^ 12 := shl_nibble h3.1 h3.2 (by decide)
  have hg4 : (g4 <<< 12).toNat = q4 * 2 ^ 16 := shl_nibble h4.1 h4.2 (by decide)
  have hg5 : (g5 <<< 16).toNat = q5 * 2 ^ 20 := shl_nibble h5.1 h5.2 (by decide)
  have hg6 : (g6 <<< 20).toNat = q6 * 2 ^ 24 := shl_nibble h6.1 h6.2 (by decide)
  have hg7 : (g7 <<< 24).toNat = q7 * 2 ^ 28 := shl_nibble h7.1 h7.2 (by decide)
  unfold packWord
  simp only [BitVec.toNat_or, hg0, hg1, hg2, hg3, hg4, hg5, hg6, hg7]
  -- From the highest nibble down, each joins the ones above it.
  rw [or_nibble _ (k := 24) h6.2, or_nibble _ (k := 20) h5.2, or_nibble _ (k := 16) h4.2,
    or_nibble _ (k := 12) h3.2, or_nibble _ (k := 8) h2.2, or_nibble _ (k := 4) h1.2,
    or_nibble _ (k := 0) h0.2]
  omega

/-! ## A row -/

section Row
variable (img : Int → BitVec 8) (w y : Nat)

theorem gray16_bounds (x : Nat) : 0 ≤ gray16 img w y x ∧ gray16 img w y x ≤ 15 := by
  have hR := residual_sixteen w (srcRow img w) y x
  have hl := level_sixteen (p := srcRow img w y)
    (R := Diffusion.residual sixteen w (srcRow img w) y)
    (x := x) (Int.natCast_nonneg _) hR.1
  unfold gray16
  omega

/-- Byte `k` of row `y` of the frame. -/
def rowByte (k : Nat) : BitVec 8 :=
  BitVec.ofInt 8 (gray16 img w y (2 * k) + 16 * gray16 img w y (2 * k + 1))

theorem rowByte_toNat (k : Nat) : ((rowByte img w y k).toNat : Int) =
    gray16 img w y (2 * k) + 16 * gray16 img w y (2 * k + 1) := by
  have h0 := gray16_bounds img w y (2 * k)
  have h1 := gray16_bounds img w y (2 * k + 1)
  unfold rowByte
  rw [BitVec.toNat_ofInt]
  omega

/-- The buffers after the pixels before `x` of row `y`. -/
abbrev LinesAt (x : Nat) (s : Lines) : Prop :=
  s.At sixteen (srcRow img w y) (Diffusion.residual sixteen w (srcRow img w) y) w x

variable {img w y}

theorem linesAt_pixel {x : Nat} {s : Lines} {data : Int} {left right : Bool}
    (hs : LinesAt img w y x s) (hdata : data = srcRow img w y x) (hleft : left = decide (0 < x))
    (hright : right = decide (x + 1 < w)) :
    (quant16 (s.pixel quant16 data x left right).gTemp).toNat = 16 * (gray16 img w y x).toNat ∧
      LinesAt img w y (x + 1) (s.pixel quant16 data x left right) := by
  subst hdata hleft hright
  have hR := residual_sixteen w (srcRow img w) y x
  have hl := level_sixteen (p := srcRow img w y)
    (R := Diffusion.residual sixteen w (srcRow img w) y)
    (x := x) (Int.natCast_nonneg _) hR.1
  have hshort (k : Nat) := received_sixteen (p := srcRow img w y)
    (R := Diffusion.residual sixteen w (srcRow img w) y) w (x + 1) k
  obtain ⟨hg, hat⟩ := at_pixel hs rfl (quant16_toInt hl) fun k => by
    have h := hshort k
    omega
  refine ⟨?_, hat⟩
  rw [hg, quant16_toNat hl]
  rfl

/-- The row after `n` steps, with its bytes at `d`. -/
structure Row.At (img : Int → BitVec 8) (w y : Nat) (d : Int) (n : Nat) (r : Row) : Prop where
  lines : LinesAt img w y (8 * n) r.lines
  src : r.src = y * w + 8 * n
  dst : r.dst = d + 4 * n
  out : r.out = (List.range (4 * n)).map fun k : Nat => (d + k, rowByte img w y k)

/-- The bytes of a word of nibbles. -/
theorem packWord_byte {x : BitVec 32} {q : Nat → Nat} (hq : ∀ j, q j < 16)
    (hx : x.toNat = ((((((q 7 * 16 + q 6) * 16 + q 5) * 16 + q 4) * 16 + q 3) * 16 + q 2) * 16 +
      q 1) * 16 + q 0) {k : Nat} (hk : k < 4) :
    ((x >>> (8 * k)).setWidth 8).toNat = q (2 * k) + 16 * q (2 * k + 1) := by
  have h0 := hq 0
  have h1 := hq 1
  have h2 := hq 2
  have h3 := hq 3
  have h4 := hq 4
  have h5 := hq 5
  have h6 := hq 6
  have h7 := hq 7
  rw [byte_toNat, hx]
  unfold field
  obtain rfl | rfl | rfl | rfl : k = 0 ∨ k = 1 ∨ k = 2 ∨ k = 3 := by omega
  · show _ = q 0 + 16 * q 1
    omega
  · show _ = q 2 + 16 * q 3
    omega
  · show _ = q 4 + 16 * q 5
    omega
  · show _ = q 6 + 16 * q 7
    omega

theorem at_block16 {d : Int} {n : Nat} {r : Row} (hr : r.At img w y d n) (hn : 8 * n + 8 ≤ w) :
    (block16 img w (8 * n) r).At img w y d (n + 1) := by
  have hsrc (j : Nat) : srcRow img w y (8 * n + j) = (img (r.src + j)).toNat := by
    unfold srcRow
    rw [hr.src]
    push_cast
    rw [Int.add_assoc]
  have hleft (j : Nat) (hj : 0 < j) : true = decide (0 < 8 * n + j) :=
    (decide_eq_true (by omega)).symm
  have hright (j : Nat) (hj : j < 7) : true = decide (8 * n + j + 1 < w) :=
    (decide_eq_true (by omega)).symm
  have hfirst : decide (8 * n ≠ 0) = decide (0 < 8 * n + 0) := decide_eq_decide.2 (by omega)
  have hlast : decide (8 * n + 8 ≠ w) = decide (8 * n + 7 + 1 < w) := decide_eq_decide.2 (by omega)
  obtain ⟨hd0, hd1, hd2, hd3⟩ := srcData_toInt img r.src
  obtain ⟨hd4, hd5, hd6, hd7⟩ := srcData_toInt img (r.src + 4)
  have h0 := hsrc 0
  rw [Int.natCast_zero, Int.add_zero] at h0
  obtain ⟨g0, s0⟩ := linesAt_pixel hr.lines (hd0.trans h0.symm) hfirst (hright 0 (by decide))
  obtain ⟨g1, s1⟩ := linesAt_pixel s0 (hd1.trans (hsrc 1).symm) (hleft 1 (by decide))
    (hright 1 (by decide))
  obtain ⟨g2, s2⟩ := linesAt_pixel s1 (hd2.trans (hsrc 2).symm) (hleft 2 (by decide))
    (hright 2 (by decide))
  obtain ⟨g3, s3⟩ := linesAt_pixel s2 (hd3.trans (hsrc 3).symm) (hleft 3 (by decide))
    (hright 3 (by decide))
  obtain ⟨g4, s4⟩ := linesAt_pixel s3 (hd4.trans (hsrc 4).symm) (hleft 4 (by decide))
    (hright 4 (by decide))
  rw [Int.add_assoc] at hd5 hd6 hd7
  obtain ⟨g5, s5⟩ := linesAt_pixel s4 (hd5.trans (hsrc 5).symm) (hleft 5 (by decide))
    (hright 5 (by decide))
  obtain ⟨g6, s6⟩ := linesAt_pixel s5 (hd6.trans (hsrc 6).symm) (hleft 6 (by decide))
    (hright 6 (by decide))
  obtain ⟨g7, s7⟩ := linesAt_pixel s6 (hd7.trans (hsrc 7).symm) (hleft 7 (by decide)) hlast
  have hq (j : Nat) : (gray16 img w y (8 * n + j)).toNat < 16 := by
    have h := gray16_bounds img w y (8 * n + j)
    omega
  have hbyte (k : Nat) (hk : k < 4) := packWord_byte hq (packWord_toNat ⟨g0, hq 0⟩ ⟨g1, hq 1⟩
    ⟨g2, hq 2⟩ ⟨g3, hq 3⟩ ⟨g4, hq 4⟩ ⟨g5, hq 5⟩ ⟨g6, hq 6⟩ ⟨g7, hq 7⟩) hk
  refine ⟨s7, ?_, ?_, ?_⟩
  · show r.src + 8 = _
    rw [hr.src]
    push_cast
    omega
  · show r.dst + 4 = _
    rw [hr.dst]
    push_cast
    omega
  · show r.out ++ store32 r.dst _ = _
    rw [hr.out, store32_eq, Nat.mul_add, List.range_add, List.map_append, List.map_map]
    congr 1
    apply List.map_congr_left
    intro k hk
    have hb := hbyte k (List.mem_range.1 hk)
    have hrow := rowByte_toNat img w y (4 * n + k)
    have h0 := gray16_bounds img w y (8 * n + 2 * k)
    have h1 := gray16_bounds img w y (8 * n + (2 * k + 1))
    have e0 : 2 * (4 * n + k) = 8 * n + 2 * k := by omega
    rw [e0, Nat.add_assoc] at hrow
    refine Prod.ext ?_ (BitVec.eq_of_toNat_eq (hb.trans ?_))
    · show r.dst + k = d + (4 * n + k : Nat)
      rw [hr.dst]
      push_cast
      omega
    · show _ = (rowByte img w y (4 * n + k)).toNat
      omega

theorem at_row16 (img : Int → BitVec 8) (N y : Nat) (d : Int) {res0 res1 : Nat → Int}
    (h0 : ∀ k, res0 k = Diffusion.residual sixteen (8 * N) (srcRow img (8 * N)) y k)
    (h1 : ∀ k, res1 k = 0) :
    (luma8bitTo4bitRow16 img (y * (8 * N : Nat)) d res0 res1 (8 * N)).At img (8 * N) y d N := by
  have hn : (8 * N + 7) / 8 = N := by omega
  unfold luma8bitTo4bitRow16
  rw [hn]
  refine fold_rule (I := fun n (r : Row) => r.At img (8 * N) y d n) ?_ ?_
  · refine ⟨at_zero rfl h0 h1, ?_, ?_, rfl⟩
    · simp
    · simp
  · intro n r hlt hr
    exact at_block16 hr (by omega)

end Row

/-! ## The picture -/

section Picture
variable (img : Int → BitVec 8) (N : Nat)

theorem residual_end (w y : Nat) {k : Nat} (hk : w ≤ k) :
    Diffusion.residual sixteen w (srcRow img w) y k = 0 := by
  cases y with
  | zero => rfl
  | succ y => exact Diffusion.received_end _ w hk

/-- The stores of row `y`. -/
def rowOut (y : Nat) : List (Int × BitVec 8) :=
  (List.range (4 * N)).map fun k : Nat => (y * (4 * N) + k, rowByte img (8 * N) y k)

/-- After the rows before `h`: the buffer that the next row adds to is zero again. -/
structure Frame.At (h : Nat) (f : Frame) : Prop where
  residuals : ∀ k, f.lineBuffer (h % 2 = 1) k =
    Diffusion.residual sixteen (8 * N) (srcRow img (8 * N)) h k
  zero : ∀ k, f.lineBuffer (!decide (h % 2 = 1)) k = 0
  src : f.src = h * (8 * N : Nat)
  dst : f.dst = h * (4 * N)
  out : f.out = (List.range h).flatMap (rowOut img N)

theorem at_row {h : Nat} {f : Frame} (hf : f.At img N h) :
    (f.row img (8 * N) h).At img N (h + 1) := by
  have hrow := at_row16 img N h f.dst hf.residuals hf.zero
  rw [← hf.src] at hrow
  have hflip : decide ((h + 1) % 2 = 1) = !decide (h % 2 = 1) := by
    by_cases hh : h % 2 = 1
    · rw [decide_eq_true hh, decide_eq_false (by omega)]
      rfl
    · rw [decide_eq_false hh, decide_eq_true (by omega)]
      rfl
  have hne : (!decide (h % 2 = 1)) ≠ decide (h % 2 = 1) := by simp
  have hwords : 8 * N / 8 = N := by omega
  unfold Frame.row Frame.rowOf
  constructor
  · intro k
    show (if decide ((h + 1) % 2 = 1) = decide (h % 2 = 1) then _ else _ : Nat → Int) k = _
    rw [hflip, if_neg hne, hrow.lines.res1]
    rfl
  · intro k
    show (if (!decide ((h + 1) % 2 = 1)) = decide (h % 2 = 1) then _ else _ : Nat → Int) k = _
    rw [hflip, Bool.not_not, if_pos rfl, hrow.lines.res0]
    split
    · rfl
    · exact residual_end img (8 * N) h (by omega)
  · show f.src + (8 * N : Nat) = _
    rw [hf.src]
    push_cast
    rw [Int.add_mul, Int.one_mul]
  · show f.dst + 4 * (8 * N / 8 : Nat) = _
    rw [hf.dst, hwords]
    push_cast
    rw [Int.add_mul, Int.one_mul]
  · show f.out ++ Row.out _ = _
    rw [hf.out, hrow.out, hf.dst, List.range_succ, List.flatMap_append]
    simp [rowOut]

theorem gray256ToGray16Dither_out (h v : Nat) :
    (gray256ToGray16Dither img h (8 * N) v).out = (List.range h).flatMap (rowOut img N) := by
  have hat : (gray256ToGray16Dither img h (8 * N) v).At img N h := by
    refine fold_rule (I := fun n (f : Frame) => f.At img N n) ?_ fun n f _ hf => at_row img N hf
    refine ⟨fun _ => rfl, fun _ => rfl, ?_, ?_, rfl⟩
    · simp
    · simp
  exact hat.out

theorem mem_gray256ToGray16Dither (h v : Nat) (s : Int × BitVec 8) :
    s ∈ (gray256ToGray16Dither img h (8 * N) v).out ↔ ∃ y k : Nat, y < h ∧ k < 4 * N ∧
      s = ((y : Int) * (4 * N) + k, rowByte img (8 * N) y k) := by
  simp only [gray256ToGray16Dither_out, List.mem_flatMap, List.mem_range, rowOut, List.mem_map]
  constructor
  · rintro ⟨y, hy, k, hk, rfl⟩
    exact ⟨y, k, hy, hk, rfl⟩
  · rintro ⟨y, k, hy, hk, rfl⟩
    exact ⟨y, hy, k, hk, rfl⟩

/-- A byte of the frame. -/
theorem run_gray256ToGray16Dither (m : Int → BitVec 8) {h y k : Nat} (v : Nat) (hy : y < h)
    (hk : k < 4 * N) : run m (gray256ToGray16Dither img h (8 * N) v).out (y * (4 * N) + k) =
      rowByte img (8 * N) y k := by
  have hmem := mem_gray256ToGray16Dither img N h v
  refine (run_rows (c := 4 * N) (f := rowByte img (8 * N)) (fun s hs => ?_) (Int.le_refl _)
    (by omega) fun _ => (hmem _).2 ⟨y, k, hy, hk, rfl⟩).trans (if_pos (by omega))
  obtain ⟨y', k', _, hk', rfl⟩ := (hmem s).1 hs
  exact ⟨y', k', by omega, rfl⟩

end Picture

/-- The dither writes the frame of the plain definition, and nothing else: byte `k` of row `y` has
the levels of the pixels `2k` and `2k + 1`. -/
theorem gray256ToGray16Dither_eq (img m : Int → BitVec 8) (h w v : Nat) (hw : 0 < w)
    (hw8 : w % 8 = 0) :
    (∀ y k : Nat, y < h → k < w / 2 →
      ((run m (gray256ToGray16Dither img h w v).out (y * (w / 2 : Nat) + k)).toNat : Int) =
        gray16 img w y (2 * k) + 16 * gray16 img w y (2 * k + 1)) ∧
    ∀ p : Int, p < 0 ∨ h * (w / 2 : Nat) ≤ p →
      run m (gray256ToGray16Dither img h w v).out p = m p := by
  obtain ⟨N, rfl⟩ : ∃ N, w = 8 * N := ⟨w / 8, by omega⟩
  have hhalf : ((8 * N / 2 : Nat) : Int) = 4 * N := by omega
  rw [hhalf]
  refine ⟨fun y k hy hk => ?_, fun p hp => run_of_forall_ne fun s hs he => ?_⟩
  · rw [run_gray256ToGray16Dither img N m v hy (by omega), rowByte_toNat]
  · obtain ⟨y, k, hy, hk, rfl⟩ := (mem_gray256ToGray16Dither img N h v s).1 hs
    obtain ⟨h0, hlt⟩ : 0 ≤ (y : Int) * (4 * N) + k ∧ (y : Int) * (4 * N) + k < h * (4 * N) :=
      offset_bounds ⟨by omega, by omega⟩ ⟨by omega, by omega⟩
    replace he : (y : Int) * (4 * N) + k = p := he
    omega

theorem gray256ToGray16Dither_eq_8x2 :
    (∀ y k : Nat, y < 2 → k < 8 / 2 →
      ((run (fun _ => 0) (gray256ToGray16Dither (BitVec.ofInt 8 <| 29 * ·) 2 8 8).out
        (y * (8 / 2 : Nat) + k)).toNat : Int) =
        gray16 (BitVec.ofInt 8 <| 29 * ·) 8 y (2 * k) +
          16 * gray16 (BitVec.ofInt 8 <| 29 * ·) 8 y (2 * k + 1)) ∧
    ∀ p : Int, p < 0 ∨ (2 : Nat) * (8 / 2 : Nat) ≤ p →
      run (fun _ => 0) (gray256ToGray16Dither (BitVec.ofInt 8 <| 29 * ·) 2 8 8).out p = 0 :=
  gray256ToGray16Dither_eq _ (fun _ => 0) 2 8 8 (by decide) (by decide)

end Dither

end EinkHwc
