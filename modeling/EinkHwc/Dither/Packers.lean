import EinkHwc.Dither.Row16
import Mathlib.Data.List.Basic

/-!
# The packers without a dither

`logo_gray256_to_gray16` packs the upper nibbles of two pixels at a time, `Luma8bit_to_4bit` those
of eight pixels in a word. A dithered picture of multiples of 16 has no errors to pass on.

* `packRow`: the bytes of one row, from the upper nibbles.
* `logoLoops_eq`, `luma8bitTo4bit_eq`: both packers store these rows.
* `packers_agree`: and so does the dither, on quantised pictures.
-/

namespace EinkHwc

open Mem

namespace Dither

/-! ## `logo_gray256_to_gray16` -/

/-- `g0 | g3`: each `char` is promoted to `int` before it is masked. -/
def logoByte (p0 p1 : BitVec 8) : BitVec 8 :=
  let g0 := ((p0.signExtend 32 &&& 0xf0#32).sshiftRight 4).setWidth 8
  let g3 := (p1.signExtend 32 &&& 0xf0#32).setWidth 8
  g0 ||| g3

/-- The two pointers of the loops, and the stores so far. -/
structure Logo (β : Type) where
  gray256 : Int
  gray16 : Int
  out : List (Int × β) := []

/-- The body of the inner loop. -/
def Logo.step {β : Type} (byte : β → β → β) (img : Int → β) (s : Logo β) : Logo β :=
  { gray256 := s.gray256 + 2
    gray16 := s.gray16 + 1
    out := s.out ++ [(s.gray16, byte (img s.gray256) (img (s.gray256 + 1)))] }

/-- The loops of `logo_gray256_to_gray16`, over pixels of any type. They do not use `vir_w`. -/
def logoLoops {β : Type} (byte : β → β → β) (img : Int → β) (h w _virW : Nat) : List (Int × β) :=
  (h.fold (fun _ _ s => (w / 2).fold (fun _ _ s => s.step byte img) s) (Logo.mk 0 0 [])).out

/-- `logo_gray256_to_gray16` -/
def logoGray256ToGray16 (img : Int → BitVec 8) (h w virW : Nat) : List (Int × BitVec 8) :=
  logoLoops logoByte img h w virW

/-! ## `Luma8bit_to_4bit` -/

/-- The two word pointers, as byte addresses, and the stores so far. -/
structure Luma where
  graynew : Int
  gray8bit : Int
  out : List (Int × BitVec 8) := []

/-- The word of eight pixels. -/
def lumaWord (w0 w1 : BitVec 32) : BitVec 32 :=
  let g0 := (w0 &&& 0x000000f0#32) >>> 4
  let g1 := (w0 &&& 0x0000f000#32) >>> 8
  let g2 := (w0 &&& 0x00f00000#32) >>> 12
  let g3 := (w0 &&& 0xf0000000#32) >>> 16
  let g4 := (w1 &&& 0x000000f0#32) <<< 12
  let g5 := (w1 &&& 0x0000f000#32) <<< 8
  let g6 := (w1 &&& 0x00f00000#32) <<< 4
  let g7 := w1 &&& 0xf0000000#32
  g0 ||| g1 ||| g2 ||| g3 ||| g4 ||| g5 ||| g6 ||| g7

/-- The body of the inner loop. -/
def Luma.step (img : Int → BitVec 8) (s : Luma) : Luma :=
  { graynew := s.graynew + 4
    gray8bit := s.gray8bit + 8
    out := s.out ++ store32 s.graynew
      (lumaWord (load32 img s.gray8bit) (load32 img (s.gray8bit + 4))) }

/-- `Luma8bit_to_4bit`, the active loops. -/
def luma8bitTo4bit (img : Int → BitVec 8) (virHeight virWidth panelW : Nat) :
    List (Int × BitVec 8) :=
  (virHeight.fold (fun _ _ s =>
    let grayNewTemp := s.graynew
    let s := ((panelW + 7) / 8).fold (fun _ _ s => s.step img) s
    { s with graynew := grayNewTemp + 4 * (virWidth / 8 : Nat) }) (Luma.mk 0 0 [])).out

/-! ## The rows in closed form -/

/-- The upper nibbles of two pixels, the first one low. -/
def packByte (p0 p1 : BitVec 8) : BitVec 8 := BitVec.ofNat 8 (p0.toNat / 16 + p1.toNat / 16 * 16)

theorem packByte_toNat (p0 p1 : BitVec 8) :
    (packByte p0 p1).toNat = p0.toNat / 16 + p1.toNat / 16 * 16 := by
  have h0 := p0.isLt
  have h1 := p1.isLt
  unfold packByte
  rw [BitVec.toNat_ofNat]
  omega

/-- Row `y` of a picture of rows of `2 * half` pixels, packed by `byte`. -/
def packRow {β : Type} (byte : β → β → β) (img : Int → β) (half y : Nat) : List (Int × β) :=
  (List.range half).map fun k : Nat => ((y * half + k : Int),
    byte (img (y * (2 * half) + 2 * k)) (img (y * (2 * half) + 2 * k + 1)))

/-- A byte of the packed rows. -/
theorem run_packRow {β : Type} (byte : β → β → β) (img m : Int → β) {h half y k : Nat} (hy : y < h)
    (hk : k < half) : run m ((List.range h).flatMap (packRow byte img half)) (y * half + k) =
      byte (img (y * (2 * half) + 2 * k)) (img (y * (2 * half) + 2 * k + 1)) := by
  have hmem (s : Int × β) : s ∈ (List.range h).flatMap (packRow byte img half) ↔
      ∃ y k : Nat, y < h ∧ k < half ∧ s = ((y : Int) * half + k,
        byte (img (y * (2 * half) + 2 * k)) (img (y * (2 * half) + 2 * k + 1))) := by
    simp only [packRow, List.mem_flatMap, List.mem_range, List.mem_map]
    constructor
    · rintro ⟨y, hy, k, hk, rfl⟩
      exact ⟨y, k, hy, hk, rfl⟩
    · rintro ⟨y, k, hy, hk, rfl⟩
      exact ⟨y, hy, k, hk, rfl⟩
  refine (run_rows (c := half) (f := fun y k : Nat =>
    byte (img (y * (2 * half) + 2 * k)) (img (y * (2 * half) + 2 * k + 1))) (fun s hs => ?_)
    (Int.le_refl _) (by omega) fun _ => (hmem _).2 ⟨y, k, hy, hk, rfl⟩).trans
      (if_pos (by omega))
  obtain ⟨y', k', _, hk', rfl⟩ := (hmem s).1 hs
  exact ⟨y', k', by omega, rfl⟩

theorem logoByte_eq (p0 p1 : BitVec 8) : logoByte p0 p1 = packByte p0 p1 := by
  have hlow (p : BitVec 8) :
      (((p.signExtend 32 &&& 0xf0#32).sshiftRight 4).setWidth 8).toNat = p.toNat / 16 := by
    revert p
    decide +kernel
  have hhigh (p : BitVec 8) :
      ((p.signExtend 32 &&& 0xf0#32).setWidth 8).toNat = p.toNat / 16 * 2 ^ 4 := by
    revert p
    decide +kernel
  have h0 := p0.isLt
  apply BitVec.eq_of_toNat_eq
  unfold logoByte
  rw [packByte_toNat, BitVec.toNat_or, hlow, hhigh, or_field (k := 4) _ (by omega)]
  rfl

theorem logoLoops_eq {β : Type} (byte : β → β → β) (img : Int → β) (h w v : Nat) :
    logoLoops byte img h w v = (List.range h).flatMap (packRow byte img (w / 2)) := by
  refine And.right (fold_log (l := Logo.out) (q := fun s : Logo β => (s.gray256, s.gray16))
    (c := fun y : Nat => ((y * (2 * (w / 2 : Nat)) : Int), (y * (w / 2 : Nat) : Int))) ?_ ?_)
  · simp
  · intro y s _ hs
    rw [Prod.mk.injEq] at hs
    obtain ⟨hsrc, hdst⟩ := hs
    obtain ⟨hptr, hout⟩ := fold_log (n := w / 2) (f := fun _ s => s.step byte img) (s := s)
      (l := Logo.out) (q := fun s : Logo β => (s.gray256, s.gray16))
      (c := fun k : Nat => (s.gray256 + 2 * k, s.gray16 + k))
      (g := fun k : Nat => [(s.gray16 + k,
        byte (img (s.gray256 + 2 * k)) (img (s.gray256 + 2 * k + 1)))])
      (by simp) fun k t _ ht => by
        rw [Prod.mk.injEq] at ht
        obtain ⟨h1, h2⟩ := ht
        unfold Logo.step
        rw [h1, h2]
        refine ⟨?_, rfl⟩
        push_cast
        simp only [Prod.mk.injEq]
        omega
    refine ⟨?_, ?_⟩
    · rw [hptr, hsrc, hdst, Prod.mk.injEq]
      push_cast
      rw [Int.add_mul, Int.add_mul, Int.one_mul, Int.one_mul]
      exact ⟨rfl, rfl⟩
    · rw [hout, hsrc, hdst, ← List.map_eq_flatMap]
      rfl

/-! ## Words of upper nibbles -/

section Word
variable {x mask : BitVec 32} {k j : Nat}

/-- A masked nibble, shifted down. -/
theorem toNat_mask_shr (hm : mask.toNat = (2 ^ 4 - 1) * 2 ^ k) (hj : j ≤ k) :
    ((x &&& mask) >>> j).toNat = field x.toNat k 4 * 2 ^ (k - j) := by
  have hk : 2 ^ k = 2 ^ (k - j) * 2 ^ j := by
    rw [← Nat.pow_add]
    congr 1
    omega
  rw [BitVec.toNat_ushiftRight, BitVec.toNat_and, hm, and_field, Nat.shiftRight_eq_div_pow, hk,
    ← Nat.mul_assoc, Nat.mul_div_cancel _ (Nat.two_pow_pos j)]

/-- A masked nibble, shifted up inside the word. -/
theorem toNat_mask_shl (hm : mask.toNat = (2 ^ 4 - 1) * 2 ^ k) (hj : k + j ≤ 28) :
    ((x &&& mask) <<< j).toNat = field x.toNat k 4 * 2 ^ (k + j) := by
  have hf := field_lt x.toNat k 4
  have hlt : field x.toNat k 4 * 2 ^ (k + j) < 2 ^ 32 := by
    calc field x.toNat k 4 * 2 ^ (k + j)
        < 2 ^ 4 * 2 ^ (k + j) := Nat.mul_lt_mul_of_pos_right hf (Nat.two_pow_pos _)
      _ = 2 ^ (4 + (k + j)) := (Nat.pow_add ..).symm
      _ ≤ 2 ^ 32 := Nat.pow_le_pow_right (by decide) (by omega)
  rw [BitVec.toNat_shiftLeft, BitVec.toNat_and, hm, and_field, Nat.shiftLeft_eq, Nat.mul_assoc,
    ← Nat.pow_add, Nat.mod_eq_of_lt hlt]

end Word

/-- The upper nibble of byte `k` of a word. -/
theorem field_upper (m : Int → BitVec 8) (a : Int) {k : Nat} (hk : k < 4) :
    field (load32 m a).toNat (8 * k + 4) 4 = (m (a + k)).toNat / 16 := by
  have hbyte := load32_byte m a k hk
  have h := (m (a + k)).isLt
  unfold field at hbyte ⊢
  rw [Nat.pow_add, ← Nat.div_div_eq_div_mul, ← hbyte]
  omega

/-- The pixel's upper nibble, for the pixels from byte `a` on. -/
def upper (m : Int → BitVec 8) (a : Int) (j : Nat) : Nat := (m (a + j)).toNat / 16

theorem upper_lt (m : Int → BitVec 8) (a : Int) (j : Nat) : upper m a j < 16 := by
  have h := (m (a + j)).isLt
  unfold upper
  omega

theorem lumaWord_toNat (m : Int → BitVec 8) (a : Int) :
    (lumaWord (load32 m a) (load32 m (a + 4))).toNat =
      ((((((upper m a 7 * 16 + upper m a 6) * 16 + upper m a 5) * 16 + upper m a 4) * 16 +
        upper m a 3) * 16 + upper m a 2) * 16 + upper m a 1) * 16 + upper m a 0 := by
  have hhigh (k : Nat) (hk : k < 4) :
      field (load32 m (a + 4)).toNat (8 * k + 4) 4 = upper m a (4 + k) := by
    unfold upper
    rw [field_upper m _ hk, Int.add_assoc]
    push_cast
    rfl
  have e0 : field (load32 m a).toNat 4 4 = upper m a 0 := field_upper m a (k := 0) (by decide)
  have e1 : field (load32 m a).toNat 12 4 = upper m a 1 := field_upper m a (k := 1) (by decide)
  have e2 : field (load32 m a).toNat 20 4 = upper m a 2 := field_upper m a (k := 2) (by decide)
  have e3 : field (load32 m a).toNat 28 4 = upper m a 3 := field_upper m a (k := 3) (by decide)
  have e4 : field (load32 m (a + 4)).toNat 4 4 = upper m a 4 := hhigh 0 (by decide)
  have e5 : field (load32 m (a + 4)).toNat 12 4 = upper m a 5 := hhigh 1 (by decide)
  have e6 : field (load32 m (a + 4)).toNat 20 4 = upper m a 6 := hhigh 2 (by decide)
  have e7 : field (load32 m (a + 4)).toNat 28 4 = upper m a 7 := hhigh 3 (by decide)
  have g7 : (load32 m (a + 4) &&& 0xf0000000#32).toNat = upper m a 7 * 2 ^ 28 := by
    have hm : (0xf0000000#32).toNat = (2 ^ 4 - 1) * 2 ^ 28 := rfl
    rw [BitVec.toNat_and, hm, and_field, e7]
  have h0 := upper_lt m a 0
  have h1 := upper_lt m a 1
  have h2 := upper_lt m a 2
  have h3 := upper_lt m a 3
  have h4 := upper_lt m a 4
  have h5 := upper_lt m a 5
  have h6 := upper_lt m a 6
  unfold lumaWord
  simp only [BitVec.toNat_or]
  rw [toNat_mask_shr (k := 4) rfl (by decide), toNat_mask_shr (k := 12) rfl (by decide),
    toNat_mask_shr (k := 20) rfl (by decide), toNat_mask_shr (k := 28) rfl (by decide),
    toNat_mask_shl (k := 4) rfl (by decide), toNat_mask_shl (k := 12) rfl (by decide),
    toNat_mask_shl (k := 20) rfl (by decide), g7, e0, e1, e2, e3, e4, e5, e6]
  -- From the lowest nibble up, each joins the ones below it.
  simp only [Nat.reduceSub, Nat.reduceAdd]
  rw [or_field (k := 4) _ (by omega), or_field (k := 8) _ (by omega),
    or_field (k := 12) _ (by omega), or_field (k := 16) _ (by omega),
    or_field (k := 20) _ (by omega), or_field (k := 24) _ (by omega),
    or_field (k := 28) _ (by omega)]
  omega

/-- The bytes of a word are packed bytes. -/
theorem lumaWord_byte (m : Int → BitVec 8) (a : Int) {k : Nat} (hk : k < 4) :
    ((lumaWord (load32 m a) (load32 m (a + 4)) >>> (8 * k)).setWidth 8) =
      packByte (m (a + 2 * k)) (m (a + 2 * k + 1)) := by
  apply BitVec.eq_of_toNat_eq
  rw [packWord_byte (upper_lt m a) (lumaWord_toNat m a) hk, packByte_toNat]
  unfold upper
  push_cast
  rw [Int.add_assoc, Nat.mul_comm 16]

/-- The steps of one row: four bytes each. -/
theorem luma_steps (img : Int → BitVec 8) (N : Nat) (s : Luma) :
    let t := N.fold (fun _ _ s => s.step img) s
    (t.gray8bit, t.graynew) = (s.gray8bit + 8 * (N : Int), s.graynew + 4 * (N : Int)) ∧
      t.out = s.out ++ (List.range N).flatMap fun n : Nat => (List.range 4).map fun k : Nat =>
        (s.graynew + 4 * n + k,
          packByte (img (s.gray8bit + 8 * n + 2 * k)) (img (s.gray8bit + 8 * n + 2 * k + 1))) := by
  refine fold_log (f := fun _ s => s.step img) (l := Luma.out)
    (q := fun s : Luma => (s.gray8bit, s.graynew))
    (c := fun n : Nat => (s.gray8bit + 8 * n, s.graynew + 4 * n)) (by simp) fun n t _ ht => ?_
  rw [Prod.mk.injEq] at ht
  obtain ⟨h1, h2⟩ := ht
  unfold Luma.step
  rw [h1, h2, store32_eq]
  refine ⟨?_, ?_⟩
  · push_cast
    simp only [Prod.mk.injEq]
    omega
  · show t.out ++ _ = _
    congr 1
    apply List.map_congr_left
    intro k hk
    rw [lumaWord_byte img _ (List.mem_range.1 hk)]

/-- A row of `N` steps is packed as it is. -/
theorem packRow_eq_steps (img : Int → BitVec 8) (N y : Nat) : packRow packByte img (4 * N) y =
    (List.range N).flatMap fun n : Nat => (List.range 4).map fun k : Nat =>
      ((y * (4 * N : Nat) + 4 * n + k : Int),
        packByte (img (y * (2 * (4 * N : Nat)) + 8 * n + 2 * k))
          (img (y * (2 * (4 * N : Nat)) + 8 * n + 2 * k + 1))) := by
  unfold packRow
  rw [map_range_mul]
  apply List.flatMap_congr
  intro n _
  apply List.map_congr_left
  intro k _
  have hsrc : (y * (2 * (4 * N : Nat)) + 8 * n + 2 * k : Int) =
      y * (2 * (4 * N : Nat)) + 2 * (4 * n + k : Nat) := by
    push_cast
    ring
  have hdst : (y * (4 * N : Nat) + 4 * n + k : Int) = y * (4 * N : Nat) + (4 * n + k : Nat) := by
    push_cast
    ring
  rw [hsrc, hdst]

theorem luma8bitTo4bit_eq (img : Int → BitVec 8) (N h : Nat) :
    luma8bitTo4bit img h (8 * N) (8 * N) =
      (List.range h).flatMap (packRow packByte img (4 * N)) := by
  have hsteps : (8 * N + 7) / 8 = N := by omega
  have hwords : 8 * N / 8 = N := by omega
  unfold luma8bitTo4bit
  rw [hsteps, hwords]
  refine And.right (fold_log (l := Luma.out) (q := fun s : Luma => (s.gray8bit, s.graynew))
    (c := fun y : Nat => ((y * (2 * (4 * N : Nat)) : Int), (y * (4 * N : Nat) : Int)))
    (by simp) fun y s _ hs => ?_)
  rw [Prod.mk.injEq] at hs
  obtain ⟨hsrc, hdst⟩ := hs
  obtain ⟨hptr, hout⟩ := luma_steps img N s
  rw [Prod.mk.injEq] at hptr
  refine ⟨?_, ?_⟩
  · rw [Prod.mk.injEq]
    refine ⟨?_, ?_⟩
    · rw [hptr.1, hsrc]
      push_cast
      rw [Int.add_mul, Int.one_mul]
      omega
    · show s.graynew + 4 * (N : Int) = _
      rw [hdst]
      push_cast
      rw [Int.add_mul, Int.one_mul]
  · show Luma.out _ = _
    rw [hout, hsrc, hdst, packRow_eq_steps]

/-! ## The packers agree -/

/-- A dithered picture of multiples of 16 is packed as it is. -/
theorem gray256ToGray16Dither_fixed (img : Int → BitVec 8) (h N v : Nat)
    (hq : ∀ y x, y < h → x < 8 * N → srcRow img (8 * N) y x % 16 = 0) :
    (gray256ToGray16Dither img h (8 * N) v).out =
      (List.range h).flatMap (packRow packByte img (4 * N)) := by
  have hfix (y x : Nat) (hy : y < h) (hx : x < 8 * N) :
      sixteen.Fixes (srcRow img (8 * N) y x) := by
    have hbyte := (img (y * (8 * N : Nat) + x)).isLt
    have hmul := hq y x hy hx
    unfold srcRow at hmul ⊢
    refine ⟨?_, ?_⟩
    · show clip _ = _
      unfold clip
      rw [if_neg (by omega)]
    · show 16 * (_ / 16) = _
      omega
  have hlevel (y x : Nat) (hy : y < h) (hx : x < 8 * N) :
      gray16 img (8 * N) y x = ((img (y * (8 * N : Nat) + x)).toNat / 16 : Nat) := by
    unfold gray16
    rw [Diffusion.level_of_fixed (hfix y · hy ·)
      (fun x _ => Diffusion.residual_of_fixed hfix (by omega) x) hx]
    rfl
  rw [gray256ToGray16Dither_out]
  apply List.flatMap_congr
  intro y hy
  have hy := List.mem_range.1 hy
  unfold rowOut packRow
  apply List.map_congr_left
  intro k hk
  have hk := List.mem_range.1 hk
  refine Prod.ext ?_ (BitVec.eq_of_toNat_eq ?_)
  · push_cast
    rfl
  · have hbyte := rowByte_toNat img (8 * N) y k
    rw [hlevel y (2 * k) hy (by omega), hlevel y (2 * k + 1) hy (by omega)] at hbyte
    have hsrc : ((8 * N : Nat) : Int) = 2 * (4 * N : Nat) := by omega
    show (rowByte img (8 * N) y k).toNat = (packByte _ _).toNat
    rw [packByte_toNat]
    push_cast at hbyte hsrc ⊢
    rw [hsrc, ← Int.add_assoc] at hbyte
    omega

/-- All three packers store the same bytes in the same order, the dither where every pixel is a
multiple of 16. -/
theorem packers_agree (img : Int → BitVec 8) (h w : Nat) (hw : 0 < w) (hw8 : w % 8 = 0) :
    logoGray256ToGray16 img h w w = luma8bitTo4bit img h w w ∧
      ((∀ p : Int, 0 ≤ p → p < h * w → (img p).toNat % 16 = 0) →
        (gray256ToGray16Dither img h w w).out = luma8bitTo4bit img h w w) := by
  obtain ⟨N, rfl⟩ : ∃ N, w = 8 * N := ⟨w / 8, by omega⟩
  have hhalf : 8 * N / 2 = 4 * N := by omega
  have hbyte : logoByte = packByte := by
    funext p0 p1
    exact logoByte_eq p0 p1
  rw [luma8bitTo4bit_eq]
  refine ⟨?_, fun hq => gray256ToGray16Dither_fixed img h N (8 * N) ?_⟩
  · unfold logoGray256ToGray16
    rw [logoLoops_eq, hhalf, hbyte]
  · intro y x hy hx
    obtain ⟨h0, hlt⟩ : 0 ≤ (y : Int) * (8 * N : Nat) + x ∧
        (y : Int) * (8 * N : Nat) + x < h * (8 * N : Nat) :=
      offset_bounds ⟨by omega, by omega⟩ ⟨by omega, by omega⟩
    have hp := hq (y * (8 * N : Nat) + x) h0 hlt
    unfold srcRow
    omega

theorem packers_agree_8x2 :
    logoGray256ToGray16 (BitVec.ofInt 8 <| 16 * ·) 2 8 8 =
        luma8bitTo4bit (BitVec.ofInt 8 <| 16 * ·) 2 8 8 ∧
      (gray256ToGray16Dither (BitVec.ofInt 8 <| 16 * ·) 2 8 8).out =
        luma8bitTo4bit (BitVec.ofInt 8 <| 16 * ·) 2 8 8 := by
  obtain ⟨hlogo, hdither⟩ :=
    packers_agree (BitVec.ofInt 8 <| 16 * ·) 2 8 (by decide) (by decide)
  refine ⟨hlogo, hdither fun p _ _ => ?_⟩
  rw [BitVec.toNat_ofInt]
  omega

end Dither

end EinkHwc
