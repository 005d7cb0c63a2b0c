import EinkHwc.Mem.Partial
import EinkHwc.Colour.Partial
import EinkHwc.Dither.Packers
import EinkHwc.Hal.Modes

/-!
# The standby picture

`hwc_post_epd_logo` draws an image file into a fresh buffer, converts it for the panel into a fresh
frame, and posts the frame. Fresh bytes are undefined until they are written (`Mem.Partial`); a file
that does not decode leaves its buffer as it is.

* `Externals`: the two conversions outside the source, and `Conversion`, what the code relies on.
* `LogoEnv.frame`, `hwcPostEpdLogo`: the frame of the picture, and all frames that are posted.
* `run_logoLoops`: what the packer leaves in a frame.
* `logo_defined_iff`: when the frame of the picture has no undefined byte.
-/

namespace EinkHwc

open Mem Dither

abbrev Buf := Partial (BitVec 8)

/-- `malloc` -/
def malloc : Buf := Partial.blank

/-- `memset` -/
def memset (buf : Buf) (b : BitVec 8) (n : Int) : Buf := buf.fill n fun _ => b

/-- `drawLogoPic`, where `pic` is what it draws if the image file decodes. -/
def drawLogoPic (pic : Option (Int → BitVec 8)) (buf : Buf) (width height : Int) : Buf :=
  match pic with
  | none => buf
  | some px => buf.fill (4 * (width * height)) px

/-- The conversions outside the source: the buffer that they write, before and after. -/
structure Externals where
  /-- `image_to_cfa_grayscale_gen2_ARGBB8888(width, height, src, dst)` -/
  imageToCfaGrayscale : Int → Int → Buf → Buf → Buf
  /-- The blit of `Rgb888ToGray16ByRga(dst_buf, src_buf, fb_height, fb_width, vir_width)`. -/
  rgb888ToGray16ByRga : Buf → Buf → Int → Int → Int → Buf

/-- The `m` bytes of the output are defined from the `n` bytes of the input. -/
structure Conversion (n m : Int) (f : Buf → Buf → Buf) : Prop where
  defined : ∀ src dst : Buf, src.Defined n → (f src dst).Defined m
  undefined : ∀ src dst : Buf, src.Undefined n → ¬ (f src dst).Defined m

/-- `logo_gray256_to_gray16` on pixels that may be undefined. -/
def logoGray256ToGray16Partial (img : Buf) (h w virW : Nat) : List (Int × Option (BitVec 8)) :=
  logoLoops (fun p0 p1 => do return logoByte (← p0) (← p1)) img h w virW

/-- `Rgb888_to_color_eink2` on pixels that may be undefined. -/
def rgb888ToColorEink2Partial (src : Int → Option (BitVec 32)) (fbHeight virWidth : Int) :
    List (Int × Option (BitVec 8)) := rgb888Filter.lift.convert src fbHeight virWidth

/-- What `hwc_post_epd_logo` reads: `ebc_buf_info`, the image file, `ro.need.white.with.standby`
and `gPowerMode`. -/
structure LogoEnv where
  width : Int
  height : Int
  panelColor : Int
  pic : Option (Int → BitVec 8)
  needWhite : Bool := false
  gPowerMode : Int := 0

section Post
variable (ext : Externals) (env : LogoEnv)

/-- `image_addr`, when the conversion to the frame starts. -/
def LogoEnv.image : Buf :=
  if env.panelColor = 1 then
    ext.imageToCfaGrayscale env.width env.height (drawLogoPic env.pic malloc env.width env.height)
      malloc
  else drawLogoPic env.pic malloc env.width env.height

/-- `gray16_buffer` before the conversion. -/
def LogoEnv.fresh : Buf :=
  if env.needWhite then memset malloc 0xff#8 ((env.width * env.height) >>> (1 : Nat)) else malloc

/-- `gray16_buffer` after it. -/
def LogoEnv.frame : Buf :=
  if env.panelColor = 1 then
    run env.fresh (logoGray256ToGray16Partial (env.image ext) env.height.toNat env.width.toNat
      env.width.toNat)
  else if env.panelColor = 2 then
    run env.fresh (rgb888ToColorEink2Partial (env.image ext).word env.height env.width)
  else ext.rgb888ToGray16ByRga env.fresh (env.image ext) env.height env.width env.width

/-- `hwc_post_epd_logo`: the frames that it hands to `hwc_post_epd`, with their modes. -/
def hwcPostEpdLogo : List (Buf × Int) :=
  (if env.needWhite then [(env.fresh, epdPartGc16)] else []) ++
    [(env.frame ext, if env.gPowerMode = epdPowerOff then epdPowerOff else epdSuspend)]

/-- No undefined byte is in the frame of the picture. -/
def LogoDefined : Prop :=
  ∀ frame mode, (hwcPostEpdLogo ext env).getLast? = some (frame, mode) →
    Partial.Defined frame (env.width * env.height / 2)

end Post

/-! ## The packer -/

theorem run_logoLoops {β : Type} (byte : β → β → β) (img m : Int → β) {h w v : Nat} {p : Int}
    (h0 : 0 ≤ p) (hp : p < h * (w / 2 : Nat)) :
    run m (logoLoops byte img h w v) p = byte (img (2 * p)) (img (2 * p + 1)) := by
  have hw : 0 < ((w / 2 : Nat) : Int) := by
    by_contra hw
    have hzero : ((w / 2 : Nat) : Int) = 0 := by omega
    rw [hzero, Int.mul_zero] at hp
    omega
  obtain ⟨y, k, hy, hk, rfl⟩ := exists_row_col hw h0 hp
  have hpair : 2 * (y * (w / 2 : Nat) + k : Int) = y * (2 * (w / 2 : Nat)) + 2 * k := by ring
  rw [logoLoops_eq, hpair]
  refine (run_rows (c := (w / 2 : Nat)) (f := fun y k : Nat =>
      byte (img (y * (2 * (w / 2 : Nat)) + 2 * k)) (img (y * (2 * (w / 2 : Nat)) + 2 * k + 1)))
    (fun s hs => ?_) (Int.le_refl _) hk fun _ => ?_).trans (if_pos hk)
  · obtain ⟨y', _, hs⟩ := List.mem_flatMap.1 hs
    obtain ⟨k', hk', rfl⟩ := List.mem_map.1 hs
    have hk' := List.mem_range.1 hk'
    exact ⟨y', k', by omega, rfl⟩
  · exact List.mem_flatMap.2 ⟨y, List.mem_range.2 (by omega), List.mem_map.2
      ⟨k, List.mem_range.2 (by omega), rfl⟩⟩

/-! ## Definedness -/

theorem isSome_logoByte {p0 p1 : Option (BitVec 8)} :
    (do return logoByte (← p0) (← p1) : Option (BitVec 8)).isSome = true ↔
      p0.isSome = true ∧ p1.isSome = true := by
  cases p0 <;> cases p1 <;> simp

/-- The pixels of a block are in the picture. -/
theorem block_bounds {half H : Int} (hH2 : H % 2 = 0) {y k a b : Nat} (hy : (y : Int) < H)
    (hk : (k : Int) < half) (ha : a < 2) (hb : b < 2) :
    0 ≤ (2 * (y / 2) + a : Nat) * (2 * half) + (2 * k + b : Nat) ∧
      (2 * (y / 2) + a : Nat) * (2 * half) + (2 * k + b : Nat) < H * (2 * half) := by
  apply offset_bounds
  · omega
  · omega

section Defined
variable {half H : Int} (hhalf : 0 < half) (hH : 0 < H)
include hhalf hH

/-- The packer passes definedness on, pixel by pixel. -/
theorem defined_packed (img m : Buf) :
    Partial.Defined (run m (logoGray256ToGray16Partial img H.toNat (2 * half).toNat
      (2 * half).toNat)) (H * half) ↔ img.Defined (H * (2 * half)) := by
  have hsize : H * (2 * half) = 2 * (H * half) := by ring
  have hrange {p : Int} (hp : p < H * half) :
      p < H.toNat * ((2 * half).toNat / 2 : Nat) := by
    rw [Int.toNat_of_nonneg (by omega)]
    have hw : (((2 * half).toNat / 2 : Nat) : Int) = half := by omega
    rw [hw]
    exact hp
  have hbyte {p : Int} (h0 : 0 ≤ p) (hp : p < H * half) :
      ((run m (logoGray256ToGray16Partial img H.toNat (2 * half).toNat (2 * half).toNat)
        p).isSome = true) ↔ (img (2 * p)).isSome = true ∧ (img (2 * p + 1)).isSome = true := by
    unfold logoGray256ToGray16Partial
    rw [run_logoLoops _ _ _ h0 (hrange hp)]
    exact isSome_logoByte
  rw [hsize]
  constructor
  · intro hd q h0 hq
    obtain ⟨heven, hodd⟩ := (hbyte (p := q / 2) (by omega) (by omega)).1
      (hd (q / 2) (by omega) (by omega))
    obtain h | h : 2 * (q / 2) = q ∨ 2 * (q / 2) + 1 = q := by omega
    · rw [← h]
      exact heven
    · rw [← h]
      exact hodd
  · intro hd p h0 hp
    exact (hbyte h0 hp).2 ⟨hd _ (by omega) (by omega), hd _ (by omega) (by omega)⟩

variable (hH2 : H % 2 = 0)
include hH2

/-- The RGB888 converter, byte by byte. -/
theorem defined_converted (src : Partial (BitVec 32)) (m : Buf) :
    Partial.Defined (run m (rgb888ToColorEink2Partial src H (2 * half))) (H * half) ↔
      ∀ y k : Nat, (y : Int) < H → (k : Int) < half →
        if (k : Int) < 3 * (half / 3)
          then (rgb888Filter.lift.panelByte src (2 * half) y k).isSome = true
          else (m (y * half + k)).isSome = true := by
  have hbyte {y k : Nat} (hy : (y : Int) < H) (hk : (k : Int) < half) :
      (run m (rgb888ToColorEink2Partial src H (2 * half)) (y * half + k)).isSome = true ↔
        if (k : Int) < 3 * (half / 3)
          then (rgb888Filter.lift.panelByte src (2 * half) y k).isSome = true
          else (m (y * half + k)).isSome = true := by
    unfold rgb888ToColorEink2Partial
    rw [run_convert m (by omega) (by omega) hH2 hy hk]
    split <;> rfl
  constructor
  · intro hd y k hy hk
    obtain ⟨h0, hp⟩ := offset_bounds ⟨Int.natCast_nonneg y, hy⟩ ⟨Int.natCast_nonneg k, hk⟩
    exact (hbyte hy hk).1 (hd _ h0 hp)
  · intro h p h0 hp
    obtain ⟨y, k, hy, hk, rfl⟩ := exists_row_col hhalf h0 hp
    exact (hbyte hy hk).2 (h y k hy hk)

section White
variable {src : Partial (BitVec 32)} {m : Buf} {white : Prop}
  (hm : ∀ p, 0 ≤ p → p < H * half → ((m p).isSome = true ↔ white))
include hm

/-- A picture with all its pixels: only the columns that the loop leaves can be undefined. -/
theorem converted_of_defined (hsrc : src.Defined (H * (2 * half))) :
    Partial.Defined (run m (rgb888ToColorEink2Partial src H (2 * half))) (H * half) ↔
      half % 3 = 0 ∨ white := by
  rw [defined_converted hhalf hH hH2]
  constructor
  · intro h
    obtain ⟨n, hn⟩ : ∃ n : Nat, half = n + 1 := ⟨(half - 1).toNat, by omega⟩
    have hlast := h 0 n (by omega) (by omega)
    obtain ⟨h0, hp⟩ : 0 ≤ (0 : Nat) * half + n ∧ (0 : Nat) * half + n < H * half :=
      offset_bounds ⟨by omega, by omega⟩ ⟨by omega, by omega⟩
    by_cases hcol : (n : Int) < 3 * (half / 3)
    · exact .inl (by omega)
    · rw [if_neg hcol] at hlast
      exact .inr ((hm _ h0 hp).1 hlast)
  · intro h y k hy hk
    obtain ⟨h0, hp⟩ := offset_bounds ⟨Int.natCast_nonneg y, hy⟩ ⟨Int.natCast_nonneg k, hk⟩
    split
    · refine panelByte_lift.2 fun a b ha hb => ?_
      obtain ⟨hp0, hlt⟩ := block_bounds hH2 hy hk ha hb
      exact hsrc _ hp0 hlt
    · rename_i hcol
      exact (hm _ h0 hp).2 (h.resolve_left (by omega))

/-- A picture without a pixel: the loop has to leave every column. -/
theorem converted_of_undefined (hsrc : src.Undefined (H * (2 * half))) :
    Partial.Defined (run m (rgb888ToColorEink2Partial src H (2 * half))) (H * half) ↔
      half < 3 ∧ white := by
  rw [defined_converted hhalf hH hH2]
  constructor
  · intro h
    have hfirst := h 0 0 (by omega) (by omega)
    obtain ⟨h0, hp⟩ : 0 ≤ (0 : Nat) * half + (0 : Nat) ∧
        (0 : Nat) * half + (0 : Nat) < H * half :=
      offset_bounds ⟨by omega, by omega⟩ ⟨by omega, by omega⟩
    by_cases hcol : ((0 : Nat) : Int) < 3 * (half / 3)
    · rw [if_pos hcol] at hfirst
      have hpixel := panelByte_lift.1 hfirst 0 0 (by decide) (by decide)
      obtain ⟨hp0, hlt⟩ := block_bounds (y := 0) (k := 0) (a := 0) (b := 0) hH2 (by omega) hhalf
        (by decide) (by decide)
      rw [hsrc _ hp0 hlt] at hpixel
      cases hpixel
    · rw [if_neg hcol] at hfirst
      exact ⟨by omega, (hm _ h0 hp).1 hfirst⟩
  · rintro ⟨hsmall, hwhite⟩ y k hy hk
    obtain ⟨h0, hp⟩ := offset_bounds ⟨Int.natCast_nonneg y, hy⟩ ⟨Int.natCast_nonneg k, hk⟩
    rw [if_neg (by omega)]
    exact (hm _ h0 hp).2 hwhite

end White

end Defined

theorem drawLogoPic_defined {pic : Option (Int → BitVec 8)} (h : pic.isSome = true) (W H : Int) :
    (drawLogoPic pic malloc W H).Defined (4 * (W * H)) := by
  obtain ⟨px, rfl⟩ := Option.isSome_iff_exists.1 h
  exact Partial.defined_fill px

theorem drawLogoPic_undefined {pic : Option (Int → BitVec 8)} (h : ¬ pic.isSome = true)
    (W H : Int) : (drawLogoPic pic malloc W H).Undefined (4 * (W * H)) := by
  rw [Option.not_isSome_iff_eq_none.1 h]
  exact Partial.undefined_blank

/-- The frame before the conversion is white or undefined. -/
theorem fresh_isSome (env : LogoEnv) {p : Int} (h0 : 0 ≤ p)
    (hp : p < env.width * env.height / 2) :
    (env.fresh p).isSome = true ↔ env.needWhite = true := by
  unfold LogoEnv.fresh
  by_cases hw : env.needWhite = true
  · rw [if_pos hw]
    have hsize : (env.width * env.height) >>> (1 : Nat) = env.width * env.height / 2 := by
      rw [Int.shiftRight_eq_div_pow]
      rfl
    rw [hsize]
    exact iff_of_true (Partial.defined_fill _ p h0 hp) hw
  · rw [if_neg hw]
    exact iff_of_false (by simp [malloc, Partial.blank]) hw

theorem logoDefined_iff_frame (ext : Externals) (env : LogoEnv) :
    LogoDefined ext env ↔ (env.frame ext).Defined (env.width * env.height / 2) := by
  unfold LogoDefined hwcPostEpdLogo
  simp

/-- A conversion outside the source gives a defined buffer if the picture was drawn. -/
theorem Conversion.iff_pic {m W H : Int} {f : Buf → Buf → Buf} (h : Conversion (4 * (W * H)) m f)
    (pic : Option (Int → BitVec 8)) (dst : Buf) :
    (f (drawLogoPic pic malloc W H) dst).Defined m ↔ pic.isSome = true := by
  by_cases hpic : pic.isSome = true
  · exact iff_of_true (h.defined _ _ (drawLogoPic_defined hpic W H)) hpic
  · exact iff_of_false (h.undefined _ _ (drawLogoPic_undefined hpic W H)) hpic

/-! ## The frame of each kind of panel -/

section Panels
variable {ext : Externals} {env : LogoEnv}

theorem frame_gray (h1 : env.panelColor = 1) (hW : 0 < env.width) (hW2 : env.width % 2 = 0)
    (hH : 0 < env.height) (hcfa : Conversion (4 * (env.width * env.height))
      (env.width * env.height) (ext.imageToCfaGrayscale env.width env.height)) :
    (env.frame ext).Defined (env.width * env.height / 2) ↔ env.pic.isSome = true := by
  obtain ⟨half, hw⟩ : ∃ n, env.width = 2 * n := ⟨env.width / 2, by omega⟩
  have hsize : env.width * env.height / 2 = env.height * half := by
    rw [hw, Int.mul_assoc, Int.mul_comm half]
    omega
  have hpacked := @defined_packed half env.height (by omega) hH
    (ext.imageToCfaGrayscale env.width env.height
      (drawLogoPic env.pic malloc env.width env.height) malloc) env.fresh
  rw [← hw, ← hsize, Int.mul_comm env.height] at hpacked
  unfold LogoEnv.frame LogoEnv.image
  rw [if_pos h1, if_pos h1, hpacked, hcfa.iff_pic]

theorem frame_color (h2 : env.panelColor = 2) (hW : 0 < env.width) (hW2 : env.width % 2 = 0)
    (hH : 0 < env.height) (hH2 : env.height % 2 = 0) :
    (env.frame ext).Defined (env.width * env.height / 2) ↔
      env.pic.isSome = true ∧ (env.width % 6 = 0 ∨ env.needWhite = true) ∨
        env.needWhite = true ∧ env.width < 6 := by
  obtain ⟨half, hw⟩ : ∃ n, env.width = 2 * n := ⟨env.width / 2, by omega⟩
  have hsize : env.width * env.height / 2 = env.height * half := by
    rw [hw, Int.mul_assoc, Int.mul_comm half]
    omega
  have hcomm : env.width * env.height = env.height * (2 * half) := by
    rw [hw, Int.mul_comm]
  have hwhite (p : Int) (h0 : 0 ≤ p) (hp : p < env.height * half) :
      (env.fresh p).isSome = true ↔ env.needWhite = true := fresh_isSome env h0 (hsize ▸ hp)
  have h1 : env.panelColor ≠ 1 := by omega
  unfold LogoEnv.frame LogoEnv.image
  rw [if_neg h1, if_pos h2, if_neg h1]
  by_cases hpic : env.pic.isSome = true
  · have himage := drawLogoPic_defined hpic env.width env.height
    rw [hcomm] at himage
    have hconv := converted_of_defined (by omega) hH hH2 hwhite (Partial.defined_word himage)
    rw [← hw, ← hsize] at hconv
    rw [hconv]
    constructor
    · rintro (h3 | hn)
      · exact .inl ⟨hpic, .inl (by omega)⟩
      · exact .inl ⟨hpic, .inr hn⟩
    · rintro (⟨-, h6 | hn⟩ | ⟨hn, -⟩)
      · exact .inl (by omega)
      · exact .inr hn
      · exact .inr hn
  · have himage := drawLogoPic_undefined hpic env.width env.height
    rw [hcomm] at himage
    have hconv := converted_of_undefined (by omega) hH hH2 hwhite (Partial.undefined_word himage)
    rw [← hw, ← hsize] at hconv
    rw [hconv]
    constructor
    · rintro ⟨hsmall, hn⟩
      exact .inr ⟨hn, by omega⟩
    · rintro (⟨h, -⟩ | ⟨hn, hsmall⟩)
      · exact absurd h hpic
      · exact ⟨by omega, hn⟩

theorem frame_rga (h1 : env.panelColor ≠ 1) (h2 : env.panelColor ≠ 2)
    (hrga : Conversion (4 * (env.width * env.height)) (env.width * env.height / 2) fun src dst =>
      ext.rgb888ToGray16ByRga dst src env.height env.width env.width) :
    (env.frame ext).Defined (env.width * env.height / 2) ↔ env.pic.isSome = true := by
  unfold LogoEnv.frame LogoEnv.image
  rw [if_neg h1, if_neg h2, if_neg h1]
  exact hrga.iff_pic env.pic env.fresh

end Panels

/-- The picture's frame has no undefined byte exactly if the image file decodes and the converter
of the panel writes every byte or finds the frame white, or if it writes none and finds it white. -/
theorem logo_defined_iff (ext : Externals) (env : LogoEnv) (hW : 0 < env.width)
    (hW2 : env.width % 2 = 0) (hH : 0 < env.height) (hH2 : env.height % 2 = 0)
    (hcfa : Conversion (4 * (env.width * env.height)) (env.width * env.height)
      (ext.imageToCfaGrayscale env.width env.height))
    (hrga : Conversion (4 * (env.width * env.height)) (env.width * env.height / 2) fun src dst =>
      ext.rgb888ToGray16ByRga dst src env.height env.width env.width) :
    LogoDefined ext env ↔
      env.pic.isSome = true ∧
        (env.panelColor ≠ 2 ∨ env.width % 6 = 0 ∨ env.needWhite = true) ∨
      env.panelColor = 2 ∧ env.needWhite = true ∧ env.width < 6 := by
  rw [logoDefined_iff_frame]
  by_cases h2 : env.panelColor = 2
  · rw [frame_color h2 hW hW2 hH hH2]
    simp [h2]
  · have hframe : (env.frame ext).Defined (env.width * env.height / 2) ↔ env.pic.isSome = true := by
      by_cases h1 : env.panelColor = 1
      · exact frame_gray h1 hW hW2 hH hcfa
      · exact frame_rga h1 h2 hrga
    rw [hframe]
    simp [h2]

/-- Conversions of pictures of grays, whose three channels are the same. -/
def grayExternals : Externals where
  imageToCfaGrayscale w h src dst := fun p => if 0 ≤ p ∧ p < w * h then src (4 * p) else dst p
  rgb888ToGray16ByRga dst src h w _ := fun p =>
    if 0 ≤ p ∧ p < w * h / 2 then do return logoByte (← src (8 * p)) (← src (8 * p + 4)) else dst p

theorem grayExternals_cfa {w h : Int} (hpos : 0 < w * h) :
    Conversion (4 * (w * h)) (w * h) (grayExternals.imageToCfaGrayscale w h) := by
  have hbyte (src dst : Buf) {p : Int} (h0 : 0 ≤ p) (hp : p < w * h) :
      grayExternals.imageToCfaGrayscale w h src dst p = src (4 * p) := if_pos ⟨h0, hp⟩
  constructor
  · intro src dst hsrc p h0 hp
    rw [hbyte src dst h0 hp]
    exact hsrc _ (by omega) (by omega)
  · intro src dst hsrc hd
    have hfirst := hd 0 (by omega) hpos
    rw [hbyte src dst (by omega) hpos, hsrc _ (by omega) (by omega)] at hfirst
    cases hfirst

theorem grayExternals_rga {w h : Int} (hpos : 0 < w * h / 2) :
    Conversion (4 * (w * h)) (w * h / 2) fun src dst =>
      grayExternals.rgb888ToGray16ByRga dst src h w w := by
  have hbyte (src dst : Buf) {p : Int} (h0 : 0 ≤ p) (hp : p < w * h / 2) :
      (grayExternals.rgb888ToGray16ByRga dst src h w w p).isSome = true ↔
        (src (8 * p)).isSome = true ∧ (src (8 * p + 4)).isSome = true := by
    rw [← isSome_logoByte]
    unfold grayExternals
    simp only [h0, hp, and_self, reduceIte]
  constructor
  · intro src dst hsrc p h0 hp
    exact (hbyte src dst h0 hp).2 ⟨hsrc _ (by omega) (by omega), hsrc _ (by omega) (by omega)⟩
  · intro src dst hsrc hd
    have hfirst := ((hbyte src dst (by omega) hpos).1 (hd 0 (by omega) hpos)).1
    rw [hsrc _ (by omega) (by omega)] at hfirst
    cases hfirst

/-- A white picture on a panel of six columns. -/
def whiteLogo : LogoEnv :=
  { width := 6, height := 2, panelColor := 0, pic := some fun _ => 0xff#8 }

theorem logo_defined_iff_white : LogoDefined grayExternals whiteLogo ↔
    whiteLogo.pic.isSome = true ∧
      (whiteLogo.panelColor ≠ 2 ∨ whiteLogo.width % 6 = 0 ∨ whiteLogo.needWhite = true) ∨
    whiteLogo.panelColor = 2 ∧ whiteLogo.needWhite = true ∧ whiteLogo.width < 6 :=
  logo_defined_iff grayExternals whiteLogo (by decide) (by decide) (by decide) (by decide)
    (grayExternals_cfa (by decide)) (grayExternals_rga (by decide))

/-- A file that does not decode leaves all of the frame undefined. -/
theorem logo_undefined :
    ¬ ∀ (ext : Externals) (env : LogoEnv), 0 < env.width → env.width % 2 = 0 → 0 < env.height →
      env.height % 2 = 0 →
      Conversion (4 * (env.width * env.height)) (env.width * env.height)
        (ext.imageToCfaGrayscale env.width env.height) →
      Conversion (4 * (env.width * env.height)) (env.width * env.height / 2)
        (fun src dst => ext.rgb888ToGray16ByRga dst src env.height env.width env.width) →
      LogoDefined ext env := by
  intro h
  have hd := h grayExternals { whiteLogo with pic := none } (by decide) (by decide) (by decide)
    (by decide) (grayExternals_cfa (by decide)) (grayExternals_rga (by decide))
  have hfirst := hd _ _ rfl 0 (by decide) (by decide)
  revert hfirst
  decide

end EinkHwc
