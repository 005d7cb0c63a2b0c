import EinkHwc.Colour.Filter
import EinkHwc.Colour.Rgb565
import EinkHwc.Worker.Commit

/-!
# The colour commit against the panel frame

`ConvertToColorEink2` allocates its RGA buffer with the panel's size and calls the converter of the
framebuffer's format with that size and the panel's width. The driver takes `W * H / 2` bytes.

* `Fits`: no store leaves that frame, and no two passes of the row loop share a byte.
* `colorEink2_fits_iff`: the RGB888 converter fits; the RGB565 converter, which doubles each line,
  does not.
-/

namespace EinkHwc

open Mem

/-- The stores of `ConvertToColorEink2` to `gray16_buffer`, once the RGA buffer `fb` is locked:
`width` and `height` are what gralloc reports for it. -/
def colorEink2Stores (panel : PanelInfo) (outputFormat width height : Int) (fb : Int → BitVec 8) :
    List (List Store) :=
  if panel.panelColor ≠ 2 then []
  else if outputFormat = halPixelFormatRgba8888 then
    rgb888ToColorEink2 (fun k => load32 fb (4 * k)) height width panel.width
  else if outputFormat = halPixelFormatRgb565 then
    rgb565ToColorEink2 (fun k => load16 fb (2 * k)) height width panel.width
  else []

/-- The stores stay in a frame of `W * H / 2` bytes, those of different source rows apart. -/
structure Fits (W H : Int) (rows : List (List Store)) : Prop where
  inFrame : ∀ row ∈ rows, ∀ s ∈ row, 0 ≤ s.1 ∧ s.1 < W * H / 2
  apart : rows.Pairwise fun a b => ∀ s ∈ a, ∀ t ∈ b, s.1 ≠ t.1

theorem fits_rgb888 (src : Int → BitVec 32) {W H : Int} (hW : 0 ≤ W) (hW2 : W % 2 = 0)
    (hH : 0 ≤ H) (hH2 : H % 2 = 0) : Fits W H (rgb888ToColorEink2 src H W W) := by
  obtain ⟨half, rfl⟩ : ∃ n, W = 2 * n := ⟨W / 2, by omega⟩
  have hhalf : (2 * half) >>> (1 : Nat) = half := by
    rw [Int.shiftRight_eq_div_pow]
    omega
  have hrows : ((H.tdiv 2).toNat : Int) * 2 = H := by
    rw [Int.tdiv_eq_ediv_of_nonneg hH]
    omega
  have hcols (k : Nat) (hk : k < 3 * ((2 * half).tdiv 6).toNat) : (k : Int) < half := by
    rw [Int.tdiv_eq_ediv_of_nonneg hW] at hk
    omega
  have hsize : 2 * half * H / 2 = H * half := by
    rw [Int.mul_assoc, Int.mul_comm half H]
    omega
  rw [rgb888ToColorEink2_eq, hhalf]
  constructor
  · intro row hrow s hs
    obtain ⟨i, hi, rfl⟩ := List.mem_map.1 hrow
    obtain ⟨y, k, hy, hk, rfl⟩ := mem_passStores.1 hs
    have hk' := hcols k hk
    have hi' := List.mem_range.1 hi
    rw [hsize]
    exact offset_bounds ⟨by omega, by omega⟩ ⟨by omega, by omega⟩
  · rw [List.pairwise_map]
    refine List.pairwise_lt_range.imp fun {i j} hij s hs t ht he => ?_
    obtain ⟨y, k, hy, hk, rfl⟩ := mem_passStores.1 hs
    obtain ⟨z, l, hz, hl, rfl⟩ := mem_passStores.1 ht
    have hk' := hcols k hk
    have hl' := hcols l hl
    obtain ⟨hyz, _⟩ := row_col_inj (n := half) (by omega) (by omega) he
    omega

/-- A panel of two columns leaves no group of three pixels, so nothing is written. -/
theorem fits_rgb565 (src : Int → BitVec 16) (H v : Int) :
    Fits 2 H (rgb565ToColorEink2 src H 2 v) := by
  have hnone (i : Nat) : rowStores src 2 v i = [] := by
    apply List.eq_nil_iff_forall_not_mem.2
    intro s hs
    obtain ⟨t, ht, _⟩ := mem_rowStores.1 hs
    cases ht
  rw [rgb565ToColorEink2_rows]
  constructor
  · intro row hrow s hs
    obtain ⟨i, _, rfl⟩ := List.mem_map.1 hrow
    rw [hnone] at hs
    cases hs
  · rw [List.pairwise_map]
    refine List.pairwise_lt_range.imp fun {i j} _ s hs => ?_
    rw [hnone] at hs
    cases hs

/-- The second line of the last row starts where a frame of one byte a pixel would end. -/
theorem not_fits_rgb565 (src : Int → BitVec 16) {W H : Int} (hW : 3 ≤ W) (hH : 0 < H) :
    ¬ Fits W H (rgb565ToColorEink2 src H W W) := by
  intro h
  have hlast : ((H.toNat - 1 : Nat) : Int) = H - 1 := by omega
  have hlen : 0 < rowLen W := by
    unfold rowLen
    rw [if_neg (by omega)]
    omega
  have hrow : rowStores src W W (H.toNat - 1) ∈ rgb565ToColorEink2 src H W W := by
    rw [rgb565ToColorEink2_rows]
    exact List.mem_map.2 ⟨_, List.mem_range.2 (by omega), rfl⟩
  obtain ⟨_, hlt⟩ := h.inFrame _ hrow _ (mem_rowStores.2 ⟨0, hlen, .inr rfl⟩)
  have hpos : 0 < W * H := Int.mul_pos (by omega) hH
  have hmul : (H - 1) * W = W * H - W := by
    rw [Int.sub_mul, Int.one_mul, Int.mul_comm]
  rw [hlast, hmul] at hlt
  omega

/-- The colour commit keeps to the panel frame exactly for an RGB888 framebuffer, or a panel so
narrow that the RGB565 converter writes nothing. -/
theorem colorEink2_fits_iff (panel : PanelInfo) (outputFormat : Int) (fb : Int → BitVec 8)
    (hcolor : panel.panelColor = 2) (hW : 0 < panel.width) (hW2 : panel.width % 2 = 0)
    (hH : 0 < panel.height) (hH2 : panel.height % 2 = 0)
    (hformat : outputFormat = halPixelFormatRgba8888 ∨ outputFormat = halPixelFormatRgb565) :
    Fits panel.width panel.height
      (colorEink2Stores panel outputFormat panel.width panel.height fb) ↔
      outputFormat = halPixelFormatRgba8888 ∨ panel.width < 3 := by
  unfold colorEink2Stores
  rw [if_neg (by rw [hcolor]; decide)]
  rcases hformat with rfl | rfl
  · rw [if_pos rfl]
    have h := fits_rgb888 (fun k => load32 fb (4 * k)) (by omega) hW2 (by omega) hH2
    exact ⟨fun _ => .inl rfl, fun _ => h⟩
  · have hne : halPixelFormatRgb565 ≠ halPixelFormatRgba8888 := by decide
    rw [if_neg hne, if_pos rfl]
    constructor
    · intro h
      by_contra hw
      exact not_fits_rgb565 _ (by omega) hH h
    · rintro (h | h)
      · exact absurd h hne
      · have hw : panel.width = 2 := by omega
        rw [hw]
        exact fits_rgb565 _ _ _

theorem colorEink2_fits_rgb888 :
    Fits 4 2 (colorEink2Stores ⟨4, 2, 2⟩ halPixelFormatRgba8888 4 2 fun _ => 0) ↔
      halPixelFormatRgba8888 = halPixelFormatRgba8888 ∨ (4 : Int) < 3 :=
  colorEink2_fits_iff ⟨4, 2, 2⟩ halPixelFormatRgba8888 (fun _ => 0) rfl (by decide) (by decide)
    (by decide) (by decide) (.inl rfl)

/-- A panel of four columns and two rows gets stores at offsets up to 11, in a frame of 4 bytes. -/
theorem colorEink2_overrun :
    ¬ ∀ (panel : PanelInfo) (outputFormat : Int) (fb : Int → BitVec 8), panel.panelColor = 2 →
      0 < panel.width → panel.width % 2 = 0 → 0 < panel.height → panel.height % 2 = 0 →
      (outputFormat = halPixelFormatRgba8888 ∨ outputFormat = halPixelFormatRgb565) →
      Fits panel.width panel.height
        (colorEink2Stores panel outputFormat panel.width panel.height fb) := by
  intro h
  have hfits := h ⟨4, 2, 2⟩ halPixelFormatRgb565 (fun _ => 0) rfl (by decide) (by decide)
    (by decide)
    (by decide) (.inr rfl)
  have hlast :
      (11, 0) ∈ (colorEink2Stores ⟨4, 2, 2⟩ halPixelFormatRgb565 4 2 fun _ => 0).flatten := by
    decide +kernel
  obtain ⟨row, hrow, hs⟩ := List.mem_flatten.1 hlast
  obtain ⟨_, hlt⟩ := hfits.inFrame row hrow _ hs
  revert hlt
  decide

end EinkHwc
