import EinkHwc.Colour.Frame
import EinkHwc.Worker.Blit

/-!
# From the framebuffer to a colour panel

`ConvertToColorEink2` allocates its RGA buffer with the panel's own size, has RGA copy the
framebuffer into it with the size rounded down, by rows of the rounded width, and converts the
buffer with the panel's width. What the panel is sent is the framebuffer seen through the filter of
the panel, where the sizes agree.

* `blockMean_copied`: where nothing is rounded, a block of the RGA buffer is one of the framebuffer.
* `frame_unstored`: a byte without a store keeps what was in the frame before.
* `rows_shear`: where the width is rounded, the second row of a block is read from another place.
* `colorEink2_shows_iff`: so the panel shows every framebuffer exactly if 24 divides its width and 2
  its height.
-/

namespace EinkHwc

open Mem

variable {W H : Nat} {info : FbInfo} {fb rga : Int → BitVec 8}

/-- Where nothing is rounded, a block of the RGA buffer is one of the framebuffer. -/
theorem blockMean_copied (hW : W % 8 = 0) (hH : H % 2 = 0)
    (hc : (rgba8888ClipRgba ⟨W, H, 2⟩ info).Copies id (words fb) (words rga)) (k : Nat)
    {x y : Nat} (hx : x < W) (hy : y < H) :
    blockMean (words rga) W k x y = blockMean (words fb) info.stride k x y := by
  have hpix : ∀ x y : Nat, x < W → y < H →
      pixel (words rga) W x y = pixel (words fb) info.stride x y := by
    intro x y hx hy
    have h := copies_screenBlit_iff.1 hc x y (by omega) (by omega)
    rwa [hW, Nat.sub_zero] at h
  unfold blockMean
  rw [hpix _ _ (by omega) (by omega), hpix _ _ (by omega) (by omega),
    hpix _ _ (by omega) (by omega), hpix _ _ (by omega) (by omega)]

/-! ## The stores -/

section Stores

variable {src : Int → BitVec 32}

theorem mem_stores {s : Store} : s ∈ (rgb888ToColorEink2 src H W W).flatten ↔
    ∃ i k : Nat, i < H / 2 ∧ k < 3 * (W / 6) ∧
      (s = (i * (W : Int) + k, panelByte src W (2 * i) k) ∨
        s = (i * (W : Int) + (W / 2 : Nat) + k, panelByte src W (2 * i + 1) k)) := by
  have hrows : ((H : Int).tdiv 2).toNat = H / 2 := by
    rw [Int.tdiv_eq_ediv_of_nonneg (Int.natCast_nonneg H)]
    omega
  have hcols : ((W : Int).tdiv 6).toNat = W / 6 := by
    rw [Int.tdiv_eq_ediv_of_nonneg (Int.natCast_nonneg W)]
    omega
  have hhalf : (W : Int) >>> (1 : Nat) = (W / 2 : Nat) := by
    rw [Int.shiftRight_eq_div_pow]
    omega
  simp only [rgb888ToColorEink2_eq, hrows, hcols, hhalf, List.mem_flatten, List.mem_map,
    List.mem_range, passStores, exists_exists_and_eq_and, List.mem_flatMap, List.mem_cons,
    List.not_mem_nil, or_false]
  constructor
  · rintro ⟨i, hi, k, hk, hs⟩
    exact ⟨i, k, hi, hk, hs⟩
  · rintro ⟨i, k, hi, hk, hs⟩
    exact ⟨i, hi, k, hk, hs⟩

/-- A byte without a store keeps what was in the frame before. -/
theorem frame_unstored {p : Int} (h : ∀ i k : Nat, i < H / 2 → k < 3 * (W / 6) →
      p ≠ i * W + k ∧ p ≠ i * W + (W / 2 : Nat) + k) (m : Int → BitVec 8) :
    run m (rgb888ToColorEink2 src H W W).flatten p = m p := by
  refine run_of_forall_ne fun s hs he => ?_
  obtain ⟨i, k, hi, hk, rfl | rfl⟩ := mem_stores.1 hs
  · exact (h i k hi hk).1 he.symm
  · exact (h i k hi hk).2 he.symm

/-- The first byte of the frame, if it has a store. -/
theorem frame_first (hW : 6 ≤ W) (hH : 2 ≤ H) (m : Int → BitVec 8) :
    run m (rgb888ToColorEink2 src H W W).flatten 0 = panelByte src W 0 0 := by
  refine run_of_mem (mem_stores.2 ⟨0, 0, by omega, by omega, .inl ?_⟩) fun s hs he => ?_
  · rw [Int.natCast_zero, Int.zero_mul, Int.zero_add]
  · obtain ⟨i, k, hi, hk, rfl | rfl⟩ := mem_stores.1 hs
    · have h0 : 0 ≤ (i : Int) * W := Int.mul_nonneg (by omega) (by omega)
      obtain rfl : k = 0 := by
        simp only at he
        omega
      have hiW : (i : Int) * W = 0 := by simpa using he
      rcases Int.mul_eq_zero.1 hiW with h | h
      · obtain rfl : i = 0 := by omega
        rfl
      · omega
    · have h0 : 0 ≤ (i : Int) * W := Int.mul_nonneg (by omega) (by omega)
      simp only at he
      omega

end Stores

/-! ## What the panel shows -/

/-- The frame that `ConvertToColorEink2` leaves, where there was `frame`, shows the framebuffer:
each pixel is the mean of its block, in the channel that the filter has there. -/
def ShowsFramebuffer (W H : Nat) (info : FbInfo) (fb rga frame : Int → BitVec 8) : Prop :=
  ∀ x y : Nat, x < W → y < H →
    nibble (run frame (colorEink2Stores ⟨W, H, 2⟩ halPixelFormatRgba8888 W H rga).flatten
      (y * (W / 2 : Nat) + (x / 2 : Nat))) x =
      blockMean (words fb) info.stride (cfaShift (x - y)) x y

theorem colorEink2Stores_rgba (W H : Nat) (rga : Int → BitVec 8) :
    colorEink2Stores ⟨W, H, 2⟩ halPixelFormatRgba8888 W H rga =
      rgb888ToColorEink2 (words rga) H W W := by
  unfold colorEink2Stores
  rw [if_neg (by simp), if_pos rfl]
  rfl

/-- A pixel whose byte has no store shows what was there before. -/
theorem not_shows_of_unstored {x y : Nat} (hx : x < W) (hy : y < H)
    (h : ∀ i k : Nat, i < H / 2 → k < 3 * (W / 6) →
      (y * (W / 2 : Nat) + (x / 2 : Nat) : Int) ≠ i * W + k ∧
        (y * (W / 2 : Nat) + (x / 2 : Nat) : Int) ≠ i * W + (W / 2 : Nat) + k) :
    ¬ ∀ frame, ShowsFramebuffer W H info fb rga frame := by
  intro hall
  have h0 := hall (fun _ => 0) x y hx hy
  have h1 := hall (fun _ => 0xff) x y hx hy
  rw [colorEink2Stores_rgba, frame_unstored h] at h0 h1
  rw [← h0] at h1
  unfold nibble at h1
  split at h1 <;> simp at h1

/-- A picture with its first two columns white and all others black, by rows of `n` pixels. -/
def twoColumns (n : Int) (a : Int) : BitVec 8 := if a / 4 % n < 2 then 0xff#8 else 0

theorem words_twoColumns (n k : Int) :
    words (twoColumns n) k = if k % n < 2 then 0xffffffff#32 else 0 := by
  have h0 : 4 * k / 4 = k := by omega
  have h1 : (4 * k + 1) / 4 = k := by omega
  have h2 : (4 * k + 2) / 4 = k := by omega
  have h3 : (4 * k + 3) / 4 = k := by omega
  unfold words load32 twoColumns
  rw [h0, h1, h2, h3]
  split <;> rfl

theorem copies_twoColumns (hs : (W : Int) ≤ info.stride) :
    (rgba8888ClipRgba ⟨W, H, 2⟩ info).Copies id (words (twoColumns info.stride))
      (words (twoColumns (W - W % 8 : Nat))) := by
  refine copies_screenBlit_iff.2 fun x y hx _ => ?_
  have hrow (n : Int) (hn : x < n) : (y * n + x : Int) % n = x := by
    rw [Int.add_comm, Int.add_mul_emod_self_right]
    exact Int.emod_eq_of_lt (Int.natCast_nonneg x) hn
  rw [id, words_twoColumns, words_twoColumns, hrow _ (by omega), hrow _ (by omega)]

theorem field_twoColumns (n k : Int) :
    field (words (twoColumns n) k).toNat 4 4 = if k % n < 2 then 15 else 0 := by
  rw [words_twoColumns]
  split <;> rfl

theorem blockMean_twoColumns (n v : Int) : blockMean (words (twoColumns n)) v 4 0 0 =
    ((if 0 % n < 2 then 15 else 0) + (if 1 % n < 2 then 15 else 0) +
      (if v % n < 2 then 15 else 0) + if (v + 1) % n < 2 then 15 else 0) / 4 := by
  simp only [blockMean, sumNibble, pixel, field_twoColumns]
  simp

/-- Where the width is rounded, one of the pixels of the second row is read from another place. -/
theorem rows_shear (h6 : 6 ≤ W) (h8 : W % 8 ≠ 0) :
    blockMean (words (twoColumns (W - W % 8 : Nat))) W 4 0 0 < 15 := by
  have hdark : ¬ ((W : Int) % (W - W % 8 : Nat) < 2 ∧ (W + 1 : Int) % (W - W % 8 : Nat) < 2) := by
    rintro ⟨h0, h1⟩
    by_cases hw : W < 8
    · rw [show W - W % 8 = 0 by omega, Int.natCast_zero, Int.emod_zero] at h0
      omega
    · -- the second row starts `W % 8` pixels into the next one that was copied
      have hmod : (W : Int) % (W - W % 8 : Nat) = (W % 8 : Nat) := by
        have hadd : (W : Int) = (W % 8 : Nat) + (W - W % 8 : Nat) := by omega
        calc (W : Int) % (W - W % 8 : Nat)
            = ((W % 8 : Nat) + (W - W % 8 : Nat) : Int) % (W - W % 8 : Nat) := by rw [← hadd]
          _ = (W % 8 : Nat) := by
            rw [Int.add_emod_right]
            exact Int.emod_eq_of_lt (by omega) (by omega)
      rw [hmod] at h0
      have hone : W % 8 = 1 := by omega
      rw [Int.add_emod, hmod, hone, Int.emod_eq_of_lt (a := 1) (by omega) (by omega),
        Int.emod_eq_of_lt (by omega) (by omega)] at h1
      omega
  have hle (c : Prop) [Decidable c] : (if c then 15 else 0) ≤ 15 := by split <;> omega
  have ha := hle (0 % ((W - W % 8 : Nat) : Int) < 2)
  have hb := hle (1 % ((W - W % 8 : Nat) : Int) < 2)
  have hd := hle ((W + 1 : Int) % (W - W % 8 : Nat) < 2)
  rw [blockMean_twoColumns]
  by_cases h0 : (W : Int) % (W - W % 8 : Nat) < 2
  · rw [if_neg fun h1 => hdark ⟨h0, h1⟩, if_pos h0]
    omega
  · rw [if_neg h0]
    omega

theorem rows_straight {n : Int} (hn : 6 ≤ n) : blockMean (words (twoColumns n)) n 4 0 0 = 15 := by
  have h1 : (n + 1) % n = 1 := by
    rw [Int.add_emod_left]
    exact Int.emod_eq_of_lt (by omega) (by omega)
  rw [blockMean_twoColumns, h1, Int.emod_self, Int.zero_emod,
    Int.emod_eq_of_lt (by omega) (by omega)]
  rfl

/-- Where nothing is rounded, it shows the framebuffer. -/
theorem showsFramebuffer_copied (hW : W % 24 = 0) (hH : H % 2 = 0) (frame : Int → BitVec 8)
    (hc : (rgba8888ClipRgba ⟨W, H, 2⟩ info).Copies id (words fb) (words rga)) :
    ShowsFramebuffer W H info fb rga frame := by
  intro x y hx hy
  have hpitch : ((W / 2 : Nat) : Int) = 3 * (W / 6 : Nat) := by omega
  have hsix : (W : Int) = 6 * (W / 6 : Nat) := by omega
  have hrun := run_rgb888ToColorEink2 (words rga) frame (n := (W / 6 : Nat)) (h := H)
    (by omega) (y := y) (k := x / 2) (by omega) (by omega)
  rw [← hsix, ← hpitch] at hrun
  rw [colorEink2Stores_rgba, hrun, nibble_panelByte, blockMean_copied (by omega) hH hc _ hx hy]

/-- **What a colour panel shows.** It shows every framebuffer exactly if 24 divides its width and 2
its height. -/
theorem colorEink2_shows_iff (W H : Nat) (info : FbInfo) (hW : 0 < W) (hH : 0 < H)
    (hs : (W : Int) ≤ info.stride) :
    (∀ fb rga frame : Int → BitVec 8,
      (rgba8888ClipRgba ⟨W, H, 2⟩ info).Copies id (words fb) (words rga) →
        ShowsFramebuffer W H info fb rga frame) ↔ W % 24 = 0 ∧ H % 2 = 0 := by
  constructor
  · intro hall
    have hshows := fun frame => hall _ _ frame (copies_twoColumns (H := H) hs)
    by_cases hsmall : W < 6 ∨ H < 2
    · -- nothing is stored
      refine absurd hshows (not_shows_of_unstored (x := 0) (y := 0) hW hH fun i k hi hk => ?_)
      omega
    · have h8 : W % 8 = 0 := by
        by_contra h8
        have h := hshows (fun _ => 0) 0 0 hW hH
        have hn := nibble_panelByte (words (twoColumns (W - W % 8 : Nat))) W 0 0
        have hat : ((0 : Nat) : Int) * (W / 2 : Nat) + (0 / 2 : Nat) = 0 := by simp
        rw [colorEink2Stores_rgba, hat, frame_first (by omega) (by omega), hn] at h
        have hlt := rows_shear (by omega) h8
        have heq := rows_straight (n := info.stride) (by omega)
        have hk : cfaShift ((0 : Nat) - (0 : Nat)) = 4 := rfl
        rw [hk, heq] at h
        omega
      have h6 : W % 6 = 0 := by
        by_contra h6
        -- the columns that are left over in the first row
        refine absurd hshows (not_shows_of_unstored (x := 6 * (W / 6)) (y := 0) (by omega) hH
          fun i k hi hk => ?_)
        have hrow : i = 0 ∨ (W : Int) ≤ i * W := by
          rcases Nat.eq_zero_or_pos i with h | h
          · exact .inl h
          · exact .inr (by exact_mod_cast Nat.le_mul_of_pos_left W h)
        rcases hrow with rfl | hrow <;> omega
      have h2 : H % 2 = 0 := by
        by_contra h2
        -- the last row
        refine absurd hshows (not_shows_of_unstored (x := 0) (y := H - 1) hW (by omega)
          fun i k hi hk => ?_)
        have hlast : ((H - 1 : Nat) : Int) * (W / 2 : Nat) = (H / 2 : Nat) * W := by
          have hH1 : ((H - 1 : Nat) : Int) = (H / 2 : Nat) * 2 := by omega
          have hW2 : (W : Int) = 2 * (W / 2 : Nat) := by omega
          calc ((H - 1 : Nat) : Int) * (W / 2 : Nat)
              = (H / 2 : Nat) * (2 * (W / 2 : Nat)) := by rw [hH1, Int.mul_assoc]
            _ = (H / 2 : Nat) * W := by rw [← hW2]
        have hrow : ((i : Int) + 1) * W ≤ (H / 2 : Nat) * W :=
          Int.mul_le_mul_of_nonneg_right (by omega) (by omega)
        rw [Int.add_mul] at hrow
        rw [hlast]
        omega
      omega
  · rintro ⟨hW24, hH2⟩ fb rga frame hc
    exact showsFramebuffer_copied hW24 hH2 frame hc

theorem colorEink2_shows_24x2 :
    (∀ fb rga frame : Int → BitVec 8,
      (rgba8888ClipRgba ⟨24, 2, 2⟩ ⟨32, 2⟩).Copies id (words fb) (words rga) →
        ShowsFramebuffer 24 2 ⟨32, 2⟩ fb rga frame) ↔ 24 % 24 = 0 ∧ 2 % 2 = 0 :=
  colorEink2_shows_iff 24 2 ⟨32, 2⟩ (by decide) (by decide) (by decide)

end EinkHwc
