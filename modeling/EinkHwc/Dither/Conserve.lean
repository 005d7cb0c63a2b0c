import EinkHwc.Dither.Diffusion
import Mathlib.Algebra.BigOperators.Group.Finset.Piecewise
import Mathlib.Algebra.Order.BigOperators.Group.Finset

/-!
# Error diffusion makes nothing brighter

Where the errors are not negative and clipping only lowers a value, the shares of an error add up to
at most the error, and what leaves the row is lost. So what is shown never exceeds what was given,
in a row (`row_conserves`) and in a picture (`picture_conserves`).
-/

namespace Diffusion

open Finset

/-- An amount that goes to one entry at most. -/
private theorem sum_single_le {a : Int} (ha : 0 ≤ a) (n c : Nat) {p : Nat → Prop} [DecidablePred p]
    (hp : ∀ k, p k → k = c) : ∑ k ∈ range n, (if p k then a else 0) ≤ a := by
  have hle (k : Nat) : (if p k then a else 0) ≤ if k = c then a else 0 := by
    by_cases h : p k
    · rw [if_pos h, if_pos (hp k h)]
    · rw [if_neg h]
      split <;> omega
  calc ∑ k ∈ range n, (if p k then a else 0)
      ≤ ∑ k ∈ range n, if k = c then a else 0 := sum_le_sum fun k _ => hle k
    _ = if c ∈ range n then a else 0 := sum_ite_eq' ..
    _ ≤ a := by split <;> omega

/-- The shares of one pixel in the row below. -/
theorem sum_share_le {e : Nat → Int} {x : Nat} (he : 0 ≤ e x) (w n : Nat) :
    ∑ k ∈ range n, share e w x k ≤ 3 * e x / 16 + 5 * e x / 16 + e x / 16 := by
  have hleft := sum_single_le (a := 3 * e x / 16) (by omega) n (x - 1) (p := fun k => k + 1 = x)
    fun k hk => by omega
  have hbelow := sum_single_le (a := 5 * e x / 16) (by omega) n x (p := fun k => k = x)
    fun k hk => hk
  have hright := sum_single_le (a := e x / 16) (by omega) n (x + 1)
    (p := fun k => k = x + 1 ∧ x + 1 < w) fun k hk => hk.1
  unfold share
  rw [sum_add_distrib, sum_add_distrib]
  omega

section Row
variable {Q : Quantiser} {src R : Nat → Int}

/-- After `x` pixels of a row: what is shown, what was passed on and what is carried. -/
theorem row_conserves (hclip : ∀ g, Q.clip g ≤ g) (herr : ∀ x, 0 ≤ err Q src R x) (w x : Nat) :
    ∑ j ∈ range x, Q.shown (level Q src R j) +
        ∑ k ∈ range w, received (err Q src R) w x k + carry Q src R x ≤
      ∑ j ∈ range x, src j + ∑ j ∈ range x, R j := by
  induction x with
  | zero =>
    have hnone : ∑ k ∈ range w, received (err Q src R) w 0 k = 0 :=
      sum_eq_zero fun k _ => received_zero ..
    rw [hnone, carry_zero]
    simp
  | succ x ih =>
    have hx := herr x
    have hshare := sum_share_le (e := err Q src R) hx w w
    have hlevel : level Q src R x ≤ src x + R x + carry Q src R x := hclip _
    have hshown : Q.shown (level Q src R x) = level Q src R x - err Q src R x := by
      unfold err
      omega
    have hreceived : ∑ k ∈ range w, received (err Q src R) w (x + 1) k =
        ∑ k ∈ range w, received (err Q src R) w x k + ∑ k ∈ range w, share (err Q src R) w x k := by
      rw [← sum_add_distrib]
      exact sum_congr rfl fun k _ => received_succ ..
    rw [sum_range_succ, sum_range_succ, sum_range_succ, hreceived, hshown, carry_succ]
    omega

end Row

/-- After `h` rows: what is shown, and the residuals of the next row. -/
theorem picture_conserves {Q : Quantiser} {w : Nat} {src : Nat → Nat → Int}
    (hclip : ∀ g, Q.clip g ≤ g) (herr : ∀ y x, 0 ≤ err Q (src y) (residual Q w src y) x)
    (hcarry : ∀ y x, 0 ≤ carry Q (src y) (residual Q w src y) x) (h : Nat) :
    ∑ y ∈ range h, ∑ x ∈ range w, Q.shown (level Q (src y) (residual Q w src y) x) +
        ∑ k ∈ range w, residual Q w src h k ≤
      ∑ y ∈ range h, ∑ x ∈ range w, src y x := by
  induction h with
  | zero =>
    have hnone : ∑ k ∈ range w, residual Q w src 0 k = 0 := sum_eq_zero fun _ _ => rfl
    rw [hnone]
    simp
  | succ h ih =>
    have hrow := row_conserves hclip (herr h) w w
    have hlast := hcarry h w
    rw [sum_range_succ, sum_range_succ]
    show _ + ∑ k ∈ range w, received (err Q (src h) (residual Q w src h)) w w k ≤ _
    omega

end Diffusion
