import Mathlib.Algebra.Order.Group.Unbundled.Int
import Mathlib.Tactic.Ring

/-!
# Error diffusion

A picture is quantised from left to right and from top to bottom. The error of a pixel goes on to
four neighbours that are still to come, in sixteenths rounded down: 7 to the right, and 3, 5 and 1
to the row below, on the left, below and on the right. Shares that would leave the row are dropped.

* `Quantiser`: how a value is clipped and which value is shown for it.
* `carry`, `value`, `level`, `err`: one row, from its residuals.
* `received`: what a row has passed on to the row below, after its first `x` pixels;
  `received_succ` is one pixel more.
* `residual`: the residuals of every row of a picture.
* `residual_of_fixed`: a picture of values that are shown as they are makes no errors.
* `level_cone`: a pixel depends on its own row up to it, and on one column more for each row above.
-/

namespace Diffusion

/-- What is shown for a value, after clipping. -/
structure Quantiser where
  clip : Int → Int
  shown : Int → Int

section Row
variable (Q : Quantiser) (src R : Nat → Int)

/-- The error that the pixel on the left passes on. -/
def carry : Nat → Int
  | 0 => 0
  | x + 1 =>
    let g := Q.clip (src x + R x + carry x)
    7 * (g - Q.shown g) / 16

/-- The value of a pixel before clipping. -/
def value (x : Nat) : Int := src x + R x + carry Q src R x

def level (x : Nat) : Int := Q.clip (value Q src R x)

def err (x : Nat) : Int := level Q src R x - Q.shown (level Q src R x)

theorem carry_zero : carry Q src R 0 = 0 := rfl

theorem carry_succ (x : Nat) : carry Q src R (x + 1) = 7 * err Q src R x / 16 := rfl

end Row

/-! ## The row below -/

section Received
variable (e : Nat → Int) (w : Nat)

/-- What the pixels before `x` have passed on to entry `k` of the row below. -/
def received (x k : Nat) : Int :=
  (if k + 1 < x then 3 * e (k + 1) / 16 else 0) + (if k < x then 5 * e k / 16 else 0) +
    if 0 < k ∧ k ≤ x ∧ k < w then e (k - 1) / 16 else 0

/-- The shares of pixel `x` alone. -/
def share (x k : Nat) : Int :=
  (if k + 1 = x then 3 * e x / 16 else 0) + (if k = x then 5 * e x / 16 else 0) +
    if k = x + 1 ∧ x + 1 < w then e x / 16 else 0

theorem received_zero (k : Nat) : received e w 0 k = 0 := by
  unfold received
  rw [if_neg (by omega), if_neg (by omega), if_neg (by omega)]
  rfl

private theorem if_lt_succ (f : Nat → Int) (j x : Nat) :
    (if j < x + 1 then f j else 0) = (if j < x then f j else 0) + if j = x then f x else 0 := by
  obtain h | rfl | h : j < x ∨ j = x ∨ x < j := by omega
  · rw [if_pos (by omega), if_pos h, if_neg (by omega), Int.add_zero]
  · rw [if_pos (by omega), if_neg (by omega), if_pos rfl, Int.zero_add]
  · rw [if_neg (by omega), if_neg (by omega), if_neg (by omega), Int.add_zero]

private theorem if_right_succ (x k : Nat) :
    (if 0 < k ∧ k ≤ x + 1 ∧ k < w then e (k - 1) / 16 else 0) =
      (if 0 < k ∧ k ≤ x ∧ k < w then e (k - 1) / 16 else 0) +
        if k = x + 1 ∧ x + 1 < w then e x / 16 else 0 := by
  by_cases hk : k = x + 1
  · subst hk
    rw [if_neg (c := 0 < x + 1 ∧ x + 1 ≤ x ∧ x + 1 < w) (by omega), Int.zero_add]
    by_cases hw : x + 1 < w
    · rw [if_pos (by omega), if_pos ⟨rfl, hw⟩]
      rfl
    · rw [if_neg (by omega), if_neg (by omega)]
  · rw [if_neg (c := k = x + 1 ∧ x + 1 < w) (by omega), Int.add_zero]
    have hiff : (0 < k ∧ k ≤ x + 1 ∧ k < w) ↔ (0 < k ∧ k ≤ x ∧ k < w) := by omega
    simp only [hiff]

theorem received_succ (x k : Nat) :
    received e w (x + 1) k = received e w x k + share e w x k := by
  unfold received share
  rw [if_lt_succ (fun j => 3 * e j / 16), if_lt_succ (fun j => 5 * e j / 16), if_right_succ]
  ring

/-- Nothing is passed on beyond the row. -/
theorem received_end {k : Nat} (hk : w ≤ k) : received e w w k = 0 := by
  unfold received
  rw [if_neg (by omega), if_neg (by omega), if_neg (by omega)]
  rfl

/-- An entry receives at most three shares. -/
theorem received_bounds {lo hi : Int} (hlo : lo ≤ 0) (hhi : 0 ≤ hi) (he : ∀ x, lo ≤ e x ∧ e x ≤ hi)
    (x k : Nat) :
    3 * lo / 16 + 5 * lo / 16 + lo / 16 ≤ received e w x k ∧
      received e w x k ≤ 3 * hi / 16 + 5 * hi / 16 + hi / 16 := by
  have hright := he (k + 1)
  have hbelow := he k
  have hleft := he (k - 1)
  have h3 : 3 * lo / 16 ≤ 3 * e (k + 1) / 16 ∧ 3 * e (k + 1) / 16 ≤ 3 * hi / 16 := by omega
  have h5 : 5 * lo / 16 ≤ 5 * e k / 16 ∧ 5 * e k / 16 ≤ 5 * hi / 16 := by omega
  have h1 : lo / 16 ≤ e (k - 1) / 16 ∧ e (k - 1) / 16 ≤ hi / 16 := by omega
  have hlo' : 3 * lo / 16 ≤ 0 ∧ 5 * lo / 16 ≤ 0 ∧ lo / 16 ≤ 0 := by omega
  have hhi' : 0 ≤ 3 * hi / 16 ∧ 0 ≤ 5 * hi / 16 ∧ 0 ≤ hi / 16 := by omega
  unfold received
  split <;> split <;> split <;> omega

end Received

/-- The residuals of row `y` of a picture whose rows `src` gives. -/
def residual (Q : Quantiser) (w : Nat) (src : Nat → Nat → Int) : Nat → Nat → Int
  | 0 => fun _ => 0
  | y + 1 => received (err Q (src y) (residual Q w src y)) w w

/-! ## Pictures without errors -/

section Fixed
variable {Q : Quantiser} {n : Nat}

/-- A value that is shown as it is. -/
def Quantiser.Fixes (Q : Quantiser) (v : Int) : Prop := Q.clip v = v ∧ Q.shown v = v

variable {src R : Nat → Int} (hfix : ∀ x, x < n → Q.Fixes (src x)) (hR : ∀ x, x < n → R x = 0)
include hfix hR

theorem carry_of_fixed {x : Nat} (hx : x ≤ n) : carry Q src R x = 0 := by
  induction x with
  | zero => rfl
  | succ x ih =>
    have hlevel : level Q src R x = src x := by
      unfold level value
      rw [ih (by omega), hR x hx, Int.add_zero, Int.add_zero]
      exact (hfix x hx).1
    rw [carry_succ]
    unfold err
    rw [hlevel, (hfix x hx).2, Int.sub_self]
    rfl

theorem level_of_fixed {x : Nat} (hx : x < n) : level Q src R x = src x := by
  unfold level value
  rw [carry_of_fixed hfix hR (by omega), hR x hx, Int.add_zero, Int.add_zero]
  exact (hfix x hx).1

theorem err_of_fixed {x : Nat} (hx : x < n) : err Q src R x = 0 := by
  unfold err
  rw [level_of_fixed hfix hR hx, (hfix x hx).2, Int.sub_self]

end Fixed

theorem received_of_zero {e : Nat → Int} {w : Nat} (he : ∀ x, x < w → e x = 0) (k : Nat) :
    received e w w k = 0 := by
  have hright : (if k + 1 < w then 3 * e (k + 1) / 16 else 0) = 0 := by
    split
    · rename_i h
      rw [he _ h]
      rfl
    · rfl
  have hbelow : (if k < w then 5 * e k / 16 else 0) = 0 := by
    split
    · rename_i h
      rw [he k h]
      rfl
    · rfl
  have hleft : (if 0 < k ∧ k ≤ w ∧ k < w then e (k - 1) / 16 else 0) = 0 := by
    split
    · rw [he (k - 1) (by omega)]
      rfl
    · rfl
  unfold received
  rw [hright, hbelow, hleft]
  rfl

theorem residual_of_fixed {Q : Quantiser} {w h : Nat} {src : Nat → Nat → Int}
    (hfix : ∀ y x, y < h → x < w → Q.Fixes (src y x)) {y : Nat} (hy : y ≤ h) (k : Nat) :
    residual Q w src y k = 0 := by
  induction y generalizing k with
  | zero => rfl
  | succ y ih =>
    exact received_of_zero (fun x hx => err_of_fixed (fun x hx => hfix y x hy hx)
      (fun x _ => ih (by omega) x) hx) k

/-! ## Which pixels a pixel depends on -/

section Cone
variable {Q : Quantiser}

theorem carry_congr {src src' R R' : Nat → Int} {x : Nat} (hs : ∀ j, j < x → src j = src' j)
    (hR : ∀ j, j < x → R j = R' j) : carry Q src R x = carry Q src' R' x := by
  induction x with
  | zero => rfl
  | succ x ih =>
    have hx := ih (fun j hj => hs j (by omega)) fun j hj => hR j (by omega)
    unfold carry
    rw [hs x (by omega), hR x (by omega), hx]

theorem level_congr {src src' R R' : Nat → Int} {x : Nat} (hs : ∀ j, j ≤ x → src j = src' j)
    (hR : ∀ j, j ≤ x → R j = R' j) : level Q src R x = level Q src' R' x := by
  unfold level value
  rw [hs x (by omega), hR x (by omega),
    carry_congr (fun j hj => hs j (by omega)) fun j hj => hR j (by omega)]

theorem err_congr {src src' R R' : Nat → Int} {x : Nat} (hs : ∀ j, j ≤ x → src j = src' j)
    (hR : ∀ j, j ≤ x → R j = R' j) : err Q src R x = err Q src' R' x := by
  unfold err
  rw [level_congr hs hR]

theorem received_congr {e e' : Nat → Int} {w k : Nat}
    (he : ∀ j, j < w → j ≤ k + 1 → e j = e' j) : received e w w k = received e' w w k := by
  have hright : (if k + 1 < w then 3 * e (k + 1) / 16 else 0) =
      if k + 1 < w then 3 * e' (k + 1) / 16 else 0 := by
    split
    · rw [he (k + 1) (by omega) (by omega)]
    · rfl
  have hbelow : (if k < w then 5 * e k / 16 else 0) = if k < w then 5 * e' k / 16 else 0 := by
    split
    · rw [he k (by omega) (by omega)]
    · rfl
  have hleft : (if 0 < k ∧ k ≤ w ∧ k < w then e (k - 1) / 16 else 0) =
      if 0 < k ∧ k ≤ w ∧ k < w then e' (k - 1) / 16 else 0 := by
    split
    · rw [he (k - 1) (by omega) (by omega)]
    · rfl
  unfold received
  rw [hright, hbelow, hleft]

variable {w : Nat} {src src' : Nat → Nat → Int}

/-- A residual depends on one column more for each row above. -/
theorem residual_cone {y k : Nat}
    (h : ∀ y' x', y' < y → x' < w → x' ≤ k + (y - y') → src y' x' = src' y' x') :
    residual Q w src y k = residual Q w src' y k := by
  induction y generalizing k with
  | zero => rfl
  | succ y ih =>
    refine received_congr fun j hj hjk => err_congr (fun i hi => ?_) fun i hi => ?_
    · exact h y i (by omega) (by omega) (by omega)
    · exact ih fun y' x' hy' hx' hle => h y' x' (by omega) hx' (by omega)

theorem level_cone {x y : Nat} (hx : x < w)
    (h : ∀ y' x', y' ≤ y → x' < w → x' ≤ x + (y - y') → src y' x' = src' y' x') :
    level Q (src y) (residual Q w src y) x = level Q (src' y) (residual Q w src' y) x := by
  refine level_congr (fun j hj => h y j (by omega) (by omega) (by omega)) fun j hj => ?_
  exact residual_cone fun y' x' hy' hx' hle => h y' x' (by omega) hx' (by omega)

end Cone

end Diffusion
