import EinkHwc.Dither.Diffusion
import Mathlib.Algebra.Order.Ring.Int

/-!
# One pixel of a dithered row

The statements that the dither routines repeat for each pixel, with the two line buffers of `short`
and the carried error `v0`.

* `Lines.pixel`: the statements, for a quantiser and for the neighbours that the copy serves.
* `Lines.At`: the buffers after the first `x` pixels of a row, by `Diffusion.received`.
* `at_pixel`: each pixel moves `At` one on, and its clipped value is the level there.
* `Lines.Upto`, `upto_pixel`: the same for the entries of the row alone, where a copy also adds to
  the entry beyond it.
* `pixel_written`: what a pixel stores to the line buffers; `Lines.Exact` says that no `short`
  wraps there.
-/

namespace EinkHwc

/-- `CLIP` -/
def clip (x : Int) : Int := if x > 255 then 255 else x

/-- The value of an `int` in a `short`. -/
def toShort (x : Int) : Int := x.bmod (2 ^ 16)

namespace Dither

/-- The locals of a row. `written` keeps what is stored to the line buffers, `carried` the values
of `v0`. -/
structure Lines where
  res0 : Nat → Int
  res1 : Nat → Int
  v0 : Int := 0
  gTemp : Int := 0
  written : List (Nat × Int) := []
  carried : List Int := []

/-- `res0[k] = 0` -/
def Lines.clear (s : Lines) (k : Nat) : Lines :=
  { s with res0 := Function.update s.res0 k 0, written := s.written ++ [(k, 0)] }

/-- `res1[k] += v` -/
def Lines.add (s : Lines) (k : Nat) (v : Int) : Lines :=
  let r := toShort (s.res1 k + v)
  { s with res1 := Function.update s.res1 k r, written := s.written ++ [(k, r)] }

/-- Pixel `i`: `left` and `right` tell whether this copy has the lines for `res1[i-1]` and
`res1[i+1]`. -/
def Lines.pixel (quant : Int → BitVec 32) (srcTempData : Int) (i : Nat) (left right : Bool)
    (s : Lines) : Lines :=
  let gTemp := clip (srcTempData + s.res0 i + s.v0)
  let s := s.clear i
  let e := gTemp - (quant gTemp).toInt
  let v0 := (e * 7) >>> (4 : Nat)
  let v1 := (e * 3) >>> (4 : Nat)
  let v2 := (e * 5) >>> (4 : Nat)
  let v3 := (e * 1) >>> (4 : Nat)
  let s := { s with gTemp := gTemp, v0 := v0, carried := s.carried ++ [v0] }
  let s := if left then s.add (i - 1) v1 else s
  let s := s.add i v2
  if right then s.add (i + 1) v3 else s

/-! ## The line buffers along a row -/

section Row
variable (Q : Diffusion.Quantiser) (src R : Nat → Int) (w : Nat)

/-- After the pixels before `x`, in a row of `w` pixels `src` with residuals `R`. -/
structure Lines.At (x : Nat) (s : Lines) : Prop where
  v0 : s.v0 = Diffusion.carry Q src R x
  res0 : ∀ k, s.res0 k = if k < x then 0 else R k
  res1 : ∀ k, s.res1 k = Diffusion.received (Diffusion.err Q src R) w x k

variable {Q src R w}

theorem at_zero {s : Lines} (hv : s.v0 = 0) (h0 : ∀ k, s.res0 k = R k) (h1 : ∀ k, s.res1 k = 0) :
    s.At Q src R w 0 where
  v0 := hv
  res0 k := by rw [if_neg (by omega), h0]
  res1 k := by rw [h1, Diffusion.received_zero]

theorem toShort_of_le {x : Int} (h : -32768 ≤ x ∧ x ≤ 32767) : toShort x = x := by
  unfold toShort
  exact Int.bmod_eq_of_le (by omega) (by omega)

theorem shr_four (e c : Int) : (e * c) >>> (4 : Nat) = c * e / 16 := by
  rw [Int.shiftRight_eq_div_pow, Int.mul_comm]
  rfl

@[simp] theorem clear_res1 (s : Lines) (k : Nat) : (s.clear k).res1 = s.res1 := rfl

theorem clear_res0 (s : Lines) (k j : Nat) :
    (s.clear k).res0 j = if j = k then 0 else s.res0 j := Function.update_apply ..

theorem add_res1 (s : Lines) (k : Nat) (v : Int) (j : Nat) :
    (s.add k v).res1 j = if j = k then toShort (s.res1 j + v) else s.res1 j := by
  show Function.update s.res1 k _ j = _
  rw [Function.update_apply]
  split
  · rename_i h
    rw [h]
  · rfl

section Pixel
variable {quant : Int → BitVec 32} {data : Int} {i : Nat} {left right : Bool} {s : Lines}

/-- The level of the pixel, as the code computes it. -/
theorem pixel_gTemp : (s.pixel quant data i left right).gTemp = clip (data + s.res0 i + s.v0) := by
  cases left <;> cases right <;> rfl

theorem pixel_v0 : (s.pixel quant data i left right).v0 =
    7 * (clip (data + s.res0 i + s.v0) - (quant (clip (data + s.res0 i + s.v0))).toInt) / 16 := by
  rw [← shr_four]
  cases left <;> cases right <;> rfl

theorem pixel_res0 (k : Nat) :
    (s.pixel quant data i left right).res0 k = if k = i then 0 else s.res0 k := by
  rw [← clear_res0]
  cases left <;> cases right <;> rfl

/-- Three different entries get a share. -/
theorem pixel_res1 {e : Int} (hi : left = true → 0 < i)
    (he : e = clip (data + s.res0 i + s.v0) - (quant (clip (data + s.res0 i + s.v0))).toInt)
    (k : Nat) : (s.pixel quant data i left right).res1 k =
      if left = true ∧ k + 1 = i then toShort (s.res1 k + 3 * e / 16)
      else if k = i then toShort (s.res1 k + 5 * e / 16)
      else if right = true ∧ k = i + 1 then toShort (s.res1 k + e / 16)
      else s.res1 k := by
  unfold Lines.pixel
  simp only [← he, shr_four, Int.one_mul]
  cases left
  · cases right
    · simp only [add_res1, clear_res1, reduceIte, Bool.false_eq_true, false_and]
    · simp only [add_res1, clear_res1, reduceIte, Bool.false_eq_true, true_and, false_and]
      split_ifs <;> first | rfl | omega
  · have hi := hi rfl
    cases right
    all_goals
      simp only [add_res1, clear_res1, reduceIte, Bool.false_eq_true, true_and, false_and]
      split_ifs <;> first | rfl | omega

@[simp] theorem clear_written (s : Lines) (k : Nat) :
    (s.clear k).written = s.written ++ [(k, 0)] := rfl

/-- The log of an addition is the entry as it is then. -/
@[simp] theorem add_written (s : Lines) (k : Nat) (v : Int) :
    (s.add k v).written = s.written ++ [(k, (s.add k v).res1 k)] := by
  rw [add_res1, if_pos rfl]
  rfl

/-- The entries of the row below that the copy adds to. -/
def neighbours (i : Nat) (left right : Bool) : List Nat :=
  (if left then [i - 1] else []) ++ i :: if right then [i + 1] else []

/-- A pixel clears its own entry and adds once to each neighbour. -/
theorem pixel_written (hi : left = true → 0 < i) :
    (s.pixel quant data i left right).written = s.written ++ (i, 0) ::
      (neighbours i left right).map fun k => (k, (s.pixel quant data i left right).res1 k) := by
  unfold Lines.pixel neighbours
  cases left
  · cases right <;> simp [add_res1]
  · have hi := hi rfl
    have h0 : i - 1 ≠ i := by omega
    have h1 : i - 1 ≠ i + 1 := by omega
    cases right <;> simp [add_res1, h0, h1]

theorem mem_neighbours {k : Nat} :
    k ∈ neighbours i left right ↔ left = true ∧ k = i - 1 ∨ k = i ∨ right = true ∧ k = i + 1 := by
  unfold neighbours
  cases left <;> cases right <;> simp

theorem mem_pixel_self (hi : left = true → 0 < i) :
    (i, 0) ∈ (s.pixel quant data i left right).written := by
  rw [pixel_written hi]
  simp

theorem mem_pixel_right (hi : left = true → 0 < i) (hright : right = true) :
    ∃ y ∈ (s.pixel quant data i left right).written, y.1 = i + 1 := by
  refine ⟨(i + 1, (s.pixel quant data i left right).res1 (i + 1)), ?_, rfl⟩
  rw [pixel_written hi]
  refine List.mem_append.2 (.inr (List.mem_cons_of_mem _ (List.mem_map.2 ⟨i + 1, ?_, rfl⟩)))
  exact mem_neighbours.2 (.inr (.inr ⟨hright, rfl⟩))

/-- The indices of a line buffer of `n` entries. -/
theorem pixel_index {n : Nat} (hs : ∀ x ∈ s.written, x.1 < n) (hi : i < n)
    (hleft : left = true → 0 < i) (hright : right = true → i + 1 < n) :
    ∀ x ∈ (s.pixel quant data i left right).written, x.1 < n := by
  intro x hx
  rw [pixel_written hleft, List.mem_append, List.mem_cons, List.mem_map] at hx
  rcases hx with hx | rfl | ⟨k, hk, rfl⟩
  · exact hs x hx
  · exact hi
  · rcases mem_neighbours.1 hk with ⟨-, rfl⟩ | rfl | ⟨hr, rfl⟩
    · show i - 1 < n
      omega
    · exact hi
    · exact hright hr

theorem pixel_carried : (s.pixel quant data i left right).carried =
    s.carried ++ [(s.pixel quant data i left right).v0] := by
  cases left <;> cases right <;> rfl

end Pixel

section Step
variable {quant : Int → BitVec 32} {x : Nat} {s : Lines}

/-- The clipped value of pixel `x`, from the entries that it reads. -/
theorem clip_eq_level (hclip : Q.clip = clip) (hv : s.v0 = Diffusion.carry Q src R x)
    (h0 : s.res0 x = R x) : clip (src x + s.res0 x + s.v0) = Diffusion.level Q src R x := by
  rw [hv, h0, ← hclip]
  rfl

/-- Its error, for a quantiser that the code computes there. -/
theorem err_eq (hclip : Q.clip = clip) (hv : s.v0 = Diffusion.carry Q src R x)
    (h0 : s.res0 x = R x)
    (hquant : (quant (Diffusion.level Q src R x)).toInt = Q.shown (Diffusion.level Q src R x)) :
    Diffusion.err Q src R x = clip (src x + s.res0 x + s.v0) -
      (quant (clip (src x + s.res0 x + s.v0))).toInt := by
  rw [clip_eq_level hclip hv h0, hquant]
  rfl

/-- One entry of the row below, after pixel `x`. -/
theorem pixel_received {k : Nat} {right : Bool}
    (he : Diffusion.err Q src R x = clip (src x + s.res0 x + s.v0) -
      (quant (clip (src x + s.res0 x + s.v0))).toInt)
    (h1 : s.res1 k = Diffusion.received (Diffusion.err Q src R) w x k)
    (hright : k = x + 1 → right = decide (x + 1 < w))
    (hshort : -32768 ≤ Diffusion.received (Diffusion.err Q src R) w (x + 1) k ∧
      Diffusion.received (Diffusion.err Q src R) w (x + 1) k ≤ 32767) :
    (s.pixel quant (src x) x (0 < x) right).res1 k =
      Diffusion.received (Diffusion.err Q src R) w (x + 1) k := by
  rw [Diffusion.received_succ] at hshort ⊢
  rw [pixel_res1 (by simp) he, h1]
  unfold Diffusion.share at hshort ⊢
  simp only [decide_eq_true_eq]
  by_cases hk : k = x + 1
  · rw [hright hk] at *
    simp only [decide_eq_true_eq]
    split_ifs at hshort ⊢
    all_goals
      first
        | omega
        | rw [toShort_of_le (by omega)]
          omega
  · split_ifs at hshort ⊢
    all_goals
      first
        | omega
        | rw [toShort_of_le (by omega)]
          omega

/-- One pixel, for a quantiser that the code computes there and residuals that a `short` holds. -/
theorem at_pixel (hs : s.At Q src R w x) (hclip : Q.clip = clip)
    (hquant : (quant (Diffusion.level Q src R x)).toInt = Q.shown (Diffusion.level Q src R x))
    (hshort : ∀ k, -32768 ≤ Diffusion.received (Diffusion.err Q src R) w (x + 1) k ∧
      Diffusion.received (Diffusion.err Q src R) w (x + 1) k ≤ 32767) :
    (s.pixel quant (src x) x (0 < x) (x + 1 < w)).gTemp = Diffusion.level Q src R x ∧
      (s.pixel quant (src x) x (0 < x) (x + 1 < w)).At Q src R w (x + 1) := by
  have h0 : s.res0 x = R x := by rw [hs.res0, if_neg (by omega)]
  have herr := err_eq hclip hs.v0 h0 hquant
  refine ⟨pixel_gTemp.trans (clip_eq_level hclip hs.v0 h0), ?_, ?_, ?_⟩
  · rw [pixel_v0, ← herr, Diffusion.carry_succ]
  · intro k
    rw [pixel_res0, hs.res0]
    split_ifs <;> first | rfl | omega
  · intro k
    exact pixel_received herr (hs.res1 k) (fun _ => rfl) (hshort k)

/-- After the pixels before `x`, the entries before `w`. -/
structure Lines.Upto (Q : Diffusion.Quantiser) (src R : Nat → Int) (w x : Nat) (s : Lines) :
    Prop where
  v0 : s.v0 = Diffusion.carry Q src R x
  res0 : ∀ k, k < w → s.res0 k = if k < x then 0 else R k
  res1 : ∀ k, k < w → s.res1 k = Diffusion.received (Diffusion.err Q src R) w x k

theorem upto_zero (hv : s.v0 = 0) (h0 : ∀ k, k < w → s.res0 k = R k)
    (h1 : ∀ k, k < w → s.res1 k = 0) : s.Upto Q src R w 0 where
  v0 := hv
  res0 k hk := by rw [if_neg (by omega), h0 k hk]
  res1 k hk := by rw [h1 k hk, Diffusion.received_zero]

/-- One pixel of a copy that always has the line for `res1[i+1]`. -/
theorem upto_pixel (hs : s.Upto Q src R w x) (hx : x < w) (hclip : Q.clip = clip)
    (hquant : (quant (Diffusion.level Q src R x)).toInt = Q.shown (Diffusion.level Q src R x))
    (hshort : ∀ k, -32768 ≤ Diffusion.received (Diffusion.err Q src R) w (x + 1) k ∧
      Diffusion.received (Diffusion.err Q src R) w (x + 1) k ≤ 32767) :
    (s.pixel quant (src x) x (0 < x) true).gTemp = Diffusion.level Q src R x ∧
      (s.pixel quant (src x) x (0 < x) true).Upto Q src R w (x + 1) := by
  have h0 : s.res0 x = R x := by rw [hs.res0 x hx, if_neg (by omega)]
  have herr := err_eq hclip hs.v0 h0 hquant
  refine ⟨pixel_gTemp.trans (clip_eq_level hclip hs.v0 h0), ?_, ?_, ?_⟩
  · rw [pixel_v0, ← herr, Diffusion.carry_succ]
  · intro k hk
    rw [pixel_res0, hs.res0 k hk]
    split_ifs <;> first | rfl | omega
  · intro k hk
    refine pixel_received herr (hs.res1 k hk) ?_ (hshort k)
    rintro rfl
    exact (decide_eq_true hk).symm

/-- What was stored and carried are shares added up without a bound, for the entries before `n`. -/
structure Lines.Exact (Q : Diffusion.Quantiser) (src R : Nat → Int) (w n : Nat) (s : Lines) :
    Prop where
  written : ∀ x ∈ s.written, x.1 < n → x.2 = 0 ∨
    ∃ i, x.2 = Diffusion.received (Diffusion.err Q src R) w i x.1
  carried : ∀ v ∈ s.carried, ∃ i, v = Diffusion.carry Q src R i

theorem exact_pixel {n i : Nat} {data : Int} {left right : Bool} (hs : s.Exact Q src R w n)
    (hleft : left = true → 0 < x)
    (hv : (s.pixel quant data x left right).v0 = Diffusion.carry Q src R i)
    (h1 : ∀ k, k < n → (s.pixel quant data x left right).res1 k =
      Diffusion.received (Diffusion.err Q src R) w i k) :
    (s.pixel quant data x left right).Exact Q src R w n := by
  constructor
  · intro y hy hlt
    rw [pixel_written hleft, List.mem_append, List.mem_cons, List.mem_map] at hy
    rcases hy with hy | rfl | ⟨k, _, rfl⟩
    · exact hs.written y hy hlt
    · exact .inl rfl
    · exact .inr ⟨i, h1 k hlt⟩
  · intro v hmem
    rw [pixel_carried, List.mem_append, List.mem_singleton] at hmem
    rcases hmem with hmem | rfl
    · exact hs.carried v hmem
    · exact ⟨i, hv⟩

end Step

end Row

end Dither

end EinkHwc
