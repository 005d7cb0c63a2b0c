import EinkHwc.Dither.Row2
import EinkHwc.Colour.Filter

/-!
# The dither to black and white stays bounded

White is shown as 240, and values are clipped from above only: the errors are signed, and the
shares are rounded down. The bounds feed on one another: residuals in `[-63, 69]` keep the carried
error in `[-49, 55]`, so that a value is in `[-112, 379]` and an error in `[-112, 127]`, and three
shares of such errors are a residual in `[-63, 69]` again.

* `two`, `err_two`, `residual_two`: the bounds of the plain definition.
* `two_pixel`: a pixel of `Luma8bit_to_4bit_row_2` has the plain value and the plain error.
* `Pass.Logs`: what the rows keep is one value and one error for each pixel, and one byte for each
  pair.
* `rows_bounds`: every sequence of rows.
-/

namespace EinkHwc

open Mem

namespace Dither

/-- Black and white: 240 is shown from the threshold on. -/
def two : Diffusion.Quantiser where
  clip := clip
  shown g := if 0x80 ≤ g then 240 else 0

/-! ## Bounds of the plain definition -/

/-- The entries that a source byte and the bounds of a residual allow. -/
def InBand (R : Nat → Int) : Prop := ∀ x, -63 ≤ R x ∧ R x ≤ 69

section Bounds
variable {p R : Nat → Int} (hp : ∀ x, 0 ≤ p x ∧ p x ≤ 255) (hR : InBand R)
include hp hR

/-- The error of a pixel whose neighbour's share is in `[-49, 55]`. -/
private theorem err_of_carry {x : Nat}
    (hc : -49 ≤ Diffusion.carry two p R x ∧ Diffusion.carry two p R x ≤ 55) :
    -112 ≤ Diffusion.err two p R x ∧ Diffusion.err two p R x ≤ 127 := by
  have hpx := hp x
  have hRx := hR x
  unfold Diffusion.err Diffusion.level Diffusion.value
  show -112 ≤ clip _ - (if 0x80 ≤ clip _ then 240 else 0) ∧
    clip _ - (if 0x80 ≤ clip _ then 240 else 0) ≤ 127
  unfold clip
  split <;> split <;> omega

theorem carry_two (x : Nat) : -49 ≤ Diffusion.carry two p R x ∧ Diffusion.carry two p R x ≤ 55 := by
  induction x with
  | zero =>
    rw [Diffusion.carry_zero]
    decide
  | succ x ih =>
    have he := err_of_carry hp hR ih
    rw [Diffusion.carry_succ]
    omega

theorem err_two (x : Nat) : -112 ≤ Diffusion.err two p R x ∧ Diffusion.err two p R x ≤ 127 :=
  err_of_carry hp hR (carry_two hp hR x)

theorem value_two (x : Nat) :
    -112 ≤ Diffusion.value two p R x ∧ Diffusion.value two p R x ≤ 379 := by
  have hpx := hp x
  have hRx := hR x
  have hc := carry_two hp hR x
  unfold Diffusion.value
  omega

theorem received_two (w x : Nat) : InBand (Diffusion.received (Diffusion.err two p R) w x) :=
  fun k => Diffusion.received_bounds _ w (by decide) (by decide) (err_two hp hR) x k

end Bounds

theorem residual_two {w : Nat} {src : Nat → Nat → Int}
    (hsrc : ∀ y x, 0 ≤ src y x ∧ src y x ≤ 255) (y : Nat) :
    InBand (Diffusion.residual two w src y) := by
  induction y with
  | zero =>
    intro k
    show -63 ≤ (0 : Int) ∧ (0 : Int) ≤ 69
    decide
  | succ y ih => exact received_two (hsrc y) ih w w

/-! ## A pixel -/

theorem quant2_toInt (g : Int) : (quant2 0x80 g).toInt = two.shown g := by
  unfold quant2
  show _ = if 0x80 ≤ g then (240 : Int) else 0
  split <;> decide

/-- A byte of black and white nibbles. -/
theorem nibble2_byte (g h : Int) (x : Nat) :
    nibble ((nibble2 0x80 g <<< 4 ||| nibble2 0x80 h).setWidth 8) x = 0x0 ∨
      nibble ((nibble2 0x80 g <<< 4 ||| nibble2 0x80 h).setWidth 8) x = 0xf := by
  unfold nibble nibble2
  split <;> split <;> split <;> decide

/-- The two source bytes of a `short`, as the code extracts them. -/
theorem short_toInt (img : Int → BitVec 8) (a : Int) :
    ((load16 img a).signExtend 32 &&& 0xff#32).toInt = (img a).toNat ∧
    (((load16 img a).signExtend 32 &&& 0x0000ff00#32).sshiftRight 8).toInt =
      (img (a + 1)).toNat := by
  have h0 := (img a).isLt
  have h1 := (img (a + 1)).isLt
  have hword : (load16 img a).toNat = (img a).toNat + (img (a + 1)).toNat * 2 ^ 8 := by
    unfold load16
    rw [toNat_append]
  -- The sign reaches only the bits from 16 on.
  have hfield (k : Nat) (hk : k = 0 ∨ k = 8) :
      field ((load16 img a).signExtend 32).toNat k 8 = field (load16 img a).toNat k 8 := by
    unfold field
    rw [BitVec.toNat_signExtend, BitVec.toNat_setWidth, hword]
    split <;> rcases hk with rfl | rfl <;> omega
  have hm : (0xff#32).toNat = (2 ^ 8 - 1) * 2 ^ 0 := by decide
  refine ⟨toInt_of_byte ?_, toInt_of_byte ?_⟩
  · rw [BitVec.toNat_and, hm, and_field, hfield 0 (.inl rfl), hword]
    unfold field
    omega
  · rw [toNat_and_sshiftRight (n := 8) (by decide) (by decide), hfield 8 (.inr rfl), hword]
    unfold field
    omega

/-- A pixel: its value, its error, and the line buffers after it. -/
theorem two_pixel {p R : Nat → Int} (hp : ∀ x, 0 ≤ p x ∧ p x ≤ 255) (hR : InBand R) {w x : Nat}
    {s : Lines} (hs : s.Upto two p R w x ∧ s.Exact two p R w w) (hx : x < w) {data : Int}
    (hdata : data = p x) {left : Bool} (hleft : left = decide (0 < x)) :
    data + s.res0 x + s.v0 = Diffusion.value two p R x ∧
    (s.pixel (quant2 0x80) data x left true).gTemp -
      (quant2 0x80 (s.pixel (quant2 0x80) data x left true).gTemp).toInt =
        Diffusion.err two p R x ∧
    (s.pixel (quant2 0x80) data x left true).Upto two p R w (x + 1) ∧
    (s.pixel (quant2 0x80) data x left true).Exact two p R w w := by
  subst hdata hleft
  obtain ⟨hs, hexact⟩ := hs
  obtain ⟨hg, hupto⟩ := upto_pixel hs hx rfl (quant2_toInt _) fun k => by
    have h := received_two hp hR w (x + 1) k
    omega
  refine ⟨?_, ?_, hupto, exact_pixel hexact of_decide_eq_true hupto.v0 hupto.res1⟩
  · rw [hs.v0, hs.res0 x hx, if_neg (by omega)]
    rfl
  · rw [hg, quant2_toInt]
    rfl

/-! ## A row -/

section Row
variable (p R : Nat → Int) (w : Nat) (a d : Int)

/-- The row after `n` steps, with its source at `a` and its target at `d`. -/
structure Row2.At (n : Nat) (r : Row2) : Prop where
  lines : r.lines.Upto two p R w (2 * n)
  exact : r.lines.Exact two p R w w
  src : r.src = a + 2 * n
  dst : r.dst = d + n
  values : r.values = (List.range (2 * n)).map (Diffusion.value two p R)
  errors : r.errors = (List.range (2 * n)).map (Diffusion.err two p R)
  bytes : r.out.map Prod.fst = (List.range n).map fun k : Nat => d + k
  out : ∀ s ∈ r.out, ∀ x, nibble s.2 x = 0x0 ∨ nibble s.2 x = 0xf

variable {p R w a d}

theorem at_zero2 {res0 res1 : Nat → Int} (h0 : ∀ k, k < w → res0 k = R k)
    (h1 : ∀ k, k < w → res1 k = 0) :
    Row2.At p R w a d 0 { lines := { res0 := res0, res1 := res1 }, src := a, dst := d } := by
  refine ⟨upto_zero rfl h0 h1, ⟨?_, ?_⟩, by simp, by simp, rfl, rfl, rfl, ?_⟩
  all_goals
    intro x hx
    cases hx

/-- The entries of the pixels before `2 * n`, and those of two more. -/
theorem map_range_two (f : Nat → Int) (n : Nat) :
    (List.range (2 * (n + 1))).map f =
      (List.range (2 * n)).map f ++ [f (2 * n), f (2 * n + 1)] := by
  rw [show 2 * (n + 1) = 2 * n + 1 + 1 from rfl, List.range_succ, List.range_succ, List.map_append,
    List.map_append, List.append_assoc]
  rfl

variable {img : Int → BitVec 8} (himg : ∀ x : Nat, p x = (img (a + x)).toNat)
include himg

theorem src_bounds (x : Nat) : 0 ≤ p x ∧ p x ≤ 255 := by
  have hbyte := (img (a + x)).isLt
  rw [himg]
  omega

/-- The source bytes that step `n` extracts. -/
theorem short_data (n : Nat) :
    ((load16 img (a + 2 * n)).signExtend 32 &&& 0xff#32).toInt = p (2 * n) ∧
      (((load16 img (a + 2 * n)).signExtend 32 &&& 0x0000ff00#32).sshiftRight 8).toInt =
        p (2 * n + 1) := by
  obtain ⟨h0, h1⟩ := short_toInt img (a + 2 * n)
  rw [h0, h1, himg, himg]
  push_cast
  exact ⟨rfl, by rw [Int.add_assoc]⟩

variable (hR : InBand R)
include hR

theorem at_block2 {n : Nat} {r : Row2} (hr : r.At p R w a d n) (hn : 2 * n + 2 ≤ w) :
    (block2 img 0x80 (2 * n) r).At p R w a d (n + 1) := by
  have hp := src_bounds himg
  obtain ⟨hdata0, hdata1⟩ := short_data himg n
  rw [← hr.src] at hdata0 hdata1
  have hleft : decide (2 * n ≠ 0) = decide (0 < 2 * n) := decide_eq_decide.2 (by omega)
  obtain ⟨hv0, he0, hs0⟩ := two_pixel hp hR ⟨hr.lines, hr.exact⟩ (by omega) hdata0 hleft
  obtain ⟨hv1, he1, hs1, hexact⟩ := two_pixel hp hR hs0 (by omega) hdata1
    (decide_eq_true (Nat.succ_pos _)).symm
  refine ⟨hs1, hexact, ?_, ?_, ?_, ?_, ?_, ?_⟩
  · show r.src + 2 = _
    rw [hr.src]
    push_cast
    omega
  · show r.dst + 1 = _
    rw [hr.dst]
    push_cast
    omega
  · rw [map_range_two, ← hr.values, ← hv0, ← hv1]
    rfl
  · rw [map_range_two, ← hr.errors, ← he0, ← he1]
    rfl
  · rw [List.range_succ, List.map_append, ← hr.bytes, List.map_singleton, ← hr.dst]
    exact List.map_append
  · intro s hs
    rcases List.mem_append.1 hs with hs | hs
    · exact hr.out s hs
    · obtain rfl := List.mem_singleton.1 hs
      exact nibble2_byte _ _

/-- A whole row of an even width. -/
theorem at_row2 {W : Int} (hW : W % 2 = 0) {res0 res1 : Nat → Int}
    (h0 : ∀ k, k < W.toNat → res0 k = R k) (h1 : ∀ k, k < W.toNat → res1 k = 0) :
    (luma8bitTo4bitRow2 img a d res0 res1 W 0x80).At p R W.toNat a d (W / 2).toNat := by
  unfold luma8bitTo4bitRow2
  rw [steps2 hW]
  exact fold_rule (I := Row2.At p R W.toNat a d) (at_zero2 h0 h1) fun n r hn hr =>
    at_block2 himg hR hr (by omega)

end Row

/-! ## Sequences of rows -/

/-- The gray bytes of the row at address `addr y`. -/
def rowAt (img : Int → BitVec 8) (addr : Nat → Int × Int) (y x : Nat) : Int :=
  (img ((addr y).1 + x)).toNat

/-- What the rows kept: one value and one error for each pixel, one byte for each pair. -/
structure Pass.Logs (img : Int → BitVec 8) (w : Nat) (addr : Nat → Int × Int) (n : Nat)
    (p : Pass) : Prop where
  values : p.values = (List.range n).flatMap fun y => (List.range w).map
    (Diffusion.value two (rowAt img addr y) (Diffusion.residual two w (rowAt img addr) y))
  errors : p.errors = (List.range n).flatMap fun y => (List.range w).map
    (Diffusion.err two (rowAt img addr y) (Diffusion.residual two w (rowAt img addr) y))
  bytes : p.out.map Prod.fst = (List.range n).flatMap fun y =>
    (List.range (w / 2)).map fun k : Nat => (addr y).2 + k

/-- A stored entry is a sum of shares of one of the first `n` rows, without a wrap. -/
def Unwrapped2 (img : Int → BitVec 8) (w : Nat) (addr : Nat → Int × Int) (n : Nat)
    (x : Nat × Int) : Prop :=
  x.2 = 0 ∨ ∃ y i, y < n ∧ x.2 = Diffusion.received (Diffusion.err two (rowAt img addr y)
    (Diffusion.residual two w (rowAt img addr) y)) w i x.1

section Rows
variable (img : Int → BitVec 8) (w : Int) (b : Bool) (addr : Nat → Int × Int)

theorem rowAt_bounds (y x : Nat) : 0 ≤ rowAt img addr y x ∧ rowAt img addr y x ≤ 255 :=
  src_bounds (p := rowAt img addr y) (fun _ => rfl) x

/-- After `n` rows: the buffer of row `n` holds its residuals, and the other one is zero, before
column `w`. -/
structure Pass.At (n : Nat) (p : Pass) : Prop where
  residuals : ∀ k, k < w.toNat → p.lineBuffer (b ^^ decide (n % 2 = 1)) k =
    Diffusion.residual two w.toNat (rowAt img addr) n k
  zero : ∀ k, k < w.toNat → p.lineBuffer (!(b ^^ decide (n % 2 = 1))) k = 0
  written : ∀ x ∈ p.written, (x.1 : Int) < w → Unwrapped2 img w.toNat addr n x
  logs : p.Logs img w.toNat addr n
  out : ∀ s ∈ p.out, ∀ x, nibble s.2 x = 0x0 ∨ nibble s.2 x = 0xf

variable {img w b addr}

theorem swap_succ (n : Nat) :
    (b ^^ decide ((n + 1) % 2 = 1)) = !(b ^^ decide (n % 2 = 1)) := by
  by_cases hn : n % 2 = 1
  · rw [decide_eq_true hn, decide_eq_false (by omega)]
    cases b <;> rfl
  · rw [decide_eq_false hn, decide_eq_true (by omega)]
    cases b <;> rfl

theorem row_lineBuffer (src dst : Int) (p : Pass) (c : Bool) (k : Nat) :
    (p.row img w 0x80 b src dst).lineBuffer c k = if c = b
      then (luma8bitTo4bitRow2 img src dst (p.lineBuffer b) (p.lineBuffer !b) w 0x80).lines.res0 k
      else (luma8bitTo4bitRow2 img src dst (p.lineBuffer b) (p.lineBuffer !b) w 0x80).lines.res1
        k := by
  by_cases hc : c = b <;> simp [Pass.row, hc]

theorem row_at (hw : w % 2 = 0) {n : Nat} {p : Pass} (hp : p.At img w b addr n) :
    (p.row img w 0x80 (b ^^ decide (n % 2 = 1)) (addr n).1 (addr n).2).At img w b addr (n + 1) := by
  have hR := residual_two (w := w.toNat) (rowAt_bounds img addr) n
  have hsteps : 2 * (w / 2).toNat = w.toNat := by omega
  have hhalf : (w / 2).toNat = w.toNat / 2 := by omega
  have himg (x : Nat) : rowAt img addr n x = (img ((addr n).1 + x)).toNat := rfl
  have hrow := at_row2 (d := (addr n).2) himg hR hw hp.residuals hp.zero
  obtain ⟨hlines, hexact, -, -, hvalues, herrors, hbytes, hout⟩ := hrow
  rw [hsteps] at hlines hvalues herrors
  rw [hhalf] at hbytes
  refine ⟨?_, ?_, ?_, ⟨?_, ?_, ?_⟩, ?_⟩
  · intro k hk
    rw [swap_succ, row_lineBuffer, if_neg (by simp)]
    exact hlines.res1 k hk
  · intro k hk
    rw [swap_succ, Bool.not_not, row_lineBuffer, if_pos rfl, hlines.res0 k hk, if_pos hk]
  · intro x hx hlt
    rcases List.mem_append.1 hx with hx | hx
    · rcases hp.written x hx hlt with h0 | ⟨y, i, hy, hi⟩
      · exact .inl h0
      · exact .inr ⟨y, i, by omega, hi⟩
    · rcases hexact.written x hx (by omega) with h0 | ⟨i, hi⟩
      · exact .inl h0
      · exact .inr ⟨n, i, by omega, hi⟩
  · rw [List.range_succ, List.flatMap_append, ← hp.logs.values, List.flatMap_singleton, ← hvalues]
    rfl
  · rw [List.range_succ, List.flatMap_append, ← hp.logs.errors, List.flatMap_singleton, ← herrors]
    rfl
  · rw [List.range_succ, List.flatMap_append, ← hp.logs.bytes, List.flatMap_singleton, ← hbytes]
    exact List.map_append
  · intro s hs
    rcases List.mem_append.1 hs with hs | hs
    · exact hp.out s hs
    · exact hout s hs

theorem rows_at (hw : w % 2 = 0) (n : Nat) :
    (rows img w 0x80 b addr n {}).At img w b addr n := by
  refine fold_rule ⟨fun k _ => rfl, fun k _ => rfl, ?_, ⟨rfl, rfl, rfl⟩, ?_⟩
    fun _ _ _ h => row_at hw h
  all_goals
    intro x hx
    cases hx

theorem unwrapped2_bounds {W n : Nat} {x : Nat × Int} (hx : Unwrapped2 img W addr n x) :
    -63 ≤ x.2 ∧ x.2 ≤ 69 := by
  rcases hx with h0 | ⟨y, i, -, hi⟩
  · omega
  · rw [hi]
    exact received_two (rowAt_bounds img addr y) (residual_two (rowAt_bounds img addr) y) W i x.1

end Rows

/-- Every sequence of rows, from line buffers of zeros. -/
theorem rows_bounds (img : Int → BitVec 8) (w : Int) (hw : w % 2 = 0) (b : Bool)
    (addr : Nat → Int × Int) (n : Nat) :
    (rows img w 0x80 b addr n {}).Logs img w.toNat addr n ∧
    (∀ v ∈ (rows img w 0x80 b addr n {}).values, -112 ≤ v ∧ v ≤ 379) ∧
    (∀ e ∈ (rows img w 0x80 b addr n {}).errors, -112 ≤ e ∧ e ≤ 127) ∧
    (∀ x ∈ (rows img w 0x80 b addr n {}).written, (x.1 : Int) < w →
      Unwrapped2 img w.toNat addr n x ∧ -63 ≤ x.2 ∧ x.2 ≤ 69) ∧
    (∀ c, ∀ k : Nat, (k : Int) < w → -63 ≤ (rows img w 0x80 b addr n {}).lineBuffer c k ∧
      (rows img w 0x80 b addr n {}).lineBuffer c k ≤ 69) ∧
    ∀ s ∈ (rows img w 0x80 b addr n {}).out, ∀ x, nibble s.2 x = 0x0 ∨ nibble s.2 x = 0xf := by
  have hat : (rows img w 0x80 b addr n {}).At img w b addr n := rows_at hw n
  have hR (y : Nat) := residual_two (w := w.toNat) (rowAt_bounds img addr) y
  refine ⟨hat.logs, ?_, ?_, ?_, ?_, hat.out⟩
  · intro v hv
    rw [hat.logs.values] at hv
    obtain ⟨y, -, hv⟩ := List.mem_flatMap.1 hv
    obtain ⟨x, -, rfl⟩ := List.mem_map.1 hv
    exact value_two (rowAt_bounds img addr y) (hR y) x
  · intro e he
    rw [hat.logs.errors] at he
    obtain ⟨y, -, he⟩ := List.mem_flatMap.1 he
    obtain ⟨x, -, rfl⟩ := List.mem_map.1 he
    exact err_two (rowAt_bounds img addr y) (hR y) x
  · exact fun x hx hlt => ⟨hat.written x hx hlt, unwrapped2_bounds (hat.written x hx hlt)⟩
  · intro c k hk
    have hkw : k < w.toNat := by omega
    by_cases hc : c = (b ^^ decide (n % 2 = 1))
    · rw [hc, hat.residuals k hkw]
      exact hR n k
    · rw [Bool.eq_not_of_ne hc, hat.zero k hkw]
      decide

theorem rows_bounds_4x2 :
    (rows (BitVec.ofInt 8 <| 29 * ·) 4 0x80 false (fun y => (4 * y, 2 * y)) 2 {}).Logs
      (BitVec.ofInt 8 <| 29 * ·) 4 (fun y => (4 * y, 2 * y)) 2 ∧
    (∀ v ∈ (rows (BitVec.ofInt 8 <| 29 * ·) 4 0x80 false (fun y => (4 * y, 2 * y)) 2 {}).values,
      -112 ≤ v ∧ v ≤ 379) ∧
    ∀ c, ∀ k : Nat, (k : Int) < 4 →
      -63 ≤ (rows (BitVec.ofInt 8 <| 29 * ·) 4 0x80 false (fun y => (4 * y, 2 * y)) 2 {}).lineBuffer
        c k ∧
      (rows (BitVec.ofInt 8 <| 29 * ·) 4 0x80 false (fun y => (4 * y, 2 * y)) 2 {}).lineBuffer
        c k ≤ 69 := by
  obtain ⟨hlogs, hvalues, -, -, hbuffers, -⟩ := rows_bounds (BitVec.ofInt 8 <| 29 * ·) 4 (by decide)
    false (fun y => (4 * y, 2 * y)) 2
  exact ⟨hlogs, hvalues, hbuffers⟩

end Dither

end EinkHwc
