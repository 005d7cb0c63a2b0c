import Mathlib.Data.Nat.Bitwise

/-!
# Bit fields of a word

Masks, shifts and disjoint unions as arithmetic, so that `omega` closes what is left.

* `and_field`: a mask selects one field, `x / 2^k % 2^n`.
* `or_field`: fields that do not meet are joined by addition.
* `toNat_and_sshiftRight`: the usual extraction of a field with a mask and a shift.
* `load16`/`load32`/`store32`: little-endian words of a byte memory, as sums of their bytes.
-/

namespace Mem

/-- The `n` bits of `x` from bit `k` on. -/
def field (x k n : Nat) : Nat := x / 2 ^ k % 2 ^ n

theorem field_lt (x k n : Nat) : field x k n < 2 ^ n := Nat.mod_lt _ (Nat.two_pow_pos n)

theorem and_field (x k n : Nat) : x &&& (2 ^ n - 1) * 2 ^ k = field x k n * 2 ^ k := by
  apply Nat.eq_of_testBit_eq
  intro i
  unfold field
  rw [Nat.testBit_and, Nat.testBit_mul_two_pow, Nat.testBit_mul_two_pow, Nat.testBit_mod_two_pow,
    Nat.testBit_div_two_pow, Nat.testBit_two_pow_sub_one]
  by_cases hi : k ≤ i
  · simp [hi, Bool.and_comm]
  · simp [hi]

theorem or_field {a k : Nat} (b : Nat) (ha : a < 2 ^ k) : a ||| b * 2 ^ k = a + b * 2 ^ k := by
  rw [Nat.lor_comm, Nat.mul_comm, ← Nat.two_pow_add_eq_or_of_lt ha, Nat.add_comm]

theorem toNat_append {v w : Nat} (x : BitVec v) (y : BitVec w) :
    (x ++ y).toNat = y.toNat + x.toNat * 2 ^ w := by
  rw [BitVec.toNat_append, Nat.shiftLeft_eq, Nat.lor_comm, or_field _ y.isLt]

/-- An arithmetic shift of a non-negative word. -/
theorem toNat_sshiftRight {w : Nat} {x : BitVec w} (k : Nat) (hx : 2 * x.toNat < 2 ^ w) :
    (x.sshiftRight k).toNat = x.toNat / 2 ^ k := by
  rw [BitVec.sshiftRight_eq_of_msb_false (BitVec.msb_eq_false_iff_two_mul_lt.2 hx),
    BitVec.toNat_ushiftRight, Nat.shiftRight_eq_div_pow]

/-- `(x & mask) >> k` in a signed word, for a mask of `n` bits from bit `k` on. -/
theorem toNat_and_sshiftRight {w k n : Nat} {x mask : BitVec w}
    (hm : mask.toNat = (2 ^ n - 1) * 2 ^ k) (hw : k + n < w) :
    ((x &&& mask).sshiftRight k).toNat = field x.toNat k n := by
  have hf := field_lt x.toNat k n
  have hand : (x &&& mask).toNat = field x.toNat k n * 2 ^ k := by
    rw [BitVec.toNat_and, hm, and_field]
  rw [toNat_sshiftRight, hand, Nat.mul_div_cancel _ (Nat.two_pow_pos k)]
  calc 2 * (x &&& mask).toNat
      = field x.toNat k n * 2 ^ (k + 1) := by rw [hand, pow_succ, Nat.mul_comm 2, Nat.mul_assoc]
    _ < 2 ^ n * 2 ^ (k + 1) := Nat.mul_lt_mul_of_pos_right hf (Nat.two_pow_pos _)
    _ = 2 ^ (k + n + 1) := by rw [← pow_add]; congr 1; omega
    _ ≤ 2 ^ w := Nat.pow_le_pow_right (by decide) hw

/-- A word that is a byte is not negative. -/
theorem toInt_of_byte {x : BitVec 32} {b : BitVec 8} (h : x.toNat = b.toNat) :
    x.toInt = b.toNat := by
  have hb := b.isLt
  rw [BitVec.toInt_eq_toNat_of_lt (by omega), h]

/-! ## Words of a byte memory -/

variable (m : Int → BitVec 8) (a : Int)

/-- The 16-bit word at byte `a`. -/
def load16 : BitVec 16 := m (a + 1) ++ m a

/-- The 32-bit word at byte `a`. -/
def load32 : BitVec 32 := m (a + 3) ++ m (a + 2) ++ m (a + 1) ++ m a

/-- The bytes of a 32-bit store to byte `a`. -/
def store32 (a : Int) (x : BitVec 32) : List (Int × BitVec 8) :=
  [(a, x.setWidth 8), (a + 1, (x >>> 8).setWidth 8), (a + 2, (x >>> 16).setWidth 8),
    (a + 3, (x >>> 24).setWidth 8)]

theorem load32_toNat : (load32 m a).toNat =
    (m a).toNat + (m (a + 1)).toNat * 2 ^ 8 + (m (a + 2)).toNat * 2 ^ 16 +
      (m (a + 3)).toNat * 2 ^ 24 := by
  unfold load32
  rw [toNat_append, toNat_append, toNat_append]
  omega

/-- Byte `k` of a word. -/
theorem load32_byte (k : Nat) (hk : k < 4) :
    field (load32 m a).toNat (8 * k) 8 = (m (a + k)).toNat := by
  have h0 := (m a).isLt
  have h1 := (m (a + 1)).isLt
  have h2 := (m (a + 2)).isLt
  have h3 := (m (a + 3)).isLt
  unfold field
  rw [load32_toNat]
  obtain rfl | rfl | rfl | rfl : k = 0 ∨ k = 1 ∨ k = 2 ∨ k = 3 := by omega
  · rw [Int.natCast_zero, Int.add_zero]
    omega
  all_goals
    push_cast
    omega

theorem store32_eq (a : Int) (x : BitVec 32) :
    store32 a x = (List.range 4).map fun k : Nat => (a + k, (x >>> (8 * k)).setWidth 8) := by
  unfold store32
  simp [List.range_succ]

theorem byte_toNat (x : BitVec 32) (k : Nat) :
    ((x >>> (8 * k)).setWidth 8).toNat = field x.toNat (8 * k) 8 := by
  unfold field
  rw [BitVec.toNat_setWidth, BitVec.toNat_ushiftRight, Nat.shiftRight_eq_div_pow]

end Mem
