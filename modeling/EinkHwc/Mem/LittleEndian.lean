import Mathlib.Data.Nat.Digits.Defs

/-!
# Little-endian words in a list of bytes

* `toNat`, `bytes`: a number and its first bytes; each undoes the other on lists of that length.
* `word`, `ofWord`: the same for words of `k` bytes.
* `words`: consecutive words. `words_flatMap` and `flatMap_words` are the round trips, and
  `exists_append_iff` says which lists start with a given number of them.
-/

namespace LittleEndian

/-- The number of a list of bytes. -/
def toNat (bs : List (BitVec 8)) : Nat := Nat.ofDigits 256 (bs.map BitVec.toNat)

/-- The first `n` bytes of a number. -/
def bytes : Nat → Nat → List (BitVec 8)
  | 0, _ => []
  | n + 1, x => BitVec.ofNat 8 x :: bytes n (x / 256)

@[simp] theorem toNat_nil : toNat [] = 0 := rfl

@[simp] theorem toNat_cons (b : BitVec 8) (bs : List (BitVec 8)) :
    toNat (b :: bs) = b.toNat + 256 * toNat bs := rfl

@[simp] theorem length_bytes (n x : Nat) : (bytes n x).length = n := by
  induction n generalizing x with
  | zero => rfl
  | succ n ih => rw [bytes, List.length_cons, ih]

theorem toNat_lt (bs : List (BitVec 8)) : toNat bs < 256 ^ bs.length := by
  unfold toNat
  rw [← bs.length_map (f := BitVec.toNat)]
  refine Nat.ofDigits_lt_base_pow_length (by decide) fun x hx => ?_
  obtain ⟨b, -, rfl⟩ := List.mem_map.1 hx
  exact b.isLt

theorem toNat_bytes {n x : Nat} (h : x < 256 ^ n) : toNat (bytes n x) = x := by
  induction n generalizing x with
  | zero => exact (Nat.lt_one_iff.1 h).symm
  | succ n ih =>
    have hdiv : x / 256 < 256 ^ n := Nat.div_lt_of_lt_mul (by rwa [Nat.pow_succ'] at h)
    rw [bytes, toNat_cons, ih hdiv, BitVec.toNat_ofNat]
    omega

theorem bytes_toNat (bs : List (BitVec 8)) : bytes bs.length (toNat bs) = bs := by
  induction bs with
  | nil => rfl
  | cons b bs ih =>
    have hb := b.isLt
    have hdiv : (b.toNat + 256 * toNat bs) / 256 = toNat bs := by omega
    have hhead : BitVec.ofNat 8 (b.toNat + 256 * toNat bs) = b := by
      apply BitVec.eq_of_toNat_eq
      rw [BitVec.toNat_ofNat]
      omega
    rw [List.length_cons, toNat_cons, bytes, hdiv, hhead, ih]

section Words
variable {k w n : Nat} {bs rest : List (BitVec 8)}

/-- The word of a list of bytes. -/
def word (w : Nat) (bs : List (BitVec 8)) : BitVec w := BitVec.ofNat w (toNat bs)

/-- The `k` bytes of a word. -/
def ofWord (k : Nat) (x : BitVec w) : List (BitVec 8) := bytes k x.toNat

/-- The first `n` words of `k` bytes. -/
def words (w k : Nat) : Nat → List (BitVec 8) → List (BitVec w)
  | 0, _ => []
  | n + 1, bs => word w (bs.take k) :: words w k n (bs.drop k)

@[simp] theorem length_ofWord (x : BitVec w) : (ofWord k x).length = k := length_bytes k x.toNat

@[simp] theorem length_words : (words w k n bs).length = n := by
  induction n generalizing bs with
  | zero => rfl
  | succ n ih => rw [words, List.length_cons, ih]

theorem pow_byte (h : w = 8 * k) : 2 ^ w = 256 ^ k := by
  rw [h, Nat.pow_mul]

theorem word_ofWord (h : w = 8 * k) (x : BitVec w) : word w (ofWord k x) = x := by
  unfold word ofWord
  rw [toNat_bytes (pow_byte h ▸ x.isLt), BitVec.ofNat_toNat, BitVec.setWidth_eq]

theorem ofWord_word (h : w = 8 * k) (hk : bs.length = k) : ofWord k (word w bs) = bs := by
  have hlt : toNat bs < 2 ^ w := by
    rw [pow_byte h, ← hk]
    exact toNat_lt bs
  unfold word ofWord
  rw [BitVec.toNat_ofNat, Nat.mod_eq_of_lt hlt, ← hk, bytes_toNat]

theorem words_flatMap (h : w = 8 * k) (vs : List (BitVec w)) (rest : List (BitVec 8)) :
    words w k vs.length (vs.flatMap (ofWord k) ++ rest) = vs := by
  induction vs with
  | nil => rfl
  | cons v vs ih =>
    have hlen : (ofWord k v).length = k := length_ofWord v
    rw [List.length_cons, List.flatMap_cons, List.append_assoc, words, List.take_left' hlen,
      List.drop_left' hlen, ih, word_ofWord h]

theorem words_take : words w k n (bs.take (k * n)) = words w k n bs := by
  induction n generalizing bs with
  | zero => rfl
  | succ n ih =>
    have hmin : min k (k * n + k) = k := Nat.min_eq_left (Nat.le_add_left _ _)
    have hsub : k * n + k - k = k * n := Nat.add_sub_cancel _ _
    rw [words, words, Nat.mul_succ, List.take_take, hmin, List.drop_take, hsub, ih]

theorem flatMap_words (h : w = 8 * k) (hn : k * n ≤ bs.length) :
    (words w k n bs).flatMap (ofWord k) = bs.take (k * n) := by
  induction n generalizing bs with
  | zero => rfl
  | succ n ih =>
    rw [Nat.mul_succ] at hn
    have htake : (bs.take k).length = k := by
      rw [List.length_take]
      omega
    have hdrop : k * n ≤ (bs.drop k).length := by
      rw [List.length_drop]
      omega
    rw [words, List.flatMap_cons, ofWord_word h htake, ih hdrop, Nat.mul_succ, Nat.add_comm,
      List.take_add]

theorem length_flatMap_ofWord (vs : List (BitVec w)) :
    (vs.flatMap (ofWord k)).length = k * vs.length := by
  induction vs with
  | nil => rfl
  | cons v vs ih =>
    rw [List.flatMap_cons, List.length_append, length_ofWord, ih, List.length_cons, Nat.mul_succ,
      Nat.add_comm]

/-- The lists that start with the words `vs`. -/
theorem exists_append_iff (h : w = 8 * k) (vs : List (BitVec w)) :
    (∃ rest, bs = vs.flatMap (ofWord k) ++ rest) ↔
      k * vs.length ≤ bs.length ∧ words w k vs.length bs = vs := by
  constructor
  · rintro ⟨rest, rfl⟩
    refine ⟨?_, words_flatMap h vs rest⟩
    rw [List.length_append, length_flatMap_ofWord]
    exact Nat.le_add_right _ _
  · rintro ⟨hlen, hvs⟩
    refine ⟨bs.drop (k * vs.length), ?_⟩
    have hflat := flatMap_words h hlen
    rw [hvs] at hflat
    rw [hflat, List.take_append_drop]

end Words

end LittleEndian
