import EinkHwc.Gralloc.Metadata

/-!
# The decoder of the plane descriptors

A list of descriptors is its length and then its values, each eight bytes (`Encodes`).
`decodeArmPlaneFds` reads the length without a look at the size of the vector, and then copies as
many values as the length says.

* `decodeArmPlaneFds_eq`: the decoder in closed form.
* `encodes_iff`: the vectors that hold a given list.
* `decodes_iff`: the decoder is right exactly where the vector has the bytes that it reads.
-/

namespace EinkHwc

namespace Gralloc4

open LittleEndian

/-- The vector holds the count of `vs`, which is a non-negative `int64_t`, and the values. -/
def Encodes (input : HidlVec) (vs : List (BitVec 64)) : Prop :=
  vs.length < 2 ^ 63 ∧ ∃ rest,
    input.data = ofWord 8 (BitVec.ofNat 64 vs.length) ++ (vs.flatMap (ofWord 8) ++ rest)

/-- The query for the descriptors reads nothing outside of the reply `input`; it gives the list that
is there, and `BAD_VALUE` if there is none. -/
structure Decodes (input : HidlVec) : Prop where
  inside : getMetadata decodeArmPlaneFds (some input) ≠ .error .outOfRange
  value : ∀ vs, getMetadata decodeArmPlaneFds (some input) = .ok (.ok vs) ↔ Encodes input vs
  other : (∀ vs, ¬ Encodes input vs) →
    getMetadata decodeArmPlaneFds (some input) = .ok (.error BAD_VALUE)

/-- The first eight bytes. -/
def HidlVec.count (input : HidlVec) : BitVec 64 := word 64 (input.data.take 8)

variable {input : HidlVec} {vs : List (BitVec 64)}

/-- No vector of 2^32 bytes at most has a count that `resize` refuses, or whose size in bytes
wraps. -/
theorem decodeArmPlaneFds_eq (input : HidlVec) : decodeArmPlaneFds input =
    if input.data.length < 8 then .error .outOfRange
    else if input.count.toInt < 0 then .ok (.error BAD_VALUE)
    else if maxSize < input.count.toNat then .error .lengthError
    else if 8 + 8 * input.count.toNat ≤ input.data.length then
      .ok (.ok (words 64 8 input.count.toNat (input.data.drop 8)))
    else .error .outOfRange := by
  unfold decodeArmPlaneFds
  by_cases hshort : input.data.length < 8
  · have hread : memcpy input 0 8 = .error .outOfRange := if_neg (by omega)
    rw [if_pos hshort, hread]
    rfl
  have hread : memcpy input 0 8 = .ok (input.data.take 8) := if_pos (by omega)
  rw [if_neg hshort, hread]
  show (if input.count.toInt < 0 then .ok (.error BAD_VALUE)
    else if maxSize < input.count.toNat then .error .lengthError
    else (memcpy input 8 (8 * input.count.toNat % 2 ^ 64)).bind fun tmp =>
      .ok (.ok (words 64 8 input.count.toNat tmp)) :
    Except Fault (Except Failure (List (BitVec 64)))) = _
  split
  · rfl
  split
  · rfl
  · rename_i hmax
    have hbytes : 8 * input.count.toNat % 2 ^ 64 = 8 * input.count.toNat := by
      unfold maxSize at hmax
      omega
    rw [hbytes]
    by_cases hcopy : 8 + 8 * input.count.toNat ≤ input.data.length
    · have hcopied : memcpy input 8 (8 * input.count.toNat) =
          .ok ((input.data.drop 8).take (8 * input.count.toNat)) := if_pos hcopy
      rw [if_pos hcopy, hcopied, ← words_take]
      rfl
    · have hcopied : memcpy input 8 (8 * input.count.toNat) = .error .outOfRange := if_neg hcopy
      rw [if_neg hcopy, hcopied]
      rfl

theorem toNat_lt_of_nonneg {x : BitVec 64} (h : 0 ≤ x.toInt) : x.toNat < 2 ^ 63 := by
  rw [BitVec.toInt_eq_toNat_cond] at h
  split at h <;> omega

/-- The vectors that hold a list: the count is its length, and the values are there. -/
theorem encodes_iff : Encodes input vs ↔ 8 ≤ input.data.length ∧ 0 ≤ input.count.toInt ∧
    input.count.toNat = vs.length ∧ 8 + 8 * vs.length ≤ input.data.length ∧
    words 64 8 vs.length (input.data.drop 8) = vs := by
  unfold Encodes HidlVec.count
  constructor
  · rintro ⟨hlen, rest, hdata⟩
    have hofWord : (ofWord 8 (BitVec.ofNat 64 vs.length)).length = 8 := length_ofWord _
    have hsize : input.data.length = 8 + (8 * vs.length + rest.length) := by
      rw [hdata, List.length_append, List.length_append, hofWord, length_flatMap_ofWord]
    have hnat : (BitVec.ofNat 64 vs.length).toNat = vs.length := by
      rw [BitVec.toNat_ofNat]
      omega
    have hint : (BitVec.ofNat 64 vs.length).toInt = vs.length := by
      rw [BitVec.toInt_eq_toNat_of_lt (by omega), hnat]
    rw [hsize, hdata, List.take_left' hofWord, List.drop_left' hofWord, word_ofWord (by decide),
      words_flatMap (by decide), hnat, hint]
    exact ⟨by omega, by omega, rfl, by omega, rfl⟩
  · rintro ⟨h8, hpos, hcount, hlen, hvs⟩
    obtain ⟨rest, hrest⟩ := (exists_append_iff (by decide) vs).2 ⟨by
      rw [List.length_drop]
      omega, hvs⟩
    refine ⟨hcount ▸ toNat_lt_of_nonneg hpos, rest, ?_⟩
    have htake : (input.data.take 8).length = 8 := by
      rw [List.length_take]
      omega
    rw [← hrest, ← hcount, BitVec.ofNat_toNat, BitVec.setWidth_eq,
      ofWord_word (by decide) htake, List.take_append_drop]

/-- The decoder is right where the eight bytes of the count are there, and either it is negative or
its values are there as well. -/
theorem decodes_iff (input : HidlVec) : Decodes input ↔ 8 ≤ input.data.length ∧
    (input.count.toInt < 0 ∨ 8 + 8 * input.count.toNat ≤ input.data.length) := by
  have hlt := input.size_lt
  have heq : getMetadata decodeArmPlaneFds (some input) = decodeArmPlaneFds input := rfl
  rw [decodeArmPlaneFds_eq] at heq
  constructor
  · intro h
    have hinside := h.inside
    rw [heq] at hinside
    have h8 : 8 ≤ input.data.length := by
      refine not_lt.1 fun hshort => hinside ?_
      rw [if_pos hshort]
    refine ⟨h8, or_iff_not_imp_left.2 fun hneg => not_lt.1 fun hbeyond => ?_⟩
    have hnone (vs : List (BitVec 64)) : ¬ Encodes input vs := fun h => by
      obtain ⟨-, -, hcount, hlen, -⟩ := encodes_iff.1 h
      omega
    have hother := h.other hnone
    rw [heq, if_neg (not_lt.2 h8), if_neg hneg, if_neg (not_le.2 hbeyond)] at hother
    split at hother <;> cases hother
  · rintro ⟨h8, hcount⟩
    rw [if_neg (by omega)] at heq
    by_cases hneg : input.count.toInt < 0
    · have hnone (vs : List (BitVec 64)) : ¬ Encodes input vs := fun h =>
        absurd hneg (not_lt_of_ge (encodes_iff.1 h).2.1)
      rw [if_pos hneg] at heq
      refine ⟨?_, fun vs => ⟨fun h => ?_, fun h => absurd h (hnone vs)⟩, fun _ => heq⟩
      · rw [heq]
        nofun
      · rw [heq] at h
        cases h
    · have hle := hcount.resolve_left hneg
      have hmax : ¬ maxSize < input.count.toNat := by
        unfold maxSize
        omega
      have hencodes : Encodes input (words 64 8 input.count.toNat (input.data.drop 8)) :=
        encodes_iff.2 ⟨h8, not_lt.1 hneg, length_words.symm, by rw [length_words]; exact hle,
          by rw [length_words]⟩
      rw [if_neg hneg, if_neg hmax, if_pos hle] at heq
      refine ⟨?_, fun vs => ⟨fun h => ?_, fun h => ?_⟩, fun h => absurd hencodes (h _)⟩
      · rw [heq]
        nofun
      · rw [heq] at h
        cases h
        exact hencodes
      · obtain ⟨-, -, hlen, -, hvs⟩ := encodes_iff.1 h
        rw [heq, hlen, hvs]

example : getMetadata decodeArmPlaneFds
    (some ⟨[1, 0, 0, 0, 0, 0, 0, 0, 7, 1, 0, 0, 0, 0, 0, 0, 9], by decide⟩) =
    .ok (.ok [0x107]) := rfl

/-- A count of one, and no value. -/
def oneMissing : HidlVec := ⟨[1, 0, 0, 0, 0, 0, 0, 0], by decide⟩

/-- The copy leaves the reply. -/
theorem decodes_oneMissing :
    getMetadata decodeArmPlaneFds (some oneMissing) = .error .outOfRange ∧
      ¬ Decodes oneMissing := by
  have hread : getMetadata decodeArmPlaneFds (some oneMissing) = .error .outOfRange := rfl
  exact ⟨hread, fun h => h.inside hread⟩

end Gralloc4

end EinkHwc
