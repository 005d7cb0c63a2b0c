import EinkHwc.Mem.Stores

/-!
# Memory that may be undefined

In a `Partial` memory a byte that was never written has no value, and a strict operation on it has
none either.

* `Defined`, `Undefined`: all of the first `n` bytes are, or none of them.
* `fill`: the first `n` bytes written.
* `word`: four bytes as a little-endian word, defined if they are (`word_isSome`).
-/

namespace Mem

variable {β : Type}

/-- `none` is a byte that was never written. -/
abbrev Partial (β : Type) := Int → Option β

namespace Partial

variable (m : Partial β) (n : Int)

/-- Nothing is written yet. -/
def blank : Partial β := fun _ => none

/-- The first `n` bytes written. -/
def fill (f : Int → β) : Partial β := fun p => if 0 ≤ p ∧ p < n then some (f p) else m p

/-- The first `n` bytes are defined. -/
def Defined : Prop := ∀ p, 0 ≤ p → p < n → (m p).isSome = true

/-- None of the first `n` bytes is. -/
def Undefined : Prop := ∀ p, 0 ≤ p → p < n → m p = none

variable {m n}

theorem undefined_blank : (blank : Partial β).Undefined n := fun _ _ _ => rfl

theorem defined_fill (f : Int → β) : (m.fill n f).Defined n := by
  intro p h0 hp
  unfold fill
  rw [if_pos ⟨h0, hp⟩]
  rfl

/-! ## Words -/

/-- The word `i` of a byte memory. -/
def word (m : Partial (BitVec 8)) (i : Int) : Option (BitVec 32) := do
  let b0 ← m (4 * i)
  let b1 ← m (4 * i + 1)
  let b2 ← m (4 * i + 2)
  let b3 ← m (4 * i + 3)
  return b3 ++ b2 ++ b1 ++ b0

theorem word_isSome {m : Partial (BitVec 8)} {i : Int} : (m.word i).isSome = true ↔
    (m (4 * i)).isSome = true ∧ (m (4 * i + 1)).isSome = true ∧
      (m (4 * i + 2)).isSome = true ∧ (m (4 * i + 3)).isSome = true := by
  unfold word
  cases m (4 * i) <;> cases m (4 * i + 1) <;> cases m (4 * i + 2) <;> cases m (4 * i + 3) <;> simp

theorem defined_word {m : Partial (BitVec 8)} (h : m.Defined (4 * n)) : Defined m.word n := by
  intro i h0 hi
  exact word_isSome.2 ⟨h _ (by omega) (by omega), h _ (by omega) (by omega),
    h _ (by omega) (by omega), h _ (by omega) (by omega)⟩

theorem undefined_word {m : Partial (BitVec 8)} (h : m.Undefined (4 * n)) :
    Undefined m.word n := by
  intro i h0 hi
  refine Option.not_isSome_iff_eq_none.1 fun hs => ?_
  have h1 := (word_isSome.1 hs).1
  rw [h _ (by omega) (by omega)] at h1
  cases h1

end Partial

end Mem
