import Mathlib.Data.List.Induction

/-!
# A setting behind a cache

A writer keeps the value that it has written last and writes no value twice in a row. A write may be
refused; then neither the cache nor the device changes. The device has what `f` makes of a value.

* `write`: one value, and whether the device takes it.
* `accepted`, `last`: the values that the device takes, and the last one of them.
* `foldl_write`: after any values the cache is the last one accepted. So is the device, but only
  once a value other than the cache's initial one has been accepted: until then it is as it was.
-/

namespace Cached

variable {κ δ : Type}

structure Cache (κ δ : Type) where
  cur : κ
  dev : δ

/-- The value `v` is to be set; `ok` says whether a write of it is accepted. -/
def Cache.write [DecidableEq κ] (f : κ → δ) (c : Cache κ δ) (x : κ × Bool) : Cache κ δ :=
  if x.1 ≠ c.cur ∧ x.2 = true then ⟨x.1, f x.1⟩ else c

/-- The values whose write is accepted, if there is one. -/
def accepted (xs : List (κ × Bool)) : List κ := (xs.filter Prod.snd).map Prod.fst

/-- The last value accepted, or the initial one. -/
def last (z : κ) (xs : List (κ × Bool)) : κ := (accepted xs).getLast?.getD z

/-- What the device has in the end. -/
def value [DecidableEq κ] (f : κ → δ) (z : κ) (d : δ) (xs : List (κ × Bool)) : δ :=
  if ∃ v ∈ accepted xs, v ≠ z then f (last z xs) else d

variable {f : κ → δ} {z v : κ} {d : δ} {xs : List (κ × Bool)}

theorem accepted_concat_true : accepted (xs ++ [(v, true)]) = accepted xs ++ [v] := by
  simp [accepted]

theorem accepted_concat_false : accepted (xs ++ [(v, false)]) = accepted xs := by
  simp [accepted]

theorem last_concat_true : last z (xs ++ [(v, true)]) = v := by
  unfold last
  rw [accepted_concat_true, List.getLast?_concat]
  rfl

theorem last_cases (z : κ) (xs : List (κ × Bool)) : last z xs = z ∨ last z xs ∈ accepted xs := by
  unfold last
  cases hl : (accepted xs).getLast? with
  | none => exact .inl rfl
  | some v => exact .inr (List.mem_of_getLast? hl)

theorem last_mem (h : last z xs ≠ z) : last z xs ∈ accepted xs := (last_cases z xs).resolve_left h

variable [DecidableEq κ]

theorem foldl_write : xs.foldl (Cache.write f) ⟨z, d⟩ = ⟨last z xs, value f z d xs⟩ := by
  induction xs using List.reverseRecOn with
  | nil => rfl
  | append_singleton xs x ih =>
    obtain ⟨v, ok⟩ := x
    rw [List.foldl_append, ih, List.foldl_cons, List.foldl_nil]
    unfold Cache.write
    cases ok with
    | false =>
      rw [if_neg (by simp)]
      unfold value last
      rw [accepted_concat_false]
    | true =>
      unfold value
      rw [last_concat_true, accepted_concat_true]
      by_cases hv : v = last z xs
      · -- The same value again: nothing is written.
        rw [if_neg (by simp [hv])]
        have hiff : (∃ u ∈ accepted xs ++ [v], u ≠ z) ↔ ∃ u ∈ accepted xs, u ≠ z := by
          constructor
          · rintro ⟨u, hu, hne⟩
            rcases List.mem_append.1 hu with hu | hu
            · exact ⟨u, hu, hne⟩
            · obtain rfl := List.mem_singleton.1 hu
              exact ⟨u, by rw [hv]; exact last_mem (hv ▸ hne), hne⟩
          · rintro ⟨u, hu, hne⟩
            exact ⟨u, List.mem_append_left _ hu, hne⟩
        simp only [hiff, ← hv]
      · have hex : ∃ u ∈ accepted xs ++ [v], u ≠ z := by
          by_cases hz : v = z
          · have hlast : last z xs ≠ z := fun h => hv (hz.trans h.symm)
            exact ⟨_, List.mem_append_left _ (last_mem hlast), hlast⟩
          · exact ⟨v, List.mem_append_right _ (List.mem_singleton_self v), hz⟩
        rw [if_pos ⟨hv, rfl⟩, if_pos hex]

/-- One value more. -/
theorem write_last (x : κ × Bool) : (⟨last z xs, value f z d xs⟩ : Cache κ δ).write f x =
    ⟨last z (xs ++ [x]), value f z d (xs ++ [x])⟩ := by
  rw [← foldl_write, ← foldl_write, List.foldl_append]
  rfl

end Cached
