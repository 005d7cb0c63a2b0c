import Mathlib.Data.List.Induction
import Mathlib.Logic.Function.Basic

/-!
# Stores and counted loops

A routine that fills a buffer is its list of stores, in program order; the buffer afterwards is the
buffer before with the stores run. Addresses and values are of any type.

* `run`: a list of stores run on a memory. `run_of_mem` reads an address all of whose stores agree,
  `run_of_forall_ne` one without a store; `exists_run_ne_iff` says which addresses can change.
* `row_col_inj`: offsets of a frame, by row and column; `run_rows`: a frame stored row by row.
* `Covers`: stores that reach every byte of a frame.
* `fold_rule`: the invariant rule for `for (i = 0; i < n; i++)`, written as `Nat.fold`.
* `fold_log`: a loop whose body appends to a log and moves a cursor.
-/

namespace Mem

variable {ι β : Type} [DecidableEq ι] {m : ι → β} {ss ts : List (ι × β)} {p : ι} {b : β}

/-- The memory after one store. -/
def put (m : ι → β) (s : ι × β) : ι → β := Function.update m s.1 s.2

/-- The memory after the stores, the first one first. -/
def run (m : ι → β) (ss : List (ι × β)) : ι → β := ss.foldl put m

@[simp] theorem run_nil : run m ([] : List (ι × β)) = m := rfl

@[simp] theorem run_append : run m (ss ++ ts) = run (run m ss) ts := List.foldl_append ..

theorem run_concat (s : ι × β) : run m (ss ++ [s]) p = if p = s.1 then s.2 else run m ss p := by
  rw [run_append]
  show Function.update (run m ss) s.1 s.2 p = _
  rw [Function.update_apply]

theorem run_of_forall_ne (h : ∀ s ∈ ss, s.1 ≠ p) : run m ss p = m p := by
  induction ss using List.reverseRecOn with
  | nil => rfl
  | append_singleton ss s ih =>
    have hs : p ≠ s.1 := fun he => h s (by simp) he.symm
    rw [run_concat, if_neg hs]
    exact ih fun t ht => h t (by simp [ht])

/-- An address has the value that all its stores agree on. -/
theorem run_of_mem (h : (p, b) ∈ ss) (hall : ∀ s ∈ ss, s.1 = p → s.2 = b) : run m ss p = b := by
  induction ss using List.reverseRecOn with
  | nil => cases h
  | append_singleton ss s ih =>
    rw [run_concat]
    by_cases hs : p = s.1
    · rw [if_pos hs]
      exact hall s (by simp) hs.symm
    · rw [if_neg hs]
      refine ih ?_ fun t ht => hall t (by simp [ht])
      rcases List.mem_append.1 h with h | h
      · exact h
      · obtain rfl := List.mem_singleton.1 h
        exact absurd rfl hs

/-- An address with a store does not depend on the memory before. -/
theorem run_congr (m m' : ι → β) (h : ∃ s ∈ ss, s.1 = p) : run m ss p = run m' ss p := by
  induction ss using List.reverseRecOn with
  | nil =>
    obtain ⟨s, hs, _⟩ := h
    cases hs
  | append_singleton ss s ih =>
    rw [run_concat, run_concat]
    by_cases hs : p = s.1
    · rw [if_pos hs, if_pos hs]
    · rw [if_neg hs, if_neg hs]
      refine ih ?_
      obtain ⟨t, ht, rfl⟩ := h
      rcases List.mem_append.1 ht with ht | ht
      · exact ⟨t, ht, rfl⟩
      · obtain rfl := List.mem_singleton.1 ht
        exact absurd rfl hs

/-- The addresses that change, for some memory before, are those with a store. -/
theorem exists_run_ne_iff {a b : β} (hab : a ≠ b) :
    (∃ m, run m ss p ≠ m p) ↔ ∃ s ∈ ss, s.1 = p := by
  constructor
  · rintro ⟨m, hm⟩
    by_contra hnone
    exact hm (run_of_forall_ne fun s hs he => hnone ⟨s, hs, he⟩)
  · intro h
    by_cases ha : run (fun _ => a) ss p = a
    · refine ⟨fun _ => b, ?_⟩
      rw [run_congr _ (fun _ => a) h, ha]
      exact hab
    · exact ⟨fun _ => a, ha⟩

/-! ## Rows of a frame -/

theorem row_col {n a k : Int} (h0 : 0 ≤ k) (hn : k < n) : (a * n + k) / n = a := by
  rw [Int.add_comm, Int.add_mul_ediv_right _ _ (by omega), Int.ediv_eq_zero_of_lt h0 hn,
    Int.zero_add]

/-- An offset in a frame of rows of `n` has one row and one column. -/
theorem row_col_inj {n a b k l : Int} (hk : 0 ≤ k ∧ k < n) (hl : 0 ≤ l ∧ l < n)
    (h : a * n + k = b * n + l) : a = b ∧ k = l := by
  have ha : (a * n + k) / n = a := row_col hk.1 hk.2
  have hb : (b * n + l) / n = b := row_col hl.1 hl.2
  obtain rfl : a = b := by rw [← ha, h, hb]
  exact ⟨rfl, by omega⟩

/-- Stores of one byte for each row and each of the first `c` columns: an offset has one row and one
column, so that it has that byte, or the one before if its column is not stored to. -/
theorem run_rows {m : Int → β} {ss : List (Int × β)} {n c : Int} {f : Nat → Nat → β}
    (hall : ∀ s ∈ ss, ∃ y k : Nat, (k : Int) < c ∧ s = (y * n + k, f y k)) (hc : c ≤ n) {y k : Nat}
    (hk : (k : Int) < n) (hin : (k : Int) < c → ((y * n + k, f y k) : Int × β) ∈ ss) :
    run m ss (y * n + k) = if (k : Int) < c then f y k else m (y * n + k) := by
  by_cases hcol : (k : Int) < c
  · rw [if_pos hcol]
    refine run_of_mem (hin hcol) fun s hs he => ?_
    obtain ⟨y', k', hk', rfl⟩ := hall s hs
    obtain ⟨hy, hk⟩ := row_col_inj ⟨by omega, by omega⟩ ⟨by omega, by omega⟩ he
    obtain rfl : y' = y := by omega
    obtain rfl : k' = k := by omega
    rfl
  · rw [if_neg hcol]
    refine run_of_forall_ne fun s hs he => hcol ?_
    obtain ⟨y', k', hk', rfl⟩ := hall s hs
    obtain ⟨-, hk⟩ := row_col_inj ⟨by omega, by omega⟩ ⟨by omega, by omega⟩ he
    omega

/-- The offset of a column of one of `h` rows. -/
theorem offset_bounds {n h y k : Int} (hy : 0 ≤ y ∧ y < h) (hk : 0 ≤ k ∧ k < n) :
    0 ≤ y * n + k ∧ y * n + k < h * n := by
  have hpos : 0 ≤ y * n := Int.mul_nonneg hy.1 (by omega)
  have hrow : (y + 1) * n ≤ h * n := Int.mul_le_mul_of_nonneg_right (by omega) (by omega)
  rw [Int.add_mul, Int.one_mul] at hrow
  omega

/-- Every offset below `n` has a store. -/
def Covers (ss : List (Int × β)) (n : Int) : Prop := ∀ p, 0 ≤ p → p < n → ∃ s ∈ ss, s.1 = p

/-- An offset of a frame by its row and its column. -/
theorem exists_row_col {n h p : Int} (hn : 0 < n) (h0 : 0 ≤ p) (hp : p < h * n) :
    ∃ y k : Nat, (y : Int) < h ∧ (k : Int) < n ∧ p = y * n + k := by
  have hdiv : p / n * n + p % n = p := Int.ediv_mul_add_emod p n
  have hk := Int.emod_nonneg p (Int.ne_of_gt hn)
  have hkn := Int.emod_lt_of_pos p hn
  have hy := Int.ediv_nonneg h0 (Int.le_of_lt hn)
  have hyh := Int.ediv_lt_of_lt_mul hn hp
  refine ⟨(p / n).toNat, (p % n).toNat, by omega, by omega, ?_⟩
  rw [Int.toNat_of_nonneg hy, Int.toNat_of_nonneg hk, hdiv]

/-! ## Counted loops -/

variable {σ τ : Type} {n : Nat} {f : Nat → σ → σ} {s : σ}

/-- The invariant rule. -/
theorem fold_rule {I : Nat → σ → Prop} (h0 : I 0 s)
    (hstep : ∀ i s, i < n → I i s → I (i + 1) (f i s)) : I n (n.fold (fun i _ s => f i s) s) := by
  induction n with
  | zero => exact h0
  | succ n ih =>
    rw [Nat.fold_succ]
    exact hstep n _ (Nat.lt_succ_self n) (ih fun i s hi => hstep i s (Nat.lt_succ_of_lt hi))

/-- A loop that appends `g i` to the log `l`, at a cursor `q` that `c i` gives. -/
theorem fold_log {α : Type} {l : σ → List α} {q : σ → τ} {c : Nat → τ} {g : Nat → List α}
    (h0 : q s = c 0)
    (hstep : ∀ i s, i < n → q s = c i → q (f i s) = c (i + 1) ∧ l (f i s) = l s ++ g i) :
    q (n.fold (fun i _ s => f i s) s) = c n ∧
      l (n.fold (fun i _ s => f i s) s) = l s ++ (List.range n).flatMap g := by
  refine fold_rule (I := fun i s' => q s' = c i ∧ l s' = l s ++ (List.range i).flatMap g)
    ⟨h0, by simp⟩ fun i s' hi hI => ?_
  obtain ⟨hc, hl⟩ := hstep i s' hi hI.1
  refine ⟨hc, ?_⟩
  rw [hl, hI.2, List.range_succ, List.flatMap_append, List.append_assoc]
  simp

/-- A list by blocks of `m`. -/
theorem map_range_mul {α : Type} (f : Nat → α) (m n : Nat) : (List.range (m * n)).map f =
    (List.range n).flatMap fun i => (List.range m).map fun k => f (m * i + k) := by
  induction n with
  | zero => rfl
  | succ n ih =>
    rw [Nat.mul_succ, List.range_add, List.map_append, ih, List.range_succ, List.flatMap_append,
      List.map_map]
    simp [Function.comp_def]

end Mem
