import Mathlib.Order.Lattice

/-!
# Maximal runs along a list of times

`R t k` says that the key `k` is seen at time `t`. Over a list of times, newest first, the run of a
key is open while the key is seen at each time, and closes at the first time without it.

* `opened`: the start of the run of `k` that is still open.
* `Closed`: the run of `k` from `l` is closed at `r`.
* `closed_or_opened`: whenever a key is seen, one of its runs is on; `Closed.unique`: only one.
* `closed_congr`: runs by another relation on other keys.
-/

namespace Sweep

variable {τ κ : Type} (R : τ → κ → Prop) [∀ t k, Decidable (R t k)]

/-- The start of the open run of `k`. -/
def opened : List τ → κ → Option τ
  | [], _ => none
  | t :: ts, k => if R t k then some ((opened ts k).getD t) else none

/-- The run of `k` from `l` is closed at `r`. -/
def Closed : List τ → κ → τ → τ → Prop
  | [], _, _, _ => False
  | t :: ts, k, l, r => Closed ts k l r ∨ (r = t ∧ ¬ R t k ∧ opened R ts k = some l)

theorem opened_cons (t : τ) (ts : List τ) (k : κ) :
    opened R (t :: ts) k = if R t k then some ((opened R ts k).getD t) else none := rfl

variable {R} {ts : List τ} {k : κ} {l r t : τ}

section Congr
variable {κ' : Type} {R' : τ → κ' → Prop} [∀ t k, Decidable (R' t k)] {k' : κ'}

theorem opened_congr (h : ∀ t ∈ ts, R t k ↔ R' t k') : opened R ts k = opened R' ts k' := by
  induction ts with
  | nil => rfl
  | cons t ts ih =>
    rw [opened_cons, opened_cons, ih fun u hu => h u (List.mem_cons_of_mem _ hu)]
    simp only [h t List.mem_cons_self]

theorem closed_congr (h : ∀ t ∈ ts, R t k ↔ R' t k') :
    Closed R ts k l r ↔ Closed R' ts k' l r := by
  induction ts with
  | nil => exact Iff.rfl
  | cons t ts ih =>
    have htl (u : τ) (hu : u ∈ ts) := h u (List.mem_cons_of_mem _ hu)
    unfold Closed
    rw [ih htl, opened_congr htl, h t List.mem_cons_self]

end Congr

variable [LinearOrder τ]

/-- An open run: the key is seen from its start on. -/
theorem opened_spec (hts : ts.Pairwise (· > ·)) (h : opened R ts k = some l) :
    l ∈ ts ∧ ∀ t ∈ ts, l ≤ t → R t k := by
  induction ts generalizing l with
  | nil => cases h
  | cons t ts ih =>
    obtain ⟨hlt, htl⟩ := List.pairwise_cons.1 hts
    unfold opened at h
    split at h
    · rename_i hR
      cases ho : opened R ts k with
      | none =>
        rw [ho, Option.getD_none, Option.some.injEq] at h
        subst h
        refine ⟨List.mem_cons_self, fun y hy hle => ?_⟩
        rcases List.mem_cons.1 hy with rfl | hy
        · exact hR
        · exact absurd hle (not_le_of_gt (hlt y hy))
      | some l' =>
        rw [ho, Option.getD_some, Option.some.injEq] at h
        subst h
        obtain ⟨hmem, hall⟩ := ih htl ho
        refine ⟨List.mem_cons_of_mem _ hmem, fun y hy hle => ?_⟩
        rcases List.mem_cons.1 hy with rfl | hy
        · exact hR
        · exact hall y hy hle
    · cases h

/-- A closed run: the key is seen at its times, and not at its end. -/
theorem Closed.spec (hts : ts.Pairwise (· > ·)) (h : Closed R ts k l r) :
    l ∈ ts ∧ r ∈ ts ∧ l < r ∧ ¬ R r k ∧ ∀ t ∈ ts, l ≤ t → t < r → R t k := by
  induction ts with
  | nil => cases h
  | cons t ts ih =>
    obtain ⟨hlt, htl⟩ := List.pairwise_cons.1 hts
    rcases h with h | ⟨rfl, hR, ho⟩
    · obtain ⟨hl, hr, hlr, hR, hall⟩ := ih htl h
      refine ⟨List.mem_cons_of_mem _ hl, List.mem_cons_of_mem _ hr, hlr, hR, fun y hy hle hyr => ?_⟩
      rcases List.mem_cons.1 hy with rfl | hy
      · exact absurd hyr (not_lt_of_gt (hlt r hr))
      · exact hall y hy hle hyr
    · obtain ⟨hl, hall⟩ := opened_spec htl ho
      refine ⟨List.mem_cons_of_mem _ hl, List.mem_cons_self, hlt l hl, hR, fun y hy hle hyr => ?_⟩
      rcases List.mem_cons.1 hy with rfl | hy
      · exact absurd hyr (lt_irrefl _)
      · exact hall y hy hle

theorem closed_or_opened (hts : ts.Pairwise (· > ·)) (ht : t ∈ ts) (hR : R t k) :
    (∃ l r, Closed R ts k l r ∧ l ≤ t ∧ t < r) ∨ ∃ l, opened R ts k = some l ∧ l ≤ t := by
  induction ts with
  | nil => cases ht
  | cons u ts ih =>
    obtain ⟨hlt, htl⟩ := List.pairwise_cons.1 hts
    rcases List.mem_cons.1 ht with rfl | ht
    · refine .inr ⟨(opened R ts k).getD t, by rw [opened_cons, if_pos hR], ?_⟩
      cases ho : opened R ts k with
      | none => exact le_refl t
      | some l => exact le_of_lt (hlt l (opened_spec htl ho).1)
    · rcases ih htl ht with ⟨l, r, hc, hle, hr⟩ | ⟨l, ho, hle⟩
      · exact .inl ⟨l, r, .inl hc, hle, hr⟩
      · by_cases hu : R u k
        · exact .inr ⟨l, by rw [opened_cons, if_pos hu, ho, Option.getD_some], hle⟩
        · exact .inl ⟨l, u, .inr ⟨rfl, hu, ho⟩, hle, hlt t ht⟩

/-- At a time of the list, at most one run of a key is on. -/
theorem Closed.unique {l' r' : τ} (hts : ts.Pairwise (· > ·)) (h : Closed R ts k l r)
    (h' : Closed R ts k l' r') (hl : l ≤ t) (hr : t < r) (hl' : l' ≤ t) (hr' : t < r') :
    l = l' ∧ r = r' := by
  induction ts with
  | nil => cases h
  | cons u ts ih =>
    obtain ⟨-, htl⟩ := List.pairwise_cons.1 hts
    rcases h with h | ⟨rfl, hu, ho⟩ <;> rcases h' with h' | ⟨rfl, hu', ho'⟩
    · exact ih htl h h'
    · obtain ⟨-, hmem, -, hR, -⟩ := h.spec htl
      exact absurd ((opened_spec htl ho').2 r hmem (hl'.trans hr.le)) hR
    · obtain ⟨-, hmem, -, hR, -⟩ := h'.spec htl
      exact absurd ((opened_spec htl ho).2 r' hmem (hl.trans hr'.le)) hR
    · rw [ho, Option.some.injEq] at ho'
      exact ⟨ho', rfl⟩

end Sweep
