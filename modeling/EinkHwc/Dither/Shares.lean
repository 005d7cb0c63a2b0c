/-!
# Equal shares

Items are dealt out in order, in shares of `q` items; the first `r` shares get one item more, as
`k * q + r` items make `k` shares.

* `share`: the share of an item; `start`: the first item of a share.
* `share_eq_iff`: a share is an interval, `start_succ` its length.
* `left`: how many of the longer shares are still to begin. A loop over the items that counts them
  down finds the share by one division (`share_of_left`, `share_of_none_left`).
-/

namespace Shares

variable {q r x g g' : Nat}

/-- The share of item `x`. -/
def share (q r x : Nat) : Nat :=
  if x < r * (q + 1) then x / (q + 1) else r + (x - r * (q + 1)) / q

/-- The first item of share `g`. -/
def start (q r g : Nat) : Nat := g * q + min g r

theorem start_zero : start q r 0 = 0 := by
  unfold start
  rw [Nat.zero_mul, Nat.zero_min]

theorem start_succ : start q r (g + 1) = start q r g + if g < r then q + 1 else q := by
  unfold start
  rw [Nat.succ_mul]
  by_cases hg : g < r
  · rw [if_pos hg]
    omega
  · rw [if_neg hg]
    omega

/-- All items, when there are `k` shares. -/
theorem start_all {k : Nat} (hr : r ≤ k) : start q r k = k * q + r := by
  unfold start
  rw [Nat.min_eq_right hr]

theorem start_mono (h : g ≤ g') : start q r g ≤ start q r g' := by
  have hmul : g * q ≤ g' * q := Nat.mul_le_mul_right q h
  unfold start
  omega

theorem share_of_lt (h : x < r * (q + 1)) : share q r x = x / (q + 1) := if_pos h

theorem share_of_le (h : r * (q + 1) ≤ x) : share q r x = r + (x - r * (q + 1)) / q :=
  if_neg (Nat.not_lt.2 h)

theorem mem_share (hq : 0 < q) :
    start q r (share q r x) ≤ x ∧ x < start q r (share q r x + 1) := by
  rw [start_succ]
  by_cases hx : x < r * (q + 1)
  · have hlt : x / (q + 1) < r := (Nat.div_lt_iff_lt_mul (Nat.succ_pos q)).2 hx
    have hdiv := Nat.div_add_mod x (q + 1)
    have hmod : x % (q + 1) < q + 1 := Nat.mod_lt x (Nat.succ_pos q)
    rw [Nat.mul_comm, Nat.mul_succ] at hdiv
    rw [share_of_lt hx, if_pos hlt]
    unfold start
    omega
  · obtain ⟨t, rfl⟩ := Nat.exists_eq_add_of_le (Nat.le_of_not_lt hx)
    have hdiv := Nat.div_add_mod t q
    have hmod := Nat.mod_lt t hq
    rw [Nat.mul_comm] at hdiv
    rw [share_of_le (Nat.le_add_right _ t), Nat.add_sub_cancel_left,
      if_neg (Nat.not_lt.2 (Nat.le_add_right r _)), Nat.mul_succ]
    unfold start
    rw [Nat.add_mul, Nat.min_eq_right (Nat.le_add_right r _)]
    omega

/-- A share is an interval. -/
theorem share_eq_iff (hq : 0 < q) :
    share q r x = g ↔ start q r g ≤ x ∧ x < start q r (g + 1) := by
  obtain ⟨hle, hlt⟩ := mem_share (r := r) (x := x) hq
  constructor
  · rintro rfl
    exact ⟨hle, hlt⟩
  · rintro ⟨hg, hg'⟩
    rcases Nat.lt_trichotomy (share q r x) g with h | h | h
    · have hmono : start q r (share q r x + 1) ≤ start q r g := start_mono h
      omega
    · exact h
    · have hmono : start q r (g + 1) ≤ start q r (share q r x) := start_mono h
      omega

theorem share_lt_iff (hq : 0 < q) : share q r x < g ↔ x < start q r g := by
  obtain ⟨hle, hlt⟩ := mem_share (r := r) (x := x) hq
  constructor
  · intro h
    exact Nat.lt_of_lt_of_le hlt (start_mono h)
  · intro h
    refine Nat.lt_of_not_le fun hge => ?_
    have hmono : start q r g ≤ start q r (share q r x) := start_mono hge
    omega

/-! ## Counting down -/

/-- The longer shares that have not begun before item `x`. -/
def left (q r x : Nat) : Nat := r - (x + q) / (q + 1)

theorem left_zero : left q r 0 = r := by
  unfold left
  rw [Nat.zero_add, Nat.div_eq_of_lt (Nat.lt_succ_self q), Nat.sub_zero]

/-- The first item of a longer share counts it. -/
theorem left_succ : left q r (x + 1) = if x % (q + 1) = 0 then left q r x - 1 else left q r x := by
  have hdiv := Nat.div_add_mod x (q + 1)
  have hmod : x % (q + 1) < q + 1 := Nat.mod_lt x (Nat.succ_pos q)
  have hnext : (x + 1 + q) / (q + 1) = x / (q + 1) + 1 := by
    rw [Nat.add_assoc, Nat.add_comm 1 q, Nat.add_div_right x (Nat.succ_pos q)]
  unfold left
  rw [hnext]
  by_cases hx : x % (q + 1) = 0
  · have hthis : (x + q) / (q + 1) = x / (q + 1) :=
      Nat.div_eq_of_lt_le (by rw [Nat.mul_comm]; omega) (by rw [Nat.succ_mul, Nat.mul_comm]; omega)
    rw [if_pos hx, hthis]
    omega
  · have hthis : (x + q) / (q + 1) = x / (q + 1) + 1 :=
      Nat.div_eq_of_lt_le (by rw [Nat.succ_mul, Nat.mul_comm]; omega)
        (by rw [Nat.succ_mul, Nat.succ_mul, Nat.mul_comm]; omega)
    rw [if_neg hx, hthis]

theorem left_pos_iff : 0 < left q r x ↔ x + q < r * (q + 1) := by
  unfold left
  rw [Nat.sub_pos_iff_lt, Nat.div_lt_iff_lt_mul (Nat.succ_pos q)]

/-- While longer shares are left, every share so far is a longer one. -/
theorem share_of_left (h : 0 < left q r x) : share q r x = x / (q + 1) :=
  share_of_lt (by have hlt := left_pos_iff.1 h; omega)

/-- From the last longer share on, an item is as far on as if all shares were short ones. -/
theorem share_of_none_left (hq : 0 < q) (h : left q r x = 0) :
    r ≤ x ∧ share q r x = (x - r) / q := by
  have hle : r * (q + 1) ≤ x + q := by
    have hpos : ¬ 0 < left q r x := by omega
    rw [left_pos_iff] at hpos
    omega
  by_cases hx : x < r * (q + 1)
  · -- Item `x` is in the last longer share.
    cases r with
    | zero => omega
    | succ s =>
      rw [Nat.mul_succ, Nat.succ_mul] at hle hx
      have hr : s + 1 ≤ x := by omega
      have hlong : x / (q + 1) = s := Nat.div_eq_of_lt_le (by rw [Nat.mul_succ]; omega)
        (by rw [Nat.mul_succ, Nat.succ_mul]; omega)
      have hshort : (x - (s + 1)) / q = s :=
        Nat.div_eq_of_lt_le (by omega) (by rw [Nat.succ_mul]; omega)
      refine ⟨hr, ?_⟩
      rw [share_of_lt (by rw [Nat.mul_succ, Nat.succ_mul]; exact hx), hlong, hshort]
  · obtain ⟨t, rfl⟩ := Nat.exists_eq_add_of_le (Nat.le_of_not_lt hx)
    have hsub : r * (q + 1) + t - r = t + r * q := by
      rw [Nat.mul_succ]
      omega
    refine ⟨Nat.le_trans (Nat.le_mul_of_pos_right r (Nat.succ_pos q)) (Nat.le_add_right _ t), ?_⟩
    rw [share_of_le (Nat.le_add_right _ t), Nat.add_sub_cancel_left, hsub,
      Nat.add_mul_div_right t r hq, Nat.add_comm]

end Shares
