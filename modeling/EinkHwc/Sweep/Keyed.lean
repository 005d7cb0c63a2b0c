import Mathlib.Order.Lattice
import Mathlib.Tactic.Tauto

/-!
# Ordered sets

`std::set` and `std::map` as lists in increasing order. The comparison `lt` need not tell elements
apart: two elements that are not ordered count as the same key, and an insertion of a key that is
there leaves the set alone. The lemmas take the key as a function into a linear order (`Respects`).

* `insert`, `find?`, `erase`, `modify`, each with its members.
* `foldl_rule`: the invariant rule of a loop over a set.
* `Sorted`: the order of the list; every operation keeps it.
-/

namespace Keyed

variable {τ κ : Type} (lt : τ → τ → Bool)

def insert (x : τ) : List τ → List τ
  | [] => [x]
  | y :: ys => if lt x y then x :: y :: ys else if lt y x then y :: insert x ys else y :: ys

/-- The element with the key of `x`. -/
def find? (x : τ) (s : List τ) : Option τ := s.find? fun y => !lt x y && !lt y x

/-- Without the element with the key of `x`. -/
def erase (x : τ) (s : List τ) : List τ := s.filter fun y => lt x y || lt y x

/-- The element with the key of `x`, changed by `f`. -/
def modify (x : τ) (f : τ → τ) (s : List τ) : List τ :=
  s.map fun y => if !lt x y && !lt y x then f y else y

variable [LinearOrder κ] (key : τ → κ)

/-- The comparison is that of the keys. -/
def Respects : Prop := ∀ a b, lt a b = true ↔ key a < key b

def Sorted (s : List τ) : Prop := s.Pairwise fun a b => key a < key b

variable {lt key} {x y : τ} {s : List τ}

theorem mem_insert (h : Respects lt key) (hs : Sorted key s) :
    y ∈ insert lt x s ↔ y ∈ s ∨ (y = x ∧ ∀ z ∈ s, key z ≠ key x) := by
  induction s with
  | nil => simp [insert]
  | cons a s ih =>
    obtain ⟨ha, hs⟩ := List.pairwise_cons.1 hs
    unfold insert
    by_cases hxa : key x < key a
    · have hne (z : τ) (hz : z ∈ a :: s) : key z ≠ key x := by
        rcases List.mem_cons.1 hz with rfl | hz
        · exact hxa.ne'
        · exact (hxa.trans (ha z hz)).ne'
      rw [if_pos ((h x a).2 hxa), List.mem_cons]
      constructor
      · rintro (rfl | hy)
        · exact .inr ⟨rfl, hne⟩
        · exact .inl hy
      · rintro (hy | ⟨rfl, -⟩)
        · exact .inr hy
        · exact .inl rfl
    · rw [if_neg fun hc => hxa ((h x a).1 hc)]
      by_cases hax : key a < key x
      · rw [if_pos ((h a x).2 hax), List.mem_cons, List.mem_cons, ih hs, List.forall_mem_cons]
        have hne : key a ≠ key x := hax.ne
        tauto
      · have heq : key a = key x := le_antisymm (not_lt.1 hxa) (not_lt.1 hax)
        rw [if_neg fun hc => hax ((h a x).1 hc), List.forall_mem_cons]
        tauto

theorem sorted_insert (h : Respects lt key) (hs : Sorted key s) : Sorted key (insert lt x s) := by
  induction s with
  | nil => exact List.pairwise_singleton ..
  | cons a s ih =>
    have hs' := hs
    obtain ⟨ha, hs⟩ := List.pairwise_cons.1 hs
    unfold insert
    split
    · rename_i hxa
      rw [h] at hxa
      refine List.pairwise_cons.2 ⟨fun z hz => ?_, hs'⟩
      rcases List.mem_cons.1 hz with rfl | hz
      · exact hxa
      · exact hxa.trans (ha z hz)
    split
    · rename_i hax
      rw [h] at hax
      refine List.pairwise_cons.2 ⟨fun z hz => ?_, ih hs⟩
      rcases (mem_insert h hs).1 hz with hz | ⟨rfl, -⟩
      · exact ha z hz
      · exact hax
    · exact hs'

/-- An insertion of a new key. -/
theorem mem_insert_of_new (h : Respects lt key) (hs : Sorted key s)
    (hx : ∀ z ∈ s, key z ≠ key x) : y ∈ insert lt x s ↔ y ∈ s ∨ y = x := by
  rw [mem_insert h hs, and_iff_left hx]

theorem sorted_erase (hs : Sorted key s) : Sorted key (erase lt x s) := hs.filter _

theorem mem_erase (h : Respects lt key) : y ∈ erase lt x s ↔ y ∈ s ∧ key y ≠ key x := by
  unfold erase
  rw [List.mem_filter, Bool.or_eq_true, h, h]
  exact and_congr_right fun _ => ⟨fun hlt => hlt.elim (fun h => h.ne') (fun h => h.ne),
    fun hne => (lt_or_gt_of_ne hne).symm⟩

/-- Elements of a set are told apart by their keys. -/
theorem Sorted.eq_of_key (hs : Sorted key s) (hx : x ∈ s) (hy : y ∈ s) (h : key x = key y) :
    x = y := by
  induction s with
  | nil => cases hx
  | cons a s ih =>
    obtain ⟨ha, hs⟩ := List.pairwise_cons.1 hs
    rcases List.mem_cons.1 hx with rfl | hxs <;> rcases List.mem_cons.1 hy with rfl | hys
    · rfl
    · exact absurd h (ha y hys).ne
    · exact absurd h (ha x hxs).ne'
    · exact ih hs hxs hys

/-- An element parts a set into those below it and those above it. -/
theorem Sorted.parts {past rest : List τ} (hs : Sorted key s) (h : s = past ++ x :: rest) :
    (∀ y ∈ past, key y < key x) ∧ ∀ y ∈ rest, key x < key y := by
  unfold Sorted at hs
  rw [h] at hs
  obtain ⟨-, hrest, hpast⟩ := List.pairwise_append.1 hs
  exact ⟨fun y hy => hpast y hy x List.mem_cons_self, (List.pairwise_cons.1 hrest).1⟩

/-- Two elements that are not ordered have the same key. -/
theorem equiv_iff (h : Respects lt key) : (!lt x y && !lt y x) = true ↔ key y = key x := by
  rw [Bool.and_eq_true, Bool.not_eq_true', Bool.not_eq_true', ← Bool.not_eq_true,
    ← Bool.not_eq_true, h, h]
  exact ⟨fun hn => le_antisymm (not_lt.1 hn.1) (not_lt.1 hn.2),
    fun he => ⟨he.symm ▸ lt_irrefl _, he ▸ lt_irrefl _⟩⟩

theorem find?_eq_some (h : Respects lt key) (hs : Sorted key s) :
    find? lt x s = some y ↔ y ∈ s ∧ key y = key x := by
  have hkey (z : τ) (hz : find? lt x s = some z) : z ∈ s ∧ key z = key x :=
    ⟨List.mem_of_find?_eq_some hz,
      (equiv_iff h).1 (List.find?_some (p := fun z => !lt x z && !lt z x) hz)⟩
  refine ⟨hkey y, fun ⟨hy, he⟩ => ?_⟩
  cases hf : find? lt x s with
  | none => exact absurd ((equiv_iff h).2 he) (List.find?_eq_none.1 hf y hy)
  | some z =>
    obtain ⟨hz, hzx⟩ := hkey z hf
    rw [hs.eq_of_key hz hy (hzx.trans he.symm)]

theorem find?_eq_none (h : Respects lt key) (hs : Sorted key s) :
    find? lt x s = none ↔ ∀ z ∈ s, key z ≠ key x := by
  constructor
  · intro hf z hz he
    rw [(find?_eq_some h hs).2 ⟨hz, he⟩] at hf
    cases hf
  · intro hne
    cases hf : find? lt x s with
    | none => rfl
    | some z =>
      obtain ⟨hz, he⟩ := (find?_eq_some h hs).1 hf
      exact absurd he (hne z hz)

/-- A loop over a set: an invariant of the elements that it has passed. -/
theorem foldl_rule {σ : Type} {f : σ → τ → σ} {a : σ} {I : List τ → σ → Prop} (h0 : I [] a)
    (hstep : ∀ ps x qs b, s = ps ++ x :: qs → I ps b → I (ps ++ [x]) (f b x)) :
    I s (s.foldl f a) := by
  have hgen (qs ps : List τ) (b : σ) (hs : s = ps ++ qs) (hb : I ps b) : I s (qs.foldl f b) := by
    induction qs generalizing ps b with
    | nil =>
      rw [List.append_nil] at hs
      rw [hs]
      exact hb
    | cons x qs ih =>
      exact ih (ps ++ [x]) (f b x) (by rw [hs, List.append_assoc]; rfl) (hstep ps x qs b hs hb)
  exact hgen s [] a rfl h0

end Keyed
