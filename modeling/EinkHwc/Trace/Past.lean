/-!
# Past-time properties of traces

A trace is newest first (`Trace.System`). Two operators state what the runs of a system may and
may not do, both by recursion on the trace, so that they are decidable where their parts are.

* `Since p q tr`: an event with `p` happened, and no event with `q` after it.
* `Each P tr`: every event of the trace satisfies `P` against the trace before it.
* `collect f tr`: what the events carry, in the order in which they happened.

The rules are the `cons` equations, and how the three see a trace of which only some events are
kept (`since_filter`, `each_filter`, `filterMap_filter`, `collect_filter`) or that is projected
(`since_filterMap`, `collect_filterMap`).
-/

namespace Trace

variable {ε : Type}

/-- An event with `p` happened, and no event with `q` after it. -/
def Since (p q : ε → Prop) : List ε → Prop
  | [] => False
  | e :: tr => p e ∨ ¬ q e ∧ Since p q tr

/-- Every event satisfies `P` against the events before it. -/
def Each (P : ε → List ε → Prop) : List ε → Prop
  | [] => True
  | e :: tr => P e tr ∧ Each P tr

instance Since.decidable (p q : ε → Prop) [DecidablePred p] [DecidablePred q] :
    (tr : List ε) → Decidable (Since p q tr)
  | [] => inferInstanceAs (Decidable False)
  | e :: tr =>
    have := Since.decidable p q tr
    inferInstanceAs (Decidable (p e ∨ ¬ q e ∧ Since p q tr))

instance Each.decidable (P : ε → List ε → Prop) [∀ e tr, Decidable (P e tr)] :
    (tr : List ε) → Decidable (Each P tr)
  | [] => inferInstanceAs (Decidable True)
  | e :: tr =>
    have := Each.decidable P tr
    inferInstanceAs (Decidable (P e tr ∧ Each P tr))

variable {p q : ε → Prop} {P : ε → List ε → Prop} {e : ε} {tr es : List ε}

@[simp] theorem since_nil : ¬ Since p q [] := id

@[simp] theorem since_cons : Since p q (e :: tr) ↔ p e ∨ ¬ q e ∧ Since p q tr := Iff.rfl

@[simp] theorem each_nil : Each P [] := trivial

@[simp] theorem each_cons : Each P (e :: tr) ↔ P e tr ∧ Each P tr := Iff.rfl

/-- Events without `p` do not start it. -/
theorem since_of_append (h : ∀ e ∈ es, ¬ p e) (hs : Since p q (es ++ tr)) : Since p q tr := by
  induction es with
  | nil => exact hs
  | cons e es ih =>
    obtain ⟨hp, hes⟩ := List.forall_mem_cons.1 h
    rcases hs with hs | ⟨-, hs⟩
    · exact absurd hs hp
    · exact ih hes hs

theorem each_of_append (h : Each P (es ++ tr)) : Each P tr := by
  induction es with
  | nil => exact h
  | cons e es ih => exact ih h.2

/-! ## Collecting -/

variable {β : Type} {f : ε → Option β}

/-- What the events of the trace carry, the first one first. -/
def collect (f : ε → Option β) (tr : List ε) : List β := (tr.filterMap f).reverse

@[simp] theorem collect_nil : collect f [] = [] := rfl

@[simp] theorem collect_append : collect f (es ++ tr) = collect f tr ++ collect f es := by
  unfold collect
  rw [List.filterMap_append, List.reverse_append]

@[simp] theorem collect_cons : collect f (e :: tr) = collect f tr ++ (f e).toList := by
  unfold collect
  cases h : f e <;> simp [h]

/-! ## Kept events -/

variable {v : ε → Bool}

theorem since_filter (hp : ∀ e, v e = false → ¬ p e) (hq : ∀ e, v e = false → ¬ q e) :
    Since p q (tr.filter v) ↔ Since p q tr := by
  induction tr with
  | nil => exact Iff.rfl
  | cons e tr ih =>
    cases hv : v e with
    | true => simp [hv, ih]
    | false => simp [hv, ih, hp e hv, hq e hv]

theorem each_filter (h : ∀ e past, v e = false → P e past)
    (hpast : ∀ e past, P e (past.filter v) ↔ P e past) : Each P (tr.filter v) ↔ Each P tr := by
  induction tr with
  | nil => exact Iff.rfl
  | cons e tr ih =>
    cases hv : v e with
    | true => simp [hv, ih, hpast e tr]
    | false => simp [hv, ih, h e tr hv]

theorem filterMap_filter (h : ∀ e, v e = false → f e = none) :
    (tr.filter v).filterMap f = tr.filterMap f := by
  induction tr with
  | nil => rfl
  | cons e tr ih =>
    cases hv : v e with
    | true => simp [hv, List.filterMap_cons, ih]
    | false => simp [hv, h e hv, ih]

theorem collect_filter (h : ∀ e, v e = false → f e = none) :
    collect f (tr.filter v) = collect f tr := by
  unfold collect
  rw [filterMap_filter h]

/-! ## Projected traces -/

variable {γ : Type} {g : ε → Option γ}

theorem since_filterMap {p q : γ → Prop} : Since p q (tr.filterMap g) ↔
    Since (fun e => ∃ b, g e = some b ∧ p b) (fun e => ∃ b, g e = some b ∧ q b) tr := by
  induction tr with
  | nil => exact Iff.rfl
  | cons e tr ih =>
    cases hg : g e with
    | none => simp [hg, ih]
    | some b => simp [hg, ih]

theorem collect_filterMap {f : γ → Option β} :
    collect f (tr.filterMap g) = collect (fun e => (g e).bind f) tr := by
  unfold collect
  rw [List.filterMap_filterMap]

end Trace
