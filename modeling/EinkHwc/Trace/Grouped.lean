import EinkHwc.Trace.Past
import EinkHwc.Trace.System

/-!
# Logged actions, grouped by events

A trace of `System.logged` has the actions between the events. Where some events start something
that the actions after them belong to, `grouped f tr` is the list of what was started, each with its
own actions.

* `grouped_append_inl`, `grouped_logged`: what an event and an action add.
* `grouped_fst`: without the actions it is `collect`.
-/

namespace Trace

variable {ε β κ : Type} {f : ε → Option β} {tr : List (ε ⊕ κ)} {es : List ε}

/-- The events of a trace. -/
def events (tr : List (ε ⊕ κ)) : List ε := tr.filterMap Sum.getLeft?

/-- What the events carry, the newest first, each with the actions after it, in order. -/
def groups (f : ε → Option β) : List (ε ⊕ κ) → List (β × List κ)
  | [] => []
  | .inl e :: tr => ((f e).map (·, [])).toList ++ groups f tr
  | .inr a :: tr =>
    match groups f tr with
    | [] => []
    | (b, as) :: gs => (b, as ++ [a]) :: gs

/-- The same, the first one first. -/
def grouped (f : ε → Option β) (tr : List (ε ⊕ κ)) : List (β × List κ) := (groups f tr).reverse

theorem groups_append_inl :
    groups f (es.map .inl ++ tr) = (es.filterMap f).map (·, []) ++ groups f tr := by
  induction es with
  | nil => rfl
  | cons e es ih =>
    rw [List.map_cons, List.cons_append, groups, ih]
    cases h : f e with
    | none => rw [List.filterMap_cons_none h]; rfl
    | some b => rw [List.filterMap_cons_some h]; rfl

theorem grouped_append_inl :
    grouped f (es.map .inl ++ tr) = grouped f tr ++ (collect f es).map (·, []) := by
  unfold grouped collect
  rw [groups_append_inl, List.reverse_append, List.map_reverse]

/-- An action belongs to what was started last. -/
theorem grouped_logged {gs : List (β × List κ)} {b : β} {as : List κ} (a : κ)
    (h : grouped f tr = gs ++ [(b, as)]) :
    grouped f (.inr a :: tr) = gs ++ [(b, as ++ [a])] := by
  have hg : groups f tr = (b, as) :: gs.reverse := by
    rw [← List.reverse_reverse (groups f tr), show (groups f tr).reverse = _ from h,
      List.reverse_append]
    rfl
  simp only [grouped, groups, hg, List.reverse_cons, List.reverse_reverse]

theorem grouped_fst : (grouped f tr).map Prod.fst = collect f (events tr) := by
  unfold grouped collect events
  rw [List.map_reverse]
  congr 1
  induction tr with
  | nil => rfl
  | cons x tr ih =>
    cases x with
    | inl e =>
      rw [groups, List.map_append, ih, List.filterMap_cons_some (by rfl)]
      cases h : f e with
      | none => rw [List.filterMap_cons_none h]; rfl
      | some b => rw [List.filterMap_cons_some h]; rfl
    | inr a =>
      rw [List.filterMap_cons_none (by rfl), ← ih, groups]
      split
      · rename_i hg
        rw [hg]
      · rename_i hg
        rw [hg]
        rfl

end Trace
