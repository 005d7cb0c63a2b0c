import Mathlib.Logic.Relation

/-!
# Labelled systems, their runs and their traces

A **system** is a type of states, the initial states, and a partial step function: an action
(which thread moves, with the outcome of every call it makes) either is not enabled or gives the
next state and the events of the step. A **run** is a state together with the trace of all events
so far, **newest first**, so that a trace is read by structural recursion from the present into the
past.

* `System.Run ok tr s`: a run whose steps all meet `ok`, a condition on the state before the step
  and on the action.
* `System.Inductive ok I`: an inductive invariant of those runs; `Inductive.run` is the induction
  rule, done once.
* `System.Until stop`: the steps from a state to the first one with `stop`.
* `System.exec`: the executable reading of a list of actions (`Run.of_exec`, `exists_run`), for
  concrete runs.
* `System.logged`: the system whose trace also has the actions that the environment chooses.
* `Run.project`: a projection under which every step is a step of a second system or leaves the
  projected state alone maps runs to runs.
-/

namespace Trace

/-- A labelled system (module doc). An initial state comes with the events before it. -/
structure System (σ α ε : Type) where
  init : σ → List ε → Prop
  step : σ → α → Option (σ × List ε)

namespace System

variable {σ α ε : Type} (S : System σ α ε)

/-- The runs whose steps all meet `ok`. -/
inductive Run (ok : σ → α → Prop) : List ε → σ → Prop
  | init {s : σ} {tr : List ε} : S.init s tr → Run ok tr s
  | step {s s' : σ} {a : α} {tr es : List ε} :
      Run ok tr s → ok s a → S.step s a = some (s', es) → Run ok (es ++ tr) s'

/-- Every step is allowed. -/
def any : σ → α → Prop := fun _ _ => True

instance (s : σ) (a : α) : Decidable (any s a) := inferInstanceAs (Decidable True)

/-- An inductive invariant of the runs whose steps meet `ok`. -/
def Inductive (ok : σ → α → Prop) (I : List ε → σ → Prop) : Prop :=
  (∀ s tr, S.init s tr → I tr s) ∧
    ∀ s a s' es tr, I tr s → ok s a → S.step s a = some (s', es) → I (es ++ tr) s'

variable {S} {ok ok' : σ → α → Prop}

theorem Inductive.run {I : List ε → σ → Prop} (h : S.Inductive ok I) {tr : List ε} {s : σ}
    (hr : S.Run ok tr s) : I tr s := by
  induction hr with
  | init hi => exact h.1 _ _ hi
  | step _ hok hs ih => exact h.2 _ _ _ _ _ ih hok hs

/-- An invariant proved with the help of one that is already known of all these runs. -/
theorem Run.induction {J I : List ε → σ → Prop} (hJ : ∀ tr s, S.Run ok tr s → J tr s)
    (hinit : ∀ s tr, S.init s tr → I tr s)
    (hstep : ∀ s a s' es tr, J tr s → I tr s → ok s a → S.step s a = some (s', es) →
      I (es ++ tr) s') {tr : List ε} {s : σ} (hr : S.Run ok tr s) : I tr s := by
  induction hr with
  | init hi => exact hinit _ _ hi
  | step hr hok hs ih => exact hstep _ _ _ _ _ (hJ _ _ hr) ih hok hs

theorem Run.mono (h : ∀ s a, ok s a → ok' s a) {tr : List ε} {s : σ} (hr : S.Run ok tr s) :
    S.Run ok' tr s := by
  induction hr with
  | init hi => exact .init hi
  | step _ hok hs ih => exact .step ih (h _ _ hok) hs

variable (S) in
/-- A step that meets `ok`, without its events. -/
def Next (ok : σ → α → Prop) (s s' : σ) : Prop := ∃ a es, ok s a ∧ S.step s a = some (s', es)

/-- What every step keeps holds after any number of steps. -/
theorem Next.closed {P : σ → Prop}
    (hP : ∀ s a s' es, P s → S.step s a = some (s', es) → P s') {s s' : σ}
    (h : Relation.ReflTransGen (S.Next ok) s s') (hs : P s) : P s' := by
  induction h with
  | refl => exact hs
  | tail _ hstep ih =>
    obtain ⟨a, es, -, hstep⟩ := hstep
    exact hP _ _ _ _ ih hstep

variable (S) in
/-- The actions from a state to the first one with `stop`, and their events. -/
inductive Until (stop : σ → Prop) : σ → List α → σ → List ε → Prop
  | done {s : σ} : stop s → Until stop s [] s []
  | step {s s₁ s' : σ} {a : α} {as : List α} {es es₁ : List ε} : ¬ stop s →
      S.step s a = some (s₁, es₁) → Until stop s₁ as s' es → Until stop s (a :: as) s' (es ++ es₁)

theorem Until.of_stop {stop : σ → Prop} {s s' : σ} {as : List α} {es : List ε}
    (h : S.Until stop s as s' es) (hs : stop s) : as = [] ∧ s' = s ∧ es = [] := by
  cases h with
  | done => exact ⟨rfl, rfl, rfl⟩
  | step hn => exact absurd hs hn

/-! ## Executable runs -/

variable (S) in
/-- The run of a list of actions, if each of them is enabled and meets `ok`. -/
def exec (ok : σ → α → Prop) [∀ s a, Decidable (ok s a)] :
    List ε → σ → List α → Option (List ε × σ)
  | tr, s, [] => some (tr, s)
  | tr, s, a :: as =>
    if ok s a then
      match S.step s a with
      | some (s', es) => exec ok (es ++ tr) s' as
      | none => none
    else none

theorem Run.of_exec [∀ s a, Decidable (ok s a)] {tr tr' : List ε} {s s' : σ} {as : List α}
    (hr : S.Run ok tr s) (he : S.exec ok tr s as = some (tr', s')) : S.Run ok tr' s' := by
  induction as generalizing tr s with
  | nil =>
    simp only [exec, Option.some.injEq, Prod.mk.injEq] at he
    obtain ⟨rfl, rfl⟩ := he
    exact hr
  | cons a as ih =>
    unfold exec at he
    split at he
    · rename_i hok
      split at he
      · rename_i hs
        exact ih (.step hr hok hs) he
      · cases he
    · cases he

variable (S ok) in
/-- A concrete run, of the actions `as`, that ends with `p`. -/
theorem exists_run [∀ s a, Decidable (ok s a)] {tr : List ε} {s : σ} (hi : S.init s tr)
    (as : List α) (p : List ε → σ → Bool)
    (he : (S.exec ok tr s as).any (fun r => p r.1 r.2) = true) :
    ∃ tr' s', S.Run ok tr' s' ∧ p tr' s' = true := by
  cases hx : S.exec ok tr s as with
  | none => rw [hx] at he; cases he
  | some r =>
    rw [hx] at he
    exact ⟨r.1, r.2, Run.of_exec (.init hi) hx, he⟩

/-! ## Projections -/

/-- A projection of the states by `f`, of the events by `g`: every initial state of `S` projects
to one of `T`, and every step of `S` to a step of `T` that meets `okT`, or to none; `J` is an
invariant of `S` already known. -/
theorem Run.project {τ β δ : Type} {T : System τ β δ} {okT : τ → β → Prop}
    {J : List ε → σ → Prop} (f : σ → τ) (g : ε → Option δ)
    (hJ : ∀ tr s, S.Run ok tr s → J tr s)
    (hinit : ∀ s tr, S.init s tr → T.init (f s) (tr.filterMap g))
    (hstep : ∀ s a s' es tr, J tr s → ok s a → S.step s a = some (s', es) →
      (f s' = f s ∧ es.filterMap g = []) ∨
        ∃ b, okT (f s) b ∧ T.step (f s) b = some (f s', es.filterMap g))
    {tr : List ε} {s : σ} (hr : S.Run ok tr s) : T.Run okT (tr.filterMap g) (f s) := by
  induction hr with
  | init hi => exact .init (hinit _ _ hi)
  | step hr hok hs ih =>
    rw [List.filterMap_append]
    rcases hstep _ _ _ _ _ (hJ _ _ hr) hok hs with ⟨he, hg⟩ | ⟨b, hb, ht⟩
    · rw [he, hg]; exact ih
    · exact .step ih hb ht

/-! ## Actions in the trace -/

section Logged

variable {κ : Type} {log : α → Option κ}

variable (S log) in
/-- The system whose trace also has the actions that `log` picks, each before the events of its
step. -/
def logged : System σ α (ε ⊕ κ) where
  init s tr := ∃ tr₀, S.init s tr₀ ∧ tr = tr₀.map .inl
  step s a := (S.step s a).map fun r => (r.1, r.2.map .inl ++ (log a).toList.map .inr)

theorem logged_step {s s' : σ} {a : α} {es : List (ε ⊕ κ)}
    (h : (S.logged log).step s a = some (s', es)) :
    ∃ es₀, S.step s a = some (s', es₀) ∧ es = es₀.map .inl ++ (log a).toList.map .inr := by
  obtain ⟨r, hr, h⟩ := Option.map_eq_some_iff.1 h
  rw [Prod.mk.injEq] at h
  obtain ⟨rfl, rfl⟩ := h
  exact ⟨r.2, hr, rfl⟩

@[simp] theorem filterMap_getLeft_inl (es : List ε) :
    (es.map .inl : List (ε ⊕ κ)).filterMap Sum.getLeft? = es := by
  rw [List.filterMap_map]
  exact List.filterMap_some

@[simp] theorem filterMap_getLeft (es : List ε) (cs : List κ) :
    (es.map .inl ++ cs.map .inr : List (ε ⊕ κ)).filterMap Sum.getLeft? = es := by
  rw [List.filterMap_append, filterMap_getLeft_inl, List.filterMap_map]
  simp [Function.comp_def]

/-- Without the actions it is a run of the system. -/
theorem Run.unlogged {tr : List (ε ⊕ κ)} {s : σ} (hr : (S.logged log).Run ok tr s) :
    S.Run ok (tr.filterMap Sum.getLeft?) s := by
  induction hr with
  | init hi =>
    obtain ⟨tr₀, hi, rfl⟩ := hi
    rw [filterMap_getLeft_inl]
    exact .init hi
  | step _ hok hs ih =>
    obtain ⟨es₀, hs₀, rfl⟩ := logged_step hs
    rw [List.filterMap_append, filterMap_getLeft]
    exact .step ih hok hs₀

/-- Every run of the system is one of these. -/
theorem Run.logged {tr : List ε} {s : σ} (hr : S.Run ok tr s) : ∃ tr' : List (ε ⊕ κ),
    (S.logged log).Run ok tr' s ∧ tr'.filterMap Sum.getLeft? = tr := by
  induction hr with
  | init hi =>
    exact ⟨_, .init ⟨_, hi, rfl⟩, filterMap_getLeft_inl _⟩
  | step _ hok hs ih =>
    obtain ⟨tr', hr', rfl⟩ := ih
    refine ⟨_, .step hr' hok (Option.map_eq_some_iff.2 ⟨_, hs, rfl⟩), ?_⟩
    rw [List.filterMap_append, filterMap_getLeft]

end Logged

end System

end Trace
