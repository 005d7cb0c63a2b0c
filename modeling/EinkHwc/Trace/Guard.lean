import EinkHwc.Trace.Timeline
import Mathlib.Logic.Function.Basic

/-!
# Resources behind fences

Each job of a `Timeline` uses a resource, its `key`, from when it is accepted until it is finished.
A client changes the resources, too, but each one only when the last point that it was given for it
is signalled.

* `content k tr`: how often resource `k` was changed.
* `stamped key f tr`: the jobs that `f` picks, each with the content of its resource at that moment.
* `Guarded.not_drawn`: the client draws no resource of a job that waits.
* `Guarded.account`: the jobs are finished with the contents that they were accepted with, and those
  that wait still have them. So no resource changes under a job, whatever is dropped and whichever
  advance fails.
-/

namespace Trace

/-! ## Contents -/

section Stamped

variable {ε ε' α κ : Type} [DecidableEq κ] {key : α → κ} {f : ε → Option α}

/-- How often resource `k` was changed. -/
def content (k : κ) : List (ε ⊕ κ) → Nat
  | [] => 0
  | .inl _ :: tr => content k tr
  | .inr k' :: tr => content k tr + if k' = k then 1 else 0

/-- The jobs that `f` picks, the first one first, each with the content of its resource. -/
def stamped (key : α → κ) (f : ε → Option α) : List (ε ⊕ κ) → List (α × Nat)
  | [] => []
  | .inl e :: tr => stamped key f tr ++ ((f e).map fun c => (c, content (key c) tr)).toList
  | .inr _ :: tr => stamped key f tr

@[simp] theorem stamped_inl (e : ε) (tr : List (ε ⊕ κ)) : stamped key f (.inl e :: tr) =
    stamped key f tr ++ ((f e).map fun c => (c, content (key c) tr)).toList := rfl

/-- The events through `g`. -/
def relabel (g : ε → Option ε') : ε ⊕ κ → Option (ε' ⊕ κ)
  | .inl e => (g e).map .inl
  | .inr k => some (.inr k)

@[simp] theorem content_inl (k : κ) (e : ε) (tr : List (ε ⊕ κ)) :
    content k (.inl e :: tr) = content k tr := rfl

theorem content_relabel (g : ε → Option ε') (k : κ) (tr : List (ε ⊕ κ)) :
    content k (tr.filterMap (relabel g)) = content k tr := by
  induction tr with
  | nil => rfl
  | cons e tr ih =>
    cases e with
    | inl e =>
      rw [List.filterMap_cons, relabel]
      cases g e <;> exact ih
    | inr k' =>
      rw [List.filterMap_cons, relabel]
      exact congrArg (· + _) ih

omit [DecidableEq κ] in
theorem filterMap_relabel_inl (g : ε → Option ε') (es : List ε) :
    (es.map .inl : List (ε ⊕ κ)).filterMap (relabel g) = (es.filterMap g).map .inl := by
  rw [List.filterMap_map, List.map_filterMap]
  rfl

/-- The jobs without the contents. -/
theorem stamped_fst (key : α → κ) (f : ε → Option α) (tr : List (ε ⊕ κ)) :
    (stamped key f tr).map (·.1) = collect f (tr.filterMap Sum.getLeft?) := by
  induction tr with
  | nil => rfl
  | cons e tr ih =>
    cases e with
    | inl e =>
      rw [stamped_inl, List.map_append, ih, List.filterMap_cons, Sum.getLeft?, collect_cons]
      cases f e <;> rfl
    | inr k => exact ih

/-- Contents only grow. -/
theorem stamped_le {c : α} {n : Nat} {tr : List (ε ⊕ κ)} (h : (c, n) ∈ stamped key f tr) :
    n ≤ content (key c) tr := by
  induction tr with
  | nil => cases h
  | cons e tr ih =>
    cases e with
    | inl e =>
      rw [stamped_inl, List.mem_append, Option.mem_toList] at h
      rcases h with h | h
      · exact ih h
      · obtain ⟨d, -, hd⟩ := Option.map_eq_some_iff.1 h
        rw [Prod.mk.injEq] at hd
        obtain ⟨rfl, rfl⟩ := hd
        exact Nat.le_refl _
    | inr k => exact Nat.le_trans (ih h) (Nat.le_add_right ..)

/-- The resource of the last job has the content of then, exactly if it was not changed since. -/
theorem stamped_last_iff {cs : List (α × Nat)} {c : α} {n : Nat} {tr : List (ε ⊕ κ)}
    (h : stamped key f tr = cs ++ [(c, n)]) : content (key c) tr = n ↔
      ¬ Since (· = .inr (key c)) (fun e => (e.getLeft?.bind f).isSome = true) tr := by
  induction tr with
  | nil => simp [stamped] at h
  | cons e tr ih =>
    rw [since_cons]
    cases e with
    | inl e =>
      rw [stamped_inl] at h
      cases he : f e with
      | none =>
        rw [he, Option.map_none, Option.toList_none, List.append_nil] at h
        simpa [he] using ih h
      | some d =>
        rw [he, Option.map_some, Option.toList_some] at h
        obtain ⟨-, hd⟩ := List.append_inj' h rfl
        rw [List.singleton_inj, Prod.mk.injEq] at hd
        obtain ⟨rfl, hn⟩ := hd
        simpa [he] using hn
    | inr k =>
      have hle : n ≤ content (key c) tr := stamped_le (f := f) (by
        rw [show stamped key f tr = _ from h]
        simp)
      by_cases hk : k = key c
      · simp only [hk, content, ↓reduceIte, true_or, not_true_eq_false, iff_false]
        omega
      · simpa [content, hk] using ih h

/-- What is stamped stays as it is. -/
theorem stamped_mono (key : α → κ) (f : ε → Option α) (es tr : List (ε ⊕ κ)) :
    stamped key f tr <+: stamped key f (es ++ tr) := by
  induction es with
  | nil => exact List.prefix_rfl
  | cons e es ih =>
    cases e with
    | inl e => exact ih.trans (List.prefix_append ..)
    | inr k => exact ih

/-- `f` after `g`. -/
theorem stamped_relabel (g : ε → Option ε') (f' : ε' → Option α) (tr : List (ε ⊕ κ)) :
    stamped key f' (tr.filterMap (relabel g)) = stamped key (fun e => (g e).bind f') tr := by
  induction tr with
  | nil => rfl
  | cons e tr ih =>
    cases e with
    | inl e =>
      rw [List.filterMap_cons, relabel]
      cases hg : g e with
      | none => simp only [Option.map_none, stamped, hg, Option.bind_none, Option.toList_none,
          List.append_nil, ih]
      | some e' => simp only [Option.map_some, stamped, hg, Option.bind_some, ih, content_relabel]
    | inr k => exact ih

end Stamped

/-! ## The client -/

/-- A timeline, and the last point that the client was given for each resource. -/
structure Guarded (α κ : Type) where
  fences : Timeline α
  fence : κ → Int

namespace Guarded

variable {α κ : Type} [DecidableEq κ] (point : α → Int) (key : α → κ)

/-- The client is given the points of the jobs accepted. -/
def note (fence : κ → Int) (es : List (Timeline.Ev α)) : κ → Int :=
  es.foldr (fun e fence => match e.isAccept with
    | some c => Function.update fence (key c) (point c)
    | none => fence) fence

/-- A step of the timeline, or a change of a resource. -/
def step (s : Guarded α κ) :
    Timeline.Act α ⊕ κ → Option (Guarded α κ × List (Timeline.Ev α ⊕ κ))
  | .inl a => (Timeline.step point s.fences a).map fun r =>
    (⟨r.1, note point key s.fence r.2⟩, r.2.map .inl)
  | .inr k => if s.fence k ≤ s.fences.value then some (s, [.inr k]) else none

def system : System (Guarded α κ) (Timeline.Act α ⊕ κ) (Timeline.Ev α ⊕ κ) where
  init s tr := s.fences = {} ∧ tr = []
  step := step point key

variable {point key} {s s' : Guarded α κ} {tr es : List (Timeline.Ev α ⊕ κ)}
  {ok : Guarded α κ → Timeline.Act α ⊕ κ → Prop}

/-- Without the client it is a run of the timeline. -/
theorem run_fences (hr : (system point key).Run ok tr s) :
    (Timeline.system point).Run System.any (tr.filterMap Sum.getLeft?) s.fences := by
  refine System.Run.project (J := fun _ _ => True) Guarded.fences Sum.getLeft?
    (fun _ _ _ => trivial) ?_ ?_ hr
  · rintro s tr ⟨h, rfl⟩
    exact ⟨h, rfl⟩
  · intro s a s' es tr _ _ h
    cases a with
    | inl a =>
      obtain ⟨r, hr, h⟩ := Option.map_eq_some_iff.1 h
      rw [Prod.mk.injEq] at h
      obtain ⟨rfl, rfl⟩ := h
      refine .inr ⟨a, trivial, ?_⟩
      rw [System.filterMap_getLeft_inl]
      exact hr
    | inr k =>
      simp only [system, step] at h
      split at h
      · simp only [Option.some.injEq, Prod.mk.injEq] at h
        obtain ⟨rfl, rfl⟩ := h
        exact .inl ⟨rfl, rfl⟩
      · cases h

variable (key) in
/-- A job with the content of its resource. -/
def stamp (tr : List (Timeline.Ev α ⊕ κ)) (c : α) : α × Nat := (c, content (key c) tr)

@[simp] theorem stamp_inl (e : Timeline.Ev α) : stamp key (.inl e :: tr) = stamp key tr := rfl

variable (point key) in
/-- The client knows the points of the jobs that wait, and they have the contents that they were
accepted with. -/
structure Kept (tr : List (Timeline.Ev α ⊕ κ)) (s : Guarded α κ) : Prop where
  fence : ∀ c ∈ s.fences.waiting, point c ≤ s.fence (key c)
  account : stamped key Timeline.Ev.isAccept tr =
    stamped key Timeline.Ev.isFinish tr ++ s.fences.waiting.map (stamp key tr)

/-- A resource that the client may draw belongs to no job that waits: the point of such a job is
ahead of the value. -/
theorem Kept.unused (hi : Kept point key tr s)
    (ho : Timeline.Ordered point (tr.filterMap Sum.getLeft?) s.fences) {k : κ}
    (hk : s.fence k ≤ s.fences.value) : ∀ c ∈ s.fences.waiting, key c ≠ k := by
  rintro c hc rfl
  have h1 := hi.fence c hc
  have h2 := (ho.ahead c (List.mem_append_right _ hc)).1
  omega

theorem Kept.step (ho : Timeline.Ordered point (tr.filterMap Sum.getLeft?) s.fences)
    (hi : Kept point key tr s) {a : Timeline.Act α ⊕ κ}
    (h : Guarded.step point key s a = some (s', es)) : Kept point key (es ++ tr) s' := by
  have hunused {k : κ} := hi.unused ho (k := k)
  obtain ⟨⟨issued, value, waiting, signalling⟩, fence⟩ := s
  obtain ⟨hfence, hacc⟩ := hi
  simp only at hfence hacc hunused
  have hahead : ∀ c ∈ waiting, value < point c ∧ point c ≤ issued := fun c hc =>
    ho.ahead c (List.mem_append_right _ hc)
  cases a with
  | inr k =>
    simp only [Guarded.step] at h
    split at h
    · rename_i hk
      simp only [Option.some.injEq, Prod.mk.injEq] at h
      obtain ⟨rfl, rfl⟩ := h
      refine ⟨hfence, ?_⟩
      have hmap : waiting.map (stamp key (.inr k :: tr)) = waiting.map (stamp key tr) :=
        List.map_congr_left fun c hc => by
          simp only [stamp, content, if_neg (hunused hk c hc).symm, Nat.add_zero]
      simp only [List.cons_append, List.nil_append, stamped, hacc, hmap]
    · cases h
  | inl a =>
    obtain ⟨r, hr, h⟩ := Option.map_eq_some_iff.1 h
    rw [Prod.mk.injEq] at h
    obtain ⟨rfl, rfl⟩ := h
    cases a <;> simp only [Timeline.step] at hr
    case issue =>
      obtain rfl := Option.some.inj hr
      exact ⟨hfence, by simpa [Timeline.Ev.isAccept, Timeline.Ev.isFinish] using hacc⟩
    case accept c =>
      split at hr
      · rename_i hp
        obtain rfl := Option.some.inj hr
        refine ⟨fun d hd => ?_, ?_⟩
        · -- the points go up, so the point of `c` is the last one for its resource
          simp only [note, List.foldr_cons, List.foldr_nil, Timeline.Ev.isAccept]
          rcases List.mem_append.1 hd with hd | hd
          · rw [Function.update_apply]
            split
            · have := (hahead d hd).2
              omega
            · exact hfence d hd
          · obtain rfl := List.mem_singleton.1 hd
            exact Int.le_of_eq (Function.update_self (key d) (point d) fence).symm
        · simp [Timeline.Ev.isAccept, Timeline.Ev.isFinish, hacc, stamp]
      · cases hr
    case drop | serve =>
      split at hr
      · rename_i c cs
        obtain rfl := Option.some.inj hr
        refine ⟨fun d hd => hfence d (List.mem_cons_of_mem _ hd), ?_⟩
        simp [Timeline.Ev.isAccept, Timeline.Ev.isFinish, hacc, stamp]
      · cases hr
    case signal ok =>
      split at hr
      · cases hr
      · split at hr <;> obtain rfl := Option.some.inj hr
        · exact ⟨hfence, by simpa [Timeline.Ev.isAccept, Timeline.Ev.isFinish] using hacc⟩
        · exact ⟨hfence, hacc⟩

theorem kept_run (hr : (system point key).Run ok tr s) : Kept point key tr s := by
  refine System.Run.induction
    (J := fun tr s => Timeline.Ordered point (tr.filterMap Sum.getLeft?) s.fences)
    (I := Kept point key) (fun _ _ hr => Timeline.ordered_run (run_fences hr)) ?_ ?_ hr
  · rintro ⟨fences, fence⟩ tr ⟨rfl, rfl⟩
    exact ⟨fun c hc => (by cases hc), rfl⟩
  · intro s a s' es tr ho hi _ h
    exact hi.step ho h

/-- The jobs are finished with the contents that they were accepted with, and those that wait still
have them. -/
theorem account (hr : (system point key).Run ok tr s) : stamped key Timeline.Ev.isAccept tr =
    stamped key Timeline.Ev.isFinish tr ++ s.fences.waiting.map (stamp key tr) :=
  (kept_run hr).account

/-- The client draws no resource of a job that waits. -/
theorem not_drawn {k : κ} (hr : (system point key).Run ok tr s)
    (h : step point key s (.inr k) = some (s', es)) : ∀ c ∈ s.fences.waiting, key c ≠ k := by
  simp only [step] at h
  split at h
  · rename_i hk
    exact (kept_run hr).unused (Timeline.ordered_run (run_fences hr)) hk
  · cases h

end Guarded

end Trace
