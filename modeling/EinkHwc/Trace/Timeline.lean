import Mathlib.Algebra.Ring.Int.Defs
import EinkHwc.Trace.System
import EinkHwc.Trace.Past

/-!
# Fences on a counter

Points on a timeline are handed out in order. A point is **signalled** when the timeline's value
has reached it, so a value signals every point up to it. Jobs wait in a queue; each has a point of
its own, and the timeline is advanced to the point of a job that was served. Jobs may be dropped
instead, points may be handed out without a job, and an advance may fail.

* `Timeline.step`: that, as a step function, for any type of jobs with a `point`.
* `Timeline.Ordered`: the invariant. The jobs not yet signalled have their points in order, between
  the value and the last point handed out.
* `signalled_prefix`: when a job's point is signalled, it and all jobs before it are finished.
* `caught_up_iff`: where no advance fails and no job is left, all points are signalled unless the
  last point has no job, or the last job was dropped.
* `signalled_iff`: where no advance fails, a point is signalled exactly when a job that was accepted
  with it, or later, was served.
-/

namespace Trace

/-- A timeline and its jobs. -/
structure Timeline (α : Type) where
  /-- The last point handed out. -/
  issued : Int := 0
  value : Int := 0
  /-- The jobs that are not finished, the oldest first. -/
  waiting : List α := []
  /-- The job that was served and whose point is next to be signalled. -/
  signalling : Option α := none

namespace Timeline

inductive Ev (α : Type) where
  /-- A point without a job. -/
  | issue
  | accept (c : α)
  | drop (c : α)
  | served (c : α)
  | inc (n : Int)

inductive Act (α : Type) where
  | issue
  | accept (c : α)
  | drop
  | serve
  /-- The advance, and whether it succeeds. -/
  | signal (ok : Bool)

variable {α : Type} (point : α → Int)

/-- The step function. -/
def step (s : Timeline α) : Act α → Option (Timeline α × List (Ev α))
  | .issue => some ({ s with issued := s.issued + 1 }, [.issue])
  | .accept c =>
    if point c = s.issued + 1 then
      some ({ s with issued := s.issued + 1, waiting := s.waiting ++ [c] }, [.accept c])
    else none
  | .drop => match s.signalling, s.waiting with
    | none, c :: cs => some ({ s with waiting := cs }, [.drop c])
    | _, _ => none
  | .serve => match s.signalling, s.waiting with
    | none, c :: cs => some ({ s with waiting := cs, signalling := some c }, [.served c])
    | _, _ => none
  | .signal ok => match s.signalling with
    | none => none
    | some c =>
      if ok = true ∧ s.value < point c then
        some ({ s with value := point c, signalling := none }, [.inc (point c - s.value)])
      else some ({ s with signalling := none }, [])

def system : System (Timeline α) (Act α) (Ev α) where
  init s tr := s = {} ∧ tr = []
  step := step point

def Ev.isAccept : Ev α → Option α
  | .accept c => some c
  | _ => none

def Ev.isFinish : Ev α → Option α
  | .drop c | .served c => some c
  | _ => none

def Ev.isInc : Ev α → Option Int
  | .inc n => some n
  | _ => none

/-- The jobs whose points are not signalled, the oldest first. -/
def outstanding (s : Timeline α) : List α := s.signalling.toList ++ s.waiting

variable {point} {s s' : Timeline α} {a : Act α} {es tr : List (Ev α)}
  {ok : Timeline α → Act α → Prop}

/-- The value never decreases. -/
theorem step_value (h : step point s a = some (s', es)) : s.value ≤ s'.value := by
  cases a <;> simp only [step] at h <;> (try split at h) <;> (try split at h) <;>
    simp only [Option.some.injEq, Prod.mk.injEq, reduceCtorEq] at h <;> obtain ⟨rfl, -⟩ := h
  case h_2.isTrue hv => exact Int.le_of_lt hv.2
  all_goals exact Int.le_refl _

/-! ## The order of the points -/

variable (point) in
/-- The invariant (module doc). -/
structure Ordered (tr : List (Ev α)) (s : Timeline α) : Prop where
  sum : s.value = (collect Ev.isInc tr).sum
  le : s.value ≤ s.issued
  sorted : s.outstanding.Pairwise fun c d => point c < point d
  ahead : ∀ c ∈ s.outstanding, s.value < point c ∧ point c ≤ s.issued
  account : collect Ev.isAccept tr = collect Ev.isFinish tr ++ s.waiting

theorem Ordered.step (hi : Ordered point tr s) (h : step point s a = some (s', es)) :
    Ordered point (es ++ tr) s' := by
  obtain ⟨issued, value, waiting, signalling⟩ := s
  obtain ⟨hsum, hle, hsort, hahead, hacc⟩ := hi
  simp only [outstanding] at hsum hle hsort hahead hacc
  cases a <;> simp only [Timeline.step] at h
  case issue =>
    simp only [Option.some.injEq, Prod.mk.injEq] at h
    obtain ⟨rfl, rfl⟩ := h
    refine ⟨by simpa [Ev.isInc] using hsum, by simp only; omega, hsort, fun c hc => ?_,
      by simpa [Ev.isAccept, Ev.isFinish] using hacc⟩
    have := hahead c hc
    exact ⟨this.1, by simp only; omega⟩
  case accept c =>
    split at h
    · rename_i hp
      simp only [Option.some.injEq, Prod.mk.injEq] at h
      obtain ⟨rfl, rfl⟩ := h
      have hlt : ∀ d ∈ signalling.toList ++ waiting, point d < point c := fun d hd => by
        have := hahead d hd
        omega
      refine ⟨by simpa [Ev.isInc] using hsum, by simp only; omega, ?_, fun d hd => ?_,
        by simp [Ev.isAccept, Ev.isFinish, hacc]⟩
      · rw [outstanding, ← List.append_assoc, List.pairwise_append]
        refine ⟨hsort, List.pairwise_singleton .., fun d hd c' hc' => ?_⟩
        rw [List.mem_singleton.1 hc']
        exact hlt d hd
      · rw [outstanding, ← List.append_assoc, List.mem_append] at hd
        simp only
        rcases hd with hd | hd
        · have := hahead d hd
          omega
        · obtain rfl := List.mem_singleton.1 hd
          omega
    · cases h
  case drop =>
    split at h
    · rename_i c cs
      simp only [Option.some.injEq, Prod.mk.injEq] at h
      obtain ⟨rfl, rfl⟩ := h
      refine ⟨by simpa [Ev.isInc] using hsum, hle, (List.pairwise_cons.1 hsort).2,
        fun d hd => hahead d (List.mem_cons_of_mem _ hd), by simp [Ev.isAccept, Ev.isFinish, hacc]⟩
    · cases h
  case serve =>
    split at h
    · rename_i c cs
      simp only [Option.some.injEq, Prod.mk.injEq] at h
      obtain ⟨rfl, rfl⟩ := h
      exact ⟨by simpa [Ev.isInc] using hsum, hle, hsort, hahead,
        by simp [Ev.isAccept, Ev.isFinish, hacc]⟩
    · cases h
  case signal r =>
    split at h
    · cases h
    · rename_i c
      obtain ⟨hfirst, hrest⟩ := List.pairwise_cons.1 hsort
      split at h <;> simp only [Option.some.injEq, Prod.mk.injEq] at h <;> obtain ⟨rfl, rfl⟩ := h
      · have hc := hahead c List.mem_cons_self
        refine ⟨?_, hc.2, hrest, fun d hd => ?_, by simpa [Ev.isAccept, Ev.isFinish] using hacc⟩
        · simp only [List.cons_append, List.nil_append, collect_cons, Ev.isInc, Option.toList,
            List.sum_append_int, List.sum_cons, List.sum_nil, ← hsum]
          omega
        · exact ⟨hfirst d hd, (hahead d (List.mem_cons_of_mem _ hd)).2⟩
      · exact ⟨hsum, hle, hrest, fun d hd => hahead d (List.mem_cons_of_mem _ hd), hacc⟩

theorem ordered_run (hr : (system point).Run ok tr s) : Ordered point tr s := by
  refine System.Inductive.run (I := Ordered point) ⟨?_, ?_⟩ hr
  · rintro s tr ⟨rfl, rfl⟩
    exact ⟨rfl, Int.le_refl _, .nil, fun c hc => (by cases hc), rfl⟩
  · intro s a s' es tr hi _ h
    exact hi.step h

/-- When the point of a job is signalled, it and all jobs before it are finished. -/
theorem signalled_prefix (hr : (system point).Run ok tr s) {xs ys : List α} {c : α}
    (ha : collect Ev.isAccept tr = xs ++ c :: ys) (hc : point c ≤ s.value) :
    (xs ++ [c]) <+: collect Ev.isFinish tr := by
  have hi := ordered_run hr
  rw [hi.account] at ha
  rcases List.append_eq_append_iff.1 ha with ⟨zs, hx, hw⟩ | ⟨zs, hf, hy⟩
  · -- the job still waits, so its point is ahead of the value
    have hm : c ∈ s.waiting := by rw [hw]; simp
    have := hi.ahead c (List.mem_append_right _ hm)
    omega
  · cases zs with
    | nil =>
      have hm : c ∈ s.waiting := by rw [List.nil_append] at hy; rw [← hy]; simp
      have := hi.ahead c (List.mem_append_right _ hm)
      omega
    | cons z zs =>
      rw [List.cons_append, List.cons.injEq] at hy
      obtain ⟨rfl, -⟩ := hy
      exact ⟨zs, by rw [hf]; simp⟩

/-! ## When all points are signalled -/

def Ev.isIssue : Ev α → Bool
  | .issue => true
  | _ => false

def Ev.isDrop : Ev α → Bool
  | .drop _ => true
  | _ => false

def Ev.isServed : Ev α → Bool
  | .served _ => true
  | _ => false

/-- The last point handed out has no job. -/
def Bare (tr : List (Ev α)) : Prop := Since (·.isIssue = true) (·.isAccept.isSome = true) tr

/-- The last job finished was dropped. -/
def Dropped (tr : List (Ev α)) : Prop := Since (·.isDrop = true) (·.isServed = true) tr

/-- No advance fails. -/
def advances (_ : Timeline α) (a : Act α) : Prop := a ≠ .signal false

variable (point) in
/-- The point of the last job of a list. -/
def lastPoint (l : List α) : Int := (l.getLast?.map point).getD 0

@[simp] theorem lastPoint_append (l : List α) (c : α) : lastPoint point (l ++ [c]) = point c := by
  unfold lastPoint
  rw [List.getLast?_concat]
  rfl

variable (point) in
/-- The last point handed out and the value, against the last job accepted and the last one
finished. -/
structure Level (tr : List (Ev α)) (s : Timeline α) : Prop where
  issued : lastPoint point (collect Ev.isAccept tr) ≤ s.issued
  issued_eq : lastPoint point (collect Ev.isAccept tr) = s.issued ↔ ¬ Bare tr
  value : s.signalling = none → s.value ≤ lastPoint point (collect Ev.isFinish tr) ∧
    (s.value = lastPoint point (collect Ev.isFinish tr) ↔ ¬ Dropped tr)
  served : ∀ c, s.signalling = some c →
    lastPoint point (collect Ev.isFinish tr) = point c ∧ ¬ Dropped tr

theorem Level.step (ho : Ordered point tr s) (hi : Level point tr s) (hok : advances s a)
    (h : step point s a = some (s', es)) : Level point (es ++ tr) s' := by
  obtain ⟨hlast, heq, hval, hserved⟩ := hi
  cases a <;> simp only [Timeline.step] at h
  case issue =>
    simp only [Option.some.injEq, Prod.mk.injEq] at h
    obtain ⟨rfl, rfl⟩ := h
    refine ⟨?_, ?_, by simpa [Ev.isFinish, Dropped, Ev.isDrop, Ev.isServed] using hval,
      by simpa [Ev.isFinish, Dropped, Ev.isDrop, Ev.isServed] using hserved⟩
    · simp only [List.cons_append, List.nil_append, collect_cons, Ev.isAccept, Option.toList,
        List.append_nil]
      omega
    · simp only [List.cons_append, List.nil_append, collect_cons, Ev.isAccept, Option.toList,
        List.append_nil, Bare, since_cons, Ev.isIssue, true_or, not_true_eq_false, iff_false]
      omega
  case accept c =>
    split at h
    · rename_i hp
      simp only [Option.some.injEq, Prod.mk.injEq] at h
      obtain ⟨rfl, rfl⟩ := h
      refine ⟨?_, ?_, by simpa [Ev.isFinish, Dropped, Ev.isDrop, Ev.isServed] using hval,
        by simpa [Ev.isFinish, Dropped, Ev.isDrop, Ev.isServed] using hserved⟩
      · simp [Ev.isAccept, hp]
      · simp [Ev.isAccept, hp, Bare, Ev.isIssue]
    · cases h
  case drop =>
    split at h
    · rename_i c cs h1 h2
      simp only [Option.some.injEq, Prod.mk.injEq] at h
      obtain ⟨rfl, rfl⟩ := h
      have hc := ho.ahead c (by rw [outstanding, h2]; simp)
      refine ⟨by simpa [Ev.isAccept] using hlast,
        by simpa [Ev.isAccept, Bare, Ev.isIssue] using heq, fun _ => ?_, fun c' hc' => ?_⟩
      · have hne : s.value ≠ point c := by omega
        simp only [List.cons_append, List.nil_append, collect_cons, Ev.isFinish, Option.toList,
          lastPoint_append, Dropped, since_cons, Ev.isDrop, true_or, not_true_eq_false, iff_false]
        exact ⟨Int.le_of_lt hc.1, hne⟩
      · rw [show s.signalling = none from h1] at hc'
        cases hc'
    · cases h
  case serve =>
    split at h
    · rename_i c cs h1 h2
      simp only [Option.some.injEq, Prod.mk.injEq] at h
      obtain ⟨rfl, rfl⟩ := h
      refine ⟨by simpa [Ev.isAccept] using hlast,
        by simpa [Ev.isAccept, Bare, Ev.isIssue] using heq, fun hn => (by cases hn), ?_⟩
      rintro c' hc'
      obtain rfl := Option.some.inj hc'
      simp [Ev.isFinish, Dropped, Ev.isDrop, Ev.isServed]
    · cases h
  case signal r =>
    split at h
    · cases h
    · rename_i c h1
      obtain ⟨hl, hd⟩ := hserved c h1
      have hc := ho.ahead c (by rw [outstanding, h1]; simp)
      have hr : r = true := by
        cases r with
        | true => rfl
        | false => exact absurd rfl hok
      rw [if_pos ⟨hr, hc.1⟩] at h
      simp only [Option.some.injEq, Prod.mk.injEq] at h
      obtain ⟨rfl, rfl⟩ := h
      refine ⟨by simpa [Ev.isAccept] using hlast,
        by simpa [Ev.isAccept, Bare, Ev.isIssue] using heq, fun _ => ?_, fun c' hc' => by cases hc'⟩
      simp only [List.cons_append, List.nil_append, collect_cons, Ev.isFinish, Option.toList,
        List.append_nil, hl, Int.le_refl, true_and, true_iff]
      simpa [Dropped, Ev.isDrop, Ev.isServed] using hd

theorem level_run (hr : (system point).Run advances tr s) : Level point tr s := by
  refine System.Run.induction (J := Ordered point) (I := Level point) (fun _ _ => ordered_run)
    ?_ ?_ hr
  · rintro s tr ⟨rfl, rfl⟩
    exact ⟨Int.le_refl _, by simp [lastPoint, Bare], fun _ => by simp [lastPoint, Dropped],
      fun c hc => by cases hc⟩
  · intro s a s' es tr ho hi hok h
    exact hi.step ho hok h

/-- Where no advance fails and no job is left, all points are signalled unless the last one has no
job or the last job was dropped. -/
theorem caught_up_iff (hr : (system point).Run advances tr s) (hw : s.outstanding = []) :
    s.value = s.issued ↔ ¬ Bare tr ∧ ¬ Dropped tr := by
  obtain ⟨hsig, hwait⟩ := List.append_eq_nil_iff.1 hw
  have hsig : s.signalling = none := by
    cases h : s.signalling with
    | none => rfl
    | some c => rw [h] at hsig; cases hsig
  have hi := level_run hr
  have hacc := (ordered_run hr).account
  rw [hwait, List.append_nil] at hacc
  obtain ⟨hv, hveq⟩ := hi.value hsig
  have hl := hi.issued
  have hleq := hi.issued_eq
  rw [hacc] at hl hleq
  rw [← hveq, ← hleq]
  omega

/-! ## Which points are signalled -/

def Ev.isServe : Ev α → Option α
  | .served c => some c
  | _ => none

/-- An event that hands out a point. -/
def Ev.hands : Ev α → Bool
  | .issue | .accept _ => true
  | _ => false

/-- The number of points handed out, which is the last of them. -/
def handed (tr : List (Ev α)) : Int := tr.countP Ev.hands

variable (point) in
/-- Each job has the point handed out with it. -/
def Numbered (tr : List (Ev α)) : Prop :=
  Each (fun e past => ∀ c, e.isAccept = some c → point c = handed past + 1) tr

theorem handed_nonneg (tr : List (Ev α)) : 0 ≤ handed tr := Int.natCast_nonneg _

theorem handed_append (es tr : List (Ev α)) : handed (es ++ tr) = handed es + handed tr := by
  unfold handed
  rw [List.countP_append]
  push_cast
  rfl

theorem handed_cons (e : Ev α) (tr : List (Ev α)) :
    handed (e :: tr) = handed tr + if e.hands then 1 else 0 := by
  unfold handed
  rw [List.countP_cons]
  split <;> push_cast <;> rfl

theorem numbered_cons {e : Ev α} : Numbered point (e :: tr) ↔
    (∀ c, e.isAccept = some c → point c = handed tr + 1) ∧ Numbered point tr := Iff.rfl

/-- The last point handed out is their number. -/
theorem handed_issued (hr : (system point).Run ok tr s) :
    Numbered point tr ∧ s.issued = handed tr := by
  refine System.Inductive.run (I := fun tr s => Numbered point tr ∧ s.issued = handed tr)
    ⟨?_, ?_⟩ hr
  · rintro s tr ⟨rfl, rfl⟩
    exact ⟨trivial, rfl⟩
  · rintro s a s' es tr ⟨hn, hi⟩ - h
    cases a <;> simp only [system, step] at h <;> (try split at h) <;> (try split at h) <;>
      simp only [Option.some.injEq, Prod.mk.injEq, reduceCtorEq] at h <;> obtain ⟨rfl, rfl⟩ := h <;>
      simp_all [Numbered, Ev.isAccept, Ev.hands, handed_cons]

/-- The points of the jobs accepted later are beyond those handed out before. -/
theorem Numbered.lt_point (h : Numbered point (es ++ tr)) {c : α}
    (hc : c ∈ collect Ev.isAccept es) : handed tr < point c := by
  induction es with
  | nil => cases hc
  | cons e es ih =>
    rw [List.cons_append, numbered_cons] at h
    obtain ⟨hp, hes⟩ := h
    rw [collect_cons, List.mem_append, Option.mem_toList] at hc
    rcases hc with hc | hc
    · exact ih hes hc
    · have hp := hp c hc
      have h0 := handed_nonneg es
      rw [handed_append] at hp
      omega

theorem Numbered.of_append (h : Numbered point (es ++ tr)) : Numbered point tr := each_of_append h

theorem Numbered.point_le (h : Numbered point tr) {c : α} (hc : c ∈ collect Ev.isAccept tr) :
    point c ≤ handed tr := by
  induction tr with
  | nil => cases hc
  | cons e tr ih =>
    obtain ⟨hp, htr⟩ := numbered_cons.1 h
    rw [collect_cons, List.mem_append, Option.mem_toList] at hc
    rw [handed_cons]
    rcases hc with hc | hc
    · have := ih htr hc
      split <;> omega
    · rw [hp c hc]
      cases e with
      | accept => exact Int.le_refl _
      | issue | drop | served | inc => cases hc

theorem mem_finish_of_serve {c : α} (h : c ∈ collect Ev.isServe tr) :
    c ∈ collect Ev.isFinish tr := by
  simp only [collect, List.mem_reverse, List.mem_filterMap] at h ⊢
  obtain ⟨e, he, hc⟩ := h
  exact ⟨e, he, by cases e <;> simp_all [Ev.isServe, Ev.isFinish]⟩

variable (point) in
/-- The value is the point of a job that was served, and no such job is ahead of it, but for the one
that is next. -/
structure Marked (tr : List (Ev α)) (s : Timeline α) : Prop where
  value : s.value = 0 ∨ ∃ c ∈ collect Ev.isServe tr, s.value = point c
  next : ∀ c, s.signalling = some c → c ∈ collect Ev.isServe tr
  reached : ∀ c ∈ collect Ev.isServe tr, s.signalling = some c ∨ point c ≤ s.value

theorem Marked.frame (hi : Marked point tr s) (hv : s'.value = s.value)
    (hs : s'.signalling = s.signalling) (he : collect Ev.isServe es = []) :
    Marked point (es ++ tr) s' := by
  obtain ⟨hval, hnext, hreach⟩ := hi
  have hc : collect Ev.isServe (es ++ tr) = collect Ev.isServe tr := by
    rw [collect_append, he, List.append_nil]
  exact ⟨by rwa [hc, hv], by rwa [hc, hs], by rwa [hc, hv, hs]⟩

theorem Marked.step (ho : Ordered point tr s) (hi : Marked point tr s) (hok : advances s a)
    (h : step point s a = some (s', es)) : Marked point (es ++ tr) s' := by
  have ⟨hval, hnext, hreach⟩ := hi
  cases a <;> simp only [Timeline.step] at h
  case issue =>
    simp only [Option.some.injEq, Prod.mk.injEq] at h
    obtain ⟨rfl, rfl⟩ := h
    exact hi.frame rfl rfl rfl
  case accept | drop =>
    split at h
    · simp only [Option.some.injEq, Prod.mk.injEq] at h
      obtain ⟨rfl, rfl⟩ := h
      exact hi.frame rfl rfl rfl
    · cases h
  case serve =>
    split at h
    · rename_i c cs h1 h2
      simp only [Option.some.injEq, Prod.mk.injEq] at h
      obtain ⟨rfl, rfl⟩ := h
      have hmem : ∀ d, d ∈ collect Ev.isServe ([.served c] ++ tr) ↔
          d ∈ collect Ev.isServe tr ∨ d = c := fun d => by simp [Ev.isServe]
      refine ⟨?_, fun d hd => ?_, fun d hd => ?_⟩
      · rcases hval with h0 | ⟨d, hd, hv⟩
        · exact .inl h0
        · exact .inr ⟨d, (hmem d).2 (.inl hd), hv⟩
      · exact (hmem d).2 (.inr (Option.some.inj hd).symm)
      · rcases (hmem d).1 hd with hd | rfl
        · rcases hreach d hd with hs | hle
          · rw [show s.signalling = none from h1] at hs
            cases hs
          · exact .inr hle
        · exact .inl rfl
    · cases h
  case signal r =>
    split at h
    · cases h
    · rename_i c hs
      have hlt := (ho.ahead c (by rw [outstanding, hs]; simp)).1
      have hr : r = true := by
        cases r with
        | true => rfl
        | false => exact absurd rfl hok
      rw [if_pos ⟨hr, hlt⟩] at h
      simp only [Option.some.injEq, Prod.mk.injEq] at h
      obtain ⟨rfl, rfl⟩ := h
      have hsame : collect Ev.isServe ([.inc (point c - s.value)] ++ tr) =
          collect Ev.isServe tr := by simp [Ev.isServe]
      rw [← hsame] at hnext hreach
      refine ⟨.inr ⟨c, hnext c hs, rfl⟩, fun d hd => (by cases hd), fun d hd => .inr ?_⟩
      rcases hreach d hd with he | hle
      · rw [hs, Option.some.injEq] at he
        exact he ▸ Int.le_refl _
      · exact Int.le_trans hle (Int.le_of_lt hlt)

theorem marked_run (hr : (system point).Run advances tr s) : Marked point tr s := by
  refine System.Run.induction (J := Ordered point) (I := Marked point) (fun _ _ => ordered_run)
    ?_ ?_ hr
  · rintro s tr ⟨rfl, rfl⟩
    exact ⟨.inl rfl, fun c hc => (by cases hc), fun c hc => (by cases hc)⟩
  · intro s a s' es tr ho hi hok h
    exact hi.step ho hok h

/-- Where no advance fails, the point handed out next after `tr` is signalled exactly when a job
accepted since was served. -/
theorem signalled_iff (hr : (system point).Run advances (es ++ tr) s) (hs : s.signalling = none) :
    handed tr < s.value ↔
      ∃ c ∈ collect Ev.isAccept es, c ∈ collect Ev.isServe (es ++ tr) := by
  obtain ⟨hnum, -⟩ := handed_issued hr
  obtain ⟨hval, -, hreach⟩ := marked_run hr
  constructor
  · intro hlt
    rcases hval with h0 | ⟨c, hc, hv⟩
    · have := handed_nonneg tr
      omega
    · have hacc : c ∈ collect Ev.isAccept (es ++ tr) := by
        rw [(ordered_run hr).account]
        exact List.mem_append_left _ (mem_finish_of_serve hc)
      rw [collect_append, List.mem_append] at hacc
      rcases hacc with hacc | hacc
      · have := hnum.of_append.point_le hacc
        omega
      · exact ⟨c, hacc, hc⟩
  · rintro ⟨c, hacc, hc⟩
    have hlt := hnum.lt_point hacc
    rcases hreach c hc with h | hle
    · rw [hs] at h
      cases h
    · omega

end Timeline

end Trace
