import EinkHwc.Rects.Sweep

/-!
# No step of the sweep is invalid

`Visits` is the event loop as it runs: the events still to come and the state, before each of them.

* `mark_eq_some`: what the marking of an edge found on the line.
* `Visits.swept`: every visited state is one that `Swept` describes.
* `separateRects_safe`: the asserts of the loop hold at every event, and both sets are empty after
  the last one.
-/

namespace EinkHwc

namespace SeparateRects

variable {α : Type} [LinearOrder α] {ins : List (Rect α)} {out : List (RectSet α)}
  {past es : List (SweepEvent α)} {e : SweepEvent α} {ts : List α} {app : List (RectSet α)}
  {s s' : State α} {v v' : List (SweepEvent α)} {x : α}

/-- The event loop, with the events `es` still to come. -/
inductive Visits (ins : List (Rect α)) (out : List (RectSet α)) :
    List (SweepEvent α) → State α → Prop
  | start : Visits ins out (sweepHEvents ins) { out := out }
  | next {e : SweepEvent α} {es : List (SweepEvent α)} {s s' : State α} :
    Visits ins out (e :: es) s → iterate ins e es s = some s' → Visits ins out es s'

/-- Both edges of the rectangle of a right edge are on the line. -/
def Found (rect : Rect α) (id : Nat) (v : List (SweepEvent α)) : Prop :=
  ∃ startIt endIt, Keyed.find? SweepEvent.lt ⟨.start, rect.top, id⟩ v = some startIt ∧
    Keyed.find? SweepEvent.lt ⟨.stop, rect.bottom, id⟩ (Keyed.erase SweepEvent.lt startIt v) =
      some endIt

/-- Every region that is not empty is bounded by the next one. -/
def Bounded (regions : List (α × IdSet)) : Prop :=
  ∀ before top set after, regions = before ++ (top, set) :: after → set ≠ 0 →
    ∃ next, after.head? = some next ∧ top < next.1

/-- What the event `e` relies on, at the state `s`. -/
structure Safe (ins : List (Rect α)) (e : SweepEvent α) (es : List (SweepEvent α)) (s : State α) :
    Prop where
  rect : ∃ rect, ins[e.rectId]? = some rect ∧
    (e.type = .stop → Found rect e.rectId s.sweepVEvents)
  regions : ∃ v, mark ins e s.sweepVEvents = some v ∧
    (es.head?.any (·.pos = e.pos) = false → Bounded (activeRegions v))
  next : ∃ s', iterate ins e es s = some s'

theorem mark_eq_some (h : mark ins e v = some v') : ∃ rect, ins[e.rectId]? = some rect ∧
    (e.type = .stop → Found rect e.rectId v) := by
  unfold mark at h
  obtain ⟨rect, hrect, h⟩ := Option.bind_eq_some_iff.1 h
  refine ⟨rect, hrect, fun htype => ?_⟩
  rw [htype] at h
  obtain ⟨startIt, hstart, h⟩ := Option.bind_eq_some_iff.1 h
  obtain ⟨endIt, hend, -⟩ := Option.bind_eq_some_iff.1 h
  exact ⟨startIt, endIt, hstart, hend⟩

/-- The regions of a line: an entry further down is there, so there is a next one. -/
theorem bounded_activeRegions {A : Nat → Rect α → Prop} (hA : Proper A) (hv : Holds A v) :
    Bounded (activeRegions v) := by
  intro before top set after hsplit h0
  obtain ⟨hsort, -, -⟩ := activeRegions_spec hA hv
  have hmem : (top, set) ∈ activeRegions v := by simp [hsplit]
  obtain ⟨q, hq, hlt⟩ := exists_next hA hv hmem h0
  rw [hsplit] at hq hsort
  obtain ⟨-, hafter, hbefore⟩ := List.pairwise_append.1 hsort
  have hq : q ∈ after := by
    rcases List.mem_append.1 hq with hq | hq
    · exact absurd hlt (lt_asymm (hbefore q hq _ List.mem_cons_self))
    · refine (List.mem_cons.1 hq).resolve_left ?_
      rintro rfl
      exact lt_irrefl _ hlt
  cases after with
  | nil => cases hq
  | cons next after =>
    exact ⟨next, rfl, (List.pairwise_cons.1 hafter).1 next List.mem_cons_self⟩

theorem Swept.safe (hlen : ins.length ≤ 64) (hsplit : sweepHEvents ins = past ++ e :: es)
    (h : Swept ins out past (e :: es) ts app s) : Safe ins e es s := by
  obtain ⟨v, hmark, hv⟩ := mark_spec hsplit h.line
  obtain ⟨s', -, -, hnext, -⟩ := h.next hlen hsplit
  refine ⟨mark_eq_some hmark, ⟨v, hmark, fun hstop => ?_⟩, s', hnext⟩
  rw [entered_iff_active hsplit hstop] at hv
  exact bounded_activeRegions (proper_active hlen e.pos) hv

theorem Visits.swept (hlen : ins.length ≤ 64) (h : Visits ins out es s) :
    ∃ past ts app, sweepHEvents ins = past ++ es ∧ Swept ins out past es ts app s := by
  induction h with
  | start => exact ⟨[], [], [], rfl, Swept.start⟩
  | @next e es s s' _ hnext ih =>
    obtain ⟨past, ts, app, hsplit, hswept⟩ := ih
    obtain ⟨s₁, ts', app', hs₁, hswept'⟩ := hswept.next hlen hsplit
    rw [hnext, Option.some.injEq] at hs₁
    subst hs₁
    refine ⟨past ++ [e], ts', app', ?_, hswept'⟩
    rw [hsplit, List.append_assoc]
    rfl

/-- At the last stop no rectangle is over the line. -/
theorem not_active_last (hs : Swept ins out (sweepHEvents ins) [] (x :: ts) app s) (i : Nat)
    (r : Rect α) : ¬ Active ins x i r := by
  intro h
  have hmem : r.right ∈ x :: ts := by
    rw [hs.stops]
    exact ⟨⟨_, mem_sweepHEvents.2 ⟨i, r, h.valid, .inr rfl⟩, rfl⟩, nofun⟩
  rcases List.mem_cons.1 hmem with hx | hx
  · exact absurd h.right (hx ▸ lt_irrefl _)
  · exact lt_asymm h.right ((List.pairwise_cons.1 hs.desc).1 _ hx)

/-- After the last event both sets are empty. -/
theorem Swept.empty (h : Swept ins out (sweepHEvents ins) [] ts app s) :
    s.sweepVEvents = [] ∧ s.startedRects = [] := by
  constructor
  · refine List.eq_nil_iff_forall_not_mem.2 fun f hf => ?_
    obtain ⟨i, r, hr, -⟩ := (h.line.mem f).1 hf
    cases hr.notLeft
  · have hopened (k : Region α) : Sweep.opened (OnAt ins) ts k = none := by
      cases ts with
      | nil => rfl
      | cons x ts =>
        rw [Sweep.opened_cons, if_neg]
        intro hon
        obtain ⟨i, r, hr, -⟩ := hon.top
        exact not_active_last h i r hr
    refine List.eq_nil_iff_forall_not_mem.2 fun p hp => ?_
    have hview := h.recorded.started p.1.region
    rw [hopened, Option.map_eq_none_iff] at hview
    exact view_eq_none.1 hview p hp rfl

/-- The loop reaches its end, and the state there is that of `sweep`. -/
theorem Visits.sweep (hlen : ins.length ≤ 64) (h : Visits ins out es s) :
    ∃ s', Visits ins out [] s' ∧ SeparateRects.sweep ins es s = some s' := by
  induction es generalizing s with
  | nil => exact ⟨s, h, rfl⟩
  | cons e es ih =>
    obtain ⟨past, ts, app, hsplit, hswept⟩ := h.swept hlen
    obtain ⟨s₁, -, -, hnext, -⟩ := hswept.next hlen hsplit
    rw [sweep_cons, hnext]
    exact ih (h.next hnext)

/-- At every event what the body asserts is so; after the last one nothing is on the line and no
rectangle is started; and this is the run that gives the output. -/
theorem separateRects_safe (ins : List (Rect α)) (out : List (RectSet α))
    (hlen : ins.length ≤ 64) :
    (∀ e es s, Visits ins out (e :: es) s → Safe ins e es s) ∧
      (∀ s, Visits ins out [] s → s.sweepVEvents = [] ∧ s.startedRects = []) ∧
      ∃ s, Visits ins out [] s ∧ separateRects ins out = some s.out := by
  refine ⟨fun e es s h => ?_, fun s h => ?_, ?_⟩
  · obtain ⟨past, ts, app, hsplit, hswept⟩ := h.swept hlen
    exact hswept.safe hlen hsplit
  · obtain ⟨past, ts, app, hsplit, hswept⟩ := h.swept hlen
    rw [List.append_nil] at hsplit
    exact (hsplit ▸ hswept).empty
  · have hstart : Visits ins out (sweepHEvents ins) { out := out } := .start
    obtain ⟨s, hs, hsweep⟩ := hstart.sweep hlen
    refine ⟨s, hs, ?_⟩
    have hmax : ¬ ins.length > IdSet.maxElements := not_lt_of_ge hlen
    rw [separateRects, if_neg hmax, hsweep]
    rfl

theorem separateRects_safe_two :
    let ins : List (Rect Int) := [⟨0, 0, 4, 5⟩, ⟨2, 0, 6, 10⟩]
    (∀ e es s, Visits ins [] (e :: es) s → Safe ins e es s) ∧
      (∀ s, Visits ins [] [] s → s.sweepVEvents = [] ∧ s.startedRects = []) ∧
      ∃ s, Visits ins [] [] s ∧ separateRects ins [] = some s.out :=
  separateRects_safe _ [] (by decide)

end SeparateRects

end EinkHwc
