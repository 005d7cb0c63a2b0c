import EinkHwc.Rects.Started
import EinkHwc.Sweep.Runs

/-!
# What the sweep appends

The stops of the sweep are the times of `Sweep`, and `OnAt` says which regions are seen at a stop.
A started rectangle is then an open run of its region, and an appended one a run that is closed.

* `Swept`: this, between any two events; `Recorded.stopAt` is one stop and `sweep_spec` the whole
  loop.
* `separateRects_spec`: the appended rectangles are the closed runs over all the stops.
-/

namespace EinkHwc

namespace SeparateRects

variable {α : Type} [LinearOrder α]

/-- A region of the rectangles over `x`. -/
def OnAt (ins : List (Rect α)) (x : α) (k : Region α) : Prop := k.On (Active ins x)

noncomputable instance (ins : List (Rect α)) (x : α) (k : Region α) : Decidable (OnAt ins x k) :=
  Classical.propDecidable _

/-- A left or right edge. -/
def Stop (ins : List (Rect α)) (x : α) : Prop := ∃ i r, Valid ins i r ∧ (x = r.left ∨ x = r.right)

variable {ins : List (Rect α)} {out : List (RectSet α)} {past es : List (SweepEvent α)}
  {e : SweepEvent α} {ts : List α} {app : List (RectSet α)} {s : State α} {x : α}

theorem proper_active (hlen : ins.length ≤ 64) (x : α) : Proper (Active ins x) := by
  refine ⟨fun i r h => ?_, fun i r r' h h' => h.valid.eq h'.valid, fun i r h => h.valid.height⟩
  exact lt_of_lt_of_le (List.getElem?_eq_some_iff.1 h.valid.get).1 hlen

/-- The started rectangles are the open runs of their regions, and the appended ones the closed
runs. -/
structure Recorded (ins : List (Rect α)) (ts : List α) (started : List (StartedRect α × Bool))
    (app : List (RectSet α)) : Prop where
  sorted : Keyed.Sorted startedKey started
  started : ∀ k, (view started k).map Prod.fst = Sweep.opened (OnAt ins) ts k
  nodup : app.Nodup
  closed : ∀ a, a ∈ app ↔ Sweep.Closed (OnAt ins) ts a.region a.rect.left a.rect.right

/-- The sweep between two events, with the stops `ts` behind it. -/
structure Swept (ins : List (Rect α)) (out : List (RectSet α)) (past es : List (SweepEvent α))
    (ts : List α) (app : List (RectSet α)) (s : State α) : Prop where
  line : Holds (Entered ins es) s.sweepVEvents
  desc : ts.Pairwise (· > ·)
  stops : ∀ x, x ∈ ts ↔ (∃ e ∈ past, e.pos = x) ∧ ∀ e ∈ es, e.pos ≠ x
  out_eq : s.out = out ++ app
  recorded : Recorded ins ts s.startedRects app

/-- One stop. The regions over `x` are seen: they start, or go on. The others end. -/
theorem Recorded.stopAt (hlen : ins.length ≤ 64) (hv : Holds (Active ins x) s.sweepVEvents)
    (h : Recorded ins ts s.startedRects app) (hdesc : ts.Pairwise (· > ·)) (hlt : ∀ t ∈ ts, t < x) :
    ∃ s' new, stopAt x s = some s' ∧ s'.sweepVEvents = s.sweepVEvents ∧ s'.out = s.out ++ new ∧
      Recorded ins (x :: ts) s'.startedRects (app ++ new) := by
  have hA := proper_active hlen x
  obtain ⟨hsort, -, -⟩ := activeRegions_spec hA hv
  have hunseen : Keyed.Sorted startedKey (s.startedRects.map fun p => (p.1, false)) :=
    sorted_map (fun _ => rfl) h.sorted
  obtain ⟨hs, hview⟩ := view_see_all x (keys (activeRegions s.sweepVEvents)) hunseen
  have hsee := seeRegions_eq (x := x) (s.startedRects.map fun p => (p.1, false)) hsort fun p hp =>
    exists_next hA hv hp
  generalize (keys (activeRegions s.sweepVEvents)).foldl _ _ = seen at hs hview hsee
  have hseen (k : Region α) : view seen k = if OnAt ins x k
      then some ((Sweep.opened (OnAt ins) ts k).getD x, true)
      else (Sweep.opened (OnAt ins) ts k).map fun l => (l, false) := by
    have hk : k ∈ keys (activeRegions s.sweepVEvents) ↔ OnAt ins x k :=
      mem_keys_activeRegions hA hv k
    rw [hview, view_unseen, ← h.started, Option.map_map, Option.map_map]
    by_cases hon : OnAt ins x k
    · rw [if_pos hon, if_pos (hk.2 hon)]
      rfl
    · rw [if_neg hon, if_neg (mt hk.1 hon)]
      rfl
  refine ⟨{ s with
    startedRects := seen.filter (·.2)
    out := s.out ++ (seen.filter (!·.2)).map (close x) },
    (seen.filter (!·.2)).map (close x), ?_, rfl, rfl, hs.filter _, fun k => ?_, ?_, fun a => ?_⟩
  · unfold SeparateRects.stopAt
    rw [hsee]
    rfl
  · rw [view_filter hs, hseen, Sweep.opened_cons]
    split
    · rfl
    · cases Sweep.opened (OnAt ins) ts k <;> rfl
  · refine List.nodup_append.2 ⟨h.nodup, nodup_closed x hs, fun a ha b hb he => ?_⟩
    obtain ⟨-, hr⟩ := (mem_closed hs b).1 hb
    obtain ⟨-, hmem, -⟩ := ((h.closed a).1 ha).spec hdesc
    rw [he, hr] at hmem
    exact lt_irrefl x (hlt x hmem)
  · rw [List.mem_append, h.closed, mem_closed hs, hseen]
    refine or_congr_right ?_
    by_cases hon : OnAt ins x a.region
    · rw [if_pos hon]
      simp [hon]
    · rw [if_neg hon, Option.map_eq_some_iff]
      simp [hon, and_comm]

/-- The line goes on at the position of `e`. -/
theorem stops_of_continue (h : ∀ x, x ∈ ts ↔ (∃ f ∈ past, f.pos = x) ∧ ∀ f ∈ e :: es, f.pos ≠ x)
    (hcont : es.head?.any (·.pos = e.pos) = true) (x : α) :
    x ∈ ts ↔ (∃ f ∈ past ++ [e], f.pos = x) ∧ ∀ f ∈ es, f.pos ≠ x := by
  obtain ⟨g, hg, hpos⟩ : ∃ g ∈ es, g.pos = e.pos := by
    cases es with
    | nil => cases hcont
    | cons g es => exact ⟨g, List.mem_cons_self, by simpa using hcont⟩
  rw [h]
  constructor
  · rintro ⟨⟨f, hf, rfl⟩, hne⟩
    exact ⟨⟨f, List.mem_append_left _ hf, rfl⟩, fun f hf => hne f (List.mem_cons_of_mem _ hf)⟩
  · rintro ⟨⟨f, hf, rfl⟩, hne⟩
    have hfe : e.pos ≠ f.pos := hpos ▸ hne g hg
    refine ⟨⟨f, ?_, rfl⟩, List.forall_mem_cons.2 ⟨hfe, hne⟩⟩
    refine (List.mem_append.1 hf).resolve_right fun hf => hfe ?_
    rw [List.mem_singleton.1 hf]

/-- The line stops at the position of `e`. -/
theorem stops_of_stop (hsplit : sweepHEvents ins = past ++ e :: es)
    (h : ∀ x, x ∈ ts ↔ (∃ f ∈ past, f.pos = x) ∧ ∀ f ∈ e :: es, f.pos ≠ x)
    (hstop : es.head?.any (·.pos = e.pos) = false) (x : α) :
    x ∈ e.pos :: ts ↔ (∃ f ∈ past ++ [e], f.pos = x) ∧ ∀ f ∈ es, f.pos ≠ x := by
  rw [List.mem_cons, h]
  constructor
  · rintro (rfl | ⟨⟨f, hf, rfl⟩, hne⟩)
    · refine ⟨⟨e, by simp, rfl⟩, fun f hf => ?_⟩
      have hmem : f ∈ sweepHEvents ins := by
        rw [hsplit]
        exact List.mem_append_right _ (List.mem_cons_of_mem _ hf)
      exact ((mem_iff_of_stop hsplit hstop hmem).1 hf).ne'
    · exact ⟨⟨f, List.mem_append_left _ hf, rfl⟩, fun f hf => hne f (List.mem_cons_of_mem _ hf)⟩
  · rintro ⟨⟨f, hf, rfl⟩, hne⟩
    by_cases hfe : f.pos = e.pos
    · exact .inl hfe
    · refine .inr ⟨⟨f, ?_, rfl⟩, List.forall_mem_cons.2 ⟨fun h => hfe h.symm, hne⟩⟩
      refine (List.mem_append.1 hf).resolve_right fun hf => hfe ?_
      rw [List.mem_singleton.1 hf]

/-- The body of the event loop: the event `hEvt`, with `events` after it. -/
def iterate (ins : List (Rect α)) (hEvt : SweepEvent α) (events : List (SweepEvent α))
    (s : State α) : Option (State α) := do
  let v ← mark ins hEvt s.sweepVEvents
  let s := { s with sweepVEvents := v }
  if events.head?.any (·.pos = hEvt.pos) then return s
  else stopAt hEvt.pos s

theorem sweep_cons : sweep ins (e :: es) s = (iterate ins e es s).bind (sweep ins es) := by
  rw [sweep, iterate]
  cases mark ins e s.sweepVEvents with
  | none => rfl
  | some v =>
    simp only [Option.bind_eq_bind, Option.bind_some]
    split <;> rfl

/-- One event. -/
theorem Swept.next (hlen : ins.length ≤ 64) (hsplit : sweepHEvents ins = past ++ e :: es)
    (h : Swept ins out past (e :: es) ts app s) :
    ∃ s' ts' app', iterate ins e es s = some s' ∧
      Swept ins out (past ++ [e]) es ts' app' s' := by
  obtain ⟨v, hmark, hv⟩ := mark_spec hsplit h.line
  by_cases hcont : es.head?.any (·.pos = e.pos) = true
  · refine ⟨{ s with sweepVEvents := v }, ts, app, ?_, hv, h.desc,
      stops_of_continue h.stops hcont, h.out_eq, h.recorded⟩
    rw [iterate, hmark, Option.bind_eq_bind, Option.bind_some, if_pos hcont]
    rfl
  · have hstop : es.head?.any (·.pos = e.pos) = false := Bool.eq_false_iff.2 hcont
    have hlt (t : α) (ht : t ∈ ts) : t < e.pos := by
      obtain ⟨⟨f, hf, rfl⟩, hne⟩ := (h.stops t).1 ht
      exact lt_of_le_of_ne (pos_le_of_past hsplit hf) (hne e List.mem_cons_self).symm
    obtain ⟨s', new, hs', hline, hout, hrec⟩ :=
      Recorded.stopAt (s := { s with sweepVEvents := v }) hlen
        (entered_iff_active hsplit hstop ▸ hv) h.recorded h.desc hlt
    refine ⟨s', e.pos :: ts, app ++ new, ?_, ?_, List.pairwise_cons.2 ⟨hlt, h.desc⟩,
      stops_of_stop hsplit h.stops hstop, ?_, hrec⟩
    · rw [iterate, hmark, Option.bind_eq_bind, Option.bind_some, if_neg hcont, hs']
    · rw [hline]
      exact hv
    · rw [hout, h.out_eq, List.append_assoc]

/-- Before the first event. -/
theorem Swept.start : Swept ins out [] (sweepHEvents ins) [] [] { out := out } := by
  have hline : Holds (Entered ins (sweepHEvents ins)) ([] : List (SweepEvent α)) := by
    refine ⟨List.Pairwise.nil, fun e => ⟨nofun, ?_⟩⟩
    rintro ⟨i, r, hr, -⟩
    exact absurd (mem_sweepHEvents.2 ⟨i, r, hr.valid, .inl rfl⟩) hr.entered
  exact ⟨hline, List.Pairwise.nil, by simp, (List.append_nil out).symm,
    List.Pairwise.nil, fun k => rfl, List.Pairwise.nil, fun a => by simp [Sweep.Closed]⟩

theorem sweep_spec (hlen : ins.length ≤ 64) (hsplit : sweepHEvents ins = past ++ es)
    (h : Swept ins out past es ts app s) : ∃ s' ts' app', sweep ins es s = some s' ∧
      Swept ins out (sweepHEvents ins) [] ts' app' s' := by
  induction es generalizing past ts app s with
  | nil =>
    rw [List.append_nil] at hsplit
    exact ⟨s, ts, app, rfl, hsplit ▸ h⟩
  | cons e es ih =>
    obtain ⟨s', ts', app', hs, h⟩ := h.next hlen hsplit
    rw [sweep_cons, hs]
    exact ih (by rw [hsplit, List.append_assoc]; rfl) h

/-- The run of the whole function: its stops, newest first, and what it appends. -/
structure Separated (ins : List (Rect α)) (ts : List α) (app : List (RectSet α)) : Prop where
  desc : ts.Pairwise (· > ·)
  stops : ∀ x, x ∈ ts ↔ Stop ins x
  nodup : app.Nodup
  closed : ∀ a, a ∈ app ↔ Sweep.Closed (OnAt ins) ts a.region a.rect.left a.rect.right

theorem separateRects_spec (hlen : ins.length ≤ 64) (out : List (RectSet α)) :
    ∃ ts app, separateRects ins out = some (out ++ app) ∧ Separated ins ts app := by
  have h0 : Swept ins out [] (sweepHEvents ins) [] [] { out := out } := Swept.start
  obtain ⟨s, ts, app, hs, h⟩ := sweep_spec hlen rfl h0
  refine ⟨ts, app, ?_, h.desc, fun x => ?_, h.recorded.nodup, h.recorded.closed⟩
  · have hmax : ¬ ins.length > IdSet.maxElements := not_lt_of_ge hlen
    unfold separateRects
    rw [if_neg hmax, hs, Option.map_some, h.out_eq]
  · rw [h.stops, and_iff_left (by simp)]
    constructor
    · rintro ⟨e, he, rfl⟩
      obtain ⟨i, r, hr, rfl | rfl⟩ := mem_sweepHEvents.1 he
      · exact ⟨i, r, hr, .inl rfl⟩
      · exact ⟨i, r, hr, .inr rfl⟩
    · rintro ⟨i, r, hr, rfl | rfl⟩
      · exact ⟨_, mem_sweepHEvents.2 ⟨i, r, hr, .inl rfl⟩, rfl⟩
      · exact ⟨_, mem_sweepHEvents.2 ⟨i, r, hr, .inr rfl⟩, rfl⟩

end SeparateRects

end EinkHwc
