import EinkHwc.Rects.Separate
import Mathlib.Data.Prod.Lex

/-!
# The events of the sweep

* `mem_sweepHEvents`: the events are the left and right edges of the rectangles that are not empty.
* `Holds`, of the rectangles `Entered` and not yet left: the line has their top and bottom edges.
  `mark_spec` is one event.
* `entered_iff_active`: once the line stops at `x`, these are the rectangles over `x`.
-/

namespace EinkHwc

namespace SeparateRects

variable {α : Type}

/-- The order of the events, as a key. -/
def evKey (e : SweepEvent α) : α ×ₗ Nat := toLex (e.pos, e.rectId)

theorem rectId_of_evKey {a b : SweepEvent α} (h : evKey a = evKey b) : a.rectId = b.rectId :=
  congrArg (fun k => (ofLex k).2) h

theorem pos_of_evKey {a b : SweepEvent α} (h : evKey a = evKey b) : a.pos = b.pos :=
  congrArg (fun k => (ofLex k).1) h

variable [LinearOrder α]

theorem evKey_lt {a b : SweepEvent α} :
    evKey a < evKey b ↔ a.pos < b.pos ∨ a.pos = b.pos ∧ a.rectId < b.rectId :=
  Prod.Lex.toLex_lt_toLex

theorem lt_respects : Keyed.Respects (SweepEvent.lt (α := α)) evKey := by
  intro a b
  rw [evKey_lt]
  simp [SweepEvent.lt]

theorem pos_le_of_evKey {a b : SweepEvent α} (h : evKey a < evKey b) : a.pos ≤ b.pos := by
  rcases evKey_lt.1 h with h | h
  · exact h.le
  · exact h.1.le

theorem evKey_of_pos {a b : SweepEvent α} (h : a.pos < b.pos) : evKey a < evKey b :=
  evKey_lt.2 (.inl h)

/-- Two edges of a rectangle that has none yet. -/
theorem insert_edges {s : List (SweepEvent α)} {a b : SweepEvent α} (hs : Keyed.Sorted evKey s)
    (hid : a.rectId = b.rectId) (hnew : ∀ z ∈ s, z.rectId ≠ a.rectId) (hpos : a.pos ≠ b.pos) :
    Keyed.Sorted evKey (Keyed.insert SweepEvent.lt b (Keyed.insert SweepEvent.lt a s)) ∧
      ∀ e, e ∈ Keyed.insert SweepEvent.lt b (Keyed.insert SweepEvent.lt a s) ↔
        e ∈ s ∨ e = a ∨ e = b := by
  have ha (e : SweepEvent α) : e ∈ Keyed.insert SweepEvent.lt a s ↔ e ∈ s ∨ e = a :=
    Keyed.mem_insert_of_new lt_respects hs fun z hz h => hnew z hz (rectId_of_evKey h)
  have hs' := Keyed.sorted_insert (x := a) lt_respects hs
  refine ⟨Keyed.sorted_insert lt_respects hs', fun e => ?_⟩
  rw [Keyed.mem_insert_of_new lt_respects hs', ha, or_assoc]
  intro z hz h
  rcases (ha z).1 hz with hz | rfl
  · exact hnew z hz ((rectId_of_evKey h).trans hid.symm)
  · exact hpos (pos_of_evKey h)

/-- Rectangle `i` of the input, not empty. -/
structure Valid (ins : List (Rect α)) (i : Nat) (r : Rect α) : Prop where
  get : ins[i]? = some r
  width : r.left < r.right
  height : r.top < r.bottom

theorem Valid.eq {ins : List (Rect α)} {i : Nat} {r r' : Rect α} (h : Valid ins i r)
    (h' : Valid ins i r') : r = r' := by
  have hg := h.get
  rw [h'.get, Option.some.injEq] at hg
  exact hg.symm

/-! ## The horizontal events -/

/-- The edges of a list with one more rectangle in front. -/
theorem edges_cons (rect : Rect α) (ins : List (Rect α)) (i : Nat) (e : SweepEvent α) :
    (∃ j r, Valid (rect :: ins) j r ∧
      (e = ⟨.start, r.left, i + j⟩ ∨ e = ⟨.stop, r.right, i + j⟩)) ↔
    (rect.left < rect.right ∧ rect.top < rect.bottom ∧
      (e = ⟨.start, rect.left, i⟩ ∨ e = ⟨.stop, rect.right, i⟩)) ∨
    ∃ j r, Valid ins j r ∧
      (e = ⟨.start, r.left, i + 1 + j⟩ ∨ e = ⟨.stop, r.right, i + 1 + j⟩) := by
  constructor
  · rintro ⟨j, r, ⟨hg, hw, hh⟩, he⟩
    cases j with
    | zero =>
      rw [List.getElem?_cons_zero, Option.some.injEq] at hg
      subst hg
      exact .inl ⟨hw, hh, he⟩
    | succ j =>
      rw [Nat.add_comm j 1, ← Nat.add_assoc] at he
      exact .inr ⟨j, r, ⟨hg, hw, hh⟩, he⟩
  · rintro (⟨hw, hh, he⟩ | ⟨j, r, ⟨hg, hw, hh⟩, he⟩)
    · exact ⟨0, rect, ⟨rfl, hw, hh⟩, he⟩
    · rw [Nat.add_assoc, Nat.add_comm 1 j] at he
      exact ⟨j + 1, r, ⟨hg, hw, hh⟩, he⟩

theorem addEvents_spec {ins : List (Rect α)} {i : Nat} {s : List (SweepEvent α)}
    (hs : Keyed.Sorted evKey s) (hid : ∀ e ∈ s, e.rectId < i) :
    Keyed.Sorted evKey (addEvents ins i s) ∧ ∀ e, e ∈ addEvents ins i s ↔ e ∈ s ∨
      ∃ j r, Valid ins j r ∧ (e = ⟨.start, r.left, i + j⟩ ∨ e = ⟨.stop, r.right, i + j⟩) := by
  induction ins generalizing i s with
  | nil =>
    refine ⟨hs, fun e => ⟨.inl, ?_⟩⟩
    rintro (he | ⟨j, r, hv, -⟩)
    · exact he
    · cases hv.get
  | cons rect ins ih =>
    have hcons := edges_cons rect ins i
    unfold addEvents
    split
    · rename_i hempty
      obtain ⟨hsort, hmem⟩ := ih (i := i + 1) hs fun e he => Nat.lt_succ_of_lt (hid e he)
      refine ⟨hsort, fun e => ?_⟩
      rw [hmem, hcons]
      have hno : ¬ (rect.left < rect.right ∧ rect.top < rect.bottom) := fun h =>
        hempty.elim (not_le_of_gt h.1) (not_le_of_gt h.2)
      refine or_congr_right ⟨.inr, fun h => h.resolve_left ?_⟩
      rintro ⟨hw, hh, -⟩
      exact hno ⟨hw, hh⟩
    · rename_i hvalid
      rw [not_or, ge_iff_le, ge_iff_le, not_le, not_le] at hvalid
      obtain ⟨hsort', hmem'⟩ := insert_edges (a := ⟨.start, rect.left, i⟩)
        (b := ⟨.stop, rect.right, i⟩) hs rfl (fun e he => (hid e he).ne) hvalid.1.ne
      obtain ⟨hsort, hmem⟩ := ih (i := i + 1) hsort' fun e he => by
        rcases (hmem' e).1 he with he | rfl | rfl
        · exact Nat.lt_succ_of_lt (hid e he)
        · exact Nat.lt_succ_self i
        · exact Nat.lt_succ_self i
      refine ⟨hsort, fun e => ?_⟩
      rw [hmem, hmem', hcons, and_iff_right hvalid.1, and_iff_right hvalid.2, or_assoc]

theorem sorted_sweepHEvents (ins : List (Rect α)) : Keyed.Sorted evKey (sweepHEvents ins) :=
  (addEvents_spec List.Pairwise.nil (by simp)).1

theorem mem_sweepHEvents {ins : List (Rect α)} {e : SweepEvent α} :
    e ∈ sweepHEvents ins ↔
      ∃ i r, Valid ins i r ∧ (e = ⟨.start, r.left, i⟩ ∨ e = ⟨.stop, r.right, i⟩) := by
  have h := (@addEvents_spec α _ ins 0 [] List.Pairwise.nil (by simp)).2 e
  simp only [List.not_mem_nil, false_or, Nat.zero_add] at h
  exact h

/-! ## The sweep line -/

section Line
variable {ins : List (Rect α)}

/-- Rectangle `i` was entered and not left, with the events `es` still to come. -/
structure Entered (ins : List (Rect α)) (es : List (SweepEvent α)) (i : Nat) (r : Rect α) :
    Prop where
  valid : Valid ins i r
  entered : ⟨.start, r.left, i⟩ ∉ es
  notLeft : ⟨.stop, r.right, i⟩ ∈ es

/-- The line has the top and bottom edges of the rectangles of `A`. -/
structure Holds (A : Nat → Rect α → Prop) (v : List (SweepEvent α)) : Prop where
  sorted : Keyed.Sorted evKey v
  mem : ∀ e, e ∈ v ↔ ∃ i r, A i r ∧ (e = ⟨.start, r.top, i⟩ ∨ e = ⟨.stop, r.bottom, i⟩)

variable {es past : List (SweepEvent α)} {e f : SweepEvent α} {v : List (SweepEvent α)}

theorem pos_le_of_past (hsplit : sweepHEvents ins = past ++ e :: es) (hf : f ∈ past) :
    f.pos ≤ e.pos :=
  pos_le_of_evKey (((sorted_sweepHEvents ins).parts hsplit).1 f hf)

theorem after_of_mem (hsplit : sweepHEvents ins = past ++ e :: es) (hf : f ∈ es) :
    evKey e < evKey f :=
  ((sorted_sweepHEvents ins).parts hsplit).2 f hf

theorem mem_of_after (hsplit : sweepHEvents ins = past ++ e :: es) (hf : f ∈ sweepHEvents ins)
    (h : evKey e < evKey f) : f ∈ es := by
  rw [hsplit] at hf
  rcases List.mem_append.1 hf with hf | hf
  · exact absurd h (lt_asymm (((sorted_sweepHEvents ins).parts hsplit).1 f hf))
  rcases List.mem_cons.1 hf with rfl | hf
  · exact absurd h (lt_irrefl _)
  · exact hf

theorem entered_start {i : Nat} {r : Rect α}
    (hsplit : sweepHEvents ins = past ++ ⟨.start, r.left, i⟩ :: es) (hr : Valid ins i r) (j : Nat)
    (r' : Rect α) : Entered ins es j r' ↔
      Entered ins (⟨.start, r.left, i⟩ :: es) j r' ∨ (j = i ∧ r' = r) := by
  constructor
  · rintro ⟨hv, hin, hout⟩
    by_cases he : (⟨.start, r'.left, j⟩ : SweepEvent α) = ⟨.start, r.left, i⟩
    · obtain rfl : j = i := congrArg SweepEvent.rectId he
      exact .inr ⟨rfl, hv.eq hr⟩
    · refine .inl ⟨hv, fun h => ?_, List.mem_cons_of_mem _ hout⟩
      exact (List.mem_cons.1 h).elim he hin
  · rintro (⟨hv, hin, hout⟩ | ⟨rfl, rfl⟩)
    · refine ⟨hv, fun h => hin (List.mem_cons_of_mem _ h), ?_⟩
      rcases List.mem_cons.1 hout with h | h
      · exact absurd (congrArg SweepEvent.type h) (by simp)
      · exact h
    · refine ⟨hr, fun h => lt_irrefl _ (after_of_mem hsplit h), ?_⟩
      exact mem_of_after hsplit (mem_sweepHEvents.2 ⟨j, r', hr, .inr rfl⟩) (evKey_of_pos hr.width)

theorem entered_stop {i : Nat} {r : Rect α}
    (hsplit : sweepHEvents ins = past ++ ⟨.stop, r.right, i⟩ :: es) (hr : Valid ins i r) (j : Nat)
    (r' : Rect α) : Entered ins es j r' ↔
      Entered ins (⟨.stop, r.right, i⟩ :: es) j r' ∧ j ≠ i := by
  constructor
  · rintro ⟨hv, hin, hout⟩
    refine ⟨⟨hv, fun h => ?_, List.mem_cons_of_mem _ hout⟩, ?_⟩
    · rcases List.mem_cons.1 h with h | h
      · exact absurd (congrArg SweepEvent.type h) (by simp)
      · exact hin h
    · rintro rfl
      rw [hv.eq hr] at hout
      exact lt_irrefl _ (after_of_mem hsplit hout)
  · rintro ⟨⟨hv, hin, hout⟩, hne⟩
    refine ⟨hv, fun h => hin (List.mem_cons_of_mem _ h), ?_⟩
    rcases List.mem_cons.1 hout with h | h
    · exact absurd (congrArg SweepEvent.rectId h) hne
    · exact h

theorem entered_self {i : Nat} {r : Rect α}
    (hsplit : sweepHEvents ins = past ++ ⟨.stop, r.right, i⟩ :: es) (hr : Valid ins i r) :
    Entered ins (⟨.stop, r.right, i⟩ :: es) i r := by
  refine ⟨hr, fun h => ?_, List.mem_cons_self⟩
  rcases List.mem_cons.1 h with h | h
  · exact absurd (congrArg SweepEvent.type h) (by simp)
  · exact lt_asymm (after_of_mem hsplit h) (evKey_of_pos hr.width)

/-- A left edge: the top and the bottom enter the line. -/
theorem mark_start {i : Nat} {r : Rect α}
    (hsplit : sweepHEvents ins = past ++ ⟨.start, r.left, i⟩ :: es) (hr : Valid ins i r)
    (hv : Holds (Entered ins (⟨.start, r.left, i⟩ :: es)) v) :
    ∃ v', mark ins ⟨.start, r.left, i⟩ v = some v' ∧ Holds (Entered ins es) v' := by
  have hnew (z : SweepEvent α) (hz : z ∈ v) : z.rectId ≠ i := by
    obtain ⟨j, r', hj, hz⟩ := (hv.mem z).1 hz
    have hid : z.rectId = j := by rcases hz with rfl | rfl <;> rfl
    rintro rfl
    subst hid
    rw [hj.valid.eq hr] at hj
    exact hj.entered List.mem_cons_self
  obtain ⟨hs, hmem⟩ := insert_edges (a := ⟨.start, r.top, i⟩) (b := ⟨.stop, r.bottom, i⟩)
    hv.sorted rfl hnew hr.height.ne
  refine ⟨_, ?_, hs, fun f => ?_⟩
  · simp only [mark, hr.get]
    rfl
  rw [hmem, hv.mem]
  simp only [entered_start hsplit hr]
  constructor
  · rintro (⟨j, r', hj, hf⟩ | hf)
    · exact ⟨j, r', .inl hj, hf⟩
    · exact ⟨i, r, .inr ⟨rfl, rfl⟩, hf⟩
  · rintro ⟨j, r', hj | ⟨rfl, rfl⟩, hf⟩
    · exact .inl ⟨j, r', hj, hf⟩
    · exact .inr hf

/-- A right edge: both are found on the line, and leave it. -/
theorem mark_stop {i : Nat} {r : Rect α}
    (hsplit : sweepHEvents ins = past ++ ⟨.stop, r.right, i⟩ :: es) (hr : Valid ins i r)
    (hv : Holds (Entered ins (⟨.stop, r.right, i⟩ :: es)) v) :
    ∃ v', mark ins ⟨.stop, r.right, i⟩ v = some v' ∧ Holds (Entered ins es) v' := by
  have hin := entered_self hsplit hr
  have hstart : Keyed.find? SweepEvent.lt ⟨.start, r.top, i⟩ v = some ⟨.start, r.top, i⟩ :=
    (Keyed.find?_eq_some lt_respects hv.sorted).2 ⟨(hv.mem _).2 ⟨i, r, hin, .inl rfl⟩, rfl⟩
  have hs : Keyed.Sorted evKey (Keyed.erase SweepEvent.lt ⟨.start, r.top, i⟩ v) :=
    Keyed.sorted_erase hv.sorted
  have hstop : Keyed.find? SweepEvent.lt ⟨.stop, r.bottom, i⟩
      (Keyed.erase SweepEvent.lt ⟨.start, r.top, i⟩ v) = some ⟨.stop, r.bottom, i⟩ := by
    refine (Keyed.find?_eq_some lt_respects hs).2 ⟨(Keyed.mem_erase lt_respects).2 ⟨?_, ?_⟩, rfl⟩
    · exact (hv.mem _).2 ⟨i, r, hin, .inr rfl⟩
    · exact fun h => hr.height.ne' (pos_of_evKey h)
  refine ⟨Keyed.erase SweepEvent.lt ⟨.stop, r.bottom, i⟩
    (Keyed.erase SweepEvent.lt ⟨.start, r.top, i⟩ v), ?_, Keyed.sorted_erase hs, fun f => ?_⟩
  · simp only [mark, hr.get, hstart, hstop, Option.bind_eq_bind, Option.bind_some]
    rfl
  rw [Keyed.mem_erase lt_respects, Keyed.mem_erase lt_respects, hv.mem]
  simp only [entered_stop hsplit hr]
  constructor
  · rintro ⟨⟨⟨j, r', hj, hf⟩, hne⟩, hne'⟩
    refine ⟨j, r', ⟨hj, ?_⟩, hf⟩
    rintro rfl
    obtain rfl := hj.valid.eq hr
    rcases hf with rfl | rfl
    · exact hne rfl
    · exact hne' rfl
  · rintro ⟨j, r', ⟨hj, hji⟩, hf⟩
    have hid : f.rectId ≠ i := by rcases hf with rfl | rfl <;> exact hji
    exact ⟨⟨⟨j, r', hj, hf⟩, fun h => hid (rectId_of_evKey h)⟩, fun h => hid (rectId_of_evKey h)⟩

theorem mark_spec (hsplit : sweepHEvents ins = past ++ e :: es)
    (hv : Holds (Entered ins (e :: es)) v) :
    ∃ v', mark ins e v = some v' ∧ Holds (Entered ins es) v' := by
  have he : e ∈ sweepHEvents ins := by
    rw [hsplit]
    exact List.mem_append_right _ List.mem_cons_self
  obtain ⟨i, r, hr, rfl | rfl⟩ := mem_sweepHEvents.1 he
  · exact mark_start hsplit hr hv
  · exact mark_stop hsplit hr hv

/-! ## At a stop -/

/-- Rectangle `i` is over `x`. -/
structure Active (ins : List (Rect α)) (x : α) (i : Nat) (r : Rect α) : Prop where
  valid : Valid ins i r
  left : r.left ≤ x
  right : x < r.right

/-- The events still to come are those beyond the line, once the next one is elsewhere. -/
theorem mem_iff_of_stop (hsplit : sweepHEvents ins = past ++ e :: es)
    (hstop : es.head?.any (·.pos = e.pos) = false) (hf : f ∈ sweepHEvents ins) :
    f ∈ es ↔ e.pos < f.pos := by
  constructor
  · intro h
    cases es with
    | nil => cases h
    | cons g es =>
      have hg : e.pos < g.pos := by
        have hne : g.pos ≠ e.pos := by simpa using hstop
        exact lt_of_le_of_ne (pos_le_of_evKey (after_of_mem hsplit List.mem_cons_self)) hne.symm
      have hsplit' : sweepHEvents ins = (past ++ [e]) ++ g :: es := by
        rw [hsplit, List.append_assoc]
        rfl
      rcases List.mem_cons.1 h with rfl | h
      · exact hg
      · exact hg.trans_le (pos_le_of_evKey (after_of_mem hsplit' h))
  · exact fun h => mem_of_after hsplit hf (evKey_of_pos h)

theorem entered_iff_active (hsplit : sweepHEvents ins = past ++ e :: es)
    (hstop : es.head?.any (·.pos = e.pos) = false) :
    Entered ins es = Active ins e.pos := by
  funext i r
  rw [eq_iff_iff]
  constructor
  · rintro ⟨hv, hin, hout⟩
    have hl : (⟨.start, r.left, i⟩ : SweepEvent α) ∈ sweepHEvents ins :=
      mem_sweepHEvents.2 ⟨i, r, hv, .inl rfl⟩
    have hr : (⟨.stop, r.right, i⟩ : SweepEvent α) ∈ sweepHEvents ins :=
      mem_sweepHEvents.2 ⟨i, r, hv, .inr rfl⟩
    rw [mem_iff_of_stop hsplit hstop hl, not_lt] at hin
    exact ⟨hv, hin, (mem_iff_of_stop hsplit hstop hr).1 hout⟩
  · rintro ⟨hv, hl, hr⟩
    refine ⟨hv, fun h => ?_, ?_⟩
    · have hm : (⟨.start, r.left, i⟩ : SweepEvent α) ∈ sweepHEvents ins :=
        mem_sweepHEvents.2 ⟨i, r, hv, .inl rfl⟩
      exact absurd hl (not_le_of_gt ((mem_iff_of_stop hsplit hstop hm).1 h))
    · exact (mem_iff_of_stop hsplit hstop (mem_sweepHEvents.2 ⟨i, r, hv, .inr rfl⟩)).2 hr

end Line

end SeparateRects

end EinkHwc
