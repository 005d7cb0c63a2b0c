import EinkHwc.Rects.Sweep
import Mathlib.Algebra.Order.Ring.Int
import Mathlib.Data.Set.Finite.Lemmas
import Mathlib.Data.Set.Finite.List

/-!
# The appended rectangles are the overlap partition

A point is over the last stop before it, in one region of that stop, in one run of that region.

* `Region.On.unique`, `exists_on`: the regions of a line share out the heights that are covered.
* `Active.of_last`: between two stops the rectangles over the line are those of the first.
* `separateRects_partition`: each covered point is in one appended rectangle, with its id set.
* `separateRects_not_split`: two appended rectangles with one id set do not continue each other.
-/

namespace EinkHwc

namespace SeparateRects

variable {α : Type}

theorem RectSet.eq_of_region {a b : RectSet α} (h : a.region = b.region)
    (hl : a.rect.left = b.rect.left) (hr : a.rect.right = b.rect.right) : a = b := by
  obtain ⟨s, l, t, r, u⟩ := a
  obtain ⟨s', l', t', r', u'⟩ := b
  obtain ⟨rfl, rfl, rfl⟩ : t = t' ∧ u = u' ∧ s = s' := by simpa [RectSet.region] using h
  obtain rfl : l = l' := hl
  obtain rfl : r = r' := hr
  rfl

variable [LinearOrder α]

/-- The half-open reading of a rectangle. -/
def Rect.Contains (r : Rect α) (p : α × α) : Prop :=
  r.left ≤ p.1 ∧ p.1 < r.right ∧ r.top ≤ p.2 ∧ p.2 < r.bottom

instance (r : Rect α) (p : α × α) : Decidable (r.Contains p) :=
  inferInstanceAs (Decidable (_ ∧ _))

/-! ## The last of a finite set -/

theorem exists_last {S : Set α} (hfin : S.Finite) {a y : α} (ha : a ∈ S) (hle : a ≤ y) :
    ∃ b ∈ S, b ≤ y ∧ ∀ z ∈ S, z ≤ y → z ≤ b := by
  obtain ⟨b, ⟨hb, hby⟩, hmax⟩ := Set.exists_max_image {z | z ∈ S ∧ z ≤ y} id
    (hfin.subset fun z hz => hz.1) ⟨a, ha, hle⟩
  exact ⟨b, hb, hby, fun z hz hzy => hmax z ⟨hz, hzy⟩⟩

theorem exists_first {S : Set α} (hfin : S.Finite) {a y : α} (ha : a ∈ S) (hlt : y < a) :
    ∃ b ∈ S, y < b ∧ ∀ z ∈ S, y < z → b ≤ z := by
  obtain ⟨b, ⟨hb, hyb⟩, hmin⟩ := Set.exists_min_image {z | z ∈ S ∧ y < z} id
    (hfin.subset fun z hz => hz.1) ⟨a, ha, hlt⟩
  exact ⟨b, hb, hyb, fun z hz hyz => hmin z ⟨hz, hyz⟩⟩

/-! ## The regions of a line -/

section Line
variable {A : Nat → Rect α → Prop} {k k' : Region α} {y : α}

/-- Inside a region the set is that of its top. -/
theorem Region.On.isSet (h : k.On A) (ht : k.top ≤ y) (hb : y < k.bottom) : IsSet A y k.idSet := by
  intro i
  rw [h.set i]
  constructor
  · rintro ⟨r, hr, hrt, hrb⟩
    refine ⟨r, hr, hrt.trans ht, not_le.1 fun hle => ?_⟩
    exact h.gap r.bottom ⟨i, r, hr, .inr rfl⟩ ⟨hrb, hle.trans_lt hb⟩
  · rintro ⟨r, hr, hrt, hrb⟩
    refine ⟨r, hr, not_lt.1 fun hlt => ?_, ht.trans_lt hrb⟩
    exact h.gap r.top ⟨i, r, hr, .inl rfl⟩ ⟨hlt, hrt.trans_lt hb⟩

theorem Region.On.top_le (h : k.On A) (h' : k'.On A) (ht : k.top ≤ y) (hb' : y < k'.bottom) :
    k.top ≤ k'.top :=
  not_lt.1 fun hlt => h'.gap k.top h.top ⟨hlt, ht.trans_lt hb'⟩

theorem Region.On.bottom_le (h : k.On A) (h' : k'.On A) (ht : k.top ≤ y) (hb' : y < k'.bottom) :
    k.bottom ≤ k'.bottom :=
  not_lt.1 fun hlt => h.gap k'.bottom h'.bottom ⟨ht.trans_lt hb', hlt⟩

/-- A height is in one region at most. -/
theorem Region.On.unique (h : k.On A) (h' : k'.On A) (ht : k.top ≤ y) (hb : y < k.bottom)
    (ht' : k'.top ≤ y) (hb' : y < k'.bottom) : k = k' := by
  obtain ⟨top, bottom, set⟩ := k
  obtain ⟨top', bottom', set'⟩ := k'
  obtain rfl : top = top' := le_antisymm (h.top_le h' ht hb') (h'.top_le h ht' hb)
  obtain rfl : bottom = bottom' := le_antisymm (h.bottom_le h' ht hb') (h'.bottom_le h ht' hb)
  obtain rfl : set = set' := h.set.eq h'.set
  rfl

theorem exists_idSet {n : Nat} (hn : n ≤ 64) (P : Nat → Prop) :
    ∃ s : IdSet, ∀ i, s.getLsbD i = true ↔ i < n ∧ P i := by
  induction n with
  | zero => exact ⟨0, fun i => by simp⟩
  | succ n ih =>
    obtain ⟨s, hs⟩ := ih (by omega)
    by_cases hP : P n
    · refine ⟨IdSet.add s n, fun i => ?_⟩
      rw [getLsbD_add hn, hs]
      grind
    · refine ⟨s, fun i => ?_⟩
      rw [hs]
      grind

theorem Proper.exists_isSet (hA : Proper A) (y : α) : ∃ s, IsSet A y s := by
  obtain ⟨s, hs⟩ := exists_idSet (le_refl 64) fun i => ∃ r, A i r ∧ r.top ≤ y ∧ y < r.bottom
  refine ⟨s, fun i => (hs i).trans (and_iff_right_of_imp ?_)⟩
  rintro ⟨r, hr, -⟩
  exact hA.id i r hr

/-- A height over a rectangle is in a region. -/
theorem exists_on (hA : Proper A) (hfin : {y | Edge A y}.Finite) {i : Nat} {r : Rect α}
    (hr : A i r) (ht : r.top ≤ y) (hb : y < r.bottom) :
    ∃ k : Region α, k.On A ∧ k.top ≤ y ∧ y < k.bottom := by
  obtain ⟨top, htop, hty, hlast⟩ := exists_last hfin ⟨i, r, hr, .inl rfl⟩ ht
  obtain ⟨bottom, hbot, hyb, hfirst⟩ := exists_first hfin ⟨i, r, hr, .inr rfl⟩ hb
  obtain ⟨s, hs⟩ := hA.exists_isSet top
  have hi : s.getLsbD i = true := (hs i).2 ⟨r, hr, hlast _ ⟨i, r, hr, .inl rfl⟩ ht, hty.trans_lt hb⟩
  refine ⟨⟨top, bottom, s⟩, ⟨hs, ?_, htop, hbot, hty.trans_lt hyb, ?_⟩, hty, hyb⟩
  · rintro rfl
    simp at hi
  · rintro z hz ⟨htz, hzb⟩
    rcases le_or_gt z y with hzy | hyz
    · exact not_lt_of_ge (hlast z hz hzy) htz
    · exact not_lt_of_ge (hfirst z hz hyz) hzb

end Line

/-! ## The runs over a point -/

section Runs
variable {ins : List (Rect α)} {out app : List (RectSet α)} {ts : List α} {a b : RectSet α}
  {p : α × α} {k : Region α} {x t : α}

/-- `t` is the last stop up to `x`. -/
structure LastStop (ins : List (Rect α)) (x t : α) : Prop where
  stop : Stop ins t
  le : t ≤ x
  last : ∀ u, Stop ins u → u ≤ x → u ≤ t

theorem Active.of_last (h : LastStop ins x t) : Active ins x = Active ins t := by
  funext i r
  rw [eq_iff_iff]
  constructor
  · rintro ⟨hv, hl, hr⟩
    exact ⟨hv, h.last r.left ⟨i, r, hv, .inl rfl⟩ hl, h.le.trans_lt hr⟩
  · rintro ⟨hv, hl, hr⟩
    refine ⟨hv, hl.trans h.le, not_le.1 fun hle => ?_⟩
    exact not_lt_of_ge (h.last r.right ⟨i, r, hv, .inr rfl⟩ hle) hr

theorem finite_edges (ins : List (Rect α)) (x : α) : {y | Edge (Active ins x) y}.Finite := by
  refine (List.finite_toSet (ins.map Rect.top ++ ins.map Rect.bottom)).subset ?_
  rintro y ⟨i, r, hr, rfl | rfl⟩
  · exact List.mem_append_left _ (List.mem_map_of_mem (List.mem_of_getElem? hr.valid.get))
  · exact List.mem_append_right _ (List.mem_map_of_mem (List.mem_of_getElem? hr.valid.get))

theorem Separated.finite_stops (h : Separated ins ts app) : {x | Stop ins x}.Finite :=
  (List.finite_toSet ts).subset fun x hx => (h.stops x).2 hx

theorem Separated.exists_lastStop (h : Separated ins ts app) (ht : Stop ins t) (hle : t ≤ x) :
    ∃ u, LastStop ins x u := by
  obtain ⟨u, hu, hux, hlast⟩ := exists_last h.finite_stops ht hle
  exact ⟨u, hu, hux, hlast⟩

/-- Beyond each region there is a stop. -/
theorem OnAt.exists_later (hk : OnAt ins t k) : ∃ u, Stop ins u ∧ t < u := by
  obtain ⟨i, r, hr, -⟩ := hk.top
  exact ⟨r.right, ⟨i, r, hr.valid, .inr rfl⟩, hr.right⟩

/-- No run is open at the end. -/
theorem Separated.opened_eq_none (h : Separated ins ts app) (k : Region α) :
    Sweep.opened (OnAt ins) ts k = none := by
  cases ho : Sweep.opened (OnAt ins) ts k with
  | none => rfl
  | some l =>
    obtain ⟨hl, hall⟩ := Sweep.opened_spec h.desc ho
    obtain ⟨u, hu, hmax⟩ := Set.exists_max_image {x | Stop ins x} id h.finite_stops
      ⟨l, (h.stops l).1 hl⟩
    obtain ⟨v, hv, huv⟩ := (hall u ((h.stops u).2 hu) (hmax l ((h.stops l).1 hl))).exists_later
    exact absurd (hmax v hv) (not_le_of_gt huv)

theorem Separated.exists_mem (h : Separated ins ts app) (ht : Stop ins t) (hk : OnAt ins t k) :
    ∃ a ∈ app, a.region = k ∧ a.rect.left ≤ t ∧ t < a.rect.right := by
  rcases Sweep.closed_or_opened h.desc ((h.stops t).2 ht) hk with ⟨l, r, hc, hl, hr⟩ | ⟨l, ho, -⟩
  · exact ⟨⟨k.idSet, ⟨l, k.top, r, k.bottom⟩⟩, (h.closed _).2 hc, rfl, hl, hr⟩
  · rw [h.opened_eq_none] at ho
    cases ho

theorem Separated.onAt (h : Separated ins ts app) (ha : a ∈ app) (ht : Stop ins t)
    (hl : a.rect.left ≤ t) (hr : t < a.rect.right) : OnAt ins t a.region :=
  (((h.closed a).1 ha).spec h.desc).2.2.2.2 t ((h.stops t).2 ht) hl hr

theorem Separated.stop_left (h : Separated ins ts app) (ha : a ∈ app) : Stop ins a.rect.left :=
  (h.stops _).1 (((h.closed a).1 ha).spec h.desc).1

theorem Separated.stop_right (h : Separated ins ts app) (ha : a ∈ app) : Stop ins a.rect.right :=
  (h.stops _).1 (((h.closed a).1 ha).spec h.desc).2.1

theorem Separated.left_lt (h : Separated ins ts app) (ha : a ∈ app) : a.rect.left < a.rect.right :=
  (((h.closed a).1 ha).spec h.desc).2.2.1

theorem Separated.region_on (h : Separated ins ts app) (ha : a ∈ app) :
    a.region.On (Active ins a.rect.left) :=
  h.onAt ha (h.stop_left ha) (le_refl _) (h.left_lt ha)

/-- Where an appended rectangle is over the point, its region is one of the last stop. -/
theorem Separated.onAt_last (h : Separated ins ts app) (ha : a ∈ app) (hp : a.rect.Contains p)
    (ht : LastStop ins p.1 t) : OnAt ins t a.region ∧ a.rect.left ≤ t ∧ t < a.rect.right := by
  have hl := ht.last _ (h.stop_left ha) hp.1
  have hr := ht.le.trans_lt hp.2.1
  exact ⟨h.onAt ha ht.stop hl hr, hl, hr⟩

/-- The id set is that of each of its points. -/
theorem Separated.mem_idSet (h : Separated ins ts app) (ha : a ∈ app) (hp : a.rect.Contains p)
    (i : Nat) : a.idSet.getLsbD i = true ↔ ∃ r, ins[i]? = some r ∧ r.Contains p := by
  obtain ⟨t, ht⟩ := h.exists_lastStop (h.stop_left ha) hp.1
  obtain ⟨hon, -⟩ := h.onAt_last ha hp ht
  have hset : IsSet (Active ins t) p.2 a.idSet := Region.On.isSet hon hp.2.2.1 hp.2.2.2
  rw [hset i, ← Active.of_last ht]
  constructor
  · rintro ⟨r, hr, htop, hbot⟩
    exact ⟨r, hr.valid.get, hr.left, hr.right, htop, hbot⟩
  · rintro ⟨r, hr, hl, hr', htop, hbot⟩
    exact ⟨r, ⟨⟨hr, hl.trans_lt hr', htop.trans_lt hbot⟩, hl, hr'⟩, htop, hbot⟩

/-- A point is in one appended rectangle at most. -/
theorem Separated.unique (h : Separated ins ts app) (ha : a ∈ app) (hb : b ∈ app)
    (hpa : a.rect.Contains p) (hpb : b.rect.Contains p) : a = b := by
  obtain ⟨t, ht⟩ := h.exists_lastStop (h.stop_left ha) hpa.1
  obtain ⟨hon, hl, hr⟩ := h.onAt_last ha hpa ht
  obtain ⟨hon', hl', hr'⟩ := h.onAt_last hb hpb ht
  have hk : a.region = b.region :=
    Region.On.unique hon hon' hpa.2.2.1 hpa.2.2.2 hpb.2.2.1 hpb.2.2.2
  have hca := (h.closed a).1 ha
  have hcb := (h.closed b).1 hb
  rw [← hk] at hcb
  obtain ⟨hleft, hright⟩ := hca.unique h.desc hcb hl hr hl' hr'
  exact RectSet.eq_of_region hk hleft hright

/-- A point of an input rectangle is in an appended one. -/
theorem Separated.exists_contains (hlen : ins.length ≤ 64) (h : Separated ins ts app)
    {r : Rect α} (hr : r ∈ ins) (hp : r.Contains p) : ∃ a ∈ app, a.rect.Contains p := by
  obtain ⟨i, hi⟩ := List.mem_iff_getElem?.1 hr
  obtain ⟨hl, hr', htop, hbot⟩ := hp
  have hv : Valid ins i r := ⟨hi, hl.trans_lt hr', htop.trans_lt hbot⟩
  obtain ⟨t, ht⟩ := h.exists_lastStop ⟨i, r, hv, .inl rfl⟩ hl
  have hact : Active ins t i r := by
    rw [← Active.of_last ht]
    exact ⟨hv, hl, hr'⟩
  obtain ⟨k, hk, hkt, hkb⟩ := exists_on (proper_active hlen t) (finite_edges ins t) hact htop hbot
  obtain ⟨a, ha, rfl, hal, har⟩ := h.exists_mem ht.stop hk
  refine ⟨a, ha, hal.trans ht.le, not_le.1 fun hle => ?_, hkt, hkb⟩
  exact not_lt_of_ge (ht.last _ (h.stop_right ha) hle) har

/-- The appended rectangles over a covered point, as a list. -/
theorem Separated.filter_eq (h : Separated ins ts app) (ha : a ∈ app) (hp : a.rect.Contains p) :
    app.filter (fun b => b.rect.Contains p) = [a] := by
  rw [← List.perm_singleton, List.perm_ext_iff_of_nodup (h.nodup.filter _) (List.nodup_singleton a)]
  intro b
  rw [List.mem_filter, List.mem_singleton, decide_eq_true_eq]
  constructor
  · rintro ⟨hb, hpb⟩
    exact h.unique hb ha hpb hp
  · rintro rfl
    exact ⟨ha, hp⟩

end Runs

/-- For at most 64 rectangles, what is appended is their overlap partition: a point of some input
rectangle is in exactly one appended rectangle, whose id set is that of the input rectangles over
the point; no other point is in one. No appended rectangle is empty. -/
theorem separateRects_partition (ins : List (Rect α)) (hlen : ins.length ≤ 64)
    (out : List (RectSet α)) : ∃ app, separateRects ins out = some (out ++ app) ∧
      (∀ p, (∃ r ∈ ins, r.Contains p) → ∃ a, app.filter (fun b => b.rect.Contains p) = [a] ∧
        ∀ i, a.idSet.getLsbD i = true ↔ ∃ r, ins[i]? = some r ∧ r.Contains p) ∧
      (∀ p, (¬ ∃ r ∈ ins, r.Contains p) → ∀ a ∈ app, ¬ a.rect.Contains p) ∧
      ∀ a ∈ app, a.rect.left < a.rect.right ∧ a.rect.top < a.rect.bottom ∧ a.idSet ≠ 0 := by
  obtain ⟨ts, app, happ, h⟩ := separateRects_spec hlen out
  refine ⟨app, happ, ?_, ?_, fun a ha => ?_⟩
  · rintro p ⟨r, hr, hp⟩
    obtain ⟨a, ha, hpa⟩ := h.exists_contains hlen hr hp
    exact ⟨a, h.filter_eq ha hpa, h.mem_idSet ha hpa⟩
  · intro p hno a ha hp
    obtain ⟨i, hi⟩ := exists_mem_of_ne_zero (h.region_on ha).nonempty
    obtain ⟨r, hr, hpr⟩ := (h.mem_idSet ha hp i).1 hi
    exact hno ⟨r, List.mem_of_getElem? hr, hpr⟩
  · exact ⟨h.left_lt ha, (h.region_on ha).height, (h.region_on ha).nonempty⟩

theorem separateRects_partition_two :
    ∃ app, separateRects [⟨0, 0, 4, 5⟩, ⟨2, 0, 6, 10⟩] [] = some ([] ++ app) ∧
      (∀ p : Int × Int, (∃ r ∈ [(⟨0, 0, 4, 5⟩ : Rect Int), ⟨2, 0, 6, 10⟩], r.Contains p) →
        ∃ a, app.filter (fun b => b.rect.Contains p) = [a] ∧ ∀ i, a.idSet.getLsbD i = true ↔
          ∃ r, [(⟨0, 0, 4, 5⟩ : Rect Int), ⟨2, 0, 6, 10⟩][i]? = some r ∧ r.Contains p) ∧
      (∀ p, (¬ ∃ r ∈ [(⟨0, 0, 4, 5⟩ : Rect Int), ⟨2, 0, 6, 10⟩], r.Contains p) →
        ∀ a ∈ app, ¬ a.rect.Contains p) ∧
      ∀ a ∈ app, a.rect.left < a.rect.right ∧ a.rect.top < a.rect.bottom ∧ a.idSet ≠ 0 :=
  separateRects_partition _ (by decide) []

example : separateRects [(⟨0, 0, 4, 5⟩ : Rect Int), ⟨2, 0, 6, 10⟩] [] =
    some [⟨1, ⟨0, 0, 2, 5⟩⟩, ⟨3, ⟨2, 0, 4, 5⟩⟩, ⟨2, ⟨2, 5, 4, 10⟩⟩, ⟨2, ⟨4, 0, 6, 10⟩⟩] := by
  decide +kernel

/-! ## No rectangle is split -/

section Split
variable {A : Nat → Rect α → Prop} {k k' : Region α} {ins : List (Rect α)}
  {app : List (RectSet α)} {ts : List α} {a b : RectSet α}

/-- The set changes at each edge. -/
theorem Region.On.idSet_ne (hA : Proper A) (h : k.On A) (h' : k'.On A) (hy : k.bottom = k'.top) :
    k.idSet ≠ k'.idSet := by
  intro he
  have hin (i : Nat) : k.idSet.getLsbD i = true ↔ k'.idSet.getLsbD i = true := by rw [he]
  obtain ⟨i, r, hr, hedge | hedge⟩ := h.bottom
  · -- A top: its rectangle is over the lower region alone.
    have hlow : k'.idSet.getLsbD i = true := by
      refine (h'.set i).2 ⟨r, hr, ?_, ?_⟩
      · rw [← hy, hedge]
      · rw [← hy, hedge]
        exact hA.height i r hr
    obtain ⟨r', hr', htop, -⟩ := (h.set i).1 ((hin i).2 hlow)
    obtain rfl := hA.unique i r r' hr hr'
    exact not_lt_of_ge htop (hedge ▸ h.height)
  · -- A bottom: its rectangle is over the upper region alone.
    have htop : r.top ≤ k.top := by
      refine not_lt.1 fun hlt => h.gap r.top ⟨i, r, hr, .inl rfl⟩ ⟨hlt, ?_⟩
      rw [hedge]
      exact hA.height i r hr
    have hup : k.idSet.getLsbD i = true := (h.set i).2 ⟨r, hr, htop, hedge ▸ h.height⟩
    obtain ⟨r', hr', -, hbot⟩ := (h'.set i).1 ((hin i).1 hup)
    obtain rfl := hA.unique i r r' hr hr'
    rw [← hy, hedge] at hbot
    exact lt_irrefl _ hbot

/-- Two runs of a region do not meet. -/
theorem Separated.right_ne_left (h : Separated ins ts app) (ha : a ∈ app) (hb : b ∈ app)
    (hk : a.region = b.region) : a.rect.right ≠ b.rect.left := by
  intro he
  obtain ⟨-, -, -, hnot, -⟩ := ((h.closed a).1 ha).spec h.desc
  have hon := h.onAt hb (h.stop_left hb) (le_refl _) (h.left_lt hb)
  rw [he, hk] at hnot
  exact hnot hon

/-- Two runs over a stop, one region under the other, have different id sets. -/
theorem Separated.idSet_ne (hlen : ins.length ≤ 64) (h : Separated ins ts app) (ha : a ∈ app)
    (hb : b ∈ app) (hy : a.rect.bottom = b.rect.top)
    (hx : max a.rect.left b.rect.left < min a.rect.right b.rect.right) : a.idSet ≠ b.idSet := by
  have hstop : Stop ins (max a.rect.left b.rect.left) := by
    rcases max_choice a.rect.left b.rect.left with he | he
    · exact he.symm ▸ h.stop_left ha
    · exact he.symm ▸ h.stop_left hb
  obtain ⟨hra, hrb⟩ := lt_min_iff.1 hx
  have hona := h.onAt ha hstop (le_max_left _ _) hra
  have honb := h.onAt hb hstop (le_max_right _ _) hrb
  exact Region.On.idSet_ne (proper_active hlen _) hona honb hy

end Split

/-- Of two appended rectangles with one id set, neither continues the other to the right, and
neither continues the other downwards along a common piece of their edge. -/
theorem separateRects_not_split (ins : List (Rect α)) (hlen : ins.length ≤ 64)
    (out : List (RectSet α)) : ∃ app, separateRects ins out = some (out ++ app) ∧
      ∀ a ∈ app, ∀ b ∈ app, a.idSet = b.idSet →
        ¬ (a.rect.top = b.rect.top ∧ a.rect.bottom = b.rect.bottom ∧ a.rect.right = b.rect.left) ∧
        ¬ (a.rect.bottom = b.rect.top ∧
          max a.rect.left b.rect.left < min a.rect.right b.rect.right) := by
  obtain ⟨ts, app, happ, h⟩ := separateRects_spec hlen out
  refine ⟨app, happ, fun a ha b hb hset => ⟨?_, ?_⟩⟩
  · rintro ⟨htop, hbot, hlr⟩
    have hk : a.region = b.region := by
      unfold RectSet.region
      rw [htop, hbot, hset]
    exact h.right_ne_left ha hb hk hlr
  · rintro ⟨hy, hx⟩
    exact h.idSet_ne hlen ha hb hy hx hset

theorem separateRects_not_split_two :
    ∃ app, separateRects [(⟨0, 0, 4, 5⟩ : Rect Int), ⟨2, 0, 6, 10⟩] [] = some ([] ++ app) ∧
      ∀ a ∈ app, ∀ b ∈ app, a.idSet = b.idSet →
        ¬ (a.rect.top = b.rect.top ∧ a.rect.bottom = b.rect.bottom ∧ a.rect.right = b.rect.left) ∧
        ¬ (a.rect.bottom = b.rect.top ∧
          max a.rect.left b.rect.left < min a.rect.right b.rect.right) :=
  separateRects_not_split _ (by decide) []

end SeparateRects

end EinkHwc
