import EinkHwc.Rects.Events

/-!
# The regions of the sweep line

With the edges of the rectangles `A` on the line, `active_regions` is the list of their tops and
bottoms, each with the set of the rectangles over it.

* `activeRegions_spec`: that list.
* `keys`: its bounded regions, which are those that `seeRegions` looks at (`seeRegions_eq`).
* `Region.On`: the same in terms of `A` alone (`mem_keys_activeRegions`).
-/

namespace EinkHwc

namespace SeparateRects

variable {α : Type}

theorem getLsbD_one_shl {id : Nat} (hid : id < 64) (i : Nat) :
    (1#64 <<< id).getLsbD i = decide (i = id) := by
  rw [BitVec.getLsbD_shiftLeft, BitVec.getLsbD_one, Bool.eq_iff_iff]
  simp only [Bool.and_eq_true, decide_eq_true_eq, Bool.not_eq_true', decide_eq_false_iff_not]
  omega

theorem getLsbD_add {s : IdSet} {id : Nat} (hid : id < 64) (i : Nat) :
    (IdSet.add s id).getLsbD i = true ↔ s.getLsbD i = true ∨ i = id := by
  unfold IdSet.add
  rw [BitVec.getLsbD_or, getLsbD_one_shl hid, Bool.or_eq_true, decide_eq_true_eq]

theorem getLsbD_subtract {s : IdSet} {id : Nat} (hid : id < 64) (i : Nat) :
    (IdSet.subtract s id).getLsbD i = true ↔ s.getLsbD i = true ∧ i ≠ id := by
  unfold IdSet.subtract
  rw [BitVec.getLsbD_and, BitVec.getLsbD_not, getLsbD_one_shl hid, Bool.and_eq_true,
    Bool.and_eq_true, Bool.not_eq_true', decide_eq_false_iff_not, decide_eq_true_eq]
  refine and_congr_right fun hs => and_iff_right ?_
  exact BitVec.lt_of_getLsbD hs

/-- One event of the line: its rectangle enters `active_set` or leaves it. -/
theorem applyEvent_spec {past : List (SweepEvent α)} {s : IdSet} {e : SweepEvent α}
    (hid : e.rectId < 64)
    (hs : ∀ i, s.getLsbD i = true ↔ (∃ p, ⟨.start, p, i⟩ ∈ past) ∧ ¬ ∃ p, ⟨.stop, p, i⟩ ∈ past)
    (hfirst : e.type = .start → ∀ p, ⟨.stop, p, e.rectId⟩ ∉ past) (i : Nat) :
    (applyEvent s e).getLsbD i = true ↔
      (∃ p, ⟨.start, p, i⟩ ∈ past ++ [e]) ∧ ¬ ∃ p, ⟨.stop, p, i⟩ ∈ past ++ [e] := by
  obtain ⟨type, pos, id⟩ := e
  unfold applyEvent
  simp only [List.mem_append, List.mem_singleton, SweepEvent.mk.injEq]
  cases type with
  | start =>
    rw [getLsbD_add hid, hs]
    constructor
    · rintro (⟨⟨p, hp⟩, hn⟩ | rfl)
      · refine ⟨⟨p, .inl hp⟩, ?_⟩
        rintro ⟨q, hq | ⟨hc, -⟩⟩
        · exact hn ⟨q, hq⟩
        · cases hc
      · refine ⟨⟨pos, .inr ⟨rfl, rfl, rfl⟩⟩, ?_⟩
        rintro ⟨q, hq | ⟨hc, -⟩⟩
        · exact hfirst rfl q hq
        · cases hc
    · rintro ⟨⟨p, hp | ⟨-, -, rfl⟩⟩, hn⟩
      · exact .inl ⟨⟨p, hp⟩, fun ⟨q, hq⟩ => hn ⟨q, .inl hq⟩⟩
      · exact .inr rfl
  | stop =>
    rw [getLsbD_subtract hid, hs]
    constructor
    · rintro ⟨⟨⟨p, hp⟩, hn⟩, hne⟩
      refine ⟨⟨p, .inl hp⟩, ?_⟩
      rintro ⟨q, hq | ⟨-, -, h⟩⟩
      · exact hn ⟨q, hq⟩
      · exact hne h
    · rintro ⟨⟨p, hp | ⟨hc, -⟩⟩, hn⟩
      · exact ⟨⟨⟨p, hp⟩, fun ⟨q, hq⟩ => hn ⟨q, .inl hq⟩⟩, fun h => hn ⟨pos, .inr ⟨rfl, rfl, h⟩⟩⟩
      · cases hc

/-- The key of a started rectangle. -/
structure Region (α : Type) where
  top : α
  bottom : α
  idSet : IdSet
  deriving DecidableEq

/-- `rect_key` -/
def Region.from (k : Region α) (left : α) : StartedRect α := ⟨k.idSet, left, k.top, k.bottom⟩

/-- The regions of a list that are not empty, each bounded by the next. -/
def keys : List (α × IdSet) → List (Region α)
  | (top, set) :: (bottom, set') :: ps =>
    if set = 0 then keys ((bottom, set') :: ps)
    else ⟨top, bottom, set⟩ :: keys ((bottom, set') :: ps)
  | _ => []

theorem mem_keys_cons {p q : α × IdSet} {ps : List (α × IdSet)} {k : Region α} :
    k ∈ keys (p :: q :: ps) ↔ (k = ⟨p.1, q.1, p.2⟩ ∧ p.2 ≠ 0) ∨ k ∈ keys (q :: ps) := by
  obtain ⟨top, set⟩ := p
  obtain ⟨bottom, set'⟩ := q
  rw [keys]
  split
  · rename_i h0
    simp [h0]
  · rename_i h0
    rw [List.mem_cons, and_iff_left h0]

variable [LinearOrder α]

/-- Rectangles on the line: one for each id of the word, none of them flat. -/
structure Proper (A : Nat → Rect α → Prop) : Prop where
  id : ∀ i r, A i r → i < 64
  unique : ∀ i r r', A i r → A i r' → r = r'
  height : ∀ i r, A i r → r.top < r.bottom

/-- The set of the rectangles over `y`. -/
def IsSet (A : Nat → Rect α → Prop) (y : α) (s : IdSet) : Prop :=
  ∀ i, s.getLsbD i = true ↔ ∃ r, A i r ∧ r.top ≤ y ∧ y < r.bottom

/-- A top or a bottom. -/
def Edge (A : Nat → Rect α → Prop) (y : α) : Prop := ∃ i r, A i r ∧ (y = r.top ∨ y = r.bottom)

theorem IsSet.eq {A : Nat → Rect α → Prop} {y : α} {s s' : IdSet} (h : IsSet A y s)
    (h' : IsSet A y s') : s = s' := by
  apply BitVec.eq_of_getLsbD_eq
  intro i _
  rw [Bool.eq_iff_iff, h, h']

/-! ## The loop over the events of the line -/

/-- What `pushRegion` does to regions in order, all up to the event. -/
theorem pushRegion_eq {a : IdSet × List (α × IdSet)} {e : SweepEvent α}
    (hs : a.2.Pairwise fun p q => p.1 < q.1) (hle : ∀ p ∈ a.2, p.1 ≤ e.pos) :
    pushRegion a e = (applyEvent a.1 e,
      a.2.filter (fun p => p.1 < e.pos) ++ [(e.pos, applyEvent a.1 e)]) := by
  unfold pushRegion
  rcases List.eq_nil_or_concat' a.2 with h | ⟨ps, p, h⟩
  · rw [h]
    rfl
  · obtain ⟨-, -, hlast⟩ := List.pairwise_append.1 (h ▸ hs)
    have hlt (q : α × IdSet) (hq : q ∈ ps) : q.1 < p.1 := hlast q hq p List.mem_cons_self
    have hp : p.1 ≤ e.pos := hle p (by rw [h]; simp)
    have hps : ps.filter (fun q => q.1 < e.pos) = ps :=
      List.filter_eq_self.2 fun q hq => decide_eq_true ((hlt q hq).trans_le hp)
    rw [h, List.filter_append, hps, List.getLast?_concat, List.dropLast_concat]
    by_cases heq : p.1 = e.pos
    · rw [if_pos (by simpa using heq), List.filter_cons_of_neg (by simp [heq])]
      simp
    · have hpe : p.1 < e.pos := lt_of_le_of_ne hp heq
      rw [if_neg (by simpa using heq), List.filter_cons_of_pos (by simpa using hpe)]
      simp

/-- The regions after the events `past`, in order: `active_set` has the tops without the bottoms,
and the set of each region is that of the events up to it. -/
structure RegionsAt (past : List (SweepEvent α)) (a : IdSet × List (α × IdSet)) : Prop where
  set : ∀ i, a.1.getLsbD i = true ↔
    (∃ p, ⟨.start, p, i⟩ ∈ past) ∧ ¬ ∃ p, ⟨.stop, p, i⟩ ∈ past
  sorted : a.2.Pairwise fun p q => p.1 < q.1
  sets : ∀ p ∈ a.2, ∀ i, p.2.getLsbD i = true ↔
    (∃ q, q ≤ p.1 ∧ ⟨.start, q, i⟩ ∈ past) ∧ ¬ ∃ q, q ≤ p.1 ∧ ⟨.stop, q, i⟩ ∈ past
  pos : ∀ y, (∃ s, (y, s) ∈ a.2) ↔ ∃ e ∈ past, e.pos = y

theorem RegionsAt.push {past : List (SweepEvent α)} {a : IdSet × List (α × IdSet)}
    {e : SweepEvent α} (h : RegionsAt past a) (hid : e.rectId < 64)
    (hle : ∀ f ∈ past, f.pos ≤ e.pos)
    (hfirst : e.type = .start → ∀ p, ⟨.stop, p, e.rectId⟩ ∉ past) :
    RegionsAt (past ++ [e]) (pushRegion a e) := by
  have hset := applyEvent_spec hid h.set hfirst
  have hpos (p : α × IdSet) (hp : p ∈ a.2) : p.1 ≤ e.pos := by
    obtain ⟨f, hf, hfp⟩ := (h.pos p.1).1 ⟨p.2, hp⟩
    exact hfp ▸ hle f hf
  have hnew (f : SweepEvent α) (hf : f ∈ past ++ [e]) : f.pos ≤ e.pos := by
    rcases List.mem_append.1 hf with hf | hf
    · exact hle f hf
    · rw [List.mem_singleton.1 hf]
  rw [pushRegion_eq h.sorted hpos]
  refine ⟨hset, ?_, ?_, fun y => ?_⟩
  · refine List.pairwise_append.2 ⟨h.sorted.filter _, List.pairwise_singleton .., ?_⟩
    intro p hp q hq
    rw [List.mem_singleton.1 hq]
    exact of_decide_eq_true (List.mem_filter.1 hp).2
  · intro p hp i
    rcases List.mem_append.1 hp with hp | hp
    · -- A region above the event.
      obtain ⟨hp, hlt⟩ := List.mem_filter.1 hp
      have hlt : p.1 < e.pos := of_decide_eq_true hlt
      have hold (f : SweepEvent α) (hf : f.pos ≤ p.1) : f ∈ past ++ [e] ↔ f ∈ past := by
        rw [List.mem_append, List.mem_singleton, or_iff_left]
        rintro rfl
        exact not_le_of_gt hlt hf
      rw [h.sets p hp i]
      refine and_congr (exists_congr fun q => and_congr_right fun hq => (hold _ hq).symm)
        (not_congr (exists_congr fun q => and_congr_right fun hq => (hold _ hq).symm))
    · rw [List.mem_singleton.1 hp, hset]
      exact and_congr (exists_congr fun q => ⟨fun hq => ⟨hnew _ hq, hq⟩, And.right⟩)
        (not_congr (exists_congr fun q => ⟨fun hq => ⟨hnew _ hq, hq⟩, And.right⟩))
  · constructor
    · rintro ⟨s, hs⟩
      rcases List.mem_append.1 hs with hs | hs
      · obtain ⟨f, hf, hfy⟩ := (h.pos y).1 ⟨s, (List.mem_filter.1 hs).1⟩
        exact ⟨f, List.mem_append_left _ hf, hfy⟩
      · refine ⟨e, List.mem_append_right _ List.mem_cons_self, ?_⟩
        exact (congrArg Prod.fst (List.mem_singleton.1 hs)).symm
    · rintro ⟨f, hf, rfl⟩
      by_cases heq : f.pos = e.pos
      · rw [heq]
        exact ⟨_, List.mem_append_right _ List.mem_cons_self⟩
      · have hlt : f.pos < e.pos := lt_of_le_of_ne (hnew f hf) heq
        rcases List.mem_append.1 hf with hf | hf
        · obtain ⟨s, hs⟩ := (h.pos f.pos).2 ⟨f, hf, rfl⟩
          exact ⟨s, List.mem_append_left _ (List.mem_filter.2 ⟨hs, decide_eq_true hlt⟩)⟩
        · exact absurd (congrArg SweepEvent.pos (List.mem_singleton.1 hf)) heq

section Spec
variable {A : Nat → Rect α → Prop} {v : List (SweepEvent α)}

theorem Holds.start_iff (hv : Holds A v) (q : α) (i : Nat) :
    ⟨.start, q, i⟩ ∈ v ↔ ∃ r, A i r ∧ q = r.top := by
  rw [hv.mem]
  simp only [SweepEvent.mk.injEq]
  constructor
  · rintro ⟨j, r, hr, ⟨-, rfl, rfl⟩ | ⟨hc, -⟩⟩
    · exact ⟨r, hr, rfl⟩
    · cases hc
  · rintro ⟨r, hr, rfl⟩
    exact ⟨i, r, hr, .inl ⟨trivial, rfl, rfl⟩⟩

theorem Holds.stop_iff (hv : Holds A v) (q : α) (i : Nat) :
    ⟨.stop, q, i⟩ ∈ v ↔ ∃ r, A i r ∧ q = r.bottom := by
  rw [hv.mem]
  simp only [SweepEvent.mk.injEq]
  constructor
  · rintro ⟨j, r, hr, ⟨hc, -⟩ | ⟨-, rfl, rfl⟩⟩
    · cases hc
    · exact ⟨r, hr, rfl⟩
  · rintro ⟨r, hr, rfl⟩
    exact ⟨i, r, hr, .inr ⟨trivial, rfl, rfl⟩⟩

/-- The loop over the line. The bottom of a rectangle comes after its top. -/
theorem regionsAt_line (hA : Proper A) (hv : Holds A v) :
    RegionsAt v (v.foldl pushRegion (0, [])) := by
  refine Keyed.foldl_rule ⟨by simp, List.Pairwise.nil, by simp, by simp⟩ ?_
  intro past e es a hsplit ha
  have hbefore := (hv.sorted.parts hsplit).1
  have he : e ∈ v := by
    rw [hsplit]
    exact List.mem_append_right _ List.mem_cons_self
  obtain ⟨i, r, hr, hei⟩ := (hv.mem e).1 he
  have hid : e.rectId = i := by rcases hei with rfl | rfl <;> rfl
  refine ha.push (hid ▸ hA.id i r hr) (fun f hf => pos_le_of_evKey (hbefore f hf)) ?_
  rintro htype p hp
  have hpv : ⟨.stop, p, i⟩ ∈ v := by
    rw [hsplit]
    exact List.mem_append_left _ (hid ▸ hp)
  obtain ⟨r', hr', rfl⟩ := (hv.stop_iff p i).1 hpv
  obtain rfl := hA.unique i r r' hr hr'
  rcases hei with rfl | rfl
  · exact not_le_of_gt (hA.height i r hr) (pos_le_of_evKey (hbefore _ hp))
  · cases htype

/-- The regions of a line that holds the edges of `A`. -/
theorem activeRegions_spec (hA : Proper A) (hv : Holds A v) :
    (activeRegions v).Pairwise (fun p q => p.1 < q.1) ∧ (∀ p ∈ activeRegions v, IsSet A p.1 p.2) ∧
      ∀ y, (∃ s, (y, s) ∈ activeRegions v) ↔ Edge A y := by
  have hat := regionsAt_line hA hv
  refine ⟨hat.sorted, fun p hp i => ?_, fun y => ?_⟩
  · rw [hat.sets p hp i]
    constructor
    · rintro ⟨⟨q, hq, hin⟩, hn⟩
      obtain ⟨r, hr, rfl⟩ := (hv.start_iff q i).1 hin
      refine ⟨r, hr, hq, not_le.1 fun hle => hn ⟨r.bottom, hle, ?_⟩⟩
      exact (hv.stop_iff _ i).2 ⟨r, hr, rfl⟩
    · rintro ⟨r, hr, htop, hbot⟩
      refine ⟨⟨r.top, htop, (hv.start_iff _ i).2 ⟨r, hr, rfl⟩⟩, ?_⟩
      rintro ⟨q, hq, hin⟩
      obtain ⟨r', hr', rfl⟩ := (hv.stop_iff q i).1 hin
      obtain rfl := hA.unique i r r' hr hr'
      exact not_le_of_gt hbot hq
  · rw [show (∃ s, (y, s) ∈ activeRegions v) ↔ ∃ e ∈ v, e.pos = y from hat.pos y]
    constructor
    · rintro ⟨e, he, rfl⟩
      obtain ⟨i, r, hr, rfl | rfl⟩ := (hv.mem e).1 he
      · exact ⟨i, r, hr, .inl rfl⟩
      · exact ⟨i, r, hr, .inr rfl⟩
    · rintro ⟨i, r, hr, rfl | rfl⟩
      · exact ⟨_, (hv.start_iff _ i).2 ⟨r, hr, rfl⟩, rfl⟩
      · exact ⟨_, (hv.stop_iff _ i).2 ⟨r, hr, rfl⟩, rfl⟩

end Spec

/-! ## The bounded regions -/

/-- `k` is between two neighbours of the list. -/
structure Between (ps : List (α × IdSet)) (k : Region α) : Prop where
  top : (k.top, k.idSet) ∈ ps
  nonempty : k.idSet ≠ 0
  bottom : ∃ s, (k.bottom, s) ∈ ps
  height : k.top < k.bottom
  gap : ∀ p ∈ ps, ¬ (k.top < p.1 ∧ p.1 < k.bottom)

theorem mem_keys {ps : List (α × IdSet)} (hs : ps.Pairwise fun p q => p.1 < q.1) (k : Region α) :
    k ∈ keys ps ↔ Between ps k := by
  induction ps with
  | nil => exact ⟨nofun, fun h => nomatch h.top⟩
  | cons p ps ih =>
    obtain ⟨hp, hps⟩ := List.pairwise_cons.1 hs
    cases ps with
    | nil =>
      refine ⟨nofun, fun ⟨ht, _, ⟨s, hb⟩, hlt, _⟩ => absurd ?_ hlt.ne⟩
      rw [List.mem_singleton] at ht hb
      exact congrArg Prod.fst (ht.trans hb.symm)
    | cons q ps =>
      have hq (z : α × IdSet) (hz : z ∈ q :: ps) : q.1 ≤ z.1 := by
        rcases List.mem_cons.1 hz with rfl | hz
        · exact le_refl _
        · exact ((List.pairwise_cons.1 hps).1 z hz).le
      rw [mem_keys_cons, ih hps]
      constructor
      · rintro (⟨rfl, h0⟩ | h)
        · refine ⟨List.mem_cons_self, h0, ⟨q.2, by simp⟩, hp q List.mem_cons_self, ?_⟩
          rintro z hz ⟨hpz, hzq⟩
          rcases List.mem_cons.1 hz with rfl | hz
          · exact lt_irrefl _ hpz
          · exact not_lt_of_ge (hq z hz) hzq
        · obtain ⟨s, hs⟩ := h.bottom
          refine ⟨List.mem_cons_of_mem _ h.top, h.nonempty, ⟨s, List.mem_cons_of_mem _ hs⟩,
            h.height, fun z hz hb => ?_⟩
          rcases List.mem_cons.1 hz with rfl | hz
          · exact lt_asymm (hp _ h.top) hb.1
          · exact h.gap z hz hb
      · intro h
        obtain ⟨s, hs⟩ := h.bottom
        rcases List.mem_cons.1 h.top with ht | ht
        · -- The first region of the list: the next one bounds it.
          have htop : k.top = p.1 := congrArg Prod.fst ht
          rcases List.mem_cons.1 hs with hs | hs
          · exact absurd (htop.trans (congrArg Prod.fst hs).symm) h.height.ne
          · have hle : k.bottom ≤ q.1 := not_lt.1 fun hlt =>
              h.gap q (by simp) ⟨htop ▸ hp q List.mem_cons_self, hlt⟩
            have hset : k.idSet = p.2 := congrArg Prod.snd ht
            have hbot : k.bottom = q.1 := le_antisymm hle (hq _ hs)
            left
            refine ⟨?_, hset ▸ h.nonempty⟩
            rw [← htop, ← hset, ← hbot]
        · refine .inr ⟨ht, h.nonempty, ⟨s, ?_⟩, h.height,
            fun z hz => h.gap z (List.mem_cons_of_mem _ hz)⟩
          refine (List.mem_cons.1 hs).resolve_left fun hs => ?_
          have hbot : k.bottom = p.1 := congrArg Prod.fst hs
          exact lt_asymm h.height (hbot ▸ hp _ ht)

/-- A region of a line that holds the edges of `A`: its set is not empty, and no edge is inside. -/
structure Region.On (A : Nat → Rect α → Prop) (k : Region α) : Prop where
  set : IsSet A k.top k.idSet
  nonempty : k.idSet ≠ 0
  top : Edge A k.top
  bottom : Edge A k.bottom
  height : k.top < k.bottom
  gap : ∀ y, Edge A y → ¬ (k.top < y ∧ y < k.bottom)

section Regions
variable {A : Nat → Rect α → Prop} {v : List (SweepEvent α)}

theorem mem_keys_activeRegions (hA : Proper A) (hv : Holds A v) (k : Region α) :
    k ∈ keys (activeRegions v) ↔ k.On A := by
  obtain ⟨hsort, hset, hpos⟩ := activeRegions_spec hA hv
  rw [mem_keys hsort]
  constructor
  · rintro ⟨ht, h0, hb, hlt, hgap⟩
    refine ⟨hset _ ht, h0, (hpos _).1 ⟨_, ht⟩, (hpos _).1 hb, hlt, fun y hy => ?_⟩
    obtain ⟨s, hs⟩ := (hpos y).2 hy
    exact hgap _ hs
  · rintro ⟨hs, h0, ht, hb, hlt, hgap⟩
    obtain ⟨s, hmem⟩ := (hpos _).2 ht
    obtain rfl := hs.eq (hset _ hmem)
    exact ⟨hmem, h0, (hpos _).2 hb, hlt, fun p hp => hgap _ ((hpos _).1 ⟨_, hp⟩)⟩

theorem exists_mem_of_ne_zero {s : IdSet} (h : s ≠ 0) : ∃ i, s.getLsbD i = true := by
  by_contra hn
  apply h
  apply BitVec.eq_of_getLsbD_eq
  intro i _
  have hi : s.getLsbD i = false := Bool.eq_false_iff.2 fun hi => hn ⟨i, hi⟩
  rw [hi, show (0 : IdSet) = 0#64 from rfl, BitVec.getLsbD_zero]

/-- A region that is not empty has a next one. -/
theorem exists_next (hA : Proper A) (hv : Holds A v) {p : α × IdSet} (hp : p ∈ activeRegions v)
    (h0 : p.2 ≠ 0) : ∃ q ∈ activeRegions v, p.1 < q.1 := by
  obtain ⟨-, hset, hpos⟩ := activeRegions_spec hA hv
  obtain ⟨i, hi⟩ := exists_mem_of_ne_zero h0
  obtain ⟨r, hr, -, hlt⟩ := (hset p hp i).1 hi
  obtain ⟨s, hs⟩ := (hpos r.bottom).2 ⟨i, r, hr, .inr rfl⟩
  exact ⟨_, hs, hlt⟩

end Regions

/-- The loop over the regions sees the bounded ones. -/
theorem seeRegions_eq {x : α} {ps : List (α × IdSet)} (started : List (StartedRect α × Bool))
    (hs : ps.Pairwise fun p q => p.1 < q.1) (hnext : ∀ p ∈ ps, p.2 ≠ 0 → ∃ q ∈ ps, p.1 < q.1) :
    seeRegions x ps started =
      some ((keys ps).foldl (fun st k => see (k.from x) st) started) := by
  induction ps generalizing started with
  | nil => rfl
  | cons p ps ih =>
    obtain ⟨hp, hps⟩ := List.pairwise_cons.1 hs
    have htail (z : α × IdSet) (hz : z ∈ ps) (h0 : z.2 ≠ 0) : ∃ q ∈ ps, z.1 < q.1 := by
      obtain ⟨q, hq, hlt⟩ := hnext z (List.mem_cons_of_mem _ hz) h0
      rcases List.mem_cons.1 hq with rfl | hq
      · exact absurd hlt (lt_asymm (hp z hz))
      · exact ⟨q, hq, hlt⟩
    obtain ⟨top, set⟩ := p
    by_cases h0 : set = 0
    · unfold seeRegions
      rw [if_pos h0, ih _ hps htail]
      cases ps with
      | nil => rfl
      | cons q ps =>
        rw [keys, if_pos h0]
    · cases ps with
      | nil =>
        obtain ⟨q, hq, hlt⟩ := hnext (top, set) List.mem_cons_self h0
        rw [List.mem_singleton.1 hq] at hlt
        exact absurd hlt (lt_irrefl _)
      | cons q ps =>
        obtain ⟨bottom, set'⟩ := q
        rw [seeRegions, if_neg h0, keys, if_neg h0, List.foldl_cons]
        exact ih _ hps htail

end SeparateRects

end EinkHwc
