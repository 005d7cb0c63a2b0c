import EinkHwc.Rects.Section

/-!
# The started rectangles

`started_rects` is a map from regions to a left edge and the flag: its order does not look at the
left edge of its key.

* `view`: that map.
* `view_see`, `view_unseen`, `view_filter`: what the loops of a stop do to it.
* `mem_closed`: the rectangles that a stop appends.
-/

namespace EinkHwc

namespace SeparateRects

variable {α : Type}

def StartedRect.region (q : StartedRect α) : Region α := ⟨q.top, q.bottom, q.idSet⟩

/-- The order of `started_rects`, as a key. -/
def startedKey (p : StartedRect α × Bool) : α ×ₗ α ×ₗ Nat :=
  toLex (p.1.top, toLex (p.1.bottom, p.1.idSet.toNat))

theorem startedKey_eq_iff {p q : StartedRect α × Bool} :
    startedKey p = startedKey q ↔ p.1.region = q.1.region := by
  simp only [startedKey, StartedRect.region, toLex_inj, Prod.mk.injEq, Region.mk.injEq,
    BitVec.toNat_inj]

variable [LinearOrder α]

theorem startedLt_respects : Keyed.Respects (startedLt (α := α)) startedKey := by
  intro p q
  simp only [startedLt, StartedRect.lt, startedKey, Prod.Lex.toLex_lt_toLex, Bool.or_eq_true,
    Bool.and_eq_true, decide_eq_true_eq, beq_iff_eq, BitVec.lt_def]
  tauto

/-- The left edge and the flag of a region that is started. -/
def view (started : List (StartedRect α × Bool)) (k : Region α) : Option (α × Bool) :=
  (started.find? fun p => p.1.region = k).map fun p => (p.1.left, p.2)

variable {st : List (StartedRect α × Bool)} {k : Region α} {q : StartedRect α} {x l : α} {b : Bool}

theorem view_eq_none : view st k = none ↔ ∀ p ∈ st, p.1.region ≠ k := by
  unfold view
  rw [Option.map_eq_none_iff, List.find?_eq_none]
  simp only [decide_eq_true_eq]

theorem view_eq_some (hs : Keyed.Sorted startedKey st) :
    view st k = some (l, b) ↔ (k.from l, b) ∈ st := by
  have hkey (p : StartedRect α × Bool) (hp : st.find? (fun p => p.1.region = k) = some p) :
      p ∈ st ∧ p.1 = k.from p.1.left := by
    refine ⟨List.mem_of_find?_eq_some hp, ?_⟩
    have hk : p.1.region = k := by
      have h := List.find?_some hp
      exact of_decide_eq_true h
    rw [← hk]
    rfl
  constructor
  · intro h
    obtain ⟨p, hp, he⟩ := Option.map_eq_some_iff.1 h
    obtain ⟨hmem, hpk⟩ := hkey p hp
    rw [Prod.mk.injEq] at he
    rw [← he.1, ← he.2, ← hpk]
    exact hmem
  · intro h
    cases hf : st.find? (fun p => p.1.region = k) with
    | none => exact absurd (decide_eq_true rfl) (List.find?_eq_none.1 hf _ h)
    | some p =>
      obtain ⟨hmem, hpk⟩ := hkey p hf
      have hp : p = (k.from l, b) := hs.eq_of_key hmem h (startedKey_eq_iff.2 (by rw [hpk]; rfl))
      unfold view
      rw [hf, hp]
      rfl

/-! ## The loops of a stop -/

theorem sorted_map {f : StartedRect α × Bool → StartedRect α × Bool} (hf : ∀ p, (f p).1 = p.1)
    (hs : Keyed.Sorted startedKey st) : Keyed.Sorted startedKey (st.map f) := by
  have hkey (p : StartedRect α × Bool) : startedKey (f p) = startedKey p :=
    startedKey_eq_iff.2 (congrArg StartedRect.region (hf p))
  refine List.pairwise_map.2 (hs.imp fun h => ?_)
  rw [hkey, hkey]
  exact h

/-- The flags set to false. -/
theorem view_unseen : view (st.map fun p => (p.1, false)) k =
    (view st k).map fun p => (p.1, false) := by
  unfold view
  rw [List.find?_map, Option.map_map, Option.map_map]
  rfl

theorem view_insert (hs : Keyed.Sorted startedKey st) (hnew : view st q.region = none) :
    view (Keyed.insert startedLt (q, b) st) k =
      if k = q.region then some (q.left, b) else view st k := by
  have hkey (p : StartedRect α × Bool) (hp : p ∈ st) : startedKey p ≠ startedKey (q, b) := fun h =>
    view_eq_none.1 hnew p hp (startedKey_eq_iff.1 h)
  have hs' := Keyed.sorted_insert (x := (q, b)) startedLt_respects hs
  split
  · rename_i hk
    rw [view_eq_some hs', Keyed.mem_insert_of_new startedLt_respects hs hkey, hk]
    exact .inr rfl
  · rename_i hk
    apply Option.ext
    rintro ⟨l, c⟩
    rw [view_eq_some hs', view_eq_some hs, Keyed.mem_insert_of_new startedLt_respects hs hkey,
      or_iff_left]
    intro h
    exact hk (congrArg (fun p => p.1.region) h)

theorem view_modify {it : StartedRect α × Bool} :
    view (Keyed.modify startedLt it (fun p => (p.1, true)) st) k =
      (view st k).map fun p => (p.1, if k = it.1.region then true else p.2) := by
  unfold view Keyed.modify
  rw [List.find?_map, Option.map_map, Option.map_map]
  have hpred : ((fun p : StartedRect α × Bool => decide (p.1.region = k)) ∘ fun p =>
      if (!startedLt it p && !startedLt p it) = true then (p.1, true) else p) =
      fun p => decide (p.1.region = k) := by
    funext p
    rw [Function.comp_apply]
    split <;> rfl
  rw [hpred]
  refine Option.map_congr fun p hp => ?_
  have hk : p.1.region = k := by
    have h := List.find?_some hp
    exact of_decide_eq_true h
  simp only [Function.comp_apply, Keyed.equiv_iff startedLt_respects, startedKey_eq_iff, hk]
  split <;> rfl

theorem sorted_see (hs : Keyed.Sorted startedKey st) : Keyed.Sorted startedKey (see q st) := by
  unfold see
  split
  · exact Keyed.sorted_insert startedLt_respects hs
  · refine sorted_map (fun p => ?_) hs
    split <;> rfl

/-- A region is seen: it is started now, or keeps its left edge. -/
theorem view_see (hs : Keyed.Sorted startedKey st) : view (see q st) k =
    if k = q.region then some (((view st k).map Prod.fst).getD q.left, true) else view st k := by
  unfold see
  split
  · rename_i hf
    have hnone : view st q.region = none := view_eq_none.2 fun p hp h =>
      (Keyed.find?_eq_none startedLt_respects hs).1 hf p hp (startedKey_eq_iff.2 h)
    rw [view_insert hs hnone]
    split
    · rename_i hk
      rw [hk, hnone]
      rfl
    · rfl
  · rename_i it hf
    obtain ⟨hit, hkey⟩ := (Keyed.find?_eq_some startedLt_respects hs).1 hf
    have hreg : it.1.region = q.region := startedKey_eq_iff.1 hkey
    rw [view_modify, hreg]
    split
    · rename_i hk
      have hview : view st k = some (it.1.left, it.2) := by
        rw [view_eq_some hs, hk, ← hreg]
        exact hit
      rw [hview]
      rfl
    · exact Option.map_id'

/-- All the regions of a stop are seen. -/
theorem view_see_all (x : α) (ks : List (Region α)) (hs : Keyed.Sorted startedKey st) :
    Keyed.Sorted startedKey (ks.foldl (fun st k => see (k.from x) st) st) ∧
      ∀ k, view (ks.foldl (fun st k => see (k.from x) st) st) k =
        if k ∈ ks then some (((view st k).map Prod.fst).getD x, true) else view st k := by
  induction ks generalizing st with
  | nil => exact ⟨hs, fun k => rfl⟩
  | cons k₀ ks ih =>
    obtain ⟨hsort, hview⟩ := ih (sorted_see (q := k₀.from x) hs)
    refine ⟨hsort, fun k => ?_⟩
    rw [List.foldl_cons, hview, view_see hs]
    by_cases hk : k = k₀
    · have hmem : k ∈ k₀ :: ks := hk ▸ List.mem_cons_self
      rw [if_pos (show k = (k₀.from x).region from hk), if_pos hmem]
      split <;> rfl
    · rw [if_neg (show k ≠ (k₀.from x).region from hk)]
      simp only [List.mem_cons, hk, false_or]

/-- The started rectangles that go on. -/
theorem view_filter (hs : Keyed.Sorted startedKey st) :
    view (st.filter (·.2)) k = (view st k).filter (·.2) := by
  apply Option.ext
  rintro ⟨l, b⟩
  have hs' : Keyed.Sorted startedKey (st.filter (·.2)) := hs.filter _
  rw [view_eq_some hs', List.mem_filter, Option.filter_eq_some_iff, view_eq_some hs]

def RectSet.region (a : RectSet α) : Region α := ⟨a.rect.top, a.rect.bottom, a.idSet⟩

/-- The rectangles that a stop appends. -/
theorem mem_closed (hs : Keyed.Sorted startedKey st) (a : RectSet α) :
    a ∈ (st.filter (!·.2)).map (close x) ↔
      view st a.region = some (a.rect.left, false) ∧ a.rect.right = x := by
  rw [view_eq_some hs, List.mem_map]
  constructor
  · rintro ⟨⟨q, b⟩, hp, rfl⟩
    obtain ⟨hmem, hb⟩ := List.mem_filter.1 hp
    obtain rfl : b = false := by simpa using hb
    exact ⟨hmem, rfl⟩
  · rintro ⟨hmem, rfl⟩
    exact ⟨_, List.mem_filter.2 ⟨hmem, rfl⟩, rfl⟩

theorem nodup_closed (x : α) (hs : Keyed.Sorted startedKey st) :
    ((st.filter (!·.2)).map (close x)).Nodup := by
  have hs' : Keyed.Sorted startedKey (st.filter (!·.2)) := hs.filter _
  refine List.pairwise_map.2 (hs'.imp fun {p q} h he => h.ne (startedKey_eq_iff.2 ?_))
  exact congrArg RectSet.region he

end SeparateRects

end EinkHwc
