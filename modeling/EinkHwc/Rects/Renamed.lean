import EinkHwc.Rects.Partition
import Mathlib.Logic.Equiv.Basic
import Mathlib.Data.List.FinRange

/-!
# The order of the input

A permuted input has the same rectangles over each stop, under other ids. So the regions seen at a
stop are the same but for their id sets, and so are the runs, whatever the two sweeps do in between.

* `Renamed`: two words with the same ids but for a renaming; `onAt_renamed` is one stop.
* `separateRects_permute`: the two runs append the same rectangles, renamed.
-/

namespace EinkHwc

namespace SeparateRects

variable {α : Type}

/-- The input with its rectangle `i` at place `σ i`. -/
def permute (ins : List (Rect α)) (σ : Equiv.Perm (Fin ins.length)) : List (Rect α) :=
  List.ofFn fun j => ins.get (σ.symm j)

/-- The id set with `σ i` for each `i`. -/
def rename {n : Nat} (σ : Equiv.Perm (Fin n)) (s : IdSet) : IdSet :=
  (List.finRange n).foldl (fun t (i : Fin n) => if s.getLsbD i then IdSet.add t (σ i) else t) 0

/-- A permutation of the first ids, on all of them. -/
def onIds {n : Nat} (σ : Equiv.Perm (Fin n)) : Equiv.Perm Nat := σ.extendDomain Fin.equivSubtype

/-- `s'` has `g i` where `s` has `i`. -/
def Renamed (g : Equiv.Perm Nat) (s s' : IdSet) : Prop := ∀ i, s'.getLsbD (g i) = s.getLsbD i

/-! ## Words -/

section Words
variable {n : Nat} {σ : Equiv.Perm (Fin n)} {g : Equiv.Perm Nat} {s s' t t' : IdSet}

theorem onIds_fin (i : Fin n) : onIds σ i = σ i := σ.extendDomain_apply_image Fin.equivSubtype i

theorem onIds_of_ge {i : Nat} (hi : n ≤ i) : onIds σ i = i :=
  σ.extendDomain_apply_not_subtype Fin.equivSubtype (not_lt_of_ge hi)

theorem Renamed.right_unique (h : Renamed g s s') (h' : Renamed g s t') : s' = t' := by
  apply BitVec.eq_of_getLsbD_eq
  intro j _
  obtain ⟨i, rfl⟩ := g.surjective j
  rw [h, h']

theorem Renamed.left_unique (h : Renamed g s s') (h' : Renamed g t s') : s = t := by
  apply BitVec.eq_of_getLsbD_eq
  intro i _
  rw [← h, h']

theorem Renamed.eq_zero_iff (h : Renamed g s s') : s' = 0 ↔ s = 0 := by
  have h0 : Renamed g 0 0 := fun i => by simp
  constructor
  · rintro rfl
    exact h.left_unique h0
  · rintro rfl
    exact h.right_unique h0

theorem getLsbD_rename (hn : n ≤ 64) (j : Nat) :
    (rename σ s).getLsbD j = true ↔ ∃ i : Fin n, s.getLsbD i = true ∧ (σ i : Nat) = j := by
  have hgen (is : List (Fin n)) (t : IdSet) :
      (is.foldl (fun t (i : Fin n) => if s.getLsbD i then IdSet.add t (σ i) else t) t).getLsbD j =
        true ↔ t.getLsbD j = true ∨ ∃ i ∈ is, s.getLsbD i = true ∧ (σ i : Nat) = j := by
    induction is generalizing t with
    | nil => simp
    | cons i is ih =>
      rw [List.foldl_cons, ih]
      split
      · rename_i hi
        rw [getLsbD_add ((σ i).isLt.trans_le hn)]
        grind
      · grind
  unfold rename
  rw [hgen]
  simp

/-- `rename` is the renaming, on sets of ids of the input. -/
theorem renamed_rename (hn : n ≤ 64) (hs : ∀ i, s.getLsbD i = true → i < n) :
    Renamed (onIds σ) s (rename σ s) := by
  intro i
  rw [Bool.eq_iff_iff, getLsbD_rename hn]
  constructor
  · rintro ⟨j, hj, he⟩
    rw [← onIds_fin, (onIds σ).injective.eq_iff] at he
    rw [← he]
    exact hj
  · intro hi
    exact ⟨⟨i, hs i hi⟩, hi, (onIds_fin _).symm⟩

/-- Each set of ids of the input is a renamed one. -/
theorem exists_renamed (hn : n ≤ 64) (hs : ∀ j, s'.getLsbD j = true → j < n) :
    ∃ s, (∀ i, s.getLsbD i = true → i < n) ∧ Renamed (onIds σ) s s' := by
  obtain ⟨s, hbits⟩ := exists_idSet hn fun i => s'.getLsbD (onIds σ i) = true
  refine ⟨s, fun i hi => ((hbits i).1 hi).1, fun i => ?_⟩
  rw [Bool.eq_iff_iff, hbits, iff_and_self]
  intro hi
  by_contra hge
  rw [onIds_of_ge (not_lt.1 hge)] at hi
  exact hge (hs i hi)

end Words

theorem getElem?_permute (ins : List (Rect α)) (σ : Equiv.Perm (Fin ins.length)) (i : Nat) :
    (permute ins σ)[onIds σ i]? = ins[i]? := by
  unfold permute
  rcases lt_or_ge i ins.length with hi | hi
  · have h := onIds_fin (σ := σ) ⟨i, hi⟩
    rw [h, List.getElem?_ofFn]
    simp [hi]
  · rw [onIds_of_ge hi, List.getElem?_eq_none hi, List.getElem?_eq_none]
    simpa using hi

/-! ## The rectangles over a stop -/

variable [LinearOrder α]

section Stops
variable {ins ins' : List (Rect α)} {g : Equiv.Perm Nat} {x y : α} {s s' : IdSet} {i : Nat}
  {r : Rect α}

variable (hg : ∀ i, ins'[g i]? = ins[i]?)
include hg

theorem valid_renamed : Valid ins' (g i) r ↔ Valid ins i r :=
  ⟨fun h => ⟨hg i ▸ h.get, h.width, h.height⟩, fun h => ⟨(hg i).trans h.get, h.width, h.height⟩⟩

theorem stop_renamed : Stop ins' x ↔ Stop ins x := by
  unfold Stop
  rw [g.surjective.exists]
  simp only [valid_renamed hg]

theorem active_renamed : Active ins' x (g i) r ↔ Active ins x i r :=
  ⟨fun h => ⟨(valid_renamed hg).1 h.valid, h.left, h.right⟩,
    fun h => ⟨(valid_renamed hg).2 h.valid, h.left, h.right⟩⟩

theorem isSet_renamed (hs : Renamed g s s') :
    IsSet (Active ins' x) y s' ↔ IsSet (Active ins x) y s := by
  unfold IsSet
  rw [g.surjective.forall]
  simp only [active_renamed hg, hs _]

theorem edge_renamed : Edge (Active ins' x) y ↔ Edge (Active ins x) y := by
  unfold Edge
  rw [g.surjective.exists]
  simp only [active_renamed hg]

theorem onAt_renamed {top bottom : α} (hs : Renamed g s s') :
    OnAt ins' x ⟨top, bottom, s'⟩ ↔ OnAt ins x ⟨top, bottom, s⟩ := by
  constructor
  · rintro ⟨hset, h0, ht, hb, hlt, hgap⟩
    exact ⟨(isSet_renamed hg hs).1 hset, mt hs.eq_zero_iff.2 h0, (edge_renamed hg).1 ht,
      (edge_renamed hg).1 hb, hlt, fun y hy => hgap y ((edge_renamed hg).2 hy)⟩
  · rintro ⟨hset, h0, ht, hb, hlt, hgap⟩
    exact ⟨(isSet_renamed hg hs).2 hset, mt hs.eq_zero_iff.1 h0, (edge_renamed hg).2 ht,
      (edge_renamed hg).2 hb, hlt, fun y hy => hgap y ((edge_renamed hg).1 hy)⟩

theorem Separated.mem_renamed {ts ts' : List α} {app app' : List (RectSet α)} {q : Rect α}
    (h : Separated ins ts app) (h' : Separated ins' ts' app') (hs : Renamed g s s') :
    ⟨s', q⟩ ∈ app' ↔ ⟨s, q⟩ ∈ app := by
  have hts : ts' = ts := h'.desc.eq_of_mem_iff h.desc fun t => by
    rw [h'.stops, h.stops, stop_renamed hg]
  rw [h'.closed, h.closed, hts]
  exact Sweep.closed_congr fun t _ => onAt_renamed hg hs

end Stops

/-- The ids of an appended rectangle are those of input rectangles. -/
theorem Separated.id_lt {ins : List (Rect α)} {ts : List α} {app : List (RectSet α)} {a : RectSet α}
    (h : Separated ins ts app) (ha : a ∈ app) (i : Nat) (hi : a.idSet.getLsbD i = true) :
    i < ins.length := by
  obtain ⟨r, hr, -⟩ := ((h.region_on ha).set i).1 hi
  exact (List.getElem?_eq_some_iff.1 hr.valid.get).1

/-- For at most 64 rectangles in another order, the same rectangles are appended, in some order, and
each id in their sets is renamed. -/
theorem separateRects_permute (ins : List (Rect α)) (hlen : ins.length ≤ 64)
    (σ : Equiv.Perm (Fin ins.length)) (out out' : List (RectSet α)) :
    ∃ app app', separateRects ins out = some (out ++ app) ∧
      separateRects (permute ins σ) out' = some (out' ++ app') ∧
      app'.Perm (app.map fun a => ⟨rename σ a.idSet, a.rect⟩) := by
  have hlen' : (permute ins σ).length = ins.length := List.length_ofFn
  obtain ⟨ts, app, happ, h⟩ := separateRects_spec hlen out
  obtain ⟨ts', app', happ', h'⟩ := separateRects_spec (hlen'.le.trans hlen) out'
  have hg := getElem?_permute ins σ
  refine ⟨app, app', happ, happ', ?_⟩
  have hinj : (app.map fun a => (⟨rename σ a.idSet, a.rect⟩ : RectSet α)).Nodup := by
    refine List.Nodup.map_on (fun a ha b hb he => ?_) h.nodup
    obtain ⟨s, q⟩ := a
    obtain ⟨t, q'⟩ := b
    obtain ⟨hset, rfl⟩ := (RectSet.mk.injEq ..).mp he
    have hs := renamed_rename (σ := σ) hlen (h.id_lt ha)
    have ht := renamed_rename (σ := σ) hlen (h.id_lt hb)
    obtain rfl : s = t := hs.left_unique (hset.symm ▸ ht)
    rfl
  rw [List.perm_ext_iff_of_nodup h'.nodup hinj]
  rintro ⟨s', q⟩
  rw [List.mem_map]
  constructor
  · intro hmem
    have hbits (j : Nat) (hj : s'.getLsbD j = true) : j < ins.length := by
      have hlt := h'.id_lt hmem j hj
      rw [hlen'] at hlt
      exact hlt
    obtain ⟨s, hs, hren⟩ := exists_renamed (σ := σ) hlen hbits
    refine ⟨⟨s, q⟩, (h.mem_renamed hg h' hren).1 hmem, ?_⟩
    rw [hren.right_unique (renamed_rename hlen hs)]
  · rintro ⟨⟨s, q'⟩, hmem, he⟩
    obtain ⟨rfl, rfl⟩ := (RectSet.mk.injEq ..).mp he
    exact (h.mem_renamed hg h' (renamed_rename hlen (h.id_lt hmem))).2 hmem

theorem separateRects_permute_swap :
    ∃ app app', separateRects [(⟨0, 0, 4, 5⟩ : Rect Int), ⟨2, 0, 6, 10⟩] [] = some ([] ++ app) ∧
      separateRects (permute [(⟨0, 0, 4, 5⟩ : Rect Int), ⟨2, 0, 6, 10⟩] (Equiv.swap 0 1)) [] =
        some ([] ++ app') ∧
      app'.Perm (app.map fun a => ⟨rename (Equiv.swap (0 : Fin 2) 1) a.idSet, a.rect⟩) :=
  separateRects_permute _ (by decide) (Equiv.swap 0 1) [] []

end SeparateRects

end EinkHwc
