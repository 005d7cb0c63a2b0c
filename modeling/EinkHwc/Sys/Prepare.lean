import EinkHwc.Sys.Acquire

/-!
# `hwc_prepare`

SurfaceFlinger calls `hwc_prepare` before every `hwc_set`. It gives every layer but the last one of
each display to GLES, so that only the last one can be the framebuffer target when the lists come
back; in between SurfaceFlinger fills in handles and fences, and leaves the composition types alone.

That is what `QueueComposite` relies on. It moves its composition into the queue at the first layer
with a new handle and goes on with the layers; a second such layer in the list would use the moved
`unique_ptr`, which is null. With the types that `hwc_prepare` leaves, no run gets there
(`queueComposite_not_moved`).
-/

namespace EinkHwc

open Trace

/-- `HWC_FRAMEBUFFER` -/
def hwcFramebuffer : Int := 0

/-- The inner loop of `hwc_prepare`, which stops before the last layer. -/
def prepareLayers : List Layer → List Layer
  | [] => []
  | [l] => [l]
  | l :: ls => { l with compositionType := hwcFramebuffer } :: prepareLayers ls

/-- `hwc_prepare` -/
def hwcPrepare (d : Displays) : Displays :=
  d.map (Option.map fun dc => { dc with hwLayers := prepareLayers dc.hwLayers })

/-- The composition types of all layers. -/
def types (d : Displays) : List (Option (List Int)) :=
  d.map (Option.map fun dc => dc.hwLayers.map Layer.compositionType)

/-- What `hwc_prepare` does to the types of one display. -/
def prepareTypes : List Int → List Int
  | [] => []
  | [t] => [t]
  | _ :: ts => hwcFramebuffer :: prepareTypes ts

theorem prepareTypes_ne_nil {ts : List Int} (h : ts ≠ []) : prepareTypes ts ≠ [] := by
  cases ts using prepareTypes.fun_cases with
  | case1 => exact absurd rfl h
  | case2 | case3 => simp [prepareTypes]

theorem prepareTypes_idem (ts : List Int) : prepareTypes (prepareTypes ts) = prepareTypes ts := by
  induction ts using prepareTypes.induct with
  | case1 | case2 => rfl
  | case3 t ts hne ih =>
    have hn : prepareTypes ts ≠ [] := prepareTypes_ne_nil (by simpa using hne)
    rw [prepareTypes.eq_3 t ts hne, prepareTypes.eq_3 _ _ (by simpa using hn), ih]

theorem types_prepareLayers (ls : List Layer) :
    (prepareLayers ls).map Layer.compositionType =
      prepareTypes (ls.map Layer.compositionType) := by
  induction ls using prepareLayers.induct with
  | case1 | case2 => rfl
  | case3 l ls hne ih =>
    rw [prepareLayers.eq_3 l ls hne, List.map_cons, List.map_cons, ih,
      prepareTypes.eq_3 _ _ (by simpa using hne)]

theorem types_hwcPrepare (d : Displays) :
    types (hwcPrepare d) = (types d).map (Option.map prepareTypes) := by
  simp only [types, hwcPrepare, List.map_map]
  congr 1
  funext dc
  cases dc with
  | none => rfl
  | some dc => exact congrArg some (types_prepareLayers dc.hwLayers)

/-! ## One target a display -/

/-- The number of framebuffer targets, from the types. -/
def targets (ts : List Int) : Nat := ts.countP (· == hwcFramebufferTarget)

theorem countP_isTarget (ls : List Layer) :
    ls.countP Layer.isTarget = targets (ls.map Layer.compositionType) := by
  rw [targets, List.countP_map]
  rfl

theorem targets_prepareTypes (ts : List Int) : targets (prepareTypes ts) ≤ 1 := by
  induction ts using prepareTypes.induct with
  | case1 => exact Nat.zero_le _
  | case2 t => exact List.countP_le_length
  | case3 t ts hne ih =>
    rw [prepareTypes.eq_3 t ts hne, targets, List.countP_cons_of_neg (by decide)]
    exact ih

theorem oneTarget_iff {d : Displays} :
    oneTarget d = true ↔ ∀ ts, some ts ∈ types d → targets ts ≤ 1 := by
  simp only [oneTarget, List.all_eq_true, decide_eq_true_eq, types, List.mem_map]
  constructor
  · rintro h ts ⟨dc, hdc, he⟩
    obtain ⟨dc, rfl, rfl⟩ := Option.map_eq_some_iff.1 he
    rw [← countP_isTarget]
    exact h _ hdc
  · rintro h (_ | dc) hdc
    · exact Nat.zero_le _
    · have := h _ ⟨some dc, hdc, rfl⟩
      rwa [← countP_isTarget] at this

/-- Lists with the types that `hwc_prepare` left have one target a display. -/
theorem oneTarget_of_prepared {d d₀ : Displays} (h : types d = types (hwcPrepare d₀)) :
    oneTarget d = true := by
  rw [oneTarget_iff, h, types_hwcPrepare]
  intro ts hts
  obtain ⟨ts₀, -, he⟩ := List.mem_map.1 hts
  obtain ⟨ts₁, -, rfl⟩ := Option.map_eq_some_iff.1 he
  exact targets_prepareTypes ts₁

/-! ## The composition of `QueueComposite` -/

variable {s s' : St} {a : Act} {es tr : List Ev} {ok : St → Act → Prop}

/-- The lists that an action brings. -/
def Act.lists : Act → Displays
  | .hwcSet _ _ d => d
  | _ => []

/-- Each `hwc_set` is given lists with one framebuffer target a display. -/
def oneTargets (_ : St) (a : Act) : Prop := oneTarget a.lists = true

instance (s : St) (a : Act) : Decidable (oneTargets s a) := inferInstanceAs (Decidable (_ = _))

/-- Each `hwc_set` is given lists with the composition types that `hwc_prepare` left. -/
def prepared (_ : St) (a : Act) : Prop := ∃ d₀, types a.lists = types (hwcPrepare d₀)

instance (s : St) (a : Act) : Decidable (prepared s a) :=
  decidable_of_iff (types a.lists = (types a.lists).map (Option.map prepareTypes)) (by
    constructor
    · intro h
      exact ⟨a.lists, by rw [types_hwcPrepare]; exact h⟩
    · rintro ⟨d₀, h⟩
      rw [h, types_hwcPrepare, List.map_map, Option.map_comp_map]
      congr 2
      funext ts
      exact (prepareTypes_idem ts).symm)

theorem oneTargets_of_prepared (s : St) (a : Act) (h : prepared s a) : oneTargets s a := by
  obtain ⟨d₀, hd⟩ := h
  exact oneTarget_of_prepared hd

/-- The loops of `hwc_set` and `QueueComposite` in a state: their display is there, and where the
composition is moved, no target is left in its list. -/
structure Loops (s : St) : Prop where
  one : s.hal.inSet = true → oneTarget s.disp = true
  disp : ∀ i j k comp, s.hal = .queue i j k comp → ∃ dc, s.disp[i]? = some (some dc)
  moved : ∀ i j k, s.hal = .queue i j k none →
    ∀ l ∈ (layersOf s.disp i).drop k, l.isTarget = false

theorem Loops.outside (h : s.hal.inSet = false) : Loops s := by
  refine ⟨fun hin => ?_, fun i j k comp hq => ?_, fun i j k hq => ?_⟩
  · rw [h] at hin; cases hin
  all_goals rw [hq] at h; cases h

theorem Loops.inLoop {i j : Nat} (h : s.hal = .set i j) (h1 : oneTarget s.disp = true) :
    Loops s := by
  refine ⟨fun _ => h1, fun i j k comp hq => ?_, fun i j k hq => ?_⟩
  all_goals rw [h] at hq; cases hq

theorem Loops.keep (hi : Loops s) (hh : s'.hal = s.hal) (hd : s'.disp = s.disp) : Loops s' := by
  obtain ⟨h1, h2, h3⟩ := hi
  constructor <;> rwa [hh, hd]

theorem Loops.step (hi : Loops s) (hok : oneTargets s a) (h : Step s a s' es) : Loops s' := by
  cases h
  case setOn mode oneFull d hh hp hg => exact .inLoop rfl hok
  case setOff hh hp hg => exact .outside (by rw [hh]; rfl)
  case powerOff => exact .outside rfl
  case posted hh _ _ | postFailed hh _ => exact .outside (by dsimp only; split <;> rfl)
  case setDone hh hp _ => exact .outside rfl
  case nextDisplay hh hp _ _ | nextLayer hh hp _ _ => exact .inLoop rfl (hi.one (by rw [hh]; rfl))
  case start i j dc l fd hh hp hd hl hq =>
    have h1 := hi.one (by rw [hh]; rfl)
    have hlen := (List.getElem?_eq_some_iff.1 hd).1
    have hc : dc.hwLayers.countP Layer.isTarget ≤ 1 := countP_layersOf h1 hd
    refine ⟨fun _ => oneTarget_set h1 hc, fun i' j' k comp hx => ?_,
      fun i' j' k hx => ?_⟩
    · obtain ⟨rfl, -⟩ : i = i' ∧ _ := by simpa [queueCompositeStart] using hx
      exact ⟨_, List.getElem?_set_self hlen⟩
    · simp [queueCompositeStart] at hx
  case queueDone hh hp hd hl => exact .inLoop rfl (hi.one (by rw [hh]; rfl))
  case otherLayer i j k comp dc l fd hh hp hd hl hq
    | sameLayer i j k comp dc l fd hh hp hd hl hq hn =>
    refine ⟨fun _ => hi.one (by rw [hh]; rfl), fun i' j' k' comp' hx => ?_,
      fun i' j' k' hx x hm => ?_⟩
    · obtain ⟨rfl, -⟩ : i = i' ∧ _ := by simpa using hx
      exact ⟨dc, hd⟩
    · obtain ⟨rfl, rfl, rfl, rfl⟩ : i = i' ∧ j = j' ∧ k + 1 = k' ∧ comp = none := by simpa using hx
      exact hi.moved i j k hh x (List.mem_of_mem_drop (List.drop_drop .. ▸ hm))
  case newLayer i j k comp dc l fd hh hp hd hl hq hn =>
    have h1 := hi.one (by rw [hh]; rfl)
    have hlen := (List.getElem?_eq_some_iff.1 hd).1
    have hlk : layerAt s.disp i k = some l := (layerAt_eq hd).trans hl
    have ht := queueable_isTarget hq
    have hrest := (noTarget_of_one h1 hlk ht).2
    obtain ⟨hk, hlk'⟩ := List.getElem?_eq_some_iff.1 hl
    refine ⟨fun _ => oneTarget_set h1 ?_, fun i' j' k' comp' hx => ?_, fun i' j' k' hx x hm => ?_⟩
    · -- the new layer is a target in the place of the old one
      have hc : dc.hwLayers.countP Layer.isTarget ≤ 1 := countP_layersOf h1 hd
      rw [List.countP_set hk, hlk', if_pos ht]
      have hpos : 0 < dc.hwLayers.countP Layer.isTarget :=
        List.countP_pos_iff.2 ⟨l, List.mem_of_getElem? hl, ht⟩
      split <;> omega
    · obtain ⟨rfl, -⟩ : i = i' ∧ _ := by simpa [queueLayer] using hx
      exact ⟨_, List.getElem?_set_self hlen⟩
    · obtain ⟨rfl, rfl, rfl⟩ : i = i' ∧ j = j' ∧ k + 1 = k' := by simpa [queueLayer] using hx
      rw [queueLayer, layersOf_set hlen, List.drop_set_of_lt (Nat.lt_succ_self k)] at hm
      rw [layersOf_eq hd] at hrest
      exact hrest x hm
  case moved | pushed | started => exact hi.keep rfl rfl
  all_goals exact hi.keep rfl rfl

theorem loops_run (hr : Run oneTargets tr s) : Loops s := by
  refine run_induction (J := fun _ _ => True) (I := fun _ s => Loops s) (fun _ _ _ => trivial) ?_ ?_
    hr
  · intro panel b
    exact .outside rfl
  · intro s a s' es tr _ hi hok h
    exact hi.step hok h

/-- Where the HAL thread is in its loops, it can go on. -/
theorem Loops.halStep_isSome (hi : Loops s) (hp : s.ho.prod = .idle) (hh : s.hal.inSet = true)
    (fd : Int) : (halStep fd s).isSome = true := by
  cases hs : s.hal with
  | idle | posts => rw [hs] at hh; cases hh
  | set i j => simp only [halStep, hp, hs, Option.isSome_some]
  | queue i j k comp =>
    obtain ⟨dc, hd⟩ := hi.disp i j k comp hs
    simp only [halStep, hp, hs, queueStep, hd, Option.join_some]
    cases hl : dc.hwLayers[k]? with
    | none => rfl
    | some l =>
      by_cases hq : l.queueable = true
      · cases comp with
        | some c => simp only [hq, ↓reduceIte]; split <;> rfl
        | none =>
          -- the composition is moved, so this layer is no target
          have hm : l ∈ (layersOf s.disp i).drop k := by
            rw [layersOf_eq hd]
            exact List.mem_of_getElem? (show (dc.hwLayers.drop k)[0]? = some l by
              rw [List.getElem?_drop]; exact hl)
          have ht := hi.moved i j k hs l hm
          rw [queueable_isTarget hq] at ht
          cases ht
      · simp only [hq, Bool.false_eq_true, ↓reduceIte, Option.isSome_some]

/-- **`QueueComposite` does not use a moved composition.** In every run whose lists have the
composition types that `hwc_prepare` leaves, the loops of `hwc_set` and `QueueComposite` can always
go on; the only step that the model does not have is that use. -/
theorem queueComposite_not_moved (hr : Run prepared tr s) (hp : s.ho.prod = .idle)
    (hh : s.hal.inSet = true) (fd : Int) : (halStep fd s).isSome = true :=
  (loops_run (hr.mono oneTargets_of_prepared)).halStep_isSome hp hh fd

/-- `queueComposite_not_moved` after the push of the last layer, behind one for GLES. -/
theorem queueComposite_not_moved_last : ∃ tr s, Run prepared tr s ∧ s.hal = .queue 0 1 2 none ∧
    (halStep 0 s).isSome = true := by
  obtain ⟨tr, s, hr, hp⟩ := System.exists_run system prepared ⟨⟨8, 8, 0⟩, 0, rfl, rfl⟩
    (List.flatten [
      [.hwcSet epdPartGc16 0 (hwcPrepare [some { hwLayers := [{ handle := 2 }, { handle := 1 }] }]),
        .hal 10, .hal 11, .hal 12, .hal 13],
      List.replicate 7 .prod])
    (fun _ s => s.hal == .queue 0 1 2 none && s.ho.prod == .idle) (by decide +kernel)
  simp only [Bool.and_eq_true, beq_iff_eq] at hp
  exact ⟨tr, s, hr, hp.1, queueComposite_not_moved hr hp.2 (by rw [hp.1]; rfl) 0⟩

end EinkHwc
