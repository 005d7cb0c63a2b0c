import EinkHwc.Hal.Modes
import Mathlib.Data.List.Induction

/-!
# The skip count of the framework

`hwc_adajust_sf_vsync` tells SurfaceFlinger how many frames to skip, through a property that it
writes when the mode changes. `EPD_SUSPEND` is left through `EPD_RESUME` only, and the first five
calls after `EPD_RESUME` change nothing, but for `EPD_SUSPEND`.

* `Adjusted`: the function turned into rules, one for each exit.
* `sfVsyncCalls`: any sequence of calls, from `hwc_set` and `hwc_set_power_mode`.
* `recorded_calls`: the property has the text of `last_mode`.
* `held_calls`: the calls after `EPD_RESUME`.
-/

namespace EinkHwc

variable {mode : Int} {v v' : SfVsync}

/-- The exits of `hwc_adajust_sf_vsync`. -/
inductive Adjusted (mode : Int) (v : SfVsync) : SfVsync → Prop
  | suspended : v.lastMode = epdSuspend → mode ≠ epdResume → Adjusted mode v v
  | held : v.lastMode = epdResume → mode ≠ epdSuspend → 0 < v.resumeCount →
      Adjusted mode v { v with resumeCount := v.resumeCount - 1 }
  | same : mode = v.lastMode → (mode = epdResume → v.resumeCount ≤ 0) → Adjusted mode v v
  | changed (count : Int) : mode ≠ v.lastMode →
      (v.lastMode = epdResume → mode = epdSuspend ∨ v.resumeCount ≤ 0) →
      (mode = epdResume → count = 5) →
      Adjusted mode v
        { lastMode := mode, resumeCount := count, refreshSkipCount := some (refreshSkipCount mode) }

theorem adjusted (mode : Int) (v : SfVsync) : Adjusted mode v (hwcAdajustSfVsync mode v) := by
  unfold hwcAdajustSfVsync
  by_cases hsus : v.lastMode = epdSuspend ∧ mode ≠ epdResume
  · rw [if_pos hsus]
    exact .suspended hsus.1 hsus.2
  rw [if_neg hsus]
  by_cases hclear : v.lastMode = epdResume ∧ mode = epdSuspend
  · -- The counter is reset, so that the call is not held.
    rw [if_pos hclear]
    have hne : mode ≠ v.lastMode := by
      rw [hclear.1, hclear.2]
      decide
    dsimp only
    rw [if_neg (by omega), if_neg hne]
    refine .changed _ hne (fun _ => .inl hclear.2) fun h => ?_
    rw [if_pos h]
  · rw [if_neg hclear]
    dsimp only
    by_cases hheld : v.lastMode = epdResume ∧ 0 < v.resumeCount
    · rw [if_pos hheld]
      exact .held hheld.1 (fun h => hclear ⟨hheld.1, h⟩) hheld.2
    · rw [if_neg hheld]
      by_cases hsame : mode = v.lastMode
      · rw [if_pos hsame]
        exact .same hsame fun h => by
          have hpos : ¬ 0 < v.resumeCount := fun hpos => hheld ⟨hsame.symm.trans h, hpos⟩
          omega
      · rw [if_neg hsame]
        refine .changed _ hsame (fun h => .inr ?_) fun h => if_pos h
        have hpos : ¬ 0 < v.resumeCount := fun hpos => hheld ⟨h, hpos⟩
        omega

/-- The statics after the calls, the first one first. -/
def sfVsyncCalls (modes : List Int) : SfVsync := modes.foldl (fun v m => hwcAdajustSfVsync m v) {}

@[simp] theorem sfVsyncCalls_nil : sfVsyncCalls [] = {} := rfl

theorem sfVsyncCalls_concat (modes : List Int) (mode : Int) :
    sfVsyncCalls (modes ++ [mode]) = hwcAdajustSfVsync mode (sfVsyncCalls modes) :=
  List.foldl_append ..

/-! ## The property -/

/-- The property has the text of `last_mode`. -/
def Recorded (v : SfVsync) : Prop := v.refreshSkipCount = some (refreshSkipCount v.lastMode)

/-- A call records its mode, or leaves both as they are. -/
theorem Adjusted.recorded_or_same (h : Adjusted mode v v') :
    Recorded v' ∨ v'.lastMode = v.lastMode ∧ v'.refreshSkipCount = v.refreshSkipCount := by
  cases h with
  | suspended | held | same => exact .inr ⟨rfl, rfl⟩
  | changed => exact .inl rfl

theorem Adjusted.recorded (h : Adjusted mode v v') (hv : Recorded v) : Recorded v' := by
  rcases h.recorded_or_same with hrec | ⟨hlast, hprop⟩
  · exact hrec
  · unfold Recorded
    rw [hprop, hlast]
    exact hv

/-- Once a call has changed `last_mode`, the property keeps its text. -/
theorem recorded_calls {modes after : List Int} {mode : Int}
    (h : (sfVsyncCalls (modes ++ [mode])).lastMode ≠ (sfVsyncCalls modes).lastMode) :
    Recorded (sfVsyncCalls (modes ++ mode :: after)) := by
  induction after using List.reverseRecOn with
  | nil =>
    rw [sfVsyncCalls_concat] at h ⊢
    exact (adjusted mode _).recorded_or_same.resolve_right fun hsame => h hsame.1
  | append_singleton after m ih =>
    rw [← List.cons_append, ← List.append_assoc, sfVsyncCalls_concat]
    exact (adjusted m _).recorded ih

/-! ## Suspend and resume -/

theorem adjust_suspended (hv : v.lastMode = epdSuspend) (hm : mode ≠ epdResume) :
    hwcAdajustSfVsync mode v = v := if_pos ⟨hv, hm⟩

theorem Adjusted.suspend (h : Adjusted epdSuspend v v') : v'.lastMode = epdSuspend := by
  cases h with
  | suspended h => exact h
  | held _ hne => exact absurd rfl hne
  | same h => exact h.symm
  | changed => rfl

/-- A change to `EPD_RESUME` starts the count. -/
theorem Adjusted.resume (h : Adjusted mode v v') (hv : v.lastMode ≠ epdResume)
    (hv' : v'.lastMode = epdResume) : v'.resumeCount = 5 := by
  cases h with
  | suspended | held | same => exact absurd hv' hv
  | changed count _ _ hcount => exact hcount hv'

/-- `n` more calls are held. -/
structure Holding (n : Nat) (v : SfVsync) : Prop where
  lastMode : v.lastMode = epdResume
  resumeCount : v.resumeCount = n

theorem Adjusted.held_call {n : Nat} (h : Adjusted mode v v') (hv : Holding (n + 1) v)
    (hm : mode ≠ epdSuspend) : Holding n v' ∧ v'.refreshSkipCount = v.refreshSkipCount := by
  obtain ⟨hlast, hcount⟩ := hv
  cases h with
  | suspended h => exact absurd (hlast.symm.trans h) (by decide)
  | held => exact ⟨⟨hlast, by dsimp only; omega⟩, rfl⟩
  | same h hle =>
    have h0 := hle (h.trans hlast)
    omega
  | changed _ _ h =>
    rcases h hlast with h | h
    · exact absurd h hm
    · omega

/-- The call after the held ones takes effect. -/
theorem Adjusted.released (h : Adjusted mode v v') (hv : Holding 0 v) (hrec : Recorded v) :
    v'.lastMode = mode ∧ Recorded v' := by
  obtain ⟨hlast, hcount⟩ := hv
  cases h with
  | suspended h => exact absurd (hlast.symm.trans h) (by decide)
  | held => omega
  | same h => exact ⟨h.symm, hrec⟩
  | changed => exact ⟨rfl, rfl⟩

/-- Calls that are held. -/
theorem held_calls {modes held : List Int} {n : Nat}
    (h : Holding (n + held.length) (sfVsyncCalls modes)) (hs : epdSuspend ∉ held) :
    Holding n (sfVsyncCalls (modes ++ held)) ∧
      (sfVsyncCalls (modes ++ held)).refreshSkipCount = (sfVsyncCalls modes).refreshSkipCount := by
  induction held using List.reverseRecOn generalizing n with
  | nil =>
    rw [List.append_nil]
    exact ⟨h, rfl⟩
  | append_singleton held m ih =>
    rw [List.mem_append, List.mem_singleton, not_or] at hs
    rw [List.length_append, List.length_singleton, ← Nat.add_assoc, Nat.add_right_comm] at h
    obtain ⟨hhold, hprop⟩ := ih h hs.1
    obtain ⟨hnext, hsame⟩ := (adjusted m _).held_call hhold (Ne.symm hs.2)
    rw [← List.append_assoc, sfVsyncCalls_concat]
    exact ⟨hnext, hsame.trans hprop⟩

/-- **The skip count**, after any calls `modes`:

* once a call has changed `last_mode`, the property has the text of `last_mode`;
* in `EPD_SUSPEND`, only a call for `EPD_RESUME` changes anything;
* a call for `EPD_SUSPEND` leaves `last_mode` at it;
* when a call has changed `last_mode` to `EPD_RESUME`, up to five calls for other modes than
  `EPD_SUSPEND` change neither it nor the property, and the sixth takes effect. -/
theorem skip_count (modes : List Int) :
    (∀ mode after, (sfVsyncCalls (modes ++ [mode])).lastMode ≠ (sfVsyncCalls modes).lastMode →
      (sfVsyncCalls (modes ++ mode :: after)).refreshSkipCount =
        some (refreshSkipCount (sfVsyncCalls (modes ++ mode :: after)).lastMode)) ∧
    (∀ mode, (sfVsyncCalls modes).lastMode = epdSuspend → mode ≠ epdResume →
      sfVsyncCalls (modes ++ [mode]) = sfVsyncCalls modes) ∧
    (sfVsyncCalls (modes ++ [epdSuspend])).lastMode = epdSuspend ∧
    ∀ mode held, (sfVsyncCalls modes).lastMode ≠ epdResume →
      (sfVsyncCalls (modes ++ [mode])).lastMode = epdResume →
      held.length ≤ 5 → epdSuspend ∉ held →
      (sfVsyncCalls (modes ++ [mode] ++ held)).lastMode = epdResume ∧
      (sfVsyncCalls (modes ++ [mode] ++ held)).refreshSkipCount =
        (sfVsyncCalls (modes ++ [mode])).refreshSkipCount ∧
      (held.length = 5 → ∀ sixth,
        (sfVsyncCalls (modes ++ [mode] ++ held ++ [sixth])).lastMode = sixth ∧
        (sfVsyncCalls (modes ++ [mode] ++ held ++ [sixth])).refreshSkipCount =
          some (refreshSkipCount sixth)) := by
  refine ⟨fun mode after h => recorded_calls h, fun mode hv hm => ?_, ?_, ?_⟩
  · rw [sfVsyncCalls_concat]
    exact adjust_suspended hv hm
  · rw [sfVsyncCalls_concat]
    exact (adjusted epdSuspend _).suspend
  · intro mode held hv hresume hlen hs
    have hchanged : (sfVsyncCalls (modes ++ [mode])).lastMode ≠ (sfVsyncCalls modes).lastMode :=
      fun h => hv (h.symm.trans hresume)
    have hcount : (sfVsyncCalls (modes ++ [mode])).resumeCount = 5 := by
      rw [sfVsyncCalls_concat] at hresume ⊢
      exact (adjusted mode _).resume hv hresume
    have hstart : Holding (5 - held.length + held.length) (sfVsyncCalls (modes ++ [mode])) :=
      ⟨hresume, by omega⟩
    obtain ⟨hhold, hprop⟩ := held_calls hstart hs
    refine ⟨hhold.lastMode, hprop, fun h5 sixth => ?_⟩
    have hrec : Recorded (sfVsyncCalls (modes ++ [mode] ++ held)) := by
      rw [List.append_assoc]
      exact recorded_calls hchanged
    have hzero : Holding 0 (sfVsyncCalls (modes ++ [mode] ++ held)) := by
      rw [h5] at hhold
      exact hhold
    rw [sfVsyncCalls_concat]
    obtain ⟨hlast, hrec'⟩ := (adjusted sixth _).released hzero hrec
    unfold Recorded at hrec'
    rw [hlast] at hrec'
    exact ⟨hlast, hrec'⟩

end EinkHwc
