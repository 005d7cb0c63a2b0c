import EinkHwc.Trace.Past
import EinkHwc.Trace.System
import EinkHwc.Worker.SetMode

/-!
# A2 is entered through a full refresh

`A2Commit` sends `EPD_FORCE_FULL` in place of the first A2 frame, which `gLastEpdMode` tells it. The
commit functions record the mode that they were asked for, whether `PostEink` sent a buffer or not.

* `senders`: calls of `SetEinkMode`, one after the other. A trace has the `epd_mode` of the buffers
  that were sent; the mode sent last is kept in the state as a history variable.
* `setEinkModeOp_sent`: what one call sends and records.
* `a2_after_full`: the law, for the runs in which no request for A2 is recorded whose full refresh
  was needed and not sent.
-/

namespace EinkHwc

open Trace

/-- `EPD_A2` or `EPD_A2_DITHER`. -/
def IsA2 (mode : Int) : Prop := mode = epdA2 ∨ mode = epdA2Dither

instance (mode : Int) : Decidable (IsA2 mode) := inferInstanceAs (Decidable (_ ∨ _))

/-- The modes that a panel goes to A2 from. -/
def ReadyForA2 (mode : Int) : Prop := IsA2 mode ∨ mode = epdForceFull

instance (mode : Int) : Decidable (ReadyForA2 mode) := inferInstanceAs (Decidable (_ ∨ _))

/-! ## One call -/

/-- The `epd_mode` of a buffer that is sent. -/
def Call.sentMode : Call → Option Int
  | .send info ret => if ret = 0 then some info.epdMode else none
  | _ => none

/-- The modes that are sent, the first one first. -/
def Done.sent (r : Done) : List Int := r.calls.filterMap Call.sentMode

section Call
variable (a : Answers) (s : EinkState)

theorem sentMode_send (info : EbcBufInfo) (ret : Int) :
    (Call.send info ret).sentMode = if ret = 0 then some info.epdMode else none := rfl

theorem sentMode_tuning {c : Call} (hc : c.isTuning = true) : c.sentMode = none := by
  cases c with
  | write | send | get => cases hc
  | setFullModeNum | setDiffPercent | waitNewBufTime => rfl

theorem updates_sent : (updates a s).calls.filterMap Call.sentMode = [] :=
  List.filterMap_eq_nil_iff.2 fun c hc => sentMode_tuning (updates_calls a s c hc)

theorem caseOp_sent (c : Converter) (m : Commit) :
    (caseOp a (some (c, m)) s).calls.filterMap Call.sentMode =
      if a.send = 0 then [m.postMode s.gLastEpdMode] else [] := by
  obtain ⟨cs, hcs, hget⟩ := caseOp_calls a s c m
  have hconvert : (c.op a s).calls.filterMap Call.sentMode = [] := by
    show (if _ then _ else _ : List Call).filterMap _ = []
    split <;> rfl
  have hrest : cs.filterMap Call.sentMode = [] := by
    refine List.filterMap_eq_nil_iff.2 fun x hx => ?_
    obtain ⟨o, rfl⟩ := hget x hx
    rfl
  rw [hcs, List.filterMap_append, hconvert, List.nil_append, List.filterMap_cons, hrest,
    sentMode_send]
  by_cases hsend : a.send = 0
  · rw [if_pos hsend, if_pos hsend]
    rfl
  · rw [if_neg hsend, if_neg hsend]

theorem a2_postMode (mode g : Int) :
    (Commit.a2 mode).postMode g = if ¬ IsA2 g then epdForceFull else mode := by
  have hg : ¬ IsA2 g ↔ g ≠ epdA2 ∧ g ≠ epdA2Dither := not_or
  simp only [Commit.postMode, hg]

/-- The modes of the two commit functions, by the mode that `SetEinkMode` is asked for. -/
theorem setEinkMode_modes {mode : Int} (g : Int) (hm : mode ≠ epdSuspend) :
    ∃ c m, setEinkMode mode = some (c, m) ∧ m.lastMode = mode ∧
      m.postMode g = if IsA2 mode ∧ ¬ IsA2 g then epdForceFull else mode := by
  unfold setEinkMode
  by_cases ha : IsA2 mode
  · simp only [ha, true_and]
    by_cases hd : mode = epdA2Dither
    · subst hd
      exact ⟨_, _, if_pos rfl, rfl, a2_postMode ..⟩
    · obtain rfl : mode = epdA2 := ha.resolve_right hd
      exact ⟨_, _, (if_neg hd).trans (if_pos rfl), rfl, a2_postMode ..⟩
  · obtain ⟨h2, hd⟩ := not_or.1 ha
    refine ⟨_, _, (if_neg hd).trans ((if_neg h2).trans (if_neg hm)), rfl, ?_⟩
    rw [if_neg fun h => ha h.1]
    rfl

/-- A call sends one buffer at most, and records the mode that it was asked for. -/
theorem setEinkModeOp_sent {c : EinkComposition} (hc : c.einkMode ≠ epdSuspend) :
    (setEinkModeOp (some c) a s).sent = (if a.send = 0 then
      [if IsA2 c.einkMode ∧ ¬ IsA2 s.gLastEpdMode then epdForceFull else c.einkMode] else []) ∧
    (setEinkModeOp (some c) a s).st.gLastEpdMode = c.einkMode := by
  obtain ⟨k, m, hm, hlast, hpost⟩ := setEinkMode_modes s.gLastEpdMode hc
  unfold setEinkModeOp Done.sent
  simp only [andReturn_calls, andReturn_st, seq_calls, seq_st, hm, List.filterMap_append,
    updates_sent, caseOp_sent, List.append_nil, hpost, true_and]
  obtain ⟨u, hu⟩ := updates_st a (caseOp a (some (k, m))
    { s with lastRegal := s.lastRegal && decide (c.einkMode ∈ regalModes) }).st
  rw [hu]
  exact hlast

/-- No composition, or `EPD_SUSPEND`: nothing is sent or recorded. -/
theorem setEinkModeOp_idle {x : Option EinkComposition}
    (hx : ∀ c, x = some c → c.einkMode = epdSuspend) :
    (setEinkModeOp x a s).sent = [] ∧
      (setEinkModeOp x a s).st.gLastEpdMode = s.gLastEpdMode := by
  cases x with
  | none => exact ⟨rfl, rfl⟩
  | some c =>
    have hm : setEinkMode c.einkMode = none := by
      rw [hx c rfl]
      rfl
    unfold setEinkModeOp Done.sent
    simp only [andReturn_calls, andReturn_st, seq_calls, seq_st, hm, List.filterMap_append,
      updates_sent, List.append_nil]
    refine ⟨rfl, ?_⟩
    obtain ⟨u, hu⟩ := updates_st a (caseOp a none
      { s with lastRegal := s.lastRegal && decide (c.einkMode ∈ regalModes) }).st
    rw [hu]
    rfl

end Call

/-! ## Runs -/

/-- The worker between two compositions. -/
structure Sender where
  eink : EinkState
  /-- The mode of the buffer that was sent last. -/
  lastSent : Option Int := none
  deriving DecidableEq, Repr

/-- `SetEinkMode(composition)`. -/
def Sender.step (s : Sender) (x : Option EinkComposition × Answers) : Option (Sender × List Int) :=
  let r := setEinkModeOp x.1 x.2 s.eink
  some ({ eink := r.st, lastSent := r.sent.getLast?.or s.lastSent }, r.sent.reverse)

/-- Any sequence of compositions, from `Init` on. -/
def senders : System Sender (Option EinkComposition × Answers) Int where
  init s tr := ∃ panel info b,
    s = { eink := { panel := panel, commitBufInfo := info, gray16Buffer := b } } ∧ tr = []
  step := Sender.step

/-- Every A2 buffer comes right after an A2 buffer or a full refresh. -/
def A2AfterFull (tr : List Int) : Prop :=
  Each (fun mode past => IsA2 mode → ∃ m, past.head? = some m ∧ ReadyForA2 m) tr

/-- The panel is ready for A2, as far as `gLastEpdMode` says. -/
def Sender.Ready (s : Sender) : Prop := ∃ m, s.lastSent = some m ∧ ReadyForA2 m

/-- The call is not one that asks for A2 while `gLastEpdMode` is another mode, fails to send the
full refresh, and leaves the panel in a mode that A2 is not entered from. -/
def entersA2 (s : Sender) (x : Option EinkComposition × Answers) : Prop :=
  ∀ c, x.1 = some c → IsA2 c.einkMode → ¬ IsA2 s.eink.gLastEpdMode → x.2.send ≠ 0 → s.Ready

instance (s : Sender) : Decidable s.Ready :=
  match h : s.lastSent with
  | none => isFalse fun ⟨_, hm, _⟩ => nomatch h.symm.trans hm
  | some m => decidable_of_iff (ReadyForA2 m) (by simp [Sender.Ready, h])

instance (s : Sender) (x : Option EinkComposition × Answers) : Decidable (entersA2 s x) :=
  match h : x.1 with
  | none => isTrue fun _ hc => nomatch h.symm.trans hc
  | some c => decidable_of_iff (IsA2 c.einkMode → ¬ IsA2 s.eink.gLastEpdMode → x.2.send ≠ 0 →
      s.Ready) (by simp [entersA2, h])

/-- The invariant: what `gLastEpdMode` says of A2 is so. -/
structure A2Inv (tr : List Int) (s : Sender) : Prop where
  lastSent : s.lastSent = tr.head?
  ready : IsA2 s.eink.gLastEpdMode → s.Ready
  law : A2AfterFull tr

theorem a2Inv_step {tr : List Int} {s : Sender} {x : Option EinkComposition × Answers}
    (hi : A2Inv tr s) (hok : entersA2 s x) {s' : Sender} {es : List Int}
    (hs : s.step x = some (s', es)) : A2Inv (es ++ tr) s' := by
  obtain ⟨rfl, rfl⟩ : Sender.mk (setEinkModeOp x.1 x.2 s.eink).st
      ((setEinkModeOp x.1 x.2 s.eink).sent.getLast?.or s.lastSent) = s' ∧
      (setEinkModeOp x.1 x.2 s.eink).sent.reverse = es := by simpa [Sender.step] using hs
  by_cases hx : ∃ c, x.1 = some c ∧ c.einkMode ≠ epdSuspend
  · obtain ⟨c, hc, hm⟩ := hx
    obtain ⟨hsent, hlast⟩ := setEinkModeOp_sent x.2 s.eink hm
    rw [← hc] at hsent hlast
    by_cases hsend : x.2.send = 0
    · rw [if_pos hsend] at hsent
      rw [hsent]
      refine ⟨rfl, ?_, ?_, hi.law⟩
      · intro ha
        rw [hlast] at ha
        refine ⟨_, rfl, ?_⟩
        split
        · exact .inr rfl
        · exact .inl ha
      · intro ha
        split at ha
        · exact absurd ha (by decide : ¬ IsA2 epdForceFull)
        · rename_i hmode
          have hg : IsA2 s.eink.gLastEpdMode := Decidable.byContradiction fun hg => hmode ⟨ha, hg⟩
          obtain ⟨m, hsentLast, hm⟩ := hi.ready hg
          exact ⟨m, hi.lastSent ▸ hsentLast, hm⟩
    · rw [if_neg hsend] at hsent
      rw [hsent]
      refine ⟨hi.lastSent, fun ha => ?_, hi.law⟩
      rw [hlast] at ha
      by_cases hg : IsA2 s.eink.gLastEpdMode
      · exact hi.ready hg
      · exact hok c hc ha hg hsend
  · have hidle : ∀ c, x.1 = some c → c.einkMode = epdSuspend := fun c hc =>
      Decidable.byContradiction fun hm => hx ⟨c, hc, hm⟩
    obtain ⟨hsent, hlast⟩ := setEinkModeOp_idle x.2 s.eink hidle
    rw [hsent]
    exact ⟨hi.lastSent, fun ha => hi.ready (hlast ▸ ha), hi.law⟩

/-- In every run, A2 is entered through a full refresh. -/
theorem a2_after_full {tr : List Int} {s : Sender} (hr : senders.Run entersA2 tr s) :
    A2AfterFull tr := by
  refine A2Inv.law (System.Inductive.run (I := A2Inv) ⟨?_, ?_⟩ hr)
  · rintro s tr ⟨panel, info, b, rfl, rfl⟩
    exact ⟨rfl, fun ha => absurd ha (by decide : ¬ IsA2 epdPartGc16), trivial⟩
  · intro s x s' es tr hi hok hs
    exact a2Inv_step hi hok hs

/-- A call for `mode`, whose `EBC_SEND_BUFFER` returns `send`. -/
def call (mode send : Int) : Option EinkComposition × Answers :=
  (some { einkMode := mode }, { send := send, get := some 64 })

/-- Two A2 frames after a normal one: the first one is a full refresh. -/
theorem a2_after_full_frames : ∃ tr s, senders.Run entersA2 tr s ∧
    tr = [epdA2, epdForceFull, epdPartGc16] ∧ A2AfterFull tr := by
  have hinit : senders.init { eink := panel16 } [] := ⟨_, _, _, rfl, rfl⟩
  obtain ⟨tr, s, hr, hp⟩ := System.exists_run senders entersA2 hinit
    [call epdPartGc16 0, call epdA2 0, call epdA2 0]
    (fun tr _ => tr == [epdA2, epdForceFull, epdPartGc16]) (by decide +kernel)
  exact ⟨tr, s, hr, eq_of_beq hp, a2_after_full hr⟩

/-- The full refresh fails, and the next A2 frame is sent as it is. -/
theorem a2_after_partial : ¬ ∀ tr s, senders.Run System.any tr s → A2AfterFull tr := by
  intro h
  have hinit : senders.init { eink := panel16 } [] := ⟨_, _, _, rfl, rfl⟩
  obtain ⟨tr, s, hr, hp⟩ := System.exists_run senders System.any hinit
    [call epdPartGc16 0, call epdA2 (-1), call epdA2 0]
    (fun tr _ => tr == [epdA2, epdPartGc16]) (by decide +kernel)
  obtain rfl := eq_of_beq hp
  obtain ⟨m, hm, hready⟩ := (h _ s hr).1 (.inl rfl)
  obtain rfl : epdPartGc16 = m := Option.some.inj hm
  exact absurd hready (by decide)

end EinkHwc
