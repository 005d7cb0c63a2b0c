import EinkHwc.Sys.Cases

/-!
# Panel buffers

The driver lends the worker one buffer at a time: `EBC_GET_BUFFER` gives its offset, the converters
write to it through `gray16_buffer`, `EBC_SEND_BUFFER` gives it back. `PostEink` does the last two
and asks for the next buffer, and the commit functions drop its result.

- **`BufferFlow`**: all that a step can do to the buffer.
- **Ownership** (`writes_owned_iff`): the pixels of a run all go to a buffer that the worker owns
  exactly when none are written between a failed `EBC_GET_BUFFER` and the next successful one. There
  the worker still has the buffer that it has sent (`write_after_failed_get`).
-/

namespace EinkHwc

open Trace

variable {s s' : St} {a : Act} {es tr : List Ev} {ok : St → Act → Prop}

/-- An event about the worker's buffer. -/
def Ev.isBuffer : Ev → Bool
  | .write _ | .get _ | .getFail | .send .. => true
  | _ => false

/-- `Compose` has sent its buffer and has no other one yet. -/
def St.atGet (s : St) : Bool :=
  match s.cur with
  | some k => k.pc == .get
  | none => false

/-- What a step does to the buffer. -/
inductive BufferFlow (s s' : St) (es : List Ev) : Prop where
  | keep : (∀ e ∈ es, e.isBuffer = false) → s'.gray16Buffer = s.gray16Buffer →
      s'.commitBufInfo.offset = s.commitBufInfo.offset → s'.atGet = s.atGet → BufferFlow s s' es
  | write : es = [.write s.gray16Buffer] → s'.gray16Buffer = s.gray16Buffer →
      s'.commitBufInfo.offset = s.commitBufInfo.offset → s.atGet = false → s'.atGet = false →
      BufferFlow s s' es
  | send (info : EbcBufInfo) (pic : Picture) : es = [.send info pic] →
      info.offset = s.commitBufInfo.offset → s'.gray16Buffer = s.gray16Buffer →
      s'.commitBufInfo.offset = s.commitBufInfo.offset → s'.atGet = true → BufferFlow s s' es
  | get (c : EinkComposition) (b : Int) : es = [.served c, .get b] → s'.gray16Buffer = b →
      s'.commitBufInfo.offset = b → s'.atGet = false → BufferFlow s s' es
  | getFail (c : EinkComposition) : es = [.served c, .getFail] → s'.gray16Buffer = s.gray16Buffer →
      s'.commitBufInfo.offset = s.commitBufInfo.offset → s.atGet = true → s'.atGet = false →
      BufferFlow s s' es

theorem step_buffer (h : Step s a s' es) : BufferFlow s s' (core es) := by
  have hget : ∀ {s : St} {k : Composing}, s.cur = some k → s.atGet = (k.pc == .get) := fun hc => by
    rw [St.atGet, hc]
  have hnone : ∀ {s : St}, s.cur = none → s.atGet = false := fun hc => by rw [St.atGet, hc]
  cases h
  case setOn | setOff =>
    refine .keep ?_ rfl rfl rfl
    simp only [core_append, core_suspendEvs, core_setEvs, List.nil_append]
    split <;> simp [Ev.isBuffer]
  case started hc _ =>
    exact .keep (by simp [Ev.isFd, Ev.isBuffer]) rfl rfl (by rw [hnone hc, hget rfl]; rfl)
  case waited k k' ret hc hp _ hp' he =>
    refine .keep (by simp [core_waitEvs he]) rfl rfl ?_
    rw [hget hc, hget rfl]
    rcases hp with h | h <;> rcases hp' with h' | h' <;> rw [h, h'] <;> rfl
  case dropped k ret hc hp _ _ =>
    refine .keep (by simp [Ev.isFd, Ev.isBuffer]) rfl rfl ?_
    rw [hget hc, hnone rfl]
    rcases hp with h | h <;> rw [h.1] <;> rfl
  case ready k hc hp _ | notReady k b hc hp _ | notWritten k env m hc hp _ _
    | sendFailed k m ret hc hp _ _ =>
    refine .keep (by simp [Ev.isFd, Ev.isBuffer]) rfl rfl ?_
    rw [hget hc, hget rfl, hp]
    rfl
  case finished k ret hc hp _ _ | finishedInc k hc hp _ _ =>
    refine .keep (by simp [Ev.isFd, Ev.isBuffer]) rfl rfl ?_
    rw [hget hc, hnone rfl, hp]
    rfl
  case wrote k env m hc hp _ _ =>
    exact .write rfl rfl rfl (by rw [hget hc, hp]; rfl) (by rw [hget rfl]; rfl)
  case sent k m hc hp _ => exact .send _ _ rfl rfl rfl rfl (by rw [hget rfl]; rfl)
  case got k m b hc hp _ => exact .get _ b rfl rfl rfl (by rw [hget rfl]; rfl)
  case getFailed k m hc hp _ =>
    exact .getFail _ rfl rfl rfl (by rw [hget hc, hp]; rfl) (by rw [hget rfl]; rfl)
  all_goals
    exact .keep (by simp [queueCompositeStart, queueLayer, Ev.isFd, Ev.isBuffer]) rfl rfl rfl

/-! ## Ownership -/

/-- A successful `EBC_GET_BUFFER` of the worker. -/
def Ev.isGet : Ev → Bool
  | .get _ => true
  | _ => false

/-- A successful `EBC_SEND_BUFFER` of the worker, of the buffer at `b`. -/
def Ev.sends (b : Int) : Ev → Bool
  | .send info _ => info.offset == b
  | _ => false

/-- The worker's latest buffer is at `b`, and it was not sent since. -/
def Owns (b : Int) (tr : List Ev) : Prop :=
  Since (· = .get b) (fun e => e.isGet = true ∨ e.sends b = true) tr

/-- The worker asked for a buffer, in vain, and has got none since. -/
def GetFailed (tr : List Ev) : Prop := Since (· = .getFail) (·.isGet = true) tr

instance (b : Int) (tr : List Ev) : Decidable (Owns b tr) := inferInstanceAs (Decidable (Since ..))

instance (tr : List Ev) : Decidable (GetFailed tr) := inferInstanceAs (Decidable (Since ..))

/-- All pixels were written to buffers that the worker owned. -/
def WritesOwned (tr : List Ev) : Prop :=
  Each (fun e past => ∀ b, e = .write b → Owns b past) tr

/-- None were written after a failed `EBC_GET_BUFFER` and before the next successful one. -/
def WritesFresh (tr : List Ev) : Prop :=
  Each (fun e past => ∀ b, e = .write b → ¬ GetFailed past) tr

/-- The invariant: `gray16_buffer` is the latest buffer, and is owned unless it was just sent or no
other one came for it. -/
structure Leased (tr : List Ev) (s : St) : Prop where
  buffer : s.commitBufInfo.offset = s.gray16Buffer
  owned : s.atGet = false → (Owns s.gray16Buffer tr ↔ ¬ GetFailed tr)
  sent : s.atGet = true → ¬ Owns s.gray16Buffer tr
  writes : WritesOwned tr ↔ WritesFresh tr

theorem quiet_iff (h : ∀ e ∈ es, e.isBuffer = false) (b : Int) (tr : List Ev) :
    (Owns b (es ++ tr) ↔ Owns b tr) ∧ (GetFailed (es ++ tr) ↔ GetFailed tr) ∧
      (WritesOwned (es ++ tr) ↔ WritesOwned tr) ∧ (WritesFresh (es ++ tr) ↔ WritesFresh tr) := by
  induction es with
  | nil => exact ⟨Iff.rfl, Iff.rfl, Iff.rfl, Iff.rfl⟩
  | cons e es ih =>
    obtain ⟨he, hes⟩ := List.forall_mem_cons.1 h
    obtain ⟨h1, h2, h3, h4⟩ := ih hes
    rw [← h1, ← h2, ← h3, ← h4]
    cases e <;> first
      | cases he; done
      | simp [Owns, GetFailed, WritesOwned, WritesFresh, Ev.isGet, Ev.sends]

theorem Leased.step (hi : Leased tr s) (h : Step s a s' es) : Leased (core es ++ tr) s' := by
  obtain ⟨hbuf, howned, hsent, hwrites⟩ := hi
  cases step_buffer h with
  | keep he hb hoff hat =>
    obtain ⟨h1, h2, h3, h4⟩ := quiet_iff he s.gray16Buffer tr
    refine ⟨by rw [hb, hoff, hbuf], fun hf => ?_, fun hf => ?_, by rw [h3, h4, hwrites]⟩
    · rw [hb, h1, h2]
      exact howned (hat ▸ hf)
    · rw [hb, h1]
      exact hsent (hat ▸ hf)
  | write he hb hoff hat hat' =>
    have hown := howned hat
    rw [he]
    refine ⟨by rw [hb, hoff, hbuf], fun _ => ?_, fun hf => ?_, ?_⟩
    · rw [hb]
      simpa [Owns, GetFailed, Ev.isGet, Ev.sends] using hown
    · rw [hat'] at hf
      cases hf
    · refine and_congr ⟨fun h b hw => ?_, fun h b hw => ?_⟩ hwrites
      · cases hw
        exact hown.1 (h _ rfl)
      · cases hw
        exact hown.2 (h _ rfl)
  | send info pic he hinfo hb hoff hat =>
    rw [he]
    refine ⟨by rw [hb, hoff, hbuf], fun hf => ?_, fun _ => ?_, ?_⟩
    · rw [hat] at hf
      cases hf
    · simp [Owns, Ev.sends, hinfo, hbuf, hb]
    · simpa [WritesOwned, WritesFresh] using hwrites
  | get c b he hb hoff hat =>
    rw [he]
    refine ⟨by rw [hb, hoff], fun _ => ?_, fun hf => ?_, ?_⟩
    · simp [Owns, GetFailed, Ev.isGet, Ev.sends, hb]
    · rw [hat] at hf
      cases hf
    · simpa [WritesOwned, WritesFresh] using hwrites
  | getFail c he hb hoff hat hat' =>
    have hn := hsent hat
    rw [he]
    refine ⟨by rw [hb, hoff, hbuf], fun _ => ?_, fun hf => ?_, ?_⟩
    · rw [hb]
      simpa [Owns, GetFailed, Ev.isGet, Ev.sends] using hn
    · rw [hat'] at hf
      cases hf
    · simpa [WritesOwned, WritesFresh] using hwrites

theorem owns_core (b : Int) : Owns b (core tr) ↔ Owns b tr :=
  since_core ⟨nofun, nofun⟩ (by simp [CoreOnly, Ev.isGet, Ev.sends])

theorem getFailed_core : GetFailed (core tr) ↔ GetFailed tr :=
  since_core ⟨nofun, nofun⟩ ⟨nofun, nofun⟩

theorem writesOwned_core : WritesOwned (core tr) ↔ WritesOwned tr := by
  refine each_filter (fun e past hv b hw => ?_) fun e past => ?_
  · rw [hw] at hv
    cases hv
  · exact forall_congr' fun b => imp_congr_right fun _ => owns_core b

theorem writesFresh_core : WritesFresh (core tr) ↔ WritesFresh tr := by
  refine each_filter (fun e past hv b hw => ?_) fun e past => ?_
  · rw [hw] at hv
    cases hv
  · exact forall_congr' fun b => imp_congr_right fun _ => not_congr getFailed_core

/-- **Ownership.** In every run, all pixels go to buffers that the worker owns exactly when none are
written after a failed `EBC_GET_BUFFER` and before the next successful one. -/
theorem writes_owned_iff (hr : Run ok tr s) : WritesOwned tr ↔ WritesFresh tr := by
  rw [← writesOwned_core, ← writesFresh_core]
  suffices h : Leased (core tr) s from h.writes
  refine core_induction (J := fun _ _ => True) (I := Leased) (fun _ _ _ => trivial) ?_ ?_ hr
  · intro panel b
    refine ⟨rfl, fun _ => ?_, fun hf => (by cases hf), ?_⟩
    · simp [Owns, GetFailed, Ev.isGet, initSt]
    · simp [WritesOwned, WritesFresh]
  · intro s a s' es tr hj hi hok h
    exact hi.step h

/-- `writes_owned_iff` in a run that writes two frames. -/
theorem writes_owned_two : ∃ tr s, Run System.any tr s ∧
    tr.countP (fun e => e matches .write _) = 2 ∧ (WritesOwned tr ↔ WritesFresh tr) := by
  obtain ⟨tr, s, hr, hp⟩ := System.exists_run system System.any ⟨⟨8, 8, 0⟩, 0, rfl, rfl⟩
    (frameActs { handle := 1 } ++ popActs ++ sendActs 1 ++ frameActs { handle := 2 } ++ popActs ++
      sendActs 2)
    (fun tr _ => tr.countP (fun e => e matches .write _) == 2) (by decide +kernel)
  exact ⟨tr, s, hr, by simpa using hp, writes_owned_iff hr⟩

/-- The first frame is sent, no buffer comes for the second one, and its pixels go to the buffer
that was sent. -/
theorem write_after_failed_get : ¬ ∀ tr s, Run System.any tr s → WritesOwned tr := by
  intro h
  obtain ⟨tr, s, hr, hp⟩ := System.exists_run system System.any ⟨⟨8, 8, 0⟩, 0, rfl, rfl⟩
    (List.flatten [frameActs { handle := 1 }, popActs, (sendActs 1).take 6,
      [.compose (.ebcGet none), .compose (.timelineInc 0)], frameActs { handle := 2 }, popActs,
      (sendActs 1).take 5])
    (fun tr _ => tr.head? == some (.write 0) && !decide (Owns 0 tr.tail)) (by decide +kernel)
  simp only [Bool.and_eq_true, beq_iff_eq, Bool.not_eq_true', decide_eq_false_iff_not] at hp
  cases tr with
  | nil => cases hp.1
  | cons e past => exact hp.2 ((h _ s hr).1 0 (Option.some.inj hp.1))

end EinkHwc
