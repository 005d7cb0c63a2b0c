import EinkHwc.Sys.Framebuffers
import EinkHwc.Sys.Render
import Mathlib.Data.List.Forall2

/-!
# What the pictures are made of

`renders_all` says which frames the worker sends; what a picture is made of depends on when the
converter reads the framebuffer. `Paints` follows the contents of `gray16_buffer` through a run: a
converter makes a picture of the framebuffer as it is at that moment, and `EBC_SEND_BUFFER` sends
what is in the buffer.

- **As they were queued** (`shows_queued`): the pictures sent are made of the frames accepted, in
  order, each one of the content that its framebuffer had when `QueueComposite` took it. It does not
  matter how late the worker comes to it, or what SurfaceFlinger draws meanwhile.

After an `EBC_GET_BUFFER` that fails, `gray16_buffer` is not the worker's own: the driver may give
it to `hwc_post_epd`. Such runs are left out (`paintsOwn`).
-/

namespace EinkHwc

open Trace

/-! ## The buffer through a run -/

/-- The composition that `Compose` was called with last. -/
def composing (tr : List Ev) : Option EinkComposition := (collect Ev.isCompose tr).getLast?

/-- The event changes `gray16_buffer` or sends it. -/
def Ev.paints : Ev → Bool
  | .write _ | .get _ | .send .. => true
  | _ => false

/-- What is in `gray16_buffer`, and the pictures sent from it, the first one first. `leaves (c, n)`
is what the converter may leave for `c`, with the content `n` in its framebuffer. -/
inductive Paints {P : Type} (leaves : EinkComposition × Nat → P → P → Prop) :
    List (Ev ⊕ BufferHandle) → P → List P → Prop
  | nil (p : P) : Paints leaves [] p []
  | write {tr : List (Ev ⊕ BufferHandle)} {p p' : P} {out : List P} {c : EinkComposition}
      {b : Int} : Paints leaves tr p out → composing (tr.filterMap Sum.getLeft?) = some c →
      leaves (c, content c.fbHandle tr) p p' → Paints leaves (.inl (.write b) :: tr) p' out
  -- whatever the driver's buffer holds
  | get {tr : List (Ev ⊕ BufferHandle)} {p : P} (p' : P) {out : List P} {b : Int} :
      Paints leaves tr p out → Paints leaves (.inl (.get b) :: tr) p' out
  | send {tr : List (Ev ⊕ BufferHandle)} {p : P} {out : List P} {info : EbcBufInfo}
      {pic : Picture} : Paints leaves tr p out →
      Paints leaves (.inl (.send info pic) :: tr) p (out ++ [p])
  | other {tr : List (Ev ⊕ BufferHandle)} {p : P} {out : List P} {e : Ev} : e.paints = false →
      Paints leaves tr p out → Paints leaves (.inl e :: tr) p out
  | draw {tr : List (Ev ⊕ BufferHandle)} {p : P} {out : List P} {h : BufferHandle} :
      Paints leaves tr p out → Paints leaves (.inr h :: tr) p out

/-- Every call of `Compose` that a frame depends on succeeds, and the worker gets its next
buffer. -/
def Client.paintsOwn (s : Client) : Act ⊕ BufferHandle → Bool
  | .inl a => s.st.succeeds a && a != .compose (.ebcGet none)
  | .inr _ => true

def paintsOwn (s : Client) (a : Act ⊕ BufferHandle) : Prop := s.paintsOwn a = true

instance (s : Client) (a : Act ⊕ BufferHandle) : Decidable (paintsOwn s a) :=
  inferInstanceAs (Decidable (_ = _))

section Paints

variable {P : Type} {leaves : EinkComposition × Nat → P → P → Prop} {p : P} {out : List P}
  {tr : List (Ev ⊕ BufferHandle)} {es : List Ev}

/-- A picture for each `EBC_SEND_BUFFER`. -/
theorem Paints.length_eq (h : Paints leaves tr p out) :
    out.length = (sends (tr.filterMap Sum.getLeft?)).length := by
  induction h with
  | nil => rfl
  | write _ _ _ ih | get _ _ ih => simpa [sends, Ev.sent] using ih
  | send _ ih => simpa [sends, Ev.sent] using ih
  | @other tr p out e he _ ih =>
    have hs : e.sent = none := by cases e <;> first | rfl | cases he
    simpa [sends, hs] using ih
  | draw _ ih => exact ih

/-- Events that are not about the buffer. -/
theorem Paints.of_append (he : ∀ e ∈ es, e.paints = false)
    (h : Paints leaves (es.map .inl ++ tr) p out) : Paints leaves tr p out := by
  induction es with
  | nil => exact h
  | cons e es ih =>
    have hx := he e List.mem_cons_self
    refine ih (fun e' h' => he e' (List.mem_cons_of_mem _ h')) ?_
    rw [List.map_cons, List.cons_append] at h
    cases h with
    | other _ h => exact h
    | write | get | send => cases hx

theorem Paints.append (he : ∀ e ∈ es, e.paints = false) (h : Paints leaves tr p out) :
    Paints leaves (es.map .inl ++ tr) p out := by
  induction es with
  | nil => exact h
  | cons e es ih =>
    exact .other (he e List.mem_cons_self) (ih fun e' h' => he e' (List.mem_cons_of_mem _ h'))

end Paints

/-! ## One step -/

section Step

variable {s s' : St} {a : Act} {es tr : List Ev} {k : Composing} {ok : St → Act → Prop}

/-- What a step does to the buffer and to the composition that `Compose` has. -/
inductive Stroke (s s' : St) (es : List Ev) : Prop
  | keep : (∀ e ∈ es, e.paints = false) →
      (∀ k, s'.cur = some k → k.pc = .send → s.cur = some k) → Stroke s s' es
  | write (k : Composing) (b : Int) : es = [.write b] → s.cur = some k → k.pc = .convert →
      k.comp.einkMode ≠ epdSuspend → s'.cur = some { k with pc := .send } → Stroke s s' es
  | send (k : Composing) (info : EbcBufInfo) (pic : Picture) : es = [.send info pic] →
      s.cur = some k → k.pc = .send → s'.cur = some { k with pc := .get } → Stroke s s' es
  | get (k : Composing) (b : Int) : es = [.served k.comp, .get b] →
      s'.cur = some { k with pc := .finish } → Stroke s s' es

theorem paints_of_core (h : ∀ e ∈ core es, e.paints = false) : ∀ e ∈ es, e.paints = false := by
  intro e he
  cases hf : e.isFd with
  | false => exact h e (List.mem_filter.2 ⟨he, by rw [hf]; rfl⟩)
  | true => cases e <;> first | rfl | cases hf

/-- A step that leaves `Compose` where it is. -/
theorem Stroke.same (hc : s'.cur = s.cur) (h : ∀ e ∈ core es, e.paints = false) :
    Stroke s s' es :=
  .keep (paints_of_core h) fun _ hk _ => hc ▸ hk

/-- A step to another place than `EBC_SEND_BUFFER`. -/
theorem Stroke.move (hc : ∀ k, s'.cur = some k → k.pc ≠ .send)
    (h : ∀ e ∈ core es, e.paints = false) : Stroke s s' es :=
  .keep (paints_of_core h) fun k hk hp => absurd hp (hc k hk)

theorem step_stroke (hs : succeeds s a) (h : Step s a s' es) : Stroke s s' es := by
  cases h
  case setOn | setOff =>
    refine .same rfl ?_
    simp only [core_append, core_suspendEvs, core_setEvs, List.nil_append]
    split <;> simp [Ev.paints]
  case start => exact .same rfl (by simp [queueCompositeStart, Ev.isFd, Ev.paints])
  case newLayer => exact .same rfl (by simp [queueLayer, Ev.isFd, Ev.paints])
  case started => exact .move (by simp) (by simp [Ev.isFd, Ev.paints])
  case waited k k' ret hc hp hcomp hp' he =>
    refine .move ?_ (by simp [core_waitEvs he])
    intro k₁ hk
    obtain rfl := Option.some.inj hk
    rcases hp' with h | h <;> simp [h]
  case dropped | finished | finishedInc => exact .move (by simp) (by simp [Ev.isFd, Ev.paints])
  case ready | notReady | sendFailed | getFailed =>
    exact .move (by simp) (by simp [Ev.isFd, Ev.paints])
  case wrote k env m hc hp hm hw =>
    refine .write k _ rfl hc hp (fun hs => ?_) rfl
    rw [hs, setMode_suspend] at hm
    cases hm
  case notWritten k env m hc hp hm hw =>
    simp [succeeds, St.succeeds, hc, Composing.failsAt, hp, hm, hw] at hs
  case sent k m hc hp hm => exact .send k _ _ rfl hc hp rfl
  case got k m b hc hp hm => exact .get k b rfl rfl
  all_goals exact .same rfl (by simp [Ev.isFd, Ev.paints])

/-- `Compose` has the composition that it was called with. -/
theorem composing_run (hr : Run ok tr s) (hc : s.cur = some k) : composing tr = some k.comp := by
  rw [composing, ← collect_core coreOnly_isCompose]
  refine core_induction (J := fun _ _ => True)
    (I := fun tr s => ∀ k, s.cur = some k → (collect Ev.isCompose tr).getLast? = some k.comp)
    (fun _ _ _ => trivial) (fun _ _ k hk => (by cases hk)) ?_ hr k hc
  intro s a s' es tr _ ih hok h
  clear hok
  rw [collect_append]
  cases h <;> intro k hk
  case setOn | setOff =>
    simp only [core_append, core_suspendEvs, core_setEvs, List.nil_append]
    split <;> simpa [Ev.isCompose] using ih k hk
  case started =>
    obtain rfl := Option.some.inj hk
    simp [Ev.isFd, Ev.isCompose]
  case waited k k' ret hc hp hcomp hp' he =>
    obtain rfl := Option.some.inj hk
    rw [core_waitEvs he, hcomp]
    simpa using ih _ hc
  case dropped | finished | finishedInc => cases hk
  case ready hc _ _ | notReady hc _ _ | wrote hc _ _ _ | notWritten hc _ _ _ | sent hc _ _
    | sendFailed hc _ _ _ | got hc _ _ | getFailed hc _ _ =>
    obtain rfl := Option.some.inj hk
    simpa [Ev.isFd, Ev.isCompose] using ih _ hc
  all_goals simpa [queueCompositeStart, queueLayer, Ev.isFd, Ev.isCompose] using ih k hk

end Step

/-! ## A run -/

section Run

variable {P : Type} {leaves : EinkComposition × Nat → P → P → Prop} {p : P} {out : List P}
  {s s' : Client} {st : St} {tr tr' : List (Ev ⊕ BufferHandle)} {k : Composing}

/-- The frames accepted, each with the content of its framebuffer. -/
def queued (tr : List (Ev ⊕ BufferHandle)) : List (EinkComposition × Nat) :=
  stamped EinkComposition.fbHandle Ev.isAccept tr

/-- The pictures sent are made of the first frames queued, and at `EBC_SEND_BUFFER` the buffer is
made of the next one. -/
structure Painted (leaves : EinkComposition × Nat → P → P → Prop)
    (tr : List (Ev ⊕ BufferHandle)) (st : St) (p : P) (out : List P) : Prop where
  sent : List.Forall₂ (fun x q => ∃ old, leaves x old q) ((queued tr).take out.length) out
  ready : ∀ k, st.cur = some k → k.pc = .send → ∃ x old,
    (queued tr)[out.length]? = some x ∧ leaves x old p

theorem getElem?_later {i : Nat} {x : EinkComposition × Nat} (hq : queued tr <+: queued tr')
    (h : (queued tr)[i]? = some x) : (queued tr')[i]? = some x := by
  obtain ⟨l, hl⟩ := hq
  rw [← hl, List.getElem?_append_left (List.getElem?_eq_some_iff.1 h).1]
  exact h

theorem Painted.sent_later (hi : Painted leaves tr st p out) (hq : queued tr <+: queued tr') :
    List.Forall₂ (fun x q => ∃ old, leaves x old q) ((queued tr').take out.length) out := by
  have hlen := hi.sent.length_eq
  rw [List.length_take] at hlen
  obtain ⟨l, hl⟩ := hq
  rw [← hl, List.take_append_of_le_length (by omega)]
  exact hi.sent

/-- More is queued, and the buffer stays as it is. -/
theorem Painted.later (hi : Painted leaves tr s.st p out) (hq : queued tr <+: queued tr')
    (hc : ∀ k, st.cur = some k → k.pc = .send → s.st.cur = some k) :
    Painted leaves tr' st p out := by
  refine ⟨hi.sent_later hq, fun k hk hp => ?_⟩
  obtain ⟨x, old, hx, hl⟩ := hi.ready k (hc k hk hp) hp
  exact ⟨x, old, getElem?_later hq hx, hl⟩

/-- The buffer gets another content, and is not sent next. -/
theorem Painted.reset {p' : P} (hi : Painted leaves tr s.st p out) (hq : queued tr <+: queued tr')
    (hc : ∀ k, st.cur = some k → k.pc ≠ .send) : Painted leaves tr' st p' out :=
  ⟨hi.sent_later hq, fun k hk hp => absurd hp (hc k hk)⟩

/-- Each frame accepted is sent or still on its way. -/
theorem length_painted (hr : clientSystem.Run paintsOwn tr s) (hp : Paints leaves tr p out) :
    out.length + s.st.unsent.length = (queued tr).length := by
  have hrun : Run succeeds (tr.filterMap Sum.getLeft?) s.st := client_run (fun s a h => by
    simp only [paintsOwn, Client.paintsOwn, Bool.and_eq_true] at h
    exact h.1) hr
  rw [hp.length_eq, length_sends hrun, ← stamped_fst EinkComposition.fbHandle, List.length_map,
    queued]

/-- The frame that the converter is at is the next one to be sent, with the content of now. -/
theorem queued_converting (hr : clientSystem.Run paintsOwn tr s) (hp : Paints leaves tr p out)
    (hc : s.st.cur = some k) (hpc : k.pc = .convert) :
    (queued tr)[out.length]? = some (k.comp, content k.comp.fbHandle tr) := by
  have hlen := length_painted hr hp
  have hacc := accepted_contents hr
  have hserving : s.st.unserved = k.comp :: s.st.ho.inFlight := by
    simp [St.unserved, St.serving, hc, hpc]
  rw [unsent_some hc (by rw [hpc]; rfl), queued, hacc, hserving, List.length_append,
    List.length_map] at hlen
  have hfin : (stamped EinkComposition.fbHandle Ev.isFinish tr).length = out.length := by omega
  rw [queued, hacc, hserving, ← hfin, List.getElem?_append_right (Nat.le_refl _), Nat.sub_self]
  rfl

/-- A step of the two threads. -/
theorem Painted.step {es : List Ev} (hr : clientSystem.Run paintsOwn tr s)
    (ih : ∀ p out, Paints leaves tr p out → Painted leaves tr s.st p out)
    (h : Stroke s.st st es) (hp : Paints leaves (es.map .inl ++ tr) p out) :
    Painted leaves (es.map .inl ++ tr) st p out := by
  have hq : queued tr <+: queued (es.map .inl ++ tr) := stamped_mono ..
  cases h with
  | keep he hc => exact (ih _ _ (hp.of_append he)).later hq hc
  | get k b he hc =>
    rw [he] at hp hq ⊢
    cases hp with
    | other _ hp =>
      cases hp with
      | get _ hp =>
        refine (ih _ _ hp).reset hq fun k' hk' => ?_
        obtain rfl := Option.some.inj (hc.symm.trans hk')
        simp
      | other he _ => cases he
  | write k b he hk hpc _ hc =>
    rw [he] at hp hq ⊢
    cases hp with
    | write hp hcomp hl =>
      obtain rfl := Option.some.inj (hcomp.symm.trans (composing_run (client_any hr) hk))
      refine ⟨(ih _ _ hp).sent_later hq, fun k' _ _ => ⟨_, _, ?_, hl⟩⟩
      exact getElem?_later hq (queued_converting hr hp hk hpc)
    | other he _ => cases he
  | send k info pic he hk hpc hc =>
    rw [he] at hp hq ⊢
    cases hp with
    | send hp =>
      have hi := ih _ _ hp
      obtain ⟨x, old, hx, hl⟩ := hi.ready k hk hpc
      refine ⟨?_, fun k' hk' hp => ?_⟩
      · have hlast : List.Forall₂ (fun x q => ∃ old, leaves x old q) [x] [p] :=
          .cons ⟨old, hl⟩ .nil
        rw [List.length_append, List.length_singleton, List.take_add_one,
          getElem?_later hq hx, Option.toList_some]
        exact List.rel_append (hi.sent_later hq) hlast
      · obtain rfl := Option.some.inj (hc.symm.trans hk')
        cases hp
    | other he _ => cases he

theorem painted_run (hr : clientSystem.Run paintsOwn tr s) (hp : Paints leaves tr p out) :
    Painted leaves tr s.st p out := by
  refine System.Run.induction
    (J := fun tr s => clientSystem.Run paintsOwn tr s)
    (I := fun tr s => ∀ p out, Paints leaves tr p out → Painted leaves tr s.st p out)
    (fun _ _ hr => hr) ?_ ?_ hr p out hp
  · rintro ⟨st, fence⟩ tr ⟨tr₀, ⟨panel, b, rfl, rfl⟩, rfl, rfl⟩ p out hp
    have hout : out = [] := by
      cases hp with
      | get _ hp => cases hp; rfl
      | other he _ => cases he
    subst hout
    exact ⟨.nil, fun k hk => (by cases hk)⟩
  · intro s a s' es tr hr ih hok h p' out' hp'
    cases a with
    | inr b =>
      simp only [clientSystem, clientStep] at h
      split at h
      · simp only [Option.some.injEq, Prod.mk.injEq] at h
        obtain ⟨rfl, rfl⟩ := h
        cases hp' with
        | draw hp => exact (ih _ _ hp).later (stamped_mono _ _ [.inr b] _) fun _ hk _ => hk
      · cases h
    | inl a =>
      obtain ⟨r, hs, h⟩ := Option.map_eq_some_iff.1 h
      rw [Prod.mk.injEq] at h
      obtain ⟨rfl, rfl⟩ := h
      simp only [paintsOwn, Client.paintsOwn, Bool.and_eq_true] at hok
      exact Painted.step hr ih
        (step_stroke hok.1 (step_cases (linked_run (client_any hr)) hs)) hp'

/-- **The pictures sent are made of the frames as they were queued**: of each frame accepted, in
order, once, with the content that its framebuffer had when `QueueComposite` took it; of all but
those still on their way. -/
theorem shows_queued (hr : clientSystem.Run paintsOwn tr s) (hp : Paints leaves tr p out) :
    out.length + s.st.unsent.length = (queued tr).length ∧
      List.Forall₂ (fun x q => ∃ old, leaves x old q) ((queued tr).take out.length) out :=
  ⟨length_painted hr hp, (painted_run hr hp).sent⟩

/-- Every run has its pictures, if the converters leave something. -/
theorem exists_paints [Inhabited P]
    (hl : ∀ x old, x.1.einkMode ≠ epdSuspend → ∃ new, leaves x old new)
    (hr : clientSystem.Run paintsOwn tr s) : ∃ p out, Paints leaves tr p out := by
  refine System.Run.induction (J := fun tr s => clientSystem.Run paintsOwn tr s)
    (I := fun tr _ => ∃ p out, Paints leaves tr p out) (fun _ _ hr => hr) ?_ ?_ hr
  · rintro ⟨st, fence⟩ tr ⟨tr₀, ⟨panel, b, rfl, rfl⟩, rfl, rfl⟩
    exact ⟨default, [], .get _ (.nil default)⟩
  · rintro s a s' es tr hr ⟨p, out, hp⟩ hok h
    cases a with
    | inr b =>
      simp only [clientSystem, clientStep] at h
      split at h
      · simp only [Option.some.injEq, Prod.mk.injEq] at h
        obtain ⟨rfl, rfl⟩ := h
        exact ⟨p, out, .draw hp⟩
      · cases h
    | inl a =>
      obtain ⟨r, hs, h⟩ := Option.map_eq_some_iff.1 h
      rw [Prod.mk.injEq] at h
      obtain ⟨rfl, rfl⟩ := h
      simp only [paintsOwn, Client.paintsOwn, Bool.and_eq_true] at hok
      have hany := client_any hr
      cases step_stroke hok.1 (step_cases (linked_run hany) hs) with
      | keep he hc => exact ⟨p, out, hp.append he⟩
      | get k b he hc =>
        rw [he]
        exact ⟨default, out, .other rfl (.get _ hp)⟩
      | write k b he hk hpc hs hc =>
        rw [he]
        obtain ⟨new, hnew⟩ := hl (k.comp, content k.comp.fbHandle tr) p hs
        exact ⟨new, out, .write hp (composing_run hany hk) hnew⟩
      | send k info pic he hk hpc hc =>
        rw [he]
        exact ⟨p, out ++ [p], .send hp⟩

end Run

/-- A converter whose pictures say what they are made of. -/
def names (x : EinkComposition × Nat) (_ new : BufferHandle × Nat) : Prop :=
  new = (x.1.fbHandle, x.2)

/-- `shows_queued` for a framebuffer that is drawn again when its frame is sent, while the next
frame is on its way. -/
theorem shows_queued_again : ∃ tr s p out, clientSystem.Run paintsOwn tr s ∧
    Paints names tr p out ∧ content 1 tr = 2 ∧ s.st.unsent.map EinkComposition.fbHandle = [2] ∧
    out.length + s.st.unsent.length = (queued tr).length ∧
      List.Forall₂ (fun x q => ∃ old, names x old q) ((queued tr).take out.length) out := by
  obtain ⟨tr, s, hr, hc⟩ := System.exists_run clientSystem paintsOwn
    (s := { st := initSt ⟨8, 8, 0⟩ 0 }) ⟨_, ⟨⟨8, 8, 0⟩, 0, rfl, rfl⟩, rfl, rfl⟩
    (List.flatten [[.inr 1], (frameActs { handle := 1 } ++ popActs ++ sendActs 1).map .inl,
      [.inr 2], (frameActs { handle := 2 }).map .inl, [.inr 1]])
    (fun tr s => content 1 tr == 2 && s.st.unsent.map EinkComposition.fbHandle == [2])
    (by decide +kernel)
  simp only [Bool.and_eq_true, beq_iff_eq] at hc
  obtain ⟨p, out, hp⟩ : ∃ p out, Paints names tr p out := exists_paints (fun _ _ _ => ⟨_, rfl⟩) hr
  exact ⟨tr, s, p, out, hr, hp, hc.1, hc.2, shows_queued hr hp⟩

end EinkHwc
