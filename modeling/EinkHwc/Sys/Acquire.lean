import EinkHwc.Sys.Requests

/-!
# Acquire fences

`hwc_set` is given one acquire fence a framebuffer target, and has to take it: close it, or hand it
to a composition, whose `UniqueFd` closes it when the wait is over or the composition is destroyed.
A descriptor is a token: handed in, closed, owned by a composition, or still in a layer.

- **The balance** (`balanced_run`): in every run, each token handed in is closed, owned or in a
  layer, once. Nothing is closed twice, whatever `Compose` does.
- **Taken** (`fences_taken`): `hwc_set` leaves no fence in a layer, as long as each target with one
  has a new handle, or, while suspended, each fence is above `0` (`takesFences`). A skipped frame
  keeps its fence (`skip_keeps_fence`).
-/

namespace EinkHwc

open Trace

variable {s s' : St} {a : Act} {es tr : List Ev} {ok : St → Act → Prop}

/-! ## The balance -/

def Ev.isHandIn : Ev → Option Int
  | .handIn fd => some fd
  | _ => none

def Ev.isAcquireClose : Ev → Option Int
  | .close .acquire fd => some fd
  | _ => none

/-- The acquire fences handed in. -/
def handedIn (tr : List Ev) : List Int := tr.filterMap Ev.isHandIn

/-- The acquire fences closed. -/
def closed (tr : List Ev) : List Int := tr.filterMap Ev.isAcquireClose

/-- The tokens among the fences of a composition. -/
def tokens (fences : List Int) : List Int := fences.flatMap closeFd

/-- The fences that `Compose` has still to close. -/
def St.workerFences (s : St) : List Int :=
  match s.cur with
  | some k => tokens k.fences
  | none => []

/-- The fences of the compositions in the hand-off. -/
def queuedFences (ho : Handoff EinkComposition) : List Int :=
  ho.inFlight.flatMap fun c => tokens c.layerAcquireFences

/-- The fences of the composition that `QueueComposite` fills. -/
def HalPc.fences : HalPc → List Int
  | .queue _ _ _ comp => (comp.map fun c => tokens c.layerAcquireFences).getD []
  | _ => []

/-- The fences owned by a composition in the queue or in the worker. -/
def St.owned (s : St) : List Int := s.workerFences ++ queuedFences s.ho

/-- Each token handed in is closed, owned, or still in a layer. -/
def Balanced (tr : List Ev) (s : St) : Prop :=
  ∀ n, (handedIn tr).count n = (closed tr).count n + s.owned.count n + s.hal.fences.count n +
    (acquireFds s.disp).count n

theorem closed_closeEvs (fd : Int) : closed (closeEvs .acquire fd) = closeFd fd := by
  unfold closed closeEvs
  induction closeFd fd with
  | nil => rfl
  | cons f fs ih => simpa [Ev.isAcquireClose] using ih

theorem closed_closeEvs_of_ne {role : FdRole} (h : role ≠ .acquire) (fd : Int) :
    closed (closeEvs role fd) = [] := by
  refine List.filterMap_eq_nil_iff.2 fun e he => ?_
  obtain ⟨fd', -, rfl⟩ := List.mem_map.1 he
  cases role <;> first | rfl | exact absurd rfl h

theorem handedIn_closeEvs (role : FdRole) (fd : Int) : handedIn (closeEvs role fd) = [] := by
  refine List.filterMap_eq_nil_iff.2 fun e he => ?_
  obtain ⟨fd', -, rfl⟩ := List.mem_map.1 he
  rfl

@[simp] theorem closed_append (es tr : List Ev) : closed (es ++ tr) = closed es ++ closed tr :=
  List.filterMap_append ..

@[simp] theorem handedIn_append (es tr : List Ev) :
    handedIn (es ++ tr) = handedIn es ++ handedIn tr :=
  List.filterMap_append ..

theorem closed_destroyEvs (outbuf : Int) (fences : List Int) :
    closed (destroyEvs outbuf fences) = tokens fences := by
  unfold destroyEvs tokens
  rw [closed_append, closed_closeEvs_of_ne (by decide), List.nil_append]
  induction fences with
  | nil => rfl
  | cons f fs ih => rw [List.flatMap_cons, List.flatMap_cons, closed_append, closed_closeEvs, ih]

theorem handedIn_destroyEvs (outbuf : Int) (fences : List Int) :
    handedIn (destroyEvs outbuf fences) = [] := by
  unfold destroyEvs
  rw [handedIn_append, handedIn_closeEvs, List.nil_append]
  induction fences with
  | nil => rfl
  | cons f fs ih => rw [List.flatMap_cons, handedIn_append, handedIn_closeEvs, ih]; rfl

/-- The tokens of the layers of a display list. -/
def layerFds (ls : List Layer) : List Int :=
  ls.flatMap fun l => if l.isTarget then closeFd l.acquireFenceFd else []

theorem acquireFds_eq (d : Displays) : acquireFds d = layerFds (allLayers d) := by
  unfold acquireFds allLayers layerFds
  rw [List.flatMap_assoc]
  congr 1
  funext dc
  cases dc <;> rfl

theorem handedIn_setEvs (oneFull : Int) (d : Displays) (g : Globals) :
    handedIn (setEvs oneFull d g) = acquireFds d := by
  have h : handedIn ((acquireFds d).map .handIn) = acquireFds d := by
    induction acquireFds d with
    | nil => rfl
    | cons f fs ih => exact congrArg (f :: ·) ih
  unfold setEvs
  rw [handedIn_append, h]
  split <;> rfl

theorem closed_setEvs (oneFull : Int) (d : Displays) (g : Globals) :
    closed (setEvs oneFull d g) = [] := by
  have h : closed ((acquireFds d).map .handIn) = [] := by
    induction acquireFds d with
    | nil => rfl
    | cons f fs ih => exact ih
  unfold setEvs
  rw [closed_append, h]
  split <;> rfl

/-- Replacing an element moves the tokens of the two. -/
theorem count_flatMap_set {α : Type} (f : α → List Int) {xs : List α} {i : Nat} {x : α}
    (h : xs[i]? = some x) (y : α) (n : Int) :
    ((xs.set i y).flatMap f).count n + (f x).count n =
      (xs.flatMap f).count n + (f y).count n := by
  induction xs generalizing i with
  | nil => cases h
  | cons z zs ih =>
    cases i with
    | zero =>
      obtain rfl : z = x := Option.some.inj h
      simp only [List.set_cons_zero, List.flatMap_cons, List.count_append]
      omega
    | succ i =>
      have := ih (i := i) (by simpa using h)
      simp only [List.set_cons_succ, List.flatMap_cons, List.count_append]
      omega

theorem allLayers_suspend (d : Displays) :
    allLayers (d.map (Option.map suspendDisplay)) = (allLayers d).map suspendLayer := by
  unfold allLayers
  rw [List.flatMap_map, List.map_flatMap]
  congr 1
  funext dc
  cases dc <;> rfl

/-- The suspended branch closes the fences above `0` and leaves the others. -/
theorem count_suspend (ls : List Layer) (n : Int) :
    (closed (ls.flatMap suspendEvs)).count n + (layerFds (ls.map suspendLayer)).count n =
      (layerFds ls).count n := by
  induction ls with
  | nil => rfl
  | cons l ls ih =>
    have hl : (closed (suspendEvs l)).count n + (layerFds [suspendLayer l]).count n =
        (layerFds [l]).count n := by
      unfold suspendEvs suspendLayer
      by_cases hs : l.isTarget = true ∧ 0 < l.acquireFenceFd
      · have ht : Layer.isTarget { l with acquireFenceFd := -1 } = true := hs.1
        rw [if_pos hs, if_pos hs, closed_closeEvs]
        simp [layerFds, hs.1, ht, closeFd]
      · rw [if_neg hs, if_neg hs, show closed [] = [] from rfl, List.count_nil, Nat.zero_add]
    have hcons : ∀ l (ls : List Layer), layerFds (l :: ls) = layerFds [l] ++ layerFds ls := by
      intro l ls
      simp [layerFds]
    rw [List.flatMap_cons, closed_append, List.map_cons, hcons, hcons l ls]
    simp only [List.count_append]
    omega

theorem handedIn_suspendEvs (ls : List Layer) : handedIn (ls.flatMap suspendEvs) = [] := by
  induction ls with
  | nil => rfl
  | cons l ls ih =>
    rw [List.flatMap_cons, handedIn_append, ih]
    unfold suspendEvs
    split
    · rw [handedIn_closeEvs]; rfl
    · rfl

/-- `QueueComposite` takes the fence out of its layer. -/
theorem count_takeLayer {d : Displays} {i k : Nat} {dc : DisplayContents} {l : Layer} (l' : Layer)
    (hd : d[i]? = some (some dc)) (hl : dc.hwLayers[k]? = some l) (ht : l.isTarget = true)
    (ht' : l'.isTarget = true) (hf : l'.acquireFenceFd = -1) (n : Int) :
    (acquireFds (d.set i (some { dc with hwLayers := dc.hwLayers.set k l' }))).count n +
      (closeFd l.acquireFenceFd).count n = (acquireFds d).count n := by
  have h1 := count_flatMap_set (fun dc => (Option.map DisplayContents.acquireFds dc).getD []) hd
    (some { dc with hwLayers := dc.hwLayers.set k l' }) n
  have h2 := count_flatMap_set (fun l => if l.isTarget then closeFd l.acquireFenceFd else []) hl
    l' n
  have hn : closeFd l'.acquireFenceFd = [] := by rw [hf]; rfl
  simp only [ht, ht', hn, ↓reduceIte, List.count_nil] at h2
  simp only [Option.map_some, Option.getD_some, DisplayContents.acquireFds] at h1
  unfold acquireFds
  omega

/-- The layers of the other displays and the other fields of this one do not matter. -/
theorem acquireFds_set {d : Displays} {i : Nat} {dc dc' : DisplayContents}
    (hd : d[i]? = some (some dc)) (hl : dc'.hwLayers = dc.hwLayers) (n : Int) :
    (acquireFds (d.set i (some dc'))).count n = (acquireFds d).count n := by
  have h := count_flatMap_set (fun dc => (Option.map DisplayContents.acquireFds dc).getD []) hd
    (some dc') n
  simp only [Option.map_some, Option.getD_some, DisplayContents.acquireFds, hl] at h
  unfold acquireFds
  omega

theorem queuedFences_eq {ho ho' : Handoff EinkComposition} (h : ho'.inFlight = ho.inFlight) :
    queuedFences ho' = queuedFences ho := by
  rw [queuedFences, h]
  rfl

theorem workerFences_none (h : s.cur = none) : s.workerFences = [] := by
  rw [St.workerFences, h]

theorem workerFences_some {k : Composing} (h : s.cur = some k) :
    s.workerFences = tokens k.fences := by
  rw [St.workerFences, h]

theorem closed_noFence (h : ∀ e ∈ es, e.isAcquireClose = none ∧ e.isHandIn = none) :
    closed es = [] ∧ handedIn es = [] :=
  ⟨List.filterMap_eq_nil_iff.2 fun e he => (h e he).1,
    List.filterMap_eq_nil_iff.2 fun e he => (h e he).2⟩

/-- A step that moves no token. -/
theorem Balanced.keep (hb : Balanced tr s) (hes : closed es = [] ∧ handedIn es = [])
    (hw : s'.workerFences = s.workerFences) (hq : queuedFences s'.ho = queuedFences s.ho)
    (hh : s'.hal.fences = s.hal.fences)
    (hd : ∀ n, (acquireFds s'.disp).count n = (acquireFds s.disp).count n) :
    Balanced (es ++ tr) s' := by
  intro n
  have hn := hb n
  rw [handedIn_append, closed_append, hes.1, hes.2]
  simp only [St.owned, hw, hq, hh, hd, List.nil_append] at hn ⊢
  exact hn

/-- The end of `Compose`: the fences that it has not closed are closed. -/
theorem Balanced.destroy {k : Composing} (hb : Balanced tr s) (hc : s.cur = some k)
    (hc' : s'.cur = none) (hes : ∀ e ∈ es, e.isAcquireClose = none ∧ e.isHandIn = none)
    (hq : queuedFences s'.ho = queuedFences s.ho) (hh : s'.hal.fences = s.hal.fences)
    (hd : s'.disp = s.disp) : Balanced (destroyEvs k.outbuf k.fences ++ es ++ tr) s' := by
  intro n
  have hn := hb n
  obtain ⟨h1, h2⟩ := closed_noFence hes
  simp only [St.owned, workerFences_some hc, workerFences_none hc', hq, hh, hd, handedIn_append,
    closed_append, h1, h2, handedIn_destroyEvs, closed_destroyEvs, List.count_append,
    List.nil_append, List.append_nil] at hn ⊢
  omega

/-- `QueueComposite` returns: what it has not queued is destroyed. -/
theorem Balanced.done {i j j' k : Nat} {comp : Option EinkComposition} (hb : Balanced tr s)
    (hh : s.hal = .queue i j k comp) :
    Balanced (doneEvs comp ++ tr) { s with hal := .set i j' } := by
  intro n
  have hn := hb n
  simp only [St.owned, hh, HalPc.fences, handedIn_append, closed_append, List.count_append,
    List.count_nil] at hn ⊢
  simp only [St.workerFences] at hn ⊢
  cases comp with
  | none =>
    simp only [doneEvs, show handedIn [] = [] from rfl, show closed [] = [] from rfl,
      Option.map_none, Option.getD_none, List.count_nil] at hn ⊢
    omega
  | some c =>
    simp only [doneEvs, handedIn_destroyEvs, closed_destroyEvs, Option.map_some,
      Option.getD_some, List.count_nil] at hn ⊢
    omega

/-- The fence of a layer goes into the composition, and with it to the hand-off. -/
theorem Balanced.queueLayer {i j k : Nat} {comp : EinkComposition} {dc : DisplayContents}
    {l : Layer} {fd : Int} (hb : Balanced tr s) (hh : s.hal = .queue i j k (some comp))
    (hp : s.ho.prod = .idle) (hd : s.disp[i]? = some (some dc)) (hl : dc.hwLayers[k]? = some l)
    (hq : l.queueable = true) : Balanced ((queueLayer i j k dc l comp fd s).2 ++ tr)
      (queueLayer i j k dc l comp fd s).1 := by
  intro n
  have hn := hb n
  have ht := queueable_isTarget hq
  have htake := count_takeLayer { l with acquireFenceFd := -1, releaseFenceFd := fd }
    hd hl ht ht rfl n
  simp only [EinkHwc.queueLayer, St.owned, queuedFences, Handoff.inFlight_lock hp, hh,
    HalPc.fences, handedIn_append, closed_append, handedIn_closeEvs,
    closed_closeEvs_of_ne (show FdRole.release ≠ .acquire by decide),
    show ∀ c, handedIn [.accept c] = [] from fun _ => rfl,
    show ∀ c, closed [.accept c] = [] from fun _ => rfl, List.flatMap_append,
    List.flatMap_cons, List.flatMap_nil, fillComposition, tokens, Option.map_some,
    Option.map_none, Option.getD_some, Option.getD_none, List.count_append, List.count_nil,
    List.nil_append] at hn ⊢
  simp only [St.workerFences] at hn ⊢
  omega

/-- `Compose` goes on: it has closed the fence at the front, or none. -/
theorem Balanced.wait {k k' : Composing} (hb : Balanced tr s) (hc : s.cur = some k)
    (he : (es = closeEvs .outbuf k.outbuf ∧ k'.fences = k.fences) ∨
      (∃ f, es = closeEvs .acquire f ∧ k.fences = f :: k'.fences) ∨
      (es = [] ∧ k'.fences = k.fences)) : Balanced (es ++ tr) { s with cur := some k' } := by
  obtain ⟨rfl, hf⟩ | ⟨f, rfl, hf⟩ | ⟨rfl, hf⟩ := he
  · refine hb.keep ⟨closed_closeEvs_of_ne (by decide) _, handedIn_closeEvs ..⟩ ?_ rfl rfl
      fun _ => rfl
    rw [workerFences_some hc, workerFences_some rfl, hf]
  · intro n
    have hn := hb n
    simp only [St.owned, workerFences_some hc, hf, tokens, List.flatMap_cons, handedIn_append,
      closed_append, handedIn_closeEvs, closed_closeEvs, List.count_append,
      List.nil_append] at hn ⊢
    rw [workerFences_some rfl]
    simp only [tokens]
    omega
  · refine hb.keep ⟨rfl, rfl⟩ ?_ rfl rfl fun _ => rfl
    rw [workerFences_some hc, workerFences_some rfl, hf]

/-- The account is right after a step, where `hwc_set` has left no fence in the layers. -/
theorem Balanced.step (hidle : s.hal.inSet = false → acquireFds s.disp = [])
    (hb : Balanced tr s) (h : Step s a s' es) : Balanced (es ++ tr) s' := by
  cases h
  case setOn mode oneFull d hh hp hg =>
    intro n
    have hn := hb n
    rw [hidle (by rw [hh]; rfl)] at hn
    simp only [St.owned, hh, HalPc.fences, handedIn_append, closed_append, handedIn_setEvs,
      closed_setEvs, List.count_append, List.count_nil, List.nil_append] at hn ⊢
    simp only [St.workerFences] at hn ⊢
    omega
  case setOff mode oneFull d hh hp hg =>
    intro n
    have hn := hb n
    have hs := count_suspend (allLayers d) n
    rw [hidle (by rw [hh]; rfl)] at hn
    simp only [St.owned, hh, HalPc.fences, handedIn_append, closed_append, handedIn_setEvs,
      closed_setEvs, handedIn_suspendEvs, acquireFds_eq, allLayers_suspend, List.count_append,
      List.count_nil, List.nil_append, List.append_nil] at hn ⊢
    simp only [St.workerFences] at hn ⊢
    omega
  case powerOff hh hp =>
    exact hb.keep ⟨rfl, rfl⟩ rfl rfl (by rw [hh]; rfl) fun _ => rfl
  case posted hh _ _ | postFailed hh _ =>
    refine hb.keep ⟨rfl, rfl⟩ rfl rfl ?_ fun _ => rfl
    rw [hh]
    simp only
    split <;> rfl
  case setDone hh _ _ | nextDisplay hh _ _ _ | nextLayer hh _ _ _ | otherLayer hh _ _ _ _
    | sameLayer hh _ _ _ _ _ =>
    exact hb.keep ⟨rfl, rfl⟩ rfl rfl (by rw [hh]; rfl) fun _ => rfl
  case start i j dc l fd hh hp hd hl hq =>
    refine hb.keep ?_ rfl rfl (by rw [hh]; rfl) fun n => ?_
    · simp only [queueCompositeStart, closed_append, handedIn_append,
        closed_closeEvs_of_ne (show FdRole.retire ≠ .acquire by decide), handedIn_closeEvs]
      exact ⟨rfl, rfl⟩
    · simp only [queueCompositeStart]
      exact acquireFds_set hd (by rfl) n
  case queueDone i j k comp dc fd hh hp hd hl => exact hb.done hh
  case newLayer i j k comp dc l fd hh hp hd hl hq hne => exact hb.queueLayer hh hp hd hl hq
  case moved ho hf _ _ | pushed ho c hf _ _ _ =>
    exact hb.keep ⟨rfl, rfl⟩ rfl (queuedFences_eq hf) rfl fun _ => rfl
  case started ho c hf _ hc _ =>
    intro n
    have hn := hb n
    simp only [St.owned, workerFences_none hc, queuedFences, hf, List.flatMap_cons, handedIn_append,
      closed_append, List.count_append, List.nil_append] at hn ⊢
    rw [workerFences_some rfl]
    simp only [show ∀ c, handedIn [.ho (.compose c)] = [] from fun _ => rfl,
      show ∀ c, closed [.ho (.compose c)] = [] from fun _ => rfl, List.count_nil] at hn ⊢
    omega
  case waited k k' ret hc hp hcomp hp' he => exact hb.wait hc he
  case dropped k ret hc hp hr hw =>
    refine hb.destroy hc rfl ?_ (queuedFences_eq (Handoff.inFlight_top hw)) rfl rfl
    simp [Ev.isAcquireClose, Ev.isHandIn]
  case finished k ret hc hp hr hw =>
    have hes : ∀ e ∈ ([] : List Ev), e.isAcquireClose = none ∧ e.isHandIn = none := by simp
    rw [← List.append_nil (destroyEvs _ _)]
    exact hb.destroy hc rfl hes (queuedFences_eq (Handoff.inFlight_top hw)) rfl rfl
  case finishedInc k hc hp hr hw =>
    refine hb.destroy hc rfl ?_ (queuedFences_eq (Handoff.inFlight_top hw)) rfl rfl
    simp [Ev.isAcquireClose, Ev.isHandIn]
  case doze | powerOn => exact hb.keep ⟨rfl, rfl⟩ rfl rfl rfl fun _ => rfl
  case ready k hc _ _ | notReady k b hc _ _ | wrote k env m hc _ _ _ | notWritten k env m hc _ _ _
    | sent k m hc _ _ | sendFailed k m ret hc _ _ _ | got k m b hc _ _ | getFailed k m hc _ _ =>
    refine hb.keep ⟨rfl, rfl⟩ ?_ rfl rfl fun _ => rfl
    rw [workerFences_some hc, workerFences_some rfl]

/-! ## What `hwc_set` takes -/

/-- The layer has no acquire fence that is `hwc_set`'s to take. -/
def Layer.Done (l : Layer) : Prop := l.isTarget = true → l.acquireFenceFd = -1

/-- The loops over these layers take every fence of a target: `none` if one is left, else the last
handle. -/
def takes (last : BufferHandle) : List Layer → Option BufferHandle
  | [] => some last
  | l :: ls =>
    if l.queueable && l.handle != last then takes l.handle ls
    else if l.isTarget && l.acquireFenceFd != -1 then none
    else takes last ls

/-- Each display has at most one framebuffer target. -/
def oneTarget (d : Displays) : Bool :=
  d.all fun dc => ((dc.map DisplayContents.hwLayers).getD []).countP Layer.isTarget ≤ 1

section Walk

variable {d : Displays} {i j k : Nat} {l : Layer} {last : BufferHandle} {ls ls' : List Layer}

theorem takes_append_of_noTarget (h : ∀ l ∈ ls, l.isTarget = false) :
    takes last (ls ++ ls') = takes last ls' := by
  induction ls with
  | nil => rfl
  | cons l ls ih =>
    obtain ⟨hl, hls⟩ := List.forall_mem_cons.1 h
    have hq : l.queueable = false := by
      cases hq : l.queueable with
      | false => rfl
      | true =>
        rw [queueable_isTarget hq] at hl
        cases hl
    rw [List.cons_append, takes, hq, hl]
    exact ih hls

/-- The layers of a display. -/
def layersOf (d : Displays) (i : Nat) : List Layer :=
  ((d[i]?.join).map DisplayContents.hwLayers).getD []

/-- The layers before layer `p` of display `i`. -/
def seen (d : Displays) (i p : Nat) : List Layer :=
  allLayers (d.take i) ++ (layersOf d i).take p

/-- The layers from there on. -/
def rest (d : Displays) (i p : Nat) : List Layer :=
  (layersOf d i).drop p ++ allLayers (d.drop (i + 1))

theorem layerAt_eq_layersOf : layerAt d i k = (layersOf d i)[k]? := by
  unfold layerAt layersOf
  cases d[i]?.join <;> rfl

theorem allLayers_append (d d' : Displays) : allLayers (d ++ d') = allLayers d ++ allLayers d' :=
  List.flatMap_append ..

theorem allLayers_getElem? : allLayers d[i]?.toList = layersOf d i := by
  unfold allLayers layersOf
  cases d[i]? with
  | none => rfl
  | some dc => simp

theorem rest_zero : rest d i 0 = allLayers (d.drop i) := by
  rw [rest, List.drop_zero, ← allLayers_getElem?, ← allLayers_append,
    ← List.drop_eq_getElem?_toList_append]

theorem seen_all (h : (layersOf d i).length ≤ k) : seen d i k = allLayers (d.take (i + 1)) := by
  rw [seen, List.take_of_length_le h, ← allLayers_getElem?, ← allLayers_append,
    ← List.take_add_one]

theorem rest_next (h : (layersOf d i).length ≤ k) : rest d i k = rest d (i + 1) 0 := by
  rw [rest_zero, rest, List.drop_of_length_le h, List.nil_append]

theorem seen_succ (h : layerAt d i k = some l) : seen d i (k + 1) = seen d i k ++ [l] := by
  rw [layerAt_eq_layersOf] at h
  rw [seen, seen, List.take_add_one, h, List.append_assoc]
  rfl

theorem rest_cons (h : layerAt d i k = some l) : rest d i k = l :: rest d i (k + 1) := by
  rw [layerAt_eq_layersOf] at h
  obtain ⟨hk, rfl⟩ := List.getElem?_eq_some_iff.1 h
  rw [rest, List.drop_eq_getElem_cons hk]
  rfl

/-- A display with a target at layer `j` has no other one. -/
theorem noTarget_of_one (h1 : oneTarget d = true) (hl : layerAt d i j = some l)
    (ht : l.isTarget = true) :
    (∀ x ∈ (layersOf d i).take j, x.isTarget = false) ∧
      ∀ x ∈ (layersOf d i).drop (j + 1), x.isTarget = false := by
  have hc : (layersOf d i).countP Layer.isTarget ≤ 1 := by
    unfold layersOf
    cases hd : d[i]? with
    | none => simp
    | some dc =>
      have := List.all_eq_true.1 h1 dc (List.mem_of_getElem? hd)
      simpa using this
  rw [layerAt_eq_layersOf] at hl
  obtain ⟨hj, hlj⟩ := List.getElem?_eq_some_iff.1 hl
  rw [← List.take_append_drop j (layersOf d i), List.countP_append, List.drop_eq_getElem_cons hj,
    hlj, List.countP_cons_of_pos ht] at hc
  have h0 : ((layersOf d i).take j).countP Layer.isTarget = 0 := by omega
  have h2 : ((layersOf d i).drop (j + 1)).countP Layer.isTarget = 0 := by omega
  rw [List.countP_eq_zero] at h0 h2
  exact ⟨fun x hx => by simpa using h0 x hx, fun x hx => by simpa using h2 x hx⟩

/-- Before layer `p` of display `i` all fences are taken, and from there on they will be. -/
structure WalkAt (d : Displays) (last : BufferHandle) (i p : Nat) : Prop where
  one : oneTarget d = true
  seen : ∀ l ∈ seen d i p, l.Done
  rest : (takes last (rest d i p)).isSome = true

theorem length_le_of_layerAt (h : layerAt d i k = none) : (layersOf d i).length ≤ k := by
  rw [layerAt_eq_layersOf] at h
  exact List.getElem?_eq_none_iff.1 h

theorem WalkAt.pass (h : WalkAt d last i k) (hl : layerAt d i k = some l)
    (hn : ¬ (l.queueable = true ∧ l.handle ≠ last)) : WalkAt d last i (k + 1) := by
  have hr := h.rest
  have hq : (l.queueable && l.handle != last) = false := by simpa using hn
  rw [rest_cons hl, takes, hq, if_neg (by decide)] at hr
  by_cases hf : (l.isTarget && l.acquireFenceFd != -1) = true
  · rw [if_pos hf] at hr
    cases hr
  · rw [if_neg hf] at hr
    refine ⟨h.one, fun x hx => ?_, hr⟩
    rw [seen_succ hl, List.mem_append, List.mem_singleton] at hx
    rcases hx with hx | rfl
    · exact h.seen x hx
    · intro ht
      simpa [ht] using hf

theorem WalkAt.next (h : WalkAt d last i k) (hl : layerAt d i k = none) :
    WalkAt d last (i + 1) 0 := by
  have hk := length_le_of_layerAt hl
  refine ⟨h.one, fun x hx => h.seen x ?_, by rw [← rest_next hk]; exact h.rest⟩
  rw [seen_all hk]
  simpa [EinkHwc.seen] using hx

theorem WalkAt.done (h : WalkAt d last i k) (hi : d.length ≤ i) : ∀ l ∈ allLayers d, l.Done := by
  intro l hl
  refine h.seen l ?_
  rw [EinkHwc.seen, List.take_of_length_le hi]
  exact List.mem_append_left _ hl

theorem WalkAt.start (h : WalkAt d last i j) (hl : layerAt d i j = some l)
    (ht : l.isTarget = true) : WalkAt d last i 0 := by
  have hr := h.rest
  refine ⟨h.one, fun x hx => h.seen x ?_, ?_⟩
  · rw [EinkHwc.seen, List.take_zero, List.append_nil] at hx
    exact List.mem_append_left _ hx
  · rw [EinkHwc.rest, List.drop_zero]
    rw [EinkHwc.rest] at hr
    rw [← List.take_append_drop j (layersOf d i), List.append_assoc,
      takes_append_of_noTarget (noTarget_of_one h.one hl ht).1]
    exact hr

theorem WalkAt.finish (h : WalkAt d last i k) (hk : layerAt d i k = none)
    (hl : layerAt d i j = some l) (ht : l.isTarget = true) : WalkAt d last i (j + 1) := by
  have hr := h.rest
  have hlen := length_le_of_layerAt hk
  refine ⟨h.one, fun x hx => h.seen x ?_, ?_⟩
  · rw [EinkHwc.seen, List.take_of_length_le hlen]
    rw [EinkHwc.seen] at hx
    rcases List.mem_append.1 hx with hx | hx
    · exact List.mem_append_left _ hx
    · exact List.mem_append_right _ (List.mem_of_mem_take hx)
  · rw [EinkHwc.rest, List.drop_of_length_le hlen, List.nil_append] at hr
    rw [EinkHwc.rest, takes_append_of_noTarget (noTarget_of_one h.one hl ht).2]
    exact hr

theorem oneTarget_set {dc : DisplayContents} (h : oneTarget d = true)
    (hc : dc.hwLayers.countP Layer.isTarget ≤ 1) : oneTarget (d.set i (some dc)) = true := by
  refine List.all_eq_true.2 fun x hx => ?_
  rcases List.mem_or_eq_of_mem_set hx with hx | rfl
  · exact List.all_eq_true.1 h x hx
  · simpa using hc

theorem layersOf_set {dc : DisplayContents} (hi : i < d.length) :
    layersOf (d.set i (some dc)) i = dc.hwLayers := by
  rw [layersOf, List.getElem?_set_self hi]
  rfl

theorem seen_set {dc : DisplayContents} (hi : i < d.length) :
    seen (d.set i (some dc)) i k = allLayers (d.take i) ++ dc.hwLayers.take k := by
  rw [seen, layersOf_set hi, List.take_set_of_le (Nat.le_refl i)]

theorem rest_set {dc : DisplayContents} (hi : i < d.length) :
    rest (d.set i (some dc)) i k = dc.hwLayers.drop k ++ allLayers (d.drop (i + 1)) := by
  rw [rest, layersOf_set hi, List.drop_set_of_lt (Nat.lt_succ_self i)]

theorem layersOf_eq {dc : DisplayContents} (hd : d[i]? = some (some dc)) :
    layersOf d i = dc.hwLayers := by
  rw [layersOf, hd]
  rfl

theorem countP_layersOf (h : oneTarget d = true) {dc : DisplayContents}
    (hd : d[i]? = some (some dc)) : dc.hwLayers.countP Layer.isTarget ≤ 1 := by
  have := List.all_eq_true.1 h _ (List.mem_of_getElem? hd)
  simpa using this

/-- The other fields of a display do not matter. -/
theorem WalkAt.congr {dc dc' : DisplayContents} (h : WalkAt d last i k)
    (hd : d[i]? = some (some dc)) (hl : dc'.hwLayers = dc.hwLayers) :
    WalkAt (d.set i (some dc')) last i k := by
  have hi := (List.getElem?_eq_some_iff.1 hd).1
  have h1 : EinkHwc.seen (d.set i (some dc')) i k = EinkHwc.seen d i k := by
    rw [seen_set hi, hl, EinkHwc.seen, layersOf_eq hd]
  have h2 : EinkHwc.rest (d.set i (some dc')) i k = EinkHwc.rest d i k := by
    rw [rest_set hi, hl, EinkHwc.rest, layersOf_eq hd]
  exact ⟨oneTarget_set h.one (hl ▸ countP_layersOf h.one hd), h1 ▸ h.seen, h2 ▸ h.rest⟩

/-- `QueueComposite` takes the fence of a layer with a new handle. -/
theorem WalkAt.take {dc : DisplayContents} {l' : Layer} (h : WalkAt d last i k)
    (hd : d[i]? = some (some dc)) (hl : dc.hwLayers[k]? = some l) (hq : l.queueable = true)
    (hn : l.handle ≠ last) (hf : l'.acquireFenceFd = -1) (ht : l'.isTarget = true) :
    WalkAt (d.set i (some { dc with hwLayers := dc.hwLayers.set k l' })) l.handle i (k + 1) := by
  have hi := (List.getElem?_eq_some_iff.1 hd).1
  obtain ⟨hk, rfl⟩ := List.getElem?_eq_some_iff.1 hl
  have hone := countP_layersOf h.one hd
  refine ⟨oneTarget_set h.one ?_, fun x hx => ?_, ?_⟩
  · have ht0 : dc.hwLayers[k].isTarget = true := queueable_isTarget hq
    have hpos : 0 < dc.hwLayers.countP Layer.isTarget :=
      List.countP_pos_iff.2 ⟨_, List.getElem_mem hk, ht0⟩
    show (dc.hwLayers.set k l').countP Layer.isTarget ≤ 1
    rw [List.countP_set hk, if_pos ht0, if_pos ht]
    omega
  · rw [seen_set hi, List.take_add_one, List.getElem?_set_self hk,
      List.take_set_of_le (Nat.le_refl k), ← List.append_assoc, List.mem_append,
      ← layersOf_eq hd] at hx
    rcases hx with hx | hx
    · exact h.seen x hx
    · obtain rfl : x = l' := by simpa using hx
      exact fun _ => hf
  · have hr := h.rest
    have hne : (dc.hwLayers[k].queueable && dc.hwLayers[k].handle != last) = true := by
      rw [hq, Bool.true_and]
      exact bne_iff_ne.2 hn
    rw [EinkHwc.rest, layersOf_eq hd, List.drop_eq_getElem_cons hk, List.cons_append,
      EinkHwc.takes, if_pos hne] at hr
    rw [rest_set hi, List.drop_set_of_lt (Nat.lt_succ_self k)]
    exact hr

end Walk

/-- The fences that `hwc_set` has taken and will take. -/
def Walk (s : St) : Prop :=
  match s.hal with
  | .set i j => WalkAt s.disp s.lastFbHandle i j
  | .queue i j k _ => WalkAt s.disp s.lastFbHandle i k ∧
      ∃ l, layerAt s.disp i j = some l ∧ l.isTarget = true
  | .idle | .posts _ => (∀ l ∈ allLayers s.disp, l.Done) ∧ s.ho.prodHeld = []

/-- `hwc_set` leaves no fence in a layer: each target that has one has a new handle or, while
suspended, a fence above `0`. -/
def St.takesFences (s : St) : Act → Bool
  | .hwcSet mode oneFull d =>
    if (setGlobals mode oneFull s.g).gCurrentEpdMode ≠ epdSuspend then
      oneTarget d && (takes s.lastFbHandle (allLayers d)).isSome
    else (allLayers d).all fun l => !l.isTarget || l.acquireFenceFd == -1 || 0 < l.acquireFenceFd
  | _ => true

def takesFences (s : St) (a : Act) : Prop := s.takesFences a = true

instance (s : St) (a : Act) : Decidable (takesFences s a) :=
  inferInstanceAs (Decidable (s.takesFences a = true))

/-- A step that leaves the HAL thread alone. -/
theorem Walk.keep (hw : Walk s) (hh : s'.hal = s.hal) (hd : s'.disp = s.disp)
    (hl : s'.lastFbHandle = s.lastFbHandle) (hp : s.ho.prodHeld = [] → s'.ho.prodHeld = []) :
    Walk s' := by
  unfold Walk at hw ⊢
  rw [hh, hd, hl]
  cases hs : s.hal <;> rw [hs] at hw
  case idle | posts => exact ⟨hw.1, hp hw.2⟩
  case set | queue => exact hw

theorem walk_outside (hh : s.hal.inSet = false) :
    Walk s ↔ (∀ l ∈ allLayers s.disp, l.Done) ∧ s.ho.prodHeld = [] := by
  unfold Walk
  cases hs : s.hal <;> rw [hs] at hh <;> first | rfl | cases hh

theorem suspendLayer_done {l : Layer}
    (h : (!l.isTarget || l.acquireFenceFd == -1 || decide (0 < l.acquireFenceFd)) = true) :
    (suspendLayer l).Done := by
  unfold suspendLayer
  by_cases hs : l.isTarget = true ∧ 0 < l.acquireFenceFd
  · rw [if_pos hs]
    exact fun _ => rfl
  · rw [if_neg hs]
    intro ht
    have hf : ¬ 0 < l.acquireFenceFd := fun hf => hs ⟨ht, hf⟩
    simpa [ht, hf] using h

theorem Walk.step (hw : Walk s) (hok : takesFences s a) (h : Step s a s' es) : Walk s' := by
  cases h
  case setOn mode oneFull d hh hp hg =>
    simp only [takesFences, St.takesFences, if_pos hg, Bool.and_eq_true] at hok
    refine ⟨hok.1, fun l hl => absurd hl (by simp [seen, allLayers]), ?_⟩
    rw [rest_zero]
    exact hok.2
  case setOff mode oneFull d hh hp hg =>
    simp only [takesFences, St.takesFences, hg, ne_eq, not_true_eq_false, ↓reduceIte,
      List.all_eq_true] at hok
    have hdone : ∀ l ∈ allLayers (d.map (Option.map suspendDisplay)), l.Done := by
      intro l hl
      rw [allLayers_suspend] at hl
      obtain ⟨l0, hl0, rfl⟩ := List.mem_map.1 hl
      exact suspendLayer_done (hok l0 hl0)
    show Walk { s with g := _, disp := _ }
    rw [Walk, hh]
    exact ⟨hdone, Handoff.prodHeld_idle hp⟩
  case powerOff env hh hp =>
    have hi := (walk_outside (by rw [hh]; rfl)).1 hw
    exact hi
  case posted hh _ _ | postFailed hh _ =>
    have hi := (walk_outside (by rw [hh]; rfl)).1 hw
    refine (walk_outside ?_).2 hi
    dsimp only
    split <;> rfl
  case setDone i j fd hh hp hi =>
    rw [Walk, hh] at hw
    exact ⟨hw.done hi, Handoff.prodHeld_idle hp⟩
  case nextDisplay i j fd hh hp hi hl =>
    rw [Walk, hh] at hw
    exact hw.next hl
  case nextLayer i j l fd hh hp hl hq =>
    rw [Walk, hh] at hw
    exact hw.pass hl (by simp [hq])
  case start i j dc l fd hh hp hd hl hq =>
    rw [Walk, hh] at hw
    have ht := queueable_isTarget hq
    have hlj : layerAt s.disp i j = some l := (layerAt_eq hd).trans hl
    refine ⟨(hw.start hlj ht).congr hd rfl, l, ?_, ht⟩
    rw [queueCompositeStart, layerAt_set hd (by rfl)]
    exact hlj
  case queueDone i j k comp dc fd hh hp hd hl =>
    rw [Walk, hh] at hw
    obtain ⟨hw, l, hlj, ht⟩ := hw
    exact hw.finish ((layerAt_eq hd).trans hl) hlj ht
  case otherLayer i j k comp dc l fd hh hp hd hl hq =>
    rw [Walk, hh] at hw
    exact ⟨hw.1.pass ((layerAt_eq hd).trans hl) (by simp [hq]), hw.2⟩
  case sameLayer i j k comp dc l fd hh hp hd hl hq hn =>
    rw [Walk, hh] at hw
    exact ⟨hw.1.pass ((layerAt_eq hd).trans hl) (by simp [hn]), hw.2⟩
  case newLayer i j k comp dc l fd hh hp hd hl hq hn =>
    rw [Walk, hh] at hw
    obtain ⟨hw, lj, hlj, htj⟩ := hw
    have hi := (List.getElem?_eq_some_iff.1 hd).1
    have hk := (List.getElem?_eq_some_iff.1 hl).1
    refine ⟨hw.take hd hl hq hn rfl (queueable_isTarget hq), ?_⟩
    rw [queueLayer, layerAt_eq_layersOf, layersOf_set hi]
    by_cases hjk : k = j
    · subst hjk
      exact ⟨_, List.getElem?_set_self hk, queueable_isTarget hq⟩
    · rw [layerAt_eq_layersOf, layersOf_eq hd] at hlj
      exact ⟨lj, by rw [List.getElem?_set_ne hjk, hlj], htj⟩
  case moved ho hf hp _ => exact hw.keep rfl rfl rfl fun h => hp.trans h
  case pushed ho c hf h0 h1 _ => exact hw.keep rfl rfl rfl fun _ => h1
  case started ho c hf hp hc _ => exact hw.keep rfl rfl rfl fun h => hp.trans h
  all_goals exact hw.keep rfl rfl rfl id

theorem Walk.acquireFds (hw : Walk s) (hh : s.hal.inSet = false) : acquireFds s.disp = [] := by
  rw [acquireFds_eq]
  refine List.flatMap_eq_nil_iff.2 fun l hl => ?_
  by_cases ht : l.isTarget = true
  · rw [if_pos ht, ((walk_outside hh).1 hw).1 l hl ht]
    rfl
  · rw [if_neg ht]

theorem walk_run (hr : Run takesFences tr s) : Walk s := by
  refine run_induction (J := fun _ _ => True) (I := fun _ s => Walk s) (fun _ _ _ => trivial) ?_ ?_
    hr
  · intro panel b
    exact ⟨fun l hl => absurd hl (by simp [initSt, allLayers]), rfl⟩
  · intro s a s' es tr _ hw hok h
    exact hw.step hok h

theorem balanced_run (hr : Run takesFences tr s) : Balanced tr s := by
  refine run_induction (J := fun _ s => Walk s) (fun _ _ => walk_run) ?_ ?_ hr
  · intro panel b n
    rfl
  · intro s a s' es tr hw hb _ h
    exact hb.step hw.acquireFds h

/-- Acquire-fence ownership: each token handed in is closed or owned, once, or still in a layer that
`hwc_set` has to pass; when `hwc_set` has returned, no layer has a fence, and each token is closed
once or owned by a composition in the queue or in the worker. What is owned no more is closed. -/
theorem fences_taken (hr : Run takesFences tr s) :
    Balanced tr s ∧ (s.hal.inSet = false →
      (∀ l ∈ allLayers s.disp, l.isTarget = true → l.acquireFenceFd = -1) ∧
        s.ho.prodHeld = [] ∧
        (∀ n, (handedIn tr).count n = (closed tr).count n + s.owned.count n) ∧
        ∀ n, n ∉ s.owned → (closed tr).count n = (handedIn tr).count n) := by
  have hw := walk_run hr
  have hb := balanced_run hr
  refine ⟨hb, fun hh => ?_⟩
  have hcount : ∀ n, (handedIn tr).count n = (closed tr).count n + s.owned.count n := by
    intro n
    have hn := hb n
    have hf : s.hal.fences = [] := by
      cases hs : s.hal <;> rw [hs] at hh <;> first | rfl | cases hh
    rw [hf, hw.acquireFds hh, List.count_nil, Nat.add_zero] at hn
    exact hn
  obtain ⟨hdone, hprod⟩ := (walk_outside hh).1 hw
  refine ⟨hdone, hprod, hcount, fun n hn => ?_⟩
  rw [hcount n, List.count_eq_zero.2 hn, Nat.add_zero]

/-- `fences_taken` in a run with two frames, the first one composed and the second one skipped
while suspended. -/
theorem fences_taken_two : ∃ tr s, Run takesFences tr s ∧
    handedIn tr = [6, 5] ∧ closed tr = [6, 5] ∧ s.hal.inSet = false ∧
      (∀ n, (handedIn tr).count n = (closed tr).count n + s.owned.count n) := by
  obtain ⟨tr, s, hr, hp⟩ := System.exists_run system takesFences ⟨⟨8, 8, 0⟩, 0, rfl, rfl⟩
    (frameActs { handle := 1, acquireFenceFd := 5 } ++ popActs ++ sendActs 1 ++
      [.hwcSet epdSuspend 0 [some { hwLayers := [{ handle := 2, acquireFenceFd := 6 }] }]])
    (fun tr s => handedIn tr == [6, 5] && closed tr == [6, 5] && !s.hal.inSet) (by decide +kernel)
  simp only [Bool.and_eq_true, beq_iff_eq, Bool.not_eq_true'] at hp
  exact ⟨tr, s, hr, hp.1.1, hp.1.2, hp.2, ((fences_taken hr).2 hp.2).2.2.1⟩

/-- The frame of handle `1` is queued, and a second `hwc_set` with that handle is skipped: its fence
stays in the layer. -/
theorem skip_keeps_fence : ¬ ∀ tr s, Run System.any tr s → s.hal.inSet = false →
    ∀ l ∈ allLayers s.disp, l.isTarget = true → l.acquireFenceFd = -1 := by
  intro h
  obtain ⟨tr, s, hr, hp⟩ := System.exists_run system System.any ⟨⟨8, 8, 0⟩, 0, rfl, rfl⟩
    (frameActs { handle := 1, acquireFenceFd := 5 } ++ popActs ++
      skipActs { handle := 1, acquireFenceFd := 6 })
    (fun _ s => !s.hal.inSet && (allLayers s.disp).any fun l => l.isTarget && l.acquireFenceFd == 6)
    (by decide +kernel)
  simp only [Bool.and_eq_true, Bool.not_eq_true', List.any_eq_true, beq_iff_eq] at hp
  obtain ⟨hh, l, hl, ht, hf⟩ := hp
  have := h tr s hr hh l hl ht
  omega

end EinkHwc
