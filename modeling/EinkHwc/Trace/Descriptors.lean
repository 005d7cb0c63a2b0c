/-!
# Descriptors

The descriptors that a process opens and closes, in order.

* `Fds`: the open descriptors, and the closes of one that is not open.
* `Fds.Fresh`: no open returns a descriptor that is open.
* `Fds.Keeps`: what has been opened and not closed from one moment to another.
* `call_closed`, `run_closed`: closing what is open. `call_of_not_mem`: closing what is not.
* `run_opened_closed`: a descriptor opened and closed again leaves no trace.
-/

namespace Trace

inductive FdCall where
  | opened (fd : Int)
  | closed (fd : Int)
  deriving DecidableEq, Repr

/-- The open descriptors, and those that were closed without being open. -/
structure Fds where
  live : List Int := []
  stale : List Int := []
  deriving DecidableEq, Repr

namespace Fds

def call (t : Fds) : FdCall → Fds
  | .opened fd => { t with live := fd :: t.live }
  | .closed fd =>
    if fd ∈ t.live then { t with live := t.live.erase fd } else { t with stale := fd :: t.stale }

def run (t : Fds) (cs : List FdCall) : Fds := cs.foldl call t

/-- The kernel hands out what is not in use, and 0 is in use. -/
def Fresh : Fds → List FdCall → Prop
  | _, [] => True
  | t, .opened fd :: cs => (0 < fd ∧ fd ∉ t.live) ∧ Fresh (t.call (.opened fd)) cs
  | t, .closed fd :: cs => Fresh (t.call (.closed fd)) cs

instance decFresh : ∀ (t : Fds) (cs : List FdCall), Decidable (Fresh t cs)
  | _, [] => isTrue trivial
  | t, .opened fd :: cs =>
    have := decFresh (t.call (.opened fd)) cs
    inferInstanceAs (Decidable (_ ∧ _))
  | t, .closed fd :: cs => decFresh (t.call (.closed fd)) cs

/-- Between `t` and `u` the descriptors `fds` were opened and not closed, and each descriptor that
was closed was open. -/
def Keeps (t u : Fds) (fds : List Int) : Prop := u.live.Perm (fds ++ t.live) ∧ u.stale = t.stale

variable {t u : Fds} {cs ds : List FdCall} {fd : Int} {r : List Int}

theorem run_append_calls : t.run (cs ++ ds) = (t.run cs).run ds := List.foldl_append ..

theorem fresh_append : t.Fresh (cs ++ ds) ↔ t.Fresh cs ∧ (t.run cs).Fresh ds := by
  induction cs generalizing t with
  | nil => exact ⟨fun h => ⟨trivial, h⟩, And.right⟩
  | cons c cs ih =>
    cases c with
    | opened fd =>
      exact (and_congr_right fun _ => ih).trans and_assoc.symm
    | closed fd => exact ih

theorem call_of_mem (h : fd ∈ t.live) :
    t.call (.closed fd) = { t with live := t.live.erase fd } := if_pos h

theorem call_of_not_mem (h : fd ∉ t.live) :
    t.call (.closed fd) = { t with stale := fd :: t.stale } := if_neg h

/-- Closing an open descriptor. -/
theorem call_closed (h : t.live.Perm (fd :: r)) :
    (t.call (.closed fd)).live.Perm r ∧ (t.call (.closed fd)).stale = t.stale := by
  rw [call_of_mem (h.symm.subset List.mem_cons_self)]
  refine ⟨?_, rfl⟩
  have herase := h.erase fd
  rwa [List.erase_cons_head] at herase

/-- Closing open descriptors, one after the other. -/
theorem run_closed {fds : List Int} (h : t.live.Perm (fds ++ r)) :
    (t.run (fds.map .closed)).live.Perm r ∧ (t.run (fds.map .closed)).stale = t.stale := by
  induction fds generalizing t with
  | nil => exact ⟨h, rfl⟩
  | cons fd fds ih =>
    obtain ⟨hlive, hstale⟩ := call_closed h
    obtain ⟨hlive', hstale'⟩ := ih hlive
    exact ⟨hlive', hstale'.trans hstale⟩

theorem Keeps.refl (t : Fds) : t.Keeps t [] := ⟨.refl _, rfl⟩

theorem Keeps.opened (fd : Int) (h : t.Keeps u r) : t.Keeps (u.call (.opened fd)) (fd :: r) :=
  ⟨h.1.cons fd, h.2⟩

/-- What was kept is closed. -/
theorem Keeps.closed {fds : List Int} (h : t.Keeps u fds) :
    t.Keeps (u.run (fds.map .closed)) [] := by
  obtain ⟨hlive, hstale⟩ := run_closed h.1
  exact ⟨hlive, hstale.trans h.2⟩

theorem run_opened_closed (fd : Int) : t.run [.opened fd, .closed fd] = t := by
  have hmem : fd ∈ (t.call (.opened fd)).live := List.mem_cons_self
  have herase : (t.call (.opened fd)).live.erase fd = t.live := List.erase_cons_head fd t.live
  show (t.call (.opened fd)).call (.closed fd) = t
  rw [call_of_mem hmem, herase]
  rfl

end Fds

end Trace
