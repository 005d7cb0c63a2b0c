import EinkHwc.Sweep.Keyed
import Mathlib.Data.List.Basic

/-!
# Separating overlapping rectangles

`separate_rects` sweeps a vertical line from left to right over the edges of its rectangles. At each
edge it cuts the line into regions with a constant set of rectangles, keeps the regions that go on
as started rectangles, and appends those that do not to its output.

* Coordinates are of any linear order; a set of rectangle ids is a word of 64 bits.
* The `std::set` and `std::map` objects are the lists of `Keyed`, in the order of the source's
  `operator<`: it looks neither at the type of an event nor at the left edge of a started rectangle.
* An `assert` that fails, and an iterator that is used at its end, is `none`.
-/

namespace EinkHwc

namespace SeparateRects

structure Rect (α : Type) where
  left : α
  top : α
  right : α
  bottom : α
  deriving DecidableEq, Repr

/-- `IdSet<uint64_t>` -/
abbrev IdSet := BitVec 64

def IdSet.maxElements : Nat := 64

def IdSet.add (s : IdSet) (id : Nat) : IdSet := s ||| 1#64 <<< id

def IdSet.subtract (s : IdSet) (id : Nat) : IdSet := s &&& ~~~(1#64 <<< id)

structure RectSet (α : Type) where
  idSet : IdSet
  rect : Rect α
  deriving DecidableEq, Repr

/-- `START`, `END` -/
inductive EventType where
  | start | stop
  deriving DecidableEq, Repr

/-- `pos` is the union of `x` and `y`. -/
structure SweepEvent (α : Type) where
  type : EventType
  pos : α
  rectId : Nat
  deriving DecidableEq, Repr

structure StartedRect (α : Type) where
  idSet : IdSet
  left : α
  top : α
  bottom : α
  deriving DecidableEq, Repr

variable {α : Type} [LinearOrder α]

/-- `SweepEvent::operator<` -/
def SweepEvent.lt (a b : SweepEvent α) : Bool :=
  a.pos < b.pos || (a.pos == b.pos && a.rectId < b.rectId)

/-- `StartedRect::operator<` -/
def StartedRect.lt (a b : StartedRect α) : Bool :=
  (a.top < b.top || (a.top == b.top && a.bottom < b.bottom)) ||
    (a.top == b.top && a.bottom == b.bottom && a.idSet < b.idSet)

/-- The order of `started_rects`, a map to the flag that the rectangle was seen. -/
def startedLt (a b : StartedRect α × Bool) : Bool := a.1.lt b.1

/-- The locals of the sweep, and the output vector. -/
structure State (α : Type) where
  sweepVEvents : List (SweepEvent α) := []
  startedRects : List (StartedRect α × Bool) := []
  out : List (RectSet α)

/-- The events of the rectangles `ins`, which have the ids from `i` on; empty or inverted
rectangles have none. -/
def addEvents : List (Rect α) → Nat → List (SweepEvent α) → List (SweepEvent α)
  | [], _, s => s
  | rect :: ins, i, s =>
    if rect.left ≥ rect.right ∨ rect.top ≥ rect.bottom then addEvents ins (i + 1) s
    else addEvents ins (i + 1) (Keyed.insert SweepEvent.lt ⟨.stop, rect.right, i⟩
      (Keyed.insert SweepEvent.lt ⟨.start, rect.left, i⟩ s))

/-- `sweep_h_events` -/
def sweepHEvents (ins : List (Rect α)) : List (SweepEvent α) := addEvents ins 0 []

/-- The edges of the rectangle of `hEvt` enter or leave the sweep line. -/
def mark (ins : List (Rect α)) (hEvt : SweepEvent α) (v : List (SweepEvent α)) :
    Option (List (SweepEvent α)) := do
  let rect ← ins[hEvt.rectId]?
  match hEvt.type with
  | .start =>
    return Keyed.insert SweepEvent.lt ⟨.stop, rect.bottom, hEvt.rectId⟩
      (Keyed.insert SweepEvent.lt ⟨.start, rect.top, hEvt.rectId⟩ v)
  | .stop =>
    let startIt ← Keyed.find? SweepEvent.lt ⟨.start, rect.top, hEvt.rectId⟩ v
    let v := Keyed.erase SweepEvent.lt startIt v
    let endIt ← Keyed.find? SweepEvent.lt ⟨.stop, rect.bottom, hEvt.rectId⟩ v
    return Keyed.erase SweepEvent.lt endIt v

/-- `active_set` -/
def applyEvent (s : IdSet) (e : SweepEvent α) : IdSet :=
  match e.type with
  | .start => s.add e.rectId
  | .stop => s.subtract e.rectId

/-- One event of the sweep line: `active_set` and `active_regions`. -/
def pushRegion (a : IdSet × List (α × IdSet)) (e : SweepEvent α) : IdSet × List (α × IdSet) :=
  let set := applyEvent a.1 e
  if a.2.getLast?.any (·.1 = e.pos) then (set, a.2.dropLast ++ [(e.pos, set)])
  else (set, a.2 ++ [(e.pos, set)])

/-- `active_regions` -/
def activeRegions (v : List (SweepEvent α)) : List (α × IdSet) := (v.foldl pushRegion (0, [])).2

/-- `started_rects` with the region of `key` seen: it goes on, or starts at `key.left`. -/
def see (key : StartedRect α) (started : List (StartedRect α × Bool)) :
    List (StartedRect α × Bool) :=
  match Keyed.find? startedLt (key, true) started with
  | none => Keyed.insert startedLt (key, true) started
  | some it => Keyed.modify startedLt it (fun p => (p.1, true)) started

/-- The loop over the regions at `x`: each one is bounded by the next. -/
def seeRegions (x : α) : List (α × IdSet) → List (StartedRect α × Bool) →
    Option (List (StartedRect α × Bool))
  | [], started => some started
  | (top, set) :: regions, started =>
    if set = 0 then seeRegions x regions started
    else do
      let (bottom, _) ← regions.head?
      seeRegions x regions (see ⟨set, x, top, bottom⟩ started)

/-- The rectangle of a region that was not seen at `x`. -/
def close (x : α) (p : StartedRect α × Bool) : RectSet α :=
  ⟨p.1.idSet, ⟨p.1.left, p.1.top, x, p.1.bottom⟩⟩

/-- The sweep line at `x`, with all its edges marked. -/
def stopAt (x : α) (s : State α) : Option (State α) := do
  let started ← seeRegions x (activeRegions s.sweepVEvents)
    (s.startedRects.map fun p => (p.1, false))
  return { s with
    startedRects := started.filter (·.2)
    out := s.out ++ (started.filter (!·.2)).map (close x) }

/-- The loop over `sweep_h_events`: the line stops once the next event is elsewhere. -/
def sweep (ins : List (Rect α)) : List (SweepEvent α) → State α → Option (State α)
  | [], s => some s
  | hEvt :: events, s => do
    let v ← mark ins hEvt s.sweepVEvents
    let s := { s with sweepVEvents := v }
    if events.head?.any (·.pos = hEvt.pos) then sweep ins events s
    else
      let s ← stopAt hEvt.pos s
      sweep ins events s

/-- `separate_rects` -/
def separateRects (ins : List (Rect α)) (out : List (RectSet α)) : Option (List (RectSet α)) :=
  if ins.length > IdSet.maxElements then some out
  else (sweep ins (sweepHEvents ins) { out := out }).map State.out

end SeparateRects

end EinkHwc
