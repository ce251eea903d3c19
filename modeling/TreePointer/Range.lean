import TreePointer.Boundary
import TreePointer.Forest.Preorder

/-!
# Ranges

A range is a stretch of a tree between two boundaries, the start not after the stop. Where a range
would be turned round it collapses to one point instead.

Modelled are `Range` with its `new` (`make`), `collapsed` (`point`), `select_node` (`around`),
`select_node_contents` (`contents`), `is_collapsed` and `text`, and its calls that change it:
`set_start` (`setStart`, in place `moveStart`), `set_end` (`setStop`, `moveStop`) and `collapse`
(`collapse`, `close`).

* `Range.make_of_gt`: an end before the start collapses the range to the start.
-/

namespace TreePointer

/-- A stretch of a tree. -/
structure Range where
  start : Boundary
  stop : Boundary
deriving DecidableEq, Repr

namespace Range

/-- The range that is a single point. -/
def point (b : Boundary) : Range := ⟨b, b⟩

/-- The range between two boundaries in bounds. -/
def make (f : Forest) (start stop : Boundary) : Except Fault Range := do
  start.check f
  stop.check f
  match ← start.compare f stop with
  | .gt => return point start
  | _ => return ⟨start, stop⟩

/-- The range around a node, bounded in its parent. -/
def around (f : Forest) (n : Node) : Except Fault Range := do
  return ⟨← Boundary.before f n, ← Boundary.after f n⟩

/-- The range of all that a node contains. -/
def contents (f : Forest) (n : Node) : Range :=
  ⟨⟨n, 0⟩, ⟨n, f.length n⟩⟩

def isCollapsed (r : Range) : Bool := r.start == r.stop

/-- The start or the stop of the range, as a single point. -/
def collapse (r : Range) (toStart : Bool) : Range :=
  point (if toStart then r.start else r.stop)

/-- Moves the stop; one before the start takes the start with it. -/
def setStop (f : Forest) (r : Range) (stop : Boundary) : Except Fault Range := do
  stop.check f
  match ← stop.compare f r.start with
  | .lt => return point stop
  | _ => return { r with stop := stop }

/-- Moves the start; one after the stop takes the stop with it. -/
def setStart (f : Forest) (r : Range) (start : Boundary) : Except Fault Range := do
  start.check f
  match ← start.compare f r.stop with
  | .gt => return point start
  | _ => return { r with start := start }

/-! ## Changes in place -/

/-- A change of a range in place. One that fails leaves the range as it has got it so far. -/
abbrev Change := ExceptT Fault (StateM Range) Unit

/-- Moves the stop in place, after the start if that has to make way. -/
def moveStop (f : Forest) (stop : Boundary) : Change := do
  stop.check f
  if (← stop.compare f (← get).start) = .lt then
    modify fun r => { r with start := stop }
  modify fun r => { r with stop := stop }

/-- Moves the start in place, after the stop if that has to make way. -/
def moveStart (f : Forest) (start : Boundary) : Change := do
  start.check f
  if (← start.compare f (← get).stop) = .gt then
    modify fun r => { r with stop := start }
  modify fun r => { r with start := start }

/-- Moves one boundary to the other in place. -/
def close (toStart : Bool) : Change :=
  if toStart then modify fun r => { r with stop := r.start }
  else modify fun r => { r with start := r.stop }

/-- A call that changes a range in place. -/
inductive Call where
  | setStart (b : Boundary)
  | setStop (b : Boundary)
  | collapse (toStart : Bool)
deriving DecidableEq, Repr

def Call.change (f : Forest) : Call → Change
  | .setStart b => moveStart f b
  | .setStop b => moveStop f b
  | .collapse toStart => close toStart

/-- What a call gives, and the range it leaves. -/
def call (f : Forest) (r : Range) (c : Call) : Except Fault Unit × Range :=
  (c.change f).run.run r

/-! ## The text of a range -/

/-- The offset in a text node where the range begins; none if the text starts before the range. -/
def firstIn (f : Forest) (r : Range) (t : Node) : Except Fault (Option Nat) :=
  if t = r.start.container then .ok (some r.start.offset)
  else do
    match ← (Boundary.mk t 0).compare f r.start with
    | .lt => return none
    | _ => return some 0

/-- The offset in a text node where the range ends; none if the text ends after the range. -/
def lastIn (f : Forest) (r : Range) (t : Node) : Except Fault (Option Nat) :=
  if t = r.stop.container then .ok (some r.stop.offset)
  else do
    match ← (Boundary.mk t (f.length t)).compare f r.stop with
    | .gt => return none
    | _ => return some (f.length t)

/-- The characters of a text node that lie in the range. -/
def piece (f : Forest) (r : Range) (t : Node) : Except Fault (List Char) := do
  match ← r.firstIn f t with
  | none => return []
  | some first =>
    match ← r.lastIn f t with
    | none => return []
    | some last => return ((f.characters t).take last).drop first

/-- The text between the boundaries, of all text nodes in document order. -/
def text (f : Forest) (r : Range) : Except Fault (List Char) := do
  let pieces ← ((f.preorder (f.top r.start.container)).filter f.isText).mapM (r.piece f)
  return pieces.flatten

theorem make_of_gt {f : Forest} {a b : Boundary} (ha : a.InBounds f) (hb : b.InBounds f)
    (h : a.compare f b = .ok .gt) : make f a b = .ok (point a) := by
  simp [make, Boundary.check, ha, hb, h, bind, Except.bind, pure, Except.pure]

end Range

end TreePointer
