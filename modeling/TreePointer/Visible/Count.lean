import TreePointer.Range
import TreePointer.Visible.Place

/-!
# From boundaries to counts and back

Offsets in an address count characters as a reader sees them: blanks at the start do not count, and
a run of blanks counts once, at its first blank. A counter is fed one character after the other.

A place in the visible text of a node can be given as a boundary or as a number of counted
characters. `countBefore` turns a boundary into such a number when an address is made; `stringRange`
finds the range of a start and a length when one is resolved. Both feed the same counter with the
same characters, and both stop reading as soon as their answer is known.

Modelled are `CollapsedCounter` (`Counter`) with its `push`, `string_range_in` (`stringRange`),
`stream_point` (`Place.before` and `Place.after` there) and `counted_before` (`countBefore`).

* `Counter.push_count`: a character raises the count by one exactly when it is counted.
* `countBefore`: how many counted characters of a node lie before a boundary.
* `stringRange`: the range from one counted character to another.
-/

namespace TreePointer

/-- The state of a count: whether the last character was a blank, and the number so far. -/
structure Counter where
  inBlank : Bool
  count : Nat
deriving DecidableEq, Repr

namespace Counter

/-- The counter at the start of a text, where blanks do not count. -/
def start : Counter := ⟨true, 0⟩

/-- Whether the next character is counted. -/
def counts (k : Counter) (c : Char) : Bool :=
  !(isBlank c && k.inBlank)

/-- The counter after one more character. -/
def push (k : Counter) (c : Char) : Counter :=
  ⟨isBlank c, if k.counts c then k.count + 1 else k.count⟩

/-- Which of the characters are counted, one after the other. -/
def flags : Counter → List Char → List Bool
  | _, [] => []
  | k, c :: cs => k.counts c :: flags (k.push c) cs

/-- The counter after some more characters. -/
def run (k : Counter) (cs : List Char) : Counter :=
  cs.foldl push k

theorem push_count (k : Counter) (c : Char) :
    (k.push c).count = k.count + if k.counts c then 1 else 0 := by
  simp only [push]
  split <;> rfl

end Counter

/-- What is known while a stretch of counted characters is looked for: the count so far, and the
character in which the stretch begins, once it was read. -/
structure StretchSearch where
  counter : Counter
  first : Option Place
deriving DecidableEq, Repr

namespace StretchSearch

/-- The search before the first character. -/
def start : StretchSearch := ⟨.start, none⟩

/-- One more character in the search for the stretch from one counted character to another, which
ends the search. -/
def step (first last : Nat) (s : StretchSearch) (p : Place) :
    Except (Place × Place) StretchSearch :=
  let k := s.counter.push p.char
  if s.counter.counts p.char then
    match (if k.count = first then some p else s.first) with
    | some q => if k.count = last then .error (q, p) else .ok ⟨k, some q⟩
    | none => .ok ⟨k, none⟩
  else .ok ⟨k, s.first⟩

end StretchSearch

namespace Forest

/-- The range of `length` counted characters of a node from the `start`-th on, counted from one.
There is none when the text is too short. A start below one counts as one and a length below zero as
zero; an empty range may also lie at the end of the text. -/
def stringRange (f : Forest) (n : Node) (start length : Int) : Except Fault (Option Range) :=
  let start := (max start 1).toNat
  let length := length.toNat
  match f.visitPlaces (StretchSearch.step start (start + (length - 1))) .start n with
  | .error (first, last) =>
    if length = 0 then .ok (some (.point first.before))
    else do return some (← Range.make f first.before last.after)
  | .ok s =>
    if length = 0 ∧ s.counter.count + 1 = start then .ok (some (.point (f.endOfText n)))
    else .ok none

/-- The state of the count before a boundary: the text node of the last character, and the count so
far. -/
structure BoundaryCount where
  current : Option Node
  counter : Counter
deriving DecidableEq, Repr

/-- One more character in the count before the boundary `(target, offset)`. The count is done at the
offset in the target, at the next text after the target, and at the first text that the target
precedes. -/
def countStep (f : Forest) (target : Node) (offset : Nat) (s : BoundaryCount) (p : Place) :
    Except (Except Fault Nat) BoundaryCount :=
  if p.node = target then
    if p.index = offset then .error (.ok s.counter.count)
    else .ok ⟨some target, s.counter.push p.char⟩
  else if s.current = some target then .error (.ok s.counter.count)
  else if s.current = some p.node then .ok ⟨s.current, s.counter.push p.char⟩
  else match f.compareOrder target p.node with
    | .error e => .error (.error e)
    | .ok .lt => .error (.ok s.counter.count)
    | .ok _ => .ok ⟨some p.node, s.counter.push p.char⟩

/-- The number of counted characters of an element that lie before a boundary in a text. At the end
of the element's text the count is done if the target was read or lies below the element. -/
def countBefore (f : Forest) (element target : Node) (offset : Nat) : Except Fault Nat :=
  match f.visitPlaces (f.countStep target offset) ⟨none, .start⟩ element with
  | .error answer => answer
  | .ok s =>
    if s.current = some target ∨ f.isAncestor element target then .ok s.counter.count
    else .error (.internal .outsideElement)

end Forest

end TreePointer
