import TreePointer.Forest.Ancestry

/-!
# Boundary points

A boundary is a container and an offset in it: a number of characters in character data, a number
of children elsewhere. Boundaries of one tree are ordered as the places they stand for: a boundary
in a node comes after everything inside the children before its offset.

Modelled are `Boundary` with its `before`, `after` and `check`, `parent_and_index` (`placeOf`) and
`compare_boundary_points` (`compare`).

* `Boundary.check_ok_iff`: just the boundaries in their containers pass the check.
* `Boundary.compare_self`: a boundary is equal to itself.
-/

namespace TreePointer

/-- A point before, after or inside a node. -/
structure Boundary where
  container : Node
  offset : Nat
deriving DecidableEq, Repr

namespace Boundary

/-- The parent of a node and its place there. -/
def placeOf (f : Forest) (n : Node) : Except Fault (Node × Nat) :=
  match f.parent n with
  | none => .error (.argument .noParent)
  | some p =>
    match f.childIndex? n with
    | none => .error (.internal .missingFromChildren)
    | some i => .ok (p, i)

/-- The point directly before a node. -/
def before (f : Forest) (n : Node) : Except Fault Boundary := do
  let (p, i) ← placeOf f n
  return ⟨p, i⟩

/-- The point directly after a node. -/
def after (f : Forest) (n : Node) : Except Fault Boundary := do
  let (p, i) ← placeOf f n
  return ⟨p, i + 1⟩

/-- Whether the offset lies in the container. -/
def InBounds (f : Forest) (b : Boundary) : Prop :=
  b.offset ≤ f.length b.container

instance (f : Forest) (b : Boundary) : Decidable (b.InBounds f) :=
  inferInstanceAs (Decidable (_ ≤ _))

/-- Refuses a boundary whose offset is past the end of its container. -/
def check (f : Forest) (b : Boundary) : Except Fault Unit :=
  if b.InBounds f then .ok ()
  else .error (.argument (.offsetTooLarge b.offset (f.length b.container)))

/-- The order of two boundaries whose containers differ, the first container not after the second.
The second point is earlier only if it lies inside a child before the first. -/
def compareForward (f : Forest) (a b : Boundary) : Except Fault Ordering :=
  match f.childTowards? a.container b.container with
  | none => .ok .lt
  | some c =>
    match f.childIndex? c with
    | none => .error (.internal .missingFromParent)
    | some i => .ok (if i < a.offset then .gt else .lt)

/-- The order of two boundaries. -/
def compare (f : Forest) (a b : Boundary) : Except Fault Ordering :=
  if a.container = b.container then .ok (Ord.compare a.offset b.offset)
  else do
    match ← f.compareOrder a.container b.container with
    | .gt => return (← compareForward f b a).swap
    | _ => compareForward f a b

theorem check_ok_iff {f : Forest} {b : Boundary} : b.check f = .ok () ↔ b.InBounds f := by
  unfold check
  split
  · next h => exact iff_of_true rfl h
  · next h => exact iff_of_false nofun h

theorem compare_self (f : Forest) (a : Boundary) : compare f a a = .ok .eq := by
  simp [compare]

end Boundary

end TreePointer
