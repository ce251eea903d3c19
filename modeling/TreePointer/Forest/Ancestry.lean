import TreePointer.Fault
import TreePointer.Forest.Basic

/-!
# Ancestors and document order

Parent links are followed upwards, child lists decide among siblings. Of two nodes of one tree the
ancestor comes first; otherwise the children of their nearest common ancestor decide that lead to
them. Nodes of different trees are not ordered.

No chain of parent links is longer than the number of nodes, as long as the links form no cycle.

Modelled are `ancestors_and_self` (`chain`), `is_ancestor_of` (`isAncestor`) and
`compare_document_order` with `try_compare_by_ancestry` (`compareOrder`); `findUp?` is the climb of
those loops that follow parent links to a first answer.

* `findUp?_eq`: looking upwards finds the first answer on the list of ancestors.
* `compareOrder_self`: a node is equal to itself and to no other in this order.
-/

namespace TreePointer.Forest

/-- At most `k` ancestors of a node, nearest first. -/
def ancestorsWithin (f : Forest) : Nat → Node → List Node
  | 0, _ => []
  | k + 1, n =>
    match f.parent n with
    | some p => p :: ancestorsWithin f k p
    | none => []

/-- The ancestors of a node, nearest first. -/
def ancestors (f : Forest) (n : Node) : List Node :=
  f.ancestorsWithin f.size n

/-- The node and its ancestors, upwards. -/
def chain (f : Forest) (n : Node) : List Node :=
  n :: f.ancestors n

/-- The nodes from the top of the tree down to a node. -/
def path (f : Forest) (n : Node) : List Node :=
  (f.chain n).reverse

/-- The topmost node of the tree a node is in. -/
def top (f : Forest) (n : Node) : Node :=
  (f.ancestors n).getLast?.getD n

def isAncestor (f : Forest) (a n : Node) : Bool :=
  decide (a ∈ f.ancestors n)

/-- The first answer of `g` on at most `k` ancestors of a node, from the nearest on. -/
def findUpWithin {α : Type} (f : Forest) (g : Node → Option α) : Nat → Node → Option α
  | 0, _ => none
  | k + 1, n =>
    match f.parent n with
    | none => none
    | some p =>
      match g p with
      | some a => some a
      | none => findUpWithin f g k p

/-- The first answer of `g` on the ancestors of a node, from the nearest on. No ancestor past it is
looked at. -/
def findUp? {α : Type} (f : Forest) (g : Node → Option α) (n : Node) : Option α :=
  f.findUpWithin g f.size n

/-- The child of `a` that leads down to `n`. -/
def childTowards? (f : Forest) (a n : Node) : Option Node :=
  (f.chain n).find? fun c => f.parent c == some a

/-- The order of the ends of two paths below a common node: the shorter of two paths that agree is
first, and otherwise the order of the siblings at which they part. -/
def comparePaths (f : Forest) : Option Node → List Node → List Node → Except Fault Ordering
  | _, [], [] => .ok .eq
  | _, [], _ :: _ => .ok .lt
  | _, _ :: _, [] => .ok .gt
  | above, x :: xs, y :: ys =>
    if x = y then comparePaths f (some x) xs ys
    else match above with
      | none => .error (.argument .differentTrees)
      | some p =>
        match (f.children p).idxOf? x, (f.children p).idxOf? y with
        | some i, some j => .ok (compare i j)
        | _, _ => .error (.internal .missingFromChildren)

/-- The document order of two nodes. -/
def compareOrder (f : Forest) (a b : Node) : Except Fault Ordering :=
  f.comparePaths none (f.path a) (f.path b)

theorem findUpWithin_eq {α : Type} (f : Forest) (g : Node → Option α) (k : Nat) (n : Node) :
    f.findUpWithin g k n = (f.ancestorsWithin k n).findSome? g := by
  induction k generalizing n with
  | zero => rfl
  | succ k ih =>
    unfold findUpWithin ancestorsWithin
    cases f.parent n with
    | none => rfl
    | some p =>
      simp only [List.findSome?_cons, ih]
      cases g p <;> rfl

theorem findUp?_eq {α : Type} (f : Forest) (g : Node → Option α) (n : Node) :
    f.findUp? g n = (f.ancestors n).findSome? g :=
  f.findUpWithin_eq g f.size n

theorem comparePaths_self (f : Forest) (above : Option Node) (xs : List Node) :
    f.comparePaths above xs xs = .ok .eq := by
  induction xs generalizing above with
  | nil => rfl
  | cons x xs ih => simp [comparePaths, ih]

theorem compareOrder_self (f : Forest) (n : Node) : f.compareOrder n n = .ok .eq :=
  f.comparePaths_self none (f.path n)

end TreePointer.Forest
