import TreePointer.Forest.Ancestry
import TreePointer.Forest.Preorder
import TreePointer.Mark

/-!
# Children as addresses count them

Addresses see through ignored elements. Downwards, the children of an ignored element stand in its
place in the list of children, and so on inside it; upwards, the parent of a node is its nearest
ancestor that is not ignored. Child numbers count the spliced children that meet a condition, from
one.

Modelled are `SplicedChildren` (`splice`, `visitSpliced`), `spliced_children` (`spliced`),
`ChildSearch`, `nth_matching_child` (`nthChild`), `position_among` (`positionOf?`) and
`effective_parent` (`effectiveParent?`).

* `spliced` and `effectiveParent?` are the two directions.
* `nthChild` finds a child by its number, `positionOf?` the number of a child. Neither looks at the
  children after the one it is about.
* `visitSpliced_eq`: such a walk is the run of its step over the list of children.
-/

namespace TreePointer

/-- What looking for a numbered child gives: the child, or how many there were. -/
inductive ChildSearch where
  | found (n : Node)
  | count (seen : Nat)
deriving DecidableEq, Repr

namespace Forest

/-! ## Downwards -/

/-- The children of a node, with those that are `transparent` replaced by their own children, on at
most `k` levels. -/
def spliceWithin (f : Forest) (transparent : Node → Bool) : Nat → Node → List Node
  | 0, _ => []
  | k + 1, p => (f.children p).flatMap fun c =>
    if transparent c then spliceWithin f transparent k c else [c]

/-- The children of a node, with those that are `transparent` replaced by their own. -/
def splice (f : Forest) (transparent : Node → Bool) (p : Node) : List Node :=
  f.spliceWithin transparent f.size p

/-- The children of a node as addresses count them. -/
def spliced (f : Forest) (p : Node) : List Node :=
  f.splice f.isIgnored p

/-- Feeds the spliced children of a node on at most `k` levels to a step. -/
def visitSpliceWithin {ρ σ : Type} (f : Forest) (transparent : Node → Bool)
    (step : σ → Node → Except ρ σ) : Nat → σ → Node → Except ρ σ
  | 0, s, _ => .ok s
  | k + 1, s, p => (f.children p).foldlM (fun s c =>
    if transparent c then visitSpliceWithin f transparent step k s c else step s c) s

/-- Feeds the children of a node, as addresses count them, to a step, which turns one state into the
next or stops the walk with an answer. -/
def visitSpliced {ρ σ : Type} (f : Forest) (step : σ → Node → Except ρ σ) (s : σ) (p : Node) :
    Except ρ σ :=
  f.visitSpliceWithin f.isIgnored step f.size s p

theorem visitSpliceWithin_eq {ρ σ : Type} (f : Forest) (transparent : Node → Bool)
    (step : σ → Node → Except ρ σ) (k : Nat) (s : σ) (p : Node) :
    f.visitSpliceWithin transparent step k s p
      = (f.spliceWithin transparent k p).foldlM step s := by
  induction k generalizing s p with
  | zero => rfl
  | succ k ih =>
    rw [visitSpliceWithin, spliceWithin, foldlM_flatMap]
    congr 1
    funext s c
    split
    · exact ih s c
    · simp

theorem visitSpliced_eq {ρ σ : Type} (f : Forest) (step : σ → Node → Except ρ σ) (s : σ)
    (p : Node) : f.visitSpliced step s p = (f.spliced p).foldlM step s :=
  f.visitSpliceWithin_eq f.isIgnored step f.size s p

/-! ## Upwards -/

/-- The ancestors of a node that are not ignored, nearest first. -/
def effectiveAncestors (f : Forest) (n : Node) : List Node :=
  (f.ancestors n).filter (!f.isIgnored ·)

/-- The nearest ancestor of a node that is not ignored. -/
def effectiveParent? (f : Forest) (n : Node) : Option Node :=
  f.findUp? (Option.guard (!f.isIgnored ·)) n

/-! ## Numbers -/

/-- One more child in the search for the `n`-th that meets a condition, after `seen` of them. -/
def nthStep (accept : Node → Bool) (n seen : Nat) (c : Node) : Except Node Nat :=
  if accept c then if seen + 1 = n then .error c else .ok (seen + 1) else .ok seen

/-- The `n`-th spliced child that meets a condition, counted from one. -/
def nthChild (f : Forest) (p : Node) (n : Nat) (accept : Node → Bool) : ChildSearch :=
  match f.visitSpliced (nthStep accept n) 0 p with
  | .error c => .found c
  | .ok seen => .count seen

/-- One more child in the search for the node `n`, after `seen` that meet a condition. -/
def positionStep (accept : Node → Bool) (n : Node) (seen : Nat) (c : Node) :
    Except (Option Nat) Nat :=
  let seen := if accept c then seen + 1 else seen
  if c = n then .error (if 0 < seen then some seen else none) else .ok seen

/-- The number of a node among the spliced children that meet a condition. -/
def positionOf? (f : Forest) (p n : Node) (accept : Node → Bool) : Option Nat :=
  match f.visitSpliced (positionStep accept n) 0 p with
  | .error found => found
  | .ok _ => none

theorem effectiveParent?_eq (f : Forest) (n : Node) :
    f.effectiveParent? n = (f.effectiveAncestors n).head? := by
  rw [effectiveParent?, findUp?_eq, ← List.find?_eq_findSome?_guard, effectiveAncestors,
    List.head?_filter]

end Forest

end TreePointer
