import TreePointer.Proofs.Address.Finding

/-!
# Routes to an element

A route starts at the root or at the element with an id and goes down by tags and numbers. It is
written as a path. Whatever document it is read in, it leads to the node where its steps end, or
nowhere if one of them has no child to go to.

* `Route.node?`: where a route leads.
* `Route.finds`: the text of a route is an expression for that node.
-/

namespace TreePointer

open Expression

/-- Where a route starts: at the root, or at the element with an id, which is written in quotes. -/
inductive Origin where
  | root
  | reference (quote : Char) (id : String)
deriving DecidableEq, Repr

namespace Origin

def chars : Origin → List Char
  | .root => []
  | .reference quote id => "id".toList ++ idArguments quote id

/-- The id is a single word that the quotes do not end. -/
def Legible : Origin → Prop
  | .root => True
  | .reference quote id =>
    (quote = '"' ∨ quote = '\'') ∧ quote ∉ id.toList ∧ id ≠ "" ∧
      ∀ c ∈ id.toList, Unicode.isWhiteSpace c = false

def node? (f : Forest) (d : Document) : Origin → Option Node
  | .root => some d.root
  | .reference _ id => d.elementById? f id

end Origin

/-- A way down to an element. -/
structure Route where
  origin : Origin
  steps : List PathStep
deriving DecidableEq, Repr

namespace Route

/-- The route as it is written. -/
def chars (r : Route) : List Char := r.origin.chars ++ pathChars r.steps

/-- The route can be read; from the root it takes at least one step. -/
structure Legible (r : Route) : Prop where
  origin : r.origin.Legible
  steps : ∀ s ∈ r.steps, s.Legible
  ne_nil : r.origin = .root → r.steps ≠ []

/-- The route starts at a node of the document. -/
def Starts (f : Forest) (d : Document) (r : Route) : Prop := ∃ n, r.origin.node? f d = some n

/-- The node to which the route leads. -/
def node? (f : Forest) (d : Document) (r : Route) : Option Node :=
  descend? f d r.steps (r.origin.node? f d)

/-- **A route is an expression** for the node to which it leads. -/
theorem finds {r : Route} (h : r.Legible) (f : Forest) (d : Document) :
    Address.Finds f d r.chars (nodeEntries (r.node? f d)) := by
  obtain ⟨origin, steps⟩ := r
  cases origin with
  | root => exact Address.finds_path h.steps (h.ne_nil rfl)
  | reference quote id =>
    obtain ⟨hquote, hmem, hne, hwhite⟩ := h.origin
    have hcall : Address.Finds f d ("id".toList ++ idArguments quote id)
        (nodeEntries (d.elementById? f id)) :=
      Address.finds_call (fun ctx => calls_id hquote hmem hne hwhite) rfl (by decide)
    exact hcall.path h.steps

end Route

end TreePointer
