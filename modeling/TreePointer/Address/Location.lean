import TreePointer.Range

/-!
# Locations

What an expression evaluates to is a list of entries: nodes and ranges, which are places in the
document, and plain values.

Modelled are `Location` with its `kind`, `is_location` (`isPlace`) and `to_range`, `Context` and
`range_around`.

* `Location.toRange` turns a place into the range it covers.
-/

namespace TreePointer

/-- One entry of what an expression evaluates to. -/
inductive Location where
  | node (n : Node)
  | range (r : Range)
  | literal (s : String)
  | number (x : Binary64)
  | boolean (b : Bool)
deriving DecidableEq, Repr

/-- The entries an expression evaluates to, in order. -/
abbrev Context := List Location

namespace Location

def kind : Location → LocationKind
  | .node _ => .node
  | .range _ => .range
  | .literal _ => .literal
  | .number _ => .number
  | .boolean _ => .boolean

/-- Whether an entry is a place in the document. -/
def isPlace : Location → Bool
  | .node _ | .range _ => true
  | _ => false

/-- The range around a node. A node without parent has no place to bound it; its first element
stands for it. -/
def rangeAround (f : Forest) (n : Node) : Except Fault Range :=
  if (f.parent n).isSome then Range.around f n
  else match f.firstElement? n with
    | some e => Range.around f e
    | none => .error (.unresolved .noDocumentElement)

/-- The range an entry covers. -/
def toRange (f : Forest) : Location → Except Fault Range
  | .node n => rangeAround f n
  | .range r => .ok r
  | l => .error (.unsupported (.notLocation l.kind))

end Location

end TreePointer
