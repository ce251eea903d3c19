import TreePointer.Forest.Ancestry
import TreePointer.Mark

/-!
# Neighbours in document order

Walks from one node to the next or previous node that counts. A walk is a step that is repeated
until a node meets a condition; no walk that arrives visits a node twice, so the number of nodes
bounds its length.

Modelled are `following_node` (`following?`), `preceding_node` (`preceding?`), `next_in_order`,
`previous_in_order`, `is_visible_text` (`isVisible`), `next_visible_text` (`nextVisible?`),
`previous_visible_text` (`previousVisible?`), `is_blank_text` (`isBlankText`), `next_unmarked`
(`nextUnmarked?`) and `is_xpath_whitespace` (`isBlank`).

* `nextVisible?` and `previousVisible?` find the nearest text that is visible.
* `nextUnmarked?` finds the next node that is neither decoration nor blank.
-/

namespace TreePointer

/-- The blanks of markup: space, tab, carriage return and line feed. -/
def isBlank (c : Char) : Bool :=
  c == ' ' || c == '\t' || c == '\r' || c == '\n'

namespace Forest

/-- The first node that meets a condition among at most `k` nodes of a walk. -/
def firstOnWalk (step : Node → Option Node) (accept : Node → Bool) : Nat → Option Node → Option Node
  | 0, _ => none
  | _, none => none
  | k + 1, some n => if accept n then some n else firstOnWalk step accept k (step n)

/-- The first node on a walk that meets a condition, the start included. -/
def walk (f : Forest) (step : Node → Option Node) (accept : Node → Bool) (start : Option Node) :
    Option Node :=
  firstOnWalk step accept f.size start

/-! ## Single steps -/

/-- The next sibling of a node, or of its nearest ancestor that has one. -/
def following? (f : Forest) (n : Node) : Option Node :=
  f.nextSibling? n <|> f.findUp? f.nextSibling? n

/-- The previous sibling of a node, or of its nearest ancestor that has one. -/
def preceding? (f : Forest) (n : Node) : Option Node :=
  f.previousSibling? n <|> f.findUp? f.previousSibling? n

/-- The first child of a node, its first child, and so on for at most `k` levels. -/
def firstLeafWithin (f : Forest) : Nat → Node → Node
  | 0, n => n
  | k + 1, n => match (f.children n).head? with
    | some c => firstLeafWithin f k c
    | none => n

/-- The last child of a node, its last child, and so on for at most `k` levels. -/
def lastLeafWithin (f : Forest) : Nat → Node → Node
  | 0, n => n
  | k + 1, n => match (f.children n).getLast? with
    | some c => lastLeafWithin f k c
    | none => n

/-- The first node without children below a node. -/
def firstLeaf (f : Forest) (n : Node) : Node := f.firstLeafWithin f.size n

/-- The last node without children below a node. -/
def lastLeaf (f : Forest) (n : Node) : Node := f.lastLeafWithin f.size n

/-- The node after this one in document order. -/
def nextInOrder? (f : Forest) (n : Node) : Option Node :=
  (f.children n).head? <|> f.following? n

/-- The node before this one in document order. -/
def previousInOrder? (f : Forest) (n : Node) : Option Node :=
  match f.previousSibling? n with
  | some s => some (f.lastLeaf s)
  | none => f.parent n

/-! ## Visible text -/

/-- Whether a node is a text whose parent has no mark. -/
def isShown (f : Forest) (n : Node) : Bool :=
  f.isText n && !(f.parent n).any f.isMarked

/-- Whether a node is a text with characters to see. -/
def isVisible (f : Forest) (n : Node) : Bool :=
  f.isShown n && decide (0 < f.length n)

/-- The next visible text after a node. -/
def nextVisible? (f : Forest) (n : Node) : Option Node :=
  f.walk f.nextInOrder? f.isVisible (if f.isText n then f.following? n else f.nextInOrder? n)

/-- The previous visible text before a node. -/
def previousVisible? (f : Forest) (n : Node) : Option Node :=
  f.walk f.previousInOrder? f.isVisible (f.previousInOrder? n)

/-! ## Past decoration -/

/-- Whether a node is a text of blanks alone. -/
def isBlankText (f : Forest) (n : Node) : Bool :=
  f.isText n && (f.characters n).all isBlank

/-- The first node from here on that is neither ignored nor blank text. Past such a node the walk
goes down to the first leaf of whatever follows. -/
def nextUnmarked? (f : Forest) (n : Node) : Option Node :=
  f.walk (fun m => (f.following? m).map f.firstLeaf)
    (fun m => !(f.isIgnored m || f.isBlankText m)) (some n)

end Forest

end TreePointer
