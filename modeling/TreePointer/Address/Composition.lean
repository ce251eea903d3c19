import TreePointer.Document
import TreePointer.Neighbour
import TreePointer.Splice
import TreePointer.Visible.Count

/-!
# Making an address

An address is made so that it outlives decoration. An element is named by its id, or by a path of
tags and numbers among spliced children; a place in a text by a number of counted characters of the
element above it. The boundaries of a selection are first moved off decoration and onto text or
elements.

Modelled are `Selection` with its `normalized` (`ends`), `create`, `range_body` (`between`),
`skip_marked_start` and `skip_marked_end` (`leaveMarkedStart`, `leaveMarkedEnd`), `descend_start`
and `descend_end`, `text_to_text` (`betweenTexts`), `text_start_point` and `text_end_point`
(`settleStart`, `settleEnd`), `start_point`, `end_point`, `string_range` (`textStretch`),
`format_string_range` (`stringRange`), `element_above`, `start_element` and `end_element`
(`elementAfter`, `elementBefore`), `child_path` (`elementPath`), `id_reference` and `tag` (`tagOf`).

* `Selection.ends` puts the boundaries of a selection in document order.
* `create` makes the address of a selection, `elementPath` that of an element.
-/

namespace TreePointer

/-- What an address is made of: a range, or two boundaries in the order in which the user set them,
the second of which may come first in the document. -/
inductive Selection where
  /-- Where the selection was begun and where it was ended. -/
  | anchorFocus (anchor focus : Boundary)
  | range (r : Range)
deriving DecidableEq, Repr

/-- The two boundaries of a selection, the earlier one first. -/
def Selection.ends (f : Forest) : Selection → Except Fault (Boundary × Boundary)
  | .range r => .ok (r.start, r.stop)
  | .anchorFocus anchor focus => do
    anchor.check f
    focus.check f
    match ← anchor.compare f focus with
    | .gt => return (focus, anchor)
    | _ => return (anchor, focus)

namespace Address

/-! ## Elements -/

/-- The tag name of an element, as it is compared. -/
def tagOf (f : Forest) (d : Document) (n : Node) : Except Fault String :=
  match d.tagOf? f n with
  | some tag => .ok tag
  | none => .error (.internal (.noTagName (f.kind n)))

/-- An id as the argument of `id`, in quotes that do not occur in it. -/
def quoteId? (id : String) : Option String :=
  if '"' ∉ id.toList then some ("id(\"" ++ id ++ "\")")
  else if '\'' ∉ id.toList then some ("id('" ++ id ++ "')")
  else none

/-- The reference to an element by its id, if that finds this element again. -/
def idReference? (f : Forest) (d : Document) (n : Node) : Option String := do
  if ¬ f.isElement n ∨ f.isIgnored n then none
  let id ← f.attribute? n none "id"
  if d.elementById? f id ≠ some n then none
  quoteId? id

/-- One step of a path: the tag of a node and its number among the children of its parent that have
this tag. -/
def pathStep (f : Forest) (d : Document) (p n : Node) : Except Fault String := do
  let tag ← tagOf f d n
  match f.positionOf? p n (d.hasTag f tag) with
  | some i => .ok (tag ++ "[" ++ toString i ++ "]")
  | none => .error (.internal (.notAmongSiblings tag))

/-- The steps that lead to a node through its ancestors and on by the steps `below`, and the
reference they start from; the ancestors are given nearest first. -/
def pathThrough (f : Forest) (d : Document) (o : Options) (n : Node) (below : List String) :
    List Node → Except Fault (String × List String)
  | [] => .ok ("", below)
  | p :: above => do
    let steps := (← pathStep f d p n) :: below
    match (if o.ancestorIds && f.isElement p then idReference? f d p else none) with
    | some reference => .ok (reference, steps)
    | none => pathThrough f d o p steps above

/-- The address of an element. A document stands for its first element. -/
def elementPath (f : Forest) (d : Document) (o : Options) (n : Node) : Except Fault String :=
  if f.kind n = .document then do
    let tag ← tagOf f d (← d.documentElement f)
    .ok ("/" ++ tag ++ "[1]")
  else match (if o.preferIds then idReference? f d n else none) with
    | some reference => .ok reference
    | none => do
      let (start, steps) ← pathThrough f d o n [] (f.effectiveAncestors n)
      if steps.isEmpty then .error (.internal .detached)
      else .ok (start ++ "/" ++ "/".intercalate steps)

/-! ## Places in a text -/

/-- The element by whose text a place in a text is counted. -/
def elementAbove (f : Forest) (d : Document) (t : Node) : Except Fault Node :=
  match f.effectiveParent? t with
  | none => .error (.internal .noElementAbove)
  | some p =>
    if f.isElement p then .ok p
    else if f.kind p = .document then d.documentElement f
    else .error (.internal .noElementAbove)

/-- The function `string-range` on the text of an element. -/
def stringRange (f : Forest) (d : Document) (o : Options) (element : Node) (start length : Nat) :
    Except Fault String := do
  let path ← elementPath f d o element
  .ok ("string-range(" ++ path ++ ", \"\", " ++ toString start ++ ", " ++ toString length ++ ")")

/-- A place in a text as the start of a range. -/
def startPoint (f : Forest) (d : Document) (o : Options) (b : Boundary) : Except Fault String := do
  let above ← elementAbove f d b.container
  let before ← f.countBefore above b.container b.offset
  let point ← stringRange f d o above (before + 1) 0
  .ok ("start-point(" ++ point ++ ")")

/-- A place in a text as the end of a range: the end of the last counted character before it, or the
start of the text if there is none. -/
def endPoint (f : Forest) (d : Document) (o : Options) (b : Boundary) : Except Fault String := do
  let above ← elementAbove f d b.container
  let before ← f.countBefore above b.container b.offset
  let point ←
    if before = 0 then stringRange f d o above 1 0 else stringRange f d o above before 1
  .ok ("end-point(" ++ point ++ ")")

/-- A stretch of the text of one element. -/
def textStretch (f : Forest) (d : Document) (o : Options) (a b : Boundary) :
    Except Fault String := do
  let above ← elementAbove f d a.container
  let before ← f.countBefore above a.container a.offset
  let through ← f.countBefore above b.container b.offset
  stringRange f d o above (before + 1) (through - before)

/-- A start at the end of a text moves to the next visible text. -/
def settleStart (f : Forest) (b : Boundary) : Boundary :=
  if b.offset = f.length b.container then
    match f.nextVisible? b.container with
    | some t => ⟨t, 0⟩
    | none => b
  else b

/-- An end at the start of a text moves to the end of the previous visible text. -/
def settleEnd (f : Forest) (b : Boundary) : Boundary :=
  if b.offset = 0 then
    match f.previousVisible? b.container with
    | some t => ⟨t, f.length t⟩
    | none => b
  else b

/-- The expression for a stretch from one text to another. If nothing visible lies between them it
stands for the point where it starts. -/
def betweenTexts (f : Forest) (d : Document) (o : Options) (start stop : Boundary) :
    Except Fault String := do
  let a := settleStart f start
  let b := settleEnd f stop
  match ← a.compare f b with
  | .gt => textStretch f d o a a
  | _ =>
    let aboveStart ← elementAbove f d a.container
    let aboveStop ← elementAbove f d b.container
    if a.container = b.container ∨ aboveStart = aboveStop then textStretch f d o a b
    else
      let first ← startPoint f d o a
      let last ← endPoint f d o b
      .ok (first ++ "/range-to(" ++ last ++ ")")

/-! ## Moving boundaries -/

/-- The point at the start of a text, or else before the node. -/
def entryPoint (f : Forest) (n : Node) : Except Fault Boundary :=
  if f.isText n then .ok ⟨n, 0⟩ else Boundary.before f n

/-- The point at the end of a text, or else after the node. -/
def exitPoint (f : Forest) (n : Node) : Except Fault Boundary :=
  if f.isText n then .ok ⟨n, f.length n⟩ else Boundary.after f n

/-- Moves a boundary in an element past an ignored node, which is its container or else `beside`
it, to the next node that is no decoration. -/
def leaveMarked (f : Forest) (b : Boundary) (beside : Option Node) : Except Fault Boundary :=
  if ¬ f.isElement b.container then .ok b
  else
    let marked :=
      if f.isIgnored b.container then some b.container else beside.filter f.isIgnored
    match marked.bind f.nextUnmarked? with
    | some n => entryPoint f n
    | none => .ok b

/-- Moves a start off the ignored node it lies in or before. -/
def leaveMarkedStart (f : Forest) (b : Boundary) : Except Fault Boundary :=
  leaveMarked f b (f.childAt? b.container b.offset)

/-- Moves an end off the ignored node it lies in or after. -/
def leaveMarkedEnd (f : Forest) (b : Boundary) : Except Fault Boundary :=
  leaveMarked f b (if b.offset = 0 then none else f.childAt? b.container (b.offset - 1))

/-- The first node of a list that is an element or a text. -/
def firstContent? (f : Forest) (ns : List Node) : Option Node :=
  ns.find? fun n => f.isText n || f.isElement n

/-- A start before a text moves into it; a start before no content moves to the next node. -/
def descendStart (f : Forest) (b : Boundary) : Except Fault Boundary :=
  if f.isText b.container then .ok b
  else match firstContent? f ((f.children b.container).drop b.offset) with
    | some n => .ok (if f.isText n then ⟨n, 0⟩ else b)
    | none =>
      match f.following? b.container with
      | some n => entryPoint f n
      | none => .ok b

/-- An end after a text moves into it; an end after no content moves to the previous node. -/
def descendEnd (f : Forest) (b : Boundary) : Except Fault Boundary :=
  if f.isText b.container then .ok b
  else match firstContent? f ((f.children b.container).take b.offset).reverse with
    | some n => .ok (if f.isText n then ⟨n, f.length n⟩ else b)
    | none =>
      match f.preceding? b.container with
      | some n => exitPoint f n
      | none => .ok b

/-- The first element after a start. -/
def elementAfter (f : Forest) (b : Boundary) : Except Fault Node :=
  match ((f.children b.container).drop b.offset).find? f.isElement with
  | some e => .ok e
  | none => .error (.internal .noElementAfterStart)

/-- The last element before an end. -/
def elementBefore (f : Forest) (b : Boundary) : Except Fault Node :=
  match ((f.children b.container).take b.offset).reverse.find? f.isElement with
  | some e => .ok e
  | none => .error (.internal .noElementBeforeEnd)

/-! ## Selections -/

/-- The expression for the stretch between two boundaries. -/
def between (f : Forest) (d : Document) (o : Options) (start stop : Boundary) :
    Except Fault String := do
  let stop ← leaveMarkedEnd f stop
  let start ← leaveMarkedStart f start
  let start ← descendStart f start
  let stop ← descendEnd f stop
  match f.isText start.container, f.isText stop.container with
  | true, true => betweenTexts f d o start stop
  | true, false =>
    let first ← startPoint f d o (settleStart f start)
    let last ← elementPath f d o (← elementBefore f stop)
    .ok (first ++ "/range-to(" ++ last ++ ")")
  | false, true =>
    let first ← elementPath f d o (← elementAfter f start)
    let last ← endPoint f d o (settleEnd f stop)
    .ok (first ++ "/range-to(" ++ last ++ ")")
  | false, false =>
    let e ← elementAfter f start
    let e' ← elementBefore f stop
    let first ← elementPath f d o e
    if e = e' then .ok first
    else
      let last ← elementPath f d o e'
      .ok (first ++ "/range-to(" ++ last ++ ")")

/-- The address of the whole document. -/
def wholeDocument (f : Forest) (d : Document) : Except Fault String := do
  let tag ← tagOf f d (← d.documentElement f)
  .ok ("/" ++ tag ++ "[1]")

/-- The address of a selection that lies in the document. A selection of a single point stands for
the whole document. -/
def create (f : Forest) (d : Document) (o : Options) (selection : Selection) :
    Except Fault String := do
  let (start, stop) ← selection.ends f
  if d.contains f start.container ∧ d.contains f stop.container then
    let body ← if start = stop then wholeDocument f d else between f d o start stop
    .ok (if o.wrapScheme then "xpointer(" ++ body ++ ")" else body)
  else .error (.argument .outsideDocument)

/-- The address of a range. -/
def createFromRange (f : Forest) (d : Document) (o : Options) (r : Range) : Except Fault String :=
  create f d o (.range r)

end Address

end TreePointer
