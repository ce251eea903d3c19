import TreePointer.Forest.Edit

/-!
# Marks of the decoration

Decoration is what a reader adds to a document: highlights, icons, notes. Its elements carry marks,
which are attributes of a namespace of their own. An element marked *ignore* is transparent: its
children count as children of the node above it. An element marked *hide* shows none of its own
text. Decoration is made only by `createMarked`, which sets both marks, so that addresses mean the
same with and without it.

Modelled are `is_marked_ignore` (`isIgnored`), `is_marked_hide` (`isHidden`), `is_marked`,
`mark_ignore` and `mark_hide` (`setMark`), `create_marked_element` (`createMarked`),
`wrap_with_marked` (`wrap`) and `insert_marked_at` (`insertMarked`).

* `wrap` puts a node inside a marked element.
* `insertMarked` cuts a text and puts an empty marked element between the parts.
-/

namespace TreePointer

/-- The two marks. -/
inductive Mark where
  | ignore | hide
deriving DecidableEq, Repr

namespace Mark

/-- The namespace of the marks. -/
def uri : String := "http://xpointerlib.mozdev.org/xptr-ns#"

/-- The attribute that holds a mark. -/
def attributeName : Mark → String
  | .ignore => "_dom_ignore_element_"
  | .hide => "_dom_hide_element_"

/-- The value a mark has to have to count. -/
def set : String := "true"

end Mark

namespace Forest

/-- Whether a node is an element with this mark. -/
def hasMark (f : Forest) (m : Mark) (n : Node) : Bool :=
  f.isElement n && f.attribute? n (some Mark.uri) m.attributeName == some Mark.set

def isIgnored (f : Forest) (n : Node) : Bool := f.hasMark .ignore n

def isHidden (f : Forest) (n : Node) : Bool := f.hasMark .hide n

/-- Whether a node has a mark, so that its own text is not visible. -/
def isMarked (f : Forest) (n : Node) : Bool := f.isIgnored n || f.isHidden n

def setMark (f : Forest) (m : Mark) (n : Node) : Forest :=
  f.setAttribute n (some Mark.uri) m.attributeName Mark.set

/-- Adds an empty element that has both marks. -/
def createMarked (f : Forest) (tag : String) : Forest × Node :=
  let (f, n) := f.createElement tag
  ((f.setMark .ignore n).setMark .hide n, n)

/-- Puts a node inside a new marked element that takes its place. -/
def wrap (f : Forest) (n : Node) (tag : String) : Outcome Node :=
  match f.parent n with
  | none => (.error (.argument .wrapWithoutParent), f)
  | some p =>
    let (f, wrapper) := f.createMarked tag
    match f.insertBefore p wrapper (some n) with
    | (.error e, f) => (.error e, f)
    | (.ok (), f) =>
      match f.append wrapper n with
      | (.error e, f) => (.error e, f)
      | (.ok (), f) => (.ok wrapper, f)

/-- Cuts a text and puts a new marked element before the second part. -/
def insertMarked (f : Forest) (n : Node) (offset : Nat) (tag : String) : Outcome Node :=
  if ¬ f.isText n then (.error (.argument .markInNonText), f)
  else match f.parent n with
    | none => (.error (.argument .textWithoutParent), f)
    | some p =>
      match f.splitText n offset with
      | (.error e, f) => (.error e, f)
      | (.ok tail, f) =>
        let (f, marker) := f.createMarked tag
        match f.insertBefore p marker (some tail) with
        | (.error e, f) => (.error e, f)
        | (.ok (), f) => (.ok marker, f)

end Forest

end TreePointer
