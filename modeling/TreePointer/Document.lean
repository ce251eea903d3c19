import TreePointer.Forest.Ancestry
import TreePointer.Forest.Preorder

/-!
# Documents and options

A document is a node of the forest, read as the root, together with the rule by which tag names are
compared: plain HTML takes no notice of ASCII case, all else does. The document holds no copy of the
tree, so it stays the same document when the tree is decorated.

Modelled are `DocumentFlavor` (`Flavor`), `Document` with its `new` (`ofRoot`), `document_element`,
`normalize_tag`, `tag_of` (`tagOf?`), `element_by_id` (`elementById?`) and `contains`, and
`XPointerOptions` (`Options`).

* `elementById?` finds the first element with an id.
* `tagOf?` is the tag name by which elements are compared everywhere.
* `Options`: how addresses are made of a document. All options are on unless they are turned off.
-/

namespace TreePointer

/-- How tag names are compared. -/
inductive Flavor where
  | html | xml
deriving DecidableEq, Repr

/-- A root and the rule for tag names below it. -/
structure Document where
  root : Node
  flavor : Flavor
deriving DecidableEq, Repr

/-- The text with its ASCII letters in lower case. -/
def lowerAscii (s : String) : String :=
  s.map Char.toLower

namespace Document

/-- The document with this root. It is plain HTML if its first element is named `html`, in any case,
and has no namespace. -/
def ofRoot (f : Forest) (root : Node) : Document :=
  match (f.firstElement? root).bind f.name with
  | some q =>
    ⟨root, if q.uri.isNone ∧ lowerAscii q.localName = "html" then .html else .xml⟩
  | none => ⟨root, .xml⟩

/-- The first element below the root. -/
def documentElement (f : Forest) (d : Document) : Except Fault Node :=
  match f.firstElement? d.root with
  | some e => .ok e
  | none => .error (.argument .noDocumentElement)

/-- The form of a tag name in which it is compared. -/
def normalizeTag (d : Document) (tag : String) : String :=
  match d.flavor with
  | .html => lowerAscii tag
  | .xml => tag

/-- The tag name of an element, as it is compared. -/
def tagOf? (f : Forest) (d : Document) (n : Node) : Option String :=
  (f.tagName? n).map d.normalizeTag

/-- Whether a node is an element with this tag. -/
def hasTag (f : Forest) (d : Document) (tag : String) (n : Node) : Bool :=
  f.isElement n && d.tagOf? f n == some tag

/-- The first element in document order with this id. No element has the empty id. -/
def elementById? (f : Forest) (d : Document) (id : String) : Option Node :=
  if id = "" then none
  else f.findBelow? (fun n => f.isElement n && f.attribute? n none "id" == some id) d.root

/-- Whether a node is the root or below it. -/
def contains (f : Forest) (d : Document) (n : Node) : Bool :=
  n == d.root || f.isAncestor d.root n

end Document

/-! ## Options -/

/-- How the addresses of a document are written, and which scheme is read. -/
structure Options where
  /-- Write addresses as `xpointer(...)`. -/
  wrapScheme : Bool := true
  /-- Write an element that has an id as `id("X")`. -/
  preferIds : Bool := true
  /-- Start paths at the nearest ancestor that has an id. -/
  ancestorIds : Bool := true
  /-- Read the `element()` scheme. -/
  elementScheme : Bool := true
deriving DecidableEq, Repr

/-- All options on. -/
def Options.standard : Options := {}

end TreePointer
