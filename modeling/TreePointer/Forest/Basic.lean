/-!
# The forest: a table of nodes

A node is a place in a table of records. A record says of what kind the node is, what it is named
and what it holds, and it keeps two links: the node's parent, and the list of its children. The two
are stored apart. In a well-formed forest they say the same; a node that was given to a second
parent without being taken from the first stays in both child lists, and its parent link names the
second.

Offsets and lengths count characters in character data, and children in containers.

Modelled are `NodeKind`, `QName` (`Name`) with `parse_qname` (`Name.ofString`) and `qualified`, the
nodes themselves (`Record`), and what is read of a node: `kind`, `name`, `value`, `attribute`
(`attribute?`), `parent`, `children`, `is_element`, `is_text`, `tag_name` (`tagName?`), `char_len`
(`length`), `child_at` (`childAt?`), `child_index` (`childIndex?`), `previous_sibling`,
`next_sibling` and `first_element_child` (`firstElement?`).

* `record_modify`, `record_push_old`, `record_push_new`: what changing and adding a record does to
  the table.
-/

namespace TreePointer

inductive NodeKind where
  | document | element | text | comment | instruction
deriving DecidableEq, Repr

namespace NodeKind

/-- The name of a kind in messages and descriptions. -/
def label : NodeKind → String
  | .document => "Document"
  | .element => "Element"
  | .text => "Text"
  | .comment => "Comment"
  | .instruction => "ProcessingInstruction"

/-- Whether nodes of this kind hold other nodes; the others hold character data. -/
def isContainer : NodeKind → Bool
  | .document | .element => true
  | _ => false

end NodeKind

/-- A name with an optional qualifier, as in `svg:rect`, and the namespace it belongs to. -/
structure Name where
  qualifier : Option String
  localName : String
  uri : Option String
deriving DecidableEq, Repr

namespace Name

/-- A name without qualifier and namespace. -/
def plain (localName : String) : Name :=
  ⟨none, localName, none⟩

/-- Splits a written name at its first colon. -/
def ofString (uri : Option String) (text : String) : Name :=
  let cs := text.toList
  match cs.dropWhile (· != ':') with
  | _ :: localName => ⟨some (String.ofList (cs.takeWhile (· != ':'))), String.ofList localName, uri⟩
  | [] => ⟨none, text, uri⟩

/-- The name as it is written, with its qualifier if it has one. -/
def qualified (n : Name) : String :=
  match n.qualifier with
  | some q => q ++ ":" ++ n.localName
  | none => n.localName

end Name

/-- An attribute of an element. Attributes are not nodes. -/
structure Attribute where
  name : Name
  value : String
deriving DecidableEq, Repr

/-- Whether the attribute has this namespace and local name; its qualifier plays no part. -/
def Attribute.isNamed (a : Attribute) (uri : Option String) (localName : String) : Bool :=
  a.name.localName == localName && a.name.uri == uri

/-- A node: its place in the table of the forest. -/
structure Node where
  index : Nat
deriving DecidableEq, Repr

/-- What the forest keeps about a node. Only character data has a value. -/
structure Record where
  kind : NodeKind
  name : Option Name
  value : Option String
  attributes : List Attribute
  parent : Option Node
  children : List Node
deriving DecidableEq, Repr

/-- A record with nothing in it but its kind. -/
def Record.bare (kind : NodeKind) : Record :=
  ⟨kind, none, none, [], none, []⟩

/-- A forest of trees, as a table of records. -/
structure Forest where
  records : Array Record
deriving DecidableEq, Repr

namespace Forest

/-- The forest without nodes. -/
def empty : Forest := ⟨#[]⟩

/-- The number of nodes. -/
def size (f : Forest) : Nat := f.records.size

/-- The node is one of the forest. -/
def Has (f : Forest) (n : Node) : Prop := n.index < f.size

instance (f : Forest) (n : Node) : Decidable (f.Has n) :=
  inferInstanceAs (Decidable (n.index < f.size))

/-- What is known about a node. A node the forest does not have reads as an empty document. -/
def record (f : Forest) (n : Node) : Record :=
  f.records[n.index]?.getD (.bare .document)

/-- The forest with the record of one node changed. -/
def modify (f : Forest) (n : Node) (change : Record → Record) : Forest :=
  ⟨f.records.modify n.index change⟩

/-- The place in the table that the next new node gets. -/
def fresh (f : Forest) : Node := ⟨f.size⟩

/-- The forest with one more node, and that node. -/
def push (f : Forest) (r : Record) : Forest × Node :=
  let n := f.fresh
  (⟨f.records.push r⟩, n)

@[simp] theorem size_modify (f : Forest) (n : Node) (g : Record → Record) :
    (f.modify n g).size = f.size := by
  simp [modify, size]

theorem record_modify {f : Forest} {n : Node} (h : f.Has n) (g : Record → Record) (m : Node) :
    (f.modify n g).record m = if m = n then g (f.record m) else f.record m := by
  obtain ⟨n⟩ := n
  obtain ⟨m⟩ := m
  simp only [Has, size] at h
  by_cases hm : n = m
  · subst hm
    simp [modify, record, Array.getElem?_modify, Array.getElem?_eq_getElem h]
  · simp [modify, record, Array.getElem?_modify, hm, Ne.symm hm]

theorem record_push_new (f : Forest) (r : Record) : (f.push r).1.record (f.push r).2 = r := by
  simp [push, fresh, record, size]

theorem record_push_old {f : Forest} {n : Node} (h : f.Has n) (r : Record) :
    (f.push r).1.record n = f.record n := by
  simp only [Has, size] at h
  simp [push, fresh, record, Array.getElem?_push, Nat.ne_of_lt h]

/-! ## Reading a node -/

def kind (f : Forest) (n : Node) : NodeKind := (f.record n).kind

def name (f : Forest) (n : Node) : Option Name := (f.record n).name

/-- The character data of a text, comment or processing instruction. -/
def value (f : Forest) (n : Node) : Option String := (f.record n).value

def attributes (f : Forest) (n : Node) : List Attribute := (f.record n).attributes

def parent (f : Forest) (n : Node) : Option Node := (f.record n).parent

def children (f : Forest) (n : Node) : List Node := (f.record n).children

def isElement (f : Forest) (n : Node) : Bool := f.kind n == .element

def isText (f : Forest) (n : Node) : Bool := f.kind n == .text

/-- The value of the first attribute with this namespace and local name. An attribute without a
namespace is found only when none is asked for. -/
def attribute? (f : Forest) (n : Node) (uri : Option String) (localName : String) :
    Option String :=
  ((f.attributes n).find? (·.isNamed uri localName)).map (·.value)

/-- The characters a node holds itself. -/
def characters (f : Forest) (n : Node) : List Char :=
  ((f.value n).getD "").toList

/-- The written name of an element. -/
def tagName? (f : Forest) (n : Node) : Option String :=
  if f.isElement n then (f.name n).map Name.qualified else none

/-- The length of a node: its children if it is a container, its characters otherwise. -/
def length (f : Forest) (n : Node) : Nat :=
  if (f.kind n).isContainer then (f.children n).length else (f.characters n).length

def childAt? (f : Forest) (n : Node) (i : Nat) : Option Node := (f.children n)[i]?

/-- The first element among the children of a node. -/
def firstElement? (f : Forest) (n : Node) : Option Node := (f.children n).find? f.isElement

/-- The place of a node in the child list of its parent. -/
def childIndex? (f : Forest) (n : Node) : Option Nat := do
  (f.children (← f.parent n)).idxOf? n

def nextSibling? (f : Forest) (n : Node) : Option Node := do
  let i ← f.childIndex? n
  f.childAt? (← f.parent n) (i + 1)

def previousSibling? (f : Forest) (n : Node) : Option Node := do
  match ← f.childIndex? n with
  | 0 => none
  | i + 1 => f.childAt? (← f.parent n) i

end Forest

end TreePointer
