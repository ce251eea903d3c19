import TreePointer.Forest.Ancestry

/-!
# Growing and changing a forest

New nodes are added without parent. A container may be made around nodes that exist: their parent
link then names it, and no other child list is touched. The other edits keep links and child lists
in step: a node is taken from its parent before it goes to another.

An edit that can fail gives back a forest in either case, since a failed one may have done part of
its work: `insertBefore` takes the child from its old parent before it looks for the reference.

Modelled are the builder's `text`, `comment`, `pi` (`addInstruction`) and `build` (`addContainer`),
`create_element`, `set_value`, `set_attribute`, `set_parent`, `detach`, `insert_before`,
`append_child` (`append`), `remove_child` (`remove`) and `split_text`.

* `insertBefore` refuses to put a node into its own subtree, so parent links never form a cycle.
* `splitText` cuts by characters.
-/

namespace TreePointer.Forest

/-- What an edit gives: its result or fault, and the forest it leaves. -/
abbrev Outcome (α : Type) := Except Fault α × Forest

/-! ## New nodes -/

def addText (f : Forest) (value : String) : Forest × Node :=
  f.push { Record.bare .text with value := some value }

def addComment (f : Forest) (value : String) : Forest × Node :=
  f.push { Record.bare .comment with value := some value }

def addInstruction (f : Forest) (target value : String) : Forest × Node :=
  f.push { Record.bare .instruction with name := some (.plain target), value := some value }

/-- The forest in which `p` is the parent of a node, whatever child lists say. -/
def setParent (f : Forest) (p : Option Node) (n : Node) : Forest :=
  f.modify n fun r => { r with parent := p }

/-- Adds a container around existing nodes and makes it their parent. -/
def addContainer (f : Forest) (r : Record) (children : List Node) : Forest × Node :=
  let (f, n) := f.push { r with children := children }
  (children.foldl (fun f c => f.setParent (some n) c) f, n)

def addElement (f : Forest) (name : Name) (attributes : List Attribute) (children : List Node) :
    Forest × Node :=
  f.addContainer { Record.bare .element with name := some name, attributes := attributes } children

def addDocument (f : Forest) (children : List Node) : Forest × Node :=
  f.addContainer (.bare .document) children

/-- Adds an empty element with a written name. -/
def createElement (f : Forest) (tag : String) : Forest × Node :=
  f.addElement (.ofString none tag) [] []

/-! ## Data and attributes -/

/-- Replaces the data of a node; a container has none and stays as it is. -/
def setValue (f : Forest) (n : Node) (value : String) : Forest :=
  if (f.kind n).isContainer then f else f.modify n fun r => { r with value := some value }

/-- The attributes after one is set: the first with that name gets the value, or a new one is put
at the end. -/
def putAttribute (uri : Option String) (localName value : String) :
    List Attribute → List Attribute
  | [] => [⟨⟨none, localName, uri⟩, value⟩]
  | a :: rest =>
    if a.isNamed uri localName then { a with value := value } :: rest
    else a :: putAttribute uri localName value rest

def setAttribute (f : Forest) (n : Node) (uri : Option String) (localName value : String) :
    Forest :=
  f.modify n fun r => { r with attributes := putAttribute uri localName value r.attributes }

/-! ## Moving nodes -/

/-- Takes a node from its parent. -/
def detach (f : Forest) (n : Node) : Forest :=
  match f.parent n with
  | some p =>
    (f.modify p fun r => { r with children := r.children.filter (· != n) }).setParent none n
  | none => f

/-- Puts a node without parent at place `i` among the children of `p`. -/
def attach (f : Forest) (p n : Node) (i : Nat) : Forest :=
  (f.modify p fun r => { r with children := r.children.insertIdx i n }).setParent (some p) n

/-- The place among the children of `p` before a reference, or after all of them. -/
def slot? (f : Forest) (p : Node) : Option Node → Option Nat
  | some reference => (f.children p).idxOf? reference
  | none => some (f.children p).length

/-- Moves `child` to the children of `p`, before `reference` or to the end. -/
def insertBefore (f : Forest) (p child : Node) (reference : Option Node) : Outcome Unit :=
  if ¬ (f.kind p).isContainer then (.error (.argument .notContainer), f)
  else if child = p ∨ f.isAncestor child p then (.error (.argument .ownSubtree), f)
  else if reference = some child then (.ok (), f)
  else
    let f := f.detach child
    match f.slot? p reference with
    | some i => (.ok (), f.attach p child i)
    | none => (.error (.argument .notReferenceChild), f)

/-- Moves `child` to the end of the children of `p`. -/
def append (f : Forest) (p child : Node) : Outcome Unit :=
  f.insertBefore p child none

/-- Takes `child` from its parent `p`. -/
def remove (f : Forest) (p child : Node) : Outcome Unit :=
  if f.parent child = some p then (.ok (), f.detach child)
  else (.error (.argument .notChild), f)

/-- Cuts a text at a character. The node keeps the first part; the second is a new text node, which
follows it if it has a parent. -/
def splitText (f : Forest) (n : Node) (offset : Nat) : Outcome Node :=
  if ¬ f.isText n then (.error (.argument .splitNonText), f)
  else if (f.characters n).length < offset then (.error (.argument (.splitTooFar offset)), f)
  else
    let (g, tail) := f.addText (String.ofList ((f.characters n).drop offset))
    let g := g.setValue n (String.ofList ((f.characters n).take offset))
    match g.parent n with
    | none => (.ok tail, g)
    | some p =>
      match g.insertBefore p tail (g.nextSibling? n) with
      | (.ok (), g) => (.ok tail, g)
      | (.error e, g) => (.error e, g)

end TreePointer.Forest
