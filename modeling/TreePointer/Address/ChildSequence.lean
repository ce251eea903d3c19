import TreePointer.Address.Location
import TreePointer.Document
import TreePointer.Splice
import TreePointer.Token.Expectation

/-!
# Child sequences and bare names

The oldest kind of address: `1/2/3` goes down from an element by the numbers of element children,
and a bare name is the element with that id, from which a child sequence may go on. A number that no
child has leaves nothing, from which the rest of the sequence is still read.

Modelled are `child_sequence` and `bare_names` (`bareName`).

* `childSequence` and `bareName`.
-/

namespace TreePointer

/-- What a production gives: its entries, and the lexer behind it. -/
abbrev Result := Except Fault (Context × Lexer)

namespace Address

/-- The element child with a number, of the first entry. -/
def childElement (f : Forest) (index : Nat) : Context → Except Fault Context
  | [] => .ok []
  | .node n :: _ =>
    match f.nthChild n index f.isElement with
    | .found c => .ok [.node c]
    | .count _ => .ok []
  | entry :: _ => .error (.unsupported (.childSequenceFrom entry.kind))

/-- Reads `1/2/3` and goes down by these child numbers, at most `fuel` of them. -/
def childSequence (f : Forest) : Nat → Context → Lexer → Result
  | 0, _, l => .error (l.ended .childIndex)
  | fuel + 1, ctx, l => do
    let (index, l) ← l.expectIndex
    let ctx ← childElement f index ctx
    match ← l.peek with
    | (some (.operator .slash), l) =>
      let (_, l) ← l.next
      childSequence f fuel ctx l
    | (_, l) => .ok (ctx, l)

/-- The element with an id, as an entry. -/
def byId (f : Forest) (d : Document) (id : String) : Context :=
  (d.elementById? f id).toList.map .node

/-- An element by its id, and a child sequence from there if one follows, of at most `bound`
numbers. -/
def bareName (f : Forest) (d : Document) (bound : Nat) (name : String) (l : Lexer) : Result := do
  match ← l.peek with
  | (some (.operator .slash), l) =>
    let (_, l) ← l.next
    childSequence f bound (byId f d name) l
  | (_, l) => .ok (byId f d name, l)

end Address

end TreePointer
