import TreePointer.Forest.Preorder
import TreePointer.Neighbour
import TreePointer.Boundary

/-!
# The visible characters of a subtree

The text of a subtree, as addresses see it, is what its shown text nodes hold: those whose parent
has no mark. Each character has a place, which is its text node and its index there.

Modelled is `CharStream`: `next_char` with `advance` is one more character of `visitPlaces`; what it
has come to is `begin_text_node` (`firstShown?`), `current_text_node` (`Place.node`, at the end
`lastShown?`) and `last_char_index` (`Place.index`, at the end `lastIndex?`).

* `shownTexts` lists the text nodes, `places` their characters.
* `visitPlaces_eq`: reading characters up to where a step stops is the run of that step over
  `places`.
* `Place.before` and `Place.after` are the boundaries on both sides of a character.
-/

namespace TreePointer

/-- A character of a text node. -/
structure Place where
  char : Char
  node : Node
  index : Nat
deriving DecidableEq, Repr

namespace Place

/-- The point directly before the character. -/
def before (p : Place) : Boundary := ⟨p.node, p.index⟩

/-- The point directly after the character. -/
def after (p : Place) : Boundary := ⟨p.node, p.index + 1⟩

end Place

namespace Forest

/-- The text nodes of a subtree that are shown, in document order. -/
def shownTexts (f : Forest) (n : Node) : List Node :=
  (f.preorder n).filter f.isShown

/-- The characters of one node with their places. -/
def placesOf (f : Forest) (t : Node) : List Place :=
  (f.characters t).zipIdx.map fun (c, i) => ⟨c, t, i⟩

/-- The visible characters of a subtree, in document order. -/
def places (f : Forest) (n : Node) : List Place :=
  (f.shownTexts n).flatMap f.placesOf

/-- Feeds the characters of a shown text to a step, and nothing of any other node. -/
def visitText {ρ σ : Type} (f : Forest) (step : σ → Place → Except ρ σ) (s : σ) (t : Node) :
    Except ρ σ :=
  if f.isShown t then (f.placesOf t).foldlM step s else .ok s

/-- Feeds the visible characters of a subtree in order to a step, which turns one state into the
next or stops the walk with an answer. -/
def visitPlaces {ρ σ : Type} (f : Forest) (step : σ → Place → Except ρ σ) (s : σ) (n : Node) :
    Except ρ σ :=
  f.visit (f.visitText step) s n

theorem visitPlaces_eq {ρ σ : Type} (f : Forest) (step : σ → Place → Except ρ σ) (s : σ)
    (n : Node) : f.visitPlaces step s n = (f.places n).foldlM step s := by
  rw [visitPlaces, visit_eq, places, shownTexts]
  induction f.preorder n generalizing s with
  | nil => rfl
  | cons m ms ih =>
    simp only [List.foldlM_cons, visitText, List.filter_cons, ih]
    cases f.isShown m
    · rfl
    · simp

/-- The text node in which the visible text of a node begins. -/
def firstShown? (f : Forest) (n : Node) : Option Node := (f.shownTexts n).head?

/-- The text node in which the visible text of a node ends. -/
def lastShown? (f : Forest) (n : Node) : Option Node := (f.shownTexts n).getLast?

/-- The index of the last character in the last shown text, if that text has one. -/
def lastIndex? (f : Forest) (n : Node) : Option Nat := do
  match (f.characters (← f.lastShown? n)).length with
  | 0 => none
  | i + 1 => some i

/-- What a reader is told who asks for a character past the last one. -/
def endOfTextMessage : String := "end of character stream"

/-- The end of the visible text of a node: the end of its last shown text, or the start of the node
if it shows none. -/
def endOfText (f : Forest) (n : Node) : Boundary :=
  match f.lastShown? n with
  | some t => ⟨t, f.length t⟩
  | none => ⟨n, 0⟩

end Forest

end TreePointer
