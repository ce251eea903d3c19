import TreePointer.Forest.Basic
import TreePointer.Unicode.GraphemeExtend
import TreePointer.Unicode.Unprintable

/-!
# One-line descriptions of nodes

A node is described by its kind, its written name and its data, in a line of printable characters.
Text stands between double quotes. A quote and a backslash are written after a backslash; the
common controls have letters, and a character that could not be seen is written by its code point.

Modelled is the debug text of a `SimpleNode` (`describe`).

* `Quoted.quote`: the text between quotes.
-/

namespace TreePointer

namespace Quoted

open Unicode

/-- A character by its code point in hexadecimal. -/
def codePoint (c : Char) : List Char :=
  "\\u\x7b".toList ++ Nat.toDigits 16 c.toNat ++ ['\x7d']

/-- Whether a character cannot be read off a page: it has no glyph, or it is a mark that combines
with the character before it. The halfwidth sound marks of Katakana count as combining but have a
glyph and a width of their own. -/
def isUnreadable (c : Char) : Bool :=
  isUnprintable c || isGraphemeExtend c && !(c == '\uff9e' || c == '\uff9f')

/-- A character as it is written between quotes. -/
def escape (c : Char) : List Char :=
  if c = '"' ∨ c = '\\' then ['\\', c]
  else if c = '\n' then ['\\', 'n']
  else if c = '\r' then ['\\', 'r']
  else if c = '\t' then ['\\', 't']
  else if c = '\x00' then ['\\', '0']
  else if isUnreadable c then codePoint c
  else [c]

/-- A text between quotes. -/
def quote (s : String) : String :=
  "\"" ++ String.ofList (s.toList.flatMap escape) ++ "\""

/-- A text that may be absent. -/
def quote? : Option String → String
  | some s => "Some(" ++ quote s ++ ")"
  | none => "None"

end Quoted

/-- The description of a node. -/
def Forest.describe (f : Forest) (n : Node) : String :=
  "SimpleNode \x7b kind: " ++ (f.kind n).label ++
    ", name: " ++ Quoted.quote? ((f.name n).map Name.qualified) ++
    ", value: " ++ Quoted.quote? (f.value n) ++ ", .. \x7d"

end TreePointer
