import TreePointer.Binary64.Shortest

/-!
# Tokens of an address

An address is written in a small part of the XPath grammar. Its tokens are brackets, operators,
punctuation, names in four roles, string literals and numbers. Every token but a literal is written
as it was read; a literal is written between double quotes, whatever its quotes were.

Modelled are `Fence`, `Operator` and `Token` with their display, `NODE_TYPES` (`Token.nodeTypes`),
`AXIS_NAMES` (`Token.axes`) and `forces_operator`.

* `Token.fixed` lists the tokens with a spelling of their own, longer spellings first.
* `forcesOperator`: a name or `*` that follows such a token is an operator.
-/

namespace TreePointer

/-- Round and square brackets. -/
inductive Fence where
  | leftParen | rightParen | leftBracket | rightBracket
deriving DecidableEq, Repr

inductive Operator where
  | slash | slashSlash | pipe | plus | minus
  | equal | notEqual | less | lessEqual | greater | greaterEqual
  | multiply | and | or | mod | div
deriving DecidableEq, Repr

/-- A token. A name is a `nameTest` unless what follows it gives it another role. -/
inductive Token where
  | fence (f : Fence)
  | operator (o : Operator)
  | nameTest (name : String)
  | literal (text : String)
  | nodeType (name : String)
  | functionName (name : String)
  | axisName (name : String)
  | number (value : Binary64)
  | at
  | colonColon
  | comma
  | dot
  | dotDot
deriving DecidableEq, Repr

def Fence.text : Fence → String
  | .leftParen => "("
  | .rightParen => ")"
  | .leftBracket => "["
  | .rightBracket => "]"

def Operator.text : Operator → String
  | .slash => "/"
  | .slashSlash => "//"
  | .pipe => "|"
  | .plus => "+"
  | .minus => "-"
  | .equal => "="
  | .notEqual => "!="
  | .less => "<"
  | .lessEqual => "<="
  | .greater => ">"
  | .greaterEqual => ">="
  | .multiply => "*"
  | .and => "and"
  | .or => "or"
  | .mod => "mod"
  | .div => "div"

namespace Token

/-- The text of a token. -/
def text : Token → String
  | .fence f => f.text
  | .operator o => o.text
  | .nameTest name | .nodeType name | .functionName name | .axisName name => name
  | .literal s => "\"" ++ s ++ "\""
  | .number x => x.text
  | .at => "@"
  | .colonColon => "::"
  | .comma => ","
  | .dot => "."
  | .dotDot => ".."

/-- The tokens that are always read from the same text, each before those it begins with. -/
def fixed : List Token :=
  [.fence .leftParen, .fence .rightParen, .fence .leftBracket, .fence .rightBracket,
   .at, .comma, .dotDot, .dot, .colonColon,
   .operator .slashSlash, .operator .slash, .operator .pipe, .operator .plus, .operator .minus,
   .operator .equal, .operator .notEqual, .operator .lessEqual, .operator .less,
   .operator .greaterEqual, .operator .greater]

/-- The operators that are spelled as names. -/
def named : List Operator := [.and, .or, .mod, .div]

/-- Names that stand for a type of node when a parenthesis follows. -/
def nodeTypes : List String :=
  ["comment", "text", "processing-instruction", "node", "point", "range"]

/-- Names that may stand before `::`. -/
def axes : List String :=
  ["ancestor", "ancestor-or-self", "attribute", "child", "descendant", "descendant-or-self",
   "following", "following-sibling", "namespace", "parent", "preceding", "preceding-sibling",
   "self"]

/-- Whether a name or `*` after this token is an operator: it is, unless the token itself asks for
an operand. -/
def forcesOperator : Token → Bool
  | .at | .colonColon | .comma | .operator _ | .fence .leftParen | .fence .leftBracket => false
  | _ => true

end Token

end TreePointer
