import TreePointer.Fault
import TreePointer.Unicode.Alphabetic
import TreePointer.Unicode.Numeric

/-!
# Reading tokens

The state of a lexer is the text still to be read, the token read last, and possibly one token that
has been looked at and not yet taken. White space before a token is skipped. How a name or a `*` is
read depends on the token before it and on what follows.

A lexer is a value: keeping one is a snapshot, and going on with a kept one replays the same tokens.

The data between the parentheses of a scheme part need not be made of tokens. It may be any text in
which parentheses balance, where a circumflex escapes a parenthesis or another circumflex and may
stand before nothing else.

Modelled are `is_name_start`, `is_name_char`, `scan_token` (`scan`), `scan_name` (`readName`),
`scan_number` (`readNumber`), `must_be_operator` (`atOperator`), `next_token` (`next`), `peek_token`
(`peek`) and `skip_scheme_data` (`skipData`); `snapshot` and `restore` are the value of a lexer.

* `Lexer.scan` reads one token; a fault leaves the lexer where it was.
* `Lexer.next` takes a token, `Lexer.peek` looks at it.
* `Lexer.skipData` passes over the data of a scheme part without reading tokens.
-/

namespace TreePointer

open Unicode

/-- A name starts with a letter or an underscore. -/
def isNameStart (c : Char) : Bool :=
  isAlphabetic c || c == '_'

/-- A name goes on with letters, digits, underscores, hyphens and dots. -/
def isNameChar (c : Char) : Bool :=
  isAlphabetic c || isNumeric c || c == '_' || c == '-' || c == '.'

/-- The text without the white space at its start. -/
def skipWhite (cs : List Char) : List Char :=
  cs.dropWhile isWhiteSpace

/-- What is left of `cs` after `s`, when `cs` starts with `s`. -/
def dropText? (s : String) (cs : List Char) : Option (List Char) :=
  if s.toList.isPrefixOf cs then some (cs.drop s.toList.length) else none

namespace SchemeData

/-- How passing over scheme data ends. -/
inductive Outcome where
  /-- The closing parenthesis was found; `rest` follows it. -/
  | closed (rest : List Char)
  /-- A circumflex escapes nothing; `rest` starts with it. -/
  | strayEscape (rest : List Char)
  /-- The text ended first. -/
  | unclosed
deriving DecidableEq, Repr

/-- Passes over data inside `depth` open parentheses. -/
def skip : Nat → List Char → Outcome
  | 0, cs => .closed cs
  | _ + 1, [] => .unclosed
  | depth + 1, '^' :: c :: cs =>
    if c = '(' ∨ c = ')' ∨ c = '^' then skip (depth + 1) cs else .strayEscape ('^' :: c :: cs)
  | depth + 1, c :: cs =>
    if c = '^' then .strayEscape (c :: cs)
    else if c = '(' then skip (depth + 2) cs
    else if c = ')' then skip depth cs
    else skip (depth + 1) cs
termination_by structural _ cs => cs

end SchemeData

/-- A lexer. `held` is a token that has been looked at, with the text after it. -/
structure Lexer where
  rest : List Char
  held : Option (Token × List Char)
  previous : Option Token
deriving DecidableEq, Repr

namespace Lexer

/-- The lexer at the start of `text`. -/
def ofString (text : String) : Lexer :=
  ⟨text.toList, none, none⟩

/-- A fault at the place the lexer has reached. -/
def fault (l : Lexer) (cause : SyntaxFault) : Fault :=
  .malformed cause l.rest

/-! ## Reading one token -/

/-- A token with the text after it. -/
abbrev Read := Except SyntaxFault (Token × List Char)

/-- Reads a number: digits with at most one point among or around them. -/
def readNumber (cs : List Char) : Token × List Char :=
  let whole := cs.takeWhile Char.isDigit
  match cs.dropWhile Char.isDigit with
  | '.' :: r =>
    (.number (.ofDecimal whole (r.takeWhile Char.isDigit)), r.dropWhile Char.isDigit)
  | r => (.number (.ofDecimal whole []), r)

/-- Reads a literal after its opening quote, up to the next such quote. -/
def readLiteral (quote : Char) (cs : List Char) : Read :=
  match cs.dropWhile (· != quote) with
  | _ :: r => .ok (.literal (String.ofList (cs.takeWhile (· != quote))), r)
  | [] => .error .unterminatedLiteral

/-- Reads the rest of a name test after its first name: the local part of a qualified name, or the
`*` that stands for all of them. -/
def readQualified (name : List Char) : List Char → Token × List Char
  | ':' :: '*' :: r => (.nameTest (String.ofList (name ++ [':', '*'])), r)
  | ':' :: c :: r =>
    if isNameStart c then
      (.nameTest (String.ofList (name ++ ':' :: c :: r.takeWhile isNameChar)),
        r.dropWhile isNameChar)
    else (.nameTest (String.ofList name), ':' :: c :: r)
  | r => (.nameTest (String.ofList name), r)

/-- Reads what starts with the name `name`, with `after` behind it. A parenthesis makes it a node
type or a function; otherwise a name where an operator is due is one of the named operators; a
double colon makes it an axis; and what remains is a name test. -/
def readName (asOperator : Bool) (name after : List Char) : Read :=
  let word := String.ofList name
  let ahead := skipWhite after
  if ahead.head? = some '(' then
    .ok (if word ∈ Token.nodeTypes then .nodeType word else .functionName word, after)
  else if asOperator then
    match Token.named.find? (·.text == word) with
    | some o => .ok (.operator o, after)
    | none => .error (.notOperator word)
  else if [':', ':'].isPrefixOf ahead then
    if word ∈ Token.axes then .ok (.axisName word, after) else .error (.unknownAxis word)
  else .ok (readQualified name after)

/-- Whether a number starts here: at a digit, or at a point before a digit. -/
def startsNumber : List Char → Bool
  | '.' :: d :: _ => d.isDigit
  | d :: _ => d.isDigit
  | [] => false

/-- The fixed token that the text starts with, the longest if there are several. -/
def readFixed (cs : List Char) : Option (Token × List Char) :=
  Token.fixed.findSome? fun t => (dropText? t.text cs).map fun r => (t, r)

/-- Reads a token that starts with `c` and is neither a number nor a fixed token. -/
def readOther (asOperator : Bool) (c : Char) (r : List Char) : Read :=
  if c = '*' then .ok (if asOperator then .operator .multiply else .nameTest "*", r)
  else if c = '"' ∨ c = '\'' then readLiteral c r
  else if c = ':' then .error .loneColon
  else if c = '!' then .error .loneExclamation
  else if isNameStart c then readName asOperator (c :: r.takeWhile isNameChar)
    (r.dropWhile isNameChar)
  else .error (.unrecognized c)

/-- Whether a name or `*` that comes next is an operator. -/
def atOperator (l : Lexer) : Bool :=
  l.previous.any Token.forcesOperator

/-- Reads the next token and gives it with the text after it; at the end of the text there is
none. References to variables are recognised and refused. -/
def scan (l : Lexer) : Except Fault (Option (Token × List Char)) :=
  match skipWhite l.rest with
  | [] => .ok none
  | c :: r =>
    if startsNumber (c :: r) then .ok (some (readNumber (c :: r)))
    else match readFixed (c :: r) with
      | some found => .ok (some found)
      | none =>
        if c = '$' then .error (.unsupported .variable)
        else match readOther l.atOperator c r with
          | .ok found => .ok (some found)
          | .error cause => .error (l.fault cause)

/-! ## Taking tokens -/

/-- The next token with the text after it: the held one, or one that is read now. -/
def ahead (l : Lexer) : Except Fault (Option (Token × List Char)) :=
  match l.held with
  | some found => .ok (some found)
  | none => l.scan

/-- Takes the next token. At the end of the text there is none, and the lexer stays there. -/
def next (l : Lexer) : Except Fault (Option Token × Lexer) := do
  match ← l.ahead with
  | some (t, rest) => .ok (some t, ⟨rest, none, some t⟩)
  | none => .ok (none, l)

/-- Looks at the next token and holds it. -/
def peek (l : Lexer) : Except Fault (Option Token × Lexer) := do
  let found ← l.ahead
  .ok (found.map Prod.fst, { l with held := found })

/-- Passes over the parenthesised data of a scheme part. The data may hold parentheses that are
balanced or escaped. A fault in the data leaves the lexer inside it; the lexer is given back in
either case. -/
def skipData (l : Lexer) : Except Fault Unit × Lexer :=
  match l.next with
  | .error e => (.error e, l)
  | .ok (none, l) => (.error (l.fault (.noSchemeData none)), l)
  | .ok (some t, l) =>
    if t = .fence .leftParen then
      match SchemeData.skip 1 l.rest with
      | .closed rest => (.ok (), ⟨rest, none, some (.fence .rightParen)⟩)
      | .strayEscape rest =>
        let l := { l with rest }
        (.error (l.fault .strayEscape), l)
      | .unclosed => (.error (l.fault .unbalancedData), l)
    else (.error (l.fault (.noSchemeData (some t))), l)

/-! ## Reading a whole text -/

/-- The tokens of at most `n` steps, up to the end of the text or a fault. -/
def collect : Nat → Lexer → List Token × Option Fault
  | 0, _ => ([], none)
  | n + 1, l =>
    match l.next with
    | .error e => ([], some e)
    | .ok (none, _) => ([], none)
    | .ok (some t, l) =>
      let (ts, e) := collect n l
      (t :: ts, e)

/-- The tokens of a text, up to its end or the first fault. Each token takes at least one
character, so the length of the text bounds their number. -/
def tokens (text : String) : List Token × Option Fault :=
  collect (text.toList.length + 1) (ofString text)

end Lexer

end TreePointer
