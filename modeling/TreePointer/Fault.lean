import TreePointer.Forest.Basic
import TreePointer.Token.Basic

/-!
# Faults

Everything that can go wrong, as causes. There are five kinds of fault:

* a *malformed* address, with the text that was still to be read;
* an address that is *unresolved*: well formed, but nothing in the document answers to it;
* an *unsupported* construct of the wider grammar;
* an *internal* fault: the tree or the selection contradicts itself;
* an *argument* that does not fit the operation.

The wording of a fault is `Fault.message` and nowhere else.

Modelled are `Error`, `ErrorKind` (`FaultKind`) and `LocationKind`, with the message that each
operation gives to an error.

* `exists_of_bind`: a computation that went through has come through each of its parts.
-/

namespace TreePointer

/-- The kinds of what an expression evaluates to. -/
inductive LocationKind where
  | node | range | literal | number | boolean
deriving DecidableEq, Repr

def LocationKind.label : LocationKind → String
  | .node => "Node"
  | .range => "Range"
  | .literal => "Literal"
  | .number => "Number"
  | .boolean => "Boolean"

/-- What an address should have gone on with. -/
inductive Expected where
  | address | expression | elementPointer | childIndex | locationStep | nodeTest | predicate
  | idLiteral | location | searchString | startOffset | length | rangeTarget | comma
  | fence (f : Fence)
deriving DecidableEq, Repr

def Expected.text : Expected → String
  | .address => "an address"
  | .expression => "an expression"
  | .elementPointer => "an element pointer"
  | .childIndex => "a child index"
  | .locationStep => "a location step"
  | .nodeTest => "a node test"
  | .predicate => "a predicate"
  | .idLiteral => "an id literal"
  | .location => "a location"
  | .searchString => "a search string"
  | .startOffset => "a start offset"
  | .length => "a length"
  | .rangeTarget => "a range-to target"
  | .comma => "`,`"
  | .fence f => "`" ++ f.text ++ "`"

/-- Why the text of an address is malformed. -/
inductive SyntaxFault where
  | loneColon
  | loneExclamation
  | unterminatedLiteral
  | unrecognized (c : Char)
  | notOperator (name : String)
  | unknownAxis (name : String)
  | noSchemeData (found : Option Token)
  | strayEscape
  | unbalancedData
  | emptyAddress
  | ended (expected : Expected)
  | found (expected : Expected) (token : Token)
  | badStart (token : Token)
  | trailing (token : Token)
  | notScheme (token : Token)
  | inElementPointer (token : Token)
  | notIndex (value : Binary64)
  | noColons
  | inPath (token : Token)
  | idArgument (token : Token)
  | notInteger (expected : Expected) (value : Binary64)
  | notString (token : Token)
deriving DecidableEq, Repr

def SyntaxFault.message : SyntaxFault → String
  | .loneColon => "expected `::`"
  | .loneExclamation => "expected `!=`"
  | .unterminatedLiteral => "unterminated string literal"
  | .unrecognized c => "unrecognized character `" ++ String.singleton c ++ "`"
  | .notOperator name => "expected `and`, `or`, `mod` or `div`, found `" ++ name ++ "`"
  | .unknownAxis name => "unknown axis `" ++ name ++ "`"
  | .noSchemeData none => "expected `(` after scheme name"
  | .noSchemeData (some t) => "expected `(` after scheme name, found `" ++ t.text ++ "`"
  | .strayEscape => "`^` must escape `(`, `)` or `^`"
  | .unbalancedData => "unbalanced parentheses in scheme data"
  | .emptyAddress => "empty string is not an address"
  | .ended e => "address ended prematurely, expected " ++ e.text
  | .found e t => "expected " ++ e.text ++ ", found `" ++ t.text ++ "`"
  | .badStart t => "unexpected `" ++ t.text ++ "` at the start of an address"
  | .trailing t => "unexpected `" ++ t.text ++ "` after a complete address"
  | .notScheme t => "expected a scheme name, found `" ++ t.text ++ "`"
  | .inElementPointer t => "unexpected `" ++ t.text ++ "` in element()"
  | .notIndex x => "child index must be a positive integer, found " ++ x.text
  | .noColons => "expected `::` after axis name"
  | .inPath t => "unexpected `" ++ t.text ++ "` in location path"
  | .idArgument t => "id() expects a string literal, found `" ++ t.text ++ "`"
  | .notInteger e x => e.text ++ " must be an integer, found " ++ x.text
  | .notString t => "expected a string literal, found `" ++ t.text ++ "`"

/-- Why a well-formed address locates nothing. -/
inductive ResolutionFault where
  | noMatch (address : String)
  | notLocation (address : String) (kind : LocationKind)
  | noDocumentElement
deriving DecidableEq, Repr

def ResolutionFault.message : ResolutionFault → String
  | .noMatch a => "`" ++ a ++ "` does not match anything in the document"
  | .notLocation a k => "`" ++ a ++ "` evaluates to a " ++ k.label ++ ", not a location"
  | .noDocumentElement => "document has no document element"

/-- Constructs that are recognised and not evaluated. -/
inductive UnsupportedFault where
  | variable
  | childSequenceFrom (kind : LocationKind)
  | unaryMinus
  | descendantPath
  | functionStep (name : String)
  | axis (name : String)
  | nodeTypeTest (name : String)
  | attributeAxis
  | stepFrom (kind : LocationKind)
  | function (name : String)
  | searchString
  | noStartAndLength
  | noLength
  | stringRangeOver (kind : LocationKind)
  | rangeToSet
  | notLocation (kind : LocationKind)
deriving DecidableEq, Repr

def UnsupportedFault.message : UnsupportedFault → String
  | .variable => "variable references"
  | .childSequenceFrom k => "child sequence from a " ++ k.label
  | .unaryMinus => "unary minus"
  | .descendantPath => "`//` location paths"
  | .functionStep name => "function `" ++ name ++ "()` as a location step"
  | .axis name => "axis `" ++ name ++ "`"
  | .nodeTypeTest name => "node type test `" ++ name ++ "()`"
  | .attributeAxis => "attribute axis"
  | .stepFrom k => "location step from a " ++ k.label
  | .function name => "function `" ++ name ++ "()`"
  | .searchString => "string-range with a non-empty search string"
  | .noStartAndLength => "string-range without start and length"
  | .noLength => "string-range without length"
  | .stringRangeOver k => "string-range over a " ++ k.label
  | .rangeToSet => "range-to over a location set"
  | .notLocation k => k.label ++ " is not a location"

/-- Contradictions in a tree or a selection. -/
inductive InternalFault where
  | missingFromChildren
  | missingFromParent
  | noElementAbove
  | textWithoutParent
  | outsideElement
  | noTagName (kind : NodeKind)
  | notAmongSiblings (tag : String)
  | detached
  | noElementAfterStart
  | noElementBeforeEnd
deriving DecidableEq, Repr

def InternalFault.message : InternalFault → String
  | .missingFromChildren => "node is missing from its parent's child list"
  | .missingFromParent => "node is missing from its parent"
  | .noElementAbove => "text node has no addressable element above it"
  | .textWithoutParent => "text node without parent"
  | .outsideElement => "boundary lies outside the addressed element"
  | .noTagName k => k.label ++ " node has no tag name"
  | .notAmongSiblings tag => "<" ++ tag ++ "> not found among its parent's children"
  | .detached => "cannot build a path to a detached node"
  | .noElementAfterStart => "start boundary does not precede an element"
  | .noElementBeforeEnd => "end boundary does not follow an element"

/-- Arguments that do not fit. -/
inductive ArgumentFault where
  | noDocumentElement
  | outsideDocument
  | offsetTooLarge (offset length : Nat)
  | noParent
  | differentTrees
  | notContainer
  | ownSubtree
  | notReferenceChild
  | notChild
  | splitNonText
  | splitTooFar (offset : Nat)
  | wrapWithoutParent
  | markInNonText
  | textWithoutParent
deriving DecidableEq, Repr

def ArgumentFault.message : ArgumentFault → String
  | .noDocumentElement => "document has no document element"
  | .outsideDocument => "selection lies outside the document"
  | .offsetTooLarge k n => "offset " ++ toString k ++ " exceeds node length " ++ toString n
  | .noParent => "node has no parent"
  | .differentTrees => "document order requires nodes from the same tree"
  | .notContainer => "only elements and documents have children"
  | .ownSubtree => "a node cannot be inserted into its own subtree"
  | .notReferenceChild => "reference node is not a child of this node"
  | .notChild => "node is not a child of this node"
  | .splitNonText => "only text nodes can be split"
  | .splitTooFar k => "split offset " ++ toString k ++ " beyond text length"
  | .wrapWithoutParent => "cannot wrap a node without parent"
  | .markInNonText => "marker insertion needs a text node"
  | .textWithoutParent => "text node has no parent"

/-- A fault of one of the five kinds. `remaining` is the part of the address still to be read. -/
inductive Fault where
  | malformed (cause : SyntaxFault) (remaining : List Char)
  | unresolved (cause : ResolutionFault)
  | unsupported (cause : UnsupportedFault)
  | internal (cause : InternalFault)
  | argument (cause : ArgumentFault)
deriving DecidableEq, Repr

/-- The five kinds of fault. -/
inductive FaultKind where
  | malformed | unresolved | unsupported | internal | argument
deriving DecidableEq, Repr

namespace Fault

def kind : Fault → FaultKind
  | .malformed .. => .malformed
  | .unresolved _ => .unresolved
  | .unsupported _ => .unsupported
  | .internal _ => .internal
  | .argument _ => .argument

def message : Fault → String
  | .malformed cause rest =>
    "syntax error: " ++ cause.message ++ " (remaining: `" ++ String.ofList rest ++ "`)"
  | .unresolved cause => "cannot resolve address: " ++ cause.message
  | .unsupported cause => "unsupported operation: " ++ cause.message
  | .internal cause => "internal error: " ++ cause.message
  | .argument cause => "invalid argument: " ++ cause.message

end Fault

/-- A computation in two parts succeeds with both. -/
theorem exists_of_bind {α β : Type} {x : Except Fault α} {h : α → Except Fault β} {b : β}
    (hb : (x >>= h) = .ok b) : ∃ a, x = .ok a ∧ h a = .ok b := by
  cases x with
  | error e => cases hb
  | ok a => exact ⟨a, rfl, hb⟩

end TreePointer
