import TreePointer.Address.Expression

/-!
# Resolving an address

An address is a bare name, a child sequence, an expression, or a list of scheme parts such as
`xpointer(...)element(...)`. Of the parts the first one that locates something counts; those after
it and those of other schemes are passed over without a look at what they say.

The length of the text after the first token bounds every loop and every nesting of the evaluation;
it is the `bound` that the productions hand on.

Resolving turns an address into one range: the range of the first entry it evaluates to, which has
to be a place. For the decoration it also gives the element in which that range starts.

Modelled are `evaluate`, `scheme_parts` (`schemes`), `xpointer_part` (`expressionPart`),
`element_part`, `starts_expression` (`expressionFunctions`), `resolve` and `resolve_element`, in it
`document_element_of`.

* `evaluate` is the whole language; `resolve` and `resolveElement` are what it is read for.
-/

namespace TreePointer.Address

/-! ## Scheme parts -/

/-- The part `xpointer(...)`, whose name has been taken. -/
def expressionPart (f : Forest) (d : Document) (bound : Nat) (l : Lexer) : Result := do
  let l ← l.expectFence .leftParen
  let (t, l) ← l.expect .expression
  let (ctx, l) ← Expression.fromRoot f d bound t l
  let l ← l.expectFence .rightParen
  .ok (ctx, l)

/-- A child sequence from the root, whose first slash has been taken. -/
def rootSequence (f : Forest) (d : Document) (bound : Nat) (l : Lexer) : Result :=
  childSequence f bound [.node d.root] l

/-- What stands in `element(...)`, whose first token has been taken: a name, a child sequence or
both. -/
def elementPointer (f : Forest) (d : Document) (bound : Nat) (token : Token) (l : Lexer) : Result :=
  match token with
  | .nameTest name => bareName f d bound name l
  | .operator .slash => rootSequence f d bound l
  | t => .error (l.fault (.inElementPointer t))

/-- The part `element(...)`, whose name has been taken. -/
def elementPart (f : Forest) (d : Document) (bound : Nat) (l : Lexer) : Result := do
  let l ← l.expectFence .leftParen
  let (t, l) ← l.expect .elementPointer
  let (ctx, l) ← elementPointer f d bound t l
  let l ← l.expectFence .rightParen
  .ok (ctx, l)

/-- Passes over the data of a part. -/
def skipPart (l : Lexer) : Except Fault Lexer :=
  match l.skipData with
  | (.ok (), l) => .ok l
  | (.error e, _) => .error e

/-- Entries that start with a place. -/
def locating (ctx : Context) : Option Context :=
  if ctx.head?.any Location.isPlace then some ctx else none

/-- One scheme part, whose name has been taken. It is evaluated if nothing was `found` before, and
what it gives is kept if its first entry is a place. -/
def schemePart (f : Forest) (d : Document) (o : Options) (bound : Nat) (token : Token)
    (found : Option Context) (l : Lexer) : Except Fault (Option Context × Lexer) :=
  match token with
  | .functionName scheme =>
    if found.isSome then do
      let l ← skipPart l
      .ok (found, l)
    else if scheme = "xpointer" then do
      let (ctx, l) ← expressionPart f d bound l
      .ok (locating ctx, l)
    else if scheme = "element" ∧ o.elementScheme then do
      let (ctx, l) ← elementPart f d bound l
      .ok (locating ctx, l)
    else do
      let l ← skipPart l
      .ok (none, l)
  | t => .error (l.fault (.notScheme t))

/-- The further scheme parts in a text of at most `fuel` characters. -/
def schemeParts (f : Forest) (d : Document) (o : Options) :
    Nat → Option Context → Lexer → Except Fault (Option Context × Lexer)
  | 0, found, l => .ok (found, l)
  | fuel + 1, found, l => do
    match ← l.next with
    | (none, l) => .ok (found, l)
    | (some t, l) =>
      let (found, l) ← schemePart f d o fuel t found l
      schemeParts f d o fuel found l

/-- A list of scheme parts, the first of whose names has been taken. -/
def schemes (f : Forest) (d : Document) (o : Options) (bound : Nat) (token : Token) (l : Lexer) :
    Result := do
  let (found, l) ← schemePart f d o bound token none l
  let (found, l) ← schemeParts f d o bound found l
  .ok (found.getD [], l)

/-! ## Addresses -/

/-- The functions with which an address without scheme can start. -/
def expressionFunctions : List String :=
  ["id", "string-range", "start-point", "end-point"]

/-- An address, whose first token has been taken. A slash before a number starts a child sequence,
any other slash an expression. -/
def ofToken (f : Forest) (d : Document) (o : Options) (bound : Nat) (token : Token) (l : Lexer) :
    Result :=
  match token with
  | .nameTest name => bareName f d bound name l
  | .operator .slash => do
    match ← l.peek with
    | (some (.number _), l) => rootSequence f d bound l
    | (_, l) => Expression.fromRoot f d bound token l
  | .functionName name =>
    if name ∈ expressionFunctions then Expression.fromRoot f d bound token l
    else schemes f d o bound token l
  | t => .error (l.fault (.badStart t))

/-- Refuses text after a complete address. -/
def expectEnd (l : Lexer) : Except Fault Unit := do
  match ← l.next with
  | (none, _) => .ok ()
  | (some t, l) => .error (l.fault (.trailing t))

/-- Evaluates a whole address, which has to be read to its end. -/
def evaluate (f : Forest) (d : Document) (o : Options) (text : String) : Except Fault Context :=
  if text.toList.all Unicode.isWhiteSpace then .error (.malformed .emptyAddress text.toList)
  else do
    let (t, l) ← (Lexer.ofString text).expect .address
    let (ctx, l) ← ofToken f d o l.rest.length t l
    expectEnd l
    .ok ctx

/-! ## Resolving -/

/-- The range an address stands for. -/
def resolve (f : Forest) (d : Document) (o : Options) (text : String) : Except Fault Range := do
  match ← evaluate f d o text with
  | [] => .error (.unresolved (.noMatch text))
  | first :: _ =>
    if first.isPlace then first.toRange f
    else .error (.unresolved (.notLocation text first.kind))

/-- The node at the start of a range: the element directly after the start if the range begins with
it, otherwise the container of the start, or the parent of a text. -/
def startNode (f : Forest) (r : Range) : Except Fault Node :=
  let container := r.start.container
  if (f.kind container).isContainer then
    match f.childAt? container r.start.offset with
    | some child => .ok (if f.isElement child ∧ ¬ r.isCollapsed then child else container)
    | none => .ok container
  else match f.effectiveParent? container with
    | some p => .ok p
    | none => .error (.internal .textWithoutParent)

/-- The element in which the range of an address starts. For a document it is the first element. -/
def resolveElement (f : Forest) (d : Document) (o : Options) (text : String) :
    Except Fault Node := do
  let r ← resolve f d o text
  let n ← startNode f r
  if f.isElement n then .ok n
  else match f.firstElement? n with
    | some e => .ok e
    | none => .error (.unresolved .noDocumentElement)

end TreePointer.Address
