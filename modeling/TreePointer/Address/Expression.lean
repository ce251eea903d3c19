import TreePointer.Address.ChildSequence
import TreePointer.Address.Predicate
import TreePointer.Visible.Count

/-!
# Expressions

An expression is evaluated while it is read: each production takes its tokens from the lexer and
turns the entries it is given into new ones. A lookup that finds nothing gives no entries; it is no
fault. The first fault, of reading or of evaluating, ends the evaluation.

Expressions contain expressions, in parentheses, as arguments and as predicates. The productions are
therefore given the evaluator of the expressions inside them, `inner`, and `evaluateNext` ties the
knot. Every expression takes a token, so the length of the text that is left bounds how deep they
nest and how often a loop runs. That bound is taken once, at the start of an address, and comes with
the evaluator.

Modelled are `expr` (`expression`, `pathFrom`), `absolute_path`, `relative_path` (`locationPath`),
`step`, `nodes_of`, `name_step`, `function_call`, `id_function` (`idCall`), `boundary_point`
(`pointCall`), `string_range` (`stringRangeCall`), `range_to` and `skip_call`.

* `expression`, `locationPath`, `nameStep` and `rangeTo` are the main productions.
* `rangeTo_nil`: without entries, `range-to` passes over its argument.
-/

namespace TreePointer.Expression

/-- The evaluator of the expressions inside an expression. -/
structure Evaluator where
  /-- No lexer that is read from has more text left than this. -/
  bound : Nat
  /-- Evaluates the expression that comes next, starting from some entries. The first argument names
  what is expected in case the text ends. -/
  run : Expected → Context → Lexer → Result

/-! ## Location steps -/

/-- The nodes among which a location step is taken; every entry has to be one. -/
def nodesOf (ctx : Context) : Except Fault (List Node) :=
  ctx.mapM fun
    | .node n => .ok n
    | entry => .error (.unsupported (.stepFrom entry.kind))

/-- The parents of some nodes, each once. -/
def parents (f : Forest) (ns : List Node) : Context :=
  (ns.filterMap f.effectiveParent?).eraseDups.map .node

/-- Reads the predicates of a step, at most `fuel` of them, and applies one after the other. -/
def predicates (f : Forest) (inner : Evaluator) (accept : Node → Bool) (ns : List Node)
    (ctx : Context) : Nat → Option Context → Lexer → Except Fault (Option Context × Lexer)
  | 0, candidates, l => .ok (candidates, l)
  | fuel + 1, candidates, l => do
    match ← l.peek with
    | (some (.fence .leftBracket), l) =>
      let (_, l) ← l.next
      let (value, l) ← inner.run .predicate ctx l
      let l ← l.expectFence .rightBracket
      predicates f inner accept ns ctx fuel
        ((Predicate.ofContext value).apply f accept ns candidates) l
    | (_, l) => .ok (candidates, l)

/-- Whether a node is an element with a name, where `*` is the name of all. -/
def accepts (f : Forest) (d : Document) (name : String) (n : Node) : Bool :=
  f.isElement n && (d.normalizeTag name == "*" || d.tagOf? f n == some (d.normalizeTag name))

/-- The child elements with a name, and what the predicates leave of them. -/
def nameStep (f : Forest) (d : Document) (inner : Evaluator) (name : String) (ctx : Context)
    (l : Lexer) : Result := do
  let ns ← nodesOf ctx
  let (candidates, l) ← predicates f inner (accepts f d name) ns ctx inner.bound none l
  .ok (candidates.getD (f.matching (accepts f d name) ns), l)

/-- The step after an axis, of which only `child` is taken. -/
def axisStep (f : Forest) (d : Document) (inner : Evaluator) (axis : String) (ctx : Context)
    (l : Lexer) : Result :=
  if axis ≠ "child" then .error (.unsupported (.axis axis))
  else do
    match ← l.next with
    | (some .colonColon, l) =>
      let (t, l) ← l.expect .nodeTest
      match t with
      | .nameTest name => nameStep f d inner name ctx l
      | .nodeType name => .error (.unsupported (.nodeTypeTest name))
      | t => .error (l.fault (.found .nodeTest t))
    | (_, l) => .error (l.fault .noColons)

/-! ## Ranges from one place to another -/

/-- Passes over arguments without evaluating them, out of `depth` parentheses and for at most `fuel`
tokens. -/
def skipArguments : Nat → Nat → Lexer → Except Fault Lexer
  | 0, _, l => .ok l
  | _ + 1, 0, l => .error (l.ended (.fence .rightParen))
  | depth + 1, fuel + 1, l => do
    let (t, l) ← l.expect (.fence .rightParen)
    match t with
    | .fence .leftParen => skipArguments (depth + 2) fuel l
    | .fence .rightParen => skipArguments depth fuel l
    | _ => skipArguments (depth + 1) fuel l

/-- Passes over a call in parentheses of at most `bound` tokens. -/
def skipCall (bound : Nat) (l : Lexer) : Except Fault Lexer := do
  let l ← l.expectFence .leftParen
  skipArguments 1 bound l

/-- The range from one entry to the target that is evaluated from it. Without a target the range is
the start of the entry. -/
def rangeFrom (f : Forest) (inner : Evaluator) (entry : Location) (l : Lexer) :
    Except Fault (Location × Lexer) := do
  let start := (← entry.toRange f).start
  let (target, l) ← inner.run .rangeTarget [entry] l
  match target with
  | [] => .ok (.range (.point start), l)
  | [last] =>
    let r ← Range.make f start (← last.toRange f).stop
    .ok (.range r, l)
  | _ => .error (.unsupported .rangeToSet)

/-- The ranges from each of some entries. The target is read again for every entry, each time from
the lexer `opened`; the lexer behind the last one is given back. -/
def rangesFrom (f : Forest) (inner : Evaluator) (opened : Lexer) (ctx : Context) : Result := do
  let (ranges, l) ← ctx.foldlM (fun (done, _) entry => do
    let (r, l) ← rangeFrom f inner entry opened
    .ok (r :: done, l)) ([], opened)
  .ok (ranges.reverse, l)

/-- The function `range-to`. Without entries its argument is passed over. -/
def rangeTo (f : Forest) (inner : Evaluator) (ctx : Context) (l : Lexer) : Result :=
  match ctx with
  | [] => do
    let l ← skipCall inner.bound l
    .ok ([], l)
  | ctx => do
    let opened ← l.expectFence .leftParen
    let (ranges, l) ← rangesFrom f inner opened ctx
    let l ← l.expectFence .rightParen
    .ok (ranges, l)

/-! ## Location paths -/

/-- One step of a location path, whose first token has been taken. -/
def step (f : Forest) (d : Document) (inner : Evaluator) (token : Token) (ctx : Context)
    (l : Lexer) : Result :=
  match token with
  | .dot => .ok (ctx, l)
  | .dotDot => do
    let ns ← nodesOf ctx
    .ok (parents f ns, l)
  | .functionName name =>
    if name = "range-to" then rangeTo f inner ctx l
    else .error (.unsupported (.functionStep name))
  | .axisName axis => axisStep f d inner axis ctx l
  | .nameTest name => nameStep f d inner name ctx l
  | .at => .error (.unsupported .attributeAxis)
  | .nodeType name => .error (.unsupported (.nodeTypeTest name))
  | t => .error (l.fault (.inPath t))

/-- The further steps of a location path, at most `fuel` of them. -/
def steps (f : Forest) (d : Document) (inner : Evaluator) : Nat → Context → Lexer → Result
  | 0, ctx, l => .ok (ctx, l)
  | fuel + 1, ctx, l => do
    match ← l.peek with
    | (some (.operator .slashSlash), _) => .error (.unsupported .descendantPath)
    | (some (.operator .slash), l) =>
      let (_, l) ← l.next
      let (t, l) ← l.expect .locationStep
      let (ctx, l) ← step f d inner t ctx l
      steps f d inner fuel ctx l
    | (_, l) => .ok (ctx, l)

/-- A location path, whose first token has been taken. -/
def locationPath (f : Forest) (d : Document) (inner : Evaluator) (token : Token) (ctx : Context)
    (l : Lexer) : Result := do
  let (ctx, l) ← step f d inner token ctx l
  steps f d inner inner.bound ctx l

/-- Whether a step of a location path can start with this token. -/
def startsStep : Token → Bool
  | .nameTest _ | .axisName _ | .at | .dot | .dotDot | .nodeType _ | .functionName _ => true
  | _ => false

/-- A path from the root, whose slash has been taken. The slash alone is the root. -/
def absolutePath (f : Forest) (d : Document) (inner : Evaluator) (l : Lexer) : Result := do
  let (t, l) ← l.peek
  if t.any startsStep then
    let (t, l) ← l.expect .locationStep
    locationPath f d inner t [.node d.root] l
  else .ok ([.node d.root], l)

/-! ## Functions -/

/-- The pieces of a text between white space. -/
def words (cs : List Char) : List (List Char) :=
  (cs.splitOnP Unicode.isWhiteSpace).filter (!·.isEmpty)

/-- The elements with one of the ids in a text, each once, in the order of the ids. -/
def byIds (f : Forest) (d : Document) (ids : String) : Context :=
  ((words ids.toList).filterMap fun id => d.elementById? f (String.ofList id)).eraseDups.map .node

/-- The arguments of `id`: a literal. -/
def idCall (f : Forest) (d : Document) (l : Lexer) : Result := do
  let (t, l) ← l.expect .idLiteral
  match t with
  | .literal s => .ok (byIds f d s, l)
  | t => .error (l.fault (.idArgument t))

/-- Refuses a call that ends here. -/
def refuseEnd (fault : UnsupportedFault) (l : Lexer) : Except Fault Lexer := do
  match ← l.peek with
  | (some (.fence .rightParen), _) => .error (.unsupported fault)
  | (_, l) => .ok l

/-- Takes the text that is searched for, which has to be empty. -/
def expectNoSearch (l : Lexer) : Except Fault Lexer := do
  let (t, l) ← l.expect .searchString
  match t with
  | .literal s => if s = "" then .ok l else .error (.unsupported .searchString)
  | t => .error (l.fault (.notString t))

/-- The arguments of `string-range` after the location: an empty string, a start and a length. -/
def stringRangeArguments (l : Lexer) : Except Fault ((Nat × Nat) × Lexer) := do
  let l ← l.expectComma
  let l ← expectNoSearch l
  let l ← refuseEnd .noStartAndLength l
  let l ← l.expectComma
  let (start, l) ← l.expectInteger .startOffset
  let l ← refuseEnd .noLength l
  let l ← l.expectComma
  let (length, l) ← l.expectInteger .length
  .ok ((start, length), l)

/-- The ranges of a start and a length in the text of some nodes; a node whose text is too short has
none. -/
def stringRanges (f : Forest) (start length : Nat) : Context → Except Fault Context
  | [] => .ok []
  | .node n :: rest => do
    let found ← f.stringRange n start length
    let others ← stringRanges f start length rest
    .ok (found.toList.map .range ++ others)
  | entry :: _ => .error (.unsupported (.stringRangeOver entry.kind))

/-- The arguments of `string-range`. -/
def stringRangeCall (f : Forest) (inner : Evaluator) (ctx : Context) (l : Lexer) : Result := do
  let (locations, l) ← inner.run .location ctx l
  let ((start, length), l) ← stringRangeArguments l
  let ranges ← stringRanges f start length locations
  .ok (ranges, l)

/-- One end of an entry, as a range. -/
def pointOf (f : Forest) (toStart : Bool) (entry : Location) : Except Fault Location := do
  let r ← entry.toRange f
  .ok (.range (r.collapse toStart))

/-- The arguments of `start-point` and `end-point`: one end of every entry. -/
def pointCall (f : Forest) (inner : Evaluator) (toStart : Bool) (ctx : Context) (l : Lexer) :
    Result := do
  let (locations, l) ← inner.run .location ctx l
  let points ← locations.mapM (pointOf f toStart)
  .ok (points, l)

/-- The arguments of a function. -/
def arguments (f : Forest) (d : Document) (inner : Evaluator) (name : String) (ctx : Context)
    (l : Lexer) : Result :=
  if name = "id" then idCall f d l
  else if name = "string-range" then stringRangeCall f inner ctx l
  else if name = "start-point" then pointCall f inner true ctx l
  else if name = "end-point" then pointCall f inner false ctx l
  else .error (.unsupported (.function name))

/-- A function call, whose name has been taken. -/
def functionCall (f : Forest) (d : Document) (inner : Evaluator) (name : String) (ctx : Context)
    (l : Lexer) : Result := do
  let l ← l.expectFence .leftParen
  let (ctx, l) ← arguments f d inner name ctx l
  let l ← l.expectFence .rightParen
  .ok (ctx, l)

/-! ## Expressions -/

/-- The rest of an expression after a value: nothing, or a location path from it. -/
def pathFrom (f : Forest) (d : Document) (inner : Evaluator) (ctx : Context) (l : Lexer) :
    Result := do
  match ← l.peek with
  | (some (.operator .slashSlash), _) => .error (.unsupported .descendantPath)
  | (some (.operator .slash), l) =>
    let (_, l) ← l.next
    let (t, l) ← l.expect .locationStep
    locationPath f d inner t ctx l
  | (_, l) => .ok (ctx, l)

/-- An expression, whose first token has been taken. -/
def expression (f : Forest) (d : Document) (inner : Evaluator) (token : Token) (ctx : Context)
    (l : Lexer) : Result :=
  match token with
  | .operator .minus => .error (.unsupported .unaryMinus)
  | .operator .slashSlash => .error (.unsupported .descendantPath)
  | .operator .slash => absolutePath f d inner l
  | .fence .leftParen => do
    let (ctx, l) ← inner.run .expression ctx l
    let l ← l.expectFence .rightParen
    pathFrom f d inner ctx l
  | .literal s => pathFrom f d inner [.literal s] l
  | .number x => pathFrom f d inner [.number x] l
  | .functionName name =>
    if name = "range-to" then locationPath f d inner token ctx l
    else do
      let (ctx, l) ← functionCall f d inner name ctx l
      pathFrom f d inner ctx l
  | token => locationPath f d inner token ctx l

/-- The expression that comes next in a text of at most `fuel` characters, which also bounds how
many expressions are inside each other. Without text that is left there is none. -/
def evaluateNext (f : Forest) (d : Document) : Nat → Expected → Context → Lexer → Result
  | 0, e, _, l => .error (l.ended e)
  | fuel + 1, e, ctx, l => do
    let (t, l) ← l.expect e
    expression f d ⟨fuel, evaluateNext f d fuel⟩ t ctx l

/-- The evaluator for a text of at most `bound` characters. -/
def evaluator (f : Forest) (d : Document) (bound : Nat) : Evaluator :=
  ⟨bound, evaluateNext f d bound⟩

/-- An expression that is evaluated from the root and whose first token has been taken, with at most
`bound` characters after it. -/
def fromRoot (f : Forest) (d : Document) (bound : Nat) (token : Token) (l : Lexer) : Result :=
  expression f d (evaluator f d bound) token [.node d.root] l

theorem rangeTo_nil (f : Forest) (inner : Evaluator) (l : Lexer) :
    rangeTo f inner [] l = (skipCall inner.bound l).map fun l => ([], l) := by
  simp only [rangeTo]
  cases skipCall inner.bound l <;> rfl

end TreePointer.Expression
