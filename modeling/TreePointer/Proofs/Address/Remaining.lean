import TreePointer.Address.Resolution
import TreePointer.Proofs.Token.Remaining

/-!
# What a fault of an address reports

Evaluating an address reads it once from the front, except that `range-to` goes back for each of its
starts and that the data of some scheme parts is passed over without being read. Wherever that leads
to a fault in the address, what the fault reports is an end of the address. Faults that come from
the document report no text.

* `toRange_fails`, `stringRange_fails`: what a document is asked for.
* `Evaluator.Stays`: evaluators that stay inside a text; `evaluateNext_stays`: all of them do.
* `evaluate_fails_in`: a whole address.
* `text_lossless`: what becomes of a text that is read.
-/

namespace TreePointer

open Lexer

variable {text : List Char} {f : Forest} {d : Document}

namespace FailsIn

variable {α β : Type} {E : Fault → Prop}

theorem mapM {k : α → Except Fault β} (h : ∀ a, FailsIn E (k a)) (xs : List α) :
    FailsIn E (xs.mapM k) := by
  induction xs with
  | nil => exact .ok _
  | cons x xs ih =>
    rw [List.mapM_cons]
    exact (h x).bind fun _ _ => ih.bind fun _ _ => .ok _

end FailsIn

/-- A run over a list gives what every step keeps. -/
theorem Gives.foldlM {α σ : Type} {E : Fault → Prop} {Q : σ → Prop} {step : σ → α → Except Fault σ}
    (h : ∀ s a, Q s → Gives E Q (step s a)) (xs : List α) {s : σ} (hs : Q s) :
    Gives E Q (xs.foldlM step s) := by
  induction xs generalizing s with
  | nil => exact .ok hs
  | cons x xs ih =>
    rw [List.foldlM_cons]
    exact (h s x hs).bind fun _ hs' => ih hs'

/-! ## What a document is asked for -/

theorem placeOf_fails (n : Node) : FailsIn (Fault.IsIn text) (Boundary.placeOf f n) := by
  unfold Boundary.placeOf
  split
  · exact .error trivial
  · split
    · exact .error trivial
    · exact .ok _

theorem toRange_fails (entry : Location) : FailsIn (Fault.IsIn text) (entry.toRange f) := by
  have haround : ∀ n, FailsIn (Fault.IsIn text) (Range.around f n) := fun n =>
    ((placeOf_fails n).bind fun _ _ => .ok _).bind fun _ _ =>
      ((placeOf_fails n).bind fun _ _ => .ok _).bind fun _ _ => .ok _
  cases entry with
  | node n =>
    unfold Location.toRange Location.rangeAround
    dsimp only
    split
    · exact haround n
    · split
      · exact haround _
      · exact .error trivial
  | range r => exact .ok _
  | _ => exact .error trivial

theorem comparePaths_fails (above : Option Node) (xs ys : List Node) :
    FailsIn (Fault.IsIn text) (f.comparePaths above xs ys) := by
  fun_induction Forest.comparePaths f above xs ys with
  | case4 _ _ _ _ ih => exact ih
  | case5 => exact .error trivial
  | case7 => exact .error trivial
  | _ => exact .ok _

theorem compareForward_fails (a b : Boundary) :
    FailsIn (Fault.IsIn text) (Boundary.compareForward f a b) := by
  unfold Boundary.compareForward
  split
  · exact .ok _
  · split
    · exact .error trivial
    · exact .ok _

theorem compare_fails (a b : Boundary) : FailsIn (Fault.IsIn text) (a.compare f b) := by
  unfold Boundary.compare
  split
  · exact .ok _
  · refine (comparePaths_fails _ _ _).bind fun order _ => ?_
    split
    · exact (compareForward_fails b a).bind fun _ _ => .ok _
    · exact compareForward_fails a b

theorem make_fails (a b : Boundary) : FailsIn (Fault.IsIn text) (Range.make f a b) := by
  have hcheck : ∀ b : Boundary, FailsIn (Fault.IsIn text) (b.check f) := by
    intro b
    unfold Boundary.check
    split
    · exact .ok _
    · exact .error trivial
  refine (hcheck a).bind fun _ _ => (hcheck b).bind fun _ _ => ?_
  refine (compare_fails a b).bind fun order _ => ?_
  cases order <;> exact .ok _

theorem stringRange_fails (n : Node) (start length : Int) :
    FailsIn (Fault.IsIn text) (f.stringRange n start length) := by
  unfold Forest.stringRange
  dsimp only
  split
  · split
    · exact .ok _
    · exact (make_fails _ _).bind fun _ _ => .ok _
  · split <;> exact .ok _

namespace Expression

/-- An evaluator that stays inside a text. -/
def Evaluator.Stays (text : List Char) (inner : Evaluator) : Prop :=
  ∀ e ctx l, l.Inside text → ReadsInside text (inner.run e ctx l)

variable {inner : Evaluator} {ctx : Context} {l : Lexer}

theorem nodesOf_fails (ctx : Context) : FailsIn (Fault.IsIn text) (nodesOf ctx) := by
  refine .mapM (fun entry => ?_) ctx
  cases entry with
  | node n => exact .ok _
  | _ => exact .error trivial

theorem pointOf_fails (toStart : Bool) (entry : Location) :
    FailsIn (Fault.IsIn text) (pointOf f toStart entry) :=
  (toRange_fails entry).bind fun _ _ => .ok _

theorem stringRanges_fails (start length : Nat) (ctx : Context) :
    FailsIn (Fault.IsIn text) (stringRanges f start length ctx) := by
  induction ctx with
  | nil => exact .ok _
  | cons entry ctx ih =>
    cases entry with
    | node n => exact (stringRange_fails n start length).bind fun _ _ => ih.bind fun _ _ => .ok _
    | _ => exact .error trivial

/-! ## Readers without an evaluator -/

theorem skipArguments_stays (depth fuel : Nat) (h : l.Inside text) :
    StaysInside text (skipArguments depth fuel l) := by
  induction fuel generalizing depth l with
  | zero =>
    cases depth with
    | zero => exact .ok h
    | succ depth => exact .error (h.fault _)
  | succ fuel ih =>
    cases depth with
    | zero => exact .ok h
    | succ depth =>
      refine (h.expect _).bind fun ⟨t, l⟩ hl => ?_
      dsimp only
      split <;> exact ih _ hl

theorem skipCall_stays (bound : Nat) (h : l.Inside text) : StaysInside text (skipCall bound l) :=
  (h.expectFence _).bind fun _ hl => skipArguments_stays _ _ hl

theorem idCall_stays (h : l.Inside text) : ReadsInside text (idCall f d l) := by
  refine (h.expect _).bind fun ⟨t, l⟩ hl => ?_
  cases t with
  | literal s => exact .ok hl
  | _ => exact .error (hl.fault _)

theorem refuseEnd_stays (fault : UnsupportedFault) (h : l.Inside text) :
    StaysInside text (refuseEnd fault l) := by
  refine h.peek.bind fun seen hl => ?_
  split
  · exact .error trivial
  · exact .ok hl

theorem expectNoSearch_stays (h : l.Inside text) : StaysInside text (expectNoSearch l) := by
  refine (h.expect _).bind fun ⟨t, l⟩ hl => ?_
  cases t with
  | literal s =>
    dsimp only
    split
    · exact .ok hl
    · exact .error trivial
  | _ => exact .error (hl.fault _)

theorem stringRangeArguments_stays (h : l.Inside text) :
    ReadsInside text (stringRangeArguments l) := by
  refine h.expectComma.bind fun l h => ?_
  refine (expectNoSearch_stays h).bind fun l h => ?_
  refine (refuseEnd_stays _ h).bind fun l h => ?_
  refine h.expectComma.bind fun l h => ?_
  refine (h.expectInteger _).bind fun ⟨start, l⟩ h => ?_
  refine (refuseEnd_stays _ h).bind fun l h => ?_
  refine h.expectComma.bind fun l h => ?_
  exact (h.expectInteger _).bind fun ⟨length, l⟩ h => .ok h

/-! ## Productions -/

section Productions

variable (hinner : inner.Stays text) (h : l.Inside text)

include hinner h

theorem predicates_stays {accept : Node → Bool} {ns : List Node} (fuel : Nat)
    (candidates : Option Context) :
    ReadsInside text (predicates f inner accept ns ctx fuel candidates l) := by
  induction fuel generalizing candidates l with
  | zero => exact .ok h
  | succ fuel ih =>
    refine h.peek.bind fun seen hl => ?_
    split
    · refine hl.next.bind fun ⟨_, l⟩ hl => ?_
      refine (hinner _ _ _ hl).bind fun ⟨value, l⟩ hl => ?_
      exact (hl.expectFence _).bind fun l hl => ih hl _
    · exact .ok hl

theorem nameStep_stays (name : String) : ReadsInside text (nameStep f d inner name ctx l) := by
  refine (Gives.of_failsIn (nodesOf_fails ctx)).bind fun ns _ => ?_
  exact (predicates_stays hinner h _ _).bind fun ⟨_, l⟩ hl => .ok hl

theorem axisStep_stays (axis : String) : ReadsInside text (axisStep f d inner axis ctx l) := by
  unfold axisStep
  split
  · exact .error trivial
  · refine h.next.bind fun found hl => ?_
    split
    · refine (hl.expect _).bind fun ⟨t, l⟩ hl => ?_
      cases t with
      | nameTest name => exact nameStep_stays hinner hl name
      | nodeType name => exact .error trivial
      | _ => exact .error (hl.fault _)
    · exact .error (hl.fault _)

theorem rangeFrom_stays (entry : Location) : ReadsInside text (rangeFrom f inner entry l) := by
  refine (Gives.of_failsIn (toRange_fails entry)).bind fun r _ => ?_
  refine (hinner _ _ _ h).bind fun ⟨target, l⟩ hl => ?_
  dsimp only
  split
  · exact .ok hl
  · refine (Gives.of_failsIn (toRange_fails _)).bind fun last _ => ?_
    exact (Gives.of_failsIn (make_fails _ _)).bind fun made _ => .ok hl
  · exact .error trivial

/-- Going back for the next start leaves the lexer inside the text. -/
theorem rangesFrom_stays (ctx : Context) : ReadsInside text (rangesFrom f inner l ctx) := by
  refine (Gives.foldlM (Q := fun p => p.2.Inside text) (fun s entry _ => ?_) ctx h).bind
    fun ⟨ranges, l⟩ hl => .ok hl
  exact (rangeFrom_stays hinner h entry).bind fun ⟨r, l⟩ hl => .ok hl

theorem rangeTo_stays (ctx : Context) : ReadsInside text (rangeTo f inner ctx l) := by
  cases ctx with
  | nil => exact (skipCall_stays _ h).bind fun l hl => .ok hl
  | cons entry ctx =>
    refine (h.expectFence _).bind fun opened hl => ?_
    refine (rangesFrom_stays hinner hl _).bind fun ⟨ranges, l⟩ hl => ?_
    exact (hl.expectFence _).bind fun l hl => .ok hl

theorem step_stays (token : Token) : ReadsInside text (step f d inner token ctx l) := by
  cases token with
  | dot => exact .ok h
  | dotDot => exact (Gives.of_failsIn (nodesOf_fails ctx)).bind fun ns _ => .ok h
  | functionName name =>
    simp only [step]
    split
    · exact rangeTo_stays hinner h ctx
    · exact .error trivial
  | axisName axis => exact axisStep_stays hinner h axis
  | nameTest name => exact nameStep_stays hinner h name
  | «at» | nodeType _ => exact .error trivial
  | _ => exact .error (h.fault _)

theorem steps_stays (fuel : Nat) (ctx : Context) :
    ReadsInside text (steps f d inner fuel ctx l) := by
  induction fuel generalizing ctx l with
  | zero => exact .ok h
  | succ fuel ih =>
    refine h.peek.bind fun seen hl => ?_
    split
    · exact .error trivial
    · refine hl.next.bind fun ⟨_, l⟩ hl => ?_
      refine (hl.expect _).bind fun ⟨t, l⟩ hl => ?_
      exact (step_stays hinner hl t).bind fun ⟨ctx, l⟩ hl => ih hl ctx
    · exact .ok hl

theorem locationPath_stays (token : Token) :
    ReadsInside text (locationPath f d inner token ctx l) :=
  (step_stays hinner h token).bind fun ⟨ctx, _⟩ hl => steps_stays hinner hl _ ctx

theorem absolutePath_stays : ReadsInside text (absolutePath f d inner l) := by
  refine h.peek.bind fun ⟨t, l⟩ hl => ?_
  dsimp only
  split
  · exact (hl.expect _).bind fun ⟨t, l⟩ hl => locationPath_stays hinner hl t
  · exact .ok hl

theorem stringRangeCall_stays (ctx : Context) :
    ReadsInside text (stringRangeCall f inner ctx l) := by
  refine (hinner _ _ _ h).bind fun ⟨locations, l⟩ hl => ?_
  refine (stringRangeArguments_stays hl).bind fun ⟨(start, length), l⟩ hl => ?_
  exact (Gives.of_failsIn (stringRanges_fails start length locations)).bind fun ranges _ => .ok hl

theorem pointCall_stays (toStart : Bool) (ctx : Context) :
    ReadsInside text (pointCall f inner toStart ctx l) := by
  refine (hinner _ _ _ h).bind fun ⟨locations, l⟩ hl => ?_
  exact (Gives.of_failsIn (.mapM (pointOf_fails toStart) locations)).bind fun points _ => .ok hl

theorem arguments_stays (name : String) (ctx : Context) :
    ReadsInside text (arguments f d inner name ctx l) := by
  unfold arguments
  split
  · exact idCall_stays h
  split
  · exact stringRangeCall_stays hinner h ctx
  split
  · exact pointCall_stays hinner h true ctx
  split
  · exact pointCall_stays hinner h false ctx
  · exact .error trivial

theorem functionCall_stays (name : String) (ctx : Context) :
    ReadsInside text (functionCall f d inner name ctx l) := by
  refine (h.expectFence _).bind fun l hl => ?_
  refine (arguments_stays hinner hl name ctx).bind fun ⟨ctx, l⟩ hl => ?_
  exact (hl.expectFence _).bind fun l hl => .ok hl

theorem pathFrom_stays (ctx : Context) : ReadsInside text (pathFrom f d inner ctx l) := by
  refine h.peek.bind fun seen hl => ?_
  split
  · exact .error trivial
  · refine hl.next.bind fun ⟨_, l⟩ hl => ?_
    exact (hl.expect _).bind fun ⟨t, l⟩ hl => locationPath_stays hinner hl t
  · exact .ok hl

theorem expression_stays (token : Token) (ctx : Context) :
    ReadsInside text (expression f d inner token ctx l) := by
  unfold expression
  split
  · exact .error trivial
  · exact .error trivial
  · exact absolutePath_stays hinner h
  · refine (hinner _ _ _ h).bind fun ⟨ctx, l⟩ hl => ?_
    exact (hl.expectFence _).bind fun l hl => pathFrom_stays hinner hl ctx
  · exact pathFrom_stays hinner h _
  · exact pathFrom_stays hinner h _
  · split
    · exact locationPath_stays hinner h _
    · exact (functionCall_stays hinner h _ ctx).bind fun ⟨ctx, l⟩ hl =>
        pathFrom_stays hinner hl ctx
  · exact locationPath_stays hinner h _

end Productions

/-- **Expressions** stay inside the text, however deep they are inside each other. -/
theorem evaluateNext_stays (bound : Nat) : (evaluator f d bound).Stays text := by
  induction bound with
  | zero => exact fun e ctx l h => .error (h.fault _)
  | succ bound ih =>
    intro e ctx l h
    exact (h.expect e).bind fun ⟨t, l⟩ hl => expression_stays ih hl t ctx

theorem fromRoot_stays (bound : Nat) (token : Token) (h : l.Inside text) :
    ReadsInside text (fromRoot f d bound token l) :=
  expression_stays (evaluateNext_stays bound) h token _

end Expression

namespace Address

variable {ctx : Context} {l : Lexer}

/-! ## Child sequences -/

theorem childElement_fails (index : Nat) (ctx : Context) :
    FailsIn (Fault.IsIn text) (childElement f index ctx) := by
  unfold childElement
  split
  · exact .ok _
  · split <;> exact .ok _
  · exact .error trivial

theorem childSequence_stays (fuel : Nat) (ctx : Context) (h : l.Inside text) :
    ReadsInside text (childSequence f fuel ctx l) := by
  induction fuel generalizing ctx l with
  | zero => exact .error (h.fault _)
  | succ fuel ih =>
    refine h.expectIndex.bind fun ⟨index, l⟩ hl => ?_
    refine (Gives.of_failsIn (childElement_fails index ctx)).bind fun ctx _ => ?_
    refine hl.peek.bind fun seen hl => ?_
    split
    · exact hl.next.bind fun ⟨_, l⟩ hl => ih _ hl
    · exact .ok hl

theorem bareName_stays (bound : Nat) (name : String) (h : l.Inside text) :
    ReadsInside text (bareName f d bound name l) := by
  refine h.peek.bind fun seen hl => ?_
  split
  · exact hl.next.bind fun ⟨_, l⟩ hl => childSequence_stays _ _ hl
  · exact .ok hl

/-! ## Scheme parts -/

theorem expressionPart_stays (bound : Nat) (h : l.Inside text) :
    ReadsInside text (expressionPart f d bound l) := by
  refine (h.expectFence _).bind fun l hl => ?_
  refine (hl.expect _).bind fun ⟨t, l⟩ hl => ?_
  refine (Expression.fromRoot_stays bound t hl).bind fun ⟨ctx, l⟩ hl => ?_
  exact (hl.expectFence _).bind fun l hl => .ok hl

theorem elementPointer_stays (bound : Nat) (token : Token) (h : l.Inside text) :
    ReadsInside text (elementPointer f d bound token l) := by
  unfold elementPointer
  split
  · exact bareName_stays bound _ h
  · exact childSequence_stays bound _ h
  · exact .error (h.fault _)

theorem elementPart_stays (bound : Nat) (h : l.Inside text) :
    ReadsInside text (elementPart f d bound l) := by
  refine (h.expectFence _).bind fun l hl => ?_
  refine (hl.expect _).bind fun ⟨t, l⟩ hl => ?_
  refine (elementPointer_stays bound t hl).bind fun ⟨ctx, l⟩ hl => ?_
  exact (hl.expectFence _).bind fun l hl => .ok hl

theorem skipPart_stays (h : l.Inside text) : StaysInside text (skipPart l) := by
  obtain ⟨hfault, hl⟩ := h.skipData
  unfold skipPart
  split
  · next m hskip =>
    rw [hskip] at hl
    exact .ok hl
  · next e m hskip =>
    rw [hskip] at hfault
    exact .error (hfault e rfl)

theorem schemePart_stays (o : Options) (bound : Nat) (token : Token) (found : Option Context)
    (h : l.Inside text) : ReadsInside text (schemePart f d o bound token found l) := by
  unfold schemePart
  split
  · split
    · exact (skipPart_stays h).bind fun l hl => .ok hl
    split
    · exact (expressionPart_stays bound h).bind fun ⟨ctx, l⟩ hl => .ok hl
    split
    · exact (elementPart_stays bound h).bind fun ⟨ctx, l⟩ hl => .ok hl
    · exact (skipPart_stays h).bind fun l hl => .ok hl
  · exact .error (h.fault _)

theorem schemeParts_stays (o : Options) (fuel : Nat) (found : Option Context)
    (h : l.Inside text) : ReadsInside text (schemeParts f d o fuel found l) := by
  induction fuel generalizing found l with
  | zero => exact .ok h
  | succ fuel ih =>
    refine h.next.bind fun next hl => ?_
    split
    · exact .ok hl
    · exact (schemePart_stays o fuel _ found hl).bind fun ⟨found, l⟩ hl => ih found hl

/-! ## Whole addresses -/

theorem ofToken_stays (o : Options) (bound : Nat) (token : Token) (h : l.Inside text) :
    ReadsInside text (ofToken f d o bound token l) := by
  unfold ofToken
  split
  · exact bareName_stays bound _ h
  · refine h.peek.bind fun seen hl => ?_
    split
    · exact childSequence_stays bound _ hl
    · exact Expression.fromRoot_stays bound _ hl
  · split
    · exact Expression.fromRoot_stays bound _ h
    · refine (schemePart_stays o bound _ none h).bind fun ⟨found, l⟩ hl => ?_
      exact (schemeParts_stays o bound found hl).bind fun ⟨found, l⟩ hl => .ok hl
  · exact .error (h.fault _)

/-- **A whole address**, whatever document it is evaluated in: its faults report an end of its
text. -/
theorem evaluate_fails_in (f : Forest) (d : Document) (o : Options) (text : String) :
    FailsIn (Fault.IsIn text.toList) (evaluate f d o text) := by
  unfold evaluate
  split
  · exact .error List.suffix_rfl
  · refine Gives.fails (Q := fun _ => True) ?_
    refine ((inside_ofString text).expect _).bind fun ⟨t, l⟩ hl => ?_
    refine (ofToken_stays o _ t hl).bind fun ⟨ctx, l⟩ hl => ?_
    have hend : FailsIn (Fault.IsIn text.toList) (expectEnd l) := by
      refine Gives.fails (Q := fun _ => True) (hl.next.bind fun next hl => ?_)
      split
      · exact .ok trivial
      · exact .error (hl.fault _)
    exact (Gives.of_failsIn hend).bind fun _ _ => .ok trivial

/-- **Nothing of a text is lost.** Some tokens that are taken one after the other leave the rest of
the text behind their pieces, of which each is white space and what the token was read of. They are
the first of all tokens of the text, which are no more than it has characters, and where these end,
blank text is left or a fault is there. Whatever is called on the lexer, or whatever document the
text is evaluated in as an address, what is left and what a fault reports is an end of the text. -/
theorem text_lossless (text : String) :
    (∀ ts l, (Lexer.ofString text).Takes ts l →
        (∃ ps : List Piece, List.Forall₂ Piece.Of ps ts ∧
            text.toList = ps.flatMap Piece.chars ++ l.rest) ∧
          ts.length ≤ text.toList.length ∧ ts <+: (Lexer.tokens text).1) ∧
      (∃ l, (Lexer.ofString text).Takes (Lexer.tokens text).1 l ∧ l.Ends (Lexer.tokens text).2) ∧
      (∀ calls, ∀ o ∈ (Session.ofString text).observe calls,
        o.remaining <:+ text.toList ∧ ∀ e, o.answer.fault? = some e → e.IsIn text.toList) ∧
      ∀ f d o, FailsIn (Fault.IsIn text.toList) (evaluate f d o text) := by
  have hfaithful := faithful_ofString text
  refine ⟨fun ts l h => ?_, takes_collect hfaithful (Nat.lt_succ_self _),
    (Session.inside_ofString text).observe, fun f d o => evaluate_fails_in f d o text⟩
  have hlength : ts.length ≤ text.toList.length :=
    Nat.le_trans (Nat.le_add_right _ _) (h.length_le hfaithful)
  exact ⟨h.pieces hfaithful, hlength, h.isPrefix_collect (Nat.le_succ_of_le hlength)⟩

end Address

end TreePointer
